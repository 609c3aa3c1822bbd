/-
  find_file of init.s.

  `Serves` is what the loader relies on of interrupt 13h: a read into a buffer inside one
  segment transfers the disk's sectors. A loaded sector is searched entry by entry
  (`entryLoop_returns`), and the root directory sector by sector: `findFile_returns` says that
  the first entry with the name is found, and lies in the buffer at 0x9000, and
  `findFile_spec` that this is so for KERNEL.SYS.
-/
import ListaOS.Boot.Geometry
import Mathlib.Data.List.Find

namespace ListaOS.Boot

open Lib

/-! ## Interrupt 13h -/

/-- Physical address of the buffer. -/
def InfoPacket.addr (p : InfoPacket) : Nat := 16 * p.seg.toNat + p.off.toNat

/-- The transfer that a packet asks for. -/
def InfoPacket.transfer (p : InfoPacket) (D : Disk) (m : Mem (BitVec 8)) : Mem (BitVec 8) × Bool :=
  D.read p.sectorCount.toNat p.startSector.toNat p.addr m

/-- For a buffer inside its segment, the call transfers the sectors up to the first that
cannot be read, and `%ah` is 0 exactly if all could. -/
def Serves (D : Disk) (bios : Bios) : Prop :=
  ∀ p m, p.off.toNat + p.sectorCount.toNat * D.size ≤ 0x10000 →
    (bios p m).1 = (p.transfer D m).1 ∧ ((bios p m).2 = 0x00 ↔ (p.transfer D m).2 = true)

/-- Interrupt 13h for a disk. -/
def int13 (D : Disk) : Bios := fun p m =>
  ((p.transfer D m).1, if (p.transfer D m).2 then 0x00 else 0x04)

theorem serves_int13 (D : Disk) : Serves D (int13 D) := by
  intro p m _
  refine ⟨rfl, ?_⟩
  show (if (p.transfer D m).2 = true then (0x00 : BitVec 8) else 0x04) = 0x00 ↔ _
  cases (p.transfer D m).2 <;> decide

/-- The sector buffer. -/
def buffer (size : Nat) : Set Nat := {a | 0x9000 ≤ a ∧ a < 0x9000 + size}

/-- The region of the kernel in the memory map. -/
def kernelRegion : Set Nat := {a | 0x20000 ≤ a ∧ a ≤ 0x2ffff}

section

variable {D : Disk} {bios : Bios} (hb : Serves D bios) {s : InitState}
  (hseg : s.packet.off.toNat + s.packet.sectorCount.toNat * D.size ≤ 0x10000)

include hb hseg

theorem readSector_ok (h : D.AllReadable s.packet.sectorCount.toNat s.packet.startSector.toNat) :
    readSector bios s = .ok { s with
      mem := s.mem.writeList s.packet.addr
        (D.data s.packet.sectorCount.toNat s.packet.startSector.toNat) } := by
  obtain ⟨hmem, hah⟩ := hb s.packet s.mem hseg
  rw [InfoPacket.transfer, D.read_data h] at hmem
  unfold readSector
  rw [if_pos (hah.mpr (D.read_snd.mpr h)), hmem]

theorem readSector_error
    (h : ¬ D.AllReadable s.packet.sectorCount.toNat s.packet.startSector.toNat) :
    readSector bios s = .error (.loadError, { s with mem := (s.packet.transfer D s.mem).1 }) := by
  obtain ⟨hmem, hah⟩ := hb s.packet s.mem hseg
  unfold readSector
  rw [if_neg fun h0 => h (D.read_snd.mp (hah.mp h0)), hmem]

end

/-! ## Comparing names -/

/-- Eleven bytes from `a` on. -/
def nameAt (m : Mem (BitVec 8)) (a : Nat) : List (BitVec 8) :=
  (List.range 11).map fun i => m.read (a + i)

/-- `repe cmpsb` stops behind the byte that decides. -/
theorem repeCmpsb_spec (m : Mem (BitVec 8)) (cs : List (BitVec 8)) {di : BitVec 16}
    (h : di.toNat + cs.length < 2 ^ 16) :
    ((repeCmpsb m cs di).1 = true ↔ (List.range cs.length).map (fun i => m.read (di.toNat + i)) = cs) ∧
      ∃ j ≤ cs.length, (repeCmpsb m cs di).2.toNat = di.toNat + j := by
  induction cs generalizing di with
  | nil => exact ⟨iff_of_true rfl rfl, 0, Nat.le_refl 0, rfl⟩
  | cons c cs ih =>
    rw [List.length_cons] at h
    have hnext : (di + 1).toNat = di.toNat + 1 := toNat_add_one (by omega)
    have hroom : (di + 1).toNat + cs.length < 2 ^ 16 := by omega
    obtain ⟨heq, j, hj, hdi⟩ := ih hroom
    have htail : (List.range (c :: cs).length).map (fun i => m.read (di.toNat + i)) =
        m.read di.toNat :: (List.range cs.length).map fun i => m.read ((di + 1).toNat + i) := by
      rw [List.length_cons, List.range_succ_eq_map, List.map_cons, List.map_map, hnext]
      congr 1
      apply List.map_congr_left
      intro i _
      exact congrArg m.read (by omega)
    unfold repeCmpsb
    rw [htail, List.cons.injEq]
    split
    case isTrue hc =>
      refine ⟨by rw [heq, and_iff_right hc], j + 1, by rw [List.length_cons]; omega, ?_⟩
      rw [hdi, hnext, Nat.add_assoc, Nat.add_comm 1]
    case isFalse hc =>
      exact ⟨iff_of_false Bool.false_ne_true fun h => hc h.1, 1, by rw [List.length_cons]; omega,
        hnext⟩

/-- `andw $0xfff0`. -/
theorem toNat_and_fff0 (x : BitVec 16) : (x &&& 0xfff0).toNat = x.toNat / 16 * 16 :=
  toNat_and_allOnes_shiftLeft x 4

section

variable {name : List (BitVec 8)} (hname : name.length = 11)

include hname

/-- One entry: whether it has the name, and `%di` back at the entry. -/
theorem repeCmpsb_entry (m : Mem (BitVec 8)) (di : BitVec 16) (hdi : di.toNat % 16 = 0)
    (h : di.toNat + 11 < 2 ^ 16) :
    ((repeCmpsb m name di).1 = true ↔ nameAt m di.toNat = name) ∧
      (repeCmpsb m name di).2 &&& 0xfff0 = di := by
  have hroom : di.toNat + name.length < 2 ^ 16 := by rwa [hname]
  obtain ⟨heq, j, hj, hend⟩ := repeCmpsb_spec m name hroom
  rw [hname] at heq hj
  refine ⟨heq, BitVec.eq_of_toNat_eq ?_⟩
  rw [toNat_and_fff0, hend]
  omega

/-! ## A loaded sector -/

/-- One round of the loop over entries, at entry `j` with `r` more behind it. -/
theorem entryLoop_succ (m : Mem (BitVec 8)) {j r : Nat} (h : 0x9000 + 32 * (j + (r + 1)) < 2 ^ 16)
    (n : Nat) :
    entryLoop name m (n + 1) (BitVec.ofNat 16 (0x9000 + 32 * j)) (BitVec.ofNat 16 (32 * (r + 1))) =
      if nameAt m (0x9000 + 32 * j) = name then
        some (some (BitVec.ofNat 16 (0x9000 + 32 * j)))
      else if BitVec.ofNat 16 (32 * r) ≠ 0 then
        entryLoop name m n (BitVec.ofNat 16 (0x9000 + 32 * (j + 1))) (BitVec.ofNat 16 (32 * r))
      else some none := by
  have hdi : (BitVec.ofNat 16 (0x9000 + 32 * j)).toNat = 0x9000 + 32 * j := by
    rw [BitVec.toNat_ofNat]
    exact Nat.mod_eq_of_lt (by omega)
  obtain ⟨hmatch, hback⟩ := repeCmpsb_entry hname m (BitVec.ofNat 16 (0x9000 + 32 * j))
    (by omega) (by omega)
  rw [hdi] at hmatch
  have h32 : (0x0020 : BitVec 16).toNat = 32 := rfl
  have hdx : BitVec.ofNat 16 (32 * (r + 1)) - 0x0020 = BitVec.ofNat 16 (32 * r) := by
    apply BitVec.eq_of_toNat_eq
    simp only [BitVec.toNat_sub, BitVec.toNat_ofNat]
    omega
  have hnext : BitVec.ofNat 16 (0x9000 + 32 * j) + 0x0020 =
      BitVec.ofNat 16 (0x9000 + 32 * (j + 1)) := by
    apply BitVec.eq_of_toNat_eq
    simp only [BitVec.toNat_add, BitVec.toNat_ofNat]
    omega
  rw [entryLoop]
  dsimp only
  rw [hback, hdx, hnext]
  exact if_congr hmatch rfl rfl

/-- The loop over `r` entries, of which entry `j` is the first: `%ax` is the first one with the
name. -/
theorem entryLoop_returns (m : Mem (BitVec 8)) {j r : Nat} (hr : 0 < r)
    (h : 0x9000 + 32 * (j + r) < 2 ^ 16) :
    Returns (fun n => entryLoop name m n (BitVec.ofNat 16 (0x9000 + 32 * j)) (BitVec.ofNat 16 (32 * r)))
      (((List.range' j r).find? fun k => nameAt m (0x9000 + 32 * k) = name).map
        fun k => BitVec.ofNat 16 (0x9000 + 32 * k)) := by
  induction r generalizing j with
  | zero => exact absurd hr (Nat.lt_irrefl 0)
  | succ r ih =>
    have hstep := entryLoop_succ hname m h
    rw [List.range'_succ]
    by_cases hn : nameAt m (0x9000 + 32 * j) = name
    · rw [List.find?_cons_of_pos (by simpa using hn), Option.map_some]
      refine Returns.succ ((Returns.pure _).congr fun n => ?_)
      rw [hstep, if_pos hn]
    · rw [List.find?_cons_of_neg (by simpa using hn)]
      by_cases hr0 : r = 0
      · subst hr0
        refine Returns.succ ((Returns.pure _).congr fun n => ?_)
        rw [hstep, if_neg hn]
        rfl
      · have hne : BitVec.ofNat 16 (32 * r) ≠ 0 := ofNat_ne_zero (by omega) (by omega)
        refine Returns.succ ((ih (j := j + 1) (by omega) (by omega)).congr fun n => ?_)
        rw [hstep, if_neg hn, if_pos hne]

end

/-! ## The root directory -/

/-- The buffer holds sector `n`. -/
def Holds (D : Disk) (n : Nat) (m : Mem (BitVec 8)) : Prop :=
  ∀ j < D.size, m.read (0x9000 + j) = D.byte n j

theorem holds_writeList (D : Disk) (n : Nat) (m : Mem (BitVec 8)) :
    Holds D n (m.writeList 0x9000 (D.sector n)) := by
  intro j hj
  rw [← D.length_sector n] at hj
  have hget : (D.sector n)[j]? = some (D.byte n j) := by
    rw [Disk.byte, List.getD_eq_getElem?_getD, List.getElem?_eq_getElem hj, Option.getD_some]
  exact Mem.read_writeList m 0x9000 hget

/-- Reading one sector into the buffer. -/
theorem readSector_buffer {D : Disk} {bios : Bios} (hb : Serves D bios) (hsize : D.size ≤ 4096)
    {s : InitState} {n : BitVec 32} (hp : s.packet = ⟨1, 0x9000, 0x0000, n⟩)
    (hr : D.readable n.toNat = true) :
    readSector bios s = .ok { s with mem := s.mem.writeList 0x9000 (D.sector n.toNat) } := by
  have hcount : s.packet.sectorCount.toNat = 1 := by rw [hp]; rfl
  have hstart : s.packet.startSector.toNat = n.toNat := by rw [hp]
  have haddr : s.packet.addr = 0x9000 := by simp [InfoPacket.addr, hp]
  have hoff : s.packet.off.toNat = 0x9000 := by simp [hp]
  have hread := readSector_ok hb (s := s) (by rw [hcount, hoff]; omega) (by
    rw [hcount, hstart]
    intro i hi
    rwa [Nat.lt_one_iff.mp hi])
  rwa [hcount, hstart, haddr, D.data_one] at hread

section

variable {V : Volume} (hV : SectorSize V)

/-- Entries of a sector. -/
def entriesPerSector (V : Volume) : Nat := V.bytesPerSector / 32

include hV

theorem bytesPerSector_eq : V.bytesPerSector = 32 * entriesPerSector V := by
  have hmod := hV.bounds.2.2
  rw [entriesPerSector]
  omega

/-- An entry of the buffer ends in the buffer. -/
theorem entry_le (K : Nat) :
    32 * (K % entriesPerSector V) + 32 ≤ V.bytesPerSector ∧ V.bytesPerSector ≤ 4096 := by
  have hE := bytesPerSector_eq hV
  obtain ⟨hsmall, hlarge, -⟩ := hV.bounds
  have hmod : K % entriesPerSector V < entriesPerSector V := Nat.mod_lt _ (by omega)
  omega

theorem entryByte_eq (D : Disk) {i k : Nat} (hk : k < entriesPerSector V) (b : Nat) :
    V.entryByte D (i * entriesPerSector V + k) b = D.byte (V.rootStart + i) (32 * k + b) := by
  have hE := bytesPerSector_eq hV
  have hsum : 32 * (i * entriesPerSector V + k) = 32 * entriesPerSector V * i + 32 * k := by
    rw [Nat.mul_add, Nat.mul_comm i, Nat.mul_assoc]
  have hlt : 32 * k < 32 * entriesPerSector V := by omega
  rw [Volume.entryByte, hE, hsum, Nat.mul_add_div (by omega), Nat.mul_add_mod,
    Nat.div_eq_of_lt hlt, Nat.mod_eq_of_lt hlt, Nat.add_zero]

/-- The names in the buffer are those of the sector's entries. -/
theorem nameAt_eq {D : Disk} (hD : D.size = V.bytesPerSector) {i k : Nat}
    (hk : k < entriesPerSector V) {m : Mem (BitVec 8)} (hm : Holds D (V.rootStart + i) m) :
    nameAt m (0x9000 + 32 * k) = V.entryName D (i * entriesPerSector V + k) := by
  have hE := bytesPerSector_eq hV
  apply List.map_congr_left
  intro b hb
  have hb11 := List.mem_range.mp hb
  rw [entryByte_eq hV D hk, Nat.add_assoc]
  exact hm _ (by omega)

end

/-- The first entry with the name among those of `r` sectors from sector `i` of the root
directory on. -/
def firstEntry (V : Volume) (D : Disk) (name : List (BitVec 8)) (i r : Nat) : Option Nat :=
  (List.range' (i * entriesPerSector V) (r * entriesPerSector V)).find?
    fun k => V.entryName D k = name

theorem firstEntry_succ (V : Volume) (D : Disk) (name : List (BitVec 8)) (i r : Nat) :
    firstEntry V D name i (r + 1) = (firstEntry V D name i 1).or (firstEntry V D name (i + 1) r) := by
  unfold firstEntry
  rw [← List.find?_append, Nat.one_mul, Nat.succ_mul i, List.range'_append_1, Nat.succ_mul r,
    Nat.add_comm (r * _)]

/-- The entry that a sector has lies in that sector. -/
theorem div_of_firstEntry {V : Volume} {D : Disk} {name : List (BitVec 8)} {i K : Nat}
    (h : firstEntry V D name i 1 = some K) : K / entriesPerSector V = i := by
  have hmem := List.mem_range'_1.mp (List.mem_of_find?_eq_some h)
  rw [Nat.one_mul] at hmem
  exact Nat.div_eq_of_lt_le hmem.1 (by rw [Nat.succ_mul]; exact hmem.2)

/-- The address of an entry in the buffer that holds its sector. -/
def entryAddr (V : Volume) (K : Nat) : BitVec 16 :=
  BitVec.ofNat 16 (0x9000 + 32 * (K % entriesPerSector V))

theorem entryAddr_ne_zero {V : Volume} (hV : SectorSize V) (K : Nat) : entryAddr V K ≠ 0x0000 := by
  obtain ⟨hle, hlarge⟩ := entry_le hV K
  exact ofNat_ne_zero (by omega) (by omega)

/-- The entries of one sector. -/
theorem find_entry {V : Volume} (hV : SectorSize V) {D : Disk} (hD : D.size = V.bytesPerSector)
    (name : List (BitVec 8)) {i : Nat} {m : Mem (BitVec 8)} (hm : Holds D (V.rootStart + i) m) :
    ((List.range' 0 (entriesPerSector V)).find? fun k => nameAt m (0x9000 + 32 * k) = name).map
        (fun k => BitVec.ofNat 16 (0x9000 + 32 * k)) =
      (firstEntry V D name i 1).map (entryAddr V) := by
  have hmatch : ∀ k ∈ List.range' 0 (entriesPerSector V),
      decide (nameAt m (0x9000 + 32 * k) = name) =
        decide (V.entryName D (i * entriesPerSector V + k) = name) := by
    intro k hk
    have hlt := (List.mem_range'_1.mp hk).2
    rw [nameAt_eq hV hD (by omega) hm]
  have haddr : ∀ k ∈ (List.range' 0 (entriesPerSector V)).find? fun k =>
      V.entryName D (i * entriesPerSector V + k) = name,
      BitVec.ofNat 16 (0x9000 + 32 * k) = entryAddr V (i * entriesPerSector V + k) := by
    intro k hk
    have hlt := (List.mem_range'_1.mp (List.mem_of_find?_eq_some hk)).2
    rw [entryAddr, Nat.mul_comm i, Nat.mul_add_mod, Nat.mod_eq_of_lt (by omega)]
  unfold firstEntry
  rw [List.find?_congr hmatch, Nat.one_mul, ← Nat.add_zero (i * entriesPerSector V),
    ← List.map_add_range', List.find?_map, Option.map_map, Nat.add_zero]
  exact Option.map_congr haddr

/-- The entries of one sector: `%ax` is the address of the first with the name. -/
theorem entryLoop_sector {V : Volume} (hV : SectorSize V) {D : Disk} (hD : D.size = V.bytesPerSector)
    {name : List (BitVec 8)} (hname : name.length = 11) {i : Nat} {m : Mem (BitVec 8)}
    (hm : Holds D (V.rootStart + i) m) {bps : BitVec 16} (hbps : bps.toNat = V.bytesPerSector) :
    Returns (fun n => entryLoop name m n 0x9000 bps)
      ((firstEntry V D name i 1).map (entryAddr V)) := by
  have hE := bytesPerSector_eq hV
  obtain ⟨hsmall, hlarge, -⟩ := hV.bounds
  have hloop := entryLoop_returns hname m (j := 0) (r := entriesPerSector V) (by omega) (by omega)
  have hdx : BitVec.ofNat 16 (32 * entriesPerSector V) = bps := by
    rw [← hE, ← hbps, BitVec.ofNat_toNat, BitVec.setWidth_eq]
  rwa [hdx, find_entry hV hD name hm] at hloop

/-! ## The loop over sectors -/

section

variable {bios : Bios} {name : List (BitVec 8)} {s t : InitState} {left : BitVec 16}
  (h : readSector bios s = .ok t)

include h

/-- A sector with the entry ends the loop. -/
theorem sectorLoop_hit {ax : BitVec 16}
    (he : Returns (fun n => entryLoop name t.mem n t.packet.off t.bytesPerSector) (some ax)) :
    Returns (fun n => sectorLoop bios name n left s) (.ok (ax, t)) := by
  obtain ⟨N, hN⟩ := he
  refine Returns.succ ⟨N, fun n hn => ?_⟩
  have hfound := hN n hn
  dsimp only at hfound ⊢
  unfold sectorLoop
  rw [h]
  dsimp only
  rw [hfound, Option.bind_some]

/-- The state for the next sector. -/
def nextSector (t : InitState) : InitState :=
  { t with packet := { t.packet with
      startSector := movw t.packet.startSector (t.packet.startSector.setWidth 16 + 0x0001) } }

section

variable (he : Returns (fun n => entryLoop name t.mem n t.packet.off t.bytesPerSector) none)

include he

/-- A sector without the entry: the loop ends behind the last sector, or goes on with the next. -/
theorem sectorLoop_no_entry :
    ∃ N, ∀ n, N ≤ n → sectorLoop bios name (n + 1) left s =
      if left - 1 = 0 then some (.ok (0x0000, t))
      else sectorLoop bios name n (left - 1) (nextSector t) := by
  obtain ⟨N, hN⟩ := he
  refine ⟨N, fun n hn => ?_⟩
  have hnone := hN n hn
  dsimp only at hnone
  rw [sectorLoop, h]
  dsimp only
  rw [hnone, Option.bind_some]
  rfl

/-- A sector without it is skipped. -/
theorem sectorLoop_miss (hleft : left - 1 ≠ 0) {r : Outcome (BitVec 16 × InitState)}
    (hr : Returns (fun n => sectorLoop bios name n (left - 1) (nextSector t)) r) :
    Returns (fun n => sectorLoop bios name n left s) r := by
  obtain ⟨N, hN⟩ := sectorLoop_no_entry h he
  obtain ⟨M, hM⟩ := hr
  refine Returns.succ ⟨max N M, fun n hn => ?_⟩
  exact (hN n (by omega)).trans ((if_neg hleft).trans (hM n (by omega)))

/-- The last sector without it ends the loop. -/
theorem sectorLoop_last (hleft : left - 1 = 0) :
    Returns (fun n => sectorLoop bios name n left s) (.ok (0x0000, t)) := by
  obtain ⟨N, hN⟩ := sectorLoop_no_entry h he
  exact Returns.succ ⟨N, fun n hn => (hN n hn).trans (if_pos hleft)⟩

end

end

/-- A root directory of one sector or more, with sector numbers in 16 bits. -/
structure RootDir (V : Volume) : Prop where
  sector : SectorSize V
  nonempty : 0 < V.rootSectors
  fits : V.rootStart + V.rootSectors ≤ 2 ^ 16

/-- The packet for sector `i` of the root directory. -/
def rootPacket (V : Volume) (i : Nat) : InfoPacket :=
  ⟨1, 0x9000, 0x0000, BitVec.ofNat 32 (V.rootStart + i)⟩

/-- What a search leaves: the variables as they were, the sector of the entry that it found in
the buffer, and the rest of memory. -/
structure Searched (V : Volume) (D : Disk) (hit : Option Nat) (s s' : InitState) : Prop where
  vars : s' = { s with mem := s'.mem, packet := s'.packet }
  holds : ∀ K, hit = some K → Holds D (V.rootStart + K / entriesPerSector V) s'.mem
  writes : Mem.WritesIn (buffer V.bytesPerSector) s.mem s'.mem

section

variable {V : Volume} {D : Disk} {bios : Bios} (hV : RootDir V) (hD : D.size = V.bytesPerSector)
  (hb : Serves D bios) (hread : D.AllReadable V.rootSectors V.rootStart)
  {name : List (BitVec 8)} (hname : name.length = 11)

include hV

theorem nextSector_packet {i : Nat} (hi : i + 1 < V.rootSectors) {t : InitState}
    (hp : t.packet = rootPacket V i) : (nextSector t).packet = rootPacket V (i + 1) := by
  have hfits := hV.fits
  unfold nextSector
  rw [hp, rootPacket, rootPacket, InfoPacket.mk.injEq]
  refine ⟨rfl, rfl, rfl, BitVec.eq_of_toNat_eq ?_⟩
  rw [toNat_movw, BitVec.toNat_add, BitVec.toNat_setWidth, BitVec.toNat_ofNat, BitVec.toNat_ofNat]
  simp only [BitVec.reduceToNat]
  omega

include hD hb hread hname

/-- Loading sector `i` of the root directory and searching it. -/
theorem sector_round {i : Nat} (hi : i < V.rootSectors) {s : InitState}
    (hbps : s.bytesPerSector.toNat = V.bytesPerSector) (hp : s.packet = rootPacket V i) :
    ∃ t, readSector bios s = .ok t ∧ t = { s with mem := t.mem } ∧
      Holds D (V.rootStart + i) t.mem ∧ Mem.WritesIn (buffer V.bytesPerSector) s.mem t.mem ∧
      Returns (fun n => entryLoop name t.mem n t.packet.off t.bytesPerSector)
        ((firstEntry V D name i 1).map (entryAddr V)) := by
  have hlarge := hV.sector.bounds.2.1
  have hfits := hV.fits
  have hstart : (BitVec.ofNat 32 (V.rootStart + i)).toNat = V.rootStart + i := by
    rw [BitVec.toNat_ofNat]
    exact Nat.mod_eq_of_lt (by omega)
  have hsector := readSector_buffer hb (by omega) hp (by rw [hstart]; exact hread i hi)
  rw [hstart] at hsector
  have hholds := holds_writeList D (V.rootStart + i) s.mem
  have hwrites := Mem.writesIn_writeList s.mem 0x9000 (D.sector (V.rootStart + i))
  rw [D.length_sector, hD] at hwrites
  have hoff : s.packet.off = 0x9000 := by rw [hp, rootPacket]
  have hloop := entryLoop_sector hV.sector hD hname hholds hbps
  rw [← hoff] at hloop
  exact ⟨_, hsector, rfl, hholds, hwrites, hloop⟩

/-- An entry of sector `i` ends the loop there. -/
theorem sectorLoop_found (r : Nat) {i K : Nat} (hi : i < V.rootSectors) {s : InitState}
    (hbps : s.bytesPerSector.toNat = V.bytesPerSector) (hp : s.packet = rootPacket V i)
    (hit : firstEntry V D name i 1 = some K) (left : BitVec 16) :
    ∃ s', Returns (fun n => sectorLoop bios name n left s)
        (.ok (((firstEntry V D name i (r + 1)).map (entryAddr V)).getD 0x0000, s')) ∧
      Searched V D (firstEntry V D name i (r + 1)) s s' := by
  obtain ⟨t, hsector, ht, hholds, hwrites, hloop⟩ := sector_round hV hD hb hread hname hi hbps hp
  rw [hit, Option.map_some] at hloop
  rw [firstEntry_succ, hit, Option.some_or, Option.map_some, Option.getD_some]
  refine ⟨t, sectorLoop_hit hsector hloop, ⟨?_, fun L hL => ?_, hwrites⟩⟩
  · rw [ht]
  · obtain rfl := Option.some.inj hL
    rw [div_of_firstEntry hit]
    exact hholds

/-- The loop over the `r + 1` sectors from sector `i` of the root directory on. -/
theorem sectorLoop_returns (r : Nat) {i : Nat} (hr : i + (r + 1) = V.rootSectors) {s : InitState}
    (hbps : s.bytesPerSector.toNat = V.bytesPerSector) (hp : s.packet = rootPacket V i) :
    ∃ s', Returns (fun n => sectorLoop bios name n (BitVec.ofNat 16 (r + 1)) s)
        (.ok (((firstEntry V D name i (r + 1)).map (entryAddr V)).getD 0x0000, s')) ∧
      Searched V D (firstEntry V D name i (r + 1)) s s' := by
  have hfits := hV.fits
  induction r generalizing i s with
  | zero =>
    cases hit : firstEntry V D name i 1 with
    | some K =>
      have hfound := sectorLoop_found hV hD hb hread hname 0 (by omega) hbps hp hit
      rw [hit] at hfound
      exact hfound _
    | none =>
      obtain ⟨t, hsector, ht, -, hwrites, hloop⟩ :=
        sector_round hV hD hb hread hname (i := i) (by omega) hbps hp
      rw [hit] at hloop
      refine ⟨t, sectorLoop_last hsector hloop (by decide), ⟨?_, fun K hK => ?_, hwrites⟩⟩
      · rw [ht]
      · cases hK
  | succ r ih =>
    cases hit : firstEntry V D name i 1 with
    | some K => exact sectorLoop_found hV hD hb hread hname (r + 1) (by omega) hbps hp hit _
    | none =>
      obtain ⟨t, hsector, ht, -, hwrites, hloop⟩ :=
        sector_round hV hD hb hread hname (i := i) (by omega) hbps hp
      rw [hit] at hloop
      have hleft : BitVec.ofNat 16 (r + 1 + 1) - 1 = BitVec.ofNat 16 (r + 1) := by
        rw [BitVec.ofNat_add (r + 1) 1]
        exact BitVec.add_sub_cancel _ _
      have hne : BitVec.ofNat 16 (r + 1) ≠ 0 := ofNat_ne_zero (by omega) (by omega)
      have hpt : t.packet = rootPacket V i := by rw [ht, hp]
      have hbpt : t.bytesPerSector = s.bytesPerSector := by rw [ht]
      obtain ⟨s', hret, hvars, hholds, hrest⟩ := ih (i := i + 1) (by omega)
        (s := nextSector t) (by rw [← hbps, ← hbpt]; rfl) (nextSector_packet hV (by omega) hpt)
      rw [firstEntry_succ, hit, Option.none_or]
      rw [← hleft] at hret hne
      refine ⟨s', sectorLoop_miss hsector hloop hne hret, ⟨?_, hholds, hwrites.trans hrest⟩⟩
      rw [hvars, nextSector, ht]

/-- **find_file** returns the address of the first entry with the name, its sector in the
buffer, or 0. -/
theorem findFile_returns {s : InitState} (hroot : s.rootDirStartSector.toNat = V.rootStart)
    (hsectors : s.rootEntrySectorCount.toNat = V.rootSectors)
    (hbps : s.bytesPerSector.toNat = V.bytesPerSector) (hp : s.packet.startSector = 0) :
    ∃ s', Returns (fun n => findFile bios name n s)
        (.ok (((firstEntry V D name 0 V.rootSectors).map (entryAddr V)).getD 0x0000, s')) ∧
      Searched V D (firstEntry V D name 0 V.rootSectors) s s' := by
  have hfits := hV.fits
  have hpos := hV.nonempty
  have hcount : BitVec.ofNat 16 (V.rootSectors - 1 + 1) = s.rootEntrySectorCount := by
    rw [Nat.sub_add_cancel hpos, ← hsectors, BitVec.ofNat_toNat, BitVec.setWidth_eq]
  have hstart : movw s.packet.startSector (s.rootDirStartSector.setWidth 16) =
      BitVec.ofNat 32 (V.rootStart + 0) := by
    apply BitVec.eq_of_toNat_eq
    rw [toNat_movw, hp, BitVec.toNat_setWidth, hroot, BitVec.toNat_ofNat]
    simp only [BitVec.reduceToNat]
    omega
  obtain ⟨s', hret, hvars, hholds, hwrites⟩ := sectorLoop_returns hV hD hb hread hname
    (V.rootSectors - 1) (i := 0) (by omega)
    (s := { s with packet := ⟨1, 0x9000, 0x0000,
      movw s.packet.startSector (s.rootDirStartSector.setWidth 16)⟩ })
    hbps (by rw [rootPacket, hstart])
  rw [hcount, Nat.sub_add_cancel hpos] at hret
  rw [Nat.sub_add_cancel hpos] at hholds
  exact ⟨s', hret, ⟨hvars, hholds, hwrites⟩⟩

end

/-! ## KERNEL.SYS -/

/-- What find_file leaves when it has found entry `K`: the variables as they were, and the
entry's sector in the buffer. -/
structure Found (V : Volume) (D : Disk) (K : Nat) (s s' : InitState) : Prop where
  mounted : Mounted V s'
  holds : Holds D (V.rootStart + K / entriesPerSector V) s'.mem
  writes : Mem.WritesIn (buffer V.bytesPerSector) s.mem s'.mem

/-- The entries of the volume are among those of its root directory's sectors. -/
theorem rootEntries_le {V : Volume} (hV : SectorSize V) :
    V.rootEntries ≤ V.rootSectors * entriesPerSector V := by
  have hE := bytesPerSector_eq hV
  have hsmall := hV.bounds.1
  have hceil := Nat.lt_div_mul_add (a := 32 * V.rootEntries + (V.bytesPerSector - 1))
    (b := V.bytesPerSector) (by omega)
  have hmul : V.rootSectors * V.bytesPerSector = 32 * (V.rootSectors * entriesPerSector V) := by
    rw [hE, Nat.mul_left_comm]
  rw [Volume.rootSectors] at hmul ⊢
  omega

/-- The first entry of the volume with the name is the first one that find_file sees. -/
theorem firstEntry_of_finds {V : Volume} (hV : SectorSize V) {D : Disk} {name : List (BitVec 8)}
    {K : Nat} (hK : V.Finds D name K) : firstEntry V D name 0 V.rootSectors = some K := by
  obtain ⟨hlt, hname, hfirst⟩ := hK
  have hle := rootEntries_le hV
  rw [firstEntry, Nat.zero_mul]
  refine List.find?_range'_eq_some.mpr ⟨?_, ?_, fun j _ hj => ?_⟩
  · rw [decide_eq_true_eq]
    exact hname
  · rw [List.mem_range'_1]
    omega
  · rw [Bool.not_eq_true', decide_eq_false_iff_not]
    exact hfirst j hj

theorem Loadable.rootDir {V : Volume} (hV : Loadable V) (h : 0 < V.rootEntries) : RootDir V where
  sector := hV.sector
  nonempty := by
    have hle := rootEntries_le hV.sector
    exact Nat.pos_of_ne_zero fun hz => by rw [hz, Nat.zero_mul] at hle; omega
  fits := Nat.le_of_lt hV.fits

/-- **find_file** returns the address of the first entry named KERNEL.SYS, in the buffer. -/
theorem findFile_spec {V : Volume} {D : Disk} {bios : Bios} (hV : Loadable V)
    (hD : D.size = V.bytesPerSector) (hb : Serves D bios) (hread : ∀ n, D.readable n = true)
    {K : Nat} (hK : V.Finds D kernelFileName K) {s : InitState} (hs : Mounted V s)
    (hp : s.packet.startSector = 0) :
    ∃ s', Returns (fun n => findFile bios kernelFileName n s)
        (.ok (BitVec.ofNat 16 (0x9000 + 32 * (K % entriesPerSector V)), s')) ∧ Found V D K s s' := by
  have hroot := hV.rootDir (Nat.lt_of_le_of_lt (Nat.zero_le K) hK.1)
  obtain ⟨s', hret, hvars, hholds, hwrites⟩ := findFile_returns hroot hD hb (fun i _ => hread _)
    (show kernelFileName.length = 11 from rfl) hs.root hs.rootSectors hs.bytesPerSector hp
  have hfirst := firstEntry_of_finds hV.sector hK
  rw [hfirst, Option.map_some, Option.getD_some] at hret
  refine ⟨s', hret, ⟨?_, hholds K hfirst, hwrites⟩⟩
  rw [hvars]
  exact hs.update _ _

/-- The bytes of an entry whose sector is in the buffer. -/
theorem read_entry {V : Volume} {D : Disk} (hV : SectorSize V) (hD : D.size = V.bytesPerSector)
    {K : Nat} {m : Mem (BitVec 8)} (h : Holds D (V.rootStart + K / entriesPerSector V) m) {b : Nat}
    (hb : b < 32) :
    m.read (0x9000 + (32 * (K % entriesPerSector V) + b)) = V.entryByte D K b := by
  obtain ⟨hle, hlarge⟩ := entry_le hV K
  have hE := bytesPerSector_eq hV
  have hentry := entryByte_eq hV D (i := K / entriesPerSector V) (k := K % entriesPerSector V)
    (by omega) b
  rw [Nat.div_add_mod'] at hentry
  rw [hentry]
  exact h _ (by omega)

/-- The first cluster of the entry in the buffer. -/
theorem Found.cluster {V : Volume} {D : Disk} (hV : Loadable V) (hD : D.size = V.bytesPerSector)
    {K : Nat} {s s' : InitState} (h : Found V D K s s') :
    s'.mem.load16 (BitVec.ofNat 16 (0x9000 + 32 * (K % entriesPerSector V)) + 0x1a).toNat =
      V.entryCluster D K := by
  obtain ⟨hle, hlarge⟩ := entry_le hV.sector K
  have haddr : (BitVec.ofNat 16 (0x9000 + 32 * (K % entriesPerSector V)) + 0x1a).toNat =
      0x9000 + (32 * (K % entriesPerSector V) + 0x1a) := by
    have h1a : (0x1a : BitVec 16).toNat = 0x1a := rfl
    rw [BitVec.toNat_add, BitVec.toNat_ofNat, h1a]
    omega
  rw [Volume.entryCluster, Volume.word, ← read_entry hV.sector hD h.holds (by decide),
    ← read_entry hV.sector hD h.holds (by decide), haddr]
  rfl

end ListaOS.Boot
