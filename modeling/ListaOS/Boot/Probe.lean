/-
  The BIOS memory map (bootloader/BIOS/init.s, `start_probe`), and the page that mm_init
  reads it from.

  A response of interrupt 15h, function e820, is a carry or a record of 20 bytes at `es:di`
  with a continuation value; behind the listed responses the BIOS answers with a carry. The
  loop has no bound of its own, and the map is given one page, 0xe000..0xefff, that the
  kernel sees at BIOS_MEM_MAP_BASE (`readByte_memMap`). 204 records fit behind their count
  (`probe_fits_iff`).
-/
import ListaOS.Lib.Disk
import ListaOS.Mm.Basic
import ListaOS.Paging.Boot

namespace ListaOS.Boot

open Lib Mm Paging

/-! ## Records in memory -/

/-- The bytes of a word, as they lie in memory. -/
def wordBytes (v : BitVec 32) : List (BitVec 8) :=
  [v.extractLsb' 0 8, v.extractLsb' 8 8, v.extractLsb' 16 8, v.extractLsb' 24 8]

/-- The 20 bytes of a record, word by word. -/
def recordWords (e : BiosMeminfo) : List (BitVec 32) :=
  [e.addr.extractLsb' 0 32, e.addr.extractLsb' 32 32, e.size.extractLsb' 0 32,
    e.size.extractLsb' 32 32, e.type]

def recordBytes (e : BiosMeminfo) : List (BitVec 8) := (recordWords e).flatMap wordBytes

/-- `memInfo[i]` of mm_init, for the record at `a`. -/
def readMeminfo (m : Mem (BitVec 8)) (a : Nat) : BiosMeminfo where
  addr := m.load32 (a + 4) ++ m.load32 a
  size := m.load32 (a + 12) ++ m.load32 (a + 8)
  type := m.load32 (a + 16)

/-- Element `i` of chunk `k`, where all chunks have `n` elements. -/
theorem getElem?_flatMap_of_length {α β : Type} {f : α → List β} {n : Nat} {l : List α}
    (h : ∀ a ∈ l, (f a).length = n) {k i : Nat} {a : α} (hk : l[k]? = some a) (hi : i < n) :
    (l.flatMap f)[n * k + i]? = (f a)[i]? := by
  induction l generalizing k with
  | nil => cases hk
  | cons b l ih =>
    have hb := h b List.mem_cons_self
    rw [List.flatMap_cons]
    cases k with
    | zero =>
      obtain rfl := Option.some.inj hk
      rw [Nat.mul_zero, Nat.zero_add, List.getElem?_append_left (by omega)]
    | succ k =>
      have hlen : n * (k + 1) + i - (f b).length = n * k + i := by
        rw [hb, Nat.mul_succ]
        omega
      rw [List.getElem?_append_right (by rw [hb, Nat.mul_succ]; omega), hlen]
      exact ih (fun c hc => h c (List.mem_cons_of_mem b hc)) hk

theorem length_recordBytes (e : BiosMeminfo) : (recordBytes e).length = 20 := rfl

theorem load32_of_bytes {m : Mem (BitVec 8)} {a : Nat} {v : BitVec 32}
    (h : ∀ i c, (wordBytes v)[i]? = some c → m.read (a + i) = c) : m.load32 a = v := by
  have h0 : m.read a = v.extractLsb' 0 8 := h 0 _ rfl
  unfold Mem.load32
  rw [h 3 _ rfl, h 2 _ rfl, h 1 _ rfl, h0]
  exact Mem.append_bytes v

/-- Two words cut out of a double word make the double word. -/
theorem append_words (v : BitVec 64) :
    (v.extractLsb' 32 32 ++ v.extractLsb' 0 32 : BitVec 64) = v := by
  ext i hi
  simp only [BitVec.getElem_append, BitVec.getElem_extractLsb']
  rw [← BitVec.getLsbD_eq_getElem (show i < 64 from hi)]
  split
  · rw [Nat.zero_add]
  · rw [show 32 + (i - 32) = i by omega]

/-- What lies in memory as the bytes of a record is read back as the record. -/
theorem readMeminfo_of_bytes {m : Mem (BitVec 8)} {a : Nat} {e : BiosMeminfo}
    (h : ∀ i c, (recordBytes e)[i]? = some c → m.read (a + i) = c) : readMeminfo m a = e := by
  have hword : ∀ k v, (recordWords e)[k]? = some v → m.load32 (a + 4 * k) = v := by
    intro k v hk
    refine load32_of_bytes fun i c hi => ?_
    have hi4 : i < 4 := (List.getElem?_eq_some_iff.mp hi).1
    have hchunk := getElem?_flatMap_of_length (f := wordBytes) (fun _ _ => rfl) hk hi4
    rw [Nat.add_assoc]
    exact h _ c (hchunk.trans hi)
  have h0 : m.load32 a = e.addr.extractLsb' 0 32 := hword 0 _ rfl
  have h1 : m.load32 (a + 4) = e.addr.extractLsb' 32 32 := hword 1 _ rfl
  have h2 : m.load32 (a + 8) = e.size.extractLsb' 0 32 := hword 2 _ rfl
  have h3 : m.load32 (a + 12) = e.size.extractLsb' 32 32 := hword 3 _ rfl
  have h4 : m.load32 (a + 16) = e.type := hword 4 _ rfl
  unfold readMeminfo
  rw [h0, h1, h2, h3, h4, append_words, append_words]

/-! ## The probe -/

/-- A response of int 15h, function e820. -/
inductive Response where
  | carry
  | record (entry : BiosMeminfo) (continuation : BitVec 32)

def memMapAddr : BitVec 16 := 0xe000

/-- From `start_probe` to `finish_probe`: memory and `MemMapLen`. -/
def startProbe : List Response → BitVec 16 → BitVec 32 → Mem (BitVec 8) →
    Mem (BitVec 8) × BitVec 32
  | [], _, memMapLen, m => (m, memMapLen)
  | .carry :: _, _, memMapLen, m => (m, memMapLen)
  | .record entry ebx :: responses, di, memMapLen, m =>
      -- the BIOS stores its record at es:di
      let m := m.writeList di.toNat (recordBytes entry)
      let di := di + 0x14
      let memMapLen := memMapLen + 1
      if ebx ≠ 0 then startProbe responses di memMapLen m else (m, memMapLen)

/-- The code around the loop; `MemMapLen` is 0 in .data. -/
def probe (responses : List Response) (m : Mem (BitVec 8)) : Mem (BitVec 8) :=
  let m := m.store32 memMapAddr.toNat 0
  let (m, memMapLen) := startProbe responses (memMapAddr + 4) 0 m
  m.store32 memMapAddr.toNat memMapLen

/-- The successful records, up to the carry or the continuation value 0. -/
def records : List Response → List BiosMeminfo
  | [] => []
  | .carry :: _ => []
  | .record entry continuation :: responses =>
      entry :: if continuation ≠ 0 then records responses else []

/-- The bytes of `l`, one record behind the other. -/
def mapBytes (l : List BiosMeminfo) : List (BitVec 8) := l.flatMap recordBytes

theorem length_mapBytes (l : List BiosMeminfo) : (mapBytes l).length = 20 * l.length := by
  unfold mapBytes
  induction l with
  | nil => rfl
  | cons e l ih =>
    rw [List.flatMap_cons, List.length_append, length_recordBytes, ih, List.length_cons]
    omega

/-- Where the records end inside the segment, the loop writes them and counts them. -/
theorem startProbe_eq (responses : List Response) {di : BitVec 16} (memMapLen : BitVec 32)
    (m : Mem (BitVec 8)) (h : di.toNat + 20 * (records responses).length < 2 ^ 16) :
    startProbe responses di memMapLen m =
      (m.writeList di.toNat (mapBytes (records responses)),
        memMapLen + BitVec.ofNat 32 (records responses).length) := by
  induction responses generalizing di memMapLen m with
  | nil => rw [startProbe]; exact congrArg _ (BitVec.add_zero memMapLen).symm
  | cons r responses ih =>
    cases r with
    | carry => rw [startProbe]; exact congrArg _ (BitVec.add_zero memMapLen).symm
    | record entry ebx =>
      unfold startProbe records
      by_cases hebx : ebx ≠ 0
      · rw [records, if_pos hebx, List.length_cons] at h
        have hdi : (di + 0x14).toNat = di.toNat + 20 :=
          BitVec.toNat_add_of_lt (show di.toNat + 20 < 2 ^ 16 by omega)
        have hcount : memMapLen + 1 + BitVec.ofNat 32 (records responses).length =
            memMapLen + BitVec.ofNat 32 ((records responses).length + 1) := by
          rw [BitVec.add_assoc, BitVec.ofNat_add, BitVec.add_comm 1]
          rfl
        simp only [if_pos hebx]
        rw [ih (memMapLen + 1) _ (by omega), hdi, hcount, List.length_cons, mapBytes, mapBytes,
          List.flatMap_cons, Mem.writeList_append, length_recordBytes]
      · simp only [if_neg hebx]
        rfl

/-- The loop only adds to the log. -/
theorem log_startProbe (responses : List Response) (di : BitVec 16) (memMapLen : BitVec 32)
    (m : Mem (BitVec 8)) : ∃ l, (startProbe responses di memMapLen m).1.log = l ++ m.log := by
  induction responses generalizing di memMapLen m with
  | nil => exact ⟨[], rfl⟩
  | cons r responses ih =>
    cases r with
    | carry => exact ⟨[], rfl⟩
    | record entry ebx =>
      obtain ⟨l, hl, -⟩ := (Mem.writesIn_writeList m di.toNat (recordBytes entry)).log
      unfold startProbe
      dsimp only
      split
      · obtain ⟨l', hl'⟩ := ih (di + 0x14) (memMapLen + 1) (m.writeList di.toNat (recordBytes entry))
        exact ⟨l' ++ l, by rw [hl', hl, List.append_assoc]⟩
      · exact ⟨l, hl⟩

/-- Record 204 crosses the end of the page. -/
theorem startProbe_leaves_page (responses : List Response) {di : BitVec 16} (memMapLen : BitVec 32)
    (m : Mem (BitVec 8)) {k : Nat} (hdi : di.toNat = 0xe004 + 20 * k) (hk : k ≤ 204)
    (hlen : 204 < k + (records responses).length) :
    ∃ l, (startProbe responses di memMapLen m).1.log = l ++ m.log ∧ 0xf000 ∈ l := by
  induction responses generalizing di memMapLen m k with
  | nil => exact absurd hlen (by rw [records, List.length_nil]; omega)
  | cons r responses ih =>
    cases r with
    | carry => exact absurd hlen (by rw [records, List.length_nil]; omega)
    | record entry ebx =>
      have hwrite := Mem.mem_log_writeList_add m di.toNat
        (show 12 < (recordBytes entry).length by rw [length_recordBytes]; omega)
      obtain ⟨l, hl, hcell⟩ := hwrite
      obtain hlast | hmore := Nat.eq_or_lt_of_le hk
      · -- the record at 0xeff4
        rw [hdi, hlast] at hcell
        unfold startProbe
        dsimp only
        split
        · obtain ⟨l', hl'⟩ := log_startProbe responses (di + 0x14) (memMapLen + 1)
            (m.writeList di.toNat (recordBytes entry))
          exact ⟨l' ++ l, by rw [hl', hl, List.append_assoc], List.mem_append_right l' hcell⟩
        · exact ⟨l, hl, hcell⟩
      · have hdi' : (di + 0x14).toNat = 0xe004 + 20 * (k + 1) := by
          rw [BitVec.toNat_add, hdi]
          simp only [BitVec.reduceToNat]
          omega
        unfold records at hlen
        by_cases hebx : ebx ≠ 0
        · rw [if_pos hebx, List.length_cons] at hlen
          obtain ⟨l', hl', hmem⟩ := ih (memMapLen + 1)
            (m.writeList di.toNat (recordBytes entry)) hdi' hmore (by omega)
          unfold startProbe
          simp only [if_pos hebx]
          exact ⟨l' ++ l, by rw [hl', hl, List.append_assoc], List.mem_append_left l hmem⟩
        · rw [if_neg hebx, List.length_singleton] at hlen
          omega

/-! ## The page -/

/-- The page of the memory map. -/
def memMapPage : Set Nat := {a | 0xe000 ≤ a ∧ a < 0xf000}

/-- BIOS_MEM_MAP_BASE. -/
def biosMemMapBase : Nat := 0xc0012000

/-- What mm_init reads: the number of records and, at the virtual addresses behind it, as many
records of 20 bytes. -/
def memMapReads (infoNum : Nat) : Set Nat :=
  {a | biosMemMapBase ≤ a ∧ a < biosMemMapBase + 4 + 20 * infoNum}

/-- The page at BIOS_MEM_MAP_BASE. -/
def memMapWindow : Set Nat := {a | biosMemMapBase ≤ a ∧ a < biosMemMapBase + 0x1000}

/-- The memory `m'` holds the records `l`, in order from 0xe004, and their number at 0xe000;
only the page was stored to, and mm_init reads from that page only. -/
structure Probed (l : List BiosMeminfo) (m m' : Mem (BitVec 8)) : Prop where
  stored : ∀ i e, l[i]? = some e → readMeminfo m' (0xe004 + 20 * i) = e
  count : (m'.load32 0xe000).toNat = l.length
  writes : Mem.WritesIn memMapPage m m'
  reads : memMapReads (m'.load32 0xe000).toNat ⊆ memMapWindow

theorem probed_of_le {responses : List Response} (m : Mem (BitVec 8))
    (h : (records responses).length ≤ 204) :
    Probed (records responses) m (probe responses m) := by
  have hbase : memMapAddr.toNat = 0xe000 := rfl
  have hdi : (memMapAddr + 4).toNat = 0xe004 := rfl
  have hcells : ∀ i < 4, 0xe000 + i ∈ memMapPage := fun i hi => ⟨by omega, by omega⟩
  have hprobe : probe responses m = ((m.store32 0xe000 0).writeList 0xe004
      (mapBytes (records responses))).store32 0xe000
        (0 + BitVec.ofNat 32 (records responses).length) := by
    unfold probe
    dsimp only
    rw [startProbe_eq responses 0 _ (by rw [hdi]; omega), hbase, hdi]
  have hcount : (0 + BitVec.ofNat 32 (records responses).length).toNat =
      (records responses).length := by
    refine (congrArg BitVec.toNat (BitVec.zero_add _)).trans ?_
    rw [BitVec.toNat_ofNat]
    exact Nat.mod_eq_of_lt (by omega)
  have hload : ((probe responses m).load32 0xe000).toNat = (records responses).length := by
    rw [hprobe, Mem.load32_store32_self, hcount]
  refine ⟨fun i e hi => ?_, hload, ?_, ?_⟩
  · refine readMeminfo_of_bytes fun j c hj => ?_
    have hj20 : j < 20 := (List.getElem?_eq_some_iff.mp hj).1
    have hchunk := getElem?_flatMap_of_length (f := recordBytes) (fun e _ => length_recordBytes e)
      hi hj20
    rw [hprobe, Mem.read_store32_of_ne _ _ (by omega), Nat.add_assoc]
    exact Mem.read_writeList _ _ (hchunk.trans hj)
  · rw [hprobe]
    refine ((Mem.writesIn_store32 m 0 hcells).trans
      ((Mem.writesIn_writeList _ _ _).mono ?_)).trans (Mem.writesIn_store32 _ _ hcells)
    intro a ha
    obtain ⟨hlo, hhi⟩ := ha
    rw [length_mapBytes] at hhi
    exact ⟨by omega, by omega⟩
  · rw [hload]
    intro a ha
    exact ⟨ha.1, Nat.lt_of_lt_of_le ha.2 (by omega)⟩

theorem le_of_probed {responses : List Response} {m : Mem (BitVec 8)}
    (h : Probed (records responses) m (probe responses m)) : (records responses).length ≤ 204 := by
  by_contra hmore
  have hfirst : (memMapAddr + 4).toNat = 0xe004 + 20 * 0 := rfl
  obtain ⟨l, hl, hcell⟩ := startProbe_leaves_page responses 0 (m.store32 memMapAddr.toNat 0) hfirst
    (by omega) (by omega)
  obtain ⟨l₀, hl₀, -⟩ := (Mem.writesIn_store32 (S := Set.univ) m (a := memMapAddr.toNat) 0
    fun _ _ => Set.mem_univ _).log
  obtain ⟨l₁, hl₁, -⟩ := (Mem.writesIn_store32 (S := Set.univ)
    (startProbe responses (memMapAddr + 4) 0 (m.store32 memMapAddr.toNat 0)).1
    (a := memMapAddr.toNat)
    (startProbe responses (memMapAddr + 4) 0 (m.store32 memMapAddr.toNat 0)).2
    fun _ _ => Set.mem_univ _).log
  have hlog : (probe responses m).log = (l₁ ++ (l ++ l₀)) ++ m.log := by
    unfold probe
    rw [hl₁, hl, hl₀, List.append_assoc, List.append_assoc]
  have hin := h.writes.mem_of_append hlog
    (List.mem_append_right l₁ (List.mem_append_left l₀ hcell))
  exact absurd hin.2 (Nat.lt_irrefl _)

/-- **The memory map fits its page**, and mm_init finds every record in it, exactly when the
BIOS answers with at most 204 records. -/
theorem probe_fits_iff (responses : List Response) (m : Mem (BitVec 8)) :
    Probed (records responses) m (probe responses m) ↔ (records responses).length ≤ 204 :=
  ⟨le_of_probed, probed_of_le m⟩

theorem length_records_replicate (entry : BiosMeminfo) (n : Nat) :
    (records (List.replicate n (.record entry 1))).length = n := by
  induction n with
  | zero => rfl
  | succ n ih =>
    rw [List.replicate_succ, records, if_pos (by decide), List.length_cons, ih]

/-- A BIOS with 205 records. -/
theorem probe_overflows :
    ¬ Probed (records (List.replicate 205 (.record ⟨0x100000, 0x1000, 1⟩ 1)))
      (Mem.fresh fun _ => 0)
      (probe (List.replicate 205 (.record ⟨0x100000, 0x1000, 1⟩ 1)) (Mem.fresh fun _ => 0)) := by
  intro h
  have hle := le_of_probed h
  rw [length_records_replicate] at hle
  omega

/-- What the kernel reads at BIOS_MEM_MAP_BASE is the page that the probe filled. -/
theorem memMap_readByte {responses : List Response} {m : Mem (BitVec 8)} {a : Nat}
    (h : Probed (records responses) m (probe responses m))
    (ha : a ∈ memMapReads (records responses).length) :
    (protectModeStart (probe responses m)).readByte (BitVec.ofNat 32 a) =
      some ((probe responses m).read (0xe000 + (a - biosMemMapBase))) := by
  have hpage : a ∈ memMapWindow := h.reads (h.count.symm ▸ ha)
  obtain ⟨hlo, hhi⟩ := hpage
  have hva : BitVec.ofNat 32 a = 0xc0012000 + BitVec.ofNat 32 (a - biosMemMapBase) := by
    rw [show (0xc0012000 : BitVec 32) = BitVec.ofNat 32 biosMemMapBase from rfl,
      ← BitVec.ofNat_add, Nat.add_sub_cancel' hlo]
  rw [hva]
  exact readByte_memMap _ (by omega)

end ListaOS.Boot
