/-
  .bss when main is entered.

  kernel.sys has no bytes for .bss, and neither the loader nor protect_mode_start stores
  zeros there. `readByte_kernel`: through the kernel's mapping, main reads the clusters of
  the file, and behind them the RAM from before the boot. `bss_zero_iff` is the condition
  that they were 0.
-/
import ListaOS.Boot.LoadFile
import ListaOS.Paging.Boot

namespace ListaOS.Boot

open Lib Paging

/-- The byte at offset `v` of the kernel: of the file's clusters, or else of the RAM `m`. -/
def kernelByte (V : Volume) (D : Disk) (cs : List Nat) (m : Mem (BitVec 8)) (v : Nat) : BitVec 8 :=
  ((V.file D cs)[v]?).getD (m.read (0x20000 + v))

/-- The loader leaves those bytes. -/
theorem Placed.read {V : Volume} {D : Disk} (hsmall : V.bytesPerSector ≤ 4096)
    (hD : D.size = V.bytesPerSector) {cs : List Nat} {m m' : Mem (BitVec 8)}
    (h : Placed V D 0x20000 cs m m') (v : Nat) :
    m'.read (0x20000 + v) = kernelByte V D cs m v := by
  rw [kernelByte]
  cases hv : (V.file D cs)[v]? with
  | some b => exact h.bytes v b hv
  | none =>
    have hlen := List.getElem?_eq_none_iff.mp hv
    rw [Volume.length_file hD] at hlen
    refine h.writes.read _ ?_
    rintro (⟨-, hhi⟩ | ⟨-, hhi⟩) <;> omega

/-- The kernel's mapping shows the RAM that protect_mode_start found. -/
theorem readByte_kernel (r : Mem (BitVec 8)) {v : Nat} (hv : v < 0x10000) :
    (protectModeStart r).readByte (0xc0000000 + BitVec.ofNat 32 v) = some (r.read (0x20000 + v)) := by
  rw [Mmu.readByte, translate_kernel r hv, Option.map_some,
    protectModeStart_region r (by omega) (by omega)]

/-- **.bss is zero** when main is entered exactly if the bytes behind the image in the file's
clusters are, and behind the clusters the RAM before the boot. `F` is the size of the image and
`K` its end with .bss; `r` is the memory when protect_mode_start is entered, where the rest of
the real mode code has kept the kernel's region. -/
theorem bss_zero_iff {D : Disk} {bios : Bios} (hb : Serves D bios)
    (hread : ∀ n, D.readable n = true) {bx : BitVec 16} {m : Mem (BitVec 8)}
    (hV : Loadable (bootVolume bx m)) (hD : D.size = (bootVolume bx m).bytesPerSector)
    {cs : List Nat} (hfile : KernelFile (bootVolume bx m) D cs) (F : Nat) {K : Nat}
    (hK : K ≤ 0x10000) :
    ∃ s, Returns (fun n => initStart bios n bx (InitState.boot m)) (.ok s) ∧
      ∀ r, Set.EqOn (Mem.read r) s.mem.read kernelRegion →
        ((∀ v, F ≤ v → v < K →
          (protectModeStart r).readByte (0xc0000000 + BitVec.ofNat 32 v) = some 0x00) ↔
        ∀ v, F ≤ v → v < K → kernelByte (bootVolume bx m) D cs m v = 0x00) := by
  obtain ⟨s, hret, hplaced⟩ := initStart_placed hb hread hV hD hfile
  refine ⟨s, hret, fun r hr => ?_⟩
  refine forall_congr' fun v => forall_congr' fun _ => forall_congr' fun hv => ?_
  have hregion : r.read (0x20000 + v) = s.mem.read (0x20000 + v) := hr ⟨by omega, by omega⟩
  rw [readByte_kernel r (by omega), hregion, hplaced.read hV.sector_bounds.2.1 hD, Option.some_inj]

/-- The small volume in RAM that holds 0xff from the kernel's region on. -/
def dirtyRam : Mem (BitVec 8) :=
  Mem.fresh fun a => if a < 0x20000 then smallVolume.read a else 0xff

theorem bss_zero_iff_two_clusters :
    ∃ s, Returns (fun n => initStart (int13 smallDisk) n 0 (InitState.boot dirtyRam)) (.ok s) ∧
      ∀ r, Set.EqOn (Mem.read r) s.mem.read kernelRegion →
        ((∀ v, 0x3f0 ≤ v → v < 0x401 →
          (protectModeStart r).readByte (0xc0000000 + BitVec.ofNat 32 v) = some 0x00) ↔
        ∀ v, 0x3f0 ≤ v → v < 0x401 →
          kernelByte (bootVolume 0 dirtyRam) smallDisk [3, 2] dirtyRam v = 0x00) :=
  bss_zero_iff (serves_int13 smallDisk) (fun _ => rfl) (m := dirtyRam) loadable_smallVolume rfl
    kernelFile_smallDisk 0x3f0 (K := 0x401) (by decide)

/-- An image of 0x3f0 bytes in two clusters of 0x200, with .bss up to 0x401: its last byte is
the RAM's. -/
theorem dirty_ram_shows_in_bss :
    ∃ s, Returns (fun n => initStart (int13 smallDisk) n 0 (InitState.boot dirtyRam)) (.ok s) ∧
      ¬ ∀ v, 0x3f0 ≤ v → v < 0x401 →
        (protectModeStart s.mem).readByte (0xc0000000 + BitVec.ofNat 32 v) = some 0x00 := by
  have hV : Loadable (bootVolume 0 dirtyRam) := loadable_smallVolume
  obtain ⟨s, hret, hplaced⟩ := initStart_placed (serves_int13 smallDisk) (fun _ => rfl) hV rfl
    kernelFile_smallDisk
  refine ⟨s, hret, fun h => ?_⟩
  have hzero := h 0x400 (by decide) (by decide)
  rw [readByte_kernel s.mem (by decide), hplaced.read (by decide) rfl] at hzero
  have hram : kernelByte (bootVolume 0 dirtyRam) smallDisk [3, 2] dirtyRam 0x400 = 0xff := by
    have hlen : ((bootVolume 0 dirtyRam).file smallDisk [3, 2]).length = 0x400 :=
      Volume.length_file rfl [3, 2]
    rw [kernelByte, List.getElem?_eq_none (Nat.le_of_eq hlen)]
    decide
  rw [hram] at hzero
  cases hzero

end ListaOS.Boot
