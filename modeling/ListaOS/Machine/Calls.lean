/-
  Runs of mm.c on the machine.

  `MmCall` is a call of the page allocator, of the two functions that edit the page table, or
  of page_fault. `machine_run_refines`: a run of calls on a machine that represents the arrays
  of Mm.Basic is the same run on the arrays. The pages that a call maps or unmaps have to be
  outside of the windows of the bitmap and of the page table (`MmCall.Edits`).
-/
import ListaOS.Machine.Memory

namespace ListaOS

open Lib Mm Paging Boot

/-- A call of mm.c or of page_fault. -/
inductive MmCall where
  | alloc
  | free (addr : BitVec 32)
  | mmap (phyPageIndex vpageIndex : BitVec 32) (flags : BitVec 8)
  | unmap (vpageIndex : BitVec 32)
  | fault (addr err : BitVec 32)

/-- The page that a call maps or unmaps may be edited. -/
def MmCall.Edits : MmCall → Prop
  | .alloc => True
  | .free _ => True
  | .mmap _ v _ => Editable v.toNat
  | .unmap v => Editable v.toNat
  | .fault addr _ => Editable (addr / 0x1000).toNat

/-- The call does not map or unmap page `v`. -/
def MmCall.Spares (v : Nat) : MmCall → Prop
  | .alloc => True
  | .free _ => True
  | .mmap _ w _ => w.toNat ≠ v
  | .unmap w => w.toNat ≠ v
  | .fault addr _ => (addr / 0x1000).toNat ≠ v

/-- A call on the machine; the addresses that alloc_4k_phys returned are kept beside it. -/
def Machine.call (s : Machine × List (BitVec 32)) : MmCall → Option (Machine × List (BitVec 32))
  | .alloc => s.1.alloc4kPhys.map fun r => (r.1, s.2 ++ [r.2])
  | .free addr => (s.1.free4kPhys addr).map fun t => (t, s.2)
  | .mmap p v flags => (s.1.kernelPageMmap p v flags).map fun t => (t, s.2)
  | .unmap v => (s.1.kernelPageUnmap v).map fun t => (t, s.2)
  | .fault addr err => (s.1.pageFault addr err).map fun t => (t, s.2)

/-- The same call on the arrays. -/
def Mm.call (s : MmState × List (BitVec 32)) : MmCall → MmState × List (BitVec 32)
  | .alloc => ((Mm.alloc4kPhys s.1).1, s.2 ++ [(Mm.alloc4kPhys s.1).2])
  | .free addr => (Mm.free4kPhys s.1 addr, s.2)
  | .mmap p v flags => (Mm.kernelPageMmap s.1 p v flags, s.2)
  | .unmap v => (Mm.kernelPageUnmap s.1 v, s.2)
  | .fault addr err => (Mm.pageFault s.1 addr err, s.2)

theorem Mm.read_call (ms : MmState) (out : List (BitVec 32)) {c : MmCall} {v : Nat}
    (hc : c.Spares v) : (Mm.call (ms, out) c).1.pageTable.read v = ms.pageTable.read v := by
  cases c with
  | alloc =>
    obtain ⟨ha, -⟩ | ⟨p, -, ha⟩ := alloc4kPhys_cases ms
    · rw [Mm.call, ha]
    · rw [Mm.call, ha]
      rfl
  | free addr => rfl
  | mmap p w flags => exact Mem.read_write_of_ne _ _ (Ne.symm hc)
  | unmap w => exact Mem.read_write_of_ne _ _ (Ne.symm hc)
  | fault addr err => exact faultStep_read_of_ne ms ⟨addr, err⟩ (Ne.symm hc)

/-- A refined call, with the addresses beside it. -/
theorem Refines.call {S : Set Nat} {s : Machine} {r : Option Machine} {ms : MmState}
    (h : Refines S s r ms) (hS : S ⊆ bitmapCells ∪ pageTableCells) (out : List (BitVec 32)) :
    ∃ t, (r.map fun t => (t, out)) = some (t, out) ∧ Represents t ms ∧
      Mem.WritesIn (bitmapCells ∪ pageTableCells) s.mmu.mem t.mmu.mem := by
  obtain ⟨t, rfl, ht, hw⟩ := h
  exact ⟨t, rfl, ht, hw.mono hS⟩

theorem Represents.call {s : Machine} {ms : MmState} (h : Represents s ms) (out : List (BitVec 32))
    {c : MmCall} (hc : c.Edits) :
    ∃ t, Machine.call (s, out) c = some (t, (Mm.call (ms, out) c).2) ∧
      Represents t (Mm.call (ms, out) c).1 ∧
      Mem.WritesIn (bitmapCells ∪ pageTableCells) s.mmu.mem t.mmu.mem := by
  cases c with
  | alloc =>
    obtain ⟨t, ht, hrep, hw⟩ := h.alloc4kPhys
    exact ⟨t, by rw [Machine.call, ht]; rfl, hrep, hw.mono Set.subset_union_left⟩
  | free addr => exact (h.free4kPhys addr).call Set.subset_union_left out
  | mmap p v flags => exact (h.kernelPageMmap p hc flags).call Set.subset_union_right out
  | unmap v => exact (h.kernelPageUnmap hc).call Set.subset_union_right out
  | fault addr err => exact (h.pageFault hc err).call (Set.Subset.refl _) out

/-- **Physical memory implements the arrays.** From a machine that represents `ms`, every
sequence of calls whose pages may be edited goes through, returns the addresses that the arrays
give, and ends in a machine that represents the arrays then; only the bitmap and the page table
are stored to. -/
theorem machine_run_refines (s : Machine) (ms : MmState) (h : Represents s ms)
    (calls : List MmCall) (hcalls : ∀ c ∈ calls, c.Edits) :
    ∃ t, run Machine.call (s, []) calls = some (t, (calls.foldl Mm.call (ms, [])).2) ∧
      Represents t (calls.foldl Mm.call (ms, [])).1 ∧
      Mem.WritesIn (bitmapCells ∪ pageTableCells) s.mmu.mem t.mmu.mem := by
  generalize ([] : List (BitVec 32)) = out
  induction calls generalizing s ms out with
  | nil => exact ⟨s, rfl, h, Mem.WritesIn.refl _ _⟩
  | cons c calls ih =>
    obtain ⟨hc, hrest⟩ := List.forall_mem_cons.mp hcalls
    obtain ⟨t, hcall, ht, hw⟩ := h.call out hc
    obtain ⟨u, hrun, hu, hw'⟩ := ih t (Mm.call (ms, out) c).1 ht hrest (Mm.call (ms, out) c).2
    exact ⟨u, run_cons_eq_some.mpr ⟨_, hcall, hrun⟩, hu, hw.trans hw'⟩

/-- The first of the two pages. -/
theorem alloc_twoPages (info : Console.VbeModeInfo) (mmu : Mmu) :
    (alloc4kPhys (mainArrays info (records twoPages) mmu)).2 = 0x800000 := by
  have hfree := freePages_twoPages info mmu
  obtain ⟨-, hempty⟩ | ⟨p, ⟨hp, hle⟩, halloc⟩ :=
    alloc4kPhys_cases (mainArrays info (records twoPages) mmu)
  · rw [hfree] at hempty
    exact absurd hempty (by decide)
  · rw [hfree] at hp hle
    have hfirst : p ≤ 0x800 := hle (by decide)
    obtain rfl : p = 0x800 := by
      obtain rfl | hp := Finset.mem_insert.mp hp
      · rfl
      · have hlast := Finset.mem_singleton.mp hp
        omega
    rw [halloc]
    rfl

/-- After boot with two free pages: an allocation, a page fault, a page mapped to the frame that
was allocated, and the frame given back. -/
theorem machine_run_refines_start :
    ∃ c s t, Returns (fun fuel => Machine.enterMain (Console.Font.fontData fun _ => 0) zeroEnv
        imageHandlers fuel (protectModeStart (probe twoPages vgaRam))) (c, s) ∧
      run Machine.call (s, []) [.alloc, .fault 0x1000 2, .mmap 0x800 0x2 3, .free 0x800000] =
        some (t, [0x800000]) ∧
      Represents t ([.alloc, .fault 0x1000 2, .mmap 0x800 0x2 3, .free 0x800000].foldl Mm.call
        (mainArrays Kernel.vgaMode (records twoPages) (protectModeStart (probe twoPages vgaRam)),
          [])).1 ∧
      Mem.WritesIn (bitmapCells ∪ pageTableCells) s.mmu.mem t.mmu.mem := by
  obtain ⟨c, s, hs, hentered⟩ := enterMain_spec imageHandlers (Console.Font.fontData fun _ => 0)
    zeroEnv bootMode_vgaMode twoPages (m := vgaRam) rfl (by decide)
    (pageOf_lt_of_lowMap (by decide))
  obtain ⟨t, hrun, hrep, hw⟩ := machine_run_refines s _ hentered.drawing.screen.rep
    [.alloc, .fault 0x1000 2, .mmap 0x800 0x2 3, .free 0x800000] (by
      simp only [List.forall_mem_cons, MmCall.Edits]
      exact ⟨trivial, by decide, by decide, trivial, List.forall_mem_nil _⟩)
  refine ⟨c, s, t, hs, hrun.trans ?_, hrep, hw⟩
  have hout : ([.alloc, .fault 0x1000 2, .mmap 0x800 0x2 3, .free 0x800000].foldl Mm.call
      (mainArrays Kernel.vgaMode (records twoPages) (protectModeStart (probe twoPages vgaRam)),
        [])).2 = [] ++ [(alloc4kPhys (mainArrays Kernel.vgaMode (records twoPages)
          (protectModeStart (probe twoPages vgaRam)))).2] := rfl
  rw [hout, alloc_twoPages]
  rfl

end ListaOS
