/-
  The frame buffer in physical memory.

  display_init maps the window at VRAM_BASE to the 8 MiB at physBasePtr (`maps_displayMaps`), and
  clears the screen through it. `Monitors info s ms vram` says that the machine still maps the
  window, and that physical memory holds there what `vram` holds: a store of the console is then a
  store to the frame buffer (`Monitors.storeBytes`), and stores to other frames keep it
  (`Monitors.of_grows`).
-/
import ListaOS.Machine.Bytes
import ListaOS.Console.Stores

namespace ListaOS

open Lib Mm Paging Boot Interrupt Console

/-! ## The frame buffer -/

/-- The frame buffer starts at a page, behind the kernel's memory, and ends below 4 GiB. -/
structure FrameBuffer (info : VbeModeInfo) : Prop where
  aligned : info.physBasePtr.toNat % 0x1000 = 0
  above : 0x800000 ≤ info.physBasePtr.toNat
  fits : info.physBasePtr.toNat + 0x800000 ≤ 2 ^ 32

/-- The page frames of the frame buffer. -/
def framePages (info : VbeModeInfo) : Set Nat :=
  {q | info.physBasePtr.toNat / 0x1000 ≤ q ∧ q < info.physBasePtr.toNat / 0x1000 + 0x800}

/-- The physical address of an address in the window. -/
def framePhys (info : VbeModeInfo) (a : Nat) : Nat := info.physBasePtr.toNat + (a - 0xc1000000)

theorem framePhys_mem {info : VbeModeInfo} (hfb : FrameBuffer info) {a : Nat} (ha : a ∈ window) :
    framePhys info a ∈ frameCells ∧ framePhys info a ∈ frameBytes (framePages info) := by
  have haligned := hfb.aligned
  have habove := hfb.above
  obtain ⟨hlo, hhi⟩ := ha
  unfold framePhys
  refine ⟨?_, ?_, ?_⟩
  · show 0x800000 ≤ _
    omega
  · omega
  · omega

/-- The frame buffer, seen at VRAM_BASE. -/
def monitor (info : VbeModeInfo) (s : Machine) : Mem (BitVec 8) :=
  Mem.fresh fun a => s.mmu.mem.read (framePhys info a)

theorem read_monitor (info : VbeModeInfo) (s : Machine) (a : Nat) :
    (monitor info s).read a = s.mmu.mem.read (framePhys info a) := Mem.read_fresh _ a

structure Monitors (info : VbeModeInfo) (s : Machine) (ms : MmState) (vram : Mem (BitVec 8)) :
    Prop where
  rep : Represents s ms
  pages : Maps 0xc1000 (info.physBasePtr.toNat / 0x1000) 0x800 s.mmu
  bytes : ∀ a ∈ window, (monitor info s).read a = vram.read a

namespace Monitors

variable {info : VbeModeInfo} {s : Machine} {ms : MmState} {vram : Mem (BitVec 8)}

theorem translate (hfb : FrameBuffer info) (h : Monitors info s ms vram) {va : BitVec 32}
    (hva : va.toNat ∈ window) : s.mmu.translate va = some (framePhys info va.toNat) := by
  have haligned := hfb.aligned
  obtain ⟨hlo, hhi⟩ := hva
  have hoff : va.toNat = 0x1000 * 0xc1000 + (va.toNat - 0xc1000000) := by omega
  have hphys : 0x1000 * (info.physBasePtr.toNat / 0x1000) + (va.toNat - 0xc1000000) =
      framePhys info va.toNat := by
    unfold framePhys
    omega
  rw [h.pages.translate hoff (by omega), hphys]

/-- A store to the window is a store to the frame buffer, and keeps the pages in use. -/
theorem storeByte (hfb : FrameBuffer info) (h : Monitors info s ms vram) {w : Store}
    (hw : w.1.toNat ∈ window) :
    ∃ t, s.storeByte w = some t ∧ Monitors info t ms (vram.write w.1.toNat w.2) ∧
      Grows (framePages info) s t ∧
      ∀ {F D : Set Nat} {T : Finset Nat}, Ready F D T s s ms → Ready F D T t t ms := by
  obtain ⟨hcells, hframe⟩ := framePhys_mem hfb hw
  obtain ⟨hrep, hwalk, -⟩ := h.rep.writePhys hcells w.2
  refine ⟨s.writePhys (framePhys info w.1.toNat) w.2, ?_,
    ⟨hrep, h.pages.congr fun i hi => hwalk _ (by omega), fun a ha => ?_⟩,
    Grows.writePhys h.rep hcells hframe w.2, fun hready => hready.restart hcells w.2⟩
  · rw [Machine.storeByte, Machine.touch, h.translate hfb hw]
    rfl
  · have hmem : (s.writePhys (framePhys info w.1.toNat) w.2).mmu.mem =
        s.mmu.mem.write (framePhys info w.1.toNat) w.2 := rfl
    rw [read_monitor, hmem]
    by_cases heq : a = w.1.toNat
    · subst heq
      rw [Mem.read_write_self, Mem.read_write_self]
    · have hne : framePhys info a ≠ framePhys info w.1.toNat := by
        have hlo := hw.1
        have hlo' := ha.1
        unfold framePhys
        omega
      rw [Mem.read_write_of_ne _ _ heq, Mem.read_write_of_ne _ _ hne, ← h.bytes a ha, read_monitor]

theorem storeBytes (hfb : FrameBuffer info) (h : Monitors info s ms vram) {ws : List Store}
    (hws : ∀ w ∈ ws, w.1.toNat ∈ window) :
    ∃ t, run Machine.storeByte s ws = some t ∧ Monitors info t ms (storeAll vram ws) ∧
      Grows (framePages info) s t ∧
      ∀ {F D : Set Nat} {T : Finset Nat}, Ready F D T s s ms → Ready F D T t t ms := by
  induction ws generalizing s vram with
  | nil => exact ⟨s, rfl, h, Grows.refl _ s, id⟩
  | cons w ws ih =>
    obtain ⟨hin, hrest⟩ := List.forall_mem_cons.mp hws
    obtain ⟨t, ht, hnext, hgrows, hready⟩ := h.storeByte hfb hin
    obtain ⟨u, hu, hend, hgrows', hready'⟩ := ih hnext hrest
    exact ⟨u, run_cons_eq_some.mpr ⟨t, ht, hu⟩, hend, hgrows.trans hgrows',
      fun hs => hready' (hready hs)⟩

/-- What keeps the pages of the window and their bytes. -/
theorem keep (h : Monitors info s ms vram) {t : Machine} {ms' : MmState} (ht : Represents t ms')
    (hwalk : ∀ i < 0x800, t.mmu.walk (0xc1000 + i) = s.mmu.walk (0xc1000 + i))
    (hmem : ∀ a ∈ window, t.mmu.mem.read (framePhys info a) = s.mmu.mem.read (framePhys info a)) :
    Monitors info t ms' vram where
  rep := ht
  pages := h.pages.congr hwalk
  bytes := by
    intro a ha
    rw [← h.bytes a ha, read_monitor, read_monitor]
    exact hmem a ha

/-- Stores to other frames. -/
theorem of_grows (hfb : FrameBuffer info) (h : Monitors info s ms vram) {F : Set Nat}
    (hF : ∀ q ∈ F, q ∉ framePages info) {t : Machine} {ms' : MmState} (ht : Represents t ms')
    (hg : Grows F s t) : Monitors info t ms' vram := by
  refine h.keep ht (fun i hi => ?_) fun a ha => ?_
  · obtain ⟨flags, hpage⟩ := h.pages i hi
    exact hg.walk _ (by omega) (by rw [hpage]; exact Option.some_ne_none _)
  · obtain ⟨hcells, hframe⟩ := framePhys_mem hfb ha
    exact hg.read _ hcells fun hin => hF _ (mem_frameBytes.mp hin) (mem_frameBytes.mp hframe)

end Monitors

/-! ## display_init -/

/-- display_init's maps lead the window to the frame buffer. -/
theorem maps_displayMaps {info : VbeModeInfo} (hfb : FrameBuffer info) {s mmu : Mmu}
    (hs : KernelMap s) (hrun : run pageStep s (displayMaps info 0x800) = some mmu) :
    Maps 0xc1000 (info.physBasePtr.toNat / 0x1000) 0x800 mmu := by
  obtain ⟨u, hu, -, hwalk⟩ := run_displayMaps info hs (Nat.le_refl 0x800)
  obtain rfl : u = mmu := Option.some.inj (hu.symm.trans hrun)
  intro i hi
  have hfits := hfb.fits
  have hframe : (info.physBasePtr / 0x1000 + BitVec.ofNat 32 i).toNat % 2 ^ 20 =
      info.physBasePtr.toNat / 0x1000 + i := by
    rw [BitVec.toNat_add, BitVec.toNat_udiv, BitVec.toNat_ofNat]
    simp only [BitVec.reduceToNat]
    omega
  exact ⟨7, by rw [hwalk i hi, hframe]⟩

end ListaOS
