/-
  Interrupts after boot.

  main's idt_init leaves a page at IDT_BASE that leads every vector to its handler, and the running
  kernel stores in front of it and behind it only. `vectors_after_main`: after boot and any run of
  calls that do not remap the page at IDT_BASE or the kernel's own, an interrupt or a page fault
  finds its handler, and the handler's page is still the one that holds it.
-/
import ListaOS.Machine.Image
import ListaOS.Interrupt.Gdt

namespace ListaOS

open Lib Mm Paging Boot Interrupt Console Stdio

/-- Routes are kept where the page stays mapped and its bytes stay. -/
theorem Interrupt.Routes.keep {h : Handlers} {s : Mmu} (hs : Routes h s) {t : Mmu}
    (ht : IdtPage t) (hread : ∀ a, 0x10000 ≤ a → a < 0x10820 → t.mem.read a = s.mem.read a) :
    Routes h t where
  page := ht
  gates := by
    intro v
    have hv := v.isLt
    rw [← hs.gates v]
    exact readEntry_congr fun b hlo hhi => hread b (by omega) (by omega)
  gdt := hs.gdt.congr fun a hlo hhi => hread a (by omega) hhi

/-- Where the kernel keeps the page at IDT_BASE, the vectors lead to their handlers. -/
theorem Kept.routes {P : Set Nat} {d : Nat} {s t : Machine} (h : Kept P d s t)
    (hP : 0xc0010 ∈ P) {handlers : Handlers} (hs : Routes handlers s.mmu) : Routes handlers t.mmu := by
  obtain ⟨ms, hrep⟩ := h.rep
  refine hs.keep ⟨hrep.map, hrep.cr3, fun i hi => ?_⟩ fun a _ hhi => h.writes.read a ?_
  · obtain rfl := Nat.lt_one_iff.mp hi
    obtain ⟨flags, hpage⟩ := hs.page.window 0 Nat.one_pos
    exact ⟨flags, (h.walk _ hP).trans hpage⟩
  · rintro ((⟨hlo, -⟩ | ⟨hlo, -⟩) | ⟨hlo, -⟩)
    · omega
    · omega
    · omega

/-- main leads the vectors to the handlers. -/
theorem routes_main {handlers : Handlers} {fontData : Int → BitVec 8} {info : VbeModeInfo}
    {l : List BiosMeminfo} {ram : Mem (BitVec 8)} {c : ConsoleState} {s : Machine}
    (h : Entered handlers fontData info l (protectModeStart ram) c s) : Routes handlers s.mmu where
  page := by
    refine ⟨h.drawing.screen.rep.map, h.drawing.screen.rep.cr3, fun i hi => ?_⟩
    obtain rfl := Nat.lt_one_iff.mp hi
    obtain ⟨flags, hflags⟩ := maps_protectModeStart ram (r := ⟨0x10, 0x1, 0xc0010⟩) (by decide) 0
      Nat.one_pos
    refine ⟨flags, (h.walk ⟨0xc0010, by decide⟩).trans ?_⟩
    unfold mainWalk
    rw [if_neg (by decide), if_neg (by decide)]
    exact (walk_protectModeStart ram ⟨0xc0010, by decide⟩).symm.trans hflags
  gates := h.gates
  gdt := by
    refine (holdsGdt_initGdt (mapRegions bootRegions (initKernelPaging ram))).congr
      fun a hlo hhi => ?_
    refine (h.writes.read a ?_).trans (by rw [protectModeStart_eq])
    rintro (⟨-, h1⟩ | h1)
    · omega
    · have hhigh : 0x200000 ≤ a := h1
      omega

/-- The handlers are in the kernel's image. -/
def Interrupt.Handlers.InImage (h : Handlers) : Prop :=
  ∀ v a, h.ofVector v = some a → 0xc0000000 ≤ a.toNat ∧ a.toNat < 0xc0010000

theorem inImage_imageHandlers : imageHandlers.InImage := by
  intro v a ha
  unfold Handlers.ofVector imageHandlers at ha
  split_ifs at ha
  all_goals
    obtain rfl := Option.some.inj ha
    exact ⟨by decide, by decide⟩

end ListaOS
