/-
  main up to the return of mm_init.

  console_init and display_init set up the screen, idt_init sets the gates, and mm_init takes back two
  pages, prints each entry of the memory map, builds the bitmap, and prints how much of the
  memory is free. `Booting` is what every step of it keeps: the machine draws, and it sees the
  records. `enterMain_spec`: in an accepted mode, on a BIOS map of at most 204 records whose
  pages are below 2^24, main gets there (`Entered`).
-/
import ListaOS.Machine.Mode

namespace ListaOS

open Lib Mm Paging Boot Interrupt Console Stdio

/-! ## The lines of mm_init -/

/-- `"%llu bytes from %llx with type %u\n"` -/
def entryFormat : Format where
  segs := [⟨[], Plain.nil, .llu⟩,
    ⟨[' ', 'b', 'y', 't', 'e', 's', ' ', 'f', 'r', 'o', 'm', ' '].map chr, by decide, .llx⟩,
    ⟨[' ', 'w', 'i', 't', 'h', ' ', 't', 'y', 'p', 'e', ' '].map chr, by decide, .u⟩]
  tail := [chr '\n']
  plain := by decide

/-- `"Free RAM: %llu Bytes\n\n"` -/
def freeFormat : Format where
  segs := [⟨['F', 'r', 'e', 'e', ' ', 'R', 'A', 'M', ':', ' '].map chr, by decide, .llu⟩]
  tail := [' ', 'B', 'y', 't', 'e', 's', '\n', '\n'].map chr
  plain := by decide

/-- `size`, `addr` and `type`, in words. -/
def entryArgs (e : BiosMeminfo) : VaList :=
  ⟨fun i => [e.size.extractLsb' 0 32, e.size.extractLsb' 32 32, e.addr.extractLsb' 0 32,
    e.addr.extractLsb' 32 32, e.type].getD i 0, 0⟩

/-- One `unsigned long long`, in words. -/
def dwordArgs (x : BitVec 64) : VaList :=
  ⟨fun i => [x.extractLsb' 0 32, x.extractLsb' 32 32].getD i 0, 0⟩

/-- The line of an entry. -/
def entryText (e : BiosMeminfo) : List (BitVec 8) :=
  utoa e.size ++ ([' ', 'b', 'y', 't', 'e', 's', ' ', 'f', 'r', 'o', 'm', ' '].map chr ++
    (itoh e.addr false ++ ([' ', 'w', 'i', 't', 'h', ' ', 't', 'y', 'p', 'e', ' '].map chr ++
      (utoa (e.type.setWidth 64) ++ [chr '\n']))))

/-- The line behind the entries. -/
def freeText (freeNum : Nat) : List (BitVec 8) :=
  ['F', 'r', 'e', 'e', ' ', 'R', 'A', 'M', ':', ' '].map chr ++
    (utoa (BitVec.ofNat 64 freeNum * 0x1000) ++
      [' ', 'B', 'y', 't', 'e', 's', '\n', '\n'].map chr)

/-- What mm_init prints. -/
def mmText (l : List BiosMeminfo) (freeNum : Nat) : List (BitVec 8) :=
  l.flatMap entryText ++ freeText freeNum

theorem entryFormat_text (E : Env) (e : BiosMeminfo) :
    segOut (fun args k => k.text E args) entryFormat.segs (entryArgs e) ++ entryFormat.tail =
      entryText e := by
  have hsize : (entryArgs e).dword = e.size := BitVec.extractLsb'_append_extractLsb'
  have haddr : ((entryArgs e).skip 2).dword = e.addr := BitVec.extractLsb'_append_extractLsb'
  have htype : ((entryArgs e).skip 4).word = e.type := rfl
  simp only [entryFormat, segOut, Conv.text, Conv.words, VaList.skip_skip, hsize, haddr, htype,
    entryText, List.nil_append, List.append_nil, List.append_assoc]

theorem freeFormat_text (E : Env) (freeNum : Nat) :
    segOut (fun args k => k.text E args) freeFormat.segs
        (dwordArgs (BitVec.ofNat 64 freeNum * 0x1000)) ++ freeFormat.tail = freeText freeNum := by
  have hfree : (dwordArgs (BitVec.ofNat 64 freeNum * 0x1000)).dword =
      BitVec.ofNat 64 freeNum * 0x1000 := BitVec.extractLsb'_append_extractLsb'
  simp only [freeFormat, segOut, Conv.text, hfree, freeText, List.append_nil, List.append_assoc]

/-- mm_init prints no '\r'. -/
theorem noReturn_mmText (l : List BiosMeminfo) (freeNum : Nat) : 0x0d ∉ mmText l freeNum := by
  have hdecimal : ∀ x : BitVec 64, (0x0d : BitVec 8) ∉ utoa x := fun x h => by
    have hlo := (utoa_digits x _ h).1
    exact absurd hlo (by decide)
  have hhex : ∀ x : BitVec 64, (0x0d : BitVec 8) ∉ itoh x false := fun x h =>
    absurd (itoh_digits x false _ h) (by decide)
  have hentry : ∀ e, (0x0d : BitVec 8) ∉ entryText e := by
    intro e
    simp only [entryText, List.mem_append, not_or]
    exact ⟨hdecimal _, by decide, hhex _, by decide, hdecimal _, by decide⟩
  simp only [mmText, freeText, List.mem_append, List.mem_flatMap, not_or]
  exact ⟨fun ⟨e, _, he⟩ => hentry e he, by decide, hdecimal _, by decide⟩

/-! ## The code -/

namespace Machine

section

variable (fontData : Int → BitVec 8) (E : Env)

/-- The `for` of mm_init over the entries from `i` on, `n` of them. -/
def addEntries (fuel : Nat) :
    Nat → BitVec 32 → ConsoleState × Machine → Option (ConsoleState × Machine)
  | 0, _, x => some x
  | n + 1, i, x => do
      let entry ← x.2.memInfo i
      let x ← printf fontData E fuel x (CharPtr.ofText entryFormat.text) (entryArgs entry)
      let s ← x.2.addEntry i
      addEntries fuel n (i + 1) (x.1, s)

/-- The last line of mm_init. -/
def printFree (fuel : Nat) (x : ConsoleState × Machine) : Option (ConsoleState × Machine) := do
  let freeNum ← x.2.getFreePageNum
  printf fontData E fuel x (CharPtr.ofText freeFormat.text)
    (dwordArgs (BitVec.ofNat 64 freeNum * 0x1000))

def mmInit (fuel : Nat) (x : ConsoleState × Machine) : Option (ConsoleState × Machine) :=
  if x.2.mmInitialed then some x
  else do
    let s ← x.2.kernelPageUnmap 0x8
    let s ← s.kernelPageUnmap 0x10
    let infoNum ← s.mmu.load 0xc0012000
    let x ← addEntries fontData E fuel infoNum.toNat 0 (x.1, s)
    let x ← printFree fontData E fuel x
    some (x.1, { x.2 with mmInitialed := true })

/-- main from its entry to the return of mm_init. timer_init and pic_init only write to ports. The
bytes of the frame buffer are those of the machine; the console's `vram` follows them. -/
def enterMain (handlers : Handlers) (fuel : Nat) (mmu : Mmu) : Option (ConsoleState × Machine) := do
  -- console_init
  let info ← vbeInfo mmu
  let c := consoleInit info (ConsoleState.boot (monitor info (Machine.start mmu)))
  -- display_init
  let mmu ← run displayMapReading mmu (List.range 0x800)
  let info ← vbeInfo mmu
  let s ← run Machine.storeByte (Machine.start mmu) (clearStores info)
  let c := consoleStep info fontData c .screenClear
  let mmu ← Interrupt.idtInit handlers s.mmu
  mmInit fontData E fuel (c, { s with mmu := mmu })

end

end Machine

/-! ## What main keeps -/

theorem SeesMap.of_grows {l : List BiosMeminfo} {s t : Machine} (h : SeesMap l s) {F : Set Nat}
    (hg : Grows F s t) : SeesMap l t := by
  obtain ⟨flags, hpage⟩ := h.page 0 Nat.one_pos
  refine h.keep (hg.walk 0xc0012 (by decide) ?_) fun a ha => hg.writes.read a fun hin => ?_
  · rw [hpage]
    exact Option.some_ne_none _
  · have hlo : 0x200000 ≤ a := hin
    omega

/-- The machine draws, and sees the records. -/
structure Booting (info : VbeModeInfo) (l : List BiosMeminfo) (s : Machine) (c : ConsoleState)
    (ms : MmState) : Prop where
  drawing : Drawing info s c ms
  seen : SeesMap l s

/-- The bitmap and the page table lie behind the IDT. -/
theorem tables_subset_core : bitmapCells ∪ pageTableCells ⊆ coreCells := by
  rintro a (⟨hlo, hhi⟩ | ⟨hlo, hhi⟩)
  · exact ⟨by omega, by omega⟩
  · exact ⟨by omega, by omega⟩

theorem tables_subset_access : bitmapCells ∪ pageTableCells ⊆ accessCells := by
  rintro a (⟨hlo, -⟩ | ⟨hlo, -⟩)
  · show 0x200000 ≤ a
    omega
  · exact hlo

namespace Booting

variable {info : VbeModeInfo} {l : List BiosMeminfo} {s t : Machine} {c : ConsoleState}
  {ms ms' : MmState}

theorem rep (h : Booting info l s c ms) : Represents s ms := h.drawing.screen.rep

/-- What keeps the pages that main reads and draws at, and stores to neither. -/
theorem keep (hfb : FrameBuffer info) (h : Booting info l s c ms) (ht : Represents t ms')
    (hread : ∀ v, 0xc0011 ≤ v → v < 0xc1800 → ms'.pageTable.read v = ms.pageTable.read v)
    (hw : Mem.WritesIn coreCells s.mmu.mem t.mmu.mem) : Booting info l t c ms' where
  drawing := h.drawing.keep hfb ht hread hw
  seen := by
    refine h.seen.keep (h.rep.walk_eq ht (by decide) (hread _ (by decide) (by decide)))
      fun a ha => hw.read a fun hin => ?_
    have hlo := hin.1
    omega

variable (fontData : Int → BitVec 8) (hm : BootMode info)

include hm

theorem printf (h : Booting info l s c ms) (E : Env) (f : Format) {args : VaList}
    (hfin : FiniteFloats f.segs args) {text : List (BitVec 8)}
    (htext : segOut (fun args k => k.text E args) f.segs args ++ f.tail = text) :
    ∃ t, Returns (fun n => ListaOS.printf fontData E n (c, s) (CharPtr.ofText f.text) args)
        (printText info fontData c text, t) ∧
      Booting info l t (printText info fontData c text) ms ∧
      Mem.WritesIn accessCells s.mmu.mem t.mmu.mem := by
  obtain ⟨t, hdraw, hend, hframe⟩ := h.drawing.printf fontData hm E f hfin htext
  exact ⟨t, hdraw, ⟨hend, h.seen.of_grows hframe.grows⟩, hframe.grows.writes⟩

/-- **The loop of mm_init** prints an entry, and marks its pages. -/
theorem addEntries (h : Booting info l s c ms) (E : Env) (n : Nat) {i : BitVec 32}
    (hn : i.toNat + n = l.length)
    (hfit : ((l.drop i.toNat).foldl Mm.addEntry ms).physMemBitmapSize ≤ bitmapWindowWords) :
    ∃ t, Returns (fun fuel => Machine.addEntries fontData E fuel n i (c, s))
        (printText info fontData c ((l.drop i.toNat).flatMap entryText), t) ∧
      Booting info l t (printText info fontData c ((l.drop i.toNat).flatMap entryText))
        ((l.drop i.toNat).foldl Mm.addEntry ms) ∧
      Mem.WritesIn accessCells s.mmu.mem t.mmu.mem := by
  induction n generalizing i s c ms with
  | zero =>
    rw [List.drop_eq_nil_of_le (by omega)]
    exact ⟨s, Returns.pure _, h, Mem.WritesIn.refl _ _⟩
  | succ n ih =>
    have hlt : i.toNat < l.length := by omega
    have hshort := h.seen.short
    have hnext : (i + 1).toNat = i.toNat + 1 := toNat_add_one (by omega)
    have hi : l[i.toNat]? = some l[i.toNat] := List.getElem?_eq_getElem hlt
    rw [List.drop_eq_getElem_cons hlt, List.foldl_cons] at hfit
    rw [List.drop_eq_getElem_cons hlt, List.foldl_cons, List.flatMap_cons]
    have hfirst := ((foldl_addEntry_size_le_iff _ _ _).mp hfit).1
    obtain ⟨t, hprint, hprinted, hw⟩ := h.printf fontData hm E entryFormat
      ⟨(fun hf => nomatch hf), (fun hf => nomatch hf), (fun hf => nomatch hf), trivial⟩
      (entryFormat_text E l[i.toNat])
    obtain ⟨u, hu, hrep, hw'⟩ := hprinted.rep.addEntry hprinted.seen hi hfirst
    have hmarked := hprinted.keep hm.frame hrep (fun v _ _ => by rw [addEntry_pageTable])
      (hw'.mono (Set.subset_union_left.trans tables_subset_core))
    rw [← hnext] at hfit ⊢
    obtain ⟨v, hv, hend, hw''⟩ := ih hmarked (by omega) hfit
    have htext : ∀ rest, printText info fontData c (entryText l[i.toNat] ++ rest) =
        printText info fontData (printText info fontData c (entryText l[i.toNat])) rest :=
      fun rest => List.foldl_append
    rw [htext]
    refine ⟨v, ?_, hend, (hw.trans (hw'.mono
      (Set.subset_union_left.trans tables_subset_access))).trans hw''⟩
    refine (hprint.bind (g := fun fuel x => (x.2.addEntry i).bind fun s =>
      Machine.addEntries fontData E fuel n (i + 1) (x.1, s)) (hv.congr fun fuel => ?_)).congr
      fun fuel => ?_
    · dsimp only
      rw [hu, Option.bind_some]
    · dsimp only [Machine.addEntries]
      rw [h.seen.memInfo hi]
      rfl

theorem printFree (h : Booting info l s c ms) (E : Env) :
    ∃ t, Returns (fun fuel => Machine.printFree fontData E fuel (c, s))
        (printText info fontData c (freeText (getFreePageNum ms)), t) ∧
      Booting info l t (printText info fontData c (freeText (getFreePageNum ms))) ms ∧
      Mem.WritesIn accessCells s.mmu.mem t.mmu.mem := by
  obtain ⟨t, hfree, hend, hw⟩ := h.printf fontData hm E freeFormat
    ⟨(fun hf => nomatch hf), trivial⟩ (freeFormat_text E (getFreePageNum ms))
  refine ⟨t, hfree.congr fun fuel => ?_, hend, hw⟩
  dsimp only [Machine.printFree]
  rw [h.rep.getFreePageNum]
  rfl

omit hm

/-- The flag that mm_init sets at its end. -/
theorem setInitialed (h : Booting info l s c ms) :
    Drawing info { s with mmInitialed := true } c { ms with mmInitialed := true } := by
  obtain ⟨⟨⟨hmap, hcr3, harray, hwindow, hwords, hsize, hfits, -⟩, hpages, hbytes⟩, hin, hmode⟩ :=
    h.drawing
  exact ⟨⟨⟨hmap, hcr3, harray, hwindow, hwords, hsize, hfits, rfl⟩, hpages, hbytes⟩, hin, hmode⟩

/-- The two pages that mm_init takes back. -/
theorem unmap (hfb : FrameBuffer info) (h : Booting info l s c ms) {v : BitVec 32}
    (hv : v.toNat < 0xc0011) :
    ∃ t, s.kernelPageUnmap v = some t ∧ Booting info l t c (Mm.kernelPageUnmap ms v) ∧
      Mem.WritesIn accessCells s.mmu.mem t.mmu.mem := by
  have htable : pageTableCells ⊆ bitmapCells ∪ pageTableCells := Set.subset_union_right
  obtain ⟨t, ht, hrep, hw⟩ := h.rep.kernelPageUnmap (v := v) ⟨by omega, .inl (by omega)⟩
  refine ⟨t, ht, h.keep hfb hrep (fun w hw _ => Mem.read_write_of_ne _ _ (by omega))
    (hw.mono (htable.trans tables_subset_core)), hw.mono (htable.trans tables_subset_access)⟩

include hm

/-- **mm_init** prints the memory map and what is free of it, and does to the arrays what
Mm.Basic's does. -/
theorem mmInit (h : Booting info l s c ms) (E : Env) (hinit : ms.mmInitialed = false)
    (hfit : (Mm.mmInit l ms).physMemBitmapSize ≤ bitmapWindowWords) :
    ∃ t, Returns (fun fuel => Machine.mmInit fontData E fuel (c, s))
        (printText info fontData c (mmText l (getFreePageNum (Mm.mmInit l ms))), t) ∧
      Drawing info t (printText info fontData c (mmText l (getFreePageNum (Mm.mmInit l ms))))
        (Mm.mmInit l ms) ∧
      Mem.WritesIn accessCells s.mmu.mem t.mmu.mem := by
  have hno : ¬ ms.mmInitialed = true := by
    rw [hinit]
    decide
  have hready : ¬ s.mmInitialed = true := by
    rw [h.rep.initialed]
    exact hno
  unfold Mm.mmInit at hfit ⊢
  rw [if_neg hno] at hfit ⊢
  obtain ⟨s₁, hs₁, h₁, hw₁⟩ := h.unmap hm.frame (v := 0x8) (by decide)
  obtain ⟨s₂, hs₂, h₂, hw₂⟩ := h₁.unmap hm.frame (v := 0x10) (by decide)
  have hcount : s₂.mmu.load 0xc0012000 = some (s₂.mmu.mem.load32 0xe000) :=
    h₂.seen.page.load (k := 0) rfl (by decide)
  have hloop := h₂.addEntries fontData hm E l.length (i := 0) (Nat.zero_add _) hfit
  have hall : l.drop (0 : BitVec 32).toNat = l := rfl
  rw [hall] at hloop
  obtain ⟨s₃, hentries, h₃, hw₃⟩ := hloop
  obtain ⟨s₄, hfree, h₄, hw₄⟩ := h₃.printFree fontData hm E
  have htext : ∀ freeNum, printText info fontData c (mmText l freeNum) =
      printText info fontData (printText info fontData c (l.flatMap entryText)) (freeText freeNum) :=
    fun freeNum => List.foldl_append
  have hflag : ∀ ms : MmState, getFreePageNum { ms with mmInitialed := true } = getFreePageNum ms :=
    fun _ => rfl
  dsimp only
  rw [hflag, htext]
  have hcode : ∀ fuel, Machine.mmInit fontData E fuel (c, s) =
      ((Machine.addEntries fontData E fuel l.length 0 (c, s₂)).bind
        (Machine.printFree fontData E fuel)).map fun x => (x.1, { x.2 with mmInitialed := true }) := by
    intro fuel
    unfold Machine.mmInit
    dsimp only
    rw [if_neg hready, hs₁, Option.bind_eq_bind, Option.bind_some, hs₂, Option.bind_eq_bind,
      Option.bind_some, hcount, Option.bind_eq_bind, Option.bind_some, h₂.seen.count,
      Option.map_bind]
    exact congrArg (Option.bind _) (funext fun x => Option.map_eq_bind.symm)
  have hret := (hentries.bind hfree).map fun x : ConsoleState × Machine =>
    (x.1, { x.2 with mmInitialed := true })
  dsimp only at hret
  exact ⟨{ s₄ with mmInitialed := true }, hret.congr hcode, h₄.setInitialed,
    ((hw₁.trans hw₂).trans hw₃).trans hw₄⟩

end Booting

/-! ## From protect_mode_start -/

/-- main when mm_init has returned, from the machine `mmu` that protect_mode_start left. -/
structure Entered (handlers : Handlers) (fontData : Int → BitVec 8) (info : VbeModeInfo)
    (l : List BiosMeminfo) (mmu : Mmu) (c : ConsoleState) (s : Machine) : Prop where
  drawing : Drawing info s c (mainArrays info l mmu)
  printed : ∃ ram, c = printText info fontData (textStart info fontData ram)
    (mmText l (getFreePageNum (mainArrays info l mmu)))
  walk : ∀ v : Fin (2 ^ 20), s.mmu.walk v = mainWalk info v
  gates : ∀ v : BitVec 8, gateTable s.mmu v.toNat = initGate handlers v.toNat
  writes : Mem.WritesIn (idtCells ∪ accessCells) mmu.mem s.mmu.mem

/-- What display_init's maps leave. -/
theorem mapped_main {info : VbeModeInfo} {responses : List Response} {m : Mem (BitVec 8)}
    (hblock : readVbeInfo m 0x7e00 = info) (hlen : (records responses).length ≤ 204) :
    ∃ mmu, run displayMapReading (protectModeStart (probe responses m)) (List.range 0x800) =
        some mmu ∧
      run pageStep (protectModeStart (probe responses m)) (displayMaps info 0x800) = some mmu ∧
      Represents (Machine.start mmu)
        (displayArrays info (protectModeStart (probe responses m))) ∧
      SeesMap (records responses) (Machine.start mmu) ∧ HasMode info mmu ∧ IdtPage mmu ∧
      Mem.WritesIn pageTableCells (protectModeStart (probe responses m)).mem mmu.mem := by
  have hstart := represents_start (probe responses m)
  obtain ⟨mmu, hreading, hrun, hmode⟩ := run_displayMapReading hstart (HasMode.boot hlen hblock)
  obtain ⟨mmu', hrun', hrep, hw⟩ := hstart.pageOps (editable_displayMaps info)
  obtain rfl : mmu' = mmu := Option.some.inj (hrun'.symm.trans hrun)
  rw [Mm.foldl_editTable] at hrep
  change Represents (Machine.start mmu') (displayArrays info _) at hrep
  have hread : ∀ v < 0xc1000, (displayArrays info (protectModeStart (probe responses m))).pageTable.read
      v = (arraysOf (protectModeStart (probe responses m))).pageTable.read v := fun v hv =>
    read_displayArrays info _ (.inl hv)
  have hseen := (seesMap_start m hlen).keep (hstart.walk_eq hrep (by decide) (hread _ (by decide)))
    fun a ha => hw.read a fun hin => by
      have hlo := hin.1
      omega
  obtain ⟨flags, hflags⟩ := maps_protectModeStart (probe responses m)
    (r := ⟨0x10, 0x1, 0xc0010⟩) (by decide) 0 Nat.one_pos
  have hpage : IdtPage mmu' := by
    refine hrep.idtPage ⟨flags, ?_⟩
    rw [hread 0xc0010 (by decide)]
    exact (hstart.table.walk hstart.map (by decide)).symm.trans hflags
  exact ⟨mmu', hreading, hrun, hrep, hseen, hmode, hpage, hw⟩

/-- screen_clear, in the window that is mapped. -/
theorem cleared_main (fontData : Int → BitVec 8) {info : VbeModeInfo} (hm : BootMode info)
    {l : List BiosMeminfo} {mmu₀ mmu : Mmu} {ms : MmState} (hkernel : KernelMap mmu₀)
    (hrun : run pageStep mmu₀ (displayMaps info 0x800) = some mmu)
    (hrep : Represents (Machine.start mmu) ms) (hseen : SeesMap l (Machine.start mmu))
    (hmode : HasMode info mmu) (hw : Mem.WritesIn pageTableCells mmu₀.mem mmu.mem) :
    ∃ s, run Machine.storeByte (Machine.start mmu) (clearStores info) = some s ∧
      Booting info l s (textStart info fontData fun a => mmu₀.mem.read (framePhys info a)) ms ∧
      Mem.WritesIn accessCells mmu₀.mem s.mmu.mem := by
  have hmapped : Monitors info (Machine.start mmu) ms (monitor info (Machine.start mmu₀)) := by
    refine ⟨hrep, maps_displayMaps hm.frame hkernel hrun, fun a ha => ?_⟩
    rw [read_monitor, read_monitor]
    refine hw.read _ fun hin => ?_
    have hlo : 0x800000 ≤ framePhys info a := (framePhys_mem hm.frame ha).1
    have hhi := hin.2
    omega
  obtain ⟨s, hs, hcleared, hgrows, -⟩ :=
    hmapped.storeBytes hm.frame (clearStores_window hm.suitable)
  rw [← screenClear_eq] at hcleared
  have hmode' : HasMode info s.mmu := HasMode.of_grows (s := Machine.start mmu) hmode hgrows
  refine ⟨s, hs, ⟨⟨hcleared, inText_textStart fontData hm.wide hm.tall _, hmode'⟩,
    hseen.of_grows hgrows⟩, ?_⟩
  exact (hw.mono (Set.subset_union_right.trans tables_subset_access)).trans hgrows.writes

/-- **main gets to its allocator.** In an accepted mode whose frame buffer is apart from the
kernel's memory, on a BIOS map of at most 204 records whose pages are below 2^24: main gets to the
return of mm_init, with the memory map on the screen. Physical memory then implements the
arrays that mm_init makes of the records, the page table is `mainWalk`, and the IDT holds the
gates of idt_init. -/
theorem enterMain_spec (handlers : Handlers) (fontData : Int → BitVec 8) (E : Env)
    {info : VbeModeInfo} (hm : BootMode info) (responses : List Response) {m : Mem (BitVec 8)}
    (hblock : readVbeInfo m 0x7e00 = info) (hlen : (records responses).length ≤ 204)
    (hpages : ∀ e ∈ records responses, ∀ a, e.Walks a → pageOf a < 2 ^ 24) :
    ∃ c s, Returns (fun fuel => Machine.enterMain fontData E handlers fuel
        (protectModeStart (probe responses m))) (c, s) ∧
      Entered handlers fontData info (records responses) (protectModeStart (probe responses m)) c
        s := by
  have hstart := represents_start (probe responses m)
  obtain ⟨mmu, hreading, hrun, hrep, hseen, hmode, hpage, hw⟩ := mapped_main hblock hlen
  obtain ⟨⟨mmu₁, size, initialed⟩, hclear, hcleared, hw₁⟩ :=
    cleared_main fontData hm hstart.map hrun hrep hseen hmode hw
  -- the clear leaves the page of the IDT
  obtain ⟨flags, hflags⟩ := hpage.window 0 Nat.one_pos
  have hpage₁ := hcleared.rep.idtPage
    ⟨flags, (hrep.table.walk hrep.map (by decide)).symm.trans hflags⟩
  obtain ⟨mmu₂, hidt, hrep₂, hgates, hw₂⟩ := hcleared.rep.idtInit hpage₁ handlers
  have hgated := hcleared.keep hm.frame hrep₂ (fun _ _ _ => rfl) (hw₂.mono fun a ha => ⟨ha.1, by
    have hhi := ha.2
    omega⟩)
  have hfit : ∀ e ∈ records responses, ∀ a, e.Walks a → pageOf a / 32 < bitmapWindowWords := by
    intro e he a ha
    have hpage := hpages e he a ha
    unfold bitmapWindowWords
    omega
  obtain ⟨s, hs, hdrawing, hw₃⟩ := hgated.mmInit fontData hm E rfl
    ((size_mmInit_le_iff _ _ _ _).mpr hfit)
  have hkept : ∀ v : BitVec 8, gateTable s.mmu v.toNat = gateTable mmu₂ v.toNat := by
    refine fun v => readEntry_congr fun b hlo hhi => hw₃.read b fun hin => ?_
    have hv := v.isLt
    have hlo' : 0x200000 ≤ b := hin
    omega
  refine ⟨_, s, ?_, hdrawing, ⟨_, rfl⟩, walk_mainArrays hrun hdrawing.screen.rep,
    fun v => (hkept v).trans (hgates v), ?_⟩
  · refine hs.congr fun fuel => ?_
    unfold Machine.enterMain
    rw [(HasMode.boot hlen hblock).vbeInfo, Option.bind_eq_bind, Option.bind_some]
    dsimp only
    rw [hreading, Option.bind_eq_bind, Option.bind_some, hmode.vbeInfo, Option.bind_eq_bind,
      Option.bind_some, hclear, Option.bind_some]
    dsimp only
    rw [hidt]
    rfl
  · exact ((hw₁.mono Set.subset_union_right).trans (hw₂.mono Set.subset_union_left)).trans
      (hw₃.mono Set.subset_union_right)

end ListaOS
