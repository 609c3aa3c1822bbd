/-
  The choice among the modes that the BIOS lists (bootloader/BIOS/init_display.s:
  set_suitable_video_mode).

  Each call for a mode's block overwrites the buffer at 0x7e00, unless it fails, and the loop
  does not look at what it returns: where the first call fails, what was in the buffer before
  is taken for the block of the first mode. Later failures do no harm, as a block does not
  improve on itself. The end of the list is looked for behind the first entry only.

  `Found` is what the loop knows after each entry; `setsBestMode_iff` is the exact condition
  for the mode set to be the best of the list. Best or not, a mode that is set is one that
  is_suitable_video_mode accepted (`accepted_of_set`), as the rest of the console relies on.
-/
import ListaOS.Console.VideoMode

namespace ListaOS.Console

open Lib

/-- The BIOS's answers: a mode's block, or a failed call, which leaves the buffer as it is
(`%ax` = 0x4f01), and what `%ah` says after a mode is set (`%ax` = 0x4f02). -/
structure Vbe where
  modeInfo : BitVec 16 → Option VbeModeInfo
  setMode : BitVec 16 → BitVec 8

/-- The buffer, and `%ax`. -/
def getVesaVbeModeInfo (bios : Vbe) (videoMode : BitVec 16) (buffer : VbeModeInfo) :
    VbeModeInfo × BitVec 16 :=
  match bios.modeInfo videoMode with
  | some info => (info, 0)
  | none => (buffer, 1)

def setVesaVideoMode (bios : Vbe) (videoMode : BitVec 16) : BitVec 16 :=
  if bios.setMode (videoMode + 0x4000) ≠ 0 then 1 else 0

/-- `SuitableModeVRAM`, the local `videoMode` and the buffer at `VBE_MODE_INFO_ADDR`. -/
structure Search where
  suitableModeVRAM : BitVec 32
  videoMode : BitVec 16
  buffer : VbeModeInfo

/-- One round, up to `set_suitable_video_mode_check_next_mode`. -/
def modeStep (bios : Vbe) (s : Search) (mode : BitVec 16) : Option Search :=
  let (buffer, _) := getVesaVbeModeInfo bios mode s.buffer
  (isSuitableVideoMode s.suitableModeVRAM buffer).map fun (vram, ax) =>
    ⟨vram, if ax = 1 then mode else s.videoMode, buffer⟩

/-- The loop over the words from `%edx` on; behind the last word a read faults. -/
def modeLoop (bios : Vbe) : Search → List (BitVec 16) → Option Search
  | _, [] => none
  | s, mode :: words =>
      (modeStep bios s mode).bind fun s =>
        match words with
        | [] => none
        | next :: _ => if next ≠ 0xffff then modeLoop bios s words else some s

/-- What the BIOS is asked to set, if anything, the returned `%ax`, and the buffer. -/
structure Choice where
  asked : Option (BitVec 16)
  ax : BitVec 16
  buffer : VbeModeInfo

/-- Behind the loop. -/
def setFoundMode (bios : Vbe) (s : Search) : Choice :=
  if s.videoMode = 0xffff then ⟨none, 1, s.buffer⟩
  else if setVesaVideoMode bios s.videoMode ≠ 0 then ⟨some (s.videoMode + 0x4000), 1, s.buffer⟩
  else
    let (buffer, ax) := getVesaVbeModeInfo bios s.videoMode s.buffer
    ⟨some (s.videoMode + 0x4000), if ax ≠ 0 then 1 else 0, buffer⟩

def setSuitableVideoMode (bios : Vbe) (words : List (BitVec 16)) (buffer : VbeModeInfo) :
    Option Choice :=
  (modeLoop bios ⟨0, 0xffff, buffer⟩ words).map (setFoundMode bios)

/-! ## What is asked of it -/

/-- The mode numbers before the terminator. -/
structure ModeList where
  modes : List (BitVec 16)
  unterminated : 0xffff ∉ modes

/-- The filter: attributes, memory model, depth and size. -/
structure MeetsFilter (info : VbeModeInfo) : Prop extends Suitable info where
  attributes : info.modeAttributes &&& 0x98 = 0x98
  memoryModel : info.memoryModel = 0x06

/-- A listed mode whose block meets the filter. -/
structure Offers (bios : Vbe) (modes : List (BitVec 16)) (mode : BitVec 16)
    (info : VbeModeInfo) : Prop where
  listed : mode ∈ modes
  answers : bios.modeInfo mode = some info
  meets : MeetsFilter info

/-- Asked to set a mode on offer, no smaller than any; or the error value if there is none. -/
structure BestChoice (bios : Vbe) (modes : List (BitVec 16)) (r : Choice) : Prop where
  best : (∃ mode info, Offers bios modes mode info) →
    ∃ mode info, Offers bios modes mode info ∧ r.asked = some (mode + 0x4000) ∧
      ∀ mode' info', Offers bios modes mode' info' → info'.vram ≤ info.vram
  error : (¬ ∃ mode info, Offers bios modes mode info) → r.ax = 1

/-- Whatever stands behind the terminator. -/
def SetsBestMode (bios : Vbe) (l : ModeList) (buffer : VbeModeInfo) : Prop :=
  ∀ rest, ∃ r, setSuitableVideoMode bios (l.modes ++ 0xffff :: rest) buffer = some r ∧
    BestChoice bios l.modes r

/-- The first call fails: the probe sees the buffer as it was. -/
def Stale (bios : Vbe) (modes : List (BitVec 16)) : Prop :=
  ∃ mode, modes.head? = some mode ∧ bios.modeInfo mode = none

/-- The blocks that the probes see. -/
def Probed (bios : Vbe) (modes : List (BitVec 16)) (buffer info : VbeModeInfo) : Prop :=
  (∃ mode ∈ modes, bios.modeInfo mode = some info) ∨ Stale bios modes ∧ info = buffer

/-- A mode on offer that passes the tests as the code makes them, and is larger than nothing
and than the stale block. -/
structure Reachable (bios : Vbe) (modes : List (BitVec 16)) (buffer : VbeModeInfo)
    (mode : BitVec 16) (info : VbeModeInfo) : Prop extends Offers bios modes mode info where
  depth_lt : info.bitsPerPixel.toNat < 128
  vram_pos : 0 < info.vram
  stale_lt : Stale bios modes → Passes buffer → buffer.vram ≤ 0x800000 → buffer.vram < info.vram

/-- A list that is not empty, no divide error, and a largest mode that the code can find. -/
structure Reliable (bios : Vbe) (modes : List (BitVec 16)) (buffer : VbeModeInfo) : Prop where
  nonempty : modes ≠ []
  fits : ∀ info, Probed bios modes buffer info → Fits info
  reachable : ∀ mode info, Offers bios modes mode info →
    ∃ mode' info', Reachable bios modes buffer mode' info' ∧ info.vram ≤ info'.vram

/-! ## The loop -/

/-- On a list that is not empty, the loop is one round for each mode. -/
theorem modeLoop_eq_run (bios : Vbe) (s : Search) {modes : List (BitVec 16)}
    (hne : modes ≠ []) (hend : 0xffff ∉ modes) (rest : List (BitVec 16)) :
    modeLoop bios s (modes ++ 0xffff :: rest) = run (modeStep bios) s modes := by
  induction modes generalizing s with
  | nil => exact absurd rfl hne
  | cons mode modes ih =>
    rw [run_cons, List.cons_append, modeLoop]
    refine congrArg (Option.bind (modeStep bios s mode)) (funext fun t => ?_)
    cases modes with
    | nil => rfl
    | cons next modes =>
      have hnext : next ≠ 0xffff := fun h => hend (by simp [h])
      have hrest : 0xffff ∉ next :: modes := fun h => hend (List.mem_cons_of_mem mode h)
      rw [← ih t (List.cons_ne_nil next modes) hrest]
      exact if_pos hnext

theorem stale_snoc_iff {bios : Vbe} {modes : List (BitVec 16)} {mode : BitVec 16} :
    Stale bios (modes ++ [mode]) ↔ Stale bios modes ∨ modes = [] ∧ bios.modeInfo mode = none := by
  cases modes with
  | nil => simp [Stale]
  | cons first modes => simp [Stale]

/-- Where `videoMode` comes from: nowhere, from the block of a listed mode, or from the stale
block. -/
inductive Origin (bios : Vbe) (modes : List (BitVec 16)) (buffer : VbeModeInfo) (s : Search) : Prop
  | none (size : s.suitableModeVRAM = 0) (mode : s.videoMode = 0xffff)
  | listed (info : VbeModeInfo) (reachable : Reachable bios modes buffer s.videoMode info)
      (size : s.suitableModeVRAM.toNat = info.vram)
  | stale (first : modes.head? = some s.videoMode) (fails : bios.modeInfo s.videoMode = .none)
      (passes : Passes buffer) (size : s.suitableModeVRAM.toNat = buffer.vram)

/-- What the loop knows behind `modes`. -/
structure Found (bios : Vbe) (buffer : VbeModeInfo) (modes : List (BitVec 16)) (s : Search) :
    Prop where
  bound : s.suitableModeVRAM.toNat ≤ 0x800000
  fits : ∀ info, Probed bios modes buffer info → Fits info
  upper : ∀ info, Probed bios modes buffer info → Passes info → info.vram ≤ 0x800000 →
    info.vram ≤ s.suitableModeVRAM.toNat
  start : modes = [] → s.buffer = buffer
  probed : modes ≠ [] → Probed bios modes buffer s.buffer
  origin : Origin bios modes buffer s

theorem found_start (bios : Vbe) (buffer : VbeModeInfo) :
    Found bios buffer [] ⟨0, 0xffff, buffer⟩ := by
  have hnone : ∀ info, ¬ Probed bios [] buffer info := by
    intro info h
    simp [Probed, Stale] at h
  exact ⟨by simp, fun info h => absurd h (hnone info), fun info h => absurd h (hnone info),
    fun _ => rfl, fun h => absurd rfl h, .none rfl rfl⟩

/-- The next probe sees one block: that of the next mode, or again the one in the buffer. -/
theorem Found.probed_snoc_iff {bios : Vbe} {buffer : VbeModeInfo} {modes : List (BitVec 16)}
    {s : Search} (h : Found bios buffer modes s) (mode : BitVec 16) (info : VbeModeInfo) :
    Probed bios (modes ++ [mode]) buffer info ↔
      Probed bios modes buffer info ∨ info = (bios.modeInfo mode).getD s.buffer := by
  have hsnoc : Probed bios (modes ++ [mode]) buffer info ↔ Probed bios modes buffer info ∨
      bios.modeInfo mode = some info ∨
        modes = [] ∧ bios.modeInfo mode = none ∧ info = buffer := by
    unfold Probed
    rw [stale_snoc_iff]
    simp only [List.mem_append, List.mem_singleton]
    grind
  rw [hsnoc]
  refine or_congr_right' fun hnew => ?_
  cases hanswer : bios.modeInfo mode with
  | some block => simp [eq_comm]
  | none =>
    by_cases hne : modes = []
    · simp [hne, h.start hne]
    · have hold := h.probed hne
      simp only [Option.getD_none, reduceCtorEq, hne, false_and, or_self, false_iff]
      exact fun heq => hnew (heq ▸ hold)

theorem Reachable.snoc {bios : Vbe} {modes : List (BitVec 16)} {found : BitVec 16}
    {buffer info : VbeModeInfo} (h : Reachable bios modes buffer found info) (mode : BitVec 16) :
    Reachable bios (modes ++ [mode]) buffer found info where
  listed := List.mem_append_left [mode] h.listed
  answers := h.answers
  meets := h.meets
  depth_lt := h.depth_lt
  vram_pos := h.vram_pos
  stale_lt hstale := h.stale_lt ((stale_snoc_iff.mp hstale).resolve_right fun hnil =>
    List.ne_nil_of_mem h.listed hnil.1)

/-- A round without a better mode. -/
theorem Origin.snoc {bios : Vbe} {modes : List (BitVec 16)} {buffer : VbeModeInfo} {s : Search}
    (h : Origin bios modes buffer s) (mode : BitVec 16) (block : VbeModeInfo) :
    Origin bios (modes ++ [mode]) buffer ⟨s.suitableModeVRAM, s.videoMode, block⟩ := by
  cases h with
  | none size hmode => exact .none size hmode
  | listed info reachable size => exact .listed info (reachable.snoc mode) size
  | stale first fails passes size =>
    refine .stale ?_ fails passes size
    rw [List.head?_append, first, Option.some_or]

theorem Improves.meetsFilter {v : BitVec 32} {info : VbeModeInfo} (h : Improves v info) :
    MeetsFilter info :=
  ⟨h.suitable, h.1.attributes, h.1.memoryModel⟩

/-- A block that was probed does not improve on what the loop has found. -/
theorem Found.not_improves {bios : Vbe} {buffer : VbeModeInfo} {modes : List (BitVec 16)}
    {s : Search} (h : Found bios buffer modes s) {info : VbeModeInfo}
    (hprobed : Probed bios modes buffer info) : ¬ Improves s.suitableModeVRAM info := by
  intro himp
  have hle := h.upper info hprobed himp.1 himp.2.1
  have hlt := himp.2.2
  omega

/-- A round, by the block that it tests. -/
theorem modeStep_eq_some_iff {bios : Vbe} {s t : Search} {mode : BitVec 16} {block : VbeModeInfo}
    (hv : s.suitableModeVRAM.toNat ≤ 0x800000)
    (hblock : (bios.modeInfo mode).getD s.buffer = block) :
    modeStep bios s mode = some t ↔ Fits block ∧
      (Improves s.suitableModeVRAM block ∧ t = ⟨BitVec.ofNat 32 block.vram, mode, block⟩ ∨
        ¬ Improves s.suitableModeVRAM block ∧ t = ⟨s.suitableModeVRAM, s.videoMode, block⟩) := by
  have hget : (getVesaVbeModeInfo bios mode s.buffer).1 = block := by
    rw [← hblock]
    unfold getVesaVbeModeInfo
    split
    case h_1 info hanswer => rw [hanswer, Option.getD_some]
    case h_2 hfails => rw [hfails, Option.getD_none]
  unfold modeStep
  dsimp only
  rw [hget]
  by_cases hfits : Fits block
  case neg =>
    rw [isSuitableVideoMode_of_not_fits hfits]
    simp [hfits]
  by_cases himp : Improves s.suitableModeVRAM block
  · rw [isSuitableVideoMode_of_improves hv himp]
    simp [hfits, himp, eq_comm]
  · rw [isSuitableVideoMode_of_not_improves hv hfits himp]
    simp [hfits, himp, eq_comm]

/-- The block of a better mode is its own, or the stale one for the first mode. -/
theorem Found.origin_of_improves {bios : Vbe} {buffer : VbeModeInfo} {modes : List (BitVec 16)}
    {s : Search} (h : Found bios buffer modes s) {mode : BitVec 16} {block : VbeModeInfo}
    (hblock : (bios.modeInfo mode).getD s.buffer = block)
    (himp : Improves s.suitableModeVRAM block) :
    Origin bios (modes ++ [mode]) buffer ⟨BitVec.ofNat 32 block.vram, mode, block⟩ := by
  cases hanswer : bios.modeInfo mode with
  | some info =>
    obtain rfl : info = block := by rwa [hanswer] at hblock
    refine .listed info ⟨⟨by simp, hanswer, himp.meetsFilter⟩, himp.1.depth_lt,
      Nat.zero_lt_of_lt himp.2.2, fun hstale hpass hle => ?_⟩ himp.toNat_vram
    obtain hstale | ⟨_, hfails⟩ := stale_snoc_iff.mp hstale
    · exact Nat.lt_of_le_of_lt (h.upper buffer (Or.inr ⟨hstale, rfl⟩) hpass hle) himp.2.2
    · rw [hanswer] at hfails
      cases hfails
  | none =>
    obtain rfl : s.buffer = block := by rwa [hanswer] at hblock
    by_cases hne : modes = []
    · rw [← h.start hne]
      refine .stale ?_ hanswer himp.1 himp.toNat_vram
      rw [hne]
      rfl
    · exact absurd himp (h.not_improves (h.probed hne))

/-- **One round** keeps what the loop knows. -/
theorem Found.step {bios : Vbe} {buffer : VbeModeInfo} {modes : List (BitVec 16)} {s t : Search}
    {mode : BitVec 16} (h : Found bios buffer modes s) (hstep : modeStep bios s mode = some t) :
    Found bios buffer (modes ++ [mode]) t := by
  obtain ⟨block, hblock⟩ : ∃ block, (bios.modeInfo mode).getD s.buffer = block := ⟨_, rfl⟩
  have hprobed : ∀ info, Probed bios (modes ++ [mode]) buffer info →
      Probed bios modes buffer info ∨ info = block := by
    intro info hinfo
    rw [← hblock]
    exact (h.probed_snoc_iff mode info).mp hinfo
  have hnext : Probed bios (modes ++ [mode]) buffer block :=
    (h.probed_snoc_iff mode block).mpr (Or.inr hblock.symm)
  have hne : modes ++ [mode] ≠ [] := by simp
  obtain ⟨hfits, hcases⟩ := (modeStep_eq_some_iff h.bound hblock).mp hstep
  have hfitsAll : ∀ info, Probed bios (modes ++ [mode]) buffer info → Fits info := by
    intro info hinfo
    obtain hold | rfl := hprobed info hinfo
    · exact h.fits info hold
    · exact hfits
  obtain ⟨himp, rfl⟩ | ⟨hnot, rfl⟩ := hcases
  · refine ⟨?_, hfitsAll, fun info hinfo hpass hle => ?_, fun hnil => absurd hnil hne,
      fun _ => hnext, h.origin_of_improves hblock himp⟩
    · rw [himp.toNat_vram]
      exact himp.2.1
    · rw [himp.toNat_vram]
      obtain hold | rfl := hprobed info hinfo
      · exact Nat.le_trans (h.upper info hold hpass hle) (Nat.le_of_lt himp.2.2)
      · exact Nat.le_refl _
  · refine ⟨h.bound, hfitsAll, fun info hinfo hpass hle => ?_, fun hnil => absurd hnil hne,
      fun _ => hnext, h.origin.snoc mode block⟩
    obtain hold | rfl := hprobed info hinfo
    · exact h.upper info hold hpass hle
    · exact Nat.le_of_not_lt fun hlt => hnot ⟨hpass, hle, hlt⟩

/-- **The loop.** -/
theorem found_of_run {bios : Vbe} {buffer : VbeModeInfo} {modes : List (BitVec 16)} {s : Search}
    (h : run (modeStep bios) ⟨0, 0xffff, buffer⟩ modes = some s) : Found bios buffer modes s :=
  run_invariant_events (Found bios buffer) (fun _ _ _ _ hs hstep => hs.step hstep)
    (found_start bios buffer) h

theorem exists_modeStep {bios : Vbe} {s : Search} {mode : BitVec 16} {block : VbeModeInfo}
    (hv : s.suitableModeVRAM.toNat ≤ 0x800000)
    (hblock : (bios.modeInfo mode).getD s.buffer = block) (hfits : Fits block) :
    ∃ t, modeStep bios s mode = some t ∧ t.suitableModeVRAM.toNat ≤ 0x800000 ∧
      t.buffer = block := by
  by_cases himp : Improves s.suitableModeVRAM block
  · refine ⟨_, (modeStep_eq_some_iff hv hblock).mpr ⟨hfits, Or.inl ⟨himp, rfl⟩⟩, ?_, rfl⟩
    rw [himp.toNat_vram]
    exact himp.2.1
  · exact ⟨_, (modeStep_eq_some_iff hv hblock).mpr ⟨hfits, Or.inr ⟨himp, rfl⟩⟩, hv, rfl⟩

/-- Without a block that overflows the division, the loop ends. -/
theorem exists_modeRun {bios : Vbe} {modes : List (BitVec 16)} {buffer : VbeModeInfo}
    (h : ∀ info, Probed bios modes buffer info → Fits info) :
    ∃ s, run (modeStep bios) ⟨0, 0xffff, buffer⟩ modes = some s := by
  cases modes with
  | nil => exact ⟨_, rfl⟩
  | cons first modes =>
    have hfirst : Probed bios (first :: modes) buffer ((bios.modeInfo first).getD buffer) := by
      cases hanswer : bios.modeInfo first with
      | some block => exact Or.inl ⟨first, List.mem_cons_self, hanswer⟩
      | none => exact Or.inr ⟨⟨first, rfl, hanswer⟩, rfl⟩
    obtain ⟨s, hs, hbound, hbuffer⟩ := exists_modeStep (s := ⟨0, 0xffff, buffer⟩)
      (Nat.zero_le _) rfl (h _ hfirst)
    have hrest : ∃ t, run (modeStep bios) s modes = some t := by
      refine exists_run (fun s => s.suitableModeVRAM.toNat ≤ 0x800000 ∧ Fits s.buffer)
        (fun s hI mode hmode => ?_) ⟨hbound, hbuffer ▸ h _ hfirst⟩
      have hfits : Fits ((bios.modeInfo mode).getD s.buffer) := by
        cases hanswer : bios.modeInfo mode with
        | some block => exact h block (Or.inl ⟨mode, List.mem_cons_of_mem first hmode, hanswer⟩)
        | none => exact hI.2
      obtain ⟨t, ht, htbound, htbuffer⟩ := exists_modeStep hI.1 rfl hfits
      exact ⟨t, ht, htbound, htbuffer ▸ hfits⟩
    obtain ⟨t, ht⟩ := hrest
    exact ⟨t, run_cons_eq_some.mpr ⟨s, hs, ht⟩⟩

/-! ## The choice -/

theorem setFoundMode_none {bios : Vbe} {s : Search} (h : s.videoMode = 0xffff) :
    setFoundMode bios s = ⟨none, 1, s.buffer⟩ := if_pos h

theorem asked_setFoundMode {bios : Vbe} {s : Search} (h : s.videoMode ≠ 0xffff) :
    (setFoundMode bios s).asked = some (s.videoMode + 0x4000) := by
  unfold setFoundMode
  rw [if_neg h]
  split
  · rfl
  · rfl

/-- A mode without a block is never set successfully: the last call is looked at. -/
theorem ax_setFoundMode {bios : Vbe} {s : Search} (h : bios.modeInfo s.videoMode = none) :
    (setFoundMode bios s).ax = 1 := by
  have hget : getVesaVbeModeInfo bios s.videoMode s.buffer = (s.buffer, 1) := by
    unfold getVesaVbeModeInfo
    rw [h]
  unfold setFoundMode
  rw [hget]
  split
  · rfl
  split
  · rfl
  · rfl

/-- On a list that is not empty. -/
theorem setSuitableVideoMode_eq_some_iff {bios : Vbe} {modes : List (BitVec 16)}
    (hne : modes ≠ []) (hend : 0xffff ∉ modes) {rest : List (BitVec 16)} {buffer : VbeModeInfo}
    {r : Choice} : setSuitableVideoMode bios (modes ++ 0xffff :: rest) buffer = some r ↔
      ∃ s, run (modeStep bios) ⟨0, 0xffff, buffer⟩ modes = some s ∧ setFoundMode bios s = r := by
  unfold setSuitableVideoMode
  rw [modeLoop_eq_run bios _ hne hend, Option.map_eq_some_iff]

/-- What the code finds is the best choice. -/
theorem Found.bestChoice {bios : Vbe} {buffer : VbeModeInfo} {modes : List (BitVec 16)}
    {s : Search} (h : Found bios buffer modes s) (hend : 0xffff ∉ modes)
    (hreach : ∀ mode info, Offers bios modes mode info →
      ∃ mode' info', Reachable bios modes buffer mode' info' ∧ info.vram ≤ info'.vram) :
    BestChoice bios modes (setFoundMode bios s) := by
  have hupper : ∀ {mode info}, Reachable bios modes buffer mode info →
      info.vram ≤ s.suitableModeVRAM.toNat := fun {mode info} hr =>
    h.upper info (Or.inl ⟨mode, hr.listed, hr.answers⟩)
      ⟨hr.meets.attributes, hr.meets.memoryModel, hr.meets.depth, hr.depth_lt⟩ hr.meets.vram
  refine ⟨fun ⟨mode, info, hoffer⟩ => ?_, fun hnone => ?_⟩
  · obtain ⟨_, info', hr, _⟩ := hreach mode info hoffer
    have hpos := hr.vram_pos
    have hle := hupper hr
    cases h.origin with
    | none size _ =>
      rw [size] at hle
      exact absurd (Nat.lt_of_lt_of_le hpos hle) (by decide)
    | listed found reachable size =>
      have hlisted : s.videoMode ≠ 0xffff := fun heq => hend (heq ▸ reachable.listed)
      refine ⟨_, found, reachable.toOffers, asked_setFoundMode hlisted, fun mode' info' hother => ?_⟩
      obtain ⟨_, best, hbest, hsmaller⟩ := hreach mode' info' hother
      rw [← size]
      exact Nat.le_trans hsmaller (hupper hbest)
    | stale first fails passes size =>
      have hstale : Stale bios modes := ⟨_, first, fails⟩
      have hlt := hr.stale_lt hstale passes (size ▸ h.bound)
      omega
  · cases h.origin with
    | none _ hmode => rw [setFoundMode_none hmode]
    | listed found reachable _ => exact absurd ⟨_, found, reachable.toOffers⟩ hnone
    | stale _ fails _ _ => exact ax_setFoundMode fails

/-- A best choice on offer is one that the code can find. -/
theorem Found.reachable {bios : Vbe} {buffer : VbeModeInfo} {modes : List (BitVec 16)}
    {s : Search} (h : Found bios buffer modes s)
    (hbest : BestChoice bios modes (setFoundMode bios s)) {mode : BitVec 16} {info : VbeModeInfo}
    (hoffer : Offers bios modes mode info) :
    ∃ mode' info', Reachable bios modes buffer mode' info' ∧ info.vram ≤ info'.vram := by
  obtain ⟨asked, block, hasked, heq, hmax⟩ := hbest.best ⟨mode, info, hoffer⟩
  by_cases hmode : s.videoMode = 0xffff
  · rw [setFoundMode_none hmode] at heq
    cases heq
  rw [asked_setFoundMode hmode, Option.some_inj, BitVec.add_left_inj] at heq
  subst heq
  cases h.origin with
  | none _ hnone => exact absurd hnone hmode
  | listed found reachable _ =>
    obtain rfl : block = found := Option.some.inj (hasked.answers.symm.trans reachable.answers)
    exact ⟨s.videoMode, block, reachable, hmax mode info hoffer⟩
  | stale _ fails _ _ =>
    rw [hasked.answers] at fails
    cases fails

/-- An empty list: the code reads on behind the terminator. -/
theorem not_setsBestMode_nil {bios : Vbe} {l : ModeList} (h : l.modes = []) (buffer : VbeModeInfo) :
    ¬ SetsBestMode bios l buffer := by
  intro hsets
  obtain ⟨r, hr, _⟩ := hsets []
  have hloop : modeLoop bios ⟨0, 0xffff, buffer⟩ [0xffff] = none := by
    rw [modeLoop]
    cases modeStep bios ⟨0, 0xffff, buffer⟩ 0xffff with
    | none => rfl
    | some s => rfl
  rw [h, setSuitableVideoMode, List.nil_append, hloop] at hr
  cases hr

/-- **The mode set is the best of the list** exactly if the list is not empty, no block that is
probed overflows the division, and a largest mode on offer is one that the code can find. -/
theorem setsBestMode_iff (bios : Vbe) (l : ModeList) (buffer : VbeModeInfo) :
    SetsBestMode bios l buffer ↔ Reliable bios l.modes buffer := by
  constructor
  · intro hsets
    have hne : l.modes ≠ [] := fun h => not_setsBestMode_nil h buffer hsets
    obtain ⟨r, hr, hbest⟩ := hsets []
    obtain ⟨s, hrun, rfl⟩ := (setSuitableVideoMode_eq_some_iff hne l.unterminated).mp hr
    have hfound := found_of_run hrun
    exact ⟨hne, hfound.fits, fun mode info => hfound.reachable hbest⟩
  · intro hreliable rest
    obtain ⟨s, hrun⟩ := exists_modeRun hreliable.fits
    exact ⟨setFoundMode bios s,
      (setSuitableVideoMode_eq_some_iff hreliable.nonempty l.unterminated).mpr ⟨s, hrun, rfl⟩,
      (found_of_run hrun).bestChoice l.unterminated hreliable.reachable⟩

/-! ## The mode that is set -/

/-- The loop is some number of rounds. -/
theorem run_of_modeLoop {bios : Vbe} {s t : Search} {words : List (BitVec 16)}
    (h : modeLoop bios s words = some t) : ∃ modes, run (modeStep bios) s modes = some t := by
  induction words generalizing s with
  | nil => cases h
  | cons mode words ih =>
    rw [modeLoop] at h
    obtain ⟨u, hu, h⟩ := Option.bind_eq_some_iff.mp h
    cases words with
    | nil => cases h
    | cons next words =>
      dsimp only at h
      split at h
      · obtain ⟨modes, hmodes⟩ := ih h
        exact ⟨mode :: modes, run_cons_eq_some.mpr ⟨u, hu, hmodes⟩⟩
      · exact ⟨[mode], run_cons_eq_some.mpr ⟨u, hu, h⟩⟩

/-- `SuitableModeVRAM` is that of a run of probes, and the mode's own block, if it has one, was
accepted after a run of probes. -/
structure ProbedBefore (bios : Vbe) (s : Search) : Prop where
  probed : ∃ probed, run probe 0 probed = some s.suitableModeVRAM
  accepted : s.videoMode ≠ 0xffff → ∀ info, bios.modeInfo s.videoMode = some info →
    ∃ probed, Accepted probed info

theorem ProbedBefore.step {bios : Vbe} {s t : Search} {mode : BitVec 16}
    (h : ProbedBefore bios s) (hstep : modeStep bios s mode = some t) : ProbedBefore bios t := by
  obtain ⟨probed, hprobed⟩ := h.probed
  have hbound := probed_le hprobed
  obtain ⟨block, hblock⟩ : ∃ block, (bios.modeInfo mode).getD s.buffer = block := ⟨_, rfl⟩
  have hnext : ∀ {w ax}, isSuitableVideoMode s.suitableModeVRAM block = some (w, ax) →
      run probe 0 (probed ++ [block]) = some w := by
    intro w ax hsome
    have hone : run probe s.suitableModeVRAM [block] = some w :=
      run_cons_eq_some.mpr ⟨w, Option.map_eq_some_iff.mpr ⟨(w, ax), hsome, rfl⟩, rfl⟩
    rw [run_append, hprobed, Option.bind_some, hone]
  obtain ⟨hfits, ⟨himp, rfl⟩ | ⟨hnot, rfl⟩⟩ := (modeStep_eq_some_iff hbound hblock).mp hstep
  · have hsome := isSuitableVideoMode_of_improves hbound himp
    refine ⟨⟨_, hnext hsome⟩, fun _ info hanswer => ?_⟩
    have hown : bios.modeInfo mode = some info := hanswer
    rw [hown, Option.getD_some] at hblock
    subst hblock
    exact ⟨probed, s.suitableModeVRAM, _, hprobed, hsome⟩
  · exact ⟨⟨_, hnext (isSuitableVideoMode_of_not_improves hbound hfits hnot)⟩, h.accepted⟩

theorem answers_of_ax_zero {bios : Vbe} {s : Search} (h : (setFoundMode bios s).ax = 0) :
    s.videoMode ≠ 0xffff ∧ bios.modeInfo s.videoMode = some (setFoundMode bios s).buffer := by
  by_cases hmode : s.videoMode = 0xffff
  · rw [setFoundMode_none hmode] at h
    cases h
  refine ⟨hmode, ?_⟩
  cases hanswer : bios.modeInfo s.videoMode with
  | none =>
    rw [ax_setFoundMode hanswer] at h
    cases h
  | some info =>
    have hget : getVesaVbeModeInfo bios s.videoMode s.buffer = (info, 0) := by
      unfold getVesaVbeModeInfo
      rw [hanswer]
    unfold setFoundMode at h ⊢
    rw [if_neg hmode, hget] at h ⊢
    split at h
    case isTrue => cases h
    case isFalse hset => rw [if_neg hset]

/-- **A mode that is set** successfully, from any list and any buffer, is one that
is_suitable_video_mode accepted: display.c finds its block at 0x7e00. -/
theorem accepted_of_set {bios : Vbe} {words : List (BitVec 16)} {buffer : VbeModeInfo} {r : Choice}
    (h : setSuitableVideoMode bios words buffer = some r) (hax : r.ax = 0) :
    ∃ probed, Accepted probed r.buffer := by
  obtain ⟨s, hloop, rfl⟩ := Option.map_eq_some_iff.mp h
  obtain ⟨modes, hrun⟩ := run_of_modeLoop hloop
  have hprobed : ProbedBefore bios s := run_invariant (ProbedBefore bios)
    (fun _ _ _ hs hstep => hs.step hstep)
    ⟨⟨[], rfl⟩, fun hmode => absurd rfl hmode⟩ hrun
  obtain ⟨hmode, hanswer⟩ := answers_of_ax_zero hax
  exact hprobed.accepted hmode _ hanswer

/-! ## A stale block -/

/-- 1024x768 with 32 bits per pixel, in the buffer from before. -/
def leftBlock : VbeModeInfo := ⟨0x9b, 4096, 1024, 768, 32, 6, 0xfd000000⟩

/-- Two modes; the call for the first one fails, the second has 800x600 with 24 bits per pixel. -/
def failingBios : Vbe where
  modeInfo mode := if mode = 0x115 then some ⟨0x9b, 2400, 800, 600, 24, 6, 0xfd000000⟩ else none
  setMode _ := 0

/-- The mode whose call fails is set. -/
theorem stale_block_chosen :
    ¬ SetsBestMode failingBios ⟨[0x103, 0x115], by decide⟩ leftBlock := by
  intro hsets
  obtain ⟨r, hr, hbest⟩ := hsets []
  have hasked : (setSuitableVideoMode failingBios [0x103, 0x115, 0xffff] leftBlock).map
      Choice.asked = some (some 0x4103) := by decide +kernel
  have hoffer : Offers failingBios [0x103, 0x115] 0x115 ⟨0x9b, 2400, 800, 600, 24, 6, 0xfd000000⟩ :=
    ⟨by decide, rfl, ⟨by decide, by decide⟩, by decide, rfl⟩
  obtain ⟨mode, info, hchosen, heq, _⟩ := hbest.best ⟨_, _, hoffer⟩
  have hr' : setSuitableVideoMode failingBios [0x103, 0x115, 0xffff] leftBlock = some r := hr
  rw [hr', Option.map_some, Option.some_inj, heq, Option.some_inj,
    show (0x4103 : BitVec 16) = 0x103 + 0x4000 from rfl, BitVec.add_left_inj] at hasked
  have hanswer := hchosen.answers
  rw [hasked] at hanswer
  cases hanswer

end ListaOS.Console
