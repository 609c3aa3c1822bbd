/-
  The interrupt controllers (pic_init and the `outb`s of the handlers in libkernel/interrupt.c).

  `Pic` is an 8259A in fully nested mode: command words, the latched requests, the mask and the
  interrupts in service. pic_init puts both chips of a PC into a known state whatever they did
  before (`picInit_spec`). irq_0x20 and irq_0x21 end their interrupt by number, irq_0x27 does
  not: `pic_runs` says that in every run only vectors with a gate come up, the timer and the
  keyboard are never locked out, and an IRQ 7 is in service at most once.
-/
import ListaOS.Interrupt.Gdt
import ListaOS.Lib.Run

namespace ListaOS.Interrupt

open Lib

/-! ## The chip -/

/-- What the next write to the data port is; `single` and `ic4` are from ICW1. -/
inductive Phase where
  | ready
  | icw2 (single ic4 : Bool)
  | icw3 (ic4 : Bool)
  | icw4
deriving DecidableEq

structure Pic where
  irr : BitVec 8
  imr : BitVec 8
  isr : BitVec 8
  base : BitVec 8
  autoEoi : Bool
  phase : Phase

namespace Pic

/-- Input `n`. -/
def line (n : Nat) : BitVec 8 := 1#8 <<< n

/-- A write to the command port. -/
def command (p : Pic) (x : BitVec 8) : Pic :=
  if x.getLsbD 4 then
    -- ICW1
    { p with irr := 0, imr := 0, autoEoi := false, phase := .icw2 (x.getLsbD 1) (x.getLsbD 0) }
  else if x.getLsbD 3 then
    -- OCW3 selects what is read
    p
  else if x.extractLsb' 5 3 = 3 then
    -- OCW2, specific end of interrupt
    { p with isr := p.isr &&& ~~~line (x.extractLsb' 0 3).toNat }
  else if x.extractLsb' 5 3 = 1 then
    { p with isr := p.isr &&& (p.isr - 1) }
  else p

/-- A write to the data port. -/
def data (p : Pic) (x : BitVec 8) : Pic :=
  match p.phase with
  | .ready => { p with imr := x }
  | .icw2 single ic4 =>
      { p with
        base := x &&& 0xf8
        phase := if single then (if ic4 then .icw4 else .ready) else .icw3 ic4 }
  | .icw3 ic4 => { p with phase := if ic4 then .icw4 else .ready }
  | .icw4 => { p with autoEoi := x.getLsbD 1, phase := .ready }

/-- The request that the chip signals: the first one that is not masked, unless one of at least
its priority is in service. -/
def request (irr imr isr : BitVec 8) : Option Nat :=
  ((List.range 8).find? fun n => (irr &&& ~~~imr).getLsbD n).filter fun n =>
    (List.range (n + 1)).all fun m => !isr.getLsbD m

/-- The processor takes an interrupt, with the requests `irr`; a request that is gone by then
counts as number 7. -/
def acknowledge (p : Pic) (irr : BitVec 8) : Pic × BitVec 8 × Option Nat :=
  match request irr p.imr p.isr with
  | some n =>
      ({ p with
          irr := p.irr &&& ~~~line n
          isr := if p.autoEoi then p.isr else p.isr ||| line n },
        p.base + BitVec.ofNat 8 n, some n)
  | none => (p, p.base + 7, none)

end Pic

/-! ## The two chips -/

structure Pics where
  master : Pic
  slave : Pic

namespace Pics

/-- `outb` to one of the four ports. -/
def outb (s : Pics) (w : BitVec 16 × BitVec 8) : Pics :=
  if w.1 = 0x20 then { s with master := s.master.command w.2 }
  else if w.1 = 0x21 then { s with master := s.master.data w.2 }
  else if w.1 = 0xa0 then { s with slave := s.slave.command w.2 }
  else if w.1 = 0xa1 then { s with slave := s.slave.data w.2 }
  else s

/-- The requests at the master; the slave is at its input 2. -/
def requests (s : Pics) : BitVec 8 :=
  if (Pic.request s.slave.irr s.slave.imr s.slave.isr).isSome then s.master.irr ||| 0x04
  else s.master.irr

/-- The vector that the processor gets, and the chips then. -/
def acknowledge (s : Pics) : Pics × BitVec 8 × Option Nat :=
  let (master, v, n) := s.master.acknowledge s.requests
  if n = some 2 then
    let (slave, v, _) := s.slave.acknowledge s.slave.irr
    (⟨master, slave⟩, v, n)
  else (⟨master, s.slave⟩, v, n)

end Pics

/-- The `outb`s of pic_init. -/
def picWrites : List (BitVec 16 × BitVec 8) :=
  [(0x21, 0xff), (0xa1, 0xff), (0x20, 0x11), (0xa0, 0x11), (0x21, 0x20), (0xa1, 0x28),
    (0x21, 0x04), (0xa1, 0x02), (0x21, 0x01), (0xa1, 0x01), (0x21, 0x7c), (0xa1, 0xff)]

def picInit (s : Pics) : Pics := picWrites.foldl Pics.outb s

/-- The `outb`s of the handler of a vector. -/
def handlerWrites (v : BitVec 8) : List (BitVec 16 × BitVec 8) :=
  if v = 0x20 then [(0x20, 0x60)] else if v = 0x21 then [(0x20, 0x61)] else []

/-! ## Runs -/

/-- A device raises or withdraws its request, or the processor takes an interrupt and runs its
handler; requests that change meanwhile might as well have changed before or after. -/
inductive PicEvent where
  | raise (n : Fin 16)
  | withdraw (n : Fin 16)
  | service

/-- The chips, the vectors taken so far, and how often a request 7 went into service. -/
structure PicRun where
  pics : Pics
  vectors : List (BitVec 8)
  sevens : Nat

def setRequest (s : Pics) (n : Nat) (on : Bool) : Pics :=
  let change (irr : BitVec 8) (n : Nat) : BitVec 8 :=
    if on then irr ||| Pic.line n else irr &&& ~~~Pic.line n
  if n < 8 then { s with master := { s.master with irr := change s.master.irr n } }
  else { s with slave := { s.slave with irr := change s.slave.irr (n - 8) } }

def picStep (s : PicRun) : PicEvent → PicRun
  | .raise n => { s with pics := setRequest s.pics n true }
  | .withdraw n => { s with pics := setRequest s.pics n false }
  | .service =>
      let (pics, v, n) := s.pics.acknowledge
      ⟨(handlerWrites v).foldl Pics.outb pics, s.vectors ++ [v],
        if n = some 7 then s.sevens + 1 else s.sevens⟩

/-! ## The state that pic_init sets up -/

/-- Between two handlers: the masks and the vectors are those of pic_init, and nothing but an
IRQ 7 is in service. -/
structure Armed (s : Pics) : Prop where
  mask : s.master.imr = 0x7c
  base : s.master.base = 0x20
  manual : s.master.autoEoi = false
  phase : s.master.phase = .ready
  service : s.master.isr = 0 ∨ s.master.isr = 0x80
  slave : s.slave.imr = 0xff

/-- **pic_init**, from any state of the chips in which the BIOS has ended its interrupts. -/
theorem picInit_spec (s : Pics) (hisr : s.master.isr = 0) : Armed (picInit s) := by
  obtain ⟨⟨irr, imr, isr, base, eoi, phase⟩, ⟨irr', imr', isr', base', eoi', phase'⟩⟩ := s
  have hservice : isr = 0 := hisr
  cases phase <;> cases phase' <;> exact ⟨rfl, rfl, rfl, rfl, .inl hservice, rfl⟩

/-- The requests that get through the masks. -/
theorem request_spec (irr isr : BitVec 8) (hisr : isr = 0 ∨ isr = 0x80) :
    Pic.request irr 0x7c isr =
      if irr.getLsbD 0 then some 0
      else if irr.getLsbD 1 then some 1
      else if irr.getLsbD 7 && isr == 0 then some 7
      else none := by
  have hmask : ∀ n, (irr &&& ~~~(0x7c : BitVec 8)).getLsbD n =
      ((0x83 : BitVec 8).getLsbD n && irr.getLsbD n) := fun n =>
    BitVec.getLsbD_and.trans (Bool.and_comm _ _)
  have hrange : List.range 8 = [0, 1, 2, 3, 4, 5, 6, 7] := rfl
  have hinputs : (List.range 8).find? (fun n => (irr &&& ~~~(0x7c : BitVec 8)).getLsbD n) =
      if irr.getLsbD 0 then some 0
      else if irr.getLsbD 1 then some 1
      else if irr.getLsbD 7 then some 7
      else none := by
    rw [hrange]
    simp only [List.find?_cons, List.find?_nil, hmask]
    cases irr.getLsbD 0 <;> cases irr.getLsbD 1 <;> cases irr.getLsbD 7 <;> rfl
  unfold Pic.request
  rw [hinputs]
  obtain rfl | rfl := hisr
  · cases irr.getLsbD 0 <;> cases irr.getLsbD 1 <;> cases irr.getLsbD 7 <;> rfl
  · cases irr.getLsbD 0 <;> cases irr.getLsbD 1 <;> cases irr.getLsbD 7 <;> rfl

/-- The slave is masked. -/
theorem Armed.requests {s : Pics} (h : Armed s) : s.requests = s.master.irr := by
  have hnone : ∀ irr isr : BitVec 8, Pic.request irr 0xff isr = none := by
    intro irr isr
    have hzero : irr &&& ~~~(0xff : BitVec 8) = 0 := BitVec.and_zero
    unfold Pic.request
    rw [hzero]
    rfl
  unfold Pics.requests
  rw [h.slave, hnone]
  rfl

/-- What the master signals. -/
theorem Armed.acknowledge {s : Pics} (h : Armed s) :
    s.acknowledge =
      match Pic.request s.master.irr 0x7c s.master.isr with
      | some n =>
          (⟨{ s.master with
              irr := s.master.irr &&& ~~~Pic.line n
              isr := s.master.isr ||| Pic.line n }, s.slave⟩, 0x20 + BitVec.ofNat 8 n, some n)
      | none => (s, 0x27, none) := by
  have hrequests := h.requests
  -- input 2 is masked
  have hcascade : Pic.request s.master.irr 0x7c s.master.isr ≠ some 2 := by
    rw [request_spec _ _ h.service]
    split_ifs <;> decide
  obtain ⟨⟨irr, imr, isr, base, eoi, phase⟩, slave⟩ := s
  obtain ⟨rfl, rfl, rfl, -, -, -⟩ := h
  unfold Pics.acknowledge Pic.acknowledge
  rw [hrequests]
  dsimp only at hcascade ⊢
  cases hn : Pic.request irr 0x7c isr with
  | none => rfl
  | some n =>
    rw [hn] at hcascade
    dsimp only
    rw [if_neg hcascade]
    rfl

/-- Devices do not touch the masks or what is in service. -/
theorem Armed.setRequest {s : Pics} (h : Armed s) (n : Nat) (on : Bool) :
    Armed (setRequest s n on) := by
  obtain ⟨hmask, hbase, hmanual, hphase, hservice, hslave⟩ := h
  unfold Interrupt.setRequest
  dsimp only
  split
  · exact ⟨hmask, hbase, hmanual, hphase, hservice, hslave⟩
  · exact ⟨hmask, hbase, hmanual, hphase, hservice, hslave⟩

/-- What a run keeps. -/
structure Running (s : PicRun) : Prop where
  armed : Armed s.pics
  vectors : ∀ v ∈ s.vectors, v = 0x20 ∨ v = 0x21 ∨ v = 0x27
  sevens : s.sevens = if s.pics.master.isr = 0 then 0 else 1

/-- An interrupt that its handler ends leaves what was in service. -/
theorem isr_ended (isr : BitVec 8) (hisr : isr = 0 ∨ isr = 0x80) (n : Nat) (hn : n < 2) :
    (isr ||| Pic.line n) &&& ~~~Pic.line n = isr := by
  have hall : ∀ isr ∈ [(0 : BitVec 8), 0x80], ∀ n < 2,
      (isr ||| Pic.line n) &&& ~~~Pic.line n = isr := by decide
  exact hall isr (by simpa using hisr) n hn

theorem Running.vectors_append {s : PicRun} (h : Running s) {v : BitVec 8}
    (hv : v = 0x20 ∨ v = 0x21 ∨ v = 0x27) :
    ∀ w ∈ s.vectors ++ [v], w = 0x20 ∨ w = 0x21 ∨ w = 0x27 := by
  intro w hw
  obtain hw | hw := List.mem_append.mp hw
  · exact h.vectors w hw
  · exact List.mem_singleton.mp hw ▸ hv

/-- irq_0x20 and irq_0x21 end their interrupt. -/
theorem service_ended {s : PicRun} (h : Armed s.pics) {n : Nat} (hn : n < 2)
    (hreq : Pic.request s.pics.master.irr 0x7c s.pics.master.isr = some n) :
    picStep s .service =
      ⟨⟨{ s.pics.master with irr := s.pics.master.irr &&& ~~~Pic.line n }, s.pics.slave⟩,
        s.vectors ++ [0x20 + BitVec.ofNat 8 n], s.sevens⟩ := by
  have hisr := isr_ended _ h.service n hn
  have hack := h.acknowledge
  rw [hreq] at hack
  unfold picStep
  dsimp only
  rw [hack]
  obtain rfl | rfl : n = 0 ∨ n = 1 := by omega
  · show PicRun.mk ⟨{ s.pics.master with
      irr := _, isr := (s.pics.master.isr ||| Pic.line 0) &&& ~~~Pic.line 0 }, _⟩ _ _ = _
    rw [hisr]
    rfl
  · show PicRun.mk ⟨{ s.pics.master with
      irr := _, isr := (s.pics.master.isr ||| Pic.line 1) &&& ~~~Pic.line 1 }, _⟩ _ _ = _
    rw [hisr]
    rfl

/-- irq_0x27 does not. -/
theorem service_seven {s : PicRun} (h : Armed s.pics)
    (hreq : Pic.request s.pics.master.irr 0x7c s.pics.master.isr = some 7) :
    picStep s .service =
      ⟨⟨{ s.pics.master with
          irr := s.pics.master.irr &&& ~~~Pic.line 7
          isr := s.pics.master.isr ||| Pic.line 7 }, s.pics.slave⟩,
        s.vectors ++ [0x27], s.sevens + 1⟩ := by
  have hack := h.acknowledge
  rw [hreq] at hack
  unfold picStep
  dsimp only
  rw [hack]
  rfl

theorem service_spurious {s : PicRun} (h : Armed s.pics)
    (hreq : Pic.request s.pics.master.irr 0x7c s.pics.master.isr = none) :
    picStep s .service = ⟨s.pics, s.vectors ++ [0x27], s.sevens⟩ := by
  have hack := h.acknowledge
  rw [hreq] at hack
  unfold picStep
  dsimp only
  rw [hack]
  rfl

/-- One interrupt and its handler. -/
theorem Running.service {s : PicRun} (h : Running s) : Running (picStep s .service) := by
  obtain ⟨hmask, hbase, hmanual, hphase, hservice, hslave⟩ := h.armed
  have hspec := request_spec s.pics.master.irr _ hservice
  by_cases h0 : s.pics.master.irr.getLsbD 0 = true
  · rw [if_pos h0] at hspec
    rw [service_ended h.armed (by decide) hspec]
    exact ⟨⟨hmask, hbase, hmanual, hphase, hservice, hslave⟩, h.vectors_append (.inl rfl), h.sevens⟩
  · rw [if_neg h0] at hspec
    by_cases h1 : s.pics.master.irr.getLsbD 1 = true
    · rw [if_pos h1] at hspec
      rw [service_ended h.armed (by decide) hspec]
      exact ⟨⟨hmask, hbase, hmanual, hphase, hservice, hslave⟩,
        h.vectors_append (.inr (.inl rfl)), h.sevens⟩
    · rw [if_neg h1] at hspec
      by_cases h7 : (s.pics.master.irr.getLsbD 7 && s.pics.master.isr == 0) = true
      · rw [if_pos h7] at hspec
        have hzero : s.pics.master.isr = 0 := by simpa using (Bool.and_eq_true_iff.mp h7).2
        rw [service_seven h.armed hspec]
        refine ⟨⟨hmask, hbase, hmanual, hphase, .inr ?_, hslave⟩,
          h.vectors_append (.inr (.inr rfl)), ?_⟩
        · show s.pics.master.isr ||| Pic.line 7 = 0x80
          rw [hzero]
          rfl
        · show s.sevens + 1 = if s.pics.master.isr ||| Pic.line 7 = 0 then 0 else 1
          rw [h.sevens, hzero]
          rfl
      · rw [if_neg h7] at hspec
        rw [service_spurious h.armed hspec]
        exact ⟨h.armed, h.vectors_append (.inr (.inr rfl)), h.sevens⟩

/-- Requests do not change what is in service. -/
theorem isr_setRequest (s : Pics) (n : Nat) (on : Bool) :
    (setRequest s n on).master.isr = s.master.isr := by
  unfold setRequest
  dsimp only
  split
  · rfl
  · rfl

theorem Running.step {s : PicRun} (h : Running s) (e : PicEvent) : Running (picStep s e) := by
  cases e with
  | service => exact h.service
  | raise n =>
    refine ⟨h.armed.setRequest n true, h.vectors, ?_⟩
    show s.sevens = if (setRequest s.pics n true).master.isr = 0 then 0 else 1
    rw [isr_setRequest, h.sevens]
  | withdraw n =>
    refine ⟨h.armed.setRequest n false, h.vectors, ?_⟩
    show s.sevens = if (setRequest s.pics n false).master.isr = 0 then 0 else 1
    rw [isr_setRequest, h.sevens]

/-- **The interrupt controllers after pic_init.** Whatever the chips did before, in any run of
requests, withdrawals and interrupts: every vector that comes up has a handler; a request of the
timer is taken next, and one of the keyboard if the timer has none, although irq_0x27 ends no
interrupt; and an IRQ 7 goes into service at most once. -/
theorem pic_runs (s : Pics) (hisr : s.master.isr = 0) (es : List PicEvent) (h : Handlers) :
    let r := es.foldl picStep ⟨picInit s, [], 0⟩
    (∀ v ∈ r.vectors, (h.ofVector v).isSome) ∧
      (r.pics.master.irr.getLsbD 0 = true → r.pics.acknowledge.2.1 = 0x20) ∧
      (r.pics.master.irr.getLsbD 0 = false → r.pics.master.irr.getLsbD 1 = true →
        r.pics.acknowledge.2.1 = 0x21) ∧
      r.sevens ≤ 1 := by
  intro r
  have hstart : Running ⟨picInit s, [], 0⟩ := by
    refine ⟨picInit_spec s hisr, fun v hv => absurd hv List.not_mem_nil, ?_⟩
    have hkept : (picInit s).master.isr = 0 := by
      obtain ⟨⟨irr, imr, isr, base, eoi, phase⟩, slave⟩ := s
      have hservice : isr = 0 := hisr
      cases phase <;> exact hservice
    rw [hkept]
    rfl
  have hr : Running r := foldl_invariant Running (fun _ e hs => hs.step e) hstart es
  refine ⟨fun v hv => ?_, fun h0 => ?_, fun h0 h1 => ?_, ?_⟩
  · obtain rfl | rfl | rfl := hr.vectors v hv
    · rfl
    · rfl
    · rfl
  · rw [hr.armed.acknowledge, request_spec _ _ hr.armed.service, if_pos h0]
    rfl
  · rw [hr.armed.acknowledge, request_spec _ _ hr.armed.service, if_neg (by rw [h0]; decide),
      if_pos h1]
    rfl
  · rw [hr.sevens]
    split
    · exact Nat.zero_le _
    · exact Nat.le_refl _

/-- A keyboard interrupt that a tick overtakes, and a spurious one. -/
theorem pic_runs_keyboard :
    let r := [.raise 1, .raise 0, .service, .service, .service].foldl picStep
      ⟨picInit ⟨⟨0, 0xb8, 0, 0x08, false, .ready⟩, ⟨0, 0x8f, 0, 0x70, false, .icw4⟩⟩, [], 0⟩
    (∀ v ∈ r.vectors,
        (Handlers.ofVector ⟨0xc0000500, 0xc0000520, 0xc0000530, 0xc0000540⟩ v).isSome) ∧
      (r.pics.master.irr.getLsbD 0 = true → r.pics.acknowledge.2.1 = 0x20) ∧
      (r.pics.master.irr.getLsbD 0 = false → r.pics.master.irr.getLsbD 1 = true →
        r.pics.acknowledge.2.1 = 0x21) ∧
      r.sevens ≤ 1 :=
  pic_runs ⟨⟨0, 0xb8, 0, 0x08, false, .ready⟩, ⟨0, 0x8f, 0, 0x70, false, .icw4⟩⟩ rfl
    [.raise 1, .raise 0, .service, .service, .service]
    ⟨0xc0000500, 0xc0000520, 0xc0000530, 0xc0000540⟩

end ListaOS.Interrupt
