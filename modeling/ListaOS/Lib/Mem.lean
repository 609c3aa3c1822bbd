/-
  Memories of cells indexed by `Nat`, with a record of the cells stored to.

  `Mem α` keeps the log of every store beside the cells, so that "this code stores
  only there" is a statement about the log and not about the values left behind.
  `WritesIn S m m'` is the frame relation: `m'` comes from `m` by stores into `S`.
  A byte memory (`Mem (BitVec 8)`) also has `rep stosb` and little-endian 32-bit loads
  and stores.
-/
import Mathlib.Data.Set.Basic
import Mathlib.Tactic.Common
import Mathlib.Tactic.SplitIfs
import Mathlib.Algebra.Group.Nat.Defs

namespace ListaOS.Lib

/-- Cells, and the indices stored to so far, newest first. -/
structure Mem (α : Type) where
  cell : Nat → α
  log : List Nat

/-- The next address. -/
theorem toNat_add_one {w : Nat} {x : BitVec w} (h : x.toNat + 1 < 2 ^ w) :
    (x + 1).toNat = x.toNat + 1 := by
  have hone : (1 : BitVec w).toNat = 1 :=
    Nat.mod_eq_of_lt (Nat.lt_of_le_of_lt (Nat.le_add_left 1 x.toNat) h)
  rw [BitVec.toNat_add_of_lt (hone.symm ▸ h), hone]

namespace Mem

variable {α : Type}

/-- Unwritten memory with the contents `f`. -/
def fresh (f : Nat → α) : Mem α := ⟨f, []⟩

def read (m : Mem α) (i : Nat) : α := m.cell i

def write (m : Mem α) (i : Nat) (v : α) : Mem α :=
  ⟨fun j => if j = i then v else m.cell j, i :: m.log⟩

theorem read_fresh (f : Nat → α) (i : Nat) : (fresh f).read i = f i := rfl

@[simp] theorem log_fresh (f : Nat → α) : (fresh f).log = [] := rfl

@[simp] theorem read_write_self (m : Mem α) (i : Nat) (v : α) : (m.write i v).read i = v := by
  simp [read, write]

theorem read_write_of_ne (m : Mem α) {i j : Nat} (v : α) (h : j ≠ i) :
    (m.write i v).read j = m.read j := by
  simp [read, write, h]

theorem read_write (m : Mem α) (i j : Nat) (v : α) :
    (m.write i v).read j = if j = i then v else m.read j := rfl

@[simp] theorem log_write (m : Mem α) (i : Nat) (v : α) : (m.write i v).log = i :: m.log := rfl

/-! ## Frames -/

/-- `m'` comes from `m` by stores into `S` only. -/
structure WritesIn (S : Set Nat) (m m' : Mem α) : Prop where
  log : ∃ l, m'.log = l ++ m.log ∧ ∀ i ∈ l, i ∈ S
  read : ∀ i, i ∉ S → m'.read i = m.read i

namespace WritesIn

variable {S T : Set Nat} {m m' m'' : Mem α}

theorem refl (S : Set Nat) (m : Mem α) : WritesIn S m m :=
  ⟨⟨[], rfl, by simp⟩, fun _ _ => rfl⟩

theorem trans (h : WritesIn S m m') (h' : WritesIn S m' m'') : WritesIn S m m'' := by
  obtain ⟨⟨l, hl, hS⟩, hr⟩ := h
  obtain ⟨⟨l', hl', hS'⟩, hr'⟩ := h'
  refine ⟨⟨l' ++ l, by rw [hl', hl, List.append_assoc], ?_⟩, ?_⟩
  · intro i hi
    rcases List.mem_append.mp hi with hi | hi
    · exact hS' i hi
    · exact hS i hi
  · intro i hi
    rw [hr' i hi, hr i hi]

theorem mono (h : WritesIn S m m') (hST : S ⊆ T) : WritesIn T m m' := by
  obtain ⟨⟨l, hl, hS⟩, hr⟩ := h
  exact ⟨⟨l, hl, fun i hi => hST (hS i hi)⟩, fun i hi => hr i fun hiS => hi (hST hiS)⟩

theorem write (m : Mem α) {i : Nat} (v : α) (hi : i ∈ S) : WritesIn S m (m.write i v) := by
  refine ⟨⟨[i], rfl, ?_⟩, ?_⟩
  · intro j hj
    rw [List.mem_singleton.mp hj]
    exact hi
  · intro j hj
    exact read_write_of_ne m v fun e => hj (e ▸ hi)

/-- Every store recorded after `m` was a store into `S`. -/
theorem mem_of_log (h : WritesIn S m m') (hm : ∀ i ∈ m.log, i ∈ S) : ∀ i ∈ m'.log, i ∈ S := by
  obtain ⟨⟨l, hl, hS⟩, _⟩ := h
  intro i hi
  rw [hl] at hi
  rcases List.mem_append.mp hi with hi | hi
  · exact hS i hi
  · exact hm i hi

/-- A cell stored to since `m` is in `S`. -/
theorem mem_of_append (h : WritesIn S m m') {l : List Nat} (hl : m'.log = l ++ m.log) {i : Nat}
    (hi : i ∈ l) : i ∈ S := by
  obtain ⟨⟨l', hl', hS⟩, -⟩ := h
  rw [List.append_cancel_right (hl.symm.trans hl')] at hi
  exact hS i hi

/-- What is stored after `m'` is part of what is stored after `m`. -/
theorem of_trans (h : WritesIn S m m'') (hfirst : WritesIn S m m') (hlast : WritesIn T m' m'') :
    WritesIn S m' m'' := by
  obtain ⟨l', hl', -⟩ := hfirst.log
  obtain ⟨l, hl, -⟩ := hlast.log
  refine ⟨⟨l, hl, fun i hi => ?_⟩, fun i hi => (h.read i hi).trans (hfirst.read i hi).symm⟩
  exact h.mem_of_append (l := l ++ l') (by rw [hl, hl', List.append_assoc])
    (List.mem_append_left l' hi)

/-- A fold of steps that each store into `S` stores into `S`. -/
theorem foldl {β : Type} {f : Mem α → β → Mem α} :
    ∀ (l : List β) (m : Mem α), (∀ b ∈ l, ∀ m, WritesIn S m (f m b)) →
      WritesIn S m (l.foldl f m)
  | [], m, _ => refl S m
  | b :: l, m, h =>
      (h b (by simp) m).trans (foldl l (f m b) fun c hc => h c (List.mem_cons_of_mem b hc))

end WritesIn

/-! ## Texts -/

/-- `m'` comes from `m` by storing `t` from `a` on; the cell after it may be stored to too. -/
structure Wrote (a : Nat) (t : List α) (m m' : Mem α) : Prop where
  text : ∀ i c, t[i]? = some c → m'.read (a + i) = c
  writes : WritesIn {j | a ≤ j ∧ j ≤ a + t.length} m m'

namespace Wrote

variable {a : Nat} {t u : List α} {m m' m'' : Mem α}

theorem nil (a : Nat) (m : Mem α) : Wrote a [] m m where
  text := fun i c h => by simp at h
  writes := WritesIn.refl _ m

theorem single (a : Nat) (c : α) (m : Mem α) : Wrote a [c] m (m.write a c) where
  text := by
    intro i d h
    cases i with
    | zero =>
      rw [Nat.add_zero, read_write_self]
      exact Option.some.inj h
    | succ i => simp at h
  writes := WritesIn.write m c ⟨Nat.le_refl a, Nat.le_add_right _ _⟩

/-- The second text starts where the first ends, and may overwrite the cell after it. -/
theorem trans (h : Wrote a t m m') (h' : Wrote (a + t.length) u m' m'') :
    Wrote a (t ++ u) m m'' where
  text := by
    intro i c hi
    by_cases hlt : i < t.length
    · rw [List.getElem?_append_left hlt] at hi
      rw [h'.writes.read (a + i) fun hin => absurd hin.1 (by omega)]
      exact h.text i c hi
    · rw [List.getElem?_append_right (by omega)] at hi
      have hread := h'.text _ c hi
      rwa [Nat.add_assoc, Nat.add_sub_cancel' (by omega)] at hread
  writes := by
    rw [List.length_append]
    refine (h.writes.mono ?_).trans (h'.writes.mono ?_)
    · intro j hj
      exact ⟨hj.1, Nat.le_trans hj.2 (by omega)⟩
    · intro j hj
      exact ⟨Nat.le_trans (by omega) hj.1, Nat.le_trans hj.2 (by omega)⟩

theorem terminate (h : Wrote a t m m') (c : α) :
    Wrote a t m (m'.write (a + t.length) c) where
  text := by
    intro i d hi
    have hlt : i < t.length := (List.getElem?_eq_some_iff.mp hi).1
    rw [read_write_of_ne _ _ (by omega)]
    exact h.text i d hi
  writes := h.writes.trans (WritesIn.write m' c ⟨Nat.le_add_right _ _, Nat.le_refl _⟩)

/-- The memory holds one text of a length. -/
theorem unique (h : Wrote a t m m') (h' : Wrote a u m'' m') (hlen : t.length = u.length) :
    t = u := by
  apply List.ext_getElem hlen
  intro i hi hi'
  rw [← h.text i _ (List.getElem?_eq_getElem hi), ← h'.text i _ (List.getElem?_eq_getElem hi')]

end Wrote

/-! ## Lists -/

/-- Store a list from `a` on. -/
def writeList (m : Mem α) (a : Nat) : List α → Mem α
  | [] => m
  | c :: t => (m.write a c).writeList (a + 1) t

theorem writeList_append (m : Mem α) (a : Nat) (t u : List α) :
    m.writeList a (t ++ u) = (m.writeList a t).writeList (a + t.length) u := by
  induction t generalizing m a with
  | nil => rfl
  | cons c t ih =>
    rw [List.cons_append, writeList, ih, writeList, List.length_cons, Nat.add_assoc,
      Nat.add_comm 1]

theorem writesIn_writeList (m : Mem α) (a : Nat) (t : List α) :
    WritesIn {i | a ≤ i ∧ i < a + t.length} m (m.writeList a t) := by
  induction t generalizing m a with
  | nil => exact WritesIn.refl _ m
  | cons c t ih =>
    have hfirst : a ∈ {i | a ≤ i ∧ i < a + (c :: t).length} :=
      ⟨Nat.le_refl a, by rw [List.length_cons]; omega⟩
    refine (WritesIn.write m c hfirst).trans ((ih (m.write a c) (a + 1)).mono ?_)
    intro i hi
    obtain ⟨hlo, hhi⟩ := hi
    exact ⟨by omega, by rw [List.length_cons]; omega⟩

theorem read_writeList (m : Mem α) (a : Nat) {t : List α} {i : Nat} {c : α} (h : t[i]? = some c) :
    (m.writeList a t).read (a + i) = c := by
  induction t generalizing m a i with
  | nil => cases h
  | cons d t ih =>
    cases i with
    | zero =>
      have hkept := (writesIn_writeList (m.write a d) (a + 1) t).read a fun hin =>
        absurd hin.1 (by omega)
      show ((m.write a d).writeList (a + 1) t).read a = c
      rw [hkept, read_write_self]
      exact Option.some.inj h
    | succ i =>
      have hrest := ih (m.write a d) (a + 1) (i := i) h
      rwa [Nat.add_assoc, Nat.add_comm 1] at hrest

/-- A list is stored to its first cell. -/
theorem mem_log_writeList (m : Mem α) (a : Nat) {t : List α} (ht : t ≠ []) :
    ∃ l, (m.writeList a t).log = l ++ m.log ∧ a ∈ l := by
  cases t with
  | nil => exact absurd rfl ht
  | cons c t =>
    obtain ⟨l, hl, -⟩ := (writesIn_writeList (m.write a c) (a + 1) t).log
    exact ⟨l ++ [a], by rw [writeList, hl, log_write, List.append_assoc]; rfl, by simp⟩

/-- A list is stored to each of its cells. -/
theorem mem_log_writeList_add (m : Mem α) (a : Nat) {t : List α} {i : Nat} (hi : i < t.length) :
    ∃ l, (m.writeList a t).log = l ++ m.log ∧ a + i ∈ l := by
  have hrest : t.drop i ≠ [] := List.ne_nil_of_length_pos (by rw [List.length_drop]; omega)
  have hlen : (t.take i).length = i := List.length_take_of_le (Nat.le_of_lt hi)
  obtain ⟨l, hl, -⟩ := (writesIn_writeList m a (t.take i)).log
  obtain ⟨l', hl', hmem⟩ := mem_log_writeList (m.writeList a (t.take i)) (a + i) hrest
  refine ⟨l' ++ l, ?_, List.mem_append_left l hmem⟩
  rw [← List.take_append_drop i t, writeList_append, hlen, List.append_assoc, ← hl]
  exact hl'

/-! ## Byte memories -/

/-- `rep stosb`: store `al` at `edi`, `ecx` times. -/
def repStosb (al : BitVec 8) : Nat → BitVec 32 → Mem (BitVec 8) → Mem (BitVec 8)
  | 0, _, m => m
  | ecx + 1, edi, m => repStosb al ecx (edi + 1) (m.write edi.toNat al)

theorem writesIn_repStosb (al : BitVec 8) (n : Nat) (edi : BitVec 32) (m : Mem (BitVec 8))
    (h : edi.toNat + n < 2 ^ 32) :
    WritesIn {a | edi.toNat ≤ a ∧ a < edi.toNat + n} m (repStosb al n edi m) := by
  induction n generalizing edi m with
  | zero => exact WritesIn.refl _ m
  | succ n ih =>
    have hnext : (edi + 1).toNat = edi.toNat + 1 := toNat_add_one (by omega)
    have hfirst : edi.toNat ∈ {a | edi.toNat ≤ a ∧ a < edi.toNat + (n + 1)} :=
      ⟨Nat.le_refl _, by omega⟩
    refine (WritesIn.write m al hfirst).trans ((ih (edi + 1) _ (by omega)).mono ?_)
    intro a ha
    obtain ⟨hlo, hhi⟩ := ha
    rw [hnext] at hlo hhi
    exact ⟨by omega, by omega⟩

/-- `rep stosb` stores to each of its bytes. -/
theorem mem_log_repStosb (al : BitVec 8) (n : Nat) (edi : BitVec 32) (m : Mem (BitVec 8))
    (h : edi.toNat + n < 2 ^ 32) {a : Nat} (hlo : edi.toNat ≤ a) (hhi : a < edi.toNat + n) :
    ∃ l, (repStosb al n edi m).log = l ++ m.log ∧ a ∈ l := by
  induction n generalizing edi m with
  | zero => omega
  | succ n ih =>
    have hnext : (edi + 1).toNat = edi.toNat + 1 := toNat_add_one (by omega)
    by_cases ha : a = edi.toNat
    · obtain ⟨l, hl, -⟩ := (writesIn_repStosb al n (edi + 1) (m.write edi.toNat al) (by omega)).log
      exact ⟨l ++ [edi.toNat], by rw [List.append_assoc]; exact hl, by simp [ha]⟩
    · obtain ⟨l, hl, hmem⟩ := ih (edi + 1) (m.write edi.toNat al) (by omega) (by omega) (by omega)
      exact ⟨l ++ [edi.toNat], by rw [List.append_assoc]; exact hl, List.mem_append_left _ hmem⟩

theorem read_repStosb (al : BitVec 8) (n : Nat) (edi : BitVec 32) (m : Mem (BitVec 8))
    (h : edi.toNat + n < 2 ^ 32) {a : Nat} (hlo : edi.toNat ≤ a) (hhi : a < edi.toNat + n) :
    (repStosb al n edi m).read a = al := by
  induction n generalizing edi m with
  | zero => omega
  | succ n ih =>
    have hnext : (edi + 1).toNat = edi.toNat + 1 := toNat_add_one (by omega)
    by_cases ha : a = edi.toNat
    · have hframe := writesIn_repStosb al n (edi + 1) (m.write edi.toNat al) (by omega)
      rw [repStosb, hframe.read a fun hin => absurd hin.1 (by omega), ha, read_write_self]
    · exact ih (edi + 1) (m.write edi.toNat al) (by omega) (by omega) (by omega)

/-! ## 32-bit words -/

/-- The little-endian word at `a`. -/
def load32 (m : Mem (BitVec 8)) (a : Nat) : BitVec 32 :=
  m.read (a + 3) ++ m.read (a + 2) ++ m.read (a + 1) ++ m.read a

/-- The little-endian 16-bit word at `a`. -/
def load16 (m : Mem (BitVec 8)) (a : Nat) : BitVec 16 := m.read (a + 1) ++ m.read a

def store16 (m : Mem (BitVec 8)) (a : Nat) (v : BitVec 16) : Mem (BitVec 8) :=
  (m.write a (v.extractLsb' 0 8)).write (a + 1) (v.extractLsb' 8 8)

def store32 (m : Mem (BitVec 8)) (a : Nat) (v : BitVec 32) : Mem (BitVec 8) :=
  (((m.write a (v.extractLsb' 0 8)).write (a + 1) (v.extractLsb' 8 8)).write (a + 2)
    (v.extractLsb' 16 8)).write (a + 3) (v.extractLsb' 24 8)

theorem read_store16_of_ne (m : Mem (BitVec 8)) {a i : Nat} (v : BitVec 16)
    (h : i < a ∨ a + 2 ≤ i) : (m.store16 a v).read i = m.read i := by
  unfold store16
  rw [read_write_of_ne _ _ (by omega), read_write_of_ne _ _ (by omega)]

theorem writesIn_store16 (m : Mem (BitVec 8)) {a : Nat} (v : BitVec 16) {S : Set Nat}
    (h0 : a ∈ S) (h1 : a + 1 ∈ S) : WritesIn S m (m.store16 a v) :=
  (WritesIn.write m _ h0).trans (WritesIn.write _ _ h1)

theorem load16_congr {m m' : Mem (BitVec 8)} {a : Nat} (h0 : m'.read a = m.read a)
    (h1 : m'.read (a + 1) = m.read (a + 1)) : m'.load16 a = m.load16 a := by
  unfold load16
  rw [h0, h1]

theorem load16_store16_self (m : Mem (BitVec 8)) (a : Nat) (v : BitVec 16) :
    (m.store16 a v).load16 a = v := by
  have h0 : (m.store16 a v).read a = v.extractLsb' 0 8 := by
    simp [store16, read_write]
  have h1 : (m.store16 a v).read (a + 1) = v.extractLsb' 8 8 := by
    simp [store16]
  rw [load16, h0, h1]
  ext i hi
  rw [BitVec.getElem_append]
  simp only [BitVec.getElem_extractLsb']
  rw [← BitVec.getLsbD_eq_getElem (show i < 16 from hi)]
  split_ifs with hlow
  · rw [Nat.zero_add]
  · rw [show 8 + (i - 8) = i by omega]

theorem read_store32_of_ne (m : Mem (BitVec 8)) {a i : Nat} (v : BitVec 32)
    (h : i < a ∨ a + 4 ≤ i) : (m.store32 a v).read i = m.read i := by
  unfold store32
  rw [read_write_of_ne _ _ (by omega), read_write_of_ne _ _ (by omega),
    read_write_of_ne _ _ (by omega), read_write_of_ne _ _ (by omega)]

theorem writesIn_store32 (m : Mem (BitVec 8)) {a : Nat} (v : BitVec 32) {S : Set Nat}
    (h : ∀ i < 4, a + i ∈ S) : WritesIn S m (m.store32 a v) := by
  unfold store32
  exact (((WritesIn.write m _ (h 0 (by decide))).trans
    (WritesIn.write _ _ (h 1 (by decide)))).trans
      (WritesIn.write _ _ (h 2 (by decide)))).trans
        (WritesIn.write _ _ (h 3 (by decide)))

theorem load32_congr {m m' : Mem (BitVec 8)} {a : Nat}
    (h : ∀ i, a ≤ i → i < a + 4 → m'.read i = m.read i) : m'.load32 a = m.load32 a := by
  unfold load32
  rw [h a (by omega) (by omega), h (a + 1) (by omega) (by omega),
    h (a + 2) (by omega) (by omega), h (a + 3) (by omega) (by omega)]

/-- Four bytes cut out of a word make the word. -/
theorem append_bytes (v : BitVec 32) :
    (v.extractLsb' 24 8 ++ v.extractLsb' 16 8 ++ v.extractLsb' 8 8 ++ v.extractLsb' 0 8 :
      BitVec 32) = v := by
  ext i hi
  simp only [BitVec.getElem_append, BitVec.getElem_extractLsb']
  rw [← BitVec.getLsbD_eq_getElem (show i < 32 from hi)]
  split_ifs with h0 h1 h2
  · rw [Nat.zero_add]
  · rw [show 8 + (i - 8) = i by omega]
  · rw [show 16 + (i - 8 - 8) = i by omega]
  · rw [show 24 + (i - 8 - 8 - 8) = i by omega]

theorem load32_store32_self (m : Mem (BitVec 8)) (a : Nat) (v : BitVec 32) :
    (m.store32 a v).load32 a = v := by
  have h0 : (m.store32 a v).read a = v.extractLsb' 0 8 := by
    simp [store32, read_write]
  have h1 : (m.store32 a v).read (a + 1) = v.extractLsb' 8 8 := by
    simp [store32, read_write]
  have h2 : (m.store32 a v).read (a + 2) = v.extractLsb' 16 8 := by
    simp [store32, read_write]
  have h3 : (m.store32 a v).read (a + 3) = v.extractLsb' 24 8 := by
    simp [store32]
  rw [load32, h0, h1, h2, h3]
  exact append_bytes v

theorem load32_store32_of_disjoint (m : Mem (BitVec 8)) {a b : Nat} (v : BitVec 32)
    (h : b + 4 ≤ a ∨ a + 4 ≤ b) : (m.store32 a v).load32 b = m.load32 b := by
  apply load32_congr
  intro i hi hi4
  apply read_store32_of_ne
  omega

end Mem

end ListaOS.Lib
