/-
  memcpy, strlen and strcpy (libkernel/string.c).

  memcpy is its assembly: `eax` and `ebx` walk the two ranges, and `decl; jg` goes round again
  while ZF is clear and SF equals OF, that is while `ecx` is above 1 as a signed number
  (`decJg_iff`). The test comes after the first byte, so a call copies `copied n` bytes
  (`memcpyStart_returns`).

  strcpy copies `strlen(src)` bytes, without the NUL (`strcpy_spec`): the destination reads as
  `src` exactly where it held a NUL at the right place already, or where `src` is empty and
  the one byte copied is the NUL (`strcpy_copies_iff`).
-/
import ListaOS.Lib.Fuel
import ListaOS.Lib.Mem

namespace ListaOS.Strings

open Lib

abbrev Bytes := Mem (BitVec 8)

/-- `decl %ecx` sets ZF, SF and OF; `jg` is taken if ZF = 0 and SF = OF. -/
def decJg (ecx : BitVec 32) : Bool :=
  let result := ecx - 1
  let zf := result == 0
  let sf := result.msb
  let of := ecx == 0x80000000
  !zf && sf == of

/-- From the label `memcpy_start` on. -/
def memcpyStart : Nat → BitVec 32 → BitVec 32 → BitVec 32 → Bytes → Option Bytes
  | 0, _, _, _, _ => none
  | k + 1, eax, ebx, ecx, m =>
      let dl := m.read ebx.toNat
      let m := m.write eax.toNat dl
      if decJg ecx then memcpyStart k (eax + 1) (ebx + 1) (ecx - 1) m else some m

/-- The memory after the call, and `return dst`. -/
def memcpy (k : Nat) (dst src n : BitVec 32) (m : Bytes) : Option (Bytes × BitVec 32) :=
  (memcpyStart k dst src n m).map (·, dst)

/-- `while (s[len] != '\0') len++;` -/
def strlenLoop : Nat → BitVec 32 → Bytes → BitVec 32 → Option (BitVec 32)
  | 0, _, _, _ => none
  | k + 1, s, m, len => if m.read (s + len).toNat ≠ 0 then strlenLoop k s m (len + 1) else some len

def strlen (k : Nat) (s : BitVec 32) (m : Bytes) : Option (BitVec 32) := strlenLoop k s m 0

def strcpy (k : Nat) (dst src : BitVec 32) (m : Bytes) : Option (Bytes × BitVec 32) :=
  (strlen k src m).bind fun n => (memcpy k dst src n m).map fun r => (r.1, dst)

/-! ## memcpy -/

theorem decJg_iff (ecx : BitVec 32) : decJg ecx = true ↔ 1 < ecx.toNat ∧ ecx.toNat < 2 ^ 31 := by
  have hlt := ecx.isLt
  have hresult : (ecx - 1).toNat = (ecx.toNat + (2 ^ 32 - 1)) % 2 ^ 32 := by
    rw [BitVec.toNat_sub, Nat.add_comm]
    rfl
  have hzero : ecx - 1 = 0 ↔ ecx.toNat = 1 := by
    rw [← BitVec.toNat_inj, hresult, show (0 : BitVec 32).toNat = 0 from rfl]
    omega
  have hmsb : (ecx - 1).msb = true ↔ ecx.toNat = 0 ∨ 2 ^ 31 < ecx.toNat := by
    rw [BitVec.msb_eq_decide, decide_eq_true_eq, hresult]
    omega
  have hover : ecx = 0x80000000 ↔ ecx.toNat = 2 ^ 31 := by
    rw [← BitVec.toNat_inj]
    exact Iff.rfl
  unfold decJg
  simp only [Bool.and_eq_true, Bool.not_eq_true', beq_eq_false_iff_ne, ne_eq, hzero]
  rw [Bool.beq_eq_decide_eq, decide_eq_true_eq, Bool.eq_iff_iff, hmsb, beq_iff_eq, hover]
  omega

/-- The bytes that memcpy copies. -/
def copied (n : BitVec 32) : Nat := if 1 ≤ n.toNat ∧ n.toNat < 2 ^ 31 then n.toNat else 1

theorem copied_pos (n : BitVec 32) : 0 < copied n := by
  unfold copied
  split
  case isTrue h => exact h.1
  case isFalse => exact Nat.zero_lt_one

theorem copied_of_jg {n : BitVec 32} (h : decJg n = true) : copied n = copied (n - 1) + 1 := by
  obtain ⟨hlo, hhi⟩ := (decJg_iff n).mp h
  have hpred : (n - 1).toNat = n.toNat - 1 := by
    rw [BitVec.toNat_sub, show (1 : BitVec 32).toNat = 1 from rfl]
    omega
  unfold copied
  rw [if_pos ⟨by omega, hhi⟩, hpred, if_pos ⟨by omega, by omega⟩]
  omega

theorem copied_of_not_jg {n : BitVec 32} (h : ¬ decJg n = true) : copied n = 1 := by
  rw [decJg_iff] at h
  unfold copied
  split
  case isTrue hn => omega
  case isFalse => rfl

/-- `n` bytes from `a` on, without wrapping. -/
def Range (a : BitVec 32) (n : Nat) : Set Nat := {i | a.toNat ≤ i ∧ i < a.toNat + n}

/-- The ranges lie in the address space and have no byte in common. -/
structure Separate (dst src : BitVec 32) (n : Nat) : Prop where
  dst_fits : dst.toNat + n ≤ 2 ^ 32
  src_fits : src.toNat + n ≤ 2 ^ 32
  disjoint : dst.toNat + n ≤ src.toNat ∨ src.toNat + n ≤ dst.toNat

/-- `m'` is `m` with `n` bytes of it copied. -/
structure Copied (dst src : BitVec 32) (n : Nat) (m m' : Bytes) : Prop where
  bytes : ∀ i, i < n → m'.read (dst.toNat + i) = m.read (src.toNat + i)
  writes : Mem.WritesIn (Range dst n) m m'

/-! ## The loop -/

/-- The address of byte `i` from `a` on: the pointer after `i` increments. -/
def byteAt (a : BitVec 32) (i : Nat) : Nat := (a + BitVec.ofNat 32 i).toNat

@[simp] theorem byteAt_zero (a : BitVec 32) : byteAt a 0 = a.toNat := by
  simp [byteAt]

theorem byteAt_succ (a : BitVec 32) (i : Nat) : byteAt (a + 1) i = byteAt a (i + 1) := by
  have hnext : a + 1 + BitVec.ofNat 32 i = a + BitVec.ofNat 32 (i + 1) := by
    rw [Nat.add_comm, BitVec.ofNat_add, BitVec.add_assoc]
    rfl
  unfold byteAt
  rw [hnext]

/-- Fewer than 2^32 increments do not come back to the start. -/
theorem byteAt_succ_ne (a : BitVec 32) {i : Nat} (hi : i + 1 < 2 ^ 32) :
    byteAt a (i + 1) ≠ a.toNat := by
  have hlt := a.isLt
  unfold byteAt
  rw [BitVec.toNat_add, BitVec.toNat_ofNat, Nat.mod_eq_of_lt hi]
  omega

theorem byteAt_of_lt {a : BitVec 32} {i : Nat} (h : a.toNat + i < 2 ^ 32) :
    byteAt a i = a.toNat + i := by
  unfold byteAt
  rw [BitVec.toNat_add, BitVec.toNat_ofNat]
  omega

/-- The ranges of `n` bytes have no byte in common. -/
def Apart (dst src : BitVec 32) (n : Nat) : Prop :=
  ∀ i < n, ∀ j < n, byteAt dst i ≠ byteAt src j

theorem Apart.next {dst src : BitVec 32} {n : Nat} (h : Apart dst src (n + 1)) :
    Apart (dst + 1) (src + 1) n := by
  intro i hi j hj
  rw [byteAt_succ, byteAt_succ]
  exact h (i + 1) (by omega) (j + 1) (by omega)

theorem Separate.apart {dst src : BitVec 32} {n : Nat} (h : Separate dst src n) :
    Apart dst src n := by
  obtain ⟨hdst, hsrc, hdisj⟩ := h
  intro i hi j hj
  rw [byteAt_of_lt (by omega), byteAt_of_lt (by omega)]
  omega

/-- `Copied` by the addresses of the bytes, so that a range may run over the top of memory. -/
structure CopiedAt (dst src : BitVec 32) (n : Nat) (m m' : Bytes) : Prop where
  bytes : ∀ i < n, m'.read (byteAt dst i) = m.read (byteAt src i)
  writes : Mem.WritesIn {a | ∃ i < n, a = byteAt dst i} m m'

theorem CopiedAt.one (dst src : BitVec 32) (m : Bytes) :
    CopiedAt dst src 1 m (m.write dst.toNat (m.read src.toNat)) where
  bytes := by
    intro i hi
    obtain rfl : i = 0 := Nat.lt_one_iff.mp hi
    simp
  writes := Mem.WritesIn.write m _ ⟨0, Nat.zero_lt_one, (byteAt_zero dst).symm⟩

/-- One byte, and then the bytes behind it. -/
theorem CopiedAt.step {dst src : BitVec 32} {n : Nat} {m m' : Bytes} (hn : n < 2 ^ 32)
    (hapart : Apart dst src (n + 1))
    (h : CopiedAt (dst + 1) (src + 1) n (m.write dst.toNat (m.read src.toNat)) m') :
    CopiedAt dst src (n + 1) m m' := by
  obtain ⟨hbytes, hwrites⟩ := h
  simp only [byteAt_succ] at hbytes hwrites
  refine ⟨fun i hi => ?_, ?_⟩
  · cases i with
    | zero =>
      have hkept : dst.toNat ∉ {a | ∃ i < n, a = byteAt dst (i + 1)} := by
        rintro ⟨i, hi, heq⟩
        exact byteAt_succ_ne dst (by omega) heq.symm
      rw [byteAt_zero, byteAt_zero, hwrites.read _ hkept]
      exact Mem.read_write_self m _ _
    | succ i =>
      have hsrc : byteAt src (i + 1) ≠ dst.toNat := by
        rw [← byteAt_zero dst]
        exact (hapart 0 (Nat.succ_pos n) (i + 1) hi).symm
      rw [hbytes i (by omega), Mem.read_write_of_ne _ _ hsrc]
  · have hfirst : dst.toNat ∈ {a | ∃ i < n + 1, a = byteAt dst i} :=
      ⟨0, Nat.succ_pos n, (byteAt_zero dst).symm⟩
    refine (Mem.WritesIn.write m _ hfirst).trans (hwrites.mono ?_)
    rintro a ⟨i, hi, rfl⟩
    exact ⟨i + 1, Nat.succ_lt_succ hi, rfl⟩

theorem copied_lt (n : BitVec 32) : copied n < 2 ^ 32 := by
  have hlt := n.isLt
  unfold copied
  split
  · exact hlt
  · decide

/-- The loop copies `copied ecx` bytes. -/
theorem memcpyStart_returns {dst src ecx : BitVec 32} {n : Nat} (hn : copied ecx = n)
    (hapart : Apart dst src n) (m : Bytes) :
    ∃ m', Returns (fun k => memcpyStart k dst src ecx m) m' ∧ CopiedAt dst src n m m' := by
  induction n generalizing dst src ecx m with
  | zero => exact absurd hn (Nat.ne_of_gt (copied_pos ecx))
  | succ n ih =>
    by_cases hjg : decJg ecx = true
    · have hnext : copied (ecx - 1) = n := by
        rw [copied_of_jg hjg] at hn
        exact Nat.succ.inj hn
      obtain ⟨m', hret, hcopied⟩ := ih hnext hapart.next (m.write dst.toNat (m.read src.toNat))
      refine ⟨m', Returns.succ (hret.congr fun k => ?_), hcopied.step (hnext ▸ copied_lt _) hapart⟩
      rw [memcpyStart, if_pos hjg]
    · obtain rfl : n = 0 := by
        rw [copied_of_not_jg hjg] at hn
        exact (Nat.succ.inj hn).symm
      refine ⟨_, Returns.succ ((Returns.pure _).congr fun k => ?_), CopiedAt.one dst src m⟩
      rw [memcpyStart, if_neg hjg]

/-- Without wrapping, the addresses are those of the ranges. -/
theorem CopiedAt.copied {dst src : BitVec 32} {n : Nat} {m m' : Bytes}
    (hsep : Separate dst src n) (h : CopiedAt dst src n m m') : Copied dst src n m m' := by
  obtain ⟨hdst, hsrc, -⟩ := hsep
  refine ⟨fun i hi => ?_, h.writes.mono ?_⟩
  · rw [← byteAt_of_lt (a := dst) (by omega), ← byteAt_of_lt (a := src) (by omega)]
    exact h.bytes i hi
  · rintro a ⟨i, hi, rfl⟩
    rw [byteAt_of_lt (by omega)]
    exact ⟨by omega, by omega⟩

theorem memcpy_returns {dst src n : BitVec 32} (hsep : Separate dst src (copied n)) (m : Bytes) :
    ∃ m', Returns (fun k => memcpy k dst src n m) (m', dst) ∧ Copied dst src (copied n) m m' := by
  obtain ⟨m', hret, hcopied⟩ := memcpyStart_returns rfl hsep.apart m
  exact ⟨m', hret.map (·, dst), hcopied.copied hsep⟩

/-! ## strlen -/

/-- The C string `t` at `s`. -/
structure CString (m : Bytes) (s : BitVec 32) (t : List (BitVec 8)) : Prop where
  text : ∀ i c, t[i]? = some c → m.read (s.toNat + i) = c
  no_nul : ∀ c ∈ t, c ≠ 0
  nul : m.read (s.toNat + t.length) = 0
  fits : s.toNat + t.length < 2 ^ 32

theorem strlenLoop_returns {m : Bytes} {s : BitVec 32} {t : List (BitVec 8)} (h : CString m s t)
    (r : Nat) {len : BitVec 32} (hlen : len.toNat + r = t.length) :
    Returns (fun k => strlenLoop k s m len) (BitVec.ofNat 32 t.length) := by
  have hfits := h.fits
  induction r generalizing len with
  | zero =>
    rw [Nat.add_zero] at hlen
    have haddr : (s + len).toNat = s.toNat + t.length := by
      rw [BitVec.toNat_add, hlen]
      exact Nat.mod_eq_of_lt hfits
    refine Returns.succ ((Returns.pure _).congr fun k => ?_)
    rw [strlenLoop, haddr, if_neg (not_not.mpr h.nul), ← hlen, BitVec.ofNat_toNat,
      BitVec.setWidth_eq]
  | succ r ih =>
    have haddr : (s + len).toNat = s.toNat + len.toNat := BitVec.toNat_add_of_lt (by omega)
    have hlt : len.toNat < t.length := by omega
    have hchar := h.text len.toNat _ (List.getElem?_eq_getElem hlt)
    have hne := h.no_nul _ (List.getElem_mem hlt)
    have hrest : (len + 1).toNat + r = t.length := by
      rw [toNat_add_one (by omega)]
      omega
    have hnext := ih hrest
    refine Returns.succ (hnext.congr fun k => ?_)
    rw [strlenLoop, haddr, hchar, if_pos hne]

/-- strlen of a C string is the length of its text. -/
theorem CString.strlen {m : Bytes} {s : BitVec 32} {t : List (BitVec 8)} (h : CString m s t) :
    Returns (fun k => strlen k s m) (BitVec.ofNat 32 t.length) :=
  strlenLoop_returns h t.length (Nat.zero_add _)

/-! ## strcpy -/

/-- strcpy copies as many bytes as memcpy does for the length of the string. -/
theorem strcpy_spec {m : Bytes} {dst src : BitVec 32} {t : List (BitVec 8)} (h : CString m src t)
    (hsep : Separate dst src (t.length + 1)) :
    ∃ m', Returns (fun k => strcpy k dst src m) (m', dst) ∧
      Copied dst src (max 1 t.length) m m' := by
  obtain ⟨hdst, hsrc, hdisj⟩ := hsep
  have hlen : (BitVec.ofNat 32 t.length).toNat = t.length := by
    rw [BitVec.toNat_ofNat]
    exact Nat.mod_eq_of_lt (by omega)
  -- Two separate copies of the string are in the address space, so it is no longer than half.
  have hcopied : copied (BitVec.ofNat 32 t.length) = max 1 t.length := by
    unfold copied
    rw [hlen]
    split
    · omega
    · omega
  have hsep' : Separate dst src (copied (BitVec.ofNat 32 t.length)) := by
    rw [hcopied]
    exact ⟨by omega, by omega, by omega⟩
  obtain ⟨m', hret, hcop⟩ := memcpy_returns hsep' m
  rw [hcopied] at hcop
  refine ⟨m', ?_, hcop⟩
  exact h.strlen.bind (hret.map fun r => (r.1, dst))

/-- After strcpy: it has returned `dst`, the destination reads as the C string `t`, strlen gives
its length, and no byte outside of the copy and its NUL has been stored to. -/
def Copies (m : Bytes) (dst src : BitVec 32) (t : List (BitVec 8)) : Prop :=
  ∃ m', Returns (fun k => strcpy k dst src m) (m', dst) ∧ CString m' dst t ∧
    Returns (fun k => strlen k dst m') (BitVec.ofNat 32 t.length) ∧
    Mem.WritesIn (Range dst (t.length + 1)) m m'

/-- The one byte that strcpy leaves out. -/
theorem Copied.cstring_iff {m m' : Bytes} {dst src : BitVec 32} {t : List (BitVec 8)}
    (h : CString m src t) (hfits : dst.toNat + t.length < 2 ^ 32)
    (hcop : Copied dst src (max 1 t.length) m m') :
    CString m' dst t ↔ t = [] ∨ m.read (dst.toNat + t.length) = 0 := by
  have htext : ∀ i c, t[i]? = some c → m'.read (dst.toNat + i) = c := by
    intro i c hi
    have hlt : i < t.length := (List.getElem?_eq_some_iff.mp hi).1
    rw [hcop.bytes i (by omega)]
    exact h.text i c hi
  have hnul : m'.read (dst.toNat + t.length) = 0 ↔
      t = [] ∨ m.read (dst.toNat + t.length) = 0 := by
    by_cases hnil : t = []
    · subst hnil
      refine iff_of_true ?_ (Or.inl rfl)
      have hsrc := h.nul
      rw [List.length_nil] at hsrc ⊢
      rw [hcop.bytes 0 (by omega)]
      exact hsrc
    · have hpos : 0 < t.length := List.length_pos_iff.mpr hnil
      rw [or_iff_right hnil, hcop.writes.read _ fun hin => absurd hin.2 (by omega)]
  exact ⟨fun hc => hnul.mp hc.nul, fun hz => ⟨htext, h.no_nul, hnul.mpr hz, hfits⟩⟩

theorem copies_of_nul {m : Bytes} {dst src : BitVec 32} {t : List (BitVec 8)} (h : CString m src t)
    (hsep : Separate dst src (t.length + 1))
    (hnul : t = [] ∨ m.read (dst.toNat + t.length) = 0) : Copies m dst src t := by
  obtain ⟨m', hret, hcop⟩ := strcpy_spec h hsep
  have hcstring := (hcop.cstring_iff h hsep.dst_fits).mpr hnul
  refine ⟨m', hret, hcstring, hcstring.strlen, hcop.writes.mono fun i hi => ?_⟩
  exact ⟨hi.1, Nat.lt_of_lt_of_le hi.2 (by omega)⟩

theorem nul_of_copies {m : Bytes} {dst src : BitVec 32} {t : List (BitVec 8)} (h : CString m src t)
    (hsep : Separate dst src (t.length + 1)) (hcopies : Copies m dst src t) :
    t = [] ∨ m.read (dst.toNat + t.length) = 0 := by
  obtain ⟨m', hret, hcop⟩ := strcpy_spec h hsep
  obtain ⟨m'', hret', hcstring, -, -⟩ := hcopies
  obtain rfl : m'' = m' := congrArg Prod.fst (hret'.unique hret)
  exact (hcop.cstring_iff h hsep.dst_fits).mp hcstring

/-- **strcpy.** Into a buffer apart from the string, it makes a copy of the string, and stores
to nothing else, exactly if the string is empty or the buffer has a NUL where the copy ends. -/
theorem strcpy_copies_iff (m : Bytes) (dst src : BitVec 32) (t : List (BitVec 8))
    (h : CString m src t) (hsep : Separate dst src (t.length + 1)) :
    Copies m dst src t ↔ t = [] ∨ m.read (dst.toNat + t.length) = 0 :=
  ⟨nul_of_copies h hsep, copies_of_nul h hsep⟩

/-- A memory with the string "a" at 0x100, and `c` in every other byte. -/
def letterAt0x100 (c : BitVec 8) : Bytes :=
  Mem.fresh fun i => if i = 0x100 then 0x61 else if i = 0x101 then 0 else c

theorem cstring_letterAt0x100 (c : BitVec 8) : CString (letterAt0x100 c) 0x100 [0x61] where
  text := by
    intro i d hi
    cases i with
    | zero => exact Option.some.inj hi
    | succ i => simp at hi
  no_nul := by decide
  nul := rfl
  fits := by decide

theorem separate_0x200_0x100 : Separate 0x200 0x100 2 where
  dst_fits := by decide
  src_fits := by decide
  disjoint := by decide

/-- Into zeroed memory the copy ends in a NUL. -/
theorem strcpy_copies_zeroed :
    Copies (letterAt0x100 0) 0x200 0x100 [0x61] ↔
      ([0x61] : List (BitVec 8)) = [] ∨ (letterAt0x100 0).read (0x200 + 1) = 0 :=
  strcpy_copies_iff (letterAt0x100 0) 0x200 0x100 [0x61] (cstring_letterAt0x100 0)
    separate_0x200_0x100

/-- Over the text "bb…" it does not. -/
theorem strcpy_leaves_tail :
    CString (letterAt0x100 0x62) 0x100 [0x61] ∧ Separate 0x200 0x100 2 ∧
      ¬ Copies (letterAt0x100 0x62) 0x200 0x100 [0x61] := by
  refine ⟨cstring_letterAt0x100 0x62, separate_0x200_0x100, fun hcopies => ?_⟩
  have hnul := nul_of_copies (cstring_letterAt0x100 0x62) separate_0x200_0x100 hcopies
  obtain hnil | hzero := hnul
  · exact absurd hnil (List.cons_ne_nil _ _)
  · have hread : (letterAt0x100 0x62).read (0x200 + 1) = 0x62 := rfl
    exact absurd (hread.symm.trans hzero) (by decide)

end ListaOS.Strings
