/-
  The font (libkernel/font.c).

  A row of `fontRows` is the 16 bytes of a glyph in the order of the table, the first byte
  highest. The glyphs from ' ' on are pairwise distinct (`glyph_injective`), and that of ' ' is
  empty.
-/
import Mathlib.Data.List.GetD
import Mathlib.Data.List.Nodup
import Mathlib.Tactic.Common

namespace ListaOS.Console.Font

def fontRows : List (BitVec 128) := [
  0x00000000000000000000000000000000, 0x000000007f4159455d4151417f000000,
  0x000000007f4159455d4151417f000000, 0x000000007f4159455d4151417f000000,
  0x000000007f4159455d4151417f000000, 0x000000007f4159455d4151417f000000,
  0x000000007f4159455d4151417f000000, 0x000000007f4159455d4151417f000000,
  0x000000007f4159455d4151417f000000, 0x00000000000000000000000000000000,
  0x00000000000000000000000000000000, 0x000000007f4159455d4151417f000000,
  0x000000007f4159455d4151417f000000, 0x00000000000000000000000000000000,
  0x000000007f4159455d4151417f000000, 0x000000007f4159455d4151417f000000,
  0x000000007f4159455d4151417f000000, 0x000000007f4159455d4151417f000000,
  0x000000007f4159455d4151417f000000, 0x000000007f4159455d4151417f000000,
  0x000000007f4159455d4151417f000000, 0x000000007f4159455d4151417f000000,
  0x000000007f4159455d4151417f000000, 0x000000007f4159455d4151417f000000,
  0x000000007f4159455d4151417f000000, 0x000000007f4159455d4151417f000000,
  0x000000007f4159455d4151417f000000, 0x000000007f4159455d4151417f000000,
  0x00000000000000000000000000000000, 0x00000000000000000000000000000000,
  0x00000000000000000000000000000000, 0x00000000000000000000000000000000,
  0x00000000000000000000000000000000, 0x00000010101010101010001818000000,
  0x0000006c6c6c00000000000000000000, 0x000000002424fe2448fe484848000000,
  0x000000083c4850701c1612127c101000, 0x00000062949c68101026694986000000,
  0x000000304848783074948c8c76000000, 0x00000018181800000000000000000000,
  0x00000004081010202020202010100804, 0x00000040201010080808080810102040,
  0x000000082a1c1c2a0800000000000000, 0x000000000000101010fe101010000000,
  0x00000000000000000000001818083000, 0x0000000000000000003c000000000000,
  0x00000000000000000000001818000000, 0x0000000204040c081810102020400000,
  0x000000003c2442465a6242243c000000, 0x0000000008182808080808083e000000,
  0x000000003c420202040c18307e000000, 0x00000000780404043804040478000000,
  0x00000000181828684888fe0808000000, 0x000000007c4040407804040c78000000,
  0x000000001c20405c624242663c000000, 0x000000007e0204040808101030000000,
  0x000000003c424266186642423c000000, 0x000000003c664242463a020438000000,
  0x00000000000018180000001818000000, 0x00000000000018180000001818083000,
  0x00000000000408102020100804000000, 0x00000000000000007e007e0000000000,
  0x00000000004020100808102040000000, 0x00000030080404043820003030000000,
  0x0000001c2241419db5a5a5a5be804438, 0x000000001828286c4444fe8282000000,
  0x000000007c4242467c4242427c000000, 0x000000001c224040404040221c000000,
  0x00000000784442424242424478000000, 0x000000007c4040407c4040407c000000,
  0x000000007c4040407c40404040000000, 0x00000000384480809c8484443c000000,
  0x00000000424242427e42424242000000, 0x000000007c101010101010107c000000,
  0x000000007c0404040404044438000000, 0x00000000424448506050484442000000,
  0x0000000020202020202020203e000000, 0x0000000026665a5a5a52424242000000,
  0x0000000062625252524a4a4646000000, 0x00000000384482828282824438000000,
  0x000000007c4642424678404040000000, 0x00000000384482828282824478100e00,
  0x000000007844444478484c4446000000, 0x000000003c4040601c0602027c000000,
  0x00000000fe1010101010101010000000, 0x0000000042424242424242463c000000,
  0x00000000414163222236141418000000, 0x00000000414141696b2a3a3636000000,
  0x00000000c664281818382446c3000000, 0x00000000824444282810101010000000,
  0x000000007e040408181020207e000000, 0x0000001c10101010101010101010101c,
  0x000000402020101018080c0404020000, 0x00000038080808080808080808080838,
  0x00000000102844440000000000000000, 0x000000000000000000000000000000ff,
  0x00000060300000000000000000000000, 0x0000000000001824043c444c3c000000,
  0x0000004040405c664242424478000000, 0x0000000000003c20404040603c000000,
  0x0000000202021e22424242663a000000, 0x0000000000003c66427e40603e000000,
  0x0000000e1010107c1010101010000000, 0x0000000000003e44444478407c42423c,
  0x00000040404058644444444444000000, 0x0000003030007010101010107e000000,
  0x0000000c0c007c040404040404040c78, 0x00000040404044485060504844000000,
  0x0000007010101010101010107e000000, 0x000000000000feda9292929292000000,
  0x00000000000058644444444444000000, 0x0000000000003c66424242663c000000,
  0x0000000000005c664242424478404040, 0x0000000000001e22424242663a020202,
  0x00000000000058644440404040000000, 0x0000000000003c404038040478000000,
  0x000000002020fc20202020201c000000, 0x00000000000044444444444c34000000,
  0x00000000000022223214141408000000, 0x000000000000828292aaaaaa44000000,
  0x000000000000662418182466c3000000, 0x00000000000022223614141408081070,
  0x0000000000007c08081020207c000000, 0x0000000c10101010106010101010100c,
  0x00001010101010101010101010101010, 0x00000030080808080806080808080830,
  0x000000000000000062928c0000000000, 0x000000e0a0a0a0a0a0a0a0a0e0000000]

/-- Byte `i` of the glyph in a row. -/
def rowByte (row : BitVec 128) (i : Nat) : BitVec 8 := row.extractLsb' (8 * (15 - i)) 8

/-- `fontData[i]`; what lies around the table is not known. -/
def fontData (around : Int → BitVec 8) (i : Int) : BitVec 8 :=
  if 0 ≤ i ∧ i < 2048 then rowByte (fontRows.getD (i.toNat / 16) 0) (i.toNat % 16) else around i

variable (around : Int → BitVec 8)

/-- The bytes of an ASCII character are those of its row. -/
theorem fontData_ascii {ch : BitVec 8} (hch : ch.toNat < 128) {i : Nat} (hi : i < 16) :
    fontData around (ch.toInt * 16 + i) = rowByte (fontRows.getD ch.toNat 0) i := by
  have hint : ch.toInt * 16 + i = ((16 * ch.toNat + i : Nat) : Int) := by
    rw [BitVec.toInt_eq_toNat_of_lt (by omega)]
    omega
  rw [fontData, hint, if_pos ⟨Int.natCast_nonneg _, by omega⟩, Int.toNat_natCast,
    show (16 * ch.toNat + i) / 16 = ch.toNat by omega,
    show (16 * ch.toNat + i) % 16 = i by omega]

/-- A blank has no pixel. -/
theorem fontData_blank {i : Nat} (hi : i < 16) :
    fontData around ((0x20 : BitVec 8).toInt * 16 + i) = 0 := by
  have hrow : fontRows.getD (0x20 : BitVec 8).toNat 0 = 0 := rfl
  rw [fontData_ascii around (by decide) hi, hrow]
  exact BitVec.extractLsb'_zero

/-- The bytes of a row are all of it. -/
theorem row_ext {a b : BitVec 128} (h : ∀ i < 16, rowByte a i = rowByte b i) : a = b := by
  refine BitVec.eq_of_getLsbD_eq fun k hk => ?_
  have hbit := congrArg (fun x : BitVec 8 => x.getLsbD (k % 8)) (h (15 - k / 8) (by omega))
  simp only [rowByte, BitVec.getLsbD_extractLsb', Nat.mod_lt _ (by decide : 8 > 0), decide_true,
    Bool.true_and] at hbit
  rwa [show 8 * (15 - (15 - k / 8)) + k % 8 = k by omega] at hbit

/-- **Glyphs tell characters apart**, from ' ' on. -/
theorem glyph_injective {ch ch' : BitVec 8} (hch : 0x20 ≤ ch.toNat ∧ ch.toNat < 0x80)
    (hch' : 0x20 ≤ ch'.toNat ∧ ch'.toNat < 0x80)
    (h : ∀ i < 16, fontData around (ch.toInt * 16 + (i : Nat)) =
      fontData around (ch'.toInt * 16 + (i : Nat))) : ch = ch' := by
  have hnodup : (fontRows.drop 0x20).Nodup := by decide +kernel
  have hrows : fontRows.getD ch.toNat 0 = fontRows.getD ch'.toNat 0 := row_ext fun i hi => by
    rw [← fontData_ascii around hch.2 hi, ← fontData_ascii around hch'.2 hi]
    exact h i hi
  have hdrop : ∀ c : BitVec 8, (hlo : 0x20 ≤ c.toNat) → (hhi : c.toNat < 0x80) →
      ∃ hk : c.toNat - 0x20 < (fontRows.drop 0x20).length,
        (fontRows.drop 0x20)[c.toNat - 0x20] = fontRows.getD c.toNat 0 := by
    intro c hlo hhi
    have hlen : (fontRows.drop 0x20).length = 0x60 := rfl
    refine ⟨by rw [hlen]; omega, ?_⟩
    rw [List.getElem_drop, ← List.getD_eq_getElem _ 0]
    congr 1
    omega
  obtain ⟨hk, hrow⟩ := hdrop ch hch.1 hch.2
  obtain ⟨hk', hrow'⟩ := hdrop ch' hch'.1 hch'.2
  have hindex := hnodup.getElem_inj_iff.mp (hrow.trans (hrows.trans hrow'.symm))
  exact BitVec.eq_of_toNat_eq (by omega)

end ListaOS.Console.Font
