/-
  The console as a list of stores (libkernel/console.c, display.c).

  The model of the console writes to a byte memory at virtual addresses. `fontStores` and
  `clearStores` are the stores that _draw_font and screen_clear make, in order, with their bytes;
  `drawFont_eq` and `screenClear_eq` say that nothing else happens to the memory. So a call of
  print_char or toggle_cursor is a list of stores to the window (`textStep_stores`).
-/
import ListaOS.Console.Cursor

namespace ListaOS.Console

open Lib

/-- An address and the byte stored there. -/
abbrev Store := BitVec 32 × BitVec 8

/-- Stores in order. -/
def storeAll (m : Mem (BitVec 8)) (ws : List Store) : Mem (BitVec 8) :=
  ws.foldl (fun m w => m.write w.1.toNat w.2) m

theorem storeAll_append (m : Mem (BitVec 8)) (ws ws' : List Store) :
    storeAll m (ws ++ ws') = storeAll (storeAll m ws) ws' := List.foldl_append

theorem storeAll_flatMap {α : Type} {f : α → List Store} {g : Mem (BitVec 8) → α → Mem (BitVec 8)}
    (h : ∀ m a, g m a = storeAll m (f a)) (m : Mem (BitVec 8)) (l : List α) :
    l.foldl g m = storeAll m (l.flatMap f) := by
  induction l generalizing m with
  | nil => rfl
  | cons a l ih => rw [List.foldl_cons, h, ih, List.flatMap_cons, storeAll_append]

theorem log_storeAll (m : Mem (BitVec 8)) (ws : List Store) :
    (storeAll m ws).log = (ws.map fun w => w.1.toNat).reverse ++ m.log := by
  induction ws generalizing m with
  | nil => rfl
  | cons w ws ih =>
    have hcons : storeAll m (w :: ws) = storeAll (m.write w.1.toNat w.2) ws := rfl
    rw [hcons, ih, Mem.log_write, List.map_cons, List.reverse_cons, List.append_assoc]
    rfl

/-- Where the stores are, from what is known of the memory. -/
theorem mem_of_writesIn {S : Set Nat} {m : Mem (BitVec 8)} {ws : List Store}
    (h : Mem.WritesIn S m (storeAll m ws)) : ∀ w ∈ ws, w.1.toNat ∈ S := by
  intro w hw
  refine h.mem_of_append (log_storeAll m ws) ?_
  exact List.mem_reverse.mpr (List.mem_map.mpr ⟨w, hw, rfl⟩)

section

variable (info : VbeModeInfo) (fontData : Int → BitVec 8)

/-- The stores of draw_pixel. -/
def pixelStores (x y : Int) (rgb : RGB) : List Store :=
  let pixelAddr := pixelAddr info x y
  [(pixelAddr, rgb.B), (pixelAddr + 1, rgb.G), (pixelAddr + 2, rgb.R)]

/-- The inner loop of `_draw_font`. -/
def lineStores (col row : Int) (fontColor backColor : RGB) : Nat → Nat → BitVec 8 → List Store
  | 0, _, _ => []
  | n + 1, j, data =>
      (if data &&& 0x80 ≠ 0 then pixelStores info (col + j) row fontColor
        else pixelStores info (col + j) row backColor) ++
      lineStores col row fontColor backColor n (j + 1) (data <<< 1)

def fontStores (d : FontCall) : List Store :=
  (List.range 16).flatMap fun (i : Nat) =>
    lineStores info (d.col * 8) (d.row * 16 + i) d.fontColor d.backColor 8 0
      (fontData (d.ch.toInt * 16 + i))

/-- The `memset` of screen_clear. -/
def clearStores : List Store :=
  (List.range (info.xResolution.toNat * info.yResolution.toNat * (info.bitsPerPixel.toNat / 8) %
    2 ^ 32)).map fun i => (vramBase + BitVec.ofNat 32 i, 0)

variable {info fontData}

theorem drawLine_eq (col row : Int) (fontColor backColor : RGB) (n j : Nat) (data : BitVec 8)
    (m : Mem (BitVec 8)) :
    drawLine info col row fontColor backColor n j data m =
      storeAll m (lineStores info col row fontColor backColor n j data) := by
  induction n generalizing j data m with
  | zero => rfl
  | succ n ih =>
    rw [drawLine, lineStores, storeAll_append, ih]
    split
    · rfl
    · rfl

theorem drawFont_eq (d : FontCall) (m : Mem (BitVec 8)) :
    drawFont info fontData d m = storeAll m (fontStores info fontData d) := by
  unfold drawFont fontStores
  exact storeAll_flatMap (fun m (i : Nat) => drawLine_eq (d.col * 8) (d.row * 16 + i) d.fontColor
    d.backColor 8 0 (fontData (d.ch.toInt * 16 + i)) m) m (List.range 16)

theorem repStosb_eq (n : Nat) (edi : BitVec 32) (m : Mem (BitVec 8)) :
    Mem.repStosb 0 n edi m =
      storeAll m ((List.range n).map fun i => (edi + BitVec.ofNat 32 i, 0)) := by
  induction n generalizing edi m with
  | zero => rfl
  | succ n ih =>
    have hfirst : edi + BitVec.ofNat 32 0 = edi := BitVec.add_zero _
    have hrest : ((List.range n).map Nat.succ).map (fun i => (edi + BitVec.ofNat 32 i, (0 : BitVec 8))) =
        (List.range n).map fun i => (edi + 1 + BitVec.ofNat 32 i, 0) := by
      rw [List.map_map]
      refine List.map_congr_left fun i _ => ?_
      have hsucc : BitVec.ofNat 32 (i + 1) = 1 + BitVec.ofNat 32 i := by
        rw [Nat.add_comm]
        exact BitVec.ofNat_add 1 i
      exact Prod.ext (by
        show edi + BitVec.ofNat 32 (i + 1) = edi + 1 + BitVec.ofNat 32 i
        rw [hsucc, BitVec.add_assoc]) rfl
    rw [Mem.repStosb, ih, List.range_succ_eq_map, List.map_cons, hrest, hfirst]
    rfl

theorem screenClear_eq (m : Mem (BitVec 8)) : screenClear info m = storeAll m (clearStores info) :=
  repStosb_eq _ _ m

/-! ## A call -/

/-- The stores of a call: those of the `_draw_font` calls that it makes. -/
def stepStores (info : VbeModeInfo) (fontData : Int → BitVec 8) (s : ConsoleState) (op : TextOp) :
    List Store :=
  ((textStep info fontData s op).drawn.drop s.drawn.length).flatMap (fontStores info fontData)

/-- Drawing appends to the log, and stores what it appends. -/
theorem Redraws.stores {s t : ConsoleState} (h : Redraws info fontData s t) :
    ∃ l, t.drawn = s.drawn ++ l ∧ t.vram = storeAll s.vram (l.flatMap (fontStores info fontData)) := by
  induction h with
  | same hv hd => exact ⟨[], by rw [hd, List.append_nil], hv⟩
  | draw s _ ch fontColor backColor =>
    refine ⟨[_], rfl, ?_⟩
    rw [List.flatMap_singleton]
    exact drawFont_eq _ s.vram
  | trans _ _ ih ih' =>
    obtain ⟨l, hl, hv⟩ := ih
    obtain ⟨l', hl', hv'⟩ := ih'
    refine ⟨l ++ l', by rw [hl', hl, List.append_assoc], ?_⟩
    rw [hv', hv, List.flatMap_append, storeAll_append]

/-- **A call is a list of stores** to the window. -/
theorem textStep_stores (hs : Suitable info) (hx : 64 ≤ info.xResolution.toNat) {s : ConsoleState}
    (h : InText info s) (op : TextOp) :
    (textStep info fontData s op).vram = storeAll s.vram (stepStores info fontData s op) ∧
      ∀ w ∈ stepStores info fontData s op, w.1.toNat ∈ window := by
  obtain ⟨-, hdraws⟩ := @InText.textStep info fontData hx s h op
  obtain ⟨l, hl, hv⟩ := hdraws.stores
  have hstores : stepStores info fontData s op = l.flatMap (fontStores info fontData) := by
    rw [stepStores, hl, List.drop_left]
  have hwrites := (hdraws.draws fontData hs).vram
  rw [hv] at hwrites
  rw [hstores]
  exact ⟨hv, mem_of_writesIn hwrites⟩

theorem clearStores_window (hs : Suitable info) : ∀ w ∈ clearStores info, w.1.toNat ∈ window := by
  have hwrites := hs.writesIn_screenClear (Mem.fresh fun _ => 0)
  rw [screenClear_eq] at hwrites
  exact mem_of_writesIn hwrites

end

end ListaOS.Console
