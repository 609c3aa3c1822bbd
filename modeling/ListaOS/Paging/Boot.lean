/-
  The tables that protect_mode_start leaves: `translate_kernel` and
  `selfMap_protectModeStart`.

  The two loops fill entries with successive page addresses (`Filled`). The directory is
  filled first; nothing after it stores into 0x1ff000..0x1fffff (`DirectoryKept`). The last
  memory_page_map covers pages 0xffbff..0xfffff, so entries 0xffc00.. map the page table,
  and only the GDT is stored after it.
-/
import ListaOS.Paging.Basic
import Mathlib.Data.Set.Function

namespace ListaOS.Paging

open Lib

/-! ## Fill loops -/

/-- `n` entries from address `a` on hold `e`, `e + 0x1000`, ... with the flags 7, and
nothing else changed. -/
structure Filled (a n : Nat) (e : BitVec 32) (m m' : Mem (BitVec 8)) : Prop where
  entries : ∀ i < n, m'.load32 (a + 4 * i) = (e + 0x1000 * BitVec.ofNat 32 i) ||| 7
  frame : ∀ j, j < a ∨ a + 4 * n ≤ j → m'.read j = m.read j

/-- Successive page addresses do not wrap. -/
theorem toNat_pageAddr {e : BitVec 32} {f i : Nat} (he : e.toNat = 0x1000 * f)
    (h : f + i < 2 ^ 20) : (e + 0x1000 * BitVec.ofNat 32 i).toNat = 0x1000 * (f + i) := by
  rw [BitVec.toNat_add, BitVec.toNat_mul, BitVec.toNat_ofNat, he]
  simp only [BitVec.reduceToNat]
  omega

namespace Filled

variable {a n : Nat} {e : BitVec 32} {m m' m'' : Mem (BitVec 8)}

theorem zero : Filled a 0 e m m where
  entries := fun _ hi => absurd hi (Nat.not_lt_zero _)
  frame := fun _ _ => rfl

/-- One entry, then the rest. -/
theorem cons (h : Filled a 1 e m m') (h' : Filled (a + 4) n (e + 0x1000) m' m'') :
    Filled a (n + 1) e m m'' where
  entries := by
    intro i hi
    cases i with
    | zero =>
      have hkept : m''.load32 (a + 4 * 0) = m'.load32 (a + 4 * 0) :=
        Mem.load32_congr fun j hj hj4 => h'.frame j (by omega)
      rw [hkept]
      exact h.entries 0 Nat.one_pos
    | succ i =>
      have hnext := h'.entries i (by omega)
      have haddr : e + 0x1000 + 0x1000 * BitVec.ofNat 32 i =
          e + 0x1000 * BitVec.ofNat 32 (i + 1) := by
        rw [BitVec.ofNat_add, BitVec.mul_add, BitVec.add_assoc, BitVec.add_comm 0x1000]
        rfl
      rw [show a + 4 * (i + 1) = a + 4 + 4 * i by omega, hnext, haddr]
  frame := by
    intro j hj
    rw [h'.frame j (by omega), h.frame j (by omega)]

end Filled

theorem filled_store32 (m : Mem (BitVec 8)) (a : Nat) (e : BitVec 32) :
    Filled a 1 e m (m.store32 a (e ||| 7)) where
  entries := by
    intro i hi
    obtain rfl : i = 0 := by omega
    simpa using Mem.load32_store32_self m a (e ||| 7)
  frame := fun j hj => Mem.read_store32_of_ne m _ (by omega)

theorem filled_directoryLoop (n : Nat) (eax ecx : BitVec 32) (m : Mem (BitVec 8))
    (hn : ecx.toNat + 4 * n < 2 ^ 32) :
    Filled ecx.toNat n eax m (directoryLoop n eax ecx m) := by
  induction n generalizing eax ecx m with
  | zero => exact Filled.zero
  | succ n ih =>
    have hnext : (ecx + 4).toNat = ecx.toNat + 4 :=
      BitVec.toNat_add_of_lt (show ecx.toNat + 4 < 2 ^ 32 by omega)
    have hrest := ih (eax + 0x1000) (ecx + 4) (m.store32 ecx.toNat (eax ||| 7)) (by omega)
    rw [hnext] at hrest
    exact (filled_store32 m ecx.toNat eax).cons hrest

/-- The store of the address and the `orl` of the flags make one entry. -/
theorem filled_memoryPageMapLoop (n : Nat) (eax edx : BitVec 32) (m : Mem (BitVec 8))
    (hn : edx.toNat + 4 * n < 2 ^ 32) :
    Filled edx.toNat n eax m (memoryPageMapLoop n eax edx m) := by
  induction n generalizing eax edx m with
  | zero => exact Filled.zero
  | succ n ih =>
    have hnext : (edx + 4).toNat = edx.toNat + 4 :=
      BitVec.toNat_add_of_lt (show edx.toNat + 4 < 2 ^ 32 by omega)
    have hrest := ih (eax + 0x1000) (edx + 4)
      ((m.store32 edx.toNat eax).store32 edx.toNat
        ((m.store32 edx.toNat eax).load32 edx.toNat ||| 7)) (by omega)
    rw [hnext] at hrest
    have hone := filled_store32 (m.store32 edx.toNat eax) edx.toNat eax
    rw [memoryPageMapLoop]
    rw [Mem.load32_store32_self] at hrest ⊢
    refine Filled.cons ⟨hone.entries, fun j hj => ?_⟩ hrest
    rw [hone.frame j hj]
    exact Mem.read_store32_of_ne m _ (by omega)

/-- What one `memory_page_map` does, for targets inside the table. -/
theorem filled_memoryPageMap (start count target : BitVec 32) (m : Mem (BitVec 8))
    (h : target.toNat + count.toNat ≤ 2 ^ 20) :
    Filled (0x200000 + 4 * target.toNat) count.toNat (start <<< 12) m
      (memoryPageMap start count target m) := by
  have haddr : (target <<< 2 + pageTableBase).toNat = 0x200000 + 4 * target.toNat := by
    rw [BitVec.toNat_add, BitVec.toNat_shiftLeft, Nat.shiftLeft_eq]
    have hbase : pageTableBase.toNat = 0x200000 := rfl
    rw [hbase]
    omega
  rw [← haddr]
  exact filled_memoryPageMapLoop _ _ _ _ (by omega)

/-! ## The directory stays -/

/-- The page directory at 0x1ff000 was not stored to. -/
def DirectoryKept (m m' : Mem (BitVec 8)) : Prop :=
  ∀ j, 0x1ff000 ≤ j → j < 0x200000 → m'.read j = m.read j

/-- `memory_page_map` stores only into its entries. -/
theorem eqOn_memoryPageMap {S : Set Nat} (start count target : BitVec 32) (m : Mem (BitVec 8))
    (h : target.toNat + count.toNat ≤ 2 ^ 20)
    (hS : ∀ j ∈ S, j < 0x200000 + 4 * target.toNat ∨
      0x200000 + 4 * target.toNat + 4 * count.toNat ≤ j) :
    Set.EqOn (memoryPageMap start count target m).read m.read S :=
  fun j hj => (filled_memoryPageMap start count target m h).frame j (hS j hj)

/-- The GDT lies between the memory map and the kernel. -/
theorem read_initGdt (m : Mem (BitVec 8)) {j : Nat} (hj : j < 0x10800 ∨ 0x20000 ≤ j) :
    (initGdt m).read j = m.read j := by
  unfold initGdt
  dsimp only
  rw [Mem.read_store32_of_ne _ _ (by omega), Mem.read_store32_of_ne _ _ (by omega),
    Mem.read_store16_of_ne _ _ (by omega), Mem.read_store32_of_ne _ _ (by omega),
    Mem.read_store32_of_ne _ _ (by omega), Mem.read_store32_of_ne _ _ (by omega),
    Mem.read_store32_of_ne _ _ (by omega), Mem.read_store32_of_ne _ _ (by omega),
    Mem.read_store32_of_ne _ _ (by omega)]

/-- After init_kernel_paging nothing between the GDT and the table is stored to. -/
theorem protectModeStart_below (ram : Mem (BitVec 8)) :
    Set.EqOn (protectModeStart ram).mem.read (initKernelPaging ram).read
      {j | 0x20000 ≤ j ∧ j < 0x200000} := by
  have hmap : ∀ (start count target : BitVec 32) (m : Mem (BitVec 8)),
      target.toNat + count.toNat ≤ 2 ^ 20 → Set.EqOn (memoryPageMap start count target m).read
        m.read {j | 0x20000 ≤ j ∧ j < 0x200000} := fun start count target m h =>
    eqOn_memoryPageMap start count target m h fun j hj =>
      .inl (Nat.lt_of_lt_of_le hj.2 (Nat.le_add_right _ _))
  refine Set.EqOn.trans (fun j hj => read_initGdt _ (.inr hj.1)) ?_
  refine (hmap _ _ _ _ (by decide)).trans ?_
  refine (hmap _ _ _ _ (by decide)).trans ?_
  refine (hmap _ _ _ _ (by decide)).trans ?_
  refine (hmap _ _ _ _ (by decide)).trans ?_
  refine (hmap _ _ _ _ (by decide)).trans ?_
  refine (hmap _ _ _ _ (by decide)).trans ?_
  refine (hmap _ _ _ _ (by decide)).trans ?_
  refine (hmap _ _ _ _ (by decide)).trans ?_
  exact hmap _ _ _ _ (by decide)

/-- init_kernel_paging stores only into the directory and the table. -/
theorem read_initKernelPaging (m : Mem (BitVec 8)) {j : Nat} (hj : j < 0x200000) :
    (initKernelPaging m).read j =
      (directoryLoop 0x400 (pageDirectoryBase + 0x1000) pageDirectoryBase m).read j := by
  refine (Mem.writesIn_repStosb 0 _ pageTableBase _ (by decide)).read j fun hin => ?_
  have hle : 0x200000 ≤ j := hin.1
  omega

theorem initKernelPaging_directory (m : Mem (BitVec 8)) {i : Nat} (hi : i < 1024) :
    (initKernelPaging m).load32 (0x1ff000 + 4 * i) =
      (0x200000 + 0x1000 * BitVec.ofNat 32 i) ||| 7 := by
  have hfill := filled_directoryLoop 0x400 (pageDirectoryBase + 0x1000) pageDirectoryBase m
    (by decide)
  rw [Mem.load32_congr fun j _ hj => read_initKernelPaging m (by omega)]
  exact hfill.entries i hi

theorem protectModeStart_directory (ram : Mem (BitVec 8)) {i : Nat} (hi : i < 1024) :
    (protectModeStart ram).mem.load32 (0x1ff000 + 4 * i) =
      (0x200000 + 0x1000 * BitVec.ofNat 32 i) ||| 7 := by
  have hkept : DirectoryKept (initKernelPaging ram) (protectModeStart ram).mem :=
    fun j hj hj' => protectModeStart_below ram ⟨by omega, hj'⟩
  rw [← initKernelPaging_directory ram hi]
  exact Mem.load32_congr fun j hj hj4 => hkept j (by omega) (by omega)

/-- The walk of `v` reads entry `v`. -/
theorem protectModeStart_tables (ram : Mem (BitVec 8)) {v : Nat} (hv : v < 2 ^ 20) :
    (protectModeStart ram).pteAddr v = some (0x200000 + 4 * v) := by
  have hi : v / 1024 < 1024 := by omega
  have hpage : (0x200000 + 0x1000 * BitVec.ofNat 32 (v / 1024)).toNat =
      0x1000 * (0x200 + v / 1024) := toNat_pageAddr rfl (by omega)
  have hpde : (protectModeStart ram).pdeAddr v = 0x1ff000 + 4 * (v / 1024) := rfl
  rw [Mmu.pteAddr, hpde, protectModeStart_directory ram hi, Mmu.entry_or hpage (by decide),
    if_neg (by decide), Option.map_some]
  congr 1
  omega

/-! ## The window -/

/-- Entries 0xffbff.. as the last `memory_page_map` leaves them. -/
theorem protectModeStart_window (ram : Mem (BitVec 8)) {i : Nat} (hi : i < 0x401) :
    (protectModeStart ram).mem.load32 (0x200000 + 4 * (0xffbff + i)) =
      (0x1ff <<< 12 + 0x1000 * BitVec.ofNat 32 i) ||| 7 := by
  have hfill := filled_memoryPageMap 0x1ff 0x401 0xffbff
  have hgdt : ∀ m : Mem (BitVec 8), (initGdt m).load32 (0x200000 + 4 * (0xffbff + i)) =
      m.load32 (0x200000 + 4 * 0xffbff + 4 * i) := by
    intro m
    rw [Nat.mul_add, ← Nat.add_assoc]
    exact Mem.load32_congr fun j hj _ => read_initGdt m (by omega)
  unfold protectModeStart
  dsimp only
  rw [hgdt]
  exact (hfill _ (by decide)).entries i hi

/-! ## The kernel -/

/-- Memory from the kernel up to the directory stays. -/
theorem protectModeStart_region (ram : Mem (BitVec 8)) {j : Nat} (hlo : 0x20000 ≤ j)
    (hhi : j < 0x1ff000) : (protectModeStart ram).mem.read j = ram.read j := by
  have hfill := filled_directoryLoop 0x400 (pageDirectoryBase + 0x1000) pageDirectoryBase ram
    (by decide)
  have hbase : pageDirectoryBase.toNat = 0x1ff000 := rfl
  rw [protectModeStart_below ram ⟨hlo, by omega⟩, read_initKernelPaging ram (by omega)]
  exact hfill.frame j (by omega)

/-- Entries 0xc0000.. as the third `memory_page_map` leaves them. -/
theorem protectModeStart_kernel (ram : Mem (BitVec 8)) {i : Nat} (hi : i < 0x10) :
    (protectModeStart ram).mem.load32 (0x200000 + 4 * (0xc0000 + i)) =
      ((0x20 : BitVec 32) <<< 12 + 0x1000 * BitVec.ofNat 32 i) ||| 7 := by
  have hfill := filled_memoryPageMap 0x20 0x10 0xc0000 (memoryPageMap 0x10 0x1 0x10
    (memoryPageMap 0x8 0x1 0x8 (initKernelPaging ram))) (by decide)
  -- the maps after it are of pages above 0xc000f
  have habove : ∀ (start count target : BitVec 32) (m : Mem (BitVec 8)),
      target.toNat + count.toNat ≤ 2 ^ 20 → 0xc0010 ≤ target.toNat →
      Set.EqOn (memoryPageMap start count target m).read m.read
        {j | 0x200000 + 4 * 0xc0000 ≤ j ∧ j < 0x200000 + 4 * 0xc0010} :=
    fun start count target m h hlo =>
      eqOn_memoryPageMap start count target m h fun j hj => .inl (by have := hj.2; omega)
  have hkept : Set.EqOn (protectModeStart ram).mem.read (memoryPageMap 0x20 0x10 0xc0000
      (memoryPageMap 0x10 0x1 0x10 (memoryPageMap 0x8 0x1 0x8 (initKernelPaging ram)))).read
      {j | 0x200000 + 4 * 0xc0000 ≤ j ∧ j < 0x200000 + 4 * 0xc0010} := by
    refine Set.EqOn.trans (fun j hj => read_initGdt _ (.inr (Nat.le_trans (by decide) hj.1))) ?_
    refine (habove _ _ _ _ (by decide) (by decide)).trans ?_
    refine (habove _ _ _ _ (by decide) (by decide)).trans ?_
    refine (habove _ _ _ _ (by decide) (by decide)).trans ?_
    refine (habove _ _ _ _ (by decide) (by decide)).trans ?_
    refine (habove _ _ _ _ (by decide) (by decide)).trans ?_
    exact habove _ _ _ _ (by decide) (by decide)
  rw [← hfill.entries i hi, Nat.mul_add, ← Nat.add_assoc]
  exact Mem.load32_congr fun j hj hj4 => hkept ⟨by omega, by omega⟩

/-- The 64K at 0xc0000000 are the kernel's. -/
theorem translate_kernel (ram : Mem (BitVec 8)) {v : Nat} (hv : v < 0x10000) :
    (protectModeStart ram).translate (0xc0000000 + BitVec.ofNat 32 v) = some (0x20000 + v) := by
  have hva : (0xc0000000 + BitVec.ofNat 32 v).toNat = 0xc0000000 + v := by
    rw [BitVec.toNat_add, BitVec.toNat_ofNat]
    simp only [BitVec.reduceToNat]
    omega
  have hpage : (0xc0000000 + v) / 0x1000 = 0xc0000 + v / 0x1000 := by omega
  have hframe : ((0x20 : BitVec 32) <<< 12 + 0x1000 * BitVec.ofNat 32 (v / 0x1000)).toNat =
      0x1000 * (0x20 + v / 0x1000) := toNat_pageAddr rfl (by omega)
  rw [Mmu.translate, hva, hpage, Mmu.walk_of_pteAddr (protectModeStart_tables ram (by omega)),
    protectModeStart_kernel ram (by omega), Mmu.entry_or hframe (by decide), if_neg (by decide),
    Option.map_some]
  congr 1
  dsimp only
  omega

/-! ## The memory map -/

/-- Memory between the stack, which is not modelled, and the GDT stays. -/
theorem protectModeStart_low (ram : Mem (BitVec 8)) {j : Nat} (_ : 0x7000 ≤ j) (hj : j < 0x10800) :
    (protectModeStart ram).mem.read j = ram.read j := by
  have hmap : ∀ (start count target : BitVec 32) (m : Mem (BitVec 8)),
      target.toNat + count.toNat ≤ 2 ^ 20 →
      (memoryPageMap start count target m).read j = m.read j := fun start count target m h =>
    eqOn_memoryPageMap (S := {j}) start count target m h
      (fun i hi => .inl (by rw [Set.mem_singleton_iff.mp hi]; omega)) rfl
  have hfill := filled_directoryLoop 0x400 (pageDirectoryBase + 0x1000) pageDirectoryBase ram
    (by decide)
  have hbase : pageDirectoryBase.toNat = 0x1ff000 := rfl
  unfold protectModeStart
  dsimp only
  rw [read_initGdt _ (.inl hj), hmap _ _ _ _ (by decide), hmap _ _ _ _ (by decide), hmap _ _ _ _ (by decide),
    hmap _ _ _ _ (by decide), hmap _ _ _ _ (by decide), hmap _ _ _ _ (by decide),
    hmap _ _ _ _ (by decide), hmap _ _ _ _ (by decide), hmap _ _ _ _ (by decide),
    read_initKernelPaging ram (by omega)]
  exact hfill.frame j (by omega)

/-- Entry 0xc0012 as the sixth `memory_page_map` leaves it. -/
theorem protectModeStart_memMap (ram : Mem (BitVec 8)) :
    (protectModeStart ram).mem.load32 (0x200000 + 4 * 0xc0012) =
      ((0xe : BitVec 32) <<< 12 + 0x1000 * BitVec.ofNat 32 0) ||| 7 := by
  have hfill := fun m => (filled_memoryPageMap 0xe 0x1 0xc0012 m (by decide)).entries 0 (by decide)
  -- the maps after it are of pages above 0xc0012
  have habove : ∀ (start count target : BitVec 32) (m : Mem (BitVec 8)),
      target.toNat + count.toNat ≤ 2 ^ 20 → 0xc0013 ≤ target.toNat →
      (memoryPageMap start count target m).load32 (0x200000 + 4 * 0xc0012) =
        m.load32 (0x200000 + 4 * 0xc0012) :=
    fun start count target m h hlo => Mem.load32_congr fun i _ hi =>
      eqOn_memoryPageMap (S := {i}) start count target m h
        (fun i' hi' => .inl (by rw [Set.mem_singleton_iff.mp hi']; omega)) rfl
  have hgdt : ∀ m : Mem (BitVec 8), (initGdt m).load32 (0x200000 + 4 * 0xc0012) =
      m.load32 (0x200000 + 4 * 0xc0012) := fun m =>
    Mem.load32_congr fun i hi _ => read_initGdt m (by omega)
  unfold protectModeStart
  dsimp only
  rw [hgdt, habove _ _ _ _ (by decide) (by decide), habove _ _ _ _ (by decide) (by decide),
    habove _ _ _ _ (by decide) (by decide)]
  exact hfill _

/-- **The page of the memory map** is at 0xc0012000, as the boot loader left it. -/
theorem readByte_memMap (ram : Mem (BitVec 8)) {v : Nat} (hv : v < 0x1000) :
    (protectModeStart ram).readByte (0xc0012000 + BitVec.ofNat 32 v) =
      some (ram.read (0xe000 + v)) := by
  have hva : (0xc0012000 + BitVec.ofNat 32 v).toNat = 0xc0012000 + v := by
    rw [BitVec.toNat_add, BitVec.toNat_ofNat]
    simp only [BitVec.reduceToNat]
    omega
  have hpage : (0xc0012000 + v) / 0x1000 = 0xc0012 := by omega
  have hoff : (0xc0012000 + v) % 0x1000 = v := by omega
  have hframe : ((0xe : BitVec 32) <<< 12 + 0x1000 * BitVec.ofNat 32 0).toNat = 0x1000 * 0xe := rfl
  have hflags : ¬ (7 : BitVec 32) &&& 1 = 0 := by decide
  rw [Mmu.readByte, Mmu.translate, hva, hpage, hoff,
    Mmu.walk_of_pteAddr (protectModeStart_tables ram (by omega)), protectModeStart_memMap ram,
    Mmu.entry_or hframe (by decide), if_neg hflags, Option.map_some, Option.map_some]
  exact congrArg some (protectModeStart_low ram (by omega) (by omega))

/-! ## The self map -/

/-- **The tables after boot map themselves.** -/
theorem selfMap_protectModeStart (ram : Mem (BitVec 8)) :
    SelfMap 0x200000 0xffc00 (protectModeStart ram) where
  layout := by
    refine ⟨by decide, by decide, Or.inl ?_⟩
    show 0x1ff000 + 0x1000 ≤ 0x200000
    decide
  tables := fun _ hv => protectModeStart_tables ram hv
  pages := by
    intro i hi
    have hpage : (0x1ff <<< 12 + 0x1000 * BitVec.ofNat 32 (i + 1) : BitVec 32).toNat =
        0x1000 * (0x1ff + (i + 1)) := toNat_pageAddr rfl (by omega)
    have hpte := protectModeStart_window ram (show i + 1 < 0x401 by omega)
    rw [show 0xffbff + (i + 1) = 0xffc00 + i by omega] at hpte
    refine ⟨7, ?_⟩
    rw [Mmu.walk_of_pteAddr (protectModeStart_tables ram (by omega)), hpte,
      Mmu.entry_or hpage (by decide), if_neg (by decide), show 0x1ff + (i + 1) = 0x200 + i by omega]
    rfl

end ListaOS.Paging
