/-
  Physical memory management (libkernel/mm.c, page_fault of libkernel/interrupt.c).

  The state holds the free-page bitmap (a set bit is a free page), the number of its
  words in use, and the page table as the array `pageTable[vpage]` that mm.c sees
  through the window at PAGE_TABLE_VBASE. The bitmap array is unbounded here; its log
  says which words are stored to. `mmInit` takes the BIOS memory map as the list of
  its `infoNum` entries. The two printf calls of mm_init are left out here; `Machine.mmInit` has
  them.

  A `while` of the source whose exit test bounds its own iteration count is a
  recursion over that count; `walkEntry_of_le` and `growBitmap_of_le` say that the
  count is the exit test.
-/
import ListaOS.Lib.Bitmap

namespace ListaOS.Mm

open Lib

/-- `BIOS_MEMINFO`. -/
structure BiosMeminfo where
  addr : BitVec 64
  size : BitVec 64
  type : BitVec 32
  deriving DecidableEq

structure MmState where
  physMemBitmap : Mem (BitVec 32)
  physMemBitmapSize : Nat
  mmInitialed : Bool
  pageTable : Mem (BitVec 32)

/-- The state before `mm_init`: whatever RAM holds under the bitmap, no word in use. -/
def bootState (ram : Nat → BitVec 32) (pageTable : Mem (BitVec 32)) : MmState where
  physMemBitmap := Mem.fresh ram
  physMemBitmapSize := 0
  mmInitialed := false
  pageTable := pageTable

/-- `USABLE_PHY_ADDR_BASE`: memory below it is the kernel's. -/
def usablePhyAddrBase : BitVec 64 := 0x800000

def kernelPageMmap (s : MmState) (phyPageIndex vpageIndex : BitVec 32) (flags : BitVec 8) :
    MmState :=
  { s with
    pageTable := s.pageTable.write vpageIndex.toNat
      (phyPageIndex <<< 12 ||| flags.setWidth 32) }

def kernelPageUnmap (s : MmState) (vpageIndex : BitVec 32) : MmState :=
  { s with pageTable := s.pageTable.write vpageIndex.toNat 0 }

/-! ## mm_init -/

/-- `physMemBitmap[physMemBitmapSize++] = 0`, `n` times. -/
def growBitmap : Nat → MmState → MmState
  | 0, s => s
  | n + 1, s =>
      growBitmap n
        { s with
          physMemBitmap := s.physMemBitmap.write s.physMemBitmapSize 0
          physMemBitmapSize := s.physMemBitmapSize + 1 }

/-- The body of the page loop: grow the bitmap up to the page's word, then OR in its bit. -/
def markPage (type : BitVec 32) (s : MmState) (addr : BitVec 64) : MmState :=
  let pageIndex : BitVec 32 := (addr / 0x1000).setWidth 32
  let mapIndex := pageIndex / 32
  let bitPos := pageIndex % 32
  let s := growBitmap (mapIndex.toNat + 1 - s.physMemBitmapSize) s
  let mask : BitVec 32 :=
    if type = 1 ∧ usablePhyAddrBase ≤ addr then 1#32 <<< bitPos.toNat else 0
  { s with
    physMemBitmap := s.physMemBitmap.write mapIndex.toNat
      (s.physMemBitmap.read mapIndex.toNat ||| mask) }

/-- `while (size >= 0x1000)`: mark a page and go to the next. -/
def walkEntry (type : BitVec 32) : Nat → BitVec 64 → BitVec 64 → MmState → MmState
  | 0, _, _, s => s
  | n + 1, addr, size, s =>
      if 0x1000 ≤ size then
        walkEntry type n (addr + 0x1000) (size - 0x1000) (markPage type s addr)
      else s

/-- Where the walk over an entry starts and how many bytes it has; `none` for `continue`. -/
def alignStart (e : BiosMeminfo) : Option (BitVec 64 × BitVec 64) :=
  if e.addr &&& ~~~0xfff#64 ≠ e.addr then
    let newAddr := (e.addr &&& 0xfff) + 0x1000
    if newAddr - e.addr ≥ e.size then none
    else some (newAddr, e.size - (newAddr - e.addr))
  else some (e.addr, e.size)

def addEntry (s : MmState) (e : BiosMeminfo) : MmState :=
  match alignStart e with
  | none => s
  | some (addr, size) => walkEntry e.type (size.toNat / 0x1000) addr size s

def mmInit (memInfo : List BiosMeminfo) (s : MmState) : MmState :=
  if s.mmInitialed then s
  else
    let s := kernelPageUnmap s 0x8
    let s := kernelPageUnmap s 0x10
    let s := memInfo.foldl addEntry s
    { s with mmInitialed := true }

/-! ## The page allocator -/

/-- The `for` of `alloc_4k_phys` over the words from `i` on, `n` of them; 0 is NULL. -/
def allocLoop (s : MmState) : Nat → Nat → MmState × BitVec 32
  | 0, _ => (s, 0)
  | n + 1, i =>
      if s.physMemBitmap.read i = 0 then allocLoop s n (i + 1)
      else
        let addr : BitVec 32 := BitVec.ofNat 32 i * 0x1000 * 32
        let bitPos := Bitmap.firstBit (s.physMemBitmap.read i) 32 0
        ({ s with
            physMemBitmap := s.physMemBitmap.write i
              (s.physMemBitmap.read i &&& ~~~(1#32 <<< bitPos)) },
          addr + BitVec.ofNat 32 bitPos * 0x1000)

def alloc4kPhys (s : MmState) : MmState × BitVec 32 := allocLoop s s.physMemBitmapSize 0

def free4kPhys (s : MmState) (addr : BitVec 32) : MmState :=
  let pageIndex := addr / 0x1000
  let mapIndex := pageIndex / 32
  let bitPos := pageIndex % 32
  { s with
    physMemBitmap := s.physMemBitmap.write mapIndex.toNat
      (s.physMemBitmap.read mapIndex.toNat ||| 1#32 <<< bitPos.toNat) }

/-- The inner `for` of `get_free_page_num`: look at the low bit, shift right, `n` times. -/
def countBits : Nat → BitVec 32 → Nat → Nat
  | 0, _, freeNum => freeNum
  | n + 1, tmp, freeNum =>
      countBits n (tmp >>> 1) (if tmp &&& 1 = 1 then freeNum + 1 else freeNum)

def getFreePageNum (s : MmState) : Nat :=
  (List.range s.physMemBitmapSize).foldl
    (fun freeNum i => countBits 32 (s.physMemBitmap.read i) freeNum) 0

/-! ## page_fault -/

/-- `PAGE_FLAG_PRESENT | PAGE_FLAG_USER | PAGE_FLAG_RW`. -/
def faultFlags : BitVec 8 := 0x1 ||| 0x4 ||| 0x2

def pageFault (s : MmState) (addr err : BitVec 32) : MmState :=
  if err &&& 0x1 = 0 then
    let (s, newPage) := alloc4kPhys s
    kernelPageMmap s (newPage / 0x1000) (addr / 0x1000) faultFlags
  else s

/-! ## The counts are the exit tests -/

theorem growBitmap_of_le (s : MmState) (mapIndex : Nat) :
    mapIndex < (growBitmap (mapIndex + 1 - s.physMemBitmapSize) s).physMemBitmapSize := by
  have h : ∀ n (s : MmState), (growBitmap n s).physMemBitmapSize = s.physMemBitmapSize + n := by
    intro n
    induction n with
    | zero => intro s; rfl
    | succ n ih =>
      intro s
      rw [growBitmap, ih]
      simp only
      omega
  rw [h]
  omega

/-- Any count of at least `size / 0x1000` gives the same walk: it ends at the exit test. -/
theorem walkEntry_of_le (type : BitVec 32) (n : Nat) (addr size : BitVec 64) (s : MmState)
    (hn : size.toNat / 0x1000 ≤ n) :
    walkEntry type n addr size s = walkEntry type (size.toNat / 0x1000) addr size s := by
  induction n generalizing addr size s with
  | zero => rw [Nat.le_zero.mp hn]
  | succ n ih =>
    by_cases h : 0x1000 ≤ size
    · have hle : 0x1000 ≤ size.toNat := by simpa [BitVec.le_def] using h
      have hsub : (size - 0x1000).toNat = size.toNat - 0x1000 := by
        rw [BitVec.toNat_sub_of_le h]; rfl
      have hq : size.toNat / 0x1000 = (size - 0x1000).toNat / 0x1000 + 1 := by
        rw [hsub]; omega
      rw [hq, walkEntry, walkEntry, if_pos h, if_pos h]
      exact ih _ _ _ (by omega)
    · have hlt : size.toNat < 0x1000 := by simpa [BitVec.le_def] using h
      rw [walkEntry, if_neg h, Nat.div_eq_of_lt hlt]
      rfl

end ListaOS.Mm
