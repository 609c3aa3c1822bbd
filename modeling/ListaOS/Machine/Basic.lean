/-
  mm.c and page_fault on the machine.

  Mm.Basic has the bitmap and the page table as arrays. Here both lie in physical memory, and
  every word of them is read and stored at the virtual address that the source uses, through
  the walk of the page table: the bitmap at PHY_MEM_BITMAP_BASE, the BIOS memory map at
  BIOS_MEM_MAP_BASE, the table at PAGE_TABLE_VBASE. A function is `none` where it meets a page
  that is not present. The variables of .bss are fields beside the memory: where they lie is
  the linker's choice. The stack, in the physical pages below 0x7000, is not modelled.

  mm_init prints as it goes: its loop over the entries is in Machine.Enter.
-/
import ListaOS.Lib.Window
import ListaOS.Mm.Basic
import ListaOS.Paging.Basic

namespace ListaOS

open Lib Mm

structure Machine where
  mmu : Mmu
  physMemBitmapSize : BitVec 32
  mmInitialed : Bool

namespace Machine

/-- `&physMemBitmap[i]`. -/
def bitmapAddr (i : BitVec 32) : BitVec 32 := 0xc0600000 + 4 * i

/-- `&memInfo[i]`, behind the count at BIOS_MEM_MAP_BASE. -/
def memInfoAddr (i : BitVec 32) : BitVec 32 := 0xc0012000 + 4 + 20 * i

/-- `physMemBitmap[i]`. -/
def word (s : Machine) (i : BitVec 32) : Option (BitVec 32) := s.mmu.load (bitmapAddr i)

/-- `physMemBitmap[i] = x`. -/
def setWord (s : Machine) (i x : BitVec 32) : Option Machine :=
  (s.mmu.store (bitmapAddr i) x).map fun mmu => { s with mmu := mmu }

def kernelPageMmap (s : Machine) (phyPageIndex vpageIndex : BitVec 32) (flags : BitVec 8) :
    Option Machine :=
  (Paging.kernelPageMmap s.mmu phyPageIndex vpageIndex flags).map fun mmu => { s with mmu := mmu }

def kernelPageUnmap (s : Machine) (vpageIndex : BitVec 32) : Option Machine :=
  (Paging.kernelPageUnmap s.mmu vpageIndex).map fun mmu => { s with mmu := mmu }

/-! ## An entry in mm_init -/

/-- `memInfo[i]`. -/
def memInfo (s : Machine) (i : BitVec 32) : Option BiosMeminfo := do
  let addrLow ← s.mmu.load (memInfoAddr i)
  let addrHigh ← s.mmu.load (memInfoAddr i + 4)
  let sizeLow ← s.mmu.load (memInfoAddr i + 8)
  let sizeHigh ← s.mmu.load (memInfoAddr i + 12)
  let type ← s.mmu.load (memInfoAddr i + 16)
  some ⟨addrHigh ++ addrLow, sizeHigh ++ sizeLow, type⟩

/-- `physMemBitmap[physMemBitmapSize++] = 0`, `n` times. -/
def growBitmap : Nat → Machine → Option Machine
  | 0, s => some s
  | n + 1, s => do
      let s ← s.setWord s.physMemBitmapSize 0
      growBitmap n { s with physMemBitmapSize := s.physMemBitmapSize + 1 }

/-- The body of the page loop over entry `i`; the type is read again for every page. -/
def markPage (i : BitVec 32) (s : Machine) (addr : BitVec 64) : Option Machine := do
  let pageIndex : BitVec 32 := (addr / 0x1000).setWidth 32
  let mapIndex := pageIndex / 32
  let bitPos := pageIndex % 32
  let s ← growBitmap (mapIndex.toNat + 1 - s.physMemBitmapSize.toNat) s
  let entry ← s.memInfo i
  let mask : BitVec 32 :=
    if entry.type = 1 ∧ usablePhyAddrBase ≤ addr then 1#32 <<< bitPos.toNat else 0
  let word ← s.word mapIndex
  s.setWord mapIndex (word ||| mask)

/-- `while (size >= 0x1000)`. -/
def walkEntry (i : BitVec 32) : Nat → BitVec 64 → BitVec 64 → Machine → Option Machine
  | 0, _, _, s => some s
  | n + 1, addr, size, s =>
      if 0x1000 ≤ size then do
        let s ← markPage i s addr
        walkEntry i n (addr + 0x1000) (size - 0x1000) s
      else some s

/-- What the `for` does for entry `i` behind its printf. -/
def addEntry (s : Machine) (i : BitVec 32) : Option Machine := do
  let entry ← s.memInfo i
  match alignStart entry with
  | none => some s
  | some (addr, size) => walkEntry i (size.toNat / 0x1000) addr size s

/-! ## The page allocator -/

/-- The `for` of `alloc_4k_phys` over the words from `i` on, `n` of them. -/
def allocLoop (s : Machine) : Nat → BitVec 32 → Option (Machine × BitVec 32)
  | 0, _ => some (s, 0)
  | n + 1, i => do
      let word ← s.word i
      if word = 0 then allocLoop s n (i + 1)
      else
        let addr := i * 0x1000 * 32
        let bitPos := Bitmap.firstBit word 32 0
        let s ← s.setWord i (word &&& ~~~(1#32 <<< bitPos))
        some (s, addr + BitVec.ofNat 32 bitPos * 0x1000)

def alloc4kPhys (s : Machine) : Option (Machine × BitVec 32) :=
  allocLoop s s.physMemBitmapSize.toNat 0

def free4kPhys (s : Machine) (addr : BitVec 32) : Option Machine := do
  let pageIndex := addr / 0x1000
  let mapIndex := pageIndex / 32
  let bitPos := pageIndex % 32
  let word ← s.word mapIndex
  s.setWord mapIndex (word ||| 1#32 <<< bitPos.toNat)

/-- The `for` of `get_free_page_num` over the words from `i` on, `n` of them. -/
def countLoop (s : Machine) : Nat → BitVec 32 → Nat → Option Nat
  | 0, _, freeNum => some freeNum
  | n + 1, i, freeNum => do
      let tmp ← s.word i
      countLoop s n (i + 1) (countBits 32 tmp freeNum)

def getFreePageNum (s : Machine) : Option Nat := countLoop s s.physMemBitmapSize.toNat 0 0

/-! ## page_fault -/

def pageFault (s : Machine) (addr err : BitVec 32) : Option Machine :=
  if err &&& 0x1 = 0 then do
    let (s, newPage) ← s.alloc4kPhys
    s.kernelPageMmap (newPage / 0x1000) (addr / 0x1000) faultFlags
  else some s

end Machine

end ListaOS
