/-
  Kernel paging: the boot-time tables (bootloader/BIOS/init_protect_mode.s) and the edits
  of mm.c through the window at PAGE_TABLE_VBASE.

  Before paging is enabled the assembly stores at physical addresses; registers are 32-bit.
  The stack (below 0x7000) is not modelled: arguments are arguments and the counter of
  init_kernel_paging is the recursion's. `lgdt` only reads. kernel_page_mmap and
  kernel_page_unmap store at a virtual address, so they go through the walk of the table
  they edit and are `none` where it does not map the window.
-/
import ListaOS.Lib.PageWalk

namespace ListaOS.Paging

open Lib

def pageDirectoryBase : BitVec 32 := 0x1ff000

def pageTableBase : BitVec 32 := 0x200000

/-- `rep stosb` with `%al = 0`. -/
def memclr (startAddr size : BitVec 32) (m : Mem (BitVec 8)) : Mem (BitVec 8) :=
  Mem.repStosb 0 size.toNat startAddr m

/-- The loop of `memory_page_map`, `ecx` times: `movl %eax, (%edx)`, `orl $0x7, (%edx)`. -/
def memoryPageMapLoop : Nat → BitVec 32 → BitVec 32 → Mem (BitVec 8) → Mem (BitVec 8)
  | 0, _, _, m => m
  | ecx + 1, eax, edx, m =>
      let m := m.store32 edx.toNat eax
      let m := m.store32 edx.toNat (m.load32 edx.toNat ||| 7)
      memoryPageMapLoop ecx (eax + 0x1000) (edx + 4) m

def memoryPageMap (startPageIndex pageCount targetStartPageIndex : BitVec 32)
    (m : Mem (BitVec 8)) : Mem (BitVec 8) :=
  memoryPageMapLoop pageCount.toNat (startPageIndex <<< 12)
    (targetStartPageIndex <<< 2 + pageTableBase) m

/-- The loop of `init_kernel_paging`: `edx = eax | 7`, `movl %edx, (%ecx)`. -/
def directoryLoop : Nat → BitVec 32 → BitVec 32 → Mem (BitVec 8) → Mem (BitVec 8)
  | 0, _, _, m => m
  | n + 1, eax, ecx, m =>
      directoryLoop n (eax + 0x1000) (ecx + 4) (m.store32 ecx.toNat (eax ||| 7))

def initKernelPaging (m : Mem (BitVec 8)) : Mem (BitVec 8) :=
  let m := directoryLoop 0x400 (pageDirectoryBase + 0x1000) pageDirectoryBase m
  memclr pageTableBase 0x400000 m

/-- The stores of the new GDT and its pointer at 0x10800. -/
def initGdt (m : Mem (BitVec 8)) : Mem (BitVec 8) :=
  let m := m.store32 0x10800 0x00000000
  let m := m.store32 (0x10800 + 4) 0x00000000
  let m := m.store32 (0x10800 + 8) 0x0000ffff
  let m := m.store32 (0x10800 + 12) 0x00cf9a00
  let m := m.store32 (0x10800 + 16) 0x0000ffff
  let m := m.store32 (0x10800 + 20) 0x00cf9200
  let m := m.store16 (0x10800 + 24) 23
  let m := m.store32 (0x10800 + 26) 0x00010800
  m.store32 (0x10800 + 26) 0xc0010800

/-- The machine when `protect_mode_start` has enabled paging. -/
def protectModeStart (m : Mem (BitVec 8)) : Mmu :=
  let m := initKernelPaging m
  -- FAT16 header and init bin
  let m := memoryPageMap 0x8 0x1 0x8 m
  -- IDT/GDT
  let m := memoryPageMap 0x10 0x1 0x10 m
  -- kernel to 0xc0000000
  let m := memoryPageMap 0x20 0x10 0xc0000 m
  -- IDT/GDT to 0xc0010000
  let m := memoryPageMap 0x10 0x1 0xc0010 m
  -- VBE info to 0xc0011e00
  let m := memoryPageMap 0x7 0x1 0xc0011 m
  -- int 15H memory info to 0xc0012000
  let m := memoryPageMap 0xe 0x1 0xc0012 m
  -- MM bitmap to 0xc0600000
  let m := memoryPageMap 0x600 0x200 0xc0600 m
  -- kernel stack to 0xffbf8000
  let m := memoryPageMap 0x0 0x7 0xffbf8 m
  -- kernel paging directory/table to 0xffbff000
  let m := memoryPageMap 0x1ff 0x401 0xffbff m
  { mem := initGdt m, cr3 := pageDirectoryBase }

/-! ## mm.c -/

def pageTableVbase : BitVec 32 := 0xffc00000

def pageFlagPresent : BitVec 8 := 0x1

/-- `pageTable[vpage_index] = (phy_page_index << 12) | flags`, then `invlpg`. -/
def kernelPageMmap (s : Mmu) (phyPageIndex vpageIndex : BitVec 32) (flags : BitVec 8) :
    Option Mmu :=
  s.store (pageTableVbase + 4 * vpageIndex) (phyPageIndex <<< 12 ||| flags.setWidth 32)

def kernelPageUnmap (s : Mmu) (vpageIndex : BitVec 32) : Option Mmu :=
  s.store (pageTableVbase + 4 * vpageIndex) 0

end ListaOS.Paging
