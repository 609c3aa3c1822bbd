/-
  The PCI function list (libkernel/pci.c).

  A configuration space is a stable function from bus, device, function and register; the
  port 0xcfc reads the register that the address at port 0xcf8 names. The list at
  PCI_FUNC_LIST_BASE is an array of `PCI_FUNC`, 512K in the virtual address map: 65536
  entries of 8 bytes. `readList` is the loop of main over the list.
-/
import ListaOS.Lib.Fuel
import ListaOS.Lib.Mem
import Mathlib.Tactic.IntervalCases

namespace ListaOS.Pci

open Lib

/-- Bus, device, function and register number. -/
abbrev ConfigSpace := BitVec 8 → BitVec 5 → BitVec 3 → BitVec 6 → BitVec 32

/-- `PCI_FUNC`. -/
structure PciFunc where
  bus : BitVec 8
  dev : BitVec 8
  «fun» : BitVec 8
  classInfo : BitVec 32
deriving DecidableEq

/-- Entries of `PCI_FUNC_LIST_BASE`. -/
def listSize : Nat := 65536

/-- The address that pci_read_config writes to port 0xcf8. -/
def configAddress (bus dev func reg : BitVec 8) : BitVec 32 :=
  let addr : BitVec 32 := bus.setWidth 32 <<< 16
  let addr := addr ||| (dev &&& 0x1f).setWidth 32 <<< 11
  let addr := addr ||| (func &&& 0x7).setWidth 32 <<< 8
  let addr := addr ||| reg.setWidth 32 <<< 2
  addr ||| 0x80000000

section

variable (C : ConfigSpace)

/-- Port 0xcfc, with `addr` at port 0xcf8: the enable bit, and the fields of the address. -/
def ConfigSpace.inl (addr : BitVec 32) : BitVec 32 :=
  if addr.getLsbD 31 then
    C (addr.extractLsb' 16 8) (addr.extractLsb' 11 5) (addr.extractLsb' 8 3)
      (addr.extractLsb' 2 6)
  else 0xffffffff

def pciReadConfig (bus dev func reg : BitVec 8) : BitVec 32 :=
  C.inl (configAddress bus dev func reg)

/-- `pci_func_list` and `count`. -/
structure Scan where
  list : Mem PciFunc
  count : Nat

/-- The stores to `pci_func_list[count]`, and `count++`. -/
def Scan.push (s : Scan) (f : PciFunc) : Scan where
  list := s.list.write s.count f
  count := s.count + 1

/-- The body of the loop over functions. -/
def addFunc (i j : BitVec 8) (s : Scan) (k : Nat) : Scan :=
  let k := BitVec.ofNat 8 k
  let reg0 := pciReadConfig C i j k 0
  if reg0 &&& 0xffff ≠ 0xffff then s.push ⟨i, j, k, pciReadConfig C i j k 2⟩ else s

/-- The body of the loop over devices. -/
def addDevice (i : BitVec 8) (s : Scan) (j : Nat) : Scan :=
  let j := BitVec.ofNat 8 j
  let vendor : BitVec 16 := (pciReadConfig C i j 0 0 &&& 0xffff).setWidth 16
  if vendor = 0xffff then s
  else
    let headerType : BitVec 8 := (pciReadConfig C i j 0 3 >>> 16 &&& 0xff).setWidth 8
    let funcCount := if headerType &&& 0x80 ≠ 0 then 8 else 1
    (List.range funcCount).foldl (addFunc C i j) s

/-- The body of the loop over buses. -/
def addBus (s : Scan) (i : Nat) : Scan :=
  (List.range 32).foldl (addDevice C (BitVec.ofNat 8 i)) s

def pciInit (list : Mem PciFunc) : Mem PciFunc :=
  let s := (List.range 256).foldl (addBus C) ⟨list, 0⟩
  s.list.write s.count ⟨0xff, 0xff, 0xff, 0xffffffff⟩

end

/-- `for (i = 0; pci_func_list[i].fun != 0xff; ++i)` of main: the entries it visits. -/
def readList (list : Mem PciFunc) : Nat → Nat → Option (List PciFunc)
  | 0, _ => none
  | n + 1, i =>
      if (list.read i).fun ≠ 0xff then (readList list n (i + 1)).map (list.read i :: ·)
      else some []

/-! ## The configuration address -/

theorem configAddress_enabled (bus dev func reg : BitVec 8) :
    (configAddress bus dev func reg).getLsbD 31 = true := by
  simp [configAddress]

section

variable (bus : BitVec 8) (dev : BitVec 5) (func : BitVec 3) (reg : BitVec 6)

theorem configAddress_bus :
    (configAddress bus (dev.setWidth 8) (func.setWidth 8) (reg.setWidth 8)).extractLsb' 16 8 =
      bus := by
  ext i hi
  simp only [configAddress, BitVec.getElem_extractLsb', BitVec.getLsbD_or,
    BitVec.getLsbD_shiftLeft, BitVec.getLsbD_setWidth, BitVec.getLsbD_and]
  interval_cases i <;> simp

theorem configAddress_dev :
    (configAddress bus (dev.setWidth 8) (func.setWidth 8) (reg.setWidth 8)).extractLsb' 11 5 =
      dev := by
  ext i hi
  simp only [configAddress, BitVec.getElem_extractLsb', BitVec.getLsbD_or,
    BitVec.getLsbD_shiftLeft, BitVec.getLsbD_setWidth, BitVec.getLsbD_and]
  interval_cases i <;> simp

theorem configAddress_func :
    (configAddress bus (dev.setWidth 8) (func.setWidth 8) (reg.setWidth 8)).extractLsb' 8 3 =
      func := by
  ext i hi
  simp only [configAddress, BitVec.getElem_extractLsb', BitVec.getLsbD_or,
    BitVec.getLsbD_shiftLeft, BitVec.getLsbD_setWidth, BitVec.getLsbD_and]
  interval_cases i <;> simp

theorem configAddress_reg :
    (configAddress bus (dev.setWidth 8) (func.setWidth 8) (reg.setWidth 8)).extractLsb' 2 6 =
      reg := by
  ext i hi
  simp only [configAddress, BitVec.getElem_extractLsb', BitVec.getLsbD_or,
    BitVec.getLsbD_shiftLeft, BitVec.getLsbD_setWidth, BitVec.getLsbD_and]
  interval_cases i <;> simp

/-- The port reads the register asked for. -/
theorem pciReadConfig_eq (C : ConfigSpace) :
    pciReadConfig C bus (dev.setWidth 8) (func.setWidth 8) (reg.setWidth 8) =
      C bus dev func reg := by
  rw [pciReadConfig, ConfigSpace.inl, if_pos (configAddress_enabled _ _ _ _), configAddress_bus,
    configAddress_dev, configAddress_func, configAddress_reg]

end

end ListaOS.Pci
