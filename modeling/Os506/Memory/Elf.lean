import Os506.Memory.Layout
import Os506.Lib.Bytes

namespace Os506

structure Phdr where
  pType : BitVec 32
  pOffset : BitVec 64
  pVaddr : BitVec 64
  pFilesz : BitVec 64
  pMemsz : BitVec 64
  deriving DecidableEq

namespace Phdr

def isLoad (h : Phdr) : Bool := h.pType = 1

/-- The variable `size` of the loader, an `int`, where it is added to an address. -/
def size (h : Phdr) : BitVec 64 := (h.pMemsz.setWidth 32).signExtend 64

def eVaddr (h : Phdr) : BitVec 64 := h.pVaddr + h.size

/-- A segment gets its `p_type` for the type, and `PT_LOAD` is the number of `DATA`. -/
def vma (h : Phdr) : Vma := ⟨h.pVaddr.toNat, h.eVaddr.toNat, .data⟩

end Phdr

namespace Elf

def field (mem : BitVec 64 → UInt8) (a : BitVec 64) (n : ℕ) : ℕ :=
  Bytes.decode ((List.range n).map fun i => mem (a + BitVec.ofNat 64 i))

variable (mem : BitVec 64 → UInt8)

def validateEhdr (ehdr : BitVec 64) : Bool :=
  [mem ehdr, mem (ehdr + 1), mem (ehdr + 2), mem (ehdr + 3)] = [0x7F, 0x45, 0x4C, 0x46] && field mem (ehdr + 16) 2 = 2

def ePhoff (ehdr : BitVec 64) : BitVec 64 := BitVec.ofNat 64 (field mem (ehdr + 32) 8)

def ePhnum (ehdr : BitVec 64) : ℕ := field mem (ehdr + 56) 2

def readPhdr (a : BitVec 64) : Phdr where
  pType := BitVec.ofNat 32 (field mem a 4)
  pOffset := BitVec.ofNat 64 (field mem (a + 8) 8)
  pVaddr := BitVec.ofNat 64 (field mem (a + 16) 8)
  pFilesz := BitVec.ofNat 64 (field mem (a + 32) 8)
  pMemsz := BitVec.ofNat 64 (field mem (a + 40) 8)

def phdrAddrs (ehdr : BitVec 64) : List (BitVec 64) :=
  (List.range (ePhnum mem ehdr)).map fun n => ehdr + ePhoff mem ehdr + BitVec.ofNat 64 (56 * n)

def phdrs (ehdr : BitVec 64) : List Phdr := (phdrAddrs mem ehdr).map (readPhdr mem)

end Elf

structure MmStruct where
  vm : List Vma := []
  vmaCount : ℕ := 0
  totalVm : BitVec 64 := 0
  startBrk : ℕ := 0
  brk : ℕ := 0
  startStack : ℕ := 0

namespace MmStruct

def addSegment (h : Phdr) (mm : MmStruct) : MmStruct :=
  { mm with vm := mm.vm ++ [h.vma], vmaCount := mm.vmaCount + 1, totalVm := mm.totalVm + h.size }

def addHeap (topVaddr : BitVec 64) (mm : MmStruct) : MmStruct :=
  let sVaddr := (((topVaddr - 1) >>> 12) + 1) <<< 12
  { mm with
    vm := mm.vm ++ [⟨sVaddr.toNat, sVaddr.toNat, .heap⟩], vmaCount := mm.vmaCount + 1
    startBrk := sVaddr.toNat, brk := sVaddr.toNat }

def addStack (mm : MmStruct) : MmStruct :=
  { mm with
    vm := mm.vm ++ [stackVma], vmaCount := mm.vmaCount + 1
    totalVm := mm.totalVm + BitVec.ofNat 64 Mach.userStackSize, startStack := Mach.userStackTop - 8 }

end MmStruct

def maxVaddr (topVaddr eVaddr : BitVec 64) : BitVec 64 := if topVaddr < eVaddr then eVaddr else topVaddr

def scanPhdrs : List Phdr → MmStruct × BitVec 64 → MmStruct × BitVec 64
  | [], r => r
  | h :: l, (mm, topVaddr) =>
    if h.isLoad then scanPhdrs l (mm.addSegment h, maxVaddr topVaddr h.eVaddr) else scanPhdrs l (mm, topVaddr)

/-- The `mm_struct` of a new task. Without a segment `traverse_vmas` follows a null pointer. -/
def loadMm (phdrs : List Phdr) : Option MmStruct :=
  let (mm, topVaddr) := scanPhdrs phdrs ({}, 0)
  if mm.vm = [] then none else some (mm.addHeap topVaddr).addStack

def loads (phdrs : List Phdr) : List Phdr := phdrs.filter Phdr.isLoad

theorem maxVaddr_toNat (a b : BitVec 64) : (maxVaddr a b).toNat = max a.toNat b.toNat := by
  rw [maxVaddr]
  split
  · rename_i h
    have := BitVec.lt_def.mp h
    omega
  · rename_i h
    have := mt BitVec.lt_def.mpr h
    omega

theorem scanPhdrs_vm (phdrs : List Phdr) (mm : MmStruct) (t : BitVec 64) :
    (scanPhdrs phdrs (mm, t)).1.vm = mm.vm ++ (loads phdrs).map Phdr.vma ∧
      (scanPhdrs phdrs (mm, t)).1.vmaCount = mm.vmaCount + (loads phdrs).length := by
  induction phdrs generalizing mm t with
  | nil => exact ⟨(List.append_nil _).symm, rfl⟩
  | cons h l ih =>
    rw [scanPhdrs, loads, List.filter_cons]
    split
    · obtain ⟨hvm, hcount⟩ := ih (mm.addSegment h) (maxVaddr t h.eVaddr)
      rw [hvm, hcount, MmStruct.addSegment]
      refine ⟨by rw [List.map_cons, List.append_assoc]; rfl, ?_⟩
      rw [List.length_cons, loads]
      dsimp only
      omega
    · exact ih mm t

theorem scanPhdrs_top_le_iff (phdrs : List Phdr) (mm : MmStruct) (t : BitVec 64) {n : ℕ} :
    (scanPhdrs phdrs (mm, t)).2.toNat ≤ n ↔ t.toNat ≤ n ∧ ∀ h ∈ loads phdrs, h.eVaddr.toNat ≤ n := by
  induction phdrs generalizing mm t with
  | nil => simp [scanPhdrs, loads]
  | cons h l ih =>
    rw [scanPhdrs, loads, List.filter_cons]
    split
    · rw [ih, List.forall_mem_cons, maxVaddr_toNat, max_le_iff, and_assoc, loads]
    · exact ih mm t

theorem heapStart_toNat (t : BitVec 64) (h : t.toNat ≤ 2 ^ 63) :
    ((((t - 1) >>> 12) + 1) <<< 12 : BitVec 64).toNat = (t.toNat + 4095) / 4096 * 4096 := by
  have hsub : (t - 1).toNat = (2 ^ 64 - 1 + t.toNat) % 2 ^ 64 := by
    rw [BitVec.toNat_sub]
    rfl
  rw [BitVec.toNat_shiftLeft, BitVec.toNat_add, BitVec.toNat_ushiftRight, hsub, Nat.shiftLeft_eq, Nat.shiftRight_eq_div_pow]
  change ((2 ^ 64 - 1 + t.toNat) % 2 ^ 64 / 2 ^ 12 + 1) % 2 ^ 64 * 2 ^ 12 % 2 ^ 64 = _
  omega

end Os506
