import Os506.Lib.CopyOnWrite
import Os506.Memory.Frames
import Os506.Memory.Walk

namespace Os506

namespace Pging

def pageP : BitVec 64 := 1
def pageRW : BitVec 64 := 2
def pageU : BitVec 64 := 4
def pageCow : BitVec 64 := 0x200

def rwUser : BitVec 64 := pageP ||| pageU ||| pageRW

def isPresent (e : BitVec 64) : Bool := e &&& pageP ≠ 0
def isRW (e : BitVec 64) : Bool := e &&& pageRW ≠ 0
def isCow (e : BitVec 64) : Bool := e &&& pageCow ≠ 0

/-- The flags of a page that two processes share: `fork_process` takes `PAGE_RW` away and adds `PAGE_COW`. -/
def cowUser : BitVec 64 := pageP ||| pageU ||| pageCow

def leaf (e : BitVec 64) : Option (BitVec 64 × Bool) := if isPresent e then some (Mmu.frame e, isRW e) else none

open PMap (Physical)

variable {f x y : BitVec 64}

theorem or_and_low (hf : Physical f) (hy : 0xFFF0000000000FFF#64 &&& y = y) : (f ||| x) &&& y = x &&& y := by
  have hz : f &&& y = 0#64 := by rw [← hy, ← BitVec.and_assoc, hf, BitVec.zero_and]
  rw [BitVec.and_comm, BitVec.and_or_distrib_left, BitVec.and_comm y f, hz, BitVec.and_comm y x, BitVec.zero_or]

theorem and_high (hf : Physical f) (hy : 0x000FFFFFFFFFF000#64 &&& y = 0x000FFFFFFFFFF000#64) : f &&& y = f := by
  have hsplit : f &&& (0xFFF0000000000FFF#64 ||| 0x000FFFFFFFFFF000#64) = f := by
    have hall : 0xFFF0000000000FFF#64 ||| 0x000FFFFFFFFFF000#64 = BitVec.allOnes 64 := by decide
    rw [hall, BitVec.and_allOnes]
  rw [BitVec.and_or_distrib_left, hf, BitVec.zero_or] at hsplit
  rw [← hsplit, BitVec.and_assoc, hy]

theorem or_and_high (hf : Physical f) (hx : x &&& y = 0#64)
    (hy : 0x000FFFFFFFFFF000#64 &&& y = 0x000FFFFFFFFFF000#64) : (f ||| x) &&& y = f := by
  rw [BitVec.and_comm, BitVec.and_or_distrib_left, BitVec.and_comm y f, BitVec.and_comm y x, hx, and_high hf hy,
    BitVec.or_zero]

theorem leaf_or (hf : Physical f) (hx : x &&& 0x000FFFFFFFFFF000#64 = 0#64) (hp : isPresent x = true) :
    leaf (f ||| x) = some (f, isRW x) := by
  have h₁ : isPresent (f ||| x) = isPresent x := by rw [isPresent, isPresent, or_and_low hf (by decide)]
  have h₂ : isRW (f ||| x) = isRW x := by rw [isRW, isRW, or_and_low hf (by decide)]
  have h₃ : Mmu.frame (f ||| x) = f := or_and_high hf hx (by decide)
  rw [leaf, h₁, h₂, h₃, if_pos hp]

theorem leaf_rwUser (hf : Physical f) : leaf (f ||| rwUser) = some (f, true) := leaf_or hf (by decide) (by decide)

theorem leaf_cowUser (hf : Physical f) : leaf (f ||| cowUser) = some (f, false) := leaf_or hf (by decide) (by decide)

end Pging

open Pging

inductive Level
  | pmle
  | pdpe
  | pde
  deriving DecidableEq

def Level.index : Level → ℕ → ℕ
  | pmle, vpn => vpn / 512 / 512 / 512
  | pdpe, vpn => vpn / 512 / 512
  | pde, vpn => vpn / 512

/-- The page tables of a process, by level and by the part of the page number that leads to an entry. -/
structure Tables where
  upper : Level → ℕ → BitVec 64 := fun _ _ => 0
  pte : ℕ → BitVec 64 := fun _ => 0

namespace Tables

def grow (l : Level) (vpn : ℕ) (e : BitVec 64) (t : Tables) : Tables :=
  let upper := Function.update t.upper l (Function.update (t.upper l) (l.index vpn) e)
  let clear (entries : ℕ → BitVec 64) : ℕ → BitVec 64 := fun k => if k / 512 = l.index vpn then 0 else entries k
  match l with
  | .pmle => { t with upper := Function.update upper .pdpe (clear (t.upper .pdpe)) }
  | .pdpe => { t with upper := Function.update upper .pde (clear (t.upper .pde)) }
  | .pde => { upper := upper, pte := clear t.pte }

def Reached (t : Tables) (vpn : ℕ) : Prop := ∀ l : Level, isPresent (t.upper l (l.index vpn)) = true

instance (t : Tables) (vpn : ℕ) : Decidable (t.Reached vpn) :=
  decidable_of_iff (isPresent (t.upper .pmle (Level.pmle.index vpn)) = true ∧
      isPresent (t.upper .pdpe (Level.pdpe.index vpn)) = true ∧ isPresent (t.upper .pde (Level.pde.index vpn)) = true)
    ⟨fun ⟨h₁, h₂, h₃⟩ l => by cases l <;> assumption, fun h => ⟨h .pmle, h .pdpe, h .pde⟩⟩

end Tables

inductive VmaType
  | text
  | data
  | stack
  | heap
  | noType
  deriving DecidableEq

structure Vma where
  start : ℕ
  stop : ℕ
  type : VmaType

structure Mm where
  vm : List Vma := []
  brk : ℕ := 0
  tables : Tables := {}

/-- Physical memory with the processes `0` to `count - 1`; `vmas` structs of type `vma_struct` are in use. -/
structure Mach where
  pmap : PMap
  mem : BitVec 64 → ℕ → UInt8
  mm : ℕ → Mm
  count : ℕ
  vmas : ℕ

namespace Mach

def tables (m : Mach) (i : ℕ) : Tables := (m.mm i).tables

/-- The callers of `get_free_page` do not look at its error value: what they do with it is not modelled. -/
def getFreePage (m : Mach) : Option (BitVec 64 × Mach) :=
  match m.pmap.getFreePage with
  | (.ok f, s) => some (f, { m with pmap := s })
  | (.error _, _) => none

def releasePage (f : BitVec 64) (m : Mach) : Mach := { m with pmap := (m.pmap.releasePage f).2 }

def incMapCount (f : BitVec 64) (m : Mach) : Mach := { m with pmap := (m.pmap.incMapCount f).2 }

def setPage (f : BitVec 64) (c : ℕ → UInt8) (m : Mach) : Mach := { m with mem := Function.update m.mem f c }

def zeroPage (f : BitVec 64) (m : Mach) : Mach := m.setPage f fun _ => 0

def modifyTables (i : ℕ) (g : Tables → Tables) (m : Mach) : Mach :=
  { m with mm := Function.update m.mm i { m.mm i with tables := g (m.tables i) } }

def setPte (i vpn : ℕ) (e : BitVec 64) (m : Mach) : Mach :=
  m.modifyTables i fun t => { t with pte := Function.update t.pte vpn e }

def needTable (i vpn : ℕ) (flags : BitVec 64) (l : Level) (m : Mach) : Option Mach :=
  if isPresent ((m.tables i).upper l (l.index vpn)) then some m
  else m.getFreePage.map fun (addr, m) =>
    (m.zeroPage addr).modifyTables i fun t => t.grow l vpn (addr ||| flags)

def highFlags (flags : BitVec 64) : BitVec 64 :=
  if flags &&& pageCow ≠ 0 then (flags &&& ~~~pageCow) ||| pageRW else flags

def mapPage (i : ℕ) (paddr : BitVec 64) (vpn : ℕ) (flags : BitVec 64) (m : Mach) : Option Mach :=
  (m.needTable i vpn (highFlags flags) .pmle).bind fun m =>
  (m.needTable i vpn (highFlags flags) .pdpe).bind fun m =>
  (m.needTable i vpn (highFlags flags) .pde).map fun m =>
  if isPresent ((m.tables i).pte vpn) then m.releasePage paddr else m.setPte i vpn (paddr ||| flags)

def mapZero (i vpn : ℕ) (flags : BitVec 64) (m : Mach) : Option Mach :=
  m.getFreePage.bind fun (physaddr, m) => (m.zeroPage physaddr).mapPage i physaddr vpn flags

def kmmapPages (start : ℕ) (size : ℤ) : ℤ := Int.bmod ((start + size - 1) % 2 ^ 64 / 4096 - start / 4096 + 1) (2 ^ 32)

def mapPages (i : ℕ) (flags : BitVec 64) : List ℕ → Mach → Option Mach
  | [], m => some m
  | vpn :: l, m => (m.mapZero i vpn flags).bind (mapPages i flags l)

/-- The parameter `size` is an `int`, whatever the caller has. -/
def kmmap (i start size : ℕ) (flags : BitVec 64) (m : Mach) : Option Mach :=
  m.mapPages i flags (List.range' (start / 4096) (kmmapPages start (Int.bmod size (2 ^ 32))).toNat)

end Mach

end Os506
