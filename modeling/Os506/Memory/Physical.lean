import Os506.Memory.Tree

namespace Os506

open Pging Mmu

/-- What an operation on the tables has done so far: taken a frame, failed to get one, written an entry. -/
inductive PhysEvent
  | took (f : BitVec 64)
  | failed
  | wrote (e : BitVec 64)
  deriving DecidableEq

structure Phys where
  mem : BitVec 64 → BitVec 64
  cr3 : BitVec 64
  pmap : PMap
  temp : BitVec 64
  free : BitVec 64
  initPml4 : BitVec 64
  log : List PhysEvent

inductive Stop
  | fault
  | panic
  deriving DecidableEq

namespace Phys

abbrev Act := EStateM Stop Phys

def load (va : BitVec 64) : Act (BitVec 64) := fun s =>
  match reach s.mem s.cr3 va with
  | some a => .ok (s.mem a) s
  | none => .error .fault s

def store (va x : BitVec 64) : Act Unit := fun s =>
  match reach s.mem s.cr3 va with
  | some a => .ok () { s with mem := Function.update s.mem a x }
  | none => .error .fault s

def record (e : PhysEvent) : Act Unit := modify fun s => { s with log := e :: s.log }

def storeEntry (va e : BitVec 64) : Act Unit := do
  store va e
  record (.wrote e)

/-- `get_free_page`, which returns -1 when it fails. -/
def getFreePage : Act (BitVec 64) := fun s =>
  match s.pmap.getFreePage with
  | (.ok f, pmap) => .ok f { s with pmap := pmap, log := .took f :: s.log }
  | (.error _, pmap) => .ok (-1) { s with pmap := pmap, log := .failed :: s.log }

def releasePage (paddr : BitVec 64) : Act Unit := modify fun s => { s with pmap := (s.pmap.releasePage paddr).2 }

def clearWords (va : BitVec 64) : List ℕ → Act Unit
  | [] => pure ()
  | k :: l => do
    store (va + 8 * BitVec.ofNat 64 k) 0
    clearWords va l

def clearPage (va : BitVec 64) : Act Unit := clearWords va (List.range 512)

def freeTemp : Act Unit := do
  storeEntry (getPhys (← get).temp) 0

def zeroPage (paddr : BitVec 64) : Act Unit := do
  let vaddr := (← get).temp
  storeEntry (getPhys vaddr) (paddr ||| pageP ||| pageRW)
  clearPage vaddr
  freeTemp

def needTable (entry flags : BitVec 64) : Act Unit := do
  if isPresent (← load entry) then pure ()
  else
    let addr ← getFreePage
    zeroPage addr
    storeEntry entry (addr ||| flags)

def needTables (vaddr flags : BitVec 64) : Act Unit := do
  let (pmle, pdpe, pde, _) := mapPageRefs vaddr
  needTable pmle flags
  needTable pdpe flags
  needTable pde flags

def mapPage (paddr vaddr flags : BitVec 64) : Act Unit := do
  needTables vaddr (Mach.highFlags flags)
  let (_, _, _, pte) := mapPageRefs vaddr
  if isPresent (← load pte) then releasePage paddr
  else storeEntry pte (paddr ||| flags)

/-- `kmalloc`; the test for a failed allocation compares a pointer, so it is unsigned. -/
def kmalloc : Act (BitVec 64) := do
  let paddr ← getFreePage
  if paddr < 0 then throw .panic
  else
    mapPage paddr (← get).free (pageP ||| pageRW)
    let vaddr := (← get).free
    let _ ← load (getPhys vaddr)
    modify fun s => { s with free := s.free + 4096 }
    clearPage vaddr
    return vaddr

def paMask : BitVec 64 := 0x0000FFFFFFFFF000

def kfree (vaddr : BitVec 64) : Act Unit := do
  if vaddr ≠ 0 then
    let pte := getPhys vaddr
    releasePage ((← load pte) &&& paMask)
    storeEntry pte 0
  else pure ()

def kmmapPages (flags : BitVec 64) : ℕ → BitVec 64 → Act Unit
  | 0, _ => pure ()
  | n + 1, aligned => do
    let physaddr ← getFreePage
    zeroPage physaddr
    mapPage physaddr aligned flags
    let _ ← load (getPhys aligned)
    kmmapPages flags n (aligned + 4096)

def kmmap (addr : BitVec 64) (size : BitVec 32) (flags : BitVec 64) : Act Unit :=
  let numPages : BitVec 32 := (((addr + size.signExtend 64 - 1) >>> 12) - (addr >>> 12) + 1).setWidth 32
  kmmapPages flags numPages.toInt.toNat (if addr % 4096 ≠ 0 then addr &&& ~~~(4096 - 1) else addr)

/-- `alloc_pml4`; `kern_free_addr` is moved by `PGSIZE` elements of 8 bytes. -/
def allocPml4 : Act (BitVec 64) := do
  let pml4 ← getFreePage
  zeroPage pml4
  let virPml4 := (← get).free
  modify fun s => { s with free := virPml4 + 8 * 4096 }
  mapPage pml4 virPml4 (pageP ||| pageRW ||| pageU)
  let kernel ← load ((← get).initPml4 + 8 * 511)
  storeEntry (virPml4 + 8 * 511) kernel
  storeEntry (virPml4 + 8 * 510) (pml4 ||| pageP ||| pageRW)
  return pml4

def copyWords (src dst : BitVec 64) : List ℕ → Act Unit
  | [] => pure ()
  | k :: l => do
    store (dst + 8 * BitVec.ofNat 64 k) (← load (src + 8 * BitVec.ofNat 64 k))
    copyWords src dst l

def copyPage (src dst : BitVec 64) : Act Unit := copyWords src dst (List.range 512)

def copyOnWrite (faultAddr : BitVec 64) : Act Unit := do
  let pte := getPhys faultAddr
  let paddr ← load pte
  if isCow paddr && !isRW paddr then
    let naddr ← getFreePage
    zeroPage naddr
    let temp := (← get).temp
    mapPage naddr temp (pageP ||| pageU ||| pageRW)
    copyPage (faultAddr &&& ~~~(4096 - 1)) temp
    freeTemp
    storeEntry pte (naddr ||| pageU ||| pageP ||| pageRW)
    releasePage (paddr &&& ~~~(4096 - 1))
  else pure ()

end Phys

end Os506
