import Os506.Memory.Paging

namespace Os506

open Pging

namespace Vma

def pages (v : Vma) : List ℕ := List.range' (v.start / 4096) ((v.stop + 4095) / 4096 - v.start / 4096)

def stackPages (v : Vma) : List ℕ :=
  (List.range' ((v.start + 4095) / 4096) (v.stop / 4096 - (v.start + 4095) / 4096)).reverse

def has (v : Vma) (va : ℕ) : Bool := v.start ≤ va && va < v.stop

end Vma

namespace Mach

def kernBase : ℕ := 0xFFFFFFFF80200000

def userStackTop : ℕ := 0xF000000000

def userStackSize : ℕ := 0x10000

/-- A `vma_struct` has 48 bytes, and the kernel takes them from the 2 GiB above its base. -/
def vmaLimit : ℕ := 2 ^ 31 / 48

def takeFrames : ℕ → Mach → Option Mach
  | 0, m => some m
  | n + 1, m => m.getFreePage.bind fun r => r.2.takeFrames n

def setMm (i : ℕ) (f : Mm → Mm) (m : Mach) : Mach := { m with mm := Function.update m.mm i (f (m.mm i)) }

def newMm (vm : List Vma) (brk frames : ℕ) (m : Mach) : Option Mach :=
  if vmaLimit < m.vmas + vm.length then none
  else (m.takeFrames frames).map fun m =>
    { m with mm := Function.update m.mm m.count { vm := vm, brk := brk }, count := m.count + 1,
             vmas := m.vmas + vm.length }

/-- One round of the loop of `fork_process` over a VMA without stack. A page whose `pte` has no table behind it
makes the kernel fault on its own address. -/
def sharePage (i j vpn : ℕ) (m : Mach) : Option Mach :=
  if ¬ (m.tables i).Reached vpn then none
  else
    let paddr := (m.tables i).pte vpn
    if isPresent paddr then
      let (paddr, m) := if isRW paddr
        then ((paddr &&& ~~~pageRW) ||| pageCow, m.setPte i vpn ((paddr &&& ~~~pageRW) ||| pageCow))
        else (paddr, m)
      (m.mapPage j paddr vpn (paddr &&& 0xFFF)).map (incMapCount (paddr &&& ~~~0xFFF))
    else some m

def sharePages (i j : ℕ) : List ℕ → Mach → Option Mach
  | [], m => some m
  | vpn :: l, m => (m.sharePage i j vpn).bind (sharePages i j l)

def copyPage (i j vpn : ℕ) (m : Mach) : Option Mach :=
  m.getFreePage.bind fun (paddr, m) =>
    let m := m.zeroPage paddr
    let m := m.setPage paddr (m.mem (Mmu.frame ((m.tables i).pte vpn)))
    m.mapPage j paddr vpn rwUser

def copyStack (i j : ℕ) : List ℕ → Mach → Option Mach
  | [], m => some m
  | vpn :: l, m =>
    if ¬ (m.tables i).Reached vpn then none
    else if isPresent ((m.tables i).pte vpn) then (m.copyPage i j vpn).bind (copyStack i j l)
    else some m

def forkVma (i j : ℕ) (v : Vma) (m : Mach) : Option Mach :=
  if v.type = .stack then m.copyStack i j v.stackPages else m.sharePages i j v.pages

def forkVmas (i j : ℕ) : List Vma → Mach → Option Mach
  | [], m => some m
  | v :: vm, m => (m.forkVma i j v).bind (forkVmas i j vm)

def forkProcess (i frames : ℕ) (m : Mach) : Option Mach :=
  (m.newMm (m.mm i).vm (m.mm i).brk frames).bind fun m' => m'.forkVmas i m.count (m.mm i).vm

def breakShare (i vpn : ℕ) (m : Mach) : Option Mach :=
  let paddr := (m.tables i).pte vpn
  if isCow paddr && !isRW paddr then
    m.getFreePage.map fun (naddr, m) =>
      let m := m.zeroPage naddr
      let m := m.setPage naddr (m.mem (Mmu.frame paddr))
      (m.setPte i vpn (naddr ||| pageU ||| pageP ||| pageRW)).releasePage (paddr &&& ~~~0xFFF)
  else none

/-- Where the source panics or never returns there is no next state. -/
def handlePgFault (i va : ℕ) (err : Bool) (m : Mach) : Option Mach :=
  if kernBase ≤ va then none
  else if err then m.breakShare i (va / 4096)
  else match (m.mm i).vm.find? fun v => v.has va with
    | some v => m.kmmap i v.start (v.stop - v.start) (pageU ||| pageP ||| pageRW)
    | none => none

def growHeap (addr : ℕ) : List Vma → List Vma
  | [] => []
  | v :: vm => if v.type = .heap then
      (if v.stop < addr then { v with stop := (addr + 4095) / 4096 * 4096 } else v) :: vm
    else v :: growHeap addr vm

def sysBrk (i addr : ℕ) (m : Mach) : Mach :=
  if addr = 2 ^ 64 - 1 ∨ addr ≤ (m.mm i).brk then m
  else m.setMm i fun k =>
    { k with brk := addr, vm := if addr < userStackTop - userStackSize then growHeap addr k.vm else k.vm }

def allowed (need : BitVec 64) (i va : ℕ) (m : Mach) : Bool :=
  let t := m.tables i
  let grants (e : BitVec 64) : Bool := e &&& need = need
  grants (t.upper .pmle (Level.pmle.index (va / 4096))) && grants (t.upper .pdpe (Level.pdpe.index (va / 4096))) &&
    grants (t.upper .pde (Level.pde.index (va / 4096))) && grants (t.pte (va / 4096))

def readable (i va : ℕ) (m : Mach) : Bool := m.allowed (pageP ||| pageU) i va

def writable (i va : ℕ) (m : Mach) : Bool := m.allowed rwUser i va

/-- Bit 0 of the error code: the page is there and the access was not allowed. -/
def faultCode (i va : ℕ) (m : Mach) : Bool :=
  decide ((m.tables i).Reached (va / 4096)) && isPresent ((m.tables i).pte (va / 4096))

def frameAt (i va : ℕ) (m : Mach) : BitVec 64 := Mmu.frame ((m.tables i).pte (va / 4096))

def fetch (i va : ℕ) (m : Mach) : UInt8 := m.mem (m.frameAt i va) (va % 4096)

def store (i va : ℕ) (b : UInt8) (m : Mach) : Mach :=
  m.setPage (m.frameAt i va) (Function.update (m.mem (m.frameAt i va)) (va % 4096) b)

def storeBytes (i : ℕ) : ℕ → List UInt8 → Mach → Option Mach
  | _, [], m => some m
  | va, b :: l, m => if m.writable i va then (m.store i va b).storeBytes i (va + 1) l else none

end Mach

/-- A `PT_LOAD` header with its bytes in the file. The loader reads `p_memsz` into an `int size`: that is `memsz`. -/
structure Segment where
  vaddr : ℕ
  memsz : ℕ
  bytes : List UInt8
  size_lt : memsz < 2 ^ 31
  user : vaddr + memsz ≤ 2 ^ 47
  file_le : bytes.length ≤ memsz

namespace Mach

def loadSegment (i : ℕ) (g : Segment) (m : Mach) : Option Mach :=
  (m.kmmap i g.vaddr g.memsz rwUser).bind fun m =>
  (m.storeBytes i g.vaddr g.bytes).bind
    (storeBytes i (g.vaddr + g.bytes.length) (List.replicate (g.memsz - g.bytes.length) 0))

def loadSegments (i : ℕ) : List Segment → Mach → Option Mach
  | [], m => some m
  | g :: l, m => (m.loadSegment i g).bind (loadSegments i l)

/-- The VMA list that `load_elf` builds: one for each segment, the empty heap, the stack. A segment gets its `p_type`
for the type, and `PT_LOAD` is the number of `DATA`. -/
def loadVmas (segments : List Segment) : List Vma :=
  let top := segments.foldl (fun top g => max top (g.vaddr + g.memsz)) 0
  let heap := (top + 4095) / 4096 * 4096
  segments.map (fun g => ⟨g.vaddr, g.vaddr + g.memsz, .data⟩) ++
    [⟨heap, heap, .heap⟩, ⟨userStackTop - userStackSize, userStackTop, .stack⟩]

def loadBrk (segments : List Segment) : ℕ :=
  (segments.foldl (fun top g => max top (g.vaddr + g.memsz)) 0 + 4095) / 4096 * 4096

def loadElf (segments : List Segment) (args : List UInt8) (frames : ℕ) (m : Mach) : Option Mach :=
  if segments = [] then none
  else
    (m.newMm (loadVmas segments) (loadBrk segments) frames).bind fun m' =>
    (m'.loadSegments m.count segments).bind fun m' =>
    (m'.kmmap m.count (userStackTop - 4096) 4096 rwUser).bind
      (storeBytes m.count (userStackTop - 8 - args.length) args)

end Mach

/-- What a run of user processes is made of. An access that is not allowed runs the fault handler, and the process
tries it again later. -/
inductive MemOp
  | load (segments : List Segment) (args : List UInt8) (frames : ℕ)
  | fork (i frames : ℕ)
  | brk (i addr : ℕ)
  | read (i va : ℕ)
  | write (i va : ℕ) (b : UInt8)

namespace MemOp

def step : MemOp → Mach → Option Mach
  | load segments args frames, m => m.loadElf segments args frames
  | fork i frames, m => if i < m.count then m.forkProcess i frames else none
  | brk i addr, m => if i < m.count then some (m.sysBrk i addr) else none
  | read i va, m => if i < m.count then
      if m.readable i va then some m else m.handlePgFault i va (m.faultCode i va) else none
  | write i va b, m => if i < m.count then
      if m.writable i va then some (m.store i va b) else m.handlePgFault i va (m.faultCode i va) else none

end MemOp

end Os506
