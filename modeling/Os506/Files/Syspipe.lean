import Os506.Files.Pipe
import Mathlib.Data.Fintype.Card
import Mathlib.Data.List.FinRange

namespace Os506

inductive PipeOps
  | rheadOps
  | wheadOps
  deriving DecidableEq

structure PipeFile where
  fop : PipeOps
  count : BitVec 64
  flags : BitVec 32
  offset : BitVec 64
  size : BitVec 64
  data : ℕ
  deriving DecidableEq

/-- What `syspipe` works on: the table of the current task, the files and the buffers of pipes by address, the memory of
the caller as `int`s, and the pages that `kmalloc` is going to return. -/
structure Kpipe where
  fdarr : Fin 50 → Option ℕ
  file : ℕ → Option PipeFile
  pipe : ℕ → Option PipeBuf
  user : BitVec 64 → BitVec 32
  pages : List ℕ

inductive Exit
  | ret (value : ℤ)
  | panic (s : String)

namespace Kpipe

abbrev M := EStateM Exit Kpipe

def panic {α : Type} (s : String) : M α := throw (.panic s)

def getFreeFd : M ℤ := do
  let x ← get
  return match (List.finRange 50).find? fun n => (x.fdarr n).isNone with
    | some n => n
    | none => -1

def kmalloc : M ℕ := do
  let x ← get
  match x.pages with
  | [] => return 0
  | p :: pages =>
    set { x with pages := pages }
    return p

def setFile (p : ℕ) (f : PipeFile) : M Unit := modify fun x => { x with file := Function.update x.file p (some f) }

def setFd (fd : ℤ) (p : ℕ) : M Unit :=
  modify fun x => { x with fdarr := fun n => if (n : ℤ) = fd then some p else x.fdarr n }

def setUser (a : BitVec 64) (fd : ℤ) : M Unit :=
  modify fun x => { x with user := Function.update x.user a (BitVec.ofInt 32 fd) }

/-- `syspipe`, line by line. The `return -1` behind a test for the null pointer does not belong to the test. The stores to
the heads and to the table are made twice. -/
def body (pipefd : BitVec 64) : M ℤ := do
  if pipefd = 0 then panic "pipefd is NULL\n"
  throw (.ret (-1))
  let rfd ← getFreeFd
  let wfd ← getFreeFd
  if rfd < 0 ∨ wfd < 0 then throw (.ret (-1))
  let buf ← kmalloc
  if buf = 0 then panic "kmalloc failed for pipe buf\n"
  throw (.ret (-1))
  modify fun x => { x with pipe := Function.update x.pipe buf (some Pipe.zero) }
  let rhead ← kmalloc
  if rhead = 0 then panic "kmalloc failed for pipe read head\n"
  throw (.ret (-1))
  let whead ← kmalloc
  if whead = 0 then panic "kmalloc failed for pipe write head\n"
  setFile rhead ⟨.rheadOps, 1, 0, 0, 0, buf⟩
  setFile whead ⟨.wheadOps, 1, 0, 0, 0, buf⟩
  setFd rfd rhead
  setFd wfd whead
  setUser pipefd rfd
  setUser (pipefd + 4) wfd
  return 0

end Kpipe

def syspipe (pipefd : BitVec 64) (x : Kpipe) : Option (ℤ × Kpipe) :=
  match Kpipe.body pipefd x with
  | .ok ret y => some (ret, y)
  | .error (.ret ret) y => some (ret, y)
  | .error (.panic _) _ => none

namespace Kpipe

def vacant (x : Kpipe) : ℕ := (Finset.univ.filter fun n => x.fdarr n = none).card

structure Made (pipefd : BitVec 64) (x y : Kpipe) (rfd wfd : Fin 50) : Prop where
  told : y.user pipefd = BitVec.ofNat 32 rfd ∧ y.user (pipefd + 4) = BitVec.ofNat 32 wfd
  ne : rfd ≠ wfd
  empty : x.fdarr rfd = none ∧ x.fdarr wfd = none
  heads : ∃ r w f g, y.fdarr rfd = some r ∧ y.fdarr wfd = some w ∧ y.file r = some f ∧ y.file w = some g ∧
    f.fop = .rheadOps ∧ g.fop = .wheadOps ∧ f.data = g.data ∧ y.pipe f.data = some Pipe.zero
  others : ∀ n, n ≠ rfd → n ≠ wfd → y.fdarr n = x.fdarr n

/-- With two empty slots and three pages a pipe is made; with fewer slots the call fails and changes nothing. -/
structure Works (pipefd : BitVec 64) (x : Kpipe) : Prop where
  made : 2 ≤ x.vacant → 3 ≤ (x.pages.takeWhile (· ≠ 0)).length →
    ∃ y rfd wfd, syspipe pipefd x = some (0, y) ∧ Made pipefd x y rfd wfd
  full : x.vacant < 2 → syspipe pipefd x = some (-1, x)

variable {pipefd : BitVec 64}

theorem syspipe_eq (h : pipefd ≠ 0) (x : Kpipe) : syspipe pipefd x = some (-1, x) := by
  rw [syspipe, body, if_neg h]
  rfl

/-- The first `return -1` is always taken: no pipe is ever made. -/
theorem works_iff (h : pipefd ≠ 0) (x : Kpipe) :
    Works pipefd x ↔ x.vacant < 2 ∨ (x.pages.takeWhile (· ≠ 0)).length < 3 := by
  constructor
  · intro hw
    by_contra hno
    obtain ⟨y, _, _, hret, _⟩ := hw.made (by omega) (by omega)
    rw [syspipe_eq h, Option.some.injEq, Prod.mk.injEq] at hret
    exact absurd hret.1 (by decide)
  · intro hfew
    exact ⟨fun htwo hmem => by omega, fun _ => syspipe_eq h x⟩

def idle : Kpipe := ⟨fun _ => none, fun _ => none, fun _ => none, fun _ => 0, [0x1000, 0x2000, 0x3000]⟩

theorem works_fails_on_idle : idle.vacant = 50 ∧ syspipe 0x400000 idle = some (-1, idle) ∧ ¬ Works 0x400000 idle := by
  have hvacant : idle.vacant = 50 := by decide
  refine ⟨hvacant, rfl, fun hw => ?_⟩
  obtain ⟨y, _, _, hret, _⟩ := hw.made (by omega) (by decide)
  cases hret

theorem works_full : Works 0x400000 { idle with fdarr := fun n => if n = 49 then none else some 0x5000 } :=
  (works_iff (by decide) _).mpr (.inl (by decide))

end Kpipe

end Os506
