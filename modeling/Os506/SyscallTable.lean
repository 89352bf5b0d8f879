import Mathlib.Data.List.Basic
import Mathlib.Data.Nat.Notation

namespace Os506

namespace Sys

def yield : ℕ := 24
def sleep : ℕ := 35
def test : ℕ := 50
def fork : ℕ := 57
def exit : ℕ := 60
def getdents : ℕ := 78
def ps : ℕ := 0x63
def read : ℕ := 0x03
def write : ℕ := 0x04
def «open» : ℕ := 0x05
def close : ℕ := 0x06
def chdir : ℕ := 0x0c
def pipe : ℕ := 0x2a
def dup : ℕ := 0
def getcwd : ℕ := 0xb7
def dup2 : ℕ := 0
def wait4 : ℕ := 0x3d
def brk : ℕ := 0x2d
def execve : ℕ := 59

end Sys

namespace SyscallTable

inductive Handler
  | sysYield | sysSleep | sysFork | sysTest | sysExit | sysGetdents | sysOpen | sysClose
  | sysRead | sysWrite | sysBrk | sysPipe | sysExecve | sysWait4 | sysPs | sysChdir
  deriving DecidableEq

structure FunctionWithArg where
  count : BitVec 32
  func : Option Handler
  deriving DecidableEq

/-- An array with designated initialisers: it ends with the largest index named, and what is not named is zero. -/
def designated (init : List (ℕ × FunctionWithArg)) : List FunctionWithArg :=
  (List.range (init.foldr (fun e n => max (e.1 + 1) n) 0)).map fun n => (init.lookup n).getD ⟨0, none⟩

def entries : List (ℕ × FunctionWithArg) := [
  (Sys.yield, ⟨0, some .sysYield⟩),
  (Sys.sleep, ⟨1, some .sysSleep⟩),
  (Sys.fork, ⟨0, some .sysFork⟩),
  (Sys.test, ⟨1, some .sysTest⟩),
  (Sys.exit, ⟨0, some .sysExit⟩),
  (Sys.getdents, ⟨3, some .sysGetdents⟩),
  (Sys.open, ⟨2, some .sysOpen⟩),
  (Sys.close, ⟨1, some .sysClose⟩),
  (Sys.read, ⟨3, some .sysRead⟩),
  (Sys.write, ⟨3, some .sysWrite⟩),
  (Sys.brk, ⟨1, some .sysBrk⟩),
  (Sys.pipe, ⟨1, some .sysPipe⟩),
  (Sys.execve, ⟨3, some .sysExecve⟩),
  (Sys.wait4, ⟨3, some .sysWait4⟩),
  (Sys.ps, ⟨1, some .sysPs⟩),
  (Sys.chdir, ⟨1, some .sysChdir⟩)]

def syscalls : List FunctionWithArg := designated entries

structure Regs where
  rax : BitVec 64
  rdi : BitVec 64
  rsi : BitVec 64
  rdx : BitVec 64
  rcx : BitVec 64
  r8 : BitVec 64

def Regs.args (r : Regs) : List (BitVec 64) := [r.rdi, r.rsi, r.rdx, r.rcx, r.r8]

/-- What becomes of an `int 0x80`: a handler is called, a null pointer is called, the entry is read from behind the
table, or `rax` is set without a call. -/
inductive Outcome
  | called (f : Handler) (args : List (BitVec 64))
  | null
  | outside
  | returned (rax : BitVec 64)
  deriving DecidableEq

def syscallHandler (r : Regs) : Outcome :=
  match syscalls[r.rax.toNat]? with
  | none => .outside
  | some callFunc =>
    -- a count that no case of the `switch` has leaves `ret = 0`
    if callFunc.count.toNat ≤ 5 then
      match callFunc.func with
      | some f => .called f (r.args.take callFunc.count.toNat)
      | none => .null
    else .returned 0

/-- A listed handler is called, or an error is returned and nothing is called. -/
def Outcome.Safe : Outcome → Prop
  | .called f _ => ∃ e ∈ entries, e.2.func = some f
  | .returned rax => rax = -1
  | .null | .outside => False

variable {init : List (ℕ × FunctionWithArg)} {n : ℕ}

theorem lt_size_of_mem (h : n ∈ init.map Prod.fst) : n < init.foldr (fun e n => max (e.1 + 1) n) 0 := by
  induction init with
  | nil => cases h
  | cons e l ih =>
    rw [List.map_cons, List.mem_cons] at h
    rw [List.foldr_cons]
    rcases h with rfl | h
    · omega
    · have := ih h
      omega

theorem lookup_mem {e : FunctionWithArg} (h : init.lookup n = some e) : (n, e) ∈ init := by
  obtain ⟨l₁, l₂, rfl, _⟩ := List.lookup_eq_some_iff.mp h
  simp

theorem designated_listed (h : n ∈ init.map Prod.fst) : ∃ e, (n, e) ∈ init ∧ (designated init)[n]? = some e := by
  have hsome : init.lookup n ≠ none := by
    intro hnone
    obtain ⟨e, he, rfl⟩ := List.mem_map.mp h
    simpa using List.lookup_eq_none_iff.mp hnone e he
  obtain ⟨e, he⟩ := Option.ne_none_iff_exists'.mp hsome
  refine ⟨e, lookup_mem he, ?_⟩
  rw [designated, List.getElem?_map, List.getElem?_range (lt_size_of_mem h), Option.map_some, he]
  rfl

theorem designated_other (h : n ∉ init.map Prod.fst) :
    (designated init)[n]? = none ∨ (designated init)[n]? = some ⟨0, none⟩ := by
  have hnone : init.lookup n = none := by
    apply List.lookup_eq_none_iff.mpr
    intro e he
    apply bne_iff_ne.mpr
    rintro rfl
    exact h (List.mem_map_of_mem he)
  rw [designated, List.getElem?_map]
  rcases Nat.lt_or_ge n (init.foldr (fun e n => max (e.1 + 1) n) 0) with hlt | hge
  · right
    rw [List.getElem?_range hlt, Option.map_some, hnone]
    rfl
  · left
    rw [List.getElem?_eq_none (by rwa [List.length_range])]
    rfl

theorem entries_callable : ∀ e ∈ entries, e.2.count.toNat ≤ 5 ∧ e.2.func.isSome = true := by decide

theorem syscallHandler_safe_iff (r : Regs) : (syscallHandler r).Safe ↔ r.rax.toNat ∈ entries.map Prod.fst := by
  rw [syscallHandler, syscalls]
  by_cases h : r.rax.toNat ∈ entries.map Prod.fst
  · obtain ⟨e, hmem, he⟩ := designated_listed h
    obtain ⟨hcount, hfunc⟩ := entries_callable _ hmem
    obtain ⟨f, hf⟩ := Option.isSome_iff_exists.mp hfunc
    rw [he]
    dsimp only at hcount hf ⊢
    rw [if_pos hcount, hf]
    exact iff_of_true ⟨_, hmem, hf⟩ h
  · refine iff_of_false ?_ h
    rcases designated_other h with he | he
    · rw [he]
      exact id
    · rw [he]
      exact id

inductive Wrapper
  | read | write | open | close | chdir | pipe | dup2 | execvpe | getdents | brk | dup | waitpid | getcwd | yield | ps
  | test | fork | exit
  deriving DecidableEq

def Wrapper.number : Wrapper → ℕ
  | read => Sys.read
  | write => Sys.write
  | .open => Sys.open
  | close => Sys.close
  | chdir => Sys.chdir
  | pipe => Sys.pipe
  | dup2 => Sys.dup2
  | execvpe => Sys.execve
  | getdents => Sys.getdents
  | brk => Sys.brk
  | dup => Sys.dup
  | waitpid => Sys.wait4
  | getcwd => Sys.getcwd
  | yield => Sys.yield
  | ps => Sys.ps
  | test => Sys.test
  | fork => Sys.fork
  | exit => Sys.exit

theorem wrapper_listed_iff (w : Wrapper) :
    w.number ∈ entries.map Prod.fst ↔ w ≠ .dup ∧ w ≠ .dup2 ∧ w ≠ .getcwd := by
  cases w <;> decide

theorem syscallHandler_fails_on_dup_and_getcwd :
    syscallHandler ⟨BitVec.ofNat 64 Wrapper.dup.number, 1, 0, 0, 0, 0⟩ = .null ∧
      syscallHandler ⟨BitVec.ofNat 64 Wrapper.dup2.number, 1, 0, 0, 0, 0⟩ = .null ∧
      syscallHandler ⟨BitVec.ofNat 64 Wrapper.getcwd.number, 0, 0, 0, 0, 0⟩ = .outside ∧
      ¬ Outcome.Safe .null ∧ ¬ Outcome.Safe .outside := by
  refine ⟨by decide, by decide, by decide, id, id⟩

end SyscallTable

end Os506
