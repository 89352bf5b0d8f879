import Os506.Interrupts.Transparency
import Os506.Memory.Memmove
import Os506.SyscallTable

namespace Os506.Isr

open Machine

def userSaved : List Reg := [.rbx, .rcx, .rdx, .rsi, .rdi, .rbp]

def forkRet : List (Instr Callee) := restores userSaved.reverse ++ [.sti]

def isr128 (ret : Word) : List (Instr Callee) := saves userSaved ++ ([.call .syscallHandler ret] ++ forkRet)

section Return

variable {gdt : List Word} {status : Word → Word → Word} {sem : Callee → State → Option State} {ret rsp0 : Word} {g : Gate}
  {s t d : State} {f : Frame} {old : Reg → Word}

theorem userSaved_rsp : Reg.rsp ∉ userSaved := by decide

theorem run_forkRet (hd : d.Stack (userSaved.reverse.map old ++ f.words)) (hcpl : d.cpl = 0)
    (hcs : returnsTo gdt f.cs = true) (hss : stacksAt gdt f.cs f.ss = true) :
    run gdt status sem forkRet d =
      some { rip := f.rip, cs := f.cs, rflags := f.rflags, ss := f.ss, mem := d.mem, mapped := d.mapped,
             reg := fun r => if r = .rsp then f.rsp else if r ∈ userSaved then old r else d.reg r } := by
  set x := popped old userSaved.reverse d with hx
  have hxstack : x.Stack (f.words ++ []) := by
    rw [List.append_nil]
    exact popped_stack (by decide) hd
  set y : State := { x with rflags := x.rflags ||| interruptFlag } with hy
  have hystack : y.Stack (f.words ++ []) := hxstack
  rw [run, forkRet, Run.exec_append, exec_restores status sem (by decide) hd, Option.bind_some, Run.exec, step,
    Option.bind_some, Run.exec, Option.bind_some, ← hy,
    iretq_frame hystack (show d.cpl ≤ _ by rw [hcpl]; exact Nat.zero_le _) hcs hss, State.leave, Option.some.injEq]
  congr 1
  funext r
  by_cases hsp : r = .rsp
  · rw [if_pos hsp, hsp, Function.update_self]
  · rw [if_neg hsp, Function.update_of_ne hsp]
    simp [hy, hx, popped, hsp]

def calling128 (ret : Word) (t : State) : State := (t.pushAll (userSaved.map t.reg)).push ret

theorem exec_isr128 : run gdt status sem (isr128 ret) t =
    (sem .syscallHandler (calling128 ret t)).bind (run gdt status sem forkRet) := by
  rw [run, isr128, Run.exec_append, exec_saves status sem userSaved_rsp, Option.bind_some, List.singleton_append, Run.exec,
    step, Option.bind_assoc]
  rfl

theorem calling128_reg {r : Reg} (h : r ≠ .rsp) : (calling128 ret t).reg r = t.reg r := by
  rw [calling128, State.reg_push h, State.reg_pushAll _ h]

theorem calling128_stack (ret : Word) (h : t.Stack f.words) :
    (calling128 ret t).Stack (ret :: (userSaved.reverse.map t.reg ++ f.words)) := by
  rw [List.map_reverse]
  exact State.push_stack (by simp [userSaved, Frame.words])
    (State.pushAll_stack (userSaved.map t.reg) (by simp [userSaved, Frame.words]) h)

def answered (s t : State) : State :=
  { s with reg := fun r => if r = .rax ∨ r ∈ scratch then t.reg r else s.reg r, mem := t.mem, mapped := t.mapped }

theorem run_isr128 (hg : g.selector.toNat % 4 = 0) (hs : Resumable gdt s)
    (hsem : sem .syscallHandler (calling128 ret (s.enter g rsp0 none)) = some t)
    (ht : Returned 11 (calling128 ret (s.enter g rsp0 none)) t) :
    run gdt status sem (isr128 ret) (s.enter g rsp0 none) = some (answered s t) := by
  have hframe : (s.enter g rsp0 none).Stack s.frame.words := State.enter_stack g rsp0 none s
  have hreg : ∀ r, r ≠ .rsp → (s.enter g rsp0 none).reg r = s.reg r := fun r hr => State.enter_reg g rsp0 none hr
  have hstack := ht.stack (calling128_stack ret hframe) (by simp [userSaved, Frame.words])
  have hcpl : t.cpl = 0 := by
    rw [State.cpl, ht.cs, calling128, State.pushAll_eq]
    exact hg
  rw [exec_isr128, hsem, Option.bind_some, run_forkRet hstack hcpl hs.code hs.stack, answered, Option.some.injEq]
  congr 1
  funext r
  by_cases hsp : r = .rsp
  · subst hsp
    rfl
  rw [if_neg hsp]
  by_cases hr : r = .rax ∨ r ∈ scratch
  · rw [if_pos hr, if_neg (by revert hr; cases r <;> decide)]
  · rw [if_neg hr]
    by_cases hu : r ∈ userSaved
    · rw [if_pos hu, hreg r hsp]
    · have hc : r ∈ calleeSaved := by revert hsp hr hu; cases r <;> decide
      rw [if_neg hu, ht.saved r hc, calling128_reg hsp, hreg r hsp]

def syscallRegs (s : State) : SyscallTable.Regs := ⟨s.reg .rax, s.reg .rdi, s.reg .rsi, s.reg .rdx, s.reg .rcx, s.reg .r8⟩

/-- `syscall_handler` as a called function: `kernel` is what the handlers do up to its return. -/
def syscallSem (kernel : SyscallTable.Handler → List Word → State → Option State) : Callee → State → Option State
  | .syscallHandler, e => match SyscallTable.syscallHandler (syscallRegs e) with
    | .called h args => kernel h args e
    | _ => none
  | .isrHandler, _ => none

end Return

section Wrapper

open SyscallTable

/-- The handler that a wrapper of `libc/syscall.c` is written for; the table has none for three of them. -/
def target : Wrapper → Option Handler
  | .read => some .sysRead
  | .write => some .sysWrite
  | .open => some .sysOpen
  | .close => some .sysClose
  | .chdir => some .sysChdir
  | .pipe => some .sysPipe
  | .execvpe => some .sysExecve
  | .getdents => some .sysGetdents
  | .brk => some .sysBrk
  | .waitpid => some .sysWait4
  | .yield => some .sysYield
  | .ps => some .sysPs
  | .test => some .sysTest
  | .fork => some .sysFork
  | .exit => some .sysExit
  | .dup | .dup2 | .getcwd => none

def arity : Wrapper → ℕ
  | .read | .write | .execvpe | .getdents => 3
  | .open | .dup2 | .waitpid | .getcwd | .fork => 2
  | .close | .chdir | .pipe | .brk | .dup | .ps | .test => 1
  | .yield | .exit => 0

def issue (w : Wrapper) (a b c : Word) (s : State) : State :=
  { s with reg := fun r => match r with
    | .rax => BitVec.ofNat 64 w.number
    | .rdi => if 1 ≤ arity w then a else s.reg .rdi
    | .rsi => if 2 ≤ arity w then b else s.reg .rsi
    | .rdx => if 3 ≤ arity w then c else s.reg .rdx
    | r => s.reg r }

/-- What the handler of a wrapper is called with: the table gives that of `fork` no parameters and that of `waitpid`
three. -/
def passed (w : Wrapper) (a b c : Word) (s : State) : List Word :=
  match w with
  | .fork => []
  | .waitpid => [a, b, s.reg .rdx]
  | w => [a, b, c].take (arity w)

theorem issue_called {w : Wrapper} {h : Handler} (hw : target w = some h) (a b c : Word) (s : State) :
    syscallHandler (syscallRegs (issue w a b c s)) = .called h (passed w a b c s) := by
  cases w
  case dup | dup2 | getcwd => cases hw
  all_goals
    cases hw
    rfl

end Wrapper

end Os506.Isr
