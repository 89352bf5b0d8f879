import Os506.Ktime
import Mathlib.Logic.Function.Basic

namespace Os506

inductive FileRef
  | term
  | object (addr : ℕ)
  deriving DecidableEq

/-- The fields of `task_struct` that the kernel's control flow reads; the saved machine
context (`kstack`, `rsp`) and the memory descriptor are not among them. -/
structure Task where
  pid : BitVec 32 := 0
  userp : Bool := false
  runnable : Bool := false
  waiting : Bool := false
  firstRun : Bool := false
  entry : BitVec 64 := 0
  startMs : ℕ := 0
  rax : BitVec 64 := 0
  sleepTime : ℕ := 0
  numChildren : ℕ := 0
  waitPid : BitVec 32 := 0
  next : Option ℕ := none
  prev : Option ℕ := none
  parent : Option ℕ := none
  name : List UInt8 := []
  fdarr : Fin 50 → Option FileRef := fun _ => none

/-- The globals of `schedule.c` over the task structs handed out so far, `0` to `count - 1`. -/
structure Sched where
  task : ℕ → Task
  count : ℕ
  current : Option ℕ
  idle : ℕ
  available : Option ℕ
  sleeping : Option ℕ
  waiting : Option ℕ
  clock : Ktime
  pid : BitVec 32

namespace Sched

variable (s : Sched)

def ms : ℕ := s.clock.ms

def next (t : ℕ) : Option ℕ := (s.task t).next

def prev (t : ℕ) : Option ℕ := (s.task t).prev

def modify (t : ℕ) (f : Task → Task) : Sched := { s with task := Function.update s.task t (f (s.task t)) }

def setNext (t : ℕ) (p : Option ℕ) : Sched := s.modify t fun k => { k with next := p }

def setPrev (t : ℕ) (p : Option ℕ) : Sched := s.modify t fun k => { k with prev := p }

@[simp] theorem modify_task_self (t : ℕ) (f : Task → Task) : (s.modify t f).task t = f (s.task t) := by
  simp [modify]

@[simp] theorem modify_task_of_ne {t u : ℕ} (f : Task → Task) (h : u ≠ t) :
    (s.modify t f).task u = s.task u := by
  simp [modify, h]

@[simp] theorem modify_count (t : ℕ) (f : Task → Task) : (s.modify t f).count = s.count := rfl
@[simp] theorem modify_current (t : ℕ) (f : Task → Task) : (s.modify t f).current = s.current := rfl
@[simp] theorem modify_idle (t : ℕ) (f : Task → Task) : (s.modify t f).idle = s.idle := rfl
@[simp] theorem modify_available (t : ℕ) (f : Task → Task) : (s.modify t f).available = s.available := rfl
@[simp] theorem modify_sleeping (t : ℕ) (f : Task → Task) : (s.modify t f).sleeping = s.sleeping := rfl
@[simp] theorem modify_waiting (t : ℕ) (f : Task → Task) : (s.modify t f).waiting = s.waiting := rfl
@[simp] theorem modify_clock (t : ℕ) (f : Task → Task) : (s.modify t f).clock = s.clock := rfl
@[simp] theorem modify_ms (t : ℕ) (f : Task → Task) : (s.modify t f).ms = s.ms := rfl

theorem modify_proj {β : Type} (g : Task → β) (t : ℕ) {f : Task → Task} (hf : ∀ k, g (f k) = g k) (u : ℕ) :
    g ((s.modify t f).task u) = g (s.task u) := by
  by_cases h : u = t
  · subst h; rw [modify_task_self, hf]
  · rw [modify_task_of_ne s f h]

theorem modify_next (t : ℕ) {f : Task → Task} (hf : ∀ k, (f k).next = k.next) : (s.modify t f).next = s.next :=
  funext (s.modify_proj Task.next t hf)

theorem modify_prev (t : ℕ) {f : Task → Task} (hf : ∀ k, (f k).prev = k.prev) : (s.modify t f).prev = s.prev :=
  funext (s.modify_proj Task.prev t hf)

theorem setNext_next (t : ℕ) (p : Option ℕ) : (s.setNext t p).next = Function.update s.next t p := by
  funext u
  by_cases h : u = t
  · subst h; simp [setNext, next]
  · simp [setNext, next, h]

theorem setNext_prev (t : ℕ) (p : Option ℕ) : (s.setNext t p).prev = s.prev := s.modify_prev t fun _ => rfl

theorem setPrev_next (t : ℕ) (p : Option ℕ) : (s.setPrev t p).next = s.next := s.modify_next t fun _ => rfl

theorem setPrev_prev (t : ℕ) (p : Option ℕ) : (s.setPrev t p).prev = Function.update s.prev t p := by
  funext u
  by_cases h : u = t
  · subst h; simp [setPrev, prev]
  · simp [setPrev, prev, h]

end Sched

end Os506
