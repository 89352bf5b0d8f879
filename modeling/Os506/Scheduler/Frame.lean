import Os506.Scheduler.Schedule
import Os506.Lib.DoublyLinked

namespace Os506

open Linked

/-- A task without the fields that moving it between lists may change. -/
def Task.core (k : Task) : Task := { k with next := none, prev := none, firstRun := false }

namespace Sched

structure SameTasks (s s' : Sched) : Prop where
  core : ∀ t, (s'.task t).core = (s.task t).core
  count : s'.count = s.count
  idle : s'.idle = s.idle
  clock : s'.clock = s.clock
  pid : s'.pid = s.pid

namespace SameTasks

variable {s s' s'' : Sched}

theorem refl (s : Sched) : SameTasks s s := ⟨fun _ => rfl, rfl, rfl, rfl, rfl⟩

theorem trans (h : SameTasks s s') (h' : SameTasks s' s'') : SameTasks s s'' :=
  ⟨fun t => (h'.core t).trans (h.core t), h'.count.trans h.count, h'.idle.trans h.idle,
    h'.clock.trans h.clock, h'.pid.trans h.pid⟩

theorem runnable (h : SameTasks s s') (t : ℕ) : (s'.task t).runnable = (s.task t).runnable := by
  simpa only [Task.core] using congrArg Task.runnable (h.core t)

theorem waiting (h : SameTasks s s') (t : ℕ) : (s'.task t).waiting = (s.task t).waiting := by
  simpa only [Task.core] using congrArg Task.waiting (h.core t)

theorem sleepTime (h : SameTasks s s') (t : ℕ) : (s'.task t).sleepTime = (s.task t).sleepTime := by
  simpa only [Task.core] using congrArg Task.sleepTime (h.core t)

theorem taskPid (h : SameTasks s s') (t : ℕ) : (s'.task t).pid = (s.task t).pid := by
  simpa only [Task.core] using congrArg Task.pid (h.core t)

theorem ms (h : SameTasks s s') : s'.ms = s.ms := congrArg Ktime.ms h.clock

theorem awake (h : SameTasks s s') : s'.awake = s.awake := by
  funext t; simp only [Sched.awake, h.sleepTime, h.ms]

theorem released (h : SameTasks s s') : s'.released = s.released := by
  funext t; simp only [Sched.released, h.waiting]

theorem ready (h : SameTasks s s') : s'.ready = s.ready := by
  funext t; simp only [Sched.ready, h.runnable, h.awake, h.released]

end SameTasks

variable (s : Sched)

theorem sameTasks_modify {t : ℕ} {f : Task → Task} (hf : ∀ k, (f k).core = k.core) :
    SameTasks s (s.modify t f) := by
  refine ⟨fun u => ?_, rfl, rfl, rfl, rfl⟩
  by_cases hu : u = t
  · subst hu; simp [hf]
  · simp [hu]

theorem sameTasks_setNext (t : ℕ) (p : Option ℕ) : SameTasks s (s.setNext t p) :=
  s.sameTasks_modify fun _ => rfl

theorem sameTasks_setPrev (t : ℕ) (p : Option ℕ) : SameTasks s (s.setPrev t p) :=
  s.sameTasks_modify fun _ => rfl

theorem sameTasks_enter (x : ℕ) : SameTasks s (s.enter x) := by
  unfold enter
  split
  · exact s.sameTasks_modify fun _ => rfl
  · exact .refl s

theorem enter_next (x : ℕ) : (s.enter x).next = s.next := by
  unfold enter
  split
  · exact s.modify_next x fun _ => rfl
  · rfl

theorem enter_prev (x : ℕ) : (s.enter x).prev = s.prev := by
  unfold enter
  split
  · exact s.modify_prev x fun _ => rfl
  · rfl

theorem enter_lists (x : ℕ) : (s.enter x).current = s.current ∧ (s.enter x).available = s.available ∧
    (s.enter x).sleeping = s.sleeping ∧ (s.enter x).waiting = s.waiting := by
  unfold enter
  split <;> exact ⟨rfl, rfl, rfl, rfl⟩

theorem unlink_next (x : ℕ) : (s.unlink x).next = unlinkNext s.next s.prev x := by
  unfold unlink unlinkNext
  cases s.prev x with
  | none => cases hn : s.next x <;> simp [hn, setPrev_next]
  | some p =>
    simp only
    split <;> simp [setPrev_next, setNext_next]

theorem unlink_prev (x : ℕ) : (s.unlink x).prev = unlinkPrev s.next s.prev x := by
  unfold unlink unlinkPrev
  cases hp : s.prev x with
  | none => cases hn : s.next x <;> simp [hn, hp, setPrev_prev]
  | some p =>
    have hx : (s.setNext p (s.next x)).next x = s.next x := by
      by_cases hxp : x = p
      · subst hxp; simp [setNext_next]
      · simp [setNext_next, hxp]
    simp only [hx]
    cases hn : s.next x <;> simp [setPrev_prev, setNext_prev, hp]

theorem unlink_next_self (x : ℕ) : (s.unlink x).next x = s.next x := by
  rw [unlink_next]
  cases hp : s.prev x with
  | none => simp [unlinkNext, hp]
  | some p =>
    by_cases hxp : x = p
    · subst hxp; simp [unlinkNext, hp]
    · simp [unlinkNext, hp, hxp]

theorem sameTasks_unlink (x : ℕ) : SameTasks s (s.unlink x) := by
  unfold unlink
  cases s.prev x with
  | none =>
    dsimp only
    split
    · exact s.sameTasks_setPrev _ _
    · exact .refl s
  | some p =>
    refine (s.sameTasks_setNext p (s.next x)).trans ?_
    dsimp only
    split
    · exact sameTasks_setPrev _ _ _
    · exact .refl _

theorem unlink_lists (x : ℕ) : (s.unlink x).current = s.current ∧ (s.unlink x).available = s.available ∧
    (s.unlink x).sleeping = s.sleeping ∧ (s.unlink x).waiting = s.waiting := by
  unfold unlink
  cases s.prev x <;> dsimp only <;> split <;> exact ⟨rfl, rfl, rfl, rfl⟩

end Sched

end Os506
