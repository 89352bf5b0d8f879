import Os506.Task
import Os506.Lib.Linked

namespace Os506

open Linked

namespace Sched

def unlink (s : Sched) (x : ℕ) : Sched :=
  let s := match s.prev x with
    | some p => s.setNext p (s.next x)
    | none => s
  match s.next x with
  | some n => s.setPrev n (s.prev x)
  | none => s

/-- Put `t` at the end of the list headed by `head`. On an empty list the links of `t` stay as they are. -/
def addLast (s : Sched) (head : Option ℕ) (t : ℕ) : Option (Option ℕ × Sched) :=
  match head with
  | none => some (some t, s)
  | some h => (last s.next s.count h).map fun cursor =>
    (some h, ((s.setNext cursor (some t)).setPrev t (some cursor)).setNext t none)

def reschedule (t : ℕ) (s : Sched) : Option Sched :=
  if (s.task t).waiting || decide (s.ms < (s.task t).sleepTime) then some s
  else (s.addLast s.available t).map fun r => { r.2 with available := r.1 }

def addWaitingTask (t : ℕ) (s : Sched) : Option Sched :=
  (s.addLast s.waiting t).map fun r => { r.2 with waiting := r.1 }

def addSleepingTask (t : ℕ) (s : Sched) : Option Sched :=
  (s.addLast s.sleeping t).map fun r => { r.2 with sleeping := r.1 }

def awake (s : Sched) (t : ℕ) : Bool := decide ((s.task t).sleepTime ≤ s.ms)

def released (s : Sched) (t : ℕ) : Bool := !(s.task t).waiting

def ready (s : Sched) (t : ℕ) : Bool := (s.task t).runnable && s.awake t && s.released t

def takeSleeping (s : Sched) (x : ℕ) : Sched :=
  { s.unlink x with sleeping := if s.sleeping = some x then (s.unlink x).next x else s.sleeping }

def takeWaiting (s : Sched) (x : ℕ) : Sched :=
  { s.unlink x with waiting := if s.waiting = some x then (s.unlink x).next x else s.waiting }

/-- Taking a task off the available list drops every task before it. -/
def takeAvailable (s : Sched) : Option ℕ → ℕ × Sched
  | some x => (x, { s with available := s.next x })
  | none => (s.idle, { s with available := none })

def getNextTask (s : Sched) : Option (ℕ × Sched) :=
  (search s.next s.awake s.count s.sleeping).bind fun
    | some x => some (x, s.takeSleeping x)
    | none => (search s.next s.released s.count s.waiting).bind fun
      | some x => some (x, s.takeWaiting x)
      | none => (search s.next s.ready s.count s.available).map s.takeAvailable

def enter (next : ℕ) (s : Sched) : Sched :=
  if (s.task next).userp && (s.task next).firstRun then s.modify next fun k => { k with firstRun := false }
  else s

def switchTo (me : Option ℕ) (next : ℕ) (s : Sched) : Option Sched :=
  match me with
  | some m => if (s.task m).sleepTime ≤ s.ms then (s.reschedule m).map (enter next) else some (s.enter next)
  | none => some (s.enter next)

def runNextTask (s : Sched) : Option Sched :=
  s.getNextTask.bind fun r => switchTo s.current r.1 { r.2 with current := some r.1 }

def getNextPid (s : Sched) : BitVec 32 × Sched := (s.pid, { s with pid := s.pid + 1 })

def schedule (t : ℕ) (entry : BitVec 64) (s : Sched) : Option Sched :=
  let s := if (s.task t).userp then s.modify t fun k => { k with entry := entry, firstRun := true } else s
  let s := s.modify t fun k => { k with rax := k.pid.signExtend 64 }
  if (s.task t).runnable then s.reschedule t else some s

def createNewTask (userp : Bool) (name : List UInt8) (s : Sched) : ℕ × Sched :=
  let t := s.count
  let term : Fin 50 → Option FileRef := fun n => if n.val < 3 then some .term else none
  let new : Task := { name := name, startMs := s.ms, runnable := true, fdarr := term, userp := userp }
  let (pid, s) := getNextPid { s with task := Function.update s.task t new, count := t + 1 }
  (t, s.modify t fun k => { k with pid := pid })

/-- `fork_process` on the task struct: every field not reset here is the parent's. -/
def forkProcess (parent : ℕ) (s : Sched) : ℕ × Sched :=
  let child := s.count
  let s := { s with task := Function.update s.task child (s.task parent), count := child + 1 }
  let s := s.modify child fun k => { k with runnable := true }
  let s := s.modify parent fun k => { k with numChildren := (k.numChildren + 1) % 2 ^ 64 }
  let s := s.modify child fun k => { k with parent := some parent }
  let (pid, s) := s.getNextPid
  (child, s.modify child fun k => { k with pid := pid })

def idleTask : Task where
  name := "idle_task".toUTF8.toList
  fdarr n := if n.val < 3 then some .term else none
  rax := -1

/-- The state in which `start` calls `init_thread`: the idle task exists and is in no list. -/
def boot : Sched where
  task := Function.update (fun _ => {}) 0 idleTask
  count := 1
  current := none
  idle := 0
  available := none
  sleeping := none
  waiting := none
  clock := .boot
  pid := 1

end Sched

end Os506
