import Os506.Scheduler.Schedule

namespace Os506

def Task.waitsFor (k : Task) (pid : BitVec 32) : Bool := k.waiting && (k.waitPid == pid || k.waitPid == -1)

namespace Sched

def sysYield (s : Sched) : Option Sched := s.runNextTask

def sysSleep (msec : BitVec 64) (s : Sched) : Option Sched :=
  s.current.bind fun c =>
    (s.modify c fun k => { k with sleepTime := (s.ms + msec.toNat) % 2 ^ 64 }).addSleepingTask c

def waitFor (c : ℕ) (pid : BitVec 32) (s : Sched) : Sched :=
  s.modify c fun k => { k with waiting := true, waitPid := pid }

/-- What `sys_wait4` gives back at once: its return value, unless the caller blocks, and the status word. -/
structure WaitAnswer where
  ret : Option (BitVec 64)
  status : BitVec 32

def sysWait4 (pid : BitVec 32) (s : Sched) : Option (WaitAnswer × Sched) :=
  s.current.bind fun c =>
    if (s.task c).numChildren = 0 then some (⟨some (-1), -1⟩, s)
    else (s.addWaitingTask c).bind fun s => (s.waitFor c pid).sysYield.map fun s => (⟨none, 0⟩, s)

def sysFork (entry : BitVec 64) (s : Sched) : Option (BitVec 32 × Sched) :=
  s.current.bind fun c =>
    let (child, s) := s.forkProcess c
    (s.schedule child entry).map fun s =>
      let s := s.modify child fun k => { k with rax := 0, firstRun := false }
      ((s.task child).pid, s)

def exitCurrent (c : ℕ) (s : Sched) : Sched :=
  let s := s.modify c fun k => { k with runnable := false }
  match (s.task c).parent with
  | none => s
  | some p =>
    let pid := (s.task c).pid
    let s := if (s.task p).waitsFor pid
      then s.modify p fun k => { k with waiting := false, rax := pid.signExtend 64 } else s
    s.modify p fun k => { k with numChildren := (k.numChildren + (2 ^ 64 - 1)) % 2 ^ 64 }

def sysExit (s : Sched) : Option Sched := s.current.bind fun c => (s.exitCurrent c).sysYield

end Sched

/-- What a run of the scheduler is made of; a task that sleeps yields in the same step. -/
inductive Op
  | schedule (userp : Bool) (name : List UInt8) (entry : BitVec 64)
  | yield
  | sleep (msec : BitVec 64)
  | wait4 (pid : BitVec 32)
  | fork (entry : BitVec 64)
  | exit
  | tick

namespace Op

open Sched

def step : Op → Sched → Option Sched
  | schedule userp name entry, s =>
    let (t, s) := s.createNewTask userp name
    s.schedule t entry
  | yield, s => s.sysYield
  | sleep msec, s => (s.sysSleep msec).bind sysYield
  | wait4 pid, s => (s.sysWait4 pid).map Prod.snd
  | fork entry, s => (s.sysFork entry).map Prod.snd
  | exit, s => s.sysExit
  | tick, s => some { s with clock := s.clock.addTick }

/-- Only a task calls the kernel, and the idle task does nothing but yield. -/
def Enabled : Op → Sched → Prop
  | sleep _, s | wait4 _, s | fork _, s | exit, s => ∃ c, s.current = some c ∧ c ≠ s.idle
  | schedule .., _ | yield, _ | tick, _ => True

instance (op : Op) (s : Sched) : Decidable (op.Enabled s) :=
  have : Decidable (∃ c, s.current = some c ∧ c ≠ s.idle) :=
    decidable_of_iff (s.current.any fun c => decide (c ≠ s.idle)) (by cases s.current <;> simp)
  match op with
  | sleep _ | wait4 _ | fork _ | exit => this
  | schedule .. | yield | tick => .isTrue trivial

end Op

end Os506
