import Os506.Scheduler.Effect
import Os506.Scheduler.Blocking
import Os506.Lib.Run

namespace Os506

open Run Sched

structure Act where
  caller : ℕ
  op : Op

namespace Sched

def reap (pid : BitVec 32) (k : Task) : Task :=
  let k := if k.waitsFor pid then { k with waiting := false, rax := pid.signExtend 64 } else k
  { k with numChildren := (k.numChildren + (2 ^ 64 - 1)) % 2 ^ 64 }

def Live (s : Sched) (t : ℕ) : Prop := t < s.count ∧ (s.task t).runnable = true

instance (s : Sched) (t : ℕ) : Decidable (s.Live t) := inferInstanceAs (Decidable (_ ∧ _))

def ChildOf (s : Sched) (t x : ℕ) : Prop := x < s.count ∧ (s.task x).parent = some t

def Rooted (s : Sched) : Prop := ∀ x < s.count, ∀ p, (s.task x).parent = some p → p < x

variable {s : Sched} {c t : ℕ}

theorem exitCurrent_none (h : (s.task c).parent = none) :
    s.exitCurrent c = s.modify c fun k => { k with runnable := false } := by
  simp [exitCurrent, h]

theorem modify_reap (s : Sched) (p : ℕ) (pid : BitVec 32) :
    (if (s.task p).waitsFor pid then s.modify p fun k => { k with waiting := false, rax := pid.signExtend 64 } else s).modify p
      (fun k => { k with numChildren := (k.numChildren + (2 ^ 64 - 1)) % 2 ^ 64 }) = s.modify p (reap pid) := by
  cases hw : (s.task p).waitsFor pid <;> simp [modify, reap, hw]

theorem exitCurrent_some {p : ℕ} (h : (s.task c).parent = some p) :
    s.exitCurrent c = (s.modify c fun k => { k with runnable := false }).modify p (reap (s.task c).pid) := by
  simp only [exitCurrent, modify_task_self, h]
  exact modify_reap _ p _

theorem reap_waiting (pid : BitVec 32) (k : Task) : (reap pid k).waiting = (k.waiting && !k.waitsFor pid) := by
  cases h : k.waitsFor pid <;> simp [reap, h]

theorem reap_numChildren (pid : BitVec 32) (k : Task) :
    (reap pid k).numChildren = (k.numChildren + (2 ^ 64 - 1)) % 2 ^ 64 := by
  cases h : k.waitsFor pid <;> simp [reap, h]

theorem reap_kin (pid : BitVec 32) (k : Task) : (reap pid k).parent = k.parent ∧ (reap pid k).pid = k.pid ∧
    (reap pid k).waitPid = k.waitPid ∧ (reap pid k).fdarr = k.fdarr ∧ (reap pid k).runnable = k.runnable := by
  cases h : k.waitsFor pid <;> simp [reap, h]

def stopped (s : Sched) (c t : ℕ) : Task :=
  { s.task t with runnable := decide (t ≠ c) && (s.task t).runnable }

theorem exitCurrent_task (t : ℕ) : (s.exitCurrent c).task t =
    if (s.task c).parent = some t then reap (s.task c).pid (s.stopped c t) else s.stopped c t := by
  have hfirst : (s.modify c fun k => { k with runnable := false }).task t = s.stopped c t := by
    by_cases he : t = c
    · subst he; simp [stopped]
    · simp [stopped, he]
  cases hp : (s.task c).parent with
  | none =>
    rw [exitCurrent_none hp, hfirst]
    simp
  | some p =>
    rw [exitCurrent_some hp]
    by_cases he : t = p
    · subst he; rw [modify_task_self, hfirst, if_pos rfl]
    · rw [modify_task_of_ne _ _ he, hfirst, if_neg fun h => he (Option.some.inj h).symm]

theorem exitCurrent_kin (t : ℕ) : ((s.exitCurrent c).task t).parent = (s.task t).parent ∧
    ((s.exitCurrent c).task t).pid = (s.task t).pid ∧ ((s.exitCurrent c).task t).waitPid = (s.task t).waitPid ∧
    ((s.exitCurrent c).task t).fdarr = (s.task t).fdarr ∧
    ((s.exitCurrent c).task t).runnable = (decide (t ≠ c) && (s.task t).runnable) := by
  rw [exitCurrent_task]
  split
  · exact reap_kin _ _
  · exact ⟨rfl, rfl, rfl, rfl, rfl⟩

theorem exitCurrent_waiting (t : ℕ) : ((s.exitCurrent c).task t).waiting = ((s.task t).waiting &&
    !(decide ((s.task c).parent = some t) && (s.task t).waitsFor (s.task c).pid)) := by
  rw [exitCurrent_task]
  split
  · rename_i hp
    rw [reap_waiting, decide_eq_true hp, Bool.true_and]
    rfl
  · rename_i hp
    rw [decide_eq_false hp, Bool.false_and, Bool.not_false, Bool.and_true]
    rfl

theorem exitCurrent_numChildren (t : ℕ) : ((s.exitCurrent c).task t).numChildren =
    if (s.task c).parent = some t then ((s.task t).numChildren + (2 ^ 64 - 1)) % 2 ^ 64
    else (s.task t).numChildren := by
  rw [exitCurrent_task]
  split
  · exact reap_numChildren _ _
  · rfl

theorem exitCurrent_count : (s.exitCurrent c).count = s.count := (exited_exitCurrent s c).rest.1

structure Grown (k : Task) (s s' : Sched) : Prop where
  count : s'.count = s.count + 1
  new : s'.task s.count = k
  old : ∀ t < s.count, ∃ n, s'.task t = { s.task t with numChildren := n }

theorem effect_fork (entry : BitVec 64) (hc : c < s.count) :
    ∃ k : Task, k.parent = some c ∧ k.pid = s.pid ∧ k.runnable = true ∧ k.waiting = (s.task c).waiting ∧
      k.numChildren = (s.task c).numChildren ∧ k.fdarr = (s.task c).fdarr ∧
      Grown k s ((Op.fork entry).effect c s) ∧
      ∀ t < s.count, (((Op.fork entry).effect c s).task t).numChildren =
        if t = c then ((s.task c).numChildren + 1) % 2 ^ 64 else (s.task t).numChildren := by
  have hk : (launch entry (s.childOf c)).parent = some c ∧ (launch entry (s.childOf c)).pid = s.pid ∧
      (launch entry (s.childOf c)).runnable = true ∧
      (launch entry (s.childOf c)).waiting = (s.task c).waiting ∧
      (launch entry (s.childOf c)).numChildren = (s.task c).numChildren ∧
      (launch entry (s.childOf c)).fdarr = (s.task c).fdarr := by
    unfold launch
    split <;> exact ⟨rfl, rfl, rfl, rfl, rfl, rfl⟩
  obtain ⟨h₁, h₂, h₃, h₄, h₅, h₆⟩ := hk
  have htask : ∀ t < s.count, ((Op.fork entry).effect c s).task t =
      { s.task t with numChildren := if t = c then ((s.task c).numChildren + 1) % 2 ^ 64
        else (s.task t).numChildren } := by
    intro t ht
    rw [Op.effect, forkProcess_eq s hc, modify_task_of_ne _ _ ht.ne, modify_task_of_ne _ _ ht.ne]
    by_cases he : t = c
    · subst he; simp [ht.ne]
    · simp [ht.ne, he]
  refine ⟨{ launch entry (s.childOf c) with rax := 0, firstRun := false }, h₁, h₂, h₃, h₄, h₅, h₆,
    ⟨?_, ?_, fun t ht => ⟨_, htask t ht⟩⟩, fun t ht => by rw [htask t ht]⟩
  · simp [Op.effect, forkProcess_eq s hc]
  · simp [Op.effect, forkProcess_eq s hc]

theorem effect_schedule (userp : Bool) (name : List UInt8) (entry : BitVec 64) :
    ∃ k : Task, k.parent = none ∧ k.runnable = true ∧ k.waiting = false ∧ k.numChildren = 0 ∧
      (∀ n a, k.fdarr n ≠ some (.object a)) ∧ Grown k s ((Op.schedule userp name entry).effect c s) ∧
      ∀ t < s.count, ((Op.schedule userp name entry).effect c s).task t = s.task t := by
  have hk : (launch entry (s.newTask userp name)).parent = none ∧
      (launch entry (s.newTask userp name)).runnable = true ∧
      (launch entry (s.newTask userp name)).waiting = false ∧
      (launch entry (s.newTask userp name)).numChildren = 0 ∧
      (launch entry (s.newTask userp name)).fdarr = (s.newTask userp name).fdarr := by
    unfold launch
    split <;> exact ⟨rfl, rfl, rfl, rfl, rfl⟩
  obtain ⟨h₁, h₂, h₃, h₄, h₅⟩ := hk
  have htask : ∀ t < s.count, ((Op.schedule userp name entry).effect c s).task t = s.task t := by
    intro t ht
    rw [Op.effect, createNewTask_eq, modify_task_of_ne _ _ ht.ne]
    simp [ht.ne]
  refine ⟨launch entry (s.newTask userp name), h₁, h₂, h₃, h₄, fun n a => ?_,
    ⟨?_, ?_, fun t ht => ⟨(s.task t).numChildren, htask t ht⟩⟩, htask⟩
  · rw [h₅, newTask]
    dsimp only
    split <;> simp
  · simp [Op.effect, createNewTask_eq]
  · simp [Op.effect, createNewTask_eq]

end Sched

namespace Act

def step (a : Act) (s : Sched) : Option Sched := some (a.op.effect a.caller s)

def Enabled (a : Act) (s : Sched) : Prop :=
  match a.op with
  | .schedule .. | .yield | .tick => True
  | .sleep _ | .wait4 _ | .fork _ | .exit => s.Live a.caller ∧ (s.task a.caller).waiting = false

instance (a : Act) (s : Sched) : Decidable (a.Enabled s) :=
  have : Decidable (s.Live a.caller ∧ (s.task a.caller).waiting = false) :=
    inferInstance
  match a with
  | ⟨_, .schedule ..⟩ | ⟨_, .yield⟩ | ⟨_, .tick⟩ => .isTrue trivial
  | ⟨_, .sleep _⟩ | ⟨_, .wait4 _⟩ | ⟨_, .fork _⟩ | ⟨_, .exit⟩ => this

end Act

end Os506
