import Mathlib.Data.BitVec
import Os506.Scheduler.Effect
import Os506.Scheduler.Runs

namespace Os506

open Run Sched

/-- A scheduler state with a record of the sleeps: for each task whose last blocking call was `sys_sleep`,
the clock at the call and the time asked for. -/
structure Traced where
  sched : Sched
  slept : ℕ → Option (ℕ × ℕ)

namespace Op

/-- The record after the call; a `sys_wait4` that blocks ends it for its caller. -/
def record (op : Op) (s : Sched) (slept : ℕ → Option (ℕ × ℕ)) : ℕ → Option (ℕ × ℕ) :=
  match op, s.current with
  | sleep msec, some c => Function.update slept c (some (s.ms, msec.toNat))
  | wait4 _, some c => if (s.task c).numChildren = 0 then slept else Function.update slept c none
  | _, _ => slept

theorem record_cases {op : Op} {s : Sched} {slept : ℕ → Option (ℕ × ℕ)} {t c m : ℕ}
    (h : op.record s slept t = some (c, m)) :
    (∃ msec, op = sleep msec ∧ s.current = some t ∧ c = s.ms ∧ m = msec.toNat) ∨
      slept t = some (c, m) ∧ ∀ msec, op = sleep msec → s.current ≠ some t := by
  cases hu : s.current with
  | none => exact .inr ⟨by cases op <;> simpa only [record, hu] using h, fun _ _ => nofun⟩
  | some u =>
    cases op with
    | sleep msec =>
      simp only [record, hu] at h
      by_cases he : t = u
      · subst he
        rw [Function.update_self, Option.some.injEq, Prod.mk.injEq] at h
        exact .inl ⟨msec, rfl, rfl, h.1.symm, h.2.symm⟩
      · rw [Function.update_of_ne he] at h
        exact .inr ⟨h, fun _ _ ht => he (Option.some.inj ht).symm⟩
    | wait4 pid =>
      simp only [record, hu] at h
      refine .inr ⟨?_, nofun⟩
      split at h
      · exact h
      · by_cases he : t = u
        · subst he; simp at h
        · rwa [Function.update_of_ne he] at h
    | _ => exact .inr ⟨by simpa only [record, hu] using h, nofun⟩

def tracedStep (op : Op) (x : Traced) : Option Traced :=
  (op.step x.sched).map fun s => ⟨s, op.record x.sched x.slept⟩

theorem effect_sleepTime {c t : ℕ} {op : Op} {s : Sched} (ht : t < s.count) (hc : c < s.count)
    (hn : ∀ msec, op = sleep msec → t ≠ c) : ((op.effect c s).task t).sleepTime = (s.task t).sleepTime := by
  cases op with
  | schedule userp name entry =>
    rw [effect, createNewTask_eq, modify_task_of_ne _ _ ht.ne]
    simp [ht.ne]
  | yield => rfl
  | sleep msec => rw [effect, modify_task_of_ne _ _ (hn msec rfl)]
  | wait4 pid =>
    rw [effect]
    split
    · rfl
    · by_cases he : t = c
      · subst he; simp [waitFor]
      · simp [waitFor, he]
  | fork entry =>
    rw [effect, forkProcess_eq s hc, modify_task_of_ne _ _ ht.ne, modify_task_of_ne _ _ ht.ne]
    by_cases he : t = c
    · subst he; simp [ht.ne]
    · simp [ht.ne, he]
  | exit => exact (exited_exitCurrent s c).sleepTime t
  | tick => rfl

theorem effect_count {c : ℕ} {op : Op} {s : Sched} (hc : c < s.count) : s.count ≤ (op.effect c s).count := by
  cases op with
  | schedule userp name entry => simp [effect, createNewTask_eq]
  | fork entry => simp [effect, forkProcess_eq s hc]
  | wait4 pid => rw [effect]; split <;> exact le_rfl
  | exit => exact (exited_exitCurrent s c).rest.1.ge
  | yield | sleep msec | tick => exact le_rfl

end Op

namespace Traced

def boot : Traced := ⟨Sched.boot, fun _ => none⟩

def Recorded (x : Traced) : Prop :=
  ∀ t c m, x.slept t = some (c, m) → t < x.sched.count ∧ (x.sched.task t).sleepTime = c + m

def DispatchedReady (x : Traced) : Prop :=
  ∀ t, x.sched.current = some t → t ≠ x.sched.idle →
    (x.sched.task t).runnable = true ∧ (x.sched.task t).waiting = false ∧
      ∀ c m, x.slept t = some (c, m) → c + m ≤ x.sched.ms

theorem recorded_step {op : Op} {x y : Traced} {q : Queues} (hi : Inv False x.sched q) (hx : x.Recorded)
    (hc : op.Clean False x.sched) (h : op.tracedStep x = some y) : y.Recorded := by
  obtain ⟨s', hs', rfl⟩ := Option.map_eq_some_iff.mp h
  -- without a running task the effect does not depend on the caller
  obtain ⟨u, hu, hcur⟩ : ∃ u < x.sched.count, ∀ m, x.sched.current = some m → m = u ∧ m < x.sched.count := by
    cases hm : x.sched.current with
    | none => exact ⟨_, hi.flags.idle_lt, nofun⟩
    | some m =>
      have hb := (hi.current m hm).bound
      exact ⟨m, hb, fun n hn => ⟨(Option.some.inj hn).symm, Option.some.inj hn ▸ hb⟩⟩
  have hsame := Op.step_effect hs' hcur
  intro t c m ht
  rcases Op.record_cases ht with ⟨msec, rfl, htc, rfl, rfl⟩ | ⟨hold, hne⟩
  · obtain ⟨rfl, hb⟩ := hcur t htc
    refine ⟨by rw [hsame.count]; exact hb, ?_⟩
    rw [hsame.sleepTime, Op.effect, modify_task_self]
    exact Nat.mod_eq_of_lt hc.1.2
  · obtain ⟨hb, he⟩ := hx t c m hold
    refine ⟨by rw [hsame.count]; exact hb.trans_le (Op.effect_count hu), ?_⟩
    rw [hsame.sleepTime, ← he]
    refine Op.effect_sleepTime hb hu fun msec ho htu => ?_
    subst ho
    obtain ⟨_, hs, _⟩ := Option.bind_eq_some_iff.mp hs'
    obtain ⟨n, hn, _⟩ := Option.bind_eq_some_iff.mp hs
    exact hne msec rfl (by rw [hn, (hcur n hn).1, htu])

theorem dispatchedReady_run (ops : List Op)
    (h : Meets Op.tracedStep (fun op x => op.Enabled x.sched ∧ op.Clean False x.sched) boot ops) :
    Along Op.tracedStep DispatchedReady boot ops := by
  have hinv : Along Op.tracedStep (fun x => x.Recorded ∧ ∃ q, Inv False x.sched q) boot ops := by
    refine along_of_step (fun op x y hx hc hy => ?_) ⟨nofun, _, boot_inv False⟩ h
    obtain ⟨hrec, q, hi⟩ := hx
    refine ⟨recorded_step hi hrec hc.2 hy, ?_⟩
    obtain ⟨s', hs', rfl⟩ := Option.map_eq_some_iff.mp hy
    obtain ⟨s'', q', hs'', hi'⟩ := Op.step_inv hi hc.1 hc.2
    exact ⟨q', Option.some.inj (hs''.symm.trans hs') ▸ hi'⟩
  refine along_mono (fun x ⟨hrec, q, hi⟩ t ht hne => ?_) hinv
  have hrun := hi.current t ht
  refine ⟨hrun.runnable hne, by simpa [released] using hrun.released, fun c m hs => ?_⟩
  rw [← (hrec t c m hs).2]
  exact of_decide_eq_true hrun.awake

theorem dispatchedReady_run_sleep :
    Along Op.tracedStep DispatchedReady boot
      [.schedule true [] 0, .yield, .fork 0, .sleep 100, .tick, .tick, .yield] :=
  dispatchedReady_run _ (meets_of_check (fun _ _ => Op.clean_of_quiet) (by decide))

theorem dispatchedReady_fails_on_wrap :
    Meets Op.tracedStep (fun op x => op.Enabled x.sched) boot
        [.schedule true [] 0, .yield, .tick, .sleep (2 ^ 64 - 1)] ∧
      ¬ Along Op.tracedStep DispatchedReady boot
        [.schedule true [] 0, .yield, .tick, .sleep (2 ^ 64 - 1)] := by
  refine ⟨meets_of_check (fun _ _ => of_decide_eq_true) (by decide +kernel), ?_⟩
  refine not_along_of_exec (b := fun x => decide (x.sched.current = some 1 ∧ 1 ≠ x.sched.idle ∧
    x.slept 1 = some (55, 2 ^ 64 - 1) ∧ x.sched.ms < 55 + (2 ^ 64 - 1))) (fun x hx h => ?_) (by decide +kernel)
  obtain ⟨hc, hi, hs, hlt⟩ := of_decide_eq_true hx
  exact absurd ((h 1 hc hi).2.2 _ _ hs) (Nat.not_le.mpr hlt)

end Traced

end Os506
