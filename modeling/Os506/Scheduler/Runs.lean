import Os506.Scheduler.Blocking
import Os506.Scheduler.Spawning
import Os506.Lib.Run

namespace Os506

open Linked Run

namespace Op

open Sched

/-- No list that is empty, or that the step empties, gets a task whose old links are still set; a sleep has
a wake-up time in the future; the clock does not wrap. In the strict form the idle task yields only when
there is somebody to run. -/
def Clean (strict : Prop) : Op → Sched → Prop
  | schedule .., _ => True
  | yield, s => (∀ c, s.current = some c → s.Drained → s.next c = none) ∧
      (strict → s.current = some s.idle → s.Busy)
  | sleep msec, s => (0 < msec.toNat ∧ s.ms + msec.toNat < 2 ^ 64) ∧
      ∀ c, s.current = some c → s.sleeping = none → s.next c = none ∧ s.prev c = none
  | wait4 _, s => ∀ c, s.current = some c → (s.task c).numChildren ≠ 0 → s.waiting = none →
      s.next c = none ∧ s.prev c = none
  | fork _, s => ∀ c, s.current = some c → s.available = none → s.next c = none
  | exit, s => ∀ c, s.current = some c → (s.exitCurrent c).Drained → s.next c = none
  | tick, s => s.clock.ms ≤ s.clock.addTick.ms

def quiet (op : Op) (s : Sched) : Bool :=
  match op, s.current with
  | schedule .., _ | yield, none => true
  | yield, some c => (s.next c).isNone && (decide (c ≠ s.idle) || s.available.any s.ready)
  | sleep msec, some c => decide (c ≠ s.idle) && decide (0 < msec.toNat ∧ s.ms + msec.toNat < 2 ^ 64) &&
      (s.next c).isNone && (s.prev c).isNone
  | wait4 _, some c => decide (c ≠ s.idle) && (s.next c).isNone && (s.prev c).isNone
  | fork _, some c | exit, some c => decide (c ≠ s.idle) && (s.next c).isNone
  | tick, _ => decide (s.clock.ms ≤ s.clock.addTick.ms)
  | _, none => false

theorem clean_of_quiet {strict : Prop} {op : Op} {s : Sched} (h : op.quiet s = true) :
    op.Enabled s ∧ op.Clean strict s := by
  cases hc : s.current with
  | none => cases op <;> simp_all [quiet, Enabled, Clean]
  | some c =>
    cases op with
    | yield =>
      simp only [quiet, hc, Bool.and_eq_true, Bool.or_eq_true, decide_eq_true_eq, Option.isNone_iff_eq_none] at h
      refine ⟨trivial, fun m hm _ => ?_, fun _ hi => ?_⟩
      · exact Option.some.inj (hc.symm.trans hm) ▸ h.1
      · have he : c = s.idle := Option.some.inj (hc.symm.trans hi)
        obtain ⟨t, ht, hr⟩ := (Option.any_eq_true _ _).mp (h.2.resolve_left (not_not.mpr he))
        exact .inr (.inr ⟨t, ⟨[], ht⟩, hr⟩)
    | _ => simp_all [quiet, Enabled, Clean]

theorem step_inv {strict : Prop} {op : Op} {s : Sched} {q : Queues} (h : Inv strict s q) (he : op.Enabled s)
    (hc : op.Clean strict s) : ∃ s' q', op.step s = some s' ∧ Inv strict s' q' := by
  cases op with
  | schedule userp name entry =>
    obtain ⟨s', hs', hi⟩ := schedule_inv userp name entry h
    exact ⟨s', _, hs', hi⟩
  | yield =>
    obtain ⟨s', hs', hi⟩ := yield_inv h hc.1 hc.2
    exact ⟨s', _, hs', hi⟩
  | sleep msec =>
    obtain ⟨c, hcur, hne⟩ := he
    exact sleep_inv h hcur hne hc.1.1 hc.1.2 (hc.2 c hcur)
  | wait4 pid =>
    obtain ⟨c, hcur, hne⟩ := he
    exact wait4_inv pid h hcur hne (hc c hcur)
  | fork entry =>
    obtain ⟨c, hcur, _⟩ := he
    exact fork_inv entry h hcur (hc c hcur)
  | exit =>
    obtain ⟨c, hcur, hne⟩ := he
    exact exit_inv h hcur hne (hc c hcur)
  | tick => exact ⟨_, q, rfl, tick_inv h hc⟩

end Op

namespace Sched

theorem boot_inv (strict : Prop) : Inv strict boot ⟨[], [], []⟩ := by
  refine ⟨⟨rfl, ⟨none, rfl, rfl⟩, ⟨none, rfl, rfl⟩, List.nodup_nil, by simp [Queues.all]⟩, ?_, ?_, ?_⟩
  · constructor <;> simp [boot, idleTask, awake, released, ms, Ktime.boot]
  · intro c hc
    cases hc
  · intro _ t ht _ hne
    have : t < 1 := ht
    exact absurd (Nat.lt_one_iff.mp this) hne

/-- Three lists without a cycle, no task twice, the running task in none of them and every other task
that could run in one. -/
def ListsSound (s : Sched) : Prop :=
  ∃ q : Queues, Chain s.next s.available q.available ∧ Chain s.next s.sleeping q.sleeping ∧
    Chain s.next s.waiting q.waiting ∧ q.all.Nodup ∧ (∀ c, s.current = some c → c ∉ q.all) ∧
    ∀ t < s.count, (s.task t).runnable = true → t ≠ s.idle → s.current ≠ some t → t ∈ q.all

theorem Inv.listsSound {s : Sched} {q : Queues} (h : Inv True s q) : ListsSound s := by
  refine ⟨q, h.rep.available, dchain_chain h.rep.sleeping, dchain_chain h.rep.waiting, h.rep.disjoint, ?_,
    h.complete trivial⟩
  intro c hc hm
  have hr := h.current c hc
  rcases Queues.mem_all.mp hm with hm | hm | hm
  · exact (hr.available hm).2 trivial
  · exact hr.sleeping hm
  · exact hr.waiting hm

theorem inv_run {strict : Prop} {ops : List Op}
    (h : Meets Op.step (fun op s => op.Enabled s ∧ op.Clean strict s) boot ops) :
    Along Op.step (fun s => ∃ q, Inv strict s q) boot ops ∧ ∃ s, exec Op.step ops boot = some s := by
  have hstep : ∀ (op : Op) (s : Sched), (∃ q, Inv strict s q) → op.Enabled s ∧ op.Clean strict s →
      ∃ t, op.step s = some t ∧ ∃ q, Inv strict t q := by
    rintro op s ⟨q, hi⟩ ⟨he, hc⟩
    obtain ⟨s', q', hs', hi'⟩ := Op.step_inv hi he hc
    exact ⟨s', hs', q', hi'⟩
  refine ⟨along_of_step (fun op s t hi hc ht => ?_) ⟨_, boot_inv strict⟩ h, exec_of_step hstep ⟨_, boot_inv strict⟩ h⟩
  obtain ⟨t', ht', hi'⟩ := hstep op s hi hc
  exact Option.some.inj (ht'.symm.trans ht) ▸ hi'

theorem listsSound_run (ops : List Op)
    (h : Meets Op.step (fun op s => op.Enabled s ∧ op.Clean True s) boot ops) :
    Along Op.step ListsSound boot ops ∧ ∃ s, exec Op.step ops boot = some s :=
  ⟨along_mono (fun _ ⟨_, hi⟩ => hi.listsSound) (inv_run h).1, (inv_run h).2⟩

theorem listsSound_run_fork_exit_sleep :
    Along Op.step ListsSound boot
      [.schedule true [] 0, .yield, .fork 0, .yield, .exit, .yield, .tick, .yield, .sleep 100] := by
  exact (listsSound_run _ (meets_of_check (fun _ _ => Op.clean_of_quiet) (by decide))).1

theorem listsSound_fails_after_two_yields :
    Meets Op.step Op.Enabled boot [.schedule true [] 0, .schedule true [] 0, .yield, .yield] ∧
      ¬ Along Op.step ListsSound boot [.schedule true [] 0, .schedule true [] 0, .yield, .yield] := by
  refine ⟨meets_of_check (fun _ _ => of_decide_eq_true) (by decide), ?_⟩
  refine not_along_of_exec (b := fun s => decide (s.current = some 2 ∧ s.available = some 1 ∧
    s.next 1 = some 2)) (fun s hs h => ?_) (by decide)
  obtain ⟨hc, ha, hn⟩ := of_decide_eq_true hs
  obtain ⟨q, hav, _, _, _, hcur, _⟩ := h
  have hmem := (on_iff_mem hav).mp ⟨[1], ha, hn⟩
  exact hcur 2 hc (Queues.mem_all.mpr (.inl hmem))

end Sched

end Os506
