import Os506.Scheduler.Family

namespace Os506

open Run Sched

namespace Sched

variable {s s' : Sched} {c t : ℕ}

def Awaited (s : Sched) (t : ℕ) (pid : BitVec 32) : Prop :=
  ∃ x, x < s.count ∧ (s.task x).runnable = true ∧ (s.task x).parent = some t ∧ (pid = -1 ∨ pid = (s.task x).pid)

instance (s : Sched) (t : ℕ) (pid : BitVec 32) : Decidable (s.Awaited t pid) :=
  Nat.decidableExistsLT s.count

def WaitersAwaited (s : Sched) : Prop :=
  ∀ t < s.count, (s.task t).waiting = true → s.Awaited t (s.task t).waitPid

/-- A wait that ends between `s` and `s'` gives the pid of a child that has exited and was waited for. -/
def Woken (s s' : Sched) : Prop :=
  ∀ t < s.count, (s.task t).waiting = true → (s'.task t).waiting = false →
    ∃ x, s.ChildOf t x ∧ (s'.task x).runnable = false ∧
      ((s.task t).waitPid = -1 ∨ (s.task t).waitPid = (s.task x).pid) ∧
      (s'.task t).rax = (s.task x).pid.signExtend 64

theorem waitsFor_iff {k : Task} {pid : BitVec 32} (hw : k.waiting = true) :
    k.waitsFor pid = true ↔ k.waitPid = -1 ∨ k.waitPid = pid := by
  simp [Task.waitsFor, hw, or_comm]

theorem waitersAwaited_congr (h : s.WaitersAwaited) (hc : s'.count = s.count)
    (hk : ∀ t, (s'.task t).parent = (s.task t).parent ∧ (s'.task t).pid = (s.task t).pid ∧
      (s'.task t).runnable = (s.task t).runnable ∧ (s'.task t).waiting = (s.task t).waiting ∧
      (s'.task t).waitPid = (s.task t).waitPid) : s'.WaitersAwaited := by
  intro t ht hw
  rw [hc] at ht
  obtain ⟨_, _, _, hw', hp'⟩ := hk t
  rw [hw'] at hw
  obtain ⟨x, hx, hrun, hpar, hmatch⟩ := h t ht hw
  obtain ⟨h₁, h₂, h₃, _, _⟩ := hk x
  refine ⟨x, by rw [hc]; exact hx, by rw [h₃]; exact hrun, by rw [h₁]; exact hpar, ?_⟩
  rw [hp', h₂]
  exact hmatch

theorem waitersAwaited_exit (h : s.WaitersAwaited) : (s.exitCurrent c).WaitersAwaited := by
  intro t ht hwt
  rw [exitCurrent_count] at ht
  rw [exitCurrent_waiting, Bool.and_eq_true, Bool.not_eq_true'] at hwt
  obtain ⟨x, hx, hrun, hpar, hmatch⟩ := h t ht hwt.1
  -- the child that exits is not the one that `t` waits for, or the wait would have ended
  have hne : x ≠ c := by
    intro he
    subst he
    have hno : (s.task t).waitsFor (s.task x).pid = true := (waitsFor_iff hwt.1).mpr hmatch
    simp [hpar, hno] at hwt
  obtain ⟨h₁, h₂, _, _, h₅⟩ := @exitCurrent_kin s c x
  refine ⟨x, by rw [exitCurrent_count]; exact hx, ?_, by rw [h₁]; exact hpar, ?_⟩
  · simp [h₅, hne, hrun]
  · rw [(exitCurrent_kin t).2.2.1, h₂]
    exact hmatch

theorem waitersAwaited_new {k : Task} (h : s.WaitersAwaited) (hk : k.waiting = false) (hg : Grown k s s') :
    s'.WaitersAwaited := by
  intro t ht hw
  have hne : t ≠ s.count := by
    intro he
    rw [he, hg.new, hk] at hw
    cases hw
  have hlt : t < s.count := by have := hg.count; omega
  obtain ⟨n, hn⟩ := hg.old t hlt
  rw [hn] at hw
  obtain ⟨x, hx, hrun, hpar, hmatch⟩ := h t hlt hw
  obtain ⟨m, hm⟩ := hg.old x hx
  refine ⟨x, by rw [hg.count]; omega, by rw [hm]; exact hrun, by rw [hm]; exact hpar, ?_⟩
  rw [hn, hm]
  exact hmatch

theorem waitersAwaited_wait {pid : BitVec 32} (h : s.WaitersAwaited) (hc : c < s.count) :
    (s.waitFor c pid).WaitersAwaited ↔ s.Awaited c pid := by
  have hkin : ∀ x, ((s.waitFor c pid).task x).runnable = (s.task x).runnable ∧
      ((s.waitFor c pid).task x).parent = (s.task x).parent ∧
      ((s.waitFor c pid).task x).pid = (s.task x).pid := by
    intro x
    by_cases hx : x = c
    · subst hx; simp [waitFor]
    · simp [waitFor, hx]
  have hawait : ∀ t p, (s.waitFor c pid).Awaited t p ↔ s.Awaited t p := by
    intro t p
    simp only [Awaited, hkin]
    rfl
  constructor
  · intro hw
    have := hw c hc (by simp [waitFor])
    rw [hawait] at this
    simpa [waitFor] using this
  · intro hw t ht hwt
    rw [hawait]
    by_cases he : t = c
    · subst he; simpa [waitFor] using hw
    · rw [waitFor, modify_task_of_ne _ _ he] at hwt ⊢
      exact h t ht hwt

end Sched

namespace Act

variable {a : Act} {s : Sched}

/-- A task that waits has no child left, or one that the wait can end with. -/
def Prudent (a : Act) (s : Sched) : Prop :=
  match a.op with
  | .wait4 pid => (s.task a.caller).numChildren = 0 ∨ s.Awaited a.caller pid
  | _ => True

theorem waitersAwaited_step (h : s.WaitersAwaited) (he : a.Enabled s) :
    (a.op.effect a.caller s).WaitersAwaited ↔ a.Prudent s := by
  obtain ⟨c, op⟩ := a
  cases op with
  | schedule userp name entry =>
    obtain ⟨k, _, _, hk, _, _, hg, _⟩ := @effect_schedule s c userp name entry
    exact iff_of_true (waitersAwaited_new h hk hg) trivial
  | yield => exact iff_of_true h trivial
  | sleep msec =>
    refine iff_of_true (waitersAwaited_congr h rfl fun t => ?_) trivial
    by_cases ht : t = c
    · subst ht; simp [Op.effect]
    · simp [Op.effect, ht]
  | wait4 pid =>
    obtain ⟨⟨hc, _⟩, _⟩ := he
    simp only [Op.effect, Prudent]
    by_cases hz : (s.task c).numChildren = 0
    · simp only [hz, ↓reduceIte, true_or, iff_true]
      exact h
    · simp only [hz, ↓reduceIte, false_or]
      exact waitersAwaited_wait h hc
  | fork entry =>
    obtain ⟨⟨hc, _⟩, hw⟩ := he
    obtain ⟨k, _, _, _, hk, _, _, hg, _⟩ := effect_fork entry hc
    exact iff_of_true (waitersAwaited_new h (hk.trans hw) hg) trivial
  | exit => exact iff_of_true (waitersAwaited_exit h) trivial
  | tick => exact iff_of_true h trivial

theorem woken_exit {c : ℕ} (hc : c < s.count) : s.Woken (s.exitCurrent c) := by
  intro t _ hw hw'
  rw [exitCurrent_waiting, hw, Bool.true_and, Bool.not_eq_false', Bool.and_eq_true, decide_eq_true_eq] at hw'
  obtain ⟨hpar, hfor⟩ := hw'
  refine ⟨c, ⟨hc, hpar⟩, ?_, (waitsFor_iff hw).mp hfor, ?_⟩
  · simp [(@exitCurrent_kin s c c).2.2.2.2]
  · have hfor' : (s.stopped c t).waitsFor (s.task c).pid = true := hfor
    rw [exitCurrent_task, if_pos hpar, reap, if_pos hfor']

theorem effect_waiting {t : ℕ} (he : a.Enabled s) (hop : a.op ≠ .exit) (ht : t < s.count)
    (hw : (s.task t).waiting = true) : ((a.op.effect a.caller s).task t).waiting = true := by
  obtain ⟨c, op⟩ := a
  cases op with
  | schedule userp name entry =>
    obtain ⟨k, _, _, _, _, _, _, hold⟩ := @effect_schedule s c userp name entry
    rw [hold t ht]
    exact hw
  | yield => exact hw
  | sleep msec =>
    by_cases he : t = c
    · subst he; simpa [Op.effect] using hw
    · simpa [Op.effect, he] using hw
  | wait4 pid =>
    simp only [Op.effect]
    split
    · exact hw
    · by_cases he : t = c
      · subst he; simp [waitFor]
      · simpa [waitFor, he] using hw
  | fork entry =>
    obtain ⟨⟨hc, _⟩, _⟩ := he
    obtain ⟨k, _, _, _, _, _, _, hg, _⟩ := effect_fork entry hc
    obtain ⟨n, hn⟩ := hg.old t ht
    rw [hn]
    exact hw
  | exit => exact absurd rfl hop
  | tick => exact hw

theorem woken_step (he : a.Enabled s) : s.Woken (a.op.effect a.caller s) := by
  by_cases hop : a.op = .exit
  · obtain ⟨c, op⟩ := a
    subst hop
    exact woken_exit he.1.1
  · intro t ht hw hw'
    rw [effect_waiting he hop ht hw] at hw'
    cases hw'

def NamesChild (a : Act) (s : Sched) : Prop :=
  match a.op with
  | .wait4 pid => pid = -1 ∨ ∃ x, x < s.count ∧ (s.task x).parent = some a.caller ∧ (s.task x).pid = pid
  | _ => True

instance (a : Act) (s : Sched) : Decidable (a.NamesChild s) :=
  match a with
  | ⟨_, .wait4 _⟩ => @instDecidableOr _ _ _ (Nat.decidableExistsLT s.count)
  | ⟨_, .schedule ..⟩ | ⟨_, .yield⟩ | ⟨_, .sleep _⟩ | ⟨_, .fork _⟩ | ⟨_, .exit⟩ | ⟨_, .tick⟩ => .isTrue trivial

instance (a : Act) (s : Sched) : Decidable (a.Prudent s) :=
  match a with
  | ⟨c, .wait4 pid⟩ => inferInstanceAs (Decidable ((s.task c).numChildren = 0 ∨ s.Awaited c pid))
  | ⟨_, .schedule ..⟩ | ⟨_, .yield⟩ | ⟨_, .sleep _⟩ | ⟨_, .fork _⟩ | ⟨_, .exit⟩ | ⟨_, .tick⟩ => .isTrue trivial

theorem waitersAwaited_run (as : List Act)
    (h : Meets step (fun a s => a.Enabled s ∧ a.NamesChild s) boot as) :
    Along step (fun s => s.WaitersAwaited ∧ ∀ a : Act, a.Enabled s → s.Woken (a.op.effect a.caller s)) boot as ↔
      Meets step Prudent boot as := by
  refine along_iff_meets (I := fun _ => True) (fun a s _ hp he => ⟨_, rfl, fun _ => trivial, ?_⟩) trivial ⟨?_, ?_⟩ h
  · rw [← waitersAwaited_step hp.1 he.1]
    exact and_iff_left fun b hb => woken_step hb
  · intro t ht hw
    have : t < 1 := ht
    obtain rfl : t = 0 := by omega
    cases hw
  · exact fun b hb => woken_step hb

theorem waitersAwaited_run_two_children :
    Along step (fun s => s.WaitersAwaited ∧ ∀ a : Act, a.Enabled s → s.Woken (a.op.effect a.caller s)) boot
      [⟨0, .schedule true [] 0⟩, ⟨1, .fork 0⟩, ⟨1, .fork 0⟩, ⟨1, .wait4 2⟩, ⟨3, .exit⟩, ⟨2, .exit⟩] := by
  apply (waitersAwaited_run _ _).mpr
  · exact meets_of_check (fun _ _ => of_decide_eq_true) (by decide)
  · exact meets_of_check (fun _ _ => of_decide_eq_true) (by decide)

theorem waitersAwaited_fails_on_exited_child :
    Meets step (fun a s => a.Enabled s ∧ a.NamesChild s) boot
        [⟨0, .schedule true [] 0⟩, ⟨1, .fork 0⟩, ⟨1, .fork 0⟩, ⟨2, .exit⟩, ⟨1, .wait4 2⟩] ∧
      ¬ Along step WaitersAwaited boot
        [⟨0, .schedule true [] 0⟩, ⟨1, .fork 0⟩, ⟨1, .fork 0⟩, ⟨2, .exit⟩, ⟨1, .wait4 2⟩] := by
  refine ⟨meets_of_check (fun _ _ => of_decide_eq_true) (by decide), ?_⟩
  refine not_along_of_exec (b := fun s => decide (1 < s.count ∧ (s.task 1).waiting = true ∧
    ¬ s.Awaited 1 (s.task 1).waitPid)) (fun s hs h => ?_) (by decide)
  obtain ⟨hc, hw, hn⟩ := of_decide_eq_true hs
  exact hn (h 1 hc hw)

end Act

end Os506
