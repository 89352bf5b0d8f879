import Os506.Scheduler.Family
import Mathlib.Data.Finset.Card

namespace Os506

open Run Sched

namespace Sched

variable {s s' : Sched} {c t : ℕ}

def liveChildren (s : Sched) (t : ℕ) : Finset ℕ :=
  (Finset.range s.count).filter fun x => (s.task x).runnable = true ∧ (s.task x).parent = some t

theorem mem_liveChildren {x : ℕ} :
    x ∈ s.liveChildren t ↔ x < s.count ∧ (s.task x).runnable = true ∧ (s.task x).parent = some t := by
  rw [liveChildren, Finset.mem_filter, Finset.mem_range]

def Counted (s : Sched) : Prop :=
  ∀ t < s.count, (s.task t).numChildren = (s.liveChildren t).card ∧ (s.liveChildren t).card ≤ 1

theorem liveChildren_congr (hc : s'.count = s.count) (hk : ∀ t, (s'.task t).runnable = (s.task t).runnable ∧
    (s'.task t).parent = (s.task t).parent) : s'.liveChildren t = s.liveChildren t := by
  ext x
  rw [mem_liveChildren, mem_liveChildren, hc, (hk x).1, (hk x).2]

theorem liveChildren_exit : (s.exitCurrent c).liveChildren t = (s.liveChildren t).erase c := by
  ext x
  obtain ⟨hpar, _, _, _, hrun⟩ := @exitCurrent_kin s c x
  rw [Finset.mem_erase, mem_liveChildren, mem_liveChildren, exitCurrent_count, hpar, hrun, Bool.and_eq_true,
    decide_eq_true_eq]
  tauto

theorem counted_exit (h : s.Counted) (hlive : s.Live c) : (s.exitCurrent c).Counted := by
  intro t ht
  rw [exitCurrent_count] at ht
  rw [exitCurrent_numChildren, liveChildren_exit]
  obtain ⟨hn, hle⟩ := h t ht
  split
  · rename_i hp
    have hmem : c ∈ s.liveChildren t := mem_liveChildren.mpr ⟨hlive.1, hlive.2, hp⟩
    have hpos := Finset.card_pos.mpr ⟨c, hmem⟩
    rw [Finset.card_erase_of_mem hmem, hn]
    omega
  · rename_i hp
    rw [Finset.erase_eq_of_notMem]
    · exact ⟨hn, hle⟩
    · exact fun hm => hp (mem_liveChildren.mp hm).2.2

theorem counted_congr (h : s.Counted) (hc : s'.count = s.count) (hk : ∀ t, (s'.task t).runnable = (s.task t).runnable ∧
    (s'.task t).parent = (s.task t).parent ∧ (s'.task t).numChildren = (s.task t).numChildren) : s'.Counted := by
  intro t ht
  rw [hc] at ht
  rw [liveChildren_congr hc fun t => ⟨(hk t).1, (hk t).2.1⟩, (hk t).2.2]
  exact h t ht

theorem liveChildren_new {k : Task} (hg : Grown k s s') (hrun : k.runnable = true) :
    s'.liveChildren t = if k.parent = some t then insert s.count (s.liveChildren t) else s.liveChildren t := by
  ext x
  have hx : x ∈ s'.liveChildren t ↔ x ∈ s.liveChildren t ∨ x = s.count ∧ k.parent = some t := by
    rw [mem_liveChildren, mem_liveChildren, hg.count]
    by_cases he : x = s.count
    · subst he
      rw [hg.new]
      simp [hrun]
    · by_cases hlt : x < s.count
      · obtain ⟨n, hn⟩ := hg.old x hlt
        rw [hn]
        simp [he, hlt, Nat.lt_succ_of_lt hlt]
      · simp only [he, hlt, false_and, or_false, iff_false, not_and]
        omega
  rw [hx]
  split
  · rename_i hp; simp [hp, or_comm]
  · rename_i hp; simp [hp]

theorem liveChildren_count (hr : s.Rooted) : s.liveChildren s.count = ∅ := by
  rw [Finset.eq_empty_iff_forall_notMem]
  intro x hx
  obtain ⟨hlt, _, hp⟩ := mem_liveChildren.mp hx
  have := hr x hlt _ hp
  omega

theorem rooted_new {k : Task} (hr : s.Rooted) (hg : Grown k s s') (hk : ∀ p, k.parent = some p → p < s.count) :
    s'.Rooted := by
  intro x hx p hp
  rw [hg.count] at hx
  by_cases hn : x = s.count
  · rw [hn, hg.new] at hp
    rw [hn]
    exact hk p hp
  · have hlt : x < s.count := by omega
    obtain ⟨n, he⟩ := hg.old x hlt
    rw [he] at hp
    exact hr x hlt p hp

end Sched

namespace Act

variable {a : Act} {s : Sched}

theorem rooted_step (hr : s.Rooted) (he : a.Enabled s) : (a.op.effect a.caller s).Rooted := by
  obtain ⟨c, op⟩ := a
  cases op with
  | schedule userp name entry =>
    obtain ⟨k, hk, _, _, _, _, hg, _⟩ := @effect_schedule s c userp name entry
    exact rooted_new hr hg fun p hp => by rw [hk] at hp; cases hp
  | yield => exact hr
  | sleep msec =>
    intro x hx p hp
    by_cases hn : x = c
    · subst hn; exact hr x hx p (by simpa [Op.effect] using hp)
    · exact hr x hx p (by simpa [Op.effect, hn] using hp)
  | wait4 pid =>
    simp only [Op.effect]
    split
    · exact hr
    · intro x hx p hp
      by_cases hn : x = c
      · subst hn; exact hr x hx p (by simpa [waitFor] using hp)
      · exact hr x hx p (by simpa [waitFor, hn] using hp)
  | fork entry =>
    obtain ⟨⟨hc, _⟩, _⟩ := he
    obtain ⟨k, hk, _, _, _, _, _, hg, _⟩ := effect_fork entry hc
    refine rooted_new hr hg fun p hp => ?_
    rw [hk] at hp
    exact Option.some.inj hp ▸ hc
  | exit =>
    intro x hx p hp
    rw [Op.effect, exitCurrent_count] at hx
    rw [Op.effect, (exitCurrent_kin x).1] at hp
    exact hr x hx p hp
  | tick => exact hr

def Childless (a : Act) (s : Sched) : Prop :=
  match a.op with
  | .fork _ => (s.task a.caller).numChildren = 0
  | _ => True

theorem counted_step (hr : s.Rooted) (h : s.Counted) (he : a.Enabled s) (hc : a.Childless s) :
    (a.op.effect a.caller s).Counted := by
  obtain ⟨c, op⟩ := a
  cases op with
  | schedule userp name entry =>
    obtain ⟨k, hk, hrun, _, hz, _, hg, hold⟩ := @effect_schedule s c userp name entry
    intro t ht
    rw [hg.count] at ht
    rw [liveChildren_new hg hrun, hk, if_neg (by simp)]
    by_cases hn : t = s.count
    · rw [hn, hg.new, hz, liveChildren_count hr]
      simp
    · rw [hold t (by omega)]
      exact h t (by omega)
  | yield => exact h
  | sleep msec =>
    refine counted_congr h rfl fun t => ?_
    by_cases ht : t = c
    · subst ht; simp [Op.effect]
    · simp [Op.effect, ht]
  | wait4 pid =>
    simp only [Op.effect]
    split
    · exact h
    · refine counted_congr h rfl fun t => ?_
      by_cases ht : t = c
      · subst ht; simp [waitFor]
      · simp [waitFor, ht]
  | fork entry =>
    obtain ⟨⟨hlt, _⟩, _⟩ := he
    obtain ⟨k, hk, _, hrun, _, hz, _, hg, hold⟩ := effect_fork entry hlt
    change (s.task c).numChildren = 0 at hc
    intro t ht
    rw [hg.count] at ht
    rw [liveChildren_new hg hrun, hk]
    by_cases hn : t = s.count
    · rw [hn, hg.new, hz, hc, if_neg (by simpa using hlt.ne), liveChildren_count hr]
      simp
    · obtain ⟨hcount, hle⟩ := h t (by omega)
      rw [hold t (by omega)]
      by_cases hp : t = c
      · -- the forking task had no live child, so the new one is the only one
        subst hp
        rw [hc] at hcount
        have hnot : s.count ∉ s.liveChildren t := fun hm => by
          have := (mem_liveChildren.mp hm).1
          omega
        rw [if_pos rfl, if_pos rfl, Finset.card_insert_of_notMem hnot, ← hcount, hc]
        decide
      · rw [if_neg hp, if_neg fun hh => hp (Option.some.inj hh).symm]
        exact ⟨hcount, hle⟩
  | exit => exact counted_exit h he.1
  | tick => exact h

end Act

namespace Sched

variable {s : Sched}

/-- The counters agree with the live children, so `sys_wait4` refuses exactly the tasks without one and no
exit takes a counter below zero. -/
structure ChildCounts (s : Sched) : Prop where
  count : ∀ t, s.Live t → (s.task t).numChildren = (s.liveChildren t).card
  refused : ∀ t, s.Live t → ∀ pid,
    ((sysWait4 pid { s with current := some t }).bind fun r => r.1.ret) = some (-1) ↔ s.liveChildren t = ∅
  positive : ∀ x, s.Live x → ∀ p, (s.task x).parent = some p → (s.task p).numChildren ≠ 0

theorem sysWait4_refuses {t : ℕ} (pid : BitVec 32) :
    ((sysWait4 pid { s with current := some t }).bind fun r => r.1.ret) = some (-1) ↔
      (s.task t).numChildren = 0 := by
  rw [sysWait4, Option.bind_some]
  by_cases hz : (s.task t).numChildren = 0
  · rw [if_pos hz]
    exact iff_of_true rfl hz
  · rw [if_neg hz]
    refine iff_of_false (fun h => ?_) hz
    obtain ⟨r, hr, hret⟩ := Option.bind_eq_some_iff.mp h
    obtain ⟨s₁, _, hr⟩ := Option.bind_eq_some_iff.mp hr
    obtain ⟨s₂, _, rfl⟩ := Option.map_eq_some_iff.mp hr
    cases hret

theorem Counted.childCounts (hr : s.Rooted) (h : s.Counted) : s.ChildCounts := by
  have hcount : ∀ t, s.Live t → (s.task t).numChildren = (s.liveChildren t).card := fun t ht => (h t ht.1).1
  refine ⟨hcount, fun t ht pid => ?_, fun x hx p hp => ?_⟩
  · rw [sysWait4_refuses, hcount t ht, Finset.card_eq_zero]
  · have hlt := hr x hx.1 p hp
    rw [(h p (hlt.trans hx.1)).1]
    exact (Finset.card_pos.mpr ⟨x, mem_liveChildren.mpr ⟨hx.1, hx.2, hp⟩⟩).ne'

end Sched

namespace Act

theorem childless_of_childCounts {a : Act} {s : Sched} (hr : s.Rooted) (he : a.Enabled s)
    (h : (a.op.effect a.caller s).ChildCounts) : a.Childless s := by
  obtain ⟨c, op⟩ := a
  cases op with
  | fork entry =>
    obtain ⟨⟨hlt, _⟩, _⟩ := he
    obtain ⟨k, hk, _, hrun, _, hz, _, hg, _⟩ := effect_fork entry hlt
    -- the child has no children of its own, but the counter it was copied with
    have hchild := h.count s.count ⟨by rw [hg.count]; omega, by rw [hg.new]; exact hrun⟩
    rw [hg.new, hz, liveChildren_new hg hrun, hk, if_neg (by simpa using hlt.ne), liveChildren_count hr] at hchild
    exact hchild
  | _ => trivial

theorem childCounts_run (as : List Act) (h : Meets step Enabled boot as) :
    Along step ChildCounts boot as ↔ Meets step Childless boot as := by
  have hrooted : boot.Rooted := by
    intro x hx p hp
    have : x < 1 := hx
    obtain rfl : x = 0 := by omega
    cases hp
  have hcounted : boot.Counted := by
    intro t ht
    have : t < 1 := ht
    obtain rfl : t = 0 := by omega
    decide
  refine along_iff_meets (I := fun s => s.Rooted ∧ s.Counted) (fun a s hi _ he => ?_) ⟨hrooted, hcounted⟩
    (hcounted.childCounts hrooted) h
  have hr := rooted_step hi.1 he
  have hiff : (a.op.effect a.caller s).ChildCounts ↔ a.Childless s :=
    ⟨childless_of_childCounts hi.1 he, fun hc => (counted_step hi.1 hi.2 he hc).childCounts hr⟩
  exact ⟨_, rfl, fun hp => ⟨hr, counted_step hi.1 hi.2 he (hiff.mp hp)⟩, hiff⟩

instance (a : Act) (s : Sched) : Decidable (a.Childless s) :=
  match a with
  | ⟨c, .fork _⟩ => inferInstanceAs (Decidable ((s.task c).numChildren = 0))
  | ⟨_, .schedule ..⟩ | ⟨_, .yield⟩ | ⟨_, .sleep _⟩ | ⟨_, .wait4 _⟩ | ⟨_, .exit⟩ | ⟨_, .tick⟩ => .isTrue trivial

theorem childCounts_run_in_turn :
    Along step ChildCounts boot
      [⟨0, .schedule true [] 0⟩, ⟨1, .fork 0⟩, ⟨2, .exit⟩, ⟨1, .fork 0⟩, ⟨3, .fork 0⟩, ⟨1, .exit⟩] := by
  apply (childCounts_run _ _).mpr
  · exact meets_of_check (fun _ _ => of_decide_eq_true) (by decide)
  · exact meets_of_check (fun _ _ => of_decide_eq_true) (by decide)

theorem childCounts_fails_on_second_fork :
    Meets step Enabled boot [⟨0, .schedule true [] 0⟩, ⟨1, .fork 0⟩, ⟨1, .fork 0⟩] ∧
      ¬ Along step ChildCounts boot [⟨0, .schedule true [] 0⟩, ⟨1, .fork 0⟩, ⟨1, .fork 0⟩] := by
  refine ⟨meets_of_check (fun _ _ => of_decide_eq_true) (by decide), ?_⟩
  refine not_along_of_exec (b := fun s => decide (s.Live 3 ∧
    (s.task 3).numChildren ≠ (s.liveChildren 3).card)) (fun s hs h => ?_) (by decide)
  obtain ⟨hl, hn⟩ := of_decide_eq_true hs
  exact hn (h.count 3 hl)

end Act

end Os506
