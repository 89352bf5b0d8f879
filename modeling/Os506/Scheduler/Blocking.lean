import Os506.Scheduler.Steps

namespace Os506

open Linked

namespace Sched

variable {s s' : Sched} {q : Queues} {strict : Prop} {c : ℕ}

theorem Running.notMem (h : Running strict s q c) (hne : c ≠ s.idle) : c ∉ q.all := by
  simp only [Queues.mem_all, not_or]
  exact ⟨fun hm => hne (h.available hm).1, h.sleeping, h.waiting⟩

theorem yield_inv (h : Inv strict s q) (hlink : ∀ c, s.current = some c → s.Drained → s.next c = none)
    (hbusy : strict → s.current = some s.idle → s.Busy) :
    ∃ s', s.sysYield = some s' ∧ Inv strict s' (s.after q) := by
  refine runNextTask_inv h.rep h.flags (fun m hm _ _ => ?_) hbusy fun hst t ht hrun hne => ?_
  · have hr := h.current m hm
    exact ⟨⟨hr.bound, hr.sleeping, hr.waiting, hlink m hm⟩, hr.available⟩
  · by_cases hc : s.current = some t
    · exact .inr ⟨hc, (h.current t hc).awake, (h.current t hc).released⟩
    · exact .inl (h.complete hst t ht hrun hne hc)

theorem block_inv (hr : Rep s q) (hf : Flags s q) (hc : s.current = some c) (hne : c ≠ s.idle)
    (hb : ¬ (s.awake c = true ∧ s.released c = true))
    (hall : strict → ∀ t < s.count, (s.task t).runnable = true → t ≠ s.idle → t ∈ q.all) :
    ∃ s', s.sysYield = some s' ∧ Inv strict s' (s.after q) := by
  refine runNextTask_inv hr hf (fun m hm ha hrel => ?_) (fun _ hi => ?_) fun hst t ht hrun hn =>
    .inl (hall hst t ht hrun hn)
  · obtain rfl : c = m := Option.some.inj (hc.symm.trans hm)
    exact absurd ⟨ha, hrel⟩ hb
  · exact absurd (Option.some.inj (hc.symm.trans hi)) hne

theorem sleep_inv {msec : BitVec 64} (h : Inv strict s q) (hc : s.current = some c) (hne : c ≠ s.idle)
    (hpos : 0 < msec.toNat) (hlt : s.ms + msec.toNat < 2 ^ 64)
    (hlink : s.sleeping = none → s.next c = none ∧ s.prev c = none) :
    ∃ s' q', (s.sysSleep msec).bind sysYield = some s' ∧ Inv strict s' q' := by
  have hrun := h.current c hc
  have hnot := hrun.notMem hne
  obtain ⟨s₀, hs₀⟩ : ∃ s₀, s₀ = s.modify c fun k => { k with sleepTime := (s.ms + msec.toNat) % 2 ^ 64 } :=
    ⟨_, rfl⟩
  have hself : s₀.task c = { s.task c with sleepTime := s.ms + msec.toNat } := by
    rw [hs₀, modify_task_self, Nat.mod_eq_of_lt hlt]
  have hr₀ : Rep s₀ q := hs₀ ▸ h.rep.modify c (fun _ => rfl) fun _ => rfl
  have hf₀ : Flags s₀ { q with sleeping := q.sleeping ++ [c] } := by
    have hf : Flags s₀ q := hs₀ ▸ h.flags.modify hnot hne
    refine hf.sleep ?_ ?_
    · rw [hself]; exact hrun.runnable hne
    · rw [released, hself]; exact hrun.released
  have hlink₀ : s₀.sleeping = none → s₀.next c = none ∧ s₀.prev c = none := by
    rw [next, prev, hself, hs₀]; exact hlink
  obtain ⟨s₁, hs₁, hr₁⟩ := addSleepingTask_rep hr₀ (hs₀ ▸ hrun.bound) hnot hlink₀
  obtain ⟨ht₁, hc₁⟩ := addSleepingTask_frame hs₁
  have hsleeps : s₁.awake c = false := by
    have hms : s₀.ms = s.ms := by rw [hs₀, modify_ms]
    rw [ht₁.awake, awake, hself, hms, decide_eq_false_iff_not]
    change ¬ s.ms + msec.toNat ≤ s.ms
    omega
  have hcur : s₁.current = some c := by rw [hc₁, hs₀]; exact hc
  have hidle : s₁.idle = s.idle := by rw [ht₁.idle, hs₀, modify_idle]
  have hall : strict → ∀ t < s₁.count, (s₁.task t).runnable = true → t ≠ s₁.idle →
      t ∈ Queues.all { q with sleeping := q.sleeping ++ [c] } := by
    intro hst t ht htr hti
    rw [ht₁.count, hs₀] at ht
    rw [hidle] at hti
    simp only [Queues.mem_all, List.mem_append, List.mem_singleton]
    by_cases he : t = c
    · exact .inr (.inl (.inr he))
    · rw [ht₁.runnable, hs₀, modify_task_of_ne _ _ he] at htr
      have := h.complete hst t ht htr hti (by rw [hc]; simpa using Ne.symm he)
      exact (Queues.mem_all.mp this).imp_right (Or.imp_left .inl)
  obtain ⟨s', hs', hi⟩ := block_inv hr₁ (hf₀.congr ht₁) hcur (hidle ▸ hne) (by simp [hsleeps]) hall
  refine ⟨s', _, ?_, hi⟩
  rw [sysSleep, hc, Option.bind_some, ← hs₀, hs₁, Option.bind_some, hs']

theorem wait4_inv (pid : BitVec 32) (h : Inv strict s q) (hc : s.current = some c) (hne : c ≠ s.idle)
    (hlink : (s.task c).numChildren ≠ 0 → s.waiting = none → s.next c = none ∧ s.prev c = none) :
    ∃ s' q', (s.sysWait4 pid).map Prod.snd = some s' ∧ Inv strict s' q' := by
  rw [sysWait4, hc, Option.bind_some]
  by_cases hz : (s.task c).numChildren = 0
  · exact ⟨s, q, by simp [hz], h⟩
  · have hrun := h.current c hc
    have hnot := hrun.notMem hne
    obtain ⟨s₁, hs₁, hr₁⟩ := addWaitingTask_rep h.rep hrun.bound hnot (hlink hz)
    obtain ⟨ht₁, hc₁⟩ := addWaitingTask_frame hs₁
    obtain ⟨s₂, hs₂⟩ : ∃ s₂, s₂ = s₁.waitFor c pid := ⟨_, rfl⟩
    have hself : s₂.task c = { s₁.task c with waiting := true, waitPid := pid } := by
      rw [hs₂, waitFor, modify_task_self]
    have hr₂ : Rep s₂ { q with waiting := q.waiting ++ [c] } :=
      hs₂ ▸ hr₁.modify c (fun _ => rfl) fun _ => rfl
    have hf₂ : Flags s₂ { q with waiting := q.waiting ++ [c] } := by
      have hf : Flags s₂ q := hs₂ ▸ (h.flags.congr ht₁).modify hnot (ht₁.idle ▸ hne)
      refine hf.wait ?_ ?_
      · rw [hself]; exact (ht₁.runnable c).trans (hrun.runnable hne)
      · have hms : s₂.ms = s₁.ms := by rw [hs₂, waitFor, modify_ms]
        rw [awake, hself, hms, ← awake, ht₁.awake]; exact hrun.awake
    have hwaits : s₂.released c = false := by rw [released, hself]; rfl
    have hcur : s₂.current = some c := by rw [hs₂, waitFor, modify_current, hc₁]; exact hc
    have hidle : s₂.idle = s.idle := by rw [hs₂, waitFor, modify_idle, ht₁.idle]
    have hall : strict → ∀ t < s₂.count, (s₂.task t).runnable = true → t ≠ s₂.idle →
        t ∈ Queues.all { q with waiting := q.waiting ++ [c] } := by
      intro hst t ht htr hti
      rw [hs₂, waitFor, modify_count, ht₁.count] at ht
      rw [hidle] at hti
      simp only [Queues.mem_all, List.mem_append, List.mem_singleton]
      by_cases he : t = c
      · exact .inr (.inr (.inr he))
      · rw [hs₂, waitFor, modify_task_of_ne _ _ he, ht₁.runnable] at htr
        have := h.complete hst t ht htr hti (by rw [hc]; simpa using Ne.symm he)
        exact (Queues.mem_all.mp this).imp_right (Or.imp_right .inl)
    obtain ⟨s', hs', hi⟩ := block_inv hr₂ hf₂ hcur (hidle ▸ hne) (by simp [hwaits]) hall
    refine ⟨s', _, ?_, hi⟩
    rw [if_neg hz, hs₁, Option.bind_some, ← hs₂, hs']
    rfl

structure Exited (c : ℕ) (s s' : Sched) : Prop where
  runnable : ∀ t, (s'.task t).runnable = (decide (t ≠ c) && (s.task t).runnable)
  released : ∀ t, s.released t = true → s'.released t = true
  sleepTime : ∀ t, (s'.task t).sleepTime = (s.task t).sleepTime
  next : s'.next = s.next
  prev : s'.prev = s.prev
  rest : s'.count = s.count ∧ s'.current = s.current ∧ s'.idle = s.idle ∧ s'.clock = s.clock
  lists : s'.available = s.available ∧ s'.sleeping = s.sleeping ∧ s'.waiting = s.waiting

theorem Exited.modify {p : ℕ} {f : Task → Task} (h : Exited c s s') (hr : ∀ k, (f k).runnable = k.runnable)
    (hw : ∀ k, k.waiting = false → (f k).waiting = false) (hs : ∀ k, (f k).sleepTime = k.sleepTime)
    (hn : ∀ k, (f k).next = k.next) (hp : ∀ k, (f k).prev = k.prev) : Exited c s (s'.modify p f) := by
  refine ⟨fun t => ?_, fun t ht => ?_, fun t => ?_, ?_, ?_, h.rest, h.lists⟩
  · by_cases he : t = p
    · subst he; rw [modify_task_self, hr, h.runnable]
    · rw [modify_task_of_ne _ _ he, h.runnable]
  · have ht' := h.released t ht
    by_cases he : t = p
    · subst he
      simp only [Sched.released, modify_task_self, Bool.not_eq_true'] at ht' ⊢
      exact hw _ ht'
    · rwa [Sched.released, modify_task_of_ne _ _ he]
  · by_cases he : t = p
    · subst he; rw [modify_task_self, hs, h.sleepTime]
    · rw [modify_task_of_ne _ _ he, h.sleepTime]
  · rw [modify_next _ _ hn, h.next]
  · rw [modify_prev _ _ hp, h.prev]

theorem exited_exitCurrent (s : Sched) (c : ℕ) : Exited c s (s.exitCurrent c) := by
  have h₀ : Exited c s (s.modify c fun k => { k with runnable := false }) := by
    refine ⟨fun t => ?_, fun t ht => ?_, fun t => ?_, modify_next _ _ fun _ => rfl, modify_prev _ _ fun _ => rfl,
      ⟨rfl, rfl, rfl, rfl⟩, ⟨rfl, rfl, rfl⟩⟩ <;> by_cases he : t = c
    · subst he; simp
    · simp [he]
    · subst he; simpa [released] using ht
    · simpa [released, he] using ht
    · subst he; simp
    · simp [he]
  unfold exitCurrent
  dsimp only
  split
  · exact h₀
  · refine Exited.modify ?_ (fun _ => rfl) (fun _ => id) (fun _ => rfl) (fun _ => rfl) fun _ => rfl
    split
    · exact h₀.modify (fun _ => rfl) (fun _ _ => rfl) (fun _ => rfl) (fun _ => rfl) fun _ => rfl
    · exact h₀

theorem Exited.awake (h : Exited c s s') : s'.awake = s.awake := by
  have hms : s'.ms = s.ms := congrArg Ktime.ms h.rest.2.2.2
  funext t
  simp only [Sched.awake, h.sleepTime, hms]

theorem Exited.flags (he : Exited c s s') (h : Flags s q) (hnot : c ∉ q.all) : Flags s' q := by
  simp only [Queues.mem_all, not_or] at hnot
  obtain ⟨hcount, _, hidle, _⟩ := he.rest
  constructor
  · rw [hidle, hcount]; exact h.idle_lt
  · rw [he.runnable, hidle, h.idle_off, Bool.and_false]
  · rw [he.awake, hidle]; exact h.idle_awake
  · rw [hidle]; exact he.released _ h.idle_released
  · intro t ht
    rw [he.awake]
    exact ⟨(h.available t ht).1, he.released t (h.available t ht).2⟩
  · intro t ht
    have hn : t ≠ c := fun hh => hnot.2.1 (hh ▸ ht)
    rw [he.runnable]
    exact ⟨by simp [hn, h.sleeping t ht], he.released t (h.sleeping t ht).2⟩
  · intro t ht
    have hn : t ≠ c := fun hh => hnot.2.2 (hh ▸ ht)
    rw [he.runnable, he.awake]
    exact ⟨by simp [hn, h.waiting t ht], (h.waiting t ht).2⟩

theorem exit_inv (h : Inv strict s q) (hc : s.current = some c) (hne : c ≠ s.idle)
    (hlink : (s.exitCurrent c).Drained → s.next c = none) :
    ∃ s' q', s.sysExit = some s' ∧ Inv strict s' q' := by
  have hrun := h.current c hc
  have hnot := hrun.notMem hne
  have he := exited_exitCurrent s c
  obtain ⟨hcount, hcurrent, hidle, _⟩ := he.rest
  have hr₁ : Rep (s.exitCurrent c) q :=
    h.rep.congr (fun t _ => by rw [he.next]) (fun t _ => by rw [he.prev]) hcount.ge he.lists
  have hm : ∀ m, (s.exitCurrent c).current = some m → (s.exitCurrent c).awake m = true →
      (s.exitCurrent c).released m = true →
      Leaves (s.exitCurrent c) q m ∧ (m ∈ q.available → m = (s.exitCurrent c).idle ∧ ¬ strict) := by
    intro m hm _ _
    obtain rfl : c = m := Option.some.inj (hc.symm.trans (hcurrent.symm.trans hm))
    refine ⟨⟨hcount.symm ▸ hrun.bound, hrun.sleeping, hrun.waiting, ?_⟩, hidle.symm ▸ hrun.available⟩
    rw [he.next]; exact hlink
  have hall : strict → ∀ t < (s.exitCurrent c).count, ((s.exitCurrent c).task t).runnable = true →
      t ≠ (s.exitCurrent c).idle → t ∈ q.all := by
    intro hst t ht htr hti
    rw [he.runnable, Bool.and_eq_true, decide_eq_true_eq] at htr
    refine h.complete hst t (hcount ▸ ht) htr.2 (hidle ▸ hti) ?_
    rw [hc]; simpa using Ne.symm htr.1
  obtain ⟨s', hs', hi⟩ := runNextTask_inv hr₁ (he.flags h.flags hnot) hm
    (fun _ hh => absurd (Option.some.inj (hc.symm.trans (hcurrent.symm.trans hh))) (hidle ▸ hne))
    fun hst t ht htr hti => .inl (hall hst t ht htr hti)
  refine ⟨s', _, ?_, hi⟩
  rw [sysExit, hc, Option.bind_some, sysYield, hs']

end Sched

end Os506
