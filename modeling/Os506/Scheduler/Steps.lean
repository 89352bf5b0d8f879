import Os506.Scheduler.Invariant
import Os506.Scheduler.Syscalls

namespace Os506

open Linked

namespace Sched

variable {s s' : Sched} {q q' : Queues} {strict : Prop}

theorem after_blocked {m : ℕ} (hc : s.current = some m) (h : ¬ (s.awake m = true ∧ s.released m = true)) :
    s.after q = (s.pick q).2 := by
  simp only [after, hc, Bool.and_eq_true, h, ↓reduceIte]

theorem after_free {m : ℕ} (hc : s.current = some m) (ha : s.awake m = true) (hr : s.released m = true) :
    s.after q = { (s.pick q).2 with available := Queues.enqueue m (s.pick q).2.available } := by
  simp only [after, hc, ha, hr, Bool.and_self, ↓reduceIte]

theorem after_lists :
    (s.after q).sleeping = (s.pick q).2.sleeping ∧ (s.after q).waiting = (s.pick q).2.waiting := by
  unfold after
  split
  · split <;> exact ⟨rfl, rfl⟩
  · exact ⟨rfl, rfl⟩

theorem mem_after {t : ℕ} (h : t ∈ (s.after q).all) : t ∈ (s.pick q).2.all ∨ s.current = some t := by
  cases hc : s.current with
  | none => exact .inl (by simpa only [after, hc] using h)
  | some m =>
    by_cases hf : s.awake m = true ∧ s.released m = true
    · rw [after_free hc hf.1 hf.2] at h
      simp only [Queues.mem_all] at h ⊢
      rcases h with h | h
      · rcases Queues.mem_of_mem_enqueue h with h | rfl
        · exact .inl (.inl h)
        · exact .inr rfl
      · exact .inl (.inr h)
    · rw [after_blocked hc hf] at h
      exact .inl h

theorem flags_after (hf : Flags s q) : Flags s (s.after q) := by
  refine ⟨hf.idle_lt, hf.idle_off, hf.idle_awake, hf.idle_released, ?_, ?_, ?_⟩
  · intro t ht
    cases hc : s.current with
    | none =>
      simp only [after, hc] at ht
      exact hf.available t (pick_subset.1 t ht)
    | some m =>
      by_cases hm : s.awake m = true ∧ s.released m = true
      · rw [after_free hc hm.1 hm.2] at ht
        rcases Queues.mem_of_mem_enqueue ht with ht | rfl
        · exact hf.available t (pick_subset.1 t ht)
        · exact hm
      · rw [after_blocked hc hm] at ht
        exact hf.available t (pick_subset.1 t ht)
  · intro t ht
    rw [after_lists.1] at ht
    exact hf.sleeping t (pick_subset.2.1 t ht)
  · intro t ht
    rw [after_lists.2] at ht
    exact hf.waiting t (pick_subset.2.2 t ht)

theorem runNextTask_inv (hr : Rep s q) (hf : Flags s q)
    (hm : ∀ m, s.current = some m → s.awake m = true → s.released m = true →
      Leaves s q m ∧ (m ∈ q.available → m = s.idle ∧ ¬ strict))
    (hbusy : strict → s.current = some s.idle → Busy s)
    (hc : strict → ∀ t < s.count, (s.task t).runnable = true → t ≠ s.idle →
      t ∈ q.all ∨ s.current = some t ∧ s.awake t = true ∧ s.released t = true) :
    ∃ s', s.runNextTask = some s' ∧ Inv strict s' (s.after q) := by
  obtain ⟨s', hs', hrep, hcur⟩ := runNextTask_rep hr fun m h₁ h₂ h₃ => (hm m h₁ h₂ h₃).1
  have ht := runNextTask_frame hs'
  refine ⟨s', hs', ⟨hrep, (flags_after hf).congr ht, ?_, ?_⟩⟩
  · intro c hc'
    obtain rfl : (s.pick q).1 = c := Option.some.inj (hcur.symm.trans hc')
    -- a task that is picked and requeued at once can only be the idle task
    have hself : (s.pick q).1 ∉ (s.pick q).2.all → (s.pick q).1 ∈ (s.after q).all →
        (s.pick q).1 ∉ (s.pick q).2.sleeping ∧ (s.pick q).1 ∉ (s.pick q).2.waiting ∧
        (s.pick q).1 = s.idle ∧ ¬ strict := by
      intro hnot hmem
      have hx := (mem_after hmem).resolve_left hnot
      have hfree : s.awake (s.pick q).1 = true ∧ s.released (s.pick q).1 = true := by
        by_contra hb
        rw [after_blocked hx hb] at hmem
        exact hnot hmem
      obtain ⟨hl, hav⟩ := hm _ hx hfree.1 hfree.2
      refine ⟨fun h => hl.sleeping (pick_subset.2.1 _ h), fun h => hl.waiting (pick_subset.2.2 _ h), ?_⟩
      rcases pick_cases hr hf with ⟨_, _, _, _, _, hq⟩ | ⟨hidle, hnb, _⟩
      · rcases Queues.mem_all.mp hq with h | h | h
        · exact hav h
        · exact absurd h hl.sleeping
        · exact absurd h hl.waiting
      · exact ⟨hidle, fun hs => hnb (hbusy hs (by rw [hx, hidle]))⟩
    have hnot : (s.pick q).1 ∉ (s.pick q).2.all := by
      rcases pick_cases hr hf with ⟨_, _, _, _, h, _⟩ | ⟨he, _, h⟩
      · exact h
      · rwa [he]
    simp only [Queues.mem_all, not_or] at hnot hself
    constructor
    · rw [ht.count]
      rcases pick_cases hr hf with h | h
      · exact h.2.2.1
      · rw [h.1]; exact hf.idle_lt
    · rw [ht.awake]
      rcases pick_cases hr hf with h | h
      · exact h.1
      · rw [h.1]; exact hf.idle_awake
    · rw [ht.released]
      rcases pick_cases hr hf with h | h
      · exact h.2.1
      · rw [h.1]; exact hf.idle_released
    · rw [ht.runnable, ht.idle]
      intro hne
      rcases pick_cases hr hf with h | h
      · exact h.2.2.2.1
      · exact absurd h.1 hne
    · rw [after_lists.1]; exact hnot.2.1
    · rw [after_lists.2]; exact hnot.2.2
    · rw [ht.idle]
      intro hmem
      exact (hself hnot (.inl hmem)).2.2
  · intro hst t htc hrun hne hnc
    rw [ht.count] at htc
    rw [ht.runnable] at hrun
    rw [ht.idle] at hne
    have hx : t ≠ (s.pick q).1 := fun he => hnc (by rw [hcur, he])
    have hkeep : t ∈ (s.pick q).2.all → t ∈ (s.after q).all := by
      intro hmem
      cases hcm : s.current with
      | none => simpa only [after, hcm] using hmem
      | some m =>
        by_cases hfree : s.awake m = true ∧ s.released m = true
        · have hnm : m ∉ (s.pick q).2.available := fun h =>
            ((hm m hcm hfree.1 hfree.2).2 (pick_subset.1 m h)).2 hst
          rw [after_free hcm hfree.1 hfree.2, Queues.enqueue_of_notMem hnm]
          simp only [Queues.mem_all, List.mem_append] at hmem ⊢
          exact hmem.imp_left .inl
        · rwa [after_blocked hcm hfree]
    rcases hc hst t htc hrun hne with hmem | ⟨hcm, hfree⟩
    · exact hkeep ((pick_complete hf hmem hrun).resolve_right hx)
    · rw [after_free hcm hfree.1 hfree.2]
      simp [Queues.mem_all, Queues.enqueue]

end Sched

end Os506
