import Os506.Scheduler.Queues

namespace Os506

open Linked

namespace Queues

def swap (q : Queues) : Queues := { q with sleeping := q.waiting, waiting := q.sleeping }

end Queues

namespace Sched

variable {s : Sched} {q : Queues}

theorem reschedule_rep (h : Rep s q) {t : ℕ} (ht : t < s.count) (hs : t ∉ q.sleeping) (hw : t ∉ q.waiting)
    (hlink : s.available = none → s.next t = none) (hr : s.released t = true) (ha : s.awake t = true) :
    ∃ s', s.reschedule t = some s' ∧ Rep s' { q with available := Queues.enqueue t q.available } := by
  have hblock : ((s.task t).waiting || decide (s.ms < (s.task t).sleepTime)) = false := by
    simp_all [released, awake]
  obtain ⟨da, ds, dw, dsw, dd⟩ := Rep.disjoint_iff.mp h.disjoint
  have hdisj : (Queues.mk (Queues.enqueue t q.available) q.sleeping q.waiting).all.Nodup := by
    refine Rep.disjoint_iff.mpr ⟨Queues.enqueue_nodup da, ds, dw, dsw, fun x hx => ?_⟩
    rcases Queues.mem_of_mem_enqueue hx with hx | rfl
    · exact dd x hx
    · exact ⟨hs, hw⟩
  have hbound : ∀ x ∈ (Queues.mk (Queues.enqueue t q.available) q.sleeping q.waiting).all, x < s.count := by
    intro x hx
    rcases Queues.mem_all.mp hx with hx | hx
    · rcases Queues.mem_of_mem_enqueue hx with hx | rfl
      · exact h.bound x (Queues.mem_all.mpr (.inl hx))
      · exact ht
    · exact h.bound x (Queues.mem_all.mpr (.inr hx))
  by_cases hne : q.available = []
  · have he : s.available = none := by simpa [hne] using chain_head h.available
    refine ⟨{ s with available := some t }, ?_, ?_⟩
    · rw [reschedule, hblock, he]; rfl
    · refine ⟨?_, h.sleeping, h.waiting, hdisj, hbound⟩
      rw [hne]
      exact ⟨rfl, hlink he⟩
  · obtain ⟨s', hs', happ⟩ := addLast_chain t h.available h.length_available hne
    have hlast := List.getLast_mem hne
    have hkeep : ∀ x, x ∈ q.sleeping ∨ x ∈ q.waiting → s'.next x = s.next x ∧ s'.prev x = s.prev x := by
      intro x hx
      apply happ.of_ne
      · rintro rfl; exact hx.elim (dd _ hlast).1 (dd _ hlast).2
      · rintro rfl; exact hx.elim hs hw
    refine ⟨s', ?_, ?_⟩
    · rw [reschedule, hblock, hs']
      simp only [Bool.false_eq_true, ↓reduceIte, Option.map_some, ← happ.lists.2.1]
    · refine ⟨?_, ?_, ?_, hdisj, by rwa [happ.tasks.count]⟩
      · rw [happ.next, happ.lists.2.1]
        exact chain_append_last t h.available hne
      · rw [happ.lists.2.2.1]
        obtain ⟨p, hd⟩ := h.sleeping
        exact ⟨p, dseg_congr (fun x hx => (hkeep x (.inl hx)).1) (fun x hx => (hkeep x (.inl hx)).2) hd⟩
      · rw [happ.lists.2.2.2]
        obtain ⟨p, hd⟩ := h.waiting
        exact ⟨p, dseg_congr (fun x hx => (hkeep x (.inr hx)).1) (fun x hx => (hkeep x (.inr hx)).2) hd⟩

theorem addLast_dchain {t : ℕ} {h : Option ℕ} {l : List ℕ} (hd : DChain s.next s.prev h l)
    (hn : l.length ≤ s.count) (ht : t ∉ l) (hlink : h = none → s.next t = none ∧ s.prev t = none) :
    ∃ h' s', s.addLast h t = some (h', s') ∧ DChain s'.next s'.prev h' (l ++ [t]) ∧
      (∀ x, x ∉ l → x ≠ t → s'.next x = s.next x ∧ s'.prev x = s.prev x) ∧ s'.available = s.available ∧
      s'.sleeping = s.sleeping ∧ s'.waiting = s.waiting := by
  by_cases hne : l = []
  · subst hne
    have he : h = none := by simpa using chain_head (dchain_chain hd)
    obtain ⟨hln, hlp⟩ := hlink he
    exact ⟨some t, s, he ▸ rfl, dchain_singleton hln hlp, fun _ _ _ => ⟨rfl, rfl⟩, rfl, rfl, rfl⟩
  · obtain ⟨s', hs', happ⟩ := addLast_chain t (dchain_chain hd) hn hne
    refine ⟨h, s', hs', ?_, ?_, happ.lists.2⟩
    · rw [happ.next, happ.prev]
      exact dchain_append_last hd hne ht
    · intro x hx hxt
      exact happ.of_ne (fun he => hx (he ▸ List.getLast_mem hne)) hxt

theorem addSleepingTask_rep (h : Rep s q) {t : ℕ} (ht : t < s.count) (hq : t ∉ q.all)
    (hlink : s.sleeping = none → s.next t = none ∧ s.prev t = none) :
    ∃ s', s.addSleepingTask t = some s' ∧ Rep s' { q with sleeping := q.sleeping ++ [t] } := by
  obtain ⟨da, ds, dw, dsw, dd⟩ := Rep.disjoint_iff.mp h.disjoint
  simp only [Queues.mem_all, not_or] at hq
  obtain ⟨h', s', hs', hd, hkeep, hav, _, hwt⟩ :=
    addLast_dchain h.sleeping h.length_sleeping hq.2.1 hlink
  refine ⟨{ s' with sleeping := h' }, by rw [addSleepingTask, hs']; rfl, ⟨?_, hd, ?_, ?_, ?_⟩⟩
  · have hc : Chain s'.next s.available q.available := seg_congr
      (fun x hx => (hkeep x (fun hm => (dd x hx).1 hm) (fun he => hq.1 (he ▸ hx))).1) h.available
    rw [← hav] at hc
    exact hc
  · obtain ⟨p, hw⟩ := h.waiting
    rw [← hwt] at hw
    exact ⟨p, dseg_congr (fun x hx => (hkeep x (fun hm => dsw x hm hx) (fun he => hq.2.2 (he ▸ hx))).1)
      (fun x hx => (hkeep x (fun hm => dsw x hm hx) (fun he => hq.2.2 (he ▸ hx))).2) hw⟩
  · refine Rep.disjoint_iff.mpr ⟨da, ?_, dw, ?_, ?_⟩
    · simpa [List.nodup_append, ds] using fun x hx (he : x = t) => hq.2.1 (he ▸ hx)
    · intro x hx
      rcases List.mem_append.mp hx with hx | hx
      · exact dsw x hx
      · rw [List.mem_singleton.mp hx]; exact hq.2.2
    · intro x hx
      refine ⟨fun hm => ?_, (dd x hx).2⟩
      rcases List.mem_append.mp hm with hm | hm
      · exact (dd x hx).1 hm
      · exact hq.1 (List.mem_singleton.mp hm ▸ hx)
  · intro x hx
    change x < s'.count
    rw [(addLast_frame hs').1.count]
    rcases Queues.mem_all.mp hx with hx | hx | hx
    · exact h.bound x (Queues.mem_all.mpr (.inl hx))
    · rcases List.mem_append.mp hx with hx | hx
      · exact h.bound x (Queues.mem_all.mpr (.inr (.inl hx)))
      · rwa [List.mem_singleton.mp hx]
    · exact h.bound x (Queues.mem_all.mpr (.inr (.inr hx)))

/-- Exchange the sleeping and the waiting list: what holds of one of them holds of the other. -/
def swap (s : Sched) : Sched := { s with sleeping := s.waiting, waiting := s.sleeping }

theorem swap_all : q.swap.all.Perm q.all := by
  simp only [Queues.all, Queues.swap]
  exact List.perm_append_comm.append_left _

theorem rep_swap (h : Rep s q) : Rep s.swap q.swap :=
  ⟨h.available, h.waiting, h.sleeping, swap_all.nodup_iff.mpr h.disjoint,
    fun t ht => h.bound t (swap_all.mem_iff.mp ht)⟩

theorem addWaitingTask_swap (s : Sched) (t : ℕ) :
    s.addWaitingTask t = (s.swap.addSleepingTask t).map swap := by
  simp only [addWaitingTask, addSleepingTask, Option.map_map]
  change _ = (s.swap.addLast s.waiting t).map _
  cases hw : s.waiting with
  | none => simp [addLast, swap]
  | some x =>
    simp only [addLast, Option.map_map]
    rfl

theorem addWaitingTask_rep (h : Rep s q) {t : ℕ} (ht : t < s.count) (hq : t ∉ q.all)
    (hlink : s.waiting = none → s.next t = none ∧ s.prev t = none) :
    ∃ s', s.addWaitingTask t = some s' ∧ Rep s' { q with waiting := q.waiting ++ [t] } := by
  obtain ⟨s', hs', hrep⟩ :=
    addSleepingTask_rep (rep_swap h) ht (fun hm => hq (swap_all.mem_iff.mp hm)) hlink
  exact ⟨s'.swap, by rw [addWaitingTask_swap, hs']; rfl, rep_swap hrep⟩

end Sched

end Os506
