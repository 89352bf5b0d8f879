import Os506.Scheduler.Yield

namespace Os506

open Linked

namespace Sched

variable {s s' : Sched} {q q' : Queues} {strict : Prop}

structure Flags (s : Sched) (q : Queues) : Prop where
  idle_lt : s.idle < s.count
  idle_off : (s.task s.idle).runnable = false
  idle_awake : s.awake s.idle = true
  idle_released : s.released s.idle = true
  available : ∀ t ∈ q.available, s.awake t = true ∧ s.released t = true
  sleeping : ∀ t ∈ q.sleeping, (s.task t).runnable = true ∧ s.released t = true
  waiting : ∀ t ∈ q.waiting, (s.task t).runnable = true ∧ s.awake t = true

/-- The task `c` has the processor. Only the idle task can be in the available list at the same time. -/
structure Running (strict : Prop) (s : Sched) (q : Queues) (c : ℕ) : Prop where
  bound : c < s.count
  awake : s.awake c = true
  released : s.released c = true
  runnable : c ≠ s.idle → (s.task c).runnable = true
  sleeping : c ∉ q.sleeping
  waiting : c ∉ q.waiting
  available : c ∈ q.available → c = s.idle ∧ ¬ strict

/-- The invariant; in its strict form the lists hold every task that could run and not the running one. -/
structure Inv (strict : Prop) (s : Sched) (q : Queues) : Prop where
  rep : Rep s q
  flags : Flags s q
  current : ∀ c, s.current = some c → Running strict s q c
  complete : strict → ∀ t < s.count, (s.task t).runnable = true → t ≠ s.idle → s.current ≠ some t → t ∈ q.all

theorem Flags.congr (h : Flags s q) (ht : SameTasks s s') : Flags s' q := by
  constructor
  · rw [ht.idle, ht.count]; exact h.idle_lt
  · rw [ht.runnable, ht.idle]; exact h.idle_off
  · rw [ht.awake, ht.idle]; exact h.idle_awake
  · rw [ht.released, ht.idle]; exact h.idle_released
  · rw [ht.awake, ht.released]; exact h.available
  · intro t hm; rw [ht.runnable, ht.released]; exact h.sleeping t hm
  · intro t hm; rw [ht.runnable, ht.awake]; exact h.waiting t hm

theorem Running.congr {c : ℕ} (h : Running strict s q c) (ht : SameTasks s s') : Running strict s' q c := by
  refine ⟨?_, ?_, ?_, ?_, h.sleeping, h.waiting, ?_⟩
  · rw [ht.count]; exact h.bound
  · rw [ht.awake]; exact h.awake
  · rw [ht.released]; exact h.released
  · rw [ht.idle, ht.runnable]; exact h.runnable
  · rw [ht.idle]; exact h.available

theorem Flags.modify {c : ℕ} {f : Task → Task} (h : Flags s q) (hc : c ∉ q.all) (hne : c ≠ s.idle) :
    Flags (s.modify c f) q := by
  simp only [Queues.mem_all, not_or] at hc
  have hother : ∀ t, t ≠ c → (s.modify c f).task t = s.task t := fun t ht => s.modify_task_of_ne f ht
  constructor
  · exact h.idle_lt
  · rw [modify_idle, hother _ hne.symm]; exact h.idle_off
  · rw [modify_idle, awake, hother _ hne.symm]; exact h.idle_awake
  · rw [modify_idle, released, hother _ hne.symm]; exact h.idle_released
  · intro t ht
    rw [awake, released, hother t fun he => hc.1 (he ▸ ht)]; exact h.available t ht
  · intro t ht
    rw [released, hother t fun he => hc.2.1 (he ▸ ht)]; exact h.sleeping t ht
  · intro t ht
    rw [awake, hother t fun he => hc.2.2 (he ▸ ht)]; exact h.waiting t ht

theorem Flags.sleep {c : ℕ} (h : Flags s q) (hrun : (s.task c).runnable = true) (hrel : s.released c = true) :
    Flags s { q with sleeping := q.sleeping ++ [c] } := by
  refine ⟨h.idle_lt, h.idle_off, h.idle_awake, h.idle_released, h.available, fun t ht => ?_, h.waiting⟩
  rcases List.mem_append.mp ht with ht | ht
  · exact h.sleeping t ht
  · rw [List.mem_singleton.mp ht]; exact ⟨hrun, hrel⟩

theorem Flags.wait {c : ℕ} (h : Flags s q) (hrun : (s.task c).runnable = true) (haw : s.awake c = true) :
    Flags s { q with waiting := q.waiting ++ [c] } := by
  refine ⟨h.idle_lt, h.idle_off, h.idle_awake, h.idle_released, h.available, h.sleeping, fun t ht => ?_⟩
  rcases List.mem_append.mp ht with ht | ht
  · exact h.waiting t ht
  · rw [List.mem_singleton.mp ht]; exact ⟨hrun, haw⟩

theorem idle_notMem (h : Flags s q) : s.idle ∉ q.sleeping ∧ s.idle ∉ q.waiting := by
  constructor <;> intro hm
  · have := (h.sleeping _ hm).1; simp [h.idle_off] at this
  · have := (h.waiting _ hm).1; simp [h.idle_off] at this

def Busy (s : Sched) : Prop :=
  (∃ t, On s.next s.sleeping t ∧ s.awake t = true) ∨ (∃ t, On s.next s.waiting t ∧ s.released t = true) ∨
    ∃ t, On s.next s.available t ∧ s.ready t = true

theorem pick_cases (hr : Rep s q) (hf : Flags s q) :
    (s.awake (s.pick q).1 = true ∧ s.released (s.pick q).1 = true ∧ (s.pick q).1 < s.count ∧
      (s.task (s.pick q).1).runnable = true ∧ (s.pick q).1 ∉ (s.pick q).2.all ∧ (s.pick q).1 ∈ q.all) ∨
    ((s.pick q).1 = s.idle ∧ ¬ Busy s ∧ s.idle ∉ (s.pick q).2.all) := by
  obtain ⟨da, ds, dw, dsw, dd⟩ := Rep.disjoint_iff.mp hr.disjoint
  simp only [pick, Queues.pick]
  cases hfs : q.sleeping.find? s.awake with
  | some x =>
    have hx := List.mem_of_find?_eq_some hfs
    refine .inl ⟨List.find?_some hfs, (hf.sleeping x hx).2, hr.bound x (Queues.mem_all.mpr (.inr (.inl hx))),
      (hf.sleeping x hx).1, ?_, Queues.mem_all.mpr (.inr (.inl hx))⟩
    simp only [Queues.mem_all, not_or]
    exact ⟨fun hm => (dd x hm).1 hx, ds.not_mem_erase, dsw x hx⟩
  | none =>
    cases hfw : q.waiting.find? s.released with
    | some x =>
      have hx := List.mem_of_find?_eq_some hfw
      refine .inl ⟨(hf.waiting x hx).2, by simpa using List.find?_some hfw,
        hr.bound x (Queues.mem_all.mpr (.inr (.inr hx))), (hf.waiting x hx).1, ?_,
        Queues.mem_all.mpr (.inr (.inr hx))⟩
      simp only [Queues.mem_all, not_or]
      exact ⟨fun hm => (dd x hm).2 hx, fun hm => dsw x hm hx, dw.not_mem_erase⟩
    | none =>
      cases hfa : q.available.find? s.ready with
      | some x =>
        obtain ⟨hready, l₁, l₂, hq, hl₁⟩ := List.find?_eq_some_iff_append.mp hfa
        have hx := List.mem_of_find?_eq_some hfa
        simp only [ready, Bool.and_eq_true] at hready
        refine .inl ⟨hready.1.2, hready.2, hr.bound x (Queues.mem_all.mpr (.inl hx)), hready.1.1, ?_,
          Queues.mem_all.mpr (.inl hx)⟩
        simp only [Queues.mem_all, not_or, Option.getD_some]
        refine ⟨?_, (dd x hx).1, (dd x hx).2⟩
        rw [hq, List.dropWhile_append_of_pos (by simpa using hl₁)]
        rw [hq, List.nodup_append] at da
        simpa [ready, hready] using (List.nodup_cons.mp da.2.1).1
      | none =>
        have hdrop : (q.available.dropWhile fun t => !s.ready t) = [] :=
          List.dropWhile_eq_nil_iff.mpr (by simpa using List.find?_eq_none.mp hfa)
        refine .inr ⟨rfl, ?_, ?_⟩
        · rintro (⟨t, ht, h⟩ | ⟨t, ht, h⟩ | ⟨t, ht, h⟩)
          · exact List.find?_eq_none.mp hfs t ((on_iff_mem (dchain_chain hr.sleeping)).mp ht) h
          · exact List.find?_eq_none.mp hfw t ((on_iff_mem (dchain_chain hr.waiting)).mp ht) h
          · exact List.find?_eq_none.mp hfa t ((on_iff_mem hr.available).mp ht) h
        · simp [Queues.mem_all, hdrop, idle_notMem hf]

theorem pick_complete (hf : Flags s q) {t : ℕ} (ht : t ∈ q.all) (hrun : (s.task t).runnable = true) :
    t ∈ (s.pick q).2.all ∨ t = (s.pick q).1 := by
  by_cases he : t = (s.pick q).1
  · exact .inr he
  · left
    simp only [pick, Queues.pick, Queues.mem_all] at he ht ⊢
    cases hfs : q.sleeping.find? s.awake with
    | some x =>
      simp only [hfs] at he ⊢
      exact ht.imp_right (Or.imp_left (List.mem_erase_of_ne he).mpr)
    | none =>
      simp only [hfs] at he ⊢
      cases hfw : q.waiting.find? s.released with
      | some x =>
        simp only [hfw] at he ⊢
        exact ht.imp_right (Or.imp_right (List.mem_erase_of_ne he).mpr)
      | none =>
        simp only [hfw] at he ⊢
        refine ht.imp_left fun hm => ?_
        have hready : s.ready t = true := by simp [ready, hrun, hf.available t hm]
        cases hfa : q.available.find? s.ready with
        | none => exact absurd hready (List.find?_eq_none.mp hfa t hm)
        | some x =>
          obtain ⟨hx, l₁, l₂, hq, hl₁⟩ := List.find?_eq_some_iff_append.mp hfa
          rw [hq, List.dropWhile_append_of_pos (by simpa using hl₁)]
          rw [hq, List.mem_append, List.mem_cons] at hm
          simp only [hfa, Option.getD_some] at he
          rcases hm with hm | hm | hm
          · have := hl₁ t hm; simp [hready] at this
          · exact absurd hm he
          · simpa [hx] using hm

end Sched

end Os506
