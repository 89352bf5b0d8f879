import Os506.Scheduler.Dispatch

namespace Os506

open Linked

namespace Sched

variable {s : Sched} {q : Queues}

/-- The dispatch that a yield makes in `s` leaves nothing in the available list: nobody woke up, and
no task that is ready has another one behind it. -/
def Drained (s : Sched) : Prop :=
  s.available = none ∨
    (∀ t, On s.next s.sleeping t → s.awake t = false) ∧ (∀ t, On s.next s.waiting t → s.released t = false) ∧
      ∀ t, On s.next s.available t → s.ready t = true → s.next t = none

theorem drained_of_pick (h : Rep s q) (he : (s.pick q).2.available = []) : Drained s := by
  simp only [pick, Queues.pick] at he
  cases hfs : q.sleeping.find? s.awake with
  | some x =>
    simp only [hfs] at he
    exact .inl (by simpa [he] using chain_head h.available)
  | none =>
    cases hfw : q.waiting.find? s.released with
    | some x =>
      simp only [hfs, hfw] at he
      exact .inl (by simpa [he] using chain_head h.available)
    | none =>
      simp only [hfs, hfw] at he
      refine .inr ⟨fun t ht => ?_, fun t ht => ?_, fun t ht hr => ?_⟩
      · simpa using List.find?_eq_none.mp hfs t ((on_iff_mem (dchain_chain h.sleeping)).mp ht)
      · simpa using List.find?_eq_none.mp hfw t ((on_iff_mem (dchain_chain h.waiting)).mp ht)
      · obtain ⟨l₁, l₂, hq⟩ := List.append_of_mem ((on_iff_mem h.available).mp ht)
        have hc := h.available
        rw [hq] at he hc
        obtain ⟨m, _, rfl, hl⟩ := seg_append.mp hc
        -- a ready task survives the drop of the tasks before it, so what follows it is in the tail
        have hl₂ : l₂ = [] := by
          apply List.eq_nil_iff_forall_not_mem.mpr
          intro y hy
          have hm : y ∈ ((l₁ ++ t :: l₂).dropWhile fun t => !s.ready t).tail := by
            rw [List.dropWhile_append]
            split
            · simpa [hr] using hy
            · rename_i hne
              rw [List.tail_append_of_ne_nil (by simpa using hne)]
              simp [hy]
          rw [he] at hm
          cases hm
        subst hl₂
        exact hl

def after (s : Sched) (q : Queues) : Queues :=
  match s.current with
  | some m => if s.awake m && s.released m then
      { (s.pick q).2 with available := Queues.enqueue m (s.pick q).2.available } else (s.pick q).2
  | none => (s.pick q).2

theorem Rep.enter (h : Rep s q) (x : ℕ) : Rep (s.enter x) q :=
  h.congr (fun _ _ => by rw [enter_next]) (fun _ _ => by rw [enter_prev])
    (s.sameTasks_enter x).count.ge (s.enter_lists x).2

theorem Rep.dispatched (h : Rep s q) (x : ℕ) : Rep { s with current := some x } q :=
  h.congr (fun _ _ => rfl) (fun _ _ => rfl) le_rfl ⟨rfl, rfl, rfl⟩

theorem pick_subset : (∀ t ∈ (s.pick q).2.available, t ∈ q.available) ∧
    (∀ t ∈ (s.pick q).2.sleeping, t ∈ q.sleeping) ∧ ∀ t ∈ (s.pick q).2.waiting, t ∈ q.waiting := by
  simp only [pick, Queues.pick]
  split
  · exact ⟨fun _ h => h, fun _ h => List.mem_of_mem_erase h, fun _ h => h⟩
  · split
    · exact ⟨fun _ h => h, fun _ h => h, fun _ h => List.mem_of_mem_erase h⟩
    · exact ⟨fun t h => List.dropWhile_subset _ (List.mem_of_mem_tail h), fun _ h => h, fun _ h => h⟩

/-- The task `m` may leave the processor: it is in no list but, for the idle task, the available one,
and carries no stale link if that list is empty by then. -/
structure Leaves (s : Sched) (q : Queues) (m : ℕ) : Prop where
  bound : m < s.count
  sleeping : m ∉ q.sleeping
  waiting : m ∉ q.waiting
  link : Drained s → s.next m = none

theorem runNextTask_frame {s' : Sched} (he : s.runNextTask = some s') : SameTasks s s' := by
  obtain ⟨⟨x, s₁⟩, hg, he⟩ := Option.bind_eq_some_iff.mp he
  obtain ⟨ht, _⟩ := getNextTask_frame hg
  have ht' : SameTasks s { s₁ with current := some x } := ⟨ht.core, ht.count, ht.idle, ht.clock, ht.pid⟩
  refine ht'.trans ?_
  unfold switchTo at he
  split at he
  · split at he
    · obtain ⟨s₂, hs₂, rfl⟩ := Option.map_eq_some_iff.mp he
      exact (reschedule_frame hs₂).1.trans (sameTasks_enter _ x)
    · obtain rfl := Option.some.inj he
      exact sameTasks_enter _ x
  · obtain rfl := Option.some.inj he
    exact sameTasks_enter _ x

theorem runNextTask_rep (h : Rep s q)
    (hm : ∀ m, s.current = some m → s.awake m = true → s.released m = true → Leaves s q m) :
    ∃ s', s.runNextTask = some s' ∧ Rep s' (s.after q) ∧ s'.current = some (s.pick q).1 := by
  obtain ⟨s₁, hg, hr, hk⟩ := getNextTask_rep h
  obtain ⟨ht, _⟩ := getNextTask_frame hg
  let x := (s.pick q).1
  have hrun : s.runNextTask = switchTo s.current x { s₁ with current := some x } := by
    rw [runNextTask, hg]; rfl
  obtain ⟨s₀, hs₀⟩ : ∃ s₀, s₀ = { s₁ with current := some x } := ⟨_, rfl⟩
  rw [← hs₀] at hrun
  have hr₀ : Rep s₀ (s.pick q).2 := hs₀ ▸ hr.dispatched x
  have ht₀ : SameTasks s s₀ := hs₀ ▸ ⟨ht.core, ht.count, ht.idle, ht.clock, ht.pid⟩
  have hc₀ : s₀.current = some x := by rw [hs₀]
  have hk₀ : s₀.next = s₁.next := by rw [hs₀]; rfl
  rw [hrun]
  cases hcur : s.current with
  | none =>
    refine ⟨_, rfl, ?_, (enter_lists _ x).1.trans hc₀⟩
    simp only [after, hcur]
    exact hr₀.enter x
  | some m =>
    have haw : (s₀.task m).sleepTime ≤ s₀.ms ↔ s.awake m = true := by rw [← ht₀.awake]; simp [awake]
    simp only [switchTo, haw]
    by_cases ha : s.awake m = true
    · rw [if_pos ha]
      by_cases hw : s.released m = true
      · have hl := hm m hcur ha hw
        have hlink : s₀.available = none → s₀.next m = none := by
          intro he
          have hav := chain_head hr₀.available
          rw [he] at hav
          rw [hk₀, hk m hl.sleeping hl.waiting]
          exact hl.link (drained_of_pick h (List.head?_eq_none_iff.mp hav.symm))
        obtain ⟨s₂, hs₂, hr₂⟩ := reschedule_rep hr₀ (by rw [ht₀.count]; exact hl.bound)
          (fun hmem => hl.sleeping (pick_subset.2.1 m hmem)) (fun hmem => hl.waiting (pick_subset.2.2 m hmem))
          hlink (by rwa [ht₀.released]) (by rwa [ht₀.awake])
        refine ⟨s₂.enter x, by rw [hs₂]; rfl, ?_, ((enter_lists _ x).1.trans (reschedule_frame hs₂).2).trans hc₀⟩
        simp only [after, hcur, ha, hw, Bool.and_self, ↓reduceIte]
        exact hr₂.enter x
      · have hre : s₀.reschedule m = some s₀ := by
          have := congrFun ht₀.released m
          simp_all [reschedule, released]
        refine ⟨_, by rw [hre]; rfl, ?_, (enter_lists _ x).1.trans hc₀⟩
        simp only [after, hcur, hw, Bool.and_false, Bool.false_eq_true, ↓reduceIte]
        exact hr₀.enter x
    · rw [if_neg ha]
      refine ⟨_, rfl, ?_, (enter_lists _ x).1.trans hc₀⟩
      simp only [after, hcur, ha, Bool.false_and, Bool.false_eq_true, ↓reduceIte]
      exact hr₀.enter x

end Sched

end Os506
