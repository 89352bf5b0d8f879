import Os506.Scheduler.Frame
import Mathlib.Data.List.TakeWhile

namespace Os506

open Linked

structure Queues where
  available : List ℕ
  sleeping : List ℕ
  waiting : List ℕ

namespace Queues

def all (q : Queues) : List ℕ := q.available ++ (q.sleeping ++ q.waiting)

theorem mem_all {q : Queues} {t : ℕ} : t ∈ q.all ↔ t ∈ q.available ∨ t ∈ q.sleeping ∨ t ∈ q.waiting := by
  simp [all]

/-- A task that is in the list already stays, and the rest of the list behind it is lost. -/
def enqueue (t : ℕ) (l : List ℕ) : List ℕ := l.takeWhile (fun x => decide (x ≠ t)) ++ [t]

theorem enqueue_of_notMem {t : ℕ} {l : List ℕ} (h : t ∉ l) : enqueue t l = l ++ [t] := by
  have : l.takeWhile (fun x => decide (x ≠ t)) = l :=
    List.takeWhile_eq_self_iff.mpr fun x hx => by simpa using fun he : x = t => h (he ▸ hx)
  rw [enqueue, this]

theorem mem_of_mem_enqueue {t x : ℕ} {l : List ℕ} (h : x ∈ enqueue t l) : x ∈ l ∨ x = t := by
  rcases List.mem_append.mp h with h | h
  · exact .inl (List.takeWhile_subset _ h)
  · exact .inr (by simpa using h)

theorem enqueue_nodup {t : ℕ} {l : List ℕ} (h : l.Nodup) : (enqueue t l).Nodup := by
  refine List.nodup_append.mpr ⟨h.sublist (List.takeWhile_sublist _), by simp, ?_⟩
  intro x hx y hy
  have := List.mem_takeWhile_imp hx
  simp_all

end Queues

namespace Sched

/-- The pointers of `s` hold the lists of `q`; the last two lists are also linked backwards. -/
structure Rep (s : Sched) (q : Queues) : Prop where
  available : Chain s.next s.available q.available
  sleeping : DChain s.next s.prev s.sleeping q.sleeping
  waiting : DChain s.next s.prev s.waiting q.waiting
  disjoint : q.all.Nodup
  bound : ∀ t ∈ q.all, t < s.count

namespace Rep

variable {s s' : Sched} {q : Queues}

theorem disjoint_iff : q.all.Nodup ↔ q.available.Nodup ∧ q.sleeping.Nodup ∧ q.waiting.Nodup ∧
    (∀ t ∈ q.sleeping, t ∉ q.waiting) ∧ ∀ t ∈ q.available, t ∉ q.sleeping ∧ t ∉ q.waiting := by
  simp only [Queues.all, List.nodup_append, List.mem_append]
  constructor
  · rintro ⟨ha, ⟨hs, hw, hsw⟩, h⟩
    exact ⟨ha, hs, hw, fun t ht hu => hsw t ht t hu rfl,
      fun t ht => ⟨fun hu => h t ht t (.inl hu) rfl, fun hu => h t ht t (.inr hu) rfl⟩⟩
  · rintro ⟨ha, hs, hw, hsw, h⟩
    refine ⟨ha, ⟨hs, hw, ?_⟩, ?_⟩
    · rintro t ht _ hu rfl; exact hsw t ht hu
    · rintro t ht _ (hu | hu) rfl
      · exact (h t ht).1 hu
      · exact (h t ht).2 hu

theorem length_available (h : Rep s q) : q.available.length ≤ s.count :=
  length_le_of_nodup (disjoint_iff.mp h.disjoint).1 fun t ht => h.bound t (Queues.mem_all.mpr (.inl ht))

theorem length_sleeping (h : Rep s q) : q.sleeping.length ≤ s.count :=
  length_le_of_nodup (disjoint_iff.mp h.disjoint).2.1
    fun t ht => h.bound t (Queues.mem_all.mpr (.inr (.inl ht)))

theorem length_waiting (h : Rep s q) : q.waiting.length ≤ s.count :=
  length_le_of_nodup (disjoint_iff.mp h.disjoint).2.2.1
    fun t ht => h.bound t (Queues.mem_all.mpr (.inr (.inr ht)))

theorem congr (h : Rep s q) (hn : ∀ t ∈ q.all, s'.next t = s.next t)
    (hp : ∀ t ∈ q.all, s'.prev t = s.prev t) (hc : s.count ≤ s'.count)
    (hl : s'.available = s.available ∧ s'.sleeping = s.sleeping ∧ s'.waiting = s.waiting) : Rep s' q := by
  obtain ⟨ha, hs, hw⟩ := hl
  refine ⟨?_, ?_, ?_, h.disjoint, fun t ht => (h.bound t ht).trans_le hc⟩
  · rw [ha]
    exact seg_congr (fun t ht => hn t (Queues.mem_all.mpr (.inl ht))) h.available
  · rw [hs]
    obtain ⟨p, hd⟩ := h.sleeping
    exact ⟨p, dseg_congr (fun t ht => hn t (Queues.mem_all.mpr (.inr (.inl ht))))
      (fun t ht => hp t (Queues.mem_all.mpr (.inr (.inl ht)))) hd⟩
  · rw [hw]
    obtain ⟨p, hd⟩ := h.waiting
    exact ⟨p, dseg_congr (fun t ht => hn t (Queues.mem_all.mpr (.inr (.inr ht))))
      (fun t ht => hp t (Queues.mem_all.mpr (.inr (.inr ht)))) hd⟩

theorem modify (h : Rep s q) (c : ℕ) {f : Task → Task} (hn : ∀ k, (f k).next = k.next)
    (hp : ∀ k, (f k).prev = k.prev) : Rep (s.modify c f) q :=
  h.congr (fun t _ => by rw [modify_next s c hn]) (fun t _ => by rw [modify_prev s c hp]) le_rfl ⟨rfl, rfl, rfl⟩

end Rep

structure Appended (s : Sched) (cursor t : ℕ) (s' : Sched) : Prop where
  next : s'.next = Function.update (Function.update s.next cursor (some t)) t none
  prev : s'.prev = Function.update s.prev t (some cursor)
  tasks : SameTasks s s'
  lists : s'.current = s.current ∧ s'.available = s.available ∧ s'.sleeping = s.sleeping ∧ s'.waiting = s.waiting

theorem appended_writes (s : Sched) (c t : ℕ) :
    Appended s c t (((s.setNext c (some t)).setPrev t (some c)).setNext t none) := by
  refine ⟨?_, ?_, ?_, rfl, rfl, rfl, rfl⟩
  · simp only [setNext_next, setPrev_next]
  · simp only [setNext_prev, setPrev_prev]
  · exact ((sameTasks_setNext _ _ _).trans (sameTasks_setPrev _ _ _)).trans (sameTasks_setNext _ _ _)

theorem addLast_chain {s : Sched} {h : Option ℕ} {l : List ℕ} (t : ℕ) (hl : Chain s.next h l)
    (hn : l.length ≤ s.count) (hne : l ≠ []) :
    ∃ s', s.addLast h t = some (h, s') ∧ Appended s (l.getLast hne) t s' := by
  cases l with
  | nil => exact absurd rfl hne
  | cons x l =>
    obtain ⟨rfl, hl⟩ := hl
    refine ⟨_, ?_, appended_writes s _ t⟩
    rw [addLast, last_chain hl (Nat.lt_of_succ_le hn), Option.map_some]

theorem addLast_frame {s s' : Sched} {h h' : Option ℕ} {t : ℕ} (he : s.addLast h t = some (h', s')) :
    SameTasks s s' ∧ s'.current = s.current := by
  cases h with
  | none =>
    obtain rfl : s = s' := congrArg Prod.snd (Option.some.inj he)
    exact ⟨.refl s, rfl⟩
  | some x =>
    obtain ⟨c, _, hc⟩ := Option.map_eq_some_iff.mp he
    obtain rfl := congrArg Prod.snd hc
    exact ⟨(appended_writes s c t).tasks, rfl⟩

theorem reschedule_frame {s s' : Sched} {t : ℕ} (he : s.reschedule t = some s') :
    SameTasks s s' ∧ s'.current = s.current := by
  unfold reschedule at he
  split at he
  · obtain rfl := Option.some.inj he
    exact ⟨.refl s, rfl⟩
  · obtain ⟨⟨h, s₁⟩, hs₁, rfl⟩ := Option.map_eq_some_iff.mp he
    obtain ⟨ht, hc⟩ := addLast_frame hs₁
    exact ⟨⟨ht.core, ht.count, ht.idle, ht.clock, ht.pid⟩, hc⟩

theorem addSleepingTask_frame {s s' : Sched} {t : ℕ} (he : s.addSleepingTask t = some s') :
    SameTasks s s' ∧ s'.current = s.current := by
  obtain ⟨⟨h, s₁⟩, hs₁, rfl⟩ := Option.map_eq_some_iff.mp he
  obtain ⟨ht, hc⟩ := addLast_frame hs₁
  exact ⟨⟨ht.core, ht.count, ht.idle, ht.clock, ht.pid⟩, hc⟩

theorem addWaitingTask_frame {s s' : Sched} {t : ℕ} (he : s.addWaitingTask t = some s') :
    SameTasks s s' ∧ s'.current = s.current := by
  obtain ⟨⟨h, s₁⟩, hs₁, rfl⟩ := Option.map_eq_some_iff.mp he
  obtain ⟨ht, hc⟩ := addLast_frame hs₁
  exact ⟨⟨ht.core, ht.count, ht.idle, ht.clock, ht.pid⟩, hc⟩

theorem Appended.of_ne {s s' : Sched} {c t x : ℕ} (h : Appended s c t s') (hc : x ≠ c) (ht : x ≠ t) :
    s'.next x = s.next x ∧ s'.prev x = s.prev x := by
  rw [h.next, h.prev]
  simp [hc, ht]

end Sched

end Os506
