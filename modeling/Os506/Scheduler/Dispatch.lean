import Os506.Scheduler.Append

namespace Os506

open Linked

namespace Queues

/-- The purpose of `get_next_task`: a task whose sleep is over, else one whose wait is over,
else the first available task that is ready, else the idle task. -/
def pick (awake released ready : ℕ → Bool) (idle : ℕ) (q : Queues) : ℕ × Queues :=
  match q.sleeping.find? awake with
  | some x => (x, { q with sleeping := q.sleeping.erase x })
  | none => match q.waiting.find? released with
    | some x => (x, { q with waiting := q.waiting.erase x })
    | none => ((q.available.find? ready).getD idle,
      { q with available := (q.available.dropWhile fun t => !ready t).tail })

theorem erase_split {x : ℕ} {l₁ l₂ : List ℕ} (h : (l₁ ++ x :: l₂).Nodup) :
    (l₁ ++ x :: l₂).erase x = l₁ ++ l₂ := by
  have hx : x ∉ l₁ := fun hm => (List.nodup_append.mp h).2.2 x hm x (by simp) rfl
  rw [List.erase_append_right _ hx, List.erase_cons_head]

end Queues

namespace Sched

variable {s : Sched} {q : Queues}

theorem unlink_next_of_notMem (s : Sched) {h : Option ℕ} {l : List ℕ} (hd : DChain s.next s.prev h l)
    {x t : ℕ} (hx : x ∈ l) (ht : t ∉ l) : (s.unlink x).next t = s.next t := by
  rw [unlink_next]
  exact unlinkNext_of_ne fun he => ht (dchain_prev_mem hd hx he)

theorem sameTasks_takeSleeping (s : Sched) (x : ℕ) : SameTasks s (s.takeSleeping x) :=
  have h := s.sameTasks_unlink x
  ⟨h.core, h.count, h.idle, h.clock, h.pid⟩

theorem sameTasks_takeWaiting (s : Sched) (x : ℕ) : SameTasks s (s.takeWaiting x) :=
  have h := s.sameTasks_unlink x
  ⟨h.core, h.count, h.idle, h.clock, h.pid⟩

theorem takeSleeping_rep (h : Rep s q) {x : ℕ} {l₁ l₂ : List ℕ} (hq : q.sleeping = l₁ ++ x :: l₂) :
    Rep (s.takeSleeping x) { q with sleeping := l₁ ++ l₂ } := by
  obtain ⟨da, ds, dw, dsw, dd⟩ := Rep.disjoint_iff.mp h.disjoint
  have hx : x ∈ q.sleeping := by simp [hq]
  have hsub : ∀ y ∈ l₁ ++ l₂, y ∈ q.sleeping := by
    intro y hy
    rw [hq]
    rcases List.mem_append.mp hy with hy | hy <;> simp [hy]
  have hkeep : ∀ y, y ∉ q.sleeping → (s.unlink x).next y = s.next y ∧ (s.unlink x).prev y = s.prev y := by
    intro y hy
    rw [unlink_next, unlink_prev]
    exact ⟨unlinkNext_of_ne fun he => hy (dchain_prev_mem h.sleeping hx he),
      unlinkPrev_of_ne fun he => hy (dchain_next_mem h.sleeping hx he)⟩
  obtain ⟨_, hav, hsl, hwt⟩ := s.unlink_lists x
  refine ⟨?_, ?_, ?_, ?_, ?_⟩
  · have hc : Chain (s.unlink x).next s.available q.available :=
      seg_congr (fun y hy => (hkeep y (dd y hy).1).1) h.available
    rw [← hav] at hc
    exact hc
  · have hd := h.sleeping
    rw [hq] at hd
    have hu := dchain_unlink hd
    rw [← unlink_next, ← unlink_prev, ← unlink_next_self] at hu
    exact hu
  · obtain ⟨p, hw⟩ := h.waiting
    rw [← hwt] at hw
    exact ⟨p, dseg_congr (fun y hy => (hkeep y fun hm => dsw y hm hy).1)
      (fun y hy => (hkeep y fun hm => dsw y hm hy).2) hw⟩
  · rw [hq, List.nodup_middle] at ds
    exact Rep.disjoint_iff.mpr ⟨da, (List.nodup_cons.mp ds).2, dw, fun y hy => dsw y (hsub y hy),
      fun y hy => ⟨fun hm => (dd y hy).1 (hsub y hm), (dd y hy).2⟩⟩
  · intro y hy
    change y < (s.unlink x).count
    rw [(s.sameTasks_unlink x).count]
    rcases Queues.mem_all.mp hy with hy | hy | hy
    · exact h.bound y (Queues.mem_all.mpr (.inl hy))
    · exact h.bound y (Queues.mem_all.mpr (.inr (.inl (hsub y hy))))
    · exact h.bound y (Queues.mem_all.mpr (.inr (.inr hy)))

theorem unlink_swap (s : Sched) (x : ℕ) : s.swap.unlink x = (s.unlink x).swap := by
  cases hp : s.prev x with
  | none =>
    have hp' : s.swap.prev x = none := hp
    cases hn : s.next x with
    | none =>
      have hn' : s.swap.next x = none := hn
      simp only [unlink, hp, hp', hn, hn']
    | some n =>
      have hn' : s.swap.next x = some n := hn
      simp only [unlink, hp, hp', hn, hn']
      rfl
  | some p =>
    have hp' : s.swap.prev x = some p := hp
    cases hn : (s.setNext p (s.next x)).next x with
    | none =>
      have hn' : (s.swap.setNext p (s.swap.next x)).next x = none := hn
      simp only [unlink, hp, hp', hn, hn']
      rfl
    | some n =>
      have hn' : (s.swap.setNext p (s.swap.next x)).next x = some n := hn
      simp only [unlink, hp, hp', hn, hn']
      rfl

theorem takeWaiting_swap (s : Sched) (x : ℕ) : s.takeWaiting x = (s.swap.takeSleeping x).swap := by
  simp only [takeWaiting, takeSleeping, unlink_swap]
  rfl

theorem takeWaiting_rep (h : Rep s q) {x : ℕ} {l₁ l₂ : List ℕ} (hq : q.waiting = l₁ ++ x :: l₂) :
    Rep (s.takeWaiting x) { q with waiting := l₁ ++ l₂ } := by
  rw [takeWaiting_swap]
  exact rep_swap (takeSleeping_rep (rep_swap h) hq)

theorem takeAvailable_rep (h : Rep s q) {x : ℕ} {l₁ l₂ : List ℕ} (hq : q.available = l₁ ++ x :: l₂) :
    Rep { s with available := s.next x } { q with available := l₂ } := by
  obtain ⟨da, ds, dw, dsw, dd⟩ := Rep.disjoint_iff.mp h.disjoint
  have hsub : ∀ y ∈ l₂, y ∈ q.available := fun y hy => by simp [hq, hy]
  have hc := h.available
  rw [hq] at hc
  obtain ⟨m, _, rfl, hl⟩ := seg_append.mp hc
  rw [hq, List.nodup_append] at da
  refine ⟨hl, h.sleeping, h.waiting, Rep.disjoint_iff.mpr ⟨(List.nodup_cons.mp da.2.1).2, ds, dw, dsw,
    fun y hy => dd y (hsub y hy)⟩, fun y hy => h.bound y ?_⟩
  rcases Queues.mem_all.mp hy with hy | hy
  · exact Queues.mem_all.mpr (.inl (hsub y hy))
  · exact Queues.mem_all.mpr (.inr hy)

theorem dropAvailable_rep (h : Rep s q) : Rep { s with available := none } { q with available := [] } := by
  obtain ⟨_, ds, dw, dsw, _⟩ := Rep.disjoint_iff.mp h.disjoint
  refine ⟨rfl, h.sleeping, h.waiting, Rep.disjoint_iff.mpr ⟨List.nodup_nil, ds, dw, dsw, by simp⟩, ?_⟩
  intro y hy
  rcases Queues.mem_all.mp hy with hy | hy
  · cases hy
  · exact h.bound y (Queues.mem_all.mpr (.inr hy))

def pick (s : Sched) (q : Queues) : ℕ × Queues := q.pick s.awake s.released s.ready s.idle

theorem getNextTask_frame {x : ℕ} {s' : Sched} (he : s.getNextTask = some (x, s')) :
    SameTasks s s' ∧ s'.current = s.current := by
  obtain ⟨r, _, he⟩ := Option.bind_eq_some_iff.mp he
  cases r with
  | some y =>
    obtain rfl := congrArg Prod.snd (Option.some.inj he)
    exact ⟨s.sameTasks_takeSleeping y, (s.unlink_lists y).1⟩
  | none =>
    obtain ⟨r, _, he⟩ := Option.bind_eq_some_iff.mp he
    cases r with
    | some y =>
      obtain rfl := congrArg Prod.snd (Option.some.inj he)
      exact ⟨s.sameTasks_takeWaiting y, (s.unlink_lists y).1⟩
    | none =>
      obtain ⟨r, _, he⟩ := Option.map_eq_some_iff.mp he
      obtain rfl := congrArg Prod.snd he
      cases r <;> exact ⟨⟨fun _ => rfl, rfl, rfl, rfl, rfl⟩, rfl⟩

theorem getNextTask_rep (h : Rep s q) :
    ∃ s', s.getNextTask = some ((s.pick q).1, s') ∧ Rep s' (s.pick q).2 ∧
      ∀ t, t ∉ q.sleeping → t ∉ q.waiting → s'.next t = s.next t := by
  obtain ⟨da, ds, dw, dsw, dd⟩ := Rep.disjoint_iff.mp h.disjoint
  have hsl := search_chain s.awake (dchain_chain h.sleeping) h.length_sleeping
  have hwt := search_chain s.released (dchain_chain h.waiting) h.length_waiting
  have hav := search_chain s.ready h.available h.length_available
  rw [getNextTask, hsl]
  simp only [pick, Queues.pick]
  cases hfs : q.sleeping.find? s.awake with
  | some x =>
    obtain ⟨_, l₁, l₂, hq, _⟩ := List.find?_eq_some_iff_append.mp hfs
    refine ⟨s.takeSleeping x, rfl, ?_, fun t ht _ => ?_⟩
    · simp only [hq, Queues.erase_split (hq ▸ ds)]
      exact takeSleeping_rep h hq
    · exact s.unlink_next_of_notMem h.sleeping (by simp [hq]) ht
  | none =>
    simp only [Option.bind_some, hwt]
    cases hfw : q.waiting.find? s.released with
    | some x =>
      obtain ⟨_, l₁, l₂, hq, _⟩ := List.find?_eq_some_iff_append.mp hfw
      refine ⟨s.takeWaiting x, rfl, ?_, fun t _ ht => ?_⟩
      · simp only [hq, Queues.erase_split (hq ▸ dw)]
        exact takeWaiting_rep h hq
      · exact s.unlink_next_of_notMem h.waiting (by simp [hq]) ht
    | none =>
      simp only [hav, Option.map_some]
      cases hfa : q.available.find? s.ready with
      | some x =>
        obtain ⟨hx, l₁, l₂, hq, hl₁⟩ := List.find?_eq_some_iff_append.mp hfa
        have hdrop : (q.available.dropWhile fun t => !s.ready t).tail = l₂ := by
          rw [hq, List.dropWhile_append_of_pos (by simpa using hl₁)]
          simp [hx]
        refine ⟨_, rfl, ?_, fun _ _ _ => rfl⟩
        simp only [hdrop]
        exact takeAvailable_rep h hq
      | none =>
        have hdrop : (q.available.dropWhile fun t => !s.ready t).tail = [] := by
          rw [List.dropWhile_eq_nil_iff.mpr (by simpa using List.find?_eq_none.mp hfa)]
          rfl
        refine ⟨_, rfl, ?_, fun _ _ _ => rfl⟩
        simp only [hdrop]
        exact dropAvailable_rep h

end Sched

end Os506
