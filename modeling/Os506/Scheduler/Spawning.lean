import Os506.Scheduler.Steps

namespace Os506

open Linked

namespace Sched

variable {s s' s₁ : Sched} {q : Queues} {strict : Prop} {c : ℕ}

structure Agree (s s' : Sched) : Prop where
  flags : ∀ t < s.count, (s'.task t).runnable = (s.task t).runnable ∧ s'.awake t = s.awake t ∧
    s'.released t = s.released t
  links : ∀ t < s.count, s'.next t = s.next t ∧ s'.prev t = s.prev t
  count : s.count ≤ s'.count
  rest : s'.current = s.current ∧ s'.idle = s.idle
  lists : s'.available = s.available ∧ s'.sleeping = s.sleeping ∧ s'.waiting = s.waiting

namespace Agree

theorem of_fields (hf : ∀ t < s.count, (s'.task t).runnable = (s.task t).runnable ∧
      (s'.task t).sleepTime = (s.task t).sleepTime ∧ (s'.task t).waiting = (s.task t).waiting ∧
      (s'.task t).next = (s.task t).next ∧ (s'.task t).prev = (s.task t).prev)
    (hc : s.count ≤ s'.count) (hk : s'.clock = s.clock) (hr : s'.current = s.current ∧ s'.idle = s.idle)
    (hl : s'.available = s.available ∧ s'.sleeping = s.sleeping ∧ s'.waiting = s.waiting) : Agree s s' := by
  have hms : s'.ms = s.ms := congrArg Ktime.ms hk
  refine ⟨fun t ht => ?_, fun t ht => (hf t ht).2.2.2, hc, hr, hl⟩
  obtain ⟨h₁, h₂, h₃, _⟩ := hf t ht
  exact ⟨h₁, by simp only [Sched.awake, h₂, hms], by simp only [Sched.released, h₃]⟩

theorem rep (ha : Agree s s') (h : Rep s q) : Rep s' q :=
  h.congr (fun t ht => (ha.links t (h.bound t ht)).1) (fun t ht => (ha.links t (h.bound t ht)).2) ha.count ha.lists

theorem flags' (ha : Agree s s') (hr : Rep s q) (h : Flags s q) : Flags s' q := by
  have hb : ∀ t ∈ q.all, t < s.count := hr.bound
  simp only [Queues.mem_all] at hb
  constructor
  · rw [ha.rest.2]; exact h.idle_lt.trans_le ha.count
  · rw [ha.rest.2, (ha.flags _ h.idle_lt).1]; exact h.idle_off
  · rw [ha.rest.2, (ha.flags _ h.idle_lt).2.1]; exact h.idle_awake
  · rw [ha.rest.2, (ha.flags _ h.idle_lt).2.2]; exact h.idle_released
  · intro t ht
    rw [(ha.flags t (hb t (.inl ht))).2.1, (ha.flags t (hb t (.inl ht))).2.2]; exact h.available t ht
  · intro t ht
    rw [(ha.flags t (hb t (.inr (.inl ht)))).1, (ha.flags t (hb t (.inr (.inl ht)))).2.2]; exact h.sleeping t ht
  · intro t ht
    rw [(ha.flags t (hb t (.inr (.inr ht)))).1, (ha.flags t (hb t (.inr (.inr ht)))).2.1]; exact h.waiting t ht

theorem running (ha : Agree s s') (h : Running strict s q c) : Running strict s' q c := by
  obtain ⟨hr, haw, hrel⟩ := ha.flags c h.bound
  exact ⟨h.bound.trans_le ha.count, haw.trans h.awake, hrel.trans h.released,
    fun hne => hr.trans (h.runnable (ha.rest.2 ▸ hne)), h.sleeping, h.waiting, ha.rest.2.symm ▸ h.available⟩

theorem inv (ha : Agree s s') (hn : s'.count = s.count) (h : Inv strict s q) : Inv strict s' q := by
  refine ⟨ha.rep h.rep, ha.flags' h.rep h.flags, fun c hc => ha.running (h.current c (ha.rest.1 ▸ hc)), ?_⟩
  intro hst t ht hrun hne hcur
  rw [hn] at ht
  exact h.complete hst t ht ((ha.flags t ht).1 ▸ hrun) (ha.rest.2 ▸ hne) (ha.rest.1 ▸ hcur)

end Agree

theorem spawn_inv (h : Inv strict s q) (ha : Agree s s₁) (hn : s₁.count = s.count + 1)
    (haw : s₁.awake s.count = true) (hrel : s₁.released s.count = true)
    (hl : s₁.available = none → s₁.next s.count = none) :
    ∃ s', s₁.reschedule s.count = some s' ∧
      Inv strict s' { q with available := q.available ++ [s.count] } := by
  have hnew : ∀ t ∈ q.all, t ≠ s.count := fun t ht => (h.rep.bound t ht).ne
  have hnot : s.count ∉ q.all := fun hm => hnew _ hm rfl
  have hnot' := hnot
  simp only [Queues.mem_all, not_or] at hnot'
  obtain ⟨s', hs', hr⟩ := reschedule_rep (ha.rep h.rep) (by omega) hnot'.2.1 hnot'.2.2 hl hrel haw
  rw [Queues.enqueue_of_notMem hnot'.1] at hr
  obtain ⟨ht, hc⟩ := reschedule_frame hs'
  have hf : Flags s₁ { q with available := q.available ++ [s.count] } := by
    have hf := ha.flags' h.rep h.flags
    refine ⟨hf.idle_lt, hf.idle_off, hf.idle_awake, hf.idle_released, fun t ht => ?_, hf.sleeping, hf.waiting⟩
    rcases List.mem_append.mp ht with ht | ht
    · exact hf.available t ht
    · rw [List.mem_singleton.mp ht]; exact ⟨haw, hrel⟩
  refine ⟨s', hs', hr, hf.congr ht, fun c hcur => ?_, fun hst t htc hrun hne hcur => ?_⟩
  · rw [hc, ha.rest.1] at hcur
    have hrun := h.current c hcur
    obtain ⟨hb, hw, hrl, hr, hs, hwt, hav⟩ := ha.running hrun
    refine Running.congr ⟨hb, hw, hrl, hr, hs, hwt, fun hm => ?_⟩ ht
    rcases List.mem_append.mp hm with hm | hm
    · exact hav hm
    · exact absurd (List.mem_singleton.mp hm) hrun.bound.ne
  · simp only [Queues.mem_all, List.mem_append, List.mem_singleton]
    rw [ht.count, hn] at htc
    by_cases he : t = s.count
    · exact .inl (.inr he)
    · have hlt : t < s.count := by omega
      rw [ht.runnable, (ha.flags t hlt).1] at hrun
      rw [ht.idle, ha.rest.2] at hne
      rw [hc, ha.rest.1] at hcur
      exact (Queues.mem_all.mp (h.complete hst t hlt hrun hne hcur)).imp_left .inl

def launch (entry : BitVec 64) (k : Task) : Task :=
  { if k.userp then { k with entry := entry, firstRun := true } else k with rax := k.pid.signExtend 64 }

theorem schedule_eq (s : Sched) (t : ℕ) (entry : BitVec 64) :
    s.schedule t entry = if (s.task t).runnable then (s.modify t (launch entry)).reschedule t
      else some (s.modify t (launch entry)) := by
  cases hu : (s.task t).userp
  · have hm : (s.modify t fun k => { k with rax := k.pid.signExtend 64 }) = s.modify t (launch entry) := by
      simp [modify, launch, hu]
    simp [schedule, hu, hm, launch]
  · have hm : ((s.modify t fun k => { k with entry := entry, firstRun := true }).modify t
        fun k => { k with rax := k.pid.signExtend 64 }) = s.modify t (launch entry) := by
      simp [modify, launch, hu]
    simp [schedule, hu, hm, launch]

def newTask (s : Sched) (userp : Bool) (name : List UInt8) : Task where
  name := name
  startMs := s.ms
  runnable := true
  fdarr n := if n.val < 3 then some .term else none
  userp := userp
  pid := s.pid

theorem createNewTask_eq (s : Sched) (userp : Bool) (name : List UInt8) :
    s.createNewTask userp name = (s.count, { s with
      task := Function.update s.task s.count (s.newTask userp name)
      count := s.count + 1, pid := s.pid + 1 }) := by
  simp [createNewTask, getNextPid, modify, newTask]

def childOf (s : Sched) (parent : ℕ) : Task :=
  { s.task parent with runnable := true, parent := some parent, pid := s.pid }

theorem forkProcess_eq (s : Sched) {parent : ℕ} (h : parent < s.count) :
    s.forkProcess parent = (s.count, { s with
      task := Function.update (Function.update s.task parent
        { s.task parent with numChildren := ((s.task parent).numChildren + 1) % 2 ^ 64 }) s.count (s.childOf parent)
      count := s.count + 1, pid := s.pid + 1 }) := by
  have hne : s.count ≠ parent := h.ne'
  simp only [forkProcess, getNextPid, modify, Function.update_self, Function.update_idem, childOf,
    Function.update_of_ne hne, Function.update_of_ne hne.symm]
  rw [Function.update_comm hne, Function.update_idem]

theorem schedule_inv (userp : Bool) (name : List UInt8) (entry : BitVec 64) (h : Inv strict s q) :
    ∃ s', (Op.schedule userp name entry).step s = some s' ∧
      Inv strict s' { q with available := q.available ++ [s.count] } := by
  obtain ⟨s₁, hs₁⟩ : ∃ s₁, s₁ = (s.createNewTask userp name).2.modify s.count (launch entry) := ⟨_, rfl⟩
  have hstep : (Op.schedule userp name entry).step s = s₁.reschedule s.count := by
    simp only [Op.step, schedule_eq, hs₁, createNewTask_eq, Function.update_self, newTask, ↓reduceIte]
  rw [createNewTask_eq] at hs₁
  have hold : ∀ t < s.count, s₁.task t = s.task t := by
    intro t ht
    rw [hs₁, modify_task_of_ne _ _ ht.ne]
    exact Function.update_of_ne ht.ne _ _
  have hnew : (s₁.task s.count).sleepTime = 0 ∧ (s₁.task s.count).waiting = false ∧ s₁.next s.count = none := by
    rw [next, hs₁, modify_task_self]
    cases userp <;> simp [launch, newTask]
  have hagree : Agree s s₁ := by
    refine .of_fields (fun t ht => by rw [hold t ht]; exact ⟨rfl, rfl, rfl, rfl, rfl⟩) ?_ ?_ ?_ ?_ <;> simp [hs₁]
  obtain ⟨s', hs', hi⟩ := spawn_inv h hagree (by rw [hs₁]; rfl) (by simp [awake, hnew]) (by simp [released, hnew])
    fun _ => hnew.2.2
  exact ⟨s', hstep.trans hs', hi⟩

theorem fork_inv (entry : BitVec 64) (h : Inv strict s q) (hc : s.current = some c)
    (hlink : s.available = none → s.next c = none) :
    ∃ s' q', (s.sysFork entry).map Prod.snd = some s' ∧ Inv strict s' q' := by
  have hrun := h.current c hc
  obtain ⟨s₁, hs₁⟩ : ∃ s₁, s₁ = (s.forkProcess c).2.modify s.count (launch entry) := ⟨_, rfl⟩
  have hstep : (s.sysFork entry).map Prod.snd = (s₁.reschedule s.count).map fun s' =>
      s'.modify s.count fun k => { k with rax := 0, firstRun := false } := by
    simp only [sysFork, hc, Option.bind_some, schedule_eq, hs₁, forkProcess_eq s hrun.bound,
      Function.update_self, childOf, ↓reduceIte, Option.map_map]
    rfl
  rw [forkProcess_eq s hrun.bound] at hs₁
  have hold : ∀ t < s.count, s₁.task t = s.task t ∨
      s₁.task t = { s.task t with numChildren := ((s.task t).numChildren + 1) % 2 ^ 64 } := by
    intro t ht
    rw [hs₁, modify_task_of_ne _ _ ht.ne]
    by_cases he : t = c
    · subst he; right; simp [ht.ne]
    · left; simp [ht.ne, he]
  have hnew : (s₁.task s.count).sleepTime = (s.task c).sleepTime ∧
      (s₁.task s.count).waiting = (s.task c).waiting ∧ s₁.next s.count = s.next c := by
    rw [next, hs₁, modify_task_self, launch]
    simp only [Function.update_self, childOf]
    split <;> exact ⟨rfl, rfl, rfl⟩
  have hagree : Agree s s₁ := by
    refine .of_fields (fun t ht => ?_) ?_ ?_ ?_ ?_
    · rcases hold t ht with hh | hh <;> rw [hh] <;> exact ⟨rfl, rfl, rfl, rfl, rfl⟩
    all_goals simp [hs₁]
  have hms : s₁.ms = s.ms := by rw [hs₁]; rfl
  obtain ⟨s', hs', hi⟩ := spawn_inv h hagree (by rw [hs₁]; rfl)
    (by rw [awake, hnew.1, hms]; exact hrun.awake) (by rw [released, hnew.2.1]; exact hrun.released)
    (by rw [hagree.lists.1, hnew.2.2]; exact hlink)
  rw [hstep, hs', Option.map_some]
  have hlast : Agree s' (s'.modify s.count fun k => { k with rax := 0, firstRun := false }) := by
    refine .of_fields (fun t _ => ?_) ?_ ?_ ?_ ?_
    · by_cases he : t = s.count
      · subst he; simp
      · simp [he]
    all_goals simp
  exact ⟨_, _, rfl, hlast.inv rfl hi⟩

theorem tick_inv (h : Inv strict s q) (hm : s.clock.ms ≤ s.clock.addTick.ms) :
    Inv strict { s with clock := s.clock.addTick } q := by
  have haw : ∀ t, s.awake t = true → awake { s with clock := s.clock.addTick } t = true := fun t ht =>
    decide_eq_true ((of_decide_eq_true ht).trans hm)
  refine ⟨⟨h.rep.available, h.rep.sleeping, h.rep.waiting, h.rep.disjoint, h.rep.bound⟩, ?_, ?_, h.complete⟩
  · obtain ⟨h₁, h₂, h₃, h₄, h₅, h₆, h₇⟩ := h.flags
    exact ⟨h₁, h₂, haw _ h₃, h₄, fun t ht => ⟨haw t (h₅ t ht).1, (h₅ t ht).2⟩, h₆,
      fun t ht => ⟨(h₇ t ht).1, haw t (h₇ t ht).2⟩⟩
  · intro c hc
    obtain ⟨h₁, h₂, h₃, h₄, h₅, h₆, h₇⟩ := h.current c hc
    exact ⟨h₁, haw _ h₂, h₃, h₄, h₅, h₆, h₇⟩

end Sched

end Os506
