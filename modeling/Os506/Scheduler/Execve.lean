import Os506.Scheduler.Effect
import Os506.Scheduler.Runs

namespace Os506

open Linked Run

namespace Sched

def placeTask (c new : ℕ) (s : Sched) : Sched :=
  let prev := s.prev c
  let next := s.next c
  let s := s.modify new fun k => { k with parent := (s.task c).parent, pid := (s.task c).pid }
  let s := match prev with
    | some p => s.setNext p (some new)
    | none => s
  s.setNext new next

def replaceTask (c : ℕ) (s : Sched) : Sched :=
  s.modify c fun k => { k with fdarr := fun _ => none, parent := none, prev := none, next := none }

/-- `sys_execve` on a file that loads, up to its `sys_yield`; `load_elf` creates and schedules the new task. -/
def execveReplace (name : List UInt8) (entry : BitVec 64) (c : ℕ) (s : Sched) : Option Sched :=
  ((Op.schedule true name entry).step s).map fun s' => (s'.placeTask c s.count).replaceTask c

def sysExecve (name : List UInt8) (entry : BitVec 64) (s : Sched) : Option Sched :=
  s.current.bind fun c => (s.execveReplace name entry c).bind sysYield

def CanRun (s : Sched) (t : ℕ) : Prop :=
  s.current = some t ∨ (On s.next s.sleeping t ∧ s.awake t = true) ∨
    (On s.next s.waiting t ∧ s.released t = true) ∨ (On s.next s.available t ∧ s.ready t = true)

/-- What a replacement of `c` by `new` should be: `s₁` is the state after the splice, `s'` the state in which
the processor is given away. -/
structure Replaced (c new : ℕ) (s₁ s' : Sched) : Prop where
  spliced : ∃ l, Chain s₁.next s₁.available l ∧ l.count new = 1
  gone : ∀ ops u, exec Op.step ops s' = some u → u.current ≠ some c
  unique : ∀ ops u, exec Op.step ops s' = some u → ∃! t, u.CanRun t ∧ (u.task t).pid = (s₁.task new).pid

variable {s s' : Sched} {q : Queues} {c new : ℕ}

structure Spliced (c new : ℕ) (s s' : Sched) : Prop where
  flags : ∀ t, (s'.task t).runnable = (s.task t).runnable ∧ (s'.task t).waiting = (s.task t).waiting ∧
    (s'.task t).sleepTime = (s.task t).sleepTime
  pid : (s'.task c).pid = (s.task c).pid ∧ (s'.task new).pid = (s.task c).pid
  next : ∀ t, s'.next t = if t = c then none else
    if t = new then s.next c else if s.prev c = some t then some new else s.next t
  prev : ∀ t, s'.prev t = if t = c then none else s.prev t
  rest : s'.count = s.count ∧ s'.current = s.current ∧ s'.clock = s.clock
  lists : s'.available = s.available ∧ s'.sleeping = s.sleeping ∧ s'.waiting = s.waiting

theorem splice_prev (s : Sched) (p : Option ℕ) (new : ℕ) :
    ∃ s', s' = (match p with | some p => s.setNext p (some new) | none => s) ∧
      (∀ t, s'.next t = if p = some t then some new else s.next t) ∧ s'.prev = s.prev ∧ SameTasks s s' ∧
      s'.current = s.current ∧ s'.available = s.available ∧ s'.sleeping = s.sleeping ∧ s'.waiting = s.waiting := by
  cases p with
  | none => exact ⟨s, rfl, fun t => by simp, rfl, .refl s, rfl, rfl, rfl, rfl⟩
  | some p =>
    refine ⟨_, rfl, fun t => ?_, s.setNext_prev p _, s.sameTasks_setNext p _, rfl, rfl, rfl, rfl⟩
    rw [setNext_next]
    by_cases ht : t = p
    · subst ht; simp
    · rw [Function.update_of_ne ht, if_neg fun h => ht (Option.some.inj h).symm]

theorem replaceTask_kept (s : Sched) (c t : ℕ) : ((s.replaceTask c).task t).runnable = (s.task t).runnable ∧
    ((s.replaceTask c).task t).waiting = (s.task t).waiting ∧
    ((s.replaceTask c).task t).sleepTime = (s.task t).sleepTime ∧ ((s.replaceTask c).task t).pid = (s.task t).pid := by
  by_cases ht : t = c
  · subst ht; simp [replaceTask]
  · simp [replaceTask, ht]

theorem spliced_replaceTask (hne : c ≠ new) : Spliced c new s ((s.placeTask c new).replaceTask c) := by
  obtain ⟨s₁, hs₁⟩ : ∃ s₁, s₁ = s.modify new fun k => { k with parent := (s.task c).parent, pid := (s.task c).pid } :=
    ⟨_, rfl⟩
  obtain ⟨s₂, hs₂, hnext₂, hprev₂, hsame, hrest⟩ := splice_prev s₁ (s.prev c) new
  have hplace : s.placeTask c new = s₂.setNext new (s.next c) := by rw [placeTask, hs₂, hs₁]
  have hnext₁ : s₁.next = s.next := hs₁ ▸ s.modify_next new fun _ => rfl
  have hprev₁ : s₁.prev = s.prev := hs₁ ▸ s.modify_prev new fun _ => rfl
  have hflags₁ : ∀ t, (s₁.task t).runnable = (s.task t).runnable ∧ (s₁.task t).waiting = (s.task t).waiting ∧
      (s₁.task t).sleepTime = (s.task t).sleepTime := fun t => by
    by_cases ht : t = new
    · subst ht; simp [hs₁]
    · simp [hs₁, ht]
  have hsame' : SameTasks s₁ (s₂.setNext new (s.next c)) := hsame.trans (sameTasks_setNext _ _ _)
  have hcount₁ : s₁.count = s.count ∧ s₁.current = s.current ∧ s₁.clock = s.clock ∧ s₁.available = s.available ∧
      s₁.sleeping = s.sleeping ∧ s₁.waiting = s.waiting := by rw [hs₁]; exact ⟨rfl, rfl, rfl, rfl, rfl, rfl⟩
  rw [hplace]
  refine ⟨fun t => ?_, ⟨?_, ?_⟩, fun t => ?_, fun t => ?_, ?_, ?_⟩
  · obtain ⟨h₁, h₂, h₃⟩ := hflags₁ t
    obtain ⟨k₁, k₂, k₃, _⟩ := replaceTask_kept (s₂.setNext new (s.next c)) c t
    exact ⟨k₁.trans ((hsame'.runnable t).trans h₁), k₂.trans ((hsame'.waiting t).trans h₂),
      k₃.trans ((hsame'.sleepTime t).trans h₃)⟩
  · rw [(replaceTask_kept _ c c).2.2.2, hsame'.taskPid, hs₁, modify_task_of_ne _ _ hne]
  · rw [(replaceTask_kept _ c new).2.2.2, hsame'.taskPid, hs₁, modify_task_self]
  · by_cases htc : t = c
    · subst htc; rw [if_pos rfl, replaceTask, next, modify_task_self]
    · rw [if_neg htc, replaceTask, next, modify_task_of_ne _ _ htc, ← next, setNext_next]
      by_cases htn : t = new
      · subst htn; rw [if_pos rfl, Function.update_self]
      · rw [if_neg htn, Function.update_of_ne htn, hnext₂, hnext₁]
  · by_cases htc : t = c
    · subst htc; rw [if_pos rfl, replaceTask, prev, modify_task_self]
    · rw [if_neg htc, replaceTask, prev, modify_task_of_ne _ _ htc, ← prev, setNext_prev, hprev₂, hprev₁]
  · exact ⟨hsame'.count.trans hcount₁.1, hrest.1.trans hcount₁.2.1, hsame'.clock.trans hcount₁.2.2.1⟩
  · obtain ⟨_, h₁, h₂, h₃⟩ := hrest
    exact ⟨h₁.trans hcount₁.2.2.2.1, h₂.trans hcount₁.2.2.2.2.1, h₃.trans hcount₁.2.2.2.2.2⟩

structure Leads (s : Sched) (new : ℕ) (h : Option ℕ) (l : List ℕ) : Prop where
  head : ∀ t, h = some t → t ∈ l
  next : ∀ t ∈ l, ∀ u, s.next t = some u → u ∈ l ∨ u = new
  prev : ∀ t ∈ l, ∀ u, s.prev t = some u → u ∈ l

theorem Leads.search {h : Option ℕ} {l : List ℕ} {ok : ℕ → Bool} {n x : ℕ} (hl : Leads s new h l)
    (hok : ok new = true) (hs : search s.next ok n h = some (some x)) : x ∈ l ∨ x = new := by
  obtain ⟨_, path, hpath, hno⟩ := search_some hs
  refine seg_closed (p := fun t => t ∈ l ∨ t = new) hpath (fun t ht => .inl (hl.head t ht)) fun t ht hp u hu => ?_
  rcases hp with hp | rfl
  · exact hl.next t hp u hu
  · -- the search would have stopped at `new`
    exact absurd (hno t ht) (by simp [hok])

theorem Leads.unlink_next {h : Option ℕ} {l : List ℕ} {x t : ℕ} (hl : Leads s new h l) (hx : x ∈ l) (ht : t ∉ l) :
    (s.unlink x).next t = s.next t := by
  rw [Sched.unlink_next]
  exact unlinkNext_of_ne fun he => ht (hl.prev x hx t he)

structure Doubled (q : Queues) (c new : ℕ) (s : Sched) : Prop where
  current : s.current = some c
  path : ∃ l, (∀ t ∈ l, t ∈ q.available) ∧ Seg s.next s.available l (some new)
  sleeping : Leads s new s.sleeping q.sleeping
  waiting : Leads s new s.waiting q.waiting
  disjoint : q.all.Nodup
  apart : c ∉ q.available
  ready : s.ready c = true ∧ s.ready new = true

theorem Doubled.getNextTask (h : Doubled q c new s) {x : ℕ} (hg : s.getNextTask = some (x, s')) :
    x = new ∨ ∃ l, (∀ t ∈ l, t ∈ q.available) ∧ Seg s'.next s'.available l (some new) := by
  obtain ⟨l, hsub, hl⟩ := h.path
  obtain ⟨_, _, _, _, hd⟩ := Rep.disjoint_iff.mp h.disjoint
  obtain ⟨⟨_, haw⟩, hrel⟩ : ((s.task new).runnable = true ∧ s.awake new = true) ∧ s.released new = true := by
    simpa only [Sched.ready, Bool.and_eq_true] using h.ready.2
  obtain ⟨r, hr, hg⟩ := Option.bind_eq_some_iff.mp hg
  cases r with
  | some y =>
    obtain ⟨rfl, rfl⟩ := Prod.mk.inj (Option.some.inj hg)
    refine (h.sleeping.search haw hr).symm.imp_right fun hy => ⟨l, hsub, ?_⟩
    simp only [takeSleeping, (s.unlink_lists y).2.1]
    exact seg_congr (fun t ht => h.sleeping.unlink_next hy (hd t (hsub t ht)).1) hl
  | none =>
    obtain ⟨r, hr, hg⟩ := Option.bind_eq_some_iff.mp hg
    cases r with
    | some y =>
      obtain ⟨rfl, rfl⟩ := Prod.mk.inj (Option.some.inj hg)
      refine (h.waiting.search hrel hr).symm.imp_right fun hy => ⟨l, hsub, ?_⟩
      simp only [takeWaiting, (s.unlink_lists y).2.1]
      exact seg_congr (fun t ht => h.waiting.unlink_next hy (hd t (hsub t ht)).2) hl
    | none =>
      obtain ⟨r, hr, hg⟩ := Option.map_eq_some_iff.mp hg
      cases r with
      | none => exact absurd (search_none hr ⟨l, hl⟩) (by simp [h.ready.2])
      | some y =>
        obtain ⟨rfl, rfl⟩ := Prod.mk.inj hg
        obtain ⟨_, l₁, hl₁, hno⟩ := search_some hr
        have hnew : new ∉ l₁ := fun hm => by simpa [h.ready.2] using hno new hm
        rcases seg_compare hl₁ hl hnew with hy | ⟨l₂, he⟩
        · exact .inl hy
        · rw [he] at hl
          obtain ⟨_, _, rfl, hl⟩ := seg_append.mp hl
          exact .inr ⟨l₂, fun t ht => hsub t (by simp [he, ht]), hl⟩

theorem reschedule_on {t : ℕ} (hr : s.ready t = true) (h : s.reschedule t = some s') :
    On s'.next s'.available t ∧
      ∀ l x, t ∉ l → Seg s.next s.available l (some x) → On s'.next s'.available x := by
  simp only [ready, awake, released, Bool.and_eq_true, decide_eq_true_eq, Bool.not_eq_true'] at hr
  rw [reschedule, if_neg (by simp [hr.1.2, hr.2])] at h
  obtain ⟨⟨a, s₁⟩, hs₁, rfl⟩ := Option.map_eq_some_iff.mp h
  cases hav : s.available with
  | none =>
    rw [hav] at hs₁
    obtain ⟨rfl, rfl⟩ := Prod.mk.inj (Option.some.inj hs₁)
    refine ⟨⟨[], rfl⟩, fun l x _ hl => ?_⟩
    cases l <;> simp [Seg] at hl
  | some h =>
    rw [hav] at hs₁
    obtain ⟨cursor, hcur, he⟩ := Option.map_eq_some_iff.mp hs₁
    obtain ⟨rfl, rfl⟩ := Prod.mk.inj he
    obtain ⟨hon, hend⟩ := last_some hcur
    have hnext := (appended_writes s cursor t).next
    refine ⟨hnext ▸ on_append_self hon hend, fun l x ht hl => ⟨l, ?_⟩⟩
    exact hnext ▸ seg_append_of_notMem hl hend ht

theorem CanRun.of_available {t : ℕ} (hon : On s.next s.available t) (hr : s.ready t = true) : s.CanRun t :=
  .inr (.inr (.inr ⟨hon, hr⟩))

theorem Doubled.sysYield (h : Doubled q c new s) (hy : s.sysYield = some s') : s'.CanRun c ∧ s'.CanRun new := by
  have hframe := runNextTask_frame hy
  obtain ⟨⟨x, s₁⟩, hg, hy⟩ := Option.bind_eq_some_iff.mp hy
  obtain ⟨ht, _⟩ := getNextTask_frame hg
  obtain ⟨s₂, hs₂⟩ : ∃ s₂ : Sched, s₂ = { s₁ with current := some x } := ⟨_, rfl⟩
  have ht₂ : SameTasks s s₂ := hs₂ ▸ ⟨ht.core, ht.count, ht.idle, ht.clock, ht.pid⟩
  have hready : s₂.ready c = true := by rw [ht₂.ready]; exact h.ready.1
  have hawake : (s₂.task c).sleepTime ≤ s₂.ms := by
    simp only [Sched.ready, awake, Bool.and_eq_true, decide_eq_true_eq] at hready
    exact hready.1.2
  replace hy : switchTo (some c) x s₂ = some s' := by rw [hs₂, ← h.current]; exact hy
  simp only [switchTo, if_pos hawake] at hy
  obtain ⟨s₃, hs₃, rfl⟩ := Option.map_eq_some_iff.mp hy
  obtain ⟨hon, hpath⟩ := reschedule_on hready hs₃
  obtain ⟨hcur, hav, _⟩ := s₃.enter_lists x
  have hon' : ∀ t, On s₃.next s₃.available t → On (s₃.enter x).next (s₃.enter x).available t := fun t ht => by
    rwa [enter_next, hav]
  refine ⟨.of_available (hon' c hon) (by rw [hframe.ready]; exact h.ready.1), ?_⟩
  rcases h.getNextTask hg with rfl | ⟨l, hsub, hl⟩
  · left
    rw [hcur, (reschedule_frame hs₃).2, hs₂]
  · refine .of_available (hon' new (hpath l new (fun hm => h.apart (hsub c hm)) ?_)) (by rw [hframe.ready]; exact h.ready.2)
    rw [hs₂]
    exact hl

theorem Spliced.ready (h : Spliced c new s s') (t : ℕ) : s'.ready t = s.ready t := by
  obtain ⟨h₁, h₂, h₃⟩ := h.flags t
  have hms : s'.ms = s.ms := congrArg Ktime.ms h.rest.2.2
  simp only [Sched.ready, awake, released, h₁, h₂, h₃, hms]

theorem Spliced.leads (h : Spliced c new s s') {p : Option ℕ} {l : List ℕ} (hd : DChain s.next s.prev p l)
    (hc : c ∉ l) (hn : new ∉ l) : Leads s' new p l := by
  refine ⟨fun t ht => ?_, fun t ht u hu => ?_, fun t ht u hu => ?_⟩
  · exact (on_iff_mem (dchain_chain hd)).mp ⟨[], ht⟩
  · have htc : t ≠ c := fun he => hc (he ▸ ht)
    have htn : t ≠ new := fun he => hn (he ▸ ht)
    rw [h.next, if_neg htc, if_neg htn] at hu
    split at hu
    · exact .inr (Option.some.inj hu).symm
    · exact .inl (dchain_next_mem hd ht hu)
  · have htc : t ≠ c := fun he => hc (he ▸ ht)
    rw [h.prev, if_neg htc] at hu
    exact dchain_prev_mem hd ht hu

theorem doubled_splice (hi : Inv False s { q with available := q.available ++ [new] }) (hc : s.current = some c)
    (hne : c ≠ s.idle) (hnew : (s.task new).runnable = true) (h : Spliced c new s s') : Doubled q c new s' := by
  have hrun := hi.current c hc
  have hav : c ∉ q.available ∧ c ≠ new := by
    have : c ∉ q.available ++ [new] := fun hm => hne (hrun.available hm).1
    simpa using this
  obtain ⟨hnda, hnds, hndw, hsw, hd⟩ := Rep.disjoint_iff.mp hi.rep.disjoint
  have hnot := hd new (by simp)
  obtain ⟨m, hpath, rfl, _⟩ := seg_append.mp hi.rep.available
  constructor
  · exact h.rest.2.1.trans hc
  · have hkeep : ∀ t ∈ q.available, s'.next t = s.next t ∨ s'.next t = some new := by
      intro t ht
      have htn : t ≠ new := fun he => (List.nodup_append.mp hnda).2.2 t ht new (by simp) he
      have htc : t ≠ c := fun he => hav.1 (he ▸ ht)
      rw [h.next, if_neg htc, if_neg htn]
      split
      · exact .inr rfl
      · exact .inl rfl
    obtain ⟨l, hsub, hl⟩ := seg_redirect hpath hkeep
    exact ⟨l, hsub, h.lists.1 ▸ hl⟩
  · rw [h.lists.2.1]
    exact h.leads hi.rep.sleeping hrun.sleeping hnot.1
  · rw [h.lists.2.2]
    exact h.leads hi.rep.waiting hrun.waiting hnot.2
  · refine Rep.disjoint_iff.mpr ⟨(List.nodup_append.mp hnda).1, hnds, hndw, hsw, fun t ht => hd t (by simp [ht])⟩
  · exact hav.1
  · rw [h.ready, h.ready]
    have hfl := hi.flags.available new (by simp)
    exact ⟨by simp [Sched.ready, hrun.runnable hne, hrun.awake, hrun.released], by simp [Sched.ready, hnew, hfl]⟩

/-- After every `execve` the old task struct and the new one can both be dispatched under one pid. -/
theorem execve_not_replaced {s₁ : Sched} {name : List UInt8} {entry : BitVec 64} (h : Inv False s q)
    (hc : s.current = some c) (hne : c ≠ s.idle) (h₁ : s.execveReplace name entry c = some s₁)
    (h₂ : s₁.sysYield = some s') : ¬ Replaced c s.count s₁ s' := by
  have hbound := (h.current c hc).bound
  obtain ⟨sₐ, hsₐ, hi⟩ := schedule_inv true name entry h
  rw [execveReplace, hsₐ] at h₁
  obtain rfl := Option.some.inj h₁
  have hcur : ∀ m, s.current = some m → m = c ∧ m < s.count := fun m hm => by
    obtain rfl : c = m := Option.some.inj (hc.symm.trans hm)
    exact ⟨rfl, hbound⟩
  have hnew : (sₐ.task s.count).runnable = true := by
    rw [(Op.step_effect hsₐ hcur).runnable, Op.effect, createNewTask_eq, modify_task_self]
    simp [launch, newTask]
  rw [Op.step, createNewTask_eq] at hsₐ
  obtain ⟨ht, hcₐ⟩ := schedule_frame hsₐ
  have hsp : Spliced c s.count sₐ ((sₐ.placeTask c s.count).replaceTask c) := spliced_replaceTask hbound.ne
  have hboth := (doubled_splice hi (hcₐ.trans hc) (ht.idle ▸ hne) hnew hsp).sysYield h₂
  intro hr
  obtain ⟨t, _, huniq⟩ := hr.unique [] s' rfl
  have hpid := (runNextTask_frame h₂).taskPid
  have hold := huniq c ⟨hboth.1, by rw [hpid, hsp.pid.1, hsp.pid.2]⟩
  have hsec := huniq s.count ⟨hboth.2, hpid _⟩
  exact hbound.ne (hold.trans hsec.symm)

theorem execve_old_task_returns : ∃ s s₁ s', exec Op.step [.schedule true [] 0, .yield] boot = some s ∧
    s.current = some 1 ∧ s.execveReplace [] 0 1 = some s₁ ∧ s₁.sysYield = some s' ∧
    ¬ Replaced 1 s.count s₁ s' := by
  have hrun : ((exec Op.step [.schedule true [] 0, .yield] boot).bind fun s =>
      (s.execveReplace [] 0 1).bind fun s₁ => s₁.sysYield.bind fun s' =>
        (exec Op.step [.yield] s').map fun u => (s.current, u.current)) = some (some 1, some 1) := by decide
  obtain ⟨s, hs, hrun⟩ := Option.bind_eq_some_iff.mp hrun
  obtain ⟨s₁, hs₁, hrun⟩ := Option.bind_eq_some_iff.mp hrun
  obtain ⟨s', hs', hrun⟩ := Option.bind_eq_some_iff.mp hrun
  obtain ⟨u, hu, hrun⟩ := Option.map_eq_some_iff.mp hrun
  obtain ⟨hc, hcu⟩ := Prod.mk.inj hrun
  exact ⟨s, s₁, s', hs, hc, hs₁, hs', fun hr => hr.gone _ u hu hcu⟩

theorem execve_not_replaced_first_task : ∃ s s₁ s', exec Op.step [.schedule true [] 0, .yield] boot = some s ∧
    s.execveReplace [] 0 1 = some s₁ ∧ s₁.sysYield = some s' ∧ ¬ Replaced 1 s.count s₁ s' := by
  have hrun : ((exec Op.step [.schedule true [] 0, .yield] boot).bind fun s =>
      (s.execveReplace [] 0 1).bind fun s₁ => s₁.sysYield.map fun _ => (s.current, s.idle)) = some (some 1, 0) := by
    decide
  obtain ⟨s, hs, hrun⟩ := Option.bind_eq_some_iff.mp hrun
  obtain ⟨s₁, hs₁, hrun⟩ := Option.bind_eq_some_iff.mp hrun
  obtain ⟨s', hs', hrun⟩ := Option.map_eq_some_iff.mp hrun
  obtain ⟨hc, hidle⟩ := Prod.mk.inj hrun
  have hinv := (@inv_run False [.schedule true [] 0, .yield] (meets_of_check (fun _ _ => Op.clean_of_quiet) (by decide))).1
  obtain ⟨q, hq⟩ := exec_of_along hinv hs
  exact ⟨s, s₁, s', hs, hs₁, hs', execve_not_replaced hq hc (by rw [hidle]; decide) hs₁ hs'⟩

end Sched

end Os506
