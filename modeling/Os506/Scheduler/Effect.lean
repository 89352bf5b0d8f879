import Os506.Scheduler.Spawning

namespace Os506

open Sched

namespace Op

/-- What a step called by `c` does to the task structs, their list links left aside. -/
def effect (c : ℕ) : Op → Sched → Sched
  | schedule userp name entry, s => (s.createNewTask userp name).2.modify s.count (launch entry)
  | yield, s => s
  | sleep msec, s => s.modify c fun k => { k with sleepTime := (s.ms + msec.toNat) % 2 ^ 64 }
  | wait4 pid, s => if (s.task c).numChildren = 0 then s else s.waitFor c pid
  | fork entry, s => ((s.forkProcess c).2.modify s.count (launch entry)).modify s.count
      fun k => { k with rax := 0, firstRun := false }
  | exit, s => s.exitCurrent c
  | tick, s => { s with clock := s.clock.addTick }

end Op

namespace Sched

variable {s s' s'' : Sched}

theorem SameTasks.modify (h : SameTasks s s') (t : ℕ) {f : Task → Task}
    (hf : ∀ k k', k.core = k'.core → (f k).core = (f k').core) : SameTasks (s.modify t f) (s'.modify t f) := by
  refine ⟨fun u => ?_, h.count, h.idle, h.clock, h.pid⟩
  by_cases hu : u = t
  · subst hu; simpa using hf _ _ (h.core u)
  · simpa [hu] using h.core u

theorem schedule_frame {t : ℕ} {entry : BitVec 64} (h : s.schedule t entry = some s') :
    SameTasks (s.modify t (launch entry)) s' ∧ s'.current = s.current := by
  rw [schedule_eq] at h
  split at h
  · exact reschedule_frame h
  · exact Option.some.inj h ▸ ⟨.refl _, rfl⟩

theorem sysWait4_frame {pid : BitVec 32} {a : WaitAnswer} {c : ℕ} (hc : s.current = some c)
    (h : s.sysWait4 pid = some (a, s')) : SameTasks ((Op.wait4 pid).effect c s) s' := by
  simp only [sysWait4, hc, Option.bind_some] at h
  simp only [Op.effect]
  split at h
  · rename_i hz
    obtain rfl : s = s' := congrArg Prod.snd (Option.some.inj h)
    rw [if_pos hz]
    exact .refl _
  · rename_i hz
    rw [if_neg hz]
    obtain ⟨s₁, hs₁, h⟩ := Option.bind_eq_some_iff.mp h
    obtain ⟨s₂, hs₂, h⟩ := Option.map_eq_some_iff.mp h
    obtain rfl := congrArg Prod.snd h
    exact ((addWaitingTask_frame hs₁).1.modify c fun k k' hk => by simp_all [Task.core]).trans (runNextTask_frame hs₂)

end Sched

theorem Op.step_effect {op : Op} {s s' : Sched} {c : ℕ} (h : op.step s = some s')
    (hc : ∀ m, s.current = some m → m = c ∧ m < s.count) : SameTasks (op.effect c s) s' := by
  cases op with
  | schedule userp name entry =>
    rw [step, createNewTask_eq] at h
    rw [effect, createNewTask_eq]
    exact (schedule_frame h).1
  | yield => exact runNextTask_frame h
  | sleep msec =>
    obtain ⟨s₁, hs₁, h⟩ := Option.bind_eq_some_iff.mp h
    obtain ⟨m, hm, hs₁⟩ := Option.bind_eq_some_iff.mp hs₁
    obtain ⟨rfl, _⟩ := hc m hm
    exact (addSleepingTask_frame hs₁).1.trans (runNextTask_frame h)
  | wait4 pid =>
    obtain ⟨⟨a, s₁⟩, hs₁, rfl⟩ := Option.map_eq_some_iff.mp h
    obtain ⟨m, hm, _⟩ := Option.bind_eq_some_iff.mp hs₁
    obtain ⟨rfl, _⟩ := hc m hm
    exact sysWait4_frame hm hs₁
  | fork entry =>
    obtain ⟨⟨a, s₁⟩, hs₁, rfl⟩ := Option.map_eq_some_iff.mp h
    obtain ⟨m, hm, hs₁⟩ := Option.bind_eq_some_iff.mp hs₁
    obtain ⟨rfl, hb⟩ := hc m hm
    simp only [forkProcess_eq s hb, effect] at hs₁ ⊢
    obtain ⟨s₂, hs₂, he⟩ := Option.map_eq_some_iff.mp hs₁
    obtain rfl := congrArg Prod.snd he
    exact (schedule_frame hs₂).1.modify s.count fun k k' hk => by simp_all [Task.core]
  | exit =>
    obtain ⟨m, hm, h⟩ := Option.bind_eq_some_iff.mp h
    obtain ⟨rfl, _⟩ := hc m hm
    exact runNextTask_frame h
  | tick => exact Option.some.inj h ▸ .refl _

end Os506
