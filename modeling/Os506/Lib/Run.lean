import Mathlib.Data.List.Basic

namespace Os506.Run

variable {σ α : Type}

/-- Every state that the run `as` from `s` goes through has `P`. -/
def Along (step : α → σ → Option σ) (P : σ → Prop) : σ → List α → Prop
  | s, [] => P s
  | s, a :: as => P s ∧ ∀ t, step a s = some t → Along step P t as

/-- Every action of the run is taken in a state that meets `C`. -/
def Meets (step : α → σ → Option σ) (C : α → σ → Prop) : σ → List α → Prop
  | _, [] => True
  | s, a :: as => C a s ∧ ∀ t, step a s = some t → Meets step C t as

/-- The state a run ends in, if each of its steps returns. -/
def exec (step : α → σ → Option σ) : List α → σ → Option σ
  | [], s => some s
  | a :: as, s => (step a s).bind (exec step as)

variable {step : α → σ → Option σ} {P I : σ → Prop} {C E : α → σ → Prop}

theorem along_mono (h : ∀ s, I s → P s) {s : σ} {as : List α} (ha : Along step I s as) :
    Along step P s as := by
  induction as generalizing s with
  | nil => exact h s ha
  | cons a as ih => exact ⟨h s ha.1, fun t ht => ih (ha.2 t ht)⟩

theorem along_of_step (hstep : ∀ a s t, I s → C a s → step a s = some t → I t)
    {s : σ} {as : List α} (hs : I s) (hm : Meets step C s as) : Along step I s as := by
  induction as generalizing s with
  | nil => exact hs
  | cons a as ih => exact ⟨hs, fun t ht => ih (hstep a s t hs hm.1 ht) (hm.2 t ht)⟩

theorem along_of_inv (hstep : ∀ a s t, I s → step a s = some t → I t) {s : σ} (hs : I s) (as : List α) :
    Along step I s as := by
  induction as generalizing s with
  | nil => exact hs
  | cons a as ih => exact ⟨hs, fun t ht => ih (hstep a s t hs ht)⟩

theorem meets_of_mem {D : α → Prop} {s : σ} {as : List α} (h : ∀ a ∈ as, D a) : Meets step (fun a _ => D a) s as := by
  induction as generalizing s with
  | nil => trivial
  | cons a as ih =>
    exact ⟨h a List.mem_cons_self, fun t _ => ih fun b hb => h b (List.mem_cons_of_mem a hb)⟩

theorem exec_of_step (hstep : ∀ a s, I s → C a s → ∃ t, step a s = some t ∧ I t)
    {s : σ} {as : List α} (hs : I s) (hm : Meets step C s as) :
    ∃ t, exec step as s = some t := by
  induction as generalizing s with
  | nil => exact ⟨s, rfl⟩
  | cons a as ih =>
    obtain ⟨t, ht, hi⟩ := hstep a s hs hm.1
    obtain ⟨u, hu⟩ := ih hi (hm.2 t ht)
    exact ⟨u, by simp [exec, ht, hu]⟩

theorem exec_inv_of_step (hstep : ∀ a s, I s → C a s → ∃ t, step a s = some t ∧ I t)
    {s : σ} {as : List α} (hs : I s) (hm : Meets step C s as) :
    ∃ t, exec step as s = some t ∧ I t := by
  induction as generalizing s with
  | nil => exact ⟨s, rfl, hs⟩
  | cons a as ih =>
    obtain ⟨t, ht, hi⟩ := hstep a s hs hm.1
    obtain ⟨u, hu, hiu⟩ := ih hi (hm.2 t ht)
    exact ⟨u, by simp [exec, ht, hu], hiu⟩

/-- Where a step keeps `P` exactly when it is taken under `C`, so does a run. -/
theorem along_iff_meets
    (hstep : ∀ a s, I s → P s → E a s → ∃ t, step a s = some t ∧ (P t → I t) ∧ (P t ↔ C a s))
    {s : σ} {as : List α} (hi : I s) (hp : P s) (he : Meets step E s as) :
    Along step P s as ↔ Meets step C s as := by
  induction as generalizing s with
  | nil => exact iff_of_true hp trivial
  | cons a as ih =>
    obtain ⟨t, ht, hit, hpt⟩ := hstep a s hi hp he.1
    have hone : ∀ u, step a s = some u → u = t := fun u hu => Option.some.inj (hu.symm.trans ht)
    constructor
    · intro h
      have hp' : P t := by
        have := h.2 t ht
        cases as with
        | nil => exact this
        | cons b as => exact this.1
      refine ⟨hpt.mp hp', fun u hu => ?_⟩
      rw [hone u hu]
      exact (ih (hit hp') hp' (he.2 t ht)).mp (h.2 t ht)
    · intro h
      have hp' := hpt.mpr h.1
      refine ⟨hp, fun u hu => ?_⟩
      rw [hone u hu]
      exact (ih (hit hp') hp' (he.2 t ht)).mpr (h.2 t ht)

theorem exec_append (step : α → σ → Option σ) (as bs : List α) (s : σ) :
    exec step (as ++ bs) s = (exec step as s).bind (exec step bs) := by
  induction as generalizing s with
  | nil => rfl
  | cons a as ih =>
    rw [List.cons_append, exec, exec, Option.bind_assoc]
    congr 1
    funext t
    exact ih t

/-- Some actions stand for one of another system and the rest for none: what that system reaches, a run reaches too. -/
theorem exec_of_simulation {β τ : Type} {abs : β → τ → Option τ} {visible : α → Option β} {R : σ → τ → Prop}
    (hhidden : ∀ a s u, visible a = none → R s u → ∃ t, step a s = some t ∧ R t u)
    (hvisible : ∀ a b s u v, visible a = some b → R s u → abs b u = some v → ∃ t, step a s = some t ∧ R t v)
    {s : σ} {u v : τ} {as : List α} (hR : R s u) (h : exec abs (as.filterMap visible) u = some v) :
    ∃ t, exec step as s = some t ∧ R t v := by
  induction as generalizing s u with
  | nil => exact ⟨s, rfl, Option.some.inj h ▸ hR⟩
  | cons a as ih =>
    cases hv : visible a with
    | none =>
      rw [List.filterMap_cons_none hv] at h
      obtain ⟨t, ht, hRt⟩ := hhidden a s u hv hR
      obtain ⟨t', ht', hR'⟩ := ih hRt h
      exact ⟨t', by rw [exec, ht, Option.bind_some, ht'], hR'⟩
    | some b =>
      rw [List.filterMap_cons_some hv] at h
      obtain ⟨w, hw, h⟩ := Option.bind_eq_some_iff.mp h
      obtain ⟨t, ht, hRt⟩ := hvisible a b s u w hv hR hw
      obtain ⟨t', ht', hR'⟩ := ih hRt h
      exact ⟨t', by rw [exec, ht, Option.bind_some, ht'], hR'⟩

theorem meets_append {s : σ} {as bs : List α} :
    Meets step C s (as ++ bs) ↔ Meets step C s as ∧ ∀ t, exec step as s = some t → Meets step C t bs := by
  induction as generalizing s with
  | nil => exact ⟨fun h => ⟨trivial, fun t ht => Option.some.inj ht ▸ h⟩, fun h => h.2 s rfl⟩
  | cons a as ih =>
    constructor
    · rintro ⟨hc, hrest⟩
      refine ⟨⟨hc, fun t ht => (ih.mp (hrest t ht)).1⟩, fun u hu => ?_⟩
      obtain ⟨t, ht, hu⟩ := Option.bind_eq_some_iff.mp hu
      exact (ih.mp (hrest t ht)).2 u hu
    · rintro ⟨⟨hc, hrest⟩, htail⟩
      refine ⟨hc, fun t ht => ih.mpr ⟨hrest t ht, fun u hu => htail u ?_⟩⟩
      exact Option.bind_eq_some_iff.mpr ⟨t, ht, hu⟩

def check (step : α → σ → Option σ) (c : α → σ → Bool) : σ → List α → Bool
  | _, [] => true
  | s, a :: as => c a s && (step a s).all fun t => check step c t as

theorem meets_of_check {c : α → σ → Bool} (hc : ∀ a s, c a s = true → C a s) {s : σ} {as : List α}
    (h : check step c s as = true) : Meets step C s as := by
  induction as generalizing s with
  | nil => trivial
  | cons a as ih =>
    simp only [check, Bool.and_eq_true] at h
    refine ⟨hc a s h.1, fun t ht => ih ?_⟩
    simpa [ht] using h.2

theorem meets_of_exec {s : σ} {as : List α} (h : (exec step as s).isSome = true) :
    Meets step (fun a s => (step a s).isSome = true) s as := by
  induction as generalizing s with
  | nil => trivial
  | cons a as ih =>
    obtain ⟨u, hu⟩ := Option.isSome_iff_exists.mp h
    obtain ⟨t, ht, hu⟩ := Option.bind_eq_some_iff.mp hu
    refine ⟨Option.isSome_iff_exists.mpr ⟨t, ht⟩, fun t' ht' => ih ?_⟩
    rw [Option.some.inj (ht'.symm.trans ht), hu]
    rfl

theorem exec_of_along {s t : σ} {as : List α} (h : Along step P s as) (he : exec step as s = some t) : P t := by
  induction as generalizing s with
  | nil => exact Option.some.inj he ▸ h
  | cons a as ih =>
    obtain ⟨u, hu, he⟩ := Option.bind_eq_some_iff.mp he
    exact ih (h.2 u hu) he

theorem not_along_of_exec {b : σ → Bool} (hb : ∀ t, b t = true → ¬ P t) {s : σ} {as : List α}
    (h : (exec step as s).any b = true) : ¬ Along step P s as := by
  intro ha
  obtain ⟨t, ht, hbt⟩ := (Option.any_eq_true _ _).mp h
  exact hb t hbt (exec_of_along ha ht)

end Os506.Run
