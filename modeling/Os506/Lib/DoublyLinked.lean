import Os506.Lib.Linked

namespace Os506.Linked

variable {α : Type}

/-- A segment whose nodes also point back; `p` precedes it and `p'` is its last node. -/
def DSeg (next prev : α → Option α) : Option α → Option α → List α → Option α → Option α → Prop
  | p, h, [], p', q => p = p' ∧ h = q
  | p, h, x :: l, p', q => h = some x ∧ prev x = p ∧ DSeg next prev (some x) (next x) l p' q

abbrev DChain (next prev : α → Option α) (h : Option α) (l : List α) : Prop :=
  ∃ p, DSeg next prev none h l p none

theorem dseg_append {next prev : α → Option α} {p h p' q : Option α} {l₁ l₂ : List α} :
    DSeg next prev p h (l₁ ++ l₂) p' q ↔
      ∃ r m, DSeg next prev p h l₁ r m ∧ DSeg next prev r m l₂ p' q := by
  induction l₁ generalizing p h with
  | nil =>
    constructor
    · intro hs; exact ⟨p, h, ⟨rfl, rfl⟩, hs⟩
    · rintro ⟨r, m, ⟨rfl, rfl⟩, hs⟩; exact hs
  | cons x l₁ ih => simp [DSeg, ih, and_assoc]

theorem dseg_congr {next prev next' prev' : α → Option α} {l : List α} {p h p' q : Option α}
    (hn : ∀ x ∈ l, next' x = next x) (hp : ∀ x ∈ l, prev' x = prev x)
    (hs : DSeg next prev p h l p' q) : DSeg next' prev' p h l p' q := by
  induction l generalizing p h with
  | nil => exact hs
  | cons x l ih =>
    obtain ⟨rfl, rfl, hs⟩ := hs
    refine ⟨rfl, hp x (by simp), ?_⟩
    rw [hn x (by simp)]
    exact ih (fun y hy => hn y (List.mem_cons_of_mem _ hy)) (fun y hy => hp y (List.mem_cons_of_mem _ hy)) hs

theorem dseg_seg {next prev : α → Option α} {p h p' q : Option α} {l : List α}
    (hs : DSeg next prev p h l p' q) : Seg next h l q := by
  induction l generalizing p h with
  | nil => exact hs.2
  | cons x l ih => exact ⟨hs.1, ih hs.2.2⟩

theorem dseg_prev_mem {next prev : α → Option α} {p h p' q : Option α} {l : List α} {x y : α}
    (hs : DSeg next prev p h l p' q) (hx : x ∈ l) (hy : prev x = some y) : y ∈ l ∨ p = some y := by
  induction l generalizing p h with
  | nil => cases hx
  | cons z l ih =>
    rcases List.mem_cons.mp hx with rfl | hx
    · exact .inr (hs.2.1 ▸ hy)
    · rcases ih hs.2.2 hx with h | h
      · exact .inl (List.mem_cons_of_mem _ h)
      · exact .inl (by simp [Option.some.inj h])

theorem dchain_prev_mem {next prev : α → Option α} {h : Option α} {l : List α} {x y : α}
    (hd : DChain next prev h l) (hx : x ∈ l) (hy : prev x = some y) : y ∈ l := by
  obtain ⟨p, hs⟩ := hd
  exact (dseg_prev_mem hs hx hy).resolve_right (by simp)

theorem dchain_chain {next prev : α → Option α} {h : Option α} {l : List α}
    (hd : DChain next prev h l) : Chain next h l := dseg_seg hd.choose_spec

theorem dchain_next_mem {next prev : α → Option α} {h : Option α} {l : List α} {x y : α}
    (hd : DChain next prev h l) (hx : x ∈ l) (hy : next x = some y) : y ∈ l :=
  (seg_next_mem (dchain_chain hd) hx hy).resolve_right (by simp)

theorem dseg_last {next prev : α → Option α} {p h p' q : Option α} {l : List α}
    (hs : DSeg next prev p h l p' q) (hne : l ≠ []) : p' = some (l.getLast hne) := by
  induction l generalizing p h with
  | nil => exact absurd rfl hne
  | cons x l ih =>
    cases l with
    | nil => exact hs.2.2.1.symm
    | cons y l => simpa using ih hs.2.2 (by simp)

theorem dchain_singleton {next prev : α → Option α} {t : α} (hn : next t = none) (hp : prev t = none) :
    DChain next prev (some t) [t] := ⟨some t, rfl, hp, rfl, hn⟩

theorem dseg_tail_unlink {next prev next' prev' : α → Option α} {p p' : Option α} {x : α} {l : List α}
    (hnd : l.Nodup) (hs : DSeg next prev (some x) (next x) l p' none)
    (hn : ∀ y ∈ l, next' y = next y) (hp : ∀ y ∈ l, next x = some y → prev' y = p)
    (hr : ∀ y ∈ l, next x ≠ some y → prev' y = prev y) :
    ∃ r, DSeg next' prev' p (next x) l r none := by
  cases l with
  | nil => exact ⟨p, rfl, hs.2⟩
  | cons y l =>
    obtain ⟨hy, _, hs⟩ := hs
    refine ⟨p', hy, hp y (by simp) hy, ?_⟩
    rw [hn y (by simp)]
    apply dseg_congr (fun z hz => hn z (List.mem_cons_of_mem _ hz)) _ hs
    intro z hz
    apply hr z (List.mem_cons_of_mem _ hz)
    intro he
    rw [hy] at he
    exact (List.nodup_cons.mp hnd).1 (Option.some.inj he ▸ hz)

variable [DecidableEq α]

def unlinkNext (next prev : α → Option α) (x : α) : α → Option α :=
  match prev x with
  | some p => Function.update next p (next x)
  | none => next

def unlinkPrev (next prev : α → Option α) (x : α) : α → Option α :=
  match next x with
  | some n => Function.update prev n (prev x)
  | none => prev

theorem unlinkPrev_of_ne {next prev : α → Option α} {x y : α} (h : next x ≠ some y) :
    unlinkPrev next prev x y = prev y := by
  cases hn : next x with
  | none => simp [unlinkPrev, hn]
  | some n => simp [unlinkPrev, hn, Function.update_of_ne (fun he : y = n => h (he ▸ hn))]

theorem unlinkNext_of_ne {next prev : α → Option α} {x y : α} (h : prev x ≠ some y) :
    unlinkNext next prev x y = next y := by
  cases hp : prev x with
  | none => simp [unlinkNext, hp]
  | some p => simp [unlinkNext, hp, Function.update_of_ne (fun he : y = p => h (he ▸ hp))]

theorem dchain_unlink {next prev : α → Option α} {h : Option α} {l₁ l₂ : List α} {x : α}
    (hd : DChain next prev h (l₁ ++ x :: l₂)) :
    DChain (unlinkNext next prev x) (unlinkPrev next prev x)
      (if h = some x then next x else h) (l₁ ++ l₂) := by
  have hnd := chain_nodup (dchain_chain hd)
  obtain ⟨p', hs⟩ := hd
  obtain ⟨r, m, h₁, h₂⟩ := dseg_append.mp hs
  obtain ⟨rfl, hx, h₂⟩ := h₂
  rw [List.nodup_append] at hnd
  obtain ⟨nd₁, nd₂, disj⟩ := hnd
  obtain ⟨hx₂, nd₂⟩ := List.nodup_cons.mp nd₂
  have hafter : ∀ y, next x = some y → y ∈ l₂ := by
    intro y hy
    cases l₂ with
    | nil => exact absurd (hy ▸ h₂.2) (by simp)
    | cons z l₂ => simp [Option.some.inj (hy.symm.trans h₂.1)]
  have hprev : ∀ y, next x = some y → unlinkPrev next prev x y = prev x := by
    intro y hy; simp [unlinkPrev, hy]
  rcases List.eq_nil_or_concat l₁ with rfl | ⟨l₀, p, rfl⟩
  · obtain ⟨rfl, rfl⟩ := h₁
    have hun : unlinkNext next prev x = next := by simp [unlinkNext, hx]
    rw [if_pos rfl, hun]
    exact dseg_tail_unlink nd₂ h₂ (fun y _ => rfl) (fun y _ hy => (hprev y hy).trans hx)
      (fun y _ hy => unlinkPrev_of_ne hy)
  · have hr : prev x = some p := by rw [hx, dseg_last h₁ (by simp)]; simp
    rw [List.concat_eq_append] at *
    obtain ⟨r₀, m₀, h₀, hp⟩ := dseg_append.mp h₁
    obtain ⟨rfl, hpp, rfl, hpx⟩ := hp
    have hhx : h ≠ some x := by
      rintro rfl
      have : x ∈ l₀ ++ [p] := by
        cases l₀ with
        | nil => have := h₁.1; simp_all
        | cons z l₀ => have := h₁.1; simp_all
      exact disj x this x (by simp) rfl
    rw [if_neg hhx, List.append_assoc]
    have hpl : p ∉ l₀ := fun hm => by
      have := (List.nodup_append.mp nd₁).2.2 p hm p (by simp); exact this rfl
    have hne : ∀ y ∈ l₀ ++ [p], next x ≠ some y := fun y hy he => disj y hy y (by simp [hafter y he]) rfl
    obtain ⟨r', h₂'⟩ : ∃ r', DSeg (unlinkNext next prev x) (unlinkPrev next prev x) (some p) (next x) l₂ r' none :=
      dseg_tail_unlink nd₂ h₂ (fun y hy => unlinkNext_of_ne fun he => by
        rw [hr] at he
        exact disj p (by simp) y (by simp [hy]) (Option.some.inj he))
      (fun y _ hy => (hprev y hy).trans hr) (fun y _ hy => unlinkPrev_of_ne hy)
    refine ⟨r', dseg_append.mpr ⟨r₀, some p, ?_, rfl, ?_, ?_⟩⟩
    · apply dseg_congr _ _ h₀
      · intro y hy
        exact unlinkNext_of_ne fun he => by rw [hr] at he; exact hpl (Option.some.inj he ▸ hy)
      · intro y hy
        exact unlinkPrev_of_ne (hne y (by simp [hy]))
    · rw [unlinkPrev_of_ne (hne p (by simp)), hpp]
    · have hup : unlinkNext next prev x p = next x := by simp [unlinkNext, hr]
      rw [hup]
      exact h₂'

theorem dchain_append_last {next prev : α → Option α} {h : Option α} {l : List α} {t : α}
    (hd : DChain next prev h l) (hne : l ≠ []) (ht : t ∉ l) :
    DChain (Function.update (Function.update next (l.getLast hne) (some t)) t none)
      (Function.update prev t (some (l.getLast hne))) h (l ++ [t]) := by
  obtain ⟨p', hs⟩ := hd
  have hnd := chain_nodup (dseg_seg hs)
  rcases List.eq_nil_or_concat l with rfl | ⟨l₀, c, rfl⟩
  · exact absurd rfl hne
  · simp only [List.concat_eq_append] at *
    obtain ⟨r, m, h₀, rfl, hc, hp, hm⟩ := dseg_append.mp hs
    have hct : c ≠ t := by rintro rfl; simp at ht
    have htl : ∀ y ∈ l₀, y ≠ t := by rintro y hy rfl; simp [hy] at ht
    have hcl : ∀ y ∈ l₀, y ≠ c := by
      rintro y hy rfl
      exact (List.nodup_append.mp hnd).2.2 y hy y (by simp) rfl
    refine ⟨some t, ?_⟩
    rw [List.append_assoc]
    refine dseg_append.mpr ⟨r, some c, ?_, rfl, ?_, ?_⟩
    · apply dseg_congr _ _ h₀
      · intro y hy; simp [htl y hy, hcl y hy]
      · intro y hy; simp [htl y hy]
    · simp [hct, hc]
    · simp [DSeg, hct]

end Os506.Linked
