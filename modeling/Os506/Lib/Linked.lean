import Mathlib.Data.List.Nodup
import Mathlib.Data.Finset.Card
import Mathlib.Data.Finset.Range
import Mathlib.Logic.Function.Basic

namespace Os506.Linked

variable {α : Type}

/-- Following `next` from the pointer `h` visits `l` and arrives at the pointer `q`. -/
def Seg (next : α → Option α) : Option α → List α → Option α → Prop
  | h, [], q => h = q
  | h, x :: l, q => h = some x ∧ Seg next (next x) l q

abbrev Chain (next : α → Option α) (h : Option α) (l : List α) : Prop := Seg next h l none

theorem seg_append {next : α → Option α} {h q : Option α} {l₁ l₂ : List α} :
    Seg next h (l₁ ++ l₂) q ↔ ∃ m, Seg next h l₁ m ∧ Seg next m l₂ q := by
  induction l₁ generalizing h with
  | nil => simp [Seg]
  | cons x l₁ ih => simp [Seg, ih, and_assoc]

theorem seg_congr {next next' : α → Option α} {l : List α} {h q : Option α}
    (he : ∀ x ∈ l, next' x = next x) (hs : Seg next h l q) : Seg next' h l q := by
  induction l generalizing h with
  | nil => exact hs
  | cons x l ih =>
    obtain ⟨rfl, hs⟩ := hs
    refine ⟨rfl, ih (fun y hy => he y (List.mem_cons_of_mem _ hy)) ?_⟩
    rwa [he x (by simp)]

theorem chain_unique {next : α → Option α} {h : Option α} {l l' : List α}
    (hl : Chain next h l) (hl' : Chain next h l') : l = l' := by
  induction l generalizing h l' with
  | nil =>
    cases l' with
    | nil => rfl
    | cons y l' => simp_all [Seg]
  | cons x l ih =>
    cases l' with
    | nil => simp_all [Seg]
    | cons y l' =>
      obtain ⟨rfl, hl⟩ := hl
      obtain ⟨hy, hl'⟩ := hl'
      obtain rfl : x = y := Option.some.inj hy
      rw [ih hl hl']

theorem chain_nodup {next : α → Option α} {h : Option α} {l : List α}
    (hl : Chain next h l) : l.Nodup := by
  induction l generalizing h with
  | nil => exact List.nodup_nil
  | cons x l ih =>
    refine List.nodup_cons.mpr ⟨fun hx => ?_, ih hl.2⟩
    obtain ⟨l₁, l₂, rfl⟩ := List.append_of_mem hx
    obtain ⟨m, _, hm⟩ := seg_append.mp hl.2
    have he := congrArg List.length (chain_unique hl.2 hm.2)
    simp only [List.length_append, List.length_cons] at he
    omega

theorem chain_head {next : α → Option α} {h : Option α} {l : List α}
    (hl : Chain next h l) : h = l.head? := by
  cases l with
  | nil => exact hl
  | cons x l => exact hl.1

theorem seg_next_mem {next : α → Option α} {h q : Option α} {l : List α} {x y : α}
    (hs : Seg next h l q) (hx : x ∈ l) (hy : next x = some y) : y ∈ l ∨ q = some y := by
  induction l generalizing h with
  | nil => cases hx
  | cons z l ih =>
    rcases List.mem_cons.mp hx with rfl | hx
    · cases l with
      | nil => exact .inr (hs.2 ▸ hy)
      | cons w l => exact .inl (by simp [Option.some.inj (hy.symm.trans hs.2.1)])
    · rcases ih hs.2 hx with h | h
      · exact .inl (List.mem_cons_of_mem _ h)
      · exact .inr h

def On (next : α → Option α) (h : Option α) (x : α) : Prop := ∃ l, Seg next h l (some x)

theorem on_iff_mem {next : α → Option α} {h : Option α} {l : List α} {x : α} (hl : Chain next h l) :
    On next h x ↔ x ∈ l := by
  constructor
  · rintro ⟨l', hl'⟩
    induction l' generalizing h l with
    | nil =>
      cases l with
      | nil => exact absurd (hl'.symm.trans hl) (by simp)
      | cons y l => simp [Option.some.inj (hl'.symm.trans hl.1)]
    | cons y l' ih =>
      cases l with
      | nil => exact absurd (hl'.1.symm.trans hl) (by simp)
      | cons z l =>
        obtain rfl : z = y := Option.some.inj (hl.1.symm.trans hl'.1)
        exact List.mem_cons_of_mem _ (ih hl.2 hl'.2)
  · intro hx
    obtain ⟨l₁, l₂, rfl⟩ := List.append_of_mem hx
    obtain ⟨m, hm, rfl, _⟩ := seg_append.mp hl
    exact ⟨l₁, hm⟩

/-- Walk `next` to the first node that passes `ok`; no answer when the fuel runs out. -/
def search (next : α → Option α) (ok : α → Bool) : ℕ → Option α → Option (Option α)
  | _, none => some none
  | 0, some _ => none
  | n + 1, some x => if ok x then some (some x) else search next ok n (next x)

theorem search_chain {next : α → Option α} (ok : α → Bool) {h : Option α} {l : List α} {n : ℕ}
    (hl : Chain next h l) (hn : l.length ≤ n) : search next ok n h = some (l.find? ok) := by
  induction l generalizing h n with
  | nil => cases hl; cases n <;> rfl
  | cons x l ih =>
    obtain ⟨rfl, hl⟩ := hl
    obtain ⟨m, rfl⟩ : ∃ m, n = m + 1 := ⟨n - 1, by simp only [List.length_cons] at hn; omega⟩
    simp only [List.length_cons, Nat.add_le_add_iff_right] at hn
    by_cases hx : ok x
    · simp [search, hx]
    · simp [search, hx, ih hl hn]

theorem search_mono {next : α → Option α} {ok : α → Bool} {h : Option α} {r : Option α} {n m : ℕ}
    (hs : search next ok n h = some r) (hm : n ≤ m) : search next ok m h = some r := by
  induction n generalizing h m with
  | zero =>
    cases h with
    | none => cases m <;> exact hs
    | some x => cases hs
  | succ n ih =>
    obtain ⟨m, rfl⟩ : ∃ k, m = k + 1 := ⟨m - 1, by omega⟩
    cases h with
    | none => exact hs
    | some x =>
      rw [search] at hs ⊢
      split at hs
      · rw [if_pos ‹_›, hs]
      · rw [if_neg ‹_›, ih hs (by omega)]

theorem search_some {next : α → Option α} {ok : α → Bool} {h : Option α} {x : α} {n : ℕ}
    (hs : search next ok n h = some (some x)) :
    ok x = true ∧ ∃ l, Seg next h l (some x) ∧ ∀ y ∈ l, ok y = false := by
  induction n generalizing h with
  | zero => cases h <;> simp [search] at hs
  | succ n ih =>
    cases h with
    | none => simp [search] at hs
    | some y =>
      by_cases hy : ok y = true
      · obtain rfl : y = x := by simpa [search, hy] using hs
        exact ⟨hy, [], rfl, by simp⟩
      · obtain ⟨hx, l, hl, hno⟩ := ih (by simpa [search, hy] using hs)
        refine ⟨hx, y :: l, ⟨rfl, hl⟩, ?_⟩
        simpa [hy] using hno

theorem search_none {next : α → Option α} {ok : α → Bool} {h : Option α} {n : ℕ}
    (hs : search next ok n h = some none) {y : α} (hy : On next h y) : ok y = false := by
  obtain ⟨l, hl⟩ := hy
  induction n generalizing h l with
  | zero =>
    cases h with
    | none => cases l <;> simp [Seg] at hl
    | some x => simp [search] at hs
  | succ n ih =>
    cases h with
    | none => cases l <;> simp [Seg] at hl
    | some x =>
      by_cases hx : ok x = true
      · simp [search, hx] at hs
      · cases l with
        | nil => simpa [Option.some.inj hl] using hx
        | cons z l =>
          obtain ⟨hz, hl⟩ := hl
          obtain rfl : x = z := Option.some.inj hz
          exact ih (by simpa [search, hx] using hs) l hl

theorem seg_redirect {next next' : α → Option α} {h : Option α} {l : List α} {x : α}
    (hl : Seg next h l (some x)) (hn : ∀ y ∈ l, next' y = next y ∨ next' y = some x) :
    ∃ l', (∀ y ∈ l', y ∈ l) ∧ Seg next' h l' (some x) := by
  induction l generalizing h with
  | nil => exact ⟨[], by simp, hl⟩
  | cons z l ih =>
    obtain ⟨rfl, hl⟩ := hl
    rcases hn z (by simp) with hz | hz
    · obtain ⟨l', hsub, hl'⟩ := ih hl fun y hy => hn y (by simp [hy])
      refine ⟨z :: l', fun y hy => ?_, rfl, hz ▸ hl'⟩
      rcases List.mem_cons.mp hy with rfl | hy
      · simp
      · simp [hsub y hy]
    · exact ⟨[z], by simp, rfl, hz⟩

theorem seg_closed {next : α → Option α} {h : Option α} {l : List α} {x : α} {p : α → Prop}
    (hl : Seg next h l (some x)) (hh : ∀ y, h = some y → p y)
    (hp : ∀ y ∈ l, p y → ∀ z, next y = some z → p z) : p x := by
  induction l generalizing h with
  | nil => exact hh x hl
  | cons z l ih =>
    obtain ⟨rfl, hl⟩ := hl
    exact ih hl (hp z (by simp) (hh z rfl)) fun y hy => hp y (by simp [hy])

theorem seg_compare {next : α → Option α} {h : Option α} {l l' : List α} {x y : α}
    (hl : Seg next h l (some x)) (hl' : Seg next h l' (some y)) (hy : y ∉ l) :
    x = y ∨ ∃ r, l' = l ++ x :: r := by
  induction l generalizing h l' with
  | nil =>
    cases l' with
    | nil => exact .inl (Option.some.inj (hl.symm.trans hl'))
    | cons z r => exact .inr ⟨r, by rw [Option.some.inj (hl.symm.trans hl'.1)]; rfl⟩
  | cons z l ih =>
    obtain ⟨rfl, hl⟩ := hl
    cases l' with
    | nil => exact absurd (List.mem_cons.mpr (.inl (Option.some.inj hl').symm)) hy
    | cons w l' =>
      obtain ⟨hw, hl'⟩ := hl'
      obtain rfl : z = w := Option.some.inj hw
      exact (ih hl hl' fun hm => hy (by simp [hm])).imp_right fun ⟨r, hr⟩ => ⟨r, by rw [hr]; rfl⟩

def last (next : α → Option α) : ℕ → α → Option α
  | 0, _ => none
  | n + 1, x => match next x with
    | none => some x
    | some y => last next n y

theorem last_chain {next : α → Option α} {x : α} {l : List α} {n : ℕ}
    (hl : Chain next (next x) l) (hn : l.length < n) :
    last next n x = some ((x :: l).getLast (by simp)) := by
  induction l generalizing x n with
  | nil =>
    obtain ⟨m, rfl⟩ : ∃ m, n = m + 1 := ⟨n - 1, by omega⟩
    simp only [Seg] at hl
    simp [last, hl]
  | cons y l ih =>
    obtain ⟨m, rfl⟩ : ∃ m, n = m + 1 := ⟨n - 1, by omega⟩
    simp only [List.length_cons, Nat.add_lt_add_iff_right] at hn
    simp [last, hl.1, ih hl.2 hn]

theorem last_some {next : α → Option α} {x y : α} {n : ℕ} (h : last next n x = some y) :
    On next (some x) y ∧ next y = none := by
  induction n generalizing x with
  | zero => cases h
  | succ n ih =>
    cases hx : next x with
    | none =>
      obtain rfl : x = y := by simpa [last, hx] using h
      exact ⟨⟨[], rfl⟩, hx⟩
    | some z =>
      obtain ⟨⟨l, hl⟩, hy⟩ := ih (by simpa [last, hx] using h)
      exact ⟨⟨x :: l, rfl, hx ▸ hl⟩, hy⟩

theorem seg_append_of_notMem [DecidableEq α] {next : α → Option α} {h : Option α} {l : List α} {c t x : α}
    (hl : Seg next h l (some x)) (hc : next c = none) (ht : t ∉ l) :
    Seg (Function.update (Function.update next c (some t)) t none) h l (some x) := by
  refine seg_congr (fun y hy => ?_) hl
  have hyt : y ≠ t := fun he => ht (he ▸ hy)
  have hyc : y ≠ c := by
    rintro rfl
    obtain ⟨l₁, l₂, rfl⟩ := List.append_of_mem hy
    obtain ⟨m, _, _, hm⟩ := seg_append.mp hl
    rw [hc] at hm
    cases l₂ <;> simp [Seg] at hm
  rw [Function.update_of_ne hyt, Function.update_of_ne hyc]

theorem on_append_self [DecidableEq α] {next : α → Option α} {h : Option α} {c t : α}
    (hon : On next h c) (hc : next c = none) :
    On (Function.update (Function.update next c (some t)) t none) h t := by
  obtain ⟨l, hl⟩ := hon
  by_cases ht : t ∈ l
  · -- the walk meets `t` before its end: the part up to there is kept
    obtain ⟨l₁, l₂, rfl, hnot⟩ := List.eq_append_cons_of_mem ht
    obtain ⟨m, hm, rfl, _⟩ := seg_append.mp hl
    exact ⟨l₁, seg_append_of_notMem hm hc hnot⟩
  · have hkeep := seg_append_of_notMem hl hc ht
    by_cases he : c = t
    · subst he; exact ⟨l, hkeep⟩
    · refine ⟨l ++ [c], seg_append.mpr ⟨_, hkeep, rfl, ?_⟩⟩
      rw [Function.update_of_ne he, Function.update_self]
      rfl

theorem chain_append_last [DecidableEq α] {next : α → Option α} {h : Option α} {l : List α}
    (t : α) (hl : Chain next h l) (hne : l ≠ []) :
    Chain (Function.update (Function.update next (l.getLast hne) (some t)) t none) h
      (l.takeWhile (fun x => decide (x ≠ t)) ++ [t]) := by
  induction l generalizing h with
  | nil => exact absurd rfl hne
  | cons x l ih =>
    have hnd := chain_nodup hl
    obtain ⟨rfl, hl⟩ := hl
    by_cases hx : x = t
    · subst hx; simp [Seg]
    · cases l with
      | nil => simp [Seg, hx]
      | cons y l =>
        have hc : x ≠ (y :: l).getLast (by simp) :=
          fun he => (List.nodup_cons.mp hnd).1 (he ▸ List.getLast_mem _)
        have := ih hl (by simp)
        simp only [List.getLast_cons_cons, List.takeWhile_cons, hx, decide_not, decide_false, Bool.not_false,
          ↓reduceIte, List.cons_append, Seg, true_and, Function.update_of_ne hx, Function.update_of_ne hc] at this ⊢
        exact this

theorem length_le_of_nodup {l : List ℕ} {n : ℕ} (hd : l.Nodup) (hn : ∀ x ∈ l, x < n) : l.length ≤ n := by
  rw [← List.toFinset_card_of_nodup hd, ← Finset.card_range n]
  exact Finset.card_le_card fun x hx => Finset.mem_range.mpr (hn x (List.mem_toFinset.mp hx))

end Os506.Linked
