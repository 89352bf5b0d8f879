import Mathlib.Data.List.GetD
import Mathlib.Data.List.Nodup
import Os506.Lib.Bytes

namespace Os506.Numeral

open Bytes

/-- The digits of `i` are stored downwards from `ptr`, the low one first. There is no result when a digit would have to
be stored below place 0. -/
def fill (rep : List UInt8) (base : ℕ) : ℕ → ℕ → (ℕ → UInt8) → Option (ℕ × (ℕ → UInt8))
  | 0, _, _ => none
  | ptr + 1, i, buf =>
    let buf := Function.update buf ptr (rep.getD (i % base) 0)
    if i / base ≠ 0 then fill rep base ptr (i / base) buf else some (ptr, buf)

def print (rep : List UInt8) (base ptr i : ℕ) (buf : ℕ → UInt8) : Option (ℕ × (ℕ → UInt8)) :=
  fill rep base ptr i (Function.update buf ptr 0)

def chars (rep : List UInt8) (base : ℕ) : ℕ → ℕ → List UInt8
  | 0, _ => []
  | n + 1, i =>
    if i / base ≠ 0 then chars rep base n (i / base) ++ [rep.getD (i % base) 0] else [rep.getD (i % base) 0]

def value (rep : List UInt8) (base : ℕ) (text : List UInt8) : ℕ := text.foldl (fun v c => v * base + rep.idxOf c) 0

/-- The numeral of `i`: digits of the base, with the value `i`, and a zero in front for 0 alone. -/
structure Canonical (rep : List UInt8) (base i : ℕ) (text : List UInt8) : Prop where
  ne_nil : text ≠ []
  digits : ∀ c ∈ text, c ∈ rep.take base
  value_eq : value rep base text = i
  lead : text.head? = rep.head? → i = 0

variable {rep text : List UInt8} {base ptr n i : ℕ}

theorem div_lt_pow (h : i < base ^ (n + 1)) : i / base < base ^ n := by
  rw [Nat.pow_succ, Nat.mul_comm] at h
  exact Nat.div_lt_of_lt_mul h

theorem div_eq_zero_of_lt_pow (h : i < base ^ 1) : i / base = 0 := by
  rw [Nat.pow_one] at h
  exact Nat.div_eq_of_lt h

theorem fill_eq (rep : List UInt8) (h : i < base ^ (ptr + 1)) (buf : ℕ → UInt8) : ∃ p,
    p + (chars rep base (ptr + 1) i).length = ptr + 1 ∧
      fill rep base (ptr + 1) i buf = some (p, put p (chars rep base (ptr + 1) i) buf) := by
  induction ptr generalizing i buf with
  | zero =>
    have hdiv := div_eq_zero_of_lt_pow h
    rw [fill, chars, if_neg (not_not.mpr hdiv), if_neg (not_not.mpr hdiv)]
    exact ⟨0, rfl, rfl⟩
  | succ ptr ih =>
    rw [fill, chars]
    by_cases hdiv : i / base = 0
    · rw [if_neg (not_not.mpr hdiv), if_neg (not_not.mpr hdiv)]
      exact ⟨ptr + 1, rfl, rfl⟩
    · obtain ⟨p, hp, hfill⟩ := ih (div_lt_pow h) (put (ptr + 1) [rep.getD (i % base) 0] buf)
      rw [if_pos hdiv, if_pos hdiv, List.length_append]
      refine ⟨p, congrArg (· + 1) hp, ?_⟩
      rw [← put_before, hp]
      exact hfill

theorem print_eq (h : i < base ^ (ptr + 1)) (buf : ℕ → UInt8) : ∃ p buf',
    print rep base (ptr + 1) i buf = some (p, buf') ∧ p + (chars rep base (ptr + 1) i).length = ptr + 1 ∧
      At buf' p (chars rep base (ptr + 1) i ++ [0]) ∧ ∀ x, ptr + 1 < x → buf' x = buf x := by
  obtain ⟨p, hp, hfill⟩ := fill_eq rep h (put (ptr + 1) [0] buf)
  refine ⟨p, _, hfill, hp, ?_, fun x hx => ?_⟩
  · have hall := put_before (chars rep base (ptr + 1) i) [0] buf p
    rw [hp] at hall
    rw [hall]
    exact at_put _ _ _
  · rw [put_of_ge (by omega)]
    exact put_of_ge hx

section Canonical

variable (hnodup : rep.Nodup) (hlen : base ≤ rep.length)

include hnodup hlen

theorem idxOf_digit (hi : i < base) : rep.getD i 0 ∈ rep.take base ∧ rep.idxOf (rep.getD i 0) = i := by
  have hir : i < rep.length := Nat.lt_of_lt_of_le hi hlen
  rw [List.getD_eq_getElem rep 0 hir]
  exact ⟨List.mem_take_iff_getElem.mpr ⟨i, by omega, rfl⟩, hnodup.idxOf_getElem i hir⟩

theorem canonical_digit (hi : i < base) : Canonical rep base i [rep.getD i 0] := by
  obtain ⟨hmem, hidx⟩ := idxOf_digit hnodup hlen hi
  refine ⟨List.cons_ne_nil _ _, fun c hc => ?_, ?_, fun hlead => ?_⟩
  · rwa [List.mem_singleton.mp hc]
  · rw [value, List.foldl_cons, List.foldl_nil, hidx, Nat.zero_mul, Nat.zero_add]
  · have hpos : 0 < rep.length := by omega
    rw [List.head?_cons, List.head?_eq_getElem?, List.getElem?_eq_getElem hpos] at hlead
    rw [← hidx, Option.some.inj hlead]
    exact hnodup.idxOf_getElem 0 hpos

theorem Canonical.append (h : Canonical rep base (i / base) text) (hdiv : i / base ≠ 0) (hb : 0 < base) :
    Canonical rep base i (text ++ [rep.getD (i % base) 0]) := by
  obtain ⟨hmem, hidx⟩ := idxOf_digit hnodup hlen (Nat.mod_lt i hb)
  refine ⟨List.append_ne_nil_of_left_ne_nil h.ne_nil _, fun c hc => ?_, ?_, fun hlead => ?_⟩
  · rcases List.mem_append.mp hc with hc | hc
    · exact h.digits c hc
    · rwa [List.mem_singleton.mp hc]
  · have hv := h.value_eq
    rw [value] at hv
    rw [value, List.foldl_append, hv, List.foldl_cons, List.foldl_nil, hidx, Nat.div_add_mod']
  · rw [List.head?_append_of_ne_nil _ h.ne_nil] at hlead
    exact absurd (h.lead hlead) hdiv

theorem canonical_chars (h : i < base ^ (n + 1)) : Canonical rep base i (chars rep base (n + 1) i) := by
  have hb : 0 < base := Nat.pos_of_ne_zero fun h0 => by simp [h0] at h
  induction n generalizing i with
  | zero =>
    have hdiv := div_eq_zero_of_lt_pow h
    rw [Nat.pow_one] at h
    rw [chars, if_neg (not_not.mpr hdiv), Nat.mod_eq_of_lt h]
    exact canonical_digit hnodup hlen h
  | succ n ih =>
    rw [chars]
    by_cases hdiv : i / base = 0
    · have hi := (Nat.div_eq_zero_iff_lt hb).mp hdiv
      rw [if_neg (not_not.mpr hdiv), Nat.mod_eq_of_lt hi]
      exact canonical_digit hnodup hlen hi
    · rw [if_pos hdiv]
      exact (ih (div_lt_pow h)).append hnodup hlen hdiv hb

end Canonical

end Os506.Numeral
