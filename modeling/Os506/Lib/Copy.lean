import Mathlib.Logic.Function.Basic
import Mathlib.Data.Nat.Notation

namespace Os506.Copy

/-! Copies within one memory, a cell at a time, from the cells at `b` to those at `a`. -/

variable {α : Type}

def up : ℕ → ℕ → ℕ → (ℕ → α) → ℕ → α
  | 0, _, _, m => m
  | n + 1, a, b, m => up n (a + 1) (b + 1) (Function.update m a (m b))

def down : ℕ → ℕ → ℕ → (ℕ → α) → ℕ → α
  | 0, _, _, m => m
  | n + 1, a, b, m => down n a b (Function.update m (a + n) (m (b + n)))

/-- The copy of cells that are all read before the first is written. -/
def moved (n a b : ℕ) (m : ℕ → α) (x : ℕ) : α := if a ≤ x ∧ x < a + n then m (b + (x - a)) else m x

variable {n a b x : ℕ} {m : ℕ → α}

theorem moved_inside (n a b : ℕ) (m : ℕ → α) {i : ℕ} (h : i < n) : moved n a b m (a + i) = m (b + i) := by
  rw [moved, if_pos (by omega), Nat.add_sub_cancel_left]

theorem eq_moved {m' : ℕ → α} (hin : ∀ i < n, m' (a + i) = m (b + i)) (hoff : ∀ x, x < a ∨ a + n ≤ x → m' x = m x) :
    m' = moved n a b m := by
  funext x
  rw [moved]
  split
  · obtain ⟨i, rfl⟩ := Nat.exists_eq_add_of_le (show a ≤ x by omega)
    rw [hin i (by omega), Nat.add_sub_cancel_left]
  · exact hoff x (by omega)

theorem up_off (h : x < a ∨ a + n ≤ x) : up n a b m x = m x := by
  induction n generalizing a b m with
  | zero => rfl
  | succ n ih =>
    rw [up, ih (by omega)]
    exact Function.update_of_ne (by omega) _ _

theorem down_off (h : x < a ∨ a + n ≤ x) : down n a b m x = m x := by
  induction n generalizing m with
  | zero => rfl
  | succ n ih =>
    rw [down, ih (by omega)]
    exact Function.update_of_ne (by omega) _ _

theorem up_same (h : b < a) {i : ℕ} (hi : i < n) : up n a b m (a + i) = up n a b m (b + i) := by
  induction n generalizing a b m i with
  | zero => exact absurd hi (Nat.not_lt_zero i)
  | succ n ih =>
    rw [up]
    cases i with
    | zero =>
      rw [up_off (by omega), up_off (by omega)]
      exact (Function.update_self ..).trans (Function.update_of_ne (by omega) _ _).symm
    | succ i =>
      have hnext := ih (m := Function.update m a (m b)) (show b + 1 < a + 1 by omega) (show i < n by omega)
      rwa [Nat.add_assoc, Nat.add_assoc, Nat.add_comm 1 i] at hnext

theorem down_same (h : a < b) {i : ℕ} (hi : i < n) : down n a b m (a + i) = down n a b m (b + i) := by
  induction n generalizing m with
  | zero => exact absurd hi (Nat.not_lt_zero i)
  | succ n ih =>
    rw [down]
    by_cases hin : i = n
    · subst hin
      rw [down_off (by omega), down_off (by omega), Function.update_self, Function.update_of_ne (by omega)]
    · exact ih (by omega)

/-- A cell of the source that is written holds already what it is to hold. -/
def Agree (n a b : ℕ) (m : ℕ → α) : Prop := ∀ j < n, b ≤ a + j → a + j < b + n → m (a + j) = m (b + j)

theorem agree_of_same {m' : ℕ → α} (hsame : ∀ i < n, m' (a + i) = m' (b + i)) (hmoved : m' = moved n a b m) :
    Agree n a b m := by
  intro j hj hle hlt
  have hi : a + j - b < n := by omega
  have hplace : b + (a + j - b) = a + j := by omega
  have hcopy := hsame (a + j - b) hi
  rw [hplace, hmoved, moved_inside n a b m hi, moved_inside n a b m hj, hplace] at hcopy
  exact hcopy

theorem up_of_le (h : a ≤ b) {i : ℕ} (hi : i < n) : up n a b m (a + i) = m (b + i) := by
  induction n generalizing a b m i with
  | zero => exact absurd hi (Nat.not_lt_zero i)
  | succ n ih =>
    rw [up]
    cases i with
    | zero =>
      rw [up_off (by omega)]
      exact Function.update_self ..
    | succ i =>
      have hnext := ih (m := Function.update m a (m b)) (show a + 1 ≤ b + 1 by omega) (show i < n by omega)
      rw [Nat.add_assoc, Nat.add_assoc, Nat.add_comm 1 i, Function.update_of_ne (by omega)] at hnext
      exact hnext

theorem down_of_le (h : b ≤ a) {i : ℕ} (hi : i < n) : down n a b m (a + i) = m (b + i) := by
  induction n generalizing m with
  | zero => exact absurd hi (Nat.not_lt_zero i)
  | succ n ih =>
    rw [down]
    by_cases hin : i = n
    · subst hin
      rw [down_off (by omega), Function.update_self]
    · rw [ih (by omega), Function.update_of_ne (by omega)]

theorem up_of_agree (h : b < a) (hm : Agree n a b m) {i : ℕ} (hi : i < n) : up n a b m (a + i) = m (b + i) := by
  induction i using Nat.strongRecOn with
  | ind i ih =>
    rw [up_same h hi]
    by_cases hlt : b + i < a
    · exact up_off (.inl hlt)
    · -- The cell that is read was written before.
      obtain ⟨j, hj⟩ := Nat.exists_eq_add_of_le (Nat.not_lt.mp hlt)
      rw [hj, ih j (by omega) (by omega)]
      exact (hm j (by omega) (by omega) (by omega)).symm

theorem down_of_agree (h : a < b) (hm : Agree n a b m) {i : ℕ} (hi : i < n) : down n a b m (a + i) = m (b + i) := by
  obtain ⟨k, hk⟩ : ∃ k, k = n - i := ⟨_, rfl⟩
  induction k using Nat.strongRecOn generalizing i with
  | ind k ih =>
    rw [down_same h hi]
    by_cases hlt : b + i < a + n
    · obtain ⟨j, hj⟩ := Nat.exists_eq_add_of_le (show a ≤ b + i by omega)
      rw [hj, ih (n - j) (by omega) (by omega) rfl]
      exact (hm j (by omega) (by omega) (by omega)).symm
    · exact down_off (.inr (Nat.not_lt.mp hlt))

theorem up_eq_moved_iff : up n a b m = moved n a b m ↔ (b < a → Agree n a b m) := by
  constructor
  · exact fun h hlt => agree_of_same (fun i hi => up_same hlt hi) h
  · intro h
    refine eq_moved (fun i hi => ?_) fun x hx => up_off hx
    by_cases hlt : b < a
    · exact up_of_agree hlt (h hlt) hi
    · exact up_of_le (Nat.not_lt.mp hlt) hi

theorem down_eq_moved_iff : down n a b m = moved n a b m ↔ (a < b → Agree n a b m) := by
  constructor
  · exact fun h hlt => agree_of_same (fun i hi => down_same hlt hi) h
  · intro h
    refine eq_moved (fun i hi => ?_) fun x hx => down_off hx
    by_cases hlt : a < b
    · exact down_of_agree hlt (h hlt) hi
    · exact down_of_le (Nat.not_lt.mp hlt) hi

end Os506.Copy
