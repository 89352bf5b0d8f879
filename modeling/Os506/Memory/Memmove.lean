import Mathlib.Algebra.GroupWithZero.Nat
import Os506.Lib.Copy

namespace Os506.System

open Copy

def copyForward : ℕ → ℕ → ℕ → (ℕ → UInt8) → ℕ → UInt8
  | 0, _, _, mem => mem
  | n + 1, a, b, mem => copyForward n ((a + 1) % 2 ^ 64) ((b + 1) % 2 ^ 64) (Function.update mem a (mem b))

def copyBackward : ℕ → ℕ → ℕ → (ℕ → UInt8) → ℕ → UInt8
  | 0, _, _, mem => mem
  | n + 1, a, b, mem =>
    let a := (a + (2 ^ 64 - 1)) % 2 ^ 64
    let b := (b + (2 ^ 64 - 1)) % 2 ^ 64
    copyBackward n a b (Function.update mem a (mem b))

def memmove (src dst n : ℕ) (mem : ℕ → UInt8) : ℕ → UInt8 :=
  if dst < src ∧ (src + n) % 2 ^ 64 < dst then copyBackward n ((dst + n) % 2 ^ 64) ((src + n) % 2 ^ 64) mem
  else copyForward n dst src mem

variable {src dst n a b : ℕ} {mem : ℕ → UInt8}

theorem copyForward_eq (ha : a + n ≤ 2 ^ 64) (hb : b + n ≤ 2 ^ 64) : copyForward n a b mem = up n a b mem := by
  induction n generalizing a b mem with
  | zero => rfl
  | succ n ih =>
    rw [copyForward, up]
    cases n with
    | zero => rfl
    | succ n => rw [Nat.mod_eq_of_lt (by omega), Nat.mod_eq_of_lt (by omega), ih (by omega) (by omega)]

theorem copyBackward_eq (ha : a + n ≤ 2 ^ 64) (hb : b + n ≤ 2 ^ 64) :
    copyBackward n ((a + n) % 2 ^ 64) ((b + n) % 2 ^ 64) mem = down n a b mem := by
  induction n generalizing mem with
  | zero => rfl
  | succ n ih =>
    have hlast : ∀ p, p + (n + 1) ≤ 2 ^ 64 → ((p + (n + 1)) % 2 ^ 64 + (2 ^ 64 - 1)) % 2 ^ 64 = p + n := by
      omega
    rw [copyBackward, down, hlast a ha, hlast b hb, ← ih (by omega) (by omega), Nat.mod_eq_of_lt (by omega),
      Nat.mod_eq_of_lt (by omega)]

/-- The test for an overlap holds only where the end of the source is the end of the address space. -/
theorem backward_iff (h : src + n ≤ 2 ^ 64) :
    dst < src ∧ (src + n) % 2 ^ 64 < dst ↔ dst < src ∧ src + n = 2 ^ 64 ∧ 0 < dst := by
  omega

def Moves (src dst n : ℕ) (mem : ℕ → UInt8) : Prop :=
  ∀ x, memmove src dst n mem x = if dst ≤ x ∧ x < dst + n then mem (src + (x - dst)) else mem x

theorem moves_iff_eq : Moves src dst n mem ↔ memmove src dst n mem = moved n dst src mem :=
  funext_iff.symm

/-- For all ranges: each byte of the source that is overwritten too early has to have its new value already. -/
theorem moves_iff (hs : src + n ≤ 2 ^ 64) (hd : dst + n ≤ 2 ^ 64) :
    Moves src dst n mem ↔
      (src < dst ∨ dst < src ∧ src + n = 2 ^ 64 ∧ 0 < dst →
        ∀ j < n, src ≤ dst + j → dst + j < src + n → mem (dst + j) = mem (src + j)) := by
  rw [moves_iff_eq, memmove]
  by_cases hback : dst < src ∧ src + n = 2 ^ 64 ∧ 0 < dst
  · rw [if_pos ((backward_iff hs).mpr hback), copyBackward_eq hd hs, down_eq_moved_iff]
    exact ⟨fun h _ => h hback.1, fun h _ => h (.inr hback)⟩
  · rw [if_neg (mt (backward_iff hs).mp hback), copyForward_eq hd hs, up_eq_moved_iff]
    exact ⟨fun h hcase => h (hcase.resolve_right hback), fun h hlt => h (.inl hlt)⟩

theorem memmove_disjoint (hs : src + n ≤ 2 ^ 64) (hd : dst + n ≤ 2 ^ 64) (h : src + n ≤ dst ∨ dst + n ≤ src) :
    memmove src dst n mem = moved n dst src mem := by
  have hagree : Agree n dst src mem := fun j hj hle hlt => by omega
  rw [memmove]
  split
  case isTrue => rw [copyBackward_eq hd hs, down_eq_moved_iff]; exact fun _ => hagree
  case isFalse => rw [copyForward_eq hd hs, up_eq_moved_iff]; exact fun _ => hagree

theorem moves_fails_on_shift : memmove 16 17 2 (fun x => UInt8.ofNat x) 18 = 16 ∧
    ¬ Moves 16 17 2 fun x => UInt8.ofNat x := by
  have hlast : memmove 16 17 2 (fun x => UInt8.ofNat x) 18 = 16 := by decide
  refine ⟨hlast, fun h => ?_⟩
  have := h 18
  rw [hlast] at this
  exact absurd this (by decide)

theorem moves_below : Moves 160 0 3680 fun x => UInt8.ofNat x :=
  (moves_iff (by decide) (by decide)).mpr fun h => by omega

end Os506.System
