import Mathlib.Algebra.GroupWithZero.Nat
import Mathlib.Data.List.Basic
import Mathlib.Data.Nat.Notation

namespace Os506

variable {β : Type} {w : ℕ}

def Stored (mem : BitVec w → β) : BitVec w → List β → Prop
  | _, [] => True
  | a, b :: l => mem a = b ∧ Stored mem (a + 1) l

namespace Stored

variable {mem : BitVec w → β} {a : BitVec w} {l l₁ l₂ : List β}

theorem shift_succ (a : BitVec w) (n : ℕ) : a + BitVec.ofNat w (n + 1) = a + 1 + BitVec.ofNat w n := by
  rw [BitVec.ofNat_add, BitVec.add_comm (BitVec.ofNat w n), BitVec.add_assoc]
  rfl

theorem shift_add (a : BitVec w) (m n : ℕ) :
    a + BitVec.ofNat w (m + n) = a + BitVec.ofNat w m + BitVec.ofNat w n := by
  rw [BitVec.ofNat_add, BitVec.add_assoc]

theorem append_iff : Stored mem a (l₁ ++ l₂) ↔ Stored mem a l₁ ∧ Stored mem (a + BitVec.ofNat w l₁.length) l₂ := by
  induction l₁ generalizing a with
  | nil =>
    rw [List.nil_append, List.length_nil, show BitVec.ofNat w 0 = 0#w from rfl, BitVec.add_zero]
    simp only [Stored, true_and]
  | cons b l₁ ih =>
    rw [List.cons_append, List.length_cons, shift_succ]
    simp only [Stored, ih, and_assoc]

theorem of_get (h : ∀ k (hk : k < l.length), mem (a + BitVec.ofNat w k) = l[k]) : Stored mem a l := by
  induction l generalizing a with
  | nil => trivial
  | cons b l ih =>
    refine ⟨?_, ih fun k hk => ?_⟩
    · have := h 0 (Nat.zero_lt_succ _)
      rwa [show BitVec.ofNat w 0 = 0#w from rfl, BitVec.add_zero] at this
    · rw [← shift_succ]
      exact h (k + 1) (Nat.succ_lt_succ hk)

theorem get (h : Stored mem a l) {k : ℕ} (hk : k < l.length) : mem (a + BitVec.ofNat w k) = l[k] := by
  induction l generalizing a k with
  | nil => cases hk
  | cons b l ih =>
    cases k with
    | zero =>
      rw [show BitVec.ofNat w 0 = 0#w from rfl, BitVec.add_zero]
      exact h.1
    | succ k =>
      rw [shift_succ]
      exact ih h.2 (Nat.lt_of_succ_lt_succ hk)

end Stored

theorem offset_inj {a : BitVec w} {m n : ℕ} (hm : a.toNat + m < 2 ^ w) (hn : a.toNat + n < 2 ^ w)
    (h : a + BitVec.ofNat w m = a + BitVec.ofNat w n) : m = n := by
  have := congrArg BitVec.toNat h
  rw [BitVec.toNat_add, BitVec.toNat_add, BitVec.toNat_ofNat, BitVec.toNat_ofNat,
    Nat.mod_eq_of_lt (a := m) (by omega), Nat.mod_eq_of_lt (a := n) (by omega), Nat.mod_eq_of_lt hm,
    Nat.mod_eq_of_lt hn] at this
  omega

end Os506
