import Mathlib.Data.List.Basic
import Mathlib.Data.Nat.Notation
import Mathlib.Algebra.Order.Group.Nat
import Mathlib.Algebra.Group.Nat.Even
import Mathlib.Logic.Function.Basic

namespace Os506.Bytes

/-- The `w` bytes of a word, the low one first. -/
def encode : ℕ → ℕ → List UInt8
  | 0, _ => []
  | w + 1, x => UInt8.ofNat x :: encode w (x / 256)

def decode : List UInt8 → ℕ
  | [] => 0
  | b :: l => b.toNat + 256 * decode l

@[simp] theorem length_encode (w x : ℕ) : (encode w x).length = w := by
  induction w generalizing x with
  | zero => rfl
  | succ w ih => rw [encode, List.length_cons, ih]

theorem decode_encode {w x : ℕ} (h : x < 256 ^ w) : decode (encode w x) = x := by
  induction w generalizing x with
  | zero =>
    rw [Nat.pow_zero] at h
    rw [encode, decode]
    omega
  | succ w ih =>
    rw [Nat.pow_succ] at h
    rw [encode, decode, ih (by omega), UInt8.toNat_ofNat']
    omega

theorem decode_eq_zero {l : List UInt8} : decode l = 0 ↔ ∀ b ∈ l, b = 0 := by
  induction l with
  | nil => simp [decode]
  | cons b l ih =>
    rw [decode, Nat.add_eq_zero_iff, Nat.mul_eq_zero, List.forall_mem_cons, ← ih, ← UInt8.toNat_inj]
    simp

def peek (mem : ℕ → UInt8) (a n : ℕ) : List UInt8 := (List.range n).map fun i => mem (a + i)

variable {mem mem' : ℕ → UInt8} {a n : ℕ}

@[simp] theorem length_peek : (peek mem a n).length = n := by rw [peek, List.length_map, List.length_range]

theorem peek_add (mem : ℕ → UInt8) (a m n : ℕ) : peek mem a (m + n) = peek mem a m ++ peek mem (a + m) n := by
  rw [peek, peek, peek, List.range_add, List.map_append, List.map_map]
  congr 1
  apply List.map_congr_left
  intro i _
  change mem (a + (m + i)) = mem (a + m + i)
  rw [Nat.add_assoc]

theorem peek_succ (mem : ℕ → UInt8) (a n : ℕ) : peek mem a (n + 1) = mem a :: peek mem (a + 1) n := by
  rw [Nat.add_comm, peek_add]
  rfl

theorem peek_congr (h : ∀ x, a ≤ x → x < a + n → mem' x = mem x) : peek mem' a n = peek mem a n := by
  apply List.map_congr_left
  intro i hi
  have := List.mem_range.mp hi
  exact h (a + i) (by omega) (by omega)

theorem mem_peek {b : UInt8} : b ∈ peek mem a n ↔ ∃ i < n, mem (a + i) = b := by
  simp [peek]

def At (mem : ℕ → UInt8) (a : ℕ) (l : List UInt8) : Prop := peek mem a l.length = l

instance (mem : ℕ → UInt8) (a : ℕ) (l : List UInt8) : Decidable (At mem a l) := inferInstanceAs (Decidable (_ = _))

def put : ℕ → List UInt8 → (ℕ → UInt8) → ℕ → UInt8
  | _, [], mem => mem
  | a, b :: l, mem => put (a + 1) l (Function.update mem a b)

section Put

variable {t : ℕ → UInt8} {va x : ℕ} {l l' : List UInt8}

theorem put_of_lt (h : x < va) : put va l t x = t x := by
  induction l generalizing va t with
  | nil => rfl
  | cons b l ih => rw [put, ih (by omega), Function.update_of_ne (by omega)]

theorem put_of_ge (h : va + l.length ≤ x) : put va l t x = t x := by
  induction l generalizing va t with
  | nil => rfl
  | cons b l ih =>
    rw [List.length_cons] at h
    rw [put, ih (by omega), Function.update_of_ne (by omega)]

theorem put_append (va : ℕ) (l l' : List UInt8) (t : ℕ → UInt8) :
    put va (l ++ l') t = put (va + l.length) l' (put va l t) := by
  induction l generalizing va t with
  | nil => rfl
  | cons b l ih => rw [List.cons_append, put, put, ih, List.length_cons, Nat.add_right_comm, Nat.add_assoc]

theorem at_put (va : ℕ) (l : List UInt8) (t : ℕ → UInt8) : At (put va l t) va l := by
  induction l generalizing va t with
  | nil => rfl
  | cons b l ih => rw [At, List.length_cons, peek_succ, put, ih, put_of_lt (Nat.lt_succ_self va), Function.update_self]

theorem peek_put_off {a n : ℕ} (h : a + n ≤ va ∨ va + l.length ≤ a) : peek (put va l t) a n = peek t a n := by
  apply peek_congr
  intro x hle hlt
  rcases h with h | h
  · exact put_of_lt (by omega)
  · exact put_of_ge (by omega)

theorem put_inside (t t' : ℕ → UInt8) (hle : va ≤ x) (hlt : x < va + l.length) : put va l t x = put va l t' x := by
  induction l generalizing va t t' with
  | nil =>
    rw [List.length_nil] at hlt
    omega
  | cons b l ih =>
    rw [List.length_cons] at hlt
    rw [put, put]
    rcases Nat.eq_or_lt_of_le hle with rfl | hlt'
    · rw [put_of_lt (Nat.lt_succ_self va), put_of_lt (Nat.lt_succ_self va), Function.update_self, Function.update_self]
    · exact ih _ _ hlt' (by omega)

theorem put_before (l l' : List UInt8) (t : ℕ → UInt8) (va : ℕ) :
    put va l (put (va + l.length) l' t) = put va (l ++ l') t := by
  funext x
  rw [put_append]
  by_cases hlt : x < va + l.length
  · rw [put_of_lt hlt]
    by_cases hle : va ≤ x
    · exact put_inside _ _ hle hlt
    · rw [put_of_lt (by omega), put_of_lt (by omega), put_of_lt (by omega)]
  · rw [put_of_ge (by omega)]
    by_cases hlt' : x < va + l.length + l'.length
    · exact put_inside _ _ (by omega) hlt'
    · rw [put_of_ge (by omega), put_of_ge (by omega), put_of_ge (by omega)]

end Put

theorem at_append {l l' : List UInt8} : At mem a (l ++ l') ↔ At mem a l ∧ At mem (a + l.length) l' := by
  rw [At, List.length_append, peek_add]
  constructor
  · exact fun h => List.append_inj h length_peek
  · rintro ⟨h, h'⟩
    rw [h, h']

theorem At.peek_take {l : List UInt8} (h : At mem a l) (hn : n ≤ l.length) : peek mem a n = l.take n := by
  obtain ⟨m, hm⟩ := Nat.exists_eq_add_of_le hn
  rw [At, hm, peek_add] at h
  rw [← h, List.take_append_of_le_length length_peek.ge, List.take_of_length_le length_peek.le]

def word (mem : ℕ → UInt8) (a : ℕ) : ℕ := decode (peek mem a 8)

theorem word_congr (h : ∀ x, a ≤ x → x < a + 8 → mem' x = mem x) : word mem' a = word mem a := by
  rw [word, word, peek_congr h]

theorem word_moved {b : ℕ} (h : ∀ i < 8, mem' (b + i) = mem (a + i)) : word mem' b = word mem a := by
  have hpeek : peek mem' b 8 = peek mem a 8 := List.map_congr_left fun i hi => h i (List.mem_range.mp hi)
  rw [word, word, hpeek]

theorem At.word_eq {x : ℕ} (h : At mem a (encode 8 x)) (hx : x < 2 ^ 64) : word mem a = x := by
  rw [At, length_encode] at h
  rw [word, h, decode_encode (hx.trans_le (by decide))]

theorem at_cons {b : UInt8} {l : List UInt8} : At mem a (b :: l) ↔ mem a = b ∧ At mem (a + 1) l := by
  rw [At, List.length_cons, peek_succ, List.cons.injEq]
  rfl

theorem at_head {l : List UInt8} (h : At mem a (l ++ [0])) : mem a = l.head?.getD 0 := by
  cases l with
  | nil => exact (at_cons.mp h).1
  | cons b l => exact (at_cons.mp h).1

theorem At.get {l : List UInt8} (h : At mem a l) {i : ℕ} (hi : i < l.length) : mem (a + i) = l[i] := by
  have hpeek : (peek mem a l.length)[i]? = l[i]? := congrArg (fun r => r[i]?) h
  rw [peek, List.getElem?_map, List.getElem?_range hi, List.getElem?_eq_getElem hi] at hpeek
  exact Option.some.inj hpeek

theorem At.congr {l : List UInt8} (h : At mem a l) (hmem : ∀ x, a ≤ x → x < a + l.length → mem' x = mem x) :
    At mem' a l := by
  rw [At, peek_congr hmem]
  exact h

theorem put_eq_self {l : List UInt8} (h : At mem a l) : put a l mem = mem := by
  induction l generalizing a with
  | nil => rfl
  | cons b l ih =>
    rw [at_cons] at h
    rw [put, ← h.1, Function.update_eq_self]
    exact ih h.2

def strings (l : List (List UInt8)) : List UInt8 := l.flatMap (· ++ [0])

def pointers : ℕ → List (List UInt8) → List ℕ
  | _, [] => []
  | a, str :: l => a :: pointers (a + str.length + 1) l

theorem strings_cons (str : List UInt8) (l : List (List UInt8)) : strings (str :: l) = str ++ [0] ++ strings l := rfl

theorem strings_append (l l' : List (List UInt8)) : strings (l ++ l') = strings l ++ strings l' := List.flatMap_append

theorem length_pointers (a : ℕ) (l : List (List UInt8)) : (pointers a l).length = l.length := by
  induction l generalizing a with
  | nil => rfl
  | cons str l ih => rw [pointers, List.length_cons, ih, List.length_cons]

theorem pointers_append (a : ℕ) (l l' : List (List UInt8)) :
    pointers a (l ++ l') = pointers a l ++ pointers (a + (strings l).length) l' := by
  induction l generalizing a with
  | nil => rfl
  | cons str l ih =>
    rw [List.cons_append, pointers, pointers, ih, strings_cons, List.cons_append]
    simp only [List.length_append, List.length_singleton, Nat.add_assoc]

theorem at_strings {l : List (List UInt8)} (h : At mem a (strings l)) :
    List.Forall₂ (fun p str => At mem p (str ++ [0])) (pointers a l) l := by
  induction l generalizing a with
  | nil => exact .nil
  | cons str l ih =>
    rw [strings_cons, at_append, List.length_append, List.length_singleton] at h
    exact .cons h.1 (ih h.2)

end Os506.Bytes
