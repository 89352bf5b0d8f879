import Mathlib.Data.List.Range
import Mathlib.Logic.Function.Basic
import Mathlib.Data.Nat.Notation
import Mathlib.Tactic.SplitIfs

namespace Os506

variable {α : Type}

/-- A ring of cells. `start = stop` is the empty ring or, with `full`, the one without a free cell. -/
structure Ring (α : Type) where
  start : ℕ
  stop : ℕ
  full : Bool
  buf : ℕ → α

namespace Ring

theorem mod_eq {n x : ℕ} (h : x < n + n) : x % n = if x < n then x else x - n := by
  split
  · apply Nat.mod_eq_of_lt
    omega
  · rw [Nat.mod_eq_sub_mod (by omega)]
    apply Nat.mod_eq_of_lt
    omega

def length (n : ℕ) (r : Ring α) : ℕ :=
  if r.full then n else if r.start ≤ r.stop then r.stop - r.start else r.stop + n - r.start

def toList (n : ℕ) (r : Ring α) : List α := (List.range (r.length n)).map fun k => r.buf ((r.start + k) % n)

structure Ok (n : ℕ) (r : Ring α) : Prop where
  start_lt : r.start < n
  stop_lt : r.stop < n
  full_eq : r.full = true → r.start = r.stop

variable {n : ℕ} {r : Ring α}

def push (n : ℕ) (a : α) (r : Ring α) : Ring α :=
  { start := r.start
    stop := (r.stop + 1) % n
    full := decide (r.start = (r.stop + 1) % n) || r.full
    buf := Function.update r.buf r.stop a }

def pop (n : ℕ) (r : Ring α) : Ring α := { r with start := (r.start + 1) % n, full := false }

def unpush (n : ℕ) (r : Ring α) : Ring α := { r with stop := (r.stop + (n - 1)) % n, full := false }

def isEmpty (r : Ring α) : Bool := decide (r.start = r.stop) && !r.full

@[simp] theorem length_toList : (r.toList n).length = r.length n := by simp [toList]

theorem length_le_of_lt (hs : r.start < n) (ht : r.stop < n) : r.length n ≤ n := by
  rw [length]
  split
  · exact le_rfl
  · split <;> omega

theorem length_le (h : Ok n r) : r.length n ≤ n := length_le_of_lt h.start_lt h.stop_lt

theorem isEmpty_iff (h : Ok n r) : r.isEmpty = true ↔ r.length n = 0 := by
  have := h.start_lt
  have := h.stop_lt
  rw [isEmpty, length, Bool.and_eq_true, decide_eq_true_eq, Bool.not_eq_true']
  cases r.full with
  | true => simp; omega
  | false =>
    simp only [and_true, Bool.false_eq_true, ↓reduceIte]
    split <;> omega

theorem full_iff (h : Ok n r) : r.full = true ↔ r.length n = n := by
  have := h.start_lt
  have := h.stop_lt
  rw [length]
  cases r.full with
  | true => simp
  | false =>
    simp only [Bool.false_eq_true, ↓reduceIte, false_iff]
    split <;> omega

theorem stop_eq (h : Ok n r) : r.stop = (r.start + r.length n) % n := by
  have hs := h.start_lt
  have ht := h.stop_lt
  rw [mod_eq (by have := length_le h; omega), length]
  cases hf : r.full with
  | true =>
    have := h.full_eq hf
    simp only [↓reduceIte]
    split <;> omega
  | false =>
    simp only [Bool.false_eq_true, ↓reduceIte]
    split <;> split <;> omega

section Push

variable (h : Ok n r) (hf : r.full = false) (a : α)
include h hf

theorem Ok.push : Ok n (r.push n a) := by
  have hpos : 0 < n := (Nat.zero_le _).trans_lt h.start_lt
  refine ⟨h.start_lt, Nat.mod_lt _ hpos, fun hfull => ?_⟩
  rw [Ring.push, hf, Bool.or_false] at hfull
  exact of_decide_eq_true hfull

theorem length_push : (r.push n a).length n = r.length n + 1 := by
  have hs := h.start_lt
  have ht := h.stop_lt
  have hstop := mod_eq (n := n) (x := r.stop + 1) (by omega)
  split at hstop <;>
    simp only [length, Ring.push, hf, hstop, Bool.or_false, decide_eq_true_eq, Bool.false_eq_true, ↓reduceIte] <;>
    split_ifs <;> omega

theorem toList_push : (r.push n a).toList n = r.toList n ++ [a] := by
  have hlen := length_push h hf a
  have hle := length_le (h.push hf a)
  have hstop := stop_eq h
  have hs := h.start_lt
  rw [toList, toList, hlen, List.range_succ, List.map_append]
  congr 1
  · apply List.map_congr_left
    intro k hk
    have hk := List.mem_range.mp hk
    apply Function.update_of_ne
    change (r.start + k) % n ≠ r.stop
    rw [hstop, mod_eq (by omega), mod_eq (by omega)]
    split <;> split <;> omega
  · change [Function.update r.buf r.stop a ((r.start + r.length n) % n)] = [a]
    rw [← hstop, Function.update_self]

end Push

section Pushes

variable {l : List α}

theorem Ok.foldl_push (h : Ok n r) (hl : r.length n + l.length ≤ n) :
    Ok n (l.foldl (fun r a => r.push n a) r) ∧ (l.foldl (fun r a => r.push n a) r).toList n = r.toList n ++ l := by
  induction l generalizing r with
  | nil => exact ⟨h, (List.append_nil _).symm⟩
  | cons a l ih =>
    rw [List.length_cons] at hl
    have hf : r.full = false := by
      rw [← Bool.not_eq_true, full_iff h]
      omega
    have hlen : (r.push n a).length n + l.length ≤ n := by
      rw [length_push h hf]
      omega
    obtain ⟨hok, hlist⟩ := ih (h.push hf a) hlen
    refine ⟨hok, hlist.trans ?_⟩
    rw [toList_push h hf, List.append_assoc, List.singleton_append]

theorem start_foldl_push (l : List α) : (l.foldl (fun r a => r.push n a) r).start = r.start := by
  induction l generalizing r with
  | nil => rfl
  | cons a l ih => exact ih

theorem buf_eq_of_append {r' : Ring α} (hs : r'.start = r.start) (hl : r'.toList n = r.toList n ++ l) {k : ℕ}
    (hk : k < r.length n) : r'.buf ((r.start + k) % n) = r.buf ((r.start + k) % n) := by
  have hget : (r'.toList n)[k]? = (r.toList n)[k]? := by
    rw [hl, List.getElem?_append_left (by rwa [length_toList])]
  have hlt : k < r'.length n := by
    rw [← length_toList, hl, List.length_append, length_toList]
    omega
  simpa [toList, hk, hlt, hs] using hget

end Pushes

theorem length_unpush_ne (hn : 2 < n) (hs : r.start < n) (ht : r.stop < n) : (r.unpush n).length n ≠ r.length n + 1 := by
  have hstop := mod_eq (n := n) (x := r.stop + (n - 1)) (by omega)
  simp only [length, unpush, hstop, Bool.false_eq_true, ↓reduceIte]
  cases r.full with
  | true =>
    rw [if_pos rfl]
    split_ifs <;> omega
  | false =>
    rw [if_neg Bool.false_ne_true]
    split_ifs <;> omega

section Pop

variable (h : Ok n r) (hne : r.length n ≠ 0)
include h

theorem Ok.pop : Ok n (r.pop n) := by
  have hpos : 0 < n := (Nat.zero_le _).trans_lt h.start_lt
  exact ⟨Nat.mod_lt _ hpos, h.stop_lt, nofun⟩

theorem Ok.unpush : Ok n (r.unpush n) := by
  have hpos : 0 < n := (Nat.zero_le _).trans_lt h.start_lt
  exact ⟨h.start_lt, Nat.mod_lt _ hpos, nofun⟩

include hne

theorem length_pop : (r.pop n).length n + 1 = r.length n := by
  have hs := h.start_lt
  have ht := h.stop_lt
  have hstart := mod_eq (n := n) (x := r.start + 1) (by omega)
  cases hf : r.full with
  | true =>
    have := h.full_eq hf
    split at hstart <;> simp only [length, Ring.pop, hf, hstart, Bool.false_eq_true, ↓reduceIte] <;> split <;> omega
  | false =>
    simp only [length, hf, Bool.false_eq_true, ↓reduceIte] at hne
    split at hne <;> split at hstart <;>
      simp only [length, Ring.pop, hf, hstart, Bool.false_eq_true, ↓reduceIte] <;> split_ifs <;> omega

theorem toList_pop : r.toList n = r.buf r.start :: (r.pop n).toList n := by
  have hlen := length_pop h hne
  have hle := length_le h
  have hs := h.start_lt
  rw [toList, toList, ← hlen, List.range_succ_eq_map, List.map_cons, List.map_map]
  congr 1
  · rw [Nat.add_zero, Nat.mod_eq_of_lt hs]
  · apply List.map_congr_left
    intro k hk
    have hk := List.mem_range.mp hk
    change r.buf ((r.start + (k + 1)) % n) = r.buf (((r.start + 1) % n + k) % n)
    rw [Nat.mod_add_mod, Nat.add_assoc, Nat.add_comm 1 k]

theorem length_unpush : (r.unpush n).length n + 1 = r.length n := by
  have hs := h.start_lt
  have ht := h.stop_lt
  have hstop := mod_eq (n := n) (x := r.stop + (n - 1)) (by omega)
  cases hf : r.full with
  | true =>
    have := h.full_eq hf
    split at hstop <;> simp only [length, Ring.unpush, hf, hstop, Bool.false_eq_true, ↓reduceIte] <;> split <;> omega
  | false =>
    simp only [length, hf, Bool.false_eq_true, ↓reduceIte] at hne
    split at hne <;> split at hstop <;>
      simp only [length, Ring.unpush, hf, hstop, Bool.false_eq_true, ↓reduceIte] <;> split_ifs <;> omega

theorem toList_unpush : ∃ a, r.toList n = (r.unpush n).toList n ++ [a] := by
  refine ⟨r.buf ((r.start + (r.unpush n).length n) % n), ?_⟩
  rw [toList, toList, ← length_unpush h hne, List.range_succ, List.map_append]
  rfl

end Pop

end Ring

end Os506
