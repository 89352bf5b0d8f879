import Mathlib.Algebra.GroupWithZero.Nat
import Mathlib.Logic.Function.Iterate
import Mathlib.Order.Monotone.Basic
import Mathlib.Data.Nat.Basic

namespace Os506

structure Ktime where
  ticks : ℕ
  sCnt : ℕ
  second : ℕ
  day : ℕ
  ms : ℕ

namespace Ktime

def boot : Ktime := ⟨0, 0, 0, 0, 0⟩

def addTick (k : Ktime) : Ktime :=
  let k :=
    if k.sCnt < 4 then
      if k.ticks < 18 then { k with ticks := k.ticks + 1, ms := (k.ms + 55) % 2 ^ 64 }
      else { k with
        ms := (k.ms + 10) % 2 ^ 64, second := (k.second + 1) % 2 ^ 64, ticks := 0, sCnt := k.sCnt + 1 }
    else
      if k.ticks < 19 then { k with ticks := k.ticks + 1, ms := (k.ms + 52) % 2 ^ 64 }
      else { k with
        ms := (k.ms + 12) % 2 ^ 64, second := (k.second + 1) % 2 ^ 64, ticks := 0, sCnt := 0 }
  if 86400 ≤ k.second then { k with day := (k.day + 1) % 2 ^ 64, second := 0 } else k

def advance (k : Ktime) : Ktime :=
  let k :=
    if k.sCnt < 4 then
      if k.ticks < 18 then { k with ticks := k.ticks + 1, ms := k.ms + 55 }
      else { k with ms := k.ms + 10, second := k.second + 1, ticks := 0, sCnt := k.sCnt + 1 }
    else
      if k.ticks < 19 then { k with ticks := k.ticks + 1, ms := k.ms + 52 }
      else { k with ms := k.ms + 12, second := k.second + 1, ticks := 0, sCnt := 0 }
  if 86400 ≤ k.second then { k with day := k.day + 1, second := 0 } else k

def wrap (k : Ktime) : Ktime := { k with second := k.second % 2 ^ 64, day := k.day % 2 ^ 64, ms := k.ms % 2 ^ 64 }

def seconds (k : Ktime) : ℕ := 86400 * k.day + k.second

def fraction (k : Ktime) : ℕ := if k.seconds % 5 < 4 then 55 * k.ticks else 52 * k.ticks

variable {k : Ktime} {n : ℕ}

theorem addTick_wrap (h : k.second < 86400) : addTick k.wrap = (advance k).wrap := by
  have hsecond : k.second % 2 ^ 64 = k.second := Nat.mod_eq_of_lt (by omega)
  have hnext : (k.second + 1) % 2 ^ 64 = k.second + 1 := Nat.mod_eq_of_lt (by omega)
  simp only [addTick, advance, wrap, hsecond]
  split
  · split
    · simp only [Nat.mod_add_mod]
      split <;> simp only [hsecond, Nat.zero_mod]
    · simp only [hnext, Nat.mod_add_mod]
      split <;> simp only [hnext, Nat.zero_mod]
  · split
    · simp only [Nat.mod_add_mod]
      split <;> simp only [hsecond, Nat.zero_mod]
    · simp only [hnext, Nat.mod_add_mod]
      split <;> simp only [hnext, Nat.zero_mod]

theorem advance_within (h : k.second < 86400) (ht : k.ticks < if k.sCnt < 4 then 18 else 19) :
    advance k = { k with ticks := k.ticks + 1, ms := k.ms + if k.sCnt < 4 then 55 else 52 } := by
  have hlow : ¬ 86400 ≤ k.second := by omega
  rw [advance]
  by_cases hc : k.sCnt < 4
  · rw [if_pos hc] at ht
    simp only [hc, ht, ↓reduceIte, hlow]
  · rw [if_neg hc] at ht
    simp only [hc, ht, ↓reduceIte, hlow]

theorem advance_ends (ht : ¬ k.ticks < if k.sCnt < 4 then 18 else 19) :
    advance k = { ticks := 0, sCnt := if k.sCnt < 4 then k.sCnt + 1 else 0,
                  second := if 86400 ≤ k.second + 1 then 0 else k.second + 1,
                  day := if 86400 ≤ k.second + 1 then k.day + 1 else k.day,
                  ms := k.ms + if k.sCnt < 4 then 10 else 12 } := by
  rw [advance]
  by_cases hc : k.sCnt < 4
  · rw [if_pos hc] at ht
    simp only [hc, ht, ↓reduceIte]
    split <;> rfl
  · rw [if_neg hc] at ht
    simp only [hc, ht, ↓reduceIte]
    split <;> rfl

/-- After `n` calls the counters recombine to an exact clock. A second takes one call more than it has ticks. -/
structure Exact (n : ℕ) (k : Ktime) : Prop where
  sCnt : k.sCnt = k.seconds % 5
  ticks : k.ticks ≤ if k.sCnt < 4 then 18 else 19
  second : k.second < 86400
  ms : k.ms = 1000 * k.seconds + k.fraction
  calls : n = 96 * (k.seconds / 5) + 19 * (k.seconds % 5) + k.ticks

theorem boot_exact : Exact 0 boot := ⟨rfl, by decide, by decide, rfl, rfl⟩

theorem Exact.advance (h : Exact n k) : Exact (n + 1) (advance k) ∧ k.ms < (Ktime.advance k).ms := by
  obtain ⟨hcnt, hticks, hsecond, hms, hcalls⟩ := h
  rw [fraction, ← hcnt] at hms
  by_cases ht : k.ticks < if k.sCnt < 4 then 18 else 19
  · rw [advance_within hsecond ht]
    refine ⟨⟨hcnt, ht, hsecond, ?_, ?_⟩, ?_⟩
    · change k.ms + _ = 1000 * k.seconds + if k.seconds % 5 < 4 then 55 * (k.ticks + 1) else 52 * (k.ticks + 1)
      rw [hms, ← hcnt]
      split <;> omega
    · change n + 1 = 96 * (k.seconds / 5) + 19 * (k.seconds % 5) + (k.ticks + 1)
      omega
    · change k.ms < k.ms + _
      split <;> omega
  · have hend : k.ticks = if k.sCnt < 4 then 18 else 19 := by omega
    have hnext : (Ktime.advance k).seconds = k.seconds + 1 := by
      rw [advance_ends ht, seconds, seconds]
      dsimp only
      by_cases hday : 86400 ≤ k.second + 1
      · rw [if_pos hday, if_pos hday]
        omega
      · rw [if_neg hday, if_neg hday]
        omega
    have hfraction : (Ktime.advance k).fraction = 0 := by
      have hzero : (Ktime.advance k).ticks = 0 := by rw [advance_ends ht]
      rw [fraction, hzero]
      split <;> rfl
    refine ⟨⟨?_, ?_, ?_, ?_, ?_⟩, ?_⟩
    · rw [hnext, advance_ends ht]
      dsimp only
      split <;> omega
    · rw [advance_ends ht]
      exact Nat.zero_le _
    · rw [advance_ends ht]
      dsimp only
      split <;> omega
    · rw [hnext, hfraction, advance_ends ht]
      dsimp only
      rw [hms, hend]
      split <;> omega
    · rw [hnext, advance_ends ht, hcalls, hend]
      dsimp only
      split <;> omega
    · rw [advance_ends ht]
      dsimp only
      split <;> omega

theorem advance_exact (n : ℕ) : Exact n (advance^[n] boot) := by
  induction n with
  | zero => exact boot_exact
  | succ n ih =>
    rw [Function.iterate_succ_apply']
    exact ih.advance.1

theorem addTick_eq (n : ℕ) : addTick^[n] boot = (advance^[n] boot).wrap := by
  induction n with
  | zero => rfl
  | succ n ih =>
    rw [Function.iterate_succ_apply', Function.iterate_succ_apply', ih, addTick_wrap (advance_exact n).second]

theorem strictMono_advance_ms : StrictMono fun n => (advance^[n] boot).ms := by
  apply strictMono_nat_of_lt_succ
  intro n
  rw [Function.iterate_succ_apply']
  exact (advance_exact n).advance.2

theorem Exact.seconds_le (h : Exact n k) : k.seconds ≤ k.ms := by
  rw [h.ms]
  omega

theorem addTick_of_fits (h : (advance^[n] boot).ms < 2 ^ 64) : addTick^[n] boot = advance^[n] boot := by
  have hexact := advance_exact n
  have hle := hexact.seconds_le
  rw [seconds] at hle
  rw [addTick_eq, wrap, Nat.mod_eq_of_lt (by omega), Nat.mod_eq_of_lt (by omega), Nat.mod_eq_of_lt h]

theorem addTick_exact (h : (advance^[n] boot).ms < 2 ^ 64) :
    (∃ r < 1000, (addTick^[n] boot).ms = 1000 * (addTick^[n] boot).seconds + r ∧
      r = if (addTick^[n] boot).seconds % 5 < 4 then 55 * (addTick^[n] boot).ticks else 52 * (addTick^[n] boot).ticks) ∧
      (addTick^[n] boot).second < 86400 ∧ ∀ m < n, (addTick^[m] boot).ms < (addTick^[m + 1] boot).ms := by
  obtain ⟨hcnt, hticks, hsecond, hms, _⟩ := advance_exact n
  rw [addTick_of_fits h]
  refine ⟨⟨_, ?_, hms, rfl⟩, hsecond, fun m hm => ?_⟩
  · rw [fraction, ← hcnt]
    split at hticks <;> split <;> omega
  · have hlt : (advance^[m] boot).ms < (advance^[m + 1] boot).ms := strictMono_advance_ms (Nat.lt_succ_self m)
    have hle : (advance^[m + 1] boot).ms ≤ (advance^[n] boot).ms := strictMono_advance_ms.monotone hm
    rw [addTick_of_fits (hle.trans_lt h), addTick_of_fits (hlt.trans (hle.trans_lt h))]
    exact hlt

theorem addTick_exact_cycle : (advance^[100] boot).ms < 2 ^ 64 ∧
    ∃ r < 1000, (addTick^[100] boot).ms = 1000 * (addTick^[100] boot).seconds + r := by
  have h : (advance^[100] boot).ms < 2 ^ 64 := by decide +kernel
  obtain ⟨⟨r, hr, hms, _⟩, _⟩ := addTick_exact h
  exact ⟨h, r, hr, hms⟩

/-- `91 n` interrupts are counted as `5 n` seconds. -/
def KeepsRate (n : ℕ) : Prop := (addTick^[91 * n] boot).seconds = 5 * n ∧ (addTick^[91 * n] boot).ms = 5000 * n

/-- The rollover takes a call of its own, so five seconds are counted in 96 interrupts. -/
theorem addTick_cycles (h : 5000 * n < 2 ^ 64) :
    (addTick^[96 * n] boot).seconds = 5 * n ∧ (addTick^[96 * n] boot).ms = 5000 * n := by
  obtain ⟨hcnt, hticks, _, hms, hcalls⟩ := advance_exact (96 * n)
  have hlow : 19 * ((advance^[96 * n] boot).seconds % 5) + (advance^[96 * n] boot).ticks < 96 := by
    split at hticks <;> omega
  have hcycle : n = (advance^[96 * n] boot).seconds / 5 := by omega
  have hseconds : (advance^[96 * n] boot).seconds = 5 * n ∧ (advance^[96 * n] boot).ticks = 0 := by omega
  rw [hseconds.1, fraction, hseconds.2] at hms
  have hms : (advance^[96 * n] boot).ms = 5000 * n := by
    split at hms <;> omega
  rw [addTick_of_fits (hms.trans_lt h)]
  exact ⟨hseconds.1, hms⟩

theorem keepsRate_iff : KeepsRate n ↔ n = 0 := by
  constructor
  · rintro ⟨_, hms⟩
    have hlt : (addTick^[91 * n] boot).ms < 2 ^ 64 := by
      rw [addTick_eq]
      exact Nat.mod_lt _ (by decide)
    obtain ⟨hcnt, hticks, _, hideal, hcalls⟩ := advance_exact (91 * n)
    have hle : n ≠ 0 → (advance^[91 * n] boot).ms < 5000 * n := by
      intro hn
      rw [hideal, fraction, ← hcnt]
      split at hticks <;> split <;> omega
    by_contra hn
    rw [addTick_of_fits (by have := hle hn; omega)] at hms
    exact (hle hn).ne hms
  · rintro rfl
    exact ⟨rfl, rfl⟩

theorem keepsRate_fails_on_one : (addTick^[91] boot).seconds = 4 ∧ (addTick^[91] boot).ms = 4780 ∧ ¬ KeepsRate 1 := by
  refine ⟨by decide +kernel, by decide +kernel, fun h => ?_⟩
  exact absurd h.1 (by decide +kernel)

end Ktime

end Os506
