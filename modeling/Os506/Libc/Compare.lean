import Os506.Lib.Bytes

namespace Os506.Libc

open Bytes

def schar (c : UInt8) : ℤ := c.toBitVec.toInt

def strcmp (mem : ℕ → UInt8) : ℕ → ℕ → ℕ → Option ℤ
  | 0, _, _ => none
  | n + 1, current1, current2 =>
    if mem current1 ≠ 0 ∧ mem current2 ≠ 0 ∧ mem current1 = mem current2 then
      strcmp mem n (current1 + 1) (current2 + 1)
    else some (schar (mem current2) - schar (mem current1))

/-- The loop of `strncmp`. The test `++count == num` is one of unsigned numbers. -/
def strncmpLoop (mem : ℕ → UInt8) (num : BitVec 32) : ℕ → BitVec 32 → ℕ → ℕ → Option ℤ
  | 0, _, _, _ => none
  | n + 1, count, current1, current2 =>
    if mem current1 ≠ 0 ∧ mem current2 ≠ 0 ∧ mem current1 = mem current2 then
      if count + 1 = num then some 0 else strncmpLoop mem num n (count + 1) (current1 + 1) (current2 + 1)
    else some (schar (mem current2) - schar (mem current1))

def strncmp (mem : ℕ → UInt8) (n str1 str2 : ℕ) (num : BitVec 32) : Option ℤ := strncmpLoop mem num n 0 str1 str2

structure Differ (a b : List UInt8) (k : ℕ) : Prop where
  same : a.take k = b.take k
  ne : a.getD k 0 ≠ b.getD k 0

def Ordered (r : ℤ) (a b : List UInt8) : Prop := (r < 0 ↔ a < b) ∧ (r = 0 ↔ a = b) ∧ (0 < r ↔ b < a)

variable {mem : ℕ → UInt8} {a b : List UInt8} {k n p q : ℕ} {c : UInt8}

theorem Differ.cons (h : Differ (c :: a) (c :: b) (k + 1)) : Differ a b k := by
  refine ⟨?_, h.ne⟩
  have := h.same
  rwa [List.take_succ_cons, List.take_succ_cons, List.cons_inj_right] at this

theorem Differ.exists_cons (h : Differ a b (k + 1)) : ∃ c a' b', a = c :: a' ∧ b = c :: b' ∧ Differ a' b' k := by
  have hsame := h.same
  cases a with
  | nil =>
    cases b with
    | nil => exact absurd rfl h.ne
    | cons d b => simp at hsame
  | cons c a =>
    cases b with
    | nil => simp at hsame
    | cons d b =>
      obtain rfl : c = d := by simpa using congrArg List.head? hsame
      exact ⟨c, a, b, rfl, rfl, h.cons⟩

theorem exists_differ (ha : 0 ∉ a) (hb : 0 ∉ b) (h : a ≠ b) : ∃ k, Differ a b k := by
  induction a generalizing b with
  | nil =>
    cases b with
    | nil => exact absurd rfl h
    | cons d b => exact ⟨0, rfl, fun hd => hb (by simp at hd; simp [hd])⟩
  | cons c a ih =>
    cases b with
    | nil => exact ⟨0, rfl, fun hc => ha (by simp at hc; simp [hc])⟩
    | cons d b =>
      by_cases hcd : c = d
      · subst hcd
        obtain ⟨k, hk⟩ := ih (List.not_mem_of_not_mem_cons ha) (List.not_mem_of_not_mem_cons hb)
          fun he => h (he ▸ rfl)
        refine ⟨k + 1, ?_, hk.ne⟩
        rw [List.take_succ_cons, List.take_succ_cons, hk.same]
      · exact ⟨0, rfl, hcd⟩

theorem zero_lt_of_ne {c : UInt8} (h : c ≠ 0) : 0 < c := by
  rw [UInt8.lt_iff_toNat_lt]
  exact Nat.pos_of_ne_zero fun hc => h (UInt8.toNat_inj.mp hc)

theorem Differ.lt_iff (h : Differ a b k) (ha : 0 ∉ a) (hb : 0 ∉ b) : a < b ↔ a.getD k 0 < b.getD k 0 := by
  induction k generalizing a b with
  | zero =>
    have hne := h.ne
    cases a with
    | nil =>
      cases b with
      | nil => exact absurd rfl hne
      | cons d b => exact iff_of_true (List.nil_lt_cons d b) (zero_lt_of_ne (Ne.symm hne))
    | cons c a =>
      cases b with
      | nil => exact iff_of_false (List.not_lt_nil _) (UInt8.not_lt.mpr (UInt8.le_of_lt (zero_lt_of_ne hne)))
      | cons d b =>
        rw [List.cons_lt_cons_iff]
        exact ⟨fun hlt => hlt.resolve_right fun he => hne he.1, .inl⟩
  | succ k ih =>
    obtain ⟨c, a, b, rfl, rfl, h'⟩ := h.exists_cons
    rw [List.cons_lt_cons_self, ih h' (List.not_mem_of_not_mem_cons ha) (List.not_mem_of_not_mem_cons hb)]
    rfl

theorem Differ.symm (h : Differ a b k) : Differ b a k := ⟨h.same.symm, Ne.symm h.ne⟩

theorem Differ.ne_of (h : Differ a b k) : a ≠ b := fun he => h.ne (he ▸ rfl)

theorem getD_take (hk : k < n) (l : List UInt8) : (l.take n).getD k 0 = l.getD k 0 := by
  rw [List.getD_eq_getElem?_getD, List.getElem?_take_of_lt hk, List.getD_eq_getElem?_getD]

theorem Differ.not_lt (h : Differ a b k) {j : ℕ} (h' : Differ a b j) : ¬ j < k := by
  intro hlt
  have hget : ∀ l : List UInt8, (l.take k).getD j 0 = l.getD j 0 := getD_take hlt
  exact h'.ne (by rw [← hget a, ← hget b, h.same])

theorem Differ.unique (h : Differ a b k) {j : ℕ} (h' : Differ a b j) : k = j :=
  Nat.le_antisymm (Nat.not_lt.mp (h.not_lt h')) (Nat.not_lt.mp (h'.not_lt h))

theorem Differ.take (h : Differ a b k) (n : ℕ) :
    if k < n then Differ (a.take n) (b.take n) k else a.take n = b.take n := by
  by_cases hk : k < n
  · rw [if_pos hk]
    refine ⟨?_, ?_⟩
    · rw [List.take_take, List.take_take, Nat.min_eq_left hk.le, h.same]
    · rw [getD_take hk, getD_take hk]
      exact h.ne
  · rw [if_neg hk]
    have hcut : ∀ l : List UInt8, l.take n = (l.take k).take n := by
      intro l
      rw [List.take_take, Nat.min_eq_left (Nat.not_lt.mp hk)]
    rw [hcut a, hcut b, h.same]

theorem schar_eq (c : UInt8) : schar c = if c.toNat < 128 then (c.toNat : ℤ) else c.toNat - 256 := by
  rw [schar, BitVec.toInt_eq_toNat_cond]
  change (if 2 * c.toNat < 256 then (c.toNat : ℤ) else c.toNat - 256) = _
  by_cases hc : c.toNat < 128
  · rw [if_pos (by omega), if_pos hc]
  · rw [if_neg (by omega), if_neg hc]

/-- The first of the two bytes is taken from the second, as signed numbers: the sign is right when exactly one of them
is negative. -/
theorem ordered_iff (h : Differ a b k) (ha : 0 ∉ a) (hb : 0 ∉ b) :
    Ordered (schar (b.getD k 0) - schar (a.getD k 0)) a b ↔
      ((a.getD k 0).toNat < 128 ↔ ¬ (b.getD k 0).toNat < 128) := by
  have hne : (a.getD k 0).toNat ≠ (b.getD k 0).toNat := fun he => h.ne (UInt8.toNat_inj.mp he)
  rw [Ordered, h.lt_iff ha hb, h.symm.lt_iff hb ha, schar_eq, schar_eq, UInt8.lt_iff_toNat_lt, UInt8.lt_iff_toNat_lt]
  have hab := h.ne_of
  have hx256 := (a.getD k 0).toNat_lt
  have hy256 := (b.getD k 0).toNat_lt
  generalize (a.getD k 0).toNat = x at hne hx256
  generalize (b.getD k 0).toNat = y at hne hy256
  simp only [hab, iff_false]
  by_cases hx : x < 128
  · by_cases hy : y < 128
    · rw [if_pos hx, if_pos hy]
      omega
    · rw [if_pos hx, if_neg hy]
      omega
  · by_cases hy : y < 128
    · rw [if_neg hx, if_pos hy]
      omega
    · rw [if_neg hx, if_neg hy]
      omega

section Loops

variable {num count : BitVec 32}

theorem Differ.stop (h : Differ a b 0) (hp : At mem p (a ++ [0])) (hq : At mem q (b ++ [0])) :
    ¬ (mem p ≠ 0 ∧ mem q ≠ 0 ∧ mem p = mem q) ∧ mem p = a.getD 0 0 ∧ mem q = b.getD 0 0 := by
  have hpa : mem p = a.getD 0 0 := by rw [at_head hp]; cases a <;> rfl
  have hqb : mem q = b.getD 0 0 := by rw [at_head hq]; cases b <;> rfl
  exact ⟨fun hgo => h.ne (by rw [← hpa, ← hqb]; exact hgo.2.2), hpa, hqb⟩

theorem go_of_cons (hp : At mem p (c :: a ++ [0])) (hq : At mem q (c :: b ++ [0])) (ha : 0 ∉ c :: a) :
    mem p ≠ 0 ∧ mem q ≠ 0 ∧ mem p = mem q := by
  have hc : c ≠ 0 := fun h0 => ha (h0 ▸ List.mem_cons_self)
  rw [(at_cons.mp hp).1, (at_cons.mp hq).1]
  exact ⟨hc, hc, rfl⟩

theorem strcmp_of_differ (h : Differ a b k) (hp : At mem p (a ++ [0])) (hq : At mem q (b ++ [0])) (ha : 0 ∉ a)
    (hn : k < n) : strcmp mem n p q = some (schar (b.getD k 0) - schar (a.getD k 0)) := by
  induction n generalizing k a b p q with
  | zero => exact absurd hn (Nat.not_lt_zero k)
  | succ n ih =>
    rw [strcmp]
    cases k with
    | zero =>
      obtain ⟨hstop, hpa, hqb⟩ := h.stop hp hq
      rw [if_neg hstop, hpa, hqb]
    | succ k =>
      obtain ⟨c, a, b, rfl, rfl, h'⟩ := h.exists_cons
      rw [if_pos (go_of_cons hp hq ha),
        ih h' (at_cons.mp hp).2 (at_cons.mp hq).2 (List.not_mem_of_not_mem_cons ha) (by omega)]
      rfl

theorem left_succ (hne : count + 1 ≠ num) : (num - count - 1).toNat = (num - (count + 1) - 1).toNat + 1 := by
  have hpos : num - count - 1 ≠ 0 := by
    intro h
    exact hne (by bv_omega)
  bv_omega

theorem strncmpLoop_of_differ (h : Differ a b k) (hp : At mem p (a ++ [0])) (hq : At mem q (b ++ [0])) (ha : 0 ∉ a)
    (hn : k < n) : strncmpLoop mem num n count p q =
      some (if k ≤ (num - count - 1).toNat then schar (b.getD k 0) - schar (a.getD k 0) else 0) := by
  induction n generalizing k a b p q count with
  | zero => exact absurd hn (Nat.not_lt_zero k)
  | succ n ih =>
    rw [strncmpLoop]
    cases k with
    | zero =>
      obtain ⟨hstop, hpa, hqb⟩ := h.stop hp hq
      rw [if_neg hstop, hpa, hqb, if_pos (Nat.zero_le _)]
    | succ k =>
      obtain ⟨c, a, b, rfl, rfl, h'⟩ := h.exists_cons
      rw [if_pos (go_of_cons hp hq ha)]
      by_cases hlast : count + 1 = num
      · subst hlast
        rw [if_pos rfl, if_neg (by bv_omega)]
      · rw [if_neg hlast, ih h' (at_cons.mp hp).2 (at_cons.mp hq).2 (List.not_mem_of_not_mem_cons ha) (by omega),
          left_succ hlast]
        simp only [Nat.add_le_add_iff_right, List.getD_cons_succ]

theorem strcmp_self (hp : At mem p (a ++ [0])) (hq : At mem q (a ++ [0])) (ha : 0 ∉ a) (hn : a.length < n) :
    strcmp mem n p q = some 0 := by
  induction a generalizing n p q with
  | nil =>
    obtain ⟨n, rfl⟩ := Nat.exists_eq_add_of_lt hn
    rw [strcmp, if_neg fun hgo => hgo.1 (at_head hp), at_head hp, at_head hq, Int.sub_self]
  | cons c a ih =>
    obtain ⟨n, rfl⟩ := Nat.exists_eq_add_of_lt hn
    rw [strcmp, if_pos (go_of_cons hp hq ha)]
    refine ih (at_cons.mp hp).2 (at_cons.mp hq).2 (List.not_mem_of_not_mem_cons ha) ?_
    rw [List.length_cons]
    omega

theorem strncmpLoop_self (hp : At mem p (a ++ [0])) (hq : At mem q (a ++ [0])) (ha : 0 ∉ a) (hn : a.length < n) :
    strncmpLoop mem num n count p q = some 0 := by
  induction a generalizing n p q count with
  | nil =>
    obtain ⟨n, rfl⟩ := Nat.exists_eq_add_of_lt hn
    rw [strncmpLoop, if_neg fun hgo => hgo.1 (at_head hp), at_head hp, at_head hq, Int.sub_self]
  | cons c a ih =>
    obtain ⟨n, rfl⟩ := Nat.exists_eq_add_of_lt hn
    rw [strncmpLoop, if_pos (go_of_cons hp hq ha)]
    split
    · rfl
    · refine ih (at_cons.mp hp).2 (at_cons.mp hq).2 (List.not_mem_of_not_mem_cons ha) ?_
      rw [List.length_cons]
      omega

end Loops

def Compares (mem : ℕ → UInt8) (p q : ℕ) (a b : List UInt8) (num : BitVec 32) : Prop :=
  ∃ fuel r r', (∀ n, fuel ≤ n → strcmp mem n p q = some r ∧ strncmp mem n p q num = some r') ∧
    Ordered r a b ∧ Ordered r' (a.take num.toNat) (b.take num.toNat)

theorem ordered_self_iff {r : ℤ} : Ordered r a a ↔ r = 0 := by
  refine ⟨fun h => h.2.1.mpr rfl, ?_⟩
  rintro rfl
  exact ⟨iff_of_false (Int.lt_irrefl 0) (List.lt_irrefl a), iff_of_true rfl rfl,
    iff_of_false (Int.lt_irrefl 0) (List.lt_irrefl a)⟩

theorem schar_sub_ne_zero {c d : UInt8} (h : c ≠ d) : schar d - schar c ≠ 0 := by
  intro h0
  have heq : d.toBitVec = c.toBitVec := BitVec.toInt_inj.mp (Int.sub_eq_zero.mp h0)
  exact h (UInt8.toBitVec_inj.mp heq.symm)

theorem ordered_take_iff (h : Differ a b k) (ha : 0 ∉ a) (hb : 0 ∉ b) (num : BitVec 32) :
    Ordered (if k ≤ (num - 1).toNat then schar (b.getD k 0) - schar (a.getD k 0) else 0)
        (a.take num.toNat) (b.take num.toNat) ↔
      (k < num.toNat → ((a.getD k 0).toNat < 128 ↔ ¬ (b.getD k 0).toNat < 128)) ∧ (num = 0 → 2 ^ 32 ≤ k) := by
  by_cases h0 : num = 0
  · -- nothing is to be compared: only the counter's wrap answers 0
    subst h0
    have hzero : (0 : BitVec 32).toNat = 0 := rfl
    have hmax : ((0 : BitVec 32) - 1).toNat = 2 ^ 32 - 1 := rfl
    rw [hzero, List.take_zero, List.take_zero, ordered_self_iff, hmax]
    by_cases hk : k ≤ 2 ^ 32 - 1
    · rw [if_pos hk]
      refine iff_of_false (schar_sub_ne_zero h.ne) fun hwrap => ?_
      have := hwrap.2 rfl
      omega
    · rw [if_neg hk]
      exact iff_of_true rfl ⟨fun hlt => absurd hlt (Nat.not_lt_zero k), fun _ => by omega⟩
  · have hpred : (num - 1).toNat + 1 = num.toNat := by bv_omega
    by_cases hk : k < num.toNat
    · have hcut := h.take num.toNat
      rw [if_pos hk] at hcut
      have hget : ∀ l : List UInt8, (l.take num.toNat).getD k 0 = l.getD k 0 := getD_take hk
      have hord := ordered_iff hcut (fun hm => ha (List.mem_of_mem_take hm)) fun hm => hb (List.mem_of_mem_take hm)
      rw [hget, hget] at hord
      rw [if_pos (by omega), hord]
      exact ⟨fun hx => ⟨fun _ => hx, fun hz => absurd hz h0⟩, fun hx => hx.1 hk⟩
    · have hcut := h.take num.toNat
      rw [if_neg hk] at hcut
      rw [if_neg (by omega), hcut, ordered_self_iff]
      exact iff_of_true rfl ⟨fun hlt => absurd hlt hk, fun hz => absurd hz h0⟩

theorem compares_of_run {fuel : ℕ} {r r' : ℤ} {num : BitVec 32}
    (hrun : ∀ n, fuel ≤ n → strcmp mem n p q = some r ∧ strncmp mem n p q num = some r') :
    Compares mem p q a b num ↔ Ordered r a b ∧ Ordered r' (a.take num.toNat) (b.take num.toNat) := by
  constructor
  · rintro ⟨fuel', s, s', hrun', hord⟩
    obtain ⟨hs, hs'⟩ := hrun' _ (Nat.le_max_left fuel' fuel)
    obtain ⟨hr, hr'⟩ := hrun _ (Nat.le_max_right fuel' fuel)
    obtain rfl := Option.some.inj (hs.symm.trans hr)
    obtain rfl := Option.some.inj (hs'.symm.trans hr')
    exact hord
  · exact fun hord => ⟨fuel, r, r', hrun, hord⟩

/-- Both answers have the right sign exactly for equal strings, and for strings whose first different bytes lie on the
two sides of 128: the code subtracts the bytes the wrong way round, as signed numbers. With a limit of 0 the counter has
to wrap before it stops the loop. -/
theorem compares_iff (hp : At mem p (a ++ [0])) (hq : At mem q (b ++ [0])) (ha : 0 ∉ a) (hb : 0 ∉ b)
    (num : BitVec 32) : Compares mem p q a b num ↔
      a = b ∨ ∃ k, Differ a b k ∧ ((a.getD k 0).toNat < 128 ↔ ¬ (b.getD k 0).toNat < 128) ∧ (num = 0 → 2 ^ 32 ≤ k) := by
  by_cases hab : a = b
  · subst hab
    refine iff_of_true ?_ (.inl rfl)
    rw [compares_of_run fun n hn => ⟨strcmp_self hp hq ha hn, strncmpLoop_self hp hq ha hn⟩]
    exact ⟨ordered_self_iff.mpr rfl, ordered_self_iff.mpr rfl⟩
  · obtain ⟨k, hk⟩ := exists_differ ha hb hab
    rw [compares_of_run fun n hn => ⟨strcmp_of_differ hk hp hq ha hn, strncmpLoop_of_differ hk hp hq ha hn⟩,
      show num - 0 = num from BitVec.sub_zero num, ordered_iff hk ha hb, ordered_take_iff hk ha hb]
    constructor
    · rintro ⟨hx, -, hwrap⟩
      exact .inr ⟨k, hk, hx, hwrap⟩
    · rintro (he | ⟨k', hk', hx, hwrap⟩)
      · exact absurd he hab
      · obtain rfl := hk.unique hk'
        exact ⟨hx, fun _ => hx, hwrap⟩

theorem compares_fails_on_letters : strcmp (fun x => [0x61, 0, 0x62, 0].getD x 0) 1 0 2 = some 1 ∧
    strncmp (fun x => [0x61, 0, 0x62, 0].getD x 0) 1 0 2 0 = some 1 ∧
    ¬ Compares (fun x => [0x61, 0, 0x62, 0].getD x 0) 0 2 [0x61] [0x62] 0 := by
  refine ⟨by decide, by decide, ?_⟩
  have hd : Differ [0x61] [0x62] 0 := ⟨rfl, by decide⟩
  have hp : At (fun x => [0x61, 0, 0x62, 0].getD x 0) 0 ([0x61] ++ [0]) := by decide
  have hq : At (fun x => [0x61, 0, 0x62, 0].getD x 0) 2 ([0x62] ++ [0]) := by decide
  rw [compares_of_run fun n hn =>
    ⟨strcmp_of_differ hd hp hq (by decide) hn, strncmpLoop_of_differ hd hp hq (by decide) hn⟩]
  rintro ⟨h, -⟩
  exact absurd ((ordered_iff hd (by decide) (by decide)).mp h) (by decide)

theorem compares_mixed : Compares (fun x => [0x61, 0, 0xE9, 0].getD x 0) 0 2 [0x61] [0xE9] 1 :=
  (compares_iff (by decide) (by decide) (by decide) (by decide) 1).mpr
    (.inr ⟨0, ⟨rfl, by decide⟩, by decide, fun h => absurd h (by decide)⟩)

end Os506.Libc
