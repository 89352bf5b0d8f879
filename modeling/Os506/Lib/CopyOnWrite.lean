import Mathlib.Data.Set.Card
import Mathlib.Logic.Function.Basic

namespace Os506.CopyOnWrite

/-- Processes `ι` map their pages `π` to frames `φ`; the flag says whether the process may write. -/
structure Space (ι π φ κ : Type) where
  map : ι → π → Option (φ × Bool)
  mem : φ → κ

namespace Space

variable {ι π φ κ : Type} {s : Space ι π φ κ} {i j : ι} {p q : π} {f g : φ} {b d : Bool} {c : κ}

def seen (s : Space ι π φ κ) (i : ι) (p : π) : Option κ := (s.map i p).map fun e => s.mem e.1

def Mapped (s : Space ι π φ κ) (f : φ) : Prop := ∃ i p b, s.map i p = some (f, b)

def holders (s : Space ι π φ κ) (f : φ) : Set (ι × π) := {x | ∃ b, s.map x.1 x.2 = some (f, b)}

/-- A frame stands for one page of one or more processes, and for one process if that one may write. -/
structure Private (s : Space ι π φ κ) : Prop where
  page : ∀ {i j p q f b b'}, s.map i p = some (f, b) → s.map j q = some (f, b') → p = q
  owner : ∀ {i j p f b}, s.map i p = some (f, true) → s.map j p = some (f, b) → i = j

def Bounded (s : Space ι π φ κ) : Prop := {x : ι × π | s.map x.1 x.2 ≠ none}.Finite

theorem Bounded.holders (h : s.Bounded) (f : φ) : (s.holders f).Finite := by
  apply h.subset
  rintro x ⟨b, hx⟩
  simp [hx]

theorem mapped_iff (h : s.Bounded) : s.Mapped f ↔ 0 < (s.holders f).ncard := by
  rw [Set.ncard_pos (h.holders f)]
  constructor
  · rintro ⟨i, p, b, he⟩; exact ⟨(i, p), b, he⟩
  · rintro ⟨⟨i, p⟩, b, he⟩; exact ⟨i, p, b, he⟩

theorem mem_holders : (i, p) ∈ s.holders f ↔ ∃ b, s.map i p = some (f, b) := Iff.rfl

section Store

variable [DecidableEq φ]

def store (f : φ) (c : κ) (s : Space ι π φ κ) : Space ι π φ κ := { s with mem := Function.update s.mem f c }

variable [DecidableEq ι] [DecidableEq π]

theorem seen_store_owner (h : s.Private) (hm : s.map i p = some (f, true)) :
    (s.store f c).seen = Function.update s.seen i (Function.update (s.seen i) p (some c)) := by
  funext j q
  by_cases hx : j = i ∧ q = p
  · obtain ⟨rfl, rfl⟩ := hx
    simp [seen, store, hm]
  · have hsame : (s.store f c).seen j q = s.seen j q := by
      simp only [seen, store]
      cases he : s.map j q with
      | none => rfl
      | some e =>
        have hne : e.1 ≠ f := by
          rintro rfl
          obtain rfl := h.page hm he
          exact hx ⟨(h.owner hm he).symm, rfl⟩
        simp [hne]
    rw [hsame]
    by_cases hj : j = i
    · subst hj
      have hq : q ≠ p := fun he => hx ⟨rfl, he⟩
      simp [hq]
    · simp [hj]

end Store

variable [DecidableEq ι] [DecidableEq π]

def set (i : ι) (p : π) (e : φ × Bool) (s : Space ι π φ κ) : Space ι π φ κ :=
  { s with map := Function.update s.map i (Function.update (s.map i) p (some e)) }

@[simp] theorem set_map_self (e : φ × Bool) : (s.set i p e).map i p = some e := by simp [set]

theorem set_map_of_ne (e : φ × Bool) (h : ¬ (j = i ∧ q = p)) : (s.set i p e).map j q = s.map j q := by
  by_cases hj : j = i
  · subst hj
    have hq : q ≠ p := fun he => h ⟨rfl, he⟩
    simp [set, hq]
  · simp [set, hj]

theorem set_map_cases {e x : φ × Bool} (h : (s.set i p e).map j q = some x) :
    (j = i ∧ q = p ∧ x = e) ∨ (¬ (j = i ∧ q = p) ∧ s.map j q = some x) := by
  by_cases hx : j = i ∧ q = p
  · obtain ⟨rfl, rfl⟩ := hx
    rw [set_map_self] at h
    exact .inl ⟨rfl, rfl, (Option.some.inj h).symm⟩
  · rw [set_map_of_ne e hx] at h
    exact .inr ⟨hx, h⟩

theorem seen_set : (s.set i p (f, b)).seen =
    Function.update s.seen i (Function.update (s.seen i) p (some (s.mem f))) := by
  funext j q
  by_cases hj : j = i
  · subst hj
    by_cases hq : q = p
    · subst hq; simp [seen, set]
    · simp [seen, set, hq]
  · simp [seen, set, hj]

theorem Bounded.set (h : s.Bounded) (e : φ × Bool) : (s.set i p e).Bounded := by
  apply (Set.Finite.insert (i, p) h).subset
  rintro ⟨j, q⟩ hx
  by_cases hjq : j = i ∧ q = p
  · exact .inl (by rw [hjq.1, hjq.2])
  · refine .inr ?_
    simpa [set_map_of_ne e hjq] using hx

theorem holders_set_self : (s.set i p (f, b)).holders f = insert (i, p) (s.holders f) := by
  ext ⟨j, q⟩
  rw [Set.mem_insert_iff, mem_holders, mem_holders]
  by_cases hx : j = i ∧ q = p
  · obtain ⟨rfl, rfl⟩ := hx
    simp
  · have hne : (j, q) ≠ (i, p) := fun he => hx ⟨congrArg Prod.fst he, congrArg Prod.snd he⟩
    simp only [set_map_of_ne _ hx, hne, false_or]

theorem holders_set_of_ne (h : g ≠ f) : (s.set i p (f, b)).holders g = s.holders g \ {(i, p)} := by
  ext ⟨j, q⟩
  rw [Set.mem_sdiff, Set.mem_singleton_iff, mem_holders, mem_holders]
  by_cases hx : j = i ∧ q = p
  · obtain ⟨rfl, rfl⟩ := hx
    simp [h.symm]
  · have hne : (j, q) ≠ (i, p) := fun he => hx ⟨congrArg Prod.fst he, congrArg Prod.snd he⟩
    simp only [set_map_of_ne _ hx, hne, not_false_iff, and_true]

theorem holders_set_other (h : g ≠ f) (hm : ∀ c, s.map i p ≠ some (g, c)) :
    (s.set i p (f, b)).holders g = s.holders g := by
  rw [holders_set_of_ne h, Set.sdiff_singleton_eq_self]
  rintro ⟨c, hc⟩
  exact hm c hc

theorem holders_set_again (hm : s.map i p = some (f, d)) (g : φ) : (s.set i p (f, b)).holders g = s.holders g := by
  by_cases hg : g = f
  · subst hg
    rw [holders_set_self]
    exact Set.insert_eq_of_mem ⟨d, hm⟩
  · exact holders_set_other hg fun c hc => hg (Prod.mk.inj (Option.some.inj (hc.symm.trans hm))).1

theorem ncard_holders_set_new (hb : s.Bounded) (hm : ∀ c, s.map i p ≠ some (f, c)) :
    ((s.set i p (f, b)).holders f).ncard = (s.holders f).ncard + 1 := by
  rw [holders_set_self]
  apply Set.ncard_insert_of_notMem _ (hb.holders f)
  rintro ⟨c, hc⟩
  exact hm c hc

theorem ncard_holders_set_old (hb : s.Bounded) (hm : s.map i p = some (g, d)) (h : g ≠ f) :
    ((s.set i p (f, b)).holders g).ncard + 1 = (s.holders g).ncard := by
  rw [holders_set_of_ne h]
  exact Set.ncard_sdiff_singleton_add_one ⟨d, hm⟩ (hb.holders g)

theorem Private.set_fresh (h : s.Private) (hg : ¬ s.Mapped g) : (s.set i p (g, b)).Private := by
  constructor
  · intro j k q r f d d' hj hk
    rcases set_map_cases hj with ⟨_, hq, hf⟩ | ⟨_, hj'⟩
    · rcases set_map_cases hk with ⟨_, hr, _⟩ | ⟨_, hk'⟩
      · exact hq.trans hr.symm
      · exact absurd ⟨k, r, d', (Prod.mk.inj hf).1 ▸ hk'⟩ hg
    · rcases set_map_cases hk with ⟨_, _, hf⟩ | ⟨_, hk'⟩
      · exact absurd ⟨j, q, d, (Prod.mk.inj hf).1 ▸ hj'⟩ hg
      · exact h.page hj' hk'
  · intro j k q f d hj hk
    rcases set_map_cases hj with ⟨hji, _, hf⟩ | ⟨_, hj'⟩
    · rcases set_map_cases hk with ⟨hki, _⟩ | ⟨_, hk'⟩
      · exact hji.trans hki.symm
      · exact absurd ⟨k, q, d, (Prod.mk.inj hf).1 ▸ hk'⟩ hg
    · rcases set_map_cases hk with ⟨_, _, hf⟩ | ⟨_, hk'⟩
      · exact absurd ⟨j, q, true, (Prod.mk.inj hf).1 ▸ hj'⟩ hg
      · exact h.owner hj' hk'

theorem Private.set_shared (h : s.Private) (hm : s.map i p = some (f, b)) (hj : j = i ∨ b = false) :
    (s.set j p (f, false)).Private := by
  constructor
  · intro k l q r g d d' hk hl
    rcases set_map_cases hk with ⟨_, hq, hf⟩ | ⟨_, hk'⟩
    · rcases set_map_cases hl with ⟨_, hr, _⟩ | ⟨_, hl'⟩
      · exact hq.trans hr.symm
      · exact hq.trans (h.page ((Prod.mk.inj hf).1 ▸ hm) hl')
    · rcases set_map_cases hl with ⟨_, hr, hf⟩ | ⟨_, hl'⟩
      · exact (h.page hk' ((Prod.mk.inj hf).1 ▸ hm)).trans hr.symm
      · exact h.page hk' hl'
  · intro k l q g d hk hl
    rcases set_map_cases hk with ⟨_, _, hf⟩ | ⟨hne, hk'⟩
    · exact absurd (Prod.mk.inj hf).2 (by simp)
    · rcases set_map_cases hl with ⟨hlj, hq, hf⟩ | ⟨_, hl'⟩
      · rw [hq, (Prod.mk.inj hf).1] at hk'
        have hki := h.owner hk' hm
        rcases hj with hji | hb
        · rw [hki, hlj, hji]
        · rw [hki, hm, hb] at hk'
          exact absurd (Prod.mk.inj (Option.some.inj hk')).2 (by simp)
      · exact h.owner hk' hl'

end Space

section Stock

variable {α : Type} {a b c : Set α} {n k r : ℕ} {x : α}

/-- Of `n` units in stock `k` are left, and the others stand for what `b` has more than `a`. -/
structure Spends (a : Set α) (n : ℕ) (b : Set α) (k : ℕ) : Prop where
  subset : a ⊆ b
  stock : (n : ℕ∞) = k + (b \ a).encard

theorem Spends.refl (a : Set α) (n : ℕ) : Spends a n a n := ⟨subset_rfl, by simp⟩

theorem Spends.trans (h : Spends a n b k) (h' : Spends b k c r) : Spends a n c r := by
  refine ⟨h.subset.trans h'.subset, ?_⟩
  have hunion : c \ a = (c \ b) ∪ (b \ a) := (Set.sdiff_union_sdiff_cancel h'.subset h.subset).symm
  have hdisj : Disjoint (c \ b) (b \ a) := Set.disjoint_sdiff_left.mono_right Set.sdiff_subset
  rw [hunion, Set.encard_union_eq hdisj, ← add_assoc, ← h'.stock, ← h.stock]

theorem Spends.insert (a : Set α) (k : ℕ) (hx : x ∉ a) : Spends a (k + 1) (insert x a) k := by
  refine ⟨Set.subset_insert x a, ?_⟩
  have hdiff : Insert.insert x a \ a = {x} := by
    rw [Set.insert_sdiff_of_notMem _ hx, Set.sdiff_self, insert_empty_eq]
  rw [hdiff, Set.encard_singleton, Nat.cast_add, Nat.cast_one]

theorem Spends.borrow (h : Spends a n b k) : Spends a (n + 1) b (k + 1) := by
  refine ⟨h.subset, ?_⟩
  rw [Nat.cast_add, Nat.cast_add, h.stock, add_right_comm]

end Stock

end Os506.CopyOnWrite
