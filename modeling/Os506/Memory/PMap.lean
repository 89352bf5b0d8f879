import Mathlib.Algebra.GroupWithZero.Nat
import Os506.Lib.Linked

namespace Os506

open Linked

structure Desc where
  base : BitVec 64
  mapCount : BitVec 32
  next : Option ℕ

structure PMap where
  desc : ℕ → Desc
  entryCount : ℕ
  head : Option ℕ

inductive PMapPanic
  | outOfMemory
  | nonzeroFree
  | freeingInvalid
  | freeingUnallocated
  | countingInvalid
  | countingUnallocated
  deriving DecidableEq

namespace PMap

def modify (i : ℕ) (f : Desc → Desc) (s : PMap) : PMap :=
  { s with desc := Function.update s.desc i (f (s.desc i)) }

def next (s : PMap) (i : ℕ) : Option ℕ := (s.desc i).next

def walkList (s : PMap) (p : BitVec 64) : Option ℕ :=
  (List.range s.entryCount).find? fun i => (s.desc i).base == p

def getFreePage (s : PMap) : Except PMapPanic (BitVec 64) × PMap :=
  match s.head with
  | none => (.error .outOfMemory, s)
  | some i =>
    if (s.desc i).mapCount ≠ 0 then (.error .nonzeroFree, s)
    else
      let s := s.modify i fun d => { d with mapCount := 1 }
      let s := { s with head := s.next i }
      let s := s.modify i fun d => { d with next := none }
      (.ok (s.desc i).base, s)

def releasePage (p : BitVec 64) (s : PMap) : Except PMapPanic Unit × PMap :=
  match s.walkList p with
  | none => (.error .freeingInvalid, s)
  | some i =>
    if (s.desc i).mapCount = 0 then (.error .freeingUnallocated, s)
    else
      let s := s.modify i fun d => { d with mapCount := d.mapCount - 1 }
      if (s.desc i).mapCount = 0 then (.ok (), { s.modify i fun d => { d with next := s.head } with head := some i })
      else (.ok (), s)

def incMapCount (p : BitVec 64) (s : PMap) : Except PMapPanic Unit × PMap :=
  match s.walkList p with
  | none => (.error .countingInvalid, s)
  | some i =>
    if (s.desc i).mapCount = 0 then (.error .countingUnallocated, s)
    else (.ok (), s.modify i fun d => { d with mapCount := d.mapCount + 1 })

variable {s : PMap} {l : List ℕ} {i : ℕ} {p : BitVec 64}

def Distinct (s : PMap) : Prop :=
  ∀ i < s.entryCount, ∀ j < s.entryCount, (s.desc i).base = (s.desc j).base → i = j

/-- The list from `freelist_head` is `l`, and it holds exactly the descriptors whose count is zero. -/
structure Free (s : PMap) (l : List ℕ) : Prop where
  chain : Chain s.next s.head l
  mem : ∀ i, i ∈ l ↔ i < s.entryCount ∧ (s.desc i).mapCount = 0

theorem walkList_some (h : s.walkList p = some i) : i < s.entryCount ∧ (s.desc i).base = p := by
  have hm := List.mem_of_find?_eq_some h
  have hb := List.find?_some h
  exact ⟨List.mem_range.mp hm, by simpa using hb⟩

theorem walkList_none (h : s.walkList p = none) (hi : i < s.entryCount) : (s.desc i).base ≠ p := by
  have := List.find?_eq_none.mp h i (List.mem_range.mpr hi)
  simpa using this

theorem walkList_base (hd : s.Distinct) (hi : i < s.entryCount) : s.walkList (s.desc i).base = some i := by
  cases h : s.walkList (s.desc i).base with
  | none => exact absurd rfl (walkList_none h hi)
  | some j =>
    obtain ⟨hj, hb⟩ := walkList_some h
    rw [hd j hj i hi hb]

@[simp] theorem modify_head (f : Desc → Desc) : (s.modify i f).head = s.head := rfl

@[simp] theorem modify_desc_self (f : Desc → Desc) : (s.modify i f).desc i = f (s.desc i) := by simp [modify]

@[simp] theorem modify_desc_of_ne {j : ℕ} (f : Desc → Desc) (h : j ≠ i) : (s.modify i f).desc j = s.desc j := by
  simp [modify, h]

structure Touches (i : ℕ) (s s' : PMap) : Prop where
  entryCount : s'.entryCount = s.entryCount
  base : ∀ j, (s'.desc j).base = (s.desc j).base
  other : ∀ j, j ≠ i → s'.desc j = s.desc j

theorem Touches.distinct {s' : PMap} (h : Touches i s s') (hd : s.Distinct) : s'.Distinct := by
  intro j hj k hk he
  rw [h.entryCount] at hj hk
  rw [h.base, h.base] at he
  exact hd j hj k hk he

theorem Touches.trans {s' s'' : PMap} (h : Touches i s s') (h' : Touches i s' s'') : Touches i s s'' :=
  ⟨h'.entryCount.trans h.entryCount, fun j => (h'.base j).trans (h.base j),
    fun j hj => (h'.other j hj).trans (h.other j hj)⟩

theorem touches_modify {f : Desc → Desc} (hf : ∀ d, (f d).base = d.base) : Touches i s (s.modify i f) := by
  refine ⟨rfl, fun j => ?_, fun j hj => modify_desc_of_ne f hj⟩
  by_cases hj : j = i
  · subst hj; rw [modify_desc_self, hf]
  · rw [modify_desc_of_ne f hj]

theorem Touches.chain {s' : PMap} {o : Option ℕ} (ht : Touches i s s') (hi : i ∉ l) (h : Chain s.next o l) :
    Chain s'.next o l := by
  apply seg_congr _ h
  intro j hj
  have hne : j ≠ i := fun he => hi (he ▸ hj)
  rw [next, ht.other j hne, next]

theorem Free.keep {s' : PMap} (h : Free s l) (ht : Touches i s s') (hi : i ∉ l) (hh : s'.head = s.head)
    (hc : (s'.desc i).mapCount ≠ 0) : Free s' l := by
  constructor
  · rw [hh]
    exact ht.chain hi h.chain
  · intro j
    rw [ht.entryCount]
    by_cases hj : j = i
    · subst hj; exact iff_of_false hi fun hz => hc hz.2
    · rw [ht.other j hj]; exact h.mem j

theorem Free.pop {s' : PMap} (h : Free s (i :: l)) (ht : Touches i s s') (hh : s'.head = s.next i)
    (hc : (s'.desc i).mapCount ≠ 0) : Free s' l := by
  have hnot := (List.nodup_cons.mp (chain_nodup h.chain)).1
  constructor
  · rw [hh]
    exact ht.chain hnot h.chain.2
  · intro j
    rw [ht.entryCount]
    by_cases hj : j = i
    · subst hj; exact iff_of_false hnot fun hz => hc hz.2
    · rw [ht.other j hj, ← h.mem j, List.mem_cons]; simp [hj]

theorem Free.push {s' : PMap} (h : Free s l) (ht : Touches i s s') (hi : i ∉ l) (hlt : i < s.entryCount)
    (hh : s'.head = some i) (hn : s'.next i = s.head) (hc : (s'.desc i).mapCount = 0) : Free s' (i :: l) := by
  constructor
  · refine ⟨hh, ?_⟩
    rw [hn]
    exact ht.chain hi h.chain
  · intro j
    rw [ht.entryCount]
    by_cases hj : j = i
    · subst hj; simp [hlt, hc]
    · rw [ht.other j hj, ← h.mem j, List.mem_cons]; simp [hj]

theorem getFreePage_nil (h : Free s []) : s.getFreePage = (.error .outOfMemory, s) := by
  have hh : s.head = none := chain_head h.chain
  simp only [getFreePage, hh]

theorem getFreePage_cons (h : Free s (i :: l)) :
    ∃ s', s.getFreePage = (.ok (s.desc i).base, s') ∧ Free s' l ∧ Touches i s s' ∧
      (s'.desc i).mapCount = 1 := by
  have hh : s.head = some i := h.chain.1
  have hz : (s.desc i).mapCount = 0 := ((h.mem i).mp List.mem_cons_self).2
  let s₁ := s.modify i fun d => { d with mapCount := 1 }
  let s₂ : PMap := { s₁ with head := s₁.next i }
  let s₃ := s₂.modify i fun d => { d with next := none }
  have hself : s₃.desc i = { s.desc i with mapCount := 1, next := none } := by
    simp only [s₃, s₂, modify_desc_self, s₁]
  have ht₁ : Touches i s s₁ := touches_modify fun _ => rfl
  have ht₂ : Touches i s s₂ := ⟨ht₁.entryCount, ht₁.base, ht₁.other⟩
  have ht₃ : Touches i s s₃ := ht₂.trans (touches_modify fun _ => rfl)
  refine ⟨s₃, ?_, ?_, ht₃, by rw [hself]⟩
  · have hb : (s.desc i).base = (s₃.desc i).base := (ht₃.base i).symm
    simp only [getFreePage, hh]
    rw [if_neg (not_not.mpr hz), hb]
  · apply h.pop ht₃
    · simp only [s₃, s₂, s₁, next, modify_head, modify_desc_self]
    · rw [hself]
      change (1 : BitVec 32) ≠ 0
      decide

theorem releasePage_none (h : s.walkList p = none) : s.releasePage p = (.error .freeingInvalid, s) := by
  simp only [releasePage, h]

theorem releasePage_free (h : s.walkList p = some i) (hz : (s.desc i).mapCount = 0) :
    s.releasePage p = (.error .freeingUnallocated, s) := by
  simp [releasePage, h, hz]

theorem toNat_pred {c : BitVec 32} (h : c ≠ 0) : (c - 1).toNat + 1 = c.toNat := by
  have hpos : c.toNat ≠ 0 := fun h0 => h (BitVec.eq_of_toNat_eq h0)
  bv_omega

theorem toNat_succ {c : BitVec 32} (h : c.toNat < 2 ^ 32 - 1) : (c + 1).toNat = c.toNat + 1 := by
  bv_omega

theorem releasePage_last (hf : Free s l) (h : s.walkList p = some i) (hone : (s.desc i).mapCount = 1) :
    ∃ s', s.releasePage p = (.ok (), s') ∧ Free s' (i :: l) ∧ Touches i s s' := by
  have hz : (s.desc i).mapCount ≠ 0 := by rw [hone]; decide
  have hi : i ∉ l := fun hm => hz ((hf.mem i).mp hm).2
  have hnone : (s.desc i).mapCount - 1 = 0 := by rw [hone]; rfl
  let s₁ := s.modify i fun d => { d with mapCount := d.mapCount - 1 }
  let s₂ := s₁.modify i fun d => { d with next := s₁.head }
  let s₃ : PMap := { s₂ with head := some i }
  have hself : s₃.desc i = ⟨(s.desc i).base, (s.desc i).mapCount - 1, s.head⟩ := by
    simp only [s₃, s₂, s₁, modify_desc_self, modify_head]
  have ht₁ : Touches i s s₁ := touches_modify fun _ => rfl
  have ht₂ : Touches i s s₂ := ht₁.trans (touches_modify fun _ => rfl)
  have ht₃ : Touches i s s₃ := ⟨ht₂.entryCount, ht₂.base, ht₂.other⟩
  refine ⟨s₃, ?_, ?_, ht₃⟩
  · simp only [releasePage, h]
    rw [if_neg hz, modify_desc_self, if_pos hnone]
  · apply hf.push ht₃ hi (walkList_some h).1 rfl
    · rw [next, hself]
    · rw [hself]; exact hnone

theorem releasePage_some (hf : Free s l) (h : s.walkList p = some i) (hz : (s.desc i).mapCount ≠ 0) :
    ∃ s' l', s.releasePage p = (.ok (), s') ∧ Free s' l' ∧ Touches i s s' ∧
      (s'.desc i).mapCount.toNat + 1 = (s.desc i).mapCount.toNat := by
  by_cases hone : (s.desc i).mapCount = 1
  · obtain ⟨s', hs', hfree, ht⟩ := releasePage_last hf h hone
    refine ⟨s', i :: l, hs', hfree, ht, ?_⟩
    rw [((hfree.mem i).mp List.mem_cons_self).2, hone]
    rfl
  · have hi : i ∉ l := fun hm => hz ((hf.mem i).mp hm).2
    have hmore : (s.desc i).mapCount - 1 ≠ 0 := fun hm => hone (by bv_omega)
    let s₁ := s.modify i fun d => { d with mapCount := d.mapCount - 1 }
    have ht : Touches i s s₁ := touches_modify fun _ => rfl
    refine ⟨s₁, l, ?_, ?_, ht, by rw [modify_desc_self]; exact toNat_pred hz⟩
    · simp only [releasePage, h]
      rw [if_neg hz, modify_desc_self, if_neg hmore]
    · apply hf.keep ht hi rfl
      rwa [modify_desc_self]

theorem releasePage_cases (hf : Free s l) (p : BitVec 64) :
    (s.releasePage p).2 = s ∨ ∃ i, (s.desc i).base = p ∧ Touches i s (s.releasePage p).2 := by
  cases hw : s.walkList p with
  | none => exact .inl (by rw [releasePage_none hw])
  | some i =>
    by_cases hz : (s.desc i).mapCount = 0
    · exact .inl (by rw [releasePage_free hw hz])
    · obtain ⟨s', _, hs', _, ht, _⟩ := releasePage_some hf hw hz
      exact .inr ⟨i, (walkList_some hw).2, by rw [hs']; exact ht⟩

theorem incMapCount_none (h : s.walkList p = none) : s.incMapCount p = (.error .countingInvalid, s) := by
  simp only [incMapCount, h]

theorem incMapCount_free (h : s.walkList p = some i) (hz : (s.desc i).mapCount = 0) :
    s.incMapCount p = (.error .countingUnallocated, s) := by
  simp [incMapCount, h, hz]

theorem incMapCount_some (hf : Free s l) (h : s.walkList p = some i) (hz : (s.desc i).mapCount ≠ 0)
    (hlt : (s.desc i).mapCount.toNat < 2 ^ 32 - 1) :
    ∃ s', s.incMapCount p = (.ok (), s') ∧ Free s' l ∧ Touches i s s' ∧
      (s'.desc i).mapCount.toNat = (s.desc i).mapCount.toNat + 1 := by
  have hi : i ∉ l := fun hm => hz ((hf.mem i).mp hm).2
  let s₁ := s.modify i fun d => { d with mapCount := d.mapCount + 1 }
  have ht : Touches i s s₁ := touches_modify fun _ => rfl
  refine ⟨s₁, ?_, ?_, ht, by rw [modify_desc_self]; exact toNat_succ hlt⟩
  · simp only [incMapCount, h]
    rw [if_neg hz]
  · apply hf.keep ht hi rfl
    rw [modify_desc_self]
    intro he
    have := congrArg BitVec.toNat he
    rw [toNat_succ hlt] at this
    exact Nat.succ_ne_zero _ this

end PMap

end Os506
