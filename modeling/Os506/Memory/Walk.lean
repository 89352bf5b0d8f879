import Mathlib.Data.Nat.Notation
import Mathlib.Data.Nat.Bitwise

namespace Os506

namespace Pging

def pmleRef : BitVec 64 := 0xFFFFFF7FBFDFE000

def pdpeRef : BitVec 64 := 0xFFFFFF7FBFC00000

def pdeRef : BitVec 64 := 0xFFFFFF7F80000000

def pteRef : BitVec 64 := 0xFFFFFF0000000000

/-- The form of the four entry addresses: page-number bits of `vaddr` below a fixed prefix. -/
def entryRef (n : ℕ) (ref vaddr : BitVec 64) : BitVec 64 := (vaddr <<< 16 >>> n <<< 3) ||| ref

def getPhys (vaddr : BitVec 64) : BitVec 64 := entryRef 28 pteRef vaddr

def getPDT (vaddr : BitVec 64) : BitVec 64 := entryRef 37 pdeRef vaddr

def getPDPT (vaddr : BitVec 64) : BitVec 64 := entryRef 46 pdpeRef vaddr

def getPMLT (vaddr : BitVec 64) : BitVec 64 := entryRef 55 pmleRef vaddr

def mapPageRefs (vaddr : BitVec 64) : BitVec 64 × BitVec 64 × BitVec 64 × BitVec 64 :=
  ((vaddr <<< 16 >>> 55 <<< 3) ||| pmleRef, (vaddr <<< 16 >>> 46 <<< 3) ||| pdpeRef,
    (vaddr <<< 16 >>> 37 <<< 3) ||| pdeRef, (vaddr <<< 16 >>> 28 <<< 3) ||| pteRef)

end Pging

namespace Mmu

open Pging

def present (e : BitVec 64) : Bool := e.getLsbD 0

def large (e : BitVec 64) : Bool := e.getLsbD 7

def frame (e : BitVec 64) : BitVec 64 := e &&& 0x000FFFFFFFFFF000

def index (shift : ℕ) (v : BitVec 64) : BitVec 64 := (v >>> shift) &&& 0x1FF

def slot (table : BitVec 64) (shift : ℕ) (v : BitVec 64) : BitVec 64 := table + 8 * index shift v

def canonical (v : BitVec 64) : Bool := v >>> 47 = 0 || v >>> 47 = 0x1FFFF

/-- The translation of `v` by the present and the page-size bits; `reach` adds the reserved bits. -/
def walk (mem : BitVec 64 → BitVec 64) (cr3 v : BitVec 64) : Option (BitVec 64) :=
  if !canonical v then none else
  let pmle := mem (slot cr3 39 v)
  if !present pmle || large pmle then none else
  let pdpe := mem (slot (frame pmle) 30 v)
  if !present pdpe then none else
  if large pdpe then some ((pdpe &&& 0x000FFFFFC0000000) + (v &&& 0x3FFFFFFF)) else
  let pde := mem (slot (frame pdpe) 21 v)
  if !present pde then none else
  if large pde then some ((pde &&& 0x000FFFFFFFE00000) + (v &&& 0x1FFFFF)) else
  let pte := mem (slot (frame pde) 12 v)
  if !present pte then none else some (frame pte + (v &&& 0xFFF))

def Table (e : BitVec 64) : Prop := present e = true ∧ large e = false

instance (e : BitVec 64) : Decidable (Table e) := inferInstanceAs (Decidable (_ ∧ _))

section Path

variable (mem : BitVec 64 → BitVec 64) (cr3 v : BitVec 64)

def pmleAt : BitVec 64 := slot cr3 39 v

def pdpeAt : BitVec 64 := slot (frame (mem (pmleAt cr3 v))) 30 v

def pdeAt : BitVec 64 := slot (frame (mem (pdpeAt mem cr3 v))) 21 v

def pteAt : BitVec 64 := slot (frame (mem (pdeAt mem cr3 v))) 12 v

def lastEntry : BitVec 64 :=
  if large (mem (pdpeAt mem cr3 v)) then mem (pdpeAt mem cr3 v)
  else if large (mem (pdeAt mem cr3 v)) then mem (pdeAt mem cr3 v)
  else mem (pteAt mem cr3 v)

/-- The physical address that an access to `v` reaches. An entry with all bits set translates, but its reserved bits make
the access fault; as a table it would be a large page, so it can only be the last one. -/
def reach : Option (BitVec 64) := if lastEntry mem cr3 v = -1 then none else walk mem cr3 v

end Path

theorem Table.ne_ones {e : BitVec 64} (h : Table e) : e ≠ -1 := by
  rintro rfl
  exact absurd h (by decide)

theorem entryRef_toNat {n : ℕ} {ref : BitVec 64} (hn : 16 ≤ n) (hm : n ≤ 64) (hr : 2 ^ (67 - n) ∣ ref.toNat)
    (v : BitVec 64) : (entryRef n ref v).toNat = ref.toNat + v.toNat / 2 ^ (n - 16) % 2 ^ (64 - n) * 8 := by
  have hpow : 2 ^ 64 = 2 ^ 16 * (2 ^ (n - 16) * 2 ^ (64 - n)) := by
    rw [← pow_add, ← pow_add]
    congr 1
    omega
  have hdiv : v.toNat * 2 ^ 16 % 2 ^ 64 / 2 ^ n = v.toNat / 2 ^ (n - 16) % 2 ^ (64 - n) := by
    have he : 2 ^ n = 2 ^ 16 * 2 ^ (n - 16) := by rw [← pow_add]; congr 1; omega
    rw [hpow, he, Nat.mul_comm v.toNat, Nat.mul_mod_mul_left, Nat.mul_div_mul_left _ _ (by decide),
      Nat.mod_mul_right_div_self]
  have hlt : v.toNat / 2 ^ (n - 16) % 2 ^ (64 - n) * 8 < 2 ^ (67 - n) := by
    have he : 2 ^ (67 - n) = 2 ^ (64 - n) * 8 := by
      rw [show 67 - n = 64 - n + 3 by omega, pow_add]
      rfl
    rw [he]
    exact Nat.mul_lt_mul_of_pos_right (Nat.mod_lt _ (Nat.two_pow_pos _)) (by decide)
  have hlt64 := hlt.trans_le (Nat.pow_le_pow_right (show 0 < 2 by decide) (show 67 - n ≤ 64 by omega))
  obtain ⟨a, ha⟩ := hr
  rw [entryRef, BitVec.toNat_or, BitVec.toNat_shiftLeft, BitVec.toNat_ushiftRight, BitVec.toNat_shiftLeft,
    Nat.shiftLeft_eq, Nat.shiftLeft_eq, Nat.shiftRight_eq_div_pow, hdiv, Nat.mod_eq_of_lt hlt64, ha, Nat.or_comm,
    Nat.mul_comm (2 ^ (67 - n)), ← Nat.shiftLeft_eq, ← Nat.shiftLeft_add_eq_or_of_lt hlt]

theorem index_toNat (shift : ℕ) (v : BitVec 64) : (index shift v).toNat = v.toNat / 2 ^ shift % 512 := by
  rw [index, BitVec.toNat_and, BitVec.toNat_ushiftRight, Nat.shiftRight_eq_div_pow]
  exact Nat.and_two_pow_sub_one_eq_mod _ 9

structure Path (a i₄ i₃ i₂ i₁ o : BitVec 64) : Prop where
  canonical : canonical a = true
  pml4 : index 39 a = i₄
  pdpt : index 30 a = i₃
  pdt : index 21 a = i₂
  pt : index 12 a = i₁
  offset : a &&& 0xFFF = 8 * o

theorem path_of_toNat {a i₄ i₃ i₂ i₁ o : BitVec 64} (h₄ : 256 ≤ i₄.toNat ∧ i₄.toNat < 512) (h₃ : i₃.toNat < 512)
    (h₂ : i₂.toNat < 512) (h₁ : i₁.toNat < 512) (ho : o.toNat < 512)
    (h : a.toNat = 0xFFFF * 2 ^ 48 + i₄.toNat * 2 ^ 39 + i₃.toNat * 2 ^ 30 + i₂.toNat * 2 ^ 21 +
      i₁.toNat * 2 ^ 12 + 8 * o.toNat) : Path a i₄ i₃ i₂ i₁ o := by
  constructor
  · have he : a >>> 47 = 0x1FFFF := by
      apply BitVec.eq_of_toNat_eq
      rw [BitVec.toNat_ushiftRight, Nat.shiftRight_eq_div_pow]
      change _ = 0x1FFFF
      omega
    simp [Mmu.canonical, he]
  · apply BitVec.eq_of_toNat_eq
    rw [index_toNat]
    omega
  · apply BitVec.eq_of_toNat_eq
    rw [index_toNat]
    omega
  · apply BitVec.eq_of_toNat_eq
    rw [index_toNat]
    omega
  · apply BitVec.eq_of_toNat_eq
    rw [index_toNat]
    omega
  · apply BitVec.eq_of_toNat_eq
    have hmask : (a &&& 0xFFF).toNat = a.toNat % 2 ^ 12 := Nat.and_two_pow_sub_one_eq_mod _ 12
    have hmul : (8 * o).toNat = 8 * o.toNat % 2 ^ 64 := BitVec.toNat_mul 8 o
    rw [hmask, hmul]
    omega

theorem index_lt (shift : ℕ) (v : BitVec 64) : (index shift v).toNat < 512 := by
  rw [index_toNat]
  exact Nat.mod_lt _ (by decide)

theorem getPhys_path (v : BitVec 64) :
    Path (getPhys v) 510 (index 39 v) (index 30 v) (index 21 v) (index 12 v) := by
  apply path_of_toNat (by decide) (index_lt _ _) (index_lt _ _) (index_lt _ _) (index_lt _ _)
  rw [getPhys, entryRef_toNat (by decide) (by decide) (by decide), index_toNat, index_toNat, index_toNat, index_toNat]
  change 0xFFFFFF0000000000 + _ = 0xFFFF * 2 ^ 48 + 510 * 2 ^ 39 + _ + _ + _ + _
  omega

theorem getPDT_path (v : BitVec 64) :
    Path (getPDT v) 510 510 (index 39 v) (index 30 v) (index 21 v) := by
  apply path_of_toNat (by decide) (by decide) (index_lt _ _) (index_lt _ _) (index_lt _ _)
  rw [getPDT, entryRef_toNat (by decide) (by decide) (by decide), index_toNat, index_toNat, index_toNat]
  change 0xFFFFFF7F80000000 + _ = 0xFFFF * 2 ^ 48 + 510 * 2 ^ 39 + 510 * 2 ^ 30 + _ + _ + _
  omega

theorem getPDPT_path (v : BitVec 64) : Path (getPDPT v) 510 510 510 (index 39 v) (index 30 v) := by
  apply path_of_toNat (by decide) (by decide) (by decide) (index_lt _ _) (index_lt _ _)
  rw [getPDPT, entryRef_toNat (by decide) (by decide) (by decide), index_toNat, index_toNat]
  change 0xFFFFFF7FBFC00000 + _ = 0xFFFF * 2 ^ 48 + 510 * 2 ^ 39 + 510 * 2 ^ 30 + 510 * 2 ^ 21 + _ + _
  omega

theorem getPMLT_path (v : BitVec 64) : Path (getPMLT v) 510 510 510 510 (index 39 v) := by
  apply path_of_toNat (by decide) (by decide) (by decide) (by decide) (index_lt _ _)
  rw [getPMLT, entryRef_toNat (by decide) (by decide) (by decide), index_toNat]
  change 0xFFFFFF7FBFDFE000 + _ =
    0xFFFF * 2 ^ 48 + 510 * 2 ^ 39 + 510 * 2 ^ 30 + 510 * 2 ^ 21 + 510 * 2 ^ 12 + _
  omega

theorem walk_path {mem : BitVec 64 → BitVec 64} {cr3 a i₄ i₃ i₂ i₁ o e₄ e₃ e₂ e₁ : BitVec 64}
    (h : Path a i₄ i₃ i₂ i₁ o) (h₄ : mem (cr3 + 8 * i₄) = e₄) (t₄ : Table e₄)
    (h₃ : mem (frame e₄ + 8 * i₃) = e₃) (t₃ : Table e₃) (h₂ : mem (frame e₃ + 8 * i₂) = e₂) (t₂ : Table e₂)
    (h₁ : mem (frame e₂ + 8 * i₁) = e₁) (t₁ : present e₁ = true) : walk mem cr3 a = some (frame e₁ + 8 * o) := by
  simp only [walk, slot, h.canonical, h.pml4, h.pdpt, h.pdt, h.pt, h.offset, h₄, t₄.1, t₄.2, h₃, t₃.1, t₃.2, h₂,
    t₂.1, t₂.2, h₁, t₁, Bool.not_true, Bool.or_self, Bool.false_eq_true, ↓reduceIte]

theorem reach_path {mem : BitVec 64 → BitVec 64} {cr3 a i₄ i₃ i₂ i₁ o e₄ e₃ e₂ e₁ : BitVec 64}
    (h : Path a i₄ i₃ i₂ i₁ o) (h₄ : mem (cr3 + 8 * i₄) = e₄) (t₄ : Table e₄)
    (h₃ : mem (frame e₄ + 8 * i₃) = e₃) (t₃ : Table e₃) (h₂ : mem (frame e₃ + 8 * i₂) = e₂) (t₂ : Table e₂)
    (h₁ : mem (frame e₂ + 8 * i₁) = e₁) (t₁ : present e₁ = true) (hones : e₁ ≠ -1) :
    reach mem cr3 a = some (frame e₁ + 8 * o) := by
  have hlast : lastEntry mem cr3 a = e₁ := by
    simp only [lastEntry, pteAt, pdeAt, pdpeAt, pmleAt, slot, h.pml4, h.pdpt, h.pdt, h.pt, h₄, h₃, t₃.2, h₂, t₂.2, h₁,
      Bool.false_eq_true, ↓reduceIte]
  rw [reach, hlast, if_neg hones, walk_path h h₄ t₄ h₃ t₃ h₂ t₂ h₁ t₁]

theorem walk_recursive (mem : BitVec 64 → BitVec 64) (cr3 v : BitVec 64)
    (hself : Table (mem (cr3 + 8 * 510)) ∧ frame (mem (cr3 + 8 * 510)) = cr3) :
    walk mem cr3 (getPMLT v) = some (pmleAt cr3 v) ∧
    (Table (mem (pmleAt cr3 v)) → walk mem cr3 (getPDPT v) = some (pdpeAt mem cr3 v)) ∧
    (Table (mem (pmleAt cr3 v)) → Table (mem (pdpeAt mem cr3 v)) →
      walk mem cr3 (getPDT v) = some (pdeAt mem cr3 v)) ∧
    (Table (mem (pmleAt cr3 v)) → Table (mem (pdpeAt mem cr3 v)) → Table (mem (pdeAt mem cr3 v)) →
      walk mem cr3 (getPhys v) = some (pteAt mem cr3 v)) ∧
    mapPageRefs v = (getPMLT v, getPDPT v, getPDT v, getPhys v) := by
  obtain ⟨e, he⟩ : ∃ e, mem (cr3 + 8 * 510) = e := ⟨_, rfl⟩
  rw [he] at hself
  obtain ⟨ht, hf⟩ := hself
  have hagain : mem (frame e + 8 * 510) = e := by rw [hf, he]
  have hfirst : mem (frame e + 8 * index 39 v) = mem (pmleAt cr3 v) := by rw [hf, pmleAt, slot]
  refine ⟨?_, fun h₄ => ?_, fun h₄ h₃ => ?_, fun h₄ h₃ h₂ => ?_, rfl⟩
  · rw [walk_path (getPMLT_path v) he ht hagain ht hagain ht hagain ht.1, hf, pmleAt, slot]
  · exact walk_path (getPDPT_path v) he ht hagain ht hagain ht hfirst h₄.1
  · exact walk_path (getPDT_path v) he ht hagain ht hfirst h₄ rfl h₃.1
  · exact walk_path (getPhys_path v) he ht hfirst h₄ rfl h₃ rfl h₂.1

def fourTables (a : BitVec 64) : BitVec 64 :=
  if a = 0x1FF0 then 0x1003 else if a = 0x1000 then 0x2003 else if a = 0x2000 then 0x3003 else if a = 0x3010 then 0x4003 else 0

theorem walk_recursive_four_tables :
    walk fourTables 0x1000 (getPMLT 0x400000) = some 0x1000 ∧ walk fourTables 0x1000 (getPDPT 0x400000) = some 0x2000 ∧
      walk fourTables 0x1000 (getPDT 0x400000) = some 0x3010 ∧ walk fourTables 0x1000 (getPhys 0x400000) = some 0x4000 := by
  have h := walk_recursive fourTables 0x1000 0x400000 (by decide)
  exact ⟨h.1, h.2.1 (by decide), h.2.2.1 (by decide) (by decide), h.2.2.2.1 (by decide) (by decide) (by decide)⟩

end Mmu

end Os506
