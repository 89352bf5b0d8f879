import Mathlib.Algebra.GroupWithZero.Nat
import Mathlib.Data.BitVec
import Mathlib.Data.Nat.Notation
import Mathlib.Data.List.Basic
import Mathlib.Tactic.IntervalCases

namespace Os506.Pci

structure Location where
  bus : BitVec 8
  slot : BitVec 5
  func : BitVec 3
  deriving DecidableEq

abbrev Space := Location → Option (BitVec 6 → BitVec 32)

def word (space : Space) (l : Location) (r : BitVec 6) : BitVec 32 := (space l).elim 0xFFFFFFFF (· r)

def decode (a : BitVec 32) : Option (Location × BitVec 6) :=
  if a.getLsbD 31 then some (⟨a.extractLsb' 16 8, a.extractLsb' 11 5, a.extractLsb' 8 3⟩, a.extractLsb' 2 6) else none

def address (bus slot func offset : BitVec 8) : BitVec 32 :=
  bus.setWidth 32 <<< 16 ||| slot.setWidth 32 <<< 11 ||| func.setWidth 32 <<< 8 ||| (offset &&& 0xfc).setWidth 32 ||| 0x80000000

def pciConfigReadWord (space : Space) (bus slot func offset : BitVec 8) : BitVec 32 :=
  (decode (address bus slot func offset)).elim 0xFFFFFFFF fun (l, r) => word space l r

def picConfigWriteWord (bus slot func offset : BitVec 8) (data : BitVec 32) : List ((Location × BitVec 6) × BitVec 32) :=
  (decode (address bus slot func offset)).toList.map (·, data)

structure PciDevice where
  vendor : BitVec 16
  device : BitVec 16
  type : BitVec 8
  subtype : BitVec 8
  prog : BitVec 8
  header : BitVec 8
  bar5 : BitVec 32
  interrupt : BitVec 8

def abarBase : BitVec 32 := 0x30000000

/-- The argument `model` is not used. -/
def pciCheckModel (space : Space) (bus slot : BitVec 8) : Bool := pciConfigReadWord space bus slot 0 0 &&& 0xFFFF != 0xFFFF

def PciDevice.code (pci : PciDevice) : BitVec 32 :=
  pci.type.setWidth 32 <<< 24 ||| pci.subtype.setWidth 32 <<< 16 ||| pci.prog.setWidth 32 <<< 8

def wanted (space : Space) (pci : PciDevice) (bus slot func : BitVec 8) : Bool :=
  pciConfigReadWord space bus slot func 0 != 0xFFFFFFFF &&
    pciConfigReadWord space bus slot func 0x08 &&& 0xFFFFFF00 == pci.code

def findFunc (space : Space) (pci : PciDevice) (bus slot : BitVec 8) : ℕ → Option (BitVec 8)
  | 0 => if wanted space pci bus slot 0 then some 0 else none
  | k + 1 =>
    if wanted space pci bus slot (BitVec.ofNat 8 (k + 1)) then some (BitVec.ofNat 8 (k + 1)) else findFunc space pci bus slot k

def lastFunc (space : Space) (bus slot : BitVec 8) : ℕ :=
  if pciConfigReadWord space bus slot 0 0x0C &&& 0x00800000 ≠ 0 then 8 else 1

def inSlot (space : Space) (pci : PciDevice) (bus slot : BitVec 8) : Option (BitVec 8) :=
  if pciCheckModel space bus slot then findFunc space pci bus slot (lastFunc space bus slot) else none

def find (space : Space) (pci : PciDevice) : Option (BitVec 8 × BitVec 8 × BitVec 8) :=
  (List.range 256).findSome? fun i => (List.range 32).findSome? fun j =>
    (inSlot space pci (BitVec.ofNat 8 i) (BitVec.ofNat 8 j)).map fun k => (BitVec.ofNat 8 i, BitVec.ofNat 8 j, k)

/-- What is returned, the caller's record afterwards and the writes that are made; a write to a base register is taken
to leave the interrupt line. -/
def pciWalkBf (space : Space) (pci : PciDevice) : ℤ × PciDevice × List ((Location × BitVec 6) × BitVec 32) :=
  match find space pci with
  | some (bus, slot, func) =>
    (1, { pci with
          bar5 := abarBase
          interrupt := (pciConfigReadWord space bus slot func 0x3C &&& 0xFF).setWidth 8 },
      picConfigWriteWord bus slot func 0x24 abarBase)
  | none => (0, pci, [])

/-- The function that a slot and a number from 0 to 15 name; the fourth bit of the number falls on the slot. -/
def location (bus slot func : BitVec 8) : Location :=
  ⟨bus, slot.setWidth 5 ||| (func >>> 3).setWidth 5, func.setWidth 3⟩

section Address

variable {bus slot func offset : BitVec 8} {i : ℕ}

theorem getLsbD_slot (h : slot.toNat < 32) (hi : 5 ≤ i) : slot.getLsbD i = false := by
  apply Nat.testBit_lt_two_pow
  calc slot.toNat < 2 ^ 5 := h
    _ ≤ 2 ^ i := Nat.pow_le_pow_right (by decide) hi

theorem getLsbD_address (i : ℕ) : (address bus slot func offset).getLsbD i =
    (decide (i < 32) && (!decide (i < 16) && bus.getLsbD (i - 16) || !decide (i < 11) && slot.getLsbD (i - 11) ||
      !decide (i < 8) && func.getLsbD (i - 8) || (offset &&& 0xfc).getLsbD i || (0x80000000 : BitVec 32).getLsbD i)) := by
  by_cases hi : i < 32
  · simp only [address, BitVec.getLsbD_or, BitVec.getLsbD_shiftLeft, BitVec.getLsbD_setWidth, hi, decide_true, Bool.true_and]
    have h16 : decide (i - 16 < 32) = true := decide_eq_true (by omega)
    have h11 : decide (i - 11 < 32) = true := decide_eq_true (by omega)
    have h8 : decide (i - 8 < 32) = true := decide_eq_true (by omega)
    rw [h16, h11, h8, Bool.true_and, Bool.true_and, Bool.true_and]
  · rw [BitVec.getLsbD_of_ge _ _ (by omega), decide_eq_false hi, Bool.false_and]

theorem decode_address (bus func offset : BitVec 8) (hslot : slot.toNat < 32) :
    decode (address bus slot func offset) = some (location bus slot func, offset.extractLsb' 2 6) := by
  have hbit : (address bus slot func offset).getLsbD 31 = true := by
    rw [getLsbD_address]
    simp
  have hbus : (address bus slot func offset).extractLsb' 16 8 = bus := by
    apply BitVec.eq_of_getLsbD_eq
    intro i hi
    rw [BitVec.getLsbD_extractLsb', getLsbD_address, getLsbD_slot hslot (by omega), BitVec.getLsbD_of_ge func _ (by omega),
      BitVec.getLsbD_of_ge (offset &&& 0xfc) _ (by omega)]
    interval_cases i <;> simp
  have hslot' : (address bus slot func offset).extractLsb' 11 5 = slot.setWidth 5 ||| (func >>> 3).setWidth 5 := by
    apply BitVec.eq_of_getLsbD_eq
    intro i hi
    rw [BitVec.getLsbD_extractLsb', getLsbD_address, BitVec.getLsbD_of_ge (offset &&& 0xfc) _ (by omega)]
    interval_cases i <;> simp
  have hfunc : (address bus slot func offset).extractLsb' 8 3 = func.setWidth 3 := by
    apply BitVec.eq_of_getLsbD_eq
    intro i hi
    rw [BitVec.getLsbD_extractLsb', getLsbD_address, BitVec.getLsbD_of_ge (offset &&& 0xfc) _ (by omega)]
    interval_cases i <;> simp
  have hreg : (address bus slot func offset).extractLsb' 2 6 = offset.extractLsb' 2 6 := by
    apply BitVec.eq_of_getLsbD_eq
    intro i hi
    rw [BitVec.getLsbD_extractLsb', BitVec.getLsbD_extractLsb', getLsbD_address, BitVec.getLsbD_and]
    interval_cases i <;> simp
  rw [decode, if_pos hbit, hbus, hslot', hfunc, hreg, location]

/-- Function 8 of a slot with an even number is the first function of the next slot. -/
example : location 0 4 8 = ⟨0, 5, 0⟩ := by decide

theorem pciConfigReadWord_eq (space : Space) (bus func offset : BitVec 8) (hslot : slot.toNat < 32) :
    pciConfigReadWord space bus slot func offset = word space (location bus slot func) (offset.extractLsb' 2 6) := by
  rw [pciConfigReadWord, decode_address bus func offset hslot]
  rfl

end Address

structure Matches (space : Space) (pci : PciDevice) (l : Location) : Prop where
  present : word space l 0 ≠ 0xFFFFFFFF
  code : word space l 2 &&& 0xFFFFFF00 = pci.code

section Walk

variable {space : Space} {pci : PciDevice} {bus slot func : BitVec 8} {k : ℕ}

theorem wanted_iff (hslot : slot.toNat < 32) :
    wanted space pci bus slot func = true ↔ Matches space pci (location bus slot func) := by
  have h0 : (0 : BitVec 8).extractLsb' 2 6 = 0 := by decide
  have h8 : (0x08 : BitVec 8).extractLsb' 2 6 = 2 := by decide
  rw [wanted, pciConfigReadWord_eq space bus func _ hslot, pciConfigReadWord_eq space bus func _ hslot, h0, h8,
    Bool.and_eq_true, bne_iff_ne, beq_iff_eq]
  constructor
  · rintro ⟨hpresent, hcode⟩
    exact ⟨hpresent, hcode⟩
  · intro h
    exact ⟨h.present, h.code⟩

theorem findFunc_some (h : findFunc space pci bus slot k = some func) : wanted space pci bus slot func = true := by
  induction k with
  | zero =>
    rw [findFunc] at h
    split at h
    case isTrue hw => rwa [← Option.some.inj h]
    case isFalse => cases h
  | succ k ih =>
    rw [findFunc] at h
    split at h
    case isTrue hw => rwa [← Option.some.inj h]
    case isFalse => exact ih h

theorem findFunc_none (h : findFunc space pci bus slot k = none) {n : ℕ} (hn : n ≤ k) :
    wanted space pci bus slot (BitVec.ofNat 8 n) = false := by
  induction k with
  | zero =>
    rw [findFunc] at h
    split at h
    case isTrue => cases h
    case isFalse hw =>
      rw [Nat.le_zero.mp hn]
      exact Bool.eq_false_of_not_eq_true hw
  | succ k ih =>
    rw [findFunc] at h
    split at h
    case isTrue => cases h
    case isFalse hw =>
      rcases Nat.le_succ_iff.mp hn with hn | rfl
      · exact ih h hn
      · exact Bool.eq_false_of_not_eq_true hw

theorem find_some (h : find space pci = some (bus, slot, func)) :
    slot.toNat < 32 ∧ wanted space pci bus slot func = true := by
  obtain ⟨i, -, h⟩ := List.exists_of_findSome?_eq_some h
  obtain ⟨j, hj, h⟩ := List.exists_of_findSome?_eq_some h
  obtain ⟨k, hk, h⟩ := Option.map_eq_some_iff.mp h
  simp only [Prod.mk.injEq] at h
  obtain ⟨rfl, rfl, rfl⟩ := h
  rw [List.mem_range] at hj
  refine ⟨by rw [BitVec.toNat_ofNat]; omega, ?_⟩
  rw [inSlot] at hk
  split at hk
  case isTrue => exact findFunc_some hk
  case isFalse => cases hk

theorem find_none (h : find space pci = none) (bus : BitVec 8) (hslot : slot.toNat < 32) :
    inSlot space pci bus slot = none := by
  rw [find, List.findSome?_eq_none_iff] at h
  have hb := h bus.toNat (List.mem_range.mpr bus.isLt)
  rw [List.findSome?_eq_none_iff] at hb
  have hs := hb slot.toNat (List.mem_range.mpr hslot)
  rwa [Option.map_eq_none_iff, BitVec.ofNat_toNat, BitVec.ofNat_toNat, BitVec.setWidth_eq, BitVec.setWidth_eq] at hs

theorem location_self (l : Location) : location l.bus (l.slot.setWidth 8) (l.func.setWidth 8) = l := by
  have hall : ∀ (s : BitVec 5) (f : BitVec 3),
      (s.setWidth 8).setWidth 5 ||| ((f.setWidth 8 : BitVec 8) >>> 3).setWidth 5 = s ∧ (f.setWidth 8).setWidth 3 = f := by
    decide
  rw [location, (hall l.slot l.func).1, (hall l.slot l.func).2]

def Location.first (l : Location) : Location := { l with func := 0 }

/-- What the walk passes over: slots without a first function, and functions behind the second of a device that does not
say it has more. -/
def Skipped (space : Space) (l : Location) : Prop :=
  word space l.first 0 &&& 0xFFFF = 0xFFFF ∨ (1 < l.func.toNat ∧ word space l.first 3 &&& 0x00800000 = 0)

theorem skipped_of_find (h : find space pci = none) {l : Location} (hl : Matches space pci l) : Skipped space l := by
  have hslot : (l.slot.setWidth 8).toNat < 32 := by
    rw [BitVec.toNat_setWidth]
    have := l.slot.isLt
    omega
  have hfirst : location l.bus (l.slot.setWidth 8) 0 = l.first := location_self l.first
  have h0 : (0 : BitVec 8).extractLsb' 2 6 = 0 := by decide
  have h12 : (0x0C : BitVec 8).extractLsb' 2 6 = 3 := by decide
  have hnone := find_none h l.bus hslot
  rw [inSlot] at hnone
  split at hnone
  case isFalse hcheck =>
    rw [pciCheckModel, pciConfigReadWord_eq space l.bus 0 0 hslot, h0, hfirst, bne_iff_ne, not_not] at hcheck
    exact .inl hcheck
  case isTrue =>
    right
    have hnot : ¬ l.func.toNat ≤ lastFunc space l.bus (l.slot.setWidth 8) := by
      intro hle
      have hw := findFunc_none hnone hle
      have hfunc : BitVec.ofNat 8 l.func.toNat = l.func.setWidth 8 := by
        apply BitVec.eq_of_toNat_eq
        rw [BitVec.toNat_ofNat, BitVec.toNat_setWidth]
      rw [hfunc, ← Bool.not_eq_true, wanted_iff hslot, location_self] at hw
      exact hw hl
    have hlt := l.func.isLt
    rw [lastFunc, pciConfigReadWord_eq space l.bus 0 0x0C hslot, h12, hfirst] at hnot
    split at hnot
    case isTrue => omega
    case isFalse hmulti => exact ⟨by omega, not_not.mp hmulti⟩

/-- The walk gives its register window to a function of the class, writes nothing else, and takes the interrupt of that
function; or there is none but such as it passes over, and it writes nothing. -/
theorem pciWalkBf_cases (space : Space) (pci : PciDevice) :
    (∃ l, Matches space pci l ∧ pciWalkBf space pci =
        (1, { pci with bar5 := abarBase, interrupt := (word space l 15 &&& 0xFF).setWidth 8 }, [((l, 9), abarBase)])) ∨
      (pciWalkBf space pci = (0, pci, []) ∧ ∀ l, Matches space pci l → Skipped space l) := by
  rw [pciWalkBf]
  cases hfind : find space pci with
  | none => exact .inr ⟨rfl, fun l hl => skipped_of_find hfind hl⟩
  | some found =>
    obtain ⟨bus, slot, func⟩ := found
    obtain ⟨hslot, hw⟩ := find_some hfind
    have h24 : (0x24 : BitVec 8).extractLsb' 2 6 = 9 := by decide
    have h3C : (0x3C : BitVec 8).extractLsb' 2 6 = 15 := by decide
    refine .inl ⟨location bus slot func, (wanted_iff hslot).mp hw, ?_⟩
    dsimp only
    rw [picConfigWriteWord, decode_address bus func _ hslot, pciConfigReadWord_eq space bus func _ hslot, h24, h3C]
    rfl

end Walk

end Os506.Pci
