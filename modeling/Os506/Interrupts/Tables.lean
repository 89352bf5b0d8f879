import Os506.Lib.Machine

namespace Os506

open Machine

structure IdtEntry where
  offset1 : BitVec 16
  selector : BitVec 16
  ist : BitVec 8
  typeAttr : BitVec 8
  offset2 : BitVec 16
  offset3 : BitVec 32
  zero : BitVec 32
  deriving DecidableEq

namespace IdtEntry

def bits (e : IdtEntry) : BitVec 128 :=
  e.zero ++ e.offset3 ++ e.offset2 ++ e.typeAttr ++ e.ist ++ e.selector ++ e.offset1

def blank : IdtEntry := ⟨0, 0, 0, 0, 0, 0, 0⟩

def setGate (base : Word) (sel : BitVec 16) (flags : BitVec 8) (e : IdtEntry) : IdtEntry :=
  { e with
    offset1 := (base &&& 0xffff).setWidth 16
    offset2 := ((base >>> 16) &&& 0xffff).setWidth 16
    offset3 := ((base >>> 32) &&& 0xffffffff).setWidth 32
    selector := sel
    zero := 0
    typeAttr := flags }

end IdtEntry

namespace Idt

abbrev Table := BitVec 8 → IdtEntry

def idtSetGate (num : BitVec 8) (base : Word) (sel : BitVec 16) (flags : BitVec 8) (idt : Table) : Table :=
  Function.update idt num ((idt num).setGate base sel flags)

/-- `init_idt`: the calls for the vectors 0 to 33 differ in the vector only. `isr` gives the addresses of `_isr0` and
so on. -/
def initIdt (isr : ℕ → Word) : Table :=
  let idt := (List.range 34).foldl (fun idt n => idtSetGate (BitVec.ofNat 8 n) (isr n) 0x08 0x8e idt) fun _ => .blank
  idtSetGate 128 (isr 128) 0x08 0xee idt

end Idt

section Slice

variable (b : Word)

theorem shift_eq (k w : ℕ) : (b >>> k).setWidth w = b.extractLsb' k w := by
  apply BitVec.eq_of_toNat_eq
  rw [BitVec.toNat_setWidth, BitVec.toNat_ushiftRight, BitVec.extractLsb'_toNat]

theorem slice_eq {k w : ℕ} (hw : w < 64) :
    ((b >>> k) &&& BitVec.ofNat 64 (2 ^ w - 1)).setWidth w = b.extractLsb' k w := by
  have hlt : 2 ^ w - 1 < 2 ^ 64 := by
    have := Nat.pow_lt_pow_right (show 1 < 2 by decide) hw
    omega
  apply BitVec.eq_of_toNat_eq
  rw [BitVec.toNat_setWidth, BitVec.toNat_and, BitVec.toNat_ushiftRight, BitVec.toNat_ofNat, Nat.mod_eq_of_lt hlt,
    Nat.and_two_pow_sub_one_eq_mod, Nat.mod_mod, BitVec.extractLsb'_toNat]

theorem slices_eq : b.extractLsb' 32 32 ++ b.extractLsb' 16 16 ++ b.extractLsb' 0 16 = b := by
  rw [BitVec.extractLsb'_append_extractLsb'_eq_extractLsb' (by decide),
    BitVec.extractLsb'_append_extractLsb'_eq_extractLsb' (by decide)]
  exact BitVec.extractLsb'_eq_self

end Slice

namespace IdtEntry

variable (e : IdtEntry)

theorem decode_bits : Gate.decode e.bits =
    { offset := e.offset3 ++ e.offset2 ++ e.offset1
      selector := e.selector
      interrupt := e.typeAttr.extractLsb' 0 4 == 0xe && !e.typeAttr.getLsbD 4
      present := e.typeAttr.getLsbD 7
      dpl := (e.typeAttr.extractLsb' 5 2).toNat
      ist := e.ist.extractLsb' 0 3 } := by
  rw [Gate.decode, bits]
  simp (disch := decide) only [BitVec.extractLsb'_append_eq_of_le, BitVec.extractLsb'_append_eq_of_add_le,
    BitVec.getLsbD_append, Nat.reduceSub, Nat.reduceLT, BitVec.extractLsb'_eq_self, ↓reduceIte]

theorem decode_setGate (base : Word) (sel : BitVec 16) (flags : BitVec 8) : Gate.decode (e.setGate base sel flags).bits =
    { offset := base
      selector := sel
      interrupt := flags.extractLsb' 0 4 == 0xe && !flags.getLsbD 4
      present := flags.getLsbD 7
      dpl := (flags.extractLsb' 5 2).toNat
      ist := e.ist.extractLsb' 0 3 } := by
  have h1 : (base &&& 0xffff).setWidth 16 = base.extractLsb' 0 16 := by
    have := slice_eq base (k := 0) (w := 16) (by decide)
    rwa [BitVec.ushiftRight_zero] at this
  have h2 : ((base >>> 16) &&& 0xffff).setWidth 16 = base.extractLsb' 16 16 := slice_eq base (by decide)
  have h3 : ((base >>> 32) &&& 0xffffffff).setWidth 32 = base.extractLsb' 32 32 := slice_eq base (by decide)
  rw [decode_bits, setGate, h1, h2, h3, slices_eq]

end IdtEntry

namespace Idt

variable (isr : ℕ → Word)

theorem foldl_idtSetGate {k : ℕ} (hk : k ≤ 256) :
    ((List.range k).foldl (fun idt n => idtSetGate (BitVec.ofNat 8 n) (isr n) 0x08 0x8e idt) fun _ => .blank) =
      fun v => if v.toNat < k then IdtEntry.blank.setGate (isr v.toNat) 0x08 0x8e else .blank := by
  induction k with
  | zero => rfl
  | succ k ih =>
    rw [List.range_succ, List.foldl_append, ih (by omega), List.foldl_cons, List.foldl_nil, idtSetGate]
    have hv : (BitVec.ofNat 8 k).toNat = k := by
      rw [BitVec.toNat_ofNat]
      omega
    funext v
    by_cases h : v = BitVec.ofNat 8 k
    · rw [h, Function.update_self, hv, if_neg (by omega), if_pos (by omega)]
    · have hne : v.toNat ≠ k := fun h' => h (BitVec.eq_of_toNat_eq (h'.trans hv.symm))
      rw [Function.update_of_ne h]
      by_cases hlt : v.toNat < k
      · rw [if_pos hlt, if_pos (by omega)]
      · rw [if_neg hlt, if_neg (by omega)]

theorem decode_initIdt (n : BitVec 8) : Gate.decode (initIdt isr n).bits =
    if n = 128 then ⟨isr 128, 0x08, true, true, 3, 0⟩
    else if n.toNat < 34 then ⟨isr n.toNat, 0x08, true, true, 0, 0⟩
    else ⟨0, 0, false, false, 0, 0⟩ := by
  rw [initIdt, foldl_idtSetGate isr (by decide), idtSetGate]
  by_cases h128 : n = 128
  · rw [if_pos h128, h128, Function.update_self, IdtEntry.decode_setGate]
    rfl
  rw [if_neg h128, Function.update_of_ne h128]
  by_cases hlt : n.toNat < 34
  · rw [if_pos hlt, if_pos hlt, IdtEntry.decode_setGate]
    rfl
  · rw [if_neg hlt, if_neg hlt]
    decide

/-- A program in ring 3 can enter the kernel by `int n` for one vector only, whatever the addresses of the handlers are;
interrupts and exceptions find a gate for 34 vectors besides. -/
theorem initIdt_admits (n : BitVec 8) :
    ((Gate.decode (initIdt isr n).bits).admits true 3 = true ↔ n = 128) ∧
      ∀ cpl, (Gate.decode (initIdt isr n).bits).admits false cpl = true ↔ n = 128 ∨ n.toNat < 34 := by
  rw [decode_initIdt]
  by_cases h128 : n = 128
  · rw [if_pos h128]
    simp [h128, Gate.admits]
  · rw [if_neg h128]
    by_cases hlt : n.toNat < 34
    · rw [if_pos hlt]
      exact ⟨iff_of_false Bool.false_ne_true h128, fun _ => iff_of_true rfl (.inr hlt)⟩
    · rw [if_neg hlt]
      exact ⟨iff_of_false Bool.false_ne_true h128,
        fun _ => iff_of_false Bool.false_ne_true (not_or.mpr ⟨h128, hlt⟩)⟩

end Idt

namespace Gdt

def gdtCs : Word := 0x00180000000000
def gdtDs : Word := 0x00100000000000
def dpl0 : Word := 0
def dpl3 : Word := 0x00600000000000
def p : Word := 0x00800000000000
def l : Word := 0x20000000000000
def w : Word := 0x00020000000000

structure SysSegmentDescriptor where
  lolimit : BitVec 16
  lobase : BitVec 24
  type : BitVec 5
  dpl : BitVec 2
  p : BitVec 1
  hilimit : BitVec 4
  xx1 : BitVec 3
  gran : BitVec 1
  hibase : BitVec 40
  xx2 : BitVec 8
  zero : BitVec 5
  xx3 : BitVec 19

def SysSegmentDescriptor.bits (sd : SysSegmentDescriptor) : BitVec 128 :=
  sd.xx3 ++ sd.zero ++ sd.xx2 ++ sd.hibase ++ sd.gran ++ sd.xx1 ++ sd.hilimit ++ sd.p ++ sd.dpl ++ sd.type ++ sd.lobase ++
    sd.lolimit

def sizeofTss : ℕ := 4 + 3 * 8 + 8 + 7 * 8 + 8 + 2 + 2

def tssDescriptor (tss : Word) : SysSegmentDescriptor :=
  { lolimit := BitVec.ofNat 16 (sizeofTss - 1), lobase := tss.setWidth 24, type := 9, dpl := 0, p := 1, hilimit := 0
    xx1 := 0, gran := 0, hibase := (tss >>> 24).setWidth 40, xx2 := 0, zero := 0, xx3 := 0 }

def gdt (tss : Word) : List Word :=
  [0, gdtCs ||| p ||| dpl0 ||| l, gdtDs ||| p ||| w ||| dpl0, 0, gdtDs ||| p ||| w ||| dpl3, gdtCs ||| p ||| dpl3 ||| l,
    (tssDescriptor tss).bits.extractLsb' 0 64, (tssDescriptor tss).bits.extractLsb' 64 64] ++ List.replicate 24 0

variable (tss : Word)

theorem gdt_selectors :
    returnsTo (gdt tss) 0x2b = true ∧ stacksAt (gdt tss) 0x2b 0x23 = true ∧
      returnsTo (gdt tss) 0x08 = true ∧ stacksAt (gdt tss) 0x08 0x10 = true ∧ stacksAt (gdt tss) 0x08 0 = true := by
  refine ⟨rfl, rfl, rfl, rfl, rfl⟩

theorem SysSegmentDescriptor.decode_bits (sd : SysSegmentDescriptor) :
    TssDescriptor.decode sd.bits =
      { base := sd.hibase ++ sd.lobase, limit := sd.hilimit ++ sd.lolimit, type := sd.type.extractLsb' 0 4
        system := !sd.type.getLsbD 4, present := sd.p.getLsbD 0 } := by
  have hbase : sd.hibase.extractLsb' 8 32 ++ sd.hibase.extractLsb' 0 8 = sd.hibase := by
    rw [BitVec.extractLsb'_append_extractLsb'_eq_extractLsb' (by decide)]
    exact BitVec.extractLsb'_eq_self
  rw [TssDescriptor.decode, SysSegmentDescriptor.bits]
  simp (disch := decide) only [BitVec.extractLsb'_append_eq_of_le, BitVec.extractLsb'_append_eq_of_add_le,
    BitVec.getLsbD_append, Nat.reduceSub, Nat.reduceLT, BitVec.extractLsb'_eq_self, ↓reduceIte]
  rw [hbase]

theorem decode_gdt :
    ∃ low high, (gdt tss)[6]? = some low ∧ (gdt tss)[7]? = some high ∧ TssDescriptor.decode (high ++ low) =
      { base := tss, limit := BitVec.ofNat 20 (sizeofTss - 1), type := 9, system := true, present := true } := by
  refine ⟨_, _, rfl, rfl, ?_⟩
  have hbits : (tssDescriptor tss).bits.extractLsb' 64 64 ++ (tssDescriptor tss).bits.extractLsb' 0 64 =
      (tssDescriptor tss).bits := by
    rw [BitVec.extractLsb'_append_extractLsb'_eq_extractLsb' (by decide)]
    exact BitVec.extractLsb'_eq_self
  have hbase : (tss >>> 24).setWidth 40 ++ tss.setWidth 24 = tss := by
    have hlow : tss.setWidth 24 = tss.extractLsb' 0 24 := by rw [← shift_eq, BitVec.ushiftRight_zero]
    rw [hlow, shift_eq, BitVec.extractLsb'_append_extractLsb'_eq_extractLsb' (by decide)]
    exact BitVec.extractLsb'_eq_self
  rw [hbits, SysSegmentDescriptor.decode_bits, tssDescriptor]
  simp only [hbase]
  rfl

end Gdt

end Os506
