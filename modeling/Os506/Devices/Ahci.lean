import Mathlib.Algebra.GroupWithZero.Nat
import Mathlib.Algebra.BigOperators.Group.List.Basic
import Mathlib.Data.Nat.Notation
import Mathlib.Logic.Function.Basic

namespace Os506.Ahci

structure Entry where
  dba : BitVec 64
  dbc : BitVec 22
  i : BitVec 1
  deriving DecidableEq

structure Fis where
  fisType : BitVec 8
  c : BitVec 1
  command : BitVec 8
  lba0 : BitVec 8
  lba1 : BitVec 8
  lba2 : BitVec 8
  device : BitVec 8
  lba3 : BitVec 8
  lba4 : BitVec 8
  lba5 : BitVec 8
  count : BitVec 16
  deriving DecidableEq

/-- `hba_cmd_tbl_t`, with the entries that have been written since `memset`. Those behind the eighth lie in the table of
the next slot; what they overwrite there is not followed. -/
structure Table where
  cfis : Fis
  prdt : List Entry

structure Header where
  cfl : BitVec 5
  w : BitVec 1
  c : BitVec 1
  prdtl : BitVec 16
  ctba : BitVec 64

structure Port where
  sact : BitVec 32
  ci : BitVec 32
  headers : ℕ → Header
  table : BitVec 64 → Table

def maxCmdSlotCnt : ℕ := 32

def ahciBase : BitVec 64 := 0x800000

def findCmdslotLoop : ℕ → ℕ → BitVec 32 → Option ℕ
  | 0, _, _ => none
  | n + 1, i, slots => if slots &&& 1 = 0 then some i else findCmdslotLoop n (i + 1) (slots >>> 1)

def findCmdslot (p : Port) : Option ℕ := findCmdslotLoop maxCmdSlotCnt 0 (p.sact ||| p.ci)

def ctba (portno i : ℕ) : BitVec 64 :=
  (ahciBase + (40 <<< 10) + (BitVec.ofNat 64 portno <<< 13) + (BitVec.ofNat 64 i <<< 8)) &&& 0xFFFFFFFF

def portRebase (portno : ℕ) (p : Port) : Port :=
  { p with headers := fun i => if i < maxCmdSlotCnt then ⟨0, 0, 0, 8, ctba portno i⟩ else p.headers i }

def prdtl (count : BitVec 32) : BitVec 16 := ((count - 1) >>> 4).setWidth 16 + 1

def fill (bit : BitVec 1) : ℕ → BitVec 64 → BitVec 32 → List Entry × BitVec 64 × BitVec 32
  | 0, ptr, count => ([], ptr, count)
  | n + 1, ptr, count =>
    let r := fill bit n (ptr + 16 * 512) (count - 16)
    (⟨ptr, 16 * 512 - 1, bit⟩ :: r.1, r.2)

/-- The text that the two functions have in common, up to the wait for the device: they differ in the direction, in the
interrupt bit of the full entries and in the command. -/
def build (w bit : BitVec 1) (command : BitVec 8) (slot : ℕ) (startl starth count : BitVec 32) (buf : BitVec 64)
    (p : Port) : Port :=
  let header := { p.headers slot with cfl := 5, w := w, c := 1, prdtl := prdtl count }
  let r := fill bit (header.prdtl.toNat - 1) buf count
  let last : Entry := ⟨r.2.1, ((r.2.2 <<< 9) - 1).setWidth 22, 0⟩
  let cfis : Fis :=
    { fisType := 0x27, c := 1, command := command
      lba0 := startl.setWidth 8, lba1 := (startl >>> 8).setWidth 8, lba2 := (startl >>> 16).setWidth 8
      device := 1 <<< 6
      lba3 := (startl >>> 24).setWidth 8, lba4 := starth.setWidth 8, lba5 := (starth >>> 8).setWidth 8
      count := r.2.2.setWidth 16 }
  { p with
    headers := Function.update p.headers slot header
    table := Function.update p.table header.ctba ⟨cfis, r.1 ++ [last]⟩ }

def ahciWrite (startl starth count : BitVec 32) (buf : BitVec 64) (p : Port) : Option (ℕ × Port) :=
  (findCmdslot p).map fun slot => (slot, build 1 1 0x35 slot startl starth count buf p)

def ahciRead (startl starth count : BitVec 32) (buf : BitVec 64) (p : Port) : Option (ℕ × Port) :=
  (findCmdslot p).map fun slot => (slot, build 0 0 0x25 slot startl starth count buf p)

def Contiguous : BitVec 64 → List Entry → Prop
  | _, [] => True
  | a, e :: l => e.dba = a ∧ Contiguous (a + BitVec.ofNat 64 (e.dbc.toNat + 1)) l

def Rebased (portno : ℕ) (p : Port) : Prop := ∀ i < maxCmdSlotCnt, (p.headers i).ctba = ctba portno i

structure Describes (buf : BitVec 64) (count : ℕ) (prdt : List Entry) : Prop where
  contiguous : Contiguous buf prdt
  small : ∀ e ∈ prdt, e.dbc.toNat + 1 ≤ 16 * 512
  total : (prdt.map fun e => e.dbc.toNat + 1).sum = 512 * count

structure Transfers (portno slot : ℕ) (buf : BitVec 64) (count : ℕ) (p : Port) : Prop where
  describes : Describes buf count (p.table (p.headers slot).ctba).prdt
  prdtl : (p.headers slot).prdtl.toNat = (p.table (p.headers slot).ctba).prdt.length
  fits : (p.headers slot).ctba.toNat + 0x80 + 16 * (p.headers slot).prdtl.toNat ≤ (ctba portno (slot + 1)).toNat
  sectors : (p.table (p.headers slot).ctba).cfis.count.toNat = count

def Table.undirected (t : Table) : Fis × List Entry := ({ t.cfis with command := 0 }, t.prdt)

/-- Both functions build a command for `count` sectors, with the same table apart from the direction. -/
def Commands (portno : ℕ) (startl starth count : BitVec 32) (buf : BitVec 64) (p : Port) : Prop :=
  ∃ slot pw pr, ahciWrite startl starth count buf p = some (slot, pw) ∧
    ahciRead startl starth count buf p = some (slot, pr) ∧
    Transfers portno slot buf count.toNat pw ∧ Transfers portno slot buf count.toNat pr ∧
    (pw.table (pw.headers slot).ctba).undirected = (pr.table (pr.headers slot).ctba).undirected

section Slots

variable {p : Port} {n i slot portno : ℕ} {slots : BitVec 32}

theorem findCmdslotLoop_lt (h : findCmdslotLoop n i slots = some slot) : slot < i + n := by
  induction n generalizing i slots with
  | zero => cases h
  | succ n ih =>
    rw [findCmdslotLoop] at h
    split at h
    · cases h
      omega
    · have := ih h
      omega

theorem findCmdslot_lt (h : findCmdslot p = some slot) : slot < 32 := by
  simpa [maxCmdSlotCnt] using findCmdslotLoop_lt h

theorem ctba_toNat (hp : portno < 32) (hi : i ≤ 32) : (ctba portno i).toNat = 0x80A000 + portno * 8192 + i * 256 := by
  have hall : ∀ portno < 32, ∀ i < 33, (ctba portno i).toNat = 0x80A000 + portno * 8192 + i * 256 := by decide +kernel
  exact hall portno hp i (by omega)

theorem rebased_portRebase (portno : ℕ) (p : Port) : Rebased portno (portRebase portno p) := by
  intro i hi
  rw [portRebase]
  dsimp only
  rw [if_pos hi]

end Slots

section Entries

variable {bit : BitVec 1} {ptr : BitVec 64} {count : BitVec 32} {n : ℕ}

theorem length_fill (n : ℕ) (ptr : BitVec 64) (count : BitVec 32) : (fill bit n ptr count).1.length = n := by
  induction n generalizing ptr count with
  | zero => rfl
  | succ n ih => rw [fill, List.length_cons, ih]

theorem count_fill (h : 16 * n ≤ count.toNat) : (fill bit n ptr count).2.2.toNat = count.toNat - 16 * n := by
  induction n generalizing ptr count with
  | zero => rfl
  | succ n ih =>
    have hsub : (count - 16).toNat = count.toNat - 16 := by bv_omega
    rw [fill]
    dsimp only
    rw [ih (by omega), hsub]
    omega

theorem contiguous_fill (n : ℕ) (ptr : BitVec 64) (count : BitVec 32) {l : List Entry}
    (hl : Contiguous (fill bit n ptr count).2.1 l) : Contiguous ptr ((fill bit n ptr count).1 ++ l) := by
  induction n generalizing ptr count with
  | zero => exact hl
  | succ n ih => exact ⟨rfl, ih (ptr + 16 * 512) (count - 16) hl⟩

theorem total_fill (n : ℕ) (ptr : BitVec 64) (count : BitVec 32) :
    ((fill bit n ptr count).1.map fun e => e.dbc.toNat + 1).sum = 8192 * n := by
  induction n generalizing ptr count with
  | zero => rfl
  | succ n ih =>
    rw [fill, List.map_cons, List.sum_cons, ih]
    change 8191 + 1 + 8192 * n = 8192 * (n + 1)
    omega

theorem small_fill (n : ℕ) (ptr : BitVec 64) (count : BitVec 32) :
    ∀ e ∈ (fill bit n ptr count).1, e.dbc.toNat + 1 ≤ 16 * 512 := by
  induction n generalizing ptr count with
  | zero => nofun
  | succ n ih =>
    rw [fill, List.forall_mem_cons]
    exact ⟨show 8191 + 1 ≤ 16 * 512 by decide, ih _ _⟩

theorem last_dbc (count : BitVec 32) (hpos : 0 < count.toNat) (hle : count.toNat ≤ 16) :
    (((count <<< 9) - 1).setWidth 22).toNat + 1 = 512 * count.toNat := by
  have hshift : (count <<< 9).toNat = 512 * count.toNat := by
    rw [BitVec.toNat_shiftLeft, Nat.shiftLeft_eq]
    omega
  have hpred : ((count <<< 9) - 1).toNat = 512 * count.toNat - 1 := by bv_omega
  rw [BitVec.toNat_setWidth, hpred]
  omega

theorem prdtl_toNat (hpos : 0 < count.toNat) (hle : count.toNat ≤ 16 * 65535) :
    (prdtl count).toNat = (count.toNat - 1) / 16 + 1 := by
  have hpred : (count - 1).toNat = count.toNat - 1 := by bv_omega
  have hshift : ((count - 1) >>> 4).toNat = (count.toNat - 1) / 16 := by
    rw [BitVec.toNat_ushiftRight, hpred, Nat.shiftRight_eq_div_pow]
  have hlow : (((count - 1) >>> 4).setWidth 16).toNat = (count.toNat - 1) / 16 := by
    rw [BitVec.toNat_setWidth, hshift]
    omega
  rw [prdtl]
  bv_omega

def entries (bit : BitVec 1) (buf : BitVec 64) (count : BitVec 32) : List Entry :=
  let r := fill bit ((prdtl count).toNat - 1) buf count
  r.1 ++ [⟨r.2.1, ((r.2.2 <<< 9) - 1).setWidth 22, 0⟩]

theorem describes_entries (bit : BitVec 1) (buf : BitVec 64) (hpos : 0 < count.toNat) (hle : count.toNat ≤ 16 * 65535) :
    Describes buf count.toNat (entries bit buf count) := by
  have hn : (prdtl count).toNat - 1 = (count.toNat - 1) / 16 := by
    rw [prdtl_toNat hpos hle]
    omega
  have hleft : (fill bit ((prdtl count).toNat - 1) buf count).2.2.toNat = count.toNat - 16 * ((count.toNat - 1) / 16) := by
    rw [hn, count_fill (by omega)]
  -- the last entry takes what is left, which is at most 16 sectors
  have hlast := last_dbc (fill bit ((prdtl count).toNat - 1) buf count).2.2 (by omega) (by omega)
  refine ⟨contiguous_fill _ _ _ ⟨rfl, trivial⟩, ?_, ?_⟩
  · rw [entries, List.forall_mem_append]
    refine ⟨small_fill _ _ _, ?_⟩
    rw [List.forall_mem_singleton, hlast]
    omega
  · rw [entries, List.map_append, List.sum_append, total_fill, List.map_singleton, List.sum_singleton, hlast]
    omega

theorem length_entries (bit : BitVec 1) (buf : BitVec 64) (hpos : 0 < count.toNat) (hle : count.toNat ≤ 16 * 65535) :
    (prdtl count).toNat = (entries bit buf count).length := by
  rw [entries, List.length_append, length_fill, List.length_singleton, prdtl_toNat hpos hle]
  omega

end Entries

section Build

variable {w bit : BitVec 1} {command : BitVec 8} {slot portno : ℕ} {startl starth count : BitVec 32} {buf : BitVec 64}
  {p : Port}

theorem headers_build : (build w bit command slot startl starth count buf p).headers slot =
    { p.headers slot with cfl := 5, w := w, c := 1, prdtl := prdtl count } :=
  Function.update_self _ _ _

theorem table_build : (build w bit command slot startl starth count buf p).table (p.headers slot).ctba =
    ⟨{ fisType := 0x27, c := 1, command := command
       lba0 := startl.setWidth 8, lba1 := (startl >>> 8).setWidth 8, lba2 := (startl >>> 16).setWidth 8
       device := 1 <<< 6
       lba3 := (startl >>> 24).setWidth 8, lba4 := starth.setWidth 8, lba5 := (starth >>> 8).setWidth 8
       count := (fill bit ((prdtl count).toNat - 1) buf count).2.2.setWidth 16 }, entries bit buf count⟩ :=
  Function.update_self _ _ _

theorem rebased_build (hr : Rebased portno p) :
    Rebased portno (build w bit command slot startl starth count buf p) := by
  intro i hi
  by_cases hslot : i = slot
  · subst hslot
    rw [headers_build]
    exact hr i hi
  · rw [build]
    dsimp only
    rw [Function.update_of_ne hslot, hr i hi]

theorem sectors_iff (hpos : 0 < count.toNat) :
    ((fill bit ((prdtl count).toNat - 1) buf count).2.2.setWidth 16).toNat = count.toNat ↔ count.toNat ≤ 16 := by
  constructor
  · intro h
    -- a count that the FIS can hold is not cut in the header either
    have hlt := ((fill bit ((prdtl count).toNat - 1) buf count).2.2.setWidth 16).isLt
    have hprdtl := prdtl_toNat hpos (by omega)
    rw [BitVec.toNat_setWidth, hprdtl, count_fill (by omega)] at h
    omega
  · intro hle
    have hprdtl := prdtl_toNat hpos (by omega)
    rw [BitVec.toNat_setWidth, hprdtl, count_fill (by omega)]
    omega

theorem transfers_build (hp : portno < 32) (hr : Rebased portno p) (hslot : slot < 32) (hpos : 0 < count.toNat)
    (hle : count.toNat ≤ 16) :
    Transfers portno slot buf count.toNat (build w bit command slot startl starth count buf p) := by
  have hlong : count.toNat ≤ 16 * 65535 := by omega
  have hctba := hr slot hslot
  constructor
  · rw [headers_build, table_build]
    exact describes_entries bit buf hpos hlong
  · rw [headers_build, table_build]
    exact length_entries bit buf hpos hlong
  · rw [headers_build]
    dsimp only
    rw [hctba, ctba_toNat hp (by omega), ctba_toNat hp (by omega), prdtl_toNat hpos hlong]
    omega
  · rw [headers_build, table_build]
    exact (sectors_iff hpos).mpr hle

theorem fill_of_le (hpos : 0 < count.toNat) (hle : count.toNat ≤ 16) (bit : BitVec 1) (buf : BitVec 64) :
    fill bit ((prdtl count).toNat - 1) buf count = ([], buf, count) := by
  have hn : (prdtl count).toNat - 1 = 0 := by
    rw [prdtl_toNat hpos (by omega)]
    omega
  rw [hn]
  rfl

/-- Both commands are right exactly when one entry is enough: the count that is left after the full entries goes into the
FIS. -/
theorem commands_iff (hp : portno < 32) (hr : Rebased portno p) (hfree : (findCmdslot p).isSome)
    (hpos : 0 < count.toNat) (startl starth : BitVec 32) (buf : BitVec 64) :
    Commands portno startl starth count buf p ↔ count.toNat ≤ 16 := by
  obtain ⟨slot, hslot⟩ := Option.isSome_iff_exists.mp hfree
  constructor
  · rintro ⟨slot', pw, pr, hw, -, htransfers, -, -⟩
    rw [ahciWrite, hslot] at hw
    cases hw
    have hsectors := htransfers.sectors
    rw [headers_build, table_build] at hsectors
    exact (sectors_iff hpos).mp hsectors
  · intro hle
    have hlt := findCmdslot_lt hslot
    refine ⟨slot, _, _, by rw [ahciWrite, hslot]; rfl, by rw [ahciRead, hslot]; rfl,
      transfers_build hp hr hlt hpos hle, transfers_build hp hr hlt hpos hle, ?_⟩
    rw [headers_build, headers_build, table_build, table_build, Table.undirected, Table.undirected, entries, entries,
      fill_of_le hpos hle, fill_of_le hpos hle]

def idle : Port := ⟨0, 0, fun _ => ⟨0, 0, 0, 0, 0⟩, fun _ => ⟨⟨0, 0, 0, 0, 0, 0, 0, 0, 0, 0, 0⟩, []⟩⟩

theorem commands_fails_on_seventeen :
    (∃ p, ahciWrite 0 0 17 0x1000 (portRebase 0 idle) = some (0, p) ∧ (p.table (ctba 0 0)).cfis.count = 1 ∧
      (p.table (ctba 0 0)).prdt = [⟨0x1000, 8191, 1⟩, ⟨0x3000, 511, 0⟩]) ∧
    (∃ p, ahciRead 0 0 17 0x1000 (portRebase 0 idle) = some (0, p) ∧
      (p.table (ctba 0 0)).prdt = [⟨0x1000, 8191, 0⟩, ⟨0x3000, 511, 0⟩]) ∧
    ¬ Commands 0 0 0 17 0x1000 (portRebase 0 idle) := by
  refine ⟨⟨_, rfl, by decide, by decide⟩, ⟨_, rfl, by decide⟩, ?_⟩
  rintro ⟨slot, pw, pr, hw, -, htransfers, -, -⟩
  have hslot : findCmdslot (portRebase 0 idle) = some 0 := by decide
  rw [ahciWrite, hslot] at hw
  cases hw
  have hsectors := htransfers.sectors
  rw [headers_build, table_build] at hsectors
  exact absurd hsectors (by decide)

theorem commands_sixteen : Commands 0 0 0 16 0x1000 (portRebase 0 idle) :=
  (commands_iff (by decide) (rebased_portRebase 0 idle) (by decide) (by decide) 0 0 0x1000).mpr (by decide)

end Build

end Os506.Ahci
