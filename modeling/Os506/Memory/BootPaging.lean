import Os506.Memory.MapPage
import Os506.Memory.Freelist

namespace Os506

open Pging Mmu

open PMap (Physical)

namespace Boot

def alignUp (x : BitVec 64) : BitVec 64 := ((x - 1) &&& ~~~(4096 - 1)) + 4096

def kernBase : BitVec 64 := 0xFFFFFFFF80200000

def kernSize (physfree : BitVec 64) : BitVec 64 := (physfree - 0x200000) / 4096

def fillKernel (pt : BitVec 64) : ℕ → ℕ → BitVec 64 → (BitVec 64 → BitVec 64) → BitVec 64 → BitVec 64
  | 0, _, _, mem => mem
  | n + 1, i, kern, mem =>
    fillKernel pt n (i + 1) (kern + 4096)
      (Function.update mem (pt + 8 * BitVec.ofNat 64 i) (kern ||| pageRW ||| pageP))

def linkTables (physfree : BitVec 64) (mem : BitVec 64 → BitVec 64) : BitVec 64 → BitVec 64 :=
  let pml4 := physfree - 4096 * 4
  let pdpt := physfree - 4096 * 3
  let pdt := physfree - 4096 * 2
  let pt := physfree - 4096
  let mem := Function.update mem (pml4 + 8 * 510) (pml4 ||| pageRW ||| pageP)
  let mem := Function.update mem (pml4 + 8 * index 39 kernBase) (pdpt ||| pageRW ||| pageP)
  let mem := Function.update mem (pdpt + 8 * index 30 kernBase) (pdt ||| pageRW ||| pageP)
  Function.update mem (pdt + 8 * index 21 kernBase) (pt ||| pageRW ||| pageP)

/-- `init_pging` up to its call of `map_page`; no result when `int i` overflows. -/
def initTables (physfree : BitVec 64) (s : Phys) : Option Phys :=
  let size := (kernSize physfree).toNat
  let temp := alignUp (vaddr physfree) + 4096
  if 2 ^ 31 ≤ size then none
  else some { s with
    mem := fillKernel (physfree - 4096) size 0 0x200000 (linkTables physfree s.mem)
    cr3 := physfree - 4096 * 4
    temp := temp
    free := temp + 4096
    initPml4 := vaddr (physfree - 4096 * 4) }

def initPging (physfree : BitVec 64) (s : Phys) : Option (EStateM.Result Stop Phys Unit) :=
  (initTables physfree s).map (Phys.mapPage 0xb8000 0xFFFFFFFF800B8000 (pageP ||| pageRW))

/-- Memory after `pmap_init`: `memsetw` clears from `physfree` on, with a 32-bit count of 16-bit words, and the
descriptors are written over it. -/
def cleared (physfree top : BitVec 64) (count : ℕ) (mem : BitVec 64 → BitVec 64) (a : BitVec 64) : BitVec 64 :=
  if physfree.toNat + 20 * count ≤ a.toNat ∧
    a.toNat + 8 ≤ physfree.toNat + 2 * ((top - physfree).toNat / 2 % 2 ^ 32) then 0 else mem a

def found (physfree top : BitVec 64) (st : State) (mem : BitVec 64 → BitVec 64) : Phys where
  mem := cleared physfree top st.entryCount.toNat mem
  cr3 := 0
  pmap := st.pmap physfree
  temp := 0
  free := 0
  initPml4 := 0
  log := []

section Fill

variable {pt kern a : BitVec 64} {n i k : ℕ} {mem : BitVec 64 → BitVec 64}

theorem fillKernel_of_ne (h : ∀ k < n, a ≠ pt + 8 * BitVec.ofNat 64 (i + k)) : fillKernel pt n i kern mem a = mem a := by
  induction n generalizing i kern mem with
  | zero => rfl
  | succ n ih =>
    rw [fillKernel, ih]
    · exact Function.update_of_ne (h 0 (Nat.succ_pos n)) _ _
    · intro k hk
      rw [Nat.add_right_comm]
      exact h (k + 1) (by omega)

theorem fillKernel_at (hpt : Physical pt) (hi : i + n ≤ 512) (hk : k < n) :
    fillKernel pt n i kern mem (pt + 8 * BitVec.ofNat 64 (i + k)) = (kern + 4096 * BitVec.ofNat 64 k) ||| pageRW ||| pageP := by
  induction n generalizing i kern mem k with
  | zero => omega
  | succ n ih =>
    rw [fillKernel]
    cases k with
    | zero =>
      rw [fillKernel_of_ne, Nat.add_zero, Function.update_self]
      · rw [BitVec.mul_zero, BitVec.add_zero]
      · intro k hk he
        have := congrArg BitVec.toNat he
        rw [Nat.add_zero, word_toNat hpt (by omega), word_toNat hpt (by omega)] at this
        omega
    | succ k =>
      have hstep : kern + 4096 * BitVec.ofNat 64 (k + 1) = kern + 4096 + 4096 * BitVec.ofNat 64 k := by
        apply BitVec.eq_of_toNat_eq
        rw [BitVec.toNat_add, BitVec.toNat_add, BitVec.toNat_add, BitVec.toNat_mul, BitVec.toNat_mul, BitVec.toNat_ofNat,
          BitVec.toNat_ofNat]
        change (_ + 4096 * _ % _) % _ = ((_ + 4096) % _ + 4096 * _ % _) % _
        omega
      rw [hstep, ← ih (i := i + 1) (by omega) (by omega), Nat.add_right_comm, Nat.add_assoc]

end Fill

structure Mapped (physfree top : BitVec 64) (count : ℕ) (s : Phys) : Prop where
  entries : (kernSize top).toNat ≤ 512
  pages : ∀ a : BitVec 64, 0x200000 ≤ a.toNat → a.toNat < top.toNat →
    (a.toNat - 0x200000) / 4096 < (kernSize top).toNat ∧ walk s.mem s.cr3 (vaddr a) = some a
  descriptors : ∀ a : BitVec 64, physfree.toNat ≤ a.toNat → a.toNat < physfree.toNat + 20 * count →
    walk s.mem s.cr3 (vaddr a) = some a
  temp : ∃ g, table s.mem s.cr3 s.temp 3 = some g
  zeroes : ∀ f, Physical f → Data s.mem s.cr3 f → ∃ s', Phys.zeroPage f s = .ok () s'

def Booted (map : List Smap) (physbase physfree : BitVec 64) (mem : BitVec 64 → BitVec 64) : Prop :=
  ∃ top st s, pmapInit map physbase physfree = some (top, st) ∧ initTables top (found physfree top st mem) = some s ∧
    Mapped physfree top st.entryCount.toNat s

structure Bootable (map : List Smap) (physfree : BitVec 64) : Prop where
  regions : smapArr map ≠ []
  counter : total (smapArr map) < 2 ^ 31
  aligned : physfree.toNat % 4096 = 0
  above : total (smapArr map) = 0 ∨ 0x200000 ≤ physfree.toNat
  reaches : 0x200000 ≤ physfree.toNat + 20 * total (smapArr map) / 4096 * 4096 + 20480
  fits : physfree.toNat + 20 * total (smapArr map) / 4096 * 4096 + 20480 ≤ 0x3FE000

def tableAt (top : BitVec 64) : ℕ → BitVec 64
  | 0 => top - 4096 * 4
  | 1 => top - 4096 * 3
  | 2 => top - 4096 * 2
  | _ => top - 4096

theorem kernel_entry {f : BitVec 64} (hf : Physical f) :
    Table (f ||| pageRW ||| pageP) ∧ frame (f ||| pageRW ||| pageP) = f := by
  have hflags : Phys.UpperFlags (pageRW ||| pageP) := ⟨by decide, by decide, by decide⟩
  obtain ⟨hpresent, hframe, hsmall⟩ := hflags.entry hf
  rw [BitVec.or_assoc]
  exact ⟨⟨hpresent, hsmall⟩, hframe⟩

section Addresses

variable {a : BitVec 64}

theorem vaddr_toNat (h : a.toNat < 2 ^ 31) : (vaddr a).toNat = 0xFFFFFFFF80000000 + a.toNat := by
  rw [vaddr, BitVec.toNat_add]
  change (0xFFFFFFFF80000000 + _) % _ = _
  omega

theorem vaddr_canonical (h : a.toNat < 2 ^ 31) : canonical (vaddr a) = true := by
  have hshift : vaddr a >>> 47 = 0x1FFFF := by
    apply BitVec.eq_of_toNat_eq
    rw [BitVec.toNat_ushiftRight, Nat.shiftRight_eq_div_pow, vaddr_toNat h]
    change _ = 0x1FFFF
    omega
  rw [canonical, hshift]
  rfl

theorem vaddr_index (h : a.toNat < 2 ^ 30) : index (shift 0) (vaddr a) = 511 ∧ index (shift 1) (vaddr a) = 510 ∧
    (index (shift 2) (vaddr a)).toNat = a.toNat / 2 ^ 21 ∧ (index (shift 3) (vaddr a)).toNat = a.toNat / 4096 % 512 := by
  have hv := vaddr_toNat (h.trans (by decide))
  refine ⟨BitVec.eq_of_toNat_eq ?_, BitVec.eq_of_toNat_eq ?_, ?_, ?_⟩
  · rw [index_toNat, hv, shift_zero]
    change _ = 511
    omega
  · rw [index_toNat, hv, shift_one]
    change _ = 510
    omega
  · rw [index_toNat, hv, shift_two]
    omega
  · rw [index_toNat, hv, shift_three]
    omega

theorem vaddr_plain (h : a.toNat < 2 ^ 30) : Plain (vaddr a) := by
  have := (vaddr_index h).1
  rw [shift_zero] at this
  rw [Plain, this]
  decide

theorem vaddr_path (h : a.toNat < 2 ^ 30) :
    (∀ k < 3, index (shift k) (vaddr a) = index (shift k) kernBase) ↔ 0x200000 ≤ a.toNat ∧ a.toNat < 0x400000 := by
  obtain ⟨h₀, h₁, h₂, _⟩ := vaddr_index h
  have hbase : (index (shift 2) kernBase).toNat = 1 := by decide
  constructor
  · intro hall
    rw [hall 2 (by decide), hbase] at h₂
    omega
  · rintro ⟨hle, hlt⟩ k hk
    match k, hk with
    | 0, _ =>
      rw [h₀]
      decide
    | 1, _ =>
      rw [h₁]
      decide
    | 2, _ =>
      apply BitVec.eq_of_toNat_eq
      rw [h₂, hbase]
      omega

theorem alignUp_toNat (h : 0 < a.toNat) (hlt : a.toNat + 4096 < 2 ^ 64) :
    (alignUp a).toNat = (a.toNat - 1) / 4096 * 4096 + 4096 := by
  rw [alignUp, BitVec.toNat_add, alignDown_toNat, BitVec.toNat_sub]
  change ((2 ^ 64 - 1 + _) % 2 ^ 64 / 4096 * 4096 + 4096) % _ = _
  omega

theorem kernSize_toNat (a : BitVec 64) : (kernSize a).toNat = (2 ^ 64 - 0x200000 + a.toNat) % 2 ^ 64 / 4096 := by
  rw [kernSize, BitVec.toNat_udiv, BitVec.toNat_sub]
  rfl

end Addresses

section Tables

variable {top : BitVec 64} {mem : BitVec 64 → BitVec 64} (haligned : top.toNat % 4096 = 0)
  (hlow : 0x200000 ≤ top.toNat) (hhigh : top.toNat ≤ 0x400000)

theorem tableAt_toNat {d : ℕ} (hlow : 0x200000 ≤ top.toNat) (hd : d ≤ 3) :
    (tableAt top d).toNat = top.toNat - 4096 * (4 - d) := by
  have := top.isLt
  match d, hd with
  | 0, _ | 1, _ | 2, _ | 3, _ =>
    rw [show tableAt top _ = top - _ from rfl, BitVec.toNat_sub]
    simp
    omega

theorem linkTables_eq (top : BitVec 64) (mem : BitVec 64 → BitVec 64) : linkTables top mem =
    Function.update (Function.update (Function.update (Function.update mem
      (tableAt top 0 + 8 * 510) (tableAt top 0 ||| pageRW ||| pageP))
      (tableAt top 0 + 8 * index (shift 0) kernBase) (tableAt top 1 ||| pageRW ||| pageP))
      (tableAt top 1 + 8 * index (shift 1) kernBase) (tableAt top 2 ||| pageRW ||| pageP))
      (tableAt top 2 + 8 * index (shift 2) kernBase) (tableAt top 3 ||| pageRW ||| pageP) := rfl

include haligned hlow hhigh

theorem tableAt_physical {d : ℕ} (hd : d ≤ 3) : Physical (tableAt top d) := by
  apply physical_of_toNat
  · rw [tableAt_toNat hlow hd]
    omega
  · rw [tableAt_toNat hlow hd]
    omega

theorem entry_inj {d d' : ℕ} {i j : BitVec 64} (hd : d ≤ 3) (hd' : d' ≤ 3) (hi : i.toNat < 512) (hj : j.toNat < 512)
    (he : tableAt top d + 8 * i = tableAt top d' + 8 * j) : d = d' ∧ i = j := by
  rw [← slot_word hi, ← slot_word hj] at he
  obtain ⟨hp, hindex⟩ := slot_inj (tableAt_physical haligned hlow hhigh hd) (tableAt_physical haligned hlow hhigh hd') he
  have hp' := congrArg BitVec.toNat hp
  rw [tableAt_toNat hlow hd, tableAt_toNat hlow hd'] at hp'
  rw [index_small hi, index_small hj] at hindex
  exact ⟨by omega, hindex⟩

theorem linkTables_self : linkTables top mem (tableAt top 0 + 8 * 510) = tableAt top 0 ||| pageRW ||| pageP := by
  have hne : ∀ d ≤ 3, 0 ≠ d → ∀ j : BitVec 64, j.toNat < 512 → tableAt top 0 + 8 * 510 ≠ tableAt top d + 8 * j :=
    fun d hd hne j hj he => hne (entry_inj haligned hlow hhigh (by decide) hd (by decide) hj he).1
  rw [linkTables_eq]
  rw [Function.update_of_ne (hne 2 (by decide) (by decide) _ (Mmu.index_lt _ _)),
    Function.update_of_ne (hne 1 (by decide) (by decide) _ (Mmu.index_lt _ _)), Function.update_of_ne]
  · exact Function.update_self ..
  · intro he
    have hsame : 510 = index (shift 0) kernBase :=
      (entry_inj haligned hlow hhigh (Nat.zero_le 3) (Nat.zero_le 3) (by decide) (Mmu.index_lt _ _) he).2
    exact absurd hsame (by decide)

theorem linkTables_link {d : ℕ} (hd : d < 3) :
    linkTables top mem (tableAt top d + 8 * index (shift d) kernBase) = tableAt top (d + 1) ||| pageRW ||| pageP := by
  have hne : ∀ d ≤ 3, ∀ d' ≤ 3, d ≠ d' → tableAt top d + 8 * index (shift d) kernBase ≠
      tableAt top d' + 8 * index (shift d') kernBase :=
    fun d hd d' hd' hne he => hne (entry_inj haligned hlow hhigh hd hd' (Mmu.index_lt _ _) (Mmu.index_lt _ _) he).1
  rw [linkTables_eq]
  match d, hd with
  | 0, _ =>
    rw [Function.update_of_ne (hne 0 (by decide) 2 (by decide) (by decide)),
      Function.update_of_ne (hne 0 (by decide) 1 (by decide) (by decide))]
    exact Function.update_self ..
  | 1, _ =>
    rw [Function.update_of_ne (hne 1 (by decide) 2 (by decide) (by decide))]
    exact Function.update_self ..
  | 2, _ => exact Function.update_self ..

theorem linkTables_other {d : ℕ} {j : BitVec 64} (hd : d ≤ 3) (hj : j.toNat < 512) (hself : d = 0 → j ≠ 510)
    (hne : d < 3 → j ≠ index (shift d) kernBase) : linkTables top mem (tableAt top d + 8 * j) = mem (tableAt top d + 8 * j) := by
  have hpath : ∀ d' < 3, tableAt top d + 8 * j ≠ tableAt top d' + 8 * index (shift d') kernBase := by
    intro d' hd' he
    obtain ⟨rfl, rfl⟩ := entry_inj haligned hlow hhigh hd (by omega) hj (Mmu.index_lt _ _) he
    exact hne hd' rfl
  have hfirst : tableAt top d + 8 * j ≠ tableAt top 0 + 8 * 510 := by
    intro he
    obtain ⟨rfl, rfl⟩ := entry_inj haligned hlow hhigh hd (by decide) hj (by decide) he
    exact hself rfl rfl
  rw [linkTables_eq]
  rw [Function.update_of_ne (hpath 2 (by decide)), Function.update_of_ne (hpath 1 (by decide)),
    Function.update_of_ne (hpath 0 (by decide)), Function.update_of_ne hfirst]

theorem kernel_line {n : ℕ} (hn : n ≤ 512)
    (hclear : ∀ a : BitVec 64, top.toNat - 16384 ≤ a.toNat → a.toNat + 8 ≤ top.toNat → mem a = 0) :
    Line (fillKernel (tableAt top 3) n 0 0x200000 (linkTables top mem)) (tableAt top) fun d => index (shift d) kernBase := by
  have hphys : ∀ d ≤ 3, Physical (tableAt top d) := fun d hd => tableAt_physical haligned hlow hhigh hd
  have hfill : ∀ d < 3, ∀ j : BitVec 64, j.toNat < 512 →
      fillKernel (tableAt top 3) n 0 0x200000 (linkTables top mem) (tableAt top d + 8 * j) =
        linkTables top mem (tableAt top d + 8 * j) := by
    intro d hd j hj
    apply fillKernel_of_ne
    intro k hk he
    have hk' : (BitVec.ofNat 64 (0 + k)).toNat < 512 := by
      rw [BitVec.toNat_ofNat]
      omega
    have := (entry_inj haligned hlow hhigh (by omega) le_rfl hj hk' he).1
    omega
  refine ⟨hphys, fun d hd d' hd' he => ?_, ?_, fun d hd => ?_, fun d hd j hj hself hne => ?_⟩
  · have := congrArg BitVec.toNat he
    rw [tableAt_toNat hlow hd, tableAt_toNat hlow hd'] at this
    omega
  · rw [hfill 0 (by decide) 510 (by decide), linkTables_self haligned hlow hhigh]
    exact kernel_entry (hphys 0 (by decide))
  · rw [hfill d hd _ (Mmu.index_lt _ _), linkTables_link haligned hlow hhigh hd]
    exact kernel_entry (hphys (d + 1) hd)
  · rw [hfill d hd j hj, linkTables_other haligned hlow hhigh (by omega) hj hself fun _ => hne, hclear]
    · decide
    all_goals
      rw [← slot_word hj, slot_toNat (hphys d (by omega)), index_small hj, tableAt_toNat hlow (by omega)]
      omega

section Kernel

variable {a : BitVec 64}
  (hclear : ∀ a : BitVec 64, top.toNat - 16384 ≤ a.toNat → a.toNat + 8 ≤ top.toNat → mem a = 0)
include hclear

theorem kernel_walk (hn : (kernSize top).toNat = (top.toNat - 0x200000) / 4096) (hle : 0x200000 ≤ a.toNat)
    (hlt : a.toNat < top.toNat) :
    walk (fillKernel (tableAt top 3) (kernSize top).toNat 0 0x200000 (linkTables top mem)) (tableAt top 0) (vaddr a) =
      some a := by
  have hline := kernel_line haligned hlow hhigh (n := (kernSize top).toNat) (by omega) hclear
  have ht := hline.table_eq le_rfl ((vaddr_path (a := a) (by omega)).mpr ⟨hle, by omega⟩)
  have hindex : index (shift 3) (vaddr a) = BitVec.ofNat 64 (0 + (a.toNat - 0x200000) / 4096) := by
    apply BitVec.eq_of_toNat_eq
    rw [(vaddr_index (a := a) (by omega)).2.2.2, BitVec.toNat_ofNat]
    omega
  have hpage : (0x200000 + 4096 * BitVec.ofNat 64 ((a.toNat - 0x200000) / 4096)).toNat = a.toNat / 4096 * 4096 := by
    rw [BitVec.toNat_add, BitVec.toNat_mul, BitVec.toNat_ofNat]
    change (0x200000 + 4096 * _ % _) % _ = _
    omega
  have hphys : Physical (0x200000 + 4096 * BitVec.ofNat 64 ((a.toNat - 0x200000) / 4096)) := by
    apply physical_of_toNat
    · rw [hpage]
      omega
    · rw [hpage]
      omega
  obtain ⟨hentry, hframe⟩ := kernel_entry hphys
  rw [hline.tree.walk_eq (vaddr_plain (by omega)), if_pos (vaddr_canonical (by omega)), table_succ ht, slot, hindex,
    fillKernel_at (tableAt_physical haligned hlow hhigh le_rfl) (by omega) (by omega), if_pos hentry.1, hframe]
  have hoff : (vaddr a &&& 0xFFF).toNat = (vaddr a).toNat % 2 ^ 12 := Nat.and_two_pow_sub_one_eq_mod _ 12
  rw [vaddr_toNat (by omega)] at hoff
  apply congrArg some
  apply BitVec.eq_of_toNat_eq
  rw [BitVec.toNat_add, hpage, hoff]
  omega

theorem kernel_leaf {n : ℕ} {j : BitVec 64} (hn : 0x200000 + 4096 * n ≤ top.toNat) (hj : j.toNat < 512)
    (hpresent : present (fillKernel (tableAt top 3) n 0 0x200000 (linkTables top mem) (tableAt top 3 + 8 * j)) = true) :
    0x200000 + 4096 * j.toNat < top.toNat ∧
      (frame (fillKernel (tableAt top 3) n 0 0x200000 (linkTables top mem) (tableAt top 3 + 8 * j))).toNat =
        0x200000 + 4096 * j.toNat := by
  have hphys := tableAt_physical haligned hlow hhigh (d := 3) le_rfl
  by_cases hlt : j.toNat < n
  · have hindex : BitVec.ofNat 64 (0 + j.toNat) = j := by rw [Nat.zero_add, BitVec.ofNat_toNat, BitVec.setWidth_eq]
    have hat : fillKernel (tableAt top 3) n 0 0x200000 (linkTables top mem) (tableAt top 3 + 8 * BitVec.ofNat 64 (0 + j.toNat)) =
        (0x200000 + 4096 * BitVec.ofNat 64 j.toNat) ||| pageRW ||| pageP := fillKernel_at hphys (by omega) hlt
    rw [hindex, BitVec.ofNat_toNat, BitVec.setWidth_eq] at hat
    have hpage : (0x200000 + 4096 * j).toNat = 0x200000 + 4096 * j.toNat := by
      rw [BitVec.toNat_add, BitVec.toNat_mul]
      change (0x200000 + 4096 * _ % _) % _ = _
      omega
    have hframe := (kernel_entry (f := 0x200000 + 4096 * j) (physical_of_toNat (by omega) (by omega))).2
    rw [hat, hframe]
    exact ⟨by omega, hpage⟩
  · rw [fillKernel_of_ne, linkTables_other haligned hlow hhigh le_rfl hj (by omega) (by omega), hclear] at hpresent
    · cases hpresent
    · rw [← slot_word hj, slot_toNat hphys, index_small hj, tableAt_toNat hlow le_rfl]
      omega
    · rw [← slot_word hj, slot_toNat hphys, index_small hj, tableAt_toNat hlow le_rfl]
      omega
    · intro k hk he
      have hk' : (BitVec.ofNat 64 (0 + k)).toNat = k := by
        rw [BitVec.toNat_ofNat]
        omega
      have hsame := (entry_inj haligned hlow hhigh (d := 3) le_rfl le_rfl hj (by omega) he).2
      rw [hsame] at hlt
      omega

theorem kernel_walk_above {n : ℕ} (hn : n ≤ 512) {x : BitVec 64} (ha : a.toNat < 2 ^ 30)
    (h : walk (fillKernel (tableAt top 3) n 0 0x200000 (linkTables top mem)) (tableAt top 0) (vaddr a) = some x) :
    0x200000 ≤ a.toNat := by
  have hline := kernel_line haligned hlow hhigh hn hclear
  rw [hline.tree.walk_eq (vaddr_plain ha), if_pos (vaddr_canonical (by omega)), Option.map_eq_some_iff] at h
  obtain ⟨f, hf, _⟩ := h
  obtain ⟨t, ht⟩ := table_some hf (show 3 ≤ 4 by decide)
  exact ((vaddr_path ha).mp (hline.of_table (vaddr_plain ha) le_rfl ht).2).1

end Kernel

theorem temp_eq : alignUp (vaddr top) + 4096 = vaddr (top + 4096) := by
  have hv := vaddr_toNat (a := top) (by omega)
  have hnext : (top + 4096).toNat = top.toNat + 4096 := by
    rw [BitVec.toNat_add]
    change (_ + 4096) % _ = _
    omega
  apply BitVec.eq_of_toNat_eq
  rw [vaddr_toNat (by omega), hnext, BitVec.toNat_add, alignUp_toNat (by omega) (by omega), hv]
  change (_ + 4096) % _ = _
  omega

end Tables

structure Laid (physfree top : BitVec 64) (st : State) (s : Phys) : Prop where
  line : Line s.mem (tableAt top) fun d => index (shift d) kernBase
  cr3 : s.cr3 = tableAt top 0
  pmap : s.pmap = st.pmap physfree
  temp : s.temp = vaddr (top + 4096)
  free : s.free = s.temp + 4096
  window : s.Window (tableAt top 3)
  leaf : ∀ j : BitVec 64, j.toNat < 512 → present (s.mem (tableAt top 3 + 8 * j)) = true →
    0x200000 + 4096 * j.toNat < top.toNat ∧ (frame (s.mem (tableAt top 3 + 8 * j))).toNat = 0x200000 + 4096 * j.toNat

theorem Laid.tree {physfree top : BitVec 64} {st : State} {s : Phys} (h : Laid physfree top st s) : Tree s.mem s.cr3 := by
  rw [h.cr3]
  exact h.line.tree

theorem Laid.temp_toNat {physfree top : BitVec 64} {st : State} {s : Phys} (h : Laid physfree top st s)
    (hfits : top.toNat ≤ 0x3FE000) : s.temp.toNat = 0xFFFFFFFF80001000 + top.toNat := by
  have hnext : (top + 4096).toNat = top.toNat + 4096 := by
    rw [BitVec.toNat_add]
    change (_ + 4096) % _ = _
    omega
  rw [h.temp, vaddr_toNat (by omega), hnext]
  omega

section Mapped

variable {physfree top : BitVec 64} {st : State} (mem : BitVec 64 → BitVec 64) {s : Phys} {n : ℕ}
  (htop : top.toNat = physfree.toNat + 20 * n / 4096 * 4096 + 20480) (hcount : st.entryCount.toNat = n)
include htop hcount

theorem found_clear (hhigh : top.toNat ≤ 0x400FFF) :
    ∀ a : BitVec 64, top.toNat - 16384 ≤ a.toNat → a.toNat + 8 ≤ top.toNat → (found physfree top st mem).mem a = 0 := by
  intro a hle hlt
  have hsub : (top - physfree).toNat = 20 * n / 4096 * 4096 + 20480 := by
    rw [BitVec.toNat_sub]
    omega
  apply if_pos
  rw [hsub, hcount]
  omega

theorem initTables_laid (hs : initTables top (found physfree top st mem) = some s) (haligned : physfree.toNat % 4096 = 0)
    (hlow : 0x200000 ≤ top.toNat) (hfits : top.toNat ≤ 0x3FE000) :
    Laid physfree top st s := by
  have hsize : (kernSize top).toNat = (top.toNat - 0x200000) / 4096 := by
    rw [kernSize_toNat]
    omega
  have htop' : top.toNat % 4096 = 0 := by omega
  rw [initTables, if_neg (by omega), Option.some.injEq] at hs
  have hclear := found_clear mem htop hcount (by omega)
  have hline := kernel_line (n := (kernSize top).toNat) htop' hlow (by omega) (by omega) hclear
  have hnext : (top + 4096).toNat = top.toNat + 4096 := by
    rw [BitVec.toNat_add]
    change (_ + 4096) % _ = _
    omega
  have htemp : s.temp = vaddr (top + 4096) := by
    rw [← hs]
    exact temp_eq htop' hlow (by omega)
  have hpath : table s.mem s.cr3 s.temp 3 = some (tableAt top 3) := by
    rw [htemp, ← hs]
    exact hline.table_eq le_rfl ((vaddr_path (by omega)).mpr ⟨by omega, by omega⟩)
  have haligned' : s.temp &&& 0xFFF = 0 := by
    have hoff : (s.temp &&& 0xFFF).toNat = s.temp.toNat % 2 ^ 12 := Nat.and_two_pow_sub_one_eq_mod _ 12
    rw [htemp, vaddr_toNat (by omega)] at hoff
    apply BitVec.eq_of_toNat_eq
    rw [htemp, hoff]
    change _ = 0
    omega
  refine ⟨hs ▸ hline, by rw [← hs]; rfl, by rw [← hs]; rfl, htemp, by rw [← hs], ⟨?_, ?_, haligned', hpath⟩,
    fun j hj hpresent => ?_⟩
  · rw [htemp]
    exact vaddr_plain (by omega)
  · rw [htemp]
    exact vaddr_canonical (by omega)
  · rw [← hs] at hpresent ⊢
    exact kernel_leaf htop' hlow (by omega) hclear (by omega) hj hpresent

theorem Mapped.of_fits (hs : initTables top (found physfree top st mem) = some s) (haligned : physfree.toNat % 4096 = 0)
    (habove : n = 0 ∨ 0x200000 ≤ physfree.toNat) (hlow : 0x200000 ≤ top.toNat) (hfits : top.toNat ≤ 0x3FE000) :
    Mapped physfree top n s := by
  have hlaid := initTables_laid mem htop hcount hs haligned hlow hfits
  have hsize : (kernSize top).toNat = (top.toNat - 0x200000) / 4096 := by
    rw [kernSize_toNat]
    omega
  have hpages : ∀ a : BitVec 64, 0x200000 ≤ a.toNat → a.toNat < top.toNat → walk s.mem s.cr3 (vaddr a) = some a := by
    intro a hle hlt
    rw [initTables, if_neg (by omega), Option.some.injEq] at hs
    rw [← hs]
    exact kernel_walk (by omega) hlow (by omega) (found_clear mem htop hcount (by omega)) hsize hle hlt
  refine ⟨by omega, fun a hle hlt => ⟨by omega, hpages a hle hlt⟩, fun a hle hlt => ?_, ⟨_, hlaid.window.table⟩,
    fun f hf hdata => ?_⟩
  · exact hpages a (by omega) (by omega)
  · exact ⟨_, Phys.zeroPage_ok hlaid.tree hlaid.window hf hdata⟩

theorem Mapped.fits (hs : initTables top (found physfree top st mem) = some s) (h : Mapped physfree top n s) :
    physfree.toNat % 4096 = 0 ∧ (n = 0 ∨ 0x200000 ≤ physfree.toNat) ∧ 0x200000 ≤ top.toNat ∧ top.toNat ≤ 0x3FE000 := by
  have hsize := h.entries
  rw [kernSize_toNat] at hsize
  have hlow : 0x200000 ≤ top.toNat := by omega
  -- the last page is filled only when the loop stops at `top`
  have htop' : top.toNat % 4096 = 0 := by
    by_contra hne
    have hlast : (top - 1).toNat = top.toNat - 1 := by
      rw [BitVec.toNat_sub]
      change (2 ^ 64 - 1 + _) % _ = _
      omega
    have := (h.pages (top - 1) (by omega) (by omega)).1
    rw [kernSize_toNat] at this
    omega
  have hhigh : top.toNat ≤ 0x400000 := by omega
  have hclear := found_clear mem htop hcount (by omega)
  have hline := kernel_line htop' hlow hhigh h.entries hclear
  rw [initTables, if_neg (by have := h.entries; omega), Option.some.injEq] at hs
  have hnext : (top + 4096).toNat = top.toNat + 4096 := by
    rw [BitVec.toNat_add]
    change (_ + 4096) % _ = _
    omega
  refine ⟨by omega, ?_, hlow, ?_⟩
  · by_cases hn : n = 0
    · exact .inl hn
    · have hwalk := h.descriptors physfree le_rfl (by omega)
      rw [← hs] at hwalk
      exact .inr (kernel_walk_above htop' hlow hhigh hclear h.entries (by omega) hwalk)
  · obtain ⟨g, hg⟩ := h.temp
    rw [← hs] at hg
    dsimp only at hg
    rw [temp_eq htop' hlow hhigh] at hg
    have := (vaddr_path (by omega)).mp (hline.of_table (vaddr_plain (by omega)) le_rfl hg).2
    omega

end Mapped

section Loader

variable {map : List Smap} {physbase : BitVec 64} {p : BitVec 32} {mem : BitVec 64 → BitVec 64}

theorem layout_toNat (hmax : total (smapArr map) < 2 ^ 31) (physbase : BitVec 64) (p : BitVec 32) :
    (layout map physbase (p.setWidth 64)).realPhysfree.toNat =
      (p.setWidth 64).toNat + 20 * total (smapArr map) / 4096 * 4096 + 20480 := by
  rw [layout, realPhysfree_toNat, entryCount_toNat hmax, loader_toNat]

theorem Booted.bootable (h : Booted map physbase (p.setWidth 64) mem) : Bootable map (p.setWidth 64) := by
  obtain ⟨top, st, s, hinit, hs, hm⟩ := h
  have hne : smapArr map ≠ [] := by
    intro hnil
    rw [pmapInit, hnil] at hinit
    obtain ⟨rfl, _⟩ := Prod.mk.inj (Option.some.inj hinit)
    exact absurd hm.entries (by decide)
  have hmax : total (smapArr map) < 2 ^ 31 := by
    by_contra hover
    rw [pmapInit_none hne (by omega)] at hinit
    cases hinit
  obtain ⟨st', hst', hfilled⟩ := pmapInit_some physbase (p.setWidth 64) hne hmax
  rw [hst'] at hinit
  obtain ⟨rfl, rfl⟩ := Prod.mk.inj (Option.some.inj hinit)
  have htop := layout_toNat hmax physbase p
  have hcount : (st'.setNext 0).entryCount.toNat = total (smapArr map) := by
    rw [State.setNext_entryCount, hfilled.entries, entryCount_toNat hmax]
  rw [hcount] at hm
  obtain ⟨haligned, habove, hlow, hfits⟩ := hm.fits mem htop hcount hs
  exact ⟨hne, hmax, haligned, habove, htop ▸ hlow, htop ▸ hfits⟩

theorem Bootable.booted (h : Bootable map (p.setWidth 64)) (physbase : BitVec 64) (mem : BitVec 64 → BitVec 64) :
    Booted map physbase (p.setWidth 64) mem := by
  obtain ⟨st, hst, hfilled⟩ := pmapInit_some physbase (p.setWidth 64) h.regions h.counter
  have htop := layout_toNat h.counter physbase p
  have hcount : (st.setNext 0).entryCount.toNat = total (smapArr map) := by
    rw [State.setNext_entryCount, hfilled.entries, entryCount_toNat h.counter]
  have hsize : ¬ 2 ^ 31 ≤ (kernSize (layout map physbase (p.setWidth 64)).realPhysfree).toNat := by
    rw [kernSize_toNat, htop]
    have := h.reaches
    have := h.fits
    omega
  refine ⟨_, _, _, hst, if_neg hsize, ?_⟩
  rw [hcount]
  exact Mapped.of_fits mem htop hcount (if_neg hsize) h.aligned h.above (htop ▸ h.reaches) (htop ▸ h.fits)

/-- The boot maps what the kernel needs exactly when everything up to the temp page lies below 4 MB. -/
theorem booted_iff (map : List Smap) (physbase : BitVec 64) (p : BitVec 32) (mem : BitVec 64 → BitVec 64) :
    Booted map physbase (p.setWidth 64) mem ↔ Bootable map (p.setWidth 64) :=
  ⟨Booted.bootable, fun h => h.booted physbase mem⟩

end Loader

theorem booted_small : Booted smallMap 0x200000 ((0x220000 : BitVec 32).setWidth 64) fun _ => 0 :=
  (booted_iff smallMap 0x200000 0x220000 fun _ => 0).mpr
    ⟨by decide, by decide, by decide, by decide, by decide, by decide⟩

theorem booted_fails_at_512M :
    ¬ Booted [⟨0, 0x9FC00, 1⟩, ⟨0x100000, 0x1FEE0000, 1⟩] 0x200000 ((0x220000 : BitVec 32).setWidth 64) (fun _ => 0) ∧
      (layout [⟨0, 0x9FC00, 1⟩, ⟨0x100000, 0x1FEE0000, 1⟩] 0x200000 0x220000).realPhysfree = 0x4A4000 ∧
      kernSize 0x4A4000 = 676 := by
  refine ⟨fun h => ?_, by decide, by decide⟩
  exact absurd h.bootable.fits (by decide)

end Boot

end Os506
