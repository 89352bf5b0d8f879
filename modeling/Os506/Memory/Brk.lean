import Os506.Memory.Elf
import Os506.Lib.Run

namespace Os506

open Mach

namespace MmStruct

def alignUp (x : ℕ) : ℕ := (x - 1) / 4096 * 4096 + 4096

/-- The walk of `sys_brk` to the heap; no answer when the heap would run into the stack. -/
def growLoop (nbrk : ℕ) : List Vma → Option (List Vma)
  | [] => some []
  | v :: vm =>
    if v.type = .heap then
      if v.stop < nbrk then
        if userStackTop - userStackSize ≤ nbrk then none else some ({ v with stop := alignUp nbrk } :: vm)
      else some (v :: vm)
    else (growLoop nbrk vm).map (v :: ·)

/-- The new break is stored before it is checked. -/
def sysBrk (addr : BitVec 64) (mm : MmStruct) : BitVec 64 × MmStruct :=
  if addr = -1 then (BitVec.ofNat 64 mm.brk, mm)
  else if mm.brk < addr.toNat then
    let mm := { mm with brk := addr.toNat }
    if mm.vm = [] then (-1, mm)
    else match growLoop addr.toNat mm.vm with
      | none => (-1, mm)
      | some vm => (0, { mm with vm := vm })
  else (-1, mm)

end MmStruct

def Vma.Disjoint (v w : Vma) : Prop := ∀ x, ¬ (v.has x ∧ w.has x)

structure MmStruct.Laid (mm : MmStruct) : Prop where
  start : mm.startBrk ≤ mm.brk
  heap : ∃ v ∈ mm.vm, v.type = .heap
  brk : ∀ v ∈ mm.vm, v.type = .heap → mm.brk ≤ v.stop ∧ v.stop ≤ userStackTop - userStackSize
  disjoint : mm.vm.Pairwise Vma.Disjoint

def MmStruct.Behaves : MmStruct → List (BitVec 64) → Prop
  | mm, [] => mm.Laid
  | mm, addr :: l => mm.Laid ∧ ((mm.sysBrk addr).1 = -1 → (mm.sysBrk addr).2 = mm) ∧ Behaves (mm.sysBrk addr).2 l

/-- The call asks for nothing that reaches the stack, unless the heap is there already. -/
def MmStruct.Granted (addr : BitVec 64) (mm : MmStruct) : Prop :=
  addr = -1 ∨ addr.toNat < userStackTop - userStackSize ∨ ∃ v ∈ mm.vm, v.type = .heap ∧ addr.toNat ≤ v.stop

structure MmStruct.Shaped (segs : List Vma) (stop : ℕ) (mm : MmStruct) : Prop where
  vm : mm.vm = segs ++ [⟨mm.startBrk, stop, .heap⟩, stackVma]
  data : ∀ v ∈ segs, v.type = .data ∧ v.stop ≤ mm.startBrk
  start : mm.startBrk ≤ mm.brk
  brk : mm.brk ≤ stop
  stop : stop ≤ userStackTop - userStackSize

namespace MmStruct

variable {segs : List Vma} {stop : ℕ} {mm : MmStruct} {addr : BitVec 64}

theorem growLoop_data {nbrk : ℕ} {l : List Vma} (h : ∀ v ∈ segs, v.type = .data) :
    growLoop nbrk (segs ++ l) = (growLoop nbrk l).map (segs ++ ·) := by
  induction segs with
  | nil => exact Option.map_id'.symm
  | cons v segs ih =>
    have hv : v.type ≠ .heap := by
      rw [h v List.mem_cons_self]
      decide
    rw [List.cons_append, growLoop, if_neg hv, ih fun w hw => h w (List.mem_cons_of_mem v hw), Option.map_map]
    rfl

theorem alignUp_le {x : ℕ} (h : x < userStackTop - userStackSize) : x ≤ alignUp x ∧ alignUp x ≤ userStackTop - userStackSize := by
  simp only [userStackTop, userStackSize, alignUp] at h ⊢
  omega

theorem Shaped.heap_iff (h : Shaped segs stop mm) {v : Vma} (hv : v ∈ mm.vm) :
    v.type = .heap ↔ v = ⟨mm.startBrk, stop, .heap⟩ := by
  constructor
  · intro ht
    rw [h.vm, List.mem_append] at hv
    rcases hv with hv | hv
    · rw [(h.data v hv).1] at ht
      cases ht
    · rcases List.mem_cons.mp hv with rfl | hv
      · rfl
      · obtain rfl := List.mem_singleton.mp hv
        cases ht
  · rintro rfl
    rfl

theorem Shaped.laid_iff (h : Shaped segs stop mm) : mm.Laid ↔ segs.Pairwise Vma.Disjoint := by
  constructor
  · intro hl
    have := hl.disjoint
    rw [h.vm] at this
    exact (List.pairwise_append.mp this).1
  · intro hs
    have hmem : (⟨mm.startBrk, stop, .heap⟩ : Vma) ∈ mm.vm := by simp [h.vm]
    refine ⟨h.start, ⟨_, hmem, rfl⟩, fun v hv ht => ?_, ?_⟩
    · rw [(h.heap_iff hv).mp ht]
      exact ⟨h.brk, h.stop⟩
    · have hstop := h.stop
      have hstart := h.start.trans h.brk
      rw [h.vm, List.pairwise_append]
      refine ⟨hs, ?_, ?_⟩
      · apply List.pairwise_pair.mpr
        intro x hx
        simp only [Vma.has, Bool.and_eq_true, decide_eq_true_eq] at hx
        have hlow : userStackTop - userStackSize ≤ x := hx.2.1
        omega
      · intro v hv w hw x hx
        have hle := (h.data v hv).2
        have hlow : mm.startBrk ≤ w.start := by
          rcases List.mem_cons.mp hw with rfl | hw
          · exact le_rfl
          · obtain rfl := List.mem_singleton.mp hw
            exact hstart.trans hstop
        simp only [Vma.has, Bool.and_eq_true, decide_eq_true_eq] at hx
        omega

theorem Shaped.granted_iff (h : Shaped segs stop mm) :
    mm.Granted addr ↔ addr = -1 ∨ addr.toNat < userStackTop - userStackSize ∨ addr.toNat ≤ stop := by
  have hheap : (∃ v ∈ mm.vm, v.type = .heap ∧ addr.toNat ≤ v.stop) ↔ addr.toNat ≤ stop := by
    constructor
    · rintro ⟨v, hv, ht, hle⟩
      rwa [(h.heap_iff hv).mp ht] at hle
    · intro hle
      exact ⟨⟨mm.startBrk, stop, .heap⟩, by simp [h.vm], rfl, hle⟩
  rw [Granted, hheap]

theorem Shaped.sysBrk_eq (h : Shaped segs stop mm) (hquery : addr ≠ -1) (hlt : mm.brk < addr.toNat) :
    mm.sysBrk addr =
      if stop < addr.toNat then
        if userStackTop - userStackSize ≤ addr.toNat then (-1, { mm with brk := addr.toNat })
        else (0, { mm with
          brk := addr.toNat, vm := segs ++ [⟨mm.startBrk, alignUp addr.toNat, .heap⟩, stackVma] })
      else (0, { mm with brk := addr.toNat }) := by
  have hdata := fun v hv => (h.data v hv).1
  have hne : mm.vm ≠ [] := by simp [h.vm]
  rw [sysBrk, if_neg hquery, if_pos hlt]
  dsimp only
  rw [if_neg hne, h.vm, growLoop_data hdata, growLoop, if_pos rfl]
  dsimp only
  by_cases hgrow : stop < addr.toNat
  · by_cases hhigh : userStackTop - userStackSize ≤ addr.toNat
    · simp only [if_pos hgrow, if_pos hhigh, Option.map_none]
    · simp only [if_pos hgrow, if_neg hhigh, Option.map_some]
  · simp only [if_neg hgrow, Option.map_some]

theorem Shaped.step (h : Shaped segs stop mm) (hg : mm.Granted addr) :
    (∃ stop', Shaped segs stop' (mm.sysBrk addr).2) ∧ ((mm.sysBrk addr).1 = -1 → (mm.sysBrk addr).2 = mm) := by
  rw [h.granted_iff] at hg
  have hok : (0 : BitVec 64) ≠ -1 := by decide
  by_cases hquery : addr = -1
  · rw [sysBrk, if_pos hquery]
    exact ⟨⟨stop, h⟩, fun _ => rfl⟩
  by_cases hlt : mm.brk < addr.toNat
  · have hstart := h.start.trans hlt.le
    rw [h.sysBrk_eq hquery hlt]
    by_cases hgrow : stop < addr.toNat
    · have hlow : addr.toNat < userStackTop - userStackSize := by
        rcases hg with hg | hg | hg
        · exact absurd hg hquery
        · exact hg
        · omega
      obtain ⟨hle, hle'⟩ := alignUp_le hlow
      rw [if_pos hgrow, if_neg (by omega)]
      exact ⟨⟨alignUp addr.toNat, rfl, h.data, hstart, hle, hle'⟩, fun hret => absurd hret hok⟩
    · rw [if_neg hgrow]
      exact ⟨⟨stop, h.vm, h.data, hstart, Nat.le_of_not_lt hgrow, h.stop⟩, fun hret => absurd hret hok⟩
  · rw [sysBrk, if_neg hquery, if_neg hlt]
    exact ⟨⟨stop, h⟩, fun _ => rfl⟩

theorem Shaped.step_fails (h : Shaped segs stop mm) (hg : ¬ mm.Granted addr) :
    (mm.sysBrk addr).1 = -1 ∧ (mm.sysBrk addr).2 ≠ mm := by
  rw [h.granted_iff, not_or, not_or] at hg
  obtain ⟨hquery, hhigh, hgrow⟩ := hg
  have hbrk := h.brk
  have hlt : mm.brk < addr.toNat := by omega
  rw [h.sysBrk_eq hquery hlt, if_pos (by omega), if_pos (by omega)]
  refine ⟨rfl, fun he => ?_⟩
  have hsame : addr.toNat = mm.brk := congrArg MmStruct.brk he
  omega

def brkStep (addr : BitVec 64) (mm : MmStruct) : Option MmStruct := some (mm.sysBrk addr).2

theorem Shaped.calls_iff (h : Shaped segs stop mm) (calls : List (BitVec 64)) :
    mm.Behaves calls ↔ segs.Pairwise Vma.Disjoint ∧ Run.Meets brkStep Granted mm calls := by
  induction calls generalizing mm stop with
  | nil => simp [Behaves, h.laid_iff, Run.Meets]
  | cons addr calls ih =>
    rw [Behaves, Run.Meets, h.laid_iff]
    by_cases hg : mm.Granted addr
    · obtain ⟨⟨stop', hstep⟩, hret⟩ := h.step hg
      rw [ih hstep]
      constructor
      · rintro ⟨hs, _, _, hrest⟩
        exact ⟨hs, hg, fun t ht => Option.some.inj ht ▸ hrest⟩
      · rintro ⟨hs, _, hrest⟩
        exact ⟨hs, hret, hs, hrest _ rfl⟩
    · obtain ⟨hret, hne⟩ := h.step_fails hg
      constructor
      · rintro ⟨_, hkeep, _⟩
        exact absurd (hkeep hret) hne
      · rintro ⟨_, hg', _⟩
        exact absurd hg' hg

end MmStruct

theorem loadMm_shaped {phdrs : List Phdr} {mm : MmStruct} (h : loadMm phdrs = some mm)
    (hend : ∀ p ∈ loads phdrs, p.eVaddr.toNat ≤ userStackTop - userStackSize) :
    mm.Shaped ((loads phdrs).map Phdr.vma) mm.startBrk := by
  have hvm := (scanPhdrs_vm phdrs {} 0).1
  have htop := fun {n} => scanPhdrs_top_le_iff phdrs {} 0 (n := n)
  rw [loadMm] at h
  obtain ⟨r, hr⟩ : ∃ r, r = scanPhdrs phdrs ({}, 0) := ⟨_, rfl⟩
  obtain ⟨mm₀, top⟩ := r
  rw [← hr] at h hvm htop
  dsimp only at h hvm htop
  split at h
  · cases h
  · have hle : top.toNat ≤ userStackTop - userStackSize := by
      exact htop.mpr ⟨Nat.zero_le _, hend⟩
    have hheap := heapStart_toNat top (hle.trans (by decide))
    obtain rfl := Option.some.inj h
    simp only [userStackTop, userStackSize] at hle
    refine ⟨?_, ?_, le_rfl, le_rfl, ?_⟩
    · rw [MmStruct.addStack, MmStruct.addHeap]
      dsimp only
      rw [hvm, List.append_assoc]
      rfl
    · intro v hv
      obtain ⟨p, hp, rfl⟩ := List.mem_map.mp hv
      refine ⟨rfl, ?_⟩
      have hp' := (htop.mp le_rfl).2 p hp
      rw [MmStruct.addStack, MmStruct.addHeap]
      dsimp only [Phdr.vma]
      rw [hheap]
      omega
    · rw [MmStruct.addStack, MmStruct.addHeap]
      dsimp only
      rw [hheap]
      simp only [userStackTop, userStackSize]
      omega

theorem sysBrk_behaves_iff {phdrs : List Phdr} {mm : MmStruct} (h : loadMm phdrs = some mm)
    (hend : ∀ p ∈ loads phdrs, p.eVaddr.toNat ≤ userStackTop - userStackSize) (calls : List (BitVec 64)) :
    mm.Behaves calls ↔
      ((loads phdrs).map Phdr.vma).Pairwise Vma.Disjoint ∧ Run.Meets MmStruct.brkStep MmStruct.Granted mm calls :=
  (loadMm_shaped h hend).calls_iff calls

section Machine

theorem MmStruct.growLoop_eq {nbrk : ℕ} (hpos : 0 < nbrk) (vm : List Vma) :
    (growLoop nbrk vm).getD vm = if nbrk < userStackTop - userStackSize then growHeap nbrk vm else vm := by
  have halign : alignUp nbrk = (nbrk + 4095) / 4096 * 4096 := by
    rw [alignUp]
    omega
  induction vm with
  | nil => simp [growLoop, growHeap]
  | cons v vm ih =>
    rw [growLoop, growHeap, ← halign]
    by_cases hv : v.type = .heap
    · rw [if_pos hv, if_pos hv]
      by_cases hgrow : v.stop < nbrk
      · by_cases hhigh : userStackTop - userStackSize ≤ nbrk
        · rw [if_pos hgrow, if_pos hhigh, if_neg (by omega), Option.getD_none]
        · rw [if_pos hgrow, if_neg hhigh, if_pos (by omega), if_pos hgrow, Option.getD_some]
      · rw [if_neg hgrow, if_neg hgrow, Option.getD_some, ite_self]
    · rw [if_neg hv, if_neg hv, ← apply_ite (v :: ·), ← ih]
      cases growLoop nbrk vm with
      | none => rfl
      | some l => rfl

theorem sysBrk_mach {m : Mach} {i : ℕ} {mm : MmStruct} {addr : BitVec 64} (hvm : (m.mm i).vm = mm.vm)
    (hbrk : (m.mm i).brk = mm.brk) (hne : mm.vm ≠ []) :
    ((m.sysBrk i addr.toNat).mm i).vm = (mm.sysBrk addr).2.vm ∧
      ((m.sysBrk i addr.toNat).mm i).brk = (mm.sysBrk addr).2.brk := by
  have hquery : addr = -1 ↔ addr.toNat = 2 ^ 64 - 1 := by
    rw [← BitVec.toNat_inj]
    rfl
  rw [Mach.sysBrk, MmStruct.sysBrk, hbrk]
  by_cases hq : addr = -1
  · rw [if_pos (.inl (hquery.mp hq)), if_pos hq]
    exact ⟨hvm, hbrk⟩
  by_cases hlt : mm.brk < addr.toNat
  · have hrun : ¬ (addr.toNat = 2 ^ 64 - 1 ∨ addr.toNat ≤ mm.brk) := by
      rintro (h | h)
      · exact hq (hquery.mpr h)
      · omega
    have hgrow := MmStruct.growLoop_eq (show 0 < addr.toNat by omega) mm.vm
    rw [if_neg hrun, if_neg hq, if_pos hlt]
    dsimp only
    rw [if_neg hne, Mach.setMm]
    dsimp only
    rw [Function.update_self, hvm, ← hgrow]
    cases MmStruct.growLoop addr.toNat mm.vm with
    | none => exact ⟨rfl, rfl⟩
    | some vm => exact ⟨rfl, rfl⟩
  · rw [if_pos (.inr (Nat.le_of_not_lt hlt)), if_neg hq, if_neg hlt]
    exact ⟨hvm, hbrk⟩

end Machine

def onePage : Phdr := ⟨1, 0, 0x400000, 0, 0x1000⟩

instance (addr : BitVec 64) (mm : MmStruct) : Decidable (mm.Granted addr) :=
  inferInstanceAs (Decidable (_ ∨ _ ∨ ∃ v ∈ mm.vm, _))

theorem sysBrk_behaves_small : ∃ mm, loadMm [onePage] = some mm ∧ mm.Behaves [-1, 0x403000, 0x402000, 0x500001] := by
  refine ⟨_, rfl, ?_⟩
  apply (sysBrk_behaves_iff (show loadMm [onePage] = some _ from rfl) (by decide) _).mpr
  refine ⟨List.pairwise_singleton _ _, ?_⟩
  exact Run.meets_of_check (c := fun addr mm => decide (mm.Granted addr)) (fun _ _ => of_decide_eq_true) (by decide)

theorem sysBrk_keeps_refused_break : ∃ mm, loadMm [onePage] = some mm ∧
    mm.sysBrk 0xF000000000 = (-1, { mm with brk := 0xF000000000 }) ∧ mm.brk = 0x401000 ∧ ¬ mm.Behaves [0xF000000000] := by
  refine ⟨_, rfl, rfl, rfl, ?_⟩
  rintro ⟨_, hkeep, _⟩
  have hbrk := congrArg MmStruct.brk (hkeep rfl)
  exact absurd hbrk (by decide)

end Os506
