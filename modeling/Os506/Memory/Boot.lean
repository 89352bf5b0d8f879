import Os506.Memory.PMap
import Mathlib.Data.List.GetD
import Mathlib.Data.List.Chain

namespace Os506

open Linked

structure Smap where
  base : BitVec 64
  length : BitVec 64
  type : BitVec 32
  deriving DecidableEq

structure FreelistEntry where
  base : BitVec 64
  mapCount : BitVec 32
  next : BitVec 64
  deriving DecidableEq

def Smap.size (r : Smap) : BitVec 32 := (r.length / 4096 - 1).setWidth 32

namespace Boot

def vaddr (x : BitVec 64) : BitVec 64 := 0xFFFFFFFF80000000 + x

structure State where
  listArr : ℕ → FreelistEntry
  freelistHead : BitVec 64
  freePgCount : BitVec 32
  entryCount : BitVec 32
  prev : Option ℕ

def smapArr (map : List Smap) : List Smap :=
  (map.filter fun r => decide (r.type = 1 ∧ r.length ≠ 0) && decide (4096 * 10 ≤ r.length)).take 8

def entryCount (regions : List Smap) : BitVec 32 := regions.foldl (fun n r => n + r.size) 0

def realPhysfree (physfree : BitVec 64) (count : BitVec 32) : BitVec 64 :=
  physfree + ((count.setWidth 64 * 20) &&& ~~~(4096 - 1)) + 4096 + 4096 * 4

structure Layout where
  physbase : BitVec 64
  physfree : BitVec 64
  realPhysfree : BitVec 64

namespace Layout

def entryAddr (e : Layout) (j : ℕ) : BitVec 64 := vaddr (e.physfree + 20 * BitVec.ofNat 64 j)

def reserved (e : Layout) (base : BitVec 64) : Bool := decide (e.physbase ≤ base) && decide (base < e.realPhysfree)

end Layout

namespace State

def modify (j : ℕ) (f : FreelistEntry → FreelistEntry) (s : State) : State :=
  { s with listArr := Function.update s.listArr j (f (s.listArr j)) }

/-- `prev->next = word`. Through the null pointer the store goes to address 12, below the array. -/
def setNext (word : BitVec 64) (s : State) : State :=
  match s.prev with
  | some i => s.modify i fun d => { d with next := word }
  | none => s

def place (e : Layout) (i : ℕ) (base : BitVec 64) (cnt : BitVec 32) (j : ℕ) (s : State) : State :=
  let s := s.modify j fun d => { d with base := base + ((BitVec.ofNat 32 j - cnt) * 4096).setWidth 64 }
  if e.reserved (s.listArr j).base then
    let s := s.modify j fun d => { d with mapCount := 1, next := 0 }
    { s with freePgCount := s.freePgCount - 1 }
  else
    let s := s.modify j fun d => { d with mapCount := 0 }
    if i = 0 ∧ j = 0 then { s with freelistHead := e.entryAddr j, prev := some j }
    else { s.setNext (e.entryAddr j) with prev := some j }

/-- The inner loop, with `int j`; there is no result when `++j` overflows. -/
def fill (e : Layout) (i : ℕ) (base : BitVec 64) (size cnt : BitVec 32) : ℕ → ℕ → State → Option State
  | 0, _, _ => none
  | n + 1, j, s =>
    if BitVec.ofNat 32 j - cnt < size then
      let s := s.place e i base cnt j
      if j = 2 ^ 31 - 1 then none else fill e i base size cnt n (j + 1) s
    else some s

def fillAll (e : Layout) : ℕ → BitVec 32 → List Smap → State → Option State
  | _, _, [], s => some s
  | i, cnt, r :: l, s => (s.fill e i r.base r.size cnt (r.size.toNat + 1) cnt.toNat).bind (fillAll e (i + 1) (cnt + r.size) l)

end State

def blank : State := ⟨fun _ => ⟨0, 0, 0⟩, 0, 0, 0, none⟩

def pmapInit (map : List Smap) (physbase physfree : BitVec 64) : Option (BitVec 64 × State) :=
  let regions := smapArr map
  if regions.isEmpty then some (0, blank)
  else
    let count := entryCount regions
    let e : Layout := ⟨physbase, physfree, realPhysfree physfree count⟩
    let s : State := { blank with entryCount := count, freePgCount := count }
    (s.fillAll e 0 0 regions).map fun s => (e.realPhysfree, s.setNext 0)

def descriptor (physfree word : BitVec 64) : Option ℕ :=
  if word = 0 then none else some ((word - vaddr physfree).toNat / 20)

def State.pmap (physfree : BitVec 64) (s : State) : PMap where
  desc j := ⟨(s.listArr j).base, (s.listArr j).mapCount, descriptor physfree (s.listArr j).next⟩
  entryCount := s.entryCount.toNat
  head := descriptor physfree s.freelistHead

/-- The base of page number `k` of a region; the offset is computed in 32 bits. -/
def pageBase (r : Smap) (k : ℕ) : BitVec 64 := r.base + (BitVec.ofNat 32 k * 4096).setWidth 64

def pages (regions : List Smap) : List (Smap × ℕ) :=
  regions.flatMap fun r => (List.range r.size.toNat).map fun k => (r, k)

def bases (regions : List Smap) : List (BitVec 64) := (pages regions).map fun p => pageBase p.1 p.2

def total (regions : List Smap) : ℕ := (regions.map fun r => r.size.toNat).sum

def freeOf (e : Layout) (b : List (BitVec 64)) : List ℕ := (List.range b.length).filter fun j => !e.reserved (b.getD j 0)

section Loop

variable {e : Layout} {b : List (BitVec 64)} {s : State} {z : Bool} {i j n : ℕ} {x base : BitVec 64}
  {c size cnt : BitVec 32}

theorem bases_cons (r : Smap) (l : List Smap) :
    bases (r :: l) = (List.range r.size.toNat).map (pageBase r) ++ bases l := by
  simp [bases, pages, Function.comp_def]

theorem total_cons (r : Smap) (l : List Smap) : total (r :: l) = r.size.toNat + total l := by simp [total]

theorem length_bases (l : List Smap) : (bases l).length = total l := by
  induction l with
  | nil => rfl
  | cons r l ih => rw [bases_cons, List.length_append, List.length_map, List.length_range, total_cons, ih]

theorem lt_of_mem_freeOf (h : j ∈ freeOf e b) : j < b.length := List.mem_range.mp (List.mem_filter.mp h).1

theorem freeOf_concat : freeOf e (b ++ [x]) = freeOf e b ++ if e.reserved x then [] else [b.length] := by
  have hold : (List.range b.length).filter (fun j => !e.reserved ((b ++ [x]).getD j 0)) = freeOf e b := by
    apply List.filter_congr
    intro j hj
    rw [List.getD_append _ _ _ _ (List.mem_range.mp hj)]
  rw [freeOf, List.length_append, List.length_singleton, List.range_succ, List.filter_append, hold]
  cases hr : e.reserved x <;> simp [hr]

/-- The state after the descriptors with the bases `b`; `z` says that the first region has descriptors. -/
structure Filled (e : Layout) (c : BitVec 32) (z : Bool) (b : List (BitVec 64)) (s : State) : Prop where
  base : ∀ j < b.length, (s.listArr j).base = b.getD j 0
  used : ∀ j < b.length, e.reserved (b.getD j 0) = true → (s.listArr j).mapCount = 1 ∧ (s.listArr j).next = 0
  free : ∀ j ∈ freeOf e b, (s.listArr j).mapCount = 0
  prev : s.prev = (freeOf e b).getLast?
  linked : (freeOf e b).IsChain fun i j => (s.listArr i).next = e.entryAddr j
  head : s.freelistHead = if z = true ∧ 0 ∈ freeOf e b then e.entryAddr 0 else 0
  entries : s.entryCount = c
  count : s.freePgCount + BitVec.ofNat 32 b.length = c + BitVec.ofNat 32 (freeOf e b).length

namespace State

theorem place_reserved (hx : base + ((BitVec.ofNat 32 j - cnt) * 4096).setWidth 64 = x) (hr : e.reserved x = true) :
    s.place e i base cnt j =
      { s with listArr := Function.update s.listArr j ⟨x, 1, 0⟩, freePgCount := s.freePgCount - 1 } := by
  simp only [place, modify, Function.update_self, Function.update_idem, hx, hr, ↓reduceIte]

theorem place_free (hx : base + ((BitVec.ofNat 32 j - cnt) * 4096).setWidth 64 = x) (hr : e.reserved x = false) :
    s.place e i base cnt j =
      let s' : State := { s with listArr := Function.update s.listArr j ⟨x, 0, (s.listArr j).next⟩ }
      if i = 0 ∧ j = 0 then { s' with freelistHead := e.entryAddr j, prev := some j }
      else { s'.setNext (e.entryAddr j) with prev := some j } := by
  simp only [place, modify, Function.update_self, Function.update_idem, hx, hr, Bool.false_eq_true, ↓reduceIte]

@[simp] theorem setNext_listArr (w : BitVec 64) :
    (s.setNext w).listArr j = if s.prev = some j then { s.listArr j with next := w } else s.listArr j := by
  rw [setNext]
  cases s.prev with
  | none => simp
  | some i =>
    by_cases hj : j = i
    · subst hj; simp [modify]
    · simp [modify, hj, Ne.symm hj]

@[simp] theorem setNext_freelistHead (w : BitVec 64) : (s.setNext w).freelistHead = s.freelistHead := by
  rw [setNext]; split <;> rfl

@[simp] theorem setNext_freePgCount (w : BitVec 64) : (s.setNext w).freePgCount = s.freePgCount := by
  rw [setNext]; split <;> rfl

@[simp] theorem setNext_entryCount (w : BitVec 64) : (s.setNext w).entryCount = s.entryCount := by
  rw [setNext]; split <;> rfl

end State

theorem isChain_of_dropLast {α : Type} {R S : α → α → Prop} {l : List α} (h : ∀ a ∈ l.dropLast, ∀ b, R a b → S a b)
    (hl : l.IsChain R) : l.IsChain S := by
  induction l with
  | nil => exact .nil
  | cons a l ih =>
    cases l with
    | nil => exact .singleton a
    | cons c l =>
      rw [List.isChain_cons_cons] at hl ⊢
      rw [List.dropLast_cons_of_ne_nil (List.cons_ne_nil c l)] at h
      exact ⟨h a List.mem_cons_self c hl.1, ih (fun x hx => h x (List.mem_cons_of_mem a hx)) hl.2⟩

theorem freeOf_nodup : (freeOf e b).Nodup := List.nodup_range.filter _

theorem last_notMem_dropLast {α : Type} {l : List α} {a : α} (h : l.Nodup) (hl : l.getLast? = some a) : a ∉ l.dropLast := by
  obtain ⟨l', rfl⟩ := List.getLast?_eq_some_iff.mp hl
  rw [List.dropLast_concat]
  rw [List.nodup_append] at h
  exact fun ha => h.2.2 a ha a (by simp) rfl

theorem forall_lt_concat {P : ℕ → Prop} (h : ∀ j < b.length, P j) (hlast : P b.length) :
    ∀ j < (b ++ [x]).length, P j := by
  intro j hj
  rw [List.length_append, List.length_singleton] at hj
  rcases Nat.lt_or_eq_of_le (Nat.le_of_lt_succ hj) with hlt | rfl
  · exact h j hlt
  · exact hlast

namespace Filled

variable {s' : State}

theorem reserve (h : Filled e c z b s) (hr : e.reserved x = true) (hself : s'.listArr b.length = ⟨x, 1, 0⟩)
    (hkeep : ∀ j < b.length, s'.listArr j = s.listArr j) (hprev : s'.prev = s.prev)
    (hhead : s'.freelistHead = s.freelistHead) (hcount : s'.freePgCount = s.freePgCount - 1)
    (hentry : s'.entryCount = s.entryCount) : Filled e c z (b ++ [x]) s' := by
  have hfree : freeOf e (b ++ [x]) = freeOf e b := by rw [freeOf_concat, hr, if_pos rfl, List.append_nil]
  have hlast : (b ++ [x]).getD b.length 0 = x := by simp
  have hold : ∀ j < b.length, (b ++ [x]).getD j 0 = b.getD j 0 := fun j hj => List.getD_append _ _ _ _ hj
  constructor
  · apply forall_lt_concat
    · intro j hj
      rw [hold j hj, hkeep j hj, h.base j hj]
    · rw [hlast, hself]
  · apply forall_lt_concat
    · intro j hj hres
      rw [hold j hj] at hres
      rw [hkeep j hj]
      exact h.used j hj hres
    · rw [hself]
      exact fun _ => ⟨rfl, rfl⟩
  · intro j hj
    rw [hfree] at hj
    rw [hkeep j (lt_of_mem_freeOf hj)]
    exact h.free j hj
  · rw [hfree, hprev, h.prev]
  · rw [hfree]
    apply isChain_of_dropLast _ h.linked
    intro i hi j hij
    rwa [hkeep i (lt_of_mem_freeOf (List.mem_of_mem_dropLast hi))]
  · rw [hfree, hhead, h.head]
  · rw [hentry, h.entries]
  · have hc := h.count
    rw [hfree, List.length_append, List.length_singleton, hcount, BitVec.ofNat_add, ← hc]
    bv_omega

theorem thread (h : Filled e c z b s) (hr : e.reserved x = false)
    (hself : (s'.listArr b.length).base = x ∧ (s'.listArr b.length).mapCount = 0)
    (hkeep : ∀ j < b.length, (s'.listArr j).base = (s.listArr j).base ∧ (s'.listArr j).mapCount = (s.listArr j).mapCount)
    (hlink : ∀ j < b.length, (s'.listArr j).next = if s.prev = some j then e.entryAddr b.length else (s.listArr j).next)
    (hprev : s'.prev = some b.length)
    (hhead : s'.freelistHead = if z = true ∧ b = [] then e.entryAddr 0 else s.freelistHead)
    (hcount : s'.freePgCount = s.freePgCount) (hentry : s'.entryCount = s.entryCount) : Filled e c z (b ++ [x]) s' := by
  have hfree : freeOf e (b ++ [x]) = freeOf e b ++ [b.length] := by rw [freeOf_concat, hr, if_neg (by decide)]
  have hlast : (b ++ [x]).getD b.length 0 = x := by simp
  have hold : ∀ j < b.length, (b ++ [x]).getD j 0 = b.getD j 0 := fun j hj => List.getD_append _ _ _ _ hj
  constructor
  · apply forall_lt_concat
    · intro j hj
      rw [hold j hj, (hkeep j hj).1, h.base j hj]
    · rw [hlast, hself.1]
  · apply forall_lt_concat
    · intro j hj hres
      rw [hold j hj] at hres
      -- a reserved descriptor is not the last free one
      have hne : s.prev ≠ some j := by
        rw [h.prev]
        intro hp
        have := (List.mem_filter.mp (List.mem_of_getLast? hp)).2
        rw [hres] at this
        exact absurd this (by decide)
      rw [(hkeep j hj).2, hlink j hj, if_neg hne]
      exact h.used j hj hres
    · rw [hlast, hr]
      exact fun hc => absurd hc (by decide)
  · intro j hj
    rw [hfree, List.mem_append, List.mem_singleton] at hj
    rcases hj with hj | rfl
    · rw [(hkeep j (lt_of_mem_freeOf hj)).2]
      exact h.free j hj
    · exact hself.2
  · rw [hfree, hprev, List.getLast?_concat]
  · rw [hfree, List.isChain_append]
    refine ⟨?_, .singleton _, fun i hi j hj => ?_⟩
    · apply isChain_of_dropLast _ h.linked
      intro i hi j hij
      have hne : s.prev ≠ some i := by
        rw [h.prev]
        exact fun hp => last_notMem_dropLast freeOf_nodup hp hi
      rwa [hlink i (lt_of_mem_freeOf (List.mem_of_mem_dropLast hi)), if_neg hne]
    · rw [List.head?_cons, Option.mem_some_iff] at hj
      rw [hlink i (lt_of_mem_freeOf (List.mem_of_getLast? hi)), h.prev, if_pos (Option.mem_def.mp hi), hj]
  · rw [hhead, h.head, hfree]
    by_cases hb : b = []
    · subst hb
      cases z <;> simp
    · have hpos : 0 ≠ b.length := fun h0 => hb (List.length_eq_zero_iff.mp h0.symm)
      simp [hb, hpos]
  · rw [hentry, h.entries]
  · have hc := h.count
    rw [hfree, List.length_append, List.length_append, List.length_singleton, hcount, BitVec.ofNat_add,
      BitVec.ofNat_add, ← BitVec.add_assoc, hc, BitVec.add_assoc]
    rfl

end Filled

theorem State.place_filled (h : Filled e c z b s) (hz : b = [] → (i = 0 ↔ z = true))
    (hx : base + ((BitVec.ofNat 32 b.length - cnt) * 4096).setWidth 64 = x) :
    Filled e c z (b ++ [x]) (s.place e i base cnt b.length) := by
  have hkeep : ∀ d, ∀ j < b.length, Function.update s.listArr b.length d j = s.listArr j :=
    fun d j hj => Function.update_of_ne hj.ne _ _
  cases hr : e.reserved x with
  | true =>
    rw [place_reserved hx hr]
    exact h.reserve hr (Function.update_self ..) (hkeep _) rfl rfl rfl rfl
  | false =>
    rw [place_free hx hr]
    dsimp only
    split
    next hfirst =>
      have hb : b = [] := List.length_eq_zero_iff.mp hfirst.2
      have hzt : z = true := (hz hb).mp hfirst.1
      apply h.thread hr
      · exact ⟨congrArg _ (Function.update_self ..), congrArg _ (Function.update_self ..)⟩
      · exact fun j hj => ⟨congrArg _ (hkeep _ j hj), congrArg _ (hkeep _ j hj)⟩
      · intro j hj
        rw [hfirst.2] at hj
        exact absurd hj (Nat.not_lt_zero j)
      · rfl
      · rw [if_pos ⟨hzt, hb⟩, hfirst.2]
      · rfl
      · rfl
    next hrest =>
      have hprev : s.prev ≠ some b.length := by
        rw [h.prev]
        exact fun hp => (lt_of_mem_freeOf (List.mem_of_getLast? hp)).ne rfl
      have hhead : ¬ (z = true ∧ b = []) := fun ⟨hzt, hb⟩ => hrest ⟨(hz hb).mpr hzt, by rw [hb]; rfl⟩
      apply h.thread hr
      · dsimp only
        rw [setNext_listArr, if_neg hprev]
        exact ⟨congrArg _ (Function.update_self ..), congrArg _ (Function.update_self ..)⟩
      · intro j hj
        dsimp only
        rw [setNext_listArr]
        dsimp only
        rw [hkeep _ j hj]
        split <;> exact ⟨rfl, rfl⟩
      · intro j hj
        dsimp only
        rw [setNext_listArr]
        dsimp only
        rw [hkeep _ j hj]
        split <;> rfl
      · rfl
      · rw [if_neg hhead]
        exact setNext_freelistHead ..
      · exact setNext_freePgCount ..
      · exact setNext_entryCount ..

theorem index_eq {k : ℕ} : BitVec.ofNat 32 (cnt.toNat + k) - cnt = BitVec.ofNat 32 k := by
  rw [BitVec.ofNat_add, BitVec.ofNat_toNat, BitVec.setWidth_eq, BitVec.add_comm, BitVec.add_sub_cancel]

theorem index_lt {k : ℕ} (hk : k < 2 ^ 32) : BitVec.ofNat 32 k < size ↔ k < size.toNat := by
  rw [BitVec.lt_def, BitVec.toNat_ofNat, Nat.mod_eq_of_lt hk]

namespace State

variable {r : Smap} {l : List Smap} {k : ℕ}

theorem fill_filled (h : Filled e c z b s) (hlen : b.length = cnt.toNat + k) (hk : k ≤ r.size.toNat)
    (hmax : cnt.toNat + r.size.toNat < 2 ^ 31) (hz : b = [] → r.size.toNat ≠ 0 → (i = 0 ↔ z = true))
    (hn : r.size.toNat - k < n) :
    ∃ s', s.fill e i r.base r.size cnt n b.length = some s' ∧
      Filled e c z (b ++ (List.range' k (r.size.toNat - k)).map (pageBase r)) s' := by
  induction n generalizing k b s with
  | zero => omega
  | succ n ih =>
    have hguard : BitVec.ofNat 32 b.length - cnt < r.size ↔ k < r.size.toNat := by
      rw [hlen, index_eq]
      exact index_lt (by omega)
    rw [fill]
    by_cases hlt : k < r.size.toNat
    · have hplace := place_filled (i := i) (x := pageBase r k) h (fun hb => hz hb (by omega))
        (by rw [hlen, index_eq]; rfl)
      have hlen' : (b ++ [pageBase r k]).length = b.length + 1 := by simp
      obtain ⟨s', hs', hf⟩ := ih hplace (k := k + 1) (by rw [hlen', hlen, Nat.add_assoc]) hlt (by simp) (by omega)
      rw [if_pos (hguard.mpr hlt)]
      dsimp only
      rw [if_neg (by omega), ← hlen', hs']
      refine ⟨s', rfl, ?_⟩
      rw [show r.size.toNat - k = r.size.toNat - (k + 1) + 1 by omega, List.range'_succ, List.map_cons]
      rwa [List.append_assoc, List.singleton_append] at hf
    · rw [if_neg (mt hguard.mp hlt), show r.size.toNat - k = 0 by omega]
      exact ⟨s, rfl, by simpa using h⟩

theorem fill_overflow (hk : cnt.toNat + k < 2 ^ 31) (hmax : 2 ^ 31 ≤ cnt.toNat + size.toNat) :
    s.fill e i base size cnt n (cnt.toNat + k) = none := by
  induction n generalizing k s with
  | zero => rfl
  | succ n ih =>
    have hguard : BitVec.ofNat 32 (cnt.toNat + k) - cnt < size := by
      rw [index_eq]
      exact (index_lt (by omega)).mpr (by omega)
    rw [fill, if_pos hguard]
    dsimp only
    split
    · rfl
    · exact ih (k := k + 1) (by omega)

theorem fillAll_filled (h : Filled e c z b s) (hlen : b.length = cnt.toNat) (hmax : b.length + total l < 2 ^ 31)
    (hz : b = [] → (z = true ↔ i = 0 ∧ ∃ r, l.head? = some r ∧ r.size.toNat ≠ 0)) :
    ∃ s', s.fillAll e i cnt l = some s' ∧ Filled e c z (b ++ bases l) s' := by
  induction l generalizing i cnt b s with
  | nil => exact ⟨s, rfl, by simpa [bases, pages] using h⟩
  | cons r l ih =>
    rw [total_cons] at hmax
    obtain ⟨s', hs', hf⟩ := fill_filled (i := i) (k := 0) (n := r.size.toNat + 1) (r := r) h hlen (Nat.zero_le _)
      (by omega) (fun hb hr => by rw [hz hb]; simp [hr]) (by omega)
    rw [Nat.sub_zero, ← List.range_eq_range'] at hf
    have hlen' : (b ++ (List.range r.size.toNat).map (pageBase r)).length = (cnt + r.size).toNat := by
      rw [List.length_append, List.length_map, List.length_range, BitVec.toNat_add]
      omega
    obtain ⟨s'', hs'', hf'⟩ := ih (i := i + 1) hf hlen' (by simp; omega) fun hb => by
      obtain ⟨hb, hr⟩ := List.append_eq_nil_iff.mp hb
      have hr : r.size.toNat = 0 := by simpa using hr
      rw [hz hb]
      simp [hr]
    refine ⟨s'', ?_, ?_⟩
    · rw [fillAll, ← hlen, hs', Option.bind_some, hs'']
    · rwa [List.append_assoc, ← bases_cons] at hf'

theorem fillAll_overflow (hcnt : cnt.toNat < 2 ^ 31) (hmax : 2 ^ 31 ≤ cnt.toNat + total l) :
    s.fillAll e i cnt l = none := by
  induction l generalizing i cnt s with
  | nil =>
    rw [show total [] = 0 from rfl] at hmax
    omega
  | cons r l ih =>
    rw [total_cons] at hmax
    rw [fillAll]
    by_cases hr : 2 ^ 31 ≤ cnt.toNat + r.size.toNat
    · rw [show cnt.toNat = cnt.toNat + 0 from rfl, fill_overflow (by omega) hr]
      rfl
    · have hsum : (cnt + r.size).toNat = cnt.toNat + r.size.toNat := by
        rw [BitVec.toNat_add]
        omega
      rw [Option.bind_eq_none_iff]
      exact fun s' _ => ih (by omega) (by omega)

end State

end Loop

variable {map regions : List Smap} {physbase physfree : BitVec 64}

theorem entryCount_eq : entryCount regions = BitVec.ofNat 32 (total regions) := by
  have hfold : ∀ (l : List Smap) (n : BitVec 32),
      l.foldl (fun n r => n + r.size) n = n + BitVec.ofNat 32 (total l) := by
    intro l
    induction l with
    | nil => exact fun n => (BitVec.add_zero n).symm
    | cons r l ih =>
      intro n
      rw [List.foldl_cons, ih, total_cons, BitVec.ofNat_add, BitVec.ofNat_toNat, BitVec.setWidth_eq, BitVec.add_assoc]
  rw [entryCount, hfold]
  exact BitVec.zero_add _

theorem entryCount_toNat (h : total regions < 2 ^ 31) : (entryCount regions).toNat = total regions := by
  rw [entryCount_eq, BitVec.toNat_ofNat]
  omega

def layout (map : List Smap) (physbase physfree : BitVec 64) : Layout :=
  ⟨physbase, physfree, realPhysfree physfree (entryCount (smapArr map))⟩

def starts (regions : List Smap) : Bool := regions.head?.any fun r => decide (r.size.toNat ≠ 0)

theorem blank_filled {e : Layout} {c : BitVec 32} {z : Bool} :
    Filled e c z [] { blank with entryCount := c, freePgCount := c } :=
  ⟨fun _ hj => absurd hj (Nat.not_lt_zero _), fun _ hj => absurd hj (Nat.not_lt_zero _),
    fun _ hj => absurd hj List.not_mem_nil, rfl, .nil, by simp [freeOf, blank], rfl, rfl⟩

theorem pmapInit_some (physbase physfree : BitVec 64) (hne : smapArr map ≠ []) (hmax : total (smapArr map) < 2 ^ 31) :
    ∃ s, pmapInit map physbase physfree = some ((layout map physbase physfree).realPhysfree, s.setNext 0) ∧
      Filled (layout map physbase physfree) (entryCount (smapArr map)) (starts (smapArr map)) (bases (smapArr map)) s := by
  have hz : starts (smapArr map) = true ↔ 0 = 0 ∧ ∃ r, (smapArr map).head? = some r ∧ r.size.toNat ≠ 0 := by
    rw [starts]
    cases (smapArr map).head? <;> simp
  have hfill : ∃ s, State.fillAll (layout map physbase physfree) 0 0 (smapArr map)
      { blank with entryCount := entryCount (smapArr map), freePgCount := entryCount (smapArr map) } = some s ∧
      Filled (layout map physbase physfree) (entryCount (smapArr map)) (starts (smapArr map))
        ([] ++ bases (smapArr map)) s :=
    State.fillAll_filled blank_filled rfl (by simpa using hmax) fun _ => hz
  obtain ⟨s, hs, hf⟩ := hfill
  refine ⟨s, ?_, hf⟩
  have hempty : (smapArr map).isEmpty = false := by simpa using hne
  rw [pmapInit]
  dsimp only
  rw [hempty, if_neg (by decide)]
  change Option.map _ (State.fillAll (layout map physbase physfree) 0 0 (smapArr map) _) = _
  rw [hs]
  rfl

theorem pmapInit_none (hne : smapArr map ≠ []) (hmax : 2 ^ 31 ≤ total (smapArr map)) :
    pmapInit map physbase physfree = none := by
  have hempty : (smapArr map).isEmpty = false := by simpa using hne
  rw [pmapInit]
  dsimp only
  rw [hempty, if_neg (by decide), State.fillAll_overflow (by decide) (by simpa using hmax)]
  rfl

end Boot

end Os506
