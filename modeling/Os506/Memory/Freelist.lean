import Os506.Memory.Boot

namespace Os506

open Linked

namespace Smap

def limit (r : Smap) : ℕ := r.base.toNat + r.length.toNat

def Apart (r r' : Smap) : Prop := r.limit ≤ r'.base.toNat ∨ r'.limit ≤ r.base.toNat

instance (r r' : Smap) : Decidable (r.Apart r') := inferInstanceAs (Decidable (_ ∨ _))

end Smap

namespace Boot

structure Disjoint (map : List Smap) : Prop where
  ranges : ∀ r ∈ map, r.type = 1 → r.limit ≤ 2 ^ 64
  apart : (map.filter fun r => r.type = 1).Pairwise Smap.Apart

/-- `pmap_init` returns; no two descriptors have one base, and each page lies in the region it was made from. -/
def Faithful (map : List Smap) (physbase physfree : BitVec 64) : Prop :=
  ∃ top s, pmapInit map physbase physfree = some (top, s) ∧ (s.pmap physfree).Distinct ∧
    ∀ j < s.entryCount.toNat, ∃ p, (pages (smapArr map))[j]? = some p ∧
      p.1.base.toNat ≤ (s.listArr j).base.toNat ∧ (s.listArr j).base.toNat + 4096 ≤ p.1.limit

variable {map : List Smap} {physbase physfree : BitVec 64} {r r' : Smap} {k k' : ℕ}

theorem smapArr_sublist : (smapArr map).Sublist (map.filter fun r => r.type = 1) := by
  have hfilter : (map.filter fun r => decide (r.type = 1 ∧ r.length ≠ 0) && decide (4096 * 10 ≤ r.length)).Sublist
      (map.filter fun r => r.type = 1) := by
    apply List.monotone_filter_right
    intro r hr
    simp only [Bool.and_eq_true, decide_eq_true_eq] at hr ⊢
    exact hr.1.1
  exact (List.take_sublist 8 _).trans hfilter

theorem smapArr_length (map : List Smap) : (smapArr map).length ≤ 8 := List.length_take_le _ _

theorem size_le (h : r ∈ smapArr map) : r.size.toNat * 4096 + 4096 ≤ r.length.toNat := by
  have hlen := (List.mem_filter.mp (List.mem_of_mem_take h)).2
  simp only [Bool.and_eq_true, decide_eq_true_eq] at hlen
  have hmin : 40960 ≤ r.length.toNat := hlen.2
  have hdiv : (r.length / 4096).toNat = r.length.toNat / 4096 := BitVec.toNat_udiv
  have hsub : (r.length / 4096 - 1).toNat = r.length.toNat / 4096 - 1 := by
    rw [BitVec.toNat_sub_of_le, hdiv]
    · rfl
    · rw [BitVec.le_def, hdiv]
      change 1 ≤ _
      omega
  rw [Smap.size, BitVec.toNat_setWidth, hsub]
  have := Nat.mod_le (r.length.toNat / 4096 - 1) (2 ^ 32)
  omega

theorem pageBase_toNat (hk : k < 2 ^ 20) (hlim : r.base.toNat + k * 4096 < 2 ^ 64) :
    (pageBase r k).toNat = r.base.toNat + k * 4096 := by
  rw [pageBase, BitVec.toNat_add, BitVec.toNat_setWidth, BitVec.toNat_mul, BitVec.toNat_ofNat]
  change (_ + k % 2 ^ 32 * 4096 % 2 ^ 32 % 2 ^ 64) % 2 ^ 64 = _
  omega

theorem pageBase_wraps (r : Smap) : pageBase r (2 ^ 20) = pageBase r 0 := rfl

theorem total_le {l : List Smap} {n : ℕ} (h : ∀ r ∈ l, r.size.toNat ≤ n) : total l ≤ l.length * n := by
  induction l with
  | nil => exact Nat.zero_le _
  | cons r l ih =>
    have hr := h r List.mem_cons_self
    have hl := ih fun r' hr' => h r' (List.mem_cons_of_mem r hr')
    rw [total_cons, List.length_cons, Nat.succ_mul]
    omega

section Narrow

variable (h : Disjoint map) (hsmall : ∀ r ∈ smapArr map, r.size.toNat ≤ 2 ^ 20)

include h hsmall

theorem page_inside (hr : r ∈ smapArr map) (hk : k < r.size.toNat) :
    (pageBase r k).toNat = r.base.toNat + k * 4096 ∧ (pageBase r k).toNat + 4096 ≤ r.limit := by
  have hmem := List.mem_filter.mp (smapArr_sublist.subset hr)
  have hlim := h.ranges r hmem.1 (of_decide_eq_true hmem.2)
  have hsize := size_le hr
  have hbound := hsmall r hr
  rw [Smap.limit] at hlim ⊢
  have hbase := pageBase_toNat (r := r) (k := k) (by omega) (by omega)
  exact ⟨hbase, by omega⟩

theorem bases_nodup : (bases (smapArr map)).Nodup := by
  have hflat : bases (smapArr map) = (smapArr map).flatMap fun r => (List.range r.size.toNat).map (pageBase r) := by
    rw [bases, pages, List.map_flatMap]
    simp only [List.map_map]
    rfl
  rw [hflat, List.nodup_flatMap]
  constructor
  · intro r hr
    apply List.Nodup.map_on _ List.nodup_range
    intro k hk k' hk' he
    have := congrArg BitVec.toNat he
    rw [(page_inside h hsmall hr (List.mem_range.mp hk)).1, (page_inside h hsmall hr (List.mem_range.mp hk')).1] at this
    omega
  · apply List.Pairwise.imp_of_mem _ (h.apart.sublist smapArr_sublist)
    intro r r' hr hr' hap x hx hx'
    obtain ⟨k, hk, rfl⟩ := List.mem_map.mp hx
    obtain ⟨k', hk', he⟩ := List.mem_map.mp hx'
    have h₁ := page_inside h hsmall hr (List.mem_range.mp hk)
    have h₂ := page_inside h hsmall hr' (List.mem_range.mp hk')
    rw [he] at h₂
    rcases hap with hap | hap
    · omega
    · omega

omit h in
theorem total_small : total (smapArr map) < 2 ^ 31 := by
  have hsum := total_le hsmall
  have := smapArr_length map
  omega

end Narrow

theorem total_append (l₁ l₂ : List Smap) : total (l₁ ++ l₂) = total l₁ + total l₂ := by simp [total]

theorem bases_getD {l l₁ l₂ : List Smap} (hl : l = l₁ ++ r :: l₂) (hk : k < r.size.toNat) :
    (bases l).getD (total l₁ + k) 0 = pageBase r k := by
  have happend : bases l = bases l₁ ++ bases (r :: l₂) := by simp [hl, bases, pages]
  rw [happend, ← length_bases, List.getD_append_right _ _ _ _ (Nat.le_add_right _ _), Nat.add_sub_cancel_left, bases_cons,
    List.getD_append _ _ _ _ (by simpa using hk), List.getD_eq_getElem _ _ (by simpa using hk)]
  simp

theorem mem_pages {l : List Smap} {p : Smap × ℕ} (hp : p ∈ pages l) : p.1 ∈ l ∧ p.2 < p.1.size.toNat := by
  obtain ⟨r, hr, hp⟩ := List.mem_flatMap.mp hp
  obtain ⟨k, hk, rfl⟩ := List.mem_map.mp hp
  exact ⟨hr, List.mem_range.mp hk⟩

theorem Filled.after {e : Layout} {c : BitVec 32} {z : Bool} {b : List (BitVec 64)} {s : State} (h : Filled e c z b s) :
    (∀ j < b.length, ((s.setNext 0).listArr j).base = b.getD j 0) ∧ (s.setNext 0).entryCount = c := by
  constructor
  · intro j hj
    rw [State.setNext_listArr, ← h.base j hj]
    split <;> rfl
  · rw [State.setNext_entryCount, h.entries]

theorem size_le_of_faithful (h : Faithful map physbase physfree) (hr : r ∈ smapArr map) : r.size.toNat ≤ 2 ^ 20 := by
  obtain ⟨top, s, hinit, hd, _⟩ := h
  have hne : smapArr map ≠ [] := List.ne_nil_of_mem hr
  by_contra hbig
  by_cases hmax : total (smapArr map) < 2 ^ 31
  · obtain ⟨s', hs', hf⟩ := pmapInit_some physbase physfree hne hmax
    rw [hs', Option.some.injEq, Prod.mk.injEq] at hinit
    obtain ⟨_, rfl⟩ := hinit
    obtain ⟨hbase, hcount⟩ := hf.after
    obtain ⟨l₁, l₂, hl⟩ := List.append_of_mem hr
    have htotal : total l₁ + r.size.toNat ≤ total (smapArr map) := by
      rw [hl, total_append, total_cons]
      omega
    have hentry : (s'.setNext 0).entryCount.toNat = total (smapArr map) := by rw [hcount, entryCount_toNat hmax]
    have hat : ∀ k < r.size.toNat, ((s'.setNext 0).listArr (total l₁ + k)).base = pageBase r k := by
      intro k hk
      rw [hbase _ (by rw [length_bases]; omega), bases_getD hl hk]
    -- the first page and page 2^20 of the region
    have hsame := hd (total l₁ + 0) (by simp only [State.pmap, hentry]; omega) (total l₁ + 2 ^ 20)
      (by simp only [State.pmap, hentry]; omega)
      (by simp only [State.pmap]; rw [hat 0 (by omega), hat (2 ^ 20) (by omega), pageBase_wraps])
    omega
  · rw [pmapInit_none hne (by omega)] at hinit
    cases hinit

theorem faithful_of_small (h : Disjoint map) (hne : smapArr map ≠ []) (hsmall : ∀ r ∈ smapArr map, r.size.toNat ≤ 2 ^ 20) :
    Faithful map physbase physfree := by
  have hmax := total_small hsmall
  obtain ⟨s, hs, hf⟩ := pmapInit_some physbase physfree hne hmax
  obtain ⟨hbase, hcount⟩ := hf.after
  have hentry : (s.setNext 0).entryCount.toNat = (bases (smapArr map)).length := by
    rw [hcount, entryCount_toNat hmax, length_bases]
  refine ⟨_, _, hs, fun i hi j hj he => ?_, fun j hj => ?_⟩
  · simp only [State.pmap, hentry] at hi hj he
    rw [hbase i hi, hbase j hj, List.getD_eq_getElem _ _ hi, List.getD_eq_getElem _ _ hj] at he
    exact (bases_nodup h hsmall).getElem_inj_iff.mp he
  · rw [hentry] at hj
    have hj' : j < (pages (smapArr map)).length := by simpa [bases] using hj
    obtain ⟨hr, hk⟩ := mem_pages (List.getElem_mem hj')
    have hb : (bases (smapArr map)).getD j 0 = pageBase (pages (smapArr map))[j].1 (pages (smapArr map))[j].2 := by
      rw [List.getD_eq_getElem _ _ hj]
      simp [bases]
    obtain ⟨hat, hin⟩ := page_inside h hsmall hr hk
    refine ⟨_, List.getElem?_eq_getElem hj', ?_⟩
    rw [hbase j hj, hb]
    exact ⟨by omega, hin⟩

theorem faithful_iff (h : Disjoint map) : Faithful map physbase physfree ↔ ∀ r ∈ smapArr map, r.size.toNat ≤ 2 ^ 20 := by
  by_cases hne : smapArr map = []
  · have hinit : pmapInit map physbase physfree = some (0, blank) := by simp [pmapInit, hne]
    refine iff_of_true ⟨0, blank, hinit, ?_, ?_⟩ ?_
    · exact fun i hi => absurd hi (Nat.not_lt_zero i)
    · exact fun j hj => absurd hj (Nat.not_lt_zero j)
    · rw [hne]
      exact fun r hr => absurd hr List.not_mem_nil
  · exact ⟨fun hf r hr => size_le_of_faithful hf hr, faithful_of_small h hne⟩

def smallMap : List Smap := [⟨0, 0x9FC00, 1⟩, ⟨0x9FC00, 0x400, 2⟩, ⟨0x100000, 0x7EE0000, 1⟩]

theorem faithful_small : Disjoint smallMap ∧ Faithful smallMap 0x200000 0x220000 := by
  have h : Disjoint smallMap := ⟨by decide, by decide⟩
  exact ⟨h, (faithful_iff h).mpr (by decide)⟩

def largeMap : List Smap := [⟨0, 0x9F000, 1⟩, ⟨0x100000, 0x100002000, 1⟩]

theorem faithful_fails_above_4G : Disjoint largeMap ∧ ¬ Faithful largeMap 0x200000 0x220000 ∧
    (bases (smapArr largeMap)).getD 158 0 = (bases (smapArr largeMap)).getD (158 + 2 ^ 20) 0 := by
  have hl : smapArr largeMap = [⟨0, 0x9F000, 1⟩] ++ ⟨0x100000, 0x100002000, 1⟩ :: [] := by decide
  refine ⟨⟨by decide, by decide⟩, fun hf => ?_, ?_⟩
  · exact absurd (size_le_of_faithful hf (r := ⟨0x100000, 0x100002000, 1⟩) (by rw [hl]; simp)) (by decide)
  · have h₀ := bases_getD hl (k := 0) (by decide)
    have h₁ := bases_getD hl (k := 2 ^ 20) (by decide)
    exact h₀.trans (h₁.trans (pageBase_wraps _)).symm

def tables (top : BitVec 64) : List (BitVec 64) := [top - 4096 * 4, top - 4096 * 3, top - 4096 * 2, top - 4096]

def areas (physfree top : BitVec 64) (count : ℕ) : List (ℕ × ℕ) :=
  (physfree.toNat, 20 * count) :: (tables top).map fun p => (p.toNat, 4096)

def outside (physbase top : BitVec 64) (s : State) : List ℕ :=
  (List.range s.entryCount.toNat).filter fun j => !decide (physbase ≤ (s.listArr j).base ∧ (s.listArr j).base < top)

structure Threads (physbase physfree top : BitVec 64) (s : State) : Prop where
  chain : Chain (s.pmap physfree).next (s.pmap physfree).head (outside physbase top s)
  free : ∀ j ∈ outside physbase top s, (s.listArr j).mapCount = 0
  used : ∀ j < s.entryCount.toNat, j ∉ outside physbase top s → (s.listArr j).mapCount = 1 ∧ (s.listArr j).next = 0
  count : s.freePgCount.toNat = (outside physbase top s).length
  apart : (areas physfree top s.entryCount.toNat).Pairwise fun a b => a.1 + a.2 ≤ b.1
  within : ∀ a ∈ areas physfree top s.entryCount.toNat, physfree.toNat ≤ a.1 ∧ a.1 + a.2 ≤ top.toNat

def Threaded (map : List Smap) (physbase physfree : BitVec 64) : Prop :=
  ∃ top s, pmapInit map physbase physfree = some (top, s) ∧ Threads physbase physfree top s

structure Threadable (map : List Smap) (physbase physfree : BitVec 64) : Prop where
  counter : total (smapArr map) < 2 ^ 31
  first : starts (smapArr map) = true ∨ freeOf (layout map physbase physfree) (bases (smapArr map)) = []
  address : ∀ j ∈ freeOf (layout map physbase physfree) (bases (smapArr map)), physfree.toNat + 20 * j ≠ 2 ^ 31

theorem alignDown_toNat (x : BitVec 64) : (x &&& ~~~(4096 - 1)).toNat = x.toNat / 4096 * 4096 := by
  have hmask : ∀ i < 64, (~~~(4096 - 1) : BitVec 64).getLsbD i = decide (12 ≤ i) := by decide
  have hshift : x &&& (~~~(4096 - 1) : BitVec 64) = x >>> 12 <<< 12 := by
    apply BitVec.eq_of_getLsbD_eq
    intro i hi
    rw [BitVec.getLsbD_and, hmask i hi, BitVec.getLsbD_shiftLeft, BitVec.getLsbD_ushiftRight]
    by_cases h12 : 12 ≤ i
    · simp [h12, hi, Nat.not_lt.mpr h12, Nat.add_sub_cancel' h12]
    · simp [h12, Nat.not_le.mp h12]
  rw [hshift, BitVec.toNat_shiftLeft, BitVec.toNat_ushiftRight, Nat.shiftRight_eq_div_pow, Nat.shiftLeft_eq]
  have := x.isLt
  omega

section Loader

variable {p : BitVec 32} {n : ℕ}

theorem loader_toNat (p : BitVec 32) : (p.setWidth 64).toNat = p.toNat := by
  rw [BitVec.toNat_setWidth]
  have := p.isLt
  omega

theorem realPhysfree_toNat (p : BitVec 32) (c : BitVec 32) :
    (realPhysfree (p.setWidth 64) c).toNat = p.toNat + 20 * c.toNat / 4096 * 4096 + 20480 := by
  have hc : (c.setWidth 64 * 20).toNat = 20 * c.toNat := by
    rw [BitVec.toNat_mul, BitVec.toNat_setWidth]
    change _ % _ * 20 % _ = _
    have := c.isLt
    omega
  rw [realPhysfree, BitVec.toNat_add, BitVec.toNat_add, BitVec.toNat_add, alignDown_toNat, hc, loader_toNat]
  change ((_ + 4096) % _ + 16384) % _ = _
  have := p.isLt
  have := c.isLt
  omega

theorem areas_fit {count : ℕ} {top : BitVec 64} (h : physfree.toNat + 20 * count + 4 * 4096 ≤ top.toNat) :
    ((areas physfree top count).Pairwise fun a b => a.1 + a.2 ≤ b.1) ∧
      ∀ a ∈ areas physfree top count, physfree.toNat ≤ a.1 ∧ a.1 + a.2 ≤ top.toNat := by
  have hsub : ∀ c : BitVec 64, c.toNat ≤ top.toNat → (top - c).toNat = top.toNat - c.toNat :=
    fun c hc => BitVec.toNat_sub_of_le (BitVec.le_def.mpr hc)
  have h₄ := hsub (4096 * 4) (by change 16384 ≤ _; omega)
  have h₃ := hsub (4096 * 3) (by change 12288 ≤ _; omega)
  have h₂ := hsub (4096 * 2) (by change 8192 ≤ _; omega)
  have h₁ := hsub 4096 (by change 4096 ≤ _; omega)
  change _ = top.toNat - 16384 at h₄
  change _ = top.toNat - 12288 at h₃
  change _ = top.toNat - 8192 at h₂
  change _ = top.toNat - 4096 at h₁
  simp only [areas, tables, List.map_cons, List.map_nil, h₄, h₃, h₂, h₁, List.pairwise_cons, List.mem_cons,
    List.not_mem_nil, or_false, forall_eq_or_imp, forall_eq]
  simp only [List.Pairwise.nil, false_implies, implies_true, and_true]
  omega

theorem chain_words (link address : ℕ → BitVec 64) (number : BitVec 64 → Option ℕ) {l : List ℕ} {w : BitVec 64}
    (hnull : number 0 = none) (hnumber : ∀ j ∈ l, address j ≠ 0 → number (address j) = some j)
    (hlink : l.IsChain fun i j => link i = address j) (hlast : ∀ i, l.getLast? = some i → link i = 0)
    (hhead : w = (l.head?.map address).getD 0) :
    Chain (fun j => number (link j)) (number w) l ↔ ∀ j ∈ l, address j ≠ 0 := by
  induction l generalizing w with
  | nil => exact iff_of_true (by rw [hhead]; exact hnull) fun j hj => absurd hj List.not_mem_nil
  | cons j l ih =>
    have hword : w = address j := hhead
    have htail : link j = (l.head?.map address).getD 0 := by
      cases l with
      | nil => exact hlast j rfl
      | cons k l => exact (List.isChain_cons_cons.mp hlink).1
    have hrest := ih (fun k hk => hnumber k (List.mem_cons_of_mem j hk)) hlink.tail (fun i hi => hlast i (by
      cases l with
      | nil => cases hi
      | cons k l => rwa [List.getLast?_cons_cons])) htail
    rw [List.forall_mem_cons, ← hrest, hword]
    by_cases hz : address j = 0
    · rw [hz, hnull]
      exact iff_of_false (fun hc => nomatch hc.1) fun hc => hc.1 rfl
    · rw [hnumber j List.mem_cons_self hz]
      exact ⟨fun hc => ⟨hz, hc.2⟩, fun hc => ⟨rfl, hc.2⟩⟩

variable {e : Layout} {j : ℕ}

theorem entryAddr_eq_zero (he : e.physfree = p.setWidth 64) (hj : j < 2 ^ 31) :
    e.entryAddr j = 0 ↔ e.physfree.toNat + 20 * j = 2 ^ 31 := by
  have hp := p.isLt
  have hz : e.entryAddr j = 0 ↔ (e.entryAddr j).toNat = 0 := ⟨fun h => by rw [h]; rfl, fun h => BitVec.eq_of_toNat_eq h⟩
  rw [hz, Layout.entryAddr, vaddr, he, BitVec.toNat_add, BitVec.toNat_add, BitVec.toNat_mul, BitVec.toNat_ofNat,
    loader_toNat]
  change (0xFFFFFFFF80000000 + (_ + 20 * _ % _) % _) % _ = 0 ↔ _
  omega

theorem descriptor_entryAddr (hj : j < 2 ^ 31) (hne : e.entryAddr j ≠ 0) :
    descriptor e.physfree (e.entryAddr j) = some j := by
  have hsub : e.entryAddr j - vaddr e.physfree = 20 * BitVec.ofNat 64 j := by
    rw [Layout.entryAddr, vaddr, vaddr]
    bv_omega
  have hmul : (20 * BitVec.ofNat 64 j).toNat = 20 * j := by
    rw [BitVec.toNat_mul, BitVec.toNat_ofNat]
    change 20 * _ % _ = _
    omega
  rw [descriptor, if_neg hne, hsub, hmul, Nat.mul_div_cancel_left j (by decide)]

theorem freeOf_head {b : List (BitVec 64)} (h : 0 ∈ freeOf e b) : (freeOf e b).head? = some 0 := by
  cases b with
  | nil => simp [freeOf] at h
  | cons x b =>
    have hx := (List.mem_filter.mp h).2
    rw [freeOf, List.length_cons, List.range_succ_eq_map, List.filter_cons, if_pos hx, List.head?_cons]

theorem Filled.chain_iff {c : BitVec 32} {z : Bool} {b : List (BitVec 64)} {s : State} (h : Filled e c z b s)
    (he : e.physfree = p.setWidth 64) (hb : b.length < 2 ^ 31) (hz : z = true → 0 ∈ freeOf e b) :
    Chain ((s.setNext 0).pmap e.physfree).next ((s.setNext 0).pmap e.physfree).head (freeOf e b) ↔
      (z = true ∨ freeOf e b = []) ∧ ∀ j ∈ freeOf e b, e.physfree.toNat + 20 * j ≠ 2 ^ 31 := by
  have hlt : ∀ j ∈ freeOf e b, j < 2 ^ 31 := fun j hj => (lt_of_mem_freeOf hj).trans hb
  have hhead : ((s.setNext 0).pmap e.physfree).head =
      descriptor e.physfree (if z = true ∧ 0 ∈ freeOf e b then e.entryAddr 0 else 0) := by
    rw [← h.head]
    simp [State.pmap]
  cases z with
  | false =>
    rw [hhead, if_neg (by simp)]
    constructor
    · intro hc
      have hnil : freeOf e b = [] := by
        have := chain_head hc
        rw [descriptor, if_pos rfl] at this
        exact List.head?_eq_none_iff.mp this.symm
      rw [hnil]
      exact ⟨.inr rfl, fun j hj => absurd hj List.not_mem_nil⟩
    · intro hc
      rw [hc.1.resolve_left (by decide)]
      rfl
  | true =>
    rw [hhead, if_pos ⟨rfl, hz rfl⟩]
    have hwords := chain_words (fun j => ((s.setNext 0).listArr j).next) e.entryAddr (descriptor e.physfree)
      (l := freeOf e b) rfl (fun j hj hne => descriptor_entryAddr (hlt j hj) hne) ?_ ?_ (w := e.entryAddr 0) ?_
    · refine hwords.trans ⟨fun ha => ⟨.inl rfl, fun j hj => ?_⟩, fun ha j hj => ?_⟩
      · exact mt (entryAddr_eq_zero he (hlt j hj)).mpr (ha j hj)
      · exact mt (entryAddr_eq_zero he (hlt j hj)).mp (ha.2 j hj)
    · apply isChain_of_dropLast _ h.linked
      intro i hi j hij
      have hne : s.prev ≠ some i := by
        rw [h.prev]
        exact fun hp => last_notMem_dropLast freeOf_nodup hp hi
      rwa [State.setNext_listArr, if_neg hne]
    · intro i hi
      rw [State.setNext_listArr, h.prev, if_pos hi]
    · rw [freeOf_head (hz rfl)]
      rfl

theorem Filled.threads_iff {c : BitVec 32} {z : Bool} {b : List (BitVec 64)} {s : State} (h : Filled e c z b s)
    (he : e.physfree = p.setWidth 64) (htop : e.realPhysfree = realPhysfree e.physfree c) (hb : b.length = c.toNat) :
    Threads e.physbase e.physfree e.realPhysfree (s.setNext 0) ↔
      Chain ((s.setNext 0).pmap e.physfree).next ((s.setNext 0).pmap e.physfree).head (freeOf e b) := by
  obtain ⟨hbase, hentry⟩ := h.after
  have hout : outside e.physbase e.realPhysfree (s.setNext 0) = freeOf e b := by
    rw [outside, hentry, ← hb, freeOf]
    apply List.filter_congr
    intro j hj
    rw [hbase j (List.mem_range.mp hj), Layout.reserved, Bool.decide_and]
  have hle : (freeOf e b).length ≤ b.length := (List.length_filter_le _ _).trans (by rw [List.length_range])
  have hroom : e.physfree.toNat + 20 * c.toNat + 4 * 4096 ≤ e.realPhysfree.toNat := by
    rw [htop, he, realPhysfree_toNat, loader_toNat]
    omega
  have hareas := areas_fit hroom
  refine ⟨fun ht => hout ▸ ht.chain, fun hc => ⟨hout ▸ hc, ?_, ?_, ?_, ?_, ?_⟩⟩
  · intro j hj
    rw [hout] at hj
    rw [State.setNext_listArr]
    split
    · exact h.free j hj
    · exact h.free j hj
  · intro j hj hnot
    rw [hentry, ← hb] at hj
    rw [hout] at hnot
    have hres : e.reserved (b.getD j 0) = true := by
      by_contra hr
      exact hnot (List.mem_filter.mpr ⟨List.mem_range.mpr hj, by simpa using hr⟩)
    have hprev : s.prev ≠ some j := by
      rw [h.prev]
      exact fun hp => hnot (List.mem_of_getLast? hp)
    rw [State.setNext_listArr, if_neg hprev]
    exact h.used j hj hres
  · have hc := h.count
    rw [hb, BitVec.ofNat_toNat, BitVec.setWidth_eq, BitVec.add_comm, BitVec.add_right_inj] at hc
    have hlt := c.isLt
    rw [hout, State.setNext_freePgCount, hc, BitVec.toNat_ofNat, Nat.mod_eq_of_lt (by omega)]
  · rw [hentry]
    exact hareas.1
  · rw [hentry]
    exact hareas.2

theorem threaded_of_counter (p : BitVec 32) (hfirst : ∃ r, (smapArr map).head? = some r ∧ r.base < physbase)
    (hmax : total (smapArr map) < 2 ^ 31) :
    Threaded map physbase (p.setWidth 64) ↔
      (starts (smapArr map) = true ∨ freeOf (layout map physbase (p.setWidth 64)) (bases (smapArr map)) = []) ∧
        ∀ j ∈ freeOf (layout map physbase (p.setWidth 64)) (bases (smapArr map)),
          (p.setWidth 64).toNat + 20 * j ≠ 2 ^ 31 := by
  obtain ⟨r, hr, hlt⟩ := hfirst
  obtain ⟨l, hl⟩ : ∃ l, smapArr map = r :: l := List.head?_eq_some_iff.mp hr
  obtain ⟨s, hs, hf⟩ := pmapInit_some physbase (p.setWidth 64) (by rw [hl]; exact List.cons_ne_nil r l) hmax
  have hlen : (bases (smapArr map)).length = (entryCount (smapArr map)).toNat := by
    rw [length_bases, entryCount_toNat hmax]
  have hz : starts (smapArr map) = true → 0 ∈ freeOf (layout map physbase (p.setWidth 64)) (bases (smapArr map)) := by
    intro hst
    have hsize : r.size.toNat ≠ 0 := by simpa [starts, hl] using hst
    have hzero : (bases (smapArr map)).getD 0 0 = r.base := by
      have hget := bases_getD (show smapArr map = [] ++ r :: l from hl) (k := 0) (by omega)
      exact hget.trans (BitVec.add_zero r.base)
    have hpos : 0 < (bases (smapArr map)).length := by
      rw [length_bases, hl, total_cons]
      omega
    refine List.mem_filter.mpr ⟨List.mem_range.mpr hpos, ?_⟩
    rw [hzero, Layout.reserved, layout, decide_eq_false (BitVec.not_le.mpr hlt)]
    rfl
  have hiff := (hf.threads_iff rfl rfl hlen).trans (hf.chain_iff rfl (by rw [length_bases]; exact hmax) hz)
  constructor
  · rintro ⟨top, s', hs', ht⟩
    rw [hs, Option.some.injEq, Prod.mk.injEq] at hs'
    obtain ⟨rfl, rfl⟩ := hs'
    exact hiff.mp ht
  · exact fun ht => ⟨_, _, hs, hiff.mpr ht⟩

/-- The free list is threaded right exactly when the counter fits and no link is mistaken for the null pointer. -/
theorem threaded_iff (p : BitVec 32) (hfirst : ∃ r, (smapArr map).head? = some r ∧ r.base < physbase) :
    Threaded map physbase (p.setWidth 64) ↔ Threadable map physbase (p.setWidth 64) := by
  by_cases hmax : total (smapArr map) < 2 ^ 31
  · rw [threaded_of_counter p hfirst hmax]
    exact ⟨fun ht => ⟨hmax, ht.1, ht.2⟩, fun ht => ⟨ht.first, ht.address⟩⟩
  · refine iff_of_false ?_ fun ht => hmax ht.counter
    rintro ⟨top, s, hs, _⟩
    have hne : smapArr map ≠ [] := by
      intro hnil
      simp [hnil] at hfirst
    rw [pmapInit_none hne (by omega)] at hs
    cases hs

end Loader

theorem threaded_small :
    (∃ r, (smapArr smallMap).head? = some r ∧ r.base < 0x200000) ∧
      Threaded smallMap 0x200000 ((0x220000 : BitVec 32).setWidth 64) := by
  have hfirst : ∃ r, (smapArr smallMap).head? = some r ∧ r.base < 0x200000 := ⟨⟨0, 0x9FC00, 1⟩, by decide⟩
  have htotal : total (smapArr smallMap) = 32637 := by decide
  refine ⟨hfirst, (threaded_iff 0x220000 hfirst).mpr ⟨by omega, .inl (by decide), fun j hj => ?_⟩⟩
  have hlt := lt_of_mem_freeOf hj
  rw [length_bases, htotal] at hlt
  change 0x220000 + 20 * j ≠ 2 ^ 31
  omega

def hugeMap : List Smap := [⟨0, 0x9F000, 1⟩, ⟨0x100000000, 0x8000000000, 1⟩]

theorem threaded_fails_at_2G :
    (∃ r, (smapArr hugeMap).head? = some r ∧ r.base < 0x200000) ∧
      ¬ Threaded hugeMap 0x200000 ((0x224000 : BitVec 32).setWidth 64) ∧
      (layout hugeMap 0x200000 0x224000).entryAddr 107261952 = 0 := by
  have hfirst : ∃ r, (smapArr hugeMap).head? = some r ∧ r.base < 0x200000 := ⟨⟨0, 0x9F000, 1⟩, by decide⟩
  have htotal : total (smapArr hugeMap) = 134217885 := by decide
  refine ⟨hfirst, fun ht => ?_, by decide⟩
  rw [threaded_of_counter 0x224000 hfirst (by omega)] at ht
  refine ht.2 107261952 (List.mem_filter.mpr ⟨?_, ?_⟩) (by decide)
  · rw [List.mem_range, length_bases, htotal]
    decide
  · have hl : smapArr hugeMap = [⟨0, 0x9F000, 1⟩] ++ ⟨0x100000000, 0x8000000000, 1⟩ :: [] := by decide
    have hget := bases_getD hl (k := 107261794) (by decide)
    rw [show 107261952 = total [⟨0, 0x9F000, 1⟩] + 107261794 by decide, hget]
    decide

end Boot

end Os506
