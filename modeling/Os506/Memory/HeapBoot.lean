import Os506.Memory.BootPaging
import Os506.Memory.KernelHeap

namespace Os506

open Pging Mmu Run

open PMap (Physical)

namespace Boot

structure Regular (map : List Smap) (physbase : BitVec 64) (p : BitVec 32) : Prop where
  bootable : Bootable map (p.setWidth 64)
  disjoint : Disjoint map
  first : ∃ r, (smapArr map).head? = some r ∧ r.base < physbase
  starts : starts (smapArr map) = true
  kernel : physbase.toNat ≤ 0x200000
  frames : ∀ r ∈ smapArr map, r.base.toNat % 4096 = 0 ∧ r.limit ≤ 2 ^ 52
  video : ∀ r ∈ smapArr map, r.limit ≤ 0xb8000 ∨ 0xb8000 < r.base.toNat

def Left (map : List Smap) (physbase : BitVec 64) (p : BitVec 32) (mem : BitVec 64 → BitVec 64) (s : Phys) : Prop :=
  ∃ top st, pmapInit map physbase (p.setWidth 64) = some (top, st) ∧
    initPging top (found (p.setWidth 64) top st mem) = some (.ok () s)

variable {map : List Smap} {physbase top : BitVec 64} {p : BitVec 32} {mem : BitVec 64 → BitVec 64} {st : State} {s : Phys}

structure Prepared (map : List Smap) (physbase : BitVec 64) (p : BitVec 32) (top : BitVec 64) (st : State) : Prop where
  bound : top.toNat = (p.setWidth 64).toNat + 20 * total (smapArr map) / 4096 * 4096 + 20480
  count : st.entryCount.toNat = total (smapArr map)
  distinct : (st.pmap (p.setWidth 64)).Distinct
  threads : Threads physbase (p.setWidth 64) top st
  page : ∀ j < total (smapArr map), ∃ r ∈ smapArr map, ∃ k < r.size.toNat,
    (bases (smapArr map)).getD j 0 = (st.listArr j).base ∧ (st.listArr j).base.toNat = r.base.toNat + k * 4096
  free : 0 ∈ outside physbase top st

theorem size_le_total {r : Smap} {l : List Smap} (h : r ∈ l) : r.size.toNat ≤ total l := by
  obtain ⟨l₁, l₂, rfl⟩ := List.append_of_mem h
  rw [total_append, total_cons]
  omega

theorem Regular.small (h : Regular map physbase p) : ∀ r ∈ smapArr map, r.size.toNat ≤ 2 ^ 20 := by
  intro r hr
  have hsize := size_le_total hr
  have := h.bootable.fits
  omega

theorem Regular.prepared (h : Regular map physbase p) (hinit : pmapInit map physbase (p.setWidth 64) = some (top, st)) :
    Prepared map physbase p top st := by
  have hmax := h.bootable.counter
  obtain ⟨st', hst', hfilled⟩ := pmapInit_some physbase (p.setWidth 64) h.bootable.regions hmax
  obtain ⟨hbase, hcount⟩ := hfilled.after
  have hentries : (st'.setNext 0).entryCount.toNat = total (smapArr map) := by
    rw [hcount]
    exact entryCount_toNat hmax
  have hsame := hst'.symm.trans hinit
  rw [Option.some.injEq, Prod.mk.injEq] at hsame
  obtain ⟨rfl, rfl⟩ := hsame
  have hpage : ∀ j < total (smapArr map), ∃ r ∈ smapArr map, ∃ k < r.size.toNat,
      (bases (smapArr map)).getD j 0 = ((st'.setNext 0).listArr j).base ∧
        ((st'.setNext 0).listArr j).base.toNat = r.base.toNat + k * 4096 := by
    intro j hj
    have hj' : j < (pages (smapArr map)).length := by
      rw [← length_bases, bases, List.length_map] at hj
      exact hj
    obtain ⟨hr, hk⟩ := mem_pages (List.getElem_mem hj')
    have hb : (bases (smapArr map)).getD j 0 = pageBase (pages (smapArr map))[j].1 (pages (smapArr map))[j].2 := by
      rw [List.getD_eq_getElem _ _ (by rw [length_bases]; exact hj)]
      simp [bases]
    refine ⟨_, hr, _, hk, (hbase j (by rw [length_bases]; exact hj)).symm, ?_⟩
    rw [hbase j (by rw [length_bases]; exact hj), hb]
    exact (page_inside h.disjoint h.small hr hk).1
  have hthreaded : Threaded map physbase (p.setWidth 64) := by
    rw [threaded_of_counter p h.first hmax]
    refine ⟨.inl h.starts, fun j hj => ?_⟩
    have hlt := lt_of_mem_freeOf hj
    rw [length_bases] at hlt
    have := h.bootable.fits
    omega
  obtain ⟨_, _, htop, hthreads⟩ := hthreaded
  rw [hst', Option.some.injEq, Prod.mk.injEq] at htop
  obtain ⟨rfl, rfl⟩ := htop
  have hfaithful : Faithful map physbase (p.setWidth 64) := faithful_of_small h.disjoint h.bootable.regions h.small
  obtain ⟨_, _, hinit', hdistinct, _⟩ := hfaithful
  rw [hst', Option.some.injEq, Prod.mk.injEq] at hinit'
  obtain ⟨rfl, rfl⟩ := hinit'
  refine ⟨layout_toNat hmax physbase p, hentries, hdistinct, hthreads, hpage, ?_⟩
  obtain ⟨r, hr, hlow⟩ := h.first
  obtain ⟨l, hl⟩ := List.head?_eq_some_iff.mp hr
  have hsize : r.size.toNat ≠ 0 := by
    have hst := h.starts
    rw [Boot.starts, hr] at hst
    exact of_decide_eq_true hst
  have hpos : 0 < total (smapArr map) := by
    rw [hl, total_cons]
    omega
  have hzero : ((st'.setNext 0).listArr 0).base = r.base := by
    rw [hbase 0 (by rw [length_bases]; exact hpos)]
    have hget := bases_getD (show smapArr map = [] ++ r :: l from hl) (k := 0) (by omega)
    exact hget.trans (BitVec.add_zero r.base)
  refine List.mem_filter.mpr ⟨List.mem_range.mpr (hentries.symm ▸ hpos), ?_⟩
  rw [hzero, decide_eq_false fun hx => absurd hx.1 (BitVec.not_le.mpr hlow)]
  rfl

section Prepared

variable {physfree f w : BitVec 64} {j : ℕ}

theorem Threads.freelist (h : Threads physbase physfree top st) : (st.pmap physfree).Free (outside physbase top st) := by
  refine ⟨h.chain, fun i => ⟨fun hi => ⟨List.mem_range.mp (List.mem_filter.mp hi).1, h.free i hi⟩, ?_⟩⟩
  rintro ⟨hlt, hzero⟩
  by_contra hi
  have hone := (h.used i hlt hi).1
  change (st.listArr i).mapCount = 0 at hzero
  rw [hzero] at hone
  exact absurd hone (by decide)

theorem Laid.page (h : Laid physfree top st s) (hw : Plain w) (hf : table s.mem s.cr3 w 4 = some f) :
    0x200000 ≤ f.toNat ∧ f.toNat < top.toNat ∧ w.toNat / 4096 % 2 ^ 36 = 2 ^ 36 - 2 ^ 19 + f.toNat / 4096 := by
  obtain ⟨g, hg⟩ := table_some hf (show 3 ≤ 4 by decide)
  rw [table_succ hg] at hf
  rw [h.cr3] at hg
  obtain ⟨rfl, hpath⟩ := h.line.of_table hw le_rfl hg
  split at hf
  next hpresent =>
    obtain rfl := Option.some.inj hf
    obtain ⟨hlt, hframe⟩ := h.leaf (index (shift 3) w) (Mmu.index_lt _ _) hpresent
    have hindex : ∀ k < 3, w.toNat / 2 ^ shift k % 512 = (index (shift k) kernBase).toNat := fun k hk => by
      rw [← index_toNat, hpath k hk]
    have h₀ := hindex 0 (by decide)
    have h₁ := hindex 1 (by decide)
    have h₂ := hindex 2 (by decide)
    rw [shift_zero, show (index 39 kernBase).toNat = 511 by decide] at h₀
    rw [shift_one, show (index 30 kernBase).toNat = 510 by decide] at h₁
    rw [shift_two, show (index 21 kernBase).toNat = 1 by decide] at h₂
    have h₃ := index_toNat (shift 3) w
    rw [shift_three] at h₃
    rw [slot, hframe]
    rw [shift_three] at hlt ⊢
    omega
  next => cases hf

section Ready

variable (h : Regular map physbase p) (hprep : Prepared map physbase p top st)

include h hprep

theorem Prepared.frame (hj : j < total (smapArr map)) :
    Physical (st.listArr j).base ∧ (st.listArr j).base ≠ 0xb8000 := by
  obtain ⟨r, hr, k, hk, _, hbase⟩ := hprep.page j hj
  obtain ⟨haligned, hlimit⟩ := h.frames r hr
  have hsize := size_le hr
  rw [Smap.limit] at hlimit
  refine ⟨physical_of_toNat (by omega) (by omega), fun he => ?_⟩
  have hvideo := h.video r hr
  rw [Smap.limit] at hvideo
  rw [he] at hbase
  change 0xb8000 = _ at hbase
  omega

theorem Prepared.below : 0x200000 ≤ (p.setWidth 64).toNat ∧ top.toNat ≤ 0x3FE000 ∧ top.toNat % 4096 = 0 := by
  have hpos : 0 < total (smapArr map) := by
    rw [← hprep.count]
    exact List.mem_range.mp (List.mem_filter.mp hprep.free).1
  have hbound := hprep.bound
  have habove := h.bootable.above
  have hfits := h.bootable.fits
  have haligned := h.bootable.aligned
  omega

theorem Prepared.ready (hlaid : Laid (p.setWidth 64) top st s) : s.Ready (tableAt top 3) (outside physbase top st) := by
  obtain ⟨hlow, hfits, haligned⟩ := hprep.below h
  have hbound := hprep.bound
  have hkernel := h.kernel
  have hlt : ∀ j ∈ outside physbase top st, j < total (smapArr map) := fun j hj =>
    hprep.count ▸ List.mem_range.mp (List.mem_filter.mp hj).1
  have hout : ∀ j ∈ outside physbase top st,
      ¬ (physbase.toNat ≤ (st.listArr j).base.toNat ∧ (st.listArr j).base.toNat < top.toNat) := fun j hj hx => by
    have htest := (List.mem_filter.mp hj).2
    rw [decide_eq_true ⟨BitVec.le_def.mpr hx.1, BitVec.lt_def.mpr hx.2⟩] at htest
    cases htest
  refine ⟨hlaid.tree, hlaid.window, ?_, ?_, fun j hj => ?_, fun j hj w d hd hw ht => hout j hj ?_⟩
  · rw [hlaid.pmap]
    exact hprep.distinct
  · rw [hlaid.pmap]
    exact hprep.threads.freelist
  · rw [hlaid.pmap]
    exact (hprep.frame h (hlt j hj)).1
  · rw [hlaid.pmap] at ht
    change table s.mem s.cr3 w d = some (st.listArr j).base at ht
    rcases Nat.lt_or_eq_of_le hd with hlt | rfl
    · rw [hlaid.cr3] at ht
      have hat := (hlaid.line.of_table hw (by omega) ht).1
      rw [hat, tableAt_toNat (by omega) (by omega)]
      omega
    · obtain ⟨hge, hlt, _⟩ := hlaid.page hw ht
      omega

theorem Laid.page_none (hlaid : Laid (p.setWidth 64) top st s) (hw : Plain w)
    (hoff : w.toNat / 4096 % 2 ^ 36 < 2 ^ 36 - 2 ^ 19 + 512 ∨ 2 ^ 36 - 2 ^ 19 + top.toNat / 4096 ≤ w.toNat / 4096 % 2 ^ 36) :
    table s.mem s.cr3 w 4 = none := by
  cases hf : table s.mem s.cr3 w 4 with
  | none => rfl
  | some f =>
    have hpage := hlaid.page hw hf
    have haligned := (hprep.below h).2.2
    omega

theorem Prepared.video (hlaid : Laid (p.setWidth 64) top st s) : ∃ s' l,
    Phys.mapPage 0xb8000 0xFFFFFFFF800B8000 (pageP ||| pageRW) s = .ok () s' ∧
      Phys.Adds 0xb8000 0xFFFFFFFF800B8000 (pageP ||| pageRW) (tableAt top 3) (outside physbase top st) l s s' := by
  obtain ⟨hlow, hfits, _⟩ := hprep.below h
  have hbound := hprep.bound
  have htemp := hlaid.temp_toNat hfits
  have hpath : ∀ d < 3, index (shift d) 0xFFFFFFFF800B8000 = index (shift d) kernBase ∨ d = 2 := by decide
  have hsome : ∀ d ≤ 2, table s.mem s.cr3 0xFFFFFFFF800B8000 d = some (tableAt top d) := fun d hd => by
    rw [hlaid.cr3]
    exact hlaid.line.table_eq (by omega) fun k hk => (hpath k (by omega)).resolve_right (by omega)
  apply Phys.mapPage_adds (hprep.ready h hlaid) (by decide)
  · intro hsame
    have hpage := Heap.same_page hsame
    change _ = 0xFFFFFFFF800B8000 / 4096 % 2 ^ 36 at hpage
    omega
  · decide
  · exact Phys.upper_pageRW
  · intro k _ hk hnone
    rcases Nat.lt_or_eq_of_le (Nat.le_of_lt_succ hk) with hlt | rfl
    · rw [hsome (k + 1) (by omega)] at hnone
      cases hnone
    · exact List.length_pos_of_mem hprep.free
  · exact hlaid.page_none h hprep (by decide) (.inl (by decide))
  · intro k hk
    rw [hlaid.pmap]
    exact (hprep.frame h (hprep.count ▸ List.mem_range.mp (List.mem_filter.mp hk).1)).2

/-- The first page of the heap: `kern_temp_addr` is left out between `top` and it. -/
def heapStart (top : BitVec 64) : ℕ := 0xFFFFFFFF80002000 + top.toNat

omit h hprep in
theorem heapStart_high (hp : Prepared map physbase p top st) (h : Regular map physbase p) : Heap.High (heapStart top) := by
  obtain ⟨hlow, hfits, haligned⟩ := hp.below h
  rw [Heap.High, heapStart]
  omega

theorem Prepared.sound (hlaid : Laid (p.setWidth 64) top st s) : ∃ s' l,
    Phys.mapPage 0xb8000 0xFFFFFFFF800B8000 (pageP ||| pageRW) s = .ok () s' ∧
      Phys.Adds 0xb8000 0xFFFFFFFF800B8000 (pageP ||| pageRW) (tableAt top 3) (outside physbase top st) l s s' ∧
      Heap.Sound (heapStart top) (tableAt top 3) ⟨s', [], []⟩ := by
  obtain ⟨hlow, hfits, haligned⟩ := hprep.below h
  have hbound := hprep.bound
  obtain ⟨s', l, hrun, hadd⟩ := hprep.video h hlaid
  have hhigh := heapStart_high hprep h
  have htemp := hlaid.temp_toNat hfits
  have hwindow : s.temp.toNat + 4096 = heapStart top := by
    rw [htemp, heapStart]
    omega
  have hfree : s.free.toNat = heapStart top := by
    rw [hlaid.free, BitVec.toNat_add, ← hwindow]
    change (_ + 4096) % _ = _
    omega
  refine ⟨s', l, hrun, hadd, ⟨l, hadd.ready⟩, ?_, ?_, ?_, fun i v _ hv => ?_, fun v hv => ?_, fun v hv => ?_, List.nodup_nil⟩
  · rw [hadd.window]
    exact hwindow
  · apply hadd.temp
    apply hlaid.page_none h hprep hlaid.window.plain
    rw [htemp]
    omega
  · left
    rw [hadd.free, hfree]
    rfl
  · have hpage : v.toNat / 4096 % 2 ^ 36 < 2 ^ 36 - 2 ^ 19 ∨
        2 ^ 36 - 2 ^ 19 + top.toNat / 4096 ≤ v.toNat / 4096 % 2 ^ 36 := by
      have := v.isLt
      rw [Heap.Spot, heapStart] at hv
      omega
    have hvideo : ¬ Same 4 0xFFFFFFFF800B8000 v := fun hsame => by
      have hp := Heap.same_page hsame
      change 0xFFFFFFFF800B8000 / 4096 % 2 ^ 36 = _ at hp
      omega
    rw [hadd.pages v (hv.plain hhigh) hvideo (hv.off_temp hhigh hwindow)]
    apply hlaid.page_none h hprep (hv.plain hhigh)
    omega
  · cases hv
  · cases hv

end Ready

end Prepared

theorem Regular.boot (h : Regular map physbase p) (hinit : pmapInit map physbase (p.setWidth 64) = some (top, st))
    (mem : BitVec 64 → BitVec 64) : ∃ s, initPging top (found (p.setWidth 64) top st mem) = some (.ok () s) ∧
      Heap.Sound (heapStart top) (tableAt top 3) ⟨s, [], []⟩ ∧
      (outside physbase top st).length ≤ s.pmap.avail + 3 ∧ s.pmap.entryCount = total (smapArr map) ∧
      ∀ k, (s.pmap.desc k).base = (st.listArr k).base := by
  have hprep := h.prepared hinit
  obtain ⟨hlow, hfits, haligned⟩ := hprep.below h
  have hbound := hprep.bound
  obtain ⟨_, _, s₀, hinit', htables, _⟩ := h.bootable.booted physbase mem
  rw [hinit, Option.some.injEq, Prod.mk.injEq] at hinit'
  obtain ⟨rfl, rfl⟩ := hinit'
  have hlaid := initTables_laid mem hbound hprep.count htables h.bootable.aligned (by omega) hfits
  obtain ⟨s, l, hrun, hadd, hsound⟩ := hprep.sound h hlaid
  refine ⟨s, ?_, hsound, ?_, ?_, fun k => ?_⟩
  · rw [initPging, htables]
    exact congrArg some hrun
  · rw [← hadd.ready.freelist.length_eq]
    exact hadd.few
  · rw [hadd.entryCount, hlaid.pmap]
    exact hprep.count
  · rw [hadd.base k, hlaid.pmap]
    rfl

theorem kheap_iff (h : Regular map physbase p) (hs : Left map physbase p mem s) (ops : List HeapOp)
    (hl : Meets Heap.step Heap.Legal ⟨s, [], []⟩ ops) :
    (Along Heap.step Heap.Apart ⟨s, [], []⟩ ops ∧ Meets Heap.step Heap.Fine ⟨s, [], []⟩ ops) ↔
      Meets Heap.step Heap.Clean ⟨s, [], []⟩ ops := by
  obtain ⟨top, st, hinit, hrun⟩ := hs
  obtain ⟨s', hs', hsound, _⟩ := h.boot hinit mem
  rw [hrun, Option.some.injEq, EStateM.Result.ok.injEq] at hs'
  exact (hs'.2 ▸ hsound).run_iff (heapStart_high (h.prepared hinit) h) hl

theorem regular_small : Regular smallMap 0x200000 0x220000 :=
  ⟨⟨by decide, by decide, by decide, by decide, by decide, by decide⟩, ⟨by decide, by decide⟩, ⟨⟨0, 0x9FC00, 1⟩, by decide⟩,
    by decide, by decide, by decide, by decide⟩

theorem churned_small : ∃ s t, Left smallMap 0x200000 0x220000 (fun _ => 0) s ∧
    Heap.Churned 0xFFFFFFFF802C6000 3076 t 0 ⟨s, [], []⟩ := by
  obtain ⟨top, st, _, hinit, _⟩ := regular_small.bootable.booted 0x200000 fun _ => 0
  have hprep := regular_small.prepared hinit
  obtain ⟨s, hrun, hsound, hroom, hcount, hbase⟩ := regular_small.boot hinit fun _ => 0
  have htotal : total (smapArr smallMap) = 32637 := by decide
  have hbound : top.toNat = 0x2C4000 := by
    rw [hprep.bound, htotal]
    rfl
  have hstart : heapStart top = 0xFFFFFFFF802C6000 := by
    rw [heapStart, hbound]
  rw [hstart] at hsound
  have hmap : smapArr smallMap = [⟨0, 0x9FC00, 1⟩] ++ ⟨0x100000, 0x7EE0000, 1⟩ :: [] := by decide
  -- the frames from 0x2C4000 on are free
  have hfree : List.range' 610 4000 ⊆ outside 0x200000 top st := by
    intro j hj
    obtain ⟨hge, hlt⟩ := List.mem_range'_1.mp hj
    obtain ⟨_, _, _, _, hat, _⟩ := hprep.page j (by omega)
    have hget := bases_getD hmap (k := j - 158) (by change _ < 32479; omega)
    rw [show total [⟨0, 0x9FC00, 1⟩] = 158 by decide, show 158 + (j - 158) = j by omega, hat] at hget
    have hnat := pageBase_toNat (r := ⟨0x100000, 0x7EE0000, 1⟩) (k := j - 158) (by omega) (by change 0x100000 + _ < _; omega)
    rw [← hget] at hnat
    change _ = 0x100000 + _ at hnat
    refine List.mem_filter.mpr ⟨List.mem_range.mpr (by rw [hprep.count]; omega), ?_⟩
    rw [decide_eq_false fun hx => absurd (BitVec.lt_def.mp hx.2) (by omega)]
    rfl
  have hmany := (List.subperm_of_subset List.nodup_range' hfree).length_le
  rw [List.length_range'] at hmany
  refine ⟨s, _, ⟨top, st, hinit, hrun⟩, hsound, rfl, rfl, fun k hk => ?_, fun _ => ?_, ?_⟩
  · have hlimit : ∀ r ∈ smapArr smallMap, r.limit ≤ 2 ^ 48 := by decide
    change k < s.pmap.entryCount at hk
    obtain ⟨r, hr, k', hk', _, hpage⟩ := hprep.page k (hcount ▸ hk)
    have hsize := size_le hr
    have hlim := hlimit r hr
    rw [Smap.limit] at hlim
    rw [hbase, hpage]
    omega
  · obtain ⟨l, hr⟩ := hsound.ready
    have hwindow := hsound.window
    have hnext : s.free = s.temp + 4096 := by
      apply BitVec.eq_of_toNat_eq
      have hlt := s.free.isLt
      have hspot : Heap.Spot 0xFFFFFFFF802C6000 0 s.free := hsound.next
      rw [BitVec.toNat_add]
      change _ = (_ + 4096) % _
      change s.temp.toNat + 4096 = _ at hwindow
      rw [hwindow]
      rcases hspot with he | he
      · omega
      · omega
    refine ⟨_, (table_same ?_).trans hr.window.table⟩
    change Same 3 s.free s.temp
    rw [hnext]
    change s.temp.toNat + 4096 = _ at hwindow
    apply Heap.same_three
    · omega
    · omega
  · change 3076 + 3 * _ ≤ s.pmap.avail + 3 * _
    omega

theorem kheap_small : Regular smallMap 0x200000 0x220000 ∧ ∃ s ops, Left smallMap 0x200000 0x220000 (fun _ => 0) s ∧
    Meets Heap.step Heap.Legal ⟨s, [], []⟩ ops ∧ ops.length = 6 ∧
    Along Heap.step Heap.Apart ⟨s, [], []⟩ ops ∧ Meets Heap.step Heap.Fine ⟨s, [], []⟩ ops := by
  obtain ⟨s, t, hleft, hc⟩ := churned_small
  obtain ⟨_, _, _, hlegal, hclean⟩ := hc.run (n := 3) ⟨by decide, by decide⟩ le_rfl (by decide)
  exact ⟨regular_small, s, _, hleft, hlegal, rfl, (kheap_iff regular_small hleft _ hlegal).mpr hclean⟩

/-- After 523578 pages taken and given back the next page is the null pointer, which `kfree` does not free. -/
theorem kmalloc_returns_null : ∃ s, Left smallMap 0x200000 0x220000 (fun _ => 0) s ∧
    Meets Heap.step Heap.Legal ⟨s, [], []⟩ (Heap.churn 0xFFFFFFFF802C6000 0 523578 ++ [.kmalloc, .kfree 0]) ∧
    ¬ (Along Heap.step Heap.Apart ⟨s, [], []⟩ (Heap.churn 0xFFFFFFFF802C6000 0 523578 ++ [.kmalloc, .kfree 0]) ∧
      Meets Heap.step Heap.Fine ⟨s, [], []⟩ (Heap.churn 0xFFFFFFFF802C6000 0 523578 ++ [.kmalloc, .kfree 0])) := by
  obtain ⟨s, t, hleft, hc⟩ := churned_small
  have hhigh : Heap.High 0xFFFFFFFF802C6000 := ⟨by decide, by decide⟩
  obtain ⟨h', hexec, hc', hlegal, _⟩ := hc.run (n := 523578) hhigh le_rfl (by decide)
  obtain ⟨hlast, hbad⟩ := hc'.wraps hhigh le_rfl (by decide)
  have hmeets := meets_append.mpr ⟨hlegal, fun a ha => Option.some.inj (hexec.symm.trans ha) ▸ hlast⟩
  refine ⟨s, hleft, hmeets, fun hgood => hbad ?_⟩
  exact (meets_append.mp ((hc.sound.run_iff hhigh hmeets).mp hgood)).2 h' hexec

end Boot

end Os506
