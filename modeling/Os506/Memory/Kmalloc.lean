import Os506.Memory.MapPage

namespace Os506

open Pging Mmu

open PMap (Physical)

namespace Phys

variable {s s' : Phys} {v w p f t paddr flags : BitVec 64} {l l' : List ℕ} {j : ℕ}

structure Adds (paddr v flags t : BitVec 64) (l l' : List ℕ) (s s' : Phys) : Prop extends Takes v t l l' s s' where
  cr3 : s'.cr3 = s.cr3
  window : s'.temp = s.temp
  leaf : ∃ g, table s'.mem s'.cr3 v 3 = some g ∧ s'.mem (slot g (shift 3) v) = paddr ||| flags
  log : ∃ a, s'.log = .wrote (paddr ||| flags) :: a ++ s.log ∧ s.Clean l a
  upper : ∀ w d, d ≤ 3 → Plain w → (table s'.mem s'.cr3 w d = none ↔ table s.mem s.cr3 w d = none ∧ ¬ Same d v w)
  kept : ∀ w d f, d ≤ 3 → Plain w → table s.mem s.cr3 w d = some f → table s'.mem s'.cr3 w d = some f
  pages : ∀ w, Plain w → ¬ Same 4 v w → ¬ Same 4 s.temp w → table s'.mem s'.cr3 w 4 = table s.mem s.cr3 w 4
  entries : ∀ w g, Plain w → ¬ Same 4 v w → ¬ Same 4 s.temp w → table s.mem s.cr3 w 3 = some g →
    table s'.mem s'.cr3 w 3 = some g ∧ s'.mem (slot g (shift 3) w) = s.mem (slot g (shift 3) w)
  data : ∀ f, Data s.mem s.cr3 f → (∀ k ∈ l, (s.pmap.desc k).base ≠ f) → Data s'.mem s'.cr3 f
  contents : ∀ f, Physical f → Data s.mem s.cr3 f → (∀ k ∈ l, (s.pmap.desc k).base ≠ f) →
    ∀ a, a.toNat / 4096 = f.toNat / 4096 → s'.mem a = s.mem a

theorem Evolves.entry {fs : List (BitVec 64)} {g : BitVec 64} (h : Evolves v t fs s s') (hr : s.Ready t l)
    (htree : Tree s'.mem s'.cr3) (hfs : ∀ f ∈ fs, ∃ j ∈ l, (s.pmap.desc j).base = f) (hv : Plain v) (hw : Plain w)
    (hne : ¬ Same 4 v w) (hne' : ¬ Same 4 s.temp w) (hg : table s.mem s.cr3 w 3 = some g) :
    s'.mem (slot g (shift 3) w) = s.mem (slot g (shift 3) w) := by
  have hphys := table_physical hr.tree hg
  apply h.mem
  · intro f hf hpage
    obtain ⟨j, hj, rfl⟩ := hfs f hf
    rw [(slot_page hphys _ w).1] at hpage
    exact hr.unused j hj w 3 (by decide) hw (physical_inj hphys (hr.physical j hj) hpage ▸ hg)
  · intro d hd g' hg' he
    obtain ⟨rfl, hs⟩ := htree.slot_inj le_rfl hd hw hv (h.kept w 3 g le_rfl hw hg) hg' he
    exact hne hs.symm
  · intro he
    exact hne' (hr.tree.slot_inj le_rfl le_rfl hw hr.window.plain hg hr.window.table he).2.symm

theorem Evolves.none_iff {fs : List (BitVec 64)} {g : BitVec 64} {d : ℕ} (h : Evolves v t fs s s') (hd : d ≤ 3)
    (hw : Plain w) (hg : table s'.mem s'.cr3 v 3 = some g) :
    table s'.mem s'.cr3 w d = none ↔ table s.mem s.cr3 w d = none ∧ ¬ Same d v w := by
  refine ⟨fun hnone => ⟨?_, fun hs => ?_⟩, fun hboth => ?_⟩
  · cases hf : table s.mem s.cr3 w d with
    | none => rfl
    | some f =>
      rw [h.kept w d f hd hw hf] at hnone
      cases hnone
  · obtain ⟨f, hf⟩ := table_some hg hd
    rw [← table_same hs, hf] at hnone
    cases hnone
  · cases hf : table s'.mem s'.cr3 w d with
    | none => rfl
    | some f =>
      rcases h.tables w d f hd hw hf with hold | hnew
      · rw [hold] at hboth
        cases hboth.1
      · exact absurd hnew.2 hboth.2

/-- A leaf for a frame that is not on the free list keeps `Ready`. -/
theorem Ready.leaf {g e : BitVec 64} {a : List PhysEvent} (hr : s.Ready t l) (hv : Plain v)
    (hg : table s.mem s.cr3 v 3 = some g) (he : ∀ k ∈ l, (s.pmap.desc k).base ≠ frame e) :
    Ready { s with mem := Function.update s.mem (slot g (shift 3) v) e, log := a } t l := by
  have hwin := hr.window
  refine ⟨hr.tree.update_leaf hv hg e, ⟨hwin.plain, hwin.canonical, hwin.aligned, ?_⟩, hr.distinct, hr.freelist, hr.physical,
    fun k hk w d hd hw ht => ?_⟩
  · exact (hr.tree.table_update le_rfl hv hg hwin.plain (by decide) (.inr le_rfl) e).trans hwin.table
  · by_cases hs : d = 4 ∧ Same 4 v w
    · obtain ⟨rfl, hs⟩ := hs
      rw [hr.tree.table_leaf hv hg hs e] at ht
      split at ht
      · exact he k hk (Option.some.inj ht).symm
      · cases ht
    · have hother : ¬ Same 4 v w ∨ d ≤ 3 := by
        by_cases hd4 : d = 4
        · exact .inl fun hs' => hs ⟨hd4, hs'⟩
        · exact .inr (by omega)
      exact hr.unused k hk w d hd hw ((hr.tree.table_update le_rfl hv hg hw hd hother e).symm.trans ht)

theorem mapPage_adds (hr : s.Ready t l) (hv : Plain v) (htemp : ¬ Same 4 s.temp v) (hp : Physical paddr)
    (hflags : UpperFlags flags) (hroom : Room v 0 l s) (hnone : table s.mem s.cr3 v 4 = none)
    (hfresh : ∀ k ∈ l, (s.pmap.desc k).base ≠ paddr) :
    ∃ s' l', mapPage paddr v flags s = .ok () s' ∧ Adds paddr v flags t l l' s s' := by
  obtain ⟨s₁, l₁, hs₁, he, hk⟩ := needTables_ok hr hv hflags.high hroom
  obtain ⟨g, hg⟩ := he.reached
  obtain ⟨fs, hev, hfs⟩ := he.evolves
  have htree := hk.ready.tree
  let s₂ : Phys := { s₁ with
    mem := Function.update s₁.mem (slot g (shift 3) v) (paddr ||| flags), log := .wrote (paddr ||| flags) :: s₁.log }
  have hrun : mapPage paddr v flags s = .ok () s₂ :=
    mapPage_stores hs₁ htree hv hg ((hev.pages v hv htemp).trans hnone) paddr
  have hupper : ∀ w d, d ≤ 3 → Plain w → table s₂.mem s₂.cr3 w d = table s₁.mem s₁.cr3 w d :=
    fun w d hd hw => htree.table_update le_rfl hv hg hw (by omega) (.inr hd) _
  have hother : ∀ w, Plain w → ¬ Same 4 v w → table s₂.mem s₂.cr3 w 4 = table s₁.mem s₁.cr3 w 4 :=
    fun w hw hne => htree.table_update le_rfl hv hg hw le_rfl (.inl hne) _
  have hfs' : ∀ f, (∀ k ∈ l, (s.pmap.desc k).base ≠ f) → ∀ k ∈ fs, Physical k ∧ k ≠ f := by
    intro f hf k hk
    obtain ⟨i, hi, rfl⟩ := hfs k hk
    exact ⟨hr.physical i hi, hf i hi⟩
  have hready : s₂.Ready t l₁ := hk.ready.leaf hv hg fun k hk' => by
    rw [(hflags.entry hp).2.1, hk.base]
    exact hfresh k (hk.rest.subset hk')
  refine ⟨s₂, l₁, hrun, { hk with
    ready := hready, temp := ?_, cr3 := hev.cr3, window := hev.temp
    leaf := ⟨g, ?_, Function.update_self ..⟩, log := ?_, upper := ?_
    kept := fun w d f hd hw hf => (hupper w d hd hw).trans (hev.kept w d f hd hw hf)
    pages := ?_, entries := ?_, data := ?_, contents := ?_ }⟩
  · intro hz
    have hne : ¬ Same 4 v s₁.temp := by
      rw [hev.temp]
      exact fun hs => htemp hs.symm
    exact (hother _ hk.ready.window.plain hne).trans (hk.temp hz)
  · exact (hupper v 3 le_rfl hv).trans hg
  · obtain ⟨a, ha, hclean⟩ := he.quiet
    exact ⟨a, congrArg (_ :: ·) ha, hclean⟩
  · intro w d hd hw
    rw [hupper w d hd hw]
    exact hev.none_iff hd hw hg
  · intro w hw hne hne'
    rw [hother w hw hne, hev.pages w hw hne']
  · intro w g' hw hne hne' hg'
    have hkept := hev.kept w 3 g' le_rfl hw hg'
    refine ⟨(hupper w 3 le_rfl hw).trans hkept, ?_⟩
    have hslot : slot g' (shift 3) w ≠ slot g (shift 3) v :=
      fun hs => hne (htree.slot_inj le_rfl le_rfl hw hv hkept hg hs).2.symm
    exact (Function.update_of_ne hslot _ _).trans (hev.entry hr htree hfs hv hw hne hne' hg')
  · intro f hdata hf w d hd hw ht
    rw [hupper w d hd hw] at ht
    exact hev.data hdata (fun hin => (hfs' f hf f hin).2 rfl) w d hd hw ht
  · intro f hphys hdata hf a ha
    have hdata₁ := hev.data hdata fun hin => (hfs' f hf f hin).2 rfl
    have hslot := ne_slot_of_page (n := shift 3) (v := v) hphys (table_physical htree hg)
      (fun heq => hdata₁ v 3 le_rfl hv (heq ▸ hg)) ha
    exact (Function.update_of_ne hslot _ _).trans (hev.contents hr.tree htree hv hr.window hphys hdata (hfs' f hf) ha)

theorem Adds.clean {s₀ : Phys} {l₀ : List ℕ} {a₀ : List PhysEvent} (h : Adds paddr v flags t l l' s s')
    (hflags : UpperFlags flags) (hp : Physical paddr) (hlog : s.log = a₀ ++ s₀.log) (ha₀ : s₀.Clean l₀ a₀)
    (htook : .took paddr ∈ a₀) (hsub : l ⊆ l₀) (hbase : ∀ k, (s.pmap.desc k).base = (s₀.pmap.desc k).base) :
    ∃ a, s'.log = a ++ s₀.log ∧ s₀.Clean l₀ a ∧ .took paddr ∈ a := by
  obtain ⟨a, hlog', ha⟩ := h.log
  have hleaf := (ha₀.append ha hsub hbase).wrote (e := paddr ||| flags) fun _ => by
    rw [(hflags.entry hp).2.1]
    exact List.mem_append_right _ htook
  refine ⟨_, ?_, hleaf, List.mem_cons_of_mem _ (List.mem_append_right _ htook)⟩
  rw [hlog', hlog]
  simp only [List.cons_append, List.append_assoc]

structure Backed (s : Phys) (p f : BitVec 64) : Prop where
  entry : ∃ g, table s.mem s.cr3 p 3 = some g ∧ s.mem (slot g (shift 3) p) = f ||| (pageP ||| pageRW)
  physical : Physical f
  data : Data s.mem s.cr3 f
  only : ∀ w, Plain w → table s.mem s.cr3 w 4 = some f → Same 4 p w
  desc : ∃ j < s.pmap.entryCount, (s.pmap.desc j).base = f ∧ (s.pmap.desc j).mapCount = 1

theorem Backed.page (h : Backed s p f) : table s.mem s.cr3 p 4 = some f := by
  obtain ⟨g, hg, he⟩ := h.entry
  obtain ⟨hpresent, hframe, _⟩ := upper_pageRW.entry h.physical
  rw [table_succ hg, he, if_pos hpresent, hframe]

theorem Backed.keep (h : Backed s p f)
    (hentry : ∀ g, table s.mem s.cr3 p 3 = some g →
      table s'.mem s'.cr3 p 3 = some g ∧ s'.mem (slot g (shift 3) p) = s.mem (slot g (shift 3) p))
    (hdata : Data s'.mem s'.cr3 f)
    (honly : ∀ w, Plain w → table s'.mem s'.cr3 w 4 = some f → table s.mem s.cr3 w 4 = some f)
    (hcount : s'.pmap.entryCount = s.pmap.entryCount)
    (hdesc : ∀ k, (s.pmap.desc k).base = f → (s.pmap.desc k).mapCount = 1 → s'.pmap.desc k = s.pmap.desc k) :
    Backed s' p f := by
  obtain ⟨g, hg, he⟩ := h.entry
  obtain ⟨k, hk, hbase, hone⟩ := h.desc
  refine ⟨⟨g, (hentry g hg).1, (hentry g hg).2.trans he⟩, h.physical, hdata, fun w hw ht => h.only w hw (honly w hw ht), k,
    hcount.symm ▸ hk, ?_⟩
  rw [hdesc k hbase hone]
  exact ⟨hbase, hone⟩

theorem Backed.unused_ne (h : Backed s p f) (hp : Plain p) {e : BitVec 64} (he : s.Unused e) : e ≠ f := by
  rintro rfl
  exact he p 4 le_rfl hp h.page

structure Popped (j : ℕ) (l : List ℕ) (s s' : Phys) : Prop where
  log : s'.log = .took (s.pmap.desc j).base :: s.log
  mem : s'.mem = s.mem
  cr3 : s'.cr3 = s.cr3
  temp : s'.temp = s.temp
  free : s'.free = s.free
  initPml4 : s'.initPml4 = s.initPml4
  taken : s.pmap.getFreePage = (.ok (s.pmap.desc j).base, s'.pmap)
  freelist : s'.pmap.Free l
  touches : s.pmap.Touches j s'.pmap
  count : (s'.pmap.desc j).mapCount = 1

theorem getFreePage_popped (h : s.pmap.Free (j :: l)) :
    ∃ s', getFreePage s = .ok (s.pmap.desc j).base s' ∧ Popped j l s s' := by
  obtain ⟨p, hget, hfree, htouch, hcount⟩ := PMap.getFreePage_cons h
  exact ⟨{ s with pmap := p, log := .took (s.pmap.desc j).base :: s.log }, by rw [getFreePage, hget], rfl, rfl, rfl,
    rfl, rfl, rfl,
    hget, hfree, htouch, hcount⟩

theorem Popped.ready (h : Popped j l s s') (hr : s.Ready t (j :: l)) : s'.Ready t l := by
  refine ⟨by rw [h.mem, h.cr3]; exact hr.tree, ⟨?_, ?_, ?_, ?_⟩, h.touches.distinct hr.distinct, h.freelist, fun k hk => ?_,
    fun k hk w d hd hw => ?_⟩
  · rw [h.temp]; exact hr.window.plain
  · rw [h.temp]; exact hr.window.canonical
  · rw [h.temp]; exact hr.window.aligned
  · rw [h.mem, h.cr3, h.temp]; exact hr.window.table
  · rw [h.touches.base]; exact hr.physical k (List.mem_cons_of_mem j hk)
  · rw [h.touches.base, h.mem, h.cr3]; exact hr.unused k (List.mem_cons_of_mem j hk) w d hd hw

/-- `kmalloc` after `get_free_page`: the test for a failure never holds. -/
theorem kmalloc_eq {s₁ : Phys} (h : getFreePage s = .ok paddr s₁) :
    kmalloc s = (mapPage paddr s₁.free (pageP ||| pageRW) >>= fun _ => do
      let vaddr := (← get).free
      let _ ← load (getPhys vaddr)
      modify fun s => { s with free := s.free + 4096 }
      clearPage vaddr
      return vaddr) s₁ := by
  have hsign : ¬ paddr < 0 := BitVec.not_lt_zero
  rw [kmalloc, bind_ok h, if_neg hsign]
  rfl

theorem kmalloc_maps (hr : s.Ready t (j :: l)) (hv : Plain s.free) (htemp : ¬ Same 4 s.temp s.free)
    (hnone : table s.mem s.cr3 s.free 4 = none) (hroom : Room s.free 0 l s) :
    ∃ s₁ s₂ l', Popped j l s s₁ ∧ Adds (s.pmap.desc j).base s.free (pageP ||| pageRW) t l l' s₁ s₂ ∧
      kmalloc s = (clearPage s.free >>= fun _ => pure s.free) { s₂ with free := s.free + 4096 } := by
  obtain ⟨s₁, hs₁, hpop⟩ := getFreePage_popped hr.freelist
  have hr₁ := hpop.ready hr
  have hphys := hr.physical j List.mem_cons_self
  have hfresh : ∀ k ∈ l, (s₁.pmap.desc k).base ≠ (s.pmap.desc j).base := fun k hk => by
    rw [hpop.touches.base]
    exact hr.base_ne hk
  have hroom₁ : Room s.free 0 l s₁ := fun k hk hk3 hn => hroom k hk hk3 (by rw [← hpop.mem, ← hpop.cr3]; exact hn)
  have hnone₁ : table s₁.mem s₁.cr3 s.free 4 = none := by
    rw [hpop.mem, hpop.cr3]
    exact hnone
  have htemp₁ : ¬ Same 4 s₁.temp s.free := by
    rw [hpop.temp]
    exact htemp
  obtain ⟨s₂, l', hs₂, hadd⟩ := mapPage_adds hr₁ hv htemp₁ hphys upper_pageRW hroom₁ hnone₁ hfresh
  refine ⟨s₁, s₂, l', hpop, hadd, ?_⟩
  obtain ⟨g, hg, _⟩ := hadd.leaf
  have hfree : s₂.free = s.free := hadd.free.trans hpop.free
  have hget : ∀ s : Phys, (get : Act Phys) s = .ok s s := fun _ => rfl
  rw [kmalloc_eq hs₁, hpop.free, bind_ok hs₂, bind_ok (hget s₂), hfree]
  refine (bind_ok (load_ok (hadd.ready.tree.reach_ref (d := 3) hv le_rfl hg))).trans ?_
  have hmove : (modify fun s : Phys => { s with free := s.free + 4096 } : Act Unit) s₂ =
      .ok () { s₂ with free := s.free + 4096 } := by
    rw [← hfree]
    rfl
  exact bind_ok hmove

theorem Ready.wipe (hr : s.Ready t l) (hf : Physical f) (hdata : Data s.mem s.cr3 f) (x : BitVec 64) :
    Ready { s with free := x, mem := Mmu.wipe f s.mem } t l ∧
      (∀ w n, n ≤ 4 → Plain w → table (Mmu.wipe f s.mem) s.cr3 w n = table s.mem s.cr3 w n) ∧
      ∀ w e, Plain w → table s.mem s.cr3 w 3 = some e →
        Mmu.wipe f s.mem (slot e (shift 3) w) = s.mem (slot e (shift 3) w) := by
  have hoff := wipe_agree f s.mem
  have htable : ∀ w n, n ≤ 4 → Plain w → table (Mmu.wipe f s.mem) s.cr3 w n = table s.mem s.cr3 w n :=
    fun w n hn hw => hr.tree.table_off hf hdata hoff hw hn
  have hwin := hr.window
  refine ⟨⟨hr.tree.off hf hdata hoff, ⟨hwin.plain, hwin.canonical, hwin.aligned, ?_⟩, hr.distinct, hr.freelist, hr.physical,
    fun k hk w d hd hw => ?_⟩, htable, fun w e hw he => ?_⟩
  · exact (htable _ 3 (by decide) hwin.plain).trans hwin.table
  · exact (htable w d hd hw).symm ▸ hr.unused k hk w d hd hw
  · apply AgreeOff.slot hf hoff (table_physical hr.tree he)
    rintro rfl
    exact hdata w 3 le_rfl hw he

structure Allocates (t : BitVec 64) (j : ℕ) (l l' : List ℕ) (s s' : Phys) : Prop where
  ready : s'.Ready t l'
  few : l.length ≤ l'.length + 3
  idle : (∃ g, table s.mem s.cr3 s.free 3 = some g) → l' = l
  temp : table s'.mem s'.cr3 s'.temp 4 = none
  cr3 : s'.cr3 = s.cr3
  window : s'.temp = s.temp
  free : s'.free = s.free + 4096
  backed : Backed s' s.free (s.pmap.desc j).base
  zero : ∀ a, a.toNat / 4096 = (s.pmap.desc j).base.toNat / 4096 → a.toNat % 8 = 0 → s'.mem a = 0
  pages : ∀ w, Plain w → ¬ Same 4 s.free w → ¬ Same 4 s.temp w → table s'.mem s'.cr3 w 4 = table s.mem s.cr3 w 4
  keeps : ∀ p f, Plain p → ¬ Same 4 s.free p → ¬ Same 4 s.temp p → Backed s p f →
    Backed s' p f ∧ ∀ a, a.toNat / 4096 = f.toNat / 4096 → s'.mem a = s.mem a
  base : ∀ k, (s'.pmap.desc k).base = (s.pmap.desc k).base
  entryCount : s'.pmap.entryCount = s.pmap.entryCount

section Allocate

variable {s₁ s₂ : Phys} (hr : s.Ready t (j :: l)) (hztemp : table s.mem s.cr3 s.temp 4 = none)
  (hpop : Popped j l s s₁) (hadd : Adds (s.pmap.desc j).base s.free (pageP ||| pageRW) t l l' s₁ s₂)

include hpop hadd

theorem Adds.pages_pop (hw : Plain w) (hne : ¬ Same 4 s.free w) (hne' : ¬ Same 4 s.temp w) :
    table s₂.mem s₂.cr3 w 4 = table s.mem s.cr3 w 4 := by
  rw [hadd.pages w hw hne (by rw [hpop.temp]; exact hne'), hpop.mem, hpop.cr3]

include hr

theorem Adds.data_pop : Data s₂.mem s₂.cr3 (s.pmap.desc j).base := by
  apply hadd.data
  · intro w d hd hw
    rw [hpop.mem, hpop.cr3]
    exact hr.unused j List.mem_cons_self w d (by omega) hw
  · intro k hk
    rw [hpop.touches.base]
    exact hr.base_ne hk

omit hpop in
theorem Adds.page_pop : table s₂.mem s₂.cr3 s.free 4 = some (s.pmap.desc j).base := by
  obtain ⟨g, hg, hentry⟩ := hadd.leaf
  obtain ⟨hpresent, hframe, _⟩ := upper_pageRW.entry (hr.physical j List.mem_cons_self)
  rw [table_succ hg, hentry, if_pos hpresent, hframe]

include hztemp

theorem Adds.page_cases {e : BitVec 64} (hw : Plain w) (ht : table s₂.mem s₂.cr3 w 4 = some e) :
    Same 4 s.free w ∧ e = (s.pmap.desc j).base ∨ table s.mem s.cr3 w 4 = some e := by
  by_cases hs : Same 4 s.free w
  · rw [← table_same hs, hadd.page_pop hr] at ht
    exact .inl ⟨hs, (Option.some.inj ht).symm⟩
  · by_cases hs' : Same 4 s.temp w
    · have hnone : table s₂.mem s₂.cr3 s₂.temp 4 = none :=
        hadd.temp (by rw [hpop.mem, hpop.cr3, hpop.temp]; exact hztemp)
      rw [hadd.window, hpop.temp, table_same hs', ht] at hnone
      cases hnone
    · exact .inr (hadd.pages_pop hpop hw hs hs' ▸ ht)

theorem Adds.backed : Backed s₂ s.free (s.pmap.desc j).base := by
  have hjl : j ∉ l := (List.nodup_cons.mp (Linked.chain_nodup hr.freelist.chain)).1
  refine ⟨hadd.leaf, hr.physical j List.mem_cons_self, hadd.data_pop hr hpop, fun w hw ht => ?_, j, ?_, ?_, ?_⟩
  · rcases hadd.page_cases hr hztemp hpop hw ht with ⟨hs, _⟩ | hold
    · exact hs
    · exact absurd hold (hr.unused j List.mem_cons_self w 4 le_rfl hw)
  · rw [hadd.entryCount, hpop.touches.entryCount]
    exact ((hr.freelist.mem j).mp List.mem_cons_self).1
  · rw [hadd.base, hpop.touches.base]
  · rw [hadd.held j hjl]
    exact hpop.count

theorem Adds.keeps (hp : Plain p) (hne : ¬ Same 4 s.free p) (hne' : ¬ Same 4 s.temp p) (hb : Backed s p f) :
    Backed s₂ p f ∧ ∀ a, a.toNat / 4096 = f.toNat / 4096 → s₂.mem a = s.mem a := by
  have hfree : ∀ k ∈ j :: l, (s.pmap.desc k).base ≠ f := fun k hk => hb.unused_ne hp (hr.unused k hk)
  have hdata : Data s₁.mem s₁.cr3 f := by
    rw [hpop.mem, hpop.cr3]
    exact hb.data
  have hrest : ∀ k ∈ l, (s₁.pmap.desc k).base ≠ f := fun k hk => by
    rw [hpop.touches.base]
    exact hfree k (List.mem_cons_of_mem j hk)
  refine ⟨hb.keep (fun g hg => ?_) (hadd.data f hdata hrest) (fun w hw ht => ?_) ?_ (fun k hk hone => ?_), fun a ha => ?_⟩
  · rw [← hpop.mem]
    exact hadd.entries p g hp hne (by rw [hpop.temp]; exact hne') (by rw [hpop.mem, hpop.cr3]; exact hg)
  · exact (hadd.page_cases hr hztemp hpop hw ht).resolve_left fun hx => hfree j List.mem_cons_self hx.2.symm
  · exact hadd.entryCount.trans hpop.touches.entryCount
  · have hkj : k ≠ j := fun he => hfree j List.mem_cons_self (he ▸ hk)
    have hkl : k ∉ l := fun hin => hfree k (List.mem_cons_of_mem j hin) hk
    exact (hadd.held k hkl).trans (hpop.touches.other k hkj)
  · rw [hadd.contents f hb.physical hdata hrest a ha, hpop.mem]

end Allocate

theorem kmalloc_ok (hr : s.Ready t (j :: l)) (hv : Plain s.free) (hc : canonical s.free = true) (ha : s.free &&& 0xFFF = 0)
    (htemp : ¬ Same 4 s.temp s.free) (hnone : table s.mem s.cr3 s.free 4 = none)
    (hztemp : table s.mem s.cr3 s.temp 4 = none) (hroom : Room s.free 0 l s) :
    ∃ s' l', kmalloc s = .ok s.free s' ∧ Allocates t j l l' s s' := by
  obtain ⟨s₁, s₂, l', hpop, hadd, hrun⟩ := kmalloc_maps hr hv htemp hnone hroom
  have hphys := hr.physical j List.mem_cons_self
  have hdata := hadd.data_pop hr hpop
  have htree := hadd.ready.tree
  obtain ⟨hready, htable, hentry⟩ := hadd.ready.wipe hphys hdata (s.free + 4096)
  let s₃ : Phys := { s₂ with free := s.free + 4096, mem := Mmu.wipe (s.pmap.desc j).base s₂.mem }
  have hclear : clearPage s.free { s₂ with free := s.free + 4096 } = .ok () s₃ := by
    apply clearPage_ok hphys
    intro mem' hmem' k hk
    obtain ⟨g, hg, hentry⟩ := hadd.leaf
    obtain ⟨hpresent, hframe, hlarge⟩ := upper_pageRW.entry hphys
    exact htree.reach_off hphys hdata hmem' hv hc ha hk hg (hentry ▸ ⟨hpresent, hlarge⟩) (hentry ▸ hframe)
  have hkeep : ∀ p f, Backed s₂ p f → Plain p → Backed s₃ p f := fun p f hb hp =>
    hb.keep (fun g hg => ⟨(htable p 3 (by decide) hp).trans hg, hentry p g hp hg⟩)
      (fun w d hd hw => (htable w d (by omega) hw).symm ▸ hb.data w d hd hw)
      (fun w hw ht => (htable w 4 le_rfl hw).symm.trans ht) rfl fun _ _ _ => rfl
  refine ⟨s₃, l', ?_, hready, hadd.few, fun hex => hadd.idle ?_, ?_, hadd.cr3.trans hpop.cr3, hadd.window.trans hpop.temp, rfl,
    hkeep _ _ (hadd.backed hr hztemp hpop) hv, fun a hpage hword => if_pos ⟨hpage, hword⟩, fun w hw hne hne' => ?_,
    fun p f hp hne hne' hb => ?_, fun k => (hadd.base k).trans (hpop.touches.base k),
    hadd.entryCount.trans hpop.touches.entryCount⟩
  · rw [hrun]
    exact bind_ok hclear
  · rw [hpop.mem, hpop.cr3]
    exact hex
  · refine (htable _ 4 le_rfl hadd.ready.window.plain).trans (hadd.temp ?_)
    rw [hpop.mem, hpop.cr3, hpop.temp]
    exact hztemp
  · exact (htable w 4 le_rfl hw).trans (hadd.pages_pop hpop hw hne hne')
  · obtain ⟨hb', hsame⟩ := hadd.keeps hr hztemp hpop hp hne hne' hb
    refine ⟨hkeep p f hb' hp, fun a hpage => (if_neg fun hx => ?_).trans (hsame a hpage)⟩
    have hne : (s.pmap.desc j).base ≠ f := hb.unused_ne hp (hr.unused j List.mem_cons_self)
    exact hne (physical_inj hphys hb.physical (hx.1.symm.trans hpage))

theorem kmalloc_faults (hr : s.Ready t (j :: l)) (hv : Plain s.free) (hc : canonical s.free = false)
    (htemp : ¬ Same 4 s.temp s.free) (hnone : table s.mem s.cr3 s.free 4 = none) (hroom : Room s.free 0 l s) :
    ∃ s', kmalloc s = .error .fault s' := by
  obtain ⟨s₁, s₂, l', hpop, hadd, hrun⟩ := kmalloc_maps hr hv htemp hnone hroom
  let s₃ : Phys := { s₂ with free := s.free + 4096 }
  have hwalk : walk s₃.mem s₃.cr3 s.free = none := by
    rw [hadd.ready.tree.walk_eq hv, hc]
    rfl
  have hreach : reach s₃.mem s₃.cr3 s.free = none := by rw [reach, hwalk, ite_self]
  refine ⟨s₃, ?_⟩
  rw [hrun]
  change EStateM.bind _ _ s₃ = _
  rw [EStateM.bind, clearPage_faults hreach]

end Phys

end Os506
