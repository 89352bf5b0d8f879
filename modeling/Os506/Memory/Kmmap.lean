import Os506.Memory.Freelist
import Os506.Memory.Kmalloc

namespace Os506

open Pging Mmu

open PMap (Physical)

namespace Phys

variable {s s₁ s' : Phys} {v w f t paddr flags : BitVec 64} {l l' : List ℕ} {j n : ℕ}

structure Zeroed (f t : BitVec 64) (l : List ℕ) (s s' : Phys) : Prop where
  ready : s'.Ready t l
  log : s'.log = .wrote 0 :: .wrote (f ||| pageP ||| pageRW) :: s.log
  cr3 : s'.cr3 = s.cr3
  temp : s'.temp = s.temp
  free : s'.free = s.free
  initPml4 : s'.initPml4 = s.initPml4
  pmap : s'.pmap = s.pmap
  tables : ∀ w d, d ≤ 3 → Plain w → table s'.mem s'.cr3 w d = table s.mem s.cr3 w d
  pages : ∀ w, Plain w → ¬ Same 4 s.temp w → table s'.mem s'.cr3 w 4 = table s.mem s.cr3 w 4
  window : ∀ w, Same 4 s.temp w → table s'.mem s'.cr3 w 4 = none
  entries : ∀ w d, d ≤ 3 → Plain w → ¬ Same 4 s.temp w → s'.entry w d = s.entry w d
  zero : ∀ a, a.toNat / 4096 = f.toNat / 4096 → a.toNat % 8 = 0 → s'.mem a = 0
  contents : ∀ g, Physical g → Data s.mem s.cr3 g → g ≠ f → ∀ a, a.toNat / 4096 = g.toNat / 4096 → s'.mem a = s.mem a

theorem zeroPage_zeroed (hr : s.Ready t l) (hf : Physical f) (hunused : s.Unused f) :
    ∃ s', zeroPage f s = .ok () s' ∧ Zeroed f t l s s' := by
  have hwin := hr.window
  have hdata : Data s.mem s.cr3 f := fun w d hd hw => hunused w d (by omega) hw
  obtain ⟨htree, htables, hpages, htemp⟩ := cleared hr.tree hwin.plain hwin.table hf hunused 0
  have hnone : ∀ w, Same 4 s.temp w → table (Function.update (wipe f s.mem) (slot t (shift 3) s.temp) 0) s.cr3 w 4 = none :=
    fun w hs => (htemp w hs).trans (if_neg (by decide))
  refine ⟨_, zeroPage_ok hr.tree hwin hf hdata, ⟨htree, ⟨hwin.plain, hwin.canonical, hwin.aligned, ?_⟩, hr.distinct,
    hr.freelist, hr.physical, fun k hk w d hd hw => ?_⟩, rfl, rfl, rfl, rfl, rfl, rfl, htables, hpages, hnone,
    fun w d hd hw hne => ?_, fun a hpage hword => ?_, fun g hg hgd hne a hpage => ?_⟩
  · exact (htables _ 3 le_rfl hwin.plain).trans hwin.table
  · exact cleared_unused hr.tree hwin.plain hwin.table hf hunused (hr.unused k hk) hd hw
  · rw [entry, entry, htables w d hd hw]
    cases hg : table s.mem s.cr3 w d with
    | none => rfl
    | some g =>
      have hslot : slot g (shift d) w ≠ slot t (shift 3) s.temp := fun he => by
        obtain ⟨rfl, hs⟩ := hr.tree.slot_inj hd le_rfl hw hwin.plain hg hwin.table he
        exact hne hs.symm
      have hgf : g ≠ f := by
        rintro rfl
        exact hdata w d hd hw hg
      exact (Function.update_of_ne hslot _ _).trans
        (AgreeOff.slot hf (wipe_agree f s.mem) (table_physical hr.tree hg) hgf _ w)
  · dsimp only
    by_cases ha : a = slot t (shift 3) s.temp
    · rw [ha, Function.update_self]
    · rw [Function.update_of_ne ha]
      exact if_pos ⟨hpage, hword⟩
  · have hslot := ne_slot_of_page (n := shift 3) (v := s.temp) hg (table_physical hr.tree hwin.table)
      (fun he => hgd _ 3 le_rfl hwin.plain (he ▸ hwin.table)) hpage
    dsimp only
    rw [Function.update_of_ne hslot]
    exact if_neg fun hx => hne (physical_inj hg hf (hpage.symm.trans hx.1))

/-- What mapping the pages of `vs` does, each with a frame of zeros unless it is there. -/
structure Fills (vs : List (BitVec 64)) (t : BitVec 64) (l l' : List ℕ) (s s' : Phys) : Prop where
  ready : s'.Ready t l'
  cr3 : s'.cr3 = s.cr3
  temp : s'.temp = s.temp
  rest : l' ⊆ l
  quiet : Quiet l s s'
  few : l.length ≤ l'.length + 4 * vs.length
  base : ∀ k, (s'.pmap.desc k).base = (s.pmap.desc k).base
  window : table s'.mem s'.cr3 s'.temp 4 = none
  kept : ∀ w f, Plain w → table s.mem s.cr3 w 4 = some f → table s'.mem s'.cr3 w 4 = some f ∧
    (Data s.mem s.cr3 f → Data s'.mem s'.cr3 f ∧ ∀ a, a.toNat / 4096 = f.toNat / 4096 → s'.mem a = s.mem a)
  new : ∀ w, Plain w → table s.mem s.cr3 w 4 = none → (∃ v ∈ vs, Same 4 v w) →
    ∃ k ∈ l, table s'.mem s'.cr3 w 4 = some (s.pmap.desc k).base ∧ Data s'.mem s'.cr3 (s.pmap.desc k).base ∧
      ∀ a, a.toNat / 4096 = (s.pmap.desc k).base.toNat / 4096 → a.toNat % 8 = 0 → s'.mem a = 0
  old : ∀ w, Plain w → table s.mem s.cr3 w 4 = none → (∀ v ∈ vs, ¬ Same 4 v w) → table s'.mem s'.cr3 w 4 = none
  apart : ∀ w w' f, Plain w → Plain w' → table s.mem s.cr3 w 4 = none → table s.mem s.cr3 w' 4 = none →
    table s'.mem s'.cr3 w 4 = some f → table s'.mem s'.cr3 w' 4 = some f → Same 4 w w'

theorem Fills.refl (hr : s.Ready t l) (hz : table s.mem s.cr3 s.temp 4 = none) : Fills [] t l l s s := by
  refine ⟨hr, rfl, rfl, List.Subset.refl l, .refl l s, Nat.le_refl _, fun _ => rfl, hz,
    fun w f _ h => ⟨h, fun hd => ⟨hd, fun _ _ => rfl⟩⟩,
    fun w _ _ hex => ?_, fun w _ h _ => h, fun w w' f _ _ h _ h' => ?_⟩
  · obtain ⟨v, hv, _⟩ := hex
    cases hv
  · rw [h] at h'
    cases h'

theorem Fills.none_iff {vs : List (BitVec 64)} (h : Fills vs t l l' s s') (hw : Plain w) :
    table s'.mem s'.cr3 w 4 = none ↔ table s.mem s.cr3 w 4 = none ∧ ∀ v ∈ vs, ¬ Same 4 v w := by
  refine ⟨fun hnone => ?_, fun hold => h.old w hw hold.1 hold.2⟩
  have hgone : table s.mem s.cr3 w 4 = none := by
    by_contra hne
    obtain ⟨f, hf⟩ := Option.ne_none_iff_exists'.mp hne
    rw [(h.kept w f hw hf).1] at hnone
    cases hnone
  refine ⟨hgone, fun v hv hs => ?_⟩
  obtain ⟨k, _, hk, _⟩ := h.new w hw hgone ⟨v, hv, hs⟩
  rw [hk] at hnone
  cases hnone

theorem Fills.trans {vs vs' : List (BitVec 64)} {l₁ : List ℕ} (h : Fills vs t l l₁ s s₁) (h' : Fills vs' t l₁ l' s₁ s') :
    Fills (vs ++ vs') t l l' s s' := by
  have hold : ∀ w, Plain w → table s.mem s.cr3 w 4 = none → ∀ f, table s₁.mem s₁.cr3 w 4 = some f →
      table s'.mem s'.cr3 w 4 = some f := fun w hw _ f hf => (h'.kept w f hw hf).1
  refine ⟨h'.ready, h'.cr3.trans h.cr3, h'.temp.trans h.temp, fun k hk => h.rest (h'.rest hk),
    h.quiet.trans h'.quiet h.rest h.base, ?_, fun k => (h'.base k).trans (h.base k), h'.window,
    fun w f hw hf => ?_, fun w hw hnone hex => ?_, fun w hw hnone hall => ?_, fun w w' f hw hw' hn hn' hf hf' => ?_⟩
  · have h₁ := h.few
    have h₂ := h'.few
    rw [List.length_append]
    omega
  · obtain ⟨h₁, hd₁⟩ := h.kept w f hw hf
    obtain ⟨h₂, hd₂⟩ := h'.kept w f hw h₁
    refine ⟨h₂, fun hd => ?_⟩
    obtain ⟨hdata, hsame⟩ := hd₁ hd
    obtain ⟨hdata', hsame'⟩ := hd₂ hdata
    exact ⟨hdata', fun a ha => (hsame' a ha).trans (hsame a ha)⟩
  · by_cases hfirst : ∃ v ∈ vs, Same 4 v w
    · obtain ⟨k, hk, hpage, hdata, hzero⟩ := h.new w hw hnone hfirst
      obtain ⟨hpage', hrest⟩ := h'.kept w _ hw hpage
      obtain ⟨hdata', hsame⟩ := hrest hdata
      exact ⟨k, hk, hpage', hdata', fun a ha hword => (hsame a ha).trans (hzero a ha hword)⟩
    · have hnone₁ := h.old w hw hnone fun v hv hs => hfirst ⟨v, hv, hs⟩
      obtain ⟨v, hv, hs⟩ := hex
      have hsecond : v ∈ vs' := (List.mem_append.mp hv).resolve_left fun hin => hfirst ⟨v, hin, hs⟩
      obtain ⟨k, hk, hpage⟩ := h'.new w hw hnone₁ ⟨v, hsecond, hs⟩
      rw [h.base] at hpage
      exact ⟨k, h.rest hk, hpage⟩
  · apply h'.old w hw (h.old w hw hnone fun v hv => hall v (List.mem_append_left _ hv))
    exact fun v hv => hall v (List.mem_append_right _ hv)
  · -- a frame that the second part takes is not in use after the first
    have hlate : ∀ u, Plain u → table s₁.mem s₁.cr3 u 4 = none → table s'.mem s'.cr3 u 4 = some f → s₁.Unused f := by
      intro u hu hu₁ hu'
      by_cases hex : ∃ v ∈ vs', Same 4 v u
      · obtain ⟨k, hk, hpage, _⟩ := h'.new u hu hu₁ hex
        rw [hu'] at hpage
        rw [Option.some.inj hpage]
        exact h.ready.unused k hk
      · rw [h'.old u hu hu₁ fun v hv hs => hex ⟨v, hv, hs⟩] at hu'
        cases hu'
    cases hw₁ : table s₁.mem s₁.cr3 w 4 with
    | none =>
      cases hw₁' : table s₁.mem s₁.cr3 w' 4 with
      | none => exact h'.apart w w' f hw hw' hw₁ hw₁' hf hf'
      | some g =>
        obtain rfl : g = f := Option.some.inj ((hold w' hw' hn' g hw₁').symm.trans hf')
        exact absurd hw₁' (hlate w hw hw₁ hf w' 4 le_rfl hw')
    | some g =>
      obtain rfl : g = f := Option.some.inj ((hold w hw hn g hw₁).symm.trans hf)
      cases hw₁' : table s₁.mem s₁.cr3 w' 4 with
      | none => exact absurd hw₁ (hlate w' hw' hw₁' hf' w 4 le_rfl hw)
      | some g' =>
        obtain rfl : g' = g := Option.some.inj ((hold w' hw' hn' g' hw₁').symm.trans hf')
        exact h.apart w w' _ hw hw' hn hn' hw₁ hw₁'

theorem Zeroed.unused {g : BitVec 64} (h : Zeroed f t l s s') (hg : s.Unused g) : s'.Unused g := by
  intro w d hd hw
  rcases Nat.lt_or_eq_of_le hd with hlt | rfl
  · rw [h.tables w d (by omega) hw]
    exact hg w d hd hw
  · by_cases hs : Same 4 s.temp w
    · rw [h.window w hs]
      exact fun he => by cases he
    · rw [h.pages w hw hs]
      exact hg w 4 le_rfl hw

structure Supplies (t : BitVec 64) (j : ℕ) (l : List ℕ) (s s' : Phys) : Prop where
  ready : s'.Ready t l
  cr3 : s'.cr3 = s.cr3
  temp : s'.temp = s.temp
  free : s'.free = s.free
  initPml4 : s'.initPml4 = s.initPml4
  touches : s.pmap.Touches j s'.pmap
  count : (s'.pmap.desc j).mapCount = 1
  log : s'.log = [.wrote 0, .wrote ((s.pmap.desc j).base ||| pageP ||| pageRW), .took (s.pmap.desc j).base] ++ s.log
  unused : s'.Unused (s.pmap.desc j).base
  tables : ∀ w d, d ≤ 3 → Plain w → table s'.mem s'.cr3 w d = table s.mem s.cr3 w d
  pages : ∀ w, Plain w → table s'.mem s'.cr3 w 4 = table s.mem s.cr3 w 4
  entries : ∀ w d, d ≤ 3 → Plain w → ¬ Same 4 s.temp w → s'.entry w d = s.entry w d
  taken : s.pmap.getFreePage = (.ok (s.pmap.desc j).base, s'.pmap)
  data : ∀ g, Data s.mem s.cr3 g → Data s'.mem s'.cr3 g
  zero : ∀ a, a.toNat / 4096 = (s.pmap.desc j).base.toNat / 4096 → a.toNat % 8 = 0 → s'.mem a = 0
  contents : ∀ g, Physical g → Data s.mem s.cr3 g → g ≠ (s.pmap.desc j).base →
    ∀ a, a.toNat / 4096 = g.toNat / 4096 → s'.mem a = s.mem a

theorem Supplies.quiet (h : Supplies t j l s s') (hr : s.Ready t (j :: l)) : Quiet (j :: l) s s' :=
  ⟨_, h.log, clean_zeroed List.mem_cons_self (hr.physical j List.mem_cons_self)⟩

theorem supply (hr : s.Ready t (j :: l)) (hz : table s.mem s.cr3 s.temp 4 = none) :
    ∃ s', (∀ {α : Type} (m : BitVec 64 → Act α),
      (do let f ← getFreePage; zeroPage f; m f) s = m (s.pmap.desc j).base s') ∧ Supplies t j l s s' := by
  obtain ⟨s₁, hs₁, hpop⟩ := getFreePage_popped hr.freelist
  have hphys := hr.physical j List.mem_cons_self
  have hunused : s₁.Unused (s.pmap.desc j).base := fun w d hd hw => by
    rw [hpop.mem, hpop.cr3]
    exact hr.unused j List.mem_cons_self w d hd hw
  obtain ⟨s₂, hs₂, hzero⟩ := zeroPage_zeroed (hpop.ready hr) hphys hunused
  have htables : ∀ w d, d ≤ 3 → Plain w → table s₂.mem s₂.cr3 w d = table s.mem s.cr3 w d := fun w d hd hw => by
    rw [hzero.tables w d hd hw, hpop.mem, hpop.cr3]
  have hlog : s₂.log =
      [.wrote 0, .wrote ((s.pmap.desc j).base ||| pageP ||| pageRW), .took (s.pmap.desc j).base] ++ s.log := by
    rw [hzero.log, hpop.log]
    rfl
  refine ⟨s₂, fun m => by rw [bind_ok hs₁, bind_ok hs₂], hzero.ready, hzero.cr3.trans hpop.cr3, hzero.temp.trans hpop.temp,
    hzero.free.trans hpop.free, hzero.initPml4.trans hpop.initPml4, by rw [hzero.pmap]; exact hpop.touches,
    by rw [hzero.pmap]; exact hpop.count, hlog, hzero.unused hunused, htables, fun w hw => ?_, fun w d hd hw hne => ?_, by rw [hzero.pmap]; exact hpop.taken,
    fun g hg w d hd hw => htables w d hd hw ▸ hg w d hd hw, hzero.zero, fun g hg hgd hne a ha => ?_⟩
  · by_cases hs : Same 4 s.temp w
    · rw [hzero.window w (by rw [hpop.temp]; exact hs), ← table_same hs, hz]
    · rw [hzero.pages w hw (by rw [hpop.temp]; exact hs), hpop.mem, hpop.cr3]
  · rw [hzero.entries w d hd hw (by rw [hpop.temp]; exact hne), entry, entry, hpop.mem, hpop.cr3]
  · rw [hzero.contents g hg (by rw [hpop.mem, hpop.cr3]; exact hgd) hne a ha, hpop.mem]

theorem Adds.fills (hr : s.Ready t (j :: l)) (hz : table s.mem s.cr3 s.temp 4 = none) (hs : Supplies t j l s s₁)
    (hflags : UpperFlags flags) (hnone : table s.mem s.cr3 v 4 = none)
    (hadd : Adds (s.pmap.desc j).base v flags t l l' s₁ s') : Fills [v] t (j :: l) l' s s' := by
  have hphys := hr.physical j List.mem_cons_self
  have hfree : ∀ k ∈ l, (s₁.pmap.desc k).base ≠ (s.pmap.desc j).base := fun k hk => by
    rw [hs.touches.base]
    exact hr.base_ne hk
  have hdata : Data s₁.mem s₁.cr3 (s.pmap.desc j).base := fun w d hd hw => hs.unused w d (by omega) hw
  have hpage : ∀ w, Same 4 v w → table s'.mem s'.cr3 w 4 = some (s.pmap.desc j).base := fun w hw => by
    obtain ⟨g, hg, he⟩ := hadd.leaf
    obtain ⟨hpresent, hframe, _⟩ := hflags.entry hphys
    rw [← table_same hw, table_succ hg, he, if_pos hpresent, hframe]
  have hwin : table s'.mem s'.cr3 s'.temp 4 = none := hadd.temp (by rw [hs.temp, hs.pages _ hr.window.plain]; exact hz)
  have hother : ∀ w, Plain w → ¬ Same 4 v w → table s'.mem s'.cr3 w 4 = table s.mem s.cr3 w 4 := fun w hw hne => by
    by_cases hsame : Same 4 s.temp w
    · have hgone : table s.mem s.cr3 w 4 = none := (table_same hsame).symm.trans hz
      rw [hgone, ← table_same hsame, ← hs.temp, ← hadd.window, hwin]
    · rw [hadd.pages w hw hne (by rw [hs.temp]; exact hsame), hs.pages w hw]
  obtain ⟨a, hlog, hclean, _⟩ := hadd.clean hflags hphys hs.log (clean_zeroed List.mem_cons_self hphys) (by simp)
    (List.subset_cons_self j l) hs.touches.base
  refine ⟨hadd.ready, hadd.cr3.trans hs.cr3, hadd.window.trans hs.temp,
    fun k hk => List.mem_cons_of_mem j (hadd.rest.subset hk),
    ⟨a, hlog, hclean⟩, ?_,
    fun k => (hadd.base k).trans (hs.touches.base k), hwin,
    fun w g hw hg => ?_, fun w hw _ hex => ?_, fun w hw hn hall => ?_, fun w w' g hw hw' hn hn' hg hg' => ?_⟩
  · have hfew := hadd.few
    simp only [List.length_cons, List.length_nil]
    omega
  · have hne : ¬ Same 4 v w := fun hsame => by
      rw [table_same hsame, hg] at hnone
      cases hnone
    have huse : ∀ k ∈ j :: l, (s.pmap.desc k).base ≠ g := fun k hk he => hr.unused k hk w 4 le_rfl hw (he ▸ hg)
    have hrest : ∀ k ∈ l, (s₁.pmap.desc k).base ≠ g := fun k hk => by
      rw [hs.touches.base]
      exact huse k (List.mem_cons_of_mem j hk)
    have hg' := table_physical hr.tree hg
    refine ⟨(hother w hw hne).trans hg, fun hd => ⟨hadd.data g (hs.data g hd) hrest, fun a ha => ?_⟩⟩
    rw [hadd.contents g hg' (hs.data g hd) hrest a ha, hs.contents g hg' hd (huse j List.mem_cons_self).symm a ha]
  · obtain ⟨v', hv', hsame⟩ := hex
    obtain rfl := List.mem_singleton.mp hv'
    refine ⟨j, List.mem_cons_self, hpage w hsame, hadd.data _ hdata hfree, fun a ha hword => ?_⟩
    rw [hadd.contents _ hphys hdata hfree a ha, hs.zero a ha hword]
  · exact (hother w hw (hall v List.mem_cons_self)).trans hn
  · have hmust : ∀ u, Plain u → table s.mem s.cr3 u 4 = none → table s'.mem s'.cr3 u 4 = some g → Same 4 v u :=
      fun u hu hun hug => by
        by_contra hne
        rw [hother u hu hne, hun] at hug
        cases hug
    exact fun k hk => ((hmust w hw hn hg) k hk).symm.trans ((hmust w' hw' hn' hg') k hk)

theorem Supplies.fills (hr : s.Ready t (j :: l)) (hz : table s.mem s.cr3 s.temp 4 = none) (hs : Supplies t j l s s₁)
    (hv : table s.mem s.cr3 v 4 = some f) :
    Fills [v] t (j :: l) (j :: l) s { s₁ with pmap := (s₁.pmap.releasePage (s.pmap.desc j).base).2 } := by
  have hj := ((hr.freelist.mem j).mp List.mem_cons_self).1
  have hwalk : s₁.pmap.walkList (s.pmap.desc j).base = some j := by
    rw [← hs.touches.base]
    exact PMap.walkList_base hs.ready.distinct (hs.touches.entryCount.symm ▸ hj)
  obtain ⟨p, hp, hfree, htouch⟩ := PMap.releasePage_last hs.ready.freelist hwalk hs.count
  rw [hp]
  have hbase : ∀ k, (p.desc k).base = (s.pmap.desc k).base := fun k => (htouch.base k).trans (hs.touches.base k)
  have hwin := hs.ready.window
  have hgone : ∀ w, Plain w → table s.mem s.cr3 w 4 = none → table s₁.mem s₁.cr3 w 4 = none := fun w hw hn =>
    (hs.pages w hw).trans hn
  refine ⟨⟨hs.ready.tree, ⟨hwin.plain, hwin.canonical, hwin.aligned, hwin.table⟩, htouch.distinct hs.ready.distinct,
    hfree, fun k hk => ?_, fun k hk => ?_⟩, hs.cr3, hs.temp, List.Subset.refl _, hs.quiet hr, by omega, hbase, ?_,
    fun w g hw hg => ?_,
    fun w hw hn hex => ?_, fun w hw hn _ => hgone w hw hn, fun w w' g hw _ hn _ hg _ => ?_⟩
  · exact (hbase k).symm ▸ hr.physical k hk
  · dsimp only
    rw [hbase]
    rcases List.mem_cons.mp hk with rfl | hk
    · exact hs.unused
    · rw [← hs.touches.base]
      exact hs.ready.unused k hk
  · exact (congrArg (table s₁.mem s₁.cr3 · 4) hs.temp).trans (hgone _ hr.window.plain hz)
  · refine ⟨(hs.pages w hw).trans hg, fun hd => ⟨hs.data g hd, hs.contents g (table_physical hr.tree hg) hd ?_⟩⟩
    rintro rfl
    exact hr.unused j List.mem_cons_self w 4 le_rfl hw hg
  · obtain ⟨v', hv', hsame⟩ := hex
    rw [← table_same hsame, List.mem_singleton.mp hv', hv] at hn
    cases hn
  · dsimp only at hg
    rw [hgone w hw hn] at hg
    cases hg

/-- A turn of the loop, which takes the frames that are missing on the path of `v`; one it asks for in any case. -/
theorem kmmapPages_turn (hr : s.Ready t l) (hz : table s.mem s.cr3 s.temp 4 = none) (hv : Plain v)
    (htemp : ¬ Same 4 s.temp v) (hflags : UpperFlags flags) (hroom : 1 + s.absent [] 3 v ≤ l.length) :
    ∃ s' l', (∀ n, kmmapPages flags (n + 1) v s = kmmapPages flags n (v + 4096) s') ∧ Fills [v] t l l' s s' ∧
      l.length = l'.length + s.absent [] 4 v ∧ ∀ w d, d ≤ 3 → Plain w →
        (table s'.mem s'.cr3 w d = none ↔ table s.mem s.cr3 w d = none ∧ ¬ Same d v w) := by
  cases l with
  | nil =>
    rw [List.length_nil] at hroom
    omega
  | cons j l =>
    rw [List.length_cons] at hroom
    obtain ⟨s₁, hs₁, hsup⟩ := supply hr hz
    have hturn : ∀ s' l' f, mapPage (s.pmap.desc j).base v flags s₁ = .ok () s' → s'.Ready t l' →
        table s'.mem s'.cr3 v 4 = some f → ∀ n, kmmapPages flags (n + 1) v s = kmmapPages flags n (v + 4096) s' := by
      intro s' l' f hmap hready hpage n
      obtain ⟨g, hg⟩ := table_some hpage (show 3 ≤ 4 by decide)
      rw [kmmapPages, hs₁, bind_ok hmap]
      exact bind_ok (load_ok (hready.tree.reach_ref (d := 3) hv le_rfl hg))
    have habsent : s₁.absent [] 3 v = s.absent [] 3 v := absent_congr fun d hd => by rw [hsup.tables v (d + 1) (by omega) hv]
    cases hpage : table s.mem s.cr3 v 4 with
    | none =>
      have hfresh : ∀ k ∈ l, (s₁.pmap.desc k).base ≠ (s.pmap.desc j).base := fun k hk => by
        rw [hsup.touches.base]
        exact hr.base_ne hk
      obtain ⟨s', l', hmap, hadd⟩ := mapPage_adds hsup.ready hv (by rw [hsup.temp]; exact htemp)
        (hr.physical j List.mem_cons_self) hflags (room_of_absent (by omega)) ((hsup.pages v hv).trans hpage) hfresh
      have hfills := hadd.fills hr hz hsup hflags hpage
      obtain ⟨k, _, hk, _⟩ := hfills.new v hv hpage ⟨v, List.mem_cons_self, fun _ _ => rfl⟩
      refine ⟨s', l', hturn s' l' _ hmap hfills.ready hk, hfills, ?_, fun w d hd hw => ?_⟩
      · rw [List.length_cons, hadd.length, habsent, absent_succ s 3, if_pos hpage, Nat.add_assoc]
      · rw [hadd.upper w d hd hw, hsup.tables w d hd hw]
    | some f =>
      have hpage₁ := (hsup.pages v hv).trans hpage
      have hfills := hsup.fills hr hz hpage
      refine ⟨_, _, hturn _ _ f (mapPage_releases hsup.ready hv hflags hpage₁) hfills.ready hpage₁, hfills, ?_,
        fun w d hd hw => ?_⟩
      · rw [absent_some hpage, Nat.add_zero]
      · obtain ⟨g, hg⟩ := table_some hpage (show d ≤ 4 by omega)
        refine (iff_of_eq (congrArg (· = none) (hsup.tables w d hd hw))).trans ⟨fun hnone => ⟨hnone, fun hs => ?_⟩, And.left⟩
        rw [← table_same hs, hg] at hnone
        cases hnone

def turns : ℕ → BitVec 64 → List (BitVec 64)
  | 0, _ => []
  | n + 1, v => v :: turns n (v + 4096)

theorem kmmapPages_fills (hr : s.Ready t l) (hz : table s.mem s.cr3 s.temp 4 = none)
    (hturns : ∀ w ∈ turns n v, Plain w ∧ ¬ Same 4 s.temp w) (hflags : UpperFlags flags) (hroom : 4 * n ≤ l.length) :
    ∃ s' l', kmmapPages flags n v s = .ok () s' ∧ Fills (turns n v) t l l' s s' := by
  induction n generalizing s l v with
  | zero => exact ⟨s, l, rfl, .refl hr hz⟩
  | succ n ih =>
    rw [turns, List.forall_mem_cons] at hturns
    have habsent := s.absent_le [] 3 v
    obtain ⟨s₁, l₁, hs₁, hfill, _⟩ := kmmapPages_turn hr hz hturns.1.1 hturns.1.2 hflags (by omega)
    have hfew := hfill.few
    rw [List.length_singleton] at hfew
    obtain ⟨s', l', hs', hfill'⟩ := ih hfill.ready hfill.window (by rw [hfill.temp]; exact hturns.2) (by omega)
    exact ⟨s', l', (hs₁ n).trans hs', hfill.trans hfill'⟩

theorem next_page (h : v.toNat + 4096 < 2 ^ 64) : (v + 4096).toNat = v.toNat + 4096 := by
  rw [BitVec.toNat_add]
  exact Nat.mod_eq_of_lt h

theorem mem_turns (h : v.toNat + 4096 * n ≤ 2 ^ 64) : w ∈ turns n v ↔ ∃ i < n, w.toNat = v.toNat + 4096 * i := by
  induction n generalizing v with
  | zero => simp [turns]
  | succ n ih =>
    rw [turns, List.mem_cons]
    rcases Nat.eq_zero_or_pos n with rfl | hpos
    · simp [turns, BitVec.toNat_inj]
    · have hnext := next_page (v := v) (by omega)
      rw [ih (by rw [hnext]; omega), hnext]
      constructor
      · rintro (rfl | ⟨i, hi, he⟩)
        · exact ⟨0, Nat.succ_pos _, (Nat.add_zero _).symm⟩
        · exact ⟨i + 1, by omega, by omega⟩
      · rintro ⟨i, hi, he⟩
        cases i with
        | zero => exact .inl (BitVec.eq_of_toNat_eq he)
        | succ i => exact .inr ⟨i, by omega, by omega⟩

theorem same_of_page (h : v.toNat / 4096 = w.toNat / 4096) : Same 4 v w := by
  intro k hk
  apply BitVec.eq_of_toNat_eq
  rw [index_toNat, index_toNat]
  have hcases : k = 0 ∨ k = 1 ∨ k = 2 ∨ k = 3 := by omega
  rcases hcases with rfl | rfl | rfl | rfl <;> simp only [shift_zero, shift_one, shift_two, shift_three] <;> omega

section Range

variable {addr : BitVec 64} (hpos : 0 < n) (hsize : n < 2 ^ 31) (hwrap : addr.toNat + n ≤ 2 ^ 64)

def spanned (addr : BitVec 64) (n : ℕ) : ℕ := (addr.toNat + n - 1) / 4096 - addr.toNat / 4096 + 1

theorem kmmap_start (addr : BitVec 64) :
    (if addr % 4096 ≠ 0 then addr &&& ~~~(4096 - 1) else addr) = addr &&& ~~~(4096 - 1) := by
  split
  · rfl
  · rename_i hz
    have hmod : addr.toNat % 4096 = 0 := congrArg BitVec.toNat (not_not.mp hz)
    apply BitVec.eq_of_toNat_eq
    rw [Boot.alignDown_toNat]
    omega

include hpos hsize hwrap

theorem kmmap_count :
    ((((addr + (BitVec.ofNat 32 n).signExtend 64 - 1) >>> 12) - (addr >>> 12) + 1).setWidth 32 : BitVec 32).toInt.toNat =
      spanned addr n := by
  have hext : ((BitVec.ofNat 32 n).signExtend 64).toNat = n := by
    rw [BitVec.signExtend_eq_setWidth_of_msb_false, BitVec.toNat_setWidth, BitVec.toNat_ofNat]
    · omega
    · rw [BitVec.msb_eq_false_iff_two_mul_lt, BitVec.toNat_ofNat]
      omega
  have hlast : (addr + (BitVec.ofNat 32 n).signExtend 64 - 1).toNat = addr.toNat + n - 1 := by
    rw [BitVec.toNat_sub, BitVec.toNat_add, hext]
    change (2 ^ 64 - 1 + _) % 2 ^ 64 = _
    omega
  have hnum : ((((addr + (BitVec.ofNat 32 n).signExtend 64 - 1) >>> 12) - (addr >>> 12) + 1).setWidth 32 : BitVec 32).toNat =
      spanned addr n := by
    rw [BitVec.toNat_setWidth, BitVec.toNat_add, BitVec.toNat_sub, BitVec.toNat_ushiftRight, BitVec.toNat_ushiftRight,
      Nat.shiftRight_eq_div_pow, Nat.shiftRight_eq_div_pow, hlast, spanned]
    change ((_ + 1) % _) % _ = _
    omega
  have hcount : spanned addr n < 2 ^ 31 := by
    rw [spanned]
    omega
  rw [BitVec.toInt_eq_toNat_of_lt (by rw [hnum]; omega), hnum, Int.toNat_natCast]

theorem kmmap_eq (flags : BitVec 64) : kmmap addr (BitVec.ofNat 32 n) flags =
    kmmapPages flags (spanned addr n) (addr &&& ~~~(4096 - 1)) := by
  rw [kmmap, kmmap_start, kmmap_count hpos hsize hwrap]

omit hsize in
theorem mem_turns_range : (∃ u ∈ turns (spanned addr n) (addr &&& ~~~(4096 - 1)), Same 4 u w) ↔
    ∃ i < n, Same 4 (addr + BitVec.ofNat 64 i) w := by
  have hturn : ∀ u, u ∈ turns (spanned addr n) (addr &&& ~~~(4096 - 1)) ↔
      ∃ i < spanned addr n, u.toNat = addr.toNat / 4096 * 4096 + 4096 * i := fun u => by
    rw [mem_turns, Boot.alignDown_toNat]
    rw [Boot.alignDown_toNat, spanned]
    omega
  have hin : ∀ i < n, (addr + BitVec.ofNat 64 i).toNat = addr.toNat + i := fun i hi => by
    rw [BitVec.toNat_add, BitVec.toNat_ofNat]
    omega
  constructor
  · rintro ⟨u, hu, hs⟩
    obtain ⟨i, hi, he⟩ := (hturn u).mp hu
    rw [spanned] at hi
    have hlt : u.toNat - addr.toNat < n := by omega
    have hpage : Same 4 (addr + BitVec.ofNat 64 (u.toNat - addr.toNat)) u := by
      apply same_of_page
      rw [hin _ hlt]
      omega
    exact ⟨_, hlt, fun k hk => (hpage k hk).trans (hs k hk)⟩
  · rintro ⟨i, hi, hs⟩
    have hlast : (addr.toNat + i) / 4096 ≤ (addr.toNat + n - 1) / 4096 := Nat.div_le_div_right (by omega)
    have hpage : (BitVec.ofNat 64 ((addr.toNat + i) / 4096 * 4096)).toNat = (addr.toNat + i) / 4096 * 4096 := by
      rw [BitVec.toNat_ofNat]
      omega
    refine ⟨BitVec.ofNat 64 ((addr.toNat + i) / 4096 * 4096), (hturn _).mpr ⟨(addr.toNat + i) / 4096 - addr.toNat / 4096,
      ?_, ?_⟩, fun k hk => ?_⟩
    · rw [spanned]
      omega
    · rw [hpage]
      omega
    · refine (same_of_page ?_ k hk).trans (hs k hk)
      rw [hpage, hin i hi]
      omega

end Range

theorem kmmap_fills {addr : BitVec 64} (hr : s.Ready t l) (hz : table s.mem s.cr3 s.temp 4 = none) (hpos : 0 < n)
    (hsize : n < 2 ^ 31) (hwrap : addr.toNat + n ≤ 2 ^ 64) (hflags : UpperFlags flags)
    (hrange : ∀ i < n, Plain (addr + BitVec.ofNat 64 i) ∧ ¬ Same 4 s.temp (addr + BitVec.ofNat 64 i))
    (hroom : 4 * spanned addr n ≤ l.length) :
    ∃ s' l', kmmap addr (BitVec.ofNat 32 n) flags s = .ok () s' ∧
      Fills (turns (spanned addr n) (addr &&& ~~~(4096 - 1))) t l l' s s' := by
  rw [kmmap_eq hpos hsize hwrap]
  refine kmmapPages_fills hr hz (fun u hu => ?_) hflags hroom
  obtain ⟨i, hi, hs⟩ := (mem_turns_range hpos hwrap).mp ⟨u, hu, fun _ _ => rfl⟩
  obtain ⟨hplain, htemp⟩ := hrange i hi
  exact ⟨hs.plain (by decide) hplain, fun hsame => htemp fun k hk => (hsame k hk).trans (hs k hk).symm⟩

structure Kmmapped (addr : BitVec 64) (n : ℕ) (l : List ℕ) (s s' : Phys) : Prop where
  mapped : ∀ i < n, ∃ a, walk s'.mem s'.cr3 (addr + BitVec.ofNat 64 i) = some a
  pages : ∀ w, Plain w → (table s'.mem s'.cr3 w 4 ≠ none ↔
    table s.mem s.cr3 w 4 ≠ none ∨ ∃ i < n, Same 4 (addr + BitVec.ofNat 64 i) w)
  zero : ∀ i < n, table s.mem s.cr3 (addr + BitVec.ofNat 64 i) 4 = none →
    ∃ k ∈ l, table s'.mem s'.cr3 (addr + BitVec.ofNat 64 i) 4 = some (s.pmap.desc k).base ∧
      ∀ a, a.toNat / 4096 = (s.pmap.desc k).base.toNat / 4096 → a.toNat % 8 = 0 → s'.mem a = 0
  apart : ∀ w w' f, Plain w → Plain w' → table s.mem s.cr3 w 4 = none → table s.mem s.cr3 w' 4 = none →
    table s'.mem s'.cr3 w 4 = some f → table s'.mem s'.cr3 w' 4 = some f → Same 4 w w'
  frames : ∀ w f, Plain w → table s.mem s.cr3 w 4 = some f → table s'.mem s'.cr3 w 4 = some f
  contents : ∀ w f, Plain w → table s.mem s.cr3 w 4 = some f → Data s.mem s.cr3 f →
    ∀ a, a.toNat / 4096 = f.toNat / 4096 → s'.mem a = s.mem a

theorem kmmap_maps {addr : BitVec 64} (hr : s.Ready t l) (hz : table s.mem s.cr3 s.temp 4 = none) (hpos : 0 < n)
    (hsize : n < 2 ^ 31) (hwrap : addr.toNat + n ≤ 2 ^ 64) (hflags : UpperFlags flags)
    (hrange : ∀ i < n, Plain (addr + BitVec.ofNat 64 i) ∧ canonical (addr + BitVec.ofNat 64 i) = true ∧
      ¬ Same 4 s.temp (addr + BitVec.ofNat 64 i)) (hroom : 4 * spanned addr n ≤ l.length) :
    ∃ s', kmmap addr (BitVec.ofNat 32 n) flags s = .ok () s' ∧ Kmmapped addr n l s s' := by
  obtain ⟨s', l', hrun, hfill⟩ := kmmap_fills hr hz hpos hsize hwrap hflags
    (fun i hi => ⟨(hrange i hi).1, (hrange i hi).2.2⟩) hroom
  have hnew : ∀ w, Plain w → table s.mem s.cr3 w 4 = none → (∃ i < n, Same 4 (addr + BitVec.ofNat 64 i) w) →
      ∃ k ∈ l, table s'.mem s'.cr3 w 4 = some (s.pmap.desc k).base ∧
        ∀ a, a.toNat / 4096 = (s.pmap.desc k).base.toNat / 4096 → a.toNat % 8 = 0 → s'.mem a = 0 := by
    intro w hw hnone hex
    obtain ⟨k, hk, hpage, _, hzero⟩ := hfill.new w hw hnone ((mem_turns_range hpos hwrap).mpr hex)
    exact ⟨k, hk, hpage, hzero⟩
  have hpages : ∀ w, Plain w → (table s'.mem s'.cr3 w 4 ≠ none ↔
      table s.mem s.cr3 w 4 ≠ none ∨ ∃ i < n, Same 4 (addr + BitVec.ofNat 64 i) w) := by
    intro w hw
    rw [← mem_turns_range hpos hwrap, Ne, hfill.none_iff hw, not_and_or]
    push Not
    rfl
  refine ⟨s', hrun, fun i hi => ?_, hpages, fun i hi hnone => ?_, hfill.apart, fun w f hw hf => (hfill.kept w f hw hf).1,
    fun w f hw hf hd => ((hfill.kept w f hw hf).2 hd).2⟩
  · obtain ⟨hplain, hcanon, _⟩ := hrange i hi
    obtain ⟨f, hf⟩ := Option.ne_none_iff_exists'.mp ((hpages _ hplain).mpr (.inr ⟨i, hi, fun _ _ => rfl⟩))
    rw [hfill.ready.tree.walk_eq hplain, if_pos hcanon, hf]
    exact ⟨_, rfl⟩
  · exact hnew _ (hrange i hi).1 hnone ⟨i, hi, fun _ _ => rfl⟩

def eightFrames : PMap where
  desc i := ⟨0x10000 + 4096 * BitVec.ofNat 64 i, 0, if i < 7 then some (i + 1) else none⟩
  entryCount := 8
  head := some 0

theorem eightFrames_ready : Ready { small with pmap := eightFrames } 0x4000 (List.range 8) := by
  refine small_ready_of ?_ ⟨⟨rfl, rfl, rfl, rfl, rfl, rfl, rfl, rfl, rfl⟩, fun j => ?_⟩ (by decide)
  · change ∀ i < 8, ∀ j < 8, _
    decide
  · change j ∈ List.range 8 ↔ j < 8 ∧ 0 = 0
    simp

theorem kmmap_maps_two_pages :
    ∃ s', kmmap 0x400FFF 2 (pageP ||| pageRW ||| pageU) { small with pmap := eightFrames } = .ok () s' ∧
      Kmmapped 0x400FFF 2 (List.range 8) { small with pmap := eightFrames } s' :=
  kmmap_maps eightFrames_ready (by decide) (by decide) (by decide) (by decide) ⟨by decide, by decide, by decide⟩ (by decide)
    (by decide)

theorem kmmap_loses_noncanonical : Ready { small with pmap := eightFrames } 0x4000 (List.range 8) ∧
    4 * spanned 0x0000FFFF80210000 1 ≤ (List.range 8).length ∧
    ∃ s', kmmap 0x0000FFFF80210000 1 (pageP ||| pageRW) { small with pmap := eightFrames } = .ok () s' ∧
      walk s'.mem s'.cr3 0x0000FFFF80210000 = none := by
  have hroom : 4 * spanned 0x0000FFFF80210000 1 ≤ (List.range 8).length := by decide
  have hone : ∀ i < 1, Plain (0x0000FFFF80210000 + BitVec.ofNat 64 i) ∧
      ¬ Same 4 small.temp (0x0000FFFF80210000 + BitVec.ofNat 64 i) := by decide
  obtain ⟨s', _, hrun, hfill⟩ := kmmap_fills eightFrames_ready (by decide) Nat.one_pos (by decide) (by decide) upper_pageRW
    hone hroom
  refine ⟨eightFrames_ready, hroom, s', hrun, ?_⟩
  rw [hfill.ready.tree.walk_eq (by decide), if_neg (by decide)]

end Phys

end Os506
