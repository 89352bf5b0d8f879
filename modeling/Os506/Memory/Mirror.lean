import Os506.Memory.Kmmap
import Os506.Memory.Progress

namespace Os506

open Pging Mmu

open PMap (Physical)

def Level.depth : Level → ℕ
  | pmle => 0
  | pdpe => 1
  | pde => 2

theorem Tables.grow_upper (t : Tables) (l l' : Level) (vpn k : ℕ) (e : BitVec 64) : (t.grow l vpn e).upper l' k =
    if l' = l then if k = l.index vpn then e else t.upper l k
    else if l'.depth = l.depth + 1 ∧ k / 512 = l.index vpn then 0 else t.upper l' k := by
  cases l <;> cases l' <;> simp [Tables.grow, Level.depth, Function.update_apply]

theorem Tables.grow_pte (t : Tables) (l : Level) (vpn k : ℕ) (e : BitVec 64) :
    (t.grow l vpn e).pte k = if l = .pde ∧ k / 512 = l.index vpn then 0 else t.pte k := by
  cases l <;> simp [Tables.grow]

namespace PMap

variable {p p' : PMap} {f : BitVec 64} {l : List ℕ} {j k : ℕ}

def Used (p : PMap) (f : BitVec 64) : Prop := ∀ k < p.entryCount, (p.desc k).mapCount = 0 → (p.desc k).base ≠ f

theorem Touches.used (h : Touches j p p') (hne : (p.desc j).base ≠ f) (hused : p'.Used f) : p.Used f := by
  intro k hk hz
  by_cases hkj : k = j
  · rw [hkj]
    exact hne
  · rw [← h.other k hkj] at hz ⊢
    exact hused k (h.entryCount.symm ▸ hk) hz

theorem Used.of_release (hf : p.Free l) {a : BitVec 64} (h : (p.releasePage a).2.Used f) : p.Used f := by
  cases hw : p.walkList a with
  | none => rwa [releasePage_none hw] at h
  | some j =>
    by_cases hz : (p.desc j).mapCount = 0
    · rwa [releasePage_free hw hz] at h
    · obtain ⟨p', _, hp', _, ht, _⟩ := releasePage_some hf hw hz
      rw [hp'] at h
      intro k hk hk0
      have hkj : k ≠ j := by
        rintro rfl
        exact hz hk0
      rw [← ht.other k hkj] at hk0 ⊢
      exact h k (ht.entryCount.symm ▸ hk) hk0

end PMap

namespace Phys

variable {s s₁ s' : Phys} {m : Mach} {i q q' d j n : ℕ} {t f g paddr flags : BitVec 64} {l l' : List ℕ} {level : Level}

def pageAddr (vpn : ℕ) : BitVec 64 := BitVec.ofNat 64 (4096 * vpn)

theorem pageAddr_toNat (hq : q < 2 ^ 35) : (pageAddr q).toNat = 4096 * q := by
  rw [pageAddr, BitVec.toNat_ofNat]
  omega

theorem pageAddr_plain (hq : q < 2 ^ 35) : Plain (pageAddr q) := by
  intro h
  have hindex := congrArg BitVec.toNat h
  rw [index_toNat, pageAddr_toNat hq] at hindex
  change _ = 510 at hindex
  omega

theorem same_succ {v w : BitVec 64} : Same (d + 1) v w ↔ Same d v w ∧ index (shift d) v = index (shift d) w :=
  ⟨fun h => ⟨h.mono (Nat.le_succ d), h d (Nat.lt_succ_self d)⟩, fun h k hk =>
    (Nat.lt_succ_iff_lt_or_eq.mp hk).elim (h.1 k) fun he => he ▸ h.2⟩

section Low

variable (hq : q < 2 ^ 35) (hq' : q' < 2 ^ 35)
include hq hq'

theorem same_pages (hd : d ≤ 3) : Same (d + 1) (pageAddr q) (pageAddr q') ↔ q / 512 ^ (3 - d) = q' / 512 ^ (3 - d) := by
  have hindex : ∀ k, index (shift k) (pageAddr q) = index (shift k) (pageAddr q') ↔
      4096 * q / 2 ^ shift k % 512 = 4096 * q' / 2 ^ shift k % 512 := fun k => by
    rw [← BitVec.toNat_inj, index_toNat, index_toNat, pageAddr_toNat hq, pageAddr_toNat hq']
  induction d with
  | zero =>
    rw [same_succ, hindex, shift_zero]
    simp only [Same, Nat.not_lt_zero, false_implies, implies_true, true_and]
    omega
  | succ d ih =>
    refine same_succ.trans ((and_congr (ih (by omega)) (hindex (d + 1))).trans ?_)
    rcases (show d = 0 ∨ d = 1 ∨ d = 2 by omega) with rfl | rfl | rfl
    · rw [shift_one]; omega
    · rw [shift_two]; omega
    · rw [shift_three]; omega

theorem same_level (l : Level) : Same (l.depth + 1) (pageAddr q) (pageAddr q') ↔ l.index q = l.index q' := by
  cases l <;> rw [same_pages hq hq' (by decide)] <;> simp only [Level.depth, Level.index] <;> omega

theorem same_page : Same 4 (pageAddr q) (pageAddr q') ↔ q = q' := by
  rw [same_pages hq hq' le_rfl]
  simp

end Low

def frameByte (s : Phys) (f : BitVec 64) (k : ℕ) : UInt8 :=
  UInt8.ofBitVec ((s.mem (f + 8 * BitVec.ofNat 64 (k / 8)) >>> (8 * (k % 8))).setWidth 8)

/-- The lower half of the current address space is the one of process `i`, and every frame has its bytes that is neither free
nor a table. -/
structure Mirrors (i : ℕ) (s : Phys) (m : Mach) : Prop where
  pmap : m.pmap = s.pmap
  upper : ∀ q < 2 ^ 35, ∀ level : Level, (m.tables i).upper level (level.index q) = s.entry (pageAddr q) level.depth
  pte : ∀ q < 2 ^ 35, (m.tables i).pte q = s.entry (pageAddr q) 3
  bytes : ∀ f, Physical f → Data s.mem s.cr3 f → s.pmap.Used f → ∀ k < 4096, m.mem f k = s.frameByte f k

def lower (s : Phys) : Tables where
  upper level k := s.entry (pageAddr (512 ^ (3 - level.depth) * k)) level.depth
  pte q := s.entry (pageAddr q) 3

theorem entry_same {v w : BitVec 64} (h : Same (d + 1) v w) : s.entry v d = s.entry w d := by
  rw [entry, entry, table_same (h.mono (Nat.le_succ d))]
  exact congrArg (Option.elim _ 0) (funext fun t => congrArg s.mem (h.slot_eq (Nat.lt_succ_self d) t))

/-- Every state has a model of processes, so that the results below are about all of them. -/
theorem mirrors_lower (hpmap : m.pmap = s.pmap) (htables : m.tables i = s.lower) (hmem : m.mem = s.frameByte) : Mirrors i s m := by
  refine ⟨hpmap, fun q hq level => ?_, fun q _ => by rw [htables, lower], fun f _ _ _ k _ => by rw [hmem]⟩
  have hfirst : 512 ^ (3 - level.depth) * level.index q < 2 ^ 35 ∧
      level.index (512 ^ (3 - level.depth) * level.index q) = level.index q := by
    cases level <;> simp only [Level.depth, Level.index] <;> omega
  rw [htables, lower]
  exact entry_same ((same_level hfirst.1 hq level).mpr hfirst.2)

theorem frameByte_congr (hf : Physical f) (h : ∀ a, a.toNat / 4096 = f.toNat / 4096 → s'.mem a = s.mem a) (hn : n < 4096) :
    s'.frameByte f n = s.frameByte f n := by
  rw [frameByte, frameByte, h _ (word_page hf (by omega)).1]

def High (s : Phys) : Prop := 256 ≤ (index 39 s.temp).toNat

theorem High.temp (h : s.High) (hq : q < 2 ^ 35) : ¬ Same 4 s.temp (pageAddr q) := by
  intro hs
  have hindex := congrArg BitVec.toNat (hs 0 (by decide))
  rw [shift_zero, index_toNat 39 (pageAddr q), pageAddr_toNat hq] at hindex
  rw [High] at h
  omega

theorem isPresent_entry (hg : table s.mem s.cr3 (pageAddr q) d = some g) :
    isPresent (s.entry (pageAddr q) d) = (table s.mem s.cr3 (pageAddr q) (d + 1)).isSome := by
  rw [entry, hg, Option.elim_some, isPresent_eq, table_succ hg]
  split <;> simp_all

theorem entry_none {v : BitVec 64} (h : table s.mem s.cr3 v d = none) : s.entry v d = 0 := by rw [entry, h, Option.elim_none]

theorem index_parent (level level' : Level) (h : level'.depth = level.depth + 1) (q : ℕ) :
    level'.index q / 512 = level.index q := by
  cases level <;> cases level' <;> simp_all [Level.depth, Level.index]

/-- A new table, in both models. -/
theorem NewTable.mirrors (level : Level) (hr : s.Ready t (j :: l)) (hhigh : s.High) (h : Mirrors i s m) (hq : q < 2 ^ 35)
    (hnext : table s.mem s.cr3 (pageAddr q) (level.depth + 1) = none)
    (hnew : NewTable (pageAddr q) t flags level.depth j l s s') :
    Mirrors i s' ((({ m with pmap := s'.pmap } : Mach).zeroPage (s.pmap.desc j).base).modifyTables i fun t =>
      t.grow level q ((s.pmap.desc j).base ||| flags)) := by
  have hd : level.depth < 3 := by cases level <;> decide
  have hv := pageAddr_plain hq
  have hev := hnew.evolves
  have hgone : ∀ q' < 2 ^ 35, level.index q' = level.index q →
      table s.mem s.cr3 (pageAddr q') (level.depth + 1) = none := fun q' hq' hindex =>
    (table_same ((same_level hq hq' level).mpr hindex.symm)).symm.trans hnext
  refine ⟨rfl, fun q' hq' level' => ?_, fun q' hq' => ?_, fun f hf hdata hused k hk => ?_⟩
  · rw [Mach.modifyTables_self, Tables.grow_upper, hnew.entries _ _ (by cases level' <;> decide) (pageAddr_plain hq')
      (hhigh.temp hq'), ← h.upper q' hq' level']
    by_cases hlevel : level' = level
    · subst hlevel
      by_cases hsame : level'.index q' = level'.index q
      · rw [if_pos rfl, if_pos hsame, if_pos ⟨rfl, (same_level hq hq' level').mpr hsame.symm⟩]
      · rw [if_pos rfl, if_neg hsame, if_neg fun hx => hsame ((same_level hq hq' level').mp hx.2).symm]
        rfl
    · have hother : ¬ (level'.depth = level.depth ∧ Same (level.depth + 1) (pageAddr q) (pageAddr q')) := by
        cases level <;> cases level' <;> simp_all [Level.depth]
      rw [if_neg hlevel, if_neg hother]
      split
      next hbelow =>
        rw [index_parent level level' hbelow.1] at hbelow
        rw [h.upper q' hq' level', hbelow.1, entry_none (hgone q' hq' hbelow.2)]
      next => rfl
  · have hdeep : ¬ (3 = level.depth ∧ Same (level.depth + 1) (pageAddr q) (pageAddr q')) := fun hx => by
      have := hx.1
      omega
    rw [Mach.modifyTables_self, Tables.grow_pte, hnew.entries _ _ le_rfl (pageAddr_plain hq') (hhigh.temp hq'),
      if_neg hdeep, ← h.pte q' hq']
    split
    next hbelow =>
      obtain ⟨rfl, hindex⟩ := hbelow
      exact ((h.pte q' hq').trans (entry_none (hgone q' hq' hindex))).symm
    next => rfl
  · have hne : (s.pmap.desc j).base ≠ f := by
      rintro rfl
      exact hdata _ _ hd hv hnew.path
    have hdata' : Data s.mem s.cr3 f := fun w d hd hw hf' => hdata w d hd hw (hev.kept w d f hd hw hf')
    have hother : ∀ g ∈ [(s.pmap.desc j).base], Physical g ∧ g ≠ f := fun g hg => by
      rw [List.mem_singleton.mp hg]
      exact ⟨hr.physical j List.mem_cons_self, hne⟩
    have hbytes : s'.frameByte f k = s.frameByte f k :=
      frameByte_congr hf (fun a ha => hev.contents hr.tree hnew.ready.tree hv hr.window hf hdata' hother ha) hk
    rw [hbytes, ← h.bytes f hf hdata' (hnew.touches.used hne hused) k hk]
    exact congrFun (Function.update_of_ne hne.symm _ _) k

theorem needTable_mirrors (level : Level) (hr : s.Ready t l) (hhigh : s.High) (h : Mirrors i s m) (hq : q < 2 ^ 35)
    (hg : table s.mem s.cr3 (pageAddr q) level.depth = some g) (hflags : UpperFlags flags) (hroom : 0 < l.length) :
    ∃ s' m' l' g', needTable (ref level.depth (pageAddr q)) flags s = .ok () s' ∧ m.needTable i q flags level = some m' ∧
      s'.Ready t l' ∧ s'.High ∧ Mirrors i s' m' ∧ table s'.mem s'.cr3 (pageAddr q) (level.depth + 1) = some g' ∧
      l.length ≤ l'.length + 1 := by
  have hd : level.depth < 3 := by cases level <;> decide
  have hv := pageAddr_plain hq
  have hpresent := isPresent_entry hg
  rw [← h.upper q hq level] at hpresent
  cases hnext : table s.mem s.cr3 (pageAddr q) (level.depth + 1) with
  | some g' =>
    refine ⟨s, m, l, g', needTable_present hr.tree (by omega) hv hg hnext flags, ?_, hr, hhigh, h, hnext, Nat.le_succ _⟩
    rw [Mach.needTable, hpresent, hnext]
    rfl
  | none =>
    obtain ⟨j, l, rfl⟩ := List.exists_cons_of_length_pos hroom
    obtain ⟨s', hs', hnew⟩ := needTable_absent hr hd hv hg hnext hflags
    refine ⟨s', _, l, _, hs', ?_, hnew.ready, by rw [High, hnew.evolves.temp]; exact hhigh,
      hnew.mirrors level hr hhigh h hq hnext, hnew.path, Nat.le_refl _⟩
    rw [Mach.needTable, hpresent, hnext, Mach.getFreePage, h.pmap, hnew.taken]
    rfl

theorem leaf_entry {v w e : BitVec 64} (h : Tree s.mem s.cr3) (hv : Plain v) (hw : Plain w)
    (hg : table s.mem s.cr3 v 3 = some g) (hd : d ≤ 3) (a : List PhysEvent) :
    entry { s with mem := Function.update s.mem (slot g (shift 3) v) e, log := a } w d =
      if d = 3 ∧ Same 4 v w then e else s.entry w d := by
  rw [entry, entry]
  dsimp only
  rw [h.table_update le_rfl hv hg hw (by omega) (.inr hd)]
  cases hg' : table s.mem s.cr3 w d with
  | none =>
    refine (if_neg fun hx => ?_).symm
    obtain ⟨rfl, hs⟩ := hx
    rw [← table_same (hs.mono (by decide)), hg] at hg'
    cases hg'
  | some g' =>
    rw [Option.elim_some, Option.elim_some]
    split
    next hx =>
      obtain ⟨rfl, hs⟩ := hx
      obtain rfl := Option.some.inj ((table_same (hs.mono (by decide))).symm.trans hg |>.symm.trans hg')
      rw [← hs.slot_eq (by decide), Function.update_self]
    next hx =>
      refine Function.update_of_ne (fun he => hx ?_) _ _
      obtain ⟨rfl, hs⟩ := h.slot_inj hd le_rfl hw hv hg' hg he
      exact ⟨rfl, hs.symm⟩

/-- The last write of `map_page`, in both models. -/
theorem Mirrors.leaf {e : BitVec 64} (h : Mirrors i s m) (ht : Tree s.mem s.cr3) (hq : q < 2 ^ 35)
    (hg : table s.mem s.cr3 (pageAddr q) 3 = some g) (a : List PhysEvent) :
    Mirrors i { s with mem := Function.update s.mem (slot g (shift 3) (pageAddr q)) e, log := a } (m.setPte i q e) := by
  have hv := pageAddr_plain hq
  refine ⟨h.pmap, fun q' hq' level => ?_, fun q' hq' => ?_, fun f hf hdata hused k hk => ?_⟩
  · rw [leaf_entry ht hv (pageAddr_plain hq') hg (by cases level <;> decide), if_neg fun hx => ?_, ← h.upper q' hq' level,
      Mach.setPte, Mach.modifyTables_self]
    cases level <;> cases hx.1
  · rw [leaf_entry ht hv (pageAddr_plain hq') hg le_rfl, ← h.pte q' hq', Mach.setPte, Mach.modifyTables_self]
    dsimp only
    rw [Function.update_apply]
    by_cases hsame : q' = q
    · rw [if_pos hsame, if_pos ⟨rfl, (same_page hq hq').mpr hsame.symm⟩]
    · rw [if_neg hsame, if_neg fun hx => hsame ((same_page hq hq').mp hx.2).symm]
  · have hdata' : Data s.mem s.cr3 f := fun w d hd hw hf' =>
      hdata w d hd hw ((ht.table_update le_rfl hv hg hw (by omega) (.inr hd) _).trans hf')
    have hne : g ≠ f := by
      rintro rfl
      exact hdata' _ 3 le_rfl hv hg
    refine (h.bytes f hf hdata' hused k hk).trans (frameByte_congr hf (fun b hb => ?_) hk).symm
    exact Function.update_of_ne (ne_slot_of_page hf (table_physical ht hg) hne hb) _ _

theorem mapPage_mirrors (hr : s.Ready t l) (hhigh : s.High) (h : Mirrors i s m) (hq : q < 2 ^ 35) (hflags : UpperFlags flags)
    (hroom : 3 ≤ l.length) (paddr : BitVec 64) :
    ∃ s' m', mapPage paddr (pageAddr q) flags s = .ok () s' ∧ m.mapPage i paddr q flags = some m' ∧ Mirrors i s' m' := by
  obtain ⟨s₁, m₁, l₁, g₁, hs₁, hm₁, hr₁, hhigh₁, h₁, hg₁, hl₁⟩ :=
    needTable_mirrors .pmle hr hhigh h hq rfl hflags.high (by omega)
  obtain ⟨s₂, m₂, l₂, g₂, hs₂, hm₂, hr₂, hhigh₂, h₂, hg₂, hl₂⟩ :=
    needTable_mirrors .pdpe hr₁ hhigh₁ h₁ hq hg₁ hflags.high (by omega)
  obtain ⟨s₃, m₃, l₃, g₃, hs₃, hm₃, hr₃, _, h₃, hg₃, _⟩ :=
    needTable_mirrors .pde hr₂ hhigh₂ h₂ hq hg₂ hflags.high (by omega)
  replace hg₃ : table s₃.mem s₃.cr3 (pageAddr q) 3 = some g₃ := hg₃
  have hv := pageAddr_plain hq
  have htables : needTables (pageAddr q) (Mach.highFlags flags) s = .ok () s₃ := (bind_ok hs₁).trans ((bind_ok hs₂).trans hs₃)
  have hentry := hr₃.tree.reach_ref (d := 3) hv le_rfl hg₃
  have hword : s₃.entry (pageAddr q) 3 = s₃.mem (slot g₃ (shift 3) (pageAddr q)) := by rw [entry, hg₃, Option.elim_some]
  have hrun : mapPage paddr (pageAddr q) flags s = (if isPresent (s₃.entry (pageAddr q) 3) then releasePage paddr
      else storeEntry (ref 3 (pageAddr q)) (paddr ||| flags)) s₃ := by
    rw [mapPage, bind_ok htables, hword]
    exact bind_ok (load_ok hentry)
  have hmach : m.mapPage i paddr q flags = some (if isPresent (s₃.entry (pageAddr q) 3) then m₃.releasePage paddr
      else m₃.setPte i q (paddr ||| flags)) := by
    rw [Mach.mapPage, hm₁, Option.bind_some, hm₂, Option.bind_some, hm₃, Option.map_some, h₃.pte q hq]
  refine (Bool.eq_false_or_eq_true (isPresent (s₃.entry (pageAddr q) 3))).elim (fun hp => ?_) fun hp => ?_
  · rw [hp, if_pos rfl] at hrun hmach
    exact ⟨_, _, hrun, hmach, ⟨congrArg (fun p : PMap => (p.releasePage paddr).2) h₃.pmap, h₃.upper, h₃.pte,
      fun f hf hdata hused => h₃.bytes f hf hdata (PMap.Used.of_release hr₃.freelist hused)⟩⟩
  · rw [hp, if_neg Bool.false_ne_true] at hrun hmach
    rw [storeEntry_ok hentry] at hrun
    exact ⟨_, _, hrun, hmach, h₃.leaf hr₃.tree hq hg₃ _⟩

theorem Supplies.mirrors (hr : s.Ready t (j :: l)) (hhigh : s.High) (hs : Supplies t j l s s') (h : Mirrors i s m) :
    m.getFreePage = some ((s.pmap.desc j).base, { m with pmap := s'.pmap }) ∧
      Mirrors i s' (({ m with pmap := s'.pmap } : Mach).zeroPage (s.pmap.desc j).base) := by
  have hphys := hr.physical j List.mem_cons_self
  refine ⟨by rw [Mach.getFreePage, h.pmap, hs.taken], rfl, fun q hq level => ?_, fun q hq => ?_,
    fun f hf hdata hused k hk => ?_⟩
  · rw [hs.entries _ _ (by cases level <;> decide) (pageAddr_plain hq) (hhigh.temp hq)]
    exact h.upper q hq level
  · rw [hs.entries _ _ le_rfl (pageAddr_plain hq) (hhigh.temp hq)]
    exact h.pte q hq
  · by_cases hne : (s.pmap.desc j).base = f
    · obtain ⟨hpage, hword⟩ := word_page hf (show k / 8 < 512 by omega)
      rw [frameByte, hs.zero _ (hne ▸ hpage) hword, hne]
      refine (congrFun (Function.update_self f _ _) k).trans ?_
      simp
    · have hdata' : Data s.mem s.cr3 f := fun w d hd hw he => hdata w d hd hw ((hs.tables w d hd hw).trans he)
      rw [frameByte_congr hf (fun a ha => hs.contents f hf hdata' (Ne.symm hne) a ha) hk,
        ← h.bytes f hf hdata' (hs.touches.used hne hused) k hk]
      exact congrFun (Function.update_of_ne (Ne.symm hne) _ _) k

theorem load_state {v : BitVec 64} (h : (load v >>= fun _ => pure ()) s = .ok () s') : s = s' := by
  cases hreach : reach s.mem s.cr3 v with
  | none =>
    have hload : load v s = .error .fault s := by rw [load, hreach]
    rw [bind_error hload] at h
    cases h
  | some a =>
    rw [bind_ok (load_ok hreach)] at h
    exact (EStateM.Result.ok.inj h).2

theorem pageAddr_next (q : ℕ) : pageAddr q + 4096 = pageAddr (q + 1) := by
  rw [pageAddr, pageAddr, Nat.mul_add, BitVec.ofNat_add]
  rfl

theorem kmmapPages_mirrors (hr : s.Ready t l) (hz : table s.mem s.cr3 s.temp 4 = none) (hhigh : s.High) (h : Mirrors i s m)
    (hq : q + n ≤ 2 ^ 35) (hflags : UpperFlags flags) (hroom : 4 * n ≤ l.length) :
    ∃ s' m', kmmapPages flags n (pageAddr q) s = .ok () s' ∧ m.mapPages i flags (List.range' q n) = some m' ∧
      Mirrors i s' m' := by
  induction n generalizing s m l q with
  | zero => exact ⟨s, m, rfl, rfl, h⟩
  | succ n ih =>
    have hlt : q < 2 ^ 35 := by omega
    obtain ⟨j, l, rfl⟩ := List.exists_cons_of_length_pos (show 0 < l.length by omega)
    have habsent := s.absent_le [] 3 (pageAddr q)
    obtain ⟨s₂, l₂, hturn, hfill, _⟩ := kmmapPages_turn hr hz (pageAddr_plain hlt) (hhigh.temp hlt) hflags (by omega)
    obtain ⟨s₁, hs₁, hsup⟩ := supply hr hz
    obtain ⟨hfree, h₁⟩ := hsup.mirrors hr hhigh h
    obtain ⟨s₂', m₂, hmap, hmap', h₂⟩ := mapPage_mirrors hsup.ready (by rw [High, hsup.temp]; exact hhigh) h₁ hlt hflags
      (by rw [List.length_cons] at hroom; omega) (s.pmap.desc j).base
    -- the state behind the turn is the one behind `map_page`, which the load of the entry leaves as it is
    have hone := hturn 0
    rw [kmmapPages, kmmapPages, hs₁, bind_ok hmap] at hone
    obtain rfl := load_state hone
    have hfew := hfill.few
    rw [List.length_singleton] at hfew
    obtain ⟨s', m', hs', hm', h'⟩ := ih hfill.ready hfill.window (by rw [High, hfill.temp]; exact hhigh) h₂
      (show q + 1 + n ≤ 2 ^ 35 by omega) (by omega)
    refine ⟨s', m', ?_, ?_, h'⟩
    · rw [hturn n, pageAddr_next, hs']
    · have hzero : m.mapZero i q flags = some m₂ := by
        rw [Mach.mapZero, hfree, Option.bind_some]
        exact hmap'
      rw [List.range'_succ, Mach.mapPages, hzero, Option.bind_some, hm']

/-- `kmmap` on a range of the lower half, over the words of the tables and over the tables of process `i`. -/
theorem kmmap_mirrors {addr : BitVec 64} (hr : s.Ready t l) (hz : table s.mem s.cr3 s.temp 4 = none) (hhigh : s.High)
    (h : Mirrors i s m) (hpos : 0 < n) (hsize : n < 2 ^ 31) (hlow : addr.toNat + n ≤ 2 ^ 47) (hflags : UpperFlags flags)
    (hroom : 4 * spanned addr n ≤ l.length) :
    ∃ s' m', kmmap addr (BitVec.ofNat 32 n) flags s = .ok () s' ∧ m.kmmap i addr.toNat n flags = some m' ∧
      Mirrors i s' m' := by
  have hstart : addr &&& ~~~(4096 - 1) = pageAddr (addr.toNat / 4096) := by
    apply BitVec.eq_of_toNat_eq
    rw [Boot.alignDown_toNat, pageAddr_toNat (by omega)]
    omega
  have hcount : (Mach.kmmapPages addr.toNat (Int.bmod n (2 ^ 32))).toNat = spanned addr n := by
    rw [Mach.kmmapPages_eq hsize, spanned]
    omega
  rw [kmmap_eq hpos hsize (by omega), hstart, Mach.kmmap, hcount]
  refine kmmapPages_mirrors hr hz hhigh h ?_ hflags hroom
  rw [spanned]
  omega

end Phys

end Os506
