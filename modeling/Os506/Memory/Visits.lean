import Os506.Memory.Remap

namespace Os506

open Pging CopyOnWrite

namespace Mach

variable {m m' m'' : Mach} {slack slack' : ℕ → ℕ} {i j p : ℕ} {f g : BitVec 64} {b : Bool}

structure Advance (slack : ℕ → ℕ) (m m' : Mach) : Prop where
  sound : Sound slack m'
  alike : Alike m m'
  held : Held m m'

theorem Advance.trans (h : Advance slack m m') (h' : Advance slack' m' m'') : Advance slack' m m'' :=
  ⟨h'.sound, h.alike.trans h'.alike, h.held.trans h'.held⟩

theorem Held.refl (m : Mach) : Held m m := fun _ hf => ⟨hf, le_rfl⟩

theorem Settled.refl (m : Mach) : Settled m m := fun _ hf => .inl ⟨hf, rfl⟩

theorem Sound.mono (h : Sound slack m) (hs : ∀ q, slack' q ≤ slack q) : Sound slack' m :=
  ⟨h.ok, h.rooted, h.entry, h.priv, h.bounded, h.leaves, fun _ _ _ _ hm => h.limit_kept hm hs,
    fun q => (hs q).trans (h.slack_le q), h.vmas_le⟩

theorem Sound.advance_refl (h : Sound slack m) : Advance slack m m := ⟨h, .refl m, .refl m⟩

theorem Sound.advance_grown (h : Sound slack m) (hg : Grown m m') (hs : Sound slack m') : Advance slack m m' :=
  ⟨hs, hg.toAlike, (h.settled_grown hg).2⟩

def sees (m : Mach) (i p : ℕ) (c : Option (ℕ → UInt8)) : ℕ → ℕ → Option (ℕ → UInt8) :=
  Function.update m.seen i (Function.update (m.seen i) p c)

theorem sees_self {c : Option (ℕ → UInt8)} (h : m.seen i p = c) : m.sees i p c = m.seen := by
  rw [sees, ← h, Function.update_eq_self, Function.update_eq_self]

theorem seen_eq_none : m.seen i p = none ↔ m.cow.map i p = none := Option.map_eq_none_iff

theorem seen_of_map (h : m.cow.map i p = some (f, b)) : m.seen i p = some (m.mem f) := by
  rw [seen, Space.seen, h]
  rfl

theorem isPresent_iff_seen : isPresent ((m.tables i).pte p) = true ↔ m.seen i p ≠ none := by
  rw [isPresent_iff_map, ne_eq, ne_eq, seen_eq_none]

def Opens (m m' : Mach) : Prop := ∀ k q, m'.cow.map k q = m.cow.map k q ∨ ∃ f, m'.cow.map k q = some (f, true)

theorem Opens.trans (h : Opens m m') (h' : Opens m' m'') : Opens m m'' := fun k q =>
  (h' k q).elim (fun he => (h k q).imp he.trans fun ⟨f, hf⟩ => ⟨f, he.trans hf⟩) .inr

theorem Grown.opens (h : Grown m m') : Opens m m' := fun k q => .inl (congrFun (congrFun h.map k) q)

theorem mapPage_fresh (h : Sound slack m) (hg : Fresh m g) (hm : m.mapPage i g p rwUser = some m') :
    Advance slack m m' ∧ Settled m m' ∧ Opens m m' ∧
      m'.seen = m.sees i p (some ((m.seen i p).getD (m.mem g))) := by
  obtain ⟨m₁, hgrown, hs₁, hu, rfl⟩ := mapPage_cases h (by decide) hm
  have hfresh := hg.grown hgrown
  have hadv := h.advance_grown hgrown hs₁
  have hset := (h.settled_grown hgrown).1
  have hseen := h.seen_grown hgrown
  split
  · rename_i hp
    obtain ⟨hs, hst, hh⟩ := hs₁.release_fresh hfresh
    refine ⟨hadv.trans ⟨hs, ⟨fun _ => rfl, fun _ => rfl, rfl, rfl⟩, hh⟩, hset.trans hst, hgrown.opens, ?_⟩
    obtain ⟨c, hc⟩ := Option.ne_none_iff_exists'.mp (isPresent_iff_seen.mp hp)
    rw [sees_self (by rw [hc]; rfl)]
    exact hseen
  · rename_i hp
    have hz : m.seen i p = none := not_not.mp (mt isPresent_iff_seen.mpr hp)
    have hz₁ : m₁.cow.map i p = none := by rw [hgrown.map]; exact seen_eq_none.mp hz
    obtain ⟨hs, hcow, hst, hh⟩ := hs₁.mapFresh hu hfresh hz₁
    have hopen : Opens m₁ (m₁.setPte i p (entryOf g true)) := fun k q => by
      rw [hcow]
      by_cases hx : k = i ∧ q = p
      · rw [hx.1, hx.2, Space.set_map_self]; exact .inr ⟨g, rfl⟩
      · exact .inl (Space.set_map_of_ne _ hx)
    refine ⟨hadv.trans ⟨hs, alike_modifyTables _ _ _, hh⟩, hset.trans hst, hgrown.opens.trans hopen, ?_⟩
    have hmem : m₁.cow.mem g = m.mem g := (hgrown.kept g (by rw [hg.counts]; exact one_pos)).2
    have hgoal : (m₁.setPte i p (entryOf g true)).seen = m.sees i p (some ((m.seen i p).getD (m.mem g))) := by
      rw [seen, hcow, Space.seen_set, hmem, hz, sees, ← hseen]
      rfl
    exact hgoal

theorem mapZero_spec (h : Sound slack m) (hm : m.mapZero i p rwUser = some m') :
    Advance slack m m' ∧ Settled m m' ∧ Opens m m' ∧
      m'.seen = m.sees i p (some ((m.seen i p).getD fun _ => 0)) := by
  obtain ⟨⟨g, m₁⟩, hg, hm⟩ := Option.bind_eq_some_iff.mp hm
  obtain ⟨hgrown, hs, hfresh⟩ := getFreePage_grown h hg fun _ => 0
  obtain ⟨hadv, hset, hopen, hseen⟩ := mapPage_fresh hs hfresh hm
  refine ⟨(h.advance_grown hgrown hs).trans hadv, (h.settled_grown hgrown).1.trans hset, hgrown.opens.trans hopen, ?_⟩
  have hzero : (m₁.setPage g fun _ => 0).mem g = fun _ => 0 := Function.update_self _ _ _
  rw [hseen, sees, h.seen_grown hgrown, hzero, sees]

theorem mapPages_spec {l : List ℕ} (h : Sound slack m) (hm : m.mapPages i rwUser l = some m') :
    Advance slack m m' ∧ Settled m m' ∧ Opens m m' ∧ ∀ k q, m'.seen k q =
      if k = i ∧ q ∈ l then some ((m.seen i q).getD fun _ => 0) else m.seen k q := by
  induction l generalizing m with
  | nil =>
    obtain rfl := Option.some.inj hm
    exact ⟨h.advance_refl, .refl m, fun _ _ => .inl rfl, by simp⟩
  | cons p l ih =>
    obtain ⟨m₁, hm₁, hm⟩ := Option.bind_eq_some_iff.mp hm
    obtain ⟨hadv, hset, hopen, hseen⟩ := mapZero_spec h hm₁
    obtain ⟨hadv', hset', hopen', hseen'⟩ := ih hadv.sound hm
    refine ⟨hadv.trans hadv', hset.trans hset', hopen.trans hopen', fun k q => ?_⟩
    rw [hseen' k q, hseen]
    by_cases hk : k = i
    · subst hk
      by_cases hq : q = p
      · subst hq; simp [sees]
      · simp [sees, hq]
    · simp [sees, hk]

section Entries

variable (hf : PMap.Physical f)

include hf

theorem entryOf_protect : (entryOf f true &&& ~~~pageRW) ||| pageCow = entryOf f false := by
  have hand : (f ||| rwUser) &&& ~~~pageRW = f ||| (rwUser &&& ~~~pageRW) := by
    rw [BitVec.and_comm, BitVec.and_or_distrib_left, BitVec.and_comm _ f, and_high hf (by decide), BitVec.and_comm]
  have hflags : rwUser &&& ~~~pageRW ||| pageCow = cowUser := by decide
  simp only [entryOf, ↓reduceIte, Bool.false_eq_true]
  rw [hand, BitVec.or_assoc, hflags]

theorem entryOf_flags : entryOf f false &&& 0xFFF = cowUser := by
  have h := or_and_low hf (x := cowUser) (y := 0xFFF) (by decide)
  exact h.trans (by decide)

theorem entryOf_frame : entryOf f b &&& ~~~0xFFF = f := by
  cases b
  · exact or_and_high hf (by decide) (by decide)
  · exact or_and_high hf (by decide) (by decide)

theorem entryOf_not_physical : ¬ PMap.Physical (entryOf f false) := by
  intro h
  have hlow := or_and_low hf (x := cowUser) (y := 0xFFF0000000000FFF#64) (by decide)
  have hz : cowUser &&& 0xFFF0000000000FFF#64 = 0#64 := hlow.symm.trans h
  exact absurd hz (by decide)

theorem isRW_entryOf : isRW (entryOf f b) = b := by
  cases b
  · rw [isRW, entryOf, or_and_low hf (by decide)]; decide
  · rw [isRW, entryOf, or_and_low hf (by decide)]; decide

theorem isCow_entryOf : isCow (entryOf f b) = !b := by
  cases b
  · rw [isCow, entryOf, or_and_low hf (by decide)]; decide
  · rw [isCow, entryOf, or_and_low hf (by decide)]; decide

theorem frame_entryOf : Mmu.frame (entryOf f b) = f := by
  cases b
  · exact or_and_high hf (by decide) (by decide)
  · exact or_and_high hf (by decide) (by decide)

end Entries

def Copied (i j : ℕ) (m : Mach) : Prop := ∀ q, m.seen j q = none ∨ m.seen j q = m.seen i q

theorem sees_of_ne {c : Option (ℕ → UInt8)} {k : ℕ} (h : k ≠ j) : m.sees j p c k = m.seen k :=
  Function.update_of_ne h _ _

theorem Copied.sees (h : Copied i j m) (hij : i ≠ j) (hs : m'.seen = m.sees j p (m.seen i p)) : Copied i j m' := by
  intro q
  rw [hs, sees_of_ne hij]
  by_cases hq : q = p
  · subst hq; right; simp [Mach.sees]
  · simpa [Mach.sees, hq] using h q

theorem copyPage_spec (h : Sound slack m) (hc : Copied i j m) (hp : m.seen i p ≠ none)
    (hm : m.copyPage i j p = some m') :
    Advance slack m m' ∧ Settled m m' ∧ m'.seen = m.sees j p (m.seen i p) := by
  obtain ⟨⟨f, b⟩, hmap⟩ := Option.ne_none_iff_exists'.mp (mt seen_eq_none.mpr hp)
  obtain ⟨hknown, hpte⟩ := h.map_eq_some hmap
  obtain ⟨⟨g, m₁⟩, hg, hm⟩ := Option.bind_eq_some_iff.mp hm
  obtain ⟨hgrown₀, _, hfresh₀⟩ := getFreePage_grown h hg fun _ => 0
  obtain ⟨hgrown, hs, hfresh⟩ := getFreePage_grown h hg (m.mem f)
  have hpos : 0 < m.pmap.counts f := h.counts_pos ⟨i, p, b, hmap⟩
  -- the bytes are read after the new frame was cleared, which is another frame
  have hbytes : (m₁.zeroPage g).mem (Mmu.frame (((m₁.zeroPage g).tables i).pte p)) = m.mem f := by
    have hpte₁ : ((m₁.zeroPage g).tables i).pte p = entryOf f b := (congrFun (hgrown₀.pte i) p).trans hpte
    rw [hpte₁, frame_entryOf (h.ok.physical f hknown)]
    exact (hgrown₀.kept f hpos).2
  have hstate : (m₁.zeroPage g).setPage g (m.mem f) = m₁.setPage g (m.mem f) := by
    simp only [zeroPage, setPage, Function.update_idem]
  simp only [hbytes, hstate] at hm
  obtain ⟨hadv, hset, _, hseen⟩ := mapPage_fresh hs hfresh hm
  refine ⟨(h.advance_grown hgrown hs).trans hadv, (h.settled_grown hgrown).1.trans hset, ?_⟩
  have hcopy : (m₁.setPage g (m.mem f)).mem g = m.mem f := Function.update_self _ _ _
  rw [hseen, Mach.sees, h.seen_grown hgrown, hcopy, Mach.sees, seen_of_map hmap]
  rcases hc p with hz | he
  · rw [hz]; rfl
  · rw [he, seen_of_map hmap]; rfl

theorem copyStack_spec {l : List ℕ} (h : Sound slack m) (hij : i ≠ j) (hc : Copied i j m)
    (hm : m.copyStack i j l = some m') :
    Advance slack m m' ∧ Settled m m' ∧ Copied i j m' ∧ ∀ k q, m'.seen k q =
      if k = j ∧ q ∈ l.takeWhile (fun p => (m.seen i p).isSome) then m.seen i q else m.seen k q := by
  induction l generalizing m with
  | nil =>
    obtain rfl := Option.some.inj hm
    exact ⟨h.advance_refl, .refl m, hc, by simp⟩
  | cons p l ih =>
    rw [copyStack] at hm
    split at hm
    · cases hm
    · split at hm
      · rename_i hp
        have hp := isPresent_iff_seen.mp hp
        obtain ⟨m₁, hm₁, hm⟩ := Option.bind_eq_some_iff.mp hm
        obtain ⟨hadv, hset, hseen⟩ := copyPage_spec h hc hp hm₁
        obtain ⟨hadv', hset', hc', hseen'⟩ := ih hadv.sound (hc.sees hij hseen) hm
        have hsame : m₁.seen i = m.seen i := by rw [hseen, sees_of_ne hij]
        refine ⟨hadv.trans hadv', hset.trans hset', hc', fun k q => ?_⟩
        have hsome : (m.seen i p).isSome = true := Option.isSome_iff_ne_none.mpr hp
        rw [hseen' k q, hsame, List.takeWhile_cons, if_pos hsome, hseen]
        by_cases hk : k = j
        · subst hk
          by_cases hq : q = p
          · subst hq; simp [Mach.sees]
          · simp [Mach.sees, hq]
        · simp [Mach.sees, hk]
      · rename_i hp
        have hz : m.seen i p = none := not_not.mp (mt isPresent_iff_seen.mpr hp)
        obtain rfl := Option.some.inj hm
        exact ⟨h.advance_refl, .refl m, hc, fun k q => by simp [hz]⟩

theorem shareFrame_spec (h : Sound slack m) (hpos : 0 < slack p) (hmap : m.cow.map i p = some (f, false))
    (hc : m.seen j p = none ∨ m.seen j p = m.seen i p)
    (hm : (m.mapPage j (entryOf f false) p cowUser).map (incMapCount f) = some m') :
    Advance (Function.update slack p (slack p - 1)) m m' ∧ m'.seen = m.sees j p (m.seen i p) ∧
      (m.seen j p = none → Settled m m') ∧ (m.seen j p ≠ none → m.excess f < m'.excess f) := by
  obtain ⟨m₂, hm₂, rfl⟩ := Option.map_eq_some_iff.mp hm
  obtain ⟨m₁, hgrown, hs₁, hu, rfl⟩ := mapPage_cases h (by decide) hm₂
  have hphys := h.ok.physical f (h.map_eq_some hmap).1
  have hadv := h.advance_grown hgrown hs₁
  have hset := (h.settled_grown hgrown).1
  have hseen := h.seen_grown hgrown
  have hmap₁ : m₁.cow.map i p = some (f, false) := by rw [hgrown.map]; exact hmap
  have hexcess : m₁.excess f = m.excess f :=
    excess_congr hgrown.map (hgrown.kept f (h.counts_pos ⟨i, p, false, hmap⟩)).1
  split
  · rename_i hp
    have hp := isPresent_iff_seen.mp hp
    rw [hs₁.release_flags (entryOf_not_physical hphys)]
    obtain ⟨hs, hcow, hh, hlt⟩ := hs₁.recount_again hmap₁ hpos
    refine ⟨hadv.trans ⟨hs, ⟨fun _ => rfl, fun _ => rfl, rfl, rfl⟩, hh⟩, ?_, fun hz => absurd hz hp,
      fun _ => hexcess ▸ hlt⟩
    rw [sees_self (hc.resolve_left hp)]
    exact hseen
  · rename_i hp
    have hz : m.seen j p = none := not_not.mp (mt isPresent_iff_seen.mpr hp)
    have hz₁ : m₁.cow.map j p = none := by rw [hgrown.map]; exact seen_eq_none.mp hz
    have hentry : entryOf f false ||| cowUser = entryOf f false := by
      simp only [entryOf, Bool.false_eq_true, ↓reduceIte]
      rw [BitVec.or_assoc, BitVec.or_self]
    rw [hentry]
    obtain ⟨hs, hcow, hst, hh⟩ := hs₁.share hu hmap₁ hz₁ hpos
    have halike : Alike m₁ ((m₁.setPte j p (entryOf f false)).incMapCount f) := by
      obtain ⟨h₁, h₂, h₃, h₄⟩ := alike_modifyTables m₁ j fun t =>
        { t with pte := Function.update t.pte p (entryOf f false) }
      exact ⟨h₁, h₂, h₃, h₄⟩
    refine ⟨hadv.trans ⟨hs, halike, hh⟩, ?_, fun _ => hset.trans hst, fun hne => absurd hz hne⟩
    have hmem : m₁.cow.mem f = m.mem f := (hgrown.kept f (h.counts_pos ⟨i, p, false, hmap⟩)).2
    rw [seen, hcow, Space.seen_set, hmem, sees, seen_of_map hmap, ← hseen]

theorem sharePage_spec (h : Sound slack m) (hpos : 0 < slack p) (hc : Copied i j m)
    (hm : m.sharePage i j p = some m') :
    Advance (Function.update slack p (slack p - 1)) m m' ∧ m'.seen = m.sees j p (m.seen i p) ∧
      (m.seen i p = none ∨ m.seen j p = none → Settled m m') ∧
      (m.seen i p ≠ none → m.seen j p ≠ none → ∃ f, m.cow.Mapped f ∧ m.excess f < m'.excess f) := by
  rw [sharePage] at hm
  split at hm
  · cases hm
  · rename_i hreach
    have hu : (m.tables i).upper .pde (p / 512) ≠ 0 := (h.rooted i).reached_iff.mp (not_not.mp hreach)
    dsimp only at hm
    split at hm
    · rename_i hp
      have hp := isPresent_iff_seen.mp hp
      obtain ⟨⟨f, b⟩, hmap⟩ := Option.ne_none_iff_exists'.mp (mt seen_eq_none.mpr hp)
      obtain ⟨hknown, hpte⟩ := h.map_eq_some hmap
      have hphys := h.ok.physical f hknown
      rw [hpte, isRW_entryOf hphys] at hm
      cases b with
      | false =>
        simp only [Bool.false_eq_true, ↓reduceIte, entryOf_flags hphys, entryOf_frame hphys] at hm
        obtain ⟨hadv, hseen, hset, hlt⟩ := shareFrame_spec h hpos hmap (hc p) hm
        exact ⟨hadv, hseen, fun hz => hset (hz.resolve_left hp), fun _ hne => ⟨f, ⟨i, p, false, hmap⟩, hlt hne⟩⟩
      | true =>
        simp only [↓reduceIte, entryOf_protect hphys, entryOf_flags hphys, entryOf_frame hphys] at hm
        obtain ⟨hs, hcow, hsame, hset₁, hheld⟩ := h.protect hu hmap
        obtain ⟨m₁, hm₁⟩ : ∃ m₁, m₁ = m.setPte i p (entryOf f false) := ⟨_, rfl⟩
        rw [← hm₁] at hm hs hcow hsame hset₁ hheld
        have hmap₁ : m₁.cow.map i p = some (f, false) := by rw [hcow, Space.set_map_self]
        have halike : Alike m m₁ := hm₁ ▸ alike_modifyTables _ _ _
        obtain ⟨hadv, hseen, hset, hlt⟩ := shareFrame_spec hs hpos hmap₁ (by rw [hsame]; exact hc p) hm
        rw [hsame] at hseen hset hlt
        refine ⟨Advance.trans ⟨hs, halike, hheld⟩ hadv, by rw [hseen, sees, sees, hsame],
          fun hz => hset₁.trans (hset (hz.resolve_left hp)), fun _ hne => ⟨f, ⟨i, p, true, hmap⟩, ?_⟩⟩
        exact (hheld f ⟨i, p, true, hmap⟩).2.trans_lt (hlt hne)
    · rename_i hp
      have hz : m.seen i p = none := not_not.mp (mt isPresent_iff_seen.mpr hp)
      obtain rfl := Option.some.inj hm
      have hzj : m.seen j p = none := (hc p).elim id fun he => he.trans hz
      refine ⟨⟨h.mono (slack_update_le slack p), .refl m, .refl m⟩, ?_, fun _ => .refl m, fun hne => absurd hz hne⟩
      rw [sees_self (hzj.trans hz.symm)]

theorem Sound.excess_nonneg (h : Sound slack m) (hf : m.cow.Mapped f) : 0 ≤ m.excess f := by
  have := h.leaves f hf
  rw [excess]
  omega

theorem count_update (p : ℕ) (l : List ℕ) :
    Function.update (fun q => (p :: l).count q) p ((p :: l).count p - 1) = fun q => l.count q := by
  funext q
  by_cases hq : q = p
  · subst hq; simp
  · rw [Function.update_of_ne hq, List.count_cons_of_ne (Ne.symm hq)]

/-- The child gets all pages of the list that the parent has. The counts stay in step as long as no such page
is visited twice, and do not if one is. -/
theorem sharePages_spec {l : List ℕ} (h : Sound (fun q => l.count q) m) (hij : i ≠ j) (hc : Copied i j m)
    (hm : m.sharePages i j l = some m') :
    Advance (fun _ => 0) m m' ∧ Copied i j m' ∧
      (∀ k q, m'.seen k q = if k = j ∧ q ∈ l then m.seen i q else m.seen k q) ∧
      ((∀ p ∈ l, m.seen i p ≠ none → m.seen j p = none ∧ l.count p = 1) → Settled m m') ∧
      ((∃ p ∈ l, m.seen i p ≠ none ∧ (m.seen j p ≠ none ∨ 2 ≤ l.count p)) →
        ∃ f, m'.cow.Mapped f ∧ 0 < m'.excess f) := by
  induction l generalizing m with
  | nil =>
    obtain rfl := Option.some.inj hm
    exact ⟨⟨h, .refl m, .refl m⟩, hc, by simp, fun _ => .refl m, by simp⟩
  | cons p l ih =>
    obtain ⟨m₁, hm₁, hm⟩ := Option.bind_eq_some_iff.mp hm
    obtain ⟨hadv, hseen, hset, hup⟩ := sharePage_spec h (by simp) hc hm₁
    rw [count_update] at hadv
    obtain ⟨hadv', hc', hseen', hset', hup'⟩ := ih hadv.sound (hc.sees hij hseen) hm
    have hparent : m₁.seen i = m.seen i := by rw [hseen, sees_of_ne hij]
    have hself : m₁.seen j p = m.seen i p := by rw [hseen]; simp [Mach.sees]
    have hother : ∀ q, q ≠ p → m₁.seen j q = m.seen j q ∧ (p :: l).count q = l.count q := fun q hq =>
      ⟨by rw [hseen]; simp [Mach.sees, hq], List.count_cons_of_ne (Ne.symm hq)⟩
    refine ⟨hadv.trans hadv', hc', fun k q => ?_, fun hone => ?_, ?_⟩
    · rw [hseen' k q, hparent, hseen]
      by_cases hk : k = j
      · subst hk
        by_cases hq : q = p
        · subst hq; simp [Mach.sees]
        · simp [Mach.sees, hq]
      · simp [Mach.sees, hk]
    · have hhead : m.seen i p = none ∨ m.seen j p = none := by
        by_cases hz : m.seen i p = none
        · exact .inl hz
        · exact .inr (hone p (by simp) hz).1
      refine (hset hhead).trans (hset' fun q hq hne => ?_)
      rw [hparent] at hne
      obtain ⟨hzero, hcount⟩ := hone q (by simp [hq]) hne
      have hqp : q ≠ p := by
        rintro rfl
        have := List.count_pos_iff.mpr hq
        rw [List.count_cons_self] at hcount
        omega
      rw [(hother q hqp).1, ← (hother q hqp).2]
      exact ⟨hzero, hcount⟩
    · rintro ⟨q, hq, hne, htwice⟩
      by_cases hdouble : m.seen i p ≠ none ∧ m.seen j p ≠ none
      · obtain ⟨f, hf, hlt⟩ := hup hdouble.1 hdouble.2
        obtain ⟨hmapped, hle⟩ := hadv'.held f (hadv.held f hf).1
        exact ⟨f, hmapped, (h.excess_nonneg hf).trans_lt (hlt.trans_le hle)⟩
      · -- the head is no repetition, so the repetition is still to come
        apply hup'
        by_cases hqp : q = p
        · subst hqp
          have hz : m.seen j q = none := by
            by_contra hne'
            exact hdouble ⟨hne, hne'⟩
          have hcount : 2 ≤ (q :: l).count q := htwice.resolve_left fun h => h hz
          rw [List.count_cons_self] at hcount
          exact ⟨q, List.count_pos_iff.mp (by omega), by rw [hparent]; exact hne, .inl (by rw [hself]; exact hne)⟩
        · refine ⟨q, (List.mem_cons.mp hq).resolve_left hqp, by rw [hparent]; exact hne, ?_⟩
          rw [(hother q hqp).1, ← (hother q hqp).2]
          exact htwice

theorem sharePages_append (i j : ℕ) (l₁ l₂ : List ℕ) (m : Mach) :
    m.sharePages i j (l₁ ++ l₂) = (m.sharePages i j l₁).bind (sharePages i j l₂) := by
  induction l₁ generalizing m with
  | nil => rfl
  | cons p l₁ ih =>
    rw [List.cons_append, sharePages, sharePages, Option.bind_assoc]
    exact congrArg _ (funext ih)

end Mach

end Os506
