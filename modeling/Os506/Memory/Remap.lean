import Os506.Memory.Sharing

namespace Os506

open Pging CopyOnWrite

namespace Mach

variable {m m' m'' : Mach} {slack slack' : ℕ → ℕ} {i j p : ℕ} {f g : BitVec 64} {b d : Bool}

theorem leaf_entryOf (hf : PMap.Physical f) : leaf (entryOf f b) = some (f, b) := by
  cases b
  · exact leaf_cowUser hf
  · exact leaf_rwUser hf

theorem leaf_zero : leaf 0 = none := rfl

theorem Sound.map_eq_none (h : Sound slack m) : m.cow.map i p = none ↔ (m.tables i).pte p = 0 := by
  simp only [cow]
  rcases h.entry i p with he | ⟨f, b, hf, he⟩
  · rw [he]; exact iff_of_true (by decide) rfl
  · have hl : leaf ((m.tables i).pte p) = some (f, b) := by rw [he, leaf_entryOf (h.ok.physical f hf)]
    rw [hl]
    refine iff_of_false (by simp) fun hz => ?_
    rw [hz, leaf_zero] at hl
    cases hl

theorem Sound.map_eq_some (h : Sound slack m) (hm : m.cow.map i p = some (f, b)) :
    m.pmap.Known f ∧ (m.tables i).pte p = entryOf f b := by
  simp only [cow] at hm
  rcases h.entry i p with he | ⟨g, d, hg, he⟩
  · rw [he, leaf_zero] at hm
    cases hm
  · rw [he, leaf_entryOf (h.ok.physical g hg)] at hm
    obtain ⟨rfl, rfl⟩ := Prod.mk.inj (Option.some.inj hm)
    exact ⟨hg, he⟩

theorem isPresent_iff_map : isPresent ((m.tables i).pte p) = true ↔ m.cow.map i p ≠ none := by
  simp only [cow, leaf]
  split <;> simp_all

theorem cow_setPte {e : BitVec 64} {x : BitVec 64 × Bool} (he : leaf e = some x) :
    (m.setPte i p e).cow = m.cow.set i p x := by
  simp only [cow, Space.set, Space.mk.injEq]
  constructor
  · funext k q
    by_cases hk : k = i
    · subst hk
      by_cases hq : q = p
      · subst hq; simp [setPte, modifyTables_self, he]
      · simp [setPte, modifyTables_self, hq]
    · simp [setPte, modifyTables_of_ne _ _ hk, hk]
  · rfl

/-- How many references to a frame there are beyond its leaf entries. -/
noncomputable def excess (m : Mach) (f : BitVec 64) : ℤ := m.pmap.counts f - (m.cow.holders f).ncard

def Settled (m m' : Mach) : Prop :=
  ∀ f, m'.cow.Mapped f → (m.cow.Mapped f ∧ m'.excess f = m.excess f) ∨ m'.excess f = 0

def Held (m m' : Mach) : Prop := ∀ f, m.cow.Mapped f → m'.cow.Mapped f ∧ m.excess f ≤ m'.excess f

theorem Settled.trans (h : Settled m m') (h' : Settled m' m'') : Settled m m'' := by
  intro f hf
  rcases h' f hf with ⟨hf', he'⟩ | hz
  · rcases h f hf' with ⟨hm, he⟩ | hz
    · exact .inl ⟨hm, he'.trans he⟩
    · exact .inr (he'.trans hz)
  · exact .inr hz

theorem Held.trans (h : Held m m') (h' : Held m' m'') : Held m m'' := fun f hf =>
  ⟨(h' f (h f hf).1).1, (h f hf).2.trans (h' f (h f hf).1).2⟩

theorem excess_congr (hm : m'.cow.map = m.cow.map) (hc : m'.pmap.counts f = m.pmap.counts f) :
    m'.excess f = m.excess f := by
  rw [excess, excess, holders_congr hm, hc]

theorem Sound.excess_grown (h : Sound slack m) (hg : Grown m m') (hf : m.cow.Mapped f) : m'.excess f = m.excess f :=
  excess_congr hg.map (hg.kept f (h.counts_pos hf)).1

theorem Sound.settled_grown (h : Sound slack m) (hg : Grown m m') : Settled m m' ∧ Held m m' := by
  have he : ∀ f, m.cow.Mapped f → m'.excess f = m.excess f := fun f => h.excess_grown hg
  constructor
  · intro f hf
    have hf' := (mapped_congr hg.map).mp hf
    exact .inl ⟨hf', he f hf'⟩
  · intro f hf
    exact ⟨(mapped_congr hg.map).mpr hf, (he f hf).ge⟩

theorem setPte_tables (m : Mach) (e : BitVec 64) (k q : ℕ) : ((m.setPte i p e).tables k).pte q =
    if k = i ∧ q = p then e else (m.tables k).pte q := by
  by_cases hk : k = i
  · subst hk
    rw [setPte, modifyTables_self]
    by_cases hq : q = p
    · simp [hq]
    · simp [hq]
  · rw [setPte, modifyTables_of_ne _ _ hk, if_neg fun h => hk h.1]

theorem rooted_setPte (e : BitVec 64) (h : ∀ k, (m.tables k).Rooted) (hu : (m.tables i).upper .pde (p / 512) ≠ 0) (k : ℕ) :
    ((m.setPte i p e).tables k).Rooted := by
  by_cases hk : k = i
  · subst hk
    rw [setPte, modifyTables_self]
    exact (h k).setPte hu
  · rw [setPte, modifyTables_of_ne _ _ hk]; exact h k

theorem Entry.recounted {s s' : PMap} {n : ℕ} {e : BitVec 64} (h : Entry s e) (hs : PMap.Recounted g n s s') :
    Entry s' e := by
  rcases h with h0 | ⟨f, b, hf, he⟩
  · exact .inl h0
  · exact .inr ⟨f, b, (hs.known f).mpr hf, he⟩

theorem Sound.relink {n : ℕ} (h : Sound slack m) (hu : (m.tables i).upper .pde (p / 512) ≠ 0) (hf : m.pmap.Known f)
    (ht : m'.tables = (m.setPte i p (entryOf f b)).tables) (hv : m'.vmas = m.vmas) (hm : m'.mem = m.mem)
    (hs : PMap.Recounted g n m.pmap m'.pmap) (hp : (m.cow.set i p (f, b)).Private)
    (hl : ∀ e, (m.cow.set i p (f, b)).Mapped e → ((m.cow.set i p (f, b)).holders e).ncard ≤ m'.pmap.counts e)
    (hlim : ∀ k q e d, (m.cow.set i p (f, b)).map k q = some (e, d) → m'.pmap.counts e + slack' q ≤ m.vmas + 1)
    (hsl : ∀ q, slack' q ≤ slack q) : Sound slack' m' ∧ m'.cow = m.cow.set i p (f, b) := by
  have hcow : m'.cow = m.cow.set i p (f, b) := by
    rw [← cow_setPte (leaf_entryOf (h.ok.physical f hf)), cow, cow, ht, hm]
    rfl
  refine ⟨⟨hs.ok, ?_, fun k q => ?_, ?_, ?_, ?_, ?_, ?_, ?_⟩, hcow⟩
  · rw [ht]; exact rooted_setPte _ h.rooted hu
  · rw [ht, setPte_tables]
    split
    · exact .inr ⟨f, b, (hs.known f).mpr hf, rfl⟩
    · exact (h.entry k q).recounted hs
  · rw [hcow]; exact hp
  · rw [hcow]; exact h.bounded.set _
  · rw [hcow]; exact hl
  · rw [hcow, hv]; exact hlim
  · rw [hv]; exact fun q => (hsl q).trans (h.slack_le q)
  · rw [hv]; exact h.vmas_le

theorem mapped_set (h : (m.cow.set i p (f, b)).Mapped g) : g = f ∨ m.cow.Mapped g := by
  obtain ⟨k, q, d, hm⟩ := h
  rcases Space.set_map_cases hm with ⟨_, _, he⟩ | ⟨_, hm⟩
  · exact .inl (Prod.mk.inj he).1
  · exact .inr ⟨k, q, d, hm⟩

theorem mapped_set_of_none (hz : m.cow.map i p = none) (h : m.cow.Mapped g) : (m.cow.set i p (f, b)).Mapped g := by
  obtain ⟨k, q, d, hm⟩ := h
  refine ⟨k, q, d, (Space.set_map_of_ne _ ?_).trans hm⟩
  rintro ⟨rfl, rfl⟩
  rw [hz] at hm
  cases hm

theorem Sound.limit_kept {k q : ℕ} {e : BitVec 64} (h : Sound slack m) (hm : m.cow.map k q = some (e, d))
    (hsl : ∀ q, slack' q ≤ slack q) : m.pmap.counts e + slack' q ≤ m.vmas + 1 :=
  (Nat.add_le_add_left (hsl q) _).trans (h.limit k q e d hm)

theorem Sound.mapFresh (h : Sound slack m) (hu : (m.tables i).upper .pde (p / 512) ≠ 0) (hg : Fresh m g)
    (hz : m.cow.map i p = none) : Sound slack (m.setPte i p (entryOf g true)) ∧
      (m.setPte i p (entryOf g true)).cow = m.cow.set i p (g, true) ∧
      Settled m (m.setPte i p (entryOf g true)) ∧ Held m (m.setPte i p (entryOf g true)) := by
  have hone : ((m.cow.set i p (g, true)).holders g).ncard = 1 := by
    have hzero : (m.cow.holders g).ncard = 0 := by
      have := mt (Space.mapped_iff h.bounded).mpr hg.unmapped
      omega
    rw [Space.ncard_holders_set_new h.bounded (by simp [hz]), hzero]
  have hother : ∀ e, e ≠ g → (m.cow.set i p (g, true)).holders e = m.cow.holders e := fun e he =>
    Space.holders_set_other he (by simp [hz])
  have hne : ∀ e, m.cow.Mapped e → e ≠ g := fun e he hg' => hg.unmapped (hg' ▸ he)
  have hrel : Sound slack (m.setPte i p (entryOf g true)) ∧
      (m.setPte i p (entryOf g true)).cow = m.cow.set i p (g, true) := h.relink hu hg.known rfl rfl rfl
    (h.ok.same rfl) (g := g) (h.priv.set_fresh hg.unmapped)
    (fun e he => by
      rcases mapped_set he with rfl | he
      · rw [hone]; exact hg.counts.ge
      · rw [hother e (hne e he)]; exact h.leaves e he)
    (fun k q e d he => by
      rcases Space.set_map_cases he with ⟨_, _, hx⟩ | ⟨_, he⟩
      · have hc : (m.setPte i p (entryOf g true)).pmap.counts g = 1 := hg.counts
        rw [(Prod.mk.inj hx).1, hc, Nat.add_comm]
        exact Nat.add_le_add_right (h.slack_le q) 1
      · exact h.limit k q e d he)
    fun _ => le_rfl
  obtain ⟨hs, hcow⟩ := hrel
  have hexcess : ∀ e, m.cow.Mapped e → (m.setPte i p (entryOf g true)).excess e = m.excess e := fun e he => by
    rw [excess, excess, hcow, hother e (hne e he)]; rfl
  refine ⟨hs, hcow, fun e he => ?_, fun e he => ⟨hcow ▸ mapped_set_of_none hz he, (hexcess e he).ge⟩⟩
  rw [hcow] at he
  rcases mapped_set he with rfl | he
  · right
    have hc : (m.setPte i p (entryOf e true)).pmap.counts e = 1 := hg.counts
    rw [excess, hcow, hone, hc]
    rfl
  · exact .inl ⟨he, hexcess e he⟩

theorem Sound.protect (h : Sound slack m) (hu : (m.tables i).upper .pde (p / 512) ≠ 0)
    (hm : m.cow.map i p = some (f, true)) : Sound slack (m.setPte i p (entryOf f false)) ∧
      (m.setPte i p (entryOf f false)).cow = m.cow.set i p (f, false) ∧
      (m.setPte i p (entryOf f false)).seen = m.seen ∧
      Settled m (m.setPte i p (entryOf f false)) ∧ Held m (m.setPte i p (entryOf f false)) := by
  have hholders : ∀ e, (m.cow.set i p (f, false)).holders e = m.cow.holders e := Space.holders_set_again hm
  have hmapped : ∀ e, (m.cow.set i p (f, false)).Mapped e ↔ m.cow.Mapped e := fun e => by
    rw [Space.mapped_iff (h.bounded.set _), Space.mapped_iff h.bounded, hholders]
  have hrel : Sound slack (m.setPte i p (entryOf f false)) ∧
      (m.setPte i p (entryOf f false)).cow = m.cow.set i p (f, false) := h.relink hu (h.map_eq_some hm).1 rfl rfl rfl
    (h.ok.same rfl) (g := f) (h.priv.set_shared hm (.inl rfl))
    (fun e he => by rw [hholders]; exact h.leaves e ((hmapped e).mp he))
    (fun k q e d he => by
      rcases Space.set_map_cases he with ⟨hk, hq, hx⟩ | ⟨_, he⟩
      · rw [(Prod.mk.inj hx).1, hq]; exact h.limit i p f true hm
      · exact h.limit k q e d he)
    fun _ => le_rfl
  obtain ⟨hs, hcow⟩ := hrel
  have hexcess : ∀ e, (m.setPte i p (entryOf f false)).excess e = m.excess e := fun e => by
    rw [excess, excess, hcow, hholders]; rfl
  refine ⟨hs, hcow, ?_, fun e he => .inl ⟨(hmapped e).mp (hcow ▸ he), hexcess e⟩,
    fun e he => ⟨hcow ▸ (hmapped e).mpr he, (hexcess e).ge⟩⟩
  rw [seen, hcow, Space.seen_set]
  have hself : some (m.cow.mem f) = m.cow.seen i p := by rw [Space.seen, hm]; rfl
  rw [hself, Function.update_eq_self, Function.update_eq_self]

theorem Sound.counted (h : Sound slack m) (hm : m.cow.map i p = some (f, b)) (hpos : 0 < slack p) :
    PMap.Recounted f (m.pmap.counts f + 1) m.pmap (m.pmap.incMapCount f).2 := by
  apply PMap.incMapCount_recounted h.ok (h.counts_pos ⟨i, p, b, hm⟩)
  have hlim := h.limit i p f b hm
  have hv := h.vmas_le
  simp only [vmaLimit] at hv
  omega

theorem slack_update_le (slack : ℕ → ℕ) (p q : ℕ) : Function.update slack p (slack p - 1) q ≤ slack q := by
  by_cases hq : q = p
  · subst hq; simp
  · simp [hq]

theorem Sound.share (h : Sound slack m) (hu : (m.tables j).upper .pde (p / 512) ≠ 0)
    (hm : m.cow.map i p = some (f, false)) (hz : m.cow.map j p = none) (hpos : 0 < slack p) :
    Sound (Function.update slack p (slack p - 1)) ((m.setPte j p (entryOf f false)).incMapCount f) ∧
      ((m.setPte j p (entryOf f false)).incMapCount f).cow = m.cow.set j p (f, false) ∧
      Settled m ((m.setPte j p (entryOf f false)).incMapCount f) ∧
      Held m ((m.setPte j p (entryOf f false)).incMapCount f) := by
  obtain ⟨m', hm'⟩ : ∃ m', m' = (m.setPte j p (entryOf f false)).incMapCount f := ⟨_, rfl⟩
  rw [← hm']
  have hmapped : m.cow.Mapped f := ⟨i, p, false, hm⟩
  have hlim := h.limit i p f false hm
  have hrec : PMap.Recounted f (m.pmap.counts f + 1) m.pmap m'.pmap := hm' ▸ h.counted hm hpos
  have hself : m'.pmap.counts f = m.pmap.counts f + 1 := by rw [hrec.counts, Function.update_self]
  have hcounts : ∀ e, e ≠ f → m'.pmap.counts e = m.pmap.counts e := fun e he => by
    rw [hrec.counts, Function.update_of_ne he]
  have hnew : ((m.cow.set j p (f, false)).holders f).ncard = (m.cow.holders f).ncard + 1 :=
    Space.ncard_holders_set_new h.bounded (by simp [hz])
  have hother : ∀ e, e ≠ f → (m.cow.set j p (f, false)).holders e = m.cow.holders e := fun e he =>
    Space.holders_set_other he (by simp [hz])
  have hle := slack_update_le slack p
  have hlimit : m'.pmap.counts f + Function.update slack p (slack p - 1) p ≤ m.vmas + 1 := by
    rw [hself, Function.update_self]; omega
  obtain ⟨hs, hcow⟩ := h.relink hu (h.map_eq_some hm).1 (by rw [hm']; rfl) (by rw [hm']; rfl) (by rw [hm']; rfl) hrec
    (h.priv.set_shared hm (.inr rfl))
    (fun e he => by
      by_cases hef : e = f
      · rw [hef, hnew, hself]; exact Nat.add_le_add_right (h.leaves f hmapped) 1
      · rw [hother e hef, hcounts e hef]; exact h.leaves e ((mapped_set he).resolve_left hef))
    (fun k q e d he => by
      by_cases hef : e = f
      · -- every mapping of the frame is on the page `p`
        have hq : q = p := by
          rcases Space.set_map_cases he with ⟨_, hq, _⟩ | ⟨_, he⟩
          · exact hq
          · exact h.priv.page (hef ▸ he) hm
        rw [hef, hq]; exact hlimit
      · rcases Space.set_map_cases he with ⟨_, _, hx⟩ | ⟨_, he⟩
        · exact absurd (Prod.mk.inj hx).1 hef
        · rw [hcounts e hef]; exact h.limit_kept he hle)
    hle
  have hexcess : ∀ e, m'.excess e = m.excess e := fun e => by
    rw [excess, excess, hcow]
    by_cases hef : e = f
    · rw [hef, hnew, hself]; omega
    · rw [hother e hef, hcounts e hef]
  refine ⟨hs, hcow, fun e he => ?_, fun e he => ⟨hcow ▸ mapped_set_of_none hz he, (hexcess e).ge⟩⟩
  rcases mapped_set (hcow ▸ he) with rfl | he
  · exact .inl ⟨hmapped, hexcess e⟩
  · exact .inl ⟨he, hexcess e⟩

theorem Sound.recount {n : ℕ} (h : Sound slack m) (ht : m'.tables = m.tables) (hv : m'.vmas = m.vmas)
    (hs : PMap.Recounted f n m.pmap m'.pmap) (hl : m.cow.Mapped f → (m.cow.holders f).ncard ≤ n)
    (hlim : ∀ i p b, m.cow.map i p = some (f, b) → n + slack' p ≤ m.vmas + 1)
    (hsl : ∀ q, slack' q ≤ slack q) : Sound slack' m' := by
  have hmap : m'.cow.map = m.cow.map := by simp only [cow, ht]
  have hself : m'.pmap.counts f = n := by rw [hs.counts, Function.update_self]
  have hcounts : ∀ e, e ≠ f → m'.pmap.counts e = m.pmap.counts e := fun e he => by
    rw [hs.counts, Function.update_of_ne he]
  constructor
  · exact hs.ok
  · rw [ht]; exact h.rooted
  · intro k q
    rw [ht]
    exact (h.entry k q).recounted hs
  · obtain ⟨h₁, h₂⟩ := h.priv
    exact ⟨hmap ▸ h₁, hmap ▸ h₂⟩
  · rw [Space.Bounded, hmap]; exact h.bounded
  · intro e he
    rw [mapped_congr hmap] at he
    rw [holders_congr hmap]
    by_cases hef : e = f
    · rw [hef] at he ⊢; rw [hself]; exact hl he
    · rw [hcounts e hef]; exact h.leaves e he
  · intro k q e d he
    rw [hmap] at he
    rw [hv]
    by_cases hef : e = f
    · rw [hef] at he ⊢; rw [hself]; exact hlim k q d he
    · rw [hcounts e hef]; exact h.limit_kept he hsl
  · rw [hv]; exact fun q => (hsl q).trans (h.slack_le q)
  · rw [hv]; exact h.vmas_le

theorem Sound.recount_again (h : Sound slack m) (hm : m.cow.map i p = some (f, b)) (hpos : 0 < slack p) :
    Sound (Function.update slack p (slack p - 1)) (m.incMapCount f) ∧ (m.incMapCount f).cow = m.cow ∧
      Held m (m.incMapCount f) ∧ m.excess f < (m.incMapCount f).excess f := by
  have hrec := h.counted hm hpos
  have hlim := h.limit i p f b hm
  have hself : (m.incMapCount f).excess f = m.excess f + 1 := by
    have hc : (m.incMapCount f).pmap.counts f = m.pmap.counts f + 1 := by
      rw [incMapCount, hrec.counts, Function.update_self]
    have hcow : (m.incMapCount f).cow = m.cow := rfl
    rw [excess, excess, hc, hcow]
    omega
  refine ⟨?_, rfl, fun e he => ⟨he, ?_⟩, by omega⟩
  · refine h.recount rfl rfl hrec (fun hf => (h.leaves f hf).trans (Nat.le_succ _)) (fun k q d hq => ?_)
      (slack_update_le slack p)
    rw [h.priv.page hq hm, Function.update_self]
    omega
  · by_cases hef : e = f
    · rw [hef]; omega
    · have hc : (m.incMapCount f).pmap.counts e = m.pmap.counts e := by
        rw [incMapCount, hrec.counts, Function.update_of_ne hef]
      have heq : (m.incMapCount f).excess e = m.excess e := excess_congr rfl hc
      exact heq.ge

theorem Sound.release_fresh (h : Sound slack m) (hg : Fresh m g) :
    Sound slack (m.releasePage g) ∧ Settled m (m.releasePage g) ∧ Held m (m.releasePage g) := by
  have hrec := PMap.releasePage_recounted h.ok g
  have hexcess : ∀ e, m.cow.Mapped e → (m.releasePage g).excess e = m.excess e := fun e he => by
    have hne : e ≠ g := fun heq => hg.unmapped (heq ▸ he)
    have hc : (m.releasePage g).pmap.counts e = m.pmap.counts e := by
      rw [releasePage, hrec.counts, Function.update_of_ne hne]
    exact excess_congr rfl hc
  refine ⟨h.recount rfl rfl hrec (fun hf => absurd hf hg.unmapped) (fun k q d hq => absurd ⟨k, q, d, hq⟩ hg.unmapped)
    fun _ => le_rfl, fun e he => .inl ⟨he, hexcess e he⟩, fun e he => ⟨he, (hexcess e he).ge⟩⟩

theorem Sound.release_flags (h : Sound slack m) (hf : ¬ PMap.Physical g) : (m.releasePage g) = m := by
  have hw : m.pmap.walkList g = none := by
    cases hw : m.pmap.walkList g with
    | none => rfl
    | some k => exact absurd (h.ok.physical g ⟨k, PMap.walkList_some hw⟩) hf
  rw [releasePage, PMap.releasePage_none hw]

theorem Sound.unshare (h : Sound slack m) (hu : (m.tables i).upper .pde (p / 512) ≠ 0)
    (hm : m.cow.map i p = some (f, false)) (hg : Fresh m g) :
    Sound slack ((m.setPte i p (entryOf g true)).releasePage f) ∧
      ((m.setPte i p (entryOf g true)).releasePage f).cow = m.cow.set i p (g, true) ∧
      Settled m ((m.setPte i p (entryOf g true)).releasePage f) ∧
      ∀ e, m.cow.Mapped e → ((m.setPte i p (entryOf g true)).releasePage f).excess e = m.excess e := by
  obtain ⟨m', hm'⟩ : ∃ m', m' = (m.setPte i p (entryOf g true)).releasePage f := ⟨_, rfl⟩
  rw [← hm']
  have hmapped : m.cow.Mapped f := ⟨i, p, false, hm⟩
  have hgf : g ≠ f := fun he => hg.unmapped (he ▸ hmapped)
  have hpos := h.counts_pos hmapped
  have hrec : PMap.Recounted f (m.pmap.counts f - 1) m.pmap m'.pmap := hm' ▸ PMap.releasePage_recounted h.ok f
  have hself : m'.pmap.counts f = m.pmap.counts f - 1 := by rw [hrec.counts, Function.update_self]
  have hcounts : ∀ e, e ≠ f → m'.pmap.counts e = m.pmap.counts e := fun e he => by
    rw [hrec.counts, Function.update_of_ne he]
  have hnot : ∀ e, e ≠ f → ∀ c, m.cow.map i p ≠ some (e, c) := fun e he c hc =>
    he (Prod.mk.inj (Option.some.inj (hc.symm.trans hm))).1
  have hone : ((m.cow.set i p (g, true)).holders g).ncard = 1 := by
    have hzero : (m.cow.holders g).ncard = 0 := by
      have := mt (Space.mapped_iff h.bounded).mpr hg.unmapped
      omega
    rw [Space.ncard_holders_set_new h.bounded (hnot g hgf), hzero]
  have hold : ((m.cow.set i p (g, true)).holders f).ncard + 1 = (m.cow.holders f).ncard :=
    Space.ncard_holders_set_old h.bounded hm hgf.symm
  have hother : ∀ e, e ≠ g → e ≠ f → (m.cow.set i p (g, true)).holders e = m.cow.holders e := fun e he hef =>
    Space.holders_set_other he (hnot e hef)
  have hleaf := h.leaves f hmapped
  have hle : ∀ e, m'.pmap.counts e ≤ m.pmap.counts e := fun e => by
    by_cases hef : e = f
    · rw [hef, hself]; exact Nat.sub_le _ _
    · exact (hcounts e hef).le
  obtain ⟨hs, hcow⟩ := h.relink hu hg.known (by rw [hm']; rfl) (by rw [hm']; rfl) (by rw [hm']; rfl) hrec
    (h.priv.set_fresh hg.unmapped)
    (fun e he => by
      by_cases heg : e = g
      · rw [heg, hone, hcounts g hgf, hg.counts]
      · by_cases hef : e = f
        · rw [hef, hself]; omega
        · rw [hother e heg hef, hcounts e hef]; exact h.leaves e ((mapped_set he).resolve_left heg))
    (fun k q e d he => by
      rcases Space.set_map_cases he with ⟨_, _, hx⟩ | ⟨_, he⟩
      · rw [(Prod.mk.inj hx).1, hcounts g hgf, hg.counts, Nat.add_comm]
        exact Nat.add_le_add_right (h.slack_le q) 1
      · exact (Nat.add_le_add_right (hle e) _).trans (h.limit k q e d he))
    fun _ => le_rfl
  have hkept : ∀ e, e ≠ g → m'.excess e = m.excess e := fun e heg => by
    rw [excess, excess, hcow]
    by_cases hef : e = f
    · rw [hef, hself]; omega
    · rw [hother e heg hef, hcounts e hef]
  refine ⟨hs, hcow, fun e he => ?_, fun e he => hkept e fun heg => hg.unmapped (heg ▸ he)⟩
  rw [hcow] at he
  by_cases heg : e = g
  · right
    rw [heg, excess, hcow, hone, hcounts g hgf, hg.counts]
    rfl
  · exact .inl ⟨(mapped_set he).resolve_left heg, hkept e heg⟩

end Mach

end Os506
