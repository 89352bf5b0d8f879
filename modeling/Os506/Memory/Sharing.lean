import Os506.Memory.Forking

namespace Os506

open Pging CopyOnWrite

/-- Every entry is absent or gives all rights, and nothing is below an absent entry. -/
structure Tables.Rooted (t : Tables) : Prop where
  form : ∀ l k, t.upper l k = 0 ∨ t.upper l k &&& rwUser = rwUser
  pdpe : ∀ k, t.upper .pmle (k / 512) = 0 → t.upper .pdpe k = 0
  pde : ∀ k, t.upper .pdpe (k / 512) = 0 → t.upper .pde k = 0
  pte : ∀ k, t.upper .pde (k / 512) = 0 → t.pte k = 0

namespace Tables

variable {t : Tables} {e : BitVec 64} {l : Level} {vpn : ℕ}

theorem isPresent_of_grant (h : e &&& rwUser = rwUser) : isPresent e = true := by
  have he : e &&& pageP = pageP := by
    have hsub : pageP = rwUser &&& pageP := by decide
    rw [hsub, ← BitVec.and_assoc, h]
  rw [isPresent, he]
  decide

theorem ne_zero_of_grant (h : e &&& rwUser = rwUser) : e ≠ 0 := by
  rintro rfl
  exact absurd h (by decide)

theorem Rooted.isPresent_iff (h : t.Rooted) (k : ℕ) : isPresent (t.upper l k) = true ↔ t.upper l k ≠ 0 := by
  rcases h.form l k with hz | hg
  · rw [hz]; decide
  · exact iff_of_true (isPresent_of_grant hg) (ne_zero_of_grant hg)

theorem Rooted.grow_eq (h : t.Rooted) (hz : t.upper l (l.index vpn) = 0) : t.grow l vpn e =
    { t with upper := Function.update t.upper l (Function.update (t.upper l) (l.index vpn) e) } := by
  cases l with
  | pmle =>
    have hc : (fun k => if k / 512 = Level.pmle.index vpn then 0 else t.upper .pdpe k) = t.upper .pdpe := by
      funext k
      split
      · rename_i hk; exact (h.pdpe k (hk ▸ hz)).symm
      · rfl
    simp only [grow, hc]
    congr 1
    exact Function.update_eq_self_iff.mpr (by simp)
  | pdpe =>
    have hc : (fun k => if k / 512 = Level.pdpe.index vpn then 0 else t.upper .pde k) = t.upper .pde := by
      funext k
      split
      · rename_i hk; exact (h.pde k (hk ▸ hz)).symm
      · rfl
    simp only [grow, hc]
    congr 1
    exact Function.update_eq_self_iff.mpr (by simp)
  | pde =>
    have hc : (fun k => if k / 512 = Level.pde.index vpn then 0 else t.pte k) = t.pte := by
      funext k
      split
      · rename_i hk; exact (h.pte k (hk ▸ hz)).symm
      · rfl
    simp only [grow, hc]

def Above (t : Tables) (vpn : ℕ) : Level → Prop
  | .pmle => True
  | .pdpe => t.upper .pmle (Level.pmle.index vpn) ≠ 0
  | .pde => t.upper .pdpe (Level.pdpe.index vpn) ≠ 0

theorem Rooted.grow (h : t.Rooted) (hz : t.upper l (l.index vpn) = 0) (ha : t.Above vpn l)
    (he : e &&& rwUser = rwUser) : (t.grow l vpn e).Rooted := by
  have hne := ne_zero_of_grant he
  rw [h.grow_eq hz]
  constructor
  · intro l' k
    by_cases hl : l' = l
    · subst hl
      by_cases hk : k = l'.index vpn
      · subst hk; right; simpa using he
      · simpa [hk] using h.form l' k
    · simpa [hl] using h.form l' k
  · intro k hk
    cases l with
    | pmle =>
      by_cases hi : k / 512 = Level.pmle.index vpn
      · exact absurd (by simpa [hi] using hk) hne
      · simpa using h.pdpe k (by simpa [hi] using hk)
    | pdpe =>
      have hk' : t.upper .pmle (k / 512) = 0 := by simpa using hk
      by_cases hi : k = Level.pdpe.index vpn
      · subst hi; exact absurd hk' ha
      · simpa [hi] using h.pdpe k hk'
    | pde => simpa using h.pdpe k (by simpa using hk)
  · intro k hk
    cases l with
    | pmle => simpa using h.pde k (by simpa using hk)
    | pdpe =>
      by_cases hi : k / 512 = Level.pdpe.index vpn
      · exact absurd (by simpa [hi] using hk) hne
      · simpa using h.pde k (by simpa [hi] using hk)
    | pde =>
      have hk' : t.upper .pdpe (k / 512) = 0 := by simpa using hk
      by_cases hi : k = Level.pde.index vpn
      · subst hi; exact absurd hk' ha
      · simpa [hi] using h.pde k hk'
  · intro k hk
    by_cases hi : l = .pde ∧ k / 512 = l.index vpn
    · obtain ⟨rfl, hi⟩ := hi
      exact absurd (by simpa [hi] using hk) hne
    · refine h.pte k ?_
      by_cases hl : Level.pde = l
      · subst hl
        have hi' : k / 512 ≠ Level.pde.index vpn := fun he => hi ⟨rfl, he⟩
        simpa [hi'] using hk
      · simpa [hl] using hk

theorem Rooted.setPte (h : t.Rooted) (hu : t.upper .pde (vpn / 512) ≠ 0) :
    Rooted { t with pte := Function.update t.pte vpn e } := by
  refine ⟨h.form, h.pdpe, h.pde, fun k hk => ?_⟩
  by_cases he : k = vpn
  · subst he; exact absurd hk hu
  · simpa [he] using h.pte k hk

theorem Rooted.upper_ne (h : t.Rooted) (hu : t.upper .pde (vpn / 512) ≠ 0) : ∀ l : Level, t.upper l (l.index vpn) ≠ 0 := by
  have h₂ : t.upper .pdpe (vpn / 512 / 512) ≠ 0 := fun hz => hu (h.pde _ hz)
  intro l
  cases l with
  | pmle => exact fun hz => h₂ (h.pdpe _ hz)
  | pdpe => exact h₂
  | pde => exact hu

theorem Rooted.reached_iff (h : t.Rooted) : t.Reached vpn ↔ t.upper .pde (vpn / 512) ≠ 0 :=
  ⟨fun hr => (h.isPresent_iff _).mp (hr .pde), fun hu l => (h.isPresent_iff _).mpr (h.upper_ne hu l)⟩

end Tables

namespace Mach

def cow (m : Mach) : Space ℕ ℕ (BitVec 64) (ℕ → UInt8) := ⟨fun i p => leaf ((m.tables i).pte p), m.mem⟩

abbrev seen (m : Mach) : ℕ → ℕ → Option (ℕ → UInt8) := m.cow.seen

def entryOf (f : BitVec 64) (b : Bool) : BitVec 64 := f ||| if b then rwUser else cowUser

def Entry (s : PMap) (e : BitVec 64) : Prop := e = 0 ∨ ∃ f b, s.Known f ∧ e = entryOf f b

/-- The invariant of physical memory; the page `p` may be counted `slack p` times more. -/
structure Sound (slack : ℕ → ℕ) (m : Mach) : Prop where
  ok : m.pmap.Ok
  rooted : ∀ i, (m.tables i).Rooted
  entry : ∀ i p, Entry m.pmap ((m.tables i).pte p)
  priv : m.cow.Private
  bounded : m.cow.Bounded
  leaves : ∀ f, m.cow.Mapped f → (m.cow.holders f).ncard ≤ m.pmap.counts f
  limit : ∀ i p f b, m.cow.map i p = some (f, b) → m.pmap.counts f + slack p ≤ m.vmas + 1
  slack_le : ∀ p, slack p ≤ m.vmas
  vmas_le : m.vmas ≤ vmaLimit

structure Alike (m m' : Mach) : Prop where
  vm : ∀ i, (m'.mm i).vm = (m.mm i).vm
  brk : ∀ i, (m'.mm i).brk = (m.mm i).brk
  count : m'.count = m.count
  vmas : m'.vmas = m.vmas

structure Grown (m m' : Mach) : Prop extends Alike m m' where
  pte : ∀ i, (m'.tables i).pte = (m.tables i).pte
  upper : ∀ i l k, (m.tables i).upper l k ≠ 0 → (m'.tables i).upper l k = (m.tables i).upper l k
  kept : ∀ f, 0 < m.pmap.counts f → m'.pmap.counts f = m.pmap.counts f ∧ m'.mem f = m.mem f
  known : ∀ f, m'.pmap.Known f ↔ m.pmap.Known f

structure Fresh (m : Mach) (f : BitVec 64) : Prop where
  known : m.pmap.Known f
  counts : m.pmap.counts f = 1
  unmapped : ¬ m.cow.Mapped f

variable {m m' m'' : Mach} {slack : ℕ → ℕ} {i j p : ℕ} {f g : BitVec 64} {b : Bool}

theorem Alike.refl (m : Mach) : Alike m m := ⟨fun _ => rfl, fun _ => rfl, rfl, rfl⟩

theorem Alike.trans (h : Alike m m') (h' : Alike m' m'') : Alike m m'' :=
  ⟨fun i => (h'.vm i).trans (h.vm i), fun i => (h'.brk i).trans (h.brk i), h'.count.trans h.count,
    h'.vmas.trans h.vmas⟩

theorem Grown.refl (m : Mach) : Grown m m :=
  ⟨.refl m, fun _ => rfl, fun _ _ _ _ => rfl, fun _ _ => ⟨rfl, rfl⟩, fun _ => Iff.rfl⟩

theorem Grown.trans (h : Grown m m') (h' : Grown m' m'') : Grown m m'' := by
  refine ⟨h.toAlike.trans h'.toAlike, fun i => (h'.pte i).trans (h.pte i), fun i l k hu => ?_, fun f hf => ?_,
    fun f => (h'.known f).trans (h.known f)⟩
  · have hu' := h.upper i l k hu
    rw [h'.upper i l k (hu'.symm ▸ hu), hu']
  · obtain ⟨hc, hm⟩ := h.kept f hf
    obtain ⟨hc', hm'⟩ := h'.kept f (hc.symm ▸ hf)
    exact ⟨hc'.trans hc, hm'.trans hm⟩

theorem Grown.map (h : Grown m m') : m'.cow.map = m.cow.map := by
  funext i p
  simp only [cow, h.pte]

theorem mapped_congr (h : m'.cow.map = m.cow.map) : m'.cow.Mapped f ↔ m.cow.Mapped f := by
  simp only [Space.Mapped, h]

theorem holders_congr (h : m'.cow.map = m.cow.map) : m'.cow.holders f = m.cow.holders f := by
  simp only [Space.holders, h]

theorem Sound.counts_pos (h : Sound slack m) (hf : m.cow.Mapped f) : 0 < m.pmap.counts f :=
  ((Space.mapped_iff h.bounded).mp hf).trans_le (h.leaves f hf)

theorem Sound.seen_grown (h : Sound slack m) (hg : Grown m m') : m'.seen = m.seen := by
  funext i p
  simp only [seen, Space.seen, hg.map]
  cases he : m.cow.map i p with
  | none => rfl
  | some e =>
    have hm : m'.mem e.1 = m.mem e.1 := (hg.kept e.1 (h.counts_pos ⟨i, p, e.2, he⟩)).2
    exact congrArg some hm

theorem Sound.grown (h : Sound slack m) (hg : Grown m m') (hok : m'.pmap.Ok) (hr : ∀ i, (m'.tables i).Rooted) :
    Sound slack m' := by
  constructor
  · exact hok
  · exact hr
  · intro i p
    rw [hg.pte]
    exact (h.entry i p).imp_right fun ⟨f, b, hf, he⟩ => ⟨f, b, (hg.known f).mpr hf, he⟩
  · obtain ⟨h₁, h₂⟩ := h.priv
    constructor
    · rw [hg.map]; exact h₁
    · rw [hg.map]; exact h₂
  · rw [Space.Bounded, hg.map]; exact h.bounded
  · intro f hf
    rw [mapped_congr hg.map] at hf
    rw [holders_congr hg.map, (hg.kept f (h.counts_pos hf)).1]
    exact h.leaves f hf
  · intro i p f b he
    rw [hg.map] at he
    rw [(hg.kept f (h.counts_pos ⟨i, p, b, he⟩)).1, hg.vmas]
    exact h.limit i p f b he
  · rw [hg.vmas]; exact h.slack_le
  · rw [hg.vmas]; exact h.vmas_le

theorem Fresh.grown (h : Fresh m f) (hg : Grown m m') : Fresh m' f := by
  have hc : 0 < m.pmap.counts f := by rw [h.counts]; exact one_pos
  exact ⟨(hg.known f).mpr h.known, (hg.kept f hc).1.trans h.counts, mt (mapped_congr hg.map).mp h.unmapped⟩

theorem modifyTables_self (m : Mach) (i : ℕ) (u : Tables → Tables) : (m.modifyTables i u).tables i = u (m.tables i) := by
  simp [modifyTables, tables]

theorem modifyTables_of_ne (m : Mach) (u : Tables → Tables) (h : j ≠ i) : (m.modifyTables i u).tables j = m.tables j := by
  simp [modifyTables, tables, h]

theorem alike_modifyTables (m : Mach) (i : ℕ) (u : Tables → Tables) : Alike m (m.modifyTables i u) := by
  refine ⟨fun j => ?_, fun j => ?_, rfl, rfl⟩ <;>
    by_cases hj : j = i
  · subst hj; simp [modifyTables]
  · simp [modifyTables, hj]
  · subst hj; simp [modifyTables]
  · simp [modifyTables, hj]

theorem getFreePage_grown {m₁ : Mach} (h : Sound slack m) (hg : m.getFreePage = some (g, m₁)) (c : ℕ → UInt8) :
    Grown m (m₁.setPage g c) ∧ Sound slack (m₁.setPage g c) ∧ Fresh (m₁.setPage g c) g := by
  obtain ⟨r, hr⟩ : ∃ r, r = m.pmap.getFreePage := ⟨_, rfl⟩
  rw [getFreePage, ← hr] at hg
  obtain ⟨e, s⟩ := r
  cases e with
  | error _ => cases hg
  | ok f =>
    obtain ⟨rfl, rfl⟩ := Prod.mk.inj (Option.some.inj hg)
    obtain ⟨⟨hok, hknown, hcounts⟩, hk, hz⟩ := PMap.getFreePage_recounted h.ok hr.symm
    have hgrown : Grown m ({ m with pmap := s }.setPage f c) := by
      refine ⟨⟨fun _ => rfl, fun _ => rfl, rfl, rfl⟩, fun _ => rfl, fun _ _ _ _ => rfl, fun e he => ?_, hknown⟩
      have hne : e ≠ f := by rintro rfl; rw [hz] at he; exact lt_irrefl 0 he
      exact ⟨(congrFun hcounts e).trans (Function.update_of_ne hne _ _), Function.update_of_ne hne _ _⟩
    refine ⟨hgrown, h.grown hgrown hok h.rooted, (hknown f).mpr hk, ?_, ?_⟩
    · exact (congrFun hcounts f).trans (Function.update_self _ _ _)
    · intro hm
      have := h.counts_pos ((mapped_congr hgrown.map).mp hm)
      rw [hz] at this
      exact lt_irrefl 0 this

theorem needTable_grown {flags : BitVec 64} {l : Level} (h : Sound slack m) (ha : (m.tables i).Above p l)
    (hfl : flags &&& rwUser = rwUser) (hn : m.needTable i p flags l = some m') :
    Grown m m' ∧ Sound slack m' ∧ (m'.tables i).upper l (l.index p) ≠ 0 := by
  unfold needTable at hn
  split at hn
  · rename_i hp
    obtain rfl := Option.some.inj hn
    exact ⟨.refl m, h, ((h.rooted i).isPresent_iff _).mp hp⟩
  · rename_i hp
    have hz : (m.tables i).upper l (l.index p) = 0 := by
      by_contra hne
      exact hp (((h.rooted i).isPresent_iff _).mpr hne)
    obtain ⟨⟨g, m₁⟩, hg, rfl⟩ := Option.map_eq_some_iff.mp hn
    obtain ⟨hgrown, hs, hfresh⟩ := getFreePage_grown h hg fun _ => 0
    obtain ⟨m₂, hm₂⟩ : ∃ m₂, m₂ = m₁.zeroPage g := ⟨_, rfl⟩
    have hdef : m₁.setPage g (fun _ => 0) = m₂ := hm₂.symm
    rw [hdef] at hgrown hs hfresh
    simp only [← hm₂]
    have ht : m₂.tables i = m.tables i := by
      simp only [getFreePage] at hg
      split at hg
      · obtain ⟨_, rfl⟩ := Prod.mk.inj (Option.some.inj hg)
        rw [hm₂]; rfl
      · cases hg
    have hgrant : (g ||| flags) &&& rwUser = rwUser := by
      rw [or_and_low (hs.ok.physical g hfresh.known) (by decide), hfl]
    have hroot : ∀ k, ((m₂.modifyTables i fun t => t.grow l p (g ||| flags)).tables k).Rooted := by
      intro k
      by_cases hk : k = i
      · subst hk
        rw [modifyTables_self, ht]
        exact (h.rooted k).grow hz ha hgrant
      · rw [modifyTables_of_ne _ _ hk]; exact hs.rooted k
    have hg₂ : Grown m₂ (m₂.modifyTables i fun t => t.grow l p (g ||| flags)) := by
      refine ⟨alike_modifyTables _ _ _, fun k => ?_, fun k l' x hx => ?_, fun _ _ => ⟨rfl, rfl⟩, fun _ => Iff.rfl⟩
      · by_cases hk : k = i
        · subst hk; rw [modifyTables_self, ht, (h.rooted k).grow_eq hz]
        · rw [modifyTables_of_ne _ _ hk]
      · by_cases hk : k = i
        · subst hk
          rw [modifyTables_self, ht, (h.rooted k).grow_eq hz]
          rw [ht] at hx
          by_cases hl : l' = l
          · subst hl
            have hne : x ≠ l'.index p := fun he => hx (he ▸ hz)
            simp [hne]
          · simp [hl]
        · rw [modifyTables_of_ne _ _ hk]
    refine ⟨hgrown.trans hg₂, hs.grown hg₂ hs.ok hroot, ?_⟩
    rw [modifyTables_self, ht, (h.rooted i).grow_eq hz]
    simpa using Tables.ne_zero_of_grant hgrant

theorem mapPage_cases {paddr flags : BitVec 64} (h : Sound slack m) (hfl : highFlags flags &&& rwUser = rwUser)
    (hm : m.mapPage i paddr p flags = some m') :
    ∃ m₁, Grown m m₁ ∧ Sound slack m₁ ∧ (m₁.tables i).upper .pde (p / 512) ≠ 0 ∧
      m' = if isPresent ((m.tables i).pte p) then m₁.releasePage paddr else m₁.setPte i p (paddr ||| flags) := by
  obtain ⟨m₁, h₁, hm⟩ := Option.bind_eq_some_iff.mp hm
  obtain ⟨m₂, h₂, hm⟩ := Option.bind_eq_some_iff.mp hm
  obtain ⟨m₃, h₃, rfl⟩ := Option.map_eq_some_iff.mp hm
  obtain ⟨hg₁, hs₁, hu₁⟩ := needTable_grown (l := .pmle) h trivial hfl h₁
  obtain ⟨hg₂, hs₂, hu₂⟩ := needTable_grown hs₁ (l := .pdpe) hu₁ hfl h₂
  obtain ⟨hg₃, hs₃, hu₃⟩ := needTable_grown hs₂ (l := .pde) hu₂ hfl h₃
  have hg := (hg₁.trans hg₂).trans hg₃
  exact ⟨m₃, hg, hs₃, hu₃, by rw [hg.pte]⟩

end Mach

end Os506
