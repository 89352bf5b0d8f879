import Os506.Memory.Isolation

namespace Os506

open Pging CopyOnWrite Run

/-- What a frame of a process is used for: a table below the entry `k` of a level, or the page `p`. -/
inductive Node
  | table (l : Level) (k : ℕ)
  | page (p : ℕ)
  deriving DecidableEq

def Node.path (p : ℕ) : Set Node := {x | x = .page p ∨ ∃ l : Level, x = .table l (l.index p)}

namespace Tables

def entry (t : Tables) : Node → BitVec 64
  | .table l k => t.upper l k
  | .page p => t.pte p

def nodes (t : Tables) : Set Node := {x | isPresent (t.entry x) = true}

variable {t : Tables} {e : BitVec 64} {l : Level} {p : ℕ}

theorem Rooted.nodes_grow (h : t.Rooted) (hz : t.upper l (l.index p) = 0) (he : isPresent e = true) :
    (t.grow l p e).nodes = insert (.table l (l.index p)) t.nodes := by
  rw [h.grow_eq hz]
  ext x
  cases x with
  | page q => simp [nodes, entry]
  | table l' k =>
    by_cases hl : l' = l
    · subst hl
      by_cases hk : k = l'.index p
      · subst hk; simp [nodes, entry, he]
      · simp [nodes, entry, hk]
    · simp [nodes, entry, hl]

theorem nodes_setPte (t : Tables) (he : isPresent e = true) :
    nodes { t with pte := Function.update t.pte p e } = insert (.page p) t.nodes := by
  ext x
  cases x with
  | table l k => simp [nodes, entry]
  | page q =>
    by_cases hq : q = p
    · subst hq; simp [nodes, entry, he]
    · simp [nodes, entry, hq]

theorem Rooted.reached_iff_mem (h : t.Rooted) : t.Reached p ↔ .table .pde (p / 512) ∈ t.nodes := by
  rw [h.reached_iff]
  exact (h.isPresent_iff _).symm

end Tables

namespace Mach

variable {m m' m'' : Mach} {slack : ℕ → ℕ} {i j k p q : ℕ} {f g flags : BitVec 64} {l : Level}

def nodes (i : ℕ) (m : Mach) : Set Node := (m.tables i).nodes

theorem page_mem_nodes : .page p ∈ m.nodes i ↔ m.seen i p ≠ none := isPresent_iff_seen

def Pays (i : ℕ) (m m' : Mach) : Prop := Spends (m.nodes i) m.pmap.avail (m'.nodes i) m'.pmap.avail

theorem getFreePage_some (hg : m.getFreePage = some (g, m')) :
    ∃ s, m.pmap.getFreePage = (.ok g, s) ∧ m' = { m with pmap := s } := by
  rw [getFreePage] at hg
  split at hg
  · rename_i hs
    obtain ⟨rfl, rfl⟩ := Prod.mk.inj (Option.some.inj hg)
    exact ⟨_, hs, rfl⟩
  · cases hg

theorem getFreePage_avail (h : Sound slack m) (hg : m.getFreePage = some (g, m')) :
    m.pmap.avail = m'.pmap.avail + 1 ∧ m'.tables = m.tables := by
  obtain ⟨s, hs, rfl⟩ := getFreePage_some hg
  exact ⟨PMap.getFreePage_avail h.ok hs, rfl⟩

theorem needTable_pays (h : Sound slack m) (hfl : flags &&& rwUser = rwUser)
    (hn : m.needTable i p flags l = some m') :
    m'.nodes i = insert (.table l (l.index p)) (m.nodes i) ∧ Pays i m m' := by
  rw [needTable] at hn
  split at hn
  · rename_i hp
    obtain rfl := Option.some.inj hn
    have hmem : Node.table l (l.index p) ∈ m.nodes i := hp
    exact ⟨(Set.insert_eq_of_mem hmem).symm, Spends.refl _ _⟩
  · rename_i hp
    obtain ⟨⟨g, m₁⟩, hg, rfl⟩ := Option.map_eq_some_iff.mp hn
    have hz : (m.tables i).upper l (l.index p) = 0 := by
      by_contra hne
      exact hp (((h.rooted i).isPresent_iff _).mpr hne)
    have hnot : Node.table l (l.index p) ∉ m.nodes i := hp
    obtain ⟨havail, htab⟩ := getFreePage_avail h hg
    obtain ⟨_, hs, hfresh⟩ := getFreePage_grown h hg fun _ => 0
    have hentry : isPresent (g ||| flags) = true := by
      apply Tables.isPresent_of_grant
      rw [or_and_low (hs.ok.physical g hfresh.known) (by decide), hfl]
    have hnodes : ((m₁.zeroPage g).modifyTables i fun t => t.grow l p (g ||| flags)).nodes i =
        insert (.table l (l.index p)) (m.nodes i) := by
      have ht : (m₁.zeroPage g).tables i = m.tables i := congrFun htab i
      rw [nodes, modifyTables_self, ht, (h.rooted i).nodes_grow hz hentry, nodes]
    refine ⟨hnodes, ?_⟩
    rw [Pays, hnodes, havail]
    exact Spends.insert _ _ hnot

theorem mapPage_pays (h : Sound slack m) (hm : m.mapPage i g p rwUser = some m') :
    ∃ m₁, Grown m m₁ ∧ Sound slack m₁ ∧ (m₁.tables i).upper .pde (p / 512) ≠ 0 ∧ Pays i m m₁ ∧
      insert (.page p) (m₁.nodes i) = m.nodes i ∪ Node.path p ∧
      m' = if isPresent ((m.tables i).pte p) then m₁.releasePage g else m₁.setPte i p (entryOf g true) := by
  obtain ⟨m₁, h₁, hm⟩ := Option.bind_eq_some_iff.mp hm
  obtain ⟨m₂, h₂, hm⟩ := Option.bind_eq_some_iff.mp hm
  obtain ⟨m₃, h₃, rfl⟩ := Option.map_eq_some_iff.mp hm
  have hfl : highFlags rwUser &&& rwUser = rwUser := by decide
  obtain ⟨hg₁, hs₁, hu₁⟩ := needTable_grown (l := .pmle) h trivial hfl h₁
  obtain ⟨hg₂, hs₂, hu₂⟩ := needTable_grown hs₁ (l := .pdpe) hu₁ hfl h₂
  obtain ⟨hg₃, hs₃, hu₃⟩ := needTable_grown hs₂ (l := .pde) hu₂ hfl h₃
  obtain ⟨hn₁, hp₁⟩ := needTable_pays h hfl h₁
  obtain ⟨hn₂, hp₂⟩ := needTable_pays hs₁ hfl h₂
  obtain ⟨hn₃, hp₃⟩ := needTable_pays hs₂ hfl h₃
  have hg := (hg₁.trans hg₂).trans hg₃
  refine ⟨m₃, hg, hs₃, hu₃, (hp₁.trans hp₂).trans hp₃, ?_, by rw [hg.pte]; rfl⟩
  rw [hn₃, hn₂, hn₁]
  ext x
  simp only [Node.path, Set.mem_insert_iff, Set.mem_union, Set.mem_ofPred_eq]
  constructor
  · rintro (rfl | rfl | rfl | rfl | hx)
    · exact .inr (.inl rfl)
    · exact .inr (.inr ⟨.pde, rfl⟩)
    · exact .inr (.inr ⟨.pdpe, rfl⟩)
    · exact .inr (.inr ⟨.pmle, rfl⟩)
    · exact .inl hx
  · rintro (hx | rfl | ⟨l, rfl⟩)
    · simp [hx]
    · simp
    · cases l <;> simp

def Keeps (m m' : Mach) : Prop := ∀ k q x, m.cow.map k q = some x → m'.cow.map k q = some x

theorem Keeps.trans (h : Keeps m m') (h' : Keeps m' m'') : Keeps m m'' := fun k q x hx => h' k q x (h k q x hx)

theorem Grown.keeps (h : Grown m m') : Keeps m m' := fun k q x hx => by rw [h.map]; exact hx

theorem mapZero_pays (h : Sound slack m) (hm : m.mapZero i p rwUser = some m') :
    m'.nodes i = m.nodes i ∪ Node.path p ∧ Pays i m m' ∧ Keeps m m' := by
  obtain ⟨⟨g, m₁⟩, hg, hm⟩ := Option.bind_eq_some_iff.mp hm
  obtain ⟨havail, htab⟩ := getFreePage_avail h hg
  obtain ⟨hgrown, hs, hfresh⟩ := getFreePage_grown h hg fun _ => 0
  obtain ⟨m₂, hgrown₂, hs₂, hu, hpays, hpath, rfl⟩ := mapPage_pays hs hm
  have hnodes : (m₁.setPage g fun _ => 0).nodes i = m.nodes i := congrArg Tables.nodes (congrFun htab i)
  have hfresh₂ := hfresh.grown hgrown₂
  rw [Pays, hnodes] at hpays
  have hdraw : Spends (m.nodes i) m.pmap.avail (m₂.nodes i) (m₂.pmap.avail + 1) := havail ▸ hpays.borrow
  have hkeeps := hgrown.keeps.trans hgrown₂.keeps
  have hunion : (m₁.setPage g fun _ => 0).nodes i ∪ Node.path p = m.nodes i ∪ Node.path p := by rw [hnodes]
  rw [← hgrown₂.pte]
  split
  · rename_i hp
    have hmem : Node.page p ∈ m₂.nodes i := hp
    rw [Set.insert_eq_of_mem hmem] at hpath
    refine ⟨hpath.trans hunion, ?_, hkeeps⟩
    have havail₂ : (m₂.releasePage g).pmap.avail = m₂.pmap.avail + 1 := PMap.releasePage_avail hs₂.ok hfresh₂.counts
    rw [Pays, havail₂]
    exact hdraw
  · rename_i hp
    have hnot : Node.page p ∉ m₂.nodes i := hp
    have hentry : isPresent (entryOf g true) = true := by
      rw [isPresent, entryOf, or_and_low (hs₂.ok.physical g hfresh₂.known) (by decide)]
      decide
    have hset : (m₂.setPte i p (entryOf g true)).nodes i = insert (.page p) (m₂.nodes i) := by
      rw [nodes, setPte, modifyTables_self, Tables.nodes_setPte _ hentry, nodes]
    refine ⟨hset.trans (hpath.trans hunion), ?_, hkeeps.trans fun k q x hx => ?_⟩
    · rw [Pays, hset]
      exact hdraw.trans (Spends.insert _ _ hnot)
    · have hz : m₂.cow.map i p = none := not_not.mp (mt isPresent_iff_map.mpr hp)
      obtain ⟨_, hcow, _⟩ := hs₂.mapFresh hu hfresh₂ hz
      rw [hcow, Space.set_map_of_ne]
      · exact hx
      · rintro ⟨rfl, rfl⟩
        rw [hz] at hx
        cases hx

theorem mapPages_pays {l : List ℕ} (h : Sound slack m) (hm : m.mapPages i rwUser l = some m') :
    m'.nodes i = m.nodes i ∪ {x | ∃ q ∈ l, x ∈ Node.path q} ∧ Pays i m m' ∧ Keeps m m' := by
  induction l generalizing m with
  | nil =>
    obtain rfl := Option.some.inj hm
    exact ⟨by simp, Spends.refl _ _, fun _ _ _ hx => hx⟩
  | cons p l ih =>
    obtain ⟨m₁, hm₁, hm⟩ := Option.bind_eq_some_iff.mp hm
    obtain ⟨hn₁, hp₁, hk₁⟩ := mapZero_pays h hm₁
    obtain ⟨hadv, _⟩ := mapZero_spec h hm₁
    obtain ⟨hn₂, hp₂, hk₂⟩ := ih hadv.sound hm
    refine ⟨?_, hp₁.trans hp₂, hk₁.trans hk₂⟩
    rw [hn₂, hn₁]
    ext x
    simp only [Set.mem_union, Set.mem_ofPred_eq, List.mem_cons, exists_eq_or_imp, or_assoc]

end Mach

end Os506
