import Os506.Memory.PMap
import Os506.Lib.Run

namespace Os506

open Linked Run

namespace PMap

inductive Call
  | getFreePage
  | releasePage (p : BitVec 64)
  | incMapCount (p : BitVec 64)

inductive Event
  | handed (p : BitVec 64)
  | released (p : BitVec 64)
  | counted (p : BitVec 64)
  | panic (m : PMapPanic)
  deriving DecidableEq

def call : Call → PMap → Event × PMap
  | .getFreePage, s => match s.getFreePage with
    | (.ok p, s') => (.handed p, s')
    | (.error m, s') => (.panic m, s')
  | .releasePage p, s => match s.releasePage p with
    | (.ok (), s') => (.released p, s')
    | (.error m, s') => (.panic m, s')
  | .incMapCount p, s => match s.incMapCount p with
    | (.ok (), s') => (.counted p, s')
    | (.error m, s') => (.panic m, s')

structure Log where
  pmap : PMap
  events : List Event

def Log.step (c : Call) (x : Log) : Option Log :=
  some ⟨(call c x.pmap).2, (call c x.pmap).1 :: x.events⟩

def refs (start : BitVec 64 → ℕ) (p : BitVec 64) : List Event → ℕ
  | [] => start p
  | .handed q :: h => if q = p then 1 else refs start p h
  | .released q :: h => if q = p then refs start p h - 1 else refs start p h
  | .counted q :: h => if q = p then refs start p h + 1 else refs start p h
  | .panic _ :: h => refs start p h

/-- A page is handed out when it has no references, and only references that exist are released. -/
def Legal (start : BitVec 64 → ℕ) : List Event → Prop
  | [] => True
  | .handed q :: h => refs start q h = 0 ∧ Legal start h
  | .released q :: h => 1 ≤ refs start q h ∧ Legal start h
  | .counted _ :: h => Legal start h
  | .panic m :: h => m ≠ .nonzeroFree ∧ Legal start h

variable {start : BitVec 64 → ℕ} {p : BitVec 64}

theorem refs_since {h₂ h₁ : List Event} (hl : Legal start (h₂ ++ .handed p :: h₁)) (hn : .handed p ∉ h₂) :
    refs start p (h₂ ++ .handed p :: h₁) + h₂.count (.released p) = 1 + h₂.count (.counted p) := by
  induction h₂ with
  | nil => simp [refs]
  | cons e h₂ ih =>
    simp only [List.mem_cons, not_or] at hn
    rw [List.cons_append] at hl
    cases e with
    | handed q =>
      have hq : q ≠ p := fun h => hn.1 (by rw [h])
      simpa [refs, hq] using ih hl.2 hn.2
    | released q =>
      have hrec := ih hl.2 hn.2
      by_cases hq : q = p
      · subst hq
        have hpos : 1 ≤ refs start q (h₂ ++ .handed q :: h₁) := hl.1
        have hstep : refs start q (.released q :: (h₂ ++ .handed q :: h₁)) =
            refs start q (h₂ ++ .handed q :: h₁) - 1 := if_pos rfl
        rw [List.cons_append, hstep, List.count_cons_self, List.count_cons_of_ne (by simp)]
        omega
      · simpa [refs, hq] using hrec
    | counted q =>
      have hrec := ih hl hn.2
      by_cases hq : q = p
      · subst hq
        have hstep : refs start q (.counted q :: (h₂ ++ .handed q :: h₁)) =
            refs start q (h₂ ++ .handed q :: h₁) + 1 := if_pos rfl
        rw [List.cons_append, hstep, List.count_cons_self, List.count_cons_of_ne (by simp)]
        omega
      · simpa [refs, hq] using hrec
    | panic m => simpa [refs] using ih hl.2 hn.2

structure Tallied (start : BitVec 64 → ℕ) (x : Log) : Prop where
  distinct : x.pmap.Distinct
  free : ∃ l, Free x.pmap l
  count : ∀ i < x.pmap.entryCount, (x.pmap.desc i).mapCount.toNat = refs start (x.pmap.desc i).base x.events
  legal : Legal start x.events

def counts (s : PMap) (p : BitVec 64) : ℕ := (s.walkList p).elim 0 fun i => (s.desc i).mapCount.toNat

theorem tallied_start {s : PMap} {l : List ℕ} (hd : s.Distinct) (hf : Free s l) : Tallied s.counts ⟨s, []⟩ := by
  refine ⟨hd, ⟨l, hf⟩, fun i hi => ?_, trivial⟩
  simp [refs, counts, walkList_base hd hi]

variable {x : Log}

theorem tallied_panic {m : PMapPanic} (h : Tallied start x) (hm : m ≠ .nonzeroFree) :
    Tallied start ⟨x.pmap, .panic m :: x.events⟩ :=
  ⟨h.distinct, h.free, h.count, hm, h.legal⟩

theorem tallied_touch {s' : PMap} {i : ℕ} {e : Event} {l : List ℕ} (h : Tallied start x)
    (ht : Touches i x.pmap s') (hf : Free s' l)
    (hself : (s'.desc i).mapCount.toNat = refs start (x.pmap.desc i).base (e :: x.events))
    (hother : ∀ q, q ≠ (x.pmap.desc i).base → refs start q (e :: x.events) = refs start q x.events)
    (hi : i < x.pmap.entryCount) (hl : Legal start (e :: x.events)) : Tallied start ⟨s', e :: x.events⟩ := by
  refine ⟨ht.distinct h.distinct, ⟨l, hf⟩, fun j hj => ?_, hl⟩
  change j < s'.entryCount at hj
  change (s'.desc j).mapCount.toNat = refs start (s'.desc j).base (e :: x.events)
  rw [ht.entryCount] at hj
  rw [ht.base]
  by_cases he : j = i
  · subst he; exact hself
  · rw [ht.other j he, hother _ fun hb => he (h.distinct j hj i hi hb)]
    exact h.count j hj

theorem tallied_getFreePage (h : Tallied start x) :
    ∃ y, Log.step .getFreePage x = some y ∧ Tallied start y := by
  obtain ⟨l, hf⟩ := h.free
  cases l with
  | nil =>
    refine ⟨_, rfl, ?_⟩
    simp only [call, getFreePage_nil hf]
    exact tallied_panic h (by decide)
  | cons i l =>
    obtain ⟨s', hs', hf', ht, hone⟩ := getFreePage_cons hf
    have hi := (hf.mem i).mp List.mem_cons_self
    refine ⟨_, rfl, ?_⟩
    simp only [call, hs']
    apply tallied_touch h ht hf' _ _ hi.1
    · refine ⟨?_, h.legal⟩
      rw [← h.count i hi.1, hi.2]
      rfl
    · simp [refs, hone]
    · intro q hq
      simp [refs, Ne.symm hq]

theorem tallied_releasePage (p : BitVec 64) (h : Tallied start x) :
    ∃ y, Log.step (.releasePage p) x = some y ∧ Tallied start y := by
  obtain ⟨l, hf⟩ := h.free
  refine ⟨_, rfl, ?_⟩
  cases hw : x.pmap.walkList p with
  | none =>
    simp only [call, releasePage_none hw]
    exact tallied_panic h (by decide)
  | some i =>
    by_cases hz : (x.pmap.desc i).mapCount = 0
    · simp only [call, releasePage_free hw hz]
      exact tallied_panic h (by decide)
    · obtain ⟨hi, rfl⟩ := walkList_some hw
      obtain ⟨s', l', hs', hf', ht, hcount⟩ := releasePage_some hf hw hz
      rw [h.count i hi] at hcount
      simp only [call, hs']
      apply tallied_touch h ht hf' _ _ hi
      · exact ⟨by omega, h.legal⟩
      · simp only [refs, ↓reduceIte]
        omega
      · intro q hq
        simp [refs, Ne.symm hq]

theorem tallied_incMapCount (p : BitVec 64) (h : Tallied start x) (hb : refs start p x.events < 2 ^ 32 - 1) :
    ∃ y, Log.step (.incMapCount p) x = some y ∧ Tallied start y := by
  obtain ⟨l, hf⟩ := h.free
  refine ⟨_, rfl, ?_⟩
  cases hw : x.pmap.walkList p with
  | none =>
    simp only [call, incMapCount_none hw]
    exact tallied_panic h (by decide)
  | some i =>
    by_cases hz : (x.pmap.desc i).mapCount = 0
    · simp only [call, incMapCount_free hw hz]
      exact tallied_panic h (by decide)
    · obtain ⟨hi, rfl⟩ := walkList_some hw
      rw [← h.count i hi] at hb
      obtain ⟨s', hs', hf', ht, hcount⟩ := incMapCount_some hf hw hz hb
      rw [h.count i hi] at hcount
      simp only [call, hs']
      apply tallied_touch h ht hf' _ _ hi
      · exact h.legal
      · simp only [refs, ↓reduceIte]
        exact hcount
      · intro q hq
        simp [refs, Ne.symm hq]

theorem tallied_step (c : Call) (h : Tallied start x) (hb : ∀ p, refs start p x.events < 2 ^ 32 - 1) :
    ∃ y, Log.step c x = some y ∧ Tallied start y := by
  cases c with
  | getFreePage => exact tallied_getFreePage h
  | releasePage p => exact tallied_releasePage p h
  | incMapCount p => exact tallied_incMapCount p h (hb p)

theorem legal_append {h₂ h₁ : List Event} (h : Legal start (h₂ ++ h₁)) : Legal start h₁ := by
  induction h₂ with
  | nil => exact h
  | cons e h₂ ih =>
    apply ih
    cases e with
    | handed q => exact h.2
    | released q => exact h.2
    | counted q => exact h
    | panic m => exact h.2

theorem nonzeroFree_notMem {h : List Event} (hl : Legal start h) : .panic .nonzeroFree ∉ h := by
  intro hm
  obtain ⟨h₂, h₁, rfl⟩ := List.append_of_mem hm
  exact (legal_append hl).1 rfl

/-- The free list holds the pages without references; a page handed out has the references taken since, and
is handed out again only when all of them are released; the free list never holds a page in use. -/
structure Sound (x : Log) : Prop where
  free : ∃ l, Chain x.pmap.next x.pmap.head l ∧ l.Nodup ∧
    ∀ i, i ∈ l ↔ i < x.pmap.entryCount ∧ (x.pmap.desc i).mapCount = 0
  count : ∀ p h₂ h₁, x.events = h₂ ++ .handed p :: h₁ → .handed p ∉ h₂ → ∀ i < x.pmap.entryCount,
    (x.pmap.desc i).base = p →
      (x.pmap.desc i).mapCount.toNat + h₂.count (.released p) = 1 + h₂.count (.counted p)
  again : ∀ p h₃ h₂ h₁, x.events = h₃ ++ .handed p :: (h₂ ++ .handed p :: h₁) → .handed p ∉ h₂ →
    h₂.count (.released p) = 1 + h₂.count (.counted p)
  nonzeroFree : .panic .nonzeroFree ∉ x.events

theorem Tallied.sound (h : Tallied start x) : Sound x := by
  constructor
  · obtain ⟨l, hf⟩ := h.free
    exact ⟨l, hf.chain, chain_nodup hf.chain, hf.mem⟩
  · rintro p h₂ h₁ he hn i hi rfl
    have hl := h.legal
    rw [he] at hl
    rw [h.count i hi, he]
    exact refs_since hl hn
  · intro p h₃ h₂ h₁ he hn
    have hl := h.legal
    rw [he] at hl
    obtain ⟨hz, hl⟩ := legal_append hl
    have := refs_since hl hn
    omega
  · exact nonzeroFree_notMem h.legal

theorem sound_run (s : PMap) (l : List ℕ) (hd : s.Distinct) (hf : Free s l) (calls : List Call)
    (h : Meets Log.step (fun _ x => ∀ p, refs s.counts p x.events < 2 ^ 32 - 1) ⟨s, []⟩ calls) :
    Along Log.step Sound ⟨s, []⟩ calls := by
  have hrun : Along Log.step (Tallied s.counts) ⟨s, []⟩ calls := by
    refine along_of_step (fun c x y hx hb hy => ?_) (tallied_start hd hf) h
    obtain ⟨y', hy', ht⟩ := tallied_step c hx hb
    exact Option.some.inj (hy'.symm.trans hy) ▸ ht
  exact along_mono (fun _ hx => hx.sound) hrun

theorem refs_le (start : BitVec 64 → ℕ) (p : BitVec 64) (h : List Event) :
    refs start p h ≤ start p + h.length + 1 := by
  induction h with
  | nil => simp only [refs]; omega
  | cons e h ih =>
    cases e <;> simp only [refs, List.length_cons]
    case handed q => split <;> omega
    case released q => split <;> omega
    case counted q => split <;> omega
    case panic m => omega

def twoPages : PMap where
  desc i := ⟨BitVec.ofNat 64 (0x1000 * (i + 1)), 0, if i = 0 then some 1 else none⟩
  entryCount := 2
  head := some 0

theorem sound_run_twoPages :
    Along Log.step Sound ⟨twoPages, []⟩
      [.getFreePage, .incMapCount 0x1000, .releasePage 0x1000, .releasePage 0x1000, .getFreePage] := by
  have hstart : ∀ p, twoPages.counts p = 0 := by
    intro p
    rw [counts]
    cases twoPages.walkList p <;> rfl
  apply sound_run twoPages [0, 1]
  · intro i hi j hj he
    have hi : i < 2 := hi
    have hj : j < 2 := hj
    have := congrArg BitVec.toNat he
    simp only [twoPages, BitVec.toNat_ofNat] at this
    omega
  · refine ⟨⟨rfl, rfl, rfl⟩, fun i => ?_⟩
    have : i ∈ [0, 1] ↔ i < 2 := by
      simp only [List.mem_cons, List.not_mem_nil, or_false]
      omega
    simpa [twoPages] using this
  · apply meets_of_check (c := fun _ x => decide (x.events.length < 5)) _ (by decide)
    intro _ x hx p
    have hlen := of_decide_eq_true hx
    have hle := refs_le twoPages.counts p x.events
    rw [hstart] at hle
    omega

end PMap

end Os506
