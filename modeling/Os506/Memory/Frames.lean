import Os506.Memory.PMapHistory

namespace Os506

open Linked

namespace PMap

def Known (s : PMap) (f : BitVec 64) : Prop := ∃ i < s.entryCount, (s.desc i).base = f

def Physical (f : BitVec 64) : Prop := f &&& 0xFFF0000000000FFF#64 = 0#64

instance (f : BitVec 64) : Decidable (Physical f) := inferInstanceAs (Decidable (_ = _))

structure Ok (s : PMap) : Prop where
  distinct : s.Distinct
  physical : ∀ f, s.Known f → Physical f
  free : ∃ l, Free s l

def Room (n : ℕ) (s : PMap) : Prop := ∃ l, Free s l ∧ n ≤ l.length

structure Recounted (f : BitVec 64) (n : ℕ) (s s' : PMap) : Prop where
  ok : s'.Ok
  known : ∀ g, s'.Known g ↔ s.Known g
  counts : s'.counts = Function.update s.counts f n

variable {s s' : PMap} {i n : ℕ} {f : BitVec 64}

theorem counts_base (hd : s.Distinct) (hi : i < s.entryCount) :
    s.counts (s.desc i).base = (s.desc i).mapCount.toNat := by
  simp [counts, walkList_base hd hi]

theorem counts_unknown (h : ¬ s.Known f) : s.counts f = 0 := by
  cases hw : s.walkList f with
  | none => simp [counts, hw]
  | some i => exact absurd ⟨i, walkList_some hw⟩ h

theorem Known.of_counts (h : 0 < s.counts f) : s.Known f := by
  by_contra hk
  rw [counts_unknown hk] at h
  exact absurd h (lt_irrefl 0)

theorem Ok.same (h : s.Ok) (hn : s.counts f = n) : Recounted f n s s :=
  ⟨h, fun _ => Iff.rfl, by rw [← hn, Function.update_eq_self]⟩

theorem Touches.recounted {l : List ℕ} (h : s.Ok) (ht : Touches i s s') (hi : i < s.entryCount) (hf : Free s' l) :
    Recounted (s.desc i).base (s'.desc i).mapCount.toNat s s' := by
  have hd := ht.distinct h.distinct
  have hknown : ∀ g, s'.Known g ↔ s.Known g := fun g => by simp only [Known, ht.entryCount, ht.base]
  refine ⟨⟨hd, fun g hg => h.physical g ((hknown g).mp hg), l, hf⟩, hknown, ?_⟩
  funext g
  by_cases hk : s.Known g
  · obtain ⟨j, hj, rfl⟩ := hk
    have hj' : j < s'.entryCount := by rw [ht.entryCount]; exact hj
    have hb := counts_base hd hj'
    rw [ht.base] at hb
    rw [hb]
    by_cases he : j = i
    · subst he; rw [Function.update_self]
    · rw [ht.other j he, Function.update_of_ne fun hb => he (h.distinct j hj i hi hb), counts_base h.distinct hj]
  · have hne : g ≠ (s.desc i).base := fun he => hk ⟨i, hi, he.symm⟩
    rw [Function.update_of_ne hne, counts_unknown hk, counts_unknown (hk ∘ (hknown g).mp)]

theorem getFreePage_recounted (h : s.Ok) (hg : s.getFreePage = (.ok f, s')) :
    Recounted f 1 s s' ∧ s.Known f ∧ s.counts f = 0 := by
  obtain ⟨l, hl⟩ := h.free
  cases l with
  | nil => rw [getFreePage_nil hl] at hg; cases hg
  | cons i l =>
    obtain ⟨t, ht, hf, htouch, hone⟩ := getFreePage_cons hl
    obtain ⟨he, rfl⟩ := Prod.mk.inj (ht.symm.trans hg)
    obtain rfl := Except.ok.inj he
    obtain ⟨hi, hz⟩ := (hl.mem i).mp List.mem_cons_self
    have hr := htouch.recounted h hi hf
    rw [hone] at hr
    exact ⟨hr, ⟨i, hi, rfl⟩, by rw [counts_base h.distinct hi, hz]; rfl⟩

theorem getFreePage_room (h : s.Room (n + 1)) : ∃ f s', s.getFreePage = (.ok f, s') ∧ s'.Room n := by
  obtain ⟨l, hl, hn⟩ := h
  cases l with
  | nil => simp at hn
  | cons i l =>
    obtain ⟨s', hs', hf, _⟩ := getFreePage_cons hl
    exact ⟨_, s', hs', l, hf, by simpa using hn⟩

theorem releasePage_recounted (h : s.Ok) (f : BitVec 64) : Recounted f (s.counts f - 1) s (s.releasePage f).2 := by
  obtain ⟨l, hl⟩ := h.free
  cases hw : s.walkList f with
  | none =>
    have hz : s.counts f = 0 := by simp [counts, hw]
    rw [releasePage_none hw, hz]
    exact h.same hz
  | some i =>
    obtain ⟨hi, rfl⟩ := walkList_some hw
    rw [counts_base h.distinct hi]
    by_cases hz : (s.desc i).mapCount = 0
    · have hc : s.counts (s.desc i).base = 0 := by rw [counts_base h.distinct hi, hz]; rfl
      rw [releasePage_free hw hz, hz]
      exact h.same hc
    · obtain ⟨s', l', hs', hf, ht, hc⟩ := releasePage_some hl hw hz
      rw [hs', ← hc, Nat.add_sub_cancel]
      exact ht.recounted h hi hf

theorem Room.mono {k : ℕ} (h : s.Room n) (hk : k ≤ n) : s.Room k := by
  obtain ⟨l, hl, hn⟩ := h
  exact ⟨l, hl, hk.trans hn⟩

theorem releasePage_room (h : s.Room n) (f : BitVec 64) : (s.releasePage f).2.Room n := by
  obtain ⟨l, hl, hn⟩ := h
  cases hw : s.walkList f with
  | none => rw [releasePage_none hw]; exact ⟨l, hl, hn⟩
  | some i =>
    by_cases hz : (s.desc i).mapCount = 0
    · rw [releasePage_free hw hz]; exact ⟨l, hl, hn⟩
    · obtain ⟨s', l', hs', hf, ht, _⟩ := releasePage_some hl hw hz
      have hsub : l ⊆ l' := fun j hj => by
        obtain ⟨hlt, hzero⟩ := (hl.mem j).mp hj
        have hne : j ≠ i := fun he => hz (he ▸ hzero)
        rw [hf.mem, ht.entryCount, ht.other j hne]
        exact ⟨hlt, hzero⟩
      have hle := (List.subperm_of_subset (chain_nodup hl.chain) hsub).length_le
      rw [hs']
      exact ⟨l', hf, hn.trans hle⟩

theorem incMapCount_recounted (h : s.Ok) (hpos : 0 < s.counts f) (hlt : s.counts f < 2 ^ 32 - 1) :
    Recounted f (s.counts f + 1) s (s.incMapCount f).2 := by
  obtain ⟨l, hl⟩ := h.free
  obtain ⟨i, hi, rfl⟩ := Known.of_counts hpos
  rw [counts_base h.distinct hi] at hpos hlt ⊢
  have hz : (s.desc i).mapCount ≠ 0 := fun hz => by rw [hz] at hpos; exact absurd hpos (by decide)
  obtain ⟨s', hs', hf, ht, hc⟩ := incMapCount_some hl (walkList_base h.distinct hi) hz hlt
  rw [hs', ← hc]
  exact ht.recounted h hi hf

def avail (s : PMap) : ℕ := (List.range s.entryCount).countP fun i => (s.desc i).mapCount = 0

theorem Free.length_eq {l : List ℕ} (h : Free s l) : l.length = s.avail := by
  have hperm : l.Perm ((List.range s.entryCount).filter fun i => (s.desc i).mapCount = 0) := by
    apply (List.perm_ext_iff_of_nodup (Linked.chain_nodup h.chain) (List.nodup_range.filter _)).mpr
    intro i
    simp [h.mem]
  rw [hperm.length_eq, avail, List.countP_eq_length_filter]

theorem getFreePage_avail (h : s.Ok) (hg : s.getFreePage = (.ok f, s')) : s.avail = s'.avail + 1 := by
  obtain ⟨l, hl⟩ := h.free
  cases l with
  | nil => rw [getFreePage_nil hl] at hg; cases hg
  | cons i l =>
    obtain ⟨t, ht, hf, _⟩ := getFreePage_cons hl
    obtain ⟨_, rfl⟩ := Prod.mk.inj (ht.symm.trans hg)
    rw [← hl.length_eq, ← hf.length_eq, List.length_cons]

theorem releasePage_avail (h : s.Ok) (hone : s.counts f = 1) : (s.releasePage f).2.avail = s.avail + 1 := by
  obtain ⟨l, hl⟩ := h.free
  obtain ⟨i, hi, rfl⟩ := Known.of_counts (hone.symm ▸ Nat.one_pos)
  rw [counts_base h.distinct hi] at hone
  obtain ⟨s', hs', hf, _⟩ := releasePage_last hl (walkList_base h.distinct hi) (BitVec.eq_of_toNat_eq hone)
  rw [hs', ← hf.length_eq, List.length_cons, hl.length_eq]

end PMap

end Os506
