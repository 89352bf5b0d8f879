import Os506.Memory.Layout

namespace Os506

open Pging CopyOnWrite

namespace Mach

variable {m m' : Mach} {slack : ℕ → ℕ} {i j p va : ℕ} {f g : BitVec 64} {b : Bool} {front : List Vma}

theorem bmod_word (x : ℤ) : Int.bmod x (2 ^ 32) = x % 4294967296 ∧ x % 4294967296 < 2147483648 ∨
    Int.bmod x (2 ^ 32) = x % 4294967296 - 4294967296 ∧ 2147483648 ≤ x % 4294967296 := by
  have hc : ((2 ^ 32 : ℕ) : ℤ) = 4294967296 := rfl
  rw [Int.bmod_def, hc]
  split <;> omega

/-- The wrap to 32 bits is never reached. -/
theorem kmmapPages_word (s n : ℕ) :
    kmmapPages s (Int.bmod n (2 ^ 32)) = (s + Int.bmod n (2 ^ 32) - 1) / 4096 - s / 4096 + 1 := by
  have hz := bmod_word n
  generalize Int.bmod (n : ℤ) (2 ^ 32) = z at hz
  have hk := bmod_word (((s : ℤ) + z - 1) % 2 ^ 64 / 4096 - s / 4096 + 1)
  rw [kmmapPages]
  generalize Int.bmod (((s : ℤ) + z - 1) % 2 ^ 64 / 4096 - s / 4096 + 1) (2 ^ 32) = k at hk
  omega

theorem mem_kmmapPages {s n q : ℕ} :
    q ∈ List.range' (s / 4096) (kmmapPages s (Int.bmod n (2 ^ 32))).toNat ↔
      s / 4096 ≤ q ∧ (q : ℤ) * 4096 < s + Int.bmod n (2 ^ 32) := by
  rw [List.mem_range'_1, kmmapPages_word]
  omega

theorem kmmapPages_sub {s n q : ℕ}
    (hq : q ∈ List.range' (s / 4096) (kmmapPages s (Int.bmod n (2 ^ 32))).toNat) : s / 4096 ≤ q ∧ q * 4096 < s + n := by
  rw [mem_kmmapPages] at hq
  have hz := bmod_word n
  omega

theorem kmmapPages_all {s n q : ℕ} (hn : n < 2 ^ 31) (hq : s / 4096 ≤ q) (hlt : q * 4096 < s + n) :
    q ∈ List.range' (s / 4096) (kmmapPages s (Int.bmod n (2 ^ 32))).toNat := by
  rw [mem_kmmapPages]
  have hz := bmod_word n
  omega

/-- What process `k` has at the address `va`: a page that is not there will be a page of zeros. -/
def view (m : Mach) (k va : ℕ) : UInt8 := ((m.seen k (va / 4096)).getD fun _ => 0) (va % 4096)

theorem view_congr (h : m'.seen = m.seen) : m'.view = m.view := by
  funext k va
  rw [view, view, h]

theorem Inv.same (h : Inv m) (hs : Sound (fun _ => 0) m') (ha : Alike m m')
    (hseen : ∀ k q, m'.seen k q = none ↔ m.seen k q = none) : Inv m' := by
  refine ⟨hs, fun k hk q => (hseen k q).mpr (h.blank k (ha.count ▸ hk) q), fun k hk => ?_⟩
  obtain ⟨front, hl⟩ := h.laid k (ha.count ▸ hk)
  exact ⟨front, hl.congr (ha.vm k) (hseen k)⟩

theorem Inv.widen {l : List ℕ} (h : Inv m) (hi : i < m.count) (hs : Sound (fun _ => 0) m') (ha : Alike m m')
    (hseen : ∀ k q, m'.seen k q = if k = i ∧ q ∈ l then some ((m.seen i q).getD fun _ => 0) else m.seen k q)
    (hl : (∃ v ∈ (m.mm i).vm, v.type ≠ .stack ∧ ∀ q ∈ l, q ∈ v.pages) ∨
      (∀ q ∈ l, q ∈ stackVma.stackPages ∧ ∀ r ∈ stackVma.stackPages, q ≤ r → r ∈ l)) :
    Inv m' ∧ m'.view = m.view := by
  have hkeep : ∀ q, m.seen i q ≠ none → m'.seen i q ≠ none := fun q hq => by
    rw [hseen]
    split
    · simp
    · exact hq
  have hnew : ∀ q, m'.seen i q ≠ none → q ∉ l → m.seen i q ≠ none := fun q hq hn => by
    rwa [hseen, if_neg fun hx => hn hx.2] at hq
  have hnewl : ∀ q ∈ l, m'.seen i q ≠ none := fun q hq => by simp [hseen, hq]
  constructor
  · refine ⟨hs, fun k hk q => ?_, fun k hk => ?_⟩
    · rw [ha.count] at hk
      rw [hseen, if_neg fun hx => absurd hx.1 (by omega)]
      exact h.blank k hk q
    · obtain ⟨front, hlay⟩ := h.laid k (ha.count ▸ hk)
      refine ⟨front, ?_⟩
      by_cases hki : k = i
      · subst hki
        refine ⟨(ha.vm k).trans hlay.vm, hlay.user, fun q hq => ?_, fun q hq hne hf r hr hle => ?_⟩
        · by_cases hql : q ∈ l
          · rcases hl with ⟨v, hv, hty, hpages⟩ | hstack
            · rw [hlay.vm, List.mem_append, List.mem_singleton] at hv
              exact .inl ⟨v, hv.resolve_right fun he => hty (he ▸ rfl), hpages q hql⟩
            · exact .inr (hstack q hql).1
          · exact hlay.covered q (hnew q hq hql)
        · by_cases hql : q ∈ l
          · rcases hl with ⟨v, hv, hty, hpages⟩ | hstack
            · rw [hlay.vm, List.mem_append, List.mem_singleton] at hv
              exact absurd (hpages q hql) (hf v (hv.resolve_right fun he => hty (he ▸ rfl)))
            · exact hnewl r ((hstack q hql).2 r hr hle)
          · exact hkeep r (hlay.stack q hq (hnew q hne hql) hf r hr hle)
      · exact hlay.congr (ha.vm k) fun q => by rw [hseen, if_neg fun hx => hki hx.1]
  · funext k x
    rw [view, view, hseen]
    split
    · rename_i hx
      rw [hx.1]; rfl
    · rfl

theorem Inv.kmmap {v : Vma} (h : Inv m) (hi : i < m.count) (hv : v ∈ (m.mm i).vm) (hle : v.start ≤ v.stop)
    (hm : m.kmmap i v.start (v.stop - v.start) rwUser = some m') :
    Inv m' ∧ Alike m m' ∧ Settled m m' ∧ Opens m m' ∧ m'.view = m.view ∧
      (v.stop - v.start < 2 ^ 31 → ∀ q ∈ v.pages, m'.seen i q ≠ none) := by
  obtain ⟨front, hlay⟩ := h.laid i hi
  obtain ⟨hadv, hset, hopen, hseen⟩ := mapPages_spec h.sound hm
  have hsum : v.start + (v.stop - v.start) = v.stop := by omega
  rw [hlay.vm, List.mem_append, List.mem_singleton] at hv
  have hsub : ∀ q ∈ List.range' (v.start / 4096) (kmmapPages v.start (Int.bmod (v.stop - v.start : ℕ) (2 ^ 32))).toNat,
      q ∈ v.pages := fun q hq => by
    have hq := kmmapPages_sub hq
    rw [hsum] at hq
    exact Vma.mem_pages.mpr hq
  have hall : v.stop - v.start < 2 ^ 31 → ∀ q ∈ v.pages,
      q ∈ List.range' (v.start / 4096) (kmmapPages v.start (Int.bmod (v.stop - v.start : ℕ) (2 ^ 32))).toNat :=
    fun hlt q hq => by
      obtain ⟨h₁, h₂⟩ := Vma.mem_pages.mp hq
      exact kmmapPages_all hlt h₁ (h₂.trans_eq hsum.symm)
  have hinv := h.widen hi hadv.sound hadv.alike hseen (by
    rcases hv with hv | rfl
    · exact .inl ⟨v, by simp [hlay.vm, hv], (hlay.user v hv).1, hsub⟩
    · exact .inr fun q hq => ⟨Vma.mem_stack_pages.mp (hsub q hq),
        fun r hr _ => hall (by decide) r (Vma.mem_stack_pages.mpr hr)⟩)
  refine ⟨hinv.1, hadv.alike, hset, hopen, hinv.2, fun hlt q hq => ?_⟩
  rw [hseen, if_pos ⟨rfl, hall hlt q hq⟩]
  simp

theorem breakShare_spec (h : Sound slack m) (hm : m.breakShare i p = some m') :
    Sound slack m' ∧ Alike m m' ∧ Settled m m' ∧ m'.seen = m.seen ∧ (∃ f, m'.cow.map i p = some (f, true)) ∧
      ∀ f, m.cow.Mapped f → m'.excess f = m.excess f ∧ m'.pmap.Known f := by
  rw [breakShare] at hm
  dsimp only at hm
  split at hm
  · rename_i hflags
    rcases h.entry i p with hz | ⟨f, b, hknown, hpte⟩
    · rw [hz] at hflags; exact absurd hflags (by decide)
    · have hphys := h.ok.physical f hknown
      rw [hpte, isCow_entryOf hphys, isRW_entryOf hphys] at hflags
      obtain rfl : b = false := by simpa using hflags
      have hmap : m.cow.map i p = some (f, false) := by simp only [cow, hpte, leaf_entryOf hphys]
      have hu : (m.tables i).upper .pde (p / 512) ≠ 0 := fun hz =>
        absurd ((h.rooted i).pte p hz) (h.map_eq_none.not.mp (by simp [hmap]))
      rw [hpte, entryOf_frame hphys, frame_entryOf hphys] at hm
      obtain ⟨⟨g, m₁⟩, hg, rfl⟩ := Option.map_eq_some_iff.mp hm
      obtain ⟨hgrown₀, _, _⟩ := getFreePage_grown h hg fun _ => 0
      obtain ⟨hgrown, hs, hfresh⟩ := getFreePage_grown h hg (m.mem f)
      have hpos := h.counts_pos ⟨i, p, false, hmap⟩
      have hbytes : (m₁.zeroPage g).mem f = m.mem f := (hgrown₀.kept f hpos).2
      have hstate : (m₁.zeroPage g).setPage g (m.mem f) = m₁.setPage g (m.mem f) := by
        simp only [zeroPage, setPage, Function.update_idem]
      have hentry : g ||| pageU ||| pageP ||| pageRW = entryOf g true := by
        rw [BitVec.or_assoc, BitVec.or_assoc]
        rfl
      simp only [hbytes, hstate, hentry]
      obtain ⟨m₂, hm₂⟩ : ∃ m₂, m₂ = m₁.setPage g (m.mem f) := ⟨_, rfl⟩
      rw [← hm₂] at hgrown hs hfresh ⊢
      have hmap₂ : m₂.cow.map i p = some (f, false) := by rw [hgrown.map]; exact hmap
      have hu₂ : (m₂.tables i).upper .pde (p / 512) ≠ 0 := by rw [hgrown.upper i _ _ hu]; exact hu
      obtain ⟨hs', hcow, hset, hkept⟩ := hs.unshare hu₂ hmap₂ hfresh
      have halike : Alike m₂ ((m₂.setPte i p (entryOf g true)).releasePage f) := by
        obtain ⟨h₁, h₂, h₃, h₄⟩ := alike_modifyTables m₂ i fun t =>
          { t with pte := Function.update t.pte p (entryOf g true) }
        exact ⟨h₁, h₂, h₃, h₄⟩
      refine ⟨hs', hgrown.toAlike.trans halike, (h.settled_grown hgrown).1.trans hset, ?_, ⟨g, ?_⟩, fun e he => ⟨?_, ?_⟩⟩
      · have hmem : m₂.cow.mem g = m.mem f := by
          have : m₂.mem g = m.mem f := by rw [hm₂]; exact Function.update_self _ _ _
          exact this
        have hsame : m₂.seen i p = some (m.mem f) := by rw [h.seen_grown hgrown]; exact seen_of_map hmap
        rw [seen, hcow, Space.seen_set, hmem, ← h.seen_grown hgrown]
        exact sees_self hsame
      · rw [hcow, Space.set_map_self]
      · rw [hkept e ((mapped_congr hgrown.map).mpr he), h.excess_grown hgrown he]
      · exact ((PMap.releasePage_recounted hs.ok f).known e).mpr
          ((hgrown.known e).mpr (PMap.Known.of_counts (h.counts_pos he)))
  · cases hm

theorem handlePgFault_spec {err : Bool} (h : Inv m) (hi : i < m.count) (hm : m.handlePgFault i va err = some m') :
    Inv m' ∧ Alike m m' ∧ Settled m m' ∧ m'.view = m.view := by
  rw [handlePgFault] at hm
  split at hm
  · cases hm
  · split at hm
    · obtain ⟨hs, ha, hset, hseen, _⟩ := breakShare_spec h.sound hm
      exact ⟨h.same hs ha fun k q => by rw [hseen], ha, hset, view_congr hseen⟩
    · split at hm
      · rename_i v hv
        have hhas := List.find?_some hv
        simp only [Vma.has, Bool.and_eq_true, decide_eq_true_eq] at hhas
        obtain ⟨hinv, ha, hset, _, hview, _⟩ := h.kmmap hi (List.mem_of_find?_eq_some hv) (by omega) hm
        exact ⟨hinv, ha, hset, hview⟩
      · cases hm

end Mach

end Os506
