import Os506.Memory.Visits

namespace Os506

open Pging CopyOnWrite

def stackVma : Vma := ⟨Mach.userStackTop - Mach.userStackSize, Mach.userStackTop, .stack⟩

namespace Vma

variable {v : Vma} {q : ℕ}

theorem mem_pages : q ∈ v.pages ↔ v.start / 4096 ≤ q ∧ q * 4096 < v.stop := by
  rw [pages, List.mem_range'_1]
  omega

theorem nodup_pages (v : Vma) : v.pages.Nodup := List.nodup_range'

theorem mem_stackPages : q ∈ stackVma.stackPages ↔ 0xEFFFFF0 ≤ q ∧ q < 0xF000000 := by
  rw [stackPages, List.mem_reverse, List.mem_range'_1]
  simp only [stackVma, Mach.userStackTop, Mach.userStackSize]

theorem mem_stack_pages : q ∈ stackVma.pages ↔ q ∈ stackVma.stackPages := by
  rw [mem_pages, mem_stackPages]
  simp only [stackVma, Mach.userStackTop, Mach.userStackSize]
  omega

theorem mem_takeWhile_stack {ok : ℕ → Bool} (hq : q ∈ stackVma.stackPages)
    (hok : ∀ r ∈ stackVma.stackPages, q ≤ r → ok r = true) : q ∈ stackVma.stackPages.takeWhile ok := by
  have hsort : stackVma.stackPages.Pairwise (· > ·) := by
    rw [stackPages, List.pairwise_reverse]
    exact List.pairwise_lt_range'
  obtain ⟨l₁, l₂, he⟩ := List.append_of_mem hq
  have hlt : ∀ r ∈ l₁, q < r := fun r hr => by
    rw [he] at hsort
    exact (List.pairwise_append.mp hsort).2.2 r hr q (by simp)
  have hall : ∀ r ∈ l₁, ok r = true := fun r hr => hok r (by simp [he, hr]) (hlt r hr).le
  rw [he, List.takeWhile_append_of_pos hall, List.takeWhile_cons, if_pos (hok q hq le_rfl)]
  simp

end Vma

namespace Mach

variable {m m' : Mach} {slack : ℕ → ℕ} {i j p : ℕ} {f g : BitVec 64} {front : List Vma}

structure Lays (m : Mach) (i : ℕ) (front : List Vma) : Prop where
  vm : (m.mm i).vm = front ++ [stackVma]
  user : ∀ v ∈ front, v.type ≠ .stack ∧ v.stop ≤ 2 ^ 47
  covered : ∀ p, m.seen i p ≠ none → (∃ v ∈ front, p ∈ v.pages) ∨ p ∈ stackVma.stackPages
  stack : ∀ p ∈ stackVma.stackPages, m.seen i p ≠ none → (∀ v ∈ front, p ∉ v.pages) →
    ∀ q ∈ stackVma.stackPages, p ≤ q → m.seen i q ≠ none

structure Inv (m : Mach) : Prop where
  sound : Sound (fun _ => 0) m
  blank : ∀ k, m.count ≤ k → ∀ p, m.seen k p = none
  laid : ∀ k < m.count, ∃ front, Lays m k front

theorem Lays.congr (h : Lays m i front) (hv : (m'.mm j).vm = (m.mm i).vm)
    (hs : ∀ p, m'.seen j p = none ↔ m.seen i p = none) : Lays m' j front := by
  refine ⟨hv.trans h.vm, h.user, fun p hp => h.covered p (mt (hs p).mpr hp), fun p hp hne hf q hq hle => ?_⟩
  exact mt (hs q).mp (h.stack p hp (mt (hs p).mpr hne) hf q hq hle)

theorem takeFrames_grown {n : ℕ} (h : Sound slack m) (hm : m.takeFrames n = some m') : Grown m m' ∧ Sound slack m' := by
  induction n generalizing m with
  | zero => exact Option.some.inj hm ▸ ⟨.refl m, h⟩
  | succ n ih =>
    obtain ⟨⟨g, m₁⟩, hg, hm⟩ := Option.bind_eq_some_iff.mp hm
    obtain ⟨hgrown, hs, _⟩ := getFreePage_grown h hg (m₁.mem g)
    have hsame : m₁.setPage g (m₁.mem g) = m₁ := by rw [setPage, Function.update_eq_self]
    rw [hsame] at hgrown hs
    obtain ⟨hgrown', hs'⟩ := ih hs hm
    exact ⟨hgrown.trans hgrown', hs'⟩

theorem newMm_spec {vm : List Vma} {brk frames : ℕ} (h : Sound (fun _ => 0) m) (hb : ∀ p, m.seen m.count p = none)
    (hm : m.newMm vm brk frames = some m') (hsl : ∀ q, slack q ≤ vm.length) :
    Sound slack m' ∧ m'.seen = m.seen ∧ Settled m m' ∧ Held m m' ∧ m'.count = m.count + 1 ∧
      ∀ k, (m'.mm k).vm = if k = m.count then vm else (m.mm k).vm := by
  rw [newMm] at hm
  split at hm
  · cases hm
  · rename_i hlim
    obtain ⟨m₁, hm₁, rfl⟩ := Option.map_eq_some_iff.mp hm
    obtain ⟨hgrown, hs⟩ := takeFrames_grown h hm₁
    have hset := h.settled_grown hgrown
    have hseen := h.seen_grown hgrown
    obtain ⟨m₂, hm₂⟩ : ∃ m₂ : Mach, m₂ = { m₁ with
      mm := Function.update m₁.mm m₁.count { vm := vm, brk := brk }
      count := m₁.count + 1, vmas := m₁.vmas + vm.length } := ⟨_, rfl⟩
    rw [← hm₂]
    have htab : ∀ k, m₂.tables k = if k = m₁.count then {} else m₁.tables k := fun k => by
      rw [hm₂, tables]
      by_cases hk : k = m₁.count
      · subst hk; simp
      · simp [hk, tables]
    have hmap : m₂.cow.map = m₁.cow.map := by
      funext k q
      by_cases hk : k = m₁.count
      · have hz : m₁.cow.map k q = none := by
          rw [hk, ← seen_eq_none, hseen, hgrown.count]; exact hb q
        rw [hz]
        simp only [cow, htab, hk, ↓reduceIte]
        rfl
      · simp only [cow, htab, if_neg hk]
    have hpm : m₂.pmap = m₁.pmap := by rw [hm₂]
    have hexcess : ∀ f, m₂.excess f = m₁.excess f := fun f => excess_congr hmap (by rw [hpm])
    have hvmas : m₂.vmas = m₁.vmas + vm.length := by rw [hm₂]
    refine ⟨⟨?_, fun k => ?_, fun k q => ?_, ?_, ?_, ?_, ?_, ?_, ?_⟩, ?_, ?_, ?_, ?_, ?_⟩
    · rw [hpm]; exact hs.ok
    · rw [htab]
      split
      · exact ⟨fun _ _ => .inl rfl, fun _ _ => rfl, fun _ _ => rfl, fun _ _ => rfl⟩
      · exact hs.rooted k
    · rw [htab, hpm]
      split
      · exact .inl rfl
      · exact hs.entry k q
    · obtain ⟨h₁, h₂⟩ := hs.priv
      exact ⟨hmap ▸ h₁, hmap ▸ h₂⟩
    · rw [Space.Bounded, hmap]; exact hs.bounded
    · intro f hf
      rw [holders_congr hmap, hpm]
      exact hs.leaves f ((mapped_congr hmap).mp hf)
    · intro k q f b hk
      rw [hmap] at hk
      have := hs.limit k q f b hk
      have := hsl q
      rw [hpm, hvmas]
      omega
    · intro q
      have := hsl q
      rw [hvmas]
      omega
    · rw [hvmas, hgrown.vmas]
      omega
    · rw [← hseen]
      funext k q
      have hmem : m₂.cow.mem = m₁.cow.mem := by rw [hm₂]; rfl
      simp only [seen, Space.seen, hmap, hmem]
    · refine hset.1.trans fun f hf => .inl ⟨(mapped_congr hmap).mp hf, hexcess f⟩
    · exact hset.2.trans fun f hf => ⟨(mapped_congr hmap).mpr hf, (hexcess f).ge⟩
    · rw [hm₂, ← hgrown.count]
    · intro k
      rw [hm₂, hgrown.count]
      by_cases hk : k = m.count
      · simp [hk]
      · simp [hk, hgrown.vm]

/-- The pages that `fork_process` visits to share them, once for each VMA that covers them. -/
def visits (m : Mach) (i : ℕ) : List ℕ := ((m.mm i).vm.filter fun v => decide (v.type ≠ .stack)).flatMap Vma.pages

def Twice (m : Mach) (i : ℕ) : Prop := ∃ p, m.seen i p ≠ none ∧ 2 ≤ (m.visits i).count p

theorem Lays.visits_eq (h : Lays m i front) : m.visits i = front.flatMap Vma.pages := by
  have hfilter : front.filter (fun v => decide (v.type ≠ .stack)) = front :=
    List.filter_eq_self.mpr fun v hv => decide_eq_true (h.user v hv).1
  rw [visits, h.vm, List.filter_append, hfilter]
  simp [stackVma]

theorem count_pages_le (l : List Vma) (q : ℕ) : (l.flatMap Vma.pages).count q ≤ l.length := by
  induction l with
  | nil => simp
  | cons v l ih =>
    have hone := List.nodup_iff_count_le_one.mp v.nodup_pages q
    rw [List.flatMap_cons, List.count_append, List.length_cons]
    omega

theorem forkVmas_front {l : List Vma} (hl : ∀ v ∈ l, v.type ≠ .stack) (m : Mach) :
    m.forkVmas i j (l ++ [stackVma]) =
      (m.sharePages i j (l.flatMap Vma.pages)).bind (copyStack i j stackVma.stackPages) := by
  induction l generalizing m with
  | nil =>
    have hcopy : m.forkVma i j stackVma = m.copyStack i j stackVma.stackPages := rfl
    have hend : forkVmas i j [] = some := funext fun _ => rfl
    rw [List.nil_append, forkVmas, hcopy, hend, Option.bind_fun_some]
    rfl
  | cons v l ih =>
    have hshare : m.forkVma i j v = m.sharePages i j v.pages := if_neg (hl v (by simp))
    rw [List.cons_append, forkVmas, hshare, List.flatMap_cons, sharePages_append, Option.bind_assoc]
    exact congrArg _ (funext fun m => ih (fun w hw => hl w (by simp [hw])) m)

theorem forkProcess_spec {frames : ℕ} (h : Inv m) (hi : i < m.count) (hm : m.forkProcess i frames = some m') :
    Inv m' ∧ m'.count = m.count + 1 ∧ (∀ k, m'.seen k = if k = m.count then m.seen i else m.seen k) ∧
      (¬ m.Twice i → Settled m m') ∧ (m.Twice i → ∃ f, m'.cow.Mapped f ∧ 0 < m'.excess f) := by
  obtain ⟨front, hlay⟩ := h.laid i hi
  have hij : i ≠ m.count := hi.ne
  obtain ⟨m₁, hm₁, hm⟩ := Option.bind_eq_some_iff.mp hm
  have hlen : ∀ q, (front.flatMap Vma.pages).count q ≤ (m.mm i).vm.length := fun q => by
    have := count_pages_le front q
    rw [hlay.vm, List.length_append]
    omega
  obtain ⟨hs₁, hseen₁, hset₁, _, hcount₁, hvm₁⟩ := newMm_spec h.sound (h.blank _ le_rfl) hm₁ hlen
  rw [hlay.vm, forkVmas_front fun v hv => (hlay.user v hv).1] at hm
  obtain ⟨m₂, hm₂, hm⟩ := Option.bind_eq_some_iff.mp hm
  have hblank : ∀ q, m₁.seen m.count q = none := fun q => by rw [hseen₁]; exact h.blank _ le_rfl q
  obtain ⟨hadv₂, hc₂, hseen₂, hset₂, hup₂⟩ := sharePages_spec hs₁ hij (fun q => .inl (hblank q)) hm₂
  obtain ⟨hadv₃, hset₃, _, hseen₃⟩ := copyStack_spec hadv₂.sound hij hc₂ hm
  have hparent : m₂.seen i = m.seen i := funext fun q => by
    rw [hseen₂, if_neg fun hk => hij hk.1, hseen₁]
  have hseen : ∀ k, m'.seen k = if k = m.count then m.seen i else m.seen k := by
    intro k
    funext q
    rw [hseen₃, hparent, hseen₂, hseen₁]
    by_cases hk : k = m.count
    · simp only [hk, true_and, ↓reduceIte]
      split
      · rfl
      · split
        · rfl
        · -- a page that was not visited is not there in the parent either
          rename_i hstack hfront
          rw [h.blank _ le_rfl]
          by_contra hne
          have hfront' : ∀ v ∈ front, q ∉ v.pages := fun v hv hq => hfront (List.mem_flatMap.mpr ⟨v, hv, hq⟩)
          have hq := (hlay.covered q (Ne.symm hne)).resolve_left fun ⟨v, hv, hq⟩ => hfront' v hv hq
          refine hstack (Vma.mem_takeWhile_stack hq fun r hr hle => ?_)
          exact Option.isSome_iff_ne_none.mpr (hlay.stack q hq (Ne.symm hne) hfront' r hr hle)
    · simp only [hk, false_and, ↓reduceIte]
  have hadv := hadv₂.trans hadv₃
  have hcount : m'.count = m.count + 1 := hadv.alike.count.trans hcount₁
  have hvm : ∀ k, (m'.mm k).vm = if k = m.count then (m.mm i).vm else (m.mm k).vm := fun k =>
    (hadv.alike.vm k).trans (hvm₁ k)
  have hvisits : m.visits i = front.flatMap Vma.pages := hlay.visits_eq
  refine ⟨⟨hadv.sound, fun k hk q => ?_, fun k hk => ?_⟩, hcount, hseen, fun honce => ?_, ?_⟩
  · rw [hcount] at hk
    rw [hseen, if_neg (by omega)]
    exact h.blank k (by omega) q
  · by_cases hkj : k = m.count
    · subst hkj
      exact ⟨front, hlay.congr (by rw [hvm, if_pos rfl]) fun q => by rw [hseen, if_pos rfl]⟩
    · obtain ⟨front', hlay'⟩ := h.laid k (by omega)
      exact ⟨front', hlay'.congr (by rw [hvm, if_neg hkj]) fun q => by rw [hseen, if_neg hkj]⟩
  · refine hset₁.trans ((hset₂ fun q hq hne => ⟨hblank q, ?_⟩).trans hset₃)
    rw [hseen₁] at hne
    have hpos := List.count_pos_iff.mpr hq
    by_contra hcount
    exact honce ⟨q, hne, by rw [hvisits]; omega⟩
  · rintro ⟨q, hne, htwo⟩
    rw [hvisits] at htwo
    obtain ⟨f, hf, hlt⟩ := hup₂ ⟨q, List.count_pos_iff.mp (by omega), by rw [hseen₁]; exact hne, .inr htwo⟩
    obtain ⟨hf', hle⟩ := hadv₃.held f hf
    exact ⟨f, hf', hlt.trans_le hle⟩

end Mach

end Os506
