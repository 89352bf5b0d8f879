import Os506.Memory.Accesses

namespace Os506

open Pging CopyOnWrite

namespace Mach

variable {m m' : Mach} {i j addr : ℕ} {front : List Vma}

theorem growHeap_stack (addr : ℕ) (l : List Vma) : growHeap addr (l ++ [stackVma]) = growHeap addr l ++ [stackVma] := by
  induction l with
  | nil => rfl
  | cons v l ih =>
    rw [List.cons_append, growHeap, growHeap]
    split
    · rfl
    · rw [ih]; rfl

theorem growHeap_mem {l : List Vma} {w : Vma} (h : w ∈ growHeap addr l) :
    ∃ v ∈ l, w.type = v.type ∧ (w.stop = v.stop ∨ w.stop = (addr + 4095) / 4096 * 4096) := by
  induction l with
  | nil => cases h
  | cons v l ih =>
    rw [growHeap] at h
    split at h
    · rcases List.mem_cons.mp h with rfl | h
      · refine ⟨v, by simp, ?_⟩
        split
        · exact ⟨rfl, .inr rfl⟩
        · exact ⟨rfl, .inl rfl⟩
      · exact ⟨w, by simp [h], rfl, .inl rfl⟩
    · rcases List.mem_cons.mp h with rfl | h
      · exact ⟨w, by simp, rfl, .inl rfl⟩
      · obtain ⟨v', hv', hw⟩ := ih h
        exact ⟨v', by simp [hv'], hw⟩

theorem growHeap_pages (addr : ℕ) {l : List Vma} {v : Vma} (h : v ∈ l) : ∃ w ∈ growHeap addr l, ∀ q ∈ v.pages, q ∈ w.pages := by
  induction l with
  | nil => cases h
  | cons u l ih =>
    rw [growHeap]
    split
    · rcases List.mem_cons.mp h with rfl | h
      · refine ⟨_, List.mem_cons_self, fun q hq => ?_⟩
        split
        · rw [Vma.mem_pages] at hq ⊢
          dsimp only
          omega
        · exact hq
      · exact ⟨v, by simp [h], fun _ hq => hq⟩
    · rcases List.mem_cons.mp h with rfl | h
      · exact ⟨v, by simp, fun _ hq => hq⟩
      · obtain ⟨w, hw, hpages⟩ := ih h
        exact ⟨w, by simp [hw], hpages⟩

theorem Lays.growHeap (h : Lays m i front) (haddr : addr < userStackTop - userStackSize)
    (hv : (m'.mm i).vm = Mach.growHeap addr (m.mm i).vm) (hs : m'.seen i = m.seen i) :
    Lays m' i (Mach.growHeap addr front) := by
  have hout : ∀ p, (∀ w ∈ Mach.growHeap addr front, p ∉ w.pages) → ∀ v ∈ front, p ∉ v.pages := fun p hp v hv hq => by
    obtain ⟨w, hw, hpages⟩ := growHeap_pages addr hv
    exact hp w hw (hpages p hq)
  constructor
  · rw [hv, h.vm, growHeap_stack]
  · intro w hw
    obtain ⟨v, hv, hty, hstop⟩ := growHeap_mem hw
    obtain ⟨hns, hle⟩ := h.user v hv
    refine ⟨hty ▸ hns, ?_⟩
    simp only [userStackTop, userStackSize] at haddr
    rcases hstop with he | he <;> omega
  · intro p hp
    rw [hs] at hp
    rcases h.covered p hp with ⟨v, hv, hq⟩ | hq
    · obtain ⟨w, hw, hpages⟩ := growHeap_pages addr hv
      exact .inl ⟨w, hw, hpages p hq⟩
    · exact .inr hq
  · rw [hs]
    exact fun p hp hne hf => h.stack p hp hne (hout p hf)

theorem Sound.setMm {slack : ℕ → ℕ} {u : Mm → Mm} (h : Sound slack m) (hu : ∀ k, (u k).tables = k.tables) :
    Sound slack (m.setMm i u) ∧ (m.setMm i u).cow = m.cow := by
  have htab : (m.setMm i u).tables = m.tables := by
    funext k
    by_cases hk : k = i
    · subst hk; simp [tables, Mach.setMm, hu]
    · simp [tables, Mach.setMm, hk]
  refine ⟨?_, by rw [cow, cow, htab]; rfl⟩
  exact h.recount (f := 0) htab rfl (h.ok.same rfl) (h.leaves 0) (fun k q b => h.limit k q 0 b) fun _ => le_rfl

theorem sysBrk_spec (h : Inv m) (i addr : ℕ) : Inv (m.sysBrk i addr) ∧ (m.sysBrk i addr).count = m.count ∧
    (m.sysBrk i addr).cow = m.cow ∧ (m.sysBrk i addr).pmap = m.pmap := by
  rw [sysBrk]
  split
  · exact ⟨h, rfl, rfl, rfl⟩
  · obtain ⟨m', hm'⟩ : ∃ m', m' = m.setMm i fun k =>
      { k with brk := addr, vm := if addr < userStackTop - userStackSize then growHeap addr k.vm else k.vm } := ⟨_, rfl⟩
    rw [← hm']
    obtain ⟨hs, hcow⟩ : Sound (fun _ => 0) m' ∧ m'.cow = m.cow := hm' ▸ h.sound.setMm fun _ => rfl
    have hseen : m'.seen = m.seen := by rw [seen, hcow]
    have hcount : m'.count = m.count := by rw [hm']; rfl
    refine ⟨⟨hs, fun k hk q => ?_, fun k hk => ?_⟩, hcount, hcow, by rw [hm']; rfl⟩
    · rw [hseen]; exact h.blank k (hcount ▸ hk) q
    · obtain ⟨front, hlay⟩ := h.laid k (hcount ▸ hk)
      by_cases hki : k = i
      · subst hki
        by_cases haddr : addr < userStackTop - userStackSize
        · have hvm : (m'.mm k).vm = growHeap addr (m.mm k).vm := by rw [hm']; simp [setMm, haddr]
          exact ⟨_, hlay.growHeap haddr hvm (by rw [hseen])⟩
        · have hvm : (m'.mm k).vm = (m.mm k).vm := by rw [hm']; simp [setMm, haddr]
          exact ⟨front, hlay.congr hvm fun q => by rw [hseen]⟩
      · have hvm : (m'.mm k).vm = (m.mm k).vm := by rw [hm']; simp [setMm, hki]
        exact ⟨front, hlay.congr hvm fun q => by rw [hseen]⟩

def image (g : Segment) (t : ℕ → UInt8) : ℕ → UInt8 :=
  poke (g.vaddr + g.bytes.length) (List.replicate (g.memsz - g.bytes.length) 0) (poke g.vaddr g.bytes t)

def loadImage (segments : List Segment) (args : List UInt8) : ℕ → UInt8 :=
  poke (userStackTop - 8 - args.length) args (segments.foldl (fun t g => image g t) fun _ => 0)

theorem loadSegment_spec {g : Segment} (h : Inv m) (hj : j < m.count)
    (hv : ⟨g.vaddr, g.vaddr + g.memsz, .data⟩ ∈ (m.mm j).vm) (hm : m.loadSegment j g = some m') :
    Inv m' ∧ Alike m m' ∧ Settled m m' ∧ m'.view = Function.update m.view j (image g (m.view j)) := by
  obtain ⟨m₁, hm₁, hm⟩ := Option.bind_eq_some_iff.mp hm
  obtain ⟨m₂, hm₂, hm⟩ := Option.bind_eq_some_iff.mp hm
  have hsize : g.vaddr + g.memsz - g.vaddr = g.memsz := Nat.add_sub_cancel_left _ _
  obtain ⟨hinv₁, ha₁, hset₁, _, hview₁, _⟩ := h.kmmap hj hv (Nat.le_add_right _ _) (by simp only [hsize]; exact hm₁)
  obtain ⟨hinv₂, ha₂, hset₂, hview₂⟩ := storeBytes_spec hinv₁ hm₂
  obtain ⟨hinv₃, ha₃, hset₃, hview₃⟩ := storeBytes_spec hinv₂ hm
  refine ⟨hinv₃, (ha₁.trans ha₂).trans ha₃, (hset₁.trans hset₂).trans hset₃, ?_⟩
  rw [hview₃, hview₂, hview₁, Function.update_self, Function.update_idem, image]

theorem loadSegments_spec {l : List Segment} (h : Inv m) (hj : j < m.count)
    (hv : ∀ g ∈ l, ⟨g.vaddr, g.vaddr + g.memsz, .data⟩ ∈ (m.mm j).vm) (hm : m.loadSegments j l = some m') :
    Inv m' ∧ Alike m m' ∧ Settled m m' ∧
      m'.view = Function.update m.view j (l.foldl (fun t g => image g t) (m.view j)) := by
  induction l generalizing m with
  | nil =>
    obtain rfl := Option.some.inj hm
    exact ⟨h, .refl m, .refl m, by rw [List.foldl_nil, Function.update_eq_self]⟩
  | cons g l ih =>
    obtain ⟨m₁, hm₁, hm⟩ := Option.bind_eq_some_iff.mp hm
    obtain ⟨hinv₁, ha₁, hset₁, hview₁⟩ := loadSegment_spec h hj (hv g (by simp)) hm₁
    obtain ⟨hinv₂, ha₂, hset₂, hview₂⟩ := ih hinv₁ (ha₁.count.symm ▸ hj)
      (fun g' hg' => by rw [ha₁.vm]; exact hv g' (by simp [hg'])) hm
    refine ⟨hinv₂, ha₁.trans ha₂, hset₁.trans hset₂, ?_⟩
    rw [hview₂, hview₁, Function.update_self, Function.update_idem, List.foldl_cons]

def loadFront (segments : List Segment) : List Vma :=
  segments.map (fun g => ⟨g.vaddr, g.vaddr + g.memsz, .data⟩) ++ [⟨loadBrk segments, loadBrk segments, .heap⟩]

theorem loadVmas_eq (segments : List Segment) : loadVmas segments = loadFront segments ++ [stackVma] := by
  rw [loadFront, List.append_assoc]
  rfl

theorem loadTop_le_iff (l : List Segment) (t : ℕ) {n : ℕ} :
    l.foldl (fun top g => max top (g.vaddr + g.memsz)) t ≤ n ↔ t ≤ n ∧ ∀ g ∈ l, g.vaddr + g.memsz ≤ n := by
  induction l generalizing t with
  | nil => simp
  | cons g l ih => rw [List.foldl_cons, ih, max_le_iff, and_assoc, List.forall_mem_cons]

theorem loadFront_user {segments : List Segment} {v : Vma} (h : v ∈ loadFront segments) :
    v.type ≠ .stack ∧ v.stop ≤ 2 ^ 47 := by
  rcases List.mem_append.mp h with h | h
  · obtain ⟨g, _, rfl⟩ := List.mem_map.mp h
    exact ⟨by simp, g.user⟩
  · obtain rfl := List.mem_singleton.mp h
    have := (loadTop_le_iff segments 0).mpr ⟨Nat.zero_le (2 ^ 47), fun g _ => g.user⟩
    refine ⟨by simp, ?_⟩
    simp only [loadBrk]
    omega

theorem Inv.kmmap_top (h : Inv m) (hj : j < m.count) (hm : m.kmmap j (userStackTop - 4096) 4096 rwUser = some m') :
    Inv m' ∧ Alike m m' ∧ Settled m m' ∧ m'.view = m.view := by
  obtain ⟨hadv, hset, _, hseen⟩ := mapPages_spec h.sound hm
  have hsub := fun q hq => kmmapPages_sub (s := userStackTop - 4096) (n := 4096) (q := q) hq
  have hpage : ∀ q, (userStackTop - 4096) / 4096 ≤ q ∧ q * 4096 < userStackTop - 4096 + 4096 → q = 0xEFFFFFF := fun q hq => by
    simp only [userStackTop] at hq
    omega
  obtain ⟨hinv, hview⟩ := h.widen hj hadv.sound hadv.alike hseen (.inr fun q hq => by
    have hq' := hpage q (hsub q hq)
    refine ⟨by rw [hq', Vma.mem_stackPages]; omega, fun r hr hle => ?_⟩
    rw [Vma.mem_stackPages] at hr
    obtain rfl : r = q := by omega
    exact hq)
  exact ⟨hinv, hadv.alike, hset, hview⟩

theorem newMm_load {segments : List Segment} {frames : ℕ} (h : Inv m)
    (hm : m.newMm (loadVmas segments) (loadBrk segments) frames = some m') :
    Inv m' ∧ m'.seen = m.seen ∧ Settled m m' ∧ m'.count = m.count + 1 ∧ (m'.mm m.count).vm = loadVmas segments := by
  have hslack : ∀ q : ℕ, (fun _ => 0 : ℕ → ℕ) q ≤ (loadVmas segments).length := fun _ => Nat.zero_le _
  obtain ⟨hs, hseen, hset, _, hcount, hvm⟩ := newMm_spec h.sound (h.blank _ le_rfl) hm hslack
  have hnew : ∀ q, m'.seen m.count q = none := fun q => by rw [hseen]; exact h.blank _ le_rfl q
  refine ⟨⟨hs, fun k hk q => ?_, fun k hk => ?_⟩, hseen, hset, hcount, by rw [hvm, if_pos rfl]⟩
  · rw [hseen]; exact h.blank k (by omega) q
  · by_cases hkj : k = m.count
    · subst hkj
      refine ⟨loadFront segments, ?_, fun v hv => loadFront_user hv, fun q hq => absurd (hnew q) hq,
        fun q _ hq => absurd (hnew q) hq⟩
      rw [hvm, if_pos rfl, loadVmas_eq]
    · obtain ⟨front, hlay⟩ := h.laid k (by omega)
      exact ⟨front, hlay.congr (by rw [hvm, if_neg hkj]) fun q => by rw [hseen]⟩

theorem newMm_vma {segments : List Segment} {frames : ℕ} (h : Inv m)
    (hm : m.newMm (loadVmas segments) (loadBrk segments) frames = some m') :
    m.count < m'.count ∧ ∀ g ∈ segments, ⟨g.vaddr, g.vaddr + g.memsz, .data⟩ ∈ (m'.mm m.count).vm := by
  obtain ⟨_, _, _, hcount, hvm⟩ := newMm_load h hm
  refine ⟨by omega, fun g hg => ?_⟩
  rw [hvm, loadVmas]
  exact List.mem_append_left _ (List.mem_map.mpr ⟨g, hg, rfl⟩)

theorem loadElf_stages {segments : List Segment} {args : List UInt8} {frames : ℕ}
    (hm : m.loadElf segments args frames = some m') : ∃ m₁ m₂ m₃,
      m.newMm (loadVmas segments) (loadBrk segments) frames = some m₁ ∧ m₁.loadSegments m.count segments = some m₂ ∧
      m₂.kmmap m.count (userStackTop - 4096) 4096 rwUser = some m₃ ∧
      m₃.storeBytes m.count (userStackTop - 8 - args.length) args = some m' := by
  rw [loadElf] at hm
  split at hm
  · cases hm
  · obtain ⟨m₁, hm₁, hm⟩ := Option.bind_eq_some_iff.mp hm
    obtain ⟨m₂, hm₂, hm⟩ := Option.bind_eq_some_iff.mp hm
    obtain ⟨m₃, hm₃, hm⟩ := Option.bind_eq_some_iff.mp hm
    exact ⟨m₁, m₂, m₃, hm₁, hm₂, hm₃, hm⟩

theorem loadElf_spec {segments : List Segment} {args : List UInt8} {frames : ℕ} (h : Inv m)
    (hm : m.loadElf segments args frames = some m') :
    Inv m' ∧ m'.count = m.count + 1 ∧ Settled m m' ∧
      m'.view = Function.update m.view m.count (loadImage segments args) := by
  obtain ⟨m₁, m₂, m₃, hm₁, hm₂, hm₃, hm⟩ := loadElf_stages hm
  obtain ⟨hinv₁, hseen₁, hset₁, hcount₁, _⟩ := newMm_load h hm₁
  obtain ⟨hj, hsegs⟩ := newMm_vma h hm₁
  obtain ⟨hinv₂, ha₂, hset₂, hview₂⟩ := loadSegments_spec hinv₁ hj hsegs hm₂
  obtain ⟨hinv₃, ha₃, hset₃, hview₃⟩ := hinv₂.kmmap_top (ha₂.count.symm ▸ hj) hm₃
  obtain ⟨hinv₄, ha₄, hset₄, hview₄⟩ := storeBytes_spec hinv₃ hm
  have hzero : m₁.view m.count = fun _ => 0 := by
    funext x
    rw [view, hseen₁, h.blank _ le_rfl]
    rfl
  refine ⟨hinv₄, ?_, ((hset₁.trans hset₂).trans hset₃).trans hset₄, ?_⟩
  · rw [ha₄.count, ha₃.count, ha₂.count, hcount₁]
  · rw [hview₄, hview₃, hview₂, Function.update_self, Function.update_idem, hzero, view_congr hseen₁, loadImage]

end Mach

end Os506
