import Os506.Memory.Loading

namespace Os506

open Pging CopyOnWrite

namespace Mach

variable {m : Mach} {i p va n : ℕ} {v : Vma}

theorem getFreePage_room (h : m.pmap.Room (n + 1)) : ∃ g m', m.getFreePage = some (g, m') ∧ m'.pmap.Room n := by
  obtain ⟨g, s, hs, hr⟩ := PMap.getFreePage_room h
  exact ⟨g, _, by rw [getFreePage, hs], hr⟩

theorem needTable_room {flags : BitVec 64} {l : Level} (h : m.pmap.Room (n + 1)) :
    ∃ m', m.needTable i p flags l = some m' ∧ m'.pmap.Room n := by
  rw [needTable]
  split
  · exact ⟨m, rfl, h.mono (Nat.le_succ n)⟩
  · obtain ⟨g, m₁, hg, hr⟩ := getFreePage_room h
    exact ⟨(m₁.zeroPage g).modifyTables i fun t => t.grow l p (g ||| flags), by rw [hg]; rfl, hr⟩

theorem mapPage_room {paddr flags : BitVec 64} (h : m.pmap.Room (n + 3)) :
    ∃ m', m.mapPage i paddr p flags = some m' ∧ m'.pmap.Room n := by
  obtain ⟨m₁, hm₁, hr₁⟩ := needTable_room (i := i) (p := p) (l := .pmle) (n := n + 2) h
  obtain ⟨m₂, hm₂, hr₂⟩ := needTable_room (i := i) (p := p) (l := .pdpe) (n := n + 1) hr₁
  obtain ⟨m₃, hm₃, hr₃⟩ := needTable_room (i := i) (p := p) (l := .pde) hr₂
  refine ⟨_, by rw [mapPage, hm₁, Option.bind_some, hm₂, Option.bind_some, hm₃, Option.map_some], ?_⟩
  split
  · exact PMap.releasePage_room hr₃ paddr
  · exact hr₃

theorem mapPages_room {l : List ℕ} {flags : BitVec 64} (h : m.pmap.Room (4 * l.length + n)) :
    ∃ m', m.mapPages i flags l = some m' ∧ m'.pmap.Room n := by
  induction l generalizing m with
  | nil => exact ⟨m, rfl, h.mono (Nat.le_add_left n _)⟩
  | cons p l ih =>
    have hlen : 4 * (p :: l).length + n = 4 * l.length + n + 3 + 1 := by rw [List.length_cons]; omega
    rw [hlen] at h
    obtain ⟨g, m₁, hg, hr₁⟩ := getFreePage_room h
    obtain ⟨m₂, hm₂, hr₂⟩ : ∃ m₂, (m₁.zeroPage g).mapPage i g p flags = some m₂ ∧ m₂.pmap.Room (4 * l.length + n) :=
      mapPage_room hr₁
    obtain ⟨m₃, hm₃, hr₃⟩ := ih hr₂
    exact ⟨m₃, by simp only [mapPages, mapZero, hg, Option.bind_some, hm₂, hm₃], hr₃⟩

theorem kmmapPages_eq {s n : ℕ} (hn : n < 2 ^ 31) :
    (kmmapPages s (Int.bmod n (2 ^ 32))).toNat = (s + n + 4095) / 4096 - s / 4096 := by
  have hz := bmod_word n
  rw [kmmapPages_word]
  omega

theorem kmmap_eq {flags : BitVec 64} (hle : v.start ≤ v.stop) (hsize : v.stop - v.start < 2 ^ 31) :
    m.kmmap i v.start (v.stop - v.start) flags = m.mapPages i flags v.pages := by
  rw [kmmap, kmmapPages_eq hsize, Nat.add_sub_cancel' hle, Vma.pages]

theorem faultCode_iff {slack : ℕ → ℕ} (h : Sound slack m) :
    m.faultCode i va = true ↔ m.seen i (va / 4096) ≠ none := by
  rw [faultCode, Bool.and_eq_true, decide_eq_true_eq, isPresent_iff_seen]
  refine ⟨fun hx => hx.2, fun hx => ⟨?_, hx⟩⟩
  rw [(h.rooted i).reached_iff]
  intro hz
  exact hx (seen_eq_none.mpr (h.map_eq_none.mpr ((h.rooted i).pte _ hz)))

/-- The handler can serve an address: its VMA is shorter than 2 GiB, and there are frames for all its pages. -/
structure Served (m : Mach) (i va : ℕ) (v : Vma) : Prop where
  vma : ((m.mm i).vm.find? fun v => v.has va) = some v
  size : v.stop - v.start < 2 ^ 31
  room : m.pmap.Room (4 * v.pages.length)

theorem Served.range (h : Served m i va v) : v.start ≤ va ∧ va < v.stop := by
  simpa [Vma.has] using List.find?_some h.vma

theorem Served.mem (h : Served m i va v) : va / 4096 ∈ v.pages := by
  have := h.range
  rw [Vma.mem_pages]
  omega

theorem Inv.stop_le (h : Inv m) (hi : i < m.count) (hv : v ∈ (m.mm i).vm) : v.stop ≤ 2 ^ 47 := by
  obtain ⟨front, hlay⟩ := h.laid i hi
  rw [hlay.vm, List.mem_append, List.mem_singleton] at hv
  rcases hv with hv | rfl
  · exact (hlay.user v hv).2
  · decide

theorem Served.demand (hs : Served m i va v) (h : Inv m) (hi : i < m.count) (hz : m.seen i (va / 4096) = none) :
    ∃ m', m.handlePgFault i va (m.faultCode i va) = some m' ∧ Inv m' ∧ m'.writable i va = true := by
  have hv := List.mem_of_find?_eq_some hs.vma
  obtain ⟨hlo, hhi⟩ := hs.range
  have hstop := h.stop_le hi hv
  have hcode : m.faultCode i va = false := by
    rw [← Bool.not_eq_true, faultCode_iff h.sound]; exact not_not.mpr hz
  obtain ⟨m', hm', _⟩ : ∃ m', m.kmmap i v.start (v.stop - v.start) rwUser = some m' ∧ m'.pmap.Room 0 := by
    rw [kmmap_eq (by omega) hs.size]
    exact mapPages_room hs.room
  have hhandled : m.handlePgFault i va (m.faultCode i va) = some m' := by
    have hkern : ¬ kernBase ≤ va := by simp only [kernBase]; omega
    rw [handlePgFault, if_neg hkern, hcode, if_neg (by decide), hs.vma]
    exact hm'
  obtain ⟨hinv, _, _, hopen, _, hall⟩ := h.kmmap hi hv (by omega) hm'
  refine ⟨m', hhandled, hinv, hinv.sound.writable_iff.mpr ?_⟩
  have hthere := mt seen_eq_none.mpr (hall hs.size _ hs.mem)
  exact (hopen i (va / 4096)).resolve_left fun he => hthere (he.trans (seen_eq_none.mp hz))

theorem Served.unshare (hs : Served m i va v) (h : Inv m) (hi : i < m.count) (hne : m.seen i (va / 4096) ≠ none)
    (hw : m.writable i va ≠ true) :
    ∃ m', m.handlePgFault i va (m.faultCode i va) = some m' ∧ m'.writable i va = true := by
  obtain ⟨⟨f, b⟩, hmap⟩ := Option.ne_none_iff_exists'.mp (mt seen_eq_none.mpr hne)
  obtain ⟨hknown, hpte⟩ := h.sound.map_eq_some hmap
  have hphys := h.sound.ok.physical f hknown
  obtain rfl : b = false := by
    cases b with
    | false => rfl
    | true => exact absurd (h.sound.writable_iff.mpr ⟨f, hmap⟩) hw
  have hkern : ¬ kernBase ≤ va := by
    have := h.stop_le hi (List.mem_of_find?_eq_some hs.vma)
    have := hs.range
    simp only [kernBase]
    omega
  have hpos : 0 < v.pages.length := List.length_pos_of_mem hs.mem
  obtain ⟨g, m₁, hg, _⟩ := getFreePage_room (n := 0) (hs.room.mono (by omega))
  have hsome : (m.breakShare i (va / 4096)).isSome = true := by
    rw [breakShare]
    dsimp only
    rw [hpte, isCow_entryOf hphys, isRW_entryOf hphys, if_pos (by decide), hg]
    rfl
  obtain ⟨m', hm'⟩ := Option.isSome_iff_exists.mp hsome
  refine ⟨m', ?_, ?_⟩
  · rw [handlePgFault, if_neg hkern, (faultCode_iff h.sound).mpr hne, if_pos rfl, hm']
  · obtain ⟨hs', _, _, _, hmap', _⟩ := breakShare_spec h.sound hm'
    exact hs'.writable_iff.mpr hmap'

end Mach

end Os506
