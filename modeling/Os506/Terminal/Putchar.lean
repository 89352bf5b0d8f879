import Os506.Terminal.Buffer

namespace Os506

namespace Terminal

def typed (a : UInt8) : List UInt8 := if a = tab then List.replicate 4 0x20 else [a]

/-- No unread byte is overwritten, and the bytes of the key are behind the queue or the call has failed. -/
def Appends (a : UInt8) (t : Terminal) : Prop :=
  let t' := (t.termPutchar a).2
  (∀ k < t.queue.length, t'.buf ((t.start + k) % termbufSize) = t.buf ((t.start + k) % termbufSize)) ∧
    (t'.queue = t.queue ++ typed a ∧ (t'.full = true ↔ t'.queue.length = termbufSize) ∨ t.termPutchar a = (-1, t))

variable {t : Terminal} {a : UInt8}

theorem Appends.of_ring {t' : Terminal} {ret : ℤ} (hput : t.termPutchar a = (ret, t')) (hok : t'.toRing.Ok termbufSize)
    (hs : t'.start = t.start) (hq : t'.queue = t.queue ++ typed a) : Appends a t := by
  rw [Appends, hput]
  refine ⟨fun k hk => Ring.buf_eq_of_append hs hq (by rwa [queue, Ring.length_toList] at hk), .inl ⟨hq, ?_⟩⟩
  rw [queue, Ring.length_toList]
  exact Ring.full_iff hok

theorem Appends.of_fails (hput : t.termPutchar a = (-1, t)) : Appends a t := by
  rw [Appends, hput]
  exact ⟨fun _ _ => rfl, .inr rfl⟩

theorem not_appends {t' : Terminal} (hput : t.termPutchar a = (0, t'))
    (hlen : t'.queue.length ≠ t.queue.length + (typed a).length) : ¬ Appends a t := by
  rintro ⟨_, h⟩
  rw [hput] at h
  rcases h with ⟨hq, _⟩ | h
  · rw [hq, List.length_append] at hlen
    exact hlen rfl
  · cases congrArg Prod.fst h

theorem termPutchar_tab (hf : t.full = false) :
    ∃ t', t.termPutchar tab = (0, t') ∧
      t'.toRing = (List.replicate 4 0x20).foldl (fun r a => r.push termbufSize a) t.toRing := by
  rw [termPutchar, if_neg (by decide), if_neg (by simp [hf]), if_pos rfl]
  refine ⟨_, rfl, ?_⟩
  simp only [toRing_termPush]
  rfl

theorem appends_tab_iff (hs : t.start < termbufSize) (ht : t.stop < termbufSize) :
    Appends tab t ↔ t.queue.length ≤ 252 ∨ t.queue.length = 256 := by
  have hqueue : ∀ t : Terminal, t.queue.length = t.toRing.length termbufSize := fun t => Ring.length_toList
  cases hf : t.full with
  | true =>
    have hlen : t.queue.length = 256 := by
      rw [hqueue, Ring.length, hf]
      rfl
    have hput : t.termPutchar tab = (-1, t) := by
      rw [termPutchar, if_neg (by decide), if_pos (by simp [hf])]
    exact iff_of_true (.of_fails hput) (.inr hlen)
  | false =>
    have hok : t.toRing.Ok termbufSize := ⟨hs, ht, by simp [hf]⟩
    have hne : t.queue.length ≠ 256 := by
      rw [hqueue]
      exact mt (Ring.full_iff hok).mpr (by simp [hf])
    obtain ⟨t', hput, hring⟩ := termPutchar_tab hf
    constructor
    · intro h
      by_contra hmany
      have hstop : t'.stop < termbufSize := by
        rw [hring]
        exact Nat.mod_lt _ (by decide)
      have hstart : t'.start < termbufSize := by
        rw [hring, Ring.start_foldl_push]
        exact hs
      have hle : t'.queue.length ≤ 256 := by
        rw [hqueue]
        exact Ring.length_le_of_lt hstart hstop
      refine not_appends hput ?_ h
      change _ ≠ _ + 4
      omega
    · intro h
      have hroom : t.toRing.length termbufSize + (List.replicate 4 (0x20 : UInt8)).length ≤ termbufSize := by
        rw [← hqueue, List.length_replicate]
        change _ ≤ 256
        omega
      obtain ⟨hok', hlist⟩ := hok.foldl_push hroom
      rw [← hring] at hok' hlist
      exact .of_ring hput hok' (by rw [hring, Ring.start_foldl_push]) hlist

theorem appends_ordinary (hs : t.start < termbufSize) (ht : t.stop < termbufSize) (hb : a ≠ backspaceKey)
    (hne : a ≠ tab) : Appends a t := by
  cases hf : t.full with
  | true =>
    apply Appends.of_fails
    rw [termPutchar, if_neg hb, if_pos (by simp [hf])]
  | false =>
    have hput : t.termPutchar a = (0, { t with backspace := t.backspace + 1 }.termPush a) := by
      rw [termPutchar, if_neg hb, if_neg (by simp [hf]), if_neg hne]
    have hok : t.toRing.Ok termbufSize := ⟨hs, ht, by simp [hf]⟩
    refine .of_ring hput ?_ ?_ ?_
    · rw [toRing_termPush]
      exact hok.push hf a
    · rw [toRing_termPush]
      rfl
    · rw [queue, toRing_termPush, typed, if_neg hne]
      exact Ring.toList_push hok hf a

theorem appends_backspace_iff (hs : t.start < termbufSize) (ht : t.stop < termbufSize) :
    Appends backspaceKey t ↔ t.backspace ≤ 0 := by
  constructor
  · intro h
    by_contra hpos
    obtain ⟨t', hput, hring⟩ : ∃ t', t.termPutchar backspaceKey = (0, t') ∧
        t'.toRing = t.toRing.unpush termbufSize := by
      rw [termPutchar, if_pos rfl, if_neg hpos]
      refine ⟨_, rfl, ?_⟩
      split <;> rfl
    refine not_appends hput ?_ h
    rw [queue, queue, Ring.length_toList, Ring.length_toList, hring]
    exact Ring.length_unpush_ne (by decide) hs ht
  · intro h
    apply Appends.of_fails
    rw [termPutchar, if_pos rfl, if_pos h]

/-- From every state of the buffer: a tab needs four free places or none, and the erase key takes nothing only where
there is nothing to take. -/
theorem appends_iff (hs : t.start < termbufSize) (ht : t.stop < termbufSize) :
    Appends a t ↔ (a = tab → t.queue.length ≤ 252 ∨ t.queue.length = 256) ∧ (a = backspaceKey → t.backspace ≤ 0) := by
  by_cases htab : a = tab
  · subst htab
    rw [appends_tab_iff hs ht]
    exact ⟨fun h => ⟨fun _ => h, fun hb => absurd hb (by decide)⟩, fun h => h.1 rfl⟩
  · by_cases hb : a = backspaceKey
    · subst hb
      rw [appends_backspace_iff hs ht]
      exact ⟨fun h => ⟨fun hb => absurd hb htab, fun _ => h⟩, fun h => h.2 rfl⟩
    · exact iff_of_true (appends_ordinary hs ht hb htab) ⟨fun h => absurd h htab, fun h => absurd h hb⟩

def crowded : Terminal :=
  { start := 0, stop := 255, full := false, buf := fun _ => 0x61, count := 0, backspace := 255 }

theorem appends_fails_on_tab : (crowded.termPutchar tab).1 = 0 ∧ (crowded.termPutchar tab).2.stop = 3 ∧
    (crowded.termPutchar tab).2.full = true ∧
    (∀ k < 3, crowded.buf k = 0x61 ∧ (crowded.termPutchar tab).2.buf k = 0x20) ∧ ¬ Appends tab crowded := by
  refine ⟨by decide +kernel, by decide +kernel, by decide +kernel, by decide +kernel, fun h => ?_⟩
  exact absurd (h.1 0 (by decide +kernel)) (by decide +kernel)

theorem appends_room : Appends tab init :=
  (appends_iff (by decide) (by decide)).mpr ⟨fun _ => .inl (by decide), fun _ => by decide⟩

end Terminal

end Os506
