import Os506.Lib.Ring

namespace Os506

def termbufSize : ℕ := 256

/-- The `term_buf` of the one terminal. The echo to the screen is left out. -/
structure Terminal extends Ring UInt8 where
  count : BitVec 8
  backspace : ℤ

namespace Terminal

def eot : UInt8 := 4

def backspaceKey : UInt8 := 8

def tab : UInt8 := 9

def newline : UInt8 := 10

def isDelim (c : UInt8) : Bool := c == eot || c == newline

def init : Terminal := { start := 0, stop := 0, full := false, buf := fun _ => 0, count := 0, backspace := 0 }

/-- A `char` is signed, so a byte from 128 on comes back negative. -/
def termPop (t : Terminal) : ℤ × Terminal :=
  if t.start = t.stop ∧ t.full = false then (-1, t)
  else
    let c := t.buf t.start
    let t := { t with start := (t.start + 1) % termbufSize, full := false }
    (c.toBitVec.toInt, if isDelim c then { t with count := t.count - 1 } else t)

/-- The loop of `term_read`, with the number of rounds that `count <= size` leaves. -/
def readLoop : ℕ → Terminal → List UInt8 × Terminal
  | 0, t => ([], t)
  | n + 1, t =>
    let (c, t) := t.termPop
    if c < 0 then ([], t)
    else
      let b := UInt8.ofNat c.toNat
      if isDelim b then ([b], t)
      else
        let (l, t) := readLoop n t
        (b :: l, t)

def termRead (size : ℕ) (t : Terminal) : ℤ × List UInt8 × Terminal :=
  if size = 0 then (0, [], t)
  else if t.count = 0 then (-1, [], t)
  else
    let (l, t) := t.readLoop (size + 1)
    (l.length, l, t)

def termPush (a : UInt8) (t : Terminal) : Terminal :=
  let t := { t with buf := Function.update t.buf t.stop a, stop := (t.stop + 1) % termbufSize }
  let t := if t.start = t.stop then { t with full := true } else t
  if isDelim a then { t with count := t.count + 1, backspace := 0 } else t

def termPoplast (t : Terminal) : Terminal :=
  { t with stop := (t.stop + (termbufSize - 1)) % termbufSize, full := false }

def termPutchar (a : UInt8) (t : Terminal) : ℤ × Terminal :=
  if a = backspaceKey then
    if t.backspace ≤ 0 then (-1, t)
    else
      let t := t.termPoplast
      (0, if 0 < t.backspace then { t with backspace := t.backspace - 1 } else { t with backspace := 0 })
  else if t.full then (-1, t)
  else if a = tab then
    let t := (((t.termPush 0x20).termPush 0x20).termPush 0x20).termPush 0x20
    (0, { t with backspace := t.backspace + 4 })
  else (0, { t with backspace := t.backspace + 1 }.termPush a)

def queue (t : Terminal) : List UInt8 := t.toRing.toList termbufSize

def pending (l : List UInt8) : ℤ := l.foldl (fun n c => if isDelim c then 0 else n + 1) 0

structure Inv (t : Terminal) : Prop where
  ring : t.toRing.Ok termbufSize
  count : t.count = BitVec.ofNat 8 (t.queue.countP isDelim)
  backspace : t.backspace = pending t.queue
  ascii : ∀ c ∈ t.queue, c < 128

variable {t : Terminal} {l : List UInt8} {a c : UInt8} {n : ℕ}

theorem pending_append : pending (l ++ [a]) = if isDelim a then 0 else pending l + 1 := by
  rw [pending, List.foldl_append]
  rfl

theorem pending_nonneg (l : List UInt8) : 0 ≤ pending l := by
  induction l using List.reverseRecOn with
  | nil => exact Int.le_refl 0
  | append_singleton l a ih =>
    rw [pending_append]
    split <;> omega

theorem pending_pos : 0 < pending l ↔ ∃ l' a, l = l' ++ [a] ∧ isDelim a = false := by
  cases l using List.reverseRecOn with
  | nil => simp [pending]
  | append_singleton l a =>
    have := pending_nonneg l
    rw [pending_append]
    cases ha : isDelim a with
    | true => simp [ha]
    | false => simp [ha]; omega

theorem pending_cons (h : l.any isDelim = true ∨ isDelim a = true) : pending (a :: l) = pending l := by
  have hinit : ∀ (l : List UInt8) (x y : ℤ), l.any isDelim = true →
      l.foldl (fun n c => if isDelim c then 0 else n + 1) x = l.foldl (fun n c => if isDelim c then 0 else n + 1) y := by
    intro l
    induction l with
    | nil => simp
    | cons b l ih =>
      intro x y hl
      cases hb : isDelim b with
      | true => simp [hb]
      | false =>
        simp only [List.foldl_cons, hb]
        apply ih
        simpa [hb] using hl
  rcases h with h | h
  · exact hinit l _ _ h
  · simp [pending, h]

theorem toRing_termPush : (t.termPush a).toRing = t.toRing.push termbufSize a := by
  simp only [termPush, Ring.push]
  split <;> split <;> simp_all

theorem termPush_count : (t.termPush a).count = t.count + if isDelim a then 1 else 0 := by
  simp only [termPush]
  split <;> split <;> simp_all

theorem termPush_backspace : (t.termPush a).backspace = if isDelim a then 0 else t.backspace := by
  simp only [termPush]
  split <;> split <;> simp_all

theorem queue_nil_iff (h : t.Inv) : t.queue = [] ↔ t.start = t.stop ∧ t.full = false := by
  have he := Ring.isEmpty_iff h.ring
  rw [Ring.isEmpty, Bool.and_eq_true, decide_eq_true_eq, Bool.not_eq_true'] at he
  rw [he, ← Ring.length_toList, List.length_eq_zero_iff]
  rfl

theorem queue_length_le (h : t.Inv) : t.queue.length ≤ termbufSize := by
  rw [queue, Ring.length_toList]
  exact Ring.length_le h.ring

theorem full_iff (h : t.Inv) : t.full = true ↔ t.queue.length = termbufSize := by
  rw [queue, Ring.length_toList]
  exact Ring.full_iff h.ring

theorem init_inv : init.Inv where
  ring := ⟨by decide, by decide, nofun⟩
  count := rfl
  backspace := rfl
  ascii := nofun

theorem termPutchar_ordinary (h : t.Inv) (ha : a < 128) (hb : a ≠ backspaceKey) (ht : a ≠ tab) :
    (t.queue.length = termbufSize → t.termPutchar a = (-1, t)) ∧
    (t.queue.length ≠ termbufSize → ∃ t', t.termPutchar a = (0, t') ∧ t'.Inv ∧ t'.queue = t.queue ++ [a]) := by
  rw [termPutchar, if_neg hb, if_neg ht]
  refine ⟨fun hq => if_pos ((full_iff h).mpr hq), fun hq => ?_⟩
  have hf : t.full = false := by
    rw [← Bool.not_eq_true]
    exact mt (full_iff h).mp hq
  have hqueue : ({ t with backspace := t.backspace + 1 }.termPush a).queue = t.queue ++ [a] := by
    rw [queue, toRing_termPush]
    exact Ring.toList_push h.ring hf a
  refine ⟨_, if_neg (by simp [hf]), ⟨?_, ?_, ?_, ?_⟩, hqueue⟩
  · rw [toRing_termPush]
    exact h.ring.push hf a
  · rw [termPush_count, hqueue, List.countP_append, h.count, BitVec.ofNat_add]
    congr 1
    cases hd : isDelim a <;> simp [hd]
  · rw [termPush_backspace, hqueue, pending_append, ← h.backspace]
  · intro c hc
    rw [hqueue, List.mem_append, List.mem_singleton] at hc
    rcases hc with hc | rfl
    · exact h.ascii c hc
    · exact ha

theorem termPutchar_backspace (h : t.Inv) :
    (∃ l c t', t.queue = l ++ [c] ∧ isDelim c = false ∧ t.termPutchar backspaceKey = (0, t') ∧ t'.Inv ∧ t'.queue = l) ∨
    ((t.queue = [] ∨ ∃ l c, t.queue = l ++ [c] ∧ isDelim c = true) ∧ t.termPutchar backspaceKey = (-1, t)) := by
  rw [termPutchar, if_pos rfl]
  by_cases hp : t.backspace ≤ 0
  · right
    refine ⟨?_, if_pos hp⟩
    cases hq : t.queue using List.reverseRecOn with
    | nil => exact .inl rfl
    | append_singleton l c =>
      refine .inr ⟨l, c, rfl, ?_⟩
      by_contra hc
      have hpos := pending_pos.mpr ⟨l, c, hq, by simpa using hc⟩
      rw [← h.backspace] at hpos
      omega
  · left
    have hpos : 0 < pending t.queue := by rw [← h.backspace]; omega
    obtain ⟨l, c, hq, hc⟩ := pending_pos.mp hpos
    have hne : t.toRing.length termbufSize ≠ 0 := by
      have hlen := congrArg List.length hq
      rw [queue, Ring.length_toList, List.length_append, List.length_singleton] at hlen
      omega
    obtain ⟨c', hun⟩ := Ring.toList_unpush h.ring hne
    obtain ⟨hl, hc'⟩ := List.append_inj' (hq.symm.trans hun) rfl
    have hring : t.termPoplast.toRing = t.toRing.unpush termbufSize := rfl
    have hpos' : 0 < t.termPoplast.backspace := Int.not_le.mp hp
    have hqueue : { t.termPoplast with backspace := t.termPoplast.backspace - 1 }.queue = l := by
      rw [hl]
      rfl
    refine ⟨l, c, _, hq, hc, by rw [if_neg hp]; dsimp only; rw [if_pos hpos'], ⟨?_, ?_, ?_, ?_⟩, hqueue⟩
    · exact h.ring.unpush
    · rw [hqueue]
      change t.count = _
      rw [h.count, hq, List.countP_append]
      simp [hc]
    · rw [hqueue]
      change t.backspace - 1 = _
      rw [h.backspace, hq, pending_append, hc]
      simp
    · intro b hb
      rw [hqueue] at hb
      exact h.ascii b (by rw [hq]; exact List.mem_append_left _ hb)

theorem termPop_cons (h : t.Inv) (hq : t.queue = c :: l) (hd : l.any isDelim = true ∨ isDelim c = true) :
    ∃ t', t.termPop = ((c.toNat : ℤ), t') ∧ t'.Inv ∧ t'.queue = l := by
  have hne : ¬ (t.start = t.stop ∧ t.full = false) := mt (queue_nil_iff h).mpr (by simp [hq])
  have hlen : t.toRing.length termbufSize ≠ 0 := by
    have := congrArg List.length hq
    rw [queue, Ring.length_toList, List.length_cons] at this
    omega
  obtain ⟨hc, hl⟩ := List.cons.inj ((Ring.toList_pop h.ring hlen).symm.trans hq)
  have hsmall : c < 128 := h.ascii c (by rw [hq]; exact List.mem_cons_self)
  have hint : c.toBitVec.toInt = c.toNat := by
    apply BitVec.toInt_eq_toNat_of_lt
    have : c.toNat < 128 := hsmall
    change 2 * c.toNat < 256
    omega
  let t' : Terminal := { t with start := (t.start + 1) % termbufSize, full := false,
                                count := if isDelim c then t.count - 1 else t.count }
  have hqueue : t'.queue = l := hl
  refine ⟨t', ?_, ⟨h.ring.pop, ?_, ?_, fun b hb => ?_⟩, hqueue⟩
  · rw [termPop, if_neg hne]
    dsimp only
    rw [hc, hint]
    cases hdc : isDelim c <;> simp [t', hdc]
  · change (if isDelim c then t.count - 1 else t.count) = _
    rw [hqueue, h.count, hq, List.countP_cons]
    cases hdc : isDelim c with
    | true =>
      rw [if_pos rfl, if_pos rfl, BitVec.ofNat_add]
      exact BitVec.add_sub_cancel _ _
    | false => simp
  · change t.backspace = _
    rw [hqueue, h.backspace, hq, pending_cons hd]
  · rw [hqueue] at hb
    exact h.ascii b (by rw [hq]; exact List.mem_cons_of_mem _ hb)

theorem readLoop_cons (h : t.Inv) (hq : t.queue = c :: l) (hd : l.any isDelim = true ∨ isDelim c = true) :
    ∃ t', t'.Inv ∧ t'.queue = l ∧ ∀ n, t.readLoop (n + 1) =
      if isDelim c then ([c], t') else (c :: (t'.readLoop n).1, (t'.readLoop n).2) := by
  obtain ⟨t', hpop, hinv, hl⟩ := termPop_cons h hq hd
  refine ⟨t', hinv, hl, fun n => ?_⟩
  have hnot : ¬ (c.toNat : ℤ) < 0 := by omega
  have hback : UInt8.ofNat (c.toNat : ℤ).toNat = c := by simp
  rw [readLoop, hpop]
  dsimp only
  rw [if_neg hnot, hback]

theorem readLoop_spec (h : t.Inv) (hd : t.queue.any isDelim = true) :
    (t.readLoop n).2.Inv ∧ t.queue = (t.readLoop n).1 ++ (t.readLoop n).2.queue ∧ (t.readLoop n).1.length ≤ n ∧
      (∀ c ∈ (t.readLoop n).1.dropLast, isDelim c = false) ∧ (n ≠ 0 → (t.readLoop n).1 ≠ []) := by
  induction n generalizing t with
  | zero => exact ⟨h, rfl, le_rfl, nofun, fun hn => absurd rfl hn⟩
  | succ n ih =>
    cases hq : t.queue with
    | nil => simp [hq] at hd
    | cons c l =>
      rw [hq, List.any_cons, Bool.or_eq_true, or_comm] at hd
      obtain ⟨t', hinv, hl, hstep⟩ := readLoop_cons h hq hd
      rw [hstep]
      cases hc : isDelim c with
      | true => exact ⟨hinv, by simp [hl], by simp, by simp, by simp⟩
      | false =>
        have hrest : t'.queue.any isDelim = true := by
          rw [hl]
          exact hd.resolve_right (by simp [hc])
        obtain ⟨hinv', hsplit, hlen, hfree, _⟩ := ih hinv hrest
        rw [if_neg (by simp)]
        dsimp only
        refine ⟨hinv', by rw [List.cons_append, ← hsplit, hl], by rw [List.length_cons]; omega, ?_, by simp⟩
        intro b hb
        cases hr : (t'.readLoop n).1 with
        | nil => simp [hr] at hb
        | cons d r =>
          rw [hr, List.dropLast_cons_of_ne_nil (List.cons_ne_nil d r), List.mem_cons] at hb
          rcases hb with rfl | hb
          · exact hc
          · exact hfree b (by rw [hr]; exact hb)

def lineLength (l : List UInt8) : ℕ := (l.takeWhile fun c => !isDelim c).length + 1

theorem readLoop_length (h : t.Inv) (hd : t.queue.any isDelim = true) :
    (t.readLoop n).1.length = min n (lineLength t.queue) := by
  induction n generalizing t with
  | zero => rw [Nat.zero_min, readLoop, List.length_nil]
  | succ n ih =>
    cases hq : t.queue with
    | nil => simp [hq] at hd
    | cons c l =>
      rw [hq, List.any_cons, Bool.or_eq_true, or_comm] at hd
      obtain ⟨t', hinv, hl, hstep⟩ := readLoop_cons h hq hd
      rw [hstep, lineLength]
      cases hc : isDelim c with
      | true =>
        rw [List.takeWhile_cons_of_neg (by simp [hc]), List.length_nil, if_pos rfl, List.length_singleton]
        omega
      | false =>
        have hrest : t'.queue.any isDelim = true := by
          rw [hl]
          exact hd.resolve_right (by simp [hc])
        have hlen := ih hinv hrest
        rw [lineLength, hl] at hlen
        rw [List.takeWhile_cons_of_pos (by simp [hc]), if_neg (by simp), List.length_cons, List.length_cons, hlen]
        omega

theorem count_eq_zero (h : t.Inv) :
    t.count = 0 ↔ t.queue.any isDelim = false ∨ t.queue.countP isDelim = termbufSize := by
  have hle := (List.countP_le_length (p := isDelim) (l := t.queue)).trans (queue_length_le h)
  have hany : t.queue.any isDelim = false ↔ t.queue.countP isDelim = 0 := by
    simp [List.countP_eq_zero]
  rw [hany, h.count, ← BitVec.toNat_inj, BitVec.toNat_ofNat]
  change _ % 256 = 0 ↔ _ = 0 ∨ _ = 256
  change _ ≤ 256 at hle
  omega

theorem termRead_spec (h : t.Inv) (hn : n ≠ 0) :
    t.termRead n = (-1, [], t) ∧ t.count = 0 ∨
    ∃ bytes t', t.termRead n = ((bytes.length : ℤ), bytes, t') ∧ t'.Inv ∧ bytes ≠ [] ∧ t.queue = bytes ++ t'.queue ∧
      (∀ c ∈ bytes.dropLast, isDelim c = false) ∧ bytes.length ≤ n + 1 ∧ t.count ≠ 0 := by
  rw [termRead, if_neg hn]
  by_cases hz : t.count = 0
  · exact .inl ⟨if_pos hz, hz⟩
  · right
    have hd : t.queue.any isDelim = true := by
      rw [← Bool.not_eq_false]
      exact fun hd => hz ((count_eq_zero h).mpr (.inl hd))
    obtain ⟨hinv, hsplit, hlen, hfree, hsome⟩ := readLoop_spec (n := n + 1) h hd
    exact ⟨_, _, if_neg hz, hinv, hsome (Nat.succ_ne_zero n), hsplit, hfree, hlen, hz⟩

end Terminal

end Os506
