import Os506.Terminal.Discipline

namespace Os506

open Run Terminal

def Terminal.Wedged (t : Terminal) : Prop :=
  t.full = true ∧ (∀ c < 128, c ≠ tab → (t.termPutchar c).1 = -1) ∧ ∀ size ≠ 0, (t.termRead size).1 = -1

/-- The key is not a delimiter, or the buffer is not full of delimiters but for one place. -/
def TermOp.Unflooded : TermOp → Session → Prop
  | putchar c, x => ¬ (isDelim c = true ∧ x.term.queue.length = 255 ∧ ∀ b ∈ x.term.queue, isDelim b = true)
  | read _, _ => True

instance : ∀ op x, Decidable (TermOp.Unflooded op x)
  | .putchar c, x => inferInstanceAs (Decidable (¬ (isDelim c = true ∧ x.term.queue.length = 255 ∧
      ∀ b ∈ x.term.queue, isDelim b = true)))
  | .read _, _ => inferInstanceAs (Decidable True)

namespace Session

variable {x y : Session} {op : TermOp}

structure Readable (x : Session) : Prop where
  lines : ∀ size ≠ 0, (x.term.termRead size).1 = -1 ↔ ∀ c ∈ x.term.queue, isDelim c = false
  count : x.term.count = 0 ↔ ∀ c ∈ x.term.queue, isDelim c = false
  free : ¬ x.term.Wedged

theorem Sound.refuses_iff {size : ℕ} (h : x.Sound) (hn : size ≠ 0) : (x.term.termRead size).1 = -1 ↔ x.term.count = 0 := by
  rcases termRead_spec h.inv hn with ⟨hr, hz⟩ | ⟨bytes, t, hr, _, _, _, _, _, hz⟩
  · rw [hr]
    exact iff_of_true rfl hz
  · rw [hr]
    refine iff_of_false ?_ hz
    dsimp only
    omega

theorem Sound.not_wedged (h : x.Sound) (hc : x.term.count = 0 ↔ ∀ c ∈ x.term.queue, isDelim c = false) :
    ¬ x.term.Wedged := by
  rintro ⟨hfull, hputs, hreads⟩
  have hfree := hc.mp ((h.refuses_iff Nat.one_ne_zero).mp (hreads 1 Nat.one_ne_zero))
  have hlen := (full_iff h.inv).mp hfull
  -- no line is complete, so the last key can be taken back
  cases hq : x.term.queue using List.reverseRecOn with
  | nil => simp [hq, termbufSize] at hlen
  | append_singleton l c =>
    obtain ⟨t, hput, _⟩ := h.disciplined.erases l c hq (hfree c (by simp [hq]))
    have := hputs backspaceKey (by decide) (by decide)
    rw [hput] at this
    cases this

theorem Sound.readable_iff (h : x.Sound) : x.Readable ↔ x.term.queue.countP isDelim ≠ 256 := by
  have hany : (∀ c ∈ x.term.queue, isDelim c = false) ↔ x.term.queue.any isDelim = false := by simp
  have hzero := count_eq_zero h.inv
  constructor
  · intro hr hflood
    have hnone := hr.count.mp (hzero.mpr (.inr hflood))
    rw [List.countP_eq_zero.mpr fun c hc => by simp [hnone c hc]] at hflood
    cases hflood
  · intro hflood
    have hcount : x.term.count = 0 ↔ ∀ c ∈ x.term.queue, isDelim c = false := by
      rw [hzero, hany]
      exact or_iff_left hflood
    exact ⟨fun size hn => (h.refuses_iff hn).trans hcount, hcount, h.not_wedged hcount⟩

theorem Sound.flooded_iff (h : x.Sound) (hx : x.term.queue.countP isDelim ≠ 256) (he : Effect op x y) :
    y.term.queue.countP isDelim ≠ 256 ↔ op.Unflooded x := by
  have hle := queue_length_le h.inv
  change _ ≤ 256 at hle
  have hcount := List.countP_le_length (p := isDelim) (l := x.term.queue)
  cases he with
  | none hq hfull =>
    rw [hq]
    refine iff_of_true hx ?_
    cases op with
    | read size => trivial
    | putchar c =>
      rintro ⟨hd, hlen, _⟩
      have := hfull c rfl fun hc => by rw [hc] at hd; exact absurd hd (by decide)
      omega
  | typed c hop hc hroom hq =>
    subst hop
    have hall : x.term.queue.countP isDelim = x.term.queue.length ↔ ∀ b ∈ x.term.queue, isDelim b = true :=
      List.countP_eq_length
    rw [hq, List.countP_append, TermOp.Unflooded, ← hall]
    cases hd : isDelim c with
    | true =>
      have hone : [c].countP isDelim = 1 := by simp [hd]
      rw [hone, eq_self, true_and]
      omega
    | false =>
      have hone : [c].countP isDelim = 0 := by simp [hd]
      rw [hone]
      simpa using hx
  | erased c hop hc hq =>
    subst hop
    refine iff_of_true ?_ fun hd => absurd hd.1 (by decide)
    rw [hq, List.countP_append] at hx
    simpa [hc] using hx
  | taken size bytes hop hne hq =>
    subst hop
    refine iff_of_true ?_ trivial
    have hlen := congrArg List.length hq
    have hpos := List.length_pos_iff.mpr hne
    have := List.countP_le_length (p := isDelim) (l := y.term.queue)
    rw [List.length_append] at hlen
    omega

theorem readable_run_iff {ops : List TermOp} (h : ∀ op ∈ ops, op.Typed) :
    Along TermOp.step Readable init ops ↔ Meets TermOp.step TermOp.Unflooded init ops := by
  refine along_iff_meets (I := Sound) (fun op x hx hr ht => ?_) init_sound
    (init_sound.readable_iff.mpr (by decide)) (meets_of_mem h)
  obtain ⟨y, hy⟩ : ∃ y, op.step x = some y := by cases op <;> exact ⟨_, rfl⟩
  obtain ⟨hs, he⟩ := hx.step ht hy
  exact ⟨y, hy, fun _ => hs, hs.readable_iff.trans (hx.flooded_iff (hx.readable_iff.mp hr) he)⟩

theorem readable_run_empty_lines :
    let ops : List TermOp := List.replicate 10 (.putchar 10) ++ [.read 4, .read 4, .putchar 97]
    Along TermOp.step Readable init ops :=
  (readable_run_iff (by decide)).mpr (meets_of_check (fun _ _ => of_decide_eq_true) (by decide))

theorem readable_fails_on_full_buffer :
    let ops : List TermOp := List.replicate 256 (.putchar 10)
    ¬ Along TermOp.step Readable init ops ∧
      (exec TermOp.step ops init).map (fun x => (x.term.count, x.term.full, (x.term.termRead 100).1)) =
        some (0, true, -1) := by
  refine ⟨not_along_of_exec (b := fun x => decide (x.term.count = 0) && x.term.queue.any isDelim) ?_ (by decide +kernel),
    by decide +kernel⟩
  intro x hb hr
  obtain ⟨hz, hany⟩ := (Bool.and_eq_true _ _).mp hb
  obtain ⟨c, hc, hd⟩ := List.any_eq_true.mp hany
  rw [hr.count.mp (of_decide_eq_true hz) c hc] at hd
  cases hd

end Session

end Os506
