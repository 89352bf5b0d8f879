import Os506.Terminal.Buffer
import Os506.Lib.Run

namespace Os506

open Run

inductive TermOp
  | putchar (c : UInt8)
  | read (size : ℕ)

def TermOp.Typed : TermOp → Prop
  | putchar c => c < 128 ∧ c ≠ Terminal.tab
  | read _ => True

instance : DecidablePred TermOp.Typed := fun op => by
  cases op <;> unfold TermOp.Typed <;> infer_instance

structure Session where
  term : Terminal
  edited : List UInt8
  delivered : List UInt8

def Session.init : Session := ⟨.init, [], []⟩

def TermOp.step : TermOp → Session → Option Session
  | putchar c, x =>
    let (ret, t) := x.term.termPutchar c
    some { x with
      term := t
      edited := if ret ≠ 0 then x.edited else if c = Terminal.backspaceKey then x.edited.dropLast else x.edited ++ [c] }
  | read size, x =>
    let (_, bytes, t) := x.term.termRead size
    some { x with term := t, delivered := x.delivered ++ bytes }

namespace Session

open Terminal

variable {x y : Session} {op : TermOp}

/-- The terminal is a queue of bytes under each of its operations. -/
structure Disciplined (x : Session) : Prop where
  bound : x.term.queue.length ≤ 256
  order : x.edited = x.delivered ++ x.term.queue
  accepts : ∀ c < 128, c ≠ backspaceKey → c ≠ tab → x.term.queue.length < 256 →
    ∃ t, x.term.termPutchar c = (0, t) ∧ t.queue = x.term.queue ++ [c]
  rejects : ∀ c < 128, c ≠ backspaceKey → c ≠ tab → x.term.queue.length = 256 → x.term.termPutchar c = (-1, x.term)
  erases : ∀ l c, x.term.queue = l ++ [c] → isDelim c = false →
    ∃ t, x.term.termPutchar backspaceKey = (0, t) ∧ t.queue = l
  keeps : (∀ l c, x.term.queue = l ++ [c] → isDelim c = true) → x.term.termPutchar backspaceKey = (-1, x.term)
  reads : ∀ size ≠ 0, x.term.termRead size = (-1, [], x.term) ∨
    ∃ bytes t, x.term.termRead size = ((bytes.length : ℤ), bytes, t) ∧ bytes ≠ [] ∧ x.term.queue = bytes ++ t.queue ∧
      (∀ c ∈ bytes.dropLast, isDelim c = false) ∧ bytes.length ≤ size + 1
  readsNothing : x.term.termRead 0 = (0, [], x.term)

structure Sound (x : Session) : Prop where
  inv : x.term.Inv
  order : x.edited = x.delivered ++ x.term.queue

theorem Sound.disciplined (h : x.Sound) : x.Disciplined where
  bound := queue_length_le h.inv
  order := h.order
  accepts c hc hb ht hq := by
    obtain ⟨t, hput, _, hqueue⟩ := (termPutchar_ordinary h.inv hc hb ht).2 hq.ne
    exact ⟨t, hput, hqueue⟩
  rejects c hc hb ht hq := (termPutchar_ordinary h.inv hc hb ht).1 hq
  erases l c hq hc := by
    rcases termPutchar_backspace h.inv with ⟨l', c', t, hq', _, hput, _, hqueue⟩ | ⟨hnone | ⟨l', c', hq', hd⟩, _⟩
    · obtain ⟨rfl, _⟩ := List.append_inj' (hq.symm.trans hq') rfl
      exact ⟨t, hput, hqueue⟩
    · simp [hnone] at hq
    · obtain ⟨_, he⟩ := List.append_inj' (hq.symm.trans hq') rfl
      rw [List.singleton_inj.mp he, hd] at hc
      cases hc
  keeps hlast := by
    rcases termPutchar_backspace h.inv with ⟨l, c, t, hq, hc, _⟩ | ⟨_, hput⟩
    · rw [hlast l c hq] at hc
      cases hc
    · exact hput
  reads size hn := by
    rcases termRead_spec h.inv hn with ⟨hr, _⟩ | ⟨bytes, t, hr, _, hne, hsplit, hfree, hlen, _⟩
    · exact .inl hr
    · exact .inr ⟨bytes, t, hr, hne, hsplit, hfree, hlen⟩
  readsNothing := rfl

inductive Effect (op : TermOp) (x y : Session) : Prop
  | none (hq : y.term.queue = x.term.queue)
      (hfull : ∀ c, op = .putchar c → c ≠ backspaceKey → x.term.queue.length = 256)
  | typed (c : UInt8) (hop : op = .putchar c) (hc : c ≠ backspaceKey) (hroom : x.term.queue.length ≠ 256)
      (hq : y.term.queue = x.term.queue ++ [c])
  | erased (c : UInt8) (hop : op = .putchar backspaceKey) (hc : isDelim c = false) (hq : x.term.queue = y.term.queue ++ [c])
  | taken (size : ℕ) (bytes : List UInt8) (hop : op = .read size) (hne : bytes ≠ [])
      (hq : x.term.queue = bytes ++ y.term.queue)

theorem Sound.step (h : x.Sound) (ht : op.Typed) (hy : op.step x = some y) : y.Sound ∧ Effect op x y := by
  cases op with
  | putchar c =>
    obtain ⟨hc, htab⟩ := ht
    rw [TermOp.step] at hy
    by_cases hb : c = backspaceKey
    · subst hb
      rcases termPutchar_backspace h.inv with ⟨l, c, t, hq, hc, hput, hinv, hqueue⟩ | ⟨_, hput⟩
      · rw [hput] at hy
        obtain rfl := Option.some.inj hy
        refine ⟨⟨hinv, ?_⟩, .erased c rfl hc (by rw [hq, hqueue])⟩
        dsimp only
        rw [h.order, hq, hqueue, ← List.append_assoc]
        simp
      · rw [hput] at hy
        obtain rfl := Option.some.inj hy
        exact ⟨⟨h.inv, h.order⟩, .none rfl fun c hop hc => absurd (TermOp.putchar.inj hop).symm hc⟩
    · obtain ⟨hfull, hroom⟩ := termPutchar_ordinary h.inv hc hb htab
      by_cases hq : x.term.queue.length = termbufSize
      · rw [hfull hq] at hy
        obtain rfl := Option.some.inj hy
        exact ⟨⟨h.inv, h.order⟩, .none rfl fun _ _ _ => hq⟩
      · obtain ⟨t, hput, hinv, hqueue⟩ := hroom hq
        rw [hput] at hy
        obtain rfl := Option.some.inj hy
        refine ⟨⟨hinv, ?_⟩, .typed c rfl hb hq hqueue⟩
        dsimp only
        rw [h.order, hqueue, ← List.append_assoc]
        simp [hb]
  | read size =>
    rw [TermOp.step] at hy
    by_cases hn : size = 0
    · subst hn
      obtain rfl := Option.some.inj hy
      exact ⟨⟨h.inv, by simpa [termRead] using h.order⟩, .none rfl fun _ hop => absurd hop TermOp.noConfusion⟩
    · rcases termRead_spec h.inv hn with ⟨hr, _⟩ | ⟨bytes, t, hr, hinv, hne, hsplit, _⟩
      · rw [hr] at hy
        obtain rfl := Option.some.inj hy
        exact ⟨⟨h.inv, by simpa using h.order⟩, .none rfl fun _ hop => absurd hop TermOp.noConfusion⟩
      · rw [hr] at hy
        obtain rfl := Option.some.inj hy
        refine ⟨⟨hinv, ?_⟩, .taken size bytes rfl hne hsplit⟩
        dsimp only
        rw [h.order, hsplit, List.append_assoc]

theorem init_sound : init.Sound := ⟨init_inv, rfl⟩

theorem disciplined_run {ops : List TermOp} (h : ∀ op ∈ ops, op.Typed) : Along TermOp.step Disciplined init ops := by
  apply along_mono fun x => Sound.disciplined
  exact along_of_step (fun op x y hx ht hy => (hx.step ht hy).1) init_sound (meets_of_mem h)

theorem disciplined_run_two_lines :
    let ops : List TermOp := [.putchar 97, .putchar 98, .putchar 8, .putchar 10, .putchar 8, .putchar 99, .read 5,
      .putchar 100, .read 5, .putchar 10, .read 1, .read 1]
    Along TermOp.step Disciplined init ops ∧
      (exec TermOp.step ops init).map (fun x => (x.edited, x.delivered)) =
        some ([97, 10, 99, 100, 10], [97, 10, 99, 100, 10]) :=
  ⟨disciplined_run (by decide), by decide⟩

end Session

end Os506
