import Os506.Lib.Ring

namespace Os506

def pipebufSize : ℕ := 2048

abbrev PipeBuf := Ring UInt8

namespace Pipe

/-- The loop of `whead_write`, with the number of turns that `nwrite <= count` leaves. -/
def writeLoop (data : ℕ → UInt8) : ℕ → ℕ → PipeBuf → ℕ × PipeBuf
  | 0, nwrite, pipe => (nwrite, pipe)
  | left + 1, nwrite, pipe =>
    if pipe.start = pipe.stop then (nwrite, pipe)
    else
      let stop := (pipe.stop + 1) % pipebufSize
      writeLoop data left (nwrite + 1)
        { pipe with
          buf := Function.update pipe.buf pipe.stop (data nwrite)
          stop := stop
          full := decide (stop = pipe.start) }

/-- `whead_write` on a file with a pipe; a null `buf` is `none`. -/
def wheadWrite (buf : Option (ℕ → UInt8)) (count : ℕ) (pipe : PipeBuf) : ℤ × PipeBuf :=
  match buf with
  | none => (-1, pipe)
  | some data =>
    let (nwrite, pipe) := writeLoop data (count + 1) 0 pipe
    (nwrite, pipe)

def readLoop : ℕ → List UInt8 → PipeBuf → List UInt8 × PipeBuf
  | 0, out, pipe => (out, pipe)
  | left + 1, out, pipe =>
    if pipe.start = pipe.stop then (out, pipe)
    else
      readLoop left (out ++ [pipe.buf pipe.start])
        { pipe with start := (pipe.start + 1) % pipebufSize, full := false }

def rheadRead (buf : Bool) (count : ℕ) (pipe : PipeBuf) : ℤ × List UInt8 × PipeBuf :=
  if !buf then (-1, [], pipe)
  else if count = 0 then (0, [], pipe)
  else if pipe.start = pipe.stop ∧ pipe.full = false then (0, [], pipe)
  else
    let (out, pipe) := readLoop (count + 1) [] pipe
    (out.length, out, pipe)

def taken (data : ℕ → UInt8) (n k : ℕ) : List UInt8 := (List.range k).map fun i => data (n + i)

variable {data : ℕ → UInt8} {count : ℕ} {r : PipeBuf}

theorem not_full (h : r.Ok pipebufSize) (hne : r.start ≠ r.stop) : r.full = false := by
  apply Bool.eq_false_iff.mpr
  intro hfull
  exact hne (h.full_eq hfull)

theorem taken_succ (data : ℕ → UInt8) (n k : ℕ) : taken data n (k + 1) = data n :: taken data (n + 1) k := by
  rw [taken, taken, List.range_succ_eq_map, List.map_cons, List.map_map]
  congr 1
  apply List.map_congr_left
  intro i _
  change data (n + (i + 1)) = data (n + 1 + i)
  rw [Nat.add_right_comm, Nat.add_assoc]

theorem writeLoop_spec (data : ℕ → UInt8) (left n : ℕ) (h : r.Ok pipebufSize) (hne : r.start ≠ r.stop) :
    ∃ k r', writeLoop data left n r = (n + k, r') ∧ k = min left (pipebufSize - r.length pipebufSize) ∧
      r'.Ok pipebufSize ∧ r'.toList pipebufSize = r.toList pipebufSize ++ taken data n k := by
  induction left generalizing n r with
  | zero => exact ⟨0, r, rfl, (Nat.zero_min _).symm, h, (List.append_nil _).symm⟩
  | succ left ih =>
    have hfull := not_full h hne
    have hlen := Ring.length_push h hfull (data n)
    have hok := h.push hfull (data n)
    have hlist := Ring.toList_push h hfull (data n)
    have hle := Ring.length_le hok
    have hstep : writeLoop data (left + 1) n r = writeLoop data left (n + 1) (r.push pipebufSize (data n)) := by
      rw [writeLoop, if_neg hne, Ring.push, hfull, Bool.or_false]
      simp only [eq_comm]
    by_cases heq : (r.push pipebufSize (data n)).start = (r.push pipebufSize (data n)).stop
    · -- the last free cell is taken
      have hstop : writeLoop data left (n + 1) (r.push pipebufSize (data n)) = (n + 1, r.push pipebufSize (data n)) := by
        cases left with
        | zero => rfl
        | succ left => rw [writeLoop, if_pos heq]
      have hmax : (r.push pipebufSize (data n)).length pipebufSize = pipebufSize := by
        apply (Ring.full_iff hok).mp
        rw [Ring.push, hfull, Bool.or_false]
        exact decide_eq_true heq
      refine ⟨1, _, by rw [hstep, hstop], by omega, hok, ?_⟩
      rw [hlist, taken_succ]
      rfl
    · obtain ⟨k, r', hr', hk, hok', hlist'⟩ := ih (n + 1) hok heq
      refine ⟨k + 1, r', ?_, by omega, hok', ?_⟩
      · rw [hstep, hr', Nat.add_right_comm, Nat.add_assoc]
      · rw [hlist', hlist, taken_succ, List.append_assoc]
        rfl

theorem readLoop_spec (left : ℕ) (out : List UInt8) (h : r.Ok pipebufSize) (hne : r.start ≠ r.stop) :
    ∃ r', readLoop left out r = (out ++ (r.toList pipebufSize).take left, r') ∧ r'.Ok pipebufSize ∧
      r'.toList pipebufSize = (r.toList pipebufSize).drop left := by
  induction left generalizing out r with
  | zero => exact ⟨r, by rw [readLoop, List.take_zero, List.append_nil], h, rfl⟩
  | succ left ih =>
    have hpos : r.length pipebufSize ≠ 0 := by
      intro hzero
      have := (Ring.isEmpty_iff h).mpr hzero
      simp [Ring.isEmpty, hne] at this
    have hpop := Ring.toList_pop h hpos
    have hok := h.pop (n := pipebufSize)
    have hstep : readLoop (left + 1) out r = readLoop left (out ++ [r.buf r.start]) (r.pop pipebufSize) := by
      rw [readLoop, if_neg hne]
      rfl
    rw [hstep, hpop, List.take_succ_cons, List.drop_succ_cons]
    by_cases heq : (r.pop pipebufSize).start = (r.pop pipebufSize).stop
    · have hnil : (r.pop pipebufSize).toList pipebufSize = [] := by
        apply List.length_eq_zero_iff.mp
        rw [Ring.length_toList]
        apply (Ring.isEmpty_iff hok).mp
        rw [Ring.isEmpty, decide_eq_true heq]
        rfl
      have hstop : readLoop left (out ++ [r.buf r.start]) (r.pop pipebufSize) = (out ++ [r.buf r.start], r.pop pipebufSize) := by
        cases left with
        | zero => rfl
        | succ left => rw [readLoop, if_pos heq]
      exact ⟨_, by rw [hstop, hnil, List.take_nil], hok, by rw [hnil, List.drop_nil]⟩
    · obtain ⟨r', hr', hok', hlist'⟩ := ih (out ++ [r.buf r.start]) hok heq
      exact ⟨r', by rw [hr', List.append_assoc]; rfl, hok', hlist'⟩

theorem wheadWrite_of_ne (h : r.Ok pipebufSize) (hne : r.start ≠ r.stop) : ∃ r',
    wheadWrite (some data) count r = (((min (count + 1) (pipebufSize - r.length pipebufSize) : ℕ) : ℤ), r') ∧
      r'.Ok pipebufSize ∧ r'.toList pipebufSize = r.toList pipebufSize ++
        taken data 0 (min (count + 1) (pipebufSize - r.length pipebufSize)) := by
  obtain ⟨k, r', hr', rfl, hok, hlist⟩ := writeLoop_spec data (count + 1) 0 h hne
  exact ⟨r', by rw [wheadWrite, hr', Nat.zero_add], hok, hlist⟩

theorem rheadRead_of_ne (h : r.Ok pipebufSize) (hne : r.start ≠ r.stop) (hcount : count ≠ 0) : ∃ r',
    rheadRead true count r =
        ((((r.toList pipebufSize).take (count + 1)).length : ℤ), (r.toList pipebufSize).take (count + 1), r') ∧
      r'.Ok pipebufSize ∧ r'.toList pipebufSize = (r.toList pipebufSize).drop (count + 1) := by
  obtain ⟨r', hr', hok, hlist⟩ := readLoop_spec (count + 1) [] h hne
  refine ⟨r', ?_, hok, hlist⟩
  rw [rheadRead, if_neg (by decide), if_neg hcount, if_neg fun he => hne he.1, hr']
  rfl

theorem wheadWrite_of_eq (heq : r.start = r.stop) : wheadWrite (some data) count r = (0, r) := by
  rw [wheadWrite, writeLoop, if_pos heq]
  rfl

theorem rheadRead_of_eq (heq : r.start = r.stop) : rheadRead true count r = (0, [], r) := by
  rw [rheadRead, if_neg (by decide), readLoop, if_pos heq]
  split
  · rfl
  · split <;> rfl

end Pipe

inductive PipeOp
  | write (data : ℕ → UInt8) (count : ℕ)
  | read (count : ℕ)

namespace Pipe

structure Holds (pipe : PipeBuf) (q : List UInt8) : Prop where
  ok : pipe.Ok pipebufSize
  bytes : pipe.toList pipebufSize = q
  bounded : q.length ≤ pipebufSize

/-- Every call is answered as by a bounded queue, which holds what was accepted and not yet read. -/
def Behaves : PipeBuf → List UInt8 → List UInt8 → List PipeOp → Prop
  | pipe, accepted, got, [] => ∃ q, Holds pipe q ∧ accepted = got ++ q
  | pipe, accepted, got, .write data count :: ops => ∃ q, Holds pipe q ∧ accepted = got ++ q ∧
      (wheadWrite (some data) count pipe).1 = (min count (pipebufSize - q.length) : ℕ) ∧
      Holds (wheadWrite (some data) count pipe).2 (q ++ taken data 0 (min count (pipebufSize - q.length))) ∧
      Behaves (wheadWrite (some data) count pipe).2 (accepted ++ taken data 0 (min count (pipebufSize - q.length))) got ops
  | pipe, accepted, got, .read count :: ops => ∃ q, Holds pipe q ∧ accepted = got ++ q ∧
      (rheadRead true count pipe).1 = (min count q.length : ℕ) ∧ (rheadRead true count pipe).2.1 = q.take count ∧
      Holds (rheadRead true count pipe).2.2 (q.drop count) ∧
      Behaves (rheadRead true count pipe).2.2 accepted (got ++ (rheadRead true count pipe).2.1) ops

def zero : PipeBuf := ⟨0, 0, false, fun _ => 0⟩

theorem holds_zero : Holds zero [] := ⟨⟨by decide, by decide, nofun⟩, rfl, by decide⟩

theorem Holds.eq_nil {q : List UInt8} (h : Holds zero q) : q = [] := h.bytes.symm

/-- The pipe never takes a byte: it behaves as a queue exactly as long as nothing is to be written. -/
theorem behaves_iff (ops : List PipeOp) : Behaves zero [] [] ops ↔ ∀ data count, .write data count ∈ ops → count = 0 := by
  induction ops with
  | nil => exact iff_of_true ⟨[], holds_zero, rfl⟩ fun _ _ h => absurd h List.not_mem_nil
  | cons op ops ih =>
    cases op with
    | write data count =>
      rw [Behaves, wheadWrite_of_eq rfl]
      constructor
      · rintro ⟨q, hq, _, hcount, _, hrest⟩ data' count' hmem
        obtain rfl := hq.eq_nil
        have hzero : count = 0 := by
          simp [pipebufSize] at hcount
          omega
        subst hzero
        rcases List.mem_cons.mp hmem with heq | hmem
        · exact (PipeOp.write.inj heq).2
        · exact ih.mp hrest data' count' hmem
      · intro h
        obtain rfl := h data count List.mem_cons_self
        refine ⟨[], holds_zero, rfl, by simp, holds_zero, ?_⟩
        exact ih.mpr fun data' count' hmem => h data' count' (List.mem_cons_of_mem _ hmem)
    | read count =>
      rw [Behaves, rheadRead_of_eq rfl]
      constructor
      · rintro ⟨q, hq, _, _, _, _, hrest⟩ data' count' hmem
        rcases List.mem_cons.mp hmem with heq | hmem
        · cases heq
        · exact ih.mp hrest data' count' hmem
      · intro h
        refine ⟨[], holds_zero, rfl, by simp, by simp, by rw [List.drop_nil]; exact holds_zero, ?_⟩
        exact ih.mpr fun data' count' hmem => h data' count' (List.mem_cons_of_mem _ hmem)

theorem behaves_reads_only : Behaves zero [] [] [.read 5, .write (fun _ => 97) 0, .read 0] :=
  (behaves_iff _).mpr (by simp)

theorem behaves_fails_on_one_byte : ¬ Behaves zero [] [] [.write (fun _ => 97) 1] ∧
    wheadWrite (some fun _ => 97) 1 zero = (0, zero) := by
  refine ⟨?_, wheadWrite_of_eq rfl⟩
  rw [Behaves, wheadWrite_of_eq rfl]
  rintro ⟨q, hq, _, hcount, _⟩
  obtain rfl := hq.eq_nil
  exact absurd hcount (by decide)

end Pipe

end Os506
