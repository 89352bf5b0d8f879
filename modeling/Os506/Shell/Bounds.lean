import Os506.Shell.Parser

namespace Os506.Sbush

open Bytes

def scanReads (p : UInt8 → Bool) (mem : ℕ → UInt8) : ℕ → ℕ → List ℕ
  | 0, _ => []
  | n + 1, q => q :: if p (mem q) then scanReads p mem n (q + 1) else []

def fetchtokenReads (n ps : ℕ) (mem : ℕ → UInt8) : List ℕ :=
  scanReads (· == blank) mem n ps ++
    (scan (· == blank) mem n ps).elim [] fun q => scanReads (fun c => !isEnd c) mem n q

def getexecReads (n : ℕ) : ℕ → ℕ → (ℕ → UInt8) → List ℕ
  | 0, _, _ => []
  | k + 1, ps, mem =>
    ps :: if isStop (mem ps) then [] else
      fetchtokenReads n ps mem ++ (fetchtoken n ps mem).elim [] fun (ps, mem) => getexecReads n k ps mem

def getpipeReads (n : ℕ) : ℕ → ℕ → (ℕ → UInt8) → List ℕ
  | 0, _, _ => []
  | k + 1, src, mem =>
    scanReads (· == blank) mem n src ++ (scan (· == blank) mem n src).elim [] fun src =>
      getexecReads n n src mem ++ (getexec n src mem).elim [] fun (_, src, mem) =>
        src :: if mem src = bar then getpipeReads n k (src + 1) (Function.update mem src 0) else []

def parsecmdReads (n buf : ℕ) (mem : ℕ → UInt8) : List ℕ :=
  scanReads (· != 0) mem n buf ++ getpipeReads n n buf mem ++ (getpipe n n buf mem).elim [] fun (_, src, _) => [src]

def Cmd.argvs {α : Type} : Cmd α → List (List α)
  | .e argv => [argv]
  | .p left right => left.argvs ++ right.argvs
  | .b cmd => cmd.argvs

/-- `parsecmd` reads and writes the line and its NUL alone, comes to an end, and leaves at most `MAX_ARGS - 1` words in
each `argv`, with a NULL behind them. `formEcmd` does not clear the array: entry `i` of command number `k` is
`stale k i` before. -/
def Keeps (stale : ℕ → ℕ → ℕ) (line : List UInt8) : Prop :=
  ∀ buf mem, At mem buf (line ++ [0]) → ∃ enough, ∀ n ≥ enough,
    (∀ i ∈ parsecmdReads n buf mem, buf ≤ i ∧ i ≤ buf + line.length) ∧
      ∃ cmd mem', parsecmd n buf mem = some (cmd, mem') ∧
        (∀ x, x < buf ∨ buf + line.length < x → mem' x = mem x) ∧
        ∀ k argv, cmd.argvs[k]? = some argv → argv.length ≤ maxArgs - 1 ∧ stale k argv.length = 0

/-- What one round of `getexec` takes: blanks, a word that may be empty, and the byte behind it. -/
structure Chunk (b : ℕ) (w : List UInt8) (c : UInt8) : Prop where
  plain : ∀ d ∈ w, isEnd d = false
  ends : isEnd c = true
  starts : b = 0 → w ≠ []
  maximal : w = [] → c ≠ blank

/-- The text `t` is that of `n` rounds in front of `t'`, and `t'` is empty or starts with an operator. -/
inductive Stage : List UInt8 → ℕ → List UInt8 → Prop
  | stop {t : List UInt8} (h : ∀ c ∈ t.head?, isStop c = true) : Stage t 0 t
  | round {b n : ℕ} {w t t' : List UInt8} {c : UInt8} (hc : Chunk b w c) (h : Stage t n t') :
    Stage (List.replicate b blank ++ w ++ c :: t) (n + 1) t'

/-- The numbers of words of the commands of a line: no word is ended by the NUL, but only by a blank or an operator. -/
inductive Closed : List UInt8 → List ℕ → Prop
  | last {t t' : List UInt8} {n : ℕ} (h : Stage (t.dropWhile (· == blank)) n t') (ht : ∀ c ∈ t'.head?, c = amp) :
    Closed t [n]
  | pipe {t t' : List UInt8} {n : ℕ} {ns : List ℕ} (h : Stage (t.dropWhile (· == blank)) n (bar :: t'))
    (hrest : Closed t' ns) : Closed t (n :: ns)

section Rounds

variable {p : UInt8 → Bool} {mem : ℕ → UInt8} {n q ps b : ℕ} {w : List UInt8} {c : UInt8}

theorem scanReads_at {l : List UInt8} (h : At mem q (l ++ [c])) (hl : ∀ d ∈ l, p d = true) (hc : p c = false) :
    ∀ i ∈ scanReads p mem n q, q ≤ i ∧ i ≤ q + l.length := by
  induction l generalizing n q with
  | nil =>
    have hq : mem q = c := (at_cons.mp h).1
    cases n with
    | zero => exact nofun
    | succ n => simp [scanReads, hq, hc]
  | cons d l ih =>
    rw [List.cons_append, at_cons] at h
    cases n with
    | zero => exact nofun
    | succ n =>
      intro i hi
      rw [scanReads, h.1, if_pos (hl d List.mem_cons_self), List.mem_cons] at hi
      rw [List.length_cons]
      rcases hi with rfl | hi
      · omega
      · have := ih h.2 (fun d hd => hl d (List.mem_cons_of_mem _ hd)) i hi
        omega

theorem Chunk.first (h : Chunk b w c) (hat : At mem ps (List.replicate b blank ++ w ++ [c])) :
    isStop (mem ps) = false := by
  cases b with
  | succ b =>
    rw [List.replicate_succ, List.cons_append, List.cons_append, at_cons] at hat
    rw [hat.1]
    rfl
  | zero =>
    have hw : Word w := ⟨h.starts rfl, h.plain⟩
    exact (hw.first (by simpa using hat)).1

theorem Chunk.scans (h : Chunk b w c) (hat : At mem ps (List.replicate b blank ++ w ++ [c])) :
    scan (· == blank) mem n ps = (if b < n then some (ps + b) else none) ∧
      (∀ i ∈ scanReads (· == blank) mem n ps, ps ≤ i ∧ i ≤ ps + b) ∧ At mem (ps + b) (w ++ [c]) := by
  rw [List.append_assoc] at hat
  obtain ⟨hblanks, hword⟩ := at_append.mp hat
  rw [List.length_replicate] at hword
  obtain ⟨d, l, hd, hne⟩ : ∃ d l, w ++ [c] = d :: l ∧ (d == blank) = false := by
    cases w with
    | nil => exact ⟨c, [], rfl, by simpa using h.maximal rfl⟩
    | cons d w =>
      have := h.plain d List.mem_cons_self
      simp only [isEnd, Bool.or_eq_false_iff] at this
      exact ⟨d, w ++ [c], rfl, this.2⟩
  have hall : ∀ x ∈ List.replicate b blank, (x == blank) = true := by
    intro x hx
    rw [List.eq_of_mem_replicate hx]
    rfl
  have hscan : At mem ps (List.replicate b blank ++ [d]) := by
    rw [hd] at hat
    exact at_snoc hat
  refine ⟨?_, ?_, hword⟩
  · rw [scan_at hscan hall hne, List.length_replicate]
  · have hreads := scanReads_at (n := n) hscan hall hne
    rwa [List.length_replicate] at hreads

theorem fetchtoken_chunk (h : Chunk b w c) (hat : At mem ps (List.replicate b blank ++ w ++ [c])) :
    fetchtoken n ps mem = (if b < n ∧ w.length < n then
      some (ps + b + w.length + 1, if c = blank then Function.update mem (ps + b + w.length) 0 else mem) else none) ∧
      ∀ i ∈ fetchtokenReads n ps mem, ps ≤ i ∧ i ≤ ps + b + w.length := by
  obtain ⟨hscan, hreads, hword⟩ := h.scans (n := n) hat
  have hplain : ∀ d ∈ w, (fun c => !isEnd c) d = true := by
    intro d hd
    simp [h.plain d hd]
  have hends : (fun c => !isEnd c) c = false := by simp [h.ends]
  have hlast : mem (ps + b + w.length) = c := (at_cons.mp (at_append.mp hword).2).1
  rw [fetchtoken, fetchtokenReads, hscan]
  by_cases hb : b < n
  · rw [if_pos hb, Option.bind_some, scan_at hword hplain hends]
    refine ⟨?_, fun i hi => ?_⟩
    · by_cases hw : w.length < n
      · rw [if_pos hw, if_pos ⟨hb, hw⟩, Option.map_some, hlast]
      · rw [if_neg hw, if_neg fun hn => hw hn.2]
        rfl
    · rcases List.mem_append.mp hi with hi | hi
      · have := hreads i hi
        omega
      · have := scanReads_at hword hplain hends i hi
        omega
  · rw [if_neg hb, if_neg fun hn => hb hn.1]
    refine ⟨rfl, fun i hi => ?_⟩
    rcases List.mem_append.mp hi with hi | hi
    · have := hreads i hi
      omega
    · cases hi

theorem chunk_cases {t : List UInt8} (hne : t ≠ []) (hfirst : ∀ c ∈ t.head?, isStop c = false) :
    ∃ b w, (t = List.replicate b blank ++ w ∧ Chunk b w 0) ∨
      ∃ c t', t = List.replicate b blank ++ w ++ c :: t' ∧ Chunk b w c := by
  obtain ⟨u, hu⟩ : ∃ u, u = t.dropWhile (· == blank) := ⟨_, rfl⟩
  have hsplit := List.takeWhile_append_dropWhile (p := (· == blank)) (l := t)
  have hblanks : t.takeWhile (· == blank) = List.replicate (t.takeWhile (· == blank)).length blank := by
    apply List.eq_replicate_iff.mpr
    exact ⟨rfl, fun d hd => eq_of_beq (List.mem_takeWhile_imp (p := (· == blank)) hd)⟩
  have hsplit' := List.takeWhile_append_dropWhile (p := fun c => !isEnd c) (l := u)
  have hplain : ∀ d ∈ u.takeWhile fun c => !isEnd c, isEnd d = false := by
    intro d hd
    simpa using List.mem_takeWhile_imp (p := fun c => !isEnd c) hd
  have hstarts : (t.takeWhile (· == blank)).length = 0 → (u.takeWhile fun c => !isEnd c) ≠ [] := by
    intro hzero
    obtain ⟨d, t', rfl⟩ := List.exists_cons_of_ne_nil hne
    have hd : (d == blank) = false := by
      by_contra hd
      rw [List.takeWhile_cons_of_pos (by simpa using hd)] at hzero
      cases hzero
    have hend : isEnd d = false := by
      rw [isEnd, hfirst d rfl, hd]
      rfl
    rw [hu, List.dropWhile_cons_of_neg (by simp [hd]), List.takeWhile_cons_of_pos (by simp [hend])]
    exact List.cons_ne_nil _ _
  refine ⟨(t.takeWhile (· == blank)).length, u.takeWhile fun c => !isEnd c, ?_⟩
  cases hr : u.dropWhile fun c => !isEnd c with
  | nil =>
    left
    rw [hr, List.append_nil] at hsplit'
    refine ⟨?_, hplain, rfl, hstarts, fun _ => by decide⟩
    rw [← hblanks, hsplit', hu, hsplit]
  | cons c t' =>
    right
    refine ⟨c, t', ?_, hplain, ?_, hstarts, fun hnil hc => ?_⟩
    · rw [← hblanks, List.append_assoc, ← hr, hsplit', hu, hsplit]
    · have := List.head_dropWhile_not (fun c => !isEnd c) (l := u) (by simp [hr])
      simpa [hr] using this
    · -- The blanks have all been skipped.
      rw [hnil, List.nil_append, hr] at hsplit'
      have := List.head_dropWhile_not (· == blank) (l := t) (by simp [← hu, ← hsplit'])
      simp [← hu, ← hsplit', hc] at this

end Rounds

section Stages

variable {mem mem' : ℕ → UInt8} {n k m ps ps' src src' : ℕ} {argv argv' : List ℕ} {t t' : List UInt8}

theorem scanReads_le {p : UInt8 → Bool} (h : At mem ps (t ++ [0])) (hp : p 0 = false) :
    ∀ i ∈ scanReads p mem n ps, ps ≤ i ∧ i ≤ ps + t.length := by
  induction t generalizing n ps with
  | nil => exact scanReads_at h nofun hp
  | cons d t ih =>
    rw [List.cons_append, at_cons] at h
    cases n with
    | zero => exact nofun
    | succ n =>
      intro i hi
      rw [scanReads, List.mem_cons] at hi
      rw [List.length_cons]
      rcases hi with rfl | hi
      · omega
      · split at hi
        · have := ih h.2 i hi
          omega
        · cases hi

theorem isStop_head_iff (h : At mem ps (t ++ [0])) : isStop (mem ps) = true ↔ ∀ c ∈ t.head?, isStop c = true := by
  rw [at_head h]
  cases t with
  | nil => simp [isStop]
  | cons d t => simp

theorem at_next {b : ℕ} {w : List UInt8} {c : UInt8} (hat : At mem ps (List.replicate b blank ++ w ++ c :: t ++ [0])) :
    At (if c = blank then Function.update mem (ps + b + w.length) 0 else mem) (ps + b + w.length + 1) (t ++ [0]) := by
  rw [List.append_assoc, List.append_assoc, at_append, at_append, List.length_replicate] at hat
  rw [List.cons_append, at_cons] at hat
  apply hat.2.2.2.congr
  intro x hx _
  split
  · exact Function.update_of_ne (by omega) _ _
  · rfl

theorem Stage.exists_append (h : Stage t m t') : ∃ u, t = u ++ t' ∧ m ≤ u.length := by
  induction h with
  | stop h => exact ⟨[], rfl, le_rfl⟩
  | @round b m w t t' c hc h ih =>
    obtain ⟨u, rfl, hm⟩ := ih
    refine ⟨List.replicate b blank ++ w ++ c :: u, by simp, ?_⟩
    rw [List.length_append, List.length_cons]
    omega

theorem Stage.stops (h : Stage t m t') : ∀ c ∈ t'.head?, isStop c = true := by
  induction h with
  | stop h => exact h
  | round _ _ ih => exact ih

theorem Stage.getexecLoop (h : Stage t m t') (hat : At mem ps (t ++ [0])) (hroom : argv.length + m ≤ maxArgs)
    (hn : t.length < n) (hk : m < k) : ∃ argv' mem', getexecLoop n k argv ps mem =
      some (argv', ps + (t.length - t'.length), mem') ∧ argv'.length = argv.length + m ∧
      ∀ i ∈ getexecReads n k ps mem, ps ≤ i ∧ i ≤ ps + t.length := by
  obtain ⟨k, rfl⟩ : ∃ j, k = j + 1 := ⟨k - 1, by omega⟩
  induction h generalizing argv ps mem k with
  | stop h =>
    have hstop := (isStop_head_iff hat).mpr h
    refine ⟨argv, mem, ?_, rfl, fun i hi => ?_⟩
    · rw [Sbush.getexecLoop, if_pos hstop, Nat.sub_self]
      rfl
    · rw [getexecReads, if_pos hstop, List.mem_singleton] at hi
      omega
  | @round b m w t t' c hc h ih =>
    rw [List.length_append, List.length_append, List.length_replicate, List.length_cons] at hn
    have hprefix : At mem ps (List.replicate b blank ++ w ++ [c]) := by
      rw [List.append_assoc, List.cons_append] at hat
      exact at_snoc hat
    obtain ⟨hfetch, hreads⟩ := fetchtoken_chunk (n := n) hc hprefix
    rw [if_pos ⟨by omega, by omega⟩] at hfetch
    obtain ⟨argv', mem', hrun, hlen, hrest⟩ := ih (at_next hat)
      (show (argv ++ [ps]).length + m ≤ maxArgs by simp; omega) (by omega) (k - 1) (by omega)
    have hk' : k - 1 + 1 = k := by omega
    rw [hk'] at hrun hrest
    obtain ⟨u, rfl, _⟩ := h.exists_append
    refine ⟨argv', mem', ?_, by simp at hlen; omega, fun i hi => ?_⟩
    · rw [Sbush.getexecLoop, if_neg (by simp [hc.first hprefix]), if_neg (by omega), hfetch, Option.bind_some]
      dsimp only
      rw [hrun]
      simp only [List.length_append, List.length_replicate, List.length_cons]
      congr 3
      omega
    · rw [getexecReads, if_neg (by simp [hc.first hprefix]), hfetch, List.mem_cons, List.mem_append] at hi
      simp only [List.length_append, List.length_replicate, List.length_cons] at hrest ⊢
      rcases hi with rfl | hi | hi
      · omega
      · have := hreads i hi
        omega
      · have := hrest i hi
        omega

theorem stage_of_getexecLoop (hat : At mem ps (t ++ [0])) (hrun : getexecLoop n k argv ps mem = some (argv', ps', mem'))
    (hreads : ∀ i ∈ getexecReads n k ps mem, i ≤ ps + t.length) :
    ∃ m t', Stage t m t' ∧ argv'.length = argv.length + m ∧ ps' + t'.length = ps + t.length := by
  induction k generalizing argv ps mem t with
  | zero => cases hrun
  | succ k ih =>
    rw [getexecLoop] at hrun
    rw [getexecReads] at hreads
    by_cases hstop : isStop (mem ps) = true
    · rw [if_pos hstop] at hrun
      simp only [Option.some.injEq, Prod.mk.injEq] at hrun
      obtain ⟨rfl, rfl, rfl⟩ := hrun
      exact ⟨0, t, .stop ((isStop_head_iff hat).mp hstop), rfl, rfl⟩
    · rw [if_neg hstop] at hrun hreads
      split at hrun
      · cases hrun
      · have hhead : ∀ c ∈ t.head?, isStop c = false := by
          intro c hc
          rw [at_head hat, hc] at hstop
          simpa using hstop
        have hne : t ≠ [] := by
          rintro rfl
          exact hstop ((isStop_head_iff hat).mpr fun c hc => absurd hc (Option.not_mem_none c))
        obtain ⟨⟨ps₁, mem₁⟩, hsome, hrun⟩ := Option.bind_eq_some_iff.mp hrun
        have hnext : ∀ i ∈ getexecReads n k ps₁ mem₁, i ≤ ps + t.length := by
          intro i hi
          apply hreads
          rw [hsome]
          exact List.mem_cons_of_mem _ (List.mem_append_right _ hi)
        obtain ⟨b, w, ⟨rfl, hc⟩ | ⟨c, t₂, rfl, hc⟩⟩ := chunk_cases hne hhead
        · -- The cursor is behind the NUL, and is looked at there.
          exfalso
          obtain ⟨hfetch, _⟩ := fetchtoken_chunk (n := n) hc hat
          rw [hsome] at hfetch
          split at hfetch
          · obtain ⟨rfl, _⟩ := Prod.mk.inj (Option.some.inj hfetch)
            cases k with
            | zero => cases hrun
            | succ k =>
              have := hnext _ List.mem_cons_self
              rw [List.length_append, List.length_replicate] at this
              omega
          · cases hfetch
        · have hprefix : At mem ps (List.replicate b blank ++ w ++ [c]) := by
            rw [List.append_assoc, List.cons_append] at hat
            exact at_snoc hat
          obtain ⟨hfetch, _⟩ := fetchtoken_chunk (n := n) hc hprefix
          rw [hsome] at hfetch
          split at hfetch
          · obtain ⟨rfl, rfl⟩ := Prod.mk.inj (Option.some.inj hfetch)
            simp only [List.length_append, List.length_replicate, List.length_cons] at hnext ⊢
            obtain ⟨m, t', hstage, hlen, hend⟩ := ih (at_next hat) hrun fun i hi => by
              have := hnext i hi
              omega
            refine ⟨m + 1, t', .round hc hstage, ?_, by omega⟩
            rw [hlen, List.length_append, List.length_singleton]
            omega
          · cases hfetch

theorem Stage.rest (h : Stage t m t') (hat : At mem ps (t ++ [0]))
    (hrun : Sbush.getexecLoop n k argv ps mem = some (argv', ps', mem')) (hend : ps' + t'.length = ps + t.length) :
    At mem' ps' (t' ++ [0]) := by
  obtain ⟨u, rfl, _⟩ := h.exists_append
  obtain ⟨_, _, hframe, _⟩ := getexecLoop_some hrun
  rw [List.length_append] at hend
  have hplace : ps + u.length = ps' := by omega
  rw [List.append_assoc, at_append, hplace] at hat
  exact hat.2.congr fun x hx _ => hframe x (.inr hx)

theorem at_behind_bar (hat : At mem ps (bar :: t ++ [0])) : At (Function.update mem ps 0) (ps + 1) (t ++ [0]) :=
  (at_cons.mp hat).2.congr fun x hx _ => Function.update_of_ne (by omega) _ _

theorem Stage.getexec (h : Stage t m t') (hat : At mem ps (t ++ [0])) (hroom : m ≤ maxArgs) (hn : t.length < n) :
    ∃ argv mem', getexec n ps mem = some (argv, ps + (t.length - t'.length), mem') ∧ argv.length = m ∧
      (∀ i ∈ getexecReads n n ps mem, ps ≤ i ∧ i ≤ ps + t.length) ∧
      At mem' (ps + (t.length - t'.length)) (t' ++ [0]) := by
  obtain ⟨u, rfl, hm⟩ := h.exists_append
  rw [List.length_append] at hn
  obtain ⟨argv, mem', hrun, hlen, hreads⟩ := h.getexecLoop hat
    (show ([] : List ℕ).length + m ≤ maxArgs by simpa using hroom) (by rwa [List.length_append]) (show m < n by omega)
  refine ⟨argv, mem', hrun, by simpa using hlen, hreads, h.rest hat hrun ?_⟩
  rw [List.length_append]
  omega

structure Command (n src : ℕ) (mem : ℕ → UInt8) (t t' : List UInt8) (argv : List ℕ) (src₁ : ℕ) (mem₁ : ℕ → UInt8) :
    Prop where
  run : ∀ k, getpipe n (k + 1) src mem =
    if mem₁ src₁ = bar then
      (getpipe n k (src₁ + 1) (Function.update mem₁ src₁ 0)).map fun (right, src, mem) => (.p (.e argv) right, src, mem)
    else some (.e argv, src₁, mem₁)
  place : src₁ + t'.length = src + t.length
  rest : At mem₁ src₁ (t' ++ [0])
  reads : ∀ k, ∀ i ∈ getpipeReads n (k + 1) src mem, (src ≤ i ∧ i ≤ src + t.length) ∨
    mem₁ src₁ = bar ∧ i ∈ getpipeReads n k (src₁ + 1) (Function.update mem₁ src₁ 0)

theorem Stage.command (h : Stage (t.dropWhile (· == blank)) m t') (hat : At mem src (t ++ [0])) (hroom : m ≤ maxArgs)
    (hn : t.length < n) : ∃ argv src₁ mem₁, Command n src mem t t' argv src₁ mem₁ ∧ argv.length = m ∧ src ≤ src₁ := by
  obtain ⟨i, hlen, hscan, hrest⟩ := scan_blanks (n := n) hat (by decide)
  rw [if_pos (by omega)] at hscan
  obtain ⟨argv, mem₁, hexec, hargv, hreads, hat₁⟩ := h.getexec hrest hroom (show _ < n by omega)
  obtain ⟨u, hu, _⟩ := h.exists_append
  rw [hu, List.length_append] at hlen hreads hexec hat₁
  have hplace : src + i + (u.length + t'.length - t'.length) = src + i + u.length := by omega
  rw [hplace] at hexec hat₁
  refine ⟨argv, _, mem₁, ⟨fun k => getpipe_succ hscan hexec, by omega, hat₁, fun k j hj => ?_⟩, hargv, by omega⟩
  rw [getpipeReads, hscan, List.mem_append] at hj
  rcases hj with hj | hj
  · exact .inl (scanReads_le hat rfl j hj)
  · rw [Option.elim_some, hexec, List.mem_append] at hj
    rcases hj with hj | hj
    · have := hreads j hj
      exact .inl (by omega)
    · rw [Option.elim_some, List.mem_cons] at hj
      rcases hj with rfl | hj
      · exact .inl (by omega)
      · split at hj
        · rename_i hbar
          exact .inr ⟨hbar, hj⟩
        · cases hj

theorem Closed.getpipe {ns : List ℕ} (h : Closed t ns) (hat : At mem src (t ++ [0]))
    (hroom : ∀ m ∈ ns, m ≤ maxArgs) (hn : t.length < n) (hk : ns.length ≤ k) :
    ∃ cmd src' mem', getpipe n k src mem = some (cmd, src', mem') ∧ cmd.argvs.map List.length = ns ∧
      src ≤ src' ∧ src' ≤ src + t.length ∧ ∀ i ∈ getpipeReads n k src mem, src ≤ i ∧ i ≤ src + t.length := by
  induction h generalizing src mem k with
  | @last t t' m h ht =>
    obtain ⟨k, rfl⟩ : ∃ j, k = j + 1 := ⟨k - 1, by simp at hk; omega⟩
    obtain ⟨argv, src₁, mem₁, hcmd, hargv, hle⟩ := h.command hat (hroom m List.mem_cons_self) hn
    have hbar : mem₁ src₁ ≠ bar := by
      rw [at_head hcmd.rest]
      cases t' with
      | nil => decide
      | cons d t' =>
        obtain rfl := ht d rfl
        exact (by decide : amp ≠ bar)
    have hplace := hcmd.place
    refine ⟨.e argv, src₁, mem₁, ?_, by simp [Cmd.argvs, hargv], hle, by omega, fun i hi => ?_⟩
    · rw [hcmd.run, if_neg hbar]
    · exact (hcmd.reads k i hi).resolve_right fun hi => hbar hi.1
  | @pipe t t' m ns h hrest ih =>
    obtain ⟨k, rfl⟩ : ∃ j, k = j + 1 := ⟨k - 1, by simp at hk; omega⟩
    obtain ⟨argv, src₁, mem₁, hcmd, hargv, hle⟩ := h.command hat (hroom m List.mem_cons_self) hn
    have hplace := hcmd.place
    rw [List.length_cons] at hplace
    have hbar : mem₁ src₁ = bar := (at_cons.mp hcmd.rest).1
    obtain ⟨right, src', mem', hrun, hargvs, hle', hlt', hreads⟩ := ih (at_behind_bar hcmd.rest)
      (fun m hm => hroom m (List.mem_cons_of_mem _ hm)) (by omega) (by simpa using hk)
    refine ⟨.p (.e argv) right, src', mem', ?_, by simp [Cmd.argvs, hargv, hargvs], by omega, by omega, fun i hi => ?_⟩
    · rw [hcmd.run, if_pos hbar, hrun]
      rfl
    · rcases hcmd.reads k i hi with hi | ⟨_, hi⟩
      · exact hi
      · have := hreads i hi
        omega

theorem closed_of_getpipe {cmd : Cmd ℕ} (h0 : 0 ∉ t) (hat : At mem src (t ++ [0]))
    (hrun : getpipe n k src mem = some (cmd, src', mem')) (hreads : ∀ i ∈ getpipeReads n k src mem, i ≤ src + t.length) :
    Closed t (cmd.argvs.map List.length) := by
  induction k generalizing src mem cmd t with
  | zero => cases hrun
  | succ k ih =>
    obtain ⟨ps, hscan, hnext⟩ := Option.bind_eq_some_iff.mp hrun
    obtain ⟨⟨argv, ps', mem₁⟩, hexec, -⟩ := Option.bind_eq_some_iff.mp hnext
    rw [getpipe_succ hscan hexec] at hrun
    rw [getpipeReads, hscan, Option.elim_some, hexec, Option.elim_some] at hreads
    obtain ⟨i, hlen, hscan', hrest⟩ := scan_blanks (n := n) hat (by decide)
    rw [hscan] at hscan'
    split at hscan'
    · obtain rfl := Option.some.inj hscan'
      obtain ⟨m, t', hstage, hargv, hend⟩ := stage_of_getexecLoop hrest hexec fun j hj => by
        have := hreads j (List.mem_append_right _ (List.mem_append_left _ hj))
        omega
      have hsub : t' ⊆ t := by
        obtain ⟨u, hu, _⟩ := hstage.exists_append
        exact fun c hc => (List.dropWhile_sublist _).subset (hu ▸ List.mem_append_right u hc)
      rw [List.length_nil, Nat.zero_add] at hargv
      have hat₁ : At mem₁ ps' (t' ++ [0]) := hstage.rest hrest hexec hend
      split at hrun
      · rename_i hbar
        obtain ⟨⟨right, src₂, mem₂⟩, hpipe, hcmd⟩ := Option.map_eq_some_iff.mp hrun
        simp only [Prod.mk.injEq] at hcmd
        obtain ⟨rfl, rfl, rfl⟩ := hcmd
        obtain ⟨t₂, rfl⟩ : ∃ t₂, t' = bar :: t₂ := by
          rw [at_head hat₁] at hbar
          cases t' with
          | nil => cases hbar
          | cons d t₂ => exact ⟨t₂, congrArg (· :: t₂) hbar⟩
        rw [List.length_cons] at hend
        have hbehind : ∀ j ∈ getpipeReads n k (ps' + 1) (Function.update mem₁ ps' 0), j ≤ ps' + 1 + t₂.length := by
          intro j hj
          dsimp only at hreads
          rw [if_pos hbar] at hreads
          have := hreads j (List.mem_append_right _ (List.mem_append_right _ (List.mem_cons_of_mem _ hj)))
          omega
        have hclosed := ih (fun hm => h0 (hsub (List.mem_cons_of_mem _ hm))) (at_behind_bar hat₁) hpipe hbehind
        simp only [Cmd.argvs, List.map_cons, List.singleton_append, hargv]
        exact .pipe hstage hclosed
      · rename_i hbar
        obtain ⟨rfl, -⟩ := Prod.mk.inj (Option.some.inj hrun)
        simp only [Cmd.argvs, List.map_cons, List.map_nil, hargv]
        refine .last hstage fun c hc => ?_
        have hstop := hstage.stops c hc
        have hc0 : c ≠ 0 := fun h => h0 (h ▸ hsub (List.mem_of_mem_head? hc))
        rw [at_head hat₁, hc, Option.getD_some] at hbar
        simpa [isStop, hc0, hbar] using hstop
    · cases hscan'

theorem Closed.length_le {ns : List ℕ} (h : Closed t ns) : ns.length ≤ t.length + 1 := by
  induction h with
  | last _ _ => simp
  | @pipe t t' m ns h _ ih =>
    obtain ⟨u, hu, _⟩ := h.exists_append
    have hle := (List.dropWhile_sublist (· == blank) (l := t)).length_le
    rw [hu, List.length_append, List.length_cons] at hle
    rw [List.length_cons]
    omega

end Stages

section Lines

variable {stale : ℕ → ℕ → ℕ} {line : List UInt8} {ns : List ℕ}

theorem keeps_of_closed (h : Closed line ns) (hns : ∀ k m, ns[k]? = some m → m ≤ maxArgs - 1 ∧ stale k m = 0) :
    Keeps stale line := by
  intro buf mem hat
  refine ⟨line.length + 1, fun n hn => ?_⟩
  have hroom : ∀ m ∈ ns, m ≤ maxArgs := by
    intro m hm
    obtain ⟨k, hk⟩ := List.getElem?_of_mem hm
    exact (hns k m hk).1.trans (Nat.sub_le _ _)
  obtain ⟨cmd, src, mem', hrun, hargvs, hle, hlt, hreads⟩ := h.getpipe hat hroom (show line.length < n by omega)
    (h.length_le.trans hn)
  refine ⟨fun i hi => ?_, ?_⟩
  · rw [parsecmdReads, hrun, List.mem_append, List.mem_append] at hi
    rcases hi with (hi | hi) | hi
    · exact scanReads_le hat rfl i hi
    · exact hreads i hi
    · obtain rfl := List.mem_singleton.mp hi
      exact ⟨hle, hlt⟩
  · have hwords : ∀ k argv, cmd.argvs[k]? = some argv → argv.length ≤ maxArgs - 1 ∧ stale k argv.length = 0 := by
      intro k argv hk
      apply hns
      rw [← hargvs, List.getElem?_map, hk]
      rfl
    obtain ⟨_, hframe⟩ := getpipe_some hrun
    rw [parsecmd, hrun, Option.map_some]
    dsimp only
    split
    · refine ⟨_, _, rfl, fun x hx => ?_, hwords⟩
      rw [Function.update_of_ne (by omega), hframe x (by omega)]
    · exact ⟨_, _, rfl, fun x hx => hframe x (by omega), hwords⟩

theorem closed_of_keeps (h0 : 0 ∉ line) (h : Keeps stale line) :
    ∃ ns, Closed line ns ∧ ∀ k m, ns[k]? = some m → m ≤ maxArgs - 1 ∧ stale k m = 0 := by
  have hat : At (put 0 (line ++ [0]) fun _ => 0) 0 (line ++ [0]) := at_put _ _ _
  obtain ⟨n, hn⟩ := h 0 _ hat
  obtain ⟨hreads, cmd, mem', hrun, -, hwords⟩ := hn n le_rfl
  obtain ⟨⟨cmd', src, mem₁⟩, hpipe, hcmd⟩ := Option.map_eq_some_iff.mp hrun
  have hargvs : cmd'.argvs = cmd.argvs := by
    dsimp only at hcmd
    split at hcmd <;> cases hcmd <;> rfl
  refine ⟨cmd'.argvs.map List.length, closed_of_getpipe h0 hat hpipe fun i hi => ?_, fun k m hk => ?_⟩
  · exact (hreads i (List.mem_append_left _ (List.mem_append_right _ hi))).2
  · rw [hargvs, List.getElem?_map, Option.map_eq_some_iff] at hk
    obtain ⟨argv, hk, rfl⟩ := hk
    exact hwords k argv hk

/-- The parser keeps to a line just when each word of it is ended by a blank or an operator, no command has ten words,
and the entry behind the last word of each command happens to be NULL. -/
theorem keeps_iff (h0 : 0 ∉ line) :
    Keeps stale line ↔ ∃ ns, Closed line ns ∧ ∀ k m, ns[k]? = some m → m ≤ maxArgs - 1 ∧ stale k m = 0 := by
  refine ⟨closed_of_keeps h0, ?_⟩
  rintro ⟨ns, hclosed, hns⟩
  exact keeps_of_closed hclosed hns

theorem keeps_spaced_word : Keeps (fun _ _ => 0) [108, 115, 32] := by
  have hchunk : Chunk 0 [108, 115] 32 := ⟨by decide +kernel, rfl, fun _ => by decide, nofun⟩
  apply (keeps_iff (by decide)).mpr
  refine ⟨[1], .last (.round hchunk (.stop nofun)) nofun, fun k m hm => ?_⟩
  obtain rfl := List.mem_singleton.mp (List.mem_of_getElem? hm)
  exact ⟨by decide, rfl⟩

theorem Word.not_closed {w : List UInt8} (h : Word w) : ¬ Closed w ns := by
  have hstage : ∀ {t t' m}, Stage t m t' → t ≠ w := by
    rintro _ t' _ hs rfl
    cases hs with
    | stop hstop =>
      obtain ⟨d, w, rfl⟩ := List.exists_cons_of_ne_nil h.ne
      have := h.plain d List.mem_cons_self
      rw [isEnd, hstop d rfl] at this
      cases this
    | @round b m v t _ c hc hs =>
      have := h.plain c (by simp)
      rw [hc.ends] at this
      cases this
  have hskip : w.dropWhile (· == blank) = w := by
    obtain ⟨d, w, rfl⟩ := List.exists_cons_of_ne_nil h.ne
    have hd := h.plain d List.mem_cons_self
    simp only [isEnd, Bool.or_eq_false_iff] at hd
    exact List.dropWhile_cons_of_neg (by simp [hd.2])
  intro hclosed
  cases hclosed with
  | last hs _ => exact hstage hs hskip
  | pipe hs _ => exact hstage hs hskip

theorem keeps_fails_on_word :
    3 ∈ parsecmdReads 9 0 (memory [108, 115, 0]) ∧ ∀ stale, ¬ Keeps stale [108, 115] := by
  refine ⟨by decide +kernel, fun stale h => ?_⟩
  obtain ⟨ns, hclosed, _⟩ := closed_of_keeps (by decide) h
  exact Word.not_closed ⟨by decide, by decide +kernel⟩ hclosed

end Lines

end Os506.Sbush
