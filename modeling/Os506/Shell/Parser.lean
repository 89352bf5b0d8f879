import Os506.Lib.Bytes
import Mathlib.Data.List.Forall2
import Mathlib.Data.List.TakeWhile

namespace Os506.Sbush

open Bytes

abbrev blank : UInt8 := 32

abbrev bar : UInt8 := 124

abbrev amp : UInt8 := 38

inductive Cmd (α : Type)
  | e (argv : List α)
  | p (left right : Cmd α)
  | b (cmd : Cmd α)
  deriving DecidableEq

def maxArgs : ℕ := 10

def isStop (c : UInt8) : Bool := c == bar || c == amp || c == 0

def isEnd (c : UInt8) : Bool := isStop c || c == blank

def scan (p : UInt8 → Bool) (mem : ℕ → UInt8) : ℕ → ℕ → Option ℕ
  | 0, _ => none
  | n + 1, q => if p (mem q) then scan p mem n (q + 1) else some q

def fetchtoken (n ps : ℕ) (mem : ℕ → UInt8) : Option (ℕ × (ℕ → UInt8)) :=
  (scan (· == blank) mem n ps).bind fun q =>
  (scan (fun c => !isEnd c) mem n q).map fun q =>
    (q + 1, if mem q = blank then Function.update mem q 0 else mem)

/-- The loop of `getexec`. An argument that does not fit into `argv` has no meaning. -/
def getexecLoop (n : ℕ) : ℕ → List ℕ → ℕ → (ℕ → UInt8) → Option (List ℕ × ℕ × (ℕ → UInt8))
  | 0, _, _, _ => none
  | k + 1, argv, ps, mem =>
    if isStop (mem ps) then some (argv, ps, mem)
    else if argv.length = maxArgs then none
    else (fetchtoken n ps mem).bind fun (ps', mem) => getexecLoop n k (argv ++ [ps]) ps' mem

def getexec (n src : ℕ) (mem : ℕ → UInt8) : Option (List ℕ × ℕ × (ℕ → UInt8)) := getexecLoop n n [] src mem

def getpipe (n : ℕ) : ℕ → ℕ → (ℕ → UInt8) → Option (Cmd ℕ × ℕ × (ℕ → UInt8))
  | 0, _, _ => none
  | k + 1, src, mem =>
    (scan (· == blank) mem n src).bind fun src =>
    (getexec n src mem).bind fun (argv, src, mem) =>
      if mem src = bar then
        (getpipe n k (src + 1) (Function.update mem src 0)).map fun (right, src, mem) => (.p (.e argv) right, src, mem)
      else some (.e argv, src, mem)

/-- The pointer `dst` to the end of the line has no effect. -/
def parsecmd (n buf : ℕ) (mem : ℕ → UInt8) : Option (Cmd ℕ × (ℕ → UInt8)) :=
  (getpipe n n buf mem).map fun (command, src, mem) =>
    if mem src = amp then (.b command, Function.update mem src 0) else (command, mem)

section Scan

variable {p : UInt8 → Bool} {mem : ℕ → UInt8} {n q : ℕ}

theorem scan_at {l : List UInt8} {c : UInt8} (h : At mem q (l ++ [c])) (hl : ∀ b ∈ l, p b = true) (hc : p c = false) :
    scan p mem n q = if l.length < n then some (q + l.length) else none := by
  induction l generalizing n q with
  | nil =>
    have hq : mem q = c := (at_cons.mp h).1
    cases n with
    | zero => rfl
    | succ n => simp [scan, hq, hc]
  | cons b l ih =>
    rw [List.cons_append, at_cons] at h
    cases n with
    | zero => rfl
    | succ n =>
      rw [scan, h.1, if_pos (hl b List.mem_cons_self), ih h.2 fun b hb => hl b (List.mem_cons_of_mem _ hb)]
      simp only [List.length_cons, Nat.add_lt_add_iff_right, Nat.add_assoc, Nat.add_comm 1]

theorem scan_some {q' : ℕ} (h : scan p mem n q = some q') : q ≤ q' ∧ p (mem q') = false := by
  induction n generalizing q with
  | zero => cases h
  | succ n ih =>
    rw [scan] at h
    split at h
    · have := ih h
      exact ⟨by omega, this.2⟩
    · obtain rfl := Option.some.inj h
      exact ⟨le_rfl, by simpa using ‹¬ p (mem q) = true›⟩

end Scan

structure Word (w : List UInt8) : Prop where
  ne : w ≠ []
  plain : ∀ c ∈ w, isEnd c = false

theorem Word.first {w l : List UInt8} {mem : ℕ → UInt8} {ps : ℕ} (hw : Word w) (h : At mem ps (w ++ l)) :
    isStop (mem ps) = false ∧ mem ps ≠ blank := by
  obtain ⟨b, w', rfl⟩ := List.exists_cons_of_ne_nil hw.ne
  have hb := hw.plain b List.mem_cons_self
  rw [List.cons_append, at_cons] at h
  simp only [isEnd, Bool.or_eq_false_iff, beq_eq_false_iff_ne] at hb
  rw [h.1]
  exact hb

section Tokens

variable {mem mem' : ℕ → UInt8} {n k ps ps' : ℕ} {argv argv' : List ℕ}

theorem fetchtoken_word {w : List UInt8} {c : UInt8} (hw : Word w) (h : At mem ps (w ++ [c])) (hc : isEnd c = true) :
    fetchtoken n ps mem = if w.length < n then
      some (ps + w.length + 1, if c = blank then Function.update mem (ps + w.length) 0 else mem) else none := by
  have hlast : mem (ps + w.length) = c := (at_cons.mp (at_append.mp h).2).1
  have hscan := scan_at (p := fun c => !isEnd c) (n := n) h (fun b hb => by simp [hw.plain b hb]) (by simp [hc])
  have hfirst : At mem ps ([] ++ [mem ps]) := rfl
  rw [fetchtoken, scan_at hfirst (fun _ hb => absurd hb List.not_mem_nil) (by simp [(hw.first h).2])]
  cases n with
  | zero => simp
  | succ n =>
    rw [if_pos (by simp), Option.bind_some]
    change (scan _ mem (n + 1) ps).map _ = _
    rw [hscan]
    split
    · rw [Option.map_some, hlast]
    · rfl

theorem fetchtoken_some (h : fetchtoken n ps mem = some (ps', mem')) :
    ps < ps' ∧ (∀ x, x + 1 ≠ ps' → mem' x = mem x) ∧ (mem ps = blank → ps + 1 < ps') := by
  obtain ⟨q, hq, h⟩ := Option.bind_eq_some_iff.mp h
  obtain ⟨r, hr, h⟩ := Option.map_eq_some_iff.mp h
  obtain ⟨rfl, rfl⟩ := Prod.mk.inj h
  obtain ⟨hle, hne⟩ := scan_some hq
  obtain ⟨hle', _⟩ := scan_some hr
  refine ⟨by omega, fun x hx => ?_, fun hblank => ?_⟩
  · split
    · exact Function.update_of_ne (by omega) _ _
    · rfl
  · have : ps ≠ q := by
      rintro rfl
      simp [hblank] at hne
    omega

theorem getexecLoop_some (h : getexecLoop n k argv ps mem = some (argv', ps', mem')) :
    ps ≤ ps' ∧ (∃ l, argv' = argv ++ l ∧ (l = [] → ps' = ps)) ∧ (∀ x, x < ps ∨ ps' ≤ x → mem' x = mem x) ∧
      isStop (mem ps') = true := by
  induction k generalizing argv ps mem with
  | zero => cases h
  | succ k ih =>
    rw [getexecLoop] at h
    split at h
    · simp only [Option.some.injEq, Prod.mk.injEq] at h
      obtain ⟨rfl, rfl, rfl⟩ := h
      exact ⟨le_rfl, ⟨[], by simp, fun _ => rfl⟩, fun _ _ => rfl, ‹_›⟩
    · split at h
      · cases h
      · obtain ⟨⟨ps₁, mem₁⟩, hfetch, h⟩ := Option.bind_eq_some_iff.mp h
        obtain ⟨hlt, hkeep, _⟩ := fetchtoken_some hfetch
        obtain ⟨hle, ⟨l, hl, _⟩, hframe, hstop⟩ := ih h
        refine ⟨by omega, ⟨ps :: l, by simpa using hl, fun he => by cases he⟩, fun x hx => ?_, ?_⟩
        · rw [hframe x (by omega), hkeep x (by omega)]
        · rwa [← hkeep ps' (by omega)]

end Tokens

def words (t : List UInt8) : List (List UInt8) := (t.splitOnP (· == blank)).filter (· ≠ [])

def spread (l : List (List UInt8)) : List UInt8 := l.flatMap (· ++ [blank])

def Spaced (t : List UInt8) : Prop := t.dropWhile (· == blank) = spread (words t)

section Words

variable {t t' w : List UInt8} {l : List (List UInt8)}

theorem words_append_blank (t t' : List UInt8) : words (t ++ blank :: t') = words t ++ words t' := by
  rw [words, List.splitOnP_append_cons t t' rfl, List.filter_append]
  rfl

theorem words_blank (t : List UInt8) : words (blank :: t) = words t := words_append_blank [] t

theorem words_word (hw : Word w) : words w = [w] := by
  have hblank : ∀ c ∈ w, (c == blank) = false := by
    intro c hc
    have := hw.plain c hc
    simp only [isEnd, Bool.or_eq_false_iff] at this
    exact this.2
  rw [words, List.splitOnP_eq_singleton hblank, List.filter_singleton]
  simp [hw.ne]

theorem words_dropWhile (t : List UInt8) : words (t.dropWhile (· == blank)) = words t := by
  induction t with
  | nil => rfl
  | cons c t ih =>
    rw [List.dropWhile_cons]
    split
    · rename_i hc
      rw [ih, ← words_blank, eq_of_beq hc]
    · rfl

def Plain (t : List UInt8) : Prop := ∀ c ∈ t, isStop c = false

theorem word_cases (h : Plain t) : t = [] ∨ (∃ t', t = blank :: t') ∨ Word t ∨
    ∃ w t', Word w ∧ t = w ++ blank :: t' := by
  cases t with
  | nil => exact .inl rfl
  | cons c t =>
    by_cases hc : c = blank
    · exact .inr (.inl ⟨t, by rw [hc]⟩)
    · have hword : ∀ w : List UInt8, w ≠ [] → blank ∉ w → (∀ b ∈ w, b ∈ c :: t) → Word w := by
        intro w hne hb hw
        refine ⟨hne, fun b hm => ?_⟩
        have hbb : b ≠ blank := fun he => hb (he ▸ hm)
        simp [isEnd, h b (hw b hm), hbb]
      by_cases ht : blank ∈ c :: t
      · obtain ⟨w, t', he, hw⟩ := List.eq_append_cons_of_mem ht
        refine .inr (.inr (.inr ⟨w, t', hword w ?_ hw fun b hb => ?_, he⟩))
        · rintro rfl
          exact hc (List.cons.inj he).1
        · rw [he]
          exact List.mem_append_left _ hb
      · exact .inr (.inr (.inl (hword _ (by simp) ht fun _ hb => hb)))

theorem word_of_mem_words {m : ℕ} (hm : t.length ≤ m) (h : Plain t) (hw : w ∈ words t) : Word w := by
  induction m generalizing t with
  | zero =>
    obtain rfl := List.eq_nil_of_length_eq_zero (Nat.le_zero.mp hm)
    cases hw
  | succ m ih =>
    rcases word_cases h with rfl | ⟨t', rfl⟩ | ht | ⟨v, t', hv, rfl⟩
    · cases hw
    · rw [words_blank] at hw
      exact ih (by simpa using hm) (fun c hc => h c (List.mem_cons_of_mem _ hc)) hw
    · rw [words_word ht, List.mem_singleton] at hw
      exact hw ▸ ht
    · rw [words_append_blank, words_word hv] at hw
      rw [List.length_append, List.length_cons] at hm
      rcases List.mem_cons.mp hw with rfl | hw
      · exact hv
      · exact ih (by omega) (fun c hc => h c (by simp [hc])) hw

theorem Plain.words (h : Plain t) : ∀ w ∈ words t, Word w := fun _ hw => word_of_mem_words le_rfl h hw

theorem spread_cons (w : List UInt8) (l : List (List UInt8)) : spread (w :: l) = w ++ blank :: spread l := by
  rw [spread, List.flatMap_cons, List.append_assoc]
  rfl

theorem length_strings_eq (l : List (List UInt8)) : (strings l).length = (spread l).length := by
  induction l with
  | nil => rfl
  | cons w l ih =>
    simp only [strings_cons, spread_cons, List.length_append, ih, List.length_cons, List.length_nil]
    omega

end Words

section Stages

variable {mem mem' fin : ℕ → UInt8} {n k ps ps' : ℕ} {argv argv' : List ℕ} {t : List UInt8} {c : UInt8}

theorem getexecLoop_spread (argv : List ℕ) {l : List (List UInt8)} (hl : ∀ w ∈ l, Word w) (h : At mem ps (spread l))
    (hroom : argv.length + l.length ≤ maxArgs) (hn : (spread l).length ≤ n) :
    getexecLoop n (k + l.length) argv ps mem =
      getexecLoop n k (argv ++ pointers ps l) (ps + (spread l).length) (put ps (strings l) mem) := by
  induction l generalizing argv ps mem with
  | nil => simp [pointers, spread, strings, put]
  | cons w l ih =>
    have hw := hl w List.mem_cons_self
    rw [spread_cons] at h hn ⊢
    rw [List.length_cons] at hroom
    rw [List.length_append, List.length_cons] at hn
    have hsplit : w ++ blank :: spread l = (w ++ [blank]) ++ spread l := by simp
    obtain ⟨hword, hrest⟩ := at_append.mp (hsplit ▸ h)
    have hfirst := (hw.first hword).1
    have hput : put ps (w ++ [0]) mem = Function.update mem (ps + w.length) 0 := by
      rw [put_append, put_eq_self (at_append.mp hword).1]
      rfl
    rw [List.length_cons, ← Nat.add_assoc, getexecLoop, if_neg (by simp [hfirst]), if_neg (by omega),
      fetchtoken_word hw hword rfl, if_pos (by omega), if_pos rfl, Option.bind_some]
    dsimp only
    rw [← hput, ih _ (fun w hw => hl w (List.mem_cons_of_mem _ hw)) _ (by simp; omega) (by omega)]
    · rw [strings_cons, put_append (l := w ++ [0]), pointers]
      simp only [List.append_assoc, List.length_append, List.length_cons, List.length_nil, List.singleton_append,
        Nat.add_assoc, Nat.add_comm 1, Nat.zero_add]
    · rw [List.length_append, List.length_singleton, ← Nat.add_assoc] at hrest
      apply hrest.congr
      intro x hx _
      apply put_of_ge
      rw [List.length_append, List.length_singleton]
      omega

theorem getexecLoop_reads (pre : List (List UInt8)) (hat : At mem ps (t ++ [c])) (ht : Plain t) (hc : isStop c = true)
    (hrun : getexecLoop n k argv ps mem = some (argv', ps', mem')) (hfin : ∀ x < ps', fin x = mem' x)
    (hlen : argv.length = pre.length)
    (hreads : List.Forall₂ (fun p w => At fin p (w ++ [0])) argv' (pre ++ words t)) :
    (t = spread (words t) ∧ ps' = ps + t.length) ∨
      (c = 0 ∧ t ++ [blank] = spread (words t) ∧ ps' = ps + t.length + 1) := by
  -- What the loop adds to `argv` are the words of `t`.
  have hadd : ∀ {argv : List ℕ} {pre ws : List (List UInt8)} {l : List ℕ}, argv.length = pre.length →
      List.Forall₂ (fun p w => At fin p (w ++ [0])) (argv ++ l) (pre ++ ws) →
      List.Forall₂ (fun p w => At fin p (w ++ [0])) l ws := by
    intro argv pre ws l hlen h
    have := List.forall₂_drop argv.length h
    rwa [List.drop_left, hlen, List.drop_left] at this
  induction k generalizing argv ps mem t pre with
  | zero => cases hrun
  | succ k ih =>
    rw [getexecLoop] at hrun
    rcases word_cases ht with rfl | ⟨t', rfl⟩ | hw | ⟨w, t', hw, rfl⟩
    · -- an empty rest
      have hps : mem ps = c := (at_cons.mp hat).1
      rw [hps, if_pos hc] at hrun
      simp only [Option.some.injEq, Prod.mk.injEq] at hrun
      exact .inl ⟨rfl, hrun.2.1.symm⟩
    · -- a second blank would be part of an argument
      exfalso
      have hps : mem ps = blank := (at_cons.mp hat).1
      rw [hps, if_neg (by decide)] at hrun
      split at hrun
      · cases hrun
      · obtain ⟨⟨ps₁, mem₁⟩, hfetch, hrun⟩ := Option.bind_eq_some_iff.mp hrun
        obtain ⟨_, hkeep, hnext⟩ := fetchtoken_some hfetch
        obtain ⟨hle, ⟨l, rfl, _⟩, hframe, _⟩ := getexecLoop_some hrun
        have hlt := hnext hps
        rw [List.append_assoc] at hreads
        obtain ⟨w, ws, hw, -, hwords⟩ := List.forall₂_cons_left_iff.mp (hadd hlen hreads)
        have hword := ht.words w (by rw [hwords]; exact List.mem_cons_self)
        apply (hword.first hw).2
        rw [hfin ps (by omega), hframe ps (.inl (by omega)), hkeep ps (by omega), hps]
    · -- the last word: its string ends where the stage does
      have hend : isEnd c = true := by simp [isEnd, hc]
      have hne : c ≠ blank := by
        rintro rfl
        cases hc
      have hlast : mem (ps + t.length) = c := (at_cons.mp (at_append.mp hat).2).1
      rw [(hw.first hat).1, if_neg (by decide)] at hrun
      split at hrun
      · cases hrun
      · rw [fetchtoken_word hw hat hend, if_neg hne] at hrun
        split at hrun
        · rw [Option.bind_some] at hrun
          obtain ⟨hle, ⟨l, rfl, hstop⟩, hframe, _⟩ := getexecLoop_some hrun
          rw [List.append_assoc] at hreads
          obtain ⟨w, ws, hstr, hl, hwords⟩ := List.forall₂_cons_left_iff.mp (hadd hlen hreads)
          rw [words_word hw, List.cons.injEq] at hwords
          obtain ⟨rfl, rfl⟩ := hwords
          obtain rfl := List.forall₂_nil_right_iff.mp hl
          have hzero : fin (ps + t.length) = 0 := (at_cons.mp (at_append.mp hstr).2).1
          rw [hfin _ (by omega), hframe _ (.inl (by omega)), hlast] at hzero
          refine .inr ⟨hzero, ?_, hstop rfl⟩
          rw [words_word hw, spread_cons]
          rfl
        · cases hrun
    · -- a word and its blank
      have hsplit : w ++ blank :: t' ++ [c] = w ++ [blank] ++ (t' ++ [c]) := by simp
      obtain ⟨hword, hrest⟩ := at_append.mp (hsplit ▸ hat)
      rw [(hw.first hword).1, if_neg (by decide)] at hrun
      split at hrun
      · cases hrun
      · rw [fetchtoken_word hw hword rfl, if_pos rfl] at hrun
        split at hrun
        · rw [Option.bind_some] at hrun
          rw [words_append_blank, words_word hw, ← List.append_assoc] at hreads
          rw [List.length_append, List.length_singleton, ← Nat.add_assoc] at hrest
          have hrest' : At (Function.update mem (ps + w.length) 0) (ps + w.length + 1) (t' ++ [c]) :=
            hrest.congr fun x hx _ => Function.update_of_ne (by omega) _ _
          have hstage := ih _ hrest' (fun b hb => ht b (by simp [hb])) hrun (by simp [hlen]) hreads
          rw [words_append_blank, words_word hw, List.singleton_append, spread_cons, List.length_append, List.length_cons]
          rcases hstage with ⟨he, hps⟩ | ⟨hzero, he, hps⟩
          · exact .inl ⟨by rw [← he], by omega⟩
          · exact .inr ⟨hzero, by rw [← he]; simp, by omega⟩
        · cases hrun

theorem length_le_spread (l : List (List UInt8)) : l.length ≤ (spread l).length := by
  induction l with
  | nil => exact Nat.zero_le _
  | cons w l ih =>
    rw [spread_cons, List.length_append, List.length_cons, List.length_cons]
    omega

theorem getexec_spread (ht : Plain t) (hat : At mem ps (t ++ [c])) (hc : isStop c = true) (hs : t = spread (words t))
    (hshort : (words t).length ≤ 9) (hn : t.length < n) :
    ∃ argv mem', getexec n ps mem = some (argv, ps + t.length, mem') ∧
      ∀ fin : ℕ → UInt8, (∀ x < ps + t.length, fin x = mem' x) →
        List.Forall₂ (fun p w => At fin p (w ++ [0])) argv (words t) := by
  obtain ⟨htext, hlast⟩ := at_append.mp hat
  have hlen := length_le_spread (words t)
  have hlen' := length_strings_eq (words t)
  rw [← hs] at hlen hlen'
  obtain ⟨k, hk⟩ : ∃ k, n = k + 1 + (words t).length := ⟨n - 1 - (words t).length, by omega⟩
  have hrun := getexecLoop_spread (n := n) (k := k + 1) [] ht.words (hs ▸ htext)
    (by simp only [maxArgs, List.length_nil]; omega) (hs ▸ hn.le)
  rw [← hk, ← hs, List.nil_append, getexecLoop, put_of_ge (by omega), (at_cons.mp hlast).1, if_pos hc] at hrun
  refine ⟨_, _, hrun, fun fin hfin => at_strings ((at_put ps (strings (words t)) mem).congr fun x _ hx => ?_)⟩
  exact hfin x (by omega)

theorem getexec_last (ht : Plain t) (hat : At mem ps (t ++ [0])) (hstop : isStop (mem (ps + t.length + 1)) = true)
    (hs : t ++ [blank] = spread (words t)) (hshort : (words t).length ≤ 9) (hn : t.length + 1 < n) :
    ∃ argv mem', getexec n ps mem = some (argv, ps + t.length + 1, mem') ∧
      ∀ fin : ℕ → UInt8, (∀ x < ps + t.length + 1, fin x = mem' x) →
        List.Forall₂ (fun p w => At fin p (w ++ [0])) argv (words t) := by
  have hwords := ht.words
  obtain ⟨l, w, hl⟩ : ∃ l w, words t = l ++ [w] := by
    rcases List.eq_nil_or_concat' (words t) with hl | hl
    · rw [hl] at hs
      cases t <;> cases hs
    · exact hl
  rw [hl] at hs hwords hshort ⊢
  have htext : t = spread l ++ w := by
    have hsplit : spread (l ++ [w]) = spread l ++ w ++ [blank] := by simp [spread]
    exact List.append_cancel_right (hs.trans hsplit)
  have hw := hwords w (by simp)
  have hlen := length_le_spread l
  have hlen' := length_strings_eq l
  have hsum : t.length = (spread l).length + w.length := by rw [htext, List.length_append]
  rw [htext, List.append_assoc, at_append] at hat
  rw [List.length_append, List.length_singleton] at hshort
  obtain ⟨k, hk⟩ : ∃ k, n = k + 1 + 1 + l.length := ⟨n - 2 - l.length, by omega⟩
  have hrun := getexecLoop_spread (n := n) (k := k + 1 + 1) [] (fun w hw => hwords w (by simp [hw])) hat.1
    (by simp only [maxArgs, List.length_nil]; omega) (by omega)
  have hlast : At (put ps (strings l) mem) (ps + (spread l).length) (w ++ [0]) :=
    hat.2.congr fun x hx _ => put_of_ge (by omega)
  have hroom : (pointers ps l).length ≠ maxArgs := by
    rw [length_pointers, maxArgs]
    omega
  have hnext : put ps (strings l) mem (ps + (spread l).length + w.length + 1) = mem (ps + t.length + 1) := by
    rw [hsum, put_of_ge (by omega), Nat.add_assoc ps]
  rw [← hk, List.nil_append, getexecLoop, (hw.first hlast).1, if_neg (by decide), if_neg hroom,
    fetchtoken_word hw hlast rfl, if_pos (by omega), if_neg (by decide), Option.bind_some] at hrun
  dsimp only at hrun
  rw [getexecLoop, hnext, if_pos hstop] at hrun
  have hps : ps + (spread l).length + w.length + 1 = ps + t.length + 1 := by omega
  rw [hps] at hrun
  refine ⟨_, _, hrun, fun fin hfin => List.rel_append (at_strings ?_) (.cons ?_ .nil)⟩
  · exact (at_put ps (strings l) mem).congr fun x _ hx => hfin x (by omega)
  · apply hlast.congr
    intro x _ hx
    rw [List.length_append, List.length_singleton] at hx
    exact hfin x (by omega)

end Stages

def Cmd.Rel {α β : Type} (r : α → β → Prop) : Cmd α → Cmd β → Prop
  | .e argv, .e argv' => List.Forall₂ r argv argv'
  | .p left right, .p left' right' => left.Rel r left' ∧ right.Rel r right'
  | .b cmd, .b cmd' => cmd.Rel r cmd'
  | _, _ => False

def stages (body : List UInt8) : List (List UInt8) := body.splitOnP (· == bar)

def pipeline : List (List UInt8) → Cmd (List UInt8)
  | [] => .e []
  | [t] => .e (words t)
  | t :: l => .p (.e (words t)) (pipeline l)

def Neat (e : Prop) : List (List UInt8) → Prop
  | [] => True
  | [t] => Spaced t ∨ (e ∧ Spaced (t ++ [blank]))
  | t :: l => Spaced t ∧ Neat e l

section Pipes

variable {mem mem' fin : ℕ → UInt8} {n k src src' : ℕ} {body : List UInt8} {c : UInt8} {cmd : Cmd ℕ}

theorem stages_cases (body : List UInt8) : (bar ∉ body ∧ stages body = [body]) ∨
    ∃ t body', bar ∉ t ∧ body = t ++ bar :: body' ∧ stages body = t :: stages body' ∧ stages body' ≠ [] := by
  have hsingle : ∀ t : List UInt8, bar ∉ t → stages t = [t] := by
    intro t ht
    apply List.splitOnP_eq_singleton
    intro b hb
    exact beq_eq_false_iff_ne.mpr fun he => ht (he ▸ hb)
  by_cases h : bar ∈ body
  · obtain ⟨t, body', he, ht⟩ := List.eq_append_cons_of_mem h
    refine .inr ⟨t, body', ht, he, ?_, ?_⟩
    · rw [he, stages, List.splitOnP_append_cons t body' rfl]
      exact congrArg (· ++ stages body') (hsingle t ht)
    · exact List.splitOnP_ne_nil _ _
  · exact .inl ⟨h, hsingle body h⟩

theorem getpipe_some (h : getpipe n k src mem = some (cmd, src', mem')) :
    src ≤ src' ∧ ∀ x, x < src ∨ src' ≤ x → mem' x = mem x := by
  induction k generalizing src mem cmd with
  | zero => cases h
  | succ k ih =>
    obtain ⟨ps, hps, h⟩ := Option.bind_eq_some_iff.mp h
    obtain ⟨⟨argv, ps', mem₁⟩, hexec, h⟩ := Option.bind_eq_some_iff.mp h
    obtain ⟨hle, _⟩ := scan_some hps
    obtain ⟨hle', _, hframe, _⟩ := getexecLoop_some hexec
    dsimp only at h
    split at h
    · obtain ⟨⟨right, src₂, mem₂⟩, hpipe, h⟩ := Option.map_eq_some_iff.mp h
      simp only [Prod.mk.injEq] at h
      obtain ⟨-, rfl, rfl⟩ := h
      obtain ⟨hle₂, hkeep⟩ := ih hpipe
      refine ⟨by omega, fun x hx => ?_⟩
      rw [hkeep x (by omega), Function.update_of_ne (by omega), hframe x (by omega)]
    · simp only [Option.some.injEq, Prod.mk.injEq] at h
      obtain ⟨-, rfl, rfl⟩ := h
      exact ⟨by omega, fun x hx => hframe x (by omega)⟩

theorem at_snoc {l l' : List UInt8} {d : UInt8} (h : At mem src (l ++ d :: l')) : At mem src (l ++ [d]) := by
  obtain ⟨hl, hd⟩ := at_append.mp h
  exact at_append.mpr ⟨hl, at_cons.mpr ⟨(at_cons.mp hd).1, rfl⟩⟩

theorem scan_blanks {t : List UInt8} {d : UInt8} {l : List UInt8} (h : At mem src (t ++ d :: l)) (hd : d ≠ blank) :
    ∃ i, t.length = i + (t.dropWhile (· == blank)).length ∧
      scan (· == blank) mem n src = (if i < n then some (src + i) else none) ∧
      At mem (src + i) (t.dropWhile (· == blank) ++ d :: l) := by
  have hsplit := List.takeWhile_append_dropWhile (p := (· == blank)) (l := t)
  refine ⟨(t.takeWhile (· == blank)).length, ?_, ?_, ?_⟩
  · conv_lhs => rw [← hsplit]
    exact List.length_append
  · obtain ⟨b, l', hb, hblank⟩ : ∃ b l', t.dropWhile (· == blank) ++ d :: l = b :: l' ∧ (b == blank) = false := by
      cases ht : t.dropWhile (· == blank) with
      | nil => exact ⟨d, l, rfl, by simpa using hd⟩
      | cons b t' =>
        have := List.head_dropWhile_not (· == blank) (l := t) (by simp [ht])
        simp only [ht, List.head_cons] at this
        exact ⟨b, t' ++ d :: l, rfl, this⟩
    rw [← hsplit, List.append_assoc, hb] at h
    exact scan_at (at_snoc h) (fun b hb => List.mem_takeWhile_imp (p := (· == blank)) hb) hblank
  · rw [← hsplit, List.append_assoc] at h
    exact (at_append.mp h).2

theorem spaced_snoc {t : List UInt8} (hne : t.dropWhile (· == blank) ≠ []) :
    Spaced (t ++ [blank]) ↔ t.dropWhile (· == blank) ++ [blank] = spread (words t) := by
  have hwords : words (t ++ [blank]) = words t := by
    rw [words_append_blank]
    exact List.append_nil _
  have hdrop : (t ++ [blank]).dropWhile (· == blank) = t.dropWhile (· == blank) ++ [blank] := by
    rw [List.dropWhile_append, if_neg (by simpa using hne)]
  rw [Spaced, hwords, hdrop]

theorem plain_dropWhile {t : List UInt8} (h : Plain t) : Plain (t.dropWhile (· == blank)) :=
  fun b hb => h b ((List.dropWhile_sublist _).subset hb)

theorem neat_cons {e : Prop} {t : List UInt8} {l : List (List UInt8)} (hl : l ≠ []) :
    Neat e (t :: l) ↔ Spaced t ∧ Neat e l := by
  cases l with
  | nil => exact absurd rfl hl
  | cons u l => rfl

theorem pipeline_cons {t : List UInt8} {l : List (List UInt8)} (hl : l ≠ []) :
    pipeline (t :: l) = .p (.e (words t)) (pipeline l) := by
  cases l with
  | nil => exact absurd rfl hl
  | cons u l => rfl

theorem getpipe_succ {ps ps' : ℕ} {argv : List ℕ} (hscan : scan (· == blank) mem n src = some ps)
    (hexec : getexec n ps mem = some (argv, ps', mem')) : getpipe n (k + 1) src mem =
      if mem' ps' = bar then
        (getpipe n k (ps' + 1) (Function.update mem' ps' 0)).map fun (right, src, mem) => (.p (.e argv) right, src, mem)
      else some (.e argv, ps', mem') := by
  rw [getpipe, hscan, Option.bind_some, hexec, Option.bind_some]

theorem getpipe_spaced {t l : List UInt8} (ht : Plain t) (hat : At mem src (t ++ c :: l)) (hc : isStop c = true)
    (hs : Spaced t) (hshort : (words t).length ≤ 9) (hn : t.length + 1 < n) :
    ∃ argv mem₁, (getpipe n (k + 1) src mem =
      if c = bar then (getpipe n k (src + t.length + 1) (Function.update mem₁ (src + t.length) 0)).map
        fun (right, src, mem) => (.p (.e argv) right, src, mem)
      else some (.e argv, src + t.length, mem₁)) ∧ (∀ x, src + t.length ≤ x → mem₁ x = mem x) ∧
      ∀ fin : ℕ → UInt8, (∀ x < src + t.length, fin x = mem₁ x) →
        List.Forall₂ (fun p w => At fin p (w ++ [0])) argv (words t) := by
  have hne : c ≠ blank := by
    rintro rfl
    cases hc
  obtain ⟨i, hlen, hscan, hrest⟩ := scan_blanks (n := n) hat hne
  rw [if_pos (by omega)] at hscan
  obtain ⟨argv, mem₁, hexec, hfin⟩ := getexec_spread (n := n) (plain_dropWhile ht) (at_snoc hrest) hc
    (by rw [words_dropWhile]; exact hs) (by rwa [words_dropWhile]) (by omega)
  have hps : src + i + (t.dropWhile (· == blank)).length = src + t.length := by omega
  rw [hps] at hexec hfin
  rw [words_dropWhile] at hfin
  obtain ⟨_, _, hframe, _⟩ := getexecLoop_some hexec
  have hlast : mem₁ (src + t.length) = c := by
    rw [hframe _ (.inr le_rfl)]
    exact (at_cons.mp (at_append.mp hat).2).1
  exact ⟨argv, mem₁, by rw [getpipe_succ hscan hexec, hlast], fun x hx => hframe x (.inr hx), hfin⟩

theorem plain_of_bar (hplain : ∀ b ∈ body, b ≠ 0 ∧ b ≠ amp) {t : List UInt8} (hb : bar ∉ t) (hsub : ∀ b ∈ t, b ∈ body) :
    Plain t := by
  intro b hm
  have hbb : b ≠ bar := fun he => hb (he ▸ hm)
  simp [isStop, hbb, hplain b (hsub b hm)]

theorem getpipe_ok (hat : At mem src (body ++ [c])) (hc : c = 0 ∨ c = amp) (hplain : ∀ b ∈ body, b ≠ 0 ∧ b ≠ amp)
    (hshort : ∀ t ∈ stages body, (words t).length ≤ 9) (hk : body.length < k) (hn : body.length + 1 < n)
    (hneat : Neat (c = 0 ∧ mem (src + body.length + 1) = 0) (stages body)) :
    ∃ cmd src' mem', getpipe n k src mem = some (cmd, src', mem') ∧ mem' src' = c ∧
      ∀ fin : ℕ → UInt8, (∀ x < src', fin x = mem' x) →
        cmd.Rel (fun p w => At fin p (w ++ [0])) (pipeline (stages body)) := by
  have hstop : isStop c = true := by rcases hc with rfl | rfl <;> rfl
  have hbar : c ≠ bar := by rcases hc with rfl | rfl <;> decide
  induction k generalizing body src mem with
  | zero => omega
  | succ k ih =>
    rcases stages_cases body with ⟨hb, hst⟩ | ⟨t, body', hb, rfl, hst, hne⟩
    · have ht := plain_of_bar hplain hb fun _ h => h
      rw [hst] at hneat hshort ⊢
      have hwords := hshort body (by simp)
      by_cases hs : Spaced body
      · obtain ⟨argv, mem₁, hrun, hkeep, hfin⟩ := getpipe_spaced (k := k) ht hat hstop hs hwords hn
        rw [if_neg hbar] at hrun
        exact ⟨_, _, _, hrun, (hkeep _ le_rfl).trans (at_cons.mp (at_append.mp hat).2).1, hfin⟩
      · obtain ⟨⟨rfl, hnext⟩, hs'⟩ := hneat.resolve_left hs
        have hdrop : body.dropWhile (· == blank) ≠ [] := by
          intro he
          apply hs
          rw [Spaced, ← words_dropWhile, he]
          rfl
        obtain ⟨i, hlen, hscan, hrest⟩ := scan_blanks (n := n) hat (by decide)
        rw [if_pos (by omega)] at hscan
        have hplace : src + i + (body.dropWhile (· == blank)).length + 1 = src + body.length + 1 := by omega
        obtain ⟨argv, mem₁, hexec, hfin⟩ := getexec_last (n := n) (plain_dropWhile ht) hrest
          (by rw [hplace, hnext]; rfl) (by rw [words_dropWhile]; exact (spaced_snoc hdrop).mp hs')
          (by rwa [words_dropWhile]) (by omega)
        obtain ⟨_, _, hframe, _⟩ := getexecLoop_some hexec
        rw [hplace] at hexec hfin hframe
        rw [words_dropWhile] at hfin
        have hlast : mem₁ (src + body.length + 1) = 0 := (hframe _ (.inr le_rfl)).trans hnext
        refine ⟨.e argv, _, _, ?_, hlast, hfin⟩
        rw [getpipe_succ hscan hexec, hlast, if_neg (by decide)]
    · rw [hst] at hneat hshort
      obtain ⟨hs, hneat⟩ := (neat_cons hne).mp hneat
      have ht := plain_of_bar hplain hb fun b hb => List.mem_append_left _ hb
      have htext : t ++ bar :: body' ++ [c] = t ++ bar :: (body' ++ [c]) := by simp
      rw [htext] at hat
      rw [List.length_append, List.length_cons] at hk hn hneat
      obtain ⟨argv, mem₁, hrun, hkeep, hfin⟩ := getpipe_spaced (n := n) (k := k) ht hat rfl hs (hshort t (by simp))
        (by omega)
      rw [if_pos rfl] at hrun
      have hkeep' : ∀ x, src + t.length + 1 ≤ x → Function.update mem₁ (src + t.length) 0 x = mem x := by
        intro x hx
        rw [Function.update_of_ne (by omega), hkeep x (by omega)]
      have hrest : At (Function.update mem₁ (src + t.length) 0) (src + t.length + 1) (body' ++ [c]) :=
        (at_cons.mp (at_append.mp hat).2).2.congr fun x hx _ => hkeep' x hx
      have hplace : src + t.length + 1 + body'.length + 1 = src + (t.length + (body'.length + 1)) + 1 := by omega
      obtain ⟨cmd, src', mem', hpipe, hlast, hrel⟩ := ih hrest (fun b hb => hplain b (by simp [hb]))
        (fun t ht => hshort t (List.mem_cons_of_mem _ ht)) (by omega) (by omega)
        (by rw [hkeep' _ (by omega), hplace]; exact hneat)
      obtain ⟨hle, hbelow⟩ := getpipe_some hpipe
      rw [hpipe] at hrun
      refine ⟨_, _, _, hrun, hlast, fun fin hagree => ?_⟩
      rw [hst, pipeline_cons hne]
      refine ⟨hfin fin fun x hx => ?_, hrel fin hagree⟩
      rw [hagree x (by omega), hbelow x (by omega), Function.update_of_ne (by omega)]

theorem getpipe_neat (hat : At mem src (body ++ [c])) (hc : c = 0 ∨ c = amp) (hplain : ∀ b ∈ body, b ≠ 0 ∧ b ≠ amp)
    (hrun : getpipe n k src mem = some (cmd, src', mem')) (hfin : ∀ x < src', fin x = mem' x)
    (hamp : c = 0 → mem' src' ≠ amp)
    (hrel : cmd.Rel (fun p w => At fin p (w ++ [0])) (pipeline (stages body))) :
    Neat (c = 0 ∧ mem (src + body.length + 1) = 0) (stages body) := by
  have hstop : isStop c = true := by rcases hc with rfl | rfl <;> rfl
  induction k generalizing body src mem cmd with
  | zero => cases hrun
  | succ k ih =>
    obtain ⟨ps, hscan, hrun⟩ := Option.bind_eq_some_iff.mp hrun
    obtain ⟨⟨argv, ps', mem₁⟩, hexec, hrun⟩ := Option.bind_eq_some_iff.mp hrun
    obtain ⟨hle, _, hframe, hend⟩ := getexecLoop_some hexec
    dsimp only at hrun
    -- What the stage `t` before the byte `d` looks like, if its strings are right.
    have hstage : ∀ {t l : List UInt8} {d : UInt8}, Plain t → At mem src (t ++ d :: l) → isStop d = true →
        (∀ x < ps', fin x = mem₁ x) → List.Forall₂ (fun p w => At fin p (w ++ [0])) argv (words t) →
        (Spaced t ∧ ps' = src + t.length) ∨ (d = 0 ∧ Spaced (t ++ [blank]) ∧ ps' = src + t.length + 1) := by
      intro t l d ht hat hd hagree hargv
      have hdne : d ≠ blank := by
        rintro rfl
        cases hd
      obtain ⟨i, hlen, hscan', hrest⟩ := scan_blanks (n := n) hat hdne
      have hps : ps = src + i := by
        rw [hscan'] at hscan
        split at hscan
        · exact (Option.some.inj hscan).symm
        · cases hscan
      have hat' : At mem ps (t.dropWhile (· == blank) ++ [d]) := by
        rw [hps]
        exact at_snoc hrest
      have hreads := getexecLoop_reads [] hat' (plain_dropWhile ht) hd hexec hagree rfl
        (by rw [words_dropWhile]; exact hargv)
      rw [words_dropWhile] at hreads
      rcases hreads with ⟨hs, hend⟩ | ⟨hzero, hs, hend⟩
      · exact .inl ⟨hs, by omega⟩
      · refine .inr ⟨hzero, (spaced_snoc fun he => ?_).mpr hs, by omega⟩
        rw [he, ← words_dropWhile, he] at hs
        cases hs
    rcases stages_cases body with ⟨hb, hst⟩ | ⟨t, body', hb, rfl, hst, hne⟩
    · have ht := plain_of_bar hplain hb fun _ h => h
      rw [hst] at hrel ⊢
      split at hrun
      · obtain ⟨⟨right, src₂, mem₂⟩, _, hrun⟩ := Option.map_eq_some_iff.mp hrun
        simp only [Prod.mk.injEq] at hrun
        obtain ⟨rfl, -, -⟩ := hrun
        exact hrel.elim
      · rename_i hnbar
        simp only [Option.some.injEq, Prod.mk.injEq] at hrun
        obtain ⟨rfl, rfl, rfl⟩ := hrun
        rcases hstage ht hat hstop hfin hrel with ⟨hs, _⟩ | ⟨rfl, hs, rfl⟩
        · exact .inl hs
        · refine .inr ⟨⟨rfl, ?_⟩, hs⟩
          have hnamp := hamp rfl
          rw [hframe _ (.inr le_rfl)] at hnbar hnamp
          simpa [isStop, hnbar, hnamp] using hend
    · have ht := plain_of_bar hplain hb fun b hb => List.mem_append_left _ hb
      have htext : t ++ bar :: body' ++ [c] = t ++ bar :: (body' ++ [c]) := by simp
      rw [htext] at hat
      rw [hst, pipeline_cons hne] at hrel
      rw [hst, neat_cons hne]
      split at hrun
      · obtain ⟨⟨right, src₂, mem₂⟩, hpipe, hrun⟩ := Option.map_eq_some_iff.mp hrun
        simp only [Prod.mk.injEq] at hrun
        obtain ⟨rfl, rfl, rfl⟩ := hrun
        obtain ⟨hle', hbelow⟩ := getpipe_some hpipe
        have hagree : ∀ x < ps', fin x = mem₁ x := by
          intro x hx
          rw [hfin x (by omega), hbelow x (by omega), Function.update_of_ne (by omega)]
        rcases hstage ht hat rfl hagree hrel.1 with ⟨hs, rfl⟩ | ⟨hzero, _⟩
        · have hkeep' : ∀ x, src + t.length + 1 ≤ x → Function.update mem₁ (src + t.length) 0 x = mem x := by
            intro x hx
            rw [Function.update_of_ne (by omega), hframe x (.inr (by omega))]
          have hrest : At (Function.update mem₁ (src + t.length) 0) (src + t.length + 1) (body' ++ [c]) :=
            (at_cons.mp (at_append.mp hat).2).2.congr fun x hx _ => hkeep' x hx
          have hneat := ih hrest (fun b hb => hplain b (by simp [hb])) hpipe hrel.2
          rw [hkeep' _ (by omega)] at hneat
          refine ⟨hs, ?_⟩
          rw [List.length_append, List.length_cons]
          convert hneat using 5
          omega
        · cases hzero
      · simp only [Option.some.injEq, Prod.mk.injEq] at hrun
        obtain ⟨rfl, -, -⟩ := hrun
        exact hrel.elim

theorem not_rel_background {r : ℕ → List UInt8 → Prop} {l : List (List UInt8)} (h : (Cmd.b cmd).Rel r (pipeline l)) :
    False := by
  match l, h with
  | [], h => exact h
  | [_], h => exact h
  | _ :: _ :: _, h => exact h

theorem getpipe_foreground {r : ℕ → List UInt8 → Prop} {cmd' : Cmd (List UInt8)}
    (hrun : getpipe n k src mem = some (cmd, src', mem')) (h : cmd.Rel r (.b cmd')) : False := by
  cases k with
  | zero => cases hrun
  | succ k =>
    obtain ⟨ps, _, hrun⟩ := Option.bind_eq_some_iff.mp hrun
    obtain ⟨⟨argv, ps', mem₁⟩, _, hrun⟩ := Option.bind_eq_some_iff.mp hrun
    dsimp only at hrun
    split at hrun
    · obtain ⟨⟨right, src₂, mem₂⟩, _, hrun⟩ := Option.map_eq_some_iff.mp hrun
      obtain ⟨rfl, _⟩ := Prod.mk.inj hrun
      exact h
    · obtain ⟨rfl, _⟩ := Prod.mk.inj (Option.some.inj hrun)
      exact h

end Pipes

/-- A command line: stages separated by `|`, of at most nine words, and perhaps an `&` at the end. -/
structure Line where
  body : List UInt8
  background : Bool
  plain : ∀ b ∈ body, b ≠ 0 ∧ b ≠ amp
  short : ∀ t ∈ stages body, (words t).length ≤ 9

namespace Line

def text (line : Line) : List UInt8 := line.body ++ if line.background then [amp] else []

def tree (line : Line) : Cmd (List UInt8) :=
  if line.background then .b (pipeline (stages line.body)) else pipeline (stages line.body)

def Parsed (line : Line) (buf : ℕ) (mem : ℕ → UInt8) : Prop :=
  ∃ n cmd mem', parsecmd n buf mem = some (cmd, mem') ∧ cmd.Rel (fun p w => At mem' p (w ++ [0])) line.tree

/-- One blank follows each word. The last word of a line without `&` may end the line, if a second NUL follows. -/
def Tidy (line : Line) (next : UInt8) : Prop := Neat (line.background = false ∧ next = 0) (stages line.body)

variable {line : Line} {buf : ℕ} {mem : ℕ → UInt8}

def last (line : Line) : UInt8 := if line.background then amp else 0

theorem at_body (h : At mem buf (line.text ++ [0])) : At mem buf (line.body ++ [line.last]) := by
  rw [text, List.append_assoc] at h
  rw [last]
  cases hb : line.background with
  | false => simpa [hb] using h
  | true =>
    rw [hb] at h
    exact at_snoc h

theorem neat_iff : Neat (line.last = 0 ∧ mem (buf + line.body.length + 1) = 0) (stages line.body) ↔
    line.Tidy (mem (buf + line.text.length + 1)) := by
  rw [Tidy, last, text]
  cases hb : line.background with
  | false => simp
  | true =>
    have : amp ≠ 0 := by decide
    simp [this]

theorem parsed_of_tidy (h : At mem buf (line.text ++ [0])) (ht : line.Tidy (mem (buf + line.text.length + 1))) :
    line.Parsed buf mem := by
  have hlast : line.last = 0 ∨ line.last = amp := by
    rw [last]
    split <;> simp
  obtain ⟨cmd, src, mem', hrun, hend, hrel⟩ := getpipe_ok (k := line.body.length + 2) (n := line.body.length + 2)
    (at_body h) hlast line.plain line.short (by omega) (by omega) (neat_iff.mpr ht)
  refine ⟨line.body.length + 2, ?_⟩
  rw [parsecmd, hrun, Option.map_some]
  dsimp only
  rw [hend, last, tree]
  cases line.background with
  | false => exact ⟨_, _, rfl, hrel _ fun _ _ => rfl⟩
  | true => exact ⟨_, _, rfl, hrel _ fun x hx => Function.update_of_ne (by omega) _ _⟩

theorem tidy_of_parsed (h : At mem buf (line.text ++ [0])) (hp : line.Parsed buf mem) :
    line.Tidy (mem (buf + line.text.length + 1)) := by
  have hlast : line.last = 0 ∨ line.last = amp := by
    rw [last]
    split <;> simp
  obtain ⟨n, cmd, fin, hrun, hrel⟩ := hp
  obtain ⟨⟨cmd, src, mem'⟩, hpipe, hrun⟩ := Option.map_eq_some_iff.mp hrun
  have hneat : ∀ hfin : ∀ x < src, fin x = mem' x, (line.last = 0 → mem' src ≠ amp) →
      cmd.Rel (fun p w => At fin p (w ++ [0])) (pipeline (stages line.body)) →
      line.Tidy (mem (buf + line.text.length + 1)) :=
    fun hfin hamp hrel => neat_iff.mp (getpipe_neat (at_body h) hlast line.plain hpipe hfin hamp hrel)
  rw [tree] at hrel
  rw [last] at hneat
  dsimp only at hrun
  split at hrun
  · obtain ⟨rfl, rfl⟩ := Prod.mk.inj hrun
    cases hb : line.background with
    | false =>
      rw [hb] at hrel
      exact (not_rel_background hrel).elim
    | true =>
      rw [hb] at hrel hneat
      exact hneat (fun x hx => Function.update_of_ne (by omega) _ _) (fun h => absurd h (by decide)) hrel
  · rename_i hne
    obtain ⟨rfl, rfl⟩ := Prod.mk.inj hrun
    cases hb : line.background with
    | false =>
      rw [hb] at hrel hneat
      exact hneat (fun _ _ => rfl) (fun _ => hne) hrel
    | true =>
      rw [hb] at hrel
      exact (getpipe_foreground hpipe hrel).elim

theorem parsed_iff (h : At mem buf (line.text ++ [0])) :
    line.Parsed buf mem ↔ line.Tidy (mem (buf + line.text.length + 1)) :=
  ⟨tidy_of_parsed h, parsed_of_tidy h⟩

end Line

instance (t : List UInt8) : Decidable (Spaced t) := inferInstanceAs (Decidable (_ = _))

instance Neat.decide (e : Prop) [Decidable e] : (l : List (List UInt8)) → Decidable (Neat e l)
  | [] => inferInstanceAs (Decidable True)
  | [t] => inferInstanceAs (Decidable (Spaced t ∨ (e ∧ Spaced (t ++ [blank]))))
  | t :: u :: l =>
    have := Neat.decide e (u :: l)
    inferInstanceAs (Decidable (Spaced t ∧ Neat e (u :: l)))

instance (line : Line) (next : UInt8) : Decidable (line.Tidy next) := inferInstanceAs (Decidable (Neat _ _))

def memory (l : List UInt8) : ℕ → UInt8 := put 0 l fun _ => 0

def listing : Line := ⟨[108, 115, 32, 45, 108, 32, 124, 32, 119, 99, 32], true, by decide +kernel, by decide +kernel⟩

theorem parsed_listing : listing.Parsed 0 (memory (listing.text ++ [0])) := by
  apply (Line.parsed_iff (at_put _ _ _)).mpr
  decide +kernel

def tight : Line := ⟨[97, 124, 98], false, by decide +kernel, by decide +kernel⟩

theorem parsecmd_misses_bar :
    (parsecmd 9 0 (memory (tight.text ++ [0]))).map (fun r => (r.1, peek r.2 0 4)) = some (.e [0, 2], [97, 124, 98, 0]) ∧
      ¬ tight.Parsed 0 (memory (tight.text ++ [0])) := by
  refine ⟨by decide +kernel, fun hp => ?_⟩
  exact absurd (Line.tidy_of_parsed (at_put _ _ _) hp) (by decide +kernel)

end Os506.Sbush
