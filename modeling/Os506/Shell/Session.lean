import Os506.Shell.Bounds
import Os506.Libc.Malloc
import Os506.Libc.Stdio
import Os506.Terminal.Keyboard

namespace Os506.Sbush

open Bytes Run Terminal Screen

inductive Event
  | print (text : List UInt8)
  | execvpe (argv : List (List UInt8))
  deriving DecidableEq

def chars (s : String) : List UInt8 := s.toList.map fun c => UInt8.ofNat c.toNat

def say (fmt : String) (args : List Arg) : Event :=
  .print (((Libc.printf (fun _ => 0) (chars fmt ++ [0]) args []).map Prod.snd).getD [])

def prompt : Event := say "sbunix > " []

def welcomeMessage : List Event :=
  [say "\n*******************************\n" [], say "       SBU Shell\n" [],
    say "*******************************\n" [], say "\n\n" []]

/-- The size of `buf` in `main`. The loops of the parser are followed for that many rounds. -/
def bufSize : ℕ := 100

def textAt (mem : ℕ → UInt8) (p : ℕ) : List UInt8 := PsBuf.cString (peek mem p bufSize)

def getcmd (line : List UInt8) (mem : ℕ → UInt8) : ℕ → UInt8 :=
  Function.update (put 0 line (put 0 (List.replicate 50 0) mem)) line.length 0

/-- What the kernel does for the shell and its children: the answer of `execvpe`, if it returns, the break of the shell,
whether the fork for a line makes a child, and the status that `wait` stores then. -/
structure Services where
  execvpe : List (List UInt8) → Option ℤ
  brk : ℕ
  forks : ℕ → Bool
  status : ℕ → BitVec 64

def sayAddr (fmt : String) (a : ℕ) : Event := say fmt [⟨BitVec.ofNat 64 a, []⟩]

/-- What `malloc` prints for `n` bytes with the break at `brk`, and the break it leaves. A child inherits no block and
frees none, so that each call comes to `sbrk`. -/
def grow (n brk : ℕ) : List Event × ℕ :=
  let p := Malloc.malignUp ((brk + (n + 24)) % 2 ^ 64)
  ([sayAddr "prev is %p\n" brk, sayAddr "new brk is %p\n" p], p)

def formed {α : Type} : Cmd α → ℕ → List Event × ℕ
  | .e _, brk =>
    let (out, brk') := grow 88 brk
    (sayAddr "%p\n" brk :: out, brk')
  | .p left right, brk =>
    let (first, brk) := formed left brk
    let (second, brk) := formed right brk
    let (out, brk) := grow 24 brk
    (first ++ second ++ out, brk)
  | .b cmd, brk =>
    let (first, brk) := formed cmd brk
    let (out, brk) := grow 16 brk
    (first ++ out, brk)

section Model

variable (k : Services)

def execute (argv : List (List UInt8)) : List Event × Bool :=
  match k.execvpe argv with
  | none => ([.execvpe argv], false)
  | some ret =>
    (.execvpe argv ::
      if ret < 0 then [say "error code: %d\n" [⟨BitVec.ofInt 64 ret, []⟩], say "failed to execute %s\n" [⟨0, argv.headD []⟩]]
      else [], true)

/-- The cases for a pipe and for a background command are comments. -/
def runcmd (mem : ℕ → UInt8) : Cmd ℕ → List Event × Bool
  | .e argv => execute k (argv.map (textAt mem))
  | _ => ([say "don't know what to run\n" []], true)

def child (mem : ℕ → UInt8) : Option (List Event × Bool) :=
  (parsecmd bufSize 0 mem).map fun (command, mem) =>
    let (ran, exits) := runcmd k mem command
    ((formed command k.brk).1 ++ ran, exits)

inductive Phase
  | reading
  | exited
  | waiting
  deriving DecidableEq

structure Shell where
  mem : ℕ → UInt8
  log : List Event
  lines : ℕ
  phase : Phase

/-- The string `exit_cmd` stands behind `buf`. -/
def exitCmd : ℕ := 4096

/-- One round of the loop in `main`, from the return of `read` to the next prompt. A child that exits has printed all it
prints before `wait` returns. -/
def Shell.round (line : List UInt8) (s : Shell) : Option Shell :=
  let mem := getcmd line s.mem
  (scan (· == blank) mem bufSize 0).bind fun ptr =>
  (Libc.strncmp (put exitCmd (chars "exit" ++ [0]) mem) bufSize ptr exitCmd 4).bind fun r =>
    let echoed := s.log ++ [say "command is %s\n" [⟨0, textAt mem 0⟩]]
    if r = 0 then some ⟨mem, echoed ++ [say "exiting the shell\n" []], s.lines + 1, .exited⟩
    else if k.forks s.lines = false then
      some ⟨mem, echoed ++ [say "ERROR: forking failed\n" []], s.lines + 1, .exited⟩
    else (child k mem).map fun (ran, exits) =>
      if exits then
        ⟨mem, echoed ++ (ran ++ [say "Process exited with status %d\n" [⟨k.status s.lines, []⟩], prompt]), s.lines + 1,
          .reading⟩
      else ⟨mem, echoed ++ ran, s.lines + 1, .waiting⟩

structure Host where
  console : Console
  shell : Shell

inductive HostOp
  | key (scancode : BitVec 8)
  | turn

/-- `sys_read` waits while there is no line. What becomes of the shell when a child has become another program is not
followed. -/
def HostOp.step : HostOp → Host → Option Host
  | .key scancode, x => ((ConsoleOp.key scancode).step x.console).map fun c => { x with console := c }
  | .turn, x => match x.shell.phase with
    | .exited => some x
    | .waiting => none
    | .reading =>
      if (x.console.session.term.termRead 50).1 < 0 then some x
      else ((ConsoleOp.read 50).step x.console).bind fun c =>
        (x.shell.round k (x.console.session.term.termRead 50).2.1).map (Host.mk c)

def Host.start (mem : ℕ → UInt8) : Host := ⟨⟨⟨false, false⟩, .init⟩, ⟨mem, welcomeMessage ++ [prompt], 0, .reading⟩⟩

end Model

def body (line : List UInt8) : List UInt8 := line.takeWhile (· != amp)

structure Tidy (line : List UInt8) : Prop where
  short : line.length ≤ 48
  text : 0 ∉ line
  neat : Neat (amp ∉ line) (stages (body line))
  words : ∀ t ∈ stages (body line), (words t).length ≤ 9

instance (line : List UInt8) : Decidable (Tidy line) :=
  decidable_of_iff (line.length ≤ 48 ∧ 0 ∉ line ∧ Neat (amp ∉ line) (stages (body line)) ∧
      ∀ t ∈ stages (body line), (words t).length ≤ 9)
    ⟨fun ⟨h, h', h'', h'''⟩ => ⟨h, h', h'', h'''⟩, fun h => ⟨h.short, h.text, h.neat, h.words⟩⟩

def Exits (line : List UInt8) : Prop := chars "exit" <+: line.dropWhile (· == blank)

instance (line : List UInt8) : Decidable (Exits line) := inferInstanceAs (Decidable (_ <+: line.dropWhile (· == blank)))

def parsed (line : List UInt8) : Cmd (List UInt8) :=
  if amp ∈ line then .b (pipeline (stages (body line))) else pipeline (stages (body line))

section Spec

variable (k : Services)

def outcome (line : List UInt8) : List Event × Bool :=
  let (ran, exits) :=
    if amp ∈ line ∨ bar ∈ line then ([say "don't know what to run\n" []], true) else execute k (words line)
  ((formed (parsed line) k.brk).1 ++ ran, exits)

def transcript (line : List UInt8) (n : ℕ) : List Event :=
  say "command is %s\n" [⟨0, line⟩] ::
    if Exits line then [say "exiting the shell\n" []]
    else if k.forks n = false then [say "ERROR: forking failed\n" []]
    else (outcome k line).1 ++
      if (outcome k line).2 then [say "Process exited with status %d\n" [⟨k.status n, []⟩], prompt] else []

def phaseAfter (line : List UInt8) (n : ℕ) : Phase :=
  if Exits line ∨ k.forks n = false then .exited else if (outcome k line).2 then .reading else .waiting

end Spec

section Line

variable {line w : List UInt8} {mem : ℕ → UInt8} {k : Services}

theorem getcmd_at (mem : ℕ → UInt8) (h : line.length ≤ 48) :
    At (getcmd line mem) 0 (line ++ [0]) ∧ getcmd line mem (line.length + 1) = 0 := by
  have hzero : ∀ x < 50, put 0 (List.replicate 50 0) mem x = 0 := by
    intro x hx
    have hget := (at_put 0 (List.replicate 50 0) mem).get (i := x) (by rwa [List.length_replicate])
    rwa [List.getElem_replicate, Nat.zero_add] at hget
  constructor
  · rw [at_append, at_cons, Nat.zero_add]
    refine ⟨?_, Function.update_self .., rfl⟩
    apply (at_put 0 line _).congr
    intro x _ hx
    exact Function.update_of_ne (by omega) _ _
  · rw [getcmd, Function.update_of_ne (by omega), put_of_ge (by omega)]
    exact hzero _ (by omega)

theorem textAt_eq {p : ℕ} (h : At mem p (w ++ [0])) (h0 : 0 ∉ w) (hlen : w.length < bufSize) : textAt mem p = w := by
  obtain ⟨k, hk⟩ : ∃ k, bufSize = (w ++ [0]).length + k := ⟨bufSize - (w.length + 1), by simp; omega⟩
  have hw : ∀ c ∈ w, (c != 0) = true := fun c hc => bne_iff_ne.mpr fun he => h0 (he ▸ hc)
  rw [textAt, hk, peek_add, h, PsBuf.cString, List.append_assoc, List.takeWhile_append_of_pos hw]
  simp

theorem map_textAt {argv : List ℕ} {ws : List (List UInt8)} (h : List.Forall₂ (fun p w => At mem p (w ++ [0])) argv ws)
    (hws : ∀ w ∈ ws, 0 ∉ w ∧ w.length < bufSize) : argv.map (textAt mem) = ws := by
  induction h with
  | nil => rfl
  | cons hp _ ih =>
    rw [List.forall_mem_cons] at hws
    rw [List.map_cons, textAt_eq hp hws.1.1 hws.1.2, ih hws.2]

theorem schar_injective {c d : UInt8} (h : Libc.schar c = Libc.schar d) : c = d := by
  rw [← Libc.ofInt_schar c, h, Libc.ofInt_schar]

theorem strncmp_exit {p q : ℕ} (hp : At mem p (w ++ [0])) (hq : At mem q (chars "exit" ++ [0])) (h0 : 0 ∉ w)
    (hlen : w.length < bufSize) :
    ∃ r, Libc.strncmp mem bufSize p q 4 = some r ∧ (r = 0 ↔ chars "exit" <+: w) := by
  by_cases he : w = chars "exit"
  · refine ⟨0, Libc.strncmpLoop_self (he ▸ hp) hq (by decide +kernel) (by decide +kernel), ?_⟩
    simp [he]
  obtain ⟨k, hk⟩ := Libc.exists_differ h0 (by decide +kernel) he
  have hlast : (4 - 0 - 1 : BitVec 32).toNat = 3 := by decide
  have hfour : (chars "exit").length = 4 := by decide +kernel
  have hkl : k < bufSize := by
    by_contra hge
    refine hk.ne ?_
    rw [List.getD_eq_default _ _ (by omega), List.getD_eq_default _ _ (by rw [hfour]; rw [bufSize] at hge; omega)]
  refine ⟨_, Libc.strncmpLoop_of_differ hk hp hq h0 hkl, ?_⟩
  rw [hlast]
  split
  case isTrue hle =>
    have hne : Libc.schar ((chars "exit").getD k 0) - Libc.schar (w.getD k 0) ≠ 0 := by
      intro hz
      exact hk.ne (schar_injective (by omega))
    refine iff_of_false hne fun hpre => hk.ne ?_
    obtain ⟨r, rfl⟩ := hpre
    rw [List.getD_append _ _ _ _ (by omega)]
  case isFalse hgt =>
    refine iff_of_true rfl ?_
    have htake : w.take 4 = chars "exit" := by
      have := congrArg (List.take 4) hk.same
      rwa [List.take_take, List.take_take, Nat.min_eq_left (by omega), ← hfour, List.take_length] at this
    rw [← htake]
    exact List.take_prefix 4 w

theorem formed_rel {r : ℕ → List UInt8 → Prop} {cmd : Cmd ℕ} {tree : Cmd (List UInt8)} (h : cmd.Rel r tree) (brk : ℕ) :
    formed cmd brk = formed tree brk := by
  induction cmd generalizing tree brk with
  | e argv =>
    cases tree with
    | e argv' => rfl
    | p | b => exact h.elim
  | p left right ihl ihr =>
    cases tree with
    | p left' right' =>
      rw [formed, formed, ihl h.1]
      cases formed left' brk
      dsimp only
      rw [ihr h.2]
    | e | b => exact h.elim
  | b cmd ih =>
    cases tree with
    | b cmd' => rw [formed, formed, ih (show cmd.Rel r cmd' from h)]
    | e | p => exact h.elim

theorem length_lt_spread {l : List (List UInt8)} (h : w ∈ l) : w.length < (spread l).length := by
  induction l with
  | nil => cases h
  | cons v l ih =>
    rw [spread_cons, List.length_append, List.length_cons]
    rcases List.mem_cons.mp h with rfl | h
    · omega
    · have := ih h
      omega

theorem length_word_le {e : Prop} (h : Neat e [line]) (hw : w ∈ words line) : w.length ≤ line.length := by
  have hlt := length_lt_spread hw
  have hdrop : ∀ t : List UInt8, (t.dropWhile (· == blank)).length ≤ t.length := fun t =>
    (List.dropWhile_sublist _).length_le
  rcases h with h | ⟨-, h⟩
  · have := hdrop line
    rw [h] at this
    omega
  · have := hdrop (line ++ [blank])
    rw [h, words_append_blank, List.length_append, List.length_singleton] at this
    have hwords : words line ++ words [] = words line := List.append_nil _
    rw [hwords] at this
    omega

theorem body_of_notMem (h : amp ∉ line) : body line = line := by
  apply List.takeWhile_eq_self_iff.mpr
  intro c hc
  exact bne_iff_ne.mpr fun he => h (he ▸ hc)

theorem at_body_end (h : At mem 0 (line ++ [0])) : At mem 0 (body line ++ [if amp ∈ line then amp else 0]) := by
  split
  case isTrue hmem =>
    obtain ⟨l, l', rfl, hl⟩ := List.eq_append_cons_of_mem hmem
    have hbody : body (l ++ amp :: l') = l := by
      have hall : ∀ c ∈ l, (c != amp) = true := fun c hc => bne_iff_ne.mpr fun he => hl (he ▸ hc)
      rw [body, List.takeWhile_append_of_pos hall, List.takeWhile_cons_of_neg (by decide), List.append_nil]
    rw [hbody]
    rw [List.append_assoc] at h
    exact at_snoc h
  case isFalse hmem => rwa [body_of_notMem hmem]

theorem Tidy.neat_ended (ht : Tidy line) (hnext : mem (line.length + 1) = 0) :
    Neat ((if amp ∈ line then amp else 0) = 0 ∧ mem (0 + (body line).length + 1) = 0) (stages (body line)) := by
  have hiff : ((if amp ∈ line then amp else 0) = 0 ∧ mem (0 + (body line).length + 1) = 0) = (amp ∉ line) := by
    apply propext
    by_cases hmem : amp ∈ line
    · rw [if_pos hmem]
      exact iff_of_false (fun hc => absurd hc.1 (by decide)) (not_not.mpr hmem)
    · rw [if_neg hmem, body_of_notMem hmem, Nat.zero_add]
      exact iff_of_true ⟨rfl, hnext⟩ hmem
  rw [hiff]
  exact ht.neat

theorem Tidy.plain (ht : Tidy line) (hamp : amp ∉ line) (hbar : bar ∉ line) : Plain line := by
  intro c hc
  have h0 : c ≠ 0 := fun he => ht.text (he ▸ hc)
  have h1 : c ≠ amp := fun he => hamp (he ▸ hc)
  have h2 : c ≠ bar := fun he => hbar (he ▸ hc)
  simp [isStop, h0, h1, h2]

theorem map_textAt_words {e : Prop} {argv : List ℕ} (ht : Tidy line) (hamp : amp ∉ line) (hbar : bar ∉ line)
    (hneat : Neat e [line]) (h : List.Forall₂ (fun p w => At mem p (w ++ [0])) argv (words line)) :
    argv.map (textAt mem) = words line := by
  apply map_textAt h
  intro w hw
  have hle := length_word_le hneat hw
  have hshort := ht.short
  have hword := (ht.plain hamp hbar).words w hw
  exact ⟨fun h0 => absurd (hword.plain 0 h0) (by decide), by rw [bufSize]; omega⟩

theorem child_eq (ht : Tidy line) (h : At mem 0 (line ++ [0])) (hnext : mem (line.length + 1) = 0) :
    child k mem = some (outcome k line) := by
  have hsub : ∀ b ∈ body line, b ∈ line := fun b hb => (List.takeWhile_prefix _).subset hb
  have hlen : (body line).length ≤ 48 := ((List.takeWhile_prefix _).length_le).trans ht.short
  have hplain : ∀ b ∈ body line, b ≠ 0 ∧ b ≠ amp := fun b hb =>
    ⟨fun he => ht.text (he ▸ hsub b hb), bne_iff_ne.mp (List.mem_takeWhile_imp (p := (· != amp)) hb)⟩
  obtain ⟨cmd, src, mem', hrun, hend, hrel⟩ := getpipe_ok (n := bufSize) (k := bufSize) (at_body_end h)
    (by split <;> simp) hplain ht.words (by rw [bufSize]; omega) (by rw [bufSize]; omega) (ht.neat_ended hnext)
  have hrel := hrel mem' fun _ _ => rfl
  rw [child, parsecmd, hrun, Option.map_some, Option.map_some, outcome, parsed]
  dsimp only
  rw [hend]
  by_cases hamp : amp ∈ line
  · rw [if_pos hamp, if_pos hamp, if_pos rfl, if_pos (.inl hamp)]
    dsimp only
    rw [formed, formed, formed_rel hrel]
    rfl
  · rw [if_neg hamp, if_neg hamp, if_neg (by decide)]
    dsimp only
    rw [formed_rel hrel]
    rw [body_of_notMem hamp] at hrel ⊢
    rcases stages_cases line with ⟨hbar, hone⟩ | ⟨t, rest, -, hsplit, hmore, hne⟩
    · rw [if_neg (not_or.mpr ⟨hamp, hbar⟩)]
      rw [hone] at hrel
      cases cmd with
      | p | b => exact hrel.elim
      | e argv =>
        have hneat := ht.neat
        rw [body_of_notMem hamp, hone] at hneat
        rw [runcmd, map_textAt_words ht hamp hbar hneat hrel]
    · have hbar : bar ∈ line := by rw [hsplit]; simp
      rw [if_pos (.inr hbar)]
      rw [hmore, pipeline_cons hne] at hrel
      cases cmd with
      | e | b => exact hrel.elim
      | p left right => rfl

theorem round_eq (ht : Tidy line) (s : Shell) : s.round k line =
    some ⟨getcmd line s.mem, s.log ++ transcript k line s.lines, s.lines + 1, phaseAfter k line s.lines⟩ := by
  obtain ⟨hat, hnext⟩ := getcmd_at s.mem ht.short
  have hshort := ht.short
  set mem := getcmd line s.mem with hmem
  obtain ⟨i, hi, hscan, hatptr⟩ := scan_blanks (n := bufSize) hat (by decide)
  have hexit : At (put exitCmd (chars "exit" ++ [0]) mem) (0 + i) (line.dropWhile (· == blank) ++ [0]) := by
    apply hatptr.congr
    intro x _ hx
    rw [List.length_append, List.length_singleton] at hx
    exact put_of_lt (by rw [exitCmd]; omega)
  have htext : textAt mem 0 = line := textAt_eq hat ht.text (by rw [bufSize]; omega)
  obtain ⟨r, hr, hiff⟩ := strncmp_exit hexit (at_put ..)
    (fun h0 => ht.text ((List.dropWhile_sublist _).subset h0)) (by rw [bufSize]; omega)
  rw [Shell.round, ← hmem, hscan, if_pos (by rw [bufSize]; omega), Option.bind_some, hr, Option.bind_some]
  dsimp only
  rw [htext, transcript, phaseAfter, child_eq ht hat hnext]
  by_cases he : Exits line
  · rw [if_pos (hiff.mpr he), if_pos he, if_pos (.inl he), List.append_assoc]
    rfl
  rw [if_neg fun hz => he (hiff.mp hz), if_neg he]
  by_cases hf : k.forks s.lines = false
  · rw [if_pos hf, if_pos hf, if_pos (.inr hf), List.append_assoc]
    rfl
  rw [if_neg hf, if_neg hf, if_neg (not_or.mpr ⟨he, hf⟩), Option.map_some]
  cases (outcome k line).2 <;> simp

end Line

section Reading

variable {t : Terminal}

def IsLine (l : List UInt8) : Prop := ∃ l' d, l = l' ++ [d] ∧ isDelim d = true ∧ ∀ c ∈ l', isDelim c = false

def firstLine (l : List UInt8) : List UInt8 := l.take (lineLength l)

theorem firstLine_isLine {l : List UInt8} (h : l.any isDelim = true) : IsLine (firstLine l) := by
  induction l with
  | nil => cases h
  | cons c l ih =>
    cases hc : isDelim c with
    | true =>
      refine ⟨[], c, ?_, hc, fun _ hb => absurd hb List.not_mem_nil⟩
      simp [firstLine, lineLength, hc]
    | false =>
      rw [List.any_cons, hc, Bool.false_or] at h
      obtain ⟨l', d, heq, hd, hfree⟩ := ih h
      refine ⟨c :: l', d, ?_, hd, ?_⟩
      · rw [firstLine, lineLength, List.takeWhile_cons_of_pos (by simp [hc]), List.length_cons, List.take_succ_cons,
          List.cons_append, ← heq, firstLine, lineLength]
      · rw [List.forall_mem_cons]
        exact ⟨hc, hfree⟩

theorem termRead_line (h : t.Inv) (hc : t.count ≠ 0) (hlen : (firstLine t.queue).length ≤ 48) :
    ∃ t', t.termRead 50 = (((firstLine t.queue).length : ℤ), firstLine t.queue, t') ∧
      t.queue = firstLine t.queue ++ t'.queue ∧ IsLine (firstLine t.queue) := by
  have hany : t.queue.any isDelim = true := by
    rw [← Bool.not_eq_false]
    exact fun hd => hc ((count_eq_zero h).mpr (.inl hd))
  rcases termRead_spec h (show 50 ≠ 0 by decide) with ⟨-, hz⟩ | ⟨bytes, t', hr, -, -, hsplit, -⟩
  · exact absurd hz hc
  have hbytes : bytes = (t.readLoop 51).1 := by
    rw [termRead, if_neg (by decide), if_neg hc] at hr
    exact (congrArg (fun r => r.2.1) hr).symm
  have hlb : bytes.length = min 51 (lineLength t.queue) := hbytes ▸ readLoop_length h hany
  have hline : firstLine t.queue = bytes := by
    have hle : bytes.length ≤ t.queue.length := by
      rw [hsplit, List.length_append]
      omega
    rw [firstLine, List.length_take] at hlen
    have hwhole : lineLength t.queue = bytes.length := by omega
    rw [firstLine, hwhole]
    conv_lhs => rw [hsplit]
    exact List.take_left
  rw [hline]
  exact ⟨t', hr, hsplit, hline ▸ firstLine_isLine hany⟩

end Reading

def HostOp.Fits : HostOp → Host → Prop
  | .key _, _ => True
  | .turn, x => x.shell.phase ≠ .waiting ∧
    (x.shell.phase = .reading → x.console.session.term.count ≠ 0 → Tidy (firstLine x.console.session.term.queue))

instance (op : HostOp) (x : Host) : Decidable (op.Fits x) := by
  cases op <;> unfold HostOp.Fits <;> infer_instance

section Session

variable (k : Services)

/-- The shell has answered the lines `ls`, the rest of what was typed is still in the terminal. Behind each line but the
last the shell was at its prompt again. -/
structure Host.Answered (x : Host) (ls : List (List UInt8)) : Prop where
  typed : x.console.session.edited = ls.flatten ++ x.console.session.term.queue
  lines : ∀ l ∈ ls, IsLine l
  log : x.shell.log = welcomeMessage ++ prompt :: ls.zipIdx.flatMap fun l => transcript k l.1 l.2
  count : x.shell.lines = ls.length
  phase : x.shell.phase = (ls.zipIdx.getLast?.map fun l => phaseAfter k l.1 l.2).getD .reading
  earlier : ∀ l ∈ ls.zipIdx.dropLast, phaseAfter k l.1 l.2 = .reading

structure Host.Serving (x : Host) : Prop where
  sound : x.console.session.Sound
  answered : ∃ ls, x.console.session.delivered = ls.flatten ∧ x.Answered k ls

variable {k} {x y : Host}

theorem Host.Serving.key (h : x.Serving k) (scancode : BitVec 8) :
    ∃ y, (HostOp.key scancode).step k x = some y ∧ y.Serving k := by
  obtain ⟨ls, hread, hans⟩ := h.answered
  obtain ⟨c, hc, hdel⟩ : ∃ c, (ConsoleOp.key scancode).step x.console = some c ∧
      c.session.delivered = x.console.session.delivered := by
    rcases hkey : x.console.keyboard.printkey scancode with ⟨a, k⟩
    rw [ConsoleOp.step, hkey]
    cases a with
    | none => exact ⟨_, rfl, rfl⟩
    | some a => exact ⟨_, rfl, rfl⟩
  have hsound := Console.sound_step h.sound hc
  refine ⟨{ x with console := c }, by rw [HostOp.step, hc, Option.map_some], hsound, ls, hdel.trans hread, ?_⟩
  exact ⟨by rw [hsound.order, hdel, hread], hans.lines, hans.log, hans.count, hans.phase, hans.earlier⟩

theorem Host.Answered.reading {ls : List (List UInt8)} (h : x.Answered k ls) (hphase : x.shell.phase = .reading) :
    ∀ l ∈ ls.zipIdx, phaseAfter k l.1 l.2 = .reading := by
  intro l hl
  rcases List.eq_nil_or_concat ls.zipIdx with hnil | ⟨front, last, hcat⟩
  · rw [hnil] at hl
    cases hl
  · have hlast := h.phase
    have hfront := h.earlier
    rw [List.concat_eq_append] at hcat
    rw [hcat, List.getLast?_concat, hphase] at hlast
    rw [hcat, List.dropLast_concat] at hfront
    rw [hcat] at hl
    rcases List.mem_append.mp hl with hl | hl
    · exact hfront l hl
    · rw [List.mem_singleton.mp hl]
      exact hlast.symm

theorem Host.Serving.turn (h : x.Serving k) (hfit : HostOp.Fits .turn x) :
    ∃ y, HostOp.turn.step k x = some y ∧ y.Serving k := by
  rw [HostOp.step]
  cases hphase : x.shell.phase with
  | exited => exact ⟨x, rfl, h⟩
  | waiting => exact absurd hphase hfit.1
  | reading =>
    dsimp only
    by_cases hc : x.console.session.term.count = 0
    · -- no line: `sys_read` goes on waiting
      have hwait : (x.console.session.term.termRead 50).1 < 0 := by
        rw [termRead, if_neg (by decide), if_pos hc]
        exact Int.negSucc_lt_zero 0
      rw [if_pos hwait]
      exact ⟨x, rfl, h⟩
    have htidy := hfit.2 hphase hc
    obtain ⟨ls, hread, hans⟩ := h.answered
    obtain ⟨t, hr, hsplit, hline⟩ := termRead_line h.sound.inv hc htidy.short
    set line := firstLine x.console.session.term.queue with hfirst
    obtain ⟨c, hstep, hdel, hterm⟩ : ∃ c, (ConsoleOp.read 50).step x.console = some c ∧
        c.session.delivered = x.console.session.delivered ++ line ∧ c.session.term = t := by
      rw [ConsoleOp.step, TermOp.step, hr]
      exact ⟨_, rfl, rfl, rfl⟩
    have hsound := Console.sound_step h.sound hstep
    rw [if_neg (by rw [hr]; exact Int.not_lt.mpr (Int.natCast_nonneg _)), hstep, Option.bind_some, hr, round_eq htidy,
      Option.map_some]
    have hflat : c.session.delivered = (ls ++ [line]).flatten := by
      rw [hdel, hread, List.flatten_append, List.flatten_singleton]
    have hidx : (ls ++ [line]).zipIdx = ls.zipIdx ++ [(line, ls.length)] := by
      rw [List.zipIdx_append, Nat.zero_add]
      rfl
    refine ⟨_, rfl, hsound, ls ++ [line], hflat, ?_, ?_, ?_, ?_, ?_, ?_⟩
    · rw [hsound.order, hflat]
    · intro l hl
      rcases List.mem_append.mp hl with hl | hl
      · exact hans.lines l hl
      · rw [List.mem_singleton.mp hl]
        exact hline
    · change x.shell.log ++ _ = _
      rw [hans.log, hidx, List.flatMap_append, List.flatMap_singleton, hans.count, List.append_assoc, List.cons_append]
    · change x.shell.lines + 1 = _
      rw [hans.count, List.length_append, List.length_singleton]
    · change phaseAfter k line x.shell.lines = _
      rw [hidx, List.getLast?_concat, hans.count]
      rfl
    · rw [hidx, List.dropLast_concat]
      exact hans.reading hphase

/-- Whenever keys are pressed and the shell comes to read, the lines that were typed are answered one by one, each once
and in their order, up to an `exit`, a fork that fails or a child that becomes another program. The newline stays in the
last word that is run. -/
theorem typed_lines_answered (mem : ℕ → UInt8) {ops : List HostOp}
    (h : Meets (HostOp.step k) HostOp.Fits (.start mem) ops) :
    ∃ x ls, exec (HostOp.step k) ops (.start mem) = some x ∧ x.Answered k ls := by
  have hstart : (Host.start mem).Serving k := by
    refine ⟨Session.init_sound, [], rfl, rfl, ?_, rfl, rfl, rfl, ?_⟩
    · exact fun _ hl => absurd hl List.not_mem_nil
    · exact fun _ hl => absurd hl List.not_mem_nil
  have hstep : ∀ (op : HostOp) (x : Host), x.Serving k → op.Fits x → ∃ y, op.step k x = some y ∧ y.Serving k := by
    intro op x hx hfit
    cases op with
    | key scancode => exact hx.key scancode
    | turn => exact hx.turn hfit
  obtain ⟨x, hx, -, ls, -, hans⟩ := exec_inv_of_step hstep hstart h
  exact ⟨x, ls, hx, hans⟩

theorem typed_lines_answered_ls :
    let k : Services := ⟨fun _ => some (-1), 0x600000, fun _ => true, fun _ => 0⟩
    let ops : List HostOp := [.key 0x26, .key 0x1F, .key 0x1C, .key 0x26, .turn, .key 0x1F, .key 0x1C, .turn, .turn]
    (∃ x ls, exec (HostOp.step k) ops (.start fun _ => 7) = some x ∧ x.Answered k ls) ∧
      (exec (HostOp.step k) ops (.start fun _ => 7)).map (fun x => x.shell.log.count (.execvpe [[108, 115, 10]])) =
        some 2 := by
  intro k ops
  refine ⟨typed_lines_answered _ ?_, by decide +kernel⟩
  apply meets_of_check (c := fun op x => decide (op.Fits x)) fun _ _ hc => of_decide_eq_true hc
  decide +kernel

end Session

end Os506.Sbush
