import Os506.Memory.Image

namespace Os506

open Bytes

namespace Mach

def maxArg : ℕ := 10

def maxArgLen : ℕ := 100

def maxEnv : ℕ := 10

def maxEnvLen : ℕ := 100

def kstrcpy (src : List UInt8) (dest : ℕ) (mem : ℕ → UInt8) : ℕ → UInt8 := put dest (src ++ [0]) mem

def kstrlen (mem : ℕ → UInt8) : ℕ → ℕ → Option ℕ
  | 0, _ => none
  | n + 1, str => if mem str = 0 then some 0 else (kstrlen mem n (str + 1)).map (· + 1)

def fillBuf (len : ℕ) : ℕ → List (List UInt8) → (ℕ → UInt8) → ℕ → UInt8
  | _, [], buf => buf
  | n, str :: l, buf => fillBuf len (n + 1) l (kstrcpy str (n * len) buf)

structure Stack where
  ss : ℕ
  mem : ℕ → UInt8
  writes : List (ℕ × ℕ)

def Stack.push (l : List UInt8) (s : Stack) : Stack :=
  ⟨s.ss - l.length, put (s.ss - l.length) l s.mem, (s.ss - l.length, l.length) :: s.writes⟩

def pushStrings (buf : ℕ → UInt8) (len : ℕ) : ℕ → Stack → Option (List ℕ × Stack)
  | 0, s => some ([], s)
  | n + 1, s =>
    (kstrlen buf len (n * len)).bind fun length =>
      let s := s.push (peek buf (n * len) (length + 1))
      (pushStrings buf len n s).map fun (ptrs, s') => (ptrs ++ [s.ss], s')

def pushWord (x : ℕ) (s : Stack) : Stack := s.push (encode 8 x)

def pushVector (l : List ℕ) (s : Stack) : Stack := l.foldr pushWord s

def buildStack (argv envp : List (List UInt8)) (argBuf envBuf mem : ℕ → UInt8) : Option Stack :=
  let envBuf := fillBuf maxEnvLen 0 envp envBuf
  let argBuf := fillBuf maxArgLen 0 argv argBuf
  (pushStrings envBuf maxEnvLen envp.length ⟨userStackTop - 8, mem, []⟩).bind fun (envpPtr, s) =>
  (pushStrings argBuf maxArgLen argv.length s).map fun (argsPtr, s) =>
    pushWord argv.length (pushVector argsPtr (pushWord 0 (pushVector envpPtr s)))

structure Fits (argv envp : List (List UInt8)) : Prop where
  args : argv.length ≤ maxArg
  envs : envp.length ≤ maxEnv
  arg : ∀ str ∈ argv, str.length < maxArgLen ∧ 0 ∉ str
  env : ∀ str ∈ envp, str.length < maxEnvLen ∧ 0 ∉ str

section Buffers

variable {len n k : ℕ} {l : List (List UInt8)} {buf mem : ℕ → UInt8} {str : List UInt8} {a : ℕ}

theorem kstrlen_eq (hstr : 0 ∉ str) (h : peek mem a (str.length + 1) = str ++ [0]) (hn : str.length < n) :
    kstrlen mem n a = some str.length := by
  induction str generalizing a n with
  | nil =>
    obtain ⟨n, rfl⟩ : ∃ k, n = k + 1 := ⟨n - 1, by omega⟩
    have hzero : mem a = 0 := by simpa [peek] using h
    rw [kstrlen, if_pos hzero]
    rfl
  | cons b str ih =>
    rw [List.mem_cons, not_or] at hstr
    rw [List.length_cons] at hn h
    rw [peek_succ, List.cons_append, List.cons.injEq] at h
    obtain ⟨n, rfl⟩ : ∃ k, n = k + 1 := ⟨n - 1, by omega⟩
    rw [kstrlen, h.1, if_neg (Ne.symm hstr.1), ih hstr.2 h.2 (by omega)]
    rfl

theorem fillBuf_below {x : ℕ} (hx : x < n * len) : fillBuf len n l buf x = buf x := by
  induction l generalizing n buf with
  | nil => rfl
  | cons str l ih =>
    have hsucc : (n + 1) * len = n * len + len := Nat.succ_mul n len
    rw [fillBuf, ih (by omega), kstrcpy, put_of_lt hx]

theorem fillBuf_at (buf : ℕ → UInt8) (hlen : ∀ str ∈ l, str.length < len) (hk : k < l.length) :
    At (fillBuf len n l buf) ((n + k) * len) (l.get ⟨k, hk⟩ ++ [0]) := by
  induction l generalizing n k buf with
  | nil => exact absurd hk (Nat.not_lt_zero k)
  | cons str l ih =>
    cases k with
    | zero =>
      have hstr := hlen str (by simp)
      have hsucc : (n + 1) * len = n * len + len := Nat.succ_mul n len
      change peek (fillBuf len (n + 1) l (kstrcpy str (n * len) buf)) (n * len) _ = _
      rw [peek_congr fun x _ hx => fillBuf_below (by simp at hx; omega)]
      exact at_put _ _ _
    | succ k =>
      have hrow := ih (n := n + 1) (kstrcpy str (n * len) buf) (fun str hstr => hlen str (by simp [hstr]))
        (Nat.lt_of_succ_lt_succ hk)
      rw [Nat.add_right_comm] at hrow
      exact hrow

end Buffers

def words (l : List ℕ) : List UInt8 := l.flatMap (encode 8)

theorem words_cons (x : ℕ) (l : List ℕ) : words (x :: l) = encode 8 x ++ words l := rfl

theorem length_words (l : List ℕ) : (words l).length = 8 * l.length := by
  induction l with
  | nil => rfl
  | cons x l ih =>
    rw [words_cons, List.length_append, length_encode, ih, List.length_cons]
    omega

def Apart (w w' : ℕ × ℕ) : Prop := w.1 + w.2 ≤ w'.1 ∨ w'.1 + w'.2 ≤ w.1

structure Stack.Tidy (s : Stack) : Prop where
  apart : s.writes.Pairwise Apart
  above : ∀ w ∈ s.writes, s.ss ≤ w.1 ∧ w.1 + w.2 ≤ userStackTop - 8
  inside : s.ss ≤ userStackTop - 8

structure Pushed (s : Stack) (l : List UInt8) (s' : Stack) : Prop where
  ss : s'.ss + l.length = s.ss
  mem : s'.mem = put s'.ss l s.mem
  tidy : s.Tidy → s'.Tidy

section Pushes

variable {s s' s'' : Stack} {l l' : List UInt8}

theorem push_pushed (h : l.length ≤ s.ss) : Pushed s l (s.push l) := by
  refine ⟨Nat.sub_add_cancel h, rfl, fun ht => ⟨?_, ?_, ?_⟩⟩
  · apply List.Pairwise.cons
    · intro w hw
      have := ht.above w hw
      left
      change s.ss - l.length + l.length ≤ w.1
      omega
    · exact ht.apart
  · intro w hw
    have hin := ht.inside
    rcases List.mem_cons.mp hw with rfl | hw
    · change s.ss - l.length ≤ s.ss - l.length ∧ s.ss - l.length + l.length ≤ _
      omega
    · have := ht.above w hw
      change s.ss - l.length ≤ w.1 ∧ _
      omega
  · exact (Nat.sub_le _ _).trans ht.inside

theorem Pushed.trans (h : Pushed s l s') (h' : Pushed s' l' s'') : Pushed s (l' ++ l) s'' := by
  refine ⟨?_, ?_, fun ht => h'.tidy (h.tidy ht)⟩
  · have := h.ss
    have := h'.ss
    rw [List.length_append]
    omega
  · rw [h'.mem, h.mem, ← h'.ss, put_before]

theorem Pushed.refl (s : Stack) : Pushed s [] s := ⟨rfl, rfl, id⟩

theorem pushVector_append (l l' : List ℕ) (s : Stack) : pushVector (l ++ l') s = pushVector l (pushVector l' s) :=
  List.foldr_append

theorem pushVector_pushed (l : List ℕ) (h : 8 * l.length ≤ s.ss) : Pushed s (words l) (pushVector l s) := by
  induction l with
  | nil => exact .refl s
  | cons x l ih =>
    rw [List.length_cons] at h
    have hl := ih (by omega)
    apply hl.trans
    apply push_pushed
    have := hl.ss
    rw [length_words] at this
    rw [length_encode]
    omega

theorem pushStrings_pushed (buf : ℕ → UInt8) {len : ℕ} (l : List (List UInt8))
    (hbuf : ∀ k (hk : k < l.length), At buf (k * len) (l.get ⟨k, hk⟩ ++ [0]))
    (hl : ∀ str ∈ l, str.length < len ∧ 0 ∉ str) (h : (strings l).length ≤ s.ss) :
    ∃ s', pushStrings buf len l.length s = some (pointers s'.ss l, s') ∧ Pushed s (strings l) s' := by
  induction l using List.reverseRecOn generalizing s with
  | nil => exact ⟨s, rfl, .refl s⟩
  | append_singleton l str ih =>
    have hstr := hl str (by simp)
    have hrow : At buf (l.length * len) (str ++ [0]) := by
      have := hbuf l.length (by simp)
      simpa using this
    have hsplit : strings (l ++ [str]) = strings l ++ (str ++ [0]) := by
      rw [strings_append, strings_cons]
      simp [strings]
    rw [hsplit, List.length_append] at h
    have hlast := push_pushed (l := str ++ [0]) (s := s) (by omega)
    have hss := hlast.ss
    obtain ⟨s', hs', hpush⟩ := ih (s := s.push (str ++ [0]))
      (fun k hk => by
        have := hbuf k (by rw [List.length_append]; omega)
        rwa [List.get_eq_getElem, List.getElem_append_left hk] at this)
      (fun str hstr => hl str (by simp [hstr])) (by omega)
    refine ⟨s', ?_, hsplit ▸ hlast.trans hpush⟩
    rw [At, List.length_append, List.length_singleton] at hrow
    rw [List.length_append, List.length_singleton, pushStrings, kstrlen_eq hstr.2 hrow hstr.1, Option.bind_some, hrow]
    dsimp only
    rw [hs', pointers_append, hpush.ss]
    rfl

end Pushes

def layout (a : ℕ) (argv envp : List (List UInt8)) : List UInt8 :=
  let first := a + 8 * (argv.length + envp.length + 2)
  words (argv.length :: pointers first argv ++ 0 :: pointers (first + (strings argv).length) envp) ++
    (strings argv ++ strings envp)

theorem length_layout (a : ℕ) (argv envp : List (List UInt8)) : (layout a argv envp).length =
    8 * (argv.length + envp.length + 2) + (strings argv).length + (strings envp).length := by
  simp only [layout, List.length_append, List.length_cons, length_words, length_pointers]
  omega

theorem length_strings_le {len : ℕ} {l : List (List UInt8)} (h : ∀ str ∈ l, str.length < len) :
    (strings l).length ≤ l.length * len := by
  induction l with
  | nil => exact Nat.zero_le _
  | cons str l ih =>
    have hstr := h str (by simp)
    have hl := ih fun str hstr => h str (by simp [hstr])
    rw [strings_cons, List.length_append, List.length_append, List.length_singleton, List.length_cons, Nat.succ_mul]
    omega

variable {argv envp : List (List UInt8)}

theorem Fits.length_le (h : Fits argv envp) : (strings argv).length ≤ 1000 ∧ (strings envp).length ≤ 1000 := by
  have hargs := h.args
  have henvs := h.envs
  have hargv := length_strings_le fun str hstr => (h.arg str hstr).1
  have henvp := length_strings_le fun str hstr => (h.env str hstr).1
  simp only [maxArg, maxArgLen, maxEnv, maxEnvLen] at hargs henvs hargv henvp
  omega

theorem buildStack_pushed (h : Fits argv envp) (argBuf envBuf mem : ℕ → UInt8) :
    ∃ s, buildStack argv envp argBuf envBuf mem = some s ∧
      Pushed ⟨userStackTop - 8, mem, []⟩ (layout s.ss argv envp) s := by
  have hargs := h.args
  have henvs := h.envs
  obtain ⟨hargv, henvp⟩ := h.length_le
  simp only [maxArg, maxEnv] at hargs henvs
  have hrow : ∀ {len l buf} (k : ℕ) (hk : k < l.length), (∀ str ∈ l, str.length < len) →
      At (fillBuf len 0 l buf) (k * len) (l.get ⟨k, hk⟩ ++ [0]) := by
    intro len l buf k hk hlen
    have := fillBuf_at (n := 0) buf hlen hk
    rwa [Nat.zero_add] at this
  obtain ⟨s₁, hs₁, hpush₁⟩ := pushStrings_pushed (s := ⟨userStackTop - 8, mem, []⟩) (fillBuf maxEnvLen 0 envp envBuf)
    envp (fun k hk => hrow k hk fun str hstr => (h.env str hstr).1) h.env (by simp only [userStackTop]; omega)
  have hss₁ : s₁.ss + _ = userStackTop - 8 := hpush₁.ss
  simp only [userStackTop] at hss₁
  obtain ⟨s₂, hs₂, hpush₂⟩ := pushStrings_pushed (s := s₁) (fillBuf maxArgLen 0 argv argBuf)
    argv (fun k hk => hrow k hk fun str hstr => (h.arg str hstr).1) h.arg (by omega)
  have hss₂ := hpush₂.ss
  have hpush₃ := pushVector_pushed (s := s₂) (argv.length :: pointers s₂.ss argv ++ 0 :: pointers s₁.ss envp) (by
    simp only [List.length_append, List.length_cons, length_pointers]
    omega)
  have hss₃ := hpush₃.ss
  simp only [length_words, List.length_append, List.length_cons, length_pointers] at hss₃
  refine ⟨pushVector (argv.length :: pointers s₂.ss argv ++ 0 :: pointers s₁.ss envp) s₂, ?_, ?_⟩
  · rw [buildStack]
    dsimp only
    rw [hs₁, Option.bind_some]
    dsimp only
    rw [hs₂, Option.map_some, pushVector_append]
    rfl
  · obtain ⟨s₃, hs₃⟩ : ∃ s₃, s₃ = pushVector (argv.length :: pointers s₂.ss argv ++ 0 :: pointers s₁.ss envp) s₂ := ⟨_, rfl⟩
    rw [← hs₃] at hpush₃ hss₃ ⊢
    have hfirst : s₃.ss + 8 * (argv.length + envp.length + 2) = s₂.ss := by omega
    rw [layout, hfirst, hss₂]
    exact (hpush₁.trans hpush₂).trans hpush₃

def VectorAt (mem : ℕ → UInt8) : ℕ → List (List UInt8) → Prop
  | a, [] => word mem a = 0
  | a, str :: l => word mem a ≠ 0 ∧ At mem (word mem a) (str ++ [0]) ∧ VectorAt mem (a + 8) l

theorem vectorAt_iff {mem : ℕ → UInt8} {a p : ℕ} {l : List (List UInt8)} (hw : At mem a (words (pointers p l)))
    (hs : At mem p (strings l)) (hp : 0 < p) (htop : p + (strings l).length < 2 ^ 64) :
    VectorAt mem a l ↔ word mem (a + 8 * l.length) = 0 := by
  induction l generalizing a p with
  | nil => rfl
  | cons str l ih =>
    rw [pointers, words_cons, at_append, length_encode] at hw
    rw [strings_cons, at_append] at hs
    rw [strings_cons, List.length_append] at htop
    rw [List.length_append, List.length_singleton, ← Nat.add_assoc] at hs htop
    have hword := hw.1.word_eq (by omega)
    rw [VectorAt, hword, ih hw.2 hs.2 (by omega) (by omega), List.length_cons, Nat.mul_succ, Nat.add_assoc a, Nat.add_comm 8]
    constructor
    · exact fun h => h.2.2
    · exact fun h => ⟨hp.ne', hs.1, h⟩

theorem words_append (l l' : List ℕ) : words (l ++ l') = words l ++ words l' := List.flatMap_append

theorem buildStack_spec (h : Fits argv envp) (argBuf envBuf mem : ℕ → UInt8) :
    ∃ s, buildStack argv envp argBuf envBuf mem = some s ∧ s.Tidy ∧
      s.ss + (layout s.ss argv envp).length = userStackTop - 8 ∧ s.mem = put s.ss (layout s.ss argv envp) mem := by
  obtain ⟨s, hs, hpush⟩ := buildStack_pushed h argBuf envBuf mem
  refine ⟨s, hs, hpush.tidy ⟨List.Pairwise.nil, fun w hw => ?_, le_rfl⟩, hpush.ss, hpush.mem⟩
  cases hw

theorem Fits.length_layout_le (h : Fits argv envp) (a : ℕ) : (layout a argv envp).length ≤ 2176 := by
  have hargs := h.args
  have henvs := h.envs
  obtain ⟨hargv, henvp⟩ := h.length_le
  simp only [maxArg, maxEnv] at hargs henvs
  rw [length_layout]
  omega

theorem layout_read {mem : ℕ → UInt8} {a : ℕ} (h : Fits argv envp) (hat : At mem a (layout a argv envp))
    (htop : a + (layout a argv envp).length = userStackTop - 8) :
    word mem a = argv.length ∧ VectorAt mem (a + 8) argv ∧
      (VectorAt mem (a + 8 + 8 * (argv.length + 1)) envp ↔ word mem (a + 8 * (argv.length + envp.length + 2)) = 0) := by
  have hle := h.length_layout_le a
  have hargs := h.args
  simp only [userStackTop, maxArg] at htop hargs
  have hlen := length_layout a argv envp
  rw [layout, at_append, length_words, words_append, at_append, words_cons, words_cons, at_append, at_append, at_append,
    List.length_append, length_encode, length_encode, length_words, length_pointers] at hat
  simp only [List.length_append, List.length_cons, length_pointers] at hat
  obtain ⟨⟨⟨hargc, hargv⟩, hnull, henvp⟩, hstrs, hstrs'⟩ := hat
  have hfirst : a + 8 * (argv.length + 1 + (envp.length + 1)) = a + 8 * (argv.length + envp.length + 2) := by omega
  rw [hfirst] at hstrs hstrs'
  refine ⟨hargc.word_eq (by omega), ?_, ?_⟩
  · apply (vectorAt_iff hargv hstrs (by omega) (by omega)).mpr
    have hword := hnull.word_eq (by decide)
    rwa [← Nat.add_assoc] at hword
  · have hvec : a + 8 + 8 * (argv.length + 1) = a + (8 + 8 * argv.length) + 8 := by omega
    rw [hvec, vectorAt_iff henvp hstrs' (by omega) (by omega)]
    have hend : a + (8 + 8 * argv.length) + 8 + 8 * envp.length = a + 8 * (argv.length + envp.length + 2) := by omega
    rw [hend]

theorem buildStack_args (h : Fits argv envp) (argBuf envBuf mem : ℕ → UInt8) :
    ∃ s, buildStack argv envp argBuf envBuf mem = some s ∧
      word s.mem s.ss = argv.length ∧ VectorAt s.mem (s.ss + 8) argv ∧ s.writes.Pairwise Apart ∧
      (∀ w ∈ s.writes, userStackTop - 4096 ≤ w.1 ∧ w.1 + w.2 ≤ userStackTop) ∧
      ∀ x, x < userStackTop - 4096 ∨ userStackTop ≤ x → s.mem x = mem x := by
  obtain ⟨s, hs, htidy, hss, hmem⟩ := buildStack_spec h argBuf envBuf mem
  have hle := h.length_layout_le s.ss
  have hat : At s.mem s.ss (layout s.ss argv envp) := by
    rw [hmem]
    exact at_put _ _ _
  obtain ⟨hargc, hargv, _⟩ := layout_read h hat hss
  simp only [userStackTop] at hss ⊢
  refine ⟨s, hs, hargc, hargv, htidy.apart, fun w hw => ?_, fun x hx => ?_⟩
  · have habove := htidy.above w hw
    simp only [userStackTop] at habove
    omega
  · rw [hmem]
    rcases hx with hx | hx
    · exact put_of_lt (by omega)
    · exact put_of_ge (by omega)

theorem buildStack_args_pair : Fits [[97], [98, 99]] [[120, 61]] ∧
    ∃ s, buildStack [[97], [98, 99]] [[120, 61]] (fun _ => 0) (fun _ => 0) (fun _ => 0) = some s ∧
      word s.mem s.ss = 2 ∧ VectorAt s.mem (s.ss + 8) [[97], [98, 99]] := by
  have h : Fits [[97], [98, 99]] [[120, 61]] := ⟨by decide, by decide, by decide, by decide⟩
  obtain ⟨s, hs, hargc, hargv, _⟩ := buildStack_args h (fun _ => 0) (fun _ => 0) fun _ => 0
  exact ⟨h, s, hs, hargc, hargv⟩

def FreshStack (mem : ℕ → UInt8) : Prop := ∀ x, userStackTop - 4096 ≤ x → x < userStackTop → mem x = 0

/-- Decoding by the rule of `_start`, with the environment behind the NULL word of the arguments, gives the environment. -/
def EnvReturns (argv envp : List (List UInt8)) : Prop :=
  ∀ argBuf envBuf mem, FreshStack mem → ∃ s, buildStack argv envp argBuf envBuf mem = some s ∧
    VectorAt s.mem (s.ss + 8 + 8 * (word s.mem s.ss + 1)) envp

theorem strings_take_zero {l : List (List UInt8)} (m n : ℕ) (hl : ∀ str ∈ l, 0 ∉ str) :
    (∀ b ∈ (strings l ++ List.replicate m 0).take n, b = 0) ↔ ∀ str ∈ l.take n, str = [] := by
  induction l generalizing n with
  | nil => simp [strings]
  | cons str l ih =>
    cases n with
    | zero => simp
    | succ n =>
      have htail := ih n fun str hstr => hl str (by simp [hstr])
      cases str with
      | nil =>
        rw [List.take_succ_cons, List.forall_mem_cons, ← htail, strings_cons, List.nil_append, List.append_assoc,
          List.singleton_append, List.take_succ_cons, List.forall_mem_cons]
        simp
      | cons b str =>
        have hb : b ≠ 0 := by
          rintro rfl
          exact hl _ List.mem_cons_self List.mem_cons_self
        simp [strings_cons, hb]

/-- No NULL word is stored behind the environment: what ends the vector are the first bytes of the strings, or of the
untouched top of the stack. -/
theorem envReturns_iff (h : Fits argv envp) : EnvReturns argv envp ↔ ∀ str ∈ (argv ++ envp).take 8, str = [] := by
  have hstrs : ∀ str ∈ argv ++ envp, 0 ∉ str := by
    intro str hstr
    rcases List.mem_append.mp hstr with hstr | hstr
    · exact (h.arg str hstr).2
    · exact (h.env str hstr).2
  have hread : ∀ argBuf envBuf mem, FreshStack mem → ∃ s, buildStack argv envp argBuf envBuf mem = some s ∧
      (VectorAt s.mem (s.ss + 8 + 8 * (word s.mem s.ss + 1)) envp ↔ ∀ str ∈ (argv ++ envp).take 8, str = []) := by
    intro argBuf envBuf mem hfresh
    obtain ⟨s, hs, _, hss, hmem⟩ := buildStack_spec h argBuf envBuf mem
    refine ⟨s, hs, ?_⟩
    have hat : At s.mem s.ss (layout s.ss argv envp) := by
      rw [hmem]
      exact at_put _ _ _
    obtain ⟨hargc, _, henvp⟩ := layout_read h hat hss
    -- The eight bytes above the strings were never written.
    have htop : At s.mem (s.ss + (layout s.ss argv envp).length) (List.replicate 8 0) := by
      rw [At, List.length_replicate, hmem, peek_put_off (.inr le_rfl)]
      apply List.eq_replicate_iff.mpr
      refine ⟨length_peek, fun b hb => ?_⟩
      obtain ⟨i, hi, rfl⟩ := mem_peek.mp hb
      simp only [userStackTop] at hss
      apply hfresh
      · simp only [userStackTop]
        omega
      · simp only [userStackTop]
        omega
    have hbytes := at_append.mpr ⟨hat, htop⟩
    rw [layout, List.append_assoc, at_append, ← strings_append] at hbytes
    have hplace : s.ss + 8 * (argv.length + envp.length + 2) = s.ss + 8 * (argv.length + 1 + (envp.length + 1)) := by omega
    simp only [length_words, List.length_append, List.length_cons, length_pointers] at hbytes
    rw [hargc, henvp, word, hplace, hbytes.2.peek_take (by simp), decode_eq_zero, strings_take_zero 8 8 hstrs]
  constructor
  · intro hret
    obtain ⟨s, hs, hiff⟩ := hread (fun _ => 0) (fun _ => 0) (fun _ => 0) fun _ _ _ => rfl
    obtain ⟨s', hs', hvec⟩ := hret (fun _ => 0) (fun _ => 0) (fun _ => 0) fun _ _ _ => rfl
    obtain rfl := Option.some.inj (hs.symm.trans hs')
    exact hiff.mp hvec
  · intro hempty argBuf envBuf mem hfresh
    obtain ⟨s, hs, hiff⟩ := hread argBuf envBuf mem hfresh
    exact ⟨s, hs, hiff.mpr hempty⟩

theorem envReturns_empty : Fits [[]] [[], []] ∧ EnvReturns [[]] [[], []] := by
  have h : Fits [[]] [[], []] := ⟨by decide, by decide, by decide, by decide⟩
  exact ⟨h, (envReturns_iff h).mpr (by decide)⟩

theorem envReturns_fails_on_one_argument : Fits [[97]] [] ∧ ¬ EnvReturns [[97]] [] := by
  refine ⟨⟨by decide, by decide, by decide, by decide⟩, fun hret => ?_⟩
  obtain ⟨s, hs, hvec⟩ := hret (fun _ => 0) (fun _ => 0) (fun _ => 0) fun _ _ _ => rfl
  have hword : ((buildStack [[97]] [] (fun _ => 0) (fun _ => 0) fun _ => 0).map fun s =>
      word s.mem (s.ss + 8 + 8 * (word s.mem s.ss + 1))) = some 97 := by decide +kernel
  rw [hs, Option.map_some, Option.some.injEq] at hword
  rw [VectorAt, hword] at hvec
  exact absurd hvec (by decide)

end Mach

end Os506
