import Os506.Memory.Arguments

namespace Os506

open Bytes

namespace Mach

def fillWrites (len : ℕ) : ℕ → List (List UInt8) → List (ℕ × ℕ)
  | _, [] => []
  | n, str :: l => (n * len, str.length + 1) :: fillWrites len (n + 1) l

def InRows (rows len : ℕ) (l : List (List UInt8)) : Prop :=
  ∀ k w, (fillWrites len 0 l)[k]? = some w → k < rows ∧ k * len ≤ w.1 ∧ w.1 + w.2 ≤ (k + 1) * len

/-- All that `load_elf` writes of the arguments of `sys_execve` is inside of its buffers and of the stack page. It
refuses nothing, and takes `argv` from the second entry on. -/
structure Contained (argv envp : List (List UInt8)) : Prop where
  args : InRows maxArg maxArgLen argv
  envs : InRows maxEnv maxEnvLen envp
  stack : ∀ argBuf envBuf mem, ∃ s, buildStack argv envp argBuf envBuf mem = some s ∧
    ∀ w ∈ s.writes, userStackTop - 4096 ≤ w.1 ∧ w.1 + w.2 ≤ userStackTop

variable {len n rows x : ℕ} {l : List (List UInt8)} {buf : ℕ → UInt8}

theorem fillBuf_frame (h : ∀ w ∈ fillWrites len n l, x < w.1 ∨ w.1 + w.2 ≤ x) : fillBuf len n l buf x = buf x := by
  induction l generalizing n buf with
  | nil => rfl
  | cons str l ih =>
    rw [fillWrites, List.forall_mem_cons] at h
    rw [fillBuf, ih h.2, kstrcpy]
    rcases h.1 with hlt | hge
    · exact put_of_lt hlt
    · exact put_of_ge (by rwa [List.length_append])

theorem fillWrites_get (len n : ℕ) (l : List (List UInt8)) (k : ℕ) :
    (fillWrites len n l)[k]? = l[k]?.map fun str => ((n + k) * len, str.length + 1) := by
  induction l generalizing n k with
  | nil => rfl
  | cons str l ih =>
    cases k with
    | zero => rfl
    | succ k => rw [fillWrites, List.getElem?_cons_succ, List.getElem?_cons_succ, ih, Nat.add_right_comm, Nat.add_assoc]

theorem inRows_iff : InRows rows len l ↔ l.length ≤ rows ∧ ∀ str ∈ l, str.length < len := by
  constructor
  · intro h
    have hrow : ∀ k str, l[k]? = some str → k < rows ∧ str.length < len := by
      intro k str hk
      have hw := h k ((0 + k) * len, str.length + 1) (by rw [fillWrites_get, hk]; rfl)
      rw [Nat.zero_add, Nat.succ_mul] at hw
      omega
    refine ⟨Nat.le_of_not_lt fun hlong => ?_, fun str hstr => ?_⟩
    · exact absurd (hrow rows _ (List.getElem?_eq_getElem hlong)).1 (lt_irrefl rows)
    · obtain ⟨k, hk⟩ := List.getElem?_of_mem hstr
      exact (hrow k str hk).2
  · rintro ⟨hlen, hstr⟩ k w hw
    rw [fillWrites_get, Option.map_eq_some_iff] at hw
    obtain ⟨str, hk, rfl⟩ := hw
    have hlt := (List.getElem?_eq_some_iff.mp hk).1
    have := hstr str (List.mem_of_getElem? hk)
    rw [Nat.zero_add, Nat.succ_mul]
    omega

variable {argv envp : List (List UInt8)}

theorem Fits.contained (h : Fits argv envp) : Contained argv envp := by
  refine ⟨inRows_iff.mpr ⟨h.args, fun str hstr => (h.arg str hstr).1⟩,
    inRows_iff.mpr ⟨h.envs, fun str hstr => (h.env str hstr).1⟩, fun argBuf envBuf mem => ?_⟩
  obtain ⟨s, hs, htidy, hss, _⟩ := buildStack_spec h argBuf envBuf mem
  have hle := h.length_layout_le s.ss
  refine ⟨s, hs, fun w hw => ?_⟩
  have habove := htidy.above w hw
  simp only [userStackTop] at habove hss ⊢
  omega

/-- Nothing is tested: the writes stay inside exactly when the vectors fit the buffers, and then the page is large
enough. -/
theorem contained_iff (hargv : ∀ str ∈ argv, 0 ∉ str) (henvp : ∀ str ∈ envp, 0 ∉ str) : Contained argv envp ↔
    (argv.length ≤ maxArg ∧ ∀ str ∈ argv, str.length < maxArgLen) ∧
      envp.length ≤ maxEnv ∧ ∀ str ∈ envp, str.length < maxEnvLen := by
  constructor
  · intro h
    exact ⟨inRows_iff.mp h.args, inRows_iff.mp h.envs⟩
  · rintro ⟨⟨hargs, harg⟩, henvs, henv⟩
    apply Fits.contained
    exact ⟨hargs, henvs, fun str hstr => ⟨harg str hstr, hargv str hstr⟩,
      fun str hstr => ⟨henv str hstr, henvp str hstr⟩⟩

theorem contained_pair : Contained [[97], [98, 99]] [[120, 61]] :=
  (contained_iff (by decide) (by decide)).mpr (by decide)

theorem contained_fails_on_many_and_long :
    ¬ Contained (List.replicate 11 [97]) [] ∧ ¬ Contained [List.replicate 100 97] [] ∧
      (fillWrites maxArgLen 0 (List.replicate 11 [97]))[10]? = some (maxArg * maxArgLen, 2) ∧
      (fillWrites maxArgLen 0 [List.replicate 100 97])[0]? = some (0, maxArgLen + 1) := by
  refine ⟨fun h => ?_, fun h => ?_, by decide, by decide⟩
  · exact absurd (inRows_iff.mp h.args).1 (by decide)
  · exact absurd ((inRows_iff.mp h.args).2 _ List.mem_cons_self) (by decide)

end Mach

end Os506
