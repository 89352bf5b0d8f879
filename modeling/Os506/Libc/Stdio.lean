import Os506.Libc.Compare
import Os506.Scheduler.Ps
import Os506.Terminal.Kprintf

namespace Os506.Libc

open Bytes Screen

def rep : List UInt8 := [48, 49, 50, 51, 52, 53, 54, 55, 56, 57, 65, 66, 67, 68, 69, 70]

def putchar (c : ℤ) (out : List UInt8) : ℤ × List UInt8 := (c, out ++ [UInt8.ofBitVec (BitVec.ofInt 8 c)])

def eof : ℤ := -1

/-- `puts`, for the bytes before the end of the string. No newline is written, and the answer is `EOF` in any case. -/
def puts : List UInt8 → List UInt8 → ℤ × List UInt8
  | [], out => (eof, out)
  | c :: s, out =>
    let p := putchar (schar c) out
    if p.1 ≠ schar c then (eof, p.2) else puts s p.2

def convertBuffer (i base : ℕ) (buf : ℕ → UInt8) : Option (ℕ × (ℕ → UInt8)) := Numeral.print rep base 49 i buf

def convert (buf : ℕ → UInt8) (i base : ℕ) (out : List UInt8) : Option (List UInt8) :=
  (convertBuffer i base buf).map fun b => (puts (PsBuf.cString (peek b.2 b.1 (50 - b.1))) out).2

/-- The cases of the `switch`; `none` where it has none for the letter. The stack holds `buf` where `convert` puts its
digits. -/
def directive (buf : ℕ → UInt8) (f : UInt8) : Option (Arg → List UInt8 → Option (List UInt8)) :=
  if f = 0x63 then some fun arg out => some (putchar (schar (UInt8.ofBitVec (arg.word.setWidth 8))) out).2
  else if f = 0x64 then some fun arg out => convert buf (arg.word.setWidth 32).toNat 10 out
  else if f = 0x73 then some fun arg out => some (puts arg.text out).2
  else if f = 0x78 then some fun arg out => convert buf arg.word.toNat 16 out
  else if f = 0x70 then some fun arg out => convert buf arg.word.toNat 16 (puts [0x30, 0x78] out).2
  else none

def printArg (buf : ℕ → UInt8) (f : UInt8) (args : List Arg) (out : List UInt8) : Option (List UInt8 × List Arg) :=
  match directive buf f, args with
  | none, args => some (out, args)
  | some _, [] => none
  | some print, arg :: args => (print arg out).map (·, args)

/-- `printf` on the bytes of memory from `fmt` on: what it returns, which is never counted up, and the bytes written. -/
def printf (buf : ℕ → UInt8) : List UInt8 → List Arg → List UInt8 → Option (ℤ × List UInt8)
  | [], _, _ => none
  | [c], _, out => if c = 0 then some (0, out) else none
  | c :: f :: rest, args, out =>
    if c = 0 then some (0, out)
    else if c ≠ 0x25 then printf buf (f :: rest) args (putchar (schar c) out).2
    else (printArg buf f args out).bind fun p => printf buf rest p.2 p.1

theorem ofInt_schar (c : UInt8) : UInt8.ofBitVec (BitVec.ofInt 8 (schar c)) = c := by
  rw [schar, BitVec.ofInt_toInt]

theorem putchar_schar (c : UInt8) (out : List UInt8) : putchar (schar c) out = (schar c, out ++ [c]) := by
  rw [putchar, ofInt_schar]

theorem puts_eq (s out : List UInt8) : puts s out = (eof, out ++ s) := by
  induction s generalizing out with
  | nil => rw [puts, List.append_nil]
  | cons c s ih =>
    rw [puts, putchar_schar]
    dsimp only
    rw [if_neg (not_not.mpr rfl), ih, List.append_assoc]
    rfl

def Built (r : Option (ℕ × (ℕ → UInt8))) (buf : ℕ → UInt8) (text : List UInt8) : Prop :=
  ∃ ptr buf', r = some (ptr, buf') ∧ ptr + text.length = 49 ∧ At buf' ptr (text ++ [0]) ∧ ∀ x, 49 < x → buf' x = buf x

section Convert

variable {base i : ℕ}

theorem lt_pow (hi : i < 2 ^ 64) (hb : base = 10 ∨ base = 16) : i < base ^ 49 := by
  have hpow : 2 ^ 64 < base ^ 49 := by rcases hb with rfl | rfl <;> decide
  exact hi.trans hpow

theorem rep_canonical (hi : i < 2 ^ 64) (hb : base = 10 ∨ base = 16) :
    Numeral.Canonical rep base i (Numeral.chars rep base 49 i) := by
  have hlen : base ≤ rep.length := by rcases hb with rfl | rfl <;> decide
  exact Numeral.canonical_chars (by decide) hlen (lt_pow hi hb)

theorem built (hi : i < 2 ^ 64) (hb : base = 10 ∨ base = 16) (buf : ℕ → UInt8) :
    Built (Numeral.print rep base 49 i buf) buf (Numeral.chars rep base 49 i) :=
  Numeral.print_eq (lt_pow hi hb) buf

theorem zero_notMem_chars (hi : i < 2 ^ 64) (hb : base = 10 ∨ base = 16) : 0 ∉ Numeral.chars rep base 49 i := by
  intro h
  have := List.mem_of_mem_take ((rep_canonical hi hb).digits 0 h)
  exact absurd this (by decide)

theorem cString_append_zero {l : List UInt8} (h : 0 ∉ l) : PsBuf.cString (l ++ [0]) = l := by
  rw [PsBuf.cString, List.takeWhile_append_of_pos]
  · exact List.append_nil l
  · intro b hb
    simpa using fun he : b = 0 => h (he ▸ hb)

theorem convert_eq (hi : i < 2 ^ 64) (hb : base = 10 ∨ base = 16) (buf : ℕ → UInt8) (out : List UInt8) :
    convert buf i base out = some (out ++ Numeral.chars rep base 49 i) := by
  obtain ⟨ptr, buf', hprint, hptr, hat, -⟩ := built hi hb buf
  have hsize : 50 - ptr = (Numeral.chars rep base 49 i ++ [0]).length := by
    rw [List.length_append, List.length_singleton]
    omega
  rw [convert, convertBuffer, hprint, Option.map_some, hsize, hat, cString_append_zero (zero_notMem_chars hi hb), puts_eq]

theorem convert_canonical (i : BitVec 64) (hb : base = 10 ∨ base = 16) (buf : ℕ → UInt8) :
    (∃ text, Numeral.Canonical Screen.rep base i.toNat text ∧ Built (Screen.convertBuffer i.toNat base buf) buf text ∧
      Screen.convert i.toNat base = text) ∧
    ∃ text, Numeral.Canonical rep base i.toNat text ∧ Built (convertBuffer i.toNat base buf) buf text ∧
      ∀ out, convert buf i.toNat base out = some (out ++ text) :=
  ⟨⟨_, rep_canonical i.isLt hb, built i.isLt hb buf, Screen.convert_eq _ _⟩, _, rep_canonical i.isLt hb,
    built i.isLt hb buf, convert_eq i.isLt hb buf⟩

theorem convert_canonical_max : ∃ text, Numeral.Canonical rep 10 (2 ^ 64 - 1) text ∧
    Built (convertBuffer (2 ^ 64 - 1) 10 fun _ => 255) (fun _ => 255) text := by
  obtain ⟨-, text, htext, hbuilt, -⟩ := convert_canonical (BitVec.allOnes 64) (.inl rfl) fun _ => 255
  exact ⟨text, htext, hbuilt⟩

end Convert

section Format

variable {buf : ℕ → UInt8} {m l text out : List UInt8} {args args' : List Arg} {f : UInt8}

theorem directive_cases (buf : ℕ → UInt8) (f : UInt8) (arg : Arg) :
    (directive buf f = none ∧ Screen.directive f arg = none) ∨ ∃ print text, directive buf f = some print ∧
      Screen.directive f arg = some text ∧ ∀ out, print arg out = some (out ++ text) := by
  have hint : (arg.word.setWidth 32).toNat < 2 ^ 64 := lt_trans (BitVec.isLt _) (by decide)
  unfold Screen.directive directive
  by_cases hc : f = 0x63
  · rw [if_pos hc, if_pos hc]
    exact .inr ⟨_, _, rfl, rfl, fun out => by rw [putchar_schar]⟩
  rw [if_neg hc, if_neg hc]
  by_cases hd : f = 0x64
  · rw [if_pos hd, if_pos hd, Screen.convert_eq]
    exact .inr ⟨_, _, rfl, rfl, fun out => convert_eq hint (.inl rfl) buf out⟩
  rw [if_neg hd, if_neg hd]
  by_cases hs : f = 0x73
  · rw [if_pos hs, if_pos hs]
    exact .inr ⟨_, _, rfl, rfl, fun out => by rw [puts_eq]⟩
  rw [if_neg hs, if_neg hs]
  by_cases hx : f = 0x78
  · rw [if_pos hx, if_pos hx, Screen.convert_eq]
    exact .inr ⟨_, _, rfl, rfl, fun out => convert_eq arg.word.isLt (.inr rfl) buf out⟩
  rw [if_neg hx, if_neg hx]
  by_cases hp : f = 0x70
  · rw [if_pos hp, if_pos hp, Screen.convert_eq]
    refine .inr ⟨_, _, rfl, rfl, fun out => ?_⟩
    rw [puts_eq, ← List.append_assoc]
    exact convert_eq arg.word.isLt (.inr rfl) buf _
  rw [if_neg hp, if_neg hp]
  exact .inl ⟨rfl, rfl⟩

theorem printArg_eq (h : chunk f args = some (text, args')) (buf : ℕ → UInt8) (out : List UInt8) :
    printArg buf f args out = some (out ++ text, args') := by
  unfold printArg
  cases args with
  | nil =>
    obtain ⟨hnone, hscreen⟩ | ⟨_, _, _, hscreen, _⟩ := directive_cases buf f ⟨0, []⟩
    · rw [chunk, hscreen] at h
      cases h
      rw [hnone, List.append_nil]
    · rw [chunk, hscreen] at h
      cases h
  | cons arg args =>
    obtain ⟨hnone, hscreen⟩ | ⟨print, text', hsome, hscreen, hprint⟩ := directive_cases buf f arg
    · rw [chunk, hscreen] at h
      cases h
      rw [hnone, List.append_nil]
    · rw [chunk, hscreen] at h
      cases h
      rw [hsome]
      change Option.map _ (print arg out) = _
      rw [hprint, Option.map_some]

theorem printf_eq (h : printed m args = some l) (buf : ℕ → UInt8) (out : List UInt8) :
    printf buf m args out = some (0, out ++ l) := by
  induction m, args using printed.induct generalizing l out with
  | case1 => cases h
  | case2 args =>
    cases h
    rw [List.append_nil]
    rfl
  | case3 c args hc =>
    rw [printed, if_neg hc] at h
    cases h
  | case4 f rest args =>
    cases h
    rw [List.append_nil]
    rfl
  | case5 c f rest args hc hp ih =>
    rw [printed, if_neg hc, if_pos hp, Option.map_eq_some_iff] at h
    obtain ⟨l', hl', rfl⟩ := h
    rw [printf, if_neg hc, if_pos hp, putchar_schar, ih hl', List.append_assoc]
    rfl
  | case6 c f rest args hc hp ih =>
    rw [printed, if_neg hc, if_neg hp, Option.bind_eq_some_iff] at h
    obtain ⟨p, hp', hl⟩ := h
    obtain ⟨l', hl', rfl⟩ := Option.map_eq_some_iff.mp hl
    rw [printf, if_neg hc, if_neg hp, printArg_eq hp', Option.bind_some, ih p hl', List.append_assoc]

end Format

section Signed

variable {digit : ℤ → UInt8} {i : ℕ}

open PsBuf

theorem kintToStrLoop_natCast (room i : ℕ) (digits : List UInt8) :
    kintToStrLoop (fun d => rep.getD d.toNat 0) 10 room i digits = Numeral.chars rep 10 room i ++ digits := by
  induction room generalizing i digits with
  | zero => rfl
  | succ room ih =>
    have hmod : (i : ℤ).tmod 10 = (i % 10 : ℕ) := rfl
    have hdiv : (i : ℤ).tdiv 10 = (i / 10 : ℕ) := rfl
    rw [kintToStrLoop, Numeral.chars, hmod, hdiv, Int.toNat_natCast]
    by_cases hi : i / 10 = 0
    · rw [if_neg (not_not.mpr (by exact_mod_cast hi)), if_neg (not_not.mpr hi)]
      rfl
    · rw [if_pos (by exact_mod_cast hi), if_pos hi, ih, List.append_assoc]
      rfl

theorem decimal_eq_chars (hi : i < 2 ^ 64) : decimal i = Numeral.chars rep 10 49 i := by
  have hrep : ∀ d < 10, (fun d : ℤ => rep.getD d.toNat 0) (d : ℕ) = (48 + d).toUInt8 := by decide
  have h := @kintToStrLoop_eq (fun d => rep.getD d.toNat 0) hrep 48 i (lt_pow hi (.inl rfl)) []
  rw [kintToStrLoop_natCast, List.append_nil, List.append_nil] at h
  exact h.symm

theorem minus_notMem_decimal (hi : i < 2 ^ 64) : 45 ∉ decimal i := by
  rw [decimal_eq_chars hi]
  intro h
  exact absurd ((rep_canonical hi (.inl rfl)).digits 45 h) (by decide)

def Prints (digit : ℤ → UInt8) (buf : ℕ → UInt8) (arg : Arg) : Prop :=
  printed [0x25, 0x64, 0] [arg] = some (decimal (arg.word.setWidth 32).toInt) ∧
    printf buf [0x25, 0x64, 0] [arg] [] = some (0, decimal (arg.word.setWidth 32).toInt) ∧
    kintToStr digit (arg.word.setWidth 32) 10 = decimal (arg.word.setWidth 32).toInt ∧
    ∀ base : ℤ, 2 ≤ base → ∀ d ∈ kintToStrReads base 49 (arg.word.setWidth 32).toInt, 0 ≤ d ∧ d < base

theorem printed_int (arg : Arg) :
    printed [0x25, 0x64, 0] [arg] = some (decimal (arg.word.setWidth 32).toNat) := by
  have hint : (arg.word.setWidth 32).toNat < 2 ^ 64 := lt_trans (BitVec.isLt _) (by decide)
  rw [decimal_eq_chars hint]
  change some (Screen.convert (arg.word.setWidth 32).toNat 10 ++ []) = _
  rw [List.append_nil, Screen.convert_eq]
  rfl

/-- They do for the numbers that are not negative: a negative one is printed as an `unsigned int`, and its digits are
looked for in front of the table. -/
theorem prints_iff (hdigit : ∀ d < 10, digit (d : ℕ) = (48 + d).toUInt8) (buf : ℕ → UInt8) (arg : Arg) :
    Prints digit buf arg ↔ 0 ≤ (arg.word.setWidth 32).toInt := by
  constructor
  · -- the text of a negative number has a sign, and that of `convert` has none
    rintro ⟨h, -⟩
    by_contra hneg
    rw [printed_int] at h
    have hminus : 45 ∈ decimal (arg.word.setWidth 32).toInt := by
      rw [decimal, if_pos (Int.not_le.mp hneg)]
      exact List.mem_cons_self
    rw [← Option.some.inj h] at hminus
    exact minus_notMem_decimal (lt_trans (BitVec.isLt _) (by decide)) hminus
  · intro hpos
    have hnat : ((arg.word.setWidth 32).toNat : ℤ) = (arg.word.setWidth 32).toInt := by
      rw [BitVec.toInt_eq_toNat_cond] at hpos ⊢
      split at hpos
      · rename_i hlt
        rw [if_pos hlt]
      · have := (arg.word.setWidth 32).isLt
        omega
    have hprinted := printed_int arg
    rw [hnat] at hprinted
    exact ⟨hprinted, printf_eq hprinted buf [], kintToStr_eq hdigit hpos,
      fun base hbase => kintToStrReads_mem (by omega) hpos⟩

theorem prints_fails_on_minus_five :
    printed [0x25, 0x64, 0] [⟨-5, []⟩] = some [52, 50, 57, 52, 57, 54, 55, 50, 57, 49] ∧
      kintToStrReads 10 49 (-5) = [-5] ∧ ¬ Prints (fun d => rep.getD d.toNat 0) (fun _ => 0) ⟨-5, []⟩ := by
  refine ⟨by decide, by decide, fun h => ?_⟩
  exact absurd (h.2.2.2 10 (by decide) (-5) (by decide)) (by decide)

theorem prints_forty_two : Prints (fun d => rep.getD d.toNat 0) (fun _ => 0) ⟨42, []⟩ :=
  (prints_iff (by decide) _ _).mpr (by decide)

end Signed

end Os506.Libc
