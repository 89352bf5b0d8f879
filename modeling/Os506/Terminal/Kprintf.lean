import Os506.Lib.Numeral
import Os506.Terminal.Screen

namespace Os506.Screen

structure Arg where
  word : BitVec 64
  text : List UInt8

def rep : List UInt8 := [48, 49, 50, 51, 52, 53, 54, 55, 56, 57, 65, 66, 67, 68, 69, 70]

def convertLoop (base : ℕ) : ℕ → ℕ → List UInt8 → List UInt8
  | 0, _, digits => digits
  | room + 1, i, digits =>
    let digits := rep.getD (i % base) 0 :: digits
    if i / base ≠ 0 then convertLoop base room (i / base) digits else digits

def convert (i base : ℕ) : List UInt8 := convertLoop base 49 i []

def convertBuffer (i base : ℕ) (buf : ℕ → UInt8) : Option (ℕ × (ℕ → UInt8)) := Numeral.print rep base 49 i buf

theorem convertLoop_eq (base room i : ℕ) (digits : List UInt8) :
    convertLoop base room i digits = Numeral.chars rep base room i ++ digits := by
  induction room generalizing i digits with
  | zero => rfl
  | succ room ih =>
    rw [convertLoop, Numeral.chars]
    split
    · rw [ih, List.append_assoc]
      rfl
    · rfl

theorem convert_eq (i base : ℕ) : convert i base = Numeral.chars rep base 49 i := by
  rw [convert, convertLoop_eq, List.append_nil]

/-- The string for the letter behind a `%`; `%d` takes an `int` as `unsigned int`. -/
def directive (f : UInt8) (arg : Arg) : Option (List UInt8) :=
  if f = 0x63 then some [UInt8.ofBitVec (arg.word.setWidth 8)]
  else if f = 0x64 then some (convert (arg.word.setWidth 32).toNat 10)
  else if f = 0x73 then some arg.text
  else if f = 0x78 then some (convert arg.word.toNat 16)
  else if f = 0x70 then some ([0x30, 0x78] ++ convert arg.word.toNat 16)
  else none

def chunk (f : UInt8) : List Arg → Option (List UInt8 × List Arg)
  | [] => if (directive f ⟨0, []⟩).isSome then none else some ([], [])
  | arg :: args =>
    match directive f arg with
    | some text => some (text, args)
    | none => some ([], arg :: args)

def kprintf (fuel : ℕ) : List UInt8 → List Arg → Screen → Option Screen
  | [], _, _ => none
  | [c], _, s => if c = 0 then some s else none
  | c :: f :: rest, args, s =>
    if c = 0 then some s
    else if c ≠ 0x25 then (kputchar fuel c s).bind (kprintf fuel (f :: rest) args)
    else (chunk f args).bind fun p => (kputs fuel p.1 s).bind (kprintf fuel rest p.2)

def printed : List UInt8 → List Arg → Option (List UInt8)
  | [], _ => none
  | [c], _ => if c = 0 then some [] else none
  | c :: f :: rest, args =>
    if c = 0 then some []
    else if c ≠ 0x25 then (printed (f :: rest) args).map (c :: ·)
    else (chunk f args).bind fun p => (printed rest p.2).map (p.1 ++ ·)

theorem kputs_append (fuel : ℕ) (l l' : List UInt8) (s : Screen) :
    kputs fuel (l ++ l') s = (kputs fuel l s).bind (kputs fuel l') := by
  induction l generalizing s with
  | nil => rfl
  | cons c l ih =>
    rw [List.cons_append, kputs, kputs, Option.bind_assoc]
    exact congrArg _ (funext ih)

theorem kprintf_eq {m l : List UInt8} {args : List Arg} (h : printed m args = some l) (fuel : ℕ) (s : Screen) :
    kprintf fuel m args s = kputs fuel l s := by
  induction m, args using printed.induct generalizing l s with
  | case1 => cases h
  | case2 args =>
    cases h
    rfl
  | case3 c args hc =>
    rw [printed, if_neg hc] at h
    cases h
  | case4 f rest args =>
    cases h
    rfl
  | case5 c f rest args hc hp ih =>
    rw [printed, if_neg hc, if_pos hp, Option.map_eq_some_iff] at h
    obtain ⟨l', hl', rfl⟩ := h
    rw [kprintf, if_neg hc, if_pos hp, kputs]
    exact congrArg _ (funext (ih hl'))
  | case6 c f rest args hc hp ih =>
    rw [printed, if_neg hc, if_neg hp, Option.bind_eq_some_iff] at h
    obtain ⟨p, hp', hl⟩ := h
    obtain ⟨l', hl', rfl⟩ := Option.map_eq_some_iff.mp hl
    rw [kprintf, if_neg hc, if_neg hp, hp', kputs_append, Option.bind_some]
    exact congrArg _ (funext (ih p hl'))

/-- From every position a text is written, with four blanks for a tab, exactly when it has no tab; so are the strings of
`kputs` and what a format of `kprintf` prints. -/
theorem written_iff (s : Screen) (l : List UInt8) :
    ((∃ fuel, termWrite fuel (some l) s = some ((l.length : ℤ), written l s)) ↔ Terminal.tab ∉ l) ∧
      ((∃ fuel, kputs fuel l s = some (written l s)) ↔ Terminal.tab ∉ l) ∧
      ∀ m args, printed m args = some l → ((∃ fuel, kprintf fuel m args s = some (written l s)) ↔ Terminal.tab ∉ l) := by
  refine ⟨?_, kputs_written_iff, fun m args hm => ?_⟩
  · rw [← kputs_written_iff (s := s)]
    apply exists_congr
    intro fuel
    simp only [termWrite, Option.map_eq_some_iff, Prod.mk.injEq, true_and, exists_eq_right]
  · rw [← kputs_written_iff (s := s)]
    apply exists_congr
    intro fuel
    rw [kprintf_eq hm]

theorem termWrite_tab_hangs : ¬ ∃ fuel t, termWrite fuel (some [Terminal.tab]) dark = some t := by
  rintro ⟨fuel, t, h⟩
  rw [termWrite, kputs, kputchar_tab] at h
  cases h

theorem written_number : printed [0x6E, 0x3D, 0x25, 0x64, 0] [⟨42, []⟩] = some [0x6E, 0x3D, 0x34, 0x32] ∧
    ∃ fuel, kprintf fuel [0x6E, 0x3D, 0x25, 0x64, 0] [⟨42, []⟩] dark = some (written [0x6E, 0x3D, 0x34, 0x32] dark) := by
  have hm : printed [0x6E, 0x3D, 0x25, 0x64, 0] [⟨42, []⟩] = some [0x6E, 0x3D, 0x34, 0x32] := by decide
  exact ⟨hm, ((written_iff dark _).2.2 _ _ hm).mpr (by decide)⟩

end Os506.Screen
