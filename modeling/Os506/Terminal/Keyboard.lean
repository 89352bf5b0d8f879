import Os506.Terminal.Discipline

namespace Os506

open Run Terminal

structure Keyboard where
  shift : Bool
  ctrl : Bool

namespace Keyboard

def pairs (shifted plain : String) : List (BitVec 16) :=
  List.zipWith (fun s p => BitVec.ofNat 16 (s.toNat * 256 + p.toNat)) shifted.toList plain.toList

def plain (keys : String) : List (BitVec 16) := keys.toList.map fun c => BitVec.ofNat 16 c.toNat

def kbtb : List (BitVec 16) :=
  [0, 27] ++ pairs "!@#$%^&*()_+" "1234567890-=" ++ [8] ++ plain "I" ++
  plain "qwertyuiop" ++ pairs "\x7b\x7d" "[]" ++ [10, 0] ++
  plain "asdfghjkl" ++ pairs ":\"~" ";'`" ++ [0] ++ pairs "|" "\\" ++
  plain "zxcvbnm" ++ pairs "<>?" ",./" ++ [0] ++ plain "*" ++ [0] ++ plain " " ++
  List.replicate 16 0 ++ plain "-" ++ [0, 0, 0] ++ plain "+"

def updateKkbd (key : BitVec 16) (ctrl : Bool) : UInt8 :=
  let key : BitVec 8 := key.setWidth 8
  UInt8.ofBitVec (if ctrl && decide (96 < key.toInt) && decide (key.toInt < 126) then key - 32 else key)

def printkey (scancode : BitVec 8) (k : Keyboard) : Option UInt8 × Keyboard :=
  let key := kbtb.getD (scancode &&& 0x7F).toNat 0
  if scancode = 0x1C ∨ scancode = 0x0F ∨ scancode = 0x0E then (some (updateKkbd key true), k)
  else if scancode &&& 0x80 = 0 then
    if scancode = 0x2A then (none, { k with shift := true })
    else if scancode = 0x1D then (none, { k with ctrl := true })
    else if k.shift then
      if 96 < key.toInt ∧ key.toInt < 126 then (some (updateKkbd (key - 32) k.ctrl), k)
      else (some (updateKkbd (key >>> 8) k.ctrl), k)
    else (some (updateKkbd key k.ctrl), k)
  else if scancode = 0xAA then (none, { k with shift := false })
  else if scancode = 0x9D then (none, { k with ctrl := false })
  else (none, k)

theorem printkey_typed (scancode : BitVec 8) (k : Keyboard) (c : UInt8) (h : (printkey scancode k).1 = some c) :
    (TermOp.putchar c).Typed := by
  have hall : ∀ n < 256, ∀ shift ctrl, ((printkey (BitVec.ofNat 8 n) ⟨shift, ctrl⟩).1.all fun c =>
      decide (TermOp.putchar c).Typed) = true := by decide +kernel
  have hc := hall scancode.toNat scancode.isLt k.shift k.ctrl
  rw [BitVec.ofNat_toNat, BitVec.setWidth_eq, h] at hc
  exact of_decide_eq_true hc

end Keyboard

inductive ConsoleOp
  | key (scancode : BitVec 8)
  | read (size : ℕ)

structure Console where
  keyboard : Keyboard
  session : Session

def ConsoleOp.step : ConsoleOp → Console → Option Console
  | key scancode, x =>
    let (c, k) := x.keyboard.printkey scancode
    match c with
    | none => some ⟨k, x.session⟩
    | some c => ((TermOp.putchar c).step x.session).map (Console.mk k)
  | read size, x => ((TermOp.read size).step x.session).map (Console.mk x.keyboard)

theorem Console.sound_step {op : ConsoleOp} {x y : Console} (h : x.session.Sound) (hy : op.step x = some y) :
    y.session.Sound := by
  cases op with
  | key scancode =>
    rw [ConsoleOp.step] at hy
    cases hc : (x.keyboard.printkey scancode).1 with
    | none =>
      simp only [hc] at hy
      rw [← Option.some.inj hy]
      exact h
    | some c =>
      simp only [hc] at hy
      obtain ⟨s, hs, rfl⟩ := Option.map_eq_some_iff.mp hy
      exact (h.step (Keyboard.printkey_typed _ _ _ hc) hs).1
  | read size =>
    rw [ConsoleOp.step] at hy
    obtain ⟨s, hs, rfl⟩ := Option.map_eq_some_iff.mp hy
    have htyped : (TermOp.read size).Typed := trivial
    exact (h.step htyped hs).1

theorem Console.disciplined_keys (ops : List ConsoleOp) :
    Along ConsoleOp.step (fun x => x.session.Disciplined) ⟨⟨false, false⟩, .init⟩ ops := by
  apply along_mono (I := fun x => x.session.Sound) fun x hx => hx.disciplined
  exact along_of_inv (fun op x y hx hy => sound_step hx hy) Session.init_sound ops

structure Terminal.Bounded (size : ℕ) (t : Terminal) : Prop where
  stored : (t.termRead size).2.1.length ≤ size
  returned : (t.termRead size).1 ≤ size
  rest : t.queue = (t.termRead size).2.1 ++ (t.termRead size).2.2.queue

theorem Terminal.bounded_of_inv {t : Terminal} (h : t.Inv) (size : ℕ) :
    t.Bounded size ↔ size = 0 ∨ t.count = 0 ∨ lineLength t.queue ≤ size := by
  by_cases hn : size = 0
  · subst hn
    exact iff_of_true ⟨le_rfl, Int.le_refl 0, rfl⟩ (.inl rfl)
  rw [or_iff_right hn]
  rcases termRead_spec h hn with ⟨hr, hz⟩ | ⟨bytes, t', hr, _, _, hsplit, _, _, hz⟩
  · refine iff_of_true ⟨?_, ?_, ?_⟩ (.inl hz)
    · rw [hr]
      exact Nat.zero_le size
    · rw [hr]
      change (-1 : ℤ) ≤ size
      omega
    · rw [hr, List.nil_append]
  · have hany : t.queue.any isDelim = true := by
      rw [← Bool.not_eq_false]
      exact fun hd => hz ((count_eq_zero h).mpr (.inl hd))
    have hbytes : bytes = (t.readLoop (size + 1)).1 := by
      rw [termRead, if_neg hn, if_neg hz] at hr
      exact (congrArg (fun r => r.2.1) hr).symm
    have hlen : bytes.length = min (size + 1) (lineLength t.queue) := hbytes ▸ readLoop_length h hany
    rw [or_iff_right hz]
    constructor
    · intro hb
      have := hb.stored
      rw [hr] at this
      change bytes.length ≤ size at this
      omega
    · intro hle
      refine ⟨?_, ?_, ?_⟩
      · rw [hr]
        change bytes.length ≤ size
        omega
      · rw [hr]
        change (bytes.length : ℤ) ≤ size
        omega
      · rw [hr]
        exact hsplit

/-- After any keys and reads, a read keeps to its size exactly when the first line does or there is none. -/
theorem Console.bounded_iff (ops : List ConsoleOp) :
    Along ConsoleOp.step (fun x => ∀ size, x.session.term.Bounded size ↔
      size = 0 ∨ x.session.term.count = 0 ∨ lineLength x.session.term.queue ≤ size) ⟨⟨false, false⟩, .init⟩ ops := by
  apply along_mono (I := fun x => x.session.Sound) fun x hx => bounded_of_inv hx.inv
  exact along_of_inv (fun op x y hx hy => sound_step hx hy) Session.init_sound ops

theorem Console.bounded_fails_on_longer_line :
    ∃ x, Run.exec ConsoleOp.step [.key 0x1E, .key 0x30, .key 0x1C] ⟨⟨false, false⟩, .init⟩ = some x ∧
      (x.session.term.termRead 1).2.1 = [0x61, 0x62] ∧ ¬ x.session.term.Bounded 1 := by
  have hread : (Run.exec ConsoleOp.step [.key 0x1E, .key 0x30, .key 0x1C] ⟨⟨false, false⟩, .init⟩).map
      (fun x => (x.session.term.termRead 1).2.1) = some [0x61, 0x62] := by decide
  obtain ⟨x, hx, hbytes⟩ := Option.map_eq_some_iff.mp hread
  refine ⟨x, hx, hbytes, fun hb => ?_⟩
  have := hb.stored
  rw [hbytes] at this
  exact absurd this (by decide)

end Os506
