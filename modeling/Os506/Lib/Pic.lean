import Mathlib.Data.BitVec

namespace Os506.Pic

/-- An 8259A interrupt controller. `expects` is the initialisation word that its data port takes next, 0 for none. -/
structure Chip where
  expects : ℕ
  icw4 : Bool
  base : BitVec 8
  cascade : BitVec 8
  mode : BitVec 8
  mask : BitVec 8
  inService : BitVec 8
  deriving DecidableEq

namespace Chip

def command (v : BitVec 8) (c : Chip) : Chip :=
  if v.getLsbD 4 then { c with expects := 2, icw4 := v.getLsbD 0, mask := 0, inService := 0 }
  else if v = 0x20 then { c with inService := c.inService &&& (c.inService - 1) }
  else c

def data (v : BitVec 8) (c : Chip) : Chip :=
  match c.expects with
  | 2 => { c with base := v &&& 0xf8, expects := 3 }
  | 3 => { c with cascade := v, expects := if c.icw4 then 4 else 0 }
  | 4 => { c with mode := v, expects := 0 }
  | _ => { c with mask := v }

/-- A request on a line gets through: it is not masked, and no line of its priority or a higher one is in service. -/
def takes (line : ℕ) (c : Chip) : Bool :=
  decide (c.expects = 0) && !c.mask.getLsbD line && decide (c.inService &&& BitVec.ofNat 8 (2 ^ (line + 1) - 1) = 0)

def serve (line : ℕ) (c : Chip) : Chip := { c with inService := c.inService ||| BitVec.ofNat 8 (2 ^ line) }

end Chip

structure Pair where
  master : Chip
  slave : Chip
  deriving DecidableEq

namespace Pair

def outb (port : BitVec 16) (v : BitVec 8) (p : Pair) : Pair :=
  if port = 0x20 then { p with master := p.master.command v }
  else if port = 0x21 then { p with master := p.master.data v }
  else if port = 0xa0 then { p with slave := p.slave.command v }
  else if port = 0xa1 then { p with slave := p.slave.data v }
  else p

def acknowledge (line : ℕ) (p : Pair) : Option (BitVec 8 × Pair) :=
  if line < 8 then
    if p.master.takes line then some (p.master.base + BitVec.ofNat 8 line, { p with master := p.master.serve line }) else none
  else if p.master.takes 2 && p.slave.takes (line - 8) then
    some (p.slave.base + BitVec.ofNat 8 (line - 8), ⟨p.master.serve 2, p.slave.serve (line - 8)⟩)
  else none

end Pair

theorem end_and {x m : BitVec 8} (h : x &&& m = 0) : x &&& (x - 1) &&& m = 0 := by
  rw [BitVec.and_assoc, BitVec.and_comm (x - 1) m, ← BitVec.and_assoc, h]
  exact BitVec.zero_and

end Os506.Pic
