import Os506.Files.Tarfs
import Os506.Scheduler.Family
import Mathlib.Data.Fintype.Basic
import Mathlib.Data.Finset.Prod
import Mathlib.Data.List.FinRange

namespace Os506

open Run Sched Tarfs

/-- The tasks and the file objects by address: `none` was never allocated or has been freed. The kernel's
addresses grow and are not used twice. -/
structure Files where
  sched : Sched
  obj : ℕ → Option FileObj
  fresh : ℕ

/-- The calls of one task that touch descriptors. `getdents` leaves some offset in the object. -/
inductive FileOp
  | create (userp : Bool) (name : List UInt8) (entry : BitVec 64)
  | fork (entry : BitVec 64)
  | openFile (name : Option (List UInt8)) (flags : BitVec 32)
  | close (fd : Fin 50)
  | read (fd : Fin 50) (count : BitVec 64)
  | getdents (fd : Fin 50) (offset : BitVec 64)

structure FileAct where
  caller : ℕ
  op : FileOp

namespace Files

variable (fs : Tarfs) (x : Files)

def slot (t : ℕ) (n : Fin 50) : Option FileRef := (x.sched.task t).fdarr n

def setSlot (t : ℕ) (n : Fin 50) (r : Option FileRef) : Files :=
  { x with sched := x.sched.modify t fun k => { k with fdarr := Function.update k.fdarr n r } }

def getFreeFd (c : ℕ) : Option (Fin 50) := (List.finRange 50).find? fun n => (x.slot c n).isNone

def sysOpen (c : ℕ) (name : Option (List UInt8)) (flags : BitVec 32) : Files :=
  match name with
  | none => x
  | some name => match x.getFreeFd c with
    | none => x
    | some fd => match fs.tfsOpen name.dropLast flags with
      | none => x
      | some filep =>
        { x.setSlot c fd (some (.object x.fresh)) with
          obj := Function.update x.obj x.fresh (some filep), fresh := x.fresh + 1 }

/-- `none`: the object behind the descriptor has been freed, and the call through its `fop` faults. -/
def sysClose (c : ℕ) (fd : Fin 50) : Option Files :=
  match x.slot c fd with
  | none => some x
  | some .term => some (x.setSlot c fd none)
  | some (.object a) => (x.obj a).map fun filep =>
    { x.setSlot c fd none with obj := Function.update x.obj a (tfsClose filep) }

def onFile (c : ℕ) (fd : Fin 50) (f : FileObj → FileObj) : Option Files :=
  match x.slot c fd with
  | none | some .term => some x
  | some (.object a) => (x.obj a).map fun filep => { x with obj := Function.update x.obj a (some (f filep)) }

end Files

def FileAct.step (fs : Tarfs) (a : FileAct) (x : Files) : Option Files :=
  match a.op with
  | .create userp name entry => some { x with sched := (Op.schedule userp name entry).effect a.caller x.sched }
  | .fork entry => some { x with sched := (Op.fork entry).effect a.caller x.sched }
  | .openFile name flags => some (x.sysOpen fs a.caller name flags)
  | .close fd => x.sysClose a.caller fd
  | .read fd count => if count = 0 then some x else x.onFile a.caller fd (tfsRead count)
  | .getdents fd offset => x.onFile a.caller fd fun filep => { filep with offset := offset }

def FileAct.Enabled (a : FileAct) (x : Files) : Prop :=
  match a.op with
  | .create .. => True
  | _ => x.sched.Live a.caller

namespace Files

def boot : Files := ⟨Sched.boot, fun _ => none, 0⟩

variable {x y : Files} {c t : ℕ} {n fd : Fin 50} {a : ℕ}

def slots (x : Files) (a : ℕ) : Finset (ℕ × Fin 50) :=
  (Finset.range x.sched.count ×ˢ Finset.univ).filter fun p =>
    (x.sched.task p.1).runnable = true ∧ x.slot p.1 p.2 = some (.object a)

theorem mem_slots : (t, n) ∈ x.slots a ↔ x.sched.Live t ∧ x.slot t n = some (.object a) := by
  simp [slots, Live, and_assoc]

/-- No descriptor of a live task dangles, and every object counts the descriptors that refer to it. -/
structure Sound (x : Files) : Prop where
  alive : ∀ t, x.sched.Live t → ∀ n a, x.slot t n = some (.object a) → (x.obj a).isSome
  count : ∀ a o, x.obj a = some o → o.count.toNat = (x.slots a).card

theorem setSlot_slot (r : Option FileRef) :
    (x.setSlot c fd r).slot t n = if t = c ∧ n = fd then r else x.slot t n := by
  by_cases ht : t = c
  · subst ht
    by_cases hn : n = fd
    · subst hn; simp [setSlot, slot]
    · simp [setSlot, slot, hn]
  · simp [setSlot, slot, ht]

theorem setSlot_live (r : Option FileRef) : (x.setSlot c fd r).sched.Live t ↔ x.sched.Live t := by
  by_cases ht : t = c
  · subst ht; simp [setSlot, Live]
  · simp [setSlot, Live, ht]

end Files

end Os506
