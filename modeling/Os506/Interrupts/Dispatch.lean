import Os506.Interrupts.Stubs
import Os506.Interrupts.Tables
import Os506.Lib.Pic

namespace Os506.Isr

open Machine Pic

inductive Routine
  | addTick
  | printkey
  deriving DecidableEq

inductive Action
  | message (text : String)
  | errorCode (err : Word)
  | handlePgFault (err : Word)
  | call (f : Routine)
  | outb (port : BitVec 16) (v : BitVec 8)
  deriving DecidableEq

def msg : List String := [
  "Divison By Zero Exeception",
  "Debug Exception",
  "Non Maskable Interrupt Exception",
  "Breakpoint Exception",
  "Into Detected Overflow Exception",
  "Out of Bounds Exception",
  "Invalid Opcode Exception",
  "No Coprocessor Exception",
  "Double Fault Exception",
  "Coprocessor Segment Overrun Exception",
  "Bad TSS Exception",
  "Segment Not Present Exception",
  "Stack Fault Exception",
  "General Protection Fault Exception",
  "Page Fault Exception",
  "Unknown Interrupt Exception",
  "Coprocessor Fault Exception",
  "Alignment Check Exception (486+)",
  "Machine Check Exception (Pentium/586+)",
  "Reserved Exceptions"]

/-- `irq_func`; the entries behind the second are null. -/
def irqFunc : ℕ → Option Routine
  | 0 => some .addTick
  | 1 => some .printkey
  | _ => none

def isrHandler (num err : Word) : List Action :=
  if num.toNat < 32 then
    [.message (msg.getD (if 18 < num.toNat then 19 else num.toNat) "")] ++
      (if err ≠ num then [.errorCode err] else []) ++ (if num = 14 then [.handlePgFault err] else [])
  else if num.toNat < 48 then
    (irqFunc (num.toNat - 32)).toList.map .call ++ (if 40 ≤ num.toNat then [.outb 0xa0 0x20] else []) ++ [.outb 0x20 0x20]
  else []

def Action.onPair : Action → Pair → Pair
  | .outb port v, p => p.outb port v
  | _, p => p

def handled (num err : Word) (p : Pair) : Pair := (isrHandler num err).foldl (fun p a => a.onPair p) p

def picRemap : List (BitVec 16 × BitVec 8) := [
  (0x20, 0x11), (0xa0, 0x11),
  (0x21, 0x20), (0xa1, 0x28),
  (0x21, 4), (0xa1, 2),
  (0x21, 0x01), (0xa1, 0x01),
  (0x21, 0x00), (0xa1, 0x00)]

def remapped (p : Pair) : Pair := picRemap.foldl (fun p o => p.outb o.1 o.2) p

structure Request where
  line : Fin 16
  state : State

section Served

variable (isr : ℕ → Word) (gdt : List Word) (status : Word → Word → Word) (sem : Callee → State → Option State)
  (ret rsp0 : Word)

def noGate (v : BitVec 8) : Word := v.setWidth 64 * 8 + 3

def refused (v : BitVec 8) (s : State) : State :=
  s.enter (Gate.decode (Idt.initIdt isr 13).bits) rsp0 (some (noGate v))

/-- The controllers when a request has been served. The routines of the timer and of the keyboard return; a request
whose vector has no gate ends where `_isr13` does, and never if that does not return. -/
def Request.served (r : Request) (p : Pair) : Option Pair :=
  match p.acknowledge r.line with
  | none => some p
  | some (v, p) =>
    if (Gate.decode (Idt.initIdt isr v).bits).admits false 0 then some (handled (v.setWidth 64) (v.setWidth 64) p)
    else (run gdt status sem (entry ret 13) (refused isr rsp0 v r.state)).map fun _ =>
      handled (number 13 (refused isr rsp0 v r.state)) (noGate v) p

end Served

structure Ready (p : Pair) : Prop where
  expects : p.master.expects = 0
  base : p.master.base = 0x20
  mask : p.master.mask = 0
  slave : p.slave.base = 0x28
  free : p.master.inService &&& 3 = 0

variable {p q : Pair} {isr : ℕ → Word} {gdt : List Word} {status : Word → Word → Word}
  {sem : Callee → State → Option State} {ret rsp0 : Word} {r : Request}

theorem remapped_ready (p : Pair) : Ready (remapped p) := by
  refine ⟨rfl, rfl, rfl, rfl, ?_⟩
  have : (remapped p).master.inService = 0 := rfl
  rw [this]
  exact BitVec.zero_and

theorem outb_mem {num err : Word} {port : BitVec 16} {v : BitVec 8} (h : .outb port v ∈ isrHandler num err) :
    (port = 0x20 ∨ port = 0xa0) ∧ v = 0x20 := by
  rw [isrHandler] at h
  split at h
  · split at h <;> split at h <;> simp at h
  · split at h
    · cases irqFunc (num.toNat - 32) <;> split at h <;> simp at h <;> grind
    · cases h

theorem onPair_ready {num err : Word} {a : Action} (ha : a ∈ isrHandler num err) (h : Ready p) : Ready (a.onPair p) := by
  cases a with
  | outb port v =>
    obtain ⟨hport, rfl⟩ := outb_mem ha
    rcases hport with rfl | rfl
    · exact ⟨h.expects, h.base, h.mask, h.slave, end_and h.free⟩
    · exact ⟨h.expects, h.base, h.mask, h.slave, h.free⟩
  | message | errorCode | handlePgFault | call => exact h

theorem handled_ready (num err : Word) (h : Ready p) : Ready (handled num err p) := by
  rw [handled]
  exact List.foldlRecOn _ _ h fun q hq a ha => onPair_ready ha hq

theorem end_serve {x b : BitVec 8} (hb : b = 1 ∨ b = 2) (h : x &&& 3 = 0) : (x ||| b) &&& ((x ||| b) - 1) = x := by
  revert x
  rcases hb with rfl | rfl <;> decide

theorem acknowledge_first (h : Ready p) {line : ℕ} (hline : line < 2) :
    p.acknowledge line = some (0x20 + BitVec.ofNat 8 line, { p with master := p.master.serve line }) := by
  have hfree : p.master.inService &&& BitVec.ofNat 8 (2 ^ (line + 1) - 1) = 0 := by
    have hall : ∀ x : BitVec 8, x &&& 3 = 0 → x &&& 1 = 0 ∧ x &&& 3 = 0 := by decide
    obtain ⟨h0, h1⟩ := hall _ h.free
    match line, hline with
    | 0, _ => exact h0
    | 1, _ => exact h1
  have htakes : p.master.takes line = true := by
    rw [Chip.takes, h.expects, h.mask, hfree]
    simp
  rw [Pair.acknowledge, if_pos (by omega), if_pos htakes, h.base]

theorem outb_serve (h : Ready p) {line : ℕ} (hline : line < 2) :
    ({ p with master := p.master.serve line } : Pair).outb 0x20 0x20 = p := by
  have hb : BitVec.ofNat 8 (2 ^ line) = 1 ∨ BitVec.ofNat 8 (2 ^ line) = 2 := by
    match line, hline with
    | 0, _ => exact .inl rfl
    | 1, _ => exact .inr rfl
  rw [Pair.outb, if_pos rfl, Chip.command, if_neg (by decide), if_pos rfl, Chip.serve, end_serve hb h.free]

def firstActions (line : ℕ) : List Action := (irqFunc line).toList.map .call ++ [.outb 0x20 0x20]

theorem isrHandler_first {line : ℕ} (hline : line < 2) :
    isrHandler (BitVec.ofNat 64 (32 + line)) (BitVec.ofNat 64 (32 + line)) = firstActions line := by
  match line, hline with
  | 0, _ => decide
  | 1, _ => decide

theorem handled_first (h : Ready p) {line : ℕ} (hline : line < 2) :
    handled (BitVec.ofNat 64 (32 + line)) (BitVec.ofNat 64 (32 + line)) { p with master := p.master.serve line } = p := by
  rw [handled, isrHandler_first hline, firstActions, List.foldl_append, List.foldl_map]
  have hcalls : (irqFunc line).toList.foldl (fun q f => (Action.call f).onPair q) { p with master := p.master.serve line } =
      { p with master := p.master.serve line } := by
    cases irqFunc line <;> rfl
  rw [hcalls]
  exact outb_serve h hline

theorem admits_first (isr : ℕ → Word) {line : ℕ} (hline : line < 2) :
    Gate.decode (Idt.initIdt isr (0x20 + BitVec.ofNat 8 line)).bits = ⟨isr (32 + line), 0x08, true, true, 0, 0⟩ := by
  rw [Idt.decode_initIdt]
  match line, hline with
  | 0, _ => rfl
  | 1, _ => rfl

theorem serve_free {x : BitVec 8} {line : ℕ} (h2 : 2 ≤ line) (h8 : line < 8) (h : x &&& 3 = 0) :
    (x ||| BitVec.ofNat 8 (2 ^ line)) &&& 3 = 0 := by
  have hall : ∀ x : BitVec 8, x &&& 3 = 0 → ∀ l : Fin 6, (x ||| BitVec.ofNat 8 (2 ^ (2 + l.val))) &&& 3 = 0 := by decide
  have := hall x h ⟨line - 2, by omega⟩
  rwa [show 2 + (line - 2) = line by omega] at this

theorem served_first (h : Ready p) (hr : r.line.val < 2) : r.served isr gdt status sem ret rsp0 p = some p := by
  have hv : (0x20 + BitVec.ofNat 8 r.line.val).setWidth 64 = BitVec.ofNat 64 (32 + r.line.val) := by
    match r.line.val, hr with
    | 0, _ => rfl
    | 1, _ => rfl
  rw [Request.served, acknowledge_first h hr]
  dsimp only
  have hgate : (⟨isr (32 + r.line.val), 0x08, true, true, 0, 0⟩ : Gate).admits false 0 = true := rfl
  rw [admits_first isr hr, if_pos hgate, hv, handled_first h hr]

theorem acknowledge_ready (h : Ready p) {line : ℕ} (h2 : 2 ≤ line) {v : BitVec 8} {q : Pair}
    (hq : p.acknowledge line = some (v, q)) : Ready q := by
  rw [Pair.acknowledge] at hq
  split at hq
  case isTrue h8 =>
    split at hq
    · cases hq
      exact ⟨h.expects, h.base, h.mask, h.slave, serve_free h2 h8 h.free⟩
    · cases hq
  case isFalse =>
    split at hq
    · cases hq
      exact ⟨h.expects, h.base, h.mask, h.slave, serve_free (Nat.le_refl 2) (by decide) h.free⟩
    · cases hq

theorem served_ready (h : Ready p) (hq : r.served isr gdt status sem ret rsp0 p = some q) : Ready q := by
  by_cases hr : r.line.val < 2
  · rw [served_first h hr] at hq
    cases hq
    exact h
  rw [Request.served] at hq
  split at hq
  · cases hq
    exact h
  case h_2 v m hm =>
    have hm := acknowledge_ready h (by omega) hm
    split at hq
    · cases hq
      exact handled_ready _ _ hm
    · obtain ⟨t, -, rfl⟩ := Option.map_eq_some_iff.mp hq
      exact handled_ready _ _ hm

theorem acknowledge_remapped (p : Pair) (line : Fin 16) :
    ∃ q, (remapped p).acknowledge line = some (BitVec.ofNat 8 (32 + line.val), q) := by
  have hfresh : remapped p = ⟨⟨0, true, 0x20, 4, 1, 0, 0⟩, ⟨0, true, 0x28, 2, 1, 0, 0⟩⟩ := rfl
  have hfst : ((remapped p).acknowledge line).map Prod.fst = some (BitVec.ofNat 8 (32 + line.val)) := by
    rw [hfresh]
    revert line
    decide
  obtain ⟨⟨v, q⟩, hq, rfl⟩ := Option.map_eq_some_iff.mp hfst
  exact ⟨q, hq⟩

theorem served_other (p : Pair) (hr : 2 ≤ r.line.val) (hmap : r.state.mapped 13 = false) :
    r.served isr gdt status sem ret rsp0 (remapped p) = none := by
  obtain ⟨q, hq⟩ := acknowledge_remapped p r.line
  have hgate : (Gate.decode (Idt.initIdt isr (BitVec.ofNat 8 (32 + r.line.val))).bits).admits false 0 = false := by
    have hv : (BitVec.ofNat 8 (32 + r.line.val)).toNat = 32 + r.line.val := by
      rw [BitVec.toNat_ofNat]
      omega
    have h128 : BitVec.ofNat 8 (32 + r.line.val) ≠ 128 := by
      intro h
      rw [h] at hv
      have : (128 : BitVec 8).toNat = 128 := rfl
      omega
    rw [Idt.decode_initIdt, if_neg h128, if_neg (by omega)]
    rfl
  rw [Request.served, hq]
  dsimp only
  rw [hgate, if_neg Bool.false_ne_true, run_isrE_unmapped (by decide) (by decide)]
  · rfl
  · rw [refused, State.mapped_enter]
    exact hmap

theorem exec_first (p : Pair) {requests : List Request} (h : ∀ r ∈ requests, r.line.val < 2) :
    Run.exec (Request.served isr gdt status sem ret rsp0) requests (remapped p) = some (remapped p) := by
  obtain ⟨q, hq, rfl⟩ : ∃ q, Run.exec (Request.served isr gdt status sem ret rsp0) requests (remapped p) = some q ∧
      q = remapped p := Run.exec_inv_of_step (I := fun q => q = remapped p) (C := fun r _ => r.line.val < 2)
    (fun r q hq hr => ⟨q, by rw [hq]; exact served_first (remapped_ready p) hr, hq⟩) rfl (Run.meets_of_mem h)
  exact hq

/-- The kernel lasts as long as only the timer and the keyboard ask for service, where nothing is mapped at address 13. -/
theorem exec_other (p : Pair) {requests : List Request} (hother : ∃ r ∈ requests, 2 ≤ r.line.val)
    (hmap : ∀ r ∈ requests, r.state.mapped 13 = false) :
    Run.exec (Request.served isr gdt status sem ret rsp0) requests (remapped p) = none := by
  induction requests with
  | nil =>
    obtain ⟨r, hr, -⟩ := hother
    cases hr
  | cons r rest ih =>
    rw [Run.exec]
    by_cases hr : r.line.val < 2
    · rw [served_first (remapped_ready p) hr, Option.bind_some]
      refine ih ?_ fun r' h => hmap r' (List.mem_cons_of_mem r h)
      obtain ⟨r', hmem, hr'⟩ := hother
      rcases List.mem_cons.mp hmem with rfl | hmem
      · omega
      · exact ⟨r', hmem, hr'⟩
    · rw [served_other p (by omega) (hmap r List.mem_cons_self)]
      rfl

/-- The timer and the keyboard are not locked out: after any requests of the sixteen lines that the kernel comes back
from, each of the two gets through with a vector that has a gate, its routine is called, and the controllers are left as
they were. It comes back from requests of these two; where nothing is mapped at address 13, a request of any other line is
the last. -/
theorem first_lines_served (isr : ℕ → Word) (p : Pair) (requests : List Request) :
    (∀ q, Run.exec (Request.served isr gdt status sem ret rsp0) requests (remapped p) = some q → ∀ line < 2,
        ∃ m : Pair, q.acknowledge line = some (BitVec.ofNat 8 (32 + line), m) ∧
          Gate.decode (Idt.initIdt isr (BitVec.ofNat 8 (32 + line))).bits = ⟨isr (32 + line), 0x08, true, true, 0, 0⟩ ∧
          isrHandler (BitVec.ofNat 64 (32 + line)) (BitVec.ofNat 64 (32 + line)) =
            (irqFunc line).toList.map .call ++ [.outb 0x20 0x20] ∧
          handled (BitVec.ofNat 64 (32 + line)) (BitVec.ofNat 64 (32 + line)) m = q) ∧
      ((∀ r ∈ requests, r.line.val < 2) →
        Run.exec (Request.served isr gdt status sem ret rsp0) requests (remapped p) = some (remapped p)) ∧
      ((∃ r ∈ requests, 2 ≤ r.line.val) → (∀ r ∈ requests, r.state.mapped 13 = false) →
        Run.exec (Request.served isr gdt status sem ret rsp0) requests (remapped p) = none) := by
  refine ⟨fun q hq line hline => ?_, exec_first p, exec_other p⟩
  have hready : Ready q :=
    Run.exec_of_along (Run.along_of_inv (fun _ _ _ h ht => served_ready h ht) (remapped_ready p) requests) hq
  have hv : 0x20 + BitVec.ofNat 8 line = BitVec.ofNat 8 (32 + line) := by
    match line, hline with
    | 0, _ => rfl
    | 1, _ => rfl
  refine ⟨_, (acknowledge_first hready hline).trans (by rw [hv]), ?_, isrHandler_first hline, handled_first hready hline⟩
  rw [← hv]
  exact admits_first isr hline

end Os506.Isr
