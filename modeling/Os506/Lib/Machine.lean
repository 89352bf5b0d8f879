import Mathlib.Data.BitVec
import Mathlib.Data.List.Nodup
import Mathlib.Logic.Function.Basic
import Os506.Lib.Bytes
import Os506.Lib.Run

namespace Os506.Machine

abbrev Word := BitVec 64

inductive Reg
  | rax | rbx | rcx | rdx | rsi | rdi | rbp | rsp | r8 | r9 | r10 | r11 | r12 | r13 | r14 | r15
  deriving DecidableEq

abbrev Mem := Word → UInt8

def load (m : Mem) (a : Word) : Word := BitVec.ofNat 64 (Bytes.decode ((List.range 8).map fun i => m (a + BitVec.ofNat 64 i)))

def store (m : Mem) (a v : Word) : Mem := fun x => (Bytes.encode 8 v.toNat)[(x - a).toNat]?.getD (m x)

theorem load_store (m : Mem) (a v : Word) : load (store m a v) a = v := by
  have hbytes : ((List.range 8).map fun i => store m a v (a + BitVec.ofNat 64 i)) = Bytes.encode 8 v.toNat := by
    apply List.ext_getElem
    · rw [List.length_map, List.length_range, Bytes.length_encode]
    · intro i hi hi'
      rw [Bytes.length_encode] at hi'
      have hoff : (a + BitVec.ofNat 64 i - a).toNat = i := by
        rw [BitVec.add_comm, BitVec.add_sub_cancel, BitVec.toNat_ofNat]
        omega
      rw [List.getElem_map, List.getElem_range, store, hoff,
        List.getElem?_eq_getElem (by rwa [Bytes.length_encode]), Option.getD_some]
  rw [load, hbytes, Bytes.decode_encode (show v.toNat < 256 ^ 8 from v.isLt), BitVec.ofNat_toNat, BitVec.setWidth_eq]

theorem store_off {m : Mem} {a v x : Word} (h : 8 ≤ (x - a).toNat) : store m a v x = m x := by
  rw [store, List.getElem?_eq_none (by rwa [Bytes.length_encode]), Option.getD_none]

theorem load_congr {m m' : Mem} {a b : Word} (h : ∀ i < 8, m' (a + BitVec.ofNat 64 i) = m (b + BitVec.ofNat 64 i)) :
    load m' a = load m b := by
  rw [load, load, List.map_congr_left fun i hi => h i (List.mem_range.mp hi)]

theorem load_store_off {m : Mem} {a v b : Word} (h : 8 ≤ (b - a).toNat) (h' : (b - a).toNat ≤ 2 ^ 64 - 8) :
    load (store m a v) b = load m b := by
  apply load_congr
  intro i hi
  apply store_off
  bv_omega

-- below, states are compared without looking at single bytes
attribute [irreducible] load store

def Holds (m : Mem) : Word → List Word → Prop
  | _, [] => True
  | a, w :: ws => load m a = w ∧ Holds m (a + 8) ws

section Holds

variable {m m' : Mem} {a v : Word} {ws ws' : List Word}

theorem holds_congr (h : ∀ i < ws.length, load m' (a + BitVec.ofNat 64 (8 * i)) = load m (a + BitVec.ofNat 64 (8 * i)))
    (hw : Holds m a ws) : Holds m' a ws := by
  induction ws generalizing a with
  | nil => trivial
  | cons w ws ih =>
    refine ⟨?_, ih (fun i hi => ?_) hw.2⟩
    · rw [← hw.1]
      simpa using h 0 (Nat.succ_pos _)
    · have hoff : a + 8 + BitVec.ofNat 64 (8 * i) = a + BitVec.ofNat 64 (8 * (i + 1)) := by bv_omega
      rw [hoff]
      exact h (i + 1) (Nat.succ_lt_succ hi)

theorem holds_get (h : Holds m a ws) {i : ℕ} {w : Word} (hi : ws[i]? = some w) :
    load m (a + BitVec.ofNat 64 (8 * i)) = w := by
  induction ws generalizing a i with
  | nil => cases hi
  | cons w' ws ih =>
    cases i with
    | zero =>
      rw [Nat.mul_zero, BitVec.add_zero, h.1]
      exact Option.some.inj hi
    | succ i =>
      have hoff : a + BitVec.ofNat 64 (8 * (i + 1)) = a + 8 + BitVec.ofNat 64 (8 * i) := by bv_omega
      rw [hoff]
      exact ih h.2 hi

theorem holds_of_get (h : ∀ i w, ws[i]? = some w → load m (a + BitVec.ofNat 64 (8 * i)) = w) : Holds m a ws := by
  induction ws generalizing a with
  | nil => trivial
  | cons w ws ih =>
    refine ⟨by simpa using h 0 w rfl, ih fun i w' hw => ?_⟩
    have hoff : a + 8 + BitVec.ofNat 64 (8 * i) = a + BitVec.ofNat 64 (8 * (i + 1)) := by bv_omega
    rw [hoff]
    exact h (i + 1) w' hw

theorem holds_push (hlen : ws.length < 2 ^ 60) (h : Holds m a ws) : Holds (store m (a - 8) v) (a - 8) (v :: ws) := by
  refine ⟨load_store m (a - 8) v, ?_⟩
  rw [BitVec.sub_add_cancel]
  refine holds_congr (fun i hi => ?_) h
  apply load_store_off <;> bv_omega

theorem holds_append : Holds m a (ws ++ ws') ↔ Holds m a ws ∧ Holds m (a + BitVec.ofNat 64 (8 * ws.length)) ws' := by
  induction ws generalizing a with
  | nil => simp [Holds]
  | cons w ws ih =>
    have hoff : a + 8 + BitVec.ofNat 64 (8 * ws.length) = a + BitVec.ofNat 64 (8 * (w :: ws).length) := by
      rw [List.length_cons]
      bv_omega
    rw [List.cons_append, Holds, Holds, ih, hoff, and_assoc]

end Holds

/-- The state of a processor; `mapped` are the addresses that code of the kernel can read. -/
@[ext] structure State where
  reg : Reg → Word
  rip : Word
  rflags : Word
  cs : BitVec 16
  ss : BitVec 16
  mem : Mem
  mapped : Word → Bool

namespace State

def set (s : State) (r : Reg) (v : Word) : State := { s with reg := Function.update s.reg r v }

def push (s : State) (v : Word) : State :=
  { s with reg := Function.update s.reg .rsp (s.reg .rsp - 8), mem := store s.mem (s.reg .rsp - 8) v }

def top (s : State) : Word := load s.mem (s.reg .rsp)

def Stack (s : State) (ws : List Word) : Prop := Holds s.mem (s.reg .rsp) ws

def cpl (s : State) : ℕ := s.cs.toNat % 4

end State

inductive Operand
  | reg (r : Reg)
  | imm (v : Word)
  | abs (a : Word)

/-- The value of an operand; a read where nothing is mapped faults. -/
def State.value (s : State) : Operand → Option Word
  | .reg r => some (s.reg r)
  | .imm v => some v
  | .abs a => if s.mapped a then some (load s.mem a) else none

/-- The instructions of straight-line code; `φ` names the functions that it calls, and a call carries the address it
returns to. -/
inductive Instr (φ : Type)
  | cli
  | sti
  | pushq (o : Operand)
  | popq (r : Reg)
  | movq (o : Operand) (r : Reg)
  | addq (v : Word) (r : Reg)
  | orq (v : Word) (r : Reg)
  | xorq (r : Reg)
  | pushfq
  | call (f : φ) (ret : Word)

def interruptFlag : Word := 0x200

def statusFlags : Word := 0x8d5

variable {φ : Type}

section Step

-- `status` is what the arithmetic unit makes of two operands, `sem` what a called function does up to its return
variable (status : Word → Word → Word) (sem : φ → State → Option State)

def State.arith (s : State) (v w : Word) : State :=
  { s with rflags := (s.rflags &&& ~~~statusFlags) ||| (status v w &&& statusFlags) }

def step : Instr φ → State → Option State
  | .cli, s => some { s with rflags := s.rflags &&& ~~~interruptFlag }
  | .sti, s => some { s with rflags := s.rflags ||| interruptFlag }
  | .pushq o, s => (s.value o).map s.push
  | .popq r, s => some ((s.set .rsp (s.reg .rsp + 8)).set r s.top)
  | .movq o r, s => (s.value o).map (s.set r)
  | .addq v r, s => some ((s.set r (s.reg r + v)).arith status (s.reg r) v)
  | .orq v r, s => some ((s.set r (s.reg r ||| v)).arith status (s.reg r) v)
  | .xorq r, s => some ((s.set r 0).arith status (s.reg r) (s.reg r))
  | .pushfq, s => some (s.push s.rflags)
  | .call f ret, s => sem f (s.push ret)

end Step

structure Descriptor where
  present : Bool
  code : Bool
  writable : Bool
  conforming : Bool
  long : Bool
  dpl : ℕ
  deriving DecidableEq

def Descriptor.decode (d : Word) : Descriptor where
  present := d.getLsbD 47
  code := d.getLsbD 44 && d.getLsbD 43
  writable := d.getLsbD 44 && !d.getLsbD 43 && d.getLsbD 41
  conforming := d.getLsbD 42
  long := d.getLsbD 53
  dpl := (d.extractLsb' 45 2).toNat

def select (gdt : List Word) (sel : BitVec 16) : Option Descriptor :=
  if sel.toNat / 8 = 0 ∨ sel.getLsbD 2 = true then none else gdt[sel.toNat / 8]?.map Descriptor.decode

def returnsTo (gdt : List Word) (cs : BitVec 16) : Bool :=
  (select gdt cs).any fun d => d.present && d.code && d.long &&
    (if d.conforming then decide (d.dpl ≤ cs.toNat % 4) else decide (d.dpl = cs.toNat % 4))

def stacksAt (gdt : List Word) (cs ss : BitVec 16) : Bool :=
  if ss.toNat / 4 = 0 then decide (cs.toNat % 4 ≠ 3)
  else (select gdt ss).any fun d => d.present && d.writable && decide (d.dpl = cs.toNat % 4) &&
    decide (ss.toNat % 4 = cs.toNat % 4)

structure Frame where
  rip : Word
  cs : BitVec 16
  rflags : Word
  rsp : Word
  ss : BitVec 16

def Frame.words (f : Frame) : List Word := [f.rip, f.cs.setWidth 64, f.rflags, f.rsp, f.ss.setWidth 64]

def State.frame (s : State) : Frame := ⟨s.rip, s.cs, s.rflags, s.reg .rsp, s.ss⟩

def State.leave (f : Frame) (s : State) : State :=
  { s with reg := Function.update s.reg .rsp f.rsp, rip := f.rip, cs := f.cs, rflags := f.rflags, ss := f.ss }

def iretq (gdt : List Word) (s : State) : Option State :=
  let word := fun i => load s.mem (s.reg .rsp + BitVec.ofNat 64 (8 * i))
  let f : Frame := ⟨word 0, (word 1).setWidth 16, word 2, word 3, (word 4).setWidth 16⟩
  if s.cpl ≤ f.cs.toNat % 4 ∧ returnsTo gdt f.cs = true ∧ stacksAt gdt f.cs f.ss = true then some (s.leave f) else none

def retq (s : State) : State := { s with reg := Function.update s.reg .rsp (s.reg .rsp + 8), rip := s.top }

structure Gate where
  offset : Word
  selector : BitVec 16
  interrupt : Bool
  present : Bool
  dpl : ℕ
  ist : BitVec 3
  deriving DecidableEq

def Gate.decode (g : BitVec 128) : Gate where
  offset := g.extractLsb' 64 32 ++ g.extractLsb' 48 16 ++ g.extractLsb' 0 16
  selector := g.extractLsb' 16 16
  interrupt := g.extractLsb' 40 4 == 0xe && !g.getLsbD 44
  present := g.getLsbD 47
  dpl := (g.extractLsb' 45 2).toNat
  ist := g.extractLsb' 32 3

/-- Whether a vector may be entered: `int n` asks for the privilege of the gate, an interrupt or an exception does not. -/
def Gate.admits (g : Gate) (software : Bool) (cpl : ℕ) : Bool :=
  g.present && g.interrupt && (!software || decide (cpl ≤ g.dpl))

structure TssDescriptor where
  base : Word
  limit : BitVec 20
  type : BitVec 4
  system : Bool
  present : Bool
  deriving DecidableEq

def TssDescriptor.decode (d : BitVec 128) : TssDescriptor where
  base := d.extractLsb' 64 32 ++ d.extractLsb' 56 8 ++ d.extractLsb' 16 24
  limit := d.extractLsb' 48 4 ++ d.extractLsb' 0 16
  type := d.extractLsb' 40 4
  system := !d.getLsbD 44
  present := d.getLsbD 47

/-- The flags that entering through an interrupt gate clears: TF, IF, NT, RF and VM. -/
def gateFlags : Word := 0x34300

/-- The stack that a handler at privilege 0 gets: the interrupted one, or that of the task state segment, aligned to
sixteen bytes. -/
def State.entryStack (rsp0 : Word) (s : State) : Word :=
  let base := if s.cpl = 0 then s.reg .rsp else rsp0
  base - base % 16

def State.enter (g : Gate) (rsp0 : Word) (err : Option Word) (s : State) : State :=
  let pushed := (s.frame.words.reverse ++ err.toList).foldl (fun t w => t.push w) (s.set .rsp (s.entryStack rsp0))
  { pushed with
    rip := g.offset, cs := g.selector, ss := if s.cpl = 0 then s.ss else 0, rflags := s.rflags &&& ~~~gateFlags }

namespace State

variable {s : State} {v : Word} {ws : List Word} {r : Reg}

@[simp] theorem mem_set : (s.set r v).mem = s.mem := rfl

@[simp] theorem reg_set_self : (s.set r v).reg r = v := Function.update_self ..

theorem reg_set_of_ne {r' : Reg} (h : r' ≠ r) : (s.set r v).reg r' = s.reg r' := Function.update_of_ne h _ _

theorem stack_set_of_ne (h : r ≠ .rsp) : (s.set r v).Stack ws ↔ s.Stack ws := by
  rw [Stack, Stack, mem_set, reg_set_of_ne (Ne.symm h)]

section Arith

variable {status : Word → Word → Word} {a b : Word}

@[simp] theorem mem_arith : (s.arith status a b).mem = s.mem := rfl

@[simp] theorem reg_arith : (s.arith status a b).reg = s.reg := rfl

theorem stack_arith : (s.arith status a b).Stack ws ↔ s.Stack ws := Iff.rfl

end Arith

@[simp] theorem rsp_push : (s.push v).reg .rsp = s.reg .rsp - 8 := by simp [push]

theorem reg_push (h : r ≠ .rsp) : (s.push v).reg r = s.reg r := Function.update_of_ne h _ _

@[simp] theorem top_push : (s.push v).top = v := by
  rw [top, rsp_push]
  exact load_store _ _ _

theorem mem_push {x : Word} (h : 8 ≤ (x - (s.reg .rsp - 8)).toNat) : (s.push v).mem x = s.mem x := store_off h

theorem push_stack (hlen : ws.length < 2 ^ 60) (h : s.Stack ws) : (s.push v).Stack (v :: ws) := by
  rw [Stack, rsp_push]
  exact holds_push hlen h

def pushAll (vs : List Word) (s : State) : State := vs.foldl (fun t v => t.push v) s

theorem pushAll_stack (vs : List Word) (hlen : vs.length + ws.length < 2 ^ 60) (h : s.Stack ws) :
    (s.pushAll vs).Stack (vs.reverse ++ ws) := by
  induction vs generalizing s ws with
  | nil => exact h
  | cons v vs ih =>
    rw [List.length_cons] at hlen
    rw [List.reverse_cons, List.append_assoc, List.singleton_append]
    apply ih
    · rw [List.length_cons]
      omega
    · exact push_stack (by omega) h

theorem pushAll_cons (v : Word) (vs : List Word) (s : State) : s.pushAll (v :: vs) = (s.push v).pushAll vs := rfl

theorem pushAll_eq (vs : List Word) (s : State) :
    s.pushAll vs = { s with reg := Function.update s.reg .rsp (s.reg .rsp - BitVec.ofNat 64 (8 * vs.length)),
                            mem := (s.pushAll vs).mem } := by
  induction vs generalizing s with
  | nil => simp [pushAll]
  | cons v vs ih =>
    have hoff : s.reg .rsp - 8 - BitVec.ofNat 64 (8 * vs.length) = s.reg .rsp - BitVec.ofNat 64 (8 * (v :: vs).length) := by
      rw [List.length_cons]
      bv_omega
    rw [pushAll_cons, ih (s.push v), rsp_push, hoff, push, Function.update_idem]

theorem rsp_pushAll (vs : List Word) (s : State) :
    (s.pushAll vs).reg .rsp = s.reg .rsp - BitVec.ofNat 64 (8 * vs.length) := by
  rw [pushAll_eq]
  simp only [Function.update_self]

theorem reg_pushAll (vs : List Word) (h : r ≠ .rsp) : (s.pushAll vs).reg r = s.reg r := by
  rw [pushAll_eq]
  exact Function.update_of_ne h _ _

theorem mapped_pushAll (vs : List Word) (s : State) : (s.pushAll vs).mapped = s.mapped := by
  rw [pushAll_eq]

theorem mem_pushAll {vs : List Word} {x : Word} (hlen : vs.length < 2 ^ 60)
    (h : 8 * vs.length ≤ (x - (s.reg .rsp - BitVec.ofNat 64 (8 * vs.length))).toNat) : (s.pushAll vs).mem x = s.mem x := by
  induction vs generalizing s with
  | nil => rfl
  | cons v vs ih =>
    rw [List.length_cons] at hlen h
    have hfirst : 8 ≤ (x - (s.reg .rsp - 8)).toNat := by bv_omega
    have hrest : 8 * vs.length ≤ (x - ((s.push v).reg .rsp - BitVec.ofNat 64 (8 * vs.length))).toNat := by
      rw [rsp_push]
      bv_omega
    exact (ih (by omega) hrest).trans (mem_push hfirst)

theorem stack_set (h : s.Stack (v :: ws)) : (s.set .rsp (s.reg .rsp + 8)).Stack ws := by
  rw [Stack, reg_set_self]
  exact h.2

theorem enter_stack (g : Gate) (rsp0 : Word) (err : Option Word) (s : State) :
    (s.enter g rsp0 err).Stack (err.toList ++ s.frame.words) := by
  set vs := s.frame.words.reverse ++ err.toList with hvs
  have hlen : vs.length + ([] : List Word).length < 2 ^ 60 := by
    cases err <;> simp [hvs, Frame.words]
  have h : ((s.set .rsp (s.entryStack rsp0)).pushAll vs).Stack (vs.reverse ++ []) := pushAll_stack vs hlen trivial
  rw [hvs, List.reverse_append, List.reverse_reverse, List.append_nil] at h
  cases err <;> exact h

theorem retq_stack (h : s.Stack (v :: ws)) : (retq s).rip = v ∧ (retq s).Stack ws := by
  refine ⟨h.1, ?_⟩
  have hrsp : (retq s).reg .rsp = s.reg .rsp + 8 := reg_set_self
  rw [Stack, hrsp]
  exact h.2

theorem rsp_enter (g : Gate) (rsp0 : Word) (err : Option Word) (s : State) :
    (s.enter g rsp0 err).reg .rsp = s.entryStack rsp0 - BitVec.ofNat 64 (8 * (5 + err.toList.length)) := by
  change ((s.set .rsp (s.entryStack rsp0)).pushAll (s.frame.words.reverse ++ err.toList)).reg .rsp = _
  rw [rsp_pushAll, reg_set_self, List.length_append, List.length_reverse]
  rfl

theorem mem_enter {g : Gate} {rsp0 x : Word} {err : Option Word} {k : ℕ} (hk : k = 8 * (5 + err.toList.length))
    (h : k ≤ (x - (s.entryStack rsp0 - BitVec.ofNat 64 k)).toNat) : (s.enter g rsp0 err).mem x = s.mem x := by
  change ((s.set .rsp (s.entryStack rsp0)).pushAll (s.frame.words.reverse ++ err.toList)).mem x = _
  have hlen : (s.frame.words.reverse ++ err.toList).length = 5 + err.toList.length := by
    rw [List.length_append, List.length_reverse]
    rfl
  rw [mem_pushAll, mem_set]
  · cases err <;> simp [Frame.words]
  · rwa [reg_set_self, hlen, ← hk]

theorem enter_reg (g : Gate) (rsp0 : Word) (err : Option Word) (h : r ≠ .rsp) : (s.enter g rsp0 err).reg r = s.reg r := by
  change ((s.set .rsp (s.entryStack rsp0)).pushAll (s.frame.words.reverse ++ err.toList)).reg r = s.reg r
  rw [reg_pushAll _ h, reg_set_of_ne h]

theorem mapped_enter (g : Gate) (rsp0 : Word) (err : Option Word) (s : State) :
    (s.enter g rsp0 err).mapped = s.mapped := by
  rw [enter]
  exact mapped_pushAll (s.frame.words.reverse ++ err.toList) (s.set .rsp (s.entryStack rsp0))

end State

def State.argument (s : State) (i : ℕ) : Word := load s.mem (s.reg .rsp + BitVec.ofNat 64 (8 * (i + 1)))

theorem State.argument_eq {s : State} {ret w : Word} {ws : List Word} {i : ℕ} (h : s.Stack (ret :: ws))
    (hi : ws[i]? = some w) : s.argument i = w := holds_get h hi

def calleeSaved : List Reg := [.rbx, .rbp, .r12, .r13, .r14, .r15]

/-- A function returned as the convention asks, and left the `n` words that stand above its return address. -/
structure Returned (n : ℕ) (s t : State) : Prop where
  rsp : t.reg .rsp = s.reg .rsp + 8
  saved : ∀ r ∈ calleeSaved, t.reg r = s.reg r
  cs : t.cs = s.cs
  ss : t.ss = s.ss
  words : ∀ i < n, load t.mem (s.reg .rsp + 8 + BitVec.ofNat 64 (8 * i)) = load s.mem (s.reg .rsp + 8 + BitVec.ofNat 64 (8 * i))

theorem Returned.stack {n : ℕ} {s t : State} {ret : Word} {ws : List Word} (h : Returned n s t)
    (hs : s.Stack (ret :: ws)) (hn : ws.length ≤ n) : t.Stack ws := by
  rw [State.Stack, h.rsp]
  exact holds_congr (fun i hi => h.words i (by omega)) hs.2

theorem iretq_frame {gdt : List Word} {s : State} {f : Frame} {ws : List Word} (h : s.Stack (f.words ++ ws))
    (hcpl : s.cpl ≤ f.cs.toNat % 4) (hcs : returnsTo gdt f.cs = true) (hss : stacksAt gdt f.cs f.ss = true) :
    iretq gdt s = some (s.leave f) := by
  obtain ⟨h0, h1, h2, h3, h4, -⟩ := h
  have e0 : s.reg .rsp + BitVec.ofNat 64 (8 * 0) = s.reg .rsp := by simp
  have e1 : s.reg .rsp + BitVec.ofNat 64 (8 * 1) = s.reg .rsp + 8 := rfl
  have e2 : s.reg .rsp + BitVec.ofNat 64 (8 * 2) = s.reg .rsp + 8 + 8 := by bv_omega
  have e3 : s.reg .rsp + BitVec.ofNat 64 (8 * 3) = s.reg .rsp + 8 + 8 + 8 := by bv_omega
  have e4 : s.reg .rsp + BitVec.ofNat 64 (8 * 4) = s.reg .rsp + 8 + 8 + 8 + 8 := by bv_omega
  have hsel : ∀ b : BitVec 16, (b.setWidth 64).setWidth 16 = b := by simp
  simp only [iretq, e0, e1, e2, e3, e4, h0, h1, h2, h3, h4, hsel]
  rw [if_pos ⟨hcpl, hcs, hss⟩]

theorem iretq_words {gdt : List Word} {s u : State} {v w : Word} {ws : List Word} (h : s.Stack (v :: w :: ws))
    (hu : iretq gdt s = some u) : u.rip = v ∧ u.cs = w.setWidth 16 := by
  obtain ⟨hv, hw, -⟩ := h
  have e0 : s.reg .rsp + BitVec.ofNat 64 (8 * 0) = s.reg .rsp := by simp
  have e1 : s.reg .rsp + BitVec.ofNat 64 (8 * 1) = s.reg .rsp + 8 := rfl
  simp only [iretq, e0, e1, hv, hw] at hu
  split at hu
  · cases hu
    exact ⟨rfl, rfl⟩
  · cases hu

section Save

variable (status : Word → Word → Word) (sem : φ → State → Option State)

def saves (rs : List Reg) : List (Instr φ) := rs.map fun r => .pushq (.reg r)

def restores (rs : List Reg) : List (Instr φ) := rs.map .popq

theorem exec_saves {rs : List Reg} (hsp : .rsp ∉ rs) (s : State) :
    Run.exec (step status sem) (saves rs) s = some (s.pushAll (rs.map s.reg)) := by
  induction rs generalizing s with
  | nil => rfl
  | cons r rs ih =>
    rw [List.mem_cons, not_or] at hsp
    have hreg : rs.map (s.push (s.reg r)).reg = rs.map s.reg := by
      apply List.map_congr_left
      intro r' hr'
      exact State.reg_push fun h => hsp.2 (h ▸ hr')
    change Run.exec (step status sem) (saves rs) (s.push (s.reg r)) = _
    rw [ih hsp.2, hreg]
    rfl

def popped (old : Reg → Word) (rs : List Reg) (s : State) : State :=
  { s with reg := fun r => if r ∈ rs then old r else
      Function.update s.reg .rsp (s.reg .rsp + BitVec.ofNat 64 (8 * rs.length)) r }

variable {old : Reg → Word} {rs : List Reg} {ws : List Word} {s : State}

theorem popped_nil : popped old [] s = s := by simp [popped]

theorem popped_cons {r : Reg} (hr : r ≠ .rsp) (htop : s.top = old r) :
    popped old rs ((s.set .rsp (s.reg .rsp + 8)).set r s.top) = popped old (r :: rs) s := by
  rw [popped, popped, htop]
  congr 1
  funext r'
  by_cases hmem : r' ∈ rs
  · rw [if_pos hmem, if_pos (List.mem_cons_of_mem r hmem)]
  rw [if_neg hmem]
  by_cases heq : r' = r
  · subst heq
    rw [if_pos List.mem_cons_self, Function.update_of_ne hr]
    exact Function.update_self ..
  have hmem' : r' ∉ r :: rs := by simp [heq, hmem]
  rw [if_neg hmem']
  by_cases hsp : r' = .rsp
  · subst hsp
    simp only [State.set, Function.update_self, Function.update_of_ne (Ne.symm hr), List.length_cons]
    bv_omega
  · simp only [State.set, Function.update_of_ne hsp, Function.update_of_ne heq]

theorem exec_restores (hsp : .rsp ∉ rs) (h : s.Stack (rs.map old ++ ws)) :
    Run.exec (step status sem) (restores rs) s = some (popped old rs s) := by
  induction rs generalizing s with
  | nil => rw [popped_nil]; rfl
  | cons r rs ih =>
    rw [List.mem_cons, not_or] at hsp
    have hr : r ≠ .rsp := Ne.symm hsp.1
    rw [← popped_cons hr h.1]
    apply ih hsp.2
    have hrsp : ((s.set .rsp (s.reg .rsp + 8)).set r s.top).reg .rsp = s.reg .rsp + 8 := by
      simp [State.set, hsp.1]
    rw [State.Stack, hrsp]
    exact h.2

theorem popped_stack (hsp : .rsp ∉ rs) (h : s.Stack (rs.map old ++ ws)) : (popped old rs s).Stack ws := by
  have hrsp : (popped old rs s).reg .rsp = s.reg .rsp + BitVec.ofNat 64 (8 * rs.length) := by simp [popped, hsp]
  rw [State.Stack, hrsp, ← List.length_map old]
  exact (holds_append.mp h).2

theorem exec_xors (rs : List Reg) (s : State) :
    ∃ flags, Run.exec (step status sem) (rs.map .xorq) s =
      some { s with reg := fun r => if r ∈ rs then 0 else s.reg r, rflags := flags } := by
  induction rs generalizing s with
  | nil => exact ⟨s.rflags, by simp [Run.exec]⟩
  | cons r rs ih =>
    obtain ⟨flags, h⟩ := ih ((s.set r 0).arith status (s.reg r) (s.reg r))
    refine ⟨flags, h.trans ?_⟩
    congr 2
    funext r'
    by_cases hmem : r' ∈ rs
    · rw [if_pos hmem, if_pos (List.mem_cons_of_mem r hmem)]
    · rw [if_neg hmem]
      by_cases heq : r' = r
      · rw [heq, if_pos List.mem_cons_self]
        exact Function.update_self ..
      · rw [if_neg (by simp [heq, hmem])]
        exact Function.update_of_ne heq _ _

end Save

end Os506.Machine
