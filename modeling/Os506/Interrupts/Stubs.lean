import Os506.Lib.Machine

namespace Os506.Isr

open Machine

inductive Callee
  | isrHandler
  | syscallHandler

def saved : List Reg := [.rax, .rbx, .rcx, .rdx, .rsi, .rdi, .rbp]

/-- What `irq_common` and `_isr14` share up to the `iretq`; `mid` stands before the call. -/
def common (ret : Word) (mid : List (Instr Callee)) : List (Instr Callee) :=
  saves saved ++ ([.pushq (.reg .rsp)] ++ (mid ++ ([.call .isrHandler ret, .popq .rsp] ++
    (restores saved.reverse ++ [.addq 16 .rsp]))))

def irqCommon (ret : Word) : List (Instr Callee) := common ret [.movq (.reg .rsp) .rdi]

def isr (ret num : Word) : List (Instr Callee) := [.cli, .pushq (.imm num), .pushq (.imm num)] ++ irqCommon ret

/-- The macro `ISR_E`; its `pushq` has no `$`, so that its operand is an address. -/
def isrE (ret num : Word) : List (Instr Callee) := [.cli, .pushq (.abs num)] ++ irqCommon ret

def isr14 (ret : Word) : List (Instr Callee) := [.cli, .pushq (.imm 14)] ++ common ret []

/-- The vectors whose code does not push an error code of its own. -/
def withCode : List ℕ := [8, 10, 11, 12, 13, 14]

/-- The vectors for which the processor pushes one. -/
def errorCoded : List ℕ := [8, 10, 11, 12, 13, 14, 17]

def entry (ret : Word) (n : ℕ) : List (Instr Callee) :=
  if n = 14 then isr14 ret else if n ∈ withCode then isrE ret (BitVec.ofNat 64 n) else isr ret (BitVec.ofNat 64 n)

section Run

variable (gdt : List Word) (status : Word → Word → Word) (sem : Callee → State → Option State)

def run (code : List (Instr Callee)) (s : State) : Option State := (Run.exec (step status sem) code s).bind (iretq gdt)

end Run

structure Regs where
  rsp : Word
  rbq : Word
  rdi : Word
  rsi : Word
  rdx : Word
  rcx : Word
  rbx : Word
  rax : Word
  num : Word
  err : Word
  deriving DecidableEq

/-- The structure is passed by value: it stands above the return address. -/
def Regs.passed (s : State) : Regs :=
  ⟨s.argument 0, s.argument 1, s.argument 2, s.argument 3, s.argument 4, s.argument 5, s.argument 6, s.argument 7,
    s.argument 8, s.argument 9⟩

theorem Regs.passed_eq {s : State} {r : Regs} {ret : Word} {ws : List Word}
    (h : s.Stack (ret :: r.rsp :: r.rbq :: r.rdi :: r.rsi :: r.rdx :: r.rcx :: r.rbx :: r.rax :: r.num :: r.err :: ws)) :
    Regs.passed s = r := by
  have word : ∀ i w, _ → s.argument i = w := fun i w => State.argument_eq h
  rw [Regs.passed, word 0 _ rfl, word 1 _ rfl, word 2 _ rfl, word 3 _ rfl, word 4 _ rfl, word 5 _ rfl, word 6 _ rfl,
    word 7 _ rfl, word 8 _ rfl, word 9 _ rfl]

section Common

variable {status : Word → Word → Word} {sem : Callee → State → Option State} {ret num err : Word} {gdt : List Word}
  {mid : List (Instr Callee)} {val : State → Word} {s t : State} {ws : List Word} {f : Frame}

def stacked (s : State) : State :=
  let a := s.pushAll (saved.map s.reg)
  a.push (a.reg .rsp)

def calling (ret : Word) (val : State → Word) (s : State) : State :=
  ((stacked s).set .rdi (val (stacked s))).push ret

theorem exec_common (hmid : ∀ b, Run.exec (step status sem) mid b = some (b.set .rdi (val b))) :
    Run.exec (step status sem) (common ret mid) s =
      (sem .isrHandler (calling ret val s)).bind
        (Run.exec (step status sem) (.popq .rsp :: (restores saved.reverse ++ [.addq 16 .rsp]))) := by
  rw [common, Run.exec_append, exec_saves status sem (by decide), Option.bind_some]
  change Run.exec (step status sem) (mid ++ _) (stacked s) = _
  rw [Run.exec_append, hmid, Option.bind_some]
  rfl

theorem saved_rsp : Reg.rsp ∉ saved := by decide

theorem calling_reg {r : Reg} (hsp : r ≠ .rsp) (hdi : r ≠ .rdi) : (calling ret val s).reg r = s.reg r := by
  rw [calling, State.reg_push hsp, State.reg_set_of_ne hdi, stacked, State.reg_push hsp, State.reg_pushAll _ hsp]

theorem calling_stack (ret : Word) (val : State → Word) (hlen : ws.length ≤ 8) (h : s.Stack ws) :
    (calling ret val s).Stack (ret :: (s.reg .rsp - 56) :: ((saved.map s.reg).reverse ++ ws)) := by
  have hall : ((saved.map s.reg).reverse ++ ws).length ≤ 15 := by
    rw [List.length_append, List.length_reverse, List.length_map]
    exact Nat.add_le_add_left hlen 7
  have ha := State.pushAll_stack (saved.map s.reg) (by rw [List.length_map]; exact (show 7 + _ < 2 ^ 60 by omega)) h
  have hsp : (s.pushAll (saved.map s.reg)).reg .rsp = s.reg .rsp - 56 := State.rsp_pushAll _ _
  have hb : (stacked s).Stack ((s.reg .rsp - 56) :: ((saved.map s.reg).reverse ++ ws)) := by
    rw [stacked, hsp]
    exact State.push_stack (by omega) ha
  have hc : ((stacked s).set .rdi (val (stacked s))).Stack ((s.reg .rsp - 56) :: ((saved.map s.reg).reverse ++ ws)) := by
    rw [State.Stack, State.reg_set_of_ne (by decide)]
    exact hb
  exact State.push_stack (by rw [List.length_cons]; omega) hc

theorem calling_cs : (calling ret val s).cs = s.cs := by
  rw [calling, stacked, State.pushAll_eq]
  rfl

theorem rsp_calling : (calling ret val s).reg .rsp = s.reg .rsp - 72 := by
  rw [calling, State.rsp_push, State.reg_set_of_ne (by decide), stacked, State.rsp_push, State.rsp_pushAll]
  simp only [saved, List.length_map, List.length_cons, List.length_nil]
  bv_omega

/-- What a handler may leave changed in the interrupted program: these registers and memory. -/
def scratch : List Reg := [.r8, .r9, .r10, .r11]

theorem reg_cases (r : Reg) : r = .rsp ∨ r ∈ saved ∨ r ∈ scratch ∨ r ∈ calleeSaved ∧ r ≠ .rsp ∧ r ≠ .rdi := by
  cases r <;> decide

theorem common_pops (hlen : ws.length ≤ 6) (hs : s.Stack (num :: err :: ws))
    (ht : Returned (10 + ws.length) (calling ret val s) t) :
    ∃ y : State, Run.exec (step status sem) (.popq .rsp :: (restores saved.reverse ++ [.addq 16 .rsp])) t = some y ∧
      y.Stack ws ∧ y.cpl = s.cpl ∧ y.mem = t.mem ∧ y.mapped = t.mapped ∧
      ∀ r, r ≠ .rsp → y.reg r = if r ∈ scratch then t.reg r else s.reg r := by
  have hwords : (num :: err :: ws).length ≤ 8 := Nat.add_le_add_right hlen 2
  have hstack := ht.stack (calling_stack ret val hwords hs) (by simp [saved]; omega)
  -- the pushed `rsp` is the address behind the word it stands in
  have hpop : (t.set .rsp (t.reg .rsp + 8)).set .rsp t.top = t.set .rsp (t.reg .rsp + 8) := by
    have : t.top = t.reg .rsp + 8 := by
      rw [ht.rsp, rsp_calling]
      refine hstack.1.trans ?_
      bv_omega
    rw [this, State.set, State.set, Function.update_idem]
  set d := t.set .rsp (t.reg .rsp + 8) with hd
  have hdstack : d.Stack (saved.reverse.map s.reg ++ num :: err :: ws) := by
    rw [List.map_reverse]
    exact State.stack_set hstack
  set x := popped s.reg saved.reverse d with hx
  have hxstack : x.Stack (num :: err :: ws) := popped_stack (by decide) hdstack
  set y := (x.set .rsp (x.reg .rsp + 16)).arith status (x.reg .rsp) 16 with hy
  refine ⟨y, ?_, ?_, ?_, rfl, rfl, ?_⟩
  · rw [Run.exec, step, Option.bind_some, hpop, Run.exec_append, exec_restores status sem (by decide) hdstack,
      Option.bind_some, Run.exec, step, Option.bind_some, Run.exec]
  · have hoff : y.reg .rsp = x.reg .rsp + 8 + 8 := by
      change (x.set .rsp (x.reg .rsp + 16)).reg .rsp = _
      rw [State.reg_set_self]
      bv_omega
    rw [State.Stack, hoff]
    exact hxstack.2.2
  · change t.cs.toNat % 4 = _
    rw [ht.cs, calling_cs, State.cpl]
  · intro r hsp
    have hyr : y.reg r = if r ∈ saved.reverse then s.reg r else t.reg r := by
      simp [hy, hx, hd, State.arith, State.set, popped, hsp]
    rw [hyr]
    rcases reg_cases r with rfl | hr | hr | ⟨hr, -, hdi⟩
    · exact absurd rfl hsp
    · have hr' : r ∉ scratch := by revert hr; cases r <;> decide
      rw [if_pos (List.mem_reverse.mpr hr), if_neg hr']
    · have hr' : r ∉ saved.reverse := by revert hr; cases r <;> decide
      rw [if_neg hr', if_pos hr]
    · rw [ht.saved r hr, calling_reg hsp hdi, ite_self, if_neg (by revert hr; cases r <;> decide)]

theorem common_returns (hs : s.Stack (num :: err :: f.words)) (ht : Returned 15 (calling ret val s) t)
    (hcpl : s.cs.toNat % 4 = 0) (hcs : returnsTo gdt f.cs = true) (hss : stacksAt gdt f.cs f.ss = true) :
    (Run.exec (step status sem) (.popq .rsp :: (restores saved.reverse ++ [.addq 16 .rsp])) t).bind (iretq gdt) =
      some { rip := f.rip, cs := f.cs, rflags := f.rflags, ss := f.ss, mem := t.mem, mapped := t.mapped,
             reg := fun r => if r = .rsp then f.rsp else if r ∈ scratch then t.reg r else s.reg r } := by
  obtain ⟨y, hexec, hystack, hycpl, hymem, hymapped, hyreg⟩ := common_pops (by simp [Frame.words]) hs ht
  rw [← List.append_nil f.words] at hystack
  have hle : y.cpl ≤ f.cs.toNat % 4 := by
    rw [hycpl, State.cpl, hcpl]
    exact Nat.zero_le _
  rw [hexec, Option.bind_some, iretq_frame hystack hle hcs hss, Option.some.injEq, State.leave, hymem, hymapped]
  congr 1
  funext r
  by_cases hsp : r = .rsp
  · rw [if_pos hsp, hsp, Function.update_self]
  · rw [if_neg hsp, ← hyreg r hsp, Function.update_of_ne hsp]

def resumed (s t : State) : State :=
  { s with reg := fun r => if r ∈ scratch then t.reg r else s.reg r, mem := t.mem, mapped := t.mapped }

structure Resumable (gdt : List Word) (s : State) : Prop where
  code : returnsTo gdt s.cs = true
  stack : stacksAt gdt s.cs s.ss = true

theorem run_common {p : State} (hmid : ∀ b, Run.exec (step status sem) mid b = some (b.set .rdi (val b)))
    (hs : Resumable gdt s) (hp : p.Stack (num :: err :: s.frame.words)) (hreg : ∀ r, r ≠ .rsp → p.reg r = s.reg r)
    (hcpl : p.cs.toNat % 4 = 0) (hsem : sem .isrHandler (calling ret val p) = some t)
    (ht : Returned 15 (calling ret val p) t) :
    run gdt status sem (common ret mid) p = some (resumed s t) := by
  rw [run, exec_common hmid, hsem, Option.bind_some, common_returns hp ht hcpl hs.code hs.stack, resumed]
  congr 2
  funext r
  by_cases hsp : r = .rsp
  · rw [if_pos hsp, hsp]
    rfl
  · rw [if_neg hsp, hreg r hsp]

end Common

section Entry

variable (n : ℕ)

/-- The code of a vector can read the number that it pushes: that of `ISR_E` lies in memory. -/
def Readable (t : State) : Prop := n ∈ withCode ∧ n ≠ 14 → t.mapped (BitVec.ofNat 64 n) = true

def number (t : State) : Word := if n ∈ withCode ∧ n ≠ 14 then load t.mem (BitVec.ofNat 64 n) else BitVec.ofNat 64 n

def prepared (t : State) : State :=
  ({ t with rflags := t.rflags &&& ~~~interruptFlag }).pushAll
    (if n ∈ withCode then [number n t] else [BitVec.ofNat 64 n, BitVec.ofNat 64 n])

/-- What `rdi` holds at the call: `_isr14` does not set it. -/
def firstArgument (b : State) : Word := if n = 14 then b.reg .rdi else b.reg .rsp

def handed (ret : Word) (t : State) : State := calling ret (firstArgument n) (prepared n t)

def middle : List (Instr Callee) := if n = 14 then [] else [.movq (.reg .rsp) .rdi]

variable {n} {status : Word → Word → Word} {sem : Callee → State → Option State} {gdt : List Word} {ret : Word}
  {s t u : State}

theorem exec_middle (b : State) :
    Run.exec (step status sem) (middle n) b = some (b.set .rdi (firstArgument n b)) := by
  rw [middle, firstArgument]
  split
  · rw [State.set, Function.update_eq_self, Run.exec]
  · rfl

theorem run_entry (hread : Readable n t) :
    run gdt status sem (entry ret n) t = run gdt status sem (common ret (middle n)) (prepared n t) := by
  have hpre : ∀ pre : List (Instr Callee), Run.exec (step status sem) pre t = some (prepared n t) →
      run gdt status sem (pre ++ common ret (middle n)) t = run gdt status sem (common ret (middle n)) (prepared n t) := by
    intro pre h
    rw [run, run, Run.exec_append, h, Option.bind_some]
  rw [entry]
  split
  case isTrue h14 =>
    subst h14
    exact hpre [.cli, .pushq (.imm 14)] rfl
  case isFalse h14 =>
    have hmid : irqCommon ret = common ret (middle n) := by rw [irqCommon, middle, if_neg h14]
    split
    case isTrue hn =>
      rw [isrE, hmid]
      apply hpre
      have hvalue : ({ t with rflags := t.rflags &&& ~~~interruptFlag } : State).value (.abs (BitVec.ofNat 64 n)) =
          some (load t.mem (BitVec.ofNat 64 n)) := if_pos (hread ⟨hn, h14⟩)
      rw [prepared, number, if_pos hn, if_pos ⟨hn, h14⟩, Run.exec, step, Option.bind_some, Run.exec, step, hvalue]
      rfl
    case isFalse hn =>
      rw [isr, hmid]
      apply hpre
      rw [prepared, if_neg hn]
      rfl

theorem run_isrE_unmapped (hn : n ∈ withCode) (h14 : n ≠ 14) (hmap : t.mapped (BitVec.ofNat 64 n) = false) :
    run gdt status sem (entry ret n) t = none := by
  have hvalue : ({ t with rflags := t.rflags &&& ~~~interruptFlag } : State).value (.abs (BitVec.ofNat 64 n)) = none :=
    if_neg (by rw [hmap]; exact Bool.false_ne_true)
  rw [entry, if_neg h14, if_pos hn, isrE, run, List.cons_append, Run.exec, step, Option.bind_some, List.singleton_append,
    Run.exec, step, hvalue]
  rfl

theorem prepared_stack {err : Option Word} {f : Frame} (herr : err.isSome = decide (n ∈ withCode))
    (h : t.Stack (err.toList ++ f.words)) :
    (prepared n t).Stack (number n t :: err.getD (BitVec.ofNat 64 n) :: f.words) := by
  by_cases hn : n ∈ withCode
  · rw [decide_eq_true hn] at herr
    obtain ⟨e, rfl⟩ := Option.isSome_iff_exists.mp herr
    rw [prepared, if_pos hn]
    exact State.push_stack (by simp [Frame.words]) h
  · rw [decide_eq_false hn, Option.isSome_eq_false_iff, Option.isNone_iff_eq_none] at herr
    subst herr
    have hnum : number n t = BitVec.ofNat 64 n := by rw [number, if_neg fun h => hn h.1]
    rw [prepared, if_neg hn, hnum]
    exact State.push_stack (by simp [Frame.words]) (State.push_stack (by simp [Frame.words]) h)

theorem prepared_reg {r : Reg} (h : r ≠ .rsp) : (prepared n t).reg r = t.reg r := by
  rw [prepared, State.reg_pushAll _ h]

theorem prepared_cs : (prepared n t).cs = t.cs := by
  rw [prepared, State.pushAll_eq]

theorem handed_passed {err : Option Word} {f : Frame} (herr : err.isSome = decide (n ∈ withCode))
    (h : t.Stack (err.toList ++ f.words)) :
    Regs.passed (handed n ret t) =
      { rsp := (prepared n t).reg .rsp - 56, rbq := t.reg .rbp, rdi := t.reg .rdi, rsi := t.reg .rsi
        rdx := t.reg .rdx, rcx := t.reg .rcx, rbx := t.reg .rbx, rax := t.reg .rax
        num := number n t, err := err.getD (BitVec.ofNat 64 n) } := by
  apply Regs.passed_eq
  have hstack := calling_stack ret (firstArgument n) (by simp [Frame.words]) (prepared_stack herr h)
  rwa [show (saved.map (prepared n t).reg).reverse = _ from congrArg List.reverse
    (List.map_congr_left fun r hr => prepared_reg fun h => saved_rsp (h ▸ hr))] at hstack

theorem entry_resumes {g : Gate} {rsp0 : Word} {err : Option Word} (herr : err.isSome = decide (n ∈ withCode))
    (hread : Readable n (s.enter g rsp0 err)) (hg : g.selector.toNat % 4 = 0) (hs : Resumable gdt s)
    (hsem : sem .isrHandler (handed n ret (s.enter g rsp0 err)) = some t)
    (ht : Returned 15 (handed n ret (s.enter g rsp0 err)) t) :
    run gdt status sem (entry ret n) (s.enter g rsp0 err) = some (resumed s t) := by
  rw [run_entry hread]
  apply run_common exec_middle hs (prepared_stack herr (State.enter_stack g rsp0 err s)) ?_ ?_ hsem ht
  · intro r hr
    rw [prepared_reg hr, State.enter_reg g rsp0 err hr]
  · rw [prepared_cs]
    exact hg

end Entry

end Os506.Isr
