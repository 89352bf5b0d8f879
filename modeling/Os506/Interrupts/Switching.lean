import Os506.Interrupts.Syscall

namespace Os506.Isr

open Machine

section Fork

def slot (kstack : Word) (i : ℕ) : Word := kstack + BitVec.ofNat 64 (8 * i)

def kstackSize : ℕ := 512

def memmove (src dst : Word) (n : ℕ) (m : Mem) : Mem :=
  fun x => System.memmove src.toNat dst.toNat n (fun a => m (BitVec.ofNat 64 a)) x.toNat

/-- What `fork_process` leaves on the kernel stack of the child: a copy of the parent's, with `_fork_ret` for the return
address of `syscall_handler`. -/
def forkStack (kstack child fork_ret : Word) (m : Mem) : Mem :=
  store (memmove kstack child (kstackSize * 8) m) (slot child (kstackSize - 14)) fork_ret

def switchTo (rsp rax : Word) (s : State) : State := retq ((s.set .rsp rsp).set .rax rax)

structure IsStack (k : Word) : Prop where
  aligned : k.toNat % 16 = 0
  fits : k.toNat + 4096 ≤ 2 ^ 64

variable {k c : Word} {m : Mem} {i : ℕ}

theorem load_memmove (hk : k.toNat + 4096 ≤ 2 ^ 64) (hc : c.toNat + 4096 ≤ 2 ^ 64)
    (hdis : k.toNat + 4096 ≤ c.toNat ∨ c.toNat + 4096 ≤ k.toNat) (hi : i < 512) :
    load (memmove k c (kstackSize * 8) m) (slot c i) = load m (slot k i) := by
  apply load_congr
  intro j hj
  have hx : (slot c i + BitVec.ofNat 64 j).toNat = c.toNat + (8 * i + j) := by
    rw [slot]
    bv_omega
  have hy : BitVec.ofNat 64 (k.toNat + (8 * i + j)) = slot k i + BitVec.ofNat 64 j := by
    rw [slot]
    bv_omega
  rw [memmove, show kstackSize * 8 = 4096 from rfl, System.memmove_disjoint hk hc hdis, hx,
    Copy.moved_inside _ _ _ _ (by omega), hy]

theorem slot_add (k : Word) (i j : ℕ) : slot k i + BitVec.ofNat 64 (8 * j) = slot k (i + j) := by
  rw [slot, slot]
  bv_omega

theorem load_forkStack (hk : k.toNat + 4096 ≤ 2 ^ 64) (hc : c.toNat + 4096 ≤ 2 ^ 64)
    (hdis : k.toNat + 4096 ≤ c.toNat ∨ c.toNat + 4096 ≤ k.toNat) (fork_ret : Word) (hi : i < 512) :
    load (forkStack k c fork_ret m) (slot c i) = if i = 498 then fork_ret else load m (slot k i) := by
  rw [forkStack]
  split
  case isTrue h => rw [h]; exact load_store _ _ _
  case isFalse h =>
    rw [load_store_off, load_memmove hk hc hdis hi]
    · rw [slot, slot, kstackSize]
      bv_omega
    · rw [slot, slot, kstackSize]
      bv_omega

variable {s : State}

theorem rsp_calling128 (g : Gate) (ret : Word) (hk : k.toNat % 16 = 0) (hs : s.cpl = 3) :
    (calling128 ret (s.enter g (slot k (kstackSize - 1)) none)).reg .rsp = slot k (kstackSize - 14) := by
  -- the address of the last word is not a multiple of sixteen
  have hmod : slot k (kstackSize - 1) % 16 = 8 := by
    have h16 : (16 : Word).toNat = 16 := rfl
    have h8 : (8 : Word).toNat = 8 := rfl
    apply BitVec.eq_of_toNat_eq
    rw [BitVec.toNat_umod, slot, kstackSize, BitVec.toNat_add, BitVec.toNat_ofNat, h16, h8]
    omega
  rw [calling128, State.rsp_push, State.rsp_pushAll, State.rsp_enter, State.entryStack, if_neg (by omega), hmod, slot, slot,
    kstackSize, List.length_map]
  simp only [userSaved, List.length_cons, List.length_nil, Option.toList_none]
  bv_omega

theorem calling128_holds (g : Gate) (ret : Word) (hk : k.toNat % 16 = 0) (hs : s.cpl = 3) :
    Holds (calling128 ret (s.enter g (slot k (kstackSize - 1)) none)).mem (slot k (kstackSize - 14))
      (ret :: (userSaved.reverse.map s.reg ++ s.frame.words)) := by
  have h := calling128_stack ret (State.enter_stack g (slot k (kstackSize - 1)) none s)
  have hregs : userSaved.reverse.map (s.enter g (slot k (kstackSize - 1)) none).reg = userSaved.reverse.map s.reg := by
    apply List.map_congr_left
    intro r hr
    exact State.enter_reg g _ none fun h => userSaved_rsp (h ▸ List.mem_reverse.mp hr)
  rwa [State.Stack, rsp_calling128 g ret hk hs, hregs] at h

theorem forkStack_holds {m : Mem} (hk : IsStack k) (hc : IsStack c)
    (hdis : k.toNat + 4096 ≤ c.toNat ∨ c.toNat + 4096 ≤ k.toNat) (fork_ret : Word) {ws : List Word} (hlen : ws.length ≤ 13)
    (hm : Holds m (slot k (kstackSize - 13)) ws) :
    Holds (forkStack k c fork_ret m) (slot c (kstackSize - 14)) (fork_ret :: ws) := by
  apply holds_of_get
  intro i w hw
  have hi : i < (fork_ret :: ws).length := (List.getElem?_eq_some_iff.mp hw).1
  rw [List.length_cons] at hi
  rw [slot_add, load_forkStack hk.fits hc.fits hdis fork_ret (by rw [kstackSize]; omega), kstackSize]
  cases i with
  | zero => exact Option.some.inj hw
  | succ i =>
    have hidx : 512 - 14 + (i + 1) = kstackSize - 13 + i := by
      rw [kstackSize]
      omega
    rw [if_neg (by omega), hidx, ← slot_add, holds_get hm hw]

theorem switchTo_stack {d : State} {rsp w : Word} {ws : List Word} (rax : Word) (h : Holds d.mem rsp (w :: ws)) :
    (switchTo rsp rax d).rip = w ∧ (switchTo rsp rax d).Stack ws := by
  have hrsp : ((d.set .rsp rsp).set .rax rax).reg .rsp = rsp := by
    rw [State.reg_set_of_ne (by decide), State.reg_set_self]
  have hstack : ((d.set .rsp rsp).set .rax rax).Stack (w :: ws) := by
    rw [State.Stack, hrsp, State.mem_set, State.mem_set]
    exact h
  exact State.retq_stack hstack

/-- `sys_fork` and `fork_process` find the `rip` and the `rsp` of the caller on its kernel stack, and the child goes on
in ring 3 where its parent called, with the parent's flags, stack pointer and saved registers and with its own `rax`.
Between the call and the copy, and between the copy and the switch, the kernel keeps the words of the two frames; `d` is
the processor when some task switches to the child. -/
theorem forked_resumes {gdt : List Word} (status : Word → Word → Word) (sem : Callee → State → Option State) (g : Gate)
    (ret rax : Word) {fork_ret : Word} {d : State} (hk : IsStack k) (hc : IsStack c)
    (hdis : k.toNat + 4096 ≤ c.toNat ∨ c.toNat + 4096 ≤ k.toNat) (hs : Resumable gdt s) (hcpl : s.cpl = 3)
    (hm : ∀ i < 11, load m (slot k (kstackSize - 13 + i)) =
      load (calling128 ret (s.enter g (slot k (kstackSize - 1)) none)).mem (slot k (kstackSize - 13 + i)))
    (hd : ∀ i < 12, load d.mem (slot c (kstackSize - 14 + i)) =
      load (forkStack k c fork_ret m) (slot c (kstackSize - 14 + i))) (hdcpl : d.cpl = 0) :
    load m (slot k (kstackSize - 7)) = s.rip ∧ load m (slot k (kstackSize - 4)) = s.reg .rsp ∧
      (switchTo (slot c (kstackSize - 14)) rax d).rip = fork_ret ∧
      run gdt status sem forkRet (switchTo (slot c (kstackSize - 14)) rax d) =
        some { s with
          reg := fun r => if r = .rsp ∨ r ∈ userSaved then s.reg r else if r = .rax then rax else d.reg r
          mem := d.mem
          mapped := d.mapped } := by
  set ws := userSaved.reverse.map s.reg ++ s.frame.words with hws
  have hlen : ws.length = 11 := rfl
  have hparent : Holds m (slot k (kstackSize - 13)) ws := by
    have hcall := (calling128_holds g ret hk.aligned hcpl).2
    have hnext : slot k (kstackSize - 14) + 8 = slot k (kstackSize - 13) := slot_add k (kstackSize - 14) 1
    rw [hnext] at hcall
    refine holds_congr (fun i hi => ?_) hcall
    rw [slot_add]
    exact hm i (hlen ▸ hi)
  have hrip : load m (slot k (kstackSize - 7)) = s.rip := by
    rw [show kstackSize - 7 = kstackSize - 13 + 6 from rfl, ← slot_add]
    exact holds_get hparent rfl
  have hrsp : load m (slot k (kstackSize - 4)) = s.reg .rsp := by
    rw [show kstackSize - 4 = kstackSize - 13 + 9 from rfl, ← slot_add]
    exact holds_get hparent rfl
  have hchild : Holds d.mem (slot c (kstackSize - 14)) (fork_ret :: ws) := by
    refine holds_congr (fun i hi => ?_) (forkStack_holds hk hc hdis fork_ret (by omega) hparent)
    rw [slot_add]
    exact hd i (by simpa [hlen] using hi)
  obtain ⟨hret, hstack⟩ := switchTo_stack rax hchild
  refine ⟨hrip, hrsp, hret, ?_⟩
  rw [run_forkRet hstack hdcpl hs.code hs.stack, Option.some.injEq]
  have hreg : ∀ r, r ≠ .rsp →
      (switchTo (slot c (kstackSize - 14)) rax d).reg r = if r = .rax then rax else d.reg r := by
    intro r hr
    simp [switchTo, retq, State.set, hr, Function.update_apply]
  apply State.ext
  · funext r
    dsimp only
    by_cases hsp : r = .rsp
    · rw [if_pos hsp, if_pos (.inl hsp), hsp]
      rfl
    · rw [if_neg hsp, hreg r hsp]
      simp only [hsp, false_or]
  all_goals rfl

def callingMem : Mem :=
  (calling128 0 (started.enter ⟨0, 0x08, true, true, 3, 0⟩ (slot 0xffffffff80002000 (kstackSize - 1)) none)).mem

theorem forked_resumes_started :
    ∃ t, run (Gdt.gdt 0) (fun _ _ => 0) (fun _ _ => none) forkRet
        (switchTo (slot 0xffffffff80004000 (kstackSize - 14)) 0
          { started with cs := 0x08, mem := forkStack 0xffffffff80002000 0xffffffff80004000 0x200000 callingMem }) =
        some t ∧
      t.rip = started.rip ∧ t.reg .rax = 0 := by
  set d : State := { started with cs := 0x08, mem := forkStack 0xffffffff80002000 0xffffffff80004000 0x200000 callingMem }
    with hd
  have hkeep : ∀ i < 12, load d.mem (slot 0xffffffff80004000 (kstackSize - 14 + i)) =
      load (forkStack 0xffffffff80002000 0xffffffff80004000 0x200000 callingMem)
        (slot 0xffffffff80004000 (kstackSize - 14 + i)) := fun _ _ => by rw [hd]
  have hrun := forked_resumes (fun _ _ => 0) (fun _ _ => none) ⟨0, 0x08, true, true, 3, 0⟩ 0 0 ⟨by decide, by decide⟩
    ⟨by decide, by decide⟩ (.inl (by decide)) (started_resumable 0) (by decide) (fun _ _ => rfl) hkeep (by decide)
  exact ⟨_, hrun.2.2.2, rfl, rfl⟩

end Fork

section FirstRun

def cleared : List Reg := [.rax, .rbx, .rcx, .rdx, .rbp, .rsi, .rdi, .r8, .r9, .r10, .r11, .r12, .r13, .r14, .r15]

/-- The code of `switch_to` for the first run of a user task; the two operands are in registers that the compiler picks.
The loads of `ds` to `gs` are left out: in 64-bit mode no address depends on them here. -/
def firstRun (stack entry : Reg) : List (Instr Callee) :=
  [.cli, .movq (.imm 0x23) .rax, .pushq (.reg .rax), .movq (.reg stack) .rax, .pushq (.reg .rax), .pushfq, .popq .rax,
    .orq 0x200 .rax, .pushq (.reg .rax), .pushq (.imm 0x2b), .pushq (.reg entry)] ++ cleared.map .xorq

variable {status : Word → Word → Word} {sem : Callee → State → Option State} {stack entry : Reg}

def firstFrame (stack entry : Reg) (d : State) : Frame :=
  ⟨d.reg entry, 0x2b, (d.rflags &&& ~~~interruptFlag) ||| interruptFlag, d.reg stack, 0x23⟩

def pushVia (v : Word) (s : State) : State := (s.set .rax v).push v

def flagsRead (s : State) : State := ((s.push s.rflags).set .rsp ((s.push s.rflags).reg .rsp + 8)).set .rax s.rflags

def pushFlags (status : Word → Word → Word) (s : State) : State :=
  (((flagsRead s).set .rax (s.rflags ||| 0x200)).arith status s.rflags 0x200).push (s.rflags ||| 0x200)

def framed (status : Word → Word → Word) (stack entry : Reg) (d : State) : State :=
  ((pushFlags status (pushVia (d.reg stack) (pushVia 0x23 { d with rflags := d.rflags &&& ~~~interruptFlag }))).push 0x2b).push
    (d.reg entry)

section Stages

variable {s : State} {v x : Word} {ws : List Word} {r : Reg}

theorem exec_pushVia {o : Operand} (h : s.value o = some v) :
    Run.exec (step status sem) [.movq o .rax, .pushq (.reg .rax)] s = some (pushVia v s) := by
  rw [Run.exec, step, h, Option.map_some, Option.bind_some, Run.exec, step, State.value, State.reg_set_self,
    Option.map_some, Option.bind_some, Run.exec, pushVia]

theorem exec_pushFlags :
    Run.exec (step status sem) [.pushfq, .popq .rax, .orq 0x200 .rax, .pushq (.reg .rax)] s = some (pushFlags status s) := by
  have hread : ((s.push s.rflags).set .rsp ((s.push s.rflags).reg .rsp + 8)).set .rax s.rflags = flagsRead s := rfl
  have hrax : (flagsRead s).reg .rax = s.rflags := State.reg_set_self
  rw [Run.exec, step, Option.bind_some, Run.exec, step, Option.bind_some, State.top_push, hread, Run.exec, step,
    Option.bind_some, hrax, Run.exec, step, State.value, Option.map_some, Option.bind_some, Run.exec, State.reg_arith,
    State.reg_set_self, pushFlags]

theorem rsp_pushVia : (pushVia v s).reg .rsp = s.reg .rsp - 8 := by
  rw [pushVia, State.rsp_push, State.reg_set_of_ne (by decide)]

theorem rsp_flagsRead : (flagsRead s).reg .rsp = s.reg .rsp := by
  rw [flagsRead, State.reg_set_of_ne (by decide), State.reg_set_self, State.rsp_push, BitVec.sub_add_cancel]

theorem rsp_pushFlags : (pushFlags status s).reg .rsp = s.reg .rsp - 8 := by
  rw [pushFlags, State.rsp_push, State.reg_arith, State.reg_set_of_ne (by decide), rsp_flagsRead]

theorem reg_pushVia (h : r ≠ .rax ∧ r ≠ .rsp) : (pushVia v s).reg r = s.reg r := by
  rw [pushVia, State.reg_push h.2, State.reg_set_of_ne h.1]

theorem reg_pushFlags (h : r ≠ .rax ∧ r ≠ .rsp) : (pushFlags status s).reg r = s.reg r := by
  rw [pushFlags, State.reg_push h.2, State.reg_arith, State.reg_set_of_ne h.1, flagsRead, State.reg_set_of_ne h.1,
    State.reg_set_of_ne h.2, State.reg_push h.2]

theorem pushVia_stack (hlen : ws.length < 2 ^ 60) (h : s.Stack ws) : (pushVia v s).Stack (v :: ws) :=
  State.push_stack hlen ((State.stack_set_of_ne (by decide)).mpr h)

theorem pushFlags_stack (hlen : ws.length < 2 ^ 60) (h : s.Stack ws) :
    (pushFlags status s).Stack ((s.rflags ||| 0x200) :: ws) := by
  apply State.push_stack hlen
  rw [State.stack_arith, State.stack_set_of_ne (by decide), flagsRead, State.stack_set_of_ne (by decide)]
  exact State.stack_set (State.push_stack hlen h)

theorem mem_pushVia (h : 8 ≤ (x - (s.reg .rsp - 8)).toNat) : (pushVia v s).mem x = s.mem x := by
  rw [pushVia, State.mem_push (by rwa [State.reg_set_of_ne (by decide)]), State.mem_set]

theorem mem_pushFlags (h : 8 ≤ (x - (s.reg .rsp - 8)).toNat) : (pushFlags status s).mem x = s.mem x := by
  rw [pushFlags, State.mem_push (by rwa [State.reg_arith, State.reg_set_of_ne (by decide), rsp_flagsRead]), State.mem_arith,
    State.mem_set, flagsRead, State.mem_set, State.mem_set, State.mem_push h]

end Stages

theorem framed_stack (d : State) : (framed status stack entry d).Stack (firstFrame stack entry d).words := by
  apply State.push_stack (by simp)
  apply State.push_stack (by simp)
  apply pushFlags_stack (by simp)
  apply pushVia_stack (by simp)
  exact pushVia_stack (by simp) trivial

theorem framed_mem {x : Word} {d : State} (h : 40 ≤ (x - (d.reg .rsp - 40)).toNat) :
    (framed status stack entry d).mem x = d.mem x := by
  set d1 : State := { d with rflags := d.rflags &&& ~~~interruptFlag } with hd1
  have h1 : d1.reg .rsp = d.reg .rsp := rfl
  rw [framed, ← hd1, State.mem_push, State.mem_push, mem_pushFlags, mem_pushVia, mem_pushVia]
  all_goals
    simp only [State.rsp_push, rsp_pushFlags, rsp_pushVia, h1]
    bv_omega

theorem exec_framed (status : Word → Word → Word) (sem : Callee → State → Option State)
    (hstack : stack ≠ .rax ∧ stack ≠ .rsp) (hentry : entry ≠ .rax ∧ entry ≠ .rsp) (d : State) :
    Run.exec (step status sem) (.cli :: ([.movq (.imm 0x23) .rax, .pushq (.reg .rax)] ++
      ([.movq (.reg stack) .rax, .pushq (.reg .rax)] ++ ([.pushfq, .popq .rax, .orq 0x200 .rax, .pushq (.reg .rax)] ++
        [.pushq (.imm 0x2b), .pushq (.reg entry)])))) d =
      some (framed status stack entry d) := by
  set d1 : State := { d with rflags := d.rflags &&& ~~~interruptFlag } with hd1
  have hst : (pushVia 0x23 d1).value (.reg stack) = some (d.reg stack) :=
    congrArg some (reg_pushVia hstack)
  have hen : ((pushFlags status (pushVia (d.reg stack) (pushVia 0x23 d1))).push 0x2b).reg entry = d.reg entry := by
    rw [State.reg_push hentry.2, reg_pushFlags hentry, reg_pushVia hentry, reg_pushVia hentry]
  have hss : d1.value (.imm 0x23) = some 0x23 := rfl
  rw [Run.exec, step, Option.bind_some, ← hd1, Run.exec_append, exec_pushVia hss, Option.bind_some, Run.exec_append,
    exec_pushVia hst, Option.bind_some, Run.exec_append, exec_pushFlags, Option.bind_some, Run.exec, step, State.value,
    Option.map_some, Option.bind_some, Run.exec, step, State.value, hen, Option.map_some, Option.bind_some, Run.exec, framed]

theorem exec_firstRun (status : Word → Word → Word) (sem : Callee → State → Option State)
    (hstack : stack ≠ .rax ∧ stack ≠ .rsp) (hentry : entry ≠ .rax ∧ entry ≠ .rsp) (d : State) :
    ∃ flags, Run.exec (step status sem) (firstRun stack entry) d =
      some { framed status stack entry d with
        reg := fun r => if r = .rsp then (framed status stack entry d).reg .rsp else 0, rflags := flags } := by
  obtain ⟨flags, hclear⟩ := exec_xors status sem cleared (framed status stack entry d)
  have hframed := exec_framed status sem hstack hentry d
  simp only [List.cons_append, List.nil_append] at hframed
  refine ⟨flags, ?_⟩
  rw [firstRun, Run.exec_append, hframed, Option.bind_some, hclear]
  congr 2
  funext r
  by_cases hr : r = .rsp
  · rw [if_pos hr, hr, if_neg (by decide)]
  · rw [if_neg hr, if_pos (by revert hr; cases r <;> decide)]

/-- A user task starts in ring 3 at its entry point: on its own stack, with every other register zero and interrupts
on. Of memory the forty bytes below the kernel's stack pointer are used. -/
theorem firstRun_enters (status : Word → Word → Word) (sem : Callee → State → Option State) (tss : Word)
    (hstack : stack ≠ .rax ∧ stack ≠ .rsp) (hentry : entry ≠ .rax ∧ entry ≠ .rsp) {d : State} (hd : d.cpl = 0) :
    ∃ m, run (Gdt.gdt tss) status sem (firstRun stack entry) d =
        some { reg := fun r => if r = .rsp then d.reg stack else 0, rip := d.reg entry, cs := 0x2b, ss := 0x23, mem := m,
               mapped := d.mapped, rflags := (d.rflags &&& ~~~interruptFlag) ||| interruptFlag } ∧
      ∀ x, 40 ≤ (x - (d.reg .rsp - 40)).toNat → m x = d.mem x := by
  obtain ⟨flags, hexec⟩ := exec_firstRun status sem hstack hentry d
  obtain ⟨hcode, hss, -⟩ := Gdt.gdt_selectors tss
  refine ⟨(framed status stack entry d).mem, ?_, fun x => framed_mem⟩
  set z : State := { framed status stack entry d with
    reg := fun r => if r = .rsp then (framed status stack entry d).reg .rsp else 0, rflags := flags } with hz
  have hstack : z.Stack ((firstFrame stack entry d).words ++ []) := by
    have hrsp : z.reg .rsp = (framed status stack entry d).reg .rsp := by simp [hz]
    rw [List.append_nil, State.Stack, hrsp]
    exact framed_stack d
  have hcpl : z.cpl ≤ (firstFrame stack entry d).cs.toNat % 4 := by
    change d.cpl ≤ _
    rw [hd]
    exact Nat.zero_le _
  rw [run, hexec, Option.bind_some, iretq_frame hstack hcpl hcode hss, State.leave, Option.some.injEq]
  congr 1
  funext r
  by_cases hr : r = .rsp
  · rw [if_pos hr, hr, Function.update_self]
    rfl
  · simp [hz, hr]

theorem firstRun_enters_started :
    ∃ t, run (Gdt.gdt 0) (fun _ _ => 0) (fun _ _ => none) (firstRun .rbx .rcx)
        { started with cs := 0x08, reg := fun r => if r = .rcx then 0x400000 else 0x1000 } = some t ∧
      t.rip = 0x400000 ∧ t.reg .rsp = 0x1000 := by
  obtain ⟨m, hrun, -⟩ := firstRun_enters (fun _ _ => 0) (fun _ _ => none) 0
    (show Reg.rbx ≠ .rax ∧ Reg.rbx ≠ .rsp by decide) (show Reg.rcx ≠ .rax ∧ Reg.rcx ≠ .rsp by decide)
    (d := { started with cs := 0x08, reg := fun r => if r = .rcx then 0x400000 else 0x1000 }) (by decide)
  exact ⟨_, hrun, rfl, rfl⟩

end FirstRun

end Os506.Isr
