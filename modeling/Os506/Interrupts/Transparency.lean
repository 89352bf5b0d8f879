import Os506.Interrupts.Stubs
import Os506.Interrupts.Tables

namespace Os506.Isr

open Machine

section Memory

variable {s : State} {ret x : Word} {n : ℕ}

theorem calling_mem {p : State} {val : State → Word} (h : 72 ≤ (x - (p.reg .rsp - 72)).toNat) :
    (calling ret val p).mem x = p.mem x := by
  have hsp : (p.pushAll (saved.map p.reg)).reg .rsp = p.reg .rsp - 56 := State.rsp_pushAll _ _
  have hsp' : (stacked p).reg .rsp = p.reg .rsp - 64 := by
    rw [stacked, State.rsp_push, hsp]
    bv_omega
  have hsaved : (p.pushAll (saved.map p.reg)).mem x = p.mem x := by
    apply State.mem_pushAll (by simp [saved])
    simp only [saved, List.length_map, List.length_cons, List.length_nil]
    bv_omega
  have hstacked : (stacked p).mem x = p.mem x := by
    rw [stacked, State.mem_push (by rw [hsp]; bv_omega), hsaved]
  rw [calling, State.mem_push (by rw [State.reg_set_of_ne (by decide), hsp']; bv_omega), State.mem_set, hstacked]

theorem handed_mem {g : Gate} {rsp0 : Word} (hn : n ∉ withCode) (h : 128 ≤ (x - (s.entryStack rsp0 - 128)).toNat) :
    (handed n ret (s.enter g rsp0 none)).mem x = s.mem x := by
  have hrsp : (s.enter g rsp0 none).reg .rsp = s.entryStack rsp0 - 40 := State.rsp_enter g rsp0 none s
  have hprep : (prepared n (s.enter g rsp0 none)).reg .rsp = s.entryStack rsp0 - 56 := by
    rw [prepared, if_neg hn, State.rsp_pushAll, hrsp]
    simp only [List.length_cons, List.length_nil]
    bv_omega
  have hentered : (s.enter g rsp0 none).mem x = s.mem x := State.mem_enter (k := 40) rfl (by bv_omega)
  rw [handed, calling_mem (by rw [hprep]; bv_omega), prepared, if_neg hn, State.mem_pushAll (by simp), hentered]
  dsimp only
  rw [hrsp]
  simp only [List.length_cons, List.length_nil]
  bv_omega

end Memory

section Resume

variable {gdt : List Word} {status : Word → Word → Word} {sem : Callee → State → Option State} {g : Gate} {rsp0 ret : Word}
  {err : Option Word} {n : ℕ} {s t : State}

theorem prepared_rsp (herr : err.isSome = decide (n ∈ withCode)) :
    (prepared n (s.enter g rsp0 err)).reg .rsp = s.entryStack rsp0 - 56 := by
  rw [prepared, State.rsp_pushAll]
  dsimp only
  rw [State.rsp_enter]
  by_cases hn : n ∈ withCode
  · rw [decide_eq_true hn] at herr
    obtain ⟨e, rfl⟩ := Option.isSome_iff_exists.mp herr
    rw [if_pos hn]
    simp only [Option.toList_some, List.length_cons, List.length_nil]
    bv_omega
  · rw [decide_eq_false hn, Option.isSome_eq_false_iff, Option.isNone_iff_eq_none] at herr
    subst herr
    rw [if_neg hn]
    simp only [Option.toList_none, List.length_cons, List.length_nil]
    bv_omega

theorem passed_eq (herr : err.isSome = decide (n ∈ withCode)) :
    Regs.passed (handed n ret (s.enter g rsp0 err)) =
      { rsp := s.entryStack rsp0 - 112, rbq := s.reg .rbp, rdi := s.reg .rdi, rsi := s.reg .rsi, rdx := s.reg .rdx
        rcx := s.reg .rcx, rbx := s.reg .rbx, rax := s.reg .rax, err := err.getD (BitVec.ofNat 64 n)
        num := number n (s.enter g rsp0 err) } := by
  have hrsp : s.entryStack rsp0 - 56 - 56 = s.entryStack rsp0 - 112 := by bv_omega
  have hreg : ∀ r, r ≠ .rsp → (s.enter g rsp0 err).reg r = s.reg r := fun r hr => State.enter_reg g rsp0 err hr
  rw [handed_passed herr (State.enter_stack g rsp0 err s), prepared_rsp herr, hrsp, hreg .rbp (by decide),
    hreg .rdi (by decide), hreg .rsi (by decide), hreg .rdx (by decide), hreg .rcx (by decide), hreg .rbx (by decide),
    hreg .rax (by decide)]

/-- The processor pushes an error code for vector 17 and its code pushes another: `iretq` takes the processor's for the
address to return to. -/
theorem entry_misreturns {e : Word} {u : State}
    (hsem : sem .isrHandler (handed 17 ret (s.enter g rsp0 (some e))) = some t)
    (ht : Returned 16 (handed 17 ret (s.enter g rsp0 (some e))) t)
    (hu : run gdt status sem (entry ret 17) (s.enter g rsp0 (some e)) = some u) :
    u.rip = e ∧ u.cs = s.rip.setWidth 16 := by
  have hstack : (prepared 17 (s.enter g rsp0 (some e))).Stack (17 :: 17 :: e :: s.frame.words) :=
    State.push_stack (by simp [Frame.words])
      (State.push_stack (by simp [Frame.words]) (State.enter_stack g rsp0 (some e) s))
  obtain ⟨y, hexec, hy, -⟩ : ∃ y : State, Run.exec (step status sem) _ t = some y ∧ y.Stack (e :: s.frame.words) ∧ _ :=
    common_pops (by simp [Frame.words]) hstack ht
  rw [run_entry (fun h => absurd h.1 (by decide)), run, exec_common exec_middle] at hu
  change ((sem .isrHandler (handed 17 ret (s.enter g rsp0 (some e)))).bind _).bind _ = _ at hu
  rw [hsem, Option.bind_some, hexec, Option.bind_some] at hu
  exact iretq_words hy hu

/-- The code of a vector hands `isr_handler` the registers of the interrupted program, the vector and the error code;
when the handler returns by the convention, the program goes on with its own `rip`, flags, stack and registers, apart
from `r8` to `r11`. For five vectors the code takes the number from memory at the address of that number, and gets no
further where nothing is mapped there; for vector 17 it does not return to the program. -/
theorem entry_transparent (herr : err.isSome = decide (n ∈ errorCoded)) (hg : g.selector.toNat % 4 = 0)
    (hs : Resumable gdt s) :
    (n ∈ [8, 10, 11, 12, 13] → s.mapped (BitVec.ofNat 64 n) = false →
        run gdt status sem (entry ret n) (s.enter g rsp0 err) = none) ∧
      ∀ t, sem .isrHandler (handed n ret (s.enter g rsp0 err)) = some t →
        (n ≠ 17 → (n ∈ [8, 10, 11, 12, 13] → s.mapped (BitVec.ofNat 64 n) = true) →
            Returned 15 (handed n ret (s.enter g rsp0 err)) t →
          Regs.passed (handed n ret (s.enter g rsp0 err)) =
              { rsp := s.entryStack rsp0 - 112, rbq := s.reg .rbp, rdi := s.reg .rdi, rsi := s.reg .rsi
                rdx := s.reg .rdx, rcx := s.reg .rcx, rbx := s.reg .rbx, rax := s.reg .rax
                err := err.getD (BitVec.ofNat 64 n)
                num := if n ∈ [8, 10, 11, 12, 13] then load (s.enter g rsp0 err).mem (BitVec.ofNat 64 n)
                  else BitVec.ofNat 64 n } ∧
            run gdt status sem (entry ret n) (s.enter g rsp0 err) =
              some { s with reg := fun r => if r ∈ scratch then t.reg r else s.reg r
                            mem := t.mem, mapped := t.mapped }) ∧
          (n = 17 → Returned 16 (handed n ret (s.enter g rsp0 err)) t →
            ∀ u, run gdt status sem (entry ret n) (s.enter g rsp0 err) = some u →
              err = some u.rip ∧ u.cs = s.rip.setWidth 16) := by
  have hfive : n ∈ [8, 10, 11, 12, 13] ↔ n ∈ withCode ∧ n ≠ 14 := by
    simp only [withCode, List.mem_cons, List.not_mem_nil, or_false]
    omega
  refine ⟨fun hn hmap => ?_, fun t hsem => ⟨fun h17 hmap ht => ?_, fun h17 ht u hu => ?_⟩⟩
  · obtain ⟨hwith, h14⟩ := hfive.mp hn
    exact run_isrE_unmapped hwith h14 (by rw [State.mapped_enter]; exact hmap)
  · have hwith : err.isSome = decide (n ∈ withCode) := by
      rw [herr, decide_eq_decide]
      simp only [errorCoded, withCode, List.mem_cons, List.not_mem_nil, or_false]
      omega
    have hread : Readable n (s.enter g rsp0 err) := by
      intro hn
      rw [State.mapped_enter]
      exact hmap (hfive.mpr hn)
    refine ⟨?_, entry_resumes hwith hread hg hs hsem ht⟩
    simp only [passed_eq hwith, number, hfive]
  · subst h17
    obtain ⟨e, rfl⟩ := Option.isSome_iff_exists.mp (herr.trans (by decide))
    obtain ⟨hrip, hcs⟩ := entry_misreturns hsem ht hu
    exact ⟨congrArg some hrip.symm, hcs⟩

def justReturns (v : Word) (e : State) : State := (e.set .rax v).set .rsp (e.reg .rsp + 8)

theorem justReturns_returned (m : ℕ) (v : Word) (e : State) : Returned m e (justReturns v e) where
  rsp := State.reg_set_self
  saved := fun r hr => by
    have hrsp : r ≠ .rsp := by revert hr; cases r <;> decide
    have hrax : r ≠ .rax := by revert hr; cases r <;> decide
    rw [justReturns, State.reg_set_of_ne hrsp, State.reg_set_of_ne hrax]
  cs := rfl
  ss := rfl
  words := fun _ _ => rfl

def started : State := ⟨fun _ => 0, 0x400000, 0x202, 0x2b, 0x23, fun _ => 0, fun a => decide (0x400000 ≤ a.toNat)⟩

theorem started_resumable (tss : Word) : Resumable (Gdt.gdt tss) started :=
  ⟨(Gdt.gdt_selectors tss).1, (Gdt.gdt_selectors tss).2.1⟩

theorem entry_transparent_faults :
    (∃ t, run (Gdt.gdt 0) (fun _ _ => 0) (fun _ e => some (justReturns 0 e)) (entry 0 14)
          (started.enter ⟨0, 0x08, true, true, 0, 0⟩ 0xffffffff80001000 (some 4)) = some t ∧
        t.rip = started.rip ∧ t.reg .rsp = started.reg .rsp) ∧
      run (Gdt.gdt 0) (fun _ _ => 0) (fun _ e => some (justReturns 0 e)) (entry 0 13)
        (started.enter ⟨0, 0x08, true, true, 0, 0⟩ 0xffffffff80001000 (some 0)) = none := by
  refine ⟨⟨_, (((entry_transparent rfl ?_ (started_resumable 0)).2 _ rfl).1 (by decide)
      (fun h => absurd h (by decide)) (justReturns_returned 15 0 _)).2, rfl, rfl⟩,
    (entry_transparent rfl ?_ (started_resumable 0)).1 (by decide) (by decide)⟩
  all_goals decide

end Resume

/-- What a program in ring 3 can rely on: two states that agree on this differ in `r8` to `r11` and in memory that is not
its own. -/
structure Alike (own : Word → Prop) (s u : State) : Prop where
  rip : s.rip = u.rip
  rflags : s.rflags = u.rflags
  cs : s.cs = u.cs
  ss : s.ss = u.ss
  reg : ∀ r, r ∉ scratch → s.reg r = u.reg r
  mem : ∀ x, own x → s.mem x = u.mem x

/-- A program that does not use the registers `r8` to `r11`, stays in its segments and reads only its own memory. -/
structure Ordinary (own : Word → Prop) (prog : State → Option State) : Prop where
  alike : ∀ s u v, Alike own s u → prog u = some v → ∃ t, prog s = some t ∧ Alike own t v
  cs : ∀ u v, prog u = some v → v.cs = u.cs
  ss : ∀ u v, prog u = some v → v.ss = u.ss

/-- A kernel whose `isr_handler` returns from the timer and the keyboard by the convention and leaves the program's
memory; so does the stack that the processor is told of. -/
structure Careful (own : Word → Prop) (rsp0 : Word) (sem : Callee → State → Option State) : Prop where
  stack : ∀ x, own x → 128 ≤ (x - (rsp0 - rsp0 % 16 - 128)).toNat
  returns : ∀ e, (Regs.passed e).num = 32 ∨ (Regs.passed e).num = 33 →
    ∃ t, sem .isrHandler e = some t ∧ Returned 15 e t ∧ ∀ x, own x → t.mem x = e.mem x

inductive Line
  | timer
  | keyboard

def Line.vector : Line → ℕ
  | .timer => 32
  | .keyboard => 33

inductive Event
  | step
  | irq (line : Line)

section Events

variable (isr : ℕ → Word) (tss rsp0 ret : Word) (status : Word → Word → Word) (sem : Callee → State → Option State)
  (prog : State → Option State)

def happens : Event → State → Option State
  | .step, s => prog s
  | .irq line, s => run (Gdt.gdt tss) status sem (entry ret line.vector)
      (s.enter (Gate.decode (Idt.initIdt isr (BitVec.ofNat 8 line.vector)).bits) rsp0 none)

def Event.visible : Event → Option Unit
  | .step => some ()
  | .irq _ => none

variable {isr tss rsp0 ret status sem prog} {own : Word → Prop} {s u : State}

theorem irq_alike (hk : Careful own rsp0 sem) (hs : Resumable (Gdt.gdt tss) s) (hcpl : s.cpl = 3) (line : Line) :
    ∃ t, happens isr tss rsp0 ret status sem prog (.irq line) s = some t ∧ Alike own t s := by
  set g := Gate.decode (Idt.initIdt isr (BitVec.ofNat 8 line.vector)).bits with hg
  have hsel : g.selector.toNat % 4 = 0 := by
    rw [hg, Idt.decode_initIdt, if_neg (by cases line <;> decide), if_pos (by cases line <;> decide)]
    exact show (8 : BitVec 16).toNat % 4 = 0 by decide
  have hn : line.vector ∉ withCode := by cases line <;> decide
  have herr : (none : Option Word).isSome = decide (line.vector ∈ withCode) := (decide_eq_false hn).symm
  have hnum : (Regs.passed (handed line.vector ret (s.enter g rsp0 none))).num = BitVec.ofNat 64 line.vector := by
    rw [passed_eq herr, number, if_neg fun h => hn h.1]
  obtain ⟨t, hsem, ht, hmem⟩ := hk.returns (handed line.vector ret (s.enter g rsp0 none))
    (by rw [hnum]; cases line <;> decide)
  refine ⟨resumed s t, entry_resumes herr (fun h => absurd h.1 hn) hsel hs hsem ht, rfl, rfl, rfl, rfl, ?_, ?_⟩
  · intro r hr
    exact if_neg hr
  · intro x hx
    have htop : s.entryStack rsp0 = rsp0 - rsp0 % 16 := by rw [State.entryStack, if_neg (by omega)]
    exact (hmem x hx).trans (handed_mem hn (by rw [htop]; exact hk.stack x hx))

theorem Alike.trans {t : State} (h : Alike own t s) (h' : Alike own s u) : Alike own t u where
  rip := h.rip.trans h'.rip
  rflags := h.rflags.trans h'.rflags
  cs := h.cs.trans h'.cs
  ss := h.ss.trans h'.ss
  reg := fun r hr => (h.reg r hr).trans (h'.reg r hr)
  mem := fun x hx => (h.mem x hx).trans (h'.mem x hx)

/-- A program in ring 3 does not see the timer and the keyboard: wherever interrupts fall into its run, it reaches a
state like the one that it reaches without them. -/
theorem interrupts_invisible (hk : Careful own rsp0 sem) (hp : Ordinary own prog) (hs : Resumable (Gdt.gdt tss) s)
    (hcpl : s.cpl = 3) {events : List Event} {v : State}
    (h : Run.exec (fun _ => prog) (events.filterMap Event.visible) s = some v) :
    ∃ t, Run.exec (happens isr tss rsp0 ret status sem prog) events s = some t ∧ Alike own t v := by
  have hsim : ∃ t, Run.exec (happens isr tss rsp0 ret status sem prog) events s = some t ∧
      Alike own t v ∧ Resumable (Gdt.gdt tss) v ∧ v.cpl = 3 := by
    refine Run.exec_of_simulation (R := fun t u => Alike own t u ∧ Resumable (Gdt.gdt tss) u ∧ u.cpl = 3) ?_ ?_
      ⟨⟨rfl, rfl, rfl, rfl, fun _ _ => rfl, fun _ _ => rfl⟩, hs, hcpl⟩ h
    · rintro (_ | line) t u hv ⟨hal, hu, hu3⟩
      · cases hv
      · have ht : Resumable (Gdt.gdt tss) t := ⟨by rw [hal.cs]; exact hu.code, by rw [hal.cs, hal.ss]; exact hu.stack⟩
        have ht3 : t.cpl = 3 := by rw [State.cpl, hal.cs]; exact hu3
        obtain ⟨t', hrun, hal'⟩ := irq_alike hk ht ht3 line
        exact ⟨t', hrun, hal'.trans hal, hu, hu3⟩
    · rintro (_ | line) b t u w hv ⟨hal, hu, hu3⟩ hw
      · obtain ⟨t', hstep, hal'⟩ := hp.alike t u w hal hw
        have hcs := hp.cs u w hw
        refine ⟨t', hstep, hal', ⟨by rw [hcs]; exact hu.code, by rw [hcs, hp.ss u w hw]; exact hu.stack⟩, ?_⟩
        rw [State.cpl, hcs]
        exact hu3
      · cases hv
  obtain ⟨t, ht, hal, -⟩ := hsim
  exact ⟨t, ht, hal⟩

theorem interrupts_invisible_count :
    ∃ t, Run.exec (happens (fun n => BitVec.ofNat 64 n) 0 0xffffffff80001000 0 (fun _ _ => 0) (fun _ e => some (justReturns 0 e))
        fun s => some (s.set .rax (s.reg .rax + 1))) [.irq .timer, .step, .irq .keyboard] started = some t ∧
      Alike (fun x => x.toNat < 2 ^ 47) t (started.set .rax 1) := by
  have hcareful : Careful (fun x => x.toNat < 2 ^ 47) 0xffffffff80001000 fun _ e => some (justReturns 0 e) := by
    refine ⟨fun x hx => ?_, fun e _ => ⟨_, rfl, justReturns_returned 15 0 e, fun _ _ => rfl⟩⟩
    have hmod : (0xffffffff80001000 : Word) % 16 = 0 := by decide
    rw [hmod]
    bv_omega
  have hordinary : Ordinary (fun x => x.toNat < 2 ^ 47) fun s => some (s.set .rax (s.reg .rax + 1)) := by
    refine ⟨?_, fun u v h => by cases h; rfl, fun u v h => by cases h; rfl⟩
    rintro s u v ⟨hrip, hflags, hcs, hss, hreg, hmem⟩ h
    cases h
    refine ⟨_, rfl, hrip, hflags, hcs, hss, fun r hr => ?_, hmem⟩
    simp only [State.set, hreg .rax (by decide), Function.update_apply, hreg r hr]
  exact interrupts_invisible hcareful hordinary (started_resumable 0) (by decide) rfl

end Events

end Os506.Isr
