import Os506.Scheduler.Queues
import Os506.Scheduler.Schedule
import Os506.Memory.Arguments

namespace Os506

open Bytes Linked

/-- The kernel's memory from `ps_buf` on, and the bytes of it that have been written. The strings that are appended are
values: a write that gets behind `ps_buf` is recorded, and not followed into what it hits there. -/
structure PsBuf where
  mem : ℕ → UInt8
  writes : List ℕ

namespace PsBuf

def size : ℕ := 1024

def delivered (f : PsBuf) : List UInt8 := peek f.mem 0 size

def cString (l : List UInt8) : List UInt8 := l.takeWhile (· != 0)

/-- The loop of `kint_to_str`, with the number of bytes that are left in front of `ptr`. The remainder of a negative
number is negative in C, so `rep` is the memory on both sides of `Rep`. -/
def kintToStrLoop (rep : ℤ → UInt8) (base : ℤ) : ℕ → ℤ → List UInt8 → List UInt8
  | 0, _, digits => digits
  | room + 1, i, digits =>
    let digits := rep (i.tmod base) :: digits
    if i.tdiv base ≠ 0 then kintToStrLoop rep base room (i.tdiv base) digits else digits

def kintToStrReads (base : ℤ) : ℕ → ℤ → List ℤ
  | 0, _ => []
  | room + 1, i => i.tmod base :: if i.tdiv base ≠ 0 then kintToStrReads base room (i.tdiv base) else []

def kintToStr (rep : ℤ → UInt8) (i : BitVec 32) (base : ℤ) : List UInt8 :=
  cString (kintToStrLoop rep base 49 i.toInt [])

/-- `kstrcat(ps_buf, src)`, which looks for the end of `ps_buf` at no more than `n` bytes. No NUL is written. -/
def kstrcat (n : ℕ) (src : List UInt8) (f : PsBuf) : Option PsBuf :=
  (Mach.kstrlen f.mem n 0).map fun q => ⟨put q src f.mem, List.range' q src.length ++ f.writes⟩

def header : List UInt8 := [80, 73, 68, 32, 32, 32, 32, 78, 97, 109, 101, 32, 32, 32, 32, 82, 117, 110, 110, 105, 110,
  103, 32, 84, 105, 109, 101, 10]

def blanks : List UInt8 := [32, 32, 32, 32, 32]

def runningTime (ms : ℕ) (t : Task) : BitVec 32 := (BitVec.ofNat 64 ms - BitVec.ofNat 64 t.startMs).setWidth 32

def psTask (rep : ℤ → UInt8) (n ms : ℕ) (t : Task) (f : PsBuf) : Option PsBuf := do
  let f ← kstrcat n (kintToStr rep t.pid 10) f
  let f ← kstrcat n blanks f
  let f ← kstrcat n (cString t.name) f
  let f ← kstrcat n blanks f
  let f ← kstrcat n (kintToStr rep (runningTime ms t) 10) f
  kstrcat n [10] f

def psTasks (rep : ℤ → UInt8) (n : ℕ) (s : Sched) : ℕ → Option ℕ → PsBuf → Option PsBuf
  | _, none, f => some f
  | 0, some _, _ => none
  | k + 1, some cursor, f => (psTask rep n s.ms (s.task cursor) f).bind (psTasks rep n s k (s.next cursor))

def sysPs (rep : ℤ → UInt8) (n : ℕ) (s : Sched) (stack : ℕ → UInt8) : Option PsBuf := do
  let f ← kstrcat n header ⟨stack, []⟩
  let f ← s.current.elim (some f) fun t => psTask rep n s.ms (s.task t) f
  let f ← psTasks rep n s n s.available f
  let f ← psTasks rep n s n s.waiting f
  let f ← psTasks rep n s n s.sleeping f
  kstrcat n [] f

structure Listed (s : Sched) (q : Queues) : Prop where
  available : Chain s.next s.available q.available
  waiting : Chain s.next s.waiting q.waiting
  sleeping : Chain s.next s.sleeping q.sleeping

def shown (s : Sched) (q : Queues) : List Task :=
  (s.current.toList ++ (q.available ++ (q.waiting ++ q.sleeping))).map s.task

def decimal (i : ℤ) : List UInt8 :=
  (if i < 0 then [45] else []) ++ (Nat.toDigits 10 i.natAbs).map fun c => c.toNat.toUInt8

def line (ms : ℕ) (t : Task) : List UInt8 :=
  decimal t.pid.toInt ++ (blanks ++ (cString t.name ++ (blanks ++ (decimal (runningTime ms t).toInt ++ [10]))))

def text (s : Sched) (q : Queues) : List UInt8 := header ++ (shown s q).flatMap (line s.ms)

def Delivers (rep : ℤ → UInt8) (s : Sched) (q : Queues) (stack : ℕ → UInt8) : Prop :=
  ∃ enough, ∀ n ≥ enough, ∃ f, sysPs rep n s stack = some f ∧ (∀ i ∈ f.writes, i < size) ∧
    text s q ++ [0] <+: f.delivered

def Independent (rep : ℤ → UInt8) (s : Sched) : Prop :=
  ∀ n stack stack' f f', sysPs rep n s stack = some f → sysPs rep n s stack' = some f' → f.delivered = f'.delivered

def pieces (rep : ℤ → UInt8) (ms : ℕ) (t : Task) : List (List UInt8) :=
  [kintToStr rep t.pid 10, blanks, cString t.name, blanks, kintToStr rep (runningTime ms t) 10, [10]]

def parts (rep : ℤ → UInt8) (s : Sched) (q : Queues) : List (List UInt8) :=
  header :: ((shown s q).flatMap (pieces rep s.ms) ++ [[]])

def kstrcats (n : ℕ) : List (List UInt8) → PsBuf → Option PsBuf
  | [], f => some f
  | p :: ps, f => (kstrcat n p f).bind (kstrcats n ps)

section Pieces

variable {rep : ℤ → UInt8} {n k ms : ℕ} {s : Sched} {q : Queues} {f : PsBuf}

theorem kstrcats_append (ps ps' : List (List UInt8)) (f : PsBuf) :
    kstrcats n (ps ++ ps') f = (kstrcats n ps f).bind (kstrcats n ps') := by
  induction ps generalizing f with
  | nil => rfl
  | cons p ps ih =>
    rw [List.cons_append, kstrcats, kstrcats, Option.bind_assoc]
    exact congrArg _ (funext ih)

theorem psTask_eq (t : Task) : psTask rep n ms t f = kstrcats n (pieces rep ms t) f := by
  simp [psTask, pieces, kstrcats, Option.bind_eq_bind]

theorem psTasks_eq {h : Option ℕ} {l : List ℕ} (hl : Chain s.next h l) (hk : l.length ≤ k) :
    psTasks rep n s k h f = kstrcats n ((l.map s.task).flatMap (pieces rep s.ms)) f := by
  induction l generalizing k h f with
  | nil =>
    obtain rfl : h = none := hl
    cases k <;> rfl
  | cons t l ih =>
    obtain ⟨rfl, hl⟩ := hl
    rw [List.length_cons] at hk
    obtain ⟨k, rfl⟩ : ∃ j, k = j + 1 := ⟨k - 1, by omega⟩
    rw [psTasks, List.map_cons, List.flatMap_cons, kstrcats_append, psTask_eq]
    exact congrArg _ (funext fun f => ih hl (by omega))

theorem sysPs_eq (h : Listed s q) (hq : q.all.length ≤ n) (stack : ℕ → UInt8) :
    sysPs rep n s stack = kstrcats n (parts rep s q) ⟨stack, []⟩ := by
  rw [Queues.all, List.length_append, List.length_append] at hq
  rw [sysPs, parts, kstrcats]
  refine congrArg _ (funext fun f => ?_)
  have hcurrent : (s.current.elim (some f) fun t => psTask rep n s.ms (s.task t) f) =
      kstrcats n ((s.current.toList.map s.task).flatMap (pieces rep s.ms)) f := by
    cases s.current with
    | none => rfl
    | some t => rw [Option.elim_some, psTask_eq, Option.toList_some, List.map_singleton, List.flatMap_singleton]
  simp only [shown, List.map_append, List.flatMap_append, List.append_assoc, kstrcats_append, Option.bind_eq_bind,
    hcurrent, psTasks_eq h.available (show _ ≤ n by omega), psTasks_eq h.waiting (show _ ≤ n by omega),
    psTasks_eq h.sleeping (show _ ≤ n by omega), kstrcats, Option.bind_fun_some]

end Pieces

section Digits

variable {rep : ℤ → UInt8}

theorem toDigits_div {n : ℕ} (h : n / 10 ≠ 0) :
    Nat.toDigits 10 n = Nat.toDigits 10 (n / 10) ++ Nat.toDigits 10 (n % 10) := by
  rw [Nat.toDigits_append_toDigits (by decide) (by omega) (by omega), Nat.div_add_mod]

theorem decimal_digit {d : ℕ} (h : d < 10) : decimal d = [(48 + d).toUInt8] := by
  decide +revert

theorem decimal_div {n : ℕ} (h : n / 10 ≠ 0) : decimal n = decimal (n / 10 : ℕ) ++ decimal (n % 10 : ℕ) := by
  have hpos : ∀ m : ℕ, ¬ (m : ℤ) < 0 := by omega
  simp only [decimal, if_neg (hpos _), List.nil_append, Int.natAbs_natCast, toDigits_div h, List.map_append]

theorem kintToStrLoop_eq (hrep : ∀ d < 10, rep (d : ℕ) = (48 + d).toUInt8) {room i : ℕ} (h : i < 10 ^ (room + 1))
    (digits : List UInt8) : kintToStrLoop rep 10 (room + 1) i digits = decimal i ++ digits := by
  have hmod : (i : ℤ).tmod 10 = (i % 10 : ℕ) := rfl
  have hdiv : (i : ℤ).tdiv 10 = (i / 10 : ℕ) := rfl
  have hdigit : rep (i % 10 : ℕ) = (48 + i % 10).toUInt8 := hrep _ (by omega)
  induction room generalizing i digits with
  | zero =>
    have hi : i < 10 := h
    rw [kintToStrLoop, hdiv, hmod, hdigit, if_neg (by simp; omega), decimal_digit hi, Nat.mod_eq_of_lt hi]
    rfl
  | succ room ih =>
    rw [kintToStrLoop, hdiv, hmod, hdigit]
    by_cases hi : i / 10 = 0
    · have hi' : i < 10 := by omega
      rw [if_neg (by simp; omega), decimal_digit hi', Nat.mod_eq_of_lt hi']
      rfl
    · have hlt : i / 10 < 10 ^ (room + 1) := by
        rw [pow_succ] at h
        omega
      rw [if_pos (by exact_mod_cast hi), ih hlt _ rfl rfl (hrep _ (by omega)), decimal_div hi,
        decimal_digit (Nat.mod_lt _ (by decide))]
      simp

theorem kintToStrLoop_eq_map (base : ℤ) (room : ℕ) (i : ℤ) (digits : List UInt8) :
    kintToStrLoop rep base room i digits = ((kintToStrReads base room i).map rep).reverse ++ digits := by
  induction room generalizing i digits with
  | zero => rfl
  | succ room ih =>
    rw [kintToStrLoop, kintToStrReads, List.map_cons, List.reverse_cons, List.append_assoc]
    split
    · rw [ih]
      rfl
    · rfl

theorem kintToStrReads_mem {base i : ℤ} {room : ℕ} (hb : 0 < base) (hi : 0 ≤ i) :
    ∀ d ∈ kintToStrReads base room i, 0 ≤ d ∧ d < base := by
  induction room generalizing i with
  | zero => nofun
  | succ room ih =>
    rw [kintToStrReads, List.forall_mem_cons]
    refine ⟨⟨Int.tmod_nonneg base hi, Int.tmod_lt_of_pos i hb⟩, ?_⟩
    split
    · exact ih (Int.tdiv_nonneg hi hb.le)
    · nofun

theorem zero_notMem_decimal (n : ℕ) : 0 ∉ decimal n := by
  induction n using Nat.strongRecOn with
  | ind n ih =>
    by_cases hn : n / 10 = 0
    · have hlt : n < 10 := by omega
      rw [decimal_digit hlt]
      clear ih hn
      decide +revert
    · have hdigit := ih (n % 10) (by omega)
      rw [decimal_div hn, List.mem_append, not_or]
      exact ⟨ih (n / 10) (by omega), hdigit⟩

theorem cString_eq {l : List UInt8} (h : 0 ∉ l) : cString l = l := by
  rw [cString, List.takeWhile_eq_self_iff]
  intro b hb
  simpa using fun he : b = 0 => h (he ▸ hb)

theorem zero_notMem_cString (l : List UInt8) : 0 ∉ cString l := by
  intro h
  have := List.mem_takeWhile_imp h
  simp at this

theorem kintToStr_eq (hrep : ∀ d < 10, rep (d : ℕ) = (48 + d).toUInt8) {i : BitVec 32} (hi : 0 ≤ i.toInt) :
    kintToStr rep i 10 = decimal i.toInt := by
  obtain ⟨n, hn⟩ := Int.eq_ofNat_of_zero_le hi
  have hlt : n < 10 ^ 49 := by
    have := i.toInt_lt
    have hpow : 2 ^ (32 - 1) < 10 ^ 49 := by decide
    omega
  rw [kintToStr, hn, kintToStrLoop_eq hrep hlt, List.append_nil, cString_eq (zero_notMem_decimal n)]

theorem zero_notMem_parts {s : Sched} {q : Queues} : ∀ p ∈ parts rep s q, 0 ∉ p := by
  intro p hp
  rw [parts, List.mem_cons, List.mem_append, List.mem_flatMap, List.mem_singleton] at hp
  rcases hp with rfl | ⟨t, _, hp⟩ | rfl
  · decide
  · simp only [pieces, List.mem_cons, List.not_mem_nil, or_false] at hp
    rcases hp with rfl | rfl | rfl | rfl | rfl | rfl
    · exact zero_notMem_cString _
    · decide
    · exact zero_notMem_cString _
    · decide
    · exact zero_notMem_cString _
    · decide
  · exact List.not_mem_nil

theorem flatten_parts {s : Sched} {q : Queues} (hrep : ∀ d < 10, rep (d : ℕ) = (48 + d).toUInt8)
    (hnum : ∀ t ∈ shown s q, 0 ≤ t.pid.toInt ∧ 0 ≤ (runningTime s.ms t).toInt) :
    (parts rep s q).flatten = text s q := by
  have hline : ∀ l ⊆ shown s q, (l.flatMap (pieces rep s.ms)).flatten = l.flatMap (line s.ms) := by
    intro l hl
    induction l with
    | nil => rfl
    | cons t l ih =>
      obtain ⟨hpid, htime⟩ := hnum t (hl List.mem_cons_self)
      rw [List.flatMap_cons, List.flatMap_cons, List.flatten_append, ih fun u hu => hl (List.mem_cons_of_mem _ hu)]
      simp [pieces, line, kintToStr_eq hrep hpid, kintToStr_eq hrep htime]
  rw [parts, List.flatten_cons, List.flatten_append, hline _ fun _ h => h, text]
  simp

end Digits

section Runs

variable {n : ℕ} {f f' : PsBuf} {ps : List (List UInt8)} {p pre : List UInt8}

theorem kstrlen_some_iff {mem : ℕ → UInt8} {a len : ℕ} :
    Mach.kstrlen mem n a = some len ↔ len < n ∧ mem (a + len) = 0 ∧ ∀ x < len, mem (a + x) ≠ 0 := by
  induction n generalizing a len with
  | zero => simp [Mach.kstrlen]
  | succ n ih =>
    rw [Mach.kstrlen]
    split
    · rename_i hzero
      constructor
      · rintro ⟨⟩
        exact ⟨Nat.succ_pos n, hzero, fun x hx => absurd hx (Nat.not_lt_zero x)⟩
      · rintro ⟨_, _, hfirst⟩
        cases len with
        | zero => rfl
        | succ len => exact absurd hzero (hfirst 0 (Nat.succ_pos len))
    · rename_i hzero
      rw [Option.map_eq_some_iff]
      constructor
      · rintro ⟨len, hlen, rfl⟩
        obtain ⟨hlt, hend, hfirst⟩ := ih.mp hlen
        rw [Nat.add_right_comm, Nat.add_assoc] at hend
        refine ⟨Nat.succ_lt_succ hlt, hend, fun x hx => ?_⟩
        cases x with
        | zero => exact hzero
        | succ x =>
          have := hfirst x (by omega)
          rwa [Nat.add_right_comm, Nat.add_assoc] at this
      · rintro ⟨hlt, hend, hfirst⟩
        cases len with
        | zero => exact absurd hend hzero
        | succ len =>
          refine ⟨len, ih.mpr ⟨by omega, ?_, fun x hx => ?_⟩, rfl⟩
          · rwa [Nat.add_right_comm, Nat.add_assoc]
          · rw [Nat.add_right_comm, Nat.add_assoc]
            exact hfirst (x + 1) (by omega)

theorem kstrcat_eq_some : kstrcat n p f = some f' ↔ ∃ q < n, f.mem q = 0 ∧ (∀ x < q, f.mem x ≠ 0) ∧
    f' = ⟨put q p f.mem, List.range' q p.length ++ f.writes⟩ := by
  rw [kstrcat, Option.map_eq_some_iff]
  simp only [kstrlen_some_iff, Nat.zero_add]
  constructor
  · rintro ⟨q, ⟨hq, hend, hfirst⟩, rfl⟩
    exact ⟨q, hq, hend, hfirst, rfl⟩
  · rintro ⟨q, hq, hend, hfirst, rfl⟩
    exact ⟨q, ⟨hq, hend, hfirst⟩, rfl⟩

theorem kstrcat_place {len : ℕ} (h : kstrcat n p f = some f') (hlen : ∀ x < len, f.mem x ≠ 0) :
    ∃ q, len ≤ q ∧ (∀ x < q, f.mem x ≠ 0) ∧ f' = ⟨put q p f.mem, List.range' q p.length ++ f.writes⟩ := by
  obtain ⟨q, _, hend, hfirst, rfl⟩ := kstrcat_eq_some.mp h
  refine ⟨q, ?_, hfirst, rfl⟩
  by_contra hlt
  exact hlen q (by omega) hend

theorem kstrcats_keep {len : ℕ} (h : kstrcats n ps f = some f') (hlen : ∀ x < len, f.mem x ≠ 0) :
    (∀ x < len, f'.mem x = f.mem x) ∧ f.writes ⊆ f'.writes := by
  induction ps generalizing f with
  | nil =>
    obtain rfl := Option.some.inj h
    exact ⟨fun _ _ => rfl, fun _ hi => hi⟩
  | cons p ps ih =>
    obtain ⟨f₁, hcat, hrun⟩ := Option.bind_eq_some_iff.mp h
    obtain ⟨q, hq, _, rfl⟩ := kstrcat_place hcat hlen
    have hput : ∀ x < len, put q p f.mem x = f.mem x := fun x hx => put_of_lt (by omega)
    obtain ⟨hkeep, hsub⟩ := ih hrun fun x hx => (hput x hx).trans_ne (hlen x hx)
    exact ⟨fun x hx => (hkeep x hx).trans (hput x hx), fun i hi => hsub (List.mem_append_right _ hi)⟩

theorem put_ne_zero {mem : ℕ → UInt8} {q : ℕ} (h : ∀ x < q, mem x ≠ 0) (hp : 0 ∉ p) :
    ∀ x < q + p.length, put q p mem x ≠ 0 := by
  intro x hx hzero
  rcases Nat.lt_or_ge x q with hlt | hge
  · rw [put_of_lt hlt] at hzero
    exact h x hlt hzero
  · obtain ⟨i, rfl⟩ := Nat.exists_eq_add_of_le hge
    rw [(at_put q p mem).get (by omega)] at hzero
    exact hp (hzero ▸ List.getElem_mem _)

theorem at_ne_zero {mem : ℕ → UInt8} (h : At mem 0 pre) (hpre : 0 ∉ pre) : ∀ x < pre.length, mem x ≠ 0 := by
  intro x hx hzero
  have hget := h.get hx
  rw [Nat.zero_add, hzero] at hget
  exact hpre (hget ▸ List.getElem_mem _)

theorem kstrcats_extend {len : ℕ} (h : kstrcats n ps f = some f') (hps : ∀ p ∈ ps, 0 ∉ p)
    (hlen : ∀ x < len, f.mem x ≠ 0) : ∀ x < len + ps.flatten.length, f'.mem x ≠ 0 := by
  induction ps generalizing f len with
  | nil =>
    obtain rfl := Option.some.inj h
    exact hlen
  | cons p ps ih =>
    obtain ⟨f₁, hcat, hrun⟩ := Option.bind_eq_some_iff.mp h
    obtain ⟨q, hq, hfirst, rfl⟩ := kstrcat_place hcat hlen
    have hput := put_ne_zero hfirst (hps p List.mem_cons_self)
    rw [List.flatten_cons, List.length_append, ← Nat.add_assoc]
    exact ih hrun (fun p hp => hps p (List.mem_cons_of_mem _ hp)) fun x hx => hput x (by omega)

theorem kstrcats_total {m : ℕ} (h : ∀ x ≥ m, f.mem x = 0) (hn : m + ps.flatten.length < n) :
    ∃ f', kstrcats n ps f = some f' := by
  induction ps generalizing f m with
  | nil => exact ⟨f, rfl⟩
  | cons p ps ih =>
    rw [List.flatten_cons, List.length_append] at hn
    have hex : ∃ q, f.mem q = 0 := ⟨m, h m le_rfl⟩
    have hle : Nat.find hex ≤ m := Nat.find_min' hex (h m le_rfl)
    have hcat : kstrcat n p f = some _ := kstrcat_eq_some.mpr
      ⟨Nat.find hex, by omega, Nat.find_spec hex, fun x hx => Nat.find_min hex hx, rfl⟩
    rw [kstrcats, hcat, Option.bind_some]
    refine ih (m := m + p.length) (fun x hx => ?_) (by omega)
    exact (put_of_ge (by omega)).trans (h x (by omega))

def Stops (mem : ℕ → UInt8) : ℕ → List (List UInt8) → Prop
  | a, [] => mem a = 0
  | a, p :: ps => mem a = 0 ∧ Stops mem (a + p.length) ps

theorem stops_congr {mem mem' : ℕ → UInt8} {a : ℕ} (h : ∀ x ≥ a, mem' x = mem x) :
    Stops mem' a ps ↔ Stops mem a ps := by
  induction ps generalizing a with
  | nil => rw [Stops, Stops, h a le_rfl]
  | cons p ps ih => rw [Stops, Stops, h a le_rfl, ih fun x hx => h x (by omega)]

theorem at_put_end {mem : ℕ → UInt8} (h : At mem 0 pre) : At (put pre.length p mem) 0 (pre ++ p) := by
  refine at_append.mpr ⟨h.congr fun x _ hx => put_of_lt (by omega), ?_⟩
  rw [Nat.zero_add]
  exact at_put _ _ _

theorem kstrcats_of_stops (hat : At f.mem 0 pre) (hpre : 0 ∉ pre) (hps : ∀ p ∈ ps, 0 ∉ p)
    (h : Stops f.mem pre.length ps) (hn : pre.length + ps.flatten.length < n) :
    ∃ f', kstrcats n ps f = some f' ∧ At f'.mem 0 (pre ++ ps.flatten ++ [0]) ∧
      ∀ i ∈ f'.writes, i ∈ f.writes ∨ i < pre.length + ps.flatten.length := by
  induction ps generalizing f pre with
  | nil =>
    refine ⟨f, rfl, ?_, fun i hi => .inl hi⟩
    rw [List.flatten_nil, List.append_nil, at_append, Nat.zero_add, at_cons]
    exact ⟨hat, h, rfl⟩
  | cons p ps ih =>
    rw [List.flatten_cons, List.length_append] at hn ⊢
    have hcat : kstrcat n p f = some _ := kstrcat_eq_some.mpr ⟨_, by omega, h.1, at_ne_zero hat hpre, rfl⟩
    have hnext : Stops (put pre.length p f.mem) (pre ++ p).length ps := by
      rw [List.length_append, stops_congr fun x hx => put_of_ge hx]
      exact h.2
    have hfree : 0 ∉ pre ++ p := by
      rw [List.mem_append, not_or]
      exact ⟨hpre, hps p List.mem_cons_self⟩
    obtain ⟨f', hrun, hat', hwrites⟩ := ih (f := ⟨put pre.length p f.mem, List.range' pre.length p.length ++ f.writes⟩)
      (at_put_end hat) hfree (fun p hp => hps p (List.mem_cons_of_mem _ hp)) hnext
      (by rw [List.length_append]; omega)
    refine ⟨f', by rw [kstrcats, hcat, Option.bind_some, hrun], ?_, fun i hi => ?_⟩
    · rwa [List.append_assoc, List.append_assoc] at hat' ⊢
    · rcases hwrites i hi with hi | hi
      · rcases List.mem_append.mp hi with hi | hi
        · rw [List.mem_range'_1] at hi
          exact .inr (by omega)
        · exact .inl hi
      · rw [List.length_append] at hi
        exact .inr (by omega)

theorem stops_of_kstrcats (hat : At f.mem 0 pre) (hpre : 0 ∉ pre) (hps : ∀ p ∈ ps, 0 ∉ p)
    (h : kstrcats n ps f = some f') (hend : f'.mem (pre.length + ps.flatten.length) = 0) : Stops f.mem pre.length ps := by
  induction ps generalizing f pre with
  | nil =>
    obtain rfl := Option.some.inj h
    exact hend
  | cons p ps ih =>
    obtain ⟨f₁, hcat, hrun⟩ := Option.bind_eq_some_iff.mp h
    obtain ⟨q, _, hzero, hfirst, rfl⟩ := kstrcat_eq_some.mp hcat
    have hps' : ∀ p ∈ ps, 0 ∉ p := fun p hp => hps p (List.mem_cons_of_mem _ hp)
    rw [List.flatten_cons, List.length_append] at hend
    -- A byte that is passed over puts all the rest of the text one place further on.
    have hq : q = pre.length := by
      rcases Nat.lt_trichotomy q pre.length with hlt | heq | hgt
      · exact absurd hzero (at_ne_zero hat hpre q hlt)
      · exact heq
      · refine absurd hend (kstrcats_extend h hps hfirst _ ?_)
        rw [List.flatten_cons, List.length_append]
        omega
    subst hq
    have hfree : 0 ∉ pre ++ p := by
      rw [List.mem_append, not_or]
      exact ⟨hpre, hps p List.mem_cons_self⟩
    have hnext := ih (f := ⟨put pre.length p f.mem, List.range' pre.length p.length ++ f.writes⟩) (at_put_end hat)
      hfree hps' hrun (by rwa [List.length_append, Nat.add_assoc])
    rw [List.length_append, stops_congr fun x hx => put_of_ge hx] at hnext
    exact ⟨hzero, hnext⟩

end Runs

theorem prefix_peek_iff {mem : ℕ → UInt8} {a m : ℕ} {l : List UInt8} (h : l.length ≤ m) :
    l <+: peek mem a m ↔ At mem a l := by
  obtain ⟨k, rfl⟩ := Nat.exists_eq_add_of_le h
  rw [peek_add]
  constructor
  · rintro ⟨r, hr⟩
    exact (List.append_inj_left hr length_peek.symm).symm
  · intro hat
    exact ⟨_, congrArg (· ++ _) hat.symm⟩

section Stale

variable {rep : ℤ → UInt8} {s : Sched} {q : Queues} {n : ℕ} {f : PsBuf} {stack : ℕ → UInt8}

theorem sysPs_header (h : Listed s q) (hn : q.all.length ≤ n) (hrun : sysPs rep n s stack = some f) :
    ∃ a, stack a = 0 ∧ (∀ x < a, stack x ≠ 0) ∧ (∀ x < a + header.length, f.mem x = put a header stack x) ∧
      List.range' a header.length ⊆ f.writes := by
  rw [sysPs_eq h hn] at hrun
  obtain ⟨f₁, hcat, hrun⟩ := Option.bind_eq_some_iff.mp hrun
  obtain ⟨a, _, hend, hfirst, rfl⟩ := kstrcat_eq_some.mp hcat
  obtain ⟨hkeep, hsub⟩ := kstrcats_keep hrun (put_ne_zero hfirst (by decide))
  exact ⟨a, hend, hfirst, hkeep, fun i hi => hsub (List.mem_append_left _ hi)⟩

theorem sysPs_total (rep : ℤ → UInt8) (stack : ℕ → UInt8) (h : Listed s q) {m : ℕ} (hstack : ∀ x ≥ m, stack x = 0) :
    ∃ enough, ∀ n ≥ enough, ∃ f, sysPs rep n s stack = some f := by
  refine ⟨q.all.length + m + (parts rep s q).flatten.length + 1, fun n hn => ?_⟩
  rw [sysPs_eq h (by omega)]
  exact kstrcats_total hstack (by omega)

def full : ℕ → UInt8 := fun x => if x < 1023 then 1 else 0

theorem not_delivers_full (h : Listed s q) : ¬ Delivers rep s q full := by
  rintro ⟨enough, henough⟩
  obtain ⟨f, hrun, hinside, _⟩ := henough (enough + q.all.length) (by omega)
  obtain ⟨a, hend, hfirst, _, hsub⟩ := sysPs_header h (by omega) hrun
  have ha : a = 1023 := by
    rcases Nat.lt_trichotomy a 1023 with hlt | heq | hgt
    · rw [full, if_pos hlt] at hend
      cases hend
    · exact heq
    · exact absurd (if_neg (lt_irrefl _)) (hfirst 1023 hgt)
  have := hinside 1024 (hsub (List.mem_range'_1.mpr (by rw [ha]; decide)))
  exact absurd this (by decide)

def dirty : ℕ → UInt8 := fun x => if x = 0 then 1 else 0

theorem not_independent (h : Listed s q) : ¬ Independent rep s := by
  intro hind
  obtain ⟨e, he⟩ := sysPs_total rep (fun _ => 0) h (m := 0) fun _ _ => rfl
  obtain ⟨e', he'⟩ := sysPs_total rep dirty h (m := 1) fun x hx => if_neg (by omega)
  obtain ⟨f, hrun⟩ := he (q.all.length + e + e') (by omega)
  obtain ⟨f', hrun'⟩ := he' (q.all.length + e + e') (by omega)
  have hsame := hind _ _ _ _ _ hrun hrun'
  obtain ⟨a, _, hfirst, hmem, _⟩ := sysPs_header h (by omega) hrun
  obtain ⟨a', hend', _, hmem', _⟩ := sysPs_header h (by omega) hrun'
  have ha : a = 0 := by
    by_contra hne
    exact hfirst 0 (by omega) rfl
  have ha' : 0 < a' := by
    apply Nat.pos_of_ne_zero
    rintro rfl
    cases hend'
  have hbyte : f.mem 0 = 80 := by
    rw [hmem 0 (by rw [ha]; decide), ha]
    rfl
  have hbyte' : f'.mem 0 = 1 := by
    rw [hmem' 0 (by omega), put_of_lt ha', dirty, if_pos rfl]
  rw [delivered, delivered, size, peek_succ f.mem, peek_succ f'.mem, hbyte, hbyte'] at hsame
  exact absurd (List.cons.inj hsame).1 (by decide)

theorem delivers_iff (h : Listed s q) (hrep : ∀ d < 10, rep (d : ℕ) = (48 + d).toUInt8)
    (hnum : ∀ t ∈ shown s q, 0 ≤ t.pid.toInt ∧ 0 ≤ (runningTime s.ms t).toInt) :
    Delivers rep s q stack ↔ (text s q).length < size ∧ Stops stack 0 (parts rep s q) := by
  have hnil : At stack 0 [] := rfl
  have htext := flatten_parts hrep hnum
  constructor
  · rintro ⟨enough, henough⟩
    obtain ⟨f, hrun, _, hprefix⟩ := henough (enough + q.all.length) (by omega)
    rw [sysPs_eq h (by omega)] at hrun
    have hlen := hprefix.length_le
    rw [List.length_append, delivered, length_peek] at hlen
    refine ⟨hlen, stops_of_kstrcats hnil List.not_mem_nil zero_notMem_parts hrun ?_⟩
    have hat := (at_append.mp ((prefix_peek_iff (by rwa [List.length_append])).mp hprefix)).2
    rw [htext, List.length_nil]
    exact (at_cons.mp hat).1
  · rintro ⟨hlen, hstops⟩
    refine ⟨q.all.length + (text s q).length + 1, fun n hn => ?_⟩
    obtain ⟨f, hrun, hat, hwrites⟩ := kstrcats_of_stops (f := ⟨stack, []⟩) (n := n) hnil List.not_mem_nil
      zero_notMem_parts hstops (by rw [htext, List.length_nil]; omega)
    rw [htext] at hat hwrites
    refine ⟨f, by rw [sysPs_eq h (by omega), hrun], fun i hi => ?_, ?_⟩
    · rcases hwrites i hi with hi | hi
      · cases hi
      · rw [List.length_nil] at hi
        omega
    · exact (prefix_peek_iff (by rwa [List.length_append])).mpr hat

/-- Whatever tasks there are, `ps_buf` is left for some contents of the stack, and what is delivered depends on them. -/
theorem sysPs_leaks (h : Listed s q) : ¬ (∀ stack, Delivers rep s q stack) ∧ ¬ Independent rep s :=
  ⟨fun hall => not_delivers_full h (hall full), not_independent h⟩

end Stale

def asciiRep (i : ℤ) : UInt8 := (48 + i.toNat).toUInt8

theorem listed_boot : Listed Sched.boot ⟨[], [], []⟩ := ⟨rfl, rfl, rfl⟩

def threeTasks : Sched :=
  let s := (Sched.createNewTask true "bin/sbush".toUTF8.toList Sched.boot).2
  let s := (Sched.createNewTask true "bin/ps".toUTF8.toList s).2
  let s := (Sched.createNewTask true "bin/ls".toUTF8.toList s).2
  { s with current := some 2, waiting := some 1, available := some 3 }

theorem sysPs_leaks_three_tasks : (shown threeTasks ⟨[3], [], [1]⟩).map Task.pid = [2, 3, 1] ∧
    ¬ (∀ stack, Delivers asciiRep threeTasks ⟨[3], [], [1]⟩ stack) ∧ ¬ Independent asciiRep threeTasks := by
  have hlisted : Listed threeTasks ⟨[3], [], [1]⟩ := ⟨⟨rfl, rfl⟩, ⟨rfl, rfl⟩, rfl⟩
  exact ⟨by decide, sysPs_leaks hlisted⟩

theorem sysPs_fails_on_stale :
    (sysPs asciiRep 2000 Sched.boot fun _ => 0).map (fun f => peek f.mem 0 4) = some [80, 73, 68, 32] ∧
      (sysPs asciiRep 2000 Sched.boot dirty).map (fun f => peek f.mem 0 4) = some [1, 80, 73, 68] ∧
      ¬ Delivers asciiRep Sched.boot ⟨[], [], []⟩ full ∧ ¬ Independent asciiRep Sched.boot := by
  refine ⟨by decide +kernel, by decide +kernel, not_delivers_full listed_boot, not_independent listed_boot⟩

end PsBuf

end Os506
