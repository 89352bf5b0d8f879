import Os506.Files.Descriptors

namespace Os506

open Tarfs

abbrev Objs := ℕ → Option FileObj

/-- What the pointers of `filep->fop` do: they work on file objects and leave the tables of the tasks alone. The
arguments are the file, whether the buffer is there, and the count; `none` when the call does not return. -/
structure FileOps where
  read : FileRef → Bool → BitVec 64 → Objs → Option (ℤ × Objs)
  write : FileRef → Bool → BitVec 64 → Objs → Option (ℤ × Objs)
  readdir : FileRef → BitVec 32 → Objs → Option (ℤ × Objs)
  close : FileRef → Objs → Option (ℤ × Objs)

/-- The indices at which a call uses `fdarr`, and what it returns with the state that it leaves: `none` when it does
not return, or when it goes on with what stands outside of `fdarr`. -/
structure Reply where
  indices : List ℤ
  result : Option (ℤ × Files)

namespace Fd

variable (ops : FileOps) (c : ℕ) (x : Files)

def withFile (fd : ℤ) (go : Fin 50 → FileRef → Option (ℤ × Files)) : Reply where
  indices := [fd]
  result :=
    if h : 0 ≤ fd ∧ fd < 50 then
      match x.slot c ⟨fd.toNat, by omega⟩ with
      | none => some (-1, x)
      | some filep => go ⟨fd.toNat, by omega⟩ filep
    else none

def refuse (ret : ℤ) : Reply := ⟨[], some (ret, x)⟩

/-- A negative answer is asked for again, after the next interrupt. -/
def readLoop (read : Objs → Option (ℤ × Objs)) : ℕ → Objs → Option (ℤ × Objs)
  | 0, _ => none
  | n + 1, obj => (read obj).bind fun (nread, obj) => if nread < 0 then readLoop read n obj else some (nread, obj)

def onObjs (r : Option (ℤ × Objs)) : Option (ℤ × Files) := r.map fun (ret, obj) => (ret, { x with obj := obj })

def sysRead (fuel : ℕ) (fd : BitVec 32) (buf : Bool) (count : BitVec 64) : Reply :=
  if 50 ≤ fd.toNat then refuse x (-1)
  else if count = 0 then refuse x 0
  else withFile c x fd.toNat fun _ filep =>
    if !buf then some (-1, x) else onObjs x (readLoop (ops.read filep buf count) fuel x.obj)

def sysWrite (fd : BitVec 32) (buf : Bool) (count : BitVec 64) : Reply :=
  if 50 ≤ fd.toNat then refuse x (-1)
  else if count = 0 then refuse x 0
  else withFile c x fd.toNat fun _ filep => onObjs x (ops.write filep buf count x.obj)

def sysGetdents (fd : BitVec 32) (dirp : Bool) (count : BitVec 32) : Reply :=
  if !dirp ∨ count = 0 then refuse x (-1)
  else if 50 ≤ fd.toNat then refuse x (-1)
  else withFile c x fd.toNat fun _ filep => onObjs x (ops.readdir filep count x.obj)

def sysClose (fd : BitVec 32) : Reply :=
  withFile c x fd.toInt fun n filep =>
    (ops.close filep x.obj).map fun (ret, obj) => (ret, { x with obj := obj }.setSlot c n none)

def sysOpen (fs : Tarfs) (name : Option (List UInt8)) (flags : BitVec 32) : Reply :=
  match name with
  | none => refuse x (-1)
  | some name => match x.getFreeFd c with
    | none => ⟨(List.range 50).map Int.ofNat, some (-1, x)⟩
    | some fd => ⟨(List.range (fd + 1)).map Int.ofNat,
      match fs.tfsOpen name.dropLast flags with
      | none => some (-1, x)
      | some filep => some (fd, { x.setSlot c fd (some (.object x.fresh)) with
          obj := Function.update x.obj x.fresh (some filep), fresh := x.fresh + 1 })⟩

def kernelOps (term : ℤ) (next : FileObj → ℤ × BitVec 64) : FileOps where
  read
    | .term, _, _, obj => some (term, obj)
    | .object a, _, count, obj => (obj a).map fun filep =>
      let filep' := tfsRead count filep
      ((filep'.offset - filep.offset).toInt, Function.update obj a (some filep'))
  write
    | .term, _, _, obj => some (term, obj)
    | .object a, _, _, obj => (obj a).map fun _ => (-1, obj)
  readdir
    | .term, _, obj => some (-1, obj)
    | .object a, _, obj => (obj a).map fun filep =>
      ((next filep).1, Function.update obj a (some { filep with offset := (next filep).2 }))
  close
    | .term, obj => some (0, obj)
    | .object a, obj => (obj a).map fun filep => (0, Function.update obj a (tfsClose filep))

end Fd

inductive FdCall
  | read (fuel : ℕ) (fd : BitVec 32) (buf : Bool) (count : BitVec 64)
  | write (fd : BitVec 32) (buf : Bool) (count : BitVec 64)
  | getdents (fd : BitVec 32) (dirp : Bool) (count : BitVec 32)
  | close (fd : BitVec 32)
  | openFile (name : Option (List UInt8)) (flags : BitVec 32)

namespace FdCall

def run (fs : Tarfs) (ops : FileOps) (c : ℕ) (x : Files) : FdCall → Reply
  | read fuel fd buf count => Fd.sysRead ops c x fuel fd buf count
  | write fd buf count => Fd.sysWrite ops c x fd buf count
  | getdents fd dirp count => Fd.sysGetdents ops c x fd dirp count
  | close fd => Fd.sysClose ops c x fd
  | openFile name flags => Fd.sysOpen c x fs name flags

/-- The descriptor of a call, by the type of the parameter: only `sys_close` takes a signed one. -/
def fd : FdCall → Option ℤ
  | read _ fd _ _ | write fd _ _ | getdents fd _ _ => some fd.toNat
  | close fd => some fd.toInt
  | openFile .. => none

end FdCall

namespace Files

def IsOpen (x : Files) (c : ℕ) (fd : ℤ) : Prop := ∃ n : Fin 50, (n : ℤ) = fd ∧ (x.slot c n).isSome = true

def IsLowest (x : Files) (c : ℕ) (fd : ℤ) : Prop :=
  ∃ n : Fin 50, (n : ℤ) = fd ∧ x.slot c n = none ∧ ∀ m < n, (x.slot c m).isSome = true

end Files

/-- The call uses `fdarr` inside of its bounds, refuses a descriptor that is not open without a trace, closes that slot
alone and opens the lowest one. -/
structure Validated (fs : Tarfs) (ops : FileOps) (c : ℕ) (x : Files) (call : FdCall) : Prop where
  inside : ∀ i ∈ (call.run fs ops c x).indices, 0 ≤ i ∧ i < 50
  refused : ∀ fd, call.fd = some fd → ¬ x.IsOpen c fd → (call.run fs ops c x).result = some (-1, x)
  closed : ∀ fd ret y, call = .close fd → x.IsOpen c fd.toInt → (call.run fs ops c x).result = some (ret, y) →
    ∀ t n, y.slot t n = if t = c ∧ (n : ℤ) = fd.toInt then none else x.slot t n
  opened : ∀ name flags ret y, call = .openFile name flags → (call.run fs ops c x).result = some (ret, y) →
    x.IsLowest c ret ∨ ret = -1 ∧ y = x

/-- What the handlers leave out: `sys_close` tests nothing, and a count of zero is answered before the slot is. -/
def FdCall.Covered (c : ℕ) (x : Files) : FdCall → Prop
  | read _ fd _ count | write fd _ count => count = 0 → 50 ≤ fd.toNat ∨ x.IsOpen c fd.toNat
  | close fd => 0 ≤ fd.toInt ∧ fd.toInt < 50
  | getdents .. | openFile .. => True

namespace Fd

variable {fs : Tarfs} {ops : FileOps} {c : ℕ} {x : Files} {fd : ℤ} {go : Fin 50 → FileRef → Option (ℤ × Files)}

theorem withFile_empty (h : 0 ≤ fd ∧ fd < 50) (hopen : ¬ x.IsOpen c fd) :
    (withFile c x fd go).result = some (-1, x) := by
  have hslot : x.slot c ⟨fd.toNat, by omega⟩ = none := by
    apply Option.not_isSome_iff_eq_none.mp
    intro hsome
    exact hopen ⟨_, Int.toNat_of_nonneg h.1, hsome⟩
  rw [withFile]
  simp only [dif_pos h, hslot]

theorem withFile_open {r : ℤ × Files} (hopen : x.IsOpen c fd) (h : (withFile c x fd go).result = some r) :
    ∃ (n : Fin 50) (filep : FileRef), (n : ℤ) = fd ∧ x.slot c n = some filep ∧ go n filep = some r := by
  obtain ⟨n, rfl, hsome⟩ := hopen
  obtain ⟨filep, hfilep⟩ := Option.isSome_iff_exists.mp hsome
  refine ⟨n, filep, rfl, hfilep, ?_⟩
  have hn : 0 ≤ (n : ℤ) ∧ (n : ℤ) < 50 := by omega
  simp only [withFile, dif_pos hn, Int.toNat_natCast, Fin.eta, hfilep] at h
  exact h

theorem indices_guarded {p q : Prop} [Decidable p] [Decidable q] {ret ret' i : ℤ} (h : ¬ p → ¬ q → 0 ≤ fd ∧ fd < 50)
    (hi : i ∈ (if p then refuse x ret else if q then refuse x ret' else withFile c x fd go).indices) :
    0 ≤ i ∧ i < 50 := by
  split at hi
  · cases hi
  · split at hi
    · cases hi
    · obtain rfl := List.mem_singleton.mp hi
      exact h ‹_› ‹_›

theorem lowest_of_getFreeFd {n : Fin 50} (h : x.getFreeFd c = some n) : x.IsLowest c n := by
  obtain ⟨hnone, l₁, l₂, hlist, hbefore⟩ := List.find?_eq_some_iff_append.mp h
  refine ⟨n, rfl, Option.isNone_iff_eq_none.mp hnone, fun m hm => ?_⟩
  have hmem : m ∈ l₁ ++ n :: l₂ := hlist ▸ List.mem_finRange m
  have hsorted : (l₁ ++ n :: l₂).Pairwise (· < ·) := hlist ▸ List.pairwise_lt_finRange 50
  rcases List.mem_append.mp hmem with hm₁ | hm₂
  · simpa using hbefore m hm₁
  · have hle : n ≤ m := by
      rcases List.mem_cons.mp hm₂ with rfl | hm₂
      · exact le_rfl
      · exact (List.rel_of_pairwise_cons (List.pairwise_append.mp hsorted).2.1 hm₂).le
    exact absurd hm (not_lt.mpr hle)

theorem sysClose_files {term : ℤ} {next : FileObj → ℤ × BitVec 64} {d : BitVec 32} {n : Fin 50} (h : d.toInt = n) :
    (sysClose (kernelOps term next) c x d).result.map Prod.snd = x.sysClose c n := by
  have hn : 0 ≤ (n : ℤ) ∧ (n : ℤ) < 50 := by omega
  simp only [sysClose, withFile, h, dif_pos hn, Int.toNat_natCast, Fin.eta]
  rw [Files.sysClose.eq_def]
  cases x.slot c n with
  | none => rfl
  | some filep =>
    cases filep with
    | term => rfl
    | object a =>
      simp only [kernelOps, Option.map_map]
      rfl

theorem sysOpen_files (fs : Tarfs) (name : Option (List UInt8)) (flags : BitVec 32) :
    (sysOpen c x fs name flags).result.map Prod.snd = some (x.sysOpen fs c name flags) := by
  rw [sysOpen.eq_def, Files.sysOpen.eq_def]
  cases name with
  | none => rfl
  | some name =>
    cases x.getFreeFd c with
    | none => rfl
    | some fd =>
      dsimp only
      cases fs.tfsOpen name.dropLast flags <;> rfl

theorem sysOpen_cases (fs : Tarfs) (c : ℕ) (x : Files) (name : Option (List UInt8)) (flags : BitVec 32) :
    (∀ i ∈ (sysOpen c x fs name flags).indices, 0 ≤ i ∧ i < 50) ∧
      ((sysOpen c x fs name flags).result = some (-1, x) ∨
        ∃ (n : Fin 50) (y : Files), x.getFreeFd c = some n ∧ (sysOpen c x fs name flags).result = some ((n : ℤ), y)) := by
  have hrange : ∀ k ≤ 50, ∀ i ∈ (List.range k).map Int.ofNat, 0 ≤ i ∧ i < 50 := by
    intro k hk i hi
    obtain ⟨j, hj, rfl⟩ := List.mem_map.mp hi
    have := List.mem_range.mp hj
    rw [Int.ofNat_eq_natCast]
    omega
  cases name with
  | none => exact ⟨fun i hi => absurd hi List.not_mem_nil, .inl rfl⟩
  | some name =>
    rw [sysOpen.eq_def]
    cases hfd : x.getFreeFd c with
    | none => exact ⟨hrange 50 le_rfl, .inl rfl⟩
    | some fd =>
      refine ⟨hrange _ (by omega), ?_⟩
      dsimp only
      cases fs.tfsOpen name.dropLast flags with
      | none => exact .inl rfl
      | some filep => exact .inr ⟨fd, _, rfl, rfl⟩

end Fd

namespace Validated

variable {fs : Tarfs} {ops : FileOps} {c : ℕ} {x : Files}

theorem transfer_iff {call : FdCall} {fd : BitVec 32} {count : BitVec 64} {go : Fin 50 → FileRef → Option (ℤ × Files)}
    (hfd : call.fd = some (fd.toNat : ℤ)) (hclose : ∀ fd, call ≠ .close fd)
    (hopen : ∀ name flags, call ≠ .openFile name flags)
    (hrun : call.run fs ops c x = if 50 ≤ fd.toNat then Fd.refuse x (-1) else if count = 0 then Fd.refuse x 0
      else Fd.withFile c x fd.toNat go) :
    Validated fs ops c x call ↔ (count = 0 → 50 ≤ fd.toNat ∨ x.IsOpen c fd.toNat) := by
  constructor
  · intro h hcount
    by_contra hno
    rw [not_or] at hno
    have hret := h.refused _ hfd hno.2
    rw [hrun, if_neg hno.1, if_pos hcount, Fd.refuse] at hret
    simp at hret
  · intro h
    refine ⟨fun i hi => ?_, fun d hd hno => ?_, fun d _ _ he => absurd he (hclose d),
      fun name flags _ _ he => absurd he (hopen name flags)⟩
    · rw [hrun] at hi
      exact Fd.indices_guarded (fun _ _ => by omega) hi
    · obtain rfl := Option.some.inj (hd.symm.trans hfd)
      rw [hrun]
      split
      · rfl
      · rename_i hlt
        rw [if_neg fun hcount => (h hcount).elim hlt hno]
        exact Fd.withFile_empty (by omega) hno

theorem getdents (fd : BitVec 32) (dirp : Bool) (count : BitVec 32) :
    Validated fs ops c x (.getdents fd dirp count) := by
  refine ⟨fun i hi => ?_, fun d hd hno => ?_, nofun, nofun⟩
  · rw [FdCall.run, Fd.sysGetdents] at hi
    exact Fd.indices_guarded (fun _ _ => by omega) hi
  · obtain rfl := Option.some.inj hd
    rw [FdCall.run, Fd.sysGetdents]
    split
    · rfl
    · split
      · rfl
      · exact Fd.withFile_empty (by omega) hno

theorem close_iff (fd : BitVec 32) : Validated fs ops c x (.close fd) ↔ 0 ≤ fd.toInt ∧ fd.toInt < 50 := by
  constructor
  · intro h
    exact h.inside _ List.mem_cons_self
  · intro h
    refine ⟨fun i hi => ?_, fun d hd hno => ?_, fun d ret y hd hopen hret t n => ?_, nofun⟩
    · obtain rfl := List.mem_singleton.mp hi
      exact h
    · obtain rfl := Option.some.inj hd
      exact Fd.withFile_empty h hno
    · obtain rfl := FdCall.close.inj hd
      obtain ⟨m, filep, hm, _, hgo⟩ := Fd.withFile_open hopen hret
      obtain ⟨⟨ret', obj⟩, _, hy⟩ := Option.map_eq_some_iff.mp hgo
      obtain ⟨_, rfl⟩ := Prod.mk.inj hy
      have heq : (n : ℤ) = fd.toInt ↔ n = m := by
        rw [← hm, Int.natCast_inj, Fin.ext_iff]
      rw [Files.setSlot_slot]
      simp only [heq]
      rfl

theorem openFile (name : Option (List UInt8)) (flags : BitVec 32) : Validated fs ops c x (.openFile name flags) := by
  obtain ⟨hin, hres⟩ := Fd.sysOpen_cases fs c x name flags
  refine ⟨hin, nofun, nofun, fun name' flags' ret y _ hret => ?_⟩
  rcases hres with hres | ⟨n, y', hn, hres⟩
  · obtain ⟨rfl, rfl⟩ := Prod.mk.inj (Option.some.inj (hres.symm.trans hret))
    exact .inr ⟨rfl, rfl⟩
  · obtain ⟨rfl, _⟩ := Prod.mk.inj (Option.some.inj (hres.symm.trans hret))
    exact .inl (Fd.lowest_of_getFreeFd hn)

end Validated

theorem validated_iff (fs : Tarfs) (ops : FileOps) (c : ℕ) (x : Files) (call : FdCall) :
    Validated fs ops c x call ↔ call.Covered c x := by
  cases call with
  | read fuel fd buf count => exact Validated.transfer_iff rfl nofun nofun rfl
  | write fd buf count => exact Validated.transfer_iff rfl nofun nofun rfl
  | getdents fd dirp count => exact iff_of_true (.getdents fd dirp count) trivial
  | close fd => exact Validated.close_iff fd
  | openFile name flags => exact iff_of_true (.openFile name flags) trivial

theorem validated_fails_on_close_and_empty_read :
    ¬ Validated ⟨[], 0⟩ (Fd.kernelOps 0 fun _ => (0, 0)) 0 Files.boot (.close 50) ∧
      ¬ Validated ⟨[], 0⟩ (Fd.kernelOps 0 fun _ => (0, 0)) 0 Files.boot (.read 1 7 true 0) ∧
      (Fd.sysRead (Fd.kernelOps 0 fun _ => (0, 0)) 0 Files.boot 1 7 true 0).result = some (0, Files.boot) := by
  refine ⟨fun h => ?_, fun h => ?_, rfl⟩
  · exact absurd (h.inside 50 List.mem_cons_self) (by decide)
  · have hempty : ¬ Files.boot.IsOpen 0 7 := by
      rintro ⟨n, hn, hsome⟩
      obtain rfl : n = 7 := by omega
      exact absurd hsome (by decide)
    have hret := congrArg (Option.map Prod.fst) (h.refused 7 rfl hempty)
    exact absurd hret (by decide)

end Os506
