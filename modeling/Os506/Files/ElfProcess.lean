import Os506.Files.Paths
import Os506.Memory.Elf

namespace Os506

open Pging Mmu Linked

namespace Kernel

def getEhdr (filep : FileObj) : BitVec 64 := filep.data + 512

def validateEhdr (fs : Ustar.Fs) (ehdr : BitVec 64) : Bool := ehdr ≠ 0 && Elf.validateEhdr fs.mem ehdr

/-- `create_elf_process` up to the loader, which gets the address of the header. -/
def createElfProcess (n : ℕ) (fname : BitVec 64) (x : Kernel) : Option (Option (BitVec 64) × Kernel) :=
  if fname = 0 then some (none, x)
  else (x.phys.readString n fname).bind fun name => (x.fs.tfsOpen n name 0).bind fun
    | (none, fs) => some (none, { x with fs := fs })
    | (some o, fs) =>
      match Phys.kmalloc x.phys with
      | .ok filep s =>
        some (if validateEhdr fs (getEhdr o) then some (getEhdr o) else none,
          { x with fs := fs, phys := s, files := Function.update x.files filep (some o) })
      | .error _ _ => none

/-- `sys_execve` on the strings behind the first one. Each is read to its end, and nothing is appended to it. Once the
loader is called there is no return to the caller. -/
def sysExecve (n : ℕ) (file : BitVec 64) (argv : List (BitVec 64)) (x : Kernel) : Option (Option ℤ × Kernel) :=
  (argv.mapM (x.phys.readString n)).bind fun _ => (createElfProcess n file x).map fun (task, y) =>
    (if task.isNone then some (-1) else none, y)

structure Unchanged (file : BitVec 64) (argv : List (BitVec 64)) (x y : Kernel) : Prop where
  frames : y.phys.freeFrames = x.phys.freeFrames
  mappings : ∀ va, walk y.phys.mem y.phys.cr3 va = walk x.phys.mem x.phys.cr3 va
  tasks : y.sched = x.sched
  pools : y.pools = x.pools
  strings : ∀ p ∈ file :: argv, ∀ n, y.phys.readString n p = x.phys.readString n p

def FailsCleanly (file : BitVec 64) (argv : List (BitVec 64)) (x : Kernel) : Prop :=
  ∀ n y, sysExecve n file argv x = some (some (-1), y) → Unchanged file argv x y

variable {x y : Kernel} {a : Archive} {file : BitVec 64} {argv : List (BitVec 64)} {name : List UInt8} {n : ℕ}

theorem createElfProcess_fails (h : Archive.Loaded x.fs.mem x.fs.first a) (hz : file ≠ 0) (hr : x.phys.Reads file name)
    (hrun : createElfProcess n file x = some (none, y)) :
    (x.fs.opens a name = none ∧ y = { x with fs := x.fs.opened name }) ∨
      ∃ hdr, x.fs.opens a name = some hdr ∧ validateEhdr (x.fs.opened name) (hdr + 512) = false := by
  rw [createElfProcess, if_neg hz] at hrun
  obtain ⟨name', hread, hrun⟩ := Option.bind_eq_some_iff.mp hrun
  obtain rfl := hr.eq ⟨n, hread⟩
  obtain ⟨⟨o, fs'⟩, hopen, hrun⟩ := Option.bind_eq_some_iff.mp hrun
  obtain ⟨rfl, hdata⟩ := Ustar.Fs.tfsOpen_some h hopen
  rw [← hdata]
  cases o with
  | none =>
    cases hrun
    exact .inl ⟨rfl, rfl⟩
  | some o =>
    dsimp only at hrun
    split at hrun
    · rw [Option.some.injEq, Prod.mk.injEq, ite_eq_right_iff] at hrun
      exact .inr ⟨o.data, rfl, Bool.eq_false_iff.mpr fun hvalid => nomatch hrun.1 hvalid⟩
    · cases hrun

theorem createElfProcess_leaks (h : Archive.Loaded x.fs.mem x.fs.first a) (hz : file ≠ 0) (hr : x.phys.Reads file name)
    {hdr p : BitVec 64} {s : Phys} (hopens : x.fs.opens a name = some hdr)
    (hvalid : validateEhdr (x.fs.opened name) (hdr + 512) = false) (hmalloc : Phys.kmalloc x.phys = .ok p s) :
    ∃ enough, ∀ n ≥ enough, ∃ y, createElfProcess n file x = some (none, y) ∧ y.phys = s := by
  obtain ⟨m, hm⟩ := hr
  refine ⟨m + a.members.length + 1, fun n hn => ?_⟩
  obtain ⟨o, hopen, hdata⟩ := Ustar.Fs.tfsOpen_opens h name (show a.members.length < n by omega)
  rw [hopens] at hdata
  obtain ⟨o, rfl, rfl⟩ := Option.map_eq_some_iff.mp hdata
  refine ⟨{ x with fs := x.fs.opened name, phys := s, files := Function.update x.files p (some o) }, ?_, rfl⟩
  rw [createElfProcess, if_neg hz, Phys.readString_mono hm (by omega), Option.bind_some, hopen, Option.bind_some]
  dsimp only
  rw [hmalloc]
  dsimp only
  rw [getEhdr, hvalid]
  rfl

theorem readStrings (h : ∀ p ∈ argv, ∃ str, x.phys.Reads p str) :
    ∃ enough, ∀ n ≥ enough, ∃ l, argv.mapM (x.phys.readString n) = some l := by
  induction argv with
  | nil => exact ⟨0, fun n _ => ⟨[], rfl⟩⟩
  | cons p argv ih =>
    obtain ⟨str, m, hm⟩ := h p List.mem_cons_self
    obtain ⟨e, he⟩ := ih fun q hq => h q (List.mem_cons_of_mem _ hq)
    refine ⟨m + e, fun n hn => ?_⟩
    obtain ⟨l, hl⟩ := he n (by omega)
    refine ⟨str :: l, ?_⟩
    rw [List.mapM_cons, Phys.readString_mono hm (by omega), hl]
    rfl

section Leak

variable {first : ℕ} {t hdr : BitVec 64} {returned live : List (BitVec 64)}
  (hs : Heap.Sound first t ⟨x.phys, returned, live⟩) (hf : Heap.High first) (hsupply : x.phys.Supplied)
  (hc : canonical x.phys.free = true) (h : Archive.Loaded x.fs.mem x.fs.first a)
  (hr : file ≠ 0 → x.phys.Reads file name) (hargv : ∀ p ∈ argv, ∃ str, x.phys.Reads p str)
include hs hf hsupply hc h hr hargv

theorem sysExecve_leaks (hz : file ≠ 0) (hopens : x.fs.opens a name = some hdr)
    (hvalid : validateEhdr (x.fs.opened name) (hdr + 512) = false) :
    ∃ n y f, sysExecve n file argv x = some (some (-1), y) ∧ walk x.phys.mem x.phys.cr3 x.phys.free = none ∧
      walk y.phys.mem y.phys.cr3 x.phys.free = some f ∧ f ∈ x.phys.freeFrames ∧ f ∉ y.phys.freeFrames := by
  obtain ⟨s, j, l, l', hmalloc, hready, hallocates, _⟩ := hs.kmalloc hf hsupply hc
  obtain ⟨e, he⟩ := createElfProcess_leaks h hz (hr hz) hopens hvalid hmalloc
  obtain ⟨e', he'⟩ := readStrings hargv
  obtain ⟨y, hrun, rfl⟩ := he (e + e') (by omega)
  obtain ⟨strs, hstrs⟩ := he' (e + e') (by omega)
  have hplain := hs.next.plain hf
  have haligned : x.phys.free &&& 0xFFF = 0 := hs.next.aligned hf
  have hpage := hallocates.backed.page
  refine ⟨e + e', y, (x.phys.pmap.desc j).base, ?_, ?_, ?_, ⟨_, hready.freelist, j, List.mem_cons_self, rfl⟩, ?_⟩
  · rw [sysExecve, hstrs, Option.bind_some, hrun]
    rfl
  · rw [hready.tree.walk_eq hplain, if_pos hc, hs.ahead _ _ le_rfl hs.next]
    rfl
  · rw [hallocates.ready.tree.walk_eq hplain, if_pos hc, hpage, Option.map_some, haligned]
    exact congrArg some (BitVec.add_zero _)
  · rintro ⟨l'', hfree, k, hk, hbase⟩
    obtain rfl := chain_unique hfree.chain hallocates.ready.freelist.chain
    exact hallocates.ready.unused k hk _ 4 le_rfl hplain (hbase ▸ hpage)

end Leak

end Kernel

end Os506
