import Os506.Files.Lookup
import Os506.Memory.KernelHeap
import Os506.Memory.TaskPool
import Os506.Scheduler.Schedule

namespace Os506

open Pging Mmu Linked

namespace Phys

def byte (s : Phys) (va : BitVec 64) : Option UInt8 :=
  (walk s.mem s.cr3 va).map fun a => UInt8.ofBitVec ((s.mem (a &&& ~~~7#64) >>> (8 * (a &&& 7#64).toNat)).setWidth 8)

def readString (s : Phys) : ℕ → BitVec 64 → Option (List UInt8)
  | 0, _ => none
  | n + 1, va => (s.byte va).bind fun c => if c = 0 then some [] else (s.readString n (va + 1)).map (c :: ·)

def Reads (s : Phys) (va : BitVec 64) (str : List UInt8) : Prop := ∃ n, s.readString n va = some str

def freeFrames (s : Phys) : Set (BitVec 64) := {f | ∃ l, s.pmap.Free l ∧ ∃ k ∈ l, (s.pmap.desc k).base = f}

end Phys

/-- What the calls that take a path work on. The strings of the caller are in the memory behind the page tables, and
`cwd` is that of the current task. -/
structure Kernel where
  phys : Phys
  fs : Ustar.Fs
  files : BitVec 64 → Option FileObj
  sched : Sched
  pools : Pool.Pools TaskPool.Kind
  cwd : List UInt8

namespace Phys

variable {s : Phys} {va f : BitVec 64} {str : List UInt8} {n m : ℕ}

theorem readString_mono (h : s.readString n va = some str) (hm : n ≤ m) : s.readString m va = some str := by
  induction n generalizing m va str with
  | zero => cases h
  | succ n ih =>
    obtain ⟨m, rfl⟩ : ∃ k, m = k + 1 := ⟨m - 1, by omega⟩
    obtain ⟨c, hc, h⟩ := Option.bind_eq_some_iff.mp h
    rw [readString, hc, Option.bind_some]
    split at h
    · rw [if_pos ‹_›]
      exact h
    · obtain ⟨str', hstr, rfl⟩ := Option.map_eq_some_iff.mp h
      rw [if_neg ‹_›, ih hstr (by omega), Option.map_some]

theorem Reads.eq {str' : List UInt8} (h : s.Reads va str) (h' : s.Reads va str') : str' = str := by
  obtain ⟨m, hm⟩ := h
  obtain ⟨n, h'⟩ := h'
  have := readString_mono hm (le_max_left m n)
  rw [readString_mono h' (le_max_right m n)] at this
  exact Option.some.inj this

theorem Reads.byte (h : s.Reads va str) : s.byte va = some (str.headD 0) := by
  obtain ⟨n, hn⟩ := h
  cases n with
  | zero => cases hn
  | succ n =>
    obtain ⟨c, hc, hn⟩ := Option.bind_eq_some_iff.mp hn
    split at hn
    · obtain rfl := Option.some.inj hn
      rw [hc, ‹c = 0›]
      rfl
    · obtain ⟨str', _, rfl⟩ := Option.map_eq_some_iff.mp hn
      exact hc

theorem Reads.mapped (h : s.Reads va str) (htree : Tree s.mem s.cr3) (hp : Plain va) :
    ∃ g, table s.mem s.cr3 va 3 = some g ∧ present (s.mem (slot g (shift 3) va)) = true := by
  have hbyte := h.byte
  obtain ⟨a, ha, _⟩ := Option.map_eq_some_iff.mp hbyte
  rw [htree.walk_eq hp] at ha
  split at ha
  · obtain ⟨f, hf, _⟩ := Option.map_eq_some_iff.mp ha
    obtain ⟨g, hg⟩ := table_some hf (show 3 ≤ 4 by decide)
    rw [table_succ hg] at hf
    refine ⟨g, hg, ?_⟩
    by_contra hne
    rw [if_neg hne] at hf
    cases hf
  · cases ha

end Phys

namespace Ustar.Fs

variable {fs : Fs} {a : Archive} {path : List UInt8} {fuel : ℕ}

def opens (fs : Fs) (a : Archive) (path : List UInt8) : Option (BitVec 64) :=
  if path = [0x2F] then pointer fs.root
  else ((a.entries fs.first).find? fun y => fs.begins (path.dropWhile (· == 0x20)) y.1).map Prod.fst

def opened (fs : Fs) (path : List UInt8) : Fs := if path = [0x2F] then fs.fillRoot else fs

theorem tfsOpen_opens (h : Archive.Loaded fs.mem fs.first a) (path : List UInt8) (hf : a.members.length < fuel) :
    ∃ o, fs.tfsOpen fuel path 0 = some (o, fs.opened path) ∧ o.map FileObj.data = fs.opens a path := by
  by_cases hroot : path = [0x2F]
  · subst hroot
    obtain ⟨fuel, rfl⟩ : ∃ k, fuel = k + 1 := ⟨fuel - 1, by omega⟩
    have hopen : fs.tfsOpen (fuel + 1) [0x2F] 0 =
        (search (next fs.fillRoot.mem) (fs.fillRoot.begins [0x2F]) (fuel + 1) (pointer fs.root)).map fun hdr =>
          (hdr.bind (fs.fillRoot.openHeader true 0), fs.fillRoot) := rfl
    rw [hopen, opened, opens, if_pos rfl, if_pos rfl, pointer]
    split
    · exact ⟨none, rfl, rfl⟩
    · obtain ⟨o, ho, hdata⟩ := openHeader_data fs.fillRoot true fs.root
      refine ⟨some o, ?_, congrArg some hdata⟩
      rw [search, if_pos fs.begins_root, Option.map_some, Option.bind_some, ho]
  · rw [opened, opens, if_neg hroot, if_neg hroot, tfsOpen_path h hf.le hroot (by decide)]
    cases (a.entries fs.first).find? fun y => fs.begins (path.dropWhile (· == 0x20)) y.1 with
    | none => exact ⟨none, rfl, rfl⟩
    | some x =>
      obtain ⟨o, ho, hdata⟩ := openHeader_data fs false x.1
      exact ⟨some o, congrArg (fun o => some (o, fs)) ho, congrArg some hdata⟩

theorem tfsOpen_mono {flags : BitVec 32} {r : Option FileObj × Fs} {m : ℕ} (h : fs.tfsOpen fuel path flags = some r)
    (hm : fuel ≤ m) : fs.tfsOpen m path flags = some r := by
  rw [tfsOpen] at h ⊢
  split at h
  · rw [if_pos ‹_›, h]
  · rw [if_neg ‹_›]
    obtain ⟨hdr, hsearch, rfl⟩ := Option.map_eq_some_iff.mp h
    exact Option.map_eq_some_iff.mpr ⟨hdr, search_mono hsearch hm, rfl⟩

theorem tfsOpen_some {o : Option FileObj} {fs' : Fs} (h : Archive.Loaded fs.mem fs.first a)
    (ho : fs.tfsOpen fuel path 0 = some (o, fs')) : fs' = fs.opened path ∧ o.map FileObj.data = fs.opens a path := by
  obtain ⟨o', ho', hdata⟩ := tfsOpen_opens h path (show a.members.length < max fuel (a.members.length + 1) by omega)
  rw [tfsOpen_mono ho (le_max_left _ _), Option.some.injEq, Prod.mk.injEq] at ho'
  exact ⟨ho'.2, ho'.1 ▸ hdata⟩

theorem checkTfsDir_mono {r : ℤ} {m : ℕ} (h : fs.checkTfsDir fuel path = some r) (hm : fuel ≤ m) :
    fs.checkTfsDir m path = some r := by
  rw [checkTfsDir] at h ⊢
  split at h
  · rw [if_pos ‹_›, h]
  · rw [if_neg ‹_›]
    obtain ⟨hdr, hsearch, hr⟩ := Option.map_eq_some_iff.mp h
    exact Option.map_eq_some_iff.mpr ⟨hdr, search_mono hsearch hm, hr⟩

def Accepts (fs : Fs) (a : Archive) (path : List UInt8) : Prop :=
  path = [0x2F] ∨ ∃ x, (a.entries fs.first).find? (fun y => fs.begins path y.1) = some x ∧ x.2.isDir

theorem checkTfsDir_total (h : Archive.Loaded fs.mem fs.first a) (path : List UInt8) (hf : a.members.length ≤ fuel) :
    ∃ r, fs.checkTfsDir fuel path = some r ∧ (r < 0 ↔ ¬ fs.Accepts a path) := by
  by_cases hroot : path = [0x2F]
  · exact ⟨0, by rw [checkTfsDir, hroot]; rfl, iff_of_false (lt_irrefl 0) (not_not.mpr (.inl hroot))⟩
  · rw [checkTfsDir_eq h hf hroot]
    refine ⟨_, rfl, ?_⟩
    cases hfind : (a.entries fs.first).find? fun y => fs.begins path y.1 with
    | none => simp [Accepts, hroot, hfind]
    | some x =>
      have haccepts : fs.Accepts a path ↔ x.2.isDir := by simp [Accepts, hroot, hfind]
      dsimp only
      rw [haccepts, h.typeflag (List.mem_of_find?_eq_some hfind)]
      by_cases hdir : x.2.typeflag = Tarfs.tfsDir
      · rw [if_pos hdir]
        exact iff_of_false (lt_irrefl 0) (not_not.mpr hdir)
      · rw [if_neg hdir]
        exact iff_of_true (by decide) hdir

theorem checkTfsDir_neg_iff {r : ℤ} (h : Archive.Loaded fs.mem fs.first a) (hr : fs.checkTfsDir fuel path = some r) :
    r < 0 ↔ ¬ fs.Accepts a path := by
  obtain ⟨r', hr', hneg⟩ := checkTfsDir_total h path (le_max_right fuel a.members.length)
  rw [checkTfsDir_mono hr (le_max_left _ _)] at hr'
  rwa [Option.some.inj hr']

end Ustar.Fs

namespace Kernel

-- A kernel with few tables, on which the calls can be run.

def deskMap : PMap where
  desc i := if i = 3 then ⟨0x9000, 1, none⟩ else
    ⟨0x10000 + 4096 * BitVec.ofNat 64 i, 0, if i < 2 then some (i + 1) else none⟩
  entryCount := 4
  head := some 0

def desk (text : BitVec 64) : Phys :=
  { Phys.small with
    mem := fun a => if a = 0x4028 then 0x9003 else if a = 0x9000 then text else Phys.smallTables a
    pmap := deskMap }

section Desk

variable (text : BitVec 64) {v f : BitVec 64}

theorem desk_mem {a : BitVec 64} (h : a.toNat < 0x5000) : (desk text).mem a = (desk 0).mem a := by
  have hne : a ≠ 0x9000 := by
    rintro rfl
    exact absurd h (by decide)
  simp only [desk, if_neg hne]

theorem desk_line : Line (desk text).mem (fun d => 0x1000 + 0x1000 * BitVec.ofNat 64 d) Phys.smallPath := by
  have hmem : ∀ d < 3, ∀ n < 512, (desk 0).mem (0x1000 + 0x1000 * BitVec.ofNat 64 d + 8 * BitVec.ofNat 64 n) =
      Phys.smallTables (0x1000 + 0x1000 * BitVec.ofNat 64 d + 8 * BitVec.ofNat 64 n) := by
    decide +kernel
  have hupper : ∀ d < 3, ∀ j : BitVec 64, j.toNat < 512 →
      (desk text).mem (0x1000 + 0x1000 * BitVec.ofNat 64 d + 8 * j) =
        Phys.smallTables (0x1000 + 0x1000 * BitVec.ofNat 64 d + 8 * j) := by
    intro d hd j hj
    have := hmem d hd j.toNat hj
    rw [BitVec.ofNat_toNat, BitVec.setWidth_eq] at this
    rw [desk_mem text, this]
    rcases d with _ | _ | _ | d
    · bv_omega
    · bv_omega
    · bv_omega
    · omega
  have hline := Phys.small_line
  refine ⟨hline.physical, hline.apart, ?_, fun d hd => ?_, fun d hd j hj hself hne => ?_⟩
  · rw [hupper 0 (by decide) _ (by decide)]
    exact hline.self
  · have hpath : (Phys.smallPath d).toNat < 512 := by
      clear hmem hupper
      decide +revert
    rw [hupper d hd _ hpath]
    exact hline.link d hd
  · rw [hupper d hd j hj]
    exact hline.absent d hd j hj hself hne

theorem desk_pages (hv : Plain v) (ht : table (desk text).mem 0x1000 v 4 = some f) :
    (f = 0x4000 ∧ Same 4 v 0xFFFFFFFF80204000) ∨ f = 0x9000 ∧ Same 4 v 0xFFFFFFFF80205000 := by
  have hleaf : ∀ n < 512, present ((desk 0).mem (0x4000 + 8 * BitVec.ofNat 64 n)) = true →
      (frame ((desk 0).mem (0x4000 + 8 * BitVec.ofNat 64 n)) = 0x4000 ∧ n = 4) ∨
        frame ((desk 0).mem (0x4000 + 8 * BitVec.ofNat 64 n)) = 0x9000 ∧ n = 5 := by
    decide +kernel
  obtain ⟨t, ht'⟩ := table_some ht (show 3 ≤ 4 by decide)
  obtain ⟨rfl, hpath⟩ := (desk_line text).of_table hv le_rfl ht'
  have hcases := hleaf _ (index_lt (shift 3) v)
  rw [BitVec.ofNat_toNat, BitVec.setWidth_eq] at hcases
  have hslot : (desk text).mem (slot (0x1000 + 0x1000 * BitVec.ofNat 64 3) (shift 3) v) =
      (desk 0).mem (0x4000 + 8 * index (shift 3) v) := by
    have hlt := index_lt (shift 3) v
    exact desk_mem text (by change (0x4000 + 8 * index (shift 3) v).toNat < _; bv_omega)
  rw [table_succ ht', hslot] at ht
  split at ht
  · obtain rfl := Option.some.inj ht
    have hsame : ∀ u : BitVec 64, (∀ k < 3, Phys.smallPath k = index (shift k) u) →
        (index (shift 3) v).toNat = (index (shift 3) u).toNat → Same 4 v u := fun u hu hn =>
      same_succ.mpr ⟨fun k hk => (hpath k hk).trans (hu k hk), BitVec.eq_of_toNat_eq hn⟩
    rcases hcases ‹_› with ⟨hframe, hn⟩ | ⟨hframe, hn⟩
    · exact .inl ⟨hframe, hsame _ (by decide) (hn.trans (by decide))⟩
    · exact .inr ⟨hframe, hsame _ (by decide) (hn.trans (by decide))⟩
  · cases ht

theorem desk_ready : (desk text).Ready 0x4000 [0, 1, 2] := by
  have hdistinct : deskMap.Distinct := by
    change ∀ i < 4, ∀ j < 4, _
    decide
  have hfree : deskMap.Free [0, 1, 2] := by
    refine ⟨⟨rfl, rfl, rfl, rfl⟩, fun j => ⟨?_, fun ⟨hj, hz⟩ => ?_⟩⟩
    · exact (by decide : ∀ j ∈ [0, 1, 2], j < 4 ∧ (deskMap.desc j).mapCount = 0) j
    · exact (by decide : ∀ j < 4, (deskMap.desc j).mapCount = 0 → j ∈ [0, 1, 2]) j hj hz
  have hbase : ∀ j ∈ [0, 1, 2], PMap.Physical (deskMap.desc j).base ∧ (deskMap.desc j).base ≠ 0x9000 ∧
      ∀ d ≤ 3, (deskMap.desc j).base ≠ 0x1000 + 0x1000 * BitVec.ofNat 64 d := by decide
  have hwindow : Phys.small.Window 0x4000 := Phys.small_ready.window
  refine ⟨(desk_line text).tree, ⟨hwindow.plain, hwindow.canonical, hwindow.aligned, ?_⟩, hdistinct, hfree,
    fun j hj => (hbase j hj).1, fun j hj w d hd hw ht => ?_⟩
  · exact (desk_line text).table_eq le_rfl (by decide : ∀ k < 3, index (shift k) Phys.small.temp = Phys.smallPath k)
  · rcases Nat.lt_or_eq_of_le hd with hlt | rfl
    · exact (hbase j hj).2.2 d (by omega) ((desk_line text).of_table hw (by omega) ht).1
    · rcases desk_pages text hw ht with ⟨he, _⟩ | ⟨he, _⟩
      · exact (hbase j hj).2.2 3 le_rfl he
      · exact (hbase j hj).2.1 he

theorem desk_sound : Heap.Sound 0xFFFFFFFF80221000 0x4000 ⟨desk text, [], []⟩ := by
  have hfree : ∀ w, Plain w → ¬ Same 4 w 0xFFFFFFFF80204000 → ¬ Same 4 w 0xFFFFFFFF80205000 →
      table (desk text).mem 0x1000 w 4 = none := by
    intro w hw h4 h5
    cases ht : table (desk text).mem 0x1000 w 4 with
    | none => rfl
    | some f =>
      rcases desk_pages text hw ht with ⟨_, h⟩ | ⟨_, h⟩
      · exact absurd h h4
      · exact absurd h h5
  have htemp : table (desk text).mem 0x1000 0xFFFFFFFF80220000 4 = none := hfree _ (by decide) (by decide) (by decide)
  refine ⟨⟨_, desk_ready text⟩, rfl, htemp, .inl rfl, fun i v _ hv => ?_, nofun, nofun, List.nodup_nil⟩
  have hhigh : Heap.High 0xFFFFFFFF80221000 := ⟨by decide, by decide⟩
  have hpage : ∀ w : BitVec 64, 0xFFFFFFFF80204000 ≤ w.toNat → w.toNat < 0xFFFFFFFF80221000 → ¬ Same 4 v w := by
    intro w hlow hlt hsame
    have := Heap.same_page hsame
    rcases hv with hv | ⟨hv, hle⟩
    · omega
    · omega
  exact hfree v (hv.plain hhigh) (hpage _ (by decide) (by decide)) (hpage _ (by decide) (by decide))

theorem desk_supplied : (desk text).Supplied := by
  refine ⟨(by decide : 1 ≤ deskMap.avail), fun k hk hnone => ?_⟩
  have hpath : ∀ d < 3, index (shift d) Phys.small.free = Phys.smallPath d := by decide
  have htable := (desk_line text).table_eq (d := k + 1) hk fun d hd => hpath d (by omega)
  exact absurd (htable.symm.trans hnone) (by simp)

def bench (text : BitVec 64) : Kernel where
  phys := desk text
  fs := ⟨Archive.small.image 0xFFFFFFFF80300000, 0xFFFFFFFF80300000, 0xFFFFFFFF80250000, Ustar.Fs.inKernel⟩
  files := fun _ => none
  sched := .boot
  pools := ⟨fun _ => 0, fun _ => 0, [], []⟩
  cwd := []

theorem bench_loaded : Archive.Loaded (bench text).fs.mem (bench text).fs.first Archive.small :=
  Archive.image_loaded (by decide) (by decide +kernel)

end Desk

end Kernel

end Os506
