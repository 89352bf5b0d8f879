import Os506.Files.Paths

namespace Os506

open Pging Mmu

namespace Kernel

def maxPathLen : ℤ := 49

def kstrlen (str : List UInt8) : ℤ := (BitVec.ofNat 32 str.length).toInt

/-- `sys_chdir`. Only the first byte is compared with that of `"."`, and `kfree` gets the pointer of the caller. -/
def sysChdir (n : ℕ) (path : BitVec 64) (x : Kernel) : Option (ℤ × Kernel) :=
  if path = 0 then some (-1, x)
  else (x.phys.byte path).bind fun c =>
    if c = 0x2E then some (0, x)
    else (x.phys.readString n path).bind fun absPath =>
      if maxPathLen < kstrlen absPath then some (-1, x)
      else (x.fs.checkTfsDir n absPath).bind fun isdir =>
        if isdir < 0 then some (-1, x)
        else match Phys.kfree path x.phys with
          | .ok _ s => some (0, { x with cwd := absPath, phys := s })
          | .error _ _ => none

def Follows (a : Archive) (path : BitVec 64) (x : Kernel) : Prop :=
  (∃ enough, ∀ n ≥ enough, (sysChdir n path x).isSome = true) ∧
    ∀ n r y, sysChdir n path x = some (r, y) → (r = -1 ∧ y = x) ∨ r = 0 ∧ ∃ str, x.phys.Reads path str ∧
      ((y = { x with cwd := str } ∧ ∃ m ∈ a.members, m.name = str ∧ m.isDir) ∨ (str = [0x2E] ∧ y = x))

variable {x y : Kernel} {a : Archive} {path : BitVec 64} {str : List UInt8} {n : ℕ} {r : ℤ}

theorem sysChdir_null (n : ℕ) (x : Kernel) : sysChdir n 0 x = some (-1, x) := if_pos rfl

theorem sysChdir_dot (hp : path ≠ 0) (hr : x.phys.Reads path str) (hdot : str.head? = some 0x2E) :
    sysChdir n path x = some (0, x) := by
  have hhead : str.headD 0 = 0x2E := by rw [List.headD_eq_head?_getD, hdot, Option.getD_some]
  rw [sysChdir, if_neg hp, hr.byte, Option.bind_some, if_pos hhead]

theorem sysChdir_path (hp : path ≠ 0) (hr : x.phys.Reads path str) (hdot : str.head? ≠ some 0x2E) :
    sysChdir n path x = (x.phys.readString n path).bind fun absPath =>
      if maxPathLen < kstrlen absPath then some (-1, x)
      else (x.fs.checkTfsDir n absPath).bind fun isdir =>
        if isdir < 0 then some (-1, x)
        else match Phys.kfree path x.phys with
          | .ok _ s => some (0, { x with cwd := absPath, phys := s })
          | .error _ _ => none := by
  have hhead : str.headD 0 ≠ 0x2E := by
    cases str with
    | nil => decide
    | cons c l => simpa using hdot
  rw [sysChdir, if_neg hp, hr.byte, Option.bind_some, if_neg hhead]

variable (a) in
def Refused (x : Kernel) (str : List UInt8) : Prop := maxPathLen < kstrlen str ∨ ¬ x.fs.Accepts a str

theorem sysChdir_refused (h : Archive.Loaded x.fs.mem x.fs.first a) (hp : path ≠ 0) (hr : x.phys.Reads path str)
    (hdot : str.head? ≠ some 0x2E) (href : x.Refused a str) (hrun : sysChdir n path x = some (r, y)) :
    r = -1 ∧ y = x := by
  rw [sysChdir_path hp hr hdot] at hrun
  obtain ⟨absPath, hread, hrun⟩ := Option.bind_eq_some_iff.mp hrun
  obtain rfl := hr.eq ⟨n, hread⟩
  split at hrun
  · cases hrun
    exact ⟨rfl, rfl⟩
  · obtain ⟨isdir, hcheck, hrun⟩ := Option.bind_eq_some_iff.mp hrun
    have hneg := (Ustar.Fs.checkTfsDir_neg_iff h hcheck).mpr (href.resolve_left ‹_›)
    rw [if_pos hneg] at hrun
    cases hrun
    exact ⟨rfl, rfl⟩

theorem sysChdir_answers (h : Archive.Loaded x.fs.mem x.fs.first a) (hp : path ≠ 0) (hr : x.phys.Reads path str)
    (hdot : str.head? ≠ some 0x2E) (href : x.Refused a str) :
    ∃ enough, ∀ n ≥ enough, (sysChdir n path x).isSome = true := by
  obtain ⟨k, hk⟩ := id hr
  refine ⟨max k a.members.length, fun n hn => ?_⟩
  rw [sysChdir_path hp hr hdot, Phys.readString_mono hk (by omega), Option.bind_some]
  split
  · rfl
  · obtain ⟨isdir, hcheck, hneg⟩ := Ustar.Fs.checkTfsDir_total h str (show a.members.length ≤ n by omega)
    rw [hcheck, Option.bind_some, if_pos (hneg.mpr (href.resolve_left ‹_›))]
    rfl

theorem sysChdir_unmaps (h : Archive.Loaded x.fs.mem x.fs.first a) (htree : Tree x.phys.mem x.phys.cr3)
    (hplain : Plain path) (hp : path ≠ 0) (hr : x.phys.Reads path str) (hdot : str.head? ≠ some 0x2E)
    (href : ¬ x.Refused a str) :
    ∃ n y e, sysChdir n path x = some (0, y) ∧ x.phys.mem e ≠ 0 ∧ y.phys.mem e = 0 := by
  obtain ⟨g, hg, hpresent⟩ := hr.mapped htree hplain
  obtain ⟨n, hn⟩ := hr
  rw [Refused, not_or, not_not] at href
  obtain ⟨isdir, hcheck, hneg⟩ := Ustar.Fs.checkTfsDir_total h str (le_max_right n a.members.length)
  obtain ⟨s, hfree, hmem⟩ : ∃ s, Phys.kfree path x.phys = .ok () s ∧
      s.mem = Function.update x.phys.mem (slot g (shift 3) path) 0 := ⟨_, Phys.kfree_run htree hplain hp hg, rfl⟩
  refine ⟨max n a.members.length, { x with cwd := str, phys := s }, slot g (shift 3) path, ?_, fun hzero => ?_, ?_⟩
  · rw [sysChdir_path hp ⟨n, hn⟩ hdot, Phys.readString_mono hn (le_max_left _ _), Option.bind_some, if_neg href.1,
      hcheck, Option.bind_some, if_neg fun hlt => hneg.mp hlt href.2, hfree]
  · rw [hzero] at hpresent
    cases hpresent
  · dsimp only
    rw [hmem, Function.update_self]

theorem follows_iff (h : Archive.Loaded x.fs.mem x.fs.first a) (htree : Tree x.phys.mem x.phys.cr3)
    (hplain : Plain path) (hr : path ≠ 0 → x.phys.Reads path str) : Follows a path x ↔ path = 0 ∨
      (str.head? = some 0x2E ∧ (str = [0x2E] ∨ x.cwd = str ∧ ∃ m ∈ a.members, m.name = str ∧ m.isDir)) ∨
      str.head? ≠ some 0x2E ∧ x.Refused a str := by
  by_cases hz : path = 0
  · subst hz
    refine iff_of_true ⟨⟨0, fun n _ => by rw [sysChdir_null]; rfl⟩, fun n r y hrun => ?_⟩ (.inl rfl)
    rw [sysChdir_null] at hrun
    cases hrun
    exact .inl ⟨rfl, rfl⟩
  have hr := hr hz
  by_cases hdot : str.head? = some 0x2E
  · have hrun : ∀ n, sysChdir n path x = some (0, x) := fun n => sysChdir_dot hz hr hdot
    constructor
    · intro hfollows
      rcases hfollows.2 0 0 x (hrun 0) with ⟨h, _⟩ | ⟨_, str', hr', ⟨hx, hdir⟩ | ⟨hstr, _⟩⟩
      · cases h
      · obtain rfl := hr.eq hr'
        exact .inr (.inl ⟨hdot, .inr ⟨congrArg cwd hx, hdir⟩⟩)
      · obtain rfl := hr.eq hr'
        exact .inr (.inl ⟨hdot, .inl hstr⟩)
    · rintro (h | ⟨_, hcases⟩ | ⟨h, _⟩)
      · exact absurd h hz
      · refine ⟨⟨0, fun n _ => by rw [hrun]; rfl⟩, fun n r y hy => ?_⟩
        rw [hrun] at hy
        cases hy
        refine .inr ⟨rfl, str, hr, ?_⟩
        rcases hcases with hstr | ⟨hcwd, hdir⟩
        · exact .inr ⟨hstr, rfl⟩
        · exact .inl ⟨by rw [← hcwd], hdir⟩
      · exact absurd hdot h
  · constructor
    · intro hfollows
      by_contra hne
      obtain ⟨n, y, e, hrun, hbefore, hafter⟩ := sysChdir_unmaps h htree hplain hz hr hdot
        fun href => hne (.inr (.inr ⟨hdot, href⟩))
      rcases hfollows.2 n 0 y hrun with ⟨h, _⟩ | ⟨_, _, _, ⟨hy, _⟩ | ⟨_, hy⟩⟩
      · cases h
      · rw [hy] at hafter
        exact hbefore hafter
      · rw [hy] at hafter
        exact hbefore hafter
    · rintro (h' | ⟨h', _⟩ | ⟨_, href⟩)
      · exact absurd h' hz
      · exact absurd h' hdot
      · exact ⟨sysChdir_answers h hz hr hdot href, fun n r y hy => .inl (sysChdir_refused h hz hr hdot href hy)⟩

theorem follows_file : Follows Archive.small 0xFFFFFFFF80205000 (bench 0x637465) := by
  have hreads : (bench 0x637465).phys.Reads 0xFFFFFFFF80205000 (ascii "etc") := ⟨4, by decide +kernel⟩
  apply (follows_iff (bench_loaded _) (desk_line _).tree (by decide) fun _ => hreads).mpr
  refine .inr (.inr ⟨by decide, .inr ?_⟩)
  rintro (h | ⟨x, hx, hdir⟩)
  · exact absurd h (by decide)
  · have hfind : ((Archive.small.entries 0xFFFFFFFF80300000).find? fun y =>
        (bench 0x637465).fs.begins (ascii "etc") y.1).all (fun x => decide ¬ x.2.isDir) = true := by
      decide +kernel
    change (Archive.small.entries 0xFFFFFFFF80300000).find? _ = _ at hx
    rw [hx] at hfind
    exact of_decide_eq_true hfind hdir

theorem follows_fails_on_directory_and_dots :
    (∃ y, sysChdir 9 0xFFFFFFFF80205000 (bench 0x2F6E6962) = some (0, y) ∧ y.cwd = ascii "bin/" ∧
      y.phys.mem 0x4028 = 0 ∧ (y.phys.pmap.desc 3).mapCount = 0 ∧
      walk y.phys.mem y.phys.cr3 0xFFFFFFFF80205000 = none) ∧
      ¬ Follows Archive.small 0xFFFFFFFF80205000 (bench 0x2F6E6962) ∧
      sysChdir 9 0xFFFFFFFF80205000 (bench 0x2E2E) = some (0, bench 0x2E2E) ∧
      ¬ Follows Archive.small 0xFFFFFFFF80205000 (bench 0x2E2E) := by
  have heval : (match sysChdir 9 0xFFFFFFFF80205000 (bench 0x2F6E6962) with
      | some (r, y) => decide (r = 0 ∧ y.cwd = ascii "bin/" ∧ y.phys.mem 0x4028 = 0 ∧
          (y.phys.pmap.desc 3).mapCount = 0 ∧ walk y.phys.mem y.phys.cr3 0xFFFFFFFF80205000 = none)
      | none => false) = true := by
    decide +kernel
  have hdots : (bench 0x2E2E).phys.Reads 0xFFFFFFFF80205000 (ascii "..") := ⟨3, by decide +kernel⟩
  have hrun' : sysChdir 9 0xFFFFFFFF80205000 (bench 0x2E2E) = some (0, bench 0x2E2E) :=
    sysChdir_dot (by decide) hdots (by decide)
  obtain ⟨⟨r, y⟩, hrun⟩ : ∃ ry, sysChdir 9 0xFFFFFFFF80205000 (bench 0x2F6E6962) = some ry :=
    Option.isSome_iff_exists.mp (by decide +kernel)
  rw [hrun] at heval
  obtain ⟨rfl, hcwd, hmem, hcount, hwalk⟩ := of_decide_eq_true heval
  refine ⟨⟨y, hrun, hcwd, hmem, hcount, hwalk⟩, fun hfollows => ?_, hrun', fun hfollows => ?_⟩
  · have hbefore : (bench 0x2F6E6962).phys.mem 0x4028 = 0x9003 := by decide
    rcases hfollows.2 9 0 y hrun with ⟨h, _⟩ | ⟨_, _, _, ⟨rfl, _⟩ | ⟨_, rfl⟩⟩
    · cases h
    · exact absurd (hbefore.symm.trans hmem) (by decide)
    · exact absurd (hbefore.symm.trans hmem) (by decide)
  · rcases hfollows.2 9 0 _ hrun' with ⟨h, _⟩ | ⟨_, str, hstr, ⟨hx, _⟩ | ⟨rfl, _⟩⟩
    · cases h
    · obtain rfl := hdots.eq hstr
      exact absurd (congrArg cwd hx) (by decide)
    · exact absurd (hdots.eq hstr) (by decide)

end Kernel

end Os506
