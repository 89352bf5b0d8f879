import Os506.Files.Archive

namespace Os506

open Linked

namespace Member

def field (m : Member) (off n : ℕ) : List UInt8 := ((m.raw.drop off).take n).takeWhile (· != 0)

def nameField (m : Member) : List UInt8 := m.field 0 100

def prefixField (m : Member) : List UInt8 := m.field 345 155

/-- The name of a member in the ustar format: a long name is split at a slash. -/
def name (m : Member) : List UInt8 :=
  if m.prefixField = [] then m.nameField else m.prefixField ++ 0x2F :: m.nameField

def typeflag (m : Member) : UInt8 := m.raw.getD 156 0

def isDir (m : Member) : Prop := m.typeflag = Tarfs.tfsDir

instance (m : Member) : Decidable m.isDir := inferInstanceAs (Decidable (_ = _))

end Member

namespace Ustar

/-- The memory, where the archive starts in it, where `root_hdr` is, and the addresses that can be read. -/
structure Fs where
  mem : BitVec 64 → UInt8
  first : BitVec 64
  root : BitVec 64
  mapped : BitVec 64 → Bool

def memcmp (mem : BitVec 64 → UInt8) : BitVec 64 → List UInt8 → ℤ
  | _, [] => 0
  | p, c :: l => if c ≠ mem p then c.toNat - (mem p).toNat else memcmp mem (p + 1) l

namespace Fs

/-- `memcmp(fpath, hdr->name, kstrlen(fpath)) == 0`; the count of `memcmp` has 32 bits. -/
def begins (fs : Fs) (fpath : List UInt8) (hdr : BitVec 64) : Bool :=
  decide (memcmp fs.mem hdr (fpath.take (fpath.length % 2 ^ 32)) = 0)

def fillRoot (fs : Fs) : Fs :=
  let mem := Function.update (Function.update fs.mem fs.root 0x2F) (fs.root + 1) 0
  { fs with mem := Function.update (Function.update mem (fs.root + 156) Tarfs.tfsDir) (fs.root + 157) 0 }

def openHeader (fs : Fs) (root : Bool) (flags : BitVec 32) (hdr : BitVec 64) : Option FileObj :=
  if fs.mem (hdr + 156) ≠ Tarfs.tfsDir ∧ flags &&& Tarfs.oDirectory ≠ 0 then none
  else some {
    data := hdr
    flags := flags
    offset := if root then hdr else if fs.mem (hdr + 156) = Tarfs.tfsDir then getTfsNext fs.mem hdr else 0
    count := 1
    size := Tarfs.octToBin (bytesAt fs.mem (hdr + 124) 12) }

def tfsOpen (fuel : ℕ) (fpath : List UInt8) (flags : BitVec 32) (fs : Fs) : Option (Option FileObj × Fs) :=
  if flags &&& (Tarfs.oWronly ||| Tarfs.oRdwr) ≠ 0 then some (none, fs)
  else
    let root := fpath == [0x2F]
    let fs := if root then fs.fillRoot else fs
    let fpath := fpath.dropWhile (· == 0x20)
    (search (next fs.mem) (fs.begins fpath) fuel (pointer (if root then fs.root else fs.first))).map fun hdr =>
      (hdr.bind (fs.openHeader root flags), fs)

def checkTfsDir (fuel : ℕ) (path : List UInt8) (fs : Fs) : Option ℤ :=
  if path == [0x2F] then some 0
  else (search (next fs.mem) (fs.begins path) fuel (pointer fs.first)).map fun
    | some hdr => if fs.mem (hdr + 156) = Tarfs.tfsDir then 0 else -1
    | none => -1

structure Resolves (fs : Fs) (a : Archive) (path : List UInt8) : Prop where
  found : ∀ x ∈ a.entries fs.first, x.2.name = path → ∀ fuel ≥ a.members.length,
    ∃ o, fs.tfsOpen fuel path 0 = some (some o, fs) ∧ o.data = x.1
  absent : (∀ x ∈ a.entries fs.first, x.2.name ≠ path) → ∀ fuel ≥ a.members.length,
    fs.tfsOpen fuel path 0 = some (none, fs)
  directory : ∀ fuel ≥ a.members.length, ∃ r, fs.checkTfsDir fuel path = some r ∧
    (r = 0 ↔ ∃ x ∈ a.entries fs.first, x.2.name = path ∧ x.2.isDir)

/-- The header of the member named `path` begins with it, and the first header that begins with `path` is that one. -/
structure Unambiguous (fs : Fs) (a : Archive) (path : List UInt8) : Prop where
  itself : ∀ x ∈ a.entries fs.first, x.2.name = path → fs.begins path x.1 = true
  first : ∀ l₁ x l₂, a.entries fs.first = l₁ ++ x :: l₂ → (∀ y ∈ l₁, fs.begins path y.1 = false) →
    fs.begins path x.1 = true → x.2.name = path

variable {fs : Fs} {a : Archive} {path : List UInt8} {fuel : ℕ} {flags : BitVec 32}

theorem pointer_first (h : Archive.Loaded fs.mem fs.first a) : pointer fs.first = some fs.first := by
  have := h.top
  refine if_neg fun hz => ?_
  rw [hz] at this
  simp at this

theorem search_eq (h : Archive.Loaded fs.mem fs.first a) (hf : a.members.length ≤ fuel) (p : BitVec 64 → Bool) :
    search (next fs.mem) p fuel (pointer fs.first) =
      some (((a.entries fs.first).find? fun x => p x.1).map Prod.fst) := by
  rw [pointer_first h, search_chain p h.chain (Archive.length_headers.trans_le hf), Archive.headers, List.find?_map]
  rfl

theorem tfsOpen_path (h : Archive.Loaded fs.mem fs.first a) (hf : a.members.length ≤ fuel) (hroot : path ≠ [0x2F])
    (hflags : flags &&& (Tarfs.oWronly ||| Tarfs.oRdwr) = 0) :
    fs.tfsOpen fuel path flags =
      some (((a.entries fs.first).find? fun y => fs.begins (path.dropWhile (· == 0x20)) y.1).bind
        fun y => fs.openHeader false flags y.1, fs) := by
  have hfalse : (path == [0x2F]) = false := by simpa using hroot
  simp only [tfsOpen, hfalse, Bool.false_eq_true, ↓reduceIte]
  rw [if_neg (not_not.mpr hflags), search_eq h hf, Option.map_some, Option.bind_map]
  rfl

theorem tfsOpen_eq (h : Archive.Loaded fs.mem fs.first a) (hf : a.members.length ≤ fuel) (hroot : path ≠ [0x2F])
    (hblank : path.head? ≠ some 0x20) :
    fs.tfsOpen fuel path 0 =
      some (((a.entries fs.first).find? fun x => fs.begins path x.1).bind fun x => fs.openHeader false 0 x.1, fs) := by
  have hskip : path.dropWhile (· == 0x20) = path := by
    cases path with
    | nil => rfl
    | cons c l => exact List.dropWhile_cons_of_neg (by simpa using hblank)
  rw [tfsOpen_path h hf hroot (by decide), hskip]

theorem openHeader_some {root : Bool} {hdr : BitVec 64} {o : FileObj} (h : fs.openHeader root flags hdr = some o) :
    o.data = hdr ∧ (root = true → o.offset = hdr) ∧ o.size = Tarfs.octToBin (bytesAt fs.mem (hdr + 124) 12) := by
  rw [openHeader] at h
  split at h
  · cases h
  · obtain rfl := Option.some.inj h
    exact ⟨rfl, fun hroot => if_pos hroot, rfl⟩

theorem fillRoot_mem (fs : Fs) : fs.fillRoot.mem fs.root = 0x2F ∧ fs.fillRoot.mem (fs.root + 1) = 0 := by
  have hne : ∀ k : BitVec 64, k ≠ 0 → fs.root ≠ fs.root + k := fun k hk he => hk (by simpa using he)
  have hne' : ∀ k : BitVec 64, k ≠ 1 → fs.root + 1 ≠ fs.root + k := fun k hk he => hk (by simpa using he.symm)
  constructor
  · simp only [fillRoot]
    rw [Function.update_of_ne (hne _ (by decide)), Function.update_of_ne (hne _ (by decide)),
      Function.update_of_ne (hne _ (by decide)), Function.update_self]
  · simp only [fillRoot]
    rw [Function.update_of_ne (hne' _ (by decide)), Function.update_of_ne (hne' _ (by decide)), Function.update_self]

theorem begins_root (fs : Fs) : fs.fillRoot.begins [0x2F] fs.root = true := by
  have hcmp : memcmp fs.fillRoot.mem fs.root [0x2F] = 0 := by
    rw [memcmp, if_neg (not_not.mpr fs.fillRoot_mem.1.symm), memcmp]
  exact decide_eq_true hcmp

theorem openHeader_data (fs : Fs) (root : Bool) (hdr : BitVec 64) :
    ∃ o, fs.openHeader root 0 hdr = some o ∧ o.data = hdr := by
  exact ⟨_, if_neg fun hd => hd.2 (by decide), rfl⟩

theorem checkTfsDir_eq (h : Archive.Loaded fs.mem fs.first a) (hf : a.members.length ≤ fuel) (hroot : path ≠ [0x2F]) :
    fs.checkTfsDir fuel path = some (match (a.entries fs.first).find? fun x => fs.begins path x.1 with
      | some x => if fs.mem (x.1 + 156) = Tarfs.tfsDir then 0 else -1
      | none => -1) := by
  have hfalse : (path == [0x2F]) = false := by simpa using hroot
  rw [checkTfsDir, hfalse, if_neg (by simp), search_eq h hf, Option.map_some]
  cases (a.entries fs.first).find? fun x => fs.begins path x.1 <;> rfl

end Fs

end Ustar

namespace Archive

variable {mem : BitVec 64 → UInt8} {base : BitVec 64} {a : Archive} {x y : BitVec 64 × Member}

theorem Loaded.typeflag (h : Loaded mem base a) (hx : x ∈ a.entries base) : mem (x.1 + 156) = x.2.typeflag := by
  have hraw := x.2.raw_length
  have hst := h.stored_entry hx
  rw [Member.bytes, List.append_assoc, Stored.append_iff] at hst
  have hget := hst.1.get (k := 156) (by omega)
  rw [Member.typeflag, List.getD_eq_getElem?_getD, List.getElem?_eq_getElem (by omega), Option.getD_some, ← hget]
  rfl

theorem Loaded.addr_inj (h : Loaded mem base a) (hx : x ∈ a.entries base) (hy : y ∈ a.entries base) (he : x.1 = y.1) :
    x = y :=
  List.inj_on_of_nodup_map (chain_nodup h.chain) hx hy he

theorem name_inj (h : (a.members.map Member.name).Nodup) (hx : x ∈ a.entries base) (hy : y ∈ a.entries base)
    (he : x.2.name = y.2.name) : x = y := by
  rw [← entries_snd a base, List.map_map] at h
  exact List.inj_on_of_nodup_map h hx hy he

end Archive

namespace Ustar.Fs

variable {fs : Fs} {a : Archive} {path : List UInt8} {fuel : ℕ}

theorem Unambiguous.find (hu : fs.Unambiguous a path) {x : BitVec 64 × Member}
    (hx : (a.entries fs.first).find? (fun x => fs.begins path x.1) = some x) :
    x ∈ a.entries fs.first ∧ x.2.name = path := by
  obtain ⟨hb, l₁, l₂, he, hl₁⟩ := List.find?_eq_some_iff_append.mp hx
  refine ⟨by rw [he]; simp, hu.first l₁ x l₂ he (fun y hy => ?_) hb⟩
  simpa using hl₁ y hy

theorem unambiguous_of_check
    (hself : (a.entries fs.first).all (fun x => decide (x.2.name ≠ path) || fs.begins path x.1) = true)
    (hfirst : ((a.entries fs.first).find? fun x => fs.begins path x.1).all (fun x => decide (x.2.name = path)) = true) :
    fs.Unambiguous a path := by
  refine ⟨fun x hx hn => ?_, fun l₁ x l₂ he hl₁ hb => ?_⟩
  · simpa [hn] using List.all_eq_true.mp hself x hx
  · have hx : (a.entries fs.first).find? (fun x => fs.begins path x.1) = some x :=
      List.find?_eq_some_iff_append.mpr ⟨hb, l₁, l₂, he, fun y hy => by simpa using hl₁ y hy⟩
    rw [hx] at hfirst
    exact of_decide_eq_true hfirst

def inKernel (p : BitVec 64) : Bool := decide (0xFFFFFFFF80000000 ≤ p ∧ p < 0xFFFFFFFF81000000)

def lookalikes : Archive where
  members := [
    .make (ascii "lsof") [] 0x30 [1] (by decide) Member.pre_nil (by decide) (by decide) Member.data_one,
    .make (ascii "ls") [] 0x30 [2] (by decide) Member.pre_nil (by decide) (by decide) (by decide)]
  nonempty := List.cons_ne_nil _ _

end Ustar.Fs

end Os506
