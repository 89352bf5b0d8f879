import Os506.Files.Readdir
import Mathlib.Data.List.Find

namespace Os506

open Archive

namespace Ustar.Fs

def amount (count : BitVec 64) (filep : FileObj) : BitVec 64 :=
  let size := filep.size - filep.offset
  if count < size then count else size

/-- Where the bytes stand that `memmove` is told to copy; its count has 32 bits. -/
def source (count : BitVec 64) (filep : FileObj) : List (BitVec 64) :=
  (List.range ((amount count filep).toNat % 2 ^ 32)).map fun k => filep.data + 512 + filep.offset + BitVec.ofNat 64 k

/-- Those that it does copy: it comes to a page fault at the first that is not mapped. -/
def copied (fs : Fs) (count : BitVec 64) (filep : FileObj) : List (BitVec 64) := (source count filep).takeWhile fs.mapped

def tfsRead (fs : Fs) (count : BitVec 64) (filep : FileObj) : Option (ℤ × List UInt8 × FileObj) :=
  if fs.copied count filep = source count filep then
    some ((amount count filep).toInt, (fs.copied count filep).map fs.mem, Tarfs.tfsRead count filep)
  else none

/-- `sys_read` on the file object of a descriptor; a negative answer is asked for again. -/
def sysRead (fs : Fs) (count : BitVec 64) : ℕ → FileObj → Option (ℤ × List UInt8 × FileObj)
  | 0, _ => none
  | n + 1, filep =>
    if count = 0 then some (0, [], filep)
    else (fs.tfsRead count filep).bind fun (nread, bytes, filep) =>
      if nread < 0 then sysRead fs count n filep else some (nread, bytes, filep)

def reads (fs : Fs) (fuel : ℕ) : List (BitVec 64) → FileObj → Option (List UInt8 × FileObj)
  | [], filep => some ([], filep)
  | count :: counts, filep => (fs.sysRead count fuel filep).bind fun (_, bytes, filep) =>
    (reads fs fuel counts filep).map fun (rest, filep) => (bytes ++ rest, filep)

variable {fs : Fs} {a : Archive} {x : BitVec 64 × Member} {o : FileObj} {off fuel : ℕ} {count : BitVec 64}

structure At (x : BitVec 64 × Member) (off : ℕ) (o : FileObj) : Prop where
  data : o.data = x.1
  size : o.size = BitVec.ofNat 64 x.2.data.length
  offset : o.offset = BitVec.ofNat 64 off
  le : off ≤ x.2.data.length

theorem At.amount (h : At x off o) (count : BitVec 64) :
    (amount count o).toNat = min count.toNat (x.2.data.length - off) := by
  have hlt := x.2.size_lt
  have hle := h.le
  have hsub : (o.size - o.offset).toNat = x.2.data.length - off := by
    rw [h.size, h.offset, BitVec.toNat_sub, BitVec.toNat_ofNat, BitVec.toNat_ofNat]
    omega
  rw [Fs.amount]
  by_cases hc : count < o.size - o.offset
  · rw [if_pos hc]
    rw [BitVec.lt_def, hsub] at hc
    omega
  · rw [if_neg hc, hsub]
    rw [BitVec.lt_def, hsub] at hc
    omega

theorem stored_data (h : Archive.Loaded fs.mem fs.first a) (hx : x ∈ a.entries fs.first) :
    Stored fs.mem (x.1 + 512) x.2.data := by
  have hst := h.stored_entry hx
  rw [Member.bytes, List.append_assoc, Stored.append_iff, Stored.append_iff, x.2.raw_length] at hst
  exact hst.2.1

theorem At.mapped (h : At x off o) (hm : fs.Maps a) (hx : x ∈ a.entries fs.first) {k : ℕ}
    (hk : k < x.2.data.length - off) : fs.mapped (o.data + 512 + o.offset + BitVec.ofNat 64 k) = true := by
  have hlen := length_eq x.2
  have haddr : o.data + 512 + o.offset + BitVec.ofNat 64 k = x.1 + BitVec.ofNat 64 (512 + off + k) := by
    rw [h.data, h.offset]
    bv_omega
  rw [haddr]
  exact hm.entry hx (by omega)

theorem At.source (h : At x off o) (hm : fs.Maps a) (hx : x ∈ a.entries fs.first) (count : BitVec 64) :
    fs.copied count o = Fs.source count o ∧ ∀ p ∈ Fs.source count o, ∃ k < x.2.data.length - off,
      p = o.data + 512 + o.offset + BitVec.ofNat 64 k := by
  have hinside : ∀ p ∈ Fs.source count o, ∃ k < x.2.data.length - off,
      p = o.data + 512 + o.offset + BitVec.ofNat 64 k := by
    intro p hp
    obtain ⟨k, hk, rfl⟩ := List.mem_map.mp hp
    have hle := (List.mem_range.mp hk).trans_le (Nat.mod_le _ _)
    rw [h.amount] at hle
    exact ⟨k, by omega, rfl⟩
  refine ⟨List.takeWhile_eq_self_iff.mpr fun p hp => ?_, hinside⟩
  obtain ⟨k, hk, rfl⟩ := hinside p hp
  exact h.mapped hm hx hk

theorem At.tfsRead (h : At x off o) (hl : Archive.Loaded fs.mem fs.first a) (hm : fs.Maps a) (hx : x ∈ a.entries fs.first)
    (count : BitVec 64) : ∃ o', fs.tfsRead count o = some (((min count.toNat (x.2.data.length - off) : ℕ) : ℤ),
      (x.2.data.drop off).take count.toNat, o') ∧ At x (off + min count.toNat (x.2.data.length - off)) o' := by
  have hlt := x.2.size_lt
  have hle := h.le
  have hamount := h.amount count
  have hint : (Fs.amount count o).toInt = ((min count.toNat (x.2.data.length - off) : ℕ) : ℤ) := by
    rw [BitVec.toInt_eq_toNat_of_lt (by omega), hamount]
  have hbytes : (Fs.source count o).map fs.mem = (x.2.data.drop off).take count.toNat := by
    have hst := stored_data hl hx
    rw [← List.take_append_drop off x.2.data, Stored.append_iff, List.length_take, Nat.min_eq_left hle] at hst
    have hall := bytesAt_eq hst.2 (n := min count.toNat (x.2.data.length - off))
      (by rw [List.length_drop]; exact Nat.min_le_right _ _)
    rw [Fs.source, List.map_map, hamount, Nat.mod_eq_of_lt (by omega), h.data, h.offset]
    refine hall.trans ?_
    rw [← List.length_drop]
    exact List.take_eq_take_min.symm
  refine ⟨Tarfs.tfsRead count o, ?_, h.data, h.size, ?_, by omega⟩
  · rw [Fs.tfsRead, (h.source hm hx count).1, if_pos rfl, hint, hbytes]
  · change o.offset + Fs.amount count o = _
    apply BitVec.eq_of_toNat_eq
    rw [BitVec.toNat_add, hamount, h.offset, BitVec.toNat_ofNat, BitVec.toNat_ofNat]
    omega

theorem At.sysRead (h : At x off o) (hl : Archive.Loaded fs.mem fs.first a) (hm : fs.Maps a) (hx : x ∈ a.entries fs.first)
    (count : BitVec 64) (n : ℕ) : ∃ o', fs.sysRead count (n + 1) o = some (((min count.toNat (x.2.data.length - off) : ℕ) : ℤ),
      (x.2.data.drop off).take count.toNat, o') ∧ At x (off + min count.toNat (x.2.data.length - off)) o' := by
  rw [Fs.sysRead]
  by_cases hz : count = 0
  · have hcount : count.toNat = 0 := congrArg BitVec.toNat hz
    rw [if_pos hz, hcount, Nat.zero_min, List.take_zero]
    exact ⟨o, rfl, h⟩
  · obtain ⟨o', hread, h'⟩ := h.tfsRead hl hm hx count
    refine ⟨o', ?_, h'⟩
    rw [if_neg hz, hread, Option.bind_some]
    dsimp only
    rw [if_neg (by omega)]

theorem At.reads (h : At x off o) (hl : Archive.Loaded fs.mem fs.first a) (hm : fs.Maps a) (hx : x ∈ a.entries fs.first)
    (n : ℕ) (counts : List (BitVec 64)) : ∃ bs o', fs.reads (n + 1) counts o = some (bs, o') ∧ At x (off + bs.length) o' ∧
      bs = (x.2.data.drop off).take bs.length := by
  induction counts generalizing off o with
  | nil => exact ⟨[], o, rfl, h, rfl⟩
  | cons count counts ih =>
    obtain ⟨o₁, hread, h₁⟩ := h.sysRead hl hm hx count n
    obtain ⟨bs, o₂, hreads, h₂, hbs⟩ := ih h₁
    have hlen : ((x.2.data.drop off).take count.toNat).length = min count.toNat (x.2.data.length - off) := by
      rw [List.length_take, List.length_drop]
    refine ⟨(x.2.data.drop off).take count.toNat ++ bs, o₂, ?_, ?_, ?_⟩
    · rw [Fs.reads, hread, Option.bind_some]
      dsimp only
      rw [hreads]
      rfl
    · rw [List.length_append, hlen, ← Nat.add_assoc]
      exact h₂
    · have htake : (x.2.data.drop off).take (min count.toNat (x.2.data.length - off)) =
          (x.2.data.drop off).take count.toNat := by
        rw [← List.length_drop]
        exact List.take_eq_take_min.symm
      rw [List.length_append, hlen, List.take_add, List.drop_drop, ← hbs, htake]

theorem tfsOpen_cases {path : List UInt8} {flags : BitVec 32} {fs' : Fs} (h : Archive.Loaded fs.mem fs.first a)
    (hopen : fs.tfsOpen fuel path flags = some (some o, fs')) :
    (fs' = fs.fillRoot ∧ fs.root ≠ 0 ∧ fs.fillRoot.openHeader true flags fs.root = some o) ∨
      fs' = fs ∧ ∃ x ∈ a.entries fs.first, fs.openHeader false flags x.1 = some o := by
  rw [tfsOpen] at hopen
  split at hopen
  · cases hopen
  · cases hp : path == [0x2F] with
    | false =>
      rw [hp] at hopen
      obtain ⟨hdr, hsearch, hpair⟩ := Option.map_eq_some_iff.mp hopen
      obtain ⟨hbind, rfl⟩ := Prod.mk.inj hpair
      obtain ⟨p, rfl, ho⟩ := Option.bind_eq_some_iff.mp hbind
      have hmore := Linked.search_mono hsearch (le_max_left fuel a.members.length)
      change Linked.search (next fs.mem) _ _ (pointer fs.first) = _ at hmore
      rw [search_eq h (le_max_right _ _)] at hmore
      obtain ⟨x, hfind, rfl⟩ := Option.map_eq_some_iff.mp (Option.some.inj hmore)
      exact .inr ⟨rfl, x, List.mem_of_find?_eq_some hfind, ho⟩
    | true =>
      rw [hp, eq_of_beq hp] at hopen
      obtain ⟨hdr, hsearch, hpair⟩ := Option.map_eq_some_iff.mp hopen
      obtain ⟨hbind, rfl⟩ := Prod.mk.inj hpair
      obtain ⟨p, rfl, ho⟩ := Option.bind_eq_some_iff.mp hbind
      -- the search stops at the header of the root
      change Linked.search (next fs.fillRoot.mem) (fs.fillRoot.begins [0x2F]) fuel (pointer fs.root) = some (some p) at hsearch
      rw [pointer] at hsearch
      split at hsearch
      · cases fuel <;> cases hsearch
      case isFalse hroot =>
        cases fuel with
        | zero => cases hsearch
        | succ n =>
          rw [Linked.search, if_pos fs.begins_root] at hsearch
          cases hsearch
          exact .inl ⟨rfl, hroot, ho⟩

theorem tfsOpen_object {path : List UInt8} {flags : BitVec 32} {fs' : Fs} (h : Archive.Loaded fs.mem fs.first a)
    (hroot : fs.root ∉ a.headers fs.first) (hx : x ∈ a.entries fs.first)
    (hopen : fs.tfsOpen fuel path flags = some (some o, fs')) (hdata : o.data = x.1) :
    fs' = fs ∧ fs.openHeader false flags x.1 = some o := by
  rcases tfsOpen_cases h hopen with ⟨-, -, ho⟩ | ⟨rfl, y, hy, ho⟩
  · exact absurd ((openHeader_some ho).1.symm.trans hdata ▸ List.mem_map.mpr ⟨x, hx, rfl⟩) hroot
  · rw [← hdata, (openHeader_some ho).1]
    exact ⟨rfl, ho⟩

section View

def headerOf (x : BitVec 64 × Member) : Header := ⟨x.1, x.2.raw⟩

def view (fs : Fs) (a : Archive) : Tarfs := ⟨(a.entries fs.first).map headerOf, fs.root⟩

theorem headerOf_named (x : BitVec 64 × Member) : (headerOf x).unnamed = false := by
  have hhead := x.2.named
  have hlen := x.2.raw_length
  rw [Header.unnamed, headerOf]
  cases hraw : x.2.raw with
  | nil => simp [hraw] at hlen
  | cons c r => simpa [hraw] using hhead

theorem getTfsNext_view (x : BitVec 64 × Member) (l : List (BitVec 64 × Member)) :
    Tarfs.getTfsNext (headerOf x) (l.map headerOf) = l.head?.map headerOf := by
  rw [Tarfs.getTfsNext, headerOf_named, if_neg Bool.false_ne_true]
  cases l with
  | nil => rfl
  | cons y l => simp [headerOf_named]

theorem search_view {p : List UInt8} {l : List (BitVec 64 × Member)} :
    Tarfs.search p ((x :: l).map headerOf) =
      if p.isPrefixOf x.2.raw then some (headerOf x, l.map headerOf) else Tarfs.search p (l.map headerOf) := by
  rw [List.map_cons, Tarfs.search, getTfsNext_view]
  refine if_congr Iff.rfl rfl ?_
  cases l with
  | nil => rfl
  | cons y l => rfl

theorem search_find {p : List UInt8} (l : List (BitVec 64 × Member)) :
    (l.find? (fun x => p.isPrefixOf x.2.raw) = none ∧ Tarfs.search p (l.map headerOf) = none) ∨
      ∃ l₁ x l₂, l = l₁ ++ x :: l₂ ∧ l.find? (fun x => p.isPrefixOf x.2.raw) = some x ∧
        Tarfs.search p (l.map headerOf) = some (headerOf x, l₂.map headerOf) := by
  induction l with
  | nil => exact .inl ⟨rfl, rfl⟩
  | cons x l ih =>
    rw [search_view, List.find?_cons]
    cases hp : p.isPrefixOf x.2.raw with
    | true => exact .inr ⟨[], x, l, rfl, rfl, rfl⟩
    | false =>
      rcases ih with h | ⟨l₁, y, l₂, rfl, hfind, hsearch⟩
      · exact .inl h
      · exact .inr ⟨x :: l₁, y, l₂, rfl, hfind, hsearch⟩

theorem begins_raw (h : Archive.Loaded fs.mem fs.first a) (hx : x ∈ a.entries fs.first) {p : List UInt8}
    (hp : p.length ≤ 512) : fs.begins p x.1 = p.isPrefixOf x.2.raw := by
  have hst := h.stored_entry hx
  rw [Member.bytes, List.append_assoc, Stored.append_iff] at hst
  rw [begins, Nat.mod_eq_of_lt (by omega), List.take_length, Bool.eq_iff_iff, decide_eq_true_iff,
    memcmp_eq_zero hst.1 (by rwa [x.2.raw_length]), List.isPrefixOf_iff_prefix]

theorem fillRoot_size (hblank : ∀ i < 12, fs.mem (fs.root + 124 + BitVec.ofNat 64 i) = 0) :
    bytesAt fs.fillRoot.mem (fs.root + 124) 12 = List.replicate 12 0 := by
  have hne : ∀ i < 12, ∀ k : BitVec 64, k < 124 ∨ 136 ≤ k → k < 512 → fs.root + 124 + BitVec.ofNat 64 i ≠ fs.root + k := by
    intro i hi k hk hk' he
    bv_omega
  have hbyte : ∀ i < 12, fs.fillRoot.mem (fs.root + 124 + BitVec.ofNat 64 i) = 0 := by
    intro i hi
    have hroot : fs.root + 124 + BitVec.ofNat 64 i ≠ fs.root := by
      intro he
      bv_omega
    simp only [fillRoot]
    rw [Function.update_of_ne (hne i hi 157 (.inr (by decide)) (by decide)),
      Function.update_of_ne (hne i hi 156 (.inr (by decide)) (by decide)),
      Function.update_of_ne (hne i hi 1 (.inl (by decide)) (by decide)), Function.update_of_ne hroot]
    exact hblank i hi
  rw [bytesAt, List.eq_replicate_iff]
  refine ⟨by rw [List.length_map, List.length_range], fun b hb => ?_⟩
  obtain ⟨i, hi, rfl⟩ := List.mem_map.mp hb
  exact hbyte i (List.mem_range.mp hi)

theorem openHeader_view {flags : BitVec 32} {l₁ l₂ : List (BitVec 64 × Member)} (h : Archive.Loaded fs.mem fs.first a)
    (hs : a.entries fs.first = l₁ ++ x :: l₂) : fs.openHeader false flags x.1 =
      if (headerOf x).typeflag ≠ Tarfs.tfsDir ∧ flags &&& Tarfs.oDirectory ≠ 0 then none
      else some {
        data := x.1
        flags := flags
        offset := if (headerOf x).typeflag = Tarfs.tfsDir then
          ((Tarfs.getTfsNext (headerOf x) (l₂.map headerOf)).map Header.addr).getD 0 else 0
        count := 1
        size := Tarfs.octToBin (headerOf x).size } := by
  have hx : x ∈ a.entries fs.first := by rw [hs]; simp
  have htype : fs.mem (x.1 + 156) = (headerOf x).typeflag := h.typeflag hx
  have hnext : getTfsNext fs.mem x.1 = ((Tarfs.getTfsNext (headerOf x) (l₂.map headerOf)).map Header.addr).getD 0 := by
    rw [h.next_entry hs, getTfsNext_view]
    cases l₂ with
    | nil => rfl
    | cons y l₂ => rfl
  have hsize : bytesAt fs.mem (x.1 + 124) 12 = (headerOf x).size := by
    have hst := h.stored_entry hx
    rw [Member.bytes, List.append_assoc, ← List.take_append_drop 124 x.2.raw, List.append_assoc, Stored.append_iff,
      List.length_take, x.2.raw_length] at hst
    have hfield : Stored fs.mem (x.1 + 124) (x.2.raw.drop 124 ++ (x.2.data ++ x.2.pad)) := hst.2
    have hlen : 12 ≤ (x.2.raw.drop 124).length := by
      rw [List.length_drop, x.2.raw_length]
      decide
    rw [bytesAt_eq hfield (by rw [List.length_append]; omega), List.take_append_of_le_length hlen]
    rfl
  simp only [openHeader, htype, hnext, hsize, Bool.false_eq_true, ↓reduceIte]

/-- `tfs_open` in memory opens what `tfs_open` on the list of headers opens. -/
theorem tfsOpen_view {path : List UInt8} {flags : BitVec 32} (h : Archive.Loaded fs.mem fs.first a)
    (hf : a.members.length ≤ fuel) (hpath : path.length ≤ 512) (hroot : fs.root ≠ 0)
    (hblank : ∀ i < 12, fs.mem (fs.root + 124 + BitVec.ofNat 64 i) = 0) :
    (fs.tfsOpen fuel path flags).map Prod.fst = some ((fs.view a).tfsOpen path flags) := by
  by_cases hflags : flags &&& (Tarfs.oWronly ||| Tarfs.oRdwr) ≠ 0
  · rw [tfsOpen, if_pos hflags, Tarfs.tfsOpen, if_pos hflags]
    rfl
  by_cases hslash : path = [0x2F]
  · subst hslash
    obtain ⟨fuel, rfl⟩ : ∃ k, fuel = k + 1 := ⟨fuel - 1, by
      have := List.length_pos_iff.mpr a.nonempty
      omega⟩
    have hpointer : pointer fs.fillRoot.root = some fs.root := if_neg hroot
    have htype : fs.fillRoot.mem (fs.root + 156) = Tarfs.tfsDir := by
      simp only [fillRoot]
      rw [Function.update_of_ne fun he => absurd ((BitVec.add_right_inj _).mp he) (by decide), Function.update_self]
    have hheader : Tarfs.search [0x2F] [(fs.view a).rootHeader] = some ((fs.view a).rootHeader, []) := rfl
    rw [tfsOpen, if_neg hflags, Tarfs.tfsOpen, if_neg hflags]
    simp only [show (([0x2F] : List UInt8) == [0x2F]) = true from rfl, ↓reduceIte, hpointer]
    rw [show ([0x2F] : List UInt8).dropWhile (· == 0x20) = [0x2F] from rfl, Linked.search, if_pos fs.begins_root, hheader]
    simp only [Option.map_some, Option.bind_some, openHeader, htype, fillRoot_size hblank]
    rfl
  · have hfind : (a.entries fs.first).find? (fun y => fs.begins (path.dropWhile (· == 0x20)) y.1) =
        (a.entries fs.first).find? fun y => (path.dropWhile (· == 0x20)).isPrefixOf y.2.raw :=
      List.find?_congr fun y hy => begins_raw h hy ((List.length_dropWhile_le _ _).trans hpath)
    have hfalse : (path == [0x2F]) = false := by simpa using hslash
    rw [tfsOpen_path h hf hslash (not_not.mp hflags), Tarfs.tfsOpen, if_neg hflags, hfind]
    simp only [hfalse, Bool.false_eq_true, ↓reduceIte, Option.map_some, view]
    rcases search_find (p := path.dropWhile (· == 0x20)) (a.entries fs.first) with
      ⟨hnone, hsearch⟩ | ⟨l₁, x, l₂, hs, hsome, hsearch⟩
    · rw [hnone, hsearch]
      rfl
    · rw [hsome, hsearch, Option.bind_some, Option.bind_some, openHeader_view h hs]
      rfl

end View

theorem At.opened {flags : BitVec 32} (h : Archive.Loaded fs.mem fs.first a) (hx : x ∈ a.entries fs.first) (hreg : ¬ x.2.isDir)
    (hopen : fs.openHeader false flags x.1 = some o) : At x 0 o := by
  have htype : fs.mem (x.1 + 156) ≠ Tarfs.tfsDir := by
    rw [h.typeflag hx]
    exact hreg
  have hst := h.stored_entry hx
  rw [← List.append_nil x.2.bytes] at hst
  rw [openHeader] at hopen
  split at hopen
  · cases hopen
  · rw [← Option.some.inj hopen]
    exact ⟨rfl, octToBin_member hst, rfl, Nat.zero_le _⟩

theorem reads_prefix {path : List UInt8} {flags : BitVec 32} {fs' : Fs} (h : Archive.Loaded fs.mem fs.first a)
    (hm : fs.Maps a) (hroot : fs.root ∉ a.headers fs.first) (hx : x ∈ a.entries fs.first) (hreg : ¬ x.2.isDir)
    (hopen : fs.tfsOpen fuel path flags = some (some o, fs')) (hdata : o.data = x.1) (n : ℕ) (counts : List (BitVec 64))
    (count : BitVec 64) :
    ∃ bs o', fs'.reads (n + 1) counts o = some (bs, o') ∧ bs = x.2.data.take bs.length ∧ o'.offset.toNat = bs.length ∧
      bs.length ≤ x.2.data.length ∧
      ∃ o'', fs'.sysRead count (n + 1) o' = some (((min count.toNat (x.2.data.length - bs.length) : ℕ) : ℤ),
          (x.2.data.drop bs.length).take count.toNat, o'') ∧
        (count ≠ 0 → min count.toNat (x.2.data.length - bs.length) = 0 → bs = x.2.data) := by
  obtain ⟨rfl, hobj⟩ := tfsOpen_object h hroot hx hopen hdata
  obtain ⟨bs, o', hreads, hat, hbs⟩ := (At.opened h hx hreg hobj).reads h hm hx n counts
  rw [Nat.zero_add] at hat
  rw [List.drop_zero] at hbs
  obtain ⟨o'', hnext, _⟩ := hat.sysRead h hm hx count n
  have hlt := x.2.size_lt
  have hle := hat.le
  refine ⟨bs, o', hreads, hbs, ?_, hle, o'', hnext, fun hpos hzero => ?_⟩
  · rw [hat.offset, BitVec.toNat_ofNat]
    omega
  · have hcount : count.toNat ≠ 0 := fun hz => hpos (BitVec.eq_of_toNat_eq hz)
    rw [hbs, List.take_of_length_le (by omega)]

theorem reads_prefix_small :
    let fs : Fs := ⟨small.image 0xFFFFFFFF80300000, 0xFFFFFFFF80300000, 0xFFFFFFFF80250000, inKernel⟩
    ∃ o fs', fs.tfsOpen 3 (ascii "bin/ls") 0 = some (some o, fs') ∧ o.data = 0xFFFFFFFF80300200 ∧
      ∃ bs o', fs'.reads 1 [100, 0] o = some (bs, o') ∧ bs = (List.replicate 513 7).take bs.length ∧
        (fs'.sysRead 1000 1 o').map (fun r => r.1) = some (((min 1000 (513 - bs.length) : ℕ) : ℤ)) := by
  intro fs
  have hfound : (fs.tfsOpen 3 (ascii "bin/ls") 0).map (fun r => r.1.map FileObj.data) = some (some 0xFFFFFFFF80300200) := by
    decide +kernel
  obtain ⟨⟨r, fs'⟩, hopen, hmap⟩ := Option.map_eq_some_iff.mp hfound
  obtain ⟨o, rfl, hdata⟩ := Option.map_eq_some_iff.mp hmap
  refine ⟨o, fs', hopen, hdata, ?_⟩
  have hload : Archive.Loaded fs.mem fs.first small := Archive.image_loaded (by decide) (by decide +kernel)
  have hentry : ∃ x ∈ small.entries fs.first, x.1 = 0xFFFFFFFF80300200 ∧ ¬ x.2.isDir ∧ x.2.data = List.replicate 513 7 := by
    decide +kernel
  obtain ⟨x, hx, haddr, hreg, hbytes⟩ := hentry
  obtain ⟨bs, o', hreads, hbs, _, _, o'', hnext, _⟩ := reads_prefix hload (inKernel_maps (by decide +kernel))
    (by decide +kernel) hx hreg hopen
    (hdata.trans haddr.symm) 0 [100, 0] 1000
  rw [hbytes] at hbs hnext
  rw [List.length_replicate] at hnext
  exact ⟨bs, o', hreads, hbs, by rw [hnext]; rfl⟩

end Ustar.Fs

end Os506
