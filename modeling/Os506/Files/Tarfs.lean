import Os506.Task

namespace Os506

structure Header where
  addr : BitVec 64
  raw : List UInt8

namespace Header

def unnamed (h : Header) : Bool := h.raw.getD 0 0 == 0

def typeflag (h : Header) : UInt8 := h.raw.getD 156 0

def size (h : Header) : List UInt8 := (h.raw.drop 124).take 12

end Header

/-- The archive as `get_tfs_first` and the header sizes lay it out, and the place of `root_hdr`. -/
structure Tarfs where
  headers : List Header
  root : BitVec 64

structure FileObj where
  data : BitVec 64
  flags : BitVec 32
  offset : BitVec 64
  count : BitVec 64
  size : BitVec 64
  deriving DecidableEq

namespace Tarfs

def oWronly : BitVec 32 := 0x0001
def oRdwr : BitVec 32 := 0x0010
def oDirectory : BitVec 32 := 0x10000
def tfsDir : UInt8 := 0x35

/-- `oct_to_bin` reads all bytes but the last; it computes in 32 bits. -/
def octToBin (ostr : List UInt8) : BitVec 64 :=
  let num : BitVec 32 := ostr.dropLast.foldl (fun num c => (num <<< 3) + (c.toBitVec.signExtend 32 - 0x30)) 0
  num.signExtend 64

def getTfsNext (h : Header) (rest : List Header) : Option Header :=
  if h.unnamed then none else rest.head?.filter fun n => !n.unnamed

def search (fpath : List UInt8) : List Header → Option (Header × List Header)
  | [] => none
  | h :: rest =>
    if fpath.isPrefixOf h.raw then some (h, rest)
    else if (getTfsNext h rest).isSome then search fpath rest else none

def rootHeader (fs : Tarfs) : Header :=
  ⟨fs.root, (0x2F :: List.replicate 155 0) ++ tfsDir :: List.replicate 355 0⟩

def tfsOpen (fs : Tarfs) (fpath : List UInt8) (flags : BitVec 32) : Option FileObj :=
  if flags &&& (oWronly ||| oRdwr) ≠ 0 then none else
  let root := fpath == [0x2F]
  let fpath := fpath.dropWhile (· == 0x20)
  (search fpath (if root then [fs.rootHeader] else fs.headers)).bind fun (hdr, rest) =>
    if hdr.typeflag ≠ tfsDir ∧ flags &&& oDirectory ≠ 0 then none else
    some {
      data := hdr.addr
      flags := flags
      offset := if root then hdr.addr
        else if hdr.typeflag = tfsDir then ((getTfsNext hdr rest).map Header.addr).getD 0 else 0
      count := 1
      size := octToBin hdr.size }

def tfsRead (count : BitVec 64) (filep : FileObj) : FileObj :=
  let size := filep.size - filep.offset
  let acount := if count < size then count else size
  { filep with offset := filep.offset + acount }

def tfsClose (filep : FileObj) : Option FileObj :=
  let filep := { filep with count := filep.count - 1 }
  if filep.count = 0 then none else some filep

theorem tfsOpen_count {fs : Tarfs} {fpath : List UInt8} {flags : BitVec 32} {o : FileObj}
    (h : fs.tfsOpen fpath flags = some o) : o.count = 1 := by
  unfold tfsOpen at h
  split at h
  · cases h
  · obtain ⟨⟨hdr, rest⟩, _, h⟩ := Option.bind_eq_some_iff.mp h
    dsimp only at h
    split at h
    · cases h
    · rw [← Option.some.inj h]

end Tarfs

end Os506
