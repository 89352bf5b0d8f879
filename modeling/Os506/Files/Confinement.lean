import Os506.Files.Listing
import Os506.Files.Reading
import Os506.Lib.Run

namespace Os506

open Archive

namespace Ustar.Fs

def isDir (fs : Fs) (filep : FileObj) : Prop := fs.mem (filep.data + 156) = Tarfs.tfsDir

/-- The bytes that one `tfs_read` copies lie behind the header, within the size of the member; of a directory none is
copied. -/
structure Confined (fs : Fs) (count : BitVec 64) (filep : FileObj) : Prop where
  inside : ∀ p ∈ fs.copied count filep, ∃ i < filep.size.toNat, p = filep.data + 512 + BitVec.ofNat 64 i
  directory : fs.isDir filep → fs.copied count filep = []

def EachRead (fs : Fs) (P : FileObj → Prop) (count : BitVec 64) : ℕ → FileObj → Prop
  | 0, _ => True
  | n + 1, filep => count = 0 ∨ P filep ∧
    ∀ r, fs.tfsRead count filep = some r → r.1 < 0 → EachRead fs P count n r.2.2

inductive FileCall
  | read (count : BitVec 64)
  | getdents (count : BitVec 32)

namespace FileCall

/-- `sys_read` and `sys_getdents`; no answer for a page fault, and when the fuel runs out. -/
def step (fs : Fs) (fuel : ℕ) : FileCall → FileObj → Option FileObj
  | read count, filep => (fs.sysRead count fuel filep).map fun r => r.2.2
  | getdents count, filep => if count = 0 then some filep else (fs.tfsReaddir fuel filep).map fun r => r.2.2

def Confined (fs : Fs) (fuel : ℕ) : FileCall → FileObj → Prop
  | read count, filep => fs.EachRead (fs.Confined count) count fuel filep
  | getdents _, _ => True

def reads : FileCall → Prop
  | read count => count ≠ 0
  | getdents _ => False

def lists : FileCall → Prop
  | read _ => False
  | getdents count => count ≠ 0

end FileCall

def Ordered (calls : List FileCall) : Prop := calls.Pairwise fun c d => c.reads → ¬ d.lists

/-- The address of a header in the image of the kernel, which begins 2 GB below the end of the address space and takes at
most 512 MB. -/
def Image (p : BitVec 64) : Prop := 2 ^ 64 - 2 ^ 31 ≤ p.toNat ∧ p.toNat + 512 ≤ 2 ^ 64 - 2 ^ 31 + 2 ^ 29

/-- The archive and `root_hdr` lie in the image of the kernel; nothing is mapped in the 2 GB below it, and nothing in the
last GB of the address space. -/
structure Layout (fs : Fs) (a : Archive) : Prop where
  loaded : Archive.Loaded fs.mem fs.first a
  maps : fs.Maps a
  image : fs.first.toNat + a.bytes.length ≤ 2 ^ 64 - 2 ^ 31 + 2 ^ 29
  root : Image fs.root
  apart : fs.root ∉ a.headers fs.first
  blank : ∀ i < 12, fs.mem (fs.root + 124 + BitVec.ofNat 64 i) = 0
  below : ∀ p, 2 ^ 64 - 2 ^ 32 ≤ p.toNat → p.toNat < 2 ^ 64 - 2 ^ 31 → fs.mapped p = false
  above : ∀ p, 2 ^ 64 - 2 ^ 30 ≤ p.toNat → fs.mapped p = false

variable {fs : Fs} {a : Archive} {x : BitVec 64 × Member} {o : FileObj} {off n : ℕ} {count : BitVec 64}
  {calls : List FileCall} {flags : BitVec 32}

theorem Layout.entry (h : fs.Layout a) (hx : x ∈ a.entries fs.first) : Image x.1 := by
  obtain ⟨e, he, rfl⟩ := List.mem_map.mp hx
  have hend := (placed_range he).2
  have hlen := length_eq e.2
  have htop := h.loaded.top
  have himage := h.image
  rw [Archive.bytes, List.length_append, List.length_replicate] at himage
  rw [Image, offset_toNat (by omega)]
  omega

theorem stops (hbelow : ∀ p, 2 ^ 64 - 2 ^ 32 ≤ p.toNat → p.toNat < 2 ^ 64 - 2 ^ 31 → fs.mapped p = false)
    (hdata : Image o.data) (hoff : Image o.offset) (hsize : o.size.toNat < 2 ^ 31) (hcount : count ≠ 0) :
    fs.copied count o = [] ∧ fs.tfsRead count o = none := by
  have hpos : 0 < count.toNat := Nat.pos_of_ne_zero fun hz => hcount (BitVec.eq_of_toNat_eq hz)
  have hamount : 0 < (amount count o).toNat ∧ (amount count o).toNat < 2 ^ 32 := by
    have hsub : 0 < (o.size - o.offset).toNat ∧ (o.size - o.offset).toNat < 2 ^ 32 := by
      rw [BitVec.toNat_sub]
      obtain ⟨hlow, hhigh⟩ := hoff
      omega
    rw [amount]
    split
    case isTrue hlt => exact ⟨hpos, (BitVec.lt_def.mp hlt).trans hsub.2⟩
    case isFalse => exact hsub
  have hfirst : fs.mapped (o.data + 512 + o.offset + BitVec.ofNat 64 0) = false := by
    obtain ⟨hlow, hhigh⟩ := hdata
    obtain ⟨hlow', hhigh'⟩ := hoff
    apply hbelow <;> bv_omega
  have hsource : ∃ rest, source count o = (o.data + 512 + o.offset + BitVec.ofNat 64 0) :: rest := by
    obtain ⟨k, hk⟩ : ∃ k, (amount count o).toNat % 2 ^ 32 = k + 1 :=
      ⟨(amount count o).toNat % 2 ^ 32 - 1, by rw [Nat.mod_eq_of_lt hamount.2]; omega⟩
    rw [source, hk, List.range_succ_eq_map, List.map_cons]
    exact ⟨_, rfl⟩
  obtain ⟨rest, hrest⟩ := hsource
  have hnone : fs.copied count o = [] := by
    rw [copied, hrest, List.takeWhile_cons_of_neg (by rw [hfirst]; exact Bool.false_ne_true)]
  refine ⟨hnone, ?_⟩
  rw [tfsRead, hnone, hrest, if_neg (List.cons_ne_nil _ _).symm]

theorem confined_of_nil (h : fs.copied count o = []) : fs.Confined count o :=
  ⟨fun _ hp => absurd (h ▸ hp) List.not_mem_nil, fun _ => h⟩

theorem read_zero (hz : count = 0) :
    (FileCall.read count).Confined fs n o ∧ ∀ t, (FileCall.read count).step fs n o = some t → t = o := by
  cases n with
  | zero => exact ⟨trivial, fun t ht => by cases ht⟩
  | succ n =>
    refine ⟨.inl hz, fun t ht => ?_⟩
    rw [FileCall.step, sysRead, if_pos hz] at ht
    cases ht
    rfl

theorem read_stops (h : fs.copied count o = [] ∧ fs.tfsRead count o = none) (hcount : count ≠ 0) :
    (FileCall.read count).Confined fs n o ∧ (FileCall.read count).step fs n o = none := by
  cases n with
  | zero => exact ⟨trivial, rfl⟩
  | succ n =>
    refine ⟨.inr ⟨confined_of_nil h.1, fun r hr => ?_⟩, ?_⟩
    · rw [h.2] at hr
      cases hr
    · rw [FileCall.step, sysRead, if_neg hcount, h.2]
      rfl

section Directory

structure Walking (fs : Fs) (a : Archive) (x : BitVec 64 × Member) (o : FileObj) : Prop where
  data : o.data = x.1
  size : o.size = 0
  offset : ∃ l₁ l₂, a.entries fs.first = l₁ ++ l₂ ∧ o.offset = pointTo l₂

theorem Walking.read (hl : fs.Layout a) (hx : x ∈ a.entries fs.first) (h : fs.Walking a x o) (count : BitVec 64) :
    (FileCall.read count).Confined fs n o ∧ ∀ t, (FileCall.read count).step fs n o = some t → fs.Walking a x t := by
  by_cases hz : count = 0
  · exact ⟨(read_zero hz).1, fun t ht => (read_zero hz).2 t ht ▸ h⟩
  obtain ⟨l₁, l₂, hs, hoff⟩ := h.offset
  cases l₂ with
  | nil =>
    -- behind the last entry there is nothing to read
    have hzero : o.offset = 0 := hoff
    have hamount : amount count o = 0#64 := by
      rw [amount, h.size, hzero, BitVec.sub_self, if_neg BitVec.not_lt_zero]
    have hcopied : fs.copied count o = [] ∧ source count o = [] := by
      rw [copied, source, hamount]
      exact ⟨rfl, rfl⟩
    have hread : fs.tfsRead count o = some (0, [], o) := by
      have hsame : Tarfs.tfsRead count o = o := by
        change { o with offset := o.offset + amount count o } = o
        rw [hamount, BitVec.add_zero]
      rw [tfsRead, hcopied.1, hcopied.2, if_pos rfl, hamount, hsame]
      rfl
    cases n with
    | zero => exact ⟨trivial, fun t ht => by cases ht⟩
    | succ n =>
      refine ⟨.inr ⟨confined_of_nil hcopied.1, fun r hr hneg => ?_⟩, fun t ht => ?_⟩
      · rw [hread] at hr
        cases hr
        exact absurd hneg (Int.lt_irrefl 0)
      · rw [FileCall.step, sysRead, if_neg hz, hread] at ht
        cases ht
        exact h
  | cons z l₂ =>
    have hz' : z ∈ a.entries fs.first := by rw [hs]; simp
    have hstop := read_stops (n := n) (stops hl.below (h.data ▸ hl.entry hx) (show Image o.offset from hoff ▸ hl.entry hz')
      (by rw [h.size]; decide) hz) hz
    refine ⟨hstop.1, fun t ht => ?_⟩
    rw [hstop.2] at ht
    cases ht

theorem Walking.getdents (hl : fs.Layout a) (hmodes : ∀ m ∈ a.members, m.ModeOk) (hx : x ∈ a.entries fs.first)
    (h : fs.Walking a x o) {t : FileObj} {count : BitVec 32} (ht : (FileCall.getdents count).step fs n o = some t) :
    fs.Walking a x t := by
  rw [FileCall.step] at ht
  split at ht
  · cases ht
    exact h
  obtain ⟨r, hr, rfl⟩ := Option.map_eq_some_iff.mp ht
  obtain ⟨l₁, l₂, hs, hoff⟩ := h.offset
  have hend : fs.Walking a x { o with offset := 0 } := ⟨h.data, h.size, _, [], (List.append_nil _).symm, rfl⟩
  cases l₂ with
  | nil =>
    have hread : fs.tfsReaddir n o = none ∨ fs.tfsReaddir n o = some (0, [], { o with offset := 0 }) :=
      (tfsReaddir_end hl.loaded hmodes hx h.data hoff).1
    rcases hread with hn | he
    · rw [hn] at hr
      cases hr
    · rw [he] at hr
      cases hr
      exact hend
  | cons z l₂ =>
    have hread : fs.tfsReaddir n o = none ∨ fs.tfsReaddir n o = fs.called o x.2.cname z l₂ :=
      (tfsReaddir_entry hl.loaded hmodes hx hl.maps (addr_ne_root hl.apart hx) h.data hs hoff).1
    rcases hread with hn | he
    · rw [hn] at hr
      cases hr
    · rw [he, called] at hr
      split at hr
      · split at hr
        · cases hr
        · cases hr
          exact ⟨h.data, h.size, l₁ ++ [z], l₂, hs.trans (List.append_cons ..), rfl⟩
      · cases hr
        exact hend

theorem Walking.run (hl : fs.Layout a) (hmodes : ∀ m ∈ a.members, m.ModeOk) (hx : x ∈ a.entries fs.first)
    (h : fs.Walking a x o) (n : ℕ) (calls : List FileCall) :
    Run.Meets (FileCall.step fs n) (FileCall.Confined fs n) o calls := by
  induction calls generalizing o with
  | nil => trivial
  | cons call calls ih =>
    cases call with
    | read count => exact ⟨(h.read hl hx count).1, fun t ht => ih ((h.read hl hx count).2 t ht)⟩
    | getdents count => exact ⟨trivial, fun t ht => ih (h.getdents hl hmodes hx ht)⟩

theorem Walking.opened (hl : fs.Layout a) (hx : x ∈ a.entries fs.first) (hdir : x.2.isDir) (hdata : x.2.data = [])
    (ho : fs.openHeader false flags x.1 = some o) : fs.Walking a x o := by
  obtain ⟨l₁, l₂, hs⟩ := List.append_of_mem hx
  obtain ⟨o', ho', hdata', hoff⟩ := openHeader_dir flags hl.loaded hs hdir
  cases ho'.symm.trans ho
  have hst := hl.loaded.stored_entry hx
  rw [← List.append_nil x.2.bytes] at hst
  refine ⟨hdata', ?_, l₁ ++ [x], l₂, hs.trans (List.append_cons ..), hoff⟩
  rw [(openHeader_some ho).2.2, octToBin_member hst, hdata]
  rfl

end Directory

section Root

/-- What `oct_to_bin` makes of the bytes of a size field that was never written. -/
def rootSize : BitVec 64 := 1227133520

theorem rootSize_eq : Tarfs.octToBin (List.replicate 12 0) = rootSize := by decide

theorem Layout.nextHeader_root (h : fs.Layout a) : fs.fillRoot.nextHeader fs.root = none := by
  have hfollow : following fs.fillRoot.mem fs.root = fs.root + 1227134464 := by
    simp only [following, fillRoot_size h.blank, rootSize_eq]
    rw [if_pos (by decide)]
    rfl
  have hmapped : fs.mapped (fs.root + 1227134464) = false := by
    obtain ⟨hlow, hhigh⟩ := h.root
    apply h.above
    bv_omega
  refine if_neg (not_or.mpr ⟨?_, ?_⟩)
  · rw [fs.fillRoot_mem.1]
    decide
  · rw [hfollow]
    change ¬ fs.mapped (fs.root + 1227134464) = true
    rw [hmapped]
    exact Bool.false_ne_true

theorem Layout.root_run (h : fs.Layout a) (hroot : fs.root ≠ 0) (ho : fs.fillRoot.openHeader true flags fs.root = some o)
    (n : ℕ) (calls : List FileCall) :
    Run.Meets (FileCall.step fs.fillRoot n) (FileCall.Confined fs.fillRoot n) o calls := by
  obtain ⟨hdata, hoff, hsize⟩ := openHeader_some ho
  rw [fillRoot_size h.blank, rootSize_eq] at hsize
  have himage : Image o.data ∧ Image o.offset := by
    rw [hdata, hoff rfl]
    exact ⟨h.root, h.root⟩
  induction calls with
  | nil => trivial
  | cons call calls ih =>
    cases call with
    | read count =>
      by_cases hz : count = 0
      · exact ⟨(read_zero hz).1, fun t ht => (read_zero hz).2 t ht ▸ ih⟩
      · have hnone : fs.fillRoot.copied count o = [] ∧ fs.fillRoot.tfsRead count o = none :=
          stops h.below himage.1 himage.2 (by rw [hsize]; decide) hz
        have hstop := read_stops (n := n) hnone hz
        refine ⟨hstop.1, fun t ht => ?_⟩
        rw [hstop.2] at ht
        cases ht
    | getdents count =>
      refine ⟨trivial, fun t ht => ?_⟩
      rw [FileCall.step] at ht
      split at ht
      · cases ht
        exact ih
      · obtain ⟨r, hr, -⟩ := Option.map_eq_some_iff.mp ht
        obtain ⟨next, hnext, -⟩ := tfsReaddir_root hroot hdata (hoff rfl) hr
        rw [h.nextHeader_root] at hnext
        cases hnext

end Root

section File

theorem At.confined (h : At x off o) (hl : fs.Layout a) (hx : x ∈ a.entries fs.first) (hreg : ¬ x.2.isDir)
    (count : BitVec 64) : fs.Confined count o := by
  have hlt := x.2.size_lt
  have hle := h.le
  obtain ⟨hall, hinside⟩ := h.source hl.maps hx count
  refine ⟨fun p hp => ?_, fun hdir => ?_⟩
  · obtain ⟨k, hk, rfl⟩ := hinside p (hall ▸ hp)
    refine ⟨off + k, ?_, ?_⟩
    · rw [h.size, BitVec.toNat_ofNat]
      omega
    · rw [h.offset, BitVec.add_assoc _ (BitVec.ofNat 64 off), ← BitVec.ofNat_add]
  · rw [isDir, h.data, hl.loaded.typeflag hx] at hdir
    exact absurd hdir hreg

theorem At.read (h : At x off o) (hl : fs.Layout a) (hx : x ∈ a.entries fs.first) (hreg : ¬ x.2.isDir) (n : ℕ)
    (count : BitVec 64) : (FileCall.read count).Confined fs n o ∧
      ∀ t, (FileCall.read count).step fs n o = some t → ∃ off', At x off' t ∧ (count = 0 → off' = off) := by
  by_cases hz : count = 0
  · exact ⟨(read_zero hz).1, fun t ht => ⟨off, (read_zero hz).2 t ht ▸ h, fun _ => rfl⟩⟩
  cases n with
  | zero => exact ⟨trivial, fun t ht => by cases ht⟩
  | succ n =>
    obtain ⟨o', hread, h'⟩ := h.tfsRead hl.loaded hl.maps hx count
    refine ⟨.inr ⟨h.confined hl hx hreg count, fun r hr hneg => ?_⟩, fun t ht => ?_⟩
    · rw [hread] at hr
      cases hr
      dsimp only at hneg
      omega
    · rw [FileCall.step, Fs.sysRead, if_neg hz, hread, Option.bind_some] at ht
      dsimp only at ht
      rw [if_neg (by omega)] at ht
      cases ht
      exact ⟨_, h', fun hzero => absurd hzero hz⟩

theorem At.list {count : BitVec 32} {t : FileObj} (h : At x off o)
    (hstart : count ≠ 0 → off = 0 ∨ fs.mapped (BitVec.ofNat 64 off) = false)
    (ht : (FileCall.getdents count).step fs n o = some t) : At x off t := by
  rw [FileCall.step] at ht
  split at ht
  · cases ht
    exact h
  case isFalse hz =>
    obtain ⟨r, hr, rfl⟩ := Option.map_eq_some_iff.mp ht
    obtain ⟨name, -, hr⟩ := Option.bind_eq_some_iff.mp hr
    cases n with
    | zero => cases hr
    | succ n =>
      rw [readdirLoop, h.offset] at hr
      by_cases hoff : BitVec.ofNat 64 off = 0
      · -- `tfs_readdir` at the position 0 is at the end of a directory
        rw [if_pos hoff] at hr
        cases hr
        exact ⟨h.data, h.size, hoff.symm, h.le⟩
      · have hunmapped := (hstart hz).resolve_left fun hzero => hoff (by rw [hzero]; rfl)
        rw [if_neg hoff, if_pos hunmapped] at hr
        cases hr

theorem At.run (h : At x off o) (hl : fs.Layout a) (hx : x ∈ a.entries fs.first) (hreg : ¬ x.2.isDir) (n : ℕ)
    (hfirst : off = 0 ∨ ∀ c ∈ calls, ¬ c.lists) (hcalls : Ordered calls) :
    Run.Meets (FileCall.step fs n) (FileCall.Confined fs n) o calls := by
  induction calls generalizing off o with
  | nil => trivial
  | cons call calls ih =>
    obtain ⟨hhead, htail⟩ := List.pairwise_cons.mp hcalls
    have hrest : off = 0 ∨ ∀ c ∈ calls, ¬ c.lists := hfirst.imp_right fun hno c hc => hno c (List.mem_cons_of_mem _ hc)
    cases call with
    | read count =>
      obtain ⟨hconfined, hnext⟩ := h.read hl hx hreg n count
      refine ⟨hconfined, fun t ht => ?_⟩
      obtain ⟨off', h', hsame⟩ := hnext t ht
      by_cases hz : count = 0
      · exact ih h' (by rw [hsame hz]; exact hrest) htail
      · exact ih h' (.inr fun c hc => hhead c hc hz) htail
    | getdents count =>
      have hstart : count ≠ 0 → off = 0 := fun hz => hfirst.resolve_right fun hno => hno _ List.mem_cons_self hz
      exact ⟨trivial, fun t ht => ih (h.list (fun hz => .inl (hstart hz)) ht) hrest htail⟩

/-- No position in the file is an address that can be read. -/
theorem At.run_low (h : At x off o) (hl : fs.Layout a) (hx : x ∈ a.entries fs.first) (hreg : ¬ x.2.isDir) (n : ℕ)
    (hlow : ∀ k, 0 < k → k ≤ x.2.data.length → fs.mapped (BitVec.ofNat 64 k) = false) (calls : List FileCall) :
    Run.Meets (FileCall.step fs n) (FileCall.Confined fs n) o calls := by
  induction calls generalizing off o with
  | nil => trivial
  | cons call calls ih =>
    cases call with
    | read count =>
      obtain ⟨hconfined, hnext⟩ := h.read hl hx hreg n count
      refine ⟨hconfined, fun t ht => ?_⟩
      obtain ⟨off', h', -⟩ := hnext t ht
      exact ih h'
    | getdents count =>
      have hstart : off = 0 ∨ fs.mapped (BitVec.ofNat 64 off) = false :=
        (Nat.eq_zero_or_pos off).imp_right fun hpos => hlow off hpos h.le
      exact ⟨trivial, fun t ht => ih (h.list (fun _ => hstart) ht)⟩

end File

/-- Every byte that `tfs_read` copies lies in the member that was opened, if a file is not listed once it has been read or
its positions are no addresses that can be read; of a directory none is copied, whatever the calls are. -/
theorem confined_run {fuel : ℕ} {path : List UInt8} {fs' : Fs} (hl : fs.Layout a) (hmodes : ∀ m ∈ a.members, m.ModeOk)
    (hdirs : ∀ m ∈ a.members, m.isDir → m.data = []) (hopen : fs.tfsOpen fuel path flags = some (some o, fs'))
    (hcalls : fs'.isDir o ∨ Ordered calls ∨ ∀ p, 0 < p.toNat → p.toNat ≤ o.size.toNat → fs'.mapped p = false) (n : ℕ) :
    Run.Meets (FileCall.step fs' n) (FileCall.Confined fs' n) o calls := by
  rcases tfsOpen_cases hl.loaded hopen with ⟨rfl, hroot, ho⟩ | ⟨rfl, x, hx, ho⟩
  · exact hl.root_run hroot ho n calls
  · by_cases hdir : x.2.isDir
    · have hmem : x.2 ∈ a.members := by
        rw [← entries_snd a fs'.first]
        exact List.mem_map_of_mem hx
      exact (Walking.opened hl hx hdir (hdirs x.2 hmem hdir) ho).run hl hmodes hx n calls
    · have hat := At.opened hl.loaded hx hdir ho
      have hfile : ¬ fs'.isDir o := fun h => hdir (by rwa [isDir, hat.data, hl.loaded.typeflag hx] at h)
      rcases hcalls.resolve_left hfile with hordered | hlow
      · exact hat.run hl hx hdir n (.inl rfl) hordered
      · have hlt := x.2.size_lt
        refine hat.run_low hl hx hdir n (fun k hpos hk => ?_) calls
        apply hlow <;> rw [BitVec.toNat_ofNat]
        · omega
        · rw [hat.size, BitVec.toNat_ofNat]
          omega

theorem small_layout : Layout ⟨small.image 0xFFFFFFFF80300000, 0xFFFFFFFF80300000, 0xFFFFFFFF80250000, inKernel⟩ small where
  loaded := image_loaded (by decide) (by decide +kernel)
  maps := inKernel_maps (by decide +kernel)
  image := by decide +kernel
  root := ⟨by decide, by decide⟩
  apart := by decide +kernel
  blank := by decide +kernel
  below p _ hlt := decide_eq_false fun h => by
    rw [BitVec.le_def] at h
    exact absurd h.1 (Nat.not_le.mpr hlt)
  above p hle := decide_eq_false fun h => by
    rw [BitVec.lt_def] at h
    exact absurd (h.2.trans_le (show (0xFFFFFFFF81000000 : BitVec 64).toNat ≤ _ by decide)) (Nat.not_lt.mpr hle)

theorem confined_run_small :
    let fs : Fs := ⟨small.image 0xFFFFFFFF80300000, 0xFFFFFFFF80300000, 0xFFFFFFFF80250000, inKernel⟩
    let calls : List FileCall := [.getdents 512, .read 100, .read 1000]
    ∃ o fs', fs.tfsOpen 3 (ascii "bin/ls") 0 = some (some o, fs') ∧
      Run.Meets (FileCall.step fs' 8) (FileCall.Confined fs' 8) o calls ∧
      (Run.exec (FileCall.step fs 8) calls o).map FileObj.offset = some 513 := by
  intro fs calls
  have hfound : (fs.tfsOpen 3 (ascii "bin/ls") 0).map Prod.fst = some (some ⟨0xFFFFFFFF80300200, 0, 0, 1, 513⟩) := by
    decide +kernel
  obtain ⟨⟨r, fs'⟩, hopen, rfl⟩ := Option.map_eq_some_iff.mp hfound
  exact ⟨_, fs', hopen, confined_run small_layout small_modes (by decide +kernel) hopen
    (.inr (.inl (by simp [Ordered, calls, FileCall.reads, FileCall.lists]))) 8, by decide +kernel⟩

/-- What a process has at address 1: a header for `bin/ls` of size 1, and a byte where the next header would be. -/
def lookalike : List UInt8 := ustarHeader (ascii "bin/ls") [] 0x30 1 ++ List.replicate 512 0 ++ [1]

/-- A process with the page at address 0 reads one byte of `bin/ls`, lists it and reads one byte more: that is the second
of the next header. -/
theorem confined_fails_on_listed_file :
    let fs : Fs := ⟨fun p => if p.toNat < 4096 then lookalike.getD (p.toNat - 1) 0 else small.image 0xFFFFFFFF80300000 p,
      0xFFFFFFFF80300000, 0xFFFFFFFF80250000, fun p => decide (p.toNat < 4096) || inKernel p⟩
    let o : FileObj := ⟨0xFFFFFFFF80300200, 0, 0, 1, 513⟩
    (fs.tfsOpen 3 (ascii "bin/ls") 0).map Prod.fst = some (some o) ∧
      (Run.exec (FileCall.step fs 8) [.read 1, .getdents 512] o).bind (fs.tfsRead 1) =
        some (1, ascii "t", { o with offset := 1026 }) ∧
      ¬ Run.Meets (FileCall.step fs 8) (FileCall.Confined fs 8) o [.read 1, .getdents 512, .read 1] := by
  intro fs o
  refine ⟨by decide +kernel, by decide +kernel, fun hmeets => ?_⟩
  have hread : FileCall.step fs 8 (.read 1) o = some { o with offset := 1 } := by decide +kernel
  have hlist : FileCall.step fs 8 (.getdents 512) { o with offset := 1 } = some { o with offset := 1025 } := by decide +kernel
  have hcopied : fs.copied 1 { o with offset := 1025 } = [0xFFFFFFFF80300801] := by decide +kernel
  rcases ((hmeets.2 _ hread).2 _ hlist).1 with hzero | ⟨hconfined, -⟩
  · exact absurd hzero (by decide)
  · obtain ⟨i, hi, he⟩ := hconfined.inside _ (hcopied ▸ List.mem_singleton_self _)
    change i < 513 at hi
    change (0xFFFFFFFF80300801 : BitVec 64) = 0xFFFFFFFF80300200 + 512 + BitVec.ofNat 64 i at he
    bv_omega

end Ustar.Fs

end Os506
