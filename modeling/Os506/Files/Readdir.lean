import Os506.Files.Lookup
import Mathlib.Data.List.TakeWhile

namespace Os506

open Linked

/-- What `set_dirent` writes. The name is copied without a NUL; `d_reclen` tells its length. -/
structure Dirent where
  name : List UInt8
  reclen : BitVec 16
  type : UInt8

def slash : UInt8 := 0x2F

namespace Ustar

def cstr (mem : BitVec 64 → UInt8) : ℕ → BitVec 64 → Option (List UInt8)
  | 0, _ => none
  | n + 1, p => if mem p = 0 then some [] else (cstr mem n (p + 1)).map (mem p :: ·)

namespace Fs

def setDirent (fs : Fs) (nextHdr : BitVec 64) (dname : List UInt8) : Dirent where
  name := dname
  reclen := BitVec.ofNat 16 (32 + dname.length)
  type :=
    let typeflag := fs.mem (nextHdr + 156)
    if typeflag = 0x35 then 4 else if typeflag = 0x30 ∨ typeflag = 0 then 8 else 0

def nextHeader (fs : Fs) (hdr : BitVec 64) : Option (BitVec 64) :=
  if fs.mem hdr = 0 ∨ fs.mapped (following fs.mem hdr) = true then some (getTfsNext fs.mem hdr) else none

/-- The loop of `tfs_readdir`, with what it returns, what it writes to the buffer and the file object. The `continue`
goes back to the same header. No answer for a page fault at a header, and when the fuel runs out. -/
def readdirLoop (fs : Fs) (name : List UInt8) (filep : FileObj) : ℕ → BitVec 64 → Option (ℤ × List Dirent × FileObj)
  | 0, _ => none
  | n + 1, nextHdr =>
    if nextHdr = 0 then some (0, [], { filep with offset := 0 })
    else if fs.mapped nextHdr = false then none
    else if filep.data ≠ fs.root ∧ memcmp fs.mem nextHdr name ≠ 0 then some (0, [], { filep with offset := 0 })
    else (cstr fs.mem n (nextHdr + BitVec.ofNat 64 name.length)).bind fun dname =>
      if slash ∈ dname then readdirLoop fs name filep n nextHdr
      else (fs.nextHeader nextHdr).map fun next =>
        (32 + dname.length, [fs.setDirent nextHdr dname], { filep with offset := next })

def Maps (fs : Fs) (a : Archive) : Prop := ∀ i < a.bytes.length, fs.mapped (fs.first + BitVec.ofNat 64 i) = true

def tfsReaddir (fuel : ℕ) (filep : FileObj) (fs : Fs) : Option (ℤ × List Dirent × FileObj) :=
  (cstr fs.mem fuel filep.data).bind fun name => fs.readdirLoop name filep fuel filep.offset

def readAll (fuel : ℕ) : ℕ → FileObj → Fs → Option (List Dirent)
  | 0, _, _ => none
  | n + 1, filep, fs => (fs.tfsReaddir fuel filep).bind fun (ret, ds, filep) =>
    if ret = 0 then some [] else (readAll fuel n filep fs).map (ds ++ ·)

end Fs

variable {mem : BitVec 64 → UInt8} {p : BitVec 64} {l r t : List UInt8} {n : ℕ}

theorem cstr_eq (h : Stored mem p (l ++ 0 :: t)) (hl : 0 ∉ l) : cstr mem n p = if l.length < n then some l else none := by
  induction l generalizing p n with
  | nil =>
    cases n with
    | zero => rfl
    | succ n =>
      rw [cstr, if_pos h.1]
      simp
  | cons c l ih =>
    rw [List.mem_cons, not_or] at hl
    cases n with
    | zero => rfl
    | succ n =>
      rw [cstr, h.1, if_neg (Ne.symm hl.1), ih h.2 hl.2]
      by_cases hn : l.length < n
      · simp [hn]
      · simp [hn]

theorem memcmp_eq_zero (h : Stored mem p r) (hl : l.length ≤ r.length) : memcmp mem p l = 0 ↔ l <+: r := by
  induction l generalizing p r with
  | nil => simp [memcmp]
  | cons c l ih =>
    cases r with
    | nil => simp at hl
    | cons d r =>
      rw [memcmp, h.1, List.cons_prefix_cons, ← ih h.2 (Nat.le_of_succ_le_succ hl)]
      by_cases hc : c = d
      · simp [hc]
      · have hne : (c.toNat : ℤ) - d.toNat ≠ 0 := fun hz => hc (UInt8.toNat_inj.mp (by omega))
        simp [hc, hne]

end Ustar

namespace Member

variable {m : Member}

/-- The C string at the start of the header. It runs into the mode field when the name has 100 bytes. -/
def cname (m : Member) : List UInt8 := m.raw.takeWhile (· != 0)

/-- The mode field as `tar` writes it: seven octal digits and a NUL. -/
def ModeOk (m : Member) : Prop :=
  ∃ ds, ds.length = 7 ∧ (∀ c ∈ ds, 48 ≤ c ∧ c ≤ 55) ∧ (m.raw.drop 100).take 8 = ds ++ [0]

theorem zero_notMem_cname : 0 ∉ m.cname := fun h => by simpa using List.mem_takeWhile_imp h

theorem cname_cases (h : m.ModeOk) :
    m.nameField.length < 100 ∧ m.cname = m.nameField ∨
    m.nameField.length = 100 ∧ ∃ ds, ds.length = 7 ∧ (∀ c ∈ ds, 48 ≤ c ∧ c ≤ 55) ∧ m.cname = m.nameField ++ ds := by
  obtain ⟨ds, hlen, hds, hmode⟩ := h
  have hraw := m.raw_length
  have hsplit : m.raw = m.raw.take 100 ++ (ds ++ 0 :: m.raw.drop 108) := by
    conv_lhs => rw [← List.take_append_drop 100 m.raw, ← List.take_append_drop 8 (m.raw.drop 100), hmode]
    simp
  have htake : (m.raw.take 100).length = 100 := by rw [List.length_take]; omega
  have hfield : m.nameField = (m.raw.take 100).takeWhile (· != 0) := rfl
  have hcname : m.cname = if m.nameField.length = 100 then m.raw.take 100 ++ (ds ++ 0 :: m.raw.drop 108).takeWhile (· != 0)
      else m.nameField := by
    rw [cname]
    conv_lhs => rw [hsplit]
    rw [List.takeWhile_append, htake, ← hfield]
  by_cases hn : m.nameField.length = 100
  · right
    refine ⟨hn, ds, hlen, hds, ?_⟩
    have hall : m.nameField = m.raw.take 100 := by
      rw [hfield]
      exact (List.takeWhile_prefix _).eq_of_length (by rw [← hfield, hn, htake])
    have hdigits : (ds ++ 0 :: m.raw.drop 108).takeWhile (· != 0) = ds := by
      rw [List.takeWhile_append_of_pos fun c hc => ?_]
      · simp
      · have := hds c hc
        simp only [bne_iff_ne]
        rintro rfl
        exact absurd this.1 (by decide)
    rw [hcname, if_pos hn, hdigits, hall]
  · left
    refine ⟨?_, by rw [hcname, if_neg hn]⟩
    have := (List.takeWhile_prefix (p := (· != 0)) (l := m.raw.take 100)).length_le
    rw [← hfield, htake] at this
    omega

theorem raw_cname (h : m.ModeOk) : ∃ t, m.raw = m.cname ++ 0 :: t := by
  obtain ⟨ds, _, _, hmode⟩ := h
  have hzero : (0 : UInt8) ∈ m.raw := by
    apply List.mem_of_mem_drop
    apply List.mem_of_mem_take
    rw [hmode]
    simp
  have hsplit : m.raw = m.cname ++ m.raw.dropWhile (· != 0) := (List.takeWhile_append_dropWhile).symm
  cases hd : m.raw.dropWhile (· != 0) with
  | nil => simpa using List.dropWhile_eq_nil_iff.mp hd 0 hzero
  | cons c t =>
    have hc := List.head?_dropWhile_not (· != 0) m.raw
    rw [hd] at hc
    have hc : c = 0 := by simpa using hc
    exact ⟨t, by rw [← hc, ← hd, ← hsplit]⟩

end Member

namespace Archive

open Ustar

variable {mem : BitVec 64 → UInt8} {base : BitVec 64} {a : Archive} {x : BitVec 64 × Member}

def pointTo : List (BitVec 64 × Member) → BitVec 64
  | [] => 0
  | x :: _ => x.1

theorem Loaded.addr_ne_zero (h : Loaded mem base a) (hx : x ∈ a.entries base) : x.1 ≠ 0 := by
  obtain ⟨e, he, rfl⟩ := List.mem_map.mp hx
  have hlt := h.lt he
  have htop := h.top
  intro hz
  have := congrArg BitVec.toNat hz
  rw [offset_toNat (by omega)] at this
  simp at this
  omega

theorem Loaded.next_entry (h : Loaded mem base a) {l₁ l₂ : List (BitVec 64 × Member)}
    (hs : a.entries base = l₁ ++ x :: l₂) : getTfsNext mem x.1 = pointTo l₂ := by
  have hc := h.chain
  rw [headers, hs, List.map_append, List.map_cons] at hc
  obtain ⟨q, _, hq, htail⟩ := seg_append.mp hc
  have hhead := chain_head htail
  rw [next, pointer] at hhead
  cases l₂ with
  | nil =>
    split at hhead
    · assumption
    · simp at hhead
  | cons y l₂ =>
    split at hhead
    · simp at hhead
    · exact Option.some.inj hhead

end Archive

namespace Ustar.Fs

variable {fs : Fs} {a : Archive} {filep : FileObj} {name : List UInt8} {z : BitVec 64 × Member} {n : ℕ}

theorem prefix_cname {m : Member} {l t : List UInt8} (hl : 0 ∉ l) (h : m.raw = m.cname ++ 0 :: t) :
    l <+: m.raw ↔ l <+: m.cname := by
  rw [h]
  refine ⟨fun hp => ?_, fun hp => hp.trans (List.prefix_append _ _)⟩
  rcases List.prefix_or_prefix_of_prefix hp (List.prefix_append m.cname (0 :: t)) with hle | ⟨s, hs⟩
  · exact hle
  · rw [← hs, List.prefix_append_right_inj] at hp
    cases s with
    | nil => rw [← hs, List.append_nil]
    | cons c s =>
      rw [List.cons_prefix_cons] at hp
      rw [← hs, hp.1] at hl
      simp at hl

theorem Maps.entry (h : fs.Maps a) (hz : z ∈ a.entries fs.first) {i : ℕ} (hi : i < z.2.length + 512) :
    fs.mapped (z.1 + BitVec.ofNat 64 i) = true := by
  obtain ⟨e, he, rfl⟩ := List.mem_map.mp hz
  have hend := (Archive.placed_range he).2
  rw [← Stored.shift_add]
  apply h
  rw [Archive.bytes, List.length_append, List.length_replicate]
  dsimp only at hi hend
  omega

theorem Maps.header (h : fs.Maps a) (hz : z ∈ a.entries fs.first) : fs.mapped z.1 = true := by
  simpa using h.entry hz (i := 0) (by omega)

theorem inKernel_maps {a : Archive} {mem : BitVec 64 → UInt8} {root : BitVec 64} (h : a.bytes.length ≤ 0xD00000) :
    (⟨mem, 0xFFFFFFFF80300000, root, inKernel⟩ : Fs).Maps a := by
  intro i hi
  change decide (0xFFFFFFFF80000000 ≤ 0xFFFFFFFF80300000 + BitVec.ofNat 64 i ∧
    0xFFFFFFFF80300000 + BitVec.ofNat 64 i < 0xFFFFFFFF81000000) = true
  apply decide_eq_true
  bv_omega

theorem nextHeader_entry (h : Archive.Loaded fs.mem fs.first a) (hm : fs.Maps a) (hz : z ∈ a.entries fs.first) :
    fs.nextHeader z.1 = some (getTfsNext fs.mem z.1) := by
  have hst := h.stored_entry hz
  rw [← List.append_nil z.2.bytes] at hst
  have hfollow : following fs.mem z.1 = z.1 + BitVec.ofNat 64 z.2.length := following_member hst
  exact if_pos (.inr (by rw [hfollow]; exact hm.entry hz (by omega)))

theorem readdirLoop_entry (h : Archive.Loaded fs.mem fs.first a) (hm : fs.Maps a) (hz : z ∈ a.entries fs.first)
    (hmode : z.2.ModeOk)
    (hdata : filep.data ≠ fs.root) (hname : 0 ∉ name) (hlen : name.length ≤ 512) :
    fs.readdirLoop name filep (n + 1) z.1 =
      if name <+: z.2.cname then
        if (z.2.cname.drop name.length).length < n then
          if slash ∈ z.2.cname.drop name.length then fs.readdirLoop name filep n z.1
          else some (32 + (z.2.cname.drop name.length).length, [fs.setDirent z.1 (z.2.cname.drop name.length)],
            { filep with offset := getTfsNext fs.mem z.1 })
        else none
      else some (0, [], { filep with offset := 0 }) := by
  obtain ⟨t, ht⟩ := Member.raw_cname hmode
  have hst : Stored fs.mem z.1 z.2.raw := by
    have := h.stored_entry hz
    rw [Member.bytes, List.append_assoc, Stored.append_iff] at this
    exact this.1
  have hcmp : memcmp fs.mem z.1 name = 0 ↔ name <+: z.2.cname := by
    rw [memcmp_eq_zero hst (by rw [z.2.raw_length]; exact hlen), prefix_cname hname ht]
  rw [readdirLoop, if_neg (h.addr_ne_zero hz), hm.header hz, if_neg (by decide), nextHeader_entry h hm hz]
  by_cases hp : name <+: z.2.cname
  · rw [if_neg fun hd => hd.2 (hcmp.mpr hp), if_pos hp]
    obtain ⟨rest, hrest⟩ := hp
    have hdrop : z.2.cname.drop name.length = rest := by rw [← hrest, List.drop_left]
    have hcstr : cstr fs.mem n (z.1 + BitVec.ofNat 64 name.length) = if rest.length < n then some rest else none := by
      rw [ht, ← hrest, List.append_assoc, Stored.append_iff] at hst
      refine cstr_eq hst.2 fun hr => Member.zero_notMem_cname (m := z.2) ?_
      rw [← hrest]
      exact List.mem_append_right _ hr
    rw [hcstr, hdrop]
    split
    · rfl
    · rfl
  · rw [if_pos ⟨hdata, mt hcmp.mp hp⟩, if_neg hp]

theorem tfsReaddir_root {fuel : ℕ} {r : ℤ × List Dirent × FileObj} (hroot : fs.root ≠ 0) (hdata : filep.data = fs.root)
    (hoff : filep.offset = fs.root) (hr : fs.fillRoot.tfsReaddir fuel filep = some r) :
    ∃ next, fs.fillRoot.nextHeader fs.root = some next ∧
      r = (32, [fs.fillRoot.setDirent fs.root []], { filep with offset := next }) := by
  obtain ⟨hfirst, hsecond⟩ := fillRoot_mem fs
  obtain ⟨name, hname, hloop⟩ := Option.bind_eq_some_iff.mp hr
  have hslash : name = [slash] := by
    rw [hdata] at hname
    cases fuel with
    | zero => cases hname
    | succ n =>
      rw [cstr, hfirst, if_neg (by decide)] at hname
      cases n with
      | zero => cases hname
      | succ n =>
        rw [cstr, if_pos hsecond] at hname
        exact (Option.some.inj hname).symm
  subst hslash
  cases fuel with
  | zero => cases hloop
  | succ n =>
    rw [hoff, readdirLoop, if_neg hroot] at hloop
    split at hloop
    · cases hloop
    · rw [if_neg fun hd => hd.1 hdata] at hloop
      obtain ⟨dname, hdname, hloop⟩ := Option.bind_eq_some_iff.mp hloop
      have hempty : dname = [] := by
        rw [show fs.root + BitVec.ofNat 64 [slash].length = fs.root + 1 from rfl] at hdname
        cases n with
        | zero => cases hdname
        | succ n =>
          rw [cstr, if_pos hsecond] at hdname
          exact (Option.some.inj hdname).symm
      subst hempty
      rw [if_neg List.not_mem_nil] at hloop
      obtain ⟨next, hnext, rfl⟩ := Option.map_eq_some_iff.mp hloop
      exact ⟨next, hnext, rfl⟩

def listing (pre : List UInt8) : List Member → Option (List (List UInt8))
  | [] => some []
  | m :: l =>
    if pre <+: m.cname then
      if slash ∈ m.cname.drop pre.length then none else (listing pre l).map (m.cname.drop pre.length :: ·)
    else some []

theorem readdirLoop_stuck (h : Archive.Loaded fs.mem fs.first a) (hm : fs.Maps a) (hz : z ∈ a.entries fs.first)
    (hmode : z.2.ModeOk) (hdata : filep.data ≠ fs.root) (hname : 0 ∉ name) (hlen : name.length ≤ 512) (hp : name <+: z.2.cname)
    (hs : slash ∈ z.2.cname.drop name.length) : fs.readdirLoop name filep n z.1 = none := by
  induction n with
  | zero => rfl
  | succ n ih =>
    rw [readdirLoop_entry h hm hz hmode hdata hname hlen, if_pos hp, if_pos hs, ih]
    split <;> rfl

section Calls

variable {x : BitVec 64 × Member} {fuel : ℕ} {o : FileObj} {l₁ l₂ : List (BitVec 64 × Member)}

def called (fs : Fs) (o : FileObj) (pre : List UInt8) (z : BitVec 64 × Member) (l₂ : List (BitVec 64 × Member)) :
    Option (ℤ × List Dirent × FileObj) :=
  if pre <+: z.2.cname then
    if slash ∈ z.2.cname.drop pre.length then none
    else some (32 + (z.2.cname.drop pre.length).length, [fs.setDirent z.1 (z.2.cname.drop pre.length)],
      { o with offset := Archive.pointTo l₂ })
  else some (0, [], { o with offset := 0 })

theorem cname_length (hmode : z.2.ModeOk) : z.2.cname.length < 512 := by
  obtain ⟨t, ht⟩ := Member.raw_cname hmode
  have := congrArg List.length ht
  rw [z.2.raw_length, List.length_append, List.length_cons] at this
  omega

variable (h : Archive.Loaded fs.mem fs.first a) (hmodes : ∀ m ∈ a.members, m.ModeOk) (hx : x ∈ a.entries fs.first)
  (hm : fs.Maps a) (hroot : x.1 ≠ fs.root) (hdata : o.data = x.1)

omit h in
theorem modeOk_of_mem (hmodes : ∀ m ∈ a.members, m.ModeOk) (hz : z ∈ a.entries fs.first) : z.2.ModeOk := by
  apply hmodes
  rw [← Archive.entries_snd a fs.first]
  exact List.mem_map_of_mem hz

include h hmodes hx hdata

theorem cstr_name : cstr fs.mem fuel o.data = if x.2.cname.length < fuel then some x.2.cname else none := by
  obtain ⟨t, ht⟩ := Member.raw_cname (modeOk_of_mem hmodes hx)
  have hst := h.stored_entry hx
  rw [Member.bytes, List.append_assoc, Stored.append_iff, ht, ← hdata] at hst
  exact cstr_eq hst.1 Member.zero_notMem_cname

include hm hroot

theorem tfsReaddir_entry (hs : a.entries fs.first = l₁ ++ z :: l₂) (hpos : o.offset = z.1) :
    (fs.tfsReaddir fuel o = none ∨ fs.tfsReaddir fuel o = fs.called o x.2.cname z l₂) ∧
      (512 < fuel → fs.tfsReaddir fuel o = fs.called o x.2.cname z l₂) := by
  have hz : z ∈ a.entries fs.first := by rw [hs]; simp
  have hzm := modeOk_of_mem hmodes hz
  have hxlen := cname_length (modeOk_of_mem hmodes hx)
  have hzlen := cname_length hzm
  rw [tfsReaddir, cstr_name h hmodes hx hdata]
  by_cases hfuel : x.2.cname.length < fuel
  · obtain ⟨n, rfl⟩ : ∃ n, fuel = n + 1 := ⟨fuel - 1, by omega⟩
    have hne : o.data ≠ fs.root := by rw [hdata]; exact hroot
    have hloop := readdirLoop_entry (n := n) h hm hz hzm hne Member.zero_notMem_cname hxlen.le
    have hrest : (z.2.cname.drop x.2.cname.length).length < 512 := by rw [List.length_drop]; omega
    rw [if_pos hfuel, Option.bind_some, hpos, hloop, called, h.next_entry hs]
    by_cases hp : x.2.cname <+: z.2.cname
    · rw [if_pos hp, if_pos hp]
      by_cases hslash : slash ∈ z.2.cname.drop x.2.cname.length
      · rw [if_pos hslash, if_pos hslash,
          readdirLoop_stuck h hm hz hzm hne Member.zero_notMem_cname hxlen.le hp hslash]
        simp
      · rw [if_neg hslash, if_neg hslash]
        refine ⟨?_, fun hlarge => if_pos (by omega)⟩
        split
        · exact .inr rfl
        · exact .inl rfl
    · rw [if_neg hp, if_neg hp]
      exact ⟨.inr rfl, fun _ => rfl⟩
  · rw [if_neg hfuel]
    exact ⟨.inl rfl, fun hlarge => by omega⟩

omit hm hroot in
theorem tfsReaddir_end (hpos : o.offset = 0) :
    (fs.tfsReaddir fuel o = none ∨ fs.tfsReaddir fuel o = some (0, [], { o with offset := 0 })) ∧
      (512 < fuel → fs.tfsReaddir fuel o = some (0, [], { o with offset := 0 })) := by
  have hxlen := cname_length (modeOk_of_mem hmodes hx)
  rw [tfsReaddir, cstr_name h hmodes hx hdata, hpos]
  by_cases hfuel : x.2.cname.length < fuel
  · obtain ⟨n, rfl⟩ : ∃ n, fuel = n + 1 := ⟨fuel - 1, by omega⟩
    rw [if_pos hfuel, Option.bind_some, readdirLoop, if_pos rfl]
    exact ⟨.inr rfl, fun _ => rfl⟩
  · rw [if_neg hfuel]
    exact ⟨.inl rfl, fun hlarge => by omega⟩

theorem listing_of_readAll {ds : List Dirent} (hs : a.entries fs.first = l₁ ++ l₂)
    (hpos : o.offset = Archive.pointTo l₂) (hds : fs.readAll fuel n o = some ds) :
    listing x.2.cname (l₂.map Prod.snd) = some (ds.map Dirent.name) := by
  induction n generalizing o l₁ l₂ ds with
  | zero => simp [readAll] at hds
  | succ n ih =>
    rw [readAll, Option.bind_eq_some_iff] at hds
    obtain ⟨r, hr, hds⟩ := hds
    cases l₂ with
    | nil =>
      rcases (tfsReaddir_end h hmodes hx hdata hpos).1 with hn | he
      · rw [hn] at hr
        exact nomatch hr
      · rw [he, Option.some.injEq] at hr
        subst hr
        rw [← Option.some.inj hds]
        rfl
    | cons z l₂ =>
      rcases (tfsReaddir_entry h hmodes hx hm hroot hdata hs hpos).1 with hn | he
      · rw [hn] at hr
        exact nomatch hr
      · rw [he, called] at hr
        rw [List.map_cons, listing]
        by_cases hp : x.2.cname <+: z.2.cname
        · rw [if_pos hp] at hr ⊢
          by_cases hslash : slash ∈ z.2.cname.drop x.2.cname.length
          · simp [hslash] at hr
          · rw [if_neg hslash, Option.some.injEq] at hr
            subst hr
            dsimp only at hds
            rw [if_neg (by omega), Option.map_eq_some_iff] at hds
            obtain ⟨ds', hds', rfl⟩ := hds
            rw [if_neg hslash, ih (o := { o with offset := Archive.pointTo l₂ }) hdata (hs.trans (List.append_cons ..))
              rfl hds']
            rfl
        · rw [if_neg hp, Option.some.injEq] at hr
          subst hr
          rw [if_neg hp, ← Option.some.inj hds]
          rfl

theorem readAll_of_listing {l : List (List UInt8)} (hfuel : 512 < fuel) (hs : a.entries fs.first = l₁ ++ l₂)
    (hpos : o.offset = Archive.pointTo l₂) (hn : l₂.length < n) (hl : listing x.2.cname (l₂.map Prod.snd) = some l) :
    ∃ ds, fs.readAll fuel n o = some ds ∧ ds.map Dirent.name = l := by
  induction l₂ generalizing o l₁ n l with
  | nil =>
    obtain ⟨n, rfl⟩ : ∃ k, n = k + 1 := ⟨n - 1, by simp at hn; omega⟩
    refine ⟨[], ?_, Option.some.inj hl⟩
    rw [readAll, (tfsReaddir_end h hmodes hx hdata hpos).2 hfuel]
    rfl
  | cons z l₂ ih =>
    rw [List.length_cons] at hn
    obtain ⟨n, rfl⟩ : ∃ k, n = k + 1 := ⟨n - 1, by omega⟩
    rw [List.map_cons, listing] at hl
    rw [readAll, (tfsReaddir_entry h hmodes hx hm hroot hdata hs hpos).2 hfuel, called]
    by_cases hp : x.2.cname <+: z.2.cname
    · rw [if_pos hp] at hl ⊢
      by_cases hslash : slash ∈ z.2.cname.drop x.2.cname.length
      · simp [hslash] at hl
      · rw [if_neg hslash, Option.map_eq_some_iff] at hl
        obtain ⟨l, hl, rfl⟩ := hl
        rw [if_neg hslash, Option.bind_some]
        dsimp only
        rw [if_neg (by omega)]
        obtain ⟨ds, hds, rfl⟩ := ih (o := { o with offset := Archive.pointTo l₂ }) hdata (hs.trans (List.append_cons ..))
          rfl (n := n) (by omega) hl
        exact ⟨_, by rw [hds]; rfl, rfl⟩
    · rw [if_neg hp] at hl ⊢
      exact ⟨[], rfl, Option.some.inj hl⟩

end Calls

end Ustar.Fs

end Os506
