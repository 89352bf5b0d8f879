import Os506.Files.Listing
import Os506.Lib.Bytes

namespace Os506

open Bytes

def Dirent.store (d : Dirent) (buf : ℕ → UInt8) : ℕ → UInt8 :=
  put 18 [d.type] (put 16 (encode 2 d.reclen.toNat) (put 8 (encode 8 0) (put 32 d.name buf)))

def cstring (buf : ℕ → UInt8) : ℕ → ℕ → Option (List UInt8)
  | 0, _ => none
  | n + 1, a => if buf a = 0 then some [] else (cstring buf n (a + 1)).map (buf a :: ·)

namespace Ustar.Fs

/-- `tfs_readdir` with the buffer of the caller. The test that should refuse a small buffer asks whether an unsigned
size is negative. -/
def readdirInto (fs : Fs) (fuel : ℕ) (count : BitVec 32) (filep : FileObj) (buf : ℕ → UInt8) :
    Option (ℤ × (ℕ → UInt8) × FileObj) :=
  (fs.tfsReaddir fuel filep).map fun
    | (ret, [], filep) => (ret, buf, filep)
    | (ret, d :: _, filep') =>
      let size := BitVec.ofNat 32 (32 + d.name.length)
      if size < count ∧ size < 0 then (-5, buf, filep) else (ret, d.store buf, filep')

end Ustar.Fs

structure Recorded (count : ℕ) (name : List UInt8) (ret : ℤ) (buf buf' : ℕ → UInt8) : Prop where
  size : 32 + (name.length : ℤ) ≤ ret ∧ ret ≤ count
  rest : ∀ i ≥ count, buf' i = buf i
  reclen : (decode (peek buf' 16 2) : ℤ) = ret
  name : cstring buf' (count - 32) 32 = some name

def Ustar.Fs.Encodes (fs : Fs) (count : BitVec 32) (o : FileObj) (buf : ℕ → UInt8) (name : List UInt8) : Prop :=
  ∃ fuel ret buf' o', fs.readdirInto fuel count o buf = some (ret, buf', o') ∧
    (Recorded count.toNat name ret buf buf' ∨ ret < 0 ∧ buf' = buf ∧ o' = o)

section Buffer

variable {buf : ℕ → UInt8} {l r : List UInt8} {a n : ℕ} {d : Dirent}

theorem cstring_eq_some : cstring buf n a = some r ↔ r.length < n ∧ At buf a r ∧ 0 ∉ r ∧ buf (a + r.length) = 0 := by
  induction n generalizing a r with
  | zero => simp [cstring]
  | succ n ih =>
    rw [cstring]
    by_cases hz : buf a = 0
    · rw [if_pos hz]
      constructor
      · intro h
        obtain rfl := Option.some.inj h
        exact ⟨Nat.succ_pos n, rfl, List.not_mem_nil, hz⟩
      · rintro ⟨_, hat, hnot, _⟩
        cases r with
        | nil => rfl
        | cons b r =>
          rw [at_cons] at hat
          exact absurd (hat.1.symm.trans hz ▸ List.mem_cons_self) hnot
    · rw [if_neg hz, Option.map_eq_some_iff]
      constructor
      · rintro ⟨r', hr', rfl⟩
        obtain ⟨hlen, hat, hnot, hend⟩ := ih.mp hr'
        refine ⟨Nat.succ_lt_succ hlen, at_cons.mpr ⟨rfl, hat⟩, ?_, ?_⟩
        · rw [List.mem_cons, not_or]
          exact ⟨Ne.symm hz, hnot⟩
        · rw [List.length_cons, Nat.add_comm r'.length, ← Nat.add_assoc]
          exact hend
      · rintro ⟨hlen, hat, hnot, hend⟩
        cases r with
        | nil => exact absurd hend hz
        | cons b r =>
          obtain ⟨rfl, htail⟩ := at_cons.mp hat
          rw [List.mem_cons, not_or] at hnot
          refine ⟨r, ih.mpr ⟨Nat.lt_of_succ_lt_succ hlen, htail, hnot.2, ?_⟩, rfl⟩
          rw [Nat.add_assoc, Nat.add_comm 1]
          exact hend

theorem store_high {i : ℕ} (hi : 32 ≤ i) : d.store buf i = put 32 d.name buf i := by
  rw [Dirent.store, put_of_ge, put_of_ge, put_of_ge]
  · rw [length_encode]
    omega
  · rw [length_encode]
    omega
  · rw [List.length_singleton]
    omega

theorem store_name (d : Dirent) (buf : ℕ → UInt8) : At (d.store buf) 32 d.name := by
  rw [At, peek_congr fun i hi _ => store_high hi]
  exact at_put 32 d.name buf

theorem store_rest {i : ℕ} (hi : 32 + d.name.length ≤ i) : d.store buf i = buf i := by
  rw [store_high (by omega), put_of_ge hi]

theorem store_reclen (d : Dirent) (buf : ℕ → UInt8) : decode (peek (d.store buf) 16 2) = d.reclen.toNat := by
  rw [Dirent.store, peek_put_off (.inl (by decide))]
  have hat := at_put 16 (encode 2 d.reclen.toNat) (put 8 (encode 8 0) (put 32 d.name buf))
  rw [At, length_encode] at hat
  rw [hat, decode_encode d.reclen.isLt]

theorem recorded_iff (hl : d.name.length < 512) (hnul : 0 ∉ d.name) (hrec : d.reclen = BitVec.ofNat 16 (32 + d.name.length)) :
    Recorded n r (32 + d.name.length) buf (d.store buf) ↔ d.name = r ∧ 32 + r.length < n ∧ buf (32 + r.length) = 0 := by
  constructor
  · intro h
    obtain ⟨hlen, hat, hnot, hend⟩ := cstring_eq_some.mp h.name
    have hle : r.length ≤ d.name.length := by
      have := h.size.1
      omega
    have hsame : r.length = d.name.length := by
      by_contra hne
      have hlt : r.length < d.name.length := by omega
      rw [(store_name d buf).get hlt] at hend
      exact hnul (hend ▸ List.getElem_mem hlt)
    have heq : d.name = r := by
      have hname := store_name d buf
      rw [At, ← hsame] at hname
      rw [← hname, hat]
    refine ⟨heq, by omega, ?_⟩
    rwa [store_rest (by omega)] at hend
  · rintro ⟨rfl, hlt, hzero⟩
    refine ⟨⟨le_rfl, by omega⟩, fun i hi => store_rest (by omega), ?_, ?_⟩
    · rw [store_reclen, hrec, BitVec.toNat_ofNat]
      omega
    · refine cstring_eq_some.mpr ⟨by omega, store_name d buf, hnul, ?_⟩
      rwa [store_rest le_rfl]

end Buffer

namespace Ustar.Fs

variable {fs : Fs} {a : Archive} {x z : BitVec 64 × Member} {o : FileObj} {l₁ l₂ : List (BitVec 64 × Member)}
  {buf : ℕ → UInt8} {count : BitVec 32} {rel : List UInt8}

/-- The header of the entry is that of the directory followed by `rel`, in which there is no slash, and the buffer has
room for it and a NUL behind it. -/
structure Encodable (dir entry : Member) (count : BitVec 32) (buf : ℕ → UInt8) (rel : List UInt8) : Prop where
  header : entry.cname = dir.cname ++ rel
  flat : slash ∉ rel
  room : 32 + rel.length < count.toNat
  nul : buf (32 + rel.length) = 0

theorem readdirInto_entry {fuel : ℕ} (h : fs.tfsReaddir fuel o = fs.called o x.2.cname z l₂) :
    fs.readdirInto fuel count o buf =
      if x.2.cname <+: z.2.cname then
        if slash ∈ z.2.cname.drop x.2.cname.length then none
        else some (32 + ((z.2.cname.drop x.2.cname.length).length : ℤ),
          (fs.setDirent z.1 (z.2.cname.drop x.2.cname.length)).store buf, { o with offset := Archive.pointTo l₂ })
      else some (0, buf, { o with offset := 0 }) := by
  rw [readdirInto, h, called]
  split
  · split
    · rfl
    · rw [Option.map_some]
      exact congrArg some (if_neg fun hx => BitVec.not_lt_zero hx.2)
  · rfl

section Entry

variable (h : Archive.Loaded fs.mem fs.first a) (hmodes : ∀ m ∈ a.members, m.ModeOk) (hx : x ∈ a.entries fs.first)
  (hm : fs.Maps a) (hroot : x.1 ≠ fs.root) (hdata : o.data = x.1) (hs : a.entries fs.first = l₁ ++ z :: l₂)
  (hpos : o.offset = z.1)

include hmodes hs in
theorem entry_recorded_iff {n : ℕ} {r : List UInt8} :
    Recorded n r (32 + ((z.2.cname.drop x.2.cname.length).length : ℤ)) buf
        ((fs.setDirent z.1 (z.2.cname.drop x.2.cname.length)).store buf) ↔
      z.2.cname.drop x.2.cname.length = r ∧ 32 + r.length < n ∧ buf (32 + r.length) = 0 := by
  have hz : z ∈ a.entries fs.first := by rw [hs]; simp
  have hzlen := cname_length (modeOk_of_mem hmodes hz)
  have hlen : (z.2.cname.drop x.2.cname.length).length < 512 := by
    rw [List.length_drop]
    omega
  have hnul : 0 ∉ z.2.cname.drop x.2.cname.length := fun hin => Member.zero_notMem_cname (List.mem_of_mem_drop hin)
  exact recorded_iff (d := fs.setDirent z.1 (z.2.cname.drop x.2.cname.length)) hlen hnul rfl

include h hmodes hx hm hroot hdata hs hpos

theorem encodable_of_encodes (he : fs.Encodes count o buf rel) : Encodable x.2 z.2 count buf rel := by
  obtain ⟨fuel, ret, buf', o', hret, hout⟩ := he
  have hcall : fs.tfsReaddir fuel o = none ∨ fs.tfsReaddir fuel o = fs.called o x.2.cname z l₂ :=
    (tfsReaddir_entry h hmodes hx hm hroot hdata hs hpos).1
  rcases hcall with hnone | hcalled
  · rw [readdirInto, hnone] at hret
    cases hret
  · rw [readdirInto_entry hcalled] at hret
    by_cases hp : x.2.cname <+: z.2.cname
    · rw [if_pos hp] at hret
      by_cases hslash : slash ∈ z.2.cname.drop x.2.cname.length
      · rw [if_pos hslash] at hret
        cases hret
      · rw [if_neg hslash, Option.some.injEq, Prod.mk.injEq, Prod.mk.injEq] at hret
        obtain ⟨rfl, rfl, rfl⟩ := hret
        rcases hout with hr | ⟨hneg, _⟩
        · obtain ⟨rfl, hroom, hzero⟩ := (entry_recorded_iff hmodes hs).mp hr
          exact ⟨(List.prefix_iff_eq_append.mp hp).symm, hslash, hroom, hzero⟩
        · omega
    · rw [if_neg hp, Option.some.injEq, Prod.mk.injEq, Prod.mk.injEq] at hret
      obtain ⟨rfl, rfl, rfl⟩ := hret
      rcases hout with hr | ⟨hneg, _⟩
      · have := hr.size.1
        omega
      · omega

theorem encodes_of_encodable (he : Encodable x.2 z.2 count buf rel) : fs.Encodes count o buf rel := by
  have hdrop : z.2.cname.drop x.2.cname.length = rel := by rw [he.header, List.drop_left]
  have hp : x.2.cname <+: z.2.cname := ⟨rel, he.header.symm⟩
  have hcalled : fs.tfsReaddir 513 o = fs.called o x.2.cname z l₂ :=
    (tfsReaddir_entry h hmodes hx hm hroot hdata hs hpos).2 (by decide)
  have hrec := (entry_recorded_iff hmodes hs).mpr ⟨hdrop, he.room, he.nul⟩
  refine ⟨513, _, _, { o with offset := Archive.pointTo l₂ }, ?_, .inl hrec⟩
  rw [readdirInto_entry hcalled, if_pos hp, if_neg (hdrop ▸ he.flat)]

end Entry

theorem encodes_iff (h : Archive.Loaded fs.mem fs.first a) (hmodes : ∀ m ∈ a.members, m.ModeOk)
    (hx : x ∈ a.entries fs.first) (hm : fs.Maps a) (hroot : x.1 ≠ fs.root) (hdata : o.data = x.1)
    (hs : a.entries fs.first = l₁ ++ z :: l₂) (hpos : o.offset = z.1) (count : BitVec 32) (buf : ℕ → UInt8)
    (rel : List UInt8) :
    fs.Encodes count o buf rel ↔ Encodable x.2 z.2 count buf rel :=
  ⟨encodable_of_encodes h hmodes hx hm hroot hdata hs hpos, encodes_of_encodable h hmodes hx hm hroot hdata hs hpos⟩

def smallDir : FileObj := ⟨0xFFFFFFFF80300000, 0, 0xFFFFFFFF80300200, 1, 0⟩

theorem small_entry : ∃ x ∈ Archive.small.entries 0xFFFFFFFF80300000, x.1 = 0xFFFFFFFF80300000 ∧
    x.2.cname = ascii "bin/" ∧ ∃ z ∈ Archive.small.entries 0xFFFFFFFF80300000, z.1 = 0xFFFFFFFF80300200 ∧
      z.2.cname = ascii "bin/ls" ∧ z.2.name = x.2.name ++ ascii "ls" := by decide +kernel

theorem encodes_small :
    let fs : Fs := ⟨Archive.small.image 0xFFFFFFFF80300000, 0xFFFFFFFF80300000, 0xFFFFFFFF80250000, inKernel⟩
    fs.Encodes 512 smallDir (fun _ => 0) (ascii "ls") := by
  intro fs
  have h : Archive.Loaded fs.mem fs.first .small := Archive.image_loaded (by decide) (by decide +kernel)
  obtain ⟨x, hx, haddr, hname, z, hz, hpos, hentry, _⟩ := small_entry
  obtain ⟨l₁, l₂, hs⟩ := List.append_of_mem hz
  apply (encodes_iff h small_modes hx (inKernel_maps (by decide +kernel)) (by rw [haddr]; decide) haddr.symm hs hpos.symm
    512 _ _).mpr
  exact ⟨by rw [hname, hentry]; decide, by decide, by decide, rfl⟩

theorem encodes_fails_on_stale_bytes :
    let fs : Fs := ⟨Archive.small.image 0xFFFFFFFF80300000, 0xFFFFFFFF80300000, 0xFFFFFFFF80250000, inKernel⟩
    (fs.readdirInto 513 512 smallDir (fun _ => 0x61)).map (fun r => (r.1, peek r.2.1 32 4)) = some (34, ascii "lsaa") ∧
      ¬ fs.Encodes 512 smallDir (fun _ => 0x61) (ascii "ls") := by
  intro fs
  have h : Archive.Loaded fs.mem fs.first .small := Archive.image_loaded (by decide) (by decide +kernel)
  obtain ⟨x, hx, haddr, hname, z, hz, hpos, hentry, _⟩ := small_entry
  obtain ⟨l₁, l₂, hs⟩ := List.append_of_mem hz
  refine ⟨by decide +kernel, fun he => ?_⟩
  have hnul := (encodable_of_encodes h small_modes hx (inKernel_maps (by decide +kernel)) (by rw [haddr]; decide) haddr.symm
    hs hpos.symm he).nul
  exact absurd hnul (by decide)

end Ustar.Fs

end Os506
