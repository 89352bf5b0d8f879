import Os506.Lib.Linked
import Os506.Lib.Stored
import Os506.Files.Tarfs

namespace Os506

open Linked

/-- A member of a ustar archive as `tar` writes it: the header, the data, and the rest of the last block. -/
structure Member where
  raw : List UInt8
  data : List UInt8
  pad : List UInt8
  raw_length : raw.length = 512
  named : raw.head? ≠ some 0
  digits : ∀ c ∈ (raw.drop 124).take 11, 48 ≤ c ∧ c ≤ 55
  size : ((raw.drop 124).take 11).foldl (fun n c => n * 8 + (c.toNat - 48)) 0 = data.length
  size_lt : data.length < 2 ^ 31
  padded : (data.length + pad.length) % 512 = 0 ∧ pad.length < 512

structure Archive where
  members : List Member
  nonempty : members ≠ []

namespace Member

def bytes (m : Member) : List UInt8 := m.raw ++ m.data ++ m.pad

def length (m : Member) : ℕ := m.bytes.length

end Member

namespace Archive

def bytes (a : Archive) : List UInt8 := a.members.flatMap Member.bytes ++ List.replicate 512 0

def placed : ℕ → List Member → List (ℕ × Member)
  | _, [] => []
  | off, m :: l => (off, m) :: placed (off + m.length) l

def entries (a : Archive) (base : BitVec 64) : List (BitVec 64 × Member) :=
  (placed 0 a.members).map fun e => (base + BitVec.ofNat 64 e.1, e.2)

def headers (a : Archive) (base : BitVec 64) : List (BitVec 64) := (a.entries base).map Prod.fst

def dataBlocks (a : Archive) (base : BitVec 64) : List (BitVec 64) :=
  (placed 0 a.members).flatMap fun e =>
    (List.range (e.2.length / 512 - 1)).map fun k => base + BitVec.ofNat 64 (e.1 + 512 * (k + 1))

/-- The archive stands in memory, within the top 2 GB of the address space. -/
structure Loaded (mem : BitVec 64 → UInt8) (base : BitVec 64) (a : Archive) : Prop where
  top : 2 ^ 64 - 2 ^ 31 ≤ base.toNat
  fits : base.toNat + a.bytes.length ≤ 2 ^ 64
  stored : Stored mem base a.bytes

end Archive

namespace Ustar

def bytesAt (mem : BitVec 64 → UInt8) (a : BitVec 64) (n : ℕ) : List UInt8 :=
  (List.range n).map fun k => mem (a + BitVec.ofNat 64 k)

def following (mem : BitVec 64 → UInt8) (hdr : BitVec 64) : BitVec 64 :=
  let size := Tarfs.octToBin (bytesAt mem (hdr + 124) 12)
  if 0 < size then hdr + 512 * ((511 + size) / 512 + 1) else hdr + 512

def getTfsNext (mem : BitVec 64 → UInt8) (hdr : BitVec 64) : BitVec 64 :=
  if hdr = 0 then 0
  else if mem hdr = 0 then 0
  else if mem (following mem hdr) = 0 then 0
  else following mem hdr

def pointer (p : BitVec 64) : Option (BitVec 64) := if p = 0 then none else some p

def next (mem : BitVec 64 → UInt8) (hdr : BitVec 64) : Option (BitVec 64) := pointer (getTfsNext mem hdr)

variable {mem : BitVec 64 → UInt8} {base p : BitVec 64}

theorem bytesAt_eq {l : List UInt8} {n : ℕ} (h : Stored mem p l) (hn : n ≤ l.length) : bytesAt mem p n = l.take n := by
  apply List.ext_getElem
  · simp [bytesAt, hn]
  · intro k h₁ h₂
    have hk : k < n := by simpa [bytesAt] using h₁
    simp only [bytesAt, List.getElem_map, List.getElem_range, List.getElem_take]
    exact h.get (hk.trans_le hn)

theorem digit_eq {c : UInt8} (h : 48 ≤ c ∧ c ≤ 55) :
    c.toBitVec.signExtend 32 - 0x30 = BitVec.ofNat 32 (c.toNat - 48) := by
  have hall : ∀ n < 256, 48 ≤ n → n ≤ 55 →
      (BitVec.ofNat 8 n).signExtend 32 - 0x30 = BitVec.ofNat 32 (n - 48) := by decide +kernel
  have hc := hall c.toNat c.toNat_lt h.1 h.2
  rwa [show BitVec.ofNat 8 c.toNat = c.toBitVec from by simp] at hc

theorem octToBin_digits {l : List UInt8} {d : UInt8} (hl : ∀ c ∈ l, 48 ≤ c ∧ c ≤ 55) :
    Tarfs.octToBin (l ++ [d]) =
      (BitVec.ofNat 32 (l.foldl (fun n c => n * 8 + (c.toNat - 48)) 0)).signExtend 64 := by
  have hfold : ∀ (l : List UInt8) (x : ℕ), (∀ c ∈ l, 48 ≤ c ∧ c ≤ 55) →
      l.foldl (fun (num : BitVec 32) c => (num <<< 3) + (c.toBitVec.signExtend 32 - 0x30)) (BitVec.ofNat 32 x) =
        BitVec.ofNat 32 (l.foldl (fun n c => n * 8 + (c.toNat - 48)) x) := by
    intro l
    induction l with
    | nil => exact fun x _ => rfl
    | cons c l ih =>
      intro x hl
      have hstep : (BitVec.ofNat 32 x <<< 3) + (c.toBitVec.signExtend 32 - 0x30) =
          BitVec.ofNat 32 (x * 8 + (c.toNat - 48)) := by
        rw [digit_eq (hl c List.mem_cons_self), BitVec.ofNat_add, BitVec.shiftLeft_eq_mul_twoPow, BitVec.ofNat_mul]
        rfl
      rw [List.foldl_cons, List.foldl_cons, hstep]
      exact ih _ fun b hb => hl b (List.mem_cons_of_mem c hb)
  rw [Tarfs.octToBin, List.dropLast_concat, show (0 : BitVec 32) = BitVec.ofNat 32 0 from rfl, hfold l 0 hl]

theorem signExtend_ofNat_iff {n : ℕ} (h : n < 2 ^ 33) :
    (BitVec.ofNat 32 n).signExtend 64 = BitVec.ofNat 64 n ↔ n < 2 ^ 31 := by
  rw [← BitVec.toInt_inj, BitVec.toInt_signExtend_of_le (by decide), BitVec.toInt_ofNat', BitVec.toInt_ofNat']
  have hwide : Int.bmod (n : ℤ) (2 ^ 64) = n := by
    apply Int.bmod_eq_of_le <;> omega
  rw [hwide, Int.bmod_def]
  split <;> omega

theorem octToBin_eq {l : List UInt8} {d : UInt8} (hl : ∀ c ∈ l, 48 ≤ c ∧ c ≤ 55)
    (hn : l.foldl (fun n c => n * 8 + (c.toNat - 48)) 0 < 2 ^ 31) :
    Tarfs.octToBin (l ++ [d]) = BitVec.ofNat 64 (l.foldl (fun n c => n * 8 + (c.toNat - 48)) 0) := by
  rw [octToBin_digits hl, (signExtend_ofNat_iff (hn.trans (by decide))).mpr hn]

def octal : ℕ → ℕ → List UInt8
  | 0, _ => []
  | k + 1, n => octal k (n / 8) ++ [UInt8.ofNat (48 + n % 8)]

theorem length_octal (k n : ℕ) : (octal k n).length = k := by
  induction k generalizing n with
  | zero => rfl
  | succ k ih => rw [octal, List.length_append, ih, List.length_singleton]

theorem toNat_octal_digit (n : ℕ) : (UInt8.ofNat (48 + n % 8)).toNat = 48 + n % 8 := by
  rw [UInt8.toNat_ofNat']
  omega

theorem octal_digits {k n : ℕ} : ∀ c ∈ octal k n, 48 ≤ c ∧ c ≤ 55 := by
  induction k generalizing n with
  | zero => exact fun _ hc => absurd hc List.not_mem_nil
  | succ k ih =>
    intro c hc
    rcases List.mem_append.mp hc with hc | hc
    · exact ih c hc
    · obtain rfl := List.mem_singleton.mp hc
      rw [UInt8.le_iff_toNat_le, UInt8.le_iff_toNat_le, toNat_octal_digit]
      change 48 ≤ _ ∧ _ ≤ 55
      omega

theorem foldl_octal {k n : ℕ} (h : n < 8 ^ k) : (octal k n).foldl (fun n c => n * 8 + (c.toNat - 48)) 0 = n := by
  induction k generalizing n with
  | zero =>
    rw [Nat.pow_zero] at h
    simp [octal]
    omega
  | succ k ih =>
    rw [Nat.pow_succ] at h
    rw [octal, List.foldl_append, ih (by omega), List.foldl_cons, List.foldl_nil, toNat_octal_digit]
    omega

theorem octToBin_octal_iff {n : ℕ} (h : n < 8 ^ 11) (d : UInt8) :
    Tarfs.octToBin (octal 11 n ++ [d]) = BitVec.ofNat 64 n ↔ n < 2 ^ 31 := by
  rw [octToBin_digits octal_digits, foldl_octal h, signExtend_ofNat_iff h]

theorem octToBin_octal_small : Tarfs.octToBin (octal 11 513 ++ [0]) = 513 :=
  (octToBin_octal_iff (by decide) 0).mpr (by decide)

theorem octToBin_fails_on_two_gib :
    octal 11 0x80000000 = [50, 48, 48, 48, 48, 48, 48, 48, 48, 48, 48] ∧
      Tarfs.octToBin (octal 11 0x80000000 ++ [0]) = 0xFFFFFFFF80000000 ∧
      Tarfs.octToBin (octal 11 0x80000000 ++ [0]) ≠ BitVec.ofNat 64 0x80000000 ∧
      Tarfs.octToBin (octal 11 0x100000000 ++ [0]) = 0 := by
  decide +kernel

theorem length_eq (m : Member) : m.length = 512 * ((511 + m.data.length) / 512 + 1) := by
  have hraw := m.raw_length
  obtain ⟨hmod, hpad⟩ := m.padded
  simp only [Member.length, Member.bytes, List.length_append]
  omega

theorem head_ne_zero {m : Member} {l : List UInt8} (h : Stored mem p (m.bytes ++ l)) : mem p ≠ 0 := by
  have hraw := m.raw_length
  have hnamed := m.named
  rw [Member.bytes] at h
  cases hr : m.raw with
  | nil => simp [hr] at hraw
  | cons c r =>
    rw [hr] at h hnamed
    rw [h.1]
    exact fun hc => hnamed (by simp [hc])

theorem octToBin_member {m : Member} {l : List UInt8} (h : Stored mem p (m.bytes ++ l)) :
    Tarfs.octToBin (bytesAt mem (p + 124) 12) = BitVec.ofNat 64 m.data.length := by
  have hraw := m.raw_length
  have hlt := m.size_lt
  have hhdr : Stored mem p (m.raw.take 124 ++ m.raw.drop 124) := by
    rw [List.take_append_drop]
    rw [Member.bytes, List.append_assoc, List.append_assoc] at h
    exact (Stored.append_iff.mp h).1
  have hfield : Stored mem (p + 124) (m.raw.drop 124) := by
    have := (Stored.append_iff.mp hhdr).2
    rwa [List.length_take, hraw] at this
  have hdigits : (m.raw.drop 124).take 12 = (m.raw.drop 124).take 11 ++ [(m.raw.drop 124).getD 11 0] := by
    rw [List.take_add_one, List.getD_eq_getElem?_getD]
    have h11 : 11 < (m.raw.drop 124).length := by rw [List.length_drop, hraw]; decide
    rw [List.getElem?_eq_getElem h11]
    rfl
  rw [bytesAt_eq hfield (by rw [List.length_drop, hraw]; decide), hdigits,
    octToBin_eq m.digits (by rw [m.size]; exact hlt), m.size]

theorem following_member {m : Member} {l : List UInt8} (h : Stored mem p (m.bytes ++ l)) :
    following mem p = p + BitVec.ofNat 64 m.length := by
  have hlt := m.size_lt
  simp only [following, octToBin_member h, length_eq m]
  generalize m.data.length = n at hlt
  split
  · apply congrArg (p + ·)
    apply BitVec.eq_of_toNat_eq
    simp only [BitVec.ofNat_eq_ofNat, BitVec.toNat_mul, BitVec.toNat_add, BitVec.toNat_udiv, BitVec.toNat_ofNat,
      Nat.reducePow, Nat.reduceMod]
    omega
  · rename_i hz
    have hn : n = 0 := by
      rw [BitVec.lt_def, BitVec.toNat_ofNat] at hz
      simp at hz
      omega
    rw [hn]
    rfl

theorem getTfsNext_member {m : Member} {l : List UInt8} (hp : p ≠ 0) (h : Stored mem p (m.bytes ++ l)) :
    getTfsNext mem p = if mem (p + BitVec.ofNat 64 m.length) = 0 then 0 else p + BitVec.ofNat 64 m.length := by
  rw [getTfsNext, if_neg hp, if_neg (head_ne_zero h), following_member h]

theorem offset_toNat {off : ℕ} (h : base.toNat + off < 2 ^ 64) :
    (base + BitVec.ofNat 64 off).toNat = base.toNat + off := by
  rw [BitVec.toNat_add, BitVec.toNat_ofNat]
  omega

theorem chain_placed {l : List Member} {off : ℕ} (hl : l ≠ []) (hbase : 0 < base.toNat)
    (hfits : base.toNat + off + (l.flatMap Member.bytes).length + 512 ≤ 2 ^ 64)
    (h : Stored mem (base + BitVec.ofNat 64 off) (l.flatMap Member.bytes ++ List.replicate 512 0)) :
    Chain (next mem) (some (base + BitVec.ofNat 64 off))
      ((Archive.placed off l).map fun e => base + BitVec.ofNat 64 e.1) := by
  induction l generalizing off with
  | nil => exact absurd rfl hl
  | cons m l ih =>
    rw [List.flatMap_cons, List.append_assoc] at h
    rw [List.flatMap_cons, List.length_append, show m.bytes.length = m.length from rfl] at hfits
    have hp : base + BitVec.ofNat 64 off ≠ 0 := fun hz => by
      have := congrArg BitVec.toNat hz
      rw [offset_toNat (by omega)] at this
      simp at this
      omega
    have hnext := getTfsNext_member hp h
    have hrest := (Stored.append_iff.mp h).2
    rw [← Stored.shift_add] at hnext hrest
    refine ⟨rfl, ?_⟩
    cases l with
    | nil =>
      have hend : mem (base + BitVec.ofNat 64 (off + m.length)) = 0 := hrest.1
      rw [hend, if_pos rfl] at hnext
      change pointer (getTfsNext mem (base + BitVec.ofNat 64 off)) = none
      rw [hnext]
      rfl
    | cons m' l =>
      have hsome : mem (base + BitVec.ofNat 64 (off + m.length)) ≠ 0 := by
        rw [List.flatMap_cons, List.append_assoc] at hrest
        exact head_ne_zero hrest
      have hq : base + BitVec.ofNat 64 (off + m.length) ≠ 0 := fun hz => by
        have := congrArg BitVec.toNat hz
        rw [offset_toNat (by omega)] at this
        simp at this
        omega
      have hstep : next mem (base + BitVec.ofNat 64 off) = some (base + BitVec.ofNat 64 (off + m.length)) := by
        rw [next, hnext, if_neg hsome, pointer, if_neg hq]
      rw [hstep]
      exact ih (List.cons_ne_nil m' l) (by omega) hrest

end Ustar

namespace Archive

open Ustar

variable {mem : BitVec 64 → UInt8} {base : BitVec 64} {a : Archive} {l : List Member} {off : ℕ} {e e' : ℕ × Member}

theorem placed_snd : (placed off l).map Prod.snd = l := by
  induction l generalizing off with
  | nil => rfl
  | cons m l ih => simp [placed, ih]

theorem placed_range (he : e ∈ placed off l) : off ≤ e.1 ∧ e.1 + e.2.length ≤ off + (l.flatMap Member.bytes).length := by
  induction l generalizing off with
  | nil => cases he
  | cons m l ih =>
    rw [List.flatMap_cons, List.length_append, show m.bytes.length = m.length from rfl]
    rcases List.mem_cons.mp he with rfl | he
    · dsimp only
      omega
    · have := ih he
      omega

theorem placed_disjoint (he : e ∈ placed off l) (he' : e' ∈ placed off l) :
    e = e' ∨ e.1 + e.2.length ≤ e'.1 ∨ e'.1 + e'.2.length ≤ e.1 := by
  induction l generalizing off with
  | nil => cases he
  | cons m l ih =>
    rcases List.mem_cons.mp he with rfl | he
    · rcases List.mem_cons.mp he' with rfl | he'
      · exact .inl rfl
      · exact .inr (.inl (placed_range he').1)
    · rcases List.mem_cons.mp he' with rfl | he'
      · exact .inr (.inr (placed_range he).1)
      · exact ih he he'

theorem placed_stored {tail : List UInt8} (h : Stored mem (base + BitVec.ofNat 64 off) (l.flatMap Member.bytes ++ tail))
    (he : e ∈ placed off l) : Stored mem (base + BitVec.ofNat 64 e.1) e.2.bytes := by
  induction l generalizing off with
  | nil => cases he
  | cons m l ih =>
    rw [List.flatMap_cons, List.append_assoc, Stored.append_iff] at h
    rcases List.mem_cons.mp he with rfl | he
    · exact h.1
    · have hrest := h.2
      rw [← Stored.shift_add] at hrest
      exact ih hrest he

theorem entries_snd (a : Archive) (base : BitVec 64) : (a.entries base).map Prod.snd = a.members := by
  rw [entries, List.map_map]
  exact placed_snd

theorem length_headers : (a.headers base).length = a.members.length := by
  rw [← congrArg List.length (entries_snd a base), headers, List.length_map, List.length_map]

theorem length_bytes : a.bytes.length = (a.members.flatMap Member.bytes).length + 512 := by
  rw [bytes, List.length_append, List.length_replicate]

theorem Loaded.lt (h : Loaded mem base a) (he : e ∈ placed 0 a.members) : base.toNat + e.1 + e.2.length < 2 ^ 64 := by
  have := placed_range he
  have := h.fits
  rw [length_bytes] at this
  omega

theorem Loaded.chain (h : Loaded mem base a) : Chain (next mem) (some base) (a.headers base) := by
  have hpos : 0 < base.toNat := by
    have := h.top
    omega
  have hend : base.toNat + 0 + (a.members.flatMap Member.bytes).length + 512 ≤ 2 ^ 64 := by
    rw [Nat.add_zero, Nat.add_assoc, ← length_bytes]
    exact h.fits
  have hzero : base + BitVec.ofNat 64 0 = base := BitVec.add_zero base
  have hst := h.stored
  rw [← hzero, bytes] at hst
  have hc := chain_placed a.nonempty hpos hend hst
  rw [hzero] at hc
  rw [headers, entries, List.map_map]
  exact hc

theorem Loaded.stored_entry (h : Loaded mem base a) {x : BitVec 64 × Member} (hx : x ∈ a.entries base) :
    Stored mem x.1 x.2.bytes := by
  obtain ⟨e, he, rfl⟩ := List.mem_map.mp hx
  have hst := h.stored
  rw [← show base + BitVec.ofNat 64 0 = base from BitVec.add_zero base, bytes] at hst
  exact placed_stored hst he

theorem Loaded.no_data_block (h : Loaded mem base a) : ∀ p ∈ a.dataBlocks base, p ∉ a.headers base := by
  intro p hp hp'
  obtain ⟨e, he, hblock⟩ := List.mem_flatMap.mp hp
  obtain ⟨k, hrange, rfl⟩ := List.mem_map.mp hblock
  rw [headers, entries, List.map_map] at hp'
  obtain ⟨e', he', heq⟩ := List.mem_map.mp hp'
  have hk := List.mem_range.mp hrange
  have hlt := h.lt he
  have hlt' := h.lt he'
  have hoff := offset_inj (by omega) (by omega) heq
  rcases placed_disjoint he he' with rfl | hd | hd
  · omega
  · omega
  · omega

theorem getTfsNext_visits (h : Loaded mem base a) :
    Chain (next mem) (some base) (a.headers base) ∧ (a.headers base).Nodup ∧
      (a.entries base).map Prod.snd = a.members ∧ (∀ x ∈ a.entries base, Stored mem x.1 x.2.bytes) ∧
      ∀ p ∈ a.dataBlocks base, p ∉ a.headers base := by
  exact ⟨h.chain, chain_nodup h.chain, entries_snd a base, fun x hx => h.stored_entry hx, h.no_data_block⟩

def image (a : Archive) (base p : BitVec 64) : UInt8 := a.bytes.getD (p - base).toNat 0

theorem image_loaded (htop : 2 ^ 64 - 2 ^ 31 ≤ base.toNat) (hfits : base.toNat + a.bytes.length ≤ 2 ^ 64) :
    Loaded (a.image base) base a := by
  refine ⟨htop, hfits, ?_⟩
  have hget : ∀ l₁ l₂, a.bytes = l₁ ++ l₂ → Stored (a.image base) (base + BitVec.ofNat 64 l₁.length) l₂ := by
    intro l₁ l₂
    induction l₂ generalizing l₁ with
    | nil => exact fun _ => trivial
    | cons b l₂ ih =>
      intro he
      have hlen := congrArg List.length he
      rw [List.length_append, List.length_cons] at hlen
      have hoff : (base + BitVec.ofNat 64 l₁.length - base).toNat = l₁.length := by
        rw [BitVec.add_comm, BitVec.add_sub_cancel, BitVec.toNat_ofNat]
        apply Nat.mod_eq_of_lt
        omega
      constructor
      · rw [image, hoff, he]
        simp
      · have := ih (l₁ ++ [b]) (by rw [he, List.append_assoc]; rfl)
        rwa [List.length_append, List.length_singleton, Stored.shift_add] at this
  have := hget [] a.bytes rfl
  rwa [List.length_nil, show BitVec.ofNat 64 0 = 0#64 from rfl, BitVec.add_zero] at this

end Archive

section Make

open Ustar

def ustarHeader (name pre : List UInt8) (typeflag : UInt8) (size : ℕ) : List UInt8 :=
  name ++ List.replicate (100 - name.length) 0 ++ [48, 48, 48, 48, 54, 52, 52, 0] ++ List.replicate 16 0 ++
    (octal 11 size ++ List.replicate 21 0 ++ [typeflag] ++ List.replicate 188 0 ++
      pre ++ List.replicate (155 - pre.length) 0 ++ List.replicate 12 0)

theorem ustarHeader_size {name pre : List UInt8} {typeflag : UInt8} {size : ℕ} (h : name.length ≤ 100) :
    ((ustarHeader name pre typeflag size).drop 124).take 11 = octal 11 size := by
  have hlen : (name ++ List.replicate (100 - name.length) 0 ++ [48, 48, 48, 48, 54, 52, 52, 0] ++
      List.replicate 16 (0 : UInt8)).length = 124 := by simp; omega
  rw [ustarHeader, ← hlen, List.drop_left]
  simp only [List.append_assoc]
  exact List.take_left' (length_octal 11 size)

def Member.make (name pre : List UInt8) (typeflag : UInt8) (data : List UInt8) (hname : name.length ≤ 100)
    (hpre : pre.length ≤ 155) (hne : name ≠ []) (hhead : name.head? ≠ some 0) (hdata : data.length < 2 ^ 31) : Member where
  raw := ustarHeader name pre typeflag data.length
  data := data
  pad := List.replicate ((512 - data.length % 512) % 512) 0
  raw_length := by
    simp only [ustarHeader, length_octal, List.length_append, List.length_replicate, List.length_cons, List.length_nil]
    omega
  named := by
    simp only [ustarHeader, List.append_assoc]
    cases name with
    | nil => exact absurd rfl hne
    | cons c l => exact hhead
  digits := by
    rw [ustarHeader_size hname]
    exact octal_digits
  size := by
    rw [ustarHeader_size hname]
    exact foldl_octal (hdata.trans (by decide))
  size_lt := hdata
  padded := by rw [List.length_replicate]; omega

end Make

theorem Member.pre_nil : ([] : List UInt8).length ≤ 155 := by decide

theorem Member.data_nil : ([] : List UInt8).length < 2 ^ 31 := by decide

theorem Member.data_one : ([1] : List UInt8).length < 2 ^ 31 := by decide

def ascii (s : String) : List UInt8 := s.toList.map fun c => UInt8.ofNat c.toNat

namespace Archive

def small : Archive where
  members := [
    .make (ascii "bin/") [] 0x35 [] (by decide) Member.pre_nil (by decide) (by decide) Member.data_nil,
    .make (ascii "bin/ls") [] 0x30 (List.replicate 513 7) (by decide) Member.pre_nil (by decide) (by decide)
      (by decide +kernel),
    .make (ascii "etc") [] 0x30 [] (by decide) Member.pre_nil (by decide) (by decide) Member.data_nil]
  nonempty := List.cons_ne_nil _ _

theorem getTfsNext_visits_small :
    Linked.Chain (Ustar.next (small.image 0xFFFFFFFF80300000)) (some 0xFFFFFFFF80300000)
        (small.headers 0xFFFFFFFF80300000) ∧
      small.headers 0xFFFFFFFF80300000 = [0xFFFFFFFF80300000, 0xFFFFFFFF80300200, 0xFFFFFFFF80300800] :=
  ⟨(getTfsNext_visits (image_loaded (by decide) (by decide +kernel))).1, by decide +kernel⟩

end Archive

end Os506
