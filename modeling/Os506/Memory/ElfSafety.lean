import Os506.Memory.Elf
import Os506.Memory.Arguments

namespace Os506

open Mach Bytes

/-- The counts of `memmove` and `memset` are of type `uint`. -/
def Phdr.copied (h : Phdr) : ℕ := h.pFilesz.toNat % 2 ^ 32

def Phdr.cleared (h : Phdr) : ℕ := (h.size - h.pFilesz).toNat % 2 ^ 32

namespace Elf

inductive Access
  | read (a : BitVec 64) (n : ℕ)
  | write (a : BitVec 64) (n : ℕ)

variable (mem : BitVec 64 → UInt8) (ehdr : BitVec 64) (size : ℕ)

def phdrTrace (a : BitVec 64) : List Access :=
  let h := readPhdr mem a
  .read a 4 :: if h.isLoad then
    [.read (a + 16) 8, .read (a + 40) 8, .read (a + 4) 4, .read (a + 8) 8, .read (a + 32) 8,
      .read (ehdr + h.pOffset) h.copied, .write h.pVaddr h.copied, .write (h.pVaddr + h.pFilesz) h.cleared]
  else []

/-- Without a segment `traverse_vmas` reads the field `next` of a null pointer. -/
def loadTrace (stack : List (ℕ × ℕ)) : List Access :=
  (phdrAddrs mem ehdr).flatMap (phdrTrace mem ehdr) ++
    if loads (phdrs mem ehdr) = [] then [.read 32 8] else stack.map fun w => .write (BitVec.ofNat 64 w.1) w.2

def createElfProcess (stack : List (ℕ × ℕ)) : Option (List Access) :=
  if validateEhdr mem ehdr then some (loadTrace mem ehdr stack) else none

def Allowed (segs : List Phdr) (x : ℕ) : Prop :=
  x < userStackTop ∧ ((∃ h ∈ segs, h.pVaddr.toNat ≤ x ∧ x < h.pVaddr.toNat + h.pMemsz.toNat) ∨ userStackTop - 4096 ≤ x)

def Access.Ok (segs : List Phdr) : Access → Prop
  | .read a n => ∀ i < n, (a + BitVec.ofNat 64 i - ehdr).toNat < size
  | .write a n => ∀ i < n, Allowed segs (a + BitVec.ofNat 64 i).toNat

def Safe (stack : List (ℕ × ℕ)) : Prop :=
  ∀ l, createElfProcess mem ehdr stack = some l → ∀ x ∈ l, x.Ok ehdr size (loads (phdrs mem ehdr))

structure Sane : Prop where
  load : loads (phdrs mem ehdr) ≠ []
  table : ∀ a ∈ phdrAddrs mem ehdr, (a - ehdr).toNat + (if (readPhdr mem a).isLoad then 48 else 4) ≤ size
  bytes : ∀ h ∈ loads (phdrs mem ehdr), h.copied = 0 ∨ h.pOffset.toNat + h.copied ≤ size
  copies : ∀ h ∈ loads (phdrs mem ehdr), ∀ i < h.copied, Allowed (loads (phdrs mem ehdr)) (h.pVaddr + BitVec.ofNat 64 i).toNat
  clears : ∀ h ∈ loads (phdrs mem ehdr), ∀ i < h.cleared,
    Allowed (loads (phdrs mem ehdr)) (h.pVaddr + h.pFilesz + BitVec.ofNat 64 i).toNat

section Reads

variable {ehdr size} {a : BitVec 64} {n : ℕ}

theorem add_sub_shift (a b ehdr : BitVec 64) : a + b - ehdr = a - ehdr + b := by
  rw [BitVec.sub_eq_add_neg, BitVec.sub_eq_add_neg, BitVec.add_assoc, BitVec.add_comm b, ← BitVec.add_assoc]

theorem read_ok_iff (segs : List Phdr) (hkern : 2 ^ 63 ≤ ehdr.toNat) (hsize : ehdr.toNat + size ≤ 2 ^ 64) (hn : n < 2 ^ 32) :
    (Access.read a n).Ok ehdr size segs ↔ n = 0 ∨ (a - ehdr).toNat + n ≤ size := by
  have hoff : ∀ i < n, (a - ehdr).toNat < size → (a + BitVec.ofNat 64 i - ehdr).toNat = (a - ehdr).toNat + i := by
    intro i hi hlt
    rw [add_sub_shift, BitVec.toNat_add, BitVec.toNat_ofNat]
    omega
  have hfirst : a + BitVec.ofNat 64 0 - ehdr = a - ehdr := by
    rw [show BitVec.ofNat 64 0 = 0#64 from rfl, BitVec.add_zero]
  constructor
  · intro h
    rcases Nat.eq_zero_or_pos n with hz | hpos
    · exact .inl hz
    · have hlt := h 0 hpos
      rw [hfirst] at hlt
      have hlast := h (n - 1) (by omega)
      rw [hoff _ (by omega) hlt] at hlast
      exact .inr (by omega)
  · rintro (rfl | hle) i hi
    · omega
    · rw [hoff i hi (by omega)]
      omega

theorem fields_ok_iff (segs : List Phdr) (hkern : 2 ^ 63 ≤ ehdr.toNat) (hsize : ehdr.toNat + size ≤ 2 ^ 64) :
    ((Access.read a 4).Ok ehdr size segs ∧ (Access.read (a + 16) 8).Ok ehdr size segs ∧
      (Access.read (a + 40) 8).Ok ehdr size segs ∧ (Access.read (a + 4) 4).Ok ehdr size segs ∧
      (Access.read (a + 8) 8).Ok ehdr size segs ∧ (Access.read (a + 32) 8).Ok ehdr size segs) ↔
      (a - ehdr).toNat + 48 ≤ size := by
  have hoff : ∀ k < 64, (a - ehdr).toNat < size → (a + BitVec.ofNat 64 k - ehdr).toNat = (a - ehdr).toNat + k := by
    intro k hk hlt
    rw [add_sub_shift, BitVec.toNat_add, BitVec.toNat_ofNat]
    omega
  have h4 : (a + 4 - ehdr).toNat = (a + BitVec.ofNat 64 4 - ehdr).toNat := rfl
  have h8 : (a + 8 - ehdr).toNat = (a + BitVec.ofNat 64 8 - ehdr).toNat := rfl
  have h16 : (a + 16 - ehdr).toNat = (a + BitVec.ofNat 64 16 - ehdr).toNat := rfl
  have h32 : (a + 32 - ehdr).toNat = (a + BitVec.ofNat 64 32 - ehdr).toNat := rfl
  have h40 : (a + 40 - ehdr).toNat = (a + BitVec.ofNat 64 40 - ehdr).toNat := rfl
  simp only [read_ok_iff segs hkern hsize (n := 4) (by decide), read_ok_iff segs hkern hsize (n := 8) (by decide), h4, h8,
    h16, h32, h40]
  constructor
  · rintro ⟨h0, _, h, _⟩
    rw [hoff 40 (by decide) (by omega)] at h
    omega
  · intro h
    rw [hoff 4 (by decide) (by omega), hoff 8 (by decide) (by omega), hoff 16 (by decide) (by omega),
      hoff 32 (by decide) (by omega), hoff 40 (by decide) (by omega)]
    omega

end Reads

section Traces

variable {mem ehdr size} {a : BitVec 64} {segs : List Phdr}

structure Round (mem : BitVec 64 → UInt8) (ehdr : BitVec 64) (size : ℕ) (segs : List Phdr) (a : BitVec 64) : Prop where
  table : (a - ehdr).toNat + (if (readPhdr mem a).isLoad then 48 else 4) ≤ size
  bytes : (readPhdr mem a).isLoad → (readPhdr mem a).copied = 0 ∨ (readPhdr mem a).pOffset.toNat + (readPhdr mem a).copied ≤ size
  copies : (readPhdr mem a).isLoad → (Access.write (readPhdr mem a).pVaddr (readPhdr mem a).copied).Ok ehdr size segs
  clears : (readPhdr mem a).isLoad →
    (Access.write ((readPhdr mem a).pVaddr + (readPhdr mem a).pFilesz) (readPhdr mem a).cleared).Ok ehdr size segs

theorem phdrTrace_ok_iff (hkern : 2 ^ 63 ≤ ehdr.toNat) (hsize : ehdr.toNat + size ≤ 2 ^ 64) :
    (∀ x ∈ phdrTrace mem ehdr a, x.Ok ehdr size segs) ↔ Round mem ehdr size segs a := by
  have hback : ehdr + (readPhdr mem a).pOffset - ehdr = (readPhdr mem a).pOffset := by
    rw [BitVec.add_comm, BitVec.add_sub_cancel]
  have hbytes := read_ok_iff (a := ehdr + (readPhdr mem a).pOffset) (n := (readPhdr mem a).copied) segs hkern hsize
    (Nat.mod_lt _ (by decide))
  rw [hback] at hbytes
  rw [phdrTrace]
  by_cases hl : (readPhdr mem a).isLoad = true
  · rw [if_pos hl]
    simp only [List.forall_mem_cons, List.not_mem_nil, false_imp_iff, implies_true, and_true, hbytes]
    constructor
    · rintro ⟨h₁, h₂, h₃, h₄, h₅, h₆, h₇, h₈, h₉⟩
      refine ⟨?_, fun _ => h₇, fun _ => h₈, fun _ => h₉⟩
      rw [if_pos hl]
      exact (fields_ok_iff segs hkern hsize).mp ⟨h₁, h₂, h₃, h₄, h₅, h₆⟩
    · rintro ⟨htable, h₇, h₈, h₉⟩
      rw [if_pos hl] at htable
      obtain ⟨h₁, h₂, h₃, h₄, h₅, h₆⟩ := (fields_ok_iff segs hkern hsize).mpr htable
      exact ⟨h₁, h₂, h₃, h₄, h₅, h₆, h₇ hl, h₈ hl, h₉ hl⟩
  · rw [if_neg hl]
    rw [List.forall_mem_singleton, read_ok_iff segs hkern hsize (by decide)]
    constructor
    · intro h
      refine ⟨?_, fun h => absurd h hl, fun h => absurd h hl, fun h => absurd h hl⟩
      rw [if_neg hl]
      omega
    · rintro ⟨htable, _⟩
      rw [if_neg hl] at htable
      exact .inr htable

theorem mem_loads_iff {h : Phdr} : h ∈ loads (phdrs mem ehdr) ↔
    ∃ a ∈ phdrAddrs mem ehdr, readPhdr mem a = h ∧ (readPhdr mem a).isLoad = true := by
  rw [loads, List.mem_filter, phdrs, List.mem_map]
  constructor
  · rintro ⟨⟨a, ha, rfl⟩, hl⟩
    exact ⟨a, ha, rfl, hl⟩
  · rintro ⟨a, ha, rfl, hl⟩
    exact ⟨⟨a, ha, rfl⟩, hl⟩

theorem rounds_iff (hload : loads (phdrs mem ehdr) ≠ []) :
    (∀ a ∈ phdrAddrs mem ehdr, Round mem ehdr size (loads (phdrs mem ehdr)) a) ↔ Sane mem ehdr size := by
  constructor
  · intro h
    refine ⟨hload, fun a ha => (h a ha).table, ?_, ?_, ?_⟩
    all_goals
      intro g hg
      obtain ⟨a, ha, rfl, hl⟩ := mem_loads_iff.mp hg
    · exact (h a ha).bytes hl
    · exact (h a ha).copies hl
    · exact (h a ha).clears hl
  · intro h a ha
    refine ⟨h.table a ha, fun hl => ?_, fun hl => ?_, fun hl => ?_⟩
    · exact h.bytes _ (mem_loads_iff.mpr ⟨a, ha, rfl, hl⟩)
    · exact h.copies _ (mem_loads_iff.mpr ⟨a, ha, rfl, hl⟩)
    · exact h.clears _ (mem_loads_iff.mpr ⟨a, ha, rfl, hl⟩)

theorem stack_ok {argv envp : List (List UInt8)} {argBuf envBuf user : ℕ → UInt8} {s : Stack} (hfit : Fits argv envp)
    (hs : buildStack argv envp argBuf envBuf user = some s) {w : ℕ × ℕ} (hw : w ∈ s.writes) :
    (Access.write (BitVec.ofNat 64 w.1) w.2).Ok ehdr size segs := by
  obtain ⟨s', hs', htidy, hss, _⟩ := buildStack_spec hfit argBuf envBuf user
  obtain rfl := Option.some.inj (hs.symm.trans hs')
  have hle := hfit.length_layout_le s.ss
  have habove := htidy.above w hw
  simp only [userStackTop] at hss habove
  intro i hi
  rw [BitVec.toNat_add, BitVec.toNat_ofNat, BitVec.toNat_ofNat, Allowed, userStackTop]
  omega

end Traces

theorem safe_iff {argv envp : List (List UInt8)} {argBuf envBuf user : ℕ → UInt8} {s : Stack} {ehdr : BitVec 64} {size : ℕ}
    (hkern : 2 ^ 63 ≤ ehdr.toNat) (hsize : ehdr.toNat + size ≤ 2 ^ 64) (hfit : Fits argv envp)
    (hs : buildStack argv envp argBuf envBuf user = some s) :
    Safe mem ehdr size s.writes ↔ validateEhdr mem ehdr = false ∨ Sane mem ehdr size := by
  rw [Safe, createElfProcess]
  cases hv : validateEhdr mem ehdr with
  | false =>
    refine iff_of_true (fun l hl => ?_) (.inl rfl)
    cases hl
  | true =>
    simp only [if_true, Option.some.injEq, forall_eq', Bool.true_eq_false, false_or]
    rw [loadTrace, List.forall_mem_append, List.forall_mem_flatMap]
    simp only [phdrTrace_ok_iff hkern hsize]
    by_cases hload : loads (phdrs mem ehdr) = []
    · rw [if_pos hload]
      refine iff_of_false (fun h => ?_) fun h => h.load hload
      have hnull := (read_ok_iff _ hkern hsize (by decide)).mp (h.2 _ List.mem_cons_self)
      rw [BitVec.toNat_sub] at hnull
      change 8 = 0 ∨ (2 ^ 64 - ehdr.toNat + 32) % 2 ^ 64 + 8 ≤ size at hnull
      omega
    · rw [if_neg hload, rounds_iff hload]
      refine and_iff_left ?_
      intro x hx
      obtain ⟨w, hw, rfl⟩ := List.mem_map.mp hx
      exact stack_ok hfit hs hw

section Headers

variable {h : Phdr} {segs : List Phdr}

theorem size_mod (h : Phdr) : h.size.toNat % 2 ^ 32 = h.pMemsz.toNat % 2 ^ 32 := by
  rw [Phdr.size, BitVec.toNat_signExtend, BitVec.toNat_setWidth, BitVec.toNat_setWidth]
  split <;> omega

theorem writes_ok (hh : h ∈ segs) (hfile : h.pFilesz.toNat ≤ h.pMemsz.toNat)
    (htop : h.pVaddr.toNat + h.pMemsz.toNat ≤ userStackTop) :
    (∀ i < h.copied, Allowed segs (h.pVaddr + BitVec.ofNat 64 i).toNat) ∧
      ∀ i < h.cleared, Allowed segs (h.pVaddr + h.pFilesz + BitVec.ofNat 64 i).toNat := by
  have hcopied : h.copied ≤ h.pFilesz.toNat := Nat.mod_le _ _
  have hcleared : h.cleared ≤ h.pMemsz.toNat - h.pFilesz.toNat := by
    have := size_mod h
    rw [Phdr.cleared, BitVec.toNat_sub]
    omega
  simp only [userStackTop] at htop
  constructor
  · intro i hi
    have hx : (h.pVaddr + BitVec.ofNat 64 i).toNat = h.pVaddr.toNat + i := by
      rw [BitVec.toNat_add, BitVec.toNat_ofNat]
      omega
    rw [hx, Allowed, userStackTop]
    exact ⟨by omega, .inl ⟨h, hh, by omega, by omega⟩⟩
  · intro i hi
    have hx : (h.pVaddr + h.pFilesz + BitVec.ofNat 64 i).toNat = h.pVaddr.toNat + h.pFilesz.toNat + i := by
      rw [BitVec.toNat_add, BitVec.toNat_add, BitVec.toNat_ofNat]
      omega
    rw [hx, Allowed, userStackTop]
    exact ⟨by omega, .inl ⟨h, hh, by omega, by omega⟩⟩

end Headers

def elfFile (offset vaddr filesz memsz : ℕ) : List UInt8 :=
  [0x7F, 0x45, 0x4C, 0x46] ++ List.replicate 12 0 ++ encode 2 2 ++ encode 2 62 ++ encode 4 1 ++ encode 8 vaddr ++
    encode 8 64 ++ encode 8 0 ++ encode 4 0 ++ encode 2 64 ++ encode 2 56 ++ encode 2 1 ++ List.replicate 6 0 ++
    encode 4 1 ++ encode 4 5 ++ encode 8 offset ++ encode 8 vaddr ++ encode 8 vaddr ++ encode 8 filesz ++ encode 8 memsz ++
    encode 8 4096

def kernel (ehdr : BitVec 64) (file : List UInt8) (a : BitVec 64) : UInt8 := file.getD (a - ehdr).toNat 0

theorem phdrAddrs_small : phdrAddrs (kernel 0xFFFFFFFF80300000 (elfFile 64 0x400000 56 0x1000)) 0xFFFFFFFF80300000 =
    [0xFFFFFFFF80300040] := by decide +kernel

theorem readPhdr_small : readPhdr (kernel 0xFFFFFFFF80300000 (elfFile 64 0x400000 56 0x1000)) 0xFFFFFFFF80300040 =
    ⟨1, 64, 0x400000, 56, 0x1000⟩ := by decide +kernel

theorem loads_small : loads (phdrs (kernel 0xFFFFFFFF80300000 (elfFile 64 0x400000 56 0x1000)) 0xFFFFFFFF80300000) =
    [⟨1, 64, 0x400000, 56, 0x1000⟩] := by
  rw [phdrs, phdrAddrs_small, List.map_singleton, readPhdr_small]
  rfl

theorem safe_small : ∃ s, buildStack [[97]] [] (fun _ => 0) (fun _ => 0) (fun _ => 0) = some s ∧
    Safe (kernel 0xFFFFFFFF80300000 (elfFile 64 0x400000 56 0x1000)) 0xFFFFFFFF80300000 120 s.writes := by
  have hfit : Fits [[97]] [] := ⟨by decide, by decide, by decide, by decide⟩
  obtain ⟨s, hs, _⟩ := buildStack_spec hfit (fun _ => 0) (fun _ => 0) fun _ => 0
  refine ⟨s, hs, (safe_iff _ (by decide) (by decide) hfit hs).mpr (.inr ?_)⟩
  have hwrites := writes_ok (List.mem_singleton_self (⟨1, 64, 0x400000, 56, 0x1000⟩ : Phdr)) (by decide) (by decide)
  have haddrs := phdrAddrs_small
  have hphdr := readPhdr_small
  have hloads := loads_small
  -- the memory is long enough to slow down every step that looks at it
  generalize kernel 0xFFFFFFFF80300000 (elfFile 64 0x400000 56 0x1000) = mem at haddrs hphdr hloads ⊢
  refine ⟨?_, ?_, ?_, ?_, ?_⟩
  · rw [hloads]
    exact List.cons_ne_nil _ _
  · rw [haddrs, List.forall_mem_singleton, hphdr]
    decide
  · rw [hloads, List.forall_mem_singleton]
    decide
  · rw [hloads, List.forall_mem_singleton]
    exact hwrites.1
  · rw [hloads, List.forall_mem_singleton]
    exact hwrites.2

theorem kernel_vaddr_written : ∃ l,
    createElfProcess (kernel 0xFFFFFFFF80300000 (elfFile 64 0xFFFFFFFF80200000 1 1)) 0xFFFFFFFF80300000 [] = some l ∧
      Access.write 0xFFFFFFFF80200000 1 ∈ l ∧
      ¬ Safe (kernel 0xFFFFFFFF80300000 (elfFile 64 0xFFFFFFFF80200000 1 1)) 0xFFFFFFFF80300000 120 [] := by
  obtain ⟨mem, hmem⟩ : ∃ mem, mem = kernel 0xFFFFFFFF80300000 (elfFile 64 0xFFFFFFFF80200000 1 1) := ⟨_, rfl⟩
  have hvalid : validateEhdr mem 0xFFFFFFFF80300000 = true := by rw [hmem]; decide +kernel
  have haddr : (0xFFFFFFFF80300040 : BitVec 64) ∈ phdrAddrs mem 0xFFFFFFFF80300000 := by rw [hmem]; decide +kernel
  have hphdr : (readPhdr mem 0xFFFFFFFF80300040).isLoad = true ∧ (readPhdr mem 0xFFFFFFFF80300040).pVaddr = 0xFFFFFFFF80200000 ∧
      (readPhdr mem 0xFFFFFFFF80300040).copied = 1 := by rw [hmem]; decide +kernel
  have hrun : createElfProcess mem 0xFFFFFFFF80300000 [] = some (loadTrace mem 0xFFFFFFFF80300000 []) := by
    rw [createElfProcess, if_pos hvalid]
  have hwrite : Access.write 0xFFFFFFFF80200000 1 ∈ loadTrace mem 0xFFFFFFFF80300000 [] := by
    apply List.mem_append_left
    refine List.mem_flatMap.mpr ⟨_, haddr, ?_⟩
    rw [phdrTrace, if_pos hphdr.1, hphdr.2.1, hphdr.2.2]
    simp
  rw [← hmem]
  refine ⟨_, hrun, hwrite, fun hsafe => ?_⟩
  have hallowed := (hsafe _ hrun _ hwrite) 0 Nat.one_pos
  exact absurd hallowed.1 (by decide)

end Elf

end Os506
