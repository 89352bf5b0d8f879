import Os506.Memory.Isolation
import Os506.Memory.ElfSafety
import Os506.Memory.Brk
import Os506.Lib.Stored

namespace Os506

open Pging Bytes Mach CopyOnWrite

namespace Mach

variable {m m' : Mach} {j va n : ℕ} {g : Segment} {l : List Segment}

def Wide (m : Mach) (j : ℕ) : Prop := ∀ q, m.cow.map j q = none ∨ ∃ f, m.cow.map j q = some (f, true)

theorem Wide.opens (h : m.Wide j) (ho : Opens m m') : m'.Wide j := fun q => by
  rcases ho j q with he | he
  · rw [he]; exact h q
  · exact .inr he

theorem Wide.writable (h : m.Wide j) (hinv : Inv m) (hs : m.seen j (va / 4096) ≠ none) : m.writable j va = true :=
  hinv.sound.writable_iff.mpr ((h _).resolve_left (mt seen_eq_none.mpr hs))

theorem Opens.seen (h : Opens m m') {k q : ℕ} (hs : m.seen k q ≠ none) : m'.seen k q ≠ none := by
  rw [ne_eq, seen_eq_none] at hs ⊢
  rcases h k q with he | ⟨f, he⟩
  · rwa [he]
  · simp [he]

theorem opens_of_map (h : m'.cow.map = m.cow.map) : Opens m m' := fun _ _ => .inl (by rw [h])

theorem storeBytes_map {l : List UInt8} (h : Inv m) (hm : m.storeBytes j va l = some m') : m'.cow.map = m.cow.map := by
  induction l generalizing m va with
  | nil => rw [Option.some.inj hm]
  | cons b l ih =>
    rw [storeBytes] at hm
    split at hm
    · rename_i hw
      obtain ⟨hinv, _, _, hmap, _⟩ := store_spec (c := b) h hw
      rw [ih hinv hm, hmap]
    · cases hm

theorem storeBytes_total (l : List UInt8) (h : Inv m) (hw : m.Wide j)
    (hs : ∀ x, va ≤ x → x < va + l.length → m.seen j (x / 4096) ≠ none) :
    ∃ m', m.storeBytes j va l = some m' ∧ m'.pmap = m.pmap := by
  induction l generalizing m va with
  | nil => exact ⟨m, rfl, rfl⟩
  | cons b l ih =>
    rw [List.length_cons] at hs
    have hva := hw.writable h (hs va le_rfl (by omega))
    obtain ⟨hinv, _, _, hmap, _⟩ := store_spec (c := b) h hva
    have hopen := opens_of_map hmap
    obtain ⟨m', hm', hpmap⟩ := ih hinv (hw.opens hopen) fun x (hle : va + 1 ≤ x) hlt =>
      hopen.seen (hs x (by omega) (by omega))
    refine ⟨m', ?_, hpmap⟩
    rw [storeBytes, if_pos hva, hm']

theorem mem_vma_pages {x : ℕ} (hle : g.vaddr ≤ x) (hlt : x < g.vaddr + g.memsz) : x / 4096 ∈ g.vma.pages := by
  rw [Vma.mem_pages, Segment.vma]
  dsimp only
  omega

theorem kmmap_segment (h : Inv m) (hj : j < m.count) (hv : g.vma ∈ (m.mm j).vm)
    (hm : m.kmmap j g.vaddr g.memsz rwUser = some m') :
    Inv m' ∧ Opens m m' ∧ ∀ x, g.vaddr ≤ x → x < g.vaddr + g.memsz → m'.seen j (x / 4096) ≠ none := by
  have hsize : g.vma.stop - g.vma.start = g.memsz := Nat.add_sub_cancel_left _ _
  obtain ⟨hinv, _, _, hopen, _, hall⟩ := h.kmmap hj hv (Nat.le_add_right _ _) (by rw [hsize]; exact hm)
  exact ⟨hinv, hopen, fun x hle hlt => hall (hsize.trans_lt g.size_lt) _ (mem_vma_pages hle hlt)⟩

theorem loadSegment_opens (h : Inv m) (hj : j < m.count) (hv : g.vma ∈ (m.mm j).vm)
    (hm : m.loadSegment j g = some m') :
    Opens m m' ∧ ∀ x, g.vaddr ≤ x → x < g.vaddr + g.memsz → m'.seen j (x / 4096) ≠ none := by
  obtain ⟨m₁, hm₁, hm⟩ := Option.bind_eq_some_iff.mp hm
  obtain ⟨m₂, hm₂, hm⟩ := Option.bind_eq_some_iff.mp hm
  obtain ⟨hinv, hopen, hall⟩ := kmmap_segment h hj hv hm₁
  have hmap₂ := storeBytes_map hinv hm₂
  have hmap₃ := storeBytes_map (storeBytes_spec hinv hm₂).1 hm
  have hstores := opens_of_map (hmap₃.trans hmap₂)
  exact ⟨hopen.trans hstores, fun x hle hlt => hstores.seen (hall x hle hlt)⟩

theorem loadSegments_opens (h : Inv m) (hj : j < m.count) (hv : ∀ g ∈ l, g.vma ∈ (m.mm j).vm)
    (hm : m.loadSegments j l = some m') :
    Opens m m' ∧ ∀ g ∈ l, ∀ x, g.vaddr ≤ x → x < g.vaddr + g.memsz → m'.seen j (x / 4096) ≠ none := by
  induction l generalizing m with
  | nil =>
    obtain rfl := Option.some.inj hm
    exact ⟨opens_of_map rfl, fun g hg => absurd hg List.not_mem_nil⟩
  | cons g l ih =>
    rw [List.forall_mem_cons] at hv ⊢
    obtain ⟨m₁, hm₁, hm⟩ := Option.bind_eq_some_iff.mp hm
    obtain ⟨hinv, ha, _, _⟩ := loadSegment_spec h hj hv.1 hm₁
    obtain ⟨hopen, hseen⟩ := loadSegment_opens h hj hv.1 hm₁
    obtain ⟨hopen', hseen'⟩ := ih hinv (ha.count.symm ▸ hj) (fun g hg => by rw [ha.vm]; exact hv.2 g hg) hm
    exact ⟨hopen.trans hopen', fun x hle hlt => hopen'.seen (hseen x hle hlt), hseen'⟩

theorem loadSegment_total (h : Inv m) (hj : j < m.count) (hv : g.vma ∈ (m.mm j).vm) (hw : m.Wide j)
    (hr : m.pmap.Room (4 * g.vma.pages.length + n)) : ∃ m', m.loadSegment j g = some m' ∧ m'.pmap.Room n := by
  have hsize : g.vma.stop - g.vma.start = g.memsz := Nat.add_sub_cancel_left _ _
  obtain ⟨m₁, hm₁, hr₁⟩ : ∃ m₁, m.kmmap j g.vaddr g.memsz rwUser = some m₁ ∧ m₁.pmap.Room n := by
    have hkmmap : m.kmmap j g.vma.start (g.vma.stop - g.vma.start) rwUser = m.mapPages j rwUser g.vma.pages :=
      kmmap_eq (Nat.le_add_right _ _) (hsize.trans_lt g.size_lt)
    rw [hsize] at hkmmap
    obtain ⟨m₁, hm₁, hr₁⟩ := mapPages_room hr
    exact ⟨m₁, hkmmap.trans hm₁, hr₁⟩
  obtain ⟨hinv₁, hopen, hall⟩ := kmmap_segment h hj hv hm₁
  have hfile := g.file_le
  obtain ⟨m₂, hm₂, hpmap₂⟩ := storeBytes_total g.bytes hinv₁ (hw.opens hopen)
    fun x hle hlt => hall x hle (by omega)
  have hstores := opens_of_map (storeBytes_map hinv₁ hm₂)
  obtain ⟨m₃, hm₃, hpmap₃⟩ := storeBytes_total (List.replicate (g.memsz - g.bytes.length) 0)
    (storeBytes_spec hinv₁ hm₂).1 ((hw.opens hopen).opens hstores) fun x (hle : g.vaddr + g.bytes.length ≤ x) hlt => by
      rw [List.length_replicate] at hlt
      exact hstores.seen (hall x (by omega) (by omega))
  refine ⟨m₃, ?_, by rw [hpmap₃, hpmap₂]; exact hr₁⟩
  rw [loadSegment, hm₁, Option.bind_some, hm₂, Option.bind_some, hm₃]

def segmentFrames (l : List Segment) : ℕ := (l.map fun g => 4 * g.vma.pages.length).sum

theorem loadSegments_total (h : Inv m) (hj : j < m.count) (hv : ∀ g ∈ l, g.vma ∈ (m.mm j).vm) (hw : m.Wide j)
    (hr : m.pmap.Room (segmentFrames l + n)) : ∃ m', m.loadSegments j l = some m' ∧ m'.pmap.Room n := by
  induction l generalizing m with
  | nil => exact ⟨m, rfl, hr.mono (Nat.le_add_left n _)⟩
  | cons g l ih =>
    rw [List.forall_mem_cons] at hv
    rw [segmentFrames, List.map_cons, List.sum_cons, Nat.add_assoc] at hr
    obtain ⟨m₁, hm₁, hr₁⟩ := loadSegment_total h hj hv.1 hw hr
    obtain ⟨hinv, ha, _, _⟩ := loadSegment_spec h hj hv.1 hm₁
    obtain ⟨hopen, _⟩ := loadSegment_opens h hj hv.1 hm₁
    obtain ⟨m₂, hm₂, hr₂⟩ := ih hinv (ha.count.symm ▸ hj) (fun g hg => by rw [ha.vm]; exact hv.2 g hg) (hw.opens hopen) hr₁
    exact ⟨m₂, by rw [loadSegments, hm₁, Option.bind_some, hm₂], hr₂⟩

theorem takeFrames_room {k : ℕ} (h : m.pmap.Room (k + n)) : ∃ m', m.takeFrames k = some m' ∧ m'.pmap.Room n := by
  induction k generalizing m with
  | zero => exact ⟨m, rfl, h.mono (Nat.le_add_left n 0)⟩
  | succ k ih =>
    rw [Nat.add_right_comm] at h
    obtain ⟨f, m₁, hf, hr₁⟩ := getFreePage_room h
    obtain ⟨m₂, hm₂, hr₂⟩ := ih hr₁
    exact ⟨m₂, by rw [takeFrames, hf, Option.bind_some, hm₂], hr₂⟩

theorem newMm_room {vm : List Vma} {frames : ℕ} (brk : ℕ) (hv : m.vmas + vm.length ≤ vmaLimit)
    (hr : m.pmap.Room (frames + n)) : ∃ m', m.newMm vm brk frames = some m' ∧ m'.pmap.Room n := by
  obtain ⟨m₁, hm₁, hr₁⟩ := takeFrames_room hr
  refine ⟨{ m₁ with
    mm := Function.update m₁.mm m₁.count { vm := vm, brk := brk }
    count := m₁.count + 1, vmas := m₁.vmas + vm.length }, ?_, hr₁⟩
  rw [newMm, if_neg (Nat.not_lt.mpr hv), hm₁, Option.map_some]

theorem kmmap_top_seen (h : Inv m) (hm : m.kmmap j (userStackTop - 4096) 4096 rwUser = some m') :
    Opens m m' ∧ ∀ x, userStackTop - 4096 ≤ x → x < userStackTop → m'.seen j (x / 4096) ≠ none := by
  obtain ⟨_, _, hopen, hseen⟩ := mapPages_spec h.sound hm
  refine ⟨hopen, fun x hle hlt => ?_⟩
  have hpage : x / 4096 ∈ List.range' ((userStackTop - 4096) / 4096)
      (kmmapPages (userStackTop - 4096) (Int.bmod (4096 : ℕ) (2 ^ 32))).toNat := by
    rw [kmmapPages_eq (by decide), List.mem_range'_1]
    simp only [userStackTop] at hle hlt ⊢
    omega
  rw [hseen, if_pos ⟨rfl, hpage⟩]
  simp

theorem kmmap_top_room (hr : m.pmap.Room (4 + n)) :
    ∃ m', m.kmmap j (userStackTop - 4096) 4096 rwUser = some m' ∧ m'.pmap.Room n := by
  rw [kmmap, kmmapPages_eq (by decide)]
  exact mapPages_room hr

theorem loadElf_total {args : List UInt8} {frames : ℕ} (h : Inv m) (hl : l ≠ [])
    (hv : m.vmas + (l.length + 2) ≤ vmaLimit) (hargs : args.length ≤ 4088)
    (hr : m.pmap.Room (frames + (segmentFrames l + (4 + n)))) :
    ∃ m', m.loadElf l args frames = some m' ∧ m'.pmap.Room n := by
  have hlen : (loadVmas l).length = l.length + 2 := by simp [loadVmas]
  obtain ⟨m₁, hm₁, hr₁⟩ := newMm_room (loadBrk l) (hlen.symm ▸ hv) hr
  obtain ⟨hinv₁, hseen₁, _, _, _⟩ := newMm_load h hm₁
  obtain ⟨hj, hsegs⟩ := newMm_vma h hm₁
  have hwide₁ : m₁.Wide m.count := fun q => .inl (seen_eq_none.mp (by rw [hseen₁]; exact h.blank _ le_rfl q))
  obtain ⟨m₂, hm₂, hr₂⟩ := loadSegments_total hinv₁ hj hsegs hwide₁ hr₁
  obtain ⟨hinv₂, ha₂, _, _⟩ := loadSegments_spec hinv₁ hj hsegs hm₂
  have hwide₂ := hwide₁.opens (loadSegments_opens hinv₁ hj hsegs hm₂).1
  obtain ⟨m₃, hm₃, hr₃⟩ := kmmap_top_room hr₂
  obtain ⟨hopen₃, hseen₃⟩ := kmmap_top_seen hinv₂ hm₃
  obtain ⟨hinv₃, _⟩ := hinv₂.kmmap_top (ha₂.count.symm ▸ hj) hm₃
  have hargs₃ : ∀ x, userStackTop - 8 - args.length ≤ x → x < userStackTop - 8 - args.length + args.length →
      m₃.seen m.count (x / 4096) ≠ none := by
    intro x hle hlt
    simp only [userStackTop] at hle hlt hseen₃
    exact hseen₃ x (by omega) (by omega)
  obtain ⟨m₄, hm₄, hpmap₄⟩ := storeBytes_total args hinv₃ (hwide₂.opens hopen₃) hargs₃
  refine ⟨m₄, ?_, hpmap₄ ▸ hr₃⟩
  rw [loadElf, if_neg hl, hm₁, Option.bind_some, hm₂, Option.bind_some, hm₃, Option.bind_some, hm₄]

theorem loadElf_seen {args : List UInt8} {frames : ℕ} (h : Inv m) (hm : m.loadElf l args frames = some m') :
    (m'.mm m.count).vm = loadVmas l ∧
      ∀ g ∈ l, ∀ x, g.vaddr ≤ x → x < g.vaddr + g.memsz → m'.seen m.count (x / 4096) ≠ none := by
  obtain ⟨m₁, m₂, m₃, hm₁, hm₂, hm₃, hm⟩ := loadElf_stages hm
  obtain ⟨hinv₁, _, _, _, hvm₁⟩ := newMm_load h hm₁
  obtain ⟨hj, hsegs⟩ := newMm_vma h hm₁
  obtain ⟨hinv₂, ha₂, _, _⟩ := loadSegments_spec hinv₁ hj hsegs hm₂
  obtain ⟨hinv₃, ha₃, _⟩ := hinv₂.kmmap_top (ha₂.count.symm ▸ hj) hm₃
  obtain ⟨_, ha₄, _⟩ := storeBytes_spec hinv₃ hm
  have hopen := (kmmap_top_seen hinv₂ hm₃).1.trans (opens_of_map (storeBytes_map hinv₃ hm))
  refine ⟨by rw [ha₄.vm, ha₃.vm, ha₂.vm, hvm₁], fun g hg x hle hlt => ?_⟩
  exact hopen.seen ((loadSegments_opens hinv₁ hj hsegs hm₂).2 g hg x hle hlt)

theorem loadElf_row {args : List UInt8} {frames i : ℕ} (h : Inv m) (hm : m.loadElf l args frames = some m')
    (hl : l.Pairwise fun g g' => ∀ x, ¬ (g.Has x ∧ g'.Has x)) (hg : g ∈ l)
    (htop : g.vaddr + g.memsz + args.length ≤ userStackTop - 8) (hi : i < g.memsz) :
    m'.readable m.count (g.vaddr + i) = true ∧ g.row[i]? = some (m'.fetch m.count (g.vaddr + i)) := by
  obtain ⟨hinv, _, _, hview⟩ := loadElf_spec h hm
  have hread : m'.readable m.count (g.vaddr + i) = true := by
    rw [hinv.sound.readable_iff]
    exact (loadElf_seen h hm).2 g hg _ (by omega) (by omega)
  have hrow : i < g.row.length := by rwa [g.length_row]
  refine ⟨hread, ?_⟩
  rw [hinv.sound.fetch_eq hread, hview, Function.update_self, (loadImage_at hl hg htop).get hrow,
    List.getElem?_eq_getElem hrow]

end Mach

structure Cpu where
  mach : Mach
  cr3 : ℕ

namespace Cpu

def cr3W (pml4 : ℕ) (c : Cpu) : Cpu := { c with cr3 := pml4 }

def kmmap (sAddr size : ℕ) (flags : BitVec 64) (c : Cpu) : Option Cpu :=
  (c.mach.kmmap c.cr3 sAddr size flags).map fun m => { c with mach := m }

def storeBytes (va : ℕ) (l : List UInt8) (c : Cpu) : Option Cpu :=
  (c.mach.storeBytes c.cr3 va l).map fun m => { c with mach := m }

def memmove (mem : BitVec 64 → UInt8) (src : BitVec 64) (dest n : ℕ) (c : Cpu) : Option Cpu :=
  c.storeBytes dest ((List.range n).map fun i => mem (src + BitVec.ofNat 64 i))

def memset (dest : ℕ) (b : UInt8) (n : ℕ) (c : Cpu) : Option Cpu := c.storeBytes dest (List.replicate n b)

section Loader

variable (mem : BitVec 64 → UInt8) (ehdr : BitVec 64) (pml4 pt : ℕ)

def loadPhdr (h : Phdr) (c : Cpu) : Option Cpu :=
  if h.isLoad then
    ((c.cr3W pml4).kmmap h.pVaddr.toNat h.pMemsz.toNat rwUser).bind fun c =>
    (c.memmove mem (ehdr + h.pOffset) h.pVaddr.toNat h.copied).bind fun c =>
    (c.memset (h.pVaddr + h.pFilesz).toNat 0 h.cleared).map (cr3W pt)
  else some c

def loadPhdrs : List Phdr → Cpu → Option Cpu
  | [], c => some c
  | h :: l, c => (c.loadPhdr mem ehdr pml4 pt h).bind (loadPhdrs l)

/-- `create_new_task`: the next process, whose VMAs are there from the start since nothing reads them before the end. -/
def createNewTask (mm : MmStruct) (frames : ℕ) (c : Cpu) : Option Cpu :=
  (c.mach.newMm mm.vm mm.brk frames).map fun m => { c with mach := m }

def loadElf (args : List UInt8) (frames : ℕ) (c : Cpu) : Option (MmStruct × Cpu) :=
  let pt := c.cr3
  let pml4 := c.mach.count
  (loadMm (Elf.phdrs mem ehdr)).bind fun mm =>
  (c.createNewTask mm frames).bind fun c =>
  (c.loadPhdrs mem ehdr pml4 pt (Elf.phdrs mem ehdr)).bind fun c =>
  ((c.cr3W pml4).kmmap (userStackTop - 4096) 4096 rwUser).bind fun c =>
  let c := c.cr3W pt
  ((c.cr3W pml4).storeBytes (userStackTop - 8 - args.length) args).map fun c =>
  ({ mm with startStack := userStackTop - 8 - args.length }, c.cr3W pt)

end Loader

end Cpu

structure Phdr.Loadable (h : Phdr) : Prop where
  size_lt : h.pMemsz.toNat < 2 ^ 31
  file_le : h.pFilesz.toNat ≤ h.pMemsz.toNat
  below : h.pVaddr.toNat + h.pMemsz.toNat ≤ userStackTop - userStackSize

namespace Phdr

variable {h : Phdr}

theorem Loadable.copied_eq (hw : h.Loadable) : h.copied = h.pFilesz.toNat := by
  have := hw.size_lt
  have := hw.file_le
  exact Nat.mod_eq_of_lt (by omega)

theorem Loadable.size_toNat (hw : h.Loadable) : h.size.toNat = h.pMemsz.toNat := by
  have hlt := hw.size_lt
  have hlow : (h.pMemsz.setWidth 32).toNat = h.pMemsz.toNat := by
    rw [BitVec.toNat_setWidth]
    omega
  rw [Phdr.size, BitVec.signExtend_eq_setWidth_of_msb_false, BitVec.toNat_setWidth, hlow]
  · omega
  · rw [BitVec.msb_eq_false_iff_two_mul_lt, hlow]
    omega

theorem Loadable.cleared_eq (hw : h.Loadable) : h.cleared = h.pMemsz.toNat - h.pFilesz.toNat := by
  have hsize := hw.size_toNat
  have := hw.size_lt
  have := hw.file_le
  rw [Phdr.cleared, BitVec.toNat_sub]
  omega

theorem Loadable.vma_eq (hw : h.Loadable) : h.vma = ⟨h.pVaddr.toNat, h.pVaddr.toNat + h.pMemsz.toNat, .data⟩ := by
  have hbelow := hw.below
  have hsize := hw.size_toNat
  simp only [userStackTop, userStackSize] at hbelow
  rw [Phdr.vma, Phdr.eVaddr, BitVec.toNat_add, hsize, Nat.mod_eq_of_lt (by omega)]

theorem Loadable.eVaddr_eq (hw : h.Loadable) : h.eVaddr.toNat = h.pVaddr.toNat + h.pMemsz.toNat :=
  congrArg Vma.stop hw.vma_eq

def segment (mem : BitVec 64 → UInt8) (ehdr : BitVec 64) (h : Phdr) (hw : h.Loadable) : Segment where
  vaddr := h.pVaddr.toNat
  memsz := h.pMemsz.toNat
  bytes := (List.range h.pFilesz.toNat).map fun i => mem (ehdr + h.pOffset + BitVec.ofNat 64 i)
  size_lt := hw.size_lt
  user := hw.below.trans (by decide)
  file_le := by rw [List.length_map, List.length_range]; exact hw.file_le

end Phdr

namespace Cpu

variable {mem : BitVec 64 → UInt8} {ehdr : BitVec 64} {j pt : ℕ} {c : Cpu}

theorem loadPhdr_eq {h : Phdr} (hl : h.isLoad = true) (hw : h.Loadable) (c : Cpu) :
    c.loadPhdr mem ehdr j pt h = (c.mach.loadSegment j (h.segment mem ehdr hw)).map fun m => ⟨m, pt⟩ := by
  have hend : (h.pVaddr + h.pFilesz).toNat = h.pVaddr.toNat + h.pFilesz.toNat := by
    have hbelow := hw.below
    have := hw.file_le
    simp only [userStackTop, userStackSize] at hbelow
    rw [BitVec.toNat_add]
    omega
  rw [loadPhdr, if_pos hl, hw.copied_eq, hw.cleared_eq, hend]
  simp only [kmmap, memmove, memset, storeBytes, cr3W, loadSegment, Phdr.segment, Option.bind_map, Option.map_bind,
    Option.map_map, Function.comp_def, List.length_map, List.length_range]

theorem loadPhdrs_eq {phdrs : List Phdr} (hw : ∀ h ∈ loads phdrs, h.Loadable) (hc : c.cr3 = pt) :
    c.loadPhdrs mem ehdr j pt phdrs =
      (c.mach.loadSegments j ((loads phdrs).pmap (Phdr.segment mem ehdr) hw)).map fun m => ⟨m, pt⟩ := by
  induction phdrs generalizing c with
  | nil =>
    subst hc
    rfl
  | cons h l ih =>
    rw [loadPhdrs]
    by_cases hl : h.isLoad = true
    · have hloads : loads (h :: l) = h :: loads l := List.filter_cons_of_pos hl
      have hw' := hw
      rw [hloads, List.forall_mem_cons] at hw'
      rw [loadPhdr_eq hl hw'.1]
      simp only [hloads, List.pmap_cons, loadSegments, Option.bind_map, Option.map_bind]
      congr 1
      funext m
      exact ih hw'.2 rfl
    · have hloads : loads (h :: l) = loads l := List.filter_cons_of_neg hl
      have hw' := hw
      rw [hloads] at hw'
      rw [loadPhdr, if_neg hl, Option.bind_some, ih hw' hc]
      simp only [hloads]

theorem loadElf_eq (c : Cpu) (args : List UInt8) (frames : ℕ) (hw : ∀ h ∈ loads (Elf.phdrs mem ehdr), h.Loadable) {mm : MmStruct}
    (hmm : loadMm (Elf.phdrs mem ehdr) = some mm)
    (hvm : mm.vm = loadVmas ((loads (Elf.phdrs mem ehdr)).pmap (Phdr.segment mem ehdr) hw))
    (hbrk : mm.brk = loadBrk ((loads (Elf.phdrs mem ehdr)).pmap (Phdr.segment mem ehdr) hw))
    (hne : loads (Elf.phdrs mem ehdr) ≠ []) :
    c.loadElf mem ehdr args frames =
      (c.mach.loadElf ((loads (Elf.phdrs mem ehdr)).pmap (Phdr.segment mem ehdr) hw) args frames).map
        fun m => ({ mm with startStack := userStackTop - 8 - args.length }, ⟨m, c.cr3⟩) := by
  have hsegs : (loads (Elf.phdrs mem ehdr)).pmap (Phdr.segment mem ehdr) hw ≠ [] := mt List.pmap_eq_nil_iff.mp hne
  rw [loadElf, hmm, Mach.loadElf, if_neg hsegs]
  dsimp only
  rw [Option.bind_some, createNewTask, hvm, hbrk]
  simp only [Option.bind_map, Option.map_bind, Function.comp_def]
  congr 1
  funext m
  rw [loadPhdrs_eq hw (show (⟨m, c.cr3⟩ : Cpu).cr3 = c.cr3 from rfl)]
  simp only [Option.bind_map, Option.map_map, Function.comp_def, kmmap, storeBytes, cr3W]

end Cpu

section Layout

variable {phdrs : List Phdr}

theorem scanPhdrs_top_eq (mem : BitVec 64 → UInt8) (ehdr : BitVec 64) (hw : ∀ h ∈ loads phdrs, h.Loadable) (mm : MmStruct) :
    (scanPhdrs phdrs (mm, 0)).2.toNat =
      ((loads phdrs).pmap (Phdr.segment mem ehdr) hw).foldl (fun top g => max top (g.vaddr + g.memsz)) 0 := by
  apply eq_of_forall_ge_iff
  intro n
  rw [scanPhdrs_top_le_iff, loadTop_le_iff]
  apply and_congr Iff.rfl
  simp only [List.mem_pmap, forall_exists_index]
  constructor
  · rintro hend g h hh rfl
    have := hend h hh
    rwa [(hw h hh).eVaddr_eq] at this
  · intro hend h hh
    rw [(hw h hh).eVaddr_eq]
    exact hend _ h hh rfl

theorem map_vma_segments (mem : BitVec 64 → UInt8) (ehdr : BitVec 64) (hw : ∀ h ∈ loads phdrs, h.Loadable) :
    (loads phdrs).map Phdr.vma = ((loads phdrs).pmap (Phdr.segment mem ehdr) hw).map Segment.vma := by
  rw [List.map_pmap, ← List.pmap_eq_map (fun h hh => hw h hh)]
  exact List.pmap_congr_left _ fun h hh _ _ => (hw h hh).vma_eq

theorem loadMm_eq (mem : BitVec 64 → UInt8) (ehdr : BitVec 64) (hw : ∀ h ∈ loads phdrs, h.Loadable)
    (hne : loads phdrs ≠ []) :
    ∃ mm, loadMm phdrs = some mm ∧ mm.vm = loadVmas ((loads phdrs).pmap (Phdr.segment mem ehdr) hw) ∧
      mm.brk = loadBrk ((loads phdrs).pmap (Phdr.segment mem ehdr) hw) ∧ mm.startBrk = mm.brk ∧
      mm.vmaCount = mm.vm.length := by
  obtain ⟨hvm, hcount⟩ := scanPhdrs_vm phdrs {} 0
  have htop := scanPhdrs_top_eq mem ehdr hw {}
  have hle := fun {n} => scanPhdrs_top_le_iff phdrs {} 0 (n := n)
  rw [loadMm]
  obtain ⟨r, hr⟩ : ∃ r, r = scanPhdrs phdrs ({}, 0) := ⟨_, rfl⟩
  obtain ⟨mm, top⟩ := r
  rw [← hr] at hvm hcount htop hle ⊢
  dsimp only at hvm hcount htop hle ⊢
  have hsome : mm.vm ≠ [] := by
    rw [hvm, List.nil_append]
    exact mt List.map_eq_nil_iff.mp hne
  have hend : top.toNat ≤ 2 ^ 63 := hle.mpr ⟨Nat.zero_le _, fun h hh => by
    have := (hw h hh).below
    rw [(hw h hh).eVaddr_eq]
    exact this.trans (by decide)⟩
  have hvmas := map_vma_segments mem ehdr hw
  rw [if_neg hsome]
  refine ⟨_, rfl, ?_, ?_, rfl, ?_⟩
  · rw [MmStruct.addStack, MmStruct.addHeap, loadVmas]
    dsimp only
    rw [heapStart_toNat top hend, hvm, hvmas, htop, List.nil_append, List.append_assoc]
    rfl
  · rw [MmStruct.addStack, MmStruct.addHeap, loadBrk]
    dsimp only
    rw [heapStart_toNat top hend, htop]
  · rw [MmStruct.addStack, MmStruct.addHeap]
    dsimp only
    rw [hcount, hvm]
    simp

theorem loadMm_heap (hw : ∀ h ∈ loads phdrs, h.Loadable) (hne : loads phdrs ≠ []) {mm : MmStruct}
    (hmm : loadMm phdrs = some mm) : 4096 ∣ mm.startBrk ∧
      ∀ b, 4096 ∣ b → (∀ h ∈ loads phdrs, h.pVaddr.toNat + h.pMemsz.toNat ≤ b) → mm.startBrk ≤ b := by
  obtain ⟨mm', hmm', _, hbrk, hstart, _⟩ := loadMm_eq (fun _ => 0) 0 hw hne
  obtain rfl : mm' = mm := Option.some.inj (hmm'.symm.trans hmm)
  rw [hstart, hbrk, loadBrk]
  refine ⟨Nat.dvd_mul_left _ _, ?_⟩
  rintro b ⟨k, rfl⟩ hb
  have htop := (loadTop_le_iff ((loads phdrs).pmap (Phdr.segment (fun _ => 0) 0) hw) 0).mpr ⟨Nat.zero_le (4096 * k), fun g hg => by
    obtain ⟨h, hh, rfl⟩ := List.mem_pmap.mp hg
    exact hb h hh⟩
  omega

end Layout

structure Loaded (file : List UInt8) (phdrs : List Phdr) (c : Cpu) (mm : MmStruct) (c' : Cpu) : Prop where
  bytes : ∀ h ∈ loads phdrs, ∀ i < h.pFilesz.toNat, c'.mach.readable c.mach.count (h.pVaddr.toNat + i) = true ∧
    file[h.pOffset.toNat + i]? = some (c'.mach.fetch c.mach.count (h.pVaddr.toNat + i))
  zeros : ∀ h ∈ loads phdrs, ∀ i, h.pFilesz.toNat ≤ i → i < h.pMemsz.toNat →
    c'.mach.readable c.mach.count (h.pVaddr.toNat + i) = true ∧ c'.mach.fetch c.mach.count (h.pVaddr.toNat + i) = 0
  vm : mm.vm = (loads phdrs).map (fun h => ⟨h.pVaddr.toNat, h.pVaddr.toNat + h.pMemsz.toNat, .data⟩) ++
    [⟨mm.startBrk, mm.startBrk, .heap⟩, stackVma]
  vmaCount : mm.vmaCount = mm.vm.length
  disjoint : mm.vm.Pairwise Vma.Disjoint
  aligned : 4096 ∣ mm.startBrk
  above : ∀ h ∈ loads phdrs, h.pVaddr.toNat + h.pMemsz.toNat ≤ mm.startBrk
  least : ∀ b, 4096 ∣ b → (∀ h ∈ loads phdrs, h.pVaddr.toNat + h.pMemsz.toNat ≤ b) → mm.startBrk ≤ b
  task : (c'.mach.mm c.mach.count).vm = mm.vm
  cr3 : c'.cr3 = c.cr3

namespace Cpu

variable {mem : BitVec 64 → UInt8} {ehdr : BitVec 64} {c : Cpu} {file args : List UInt8}

theorem segment_row_file {h : Phdr} (hw : h.Loadable) (hfile : Stored mem ehdr file)
    (hin : h.pOffset.toNat + h.pFilesz.toNat ≤ file.length) {i : ℕ} (hi : i < h.pFilesz.toNat) :
    (h.segment mem ehdr hw).row[i]? = file[h.pOffset.toNat + i]? := by
  have hlen : i < (h.segment mem ehdr hw).bytes.length := by
    rw [Phdr.segment, List.length_map, List.length_range]
    exact hi
  have haddr : ehdr + h.pOffset + BitVec.ofNat 64 i = ehdr + BitVec.ofNat 64 (h.pOffset.toNat + i) := by
    rw [Stored.shift_add, BitVec.ofNat_toNat, BitVec.setWidth_eq]
  rw [Segment.row, List.getElem?_append_left hlen, Phdr.segment, List.getElem?_map, List.getElem?_range hi,
    Option.map_some, haddr, hfile.get (by omega), List.getElem?_eq_getElem]

theorem segment_row_zero {h : Phdr} (hw : h.Loadable) {i : ℕ} (hle : h.pFilesz.toNat ≤ i) (hlt : i < h.pMemsz.toNat) :
    (h.segment mem ehdr hw).row[i]? = some 0 := by
  have hlen : (h.segment mem ehdr hw).bytes.length = h.pFilesz.toNat := by
    rw [Phdr.segment, List.length_map, List.length_range]
  rw [Segment.row, List.getElem?_append_right (by omega), hlen, List.getElem?_replicate, if_pos]
  change i - h.pFilesz.toNat < h.pMemsz.toNat - h.pFilesz.toNat
  omega

theorem loadElf_loads (frames : ℕ) (hinv : Inv c.mach) (hfile : Stored mem ehdr file) (hargs : args.length ≤ 4088)
    (hne : loads (Elf.phdrs mem ehdr) ≠ []) (hw : ∀ h ∈ loads (Elf.phdrs mem ehdr), h.Loadable)
    (hin : ∀ h ∈ loads (Elf.phdrs mem ehdr), h.pOffset.toNat + h.pFilesz.toNat ≤ file.length)
    (hd : ((loads (Elf.phdrs mem ehdr)).map Phdr.vma).Pairwise Vma.Disjoint) :
    (c.mach.vmas + (loads (Elf.phdrs mem ehdr)).length + 2 ≤ vmaLimit →
      c.mach.pmap.Room (frames + ((loads (Elf.phdrs mem ehdr)).map fun h => 4 * h.vma.pages.length).sum + 4) →
        ∃ r, c.loadElf mem ehdr args frames = some r) ∧
      ∀ mm c', c.loadElf mem ehdr args frames = some (mm, c') → Loaded file (Elf.phdrs mem ehdr) c mm c' := by
  obtain ⟨mm, hmm, hvm, hbrk, hstart, hcount⟩ := loadMm_eq mem ehdr hw hne
  have heq := loadElf_eq c args frames hw hmm hvm hbrk hne
  have hvmas := map_vma_segments mem ehdr hw
  obtain ⟨segs, hsegs⟩ : ∃ segs, segs = (loads (Elf.phdrs mem ehdr)).pmap (Phdr.segment mem ehdr) hw := ⟨_, rfl⟩
  have hshape := loadMm_shaped hmm fun h hh => (hw h hh).eVaddr_eq.trans_le (hw h hh).below
  rw [← hsegs] at heq hvm hbrk hvmas
  constructor
  · intro hlim hroom
    have hlen : segs.length = (loads (Elf.phdrs mem ehdr)).length := by rw [hsegs, List.length_pmap]
    have hsum : segmentFrames segs = ((loads (Elf.phdrs mem ehdr)).map fun h => 4 * h.vma.pages.length).sum := by
      have := congrArg (fun l => (l.map fun v : Vma => 4 * v.pages.length).sum) hvmas
      simp only [List.map_map, Function.comp_def] at this
      exact this.symm
    rw [← hsum, Nat.add_assoc] at hroom
    obtain ⟨m', hm', _⟩ := loadElf_total (n := 0) hinv (by rw [hsegs]; exact mt List.pmap_eq_nil_iff.mp hne)
      (by omega) hargs hroom
    exact ⟨_, by rw [heq, hm', Option.map_some]⟩
  · intro mm' c' hc'
    rw [heq] at hc'
    obtain ⟨m', hm', he⟩ := Option.map_eq_some_iff.mp hc'
    obtain ⟨rfl, rfl⟩ := Prod.mk.inj he
    have happart : segs.Pairwise fun g g' => ∀ x, ¬ (g.Has x ∧ g'.Has x) := by
      rw [hvmas, List.pairwise_map] at hd
      apply hd.imp
      intro g g' hgg x hx
      exact hgg x (hx.imp Segment.has_vma_iff.mpr Segment.has_vma_iff.mpr)
    have hrow : ∀ h (hh : h ∈ loads (Elf.phdrs mem ehdr)), ∀ i < h.pMemsz.toNat,
        m'.readable c.mach.count (h.pVaddr.toNat + i) = true ∧
          (h.segment mem ehdr (hw h hh)).row[i]? = some (m'.fetch c.mach.count (h.pVaddr.toNat + i)) := by
      intro h hh i hi
      have hmem : h.segment mem ehdr (hw h hh) ∈ segs := hsegs ▸ List.mem_pmap.mpr ⟨h, hh, rfl⟩
      have htop : h.pVaddr.toNat + h.pMemsz.toNat + args.length ≤ userStackTop - 8 := by
        have hbelow := (hw h hh).below
        simp only [userStackTop, userStackSize] at hbelow ⊢
        omega
      exact loadElf_row (g := h.segment mem ehdr (hw h hh)) hinv hm' happart hmem htop hi
    have hheap := loadMm_heap hw hne hmm
    constructor
    · intro h hh i hi
      rw [← segment_row_file (hw h hh) hfile (hin h hh) hi]
      exact hrow h hh i (hi.trans_le (hw h hh).file_le)
    · intro h hh i hle hlt
      obtain ⟨hread, hfetch⟩ := hrow h hh i hlt
      rw [segment_row_zero (hw h hh) hle hlt] at hfetch
      exact ⟨hread, (Option.some.inj hfetch).symm⟩
    · rw [← List.map_congr_left fun h hh => (hw h hh).vma_eq]
      exact hshape.vm
    · exact hcount
    · exact (hshape.laid_iff.mpr hd).disjoint
    · exact hheap.1
    · intro h hh
      rw [← (hw h hh).eVaddr_eq]
      exact (hshape.data _ (List.mem_map_of_mem hh)).2
    · exact hheap.2
    · exact (loadElf_seen hinv hm').1.trans hvm.symm
    · rfl

theorem kernel_stored (ehdr : BitVec 64) (file : List UInt8) (h : file.length ≤ 2 ^ 64) :
    Stored (Elf.kernel ehdr file) ehdr file := by
  apply Stored.of_get
  intro k hk
  have hoff : (ehdr + BitVec.ofNat 64 k - ehdr).toNat = k := by
    rw [BitVec.add_comm, BitVec.add_sub_cancel, BitVec.toNat_ofNat]
    omega
  rw [Elf.kernel, hoff, List.getD_eq_getElem _ _ hk]

theorem loadElf_loads_small : ∃ mm c',
    (⟨blank 24, 5⟩ : Cpu).loadElf (Elf.kernel 0xFFFFFFFF80300000 (Elf.elfFile 64 0x400000 56 0x1000)) 0xFFFFFFFF80300000
      [1, 2] 3 = some (mm, c') ∧
    Loaded (Elf.elfFile 64 0x400000 56 0x1000)
      (Elf.phdrs (Elf.kernel 0xFFFFFFFF80300000 (Elf.elfFile 64 0x400000 56 0x1000)) 0xFFFFFFFF80300000) ⟨blank 24, 5⟩ mm c' := by
  have hfile := kernel_stored 0xFFFFFFFF80300000 (Elf.elfFile 64 0x400000 56 0x1000) (by decide)
  have hloads := Elf.loads_small
  have hlen : (Elf.elfFile 64 0x400000 56 0x1000).length = 120 := by decide
  generalize Elf.elfFile 64 0x400000 56 0x1000 = file at hfile hloads hlen ⊢
  generalize Elf.kernel 0xFFFFFFFF80300000 file = mem at hfile hloads ⊢
  have hinv : Inv (blank 24) := (blank_booted (by decide)).inv
  have hargs : [(1 : UInt8), 2].length ≤ 4088 := by decide
  obtain ⟨htotal, hloaded⟩ := loadElf_loads (c := ⟨blank 24, 5⟩) 3 hinv hfile hargs
    (by rw [hloads]; exact List.cons_ne_nil _ _)
    (by rw [hloads, List.forall_mem_singleton]; exact ⟨by decide, by decide, by decide⟩)
    (by rw [hloads, List.forall_mem_singleton, hlen]; decide)
    (by rw [hloads]; exact List.pairwise_singleton _ _)
  rw [hloads] at htotal
  obtain ⟨⟨mm, c'⟩, hc'⟩ := htotal (by decide) ((PMap.region_room 24).mono (by decide))
  exact ⟨mm, c', hc', hloaded mm c' hc'⟩

end Cpu

end Os506
