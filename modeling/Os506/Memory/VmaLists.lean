import Os506.Memory.TaskPool
import Mathlib.Data.List.Forall2

namespace Os506.TaskPool

open Bytes Linked Pool

structure Area where
  vmStart : ℕ
  vmEnd : ℕ
  type : ℕ
  flag : ℕ
  deriving DecidableEq

def area (mem : ℕ → UInt8) (p : ℕ) : Area := ⟨word mem p, word mem (p + 8), word mem (p + 16), word mem (p + 24)⟩

/-- The field `next` of a `vma_struct`; the pool links the struct by the field `free` behind it. -/
def vmaNext (mem : ℕ → UInt8) (p : ℕ) : Option ℕ := pointer (word mem (p + 32))

def store (a : ℕ) (l : List UInt8) (s : Pools Kind) : Pools Kind := { s with mem := put a l s.mem }

def setVmaNext (p q : ℕ) (s : Pools Kind) : Pools Kind := store (p + 32) (encode 8 q) s

def setVma (page : ℕ) (a : Area) (s : Pools Kind) : Except String (ℕ × Pools Kind) :=
  (getVmaStruct page s).map fun (newVma, s) =>
    (newVma, store newVma ([a.vmStart, a.vmEnd, a.type, a.flag, 0].flatMap (encode 8)) s)

def traverseVmas (mem : ℕ → UInt8) : ℕ → ℕ → Option ℕ
  | 0, _ => none
  | n + 1, curr => if word mem (curr + 32) = 0 then some curr else traverseVmas mem n (word mem (curr + 32))

/-- The loop of `fork_process` over the list of the parent, with the two cursors and `child->mm->vm`. The first argument
are the pages that `kmalloc` returns, for as many calls of `get_vma_struct`. -/
def copyVmas : List ℕ → ℕ → ℕ → ℕ → Pools Kind → Option (ℕ × Pools Kind)
  | [], parentCursor, _, vm, s => if parentCursor = 0 then some (vm, s) else none
  | page :: pages, parentCursor, childCursor, vm, s =>
    if parentCursor = 0 then some (vm, s)
    else match getVmaStruct page s with
      | .error _ => none
      | .ok (newVma, s) =>
        let s := store newVma (peek s.mem parentCursor 48) s
        if childCursor = 0 then copyVmas pages (word s.mem (parentCursor + 32)) newVma newVma s
        else
          let s := setVmaNext childCursor newVma s
          copyVmas pages (word s.mem (parentCursor + 32)) (word s.mem (childCursor + 32)) vm s

/-- The `mm_struct` has been copied before: `child->mm->vm` is that of the parent. -/
def forkVmas (pages : List ℕ) (vm : ℕ) (s : Pools Kind) : Option (ℕ × Pools Kind) := copyVmas pages vm 0 vm s

def Keeps (s t : Pools Kind) (x : Kind × ℕ) : Prop := ∀ a, x.2 ≤ a → a < x.2 + (shape x.1).size → t.mem a = s.mem a

section Keeping

variable {s t u : Pools Kind} {x : Kind × ℕ} {p q : ℕ}

theorem Keeps.trans (h : Keeps s t x) (h' : Keeps t u x) : Keeps s u x :=
  fun a hle hlt => (h' a hle hlt).trans (h a hle hlt)

theorem Keeps.byte (h : Keeps s t (.vma, p)) {i : ℕ} (hi : i < 48) : t.mem (p + i) = s.mem (p + i) :=
  h (p + i) (Nat.le_add_right p i) (Nat.add_lt_add_left hi p)

theorem Keeps.word (h : Keeps s t (.vma, p)) {i : ℕ} (hi : i + 8 ≤ 48) : word t.mem (p + i) = word s.mem (p + i) := by
  apply word_congr
  intro a hle hlt
  have hsize : (shape .vma).size = 48 := rfl
  exact h a (by dsimp only; omega) (by dsimp only; omega)

theorem Keeps.vmaNext (h : Keeps s t (.vma, p)) : vmaNext t.mem p = vmaNext s.mem p := by
  rw [TaskPool.vmaNext, TaskPool.vmaNext, h.word (by decide)]

end Keeping

def Offered (page : ℕ) (s : Pools Kind) : Prop := page ≠ 0 ∧ Fresh page s

structure Got (page : ℕ) (s : Pools Kind) (p : ℕ) (t : Pools Kind) : Prop where
  inv : ∃ free, Inv shape free t
  zero : At t.mem p (List.replicate 48 0)
  out : t.out = (.vma, p) :: s.out
  keeps : ∀ x ∈ s.out, Keeps s t x
  pages : ∀ page' ∈ t.pages, page' = page ∨ page' ∈ s.pages

variable {free : Kind → List ℕ} {s t : Pools Kind} {page p q vm : ℕ} {l : List ℕ}

theorem getVmaStruct_got (h : Inv shape free s) (hpage : s.head .vma = 0 → Offered page s) :
    ∃ p t, getVmaStruct page s = .ok (p, t) ∧ Got page s p t := by
  obtain ⟨p, t, hget⟩ : ∃ p t, getVmaStruct page s = .ok (p, t) := get_ok fun hk => (hpage hk).1
  have hfresh : s.head .vma = 0 → Fresh page s := fun hk => (hpage hk).2
  obtain ⟨free', hinv, hzero, hout⟩ := h.get hfresh hget
  obtain ⟨hkeep, hpages⟩ := h.get_frame hfresh hget
  exact ⟨p, t, hget, ⟨free', hinv⟩, hzero, hout, hkeep, hpages⟩

theorem Got.not_mem (h : Got page s p t) : (Kind.vma, p) ∉ s.out := by
  obtain ⟨free, hinv⟩ := h.inv
  have := hinv.nodup
  rw [h.out] at this
  exact (List.nodup_cons.mp this).1

theorem store_inv (h : Inv shape free s) (hp : (.vma, p) ∈ s.out) (i : ℕ) (bytes : List UInt8)
    (hi : i + bytes.length ≤ 48) :
    Inv shape free (store (p + i) bytes s) ∧ ∀ x ∈ s.out, x ≠ (.vma, p) → Keeps s (store (p + i) bytes s) x := by
  have hsize : (shape .vma).size = 48 := rfl
  have hoff : ∀ a, a < p ∨ p + 48 ≤ a → (store (p + i) bytes s).mem a = s.mem a := by
    rintro a (ha | ha)
    · exact put_of_lt (by omega)
    · exact put_of_ge (by omega)
  refine ⟨h.write hp hoff, fun x hx hne a hle hlt => hoff a ?_⟩
  have hapart := h.apart x (.vma, p) (.inl hx) (.inl hp) hne
  rw [Apart] at hapart
  dsimp only at hapart
  omega

theorem setVmaNext_spec (h : Inv shape free s) (hp : (.vma, p) ∈ s.out) (hq : q < 2 ^ 64) :
    Inv shape free (setVmaNext p q s) ∧ (∀ x ∈ s.out, x ≠ (.vma, p) → Keeps s (setVmaNext p q s) x) ∧
      word (setVmaNext p q s).mem (p + 32) = q ∧
      ∀ a, a < p + 32 ∨ p + 40 ≤ a → (setVmaNext p q s).mem a = s.mem a := by
  obtain ⟨hinv, hkeeps⟩ := store_inv h hp 32 (encode 8 q) (by rw [length_encode]; decide)
  refine ⟨hinv, hkeeps, (at_put _ _ _).word_eq hq, ?_⟩
  rintro a (ha | ha)
  · exact put_of_lt ha
  · exact put_of_ge (by rw [length_encode]; omega)

theorem setVma_spec (h : Inv shape free s) (hpage : s.head .vma = 0 → Offered page s) (a : Area) :
    ∃ p t, setVma page a s = .ok (p, t) ∧ (∃ free', Inv shape free' t) ∧ t.out = (.vma, p) :: s.out ∧
      (Kind.vma, p) ∉ s.out ∧ (∀ x ∈ s.out, Keeps s t x) ∧ vmaNext t.mem p = none ∧ word t.mem (p + 40) = 0 := by
  obtain ⟨p, s₁, hget, hgot⟩ := getVmaStruct_got h hpage
  obtain ⟨free₁, hinv₁⟩ := hgot.inv
  obtain ⟨bytes, hbytes⟩ : ∃ bytes, bytes = [a.vmStart, a.vmEnd, a.type, a.flag, 0].flatMap (encode 8) := ⟨_, rfl⟩
  have hlen : bytes.length = 40 := by simp [hbytes]
  obtain ⟨hinv, hkeeps⟩ := store_inv hinv₁ (p := p) (by rw [hgot.out]; exact List.mem_cons_self) 0 bytes (by omega)
  rw [Nat.add_zero] at hinv hkeeps
  refine ⟨p, store p bytes s₁, ?_, ⟨free₁, hinv⟩, hgot.out, hgot.not_mem, fun x hx => ?_, ?_, ?_⟩
  · rw [setVma, hget, hbytes]
    rfl
  · refine (hgot.keeps x hx).trans (hkeeps x ?_ fun he => hgot.not_mem (he ▸ hx))
    rw [hgot.out]
    exact List.mem_cons_of_mem _ hx
  · have hat : At (store p bytes s₁).mem p bytes := at_put p bytes s₁.mem
    have hsplit : bytes = [a.vmStart, a.vmEnd, a.type, a.flag].flatMap (encode 8) ++ encode 8 0 := by simp [hbytes]
    rw [hsplit, at_append] at hat
    have hnext := hat.2.word_eq (by decide)
    rw [← hsplit] at hnext
    simp only [List.length_flatMap, length_encode] at hnext
    exact pointer_eq_none.mpr hnext
  · have hzero : word s₁.mem (p + 40) = 0 := by
      apply decode_eq_zero.mpr
      intro b hb
      obtain ⟨i, hi, rfl⟩ := mem_peek.mp hb
      rw [Nat.add_assoc, hgot.zero.get (by rw [List.length_replicate]; omega), List.getElem_replicate]
    rw [← hzero]
    exact word_congr fun x hle _ => put_of_ge (by omega)

structure Supply (pages : List ℕ) (s : Pools Kind) : Prop where
  nodup : pages.Nodup
  offered : ∀ page ∈ pages, Offered page s

theorem Supply.tail {pages : List ℕ} (h : Supply (page :: pages) s)
    (ht : ∀ page' ∈ t.pages, page' = page ∨ page' ∈ s.pages) : Supply pages t := by
  obtain ⟨hnot, hnodup⟩ := List.nodup_cons.mp h.nodup
  refine ⟨hnodup, fun page' hpage' => ?_⟩
  obtain ⟨hpos, haligned, hsmall, hnew⟩ := h.offered page' (List.mem_cons_of_mem _ hpage')
  refine ⟨hpos, haligned, hsmall, fun hmem => ?_⟩
  rcases ht page' hmem with rfl | hmem
  · exact hnot hpage'
  · exact hnew hmem

theorem copy_got (hp : (.vma, p) ∈ s.out) (h : Got page s q t) :
    ∃ free, Inv shape free (store q (peek t.mem p 48) t) ∧ (∀ x ∈ s.out, Keeps s (store q (peek t.mem p 48) t) x) ∧
      ∀ i < 48, (store q (peek t.mem p 48) t).mem (q + i) = s.mem (p + i) := by
  obtain ⟨free, hinv⟩ := h.inv
  obtain ⟨hinv', hkeeps⟩ := store_inv hinv (p := q) (by rw [h.out]; exact List.mem_cons_self) 0
    (peek t.mem p 48) (by rw [length_peek])
  rw [Nat.add_zero] at hinv' hkeeps
  refine ⟨free, hinv', fun x hx => ?_, fun i hi => ?_⟩
  · exact (h.keeps x hx).trans (hkeeps x (by rw [h.out]; exact List.mem_cons_of_mem _ hx) fun he => h.not_mem (he ▸ hx))
  · have hi' : i < (peek t.mem p 48).length := by rwa [length_peek]
    have hpeek : (peek t.mem p 48)[i] = t.mem (p + i) := by simp [peek]
    rw [← (h.keeps _ hp).byte hi, ← hpeek]
    exact (at_put q (peek t.mem p 48) t.mem).get hi'

def Copied (s : Pools Kind) (p : ℕ) (t : Pools Kind) (q : ℕ) : Prop :=
  ∀ i < 48, i < 32 ∨ 40 ≤ i → t.mem (q + i) = s.mem (p + i)

theorem Copied.word (h : Copied s p t q) {i : ℕ} (hi : i + 8 ≤ 32 ∨ i = 40) :
    word t.mem (q + i) = word s.mem (p + i) := by
  apply word_moved
  intro j hj
  rw [Nat.add_assoc, Nat.add_assoc]
  exact h (i + j) (by omega) (by omega)

theorem Copied.area (h : Copied s p t q) : area t.mem q = area s.mem p := by
  have hfirst : Bytes.word t.mem q = Bytes.word s.mem p := h.word (i := 0) (by decide)
  rw [TaskPool.area, TaskPool.area, hfirst, h.word (by decide), h.word (by decide), h.word (by decide)]

/-- A new struct `q` that is a copy of `parent`, the field `next` included. What is at `child` may have changed. -/
structure Cloned (page : ℕ) (s : Pools Kind) (parent child q : ℕ) (t : Pools Kind) : Prop where
  inv : ∃ free, Inv shape free t
  out : t.out = (.vma, q) :: s.out
  new : (Kind.vma, q) ∉ s.out
  pages : ∀ page' ∈ t.pages, page' = page ∨ page' ∈ s.pages
  keeps : ∀ x ∈ s.out, x ≠ (.vma, child) → Keeps s t x
  copy : ∀ i < 48, t.mem (q + i) = s.mem (parent + i)

section Cloning

variable {parent child : ℕ} {pages : List ℕ}

theorem Cloned.mem_out (h : Cloned page s parent child q t) : (.vma, q) ∈ t.out := by
  rw [h.out]
  exact List.mem_cons_self

theorem Cloned.old_out (h : Cloned page s parent child q t) {x : Kind × ℕ} (hx : x ∈ s.out) : x ∈ t.out ∧ x ≠ (.vma, q) := by
  rw [h.out]
  exact ⟨List.mem_cons_of_mem _ hx, fun he => h.new (he ▸ hx)⟩

theorem Cloned.pos (h : Cloned page s parent child q t) : 0 < q ∧ q < 2 ^ 64 := by
  obtain ⟨free, hinv⟩ := h.inv
  exact hinv.pos (.inl h.mem_out)

theorem Cloned.rest (h : Cloned page s parent child q t) (hl : Chain (vmaNext s.mem) (vmaNext s.mem parent) l)
    (hout : ∀ p ∈ parent :: l, (.vma, p) ∈ s.out ∧ p ≠ child) :
    (∀ p ∈ parent :: l, Keeps s t (.vma, p)) ∧ Chain (vmaNext t.mem) (pointer (word t.mem (parent + 32))) l ∧
      vmaNext t.mem q = pointer (word t.mem (parent + 32)) ∧ ∀ p ∈ l, (.vma, p) ∈ t.out ∧ p ≠ q := by
  have hkeeps : ∀ p ∈ parent :: l, Keeps s t (.vma, p) := by
    intro p hp
    obtain ⟨hmem, hne⟩ := hout p hp
    exact h.keeps _ hmem fun he => hne (Prod.mk.inj he).2
  have hword := (hkeeps parent List.mem_cons_self).word (i := 32) (by decide)
  refine ⟨hkeeps, ?_, ?_, fun p hp => ?_⟩
  · rw [hword]
    exact seg_congr (fun p hp => (hkeeps p (List.mem_cons_of_mem _ hp)).vmaNext) hl
  · have hnext : word t.mem (q + 32) = word s.mem (parent + 32) := by
      apply word_moved
      intro i hi
      rw [Nat.add_assoc, Nat.add_assoc]
      exact h.copy (32 + i) (by omega)
    rw [vmaNext, hnext, hword]
  · obtain ⟨hmem, hne⟩ := h.old_out (hout p (List.mem_cons_of_mem _ hp)).1
    exact ⟨hmem, fun he => hne (he ▸ rfl)⟩

theorem cloned (h : Inv shape free s) (hparent : (.vma, parent) ∈ s.out) (hpage : Offered page s) :
    ∃ q t, Cloned page s parent 0 q t ∧ ∀ pages child vm, copyVmas (page :: pages) parent child vm s =
      if child = 0 then copyVmas pages (word t.mem (parent + 32)) q q t
      else copyVmas pages (word (setVmaNext child q t).mem (parent + 32)) (word (setVmaNext child q t).mem (child + 32)) vm
        (setVmaNext child q t) := by
  obtain ⟨q, s₁, hget, hgot⟩ := getVmaStruct_got h fun _ => hpage
  obtain ⟨free₂, hinv₂, hkeeps₂, hcopy₂⟩ := copy_got hparent hgot
  refine ⟨q, store q (peek s₁.mem parent 48) s₁, ⟨⟨free₂, hinv₂⟩, hgot.out, hgot.not_mem, hgot.pages,
    fun x hx _ => hkeeps₂ x hx, hcopy₂⟩, fun pages child vm => ?_⟩
  rw [copyVmas, if_neg (h.pos (.inl hparent)).1.ne', hget]

structure Round (page : ℕ) (s : Pools Kind) (parent child q : ℕ) (t : Pools Kind) : Prop
    extends Cloned page s parent child q t where
  link : word t.mem (child + 32) = q
  last : Copied s child t child

theorem round (h : Inv shape free s) (hparent : (.vma, parent) ∈ s.out) (hchild : (.vma, child) ∈ s.out)
    (hpage : Offered page s) : ∃ q t, Round page s parent child q t ∧ ∀ pages vm,
      copyVmas (page :: pages) parent child vm s = copyVmas pages (word t.mem (parent + 32)) q vm t := by
  obtain ⟨q, s₂, hclone, hrun⟩ := cloned h hparent hpage
  obtain ⟨free₂, hinv₂⟩ := hclone.inv
  have hpos : ∀ {x}, x ∈ s.out → x ≠ (Kind.vma, 0) := fun hx he => (h.pos (.inl (he ▸ hx))).1.ne' rfl
  have hkeeps₂ : ∀ x ∈ s.out, Keeps s s₂ x := fun x hx => hclone.keeps x hx (hpos hx)
  obtain ⟨hinv₃, hkeeps₃, hword₃, hrest₃⟩ := setVmaNext_spec hinv₂ (hclone.old_out hchild).1 hclone.pos.2
  refine ⟨q, setVmaNext child q s₂, ⟨⟨⟨free₂, hinv₃⟩, hclone.out, hclone.new, hclone.pages, fun x hx hne => ?_,
    fun i hi => ?_⟩, hword₃, fun i hi ho => ?_⟩, fun pages vm => ?_⟩
  · exact (hkeeps₂ x hx).trans (hkeeps₃ x (hclone.old_out hx).1 hne)
  · rw [(hkeeps₃ _ hclone.mem_out (hclone.old_out hchild).2.symm).byte hi, hclone.copy i hi]
  · rw [hrest₃ _ (by omega), (hkeeps₂ _ hchild).byte hi]
  · rw [hrun, if_neg (h.pos (.inl hchild)).1.ne', hword₃]

structure Extended (s : Pools Kind) (l : List ℕ) (child : ℕ) (t : Pools Kind) (l' : List ℕ) : Prop where
  inv : ∃ free, Inv shape free t
  chain : Chain (vmaNext t.mem) (vmaNext t.mem child) l'
  copies : List.Forall₂ (fun p q => Copied s p t q) l l'
  out : t.out = (l'.map fun q => (Kind.vma, q)).reverse ++ s.out
  keeps : ∀ x ∈ s.out, x ≠ (.vma, child) → Keeps s t x
  last : Copied s child t child

theorem Copied.of_keeps {u : Pools Kind} (h : Copied t p u q) (hp : Keeps s t (.vma, p)) : Copied s p u q := by
  intro i hi ho
  rw [h i hi ho, hp.byte hi]

theorem Cloned.extended {u : Pools Kind} {l' : List ℕ} (h : Cloned page s parent child q t)
    (hkeeps : ∀ p ∈ parent :: l, Keeps s t (.vma, p)) (hext : Extended t l q u l') :
    List.Forall₂ (fun p q => Copied s p u q) (parent :: l) (q :: l') ∧
      u.out = ((q :: l').map fun q => (Kind.vma, q)).reverse ++ s.out ∧ ∀ x ∈ s.out, Keeps t u x := by
  refine ⟨.cons (fun i hi ho => ?_) ?_, ?_, fun x hx => hext.keeps x (h.old_out hx).1 (h.old_out hx).2⟩
  · rw [hext.last i hi ho, h.copy i hi]
  · have hboth := (List.forall₂_and_left l l').mpr ⟨fun p hp => hkeeps p (List.mem_cons_of_mem _ hp), hext.copies⟩
    exact hboth.imp fun _ _ ⟨hkeep, hcopy⟩ => hcopy.of_keeps hkeep
  · rw [hext.out, h.out, List.map_cons, List.reverse_cons, List.append_assoc]
    rfl

theorem copyVmas_extended (h : Inv shape free s) (hl : Chain (vmaNext s.mem) (pointer parent) l)
    (hout : ∀ p ∈ l, (.vma, p) ∈ s.out ∧ p ≠ child) (hchild : (.vma, child) ∈ s.out)
    (hnext : vmaNext s.mem child = pointer parent) (hpages : Supply pages s) (hlen : l.length ≤ pages.length) :
    ∃ t l', copyVmas pages parent child vm s = some (vm, t) ∧ Extended s l child t l' := by
  induction l generalizing free s pages parent child with
  | nil =>
    have hzero : parent = 0 := pointer_eq_none.mp hl
    refine ⟨s, [], ?_, ⟨free, h⟩, hnext.trans hl, .nil, rfl, fun _ _ _ _ _ _ => rfl, fun _ _ _ => rfl⟩
    cases pages <;> exact if_pos hzero
  | cons p l ih =>
    obtain ⟨page, pages, rfl⟩ : ∃ page pages', pages = page :: pages' :=
      List.exists_cons_of_length_pos (by simp at hlen; omega)
    obtain ⟨hparent, hl⟩ := hl
    obtain ⟨rfl, hpos⟩ := pointer_eq_some.mp hparent
    obtain ⟨hp, _⟩ := hout parent List.mem_cons_self
    obtain ⟨q, s₃, hround, hrun₃⟩ := round h hp hchild (hpages.offered page List.mem_cons_self)
    obtain ⟨free₃, hinv₃⟩ := hround.inv
    obtain ⟨hkeeps, hchain₃, hnext₃, hout₃⟩ := hround.rest hl hout
    obtain ⟨t, l', hrun, hext⟩ := ih hinv₃ hchain₃ hout₃ hround.mem_out hnext₃ (hpages.tail hround.pages)
      (by simpa using hlen)
    obtain ⟨hcopies, hout', hkeept⟩ := hround.extended hkeeps hext
    refine ⟨t, q :: l', (hrun₃ pages vm).trans hrun, hext.inv, ⟨?_, hext.chain⟩, hcopies, hout', fun x hx hne => ?_,
      fun i hi ho => ?_⟩
    · rw [(hkeept _ hchild).vmaNext, vmaNext, hround.link]
      exact pointer_of_pos hround.pos.1
    · exact (hround.keeps x hx hne).trans (hkeept x hx)
    · rw [(hkeept _ hchild).byte hi, hround.last i hi ho]

structure Forked (s : Pools Kind) (l : List ℕ) (vm' : ℕ) (t : Pools Kind) (l' : List ℕ) : Prop where
  inv : ∃ free, Inv shape free t
  chain : Chain (vmaNext t.mem) (pointer vm') l'
  copies : List.Forall₂ (fun p q => Copied s p t q) l l'
  out : t.out = (l'.map fun q => (Kind.vma, q)).reverse ++ s.out
  keeps : ∀ x ∈ s.out, Keeps s t x

theorem forkVmas_forked (h : Inv shape free s) (hl : Chain (vmaNext s.mem) (pointer vm) l)
    (hout : ∀ p ∈ l, (.vma, p) ∈ s.out) (hpages : Supply pages s) (hlen : l.length ≤ pages.length) :
    ∃ vm' t l', forkVmas pages vm s = some (vm', t) ∧ Forked s l vm' t l' := by
  cases l with
  | nil =>
    have hzero : vm = 0 := pointer_eq_none.mp hl
    refine ⟨vm, s, [], ?_, ⟨free, h⟩, hl, .nil, rfl, fun _ _ _ _ _ => rfl⟩
    rw [forkVmas]
    cases pages <;> exact if_pos hzero
  | cons p l =>
    obtain ⟨page, pages, rfl⟩ : ∃ page pages', pages = page :: pages' :=
      List.exists_cons_of_length_pos (by simp at hlen; omega)
    obtain ⟨hparent, hl⟩ := hl
    obtain ⟨rfl, hpos⟩ := pointer_eq_some.mp hparent
    have hne : ∀ {x}, x ∈ s.out → x ≠ (Kind.vma, 0) := fun hx he => (h.pos (.inl (he ▸ hx))).1.ne' rfl
    obtain ⟨q, s₂, hclone, hrun₂⟩ := cloned h (hout vm List.mem_cons_self) (hpages.offered page List.mem_cons_self)
    obtain ⟨free₂, hinv₂⟩ := hclone.inv
    obtain ⟨hkeeps, hchain₂, hnext₂, hout₂⟩ := hclone.rest hl fun p hp => ⟨hout p hp, fun he => hne (hout p hp) (he ▸ rfl)⟩
    obtain ⟨t, l', hrun, hext⟩ := copyVmas_extended hinv₂ hchain₂ hout₂ hclone.mem_out hnext₂
      (hpages.tail hclone.pages) (by simpa using hlen)
    obtain ⟨hcopies, hout', hkeept⟩ := hclone.extended hkeeps hext
    refine ⟨q, t, q :: l', ?_, hext.inv, ⟨pointer_of_pos hclone.pos.1, hext.chain⟩, hcopies, hout',
      fun x hx => (hclone.keeps x hx (hne hx)).trans (hkeept x hx)⟩
    rw [forkVmas, hrun₂, if_pos rfl, hrun]

end Cloning

end Os506.TaskPool
