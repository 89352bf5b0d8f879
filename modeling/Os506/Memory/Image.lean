import Os506.Memory.Loading
import Os506.Lib.Bytes

namespace Os506

open Bytes

namespace Segment

def row (g : Segment) : List UInt8 := g.bytes ++ List.replicate (g.memsz - g.bytes.length) 0

def Has (g : Segment) (x : ℕ) : Prop := g.vaddr ≤ x ∧ x < g.vaddr + g.memsz

def vma (g : Segment) : Vma := ⟨g.vaddr, g.vaddr + g.memsz, .data⟩

theorem has_vma_iff {g : Segment} {x : ℕ} : g.vma.has x = true ↔ g.Has x := by
  rw [Vma.has, Bool.and_eq_true, decide_eq_true_iff, decide_eq_true_iff]
  rfl

theorem length_row (g : Segment) : g.row.length = g.memsz := by
  rw [row, List.length_append, List.length_replicate]
  exact Nat.add_sub_cancel' g.file_le

end Segment

namespace Mach

variable {l : List Segment} {g : Segment} {x : ℕ}

theorem poke_eq_put (va : ℕ) (l : List UInt8) (t : ℕ → UInt8) : poke va l t = put va l t := by
  induction l generalizing va t with
  | nil => rfl
  | cons b l ih => rw [poke, ih, put]

theorem image_eq_put (g : Segment) (t : ℕ → UInt8) : image g t = put g.vaddr g.row t := by
  rw [image, poke_eq_put, poke_eq_put, ← put_append, Segment.row]

theorem foldl_image_off (h : ∀ g ∈ l, ¬ g.Has x) (t : ℕ → UInt8) : l.foldl (fun t g => image g t) t x = t x := by
  induction l generalizing t with
  | nil => rfl
  | cons g l ih =>
    rw [List.forall_mem_cons] at h
    rw [List.foldl_cons, ih h.2, image_eq_put]
    by_cases hlt : x < g.vaddr
    · exact put_of_lt hlt
    · apply put_of_ge
      rw [g.length_row]
      by_contra hge
      exact h.1 ⟨by omega, by omega⟩

theorem foldl_image_at (hl : l.Pairwise fun g g' => ∀ x, ¬ (g.Has x ∧ g'.Has x)) (hg : g ∈ l) (t : ℕ → UInt8) :
    At (l.foldl (fun t g => image g t) t) g.vaddr g.row := by
  induction l generalizing t with
  | nil => cases hg
  | cons g' l ih =>
    rw [List.pairwise_cons] at hl
    rw [List.foldl_cons]
    rcases List.mem_cons.mp hg with rfl | hg
    · rw [image_eq_put]
      apply (at_put g.vaddr g.row t).congr
      intro x hle hlt
      rw [g.length_row] at hlt
      exact foldl_image_off (fun g' hg' hx => hl.1 g' hg' x ⟨⟨hle, hlt⟩, hx⟩) _
    · exact ih hl.2 hg _

theorem loadImage_at {args : List UInt8} (hl : l.Pairwise fun g g' => ∀ x, ¬ (g.Has x ∧ g'.Has x)) (hg : g ∈ l)
    (htop : g.vaddr + g.memsz + args.length ≤ userStackTop - 8) : At (loadImage l args) g.vaddr g.row := by
  rw [loadImage, poke_eq_put]
  apply (foldl_image_at hl hg _).congr
  intro x _ hlt
  rw [g.length_row] at hlt
  exact put_of_lt (by omega)

end Mach

end Os506
