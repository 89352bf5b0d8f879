import Os506.Lib.Bytes
import Os506.Lib.Linked
import Mathlib.Data.List.Pairwise

namespace Os506.Pool

open Bytes Linked

structure Shape where
  size : ℕ
  free : ℕ
  fits : free + 8 ≤ size
  small : size ≤ 2048

def pointer (a : ℕ) : Option ℕ := if a = 0 then none else some a

def next (c : Shape) (mem : ℕ → UInt8) (p : ℕ) : Option ℕ := pointer (word mem (p + c.free))

def setFree (c : Shape) (p q : ℕ) (mem : ℕ → UInt8) : ℕ → UInt8 := put (p + c.free) (encode 8 q) mem

def clear (c : Shape) (p : ℕ) (mem : ℕ → UInt8) : ℕ → UInt8 := put p (List.replicate c.size 0) mem

def linkLoop (c : Shape) (ptr : ℕ) : ℕ → ℕ → ℕ → (ℕ → UInt8) → ℕ → UInt8
  | 0, _, _, mem => mem
  | n + 1, prev, num, mem =>
    if (num + c.size) % 2 ^ 64 < (ptr + 4096) % 2 ^ 64 then
      linkLoop c ptr n num ((num + c.size) % 2 ^ 64) (setFree c prev num mem)
    else setFree c prev 0 mem

def linkPage (c : Shape) (ptr : ℕ) (mem : ℕ → UInt8) : ℕ → UInt8 :=
  linkLoop c ptr 4096 ptr (ptr + c.size) mem

theorem linkPage_eq (c : Shape) (ptr : ℕ) (mem : ℕ → UInt8) :
    linkPage c ptr mem = linkLoop c ptr 4096 ptr (ptr + c.size) mem := rfl

attribute [irreducible] linkPage

section Memory

variable {c : Shape} {mem : ℕ → UInt8} {p q x : ℕ}

theorem pointer_of_pos (h : 0 < p) : pointer p = some p := if_neg h.ne'

theorem pointer_eq_some {a : ℕ} : pointer a = some p ↔ a = p ∧ p ≠ 0 := by
  rw [pointer]
  split
  · rename_i h
    exact iff_of_false nofun fun ⟨he, hne⟩ => hne (he ▸ h)
  · rename_i h
    rw [Option.some.injEq]
    exact ⟨fun he => ⟨he, he ▸ h⟩, And.left⟩

theorem pointer_eq_none {a : ℕ} : pointer a = none ↔ a = 0 := by
  rw [pointer]
  split <;> simp_all

theorem setFree_off (h : x < p ∨ p + c.size ≤ x) : setFree c p q mem x = mem x := by
  have := c.fits
  rcases h with h | h
  · exact put_of_lt (by omega)
  · exact put_of_ge (by rw [length_encode]; omega)

theorem clear_off (h : x < p ∨ p + c.size ≤ x) : clear c p mem x = mem x := by
  rcases h with h | h
  · exact put_of_lt h
  · exact put_of_ge (by rwa [List.length_replicate])

theorem next_setFree (hq : q < 2 ^ 64) : next c (setFree c p q mem) p = pointer q := by
  rw [next, setFree, At.word_eq (at_put _ _ _) hq]

theorem next_congr {mem' : ℕ → UInt8} (h : ∀ x, p ≤ x → x < p + c.size → mem' x = mem x) :
    next c mem' p = next c mem p := by
  have := c.fits
  rw [next, next, word, word, peek_congr fun x hle hlt => h x (by omega) (by omega)]

end Memory

theorem linkLoop_spec {c : Shape} {ptr n prev : ℕ} (hptr : ptr % 4096 = 0) (htop : ptr < 2 ^ 64) (hle : ptr ≤ prev)
    (hfit : prev + c.size ≤ ptr + 4096) (hpos : 0 < prev) (hn : ptr + 4096 < prev + c.size + n) (mem : ℕ → UInt8) :
    ∃ l, Chain (next c (linkLoop c ptr n prev (prev + c.size) mem)) (some prev) (prev :: l) ∧
      (prev :: l).Pairwise (fun p q => p + c.size ≤ q) ∧ (∀ q ∈ prev :: l, prev ≤ q ∧ q + c.size ≤ ptr + 4096) ∧
      ∀ x, x < prev ∨ ptr + 4096 ≤ x → linkLoop c ptr n prev (prev + c.size) mem x = mem x := by
  have hfits := c.fits
  have hsmall := c.small
  induction n generalizing prev mem with
  | zero => omega
  | succ n ih =>
    rw [linkLoop]
    split
    case isFalse =>
      refine ⟨[], ⟨rfl, next_setFree (by omega)⟩, List.pairwise_singleton _ _, ?_, fun x hx => setFree_off (by omega)⟩
      intro q hq
      rw [List.mem_singleton.mp hq]
      omega
    case isTrue hlt =>
      -- The page is aligned, so that the sum does not wrap.
      have hnum : prev + c.size + c.size < ptr + 4096 := by omega
      rw [Nat.mod_eq_of_lt (show prev + c.size + c.size < 2 ^ 64 by omega)]
      obtain ⟨l, hl, hsort, hin, hoff⟩ := ih (show ptr ≤ prev + c.size by omega) (by omega) (by omega)
        (by omega) (setFree c prev (prev + c.size) mem)
      refine ⟨(prev + c.size) :: l, ⟨rfl, ?_⟩, List.pairwise_cons.mpr ⟨fun q hq => (hin q hq).1, hsort⟩, ?_, ?_⟩
      · have hlink := next_congr (c := c) (p := prev) fun x _ hx => hoff x (.inl hx)
        rw [hlink, next_setFree (by omega), pointer_of_pos (by omega)]
        exact hl
      · intro q hq
        rcases List.mem_cons.mp hq with rfl | hq
        · omega
        · have := hin q hq
          omega
      · intro x hx
        rw [hoff x (by omega), setFree_off (by omega)]

theorem linkPage_spec {c : Shape} {ptr : ℕ} (hptr : ptr % 4096 = 0) (htop : ptr < 2 ^ 64) (hpos : 0 < ptr)
    (mem : ℕ → UInt8) : ∃ l, Chain (next c (linkPage c ptr mem)) (some ptr) (ptr :: l) ∧
      (ptr :: l).Pairwise (fun p q => p + c.size ≤ q) ∧ (∀ q ∈ ptr :: l, ptr ≤ q ∧ q + c.size ≤ ptr + 4096) ∧
      ∀ x, x < ptr ∨ ptr + 4096 ≤ x → linkPage c ptr mem x = mem x := by
  have hfits := c.fits
  have hsmall := c.small
  rw [linkPage_eq]
  exact linkLoop_spec hptr htop le_rfl (by omega) hpos (by omega) mem

structure Pools (κ : Type) where
  mem : ℕ → UInt8
  head : κ → ℕ
  pages : List ℕ
  out : List (κ × ℕ)

section Operations

variable {κ : Type} [DecidableEq κ] (shape : κ → Shape)

def reload (k : κ) (ptr : ℕ) (s : Pools κ) : Pools κ :=
  { s with
    mem := linkPage (shape k) ptr s.mem
    head := Function.update s.head k ptr
    pages := ptr :: s.pages }

def take (k : κ) (s : Pools κ) : Pools κ :=
  { s with
    mem := clear (shape k) (s.head k) s.mem
    head := Function.update s.head k (word s.mem (s.head k + (shape k).free))
    out := (k, s.head k) :: s.out }

def get (k : κ) (msg : String) (refill : Pools κ → Pools κ) (s : Pools κ) : Except String (ℕ × Pools κ) :=
  let s := if s.head k = 0 then refill s else s
  if s.head k = 0 then .error msg else .ok (s.head k, take shape k s)

def release (k : κ) (p : ℕ) (s : Pools κ) : Pools κ :=
  { s with
    mem := setFree (shape k) p (s.head k) (clear (shape k) p s.mem)
    head := Function.update s.head k p
    out := s.out.erase (k, p) }

end Operations

section Invariant

variable {κ : Type} (shape : κ → Shape)

def Apart (x y : κ × ℕ) : Prop := x.2 + (shape x.1).size ≤ y.2 ∨ y.2 + (shape y.1).size ≤ x.2

def Inside (x : κ × ℕ) (page : ℕ) : Prop := page ≤ x.2 ∧ x.2 + (shape x.1).size ≤ page + 4096

structure Fresh (page : ℕ) (s : Pools κ) : Prop where
  aligned : page % 4096 = 0
  small : page < 2 ^ 64
  new : page ∉ s.pages

def Object (free : κ → List ℕ) (s : Pools κ) (x : κ × ℕ) : Prop := x ∈ s.out ∨ x.2 ∈ free x.1

/-- The free lists `free` and the objects handed out share the pages. -/
structure Inv (free : κ → List ℕ) (s : Pools κ) : Prop where
  chain : ∀ k, Chain (next (shape k) s.mem) (pointer (s.head k)) (free k)
  away : ∀ k, ∀ p ∈ free k, (k, p) ∉ s.out
  nodup : s.out.Nodup
  apart : ∀ x y, Object free s x → Object free s y → x ≠ y → Apart shape x y
  inside : ∀ x, Object free s x → ∃ page ∈ s.pages, Inside shape x page
  pages : ∀ page ∈ s.pages, page % 4096 = 0 ∧ 0 < page ∧ page < 2 ^ 64

end Invariant

variable {κ : Type} {shape : κ → Shape} {free : κ → List ℕ} {s : Pools κ} {k : κ} {p ptr : ℕ} {l : List ℕ}

theorem Inv.pos (h : Inv shape free s) {x : κ × ℕ} (hx : Object free s x) : 0 < x.2 ∧ x.2 < 2 ^ 64 := by
  obtain ⟨page, hpage, hin⟩ := h.inside x hx
  obtain ⟨_, hpos, hlt⟩ := h.pages page hpage
  have := hin.1
  have := hin.2
  have := (shape x.1).fits
  omega

theorem Inv.head_lt (h : Inv shape free s) (k : κ) : s.head k < 2 ^ 64 := by
  have hc := h.chain k
  cases hl : free k with
  | nil =>
    rw [hl] at hc
    have := pointer_eq_none.mp hc
    omega
  | cons q l =>
    rw [hl] at hc
    rw [(pointer_eq_some.mp hc.1).1]
    exact (h.pos (x := (k, q)) (.inr (by simp [hl]))).2

theorem Inv.chain_congr (h : Inv shape free s) {mem : ℕ → UInt8} {x : κ × ℕ} (hx : Object free s x)
    (hmem : ∀ a, a < x.2 ∨ x.2 + (shape x.1).size ≤ a → mem a = s.mem a) (k : κ) (hl : ∀ q ∈ l, q ∈ free k ∧ (k, q) ≠ x)
    {q : Option ℕ} (hc : Chain (next (shape k) s.mem) q l) : Chain (next (shape k) mem) q l := by
  apply seg_congr _ hc
  intro q hq
  obtain ⟨hfree, hne⟩ := hl q hq
  apply next_congr
  intro a hle hlt
  apply hmem
  have hapart := h.apart (k, q) x (.inr hfree) hx hne
  rw [Apart] at hapart
  dsimp only at hapart
  omega

theorem Inv.write (h : Inv shape free s) {x : κ × ℕ} (hx : x ∈ s.out) {mem : ℕ → UInt8}
    (hmem : ∀ a, a < x.2 ∨ x.2 + (shape x.1).size ≤ a → mem a = s.mem a) : Inv shape free { s with mem := mem } := by
  refine ⟨fun k => ?_, h.away, h.nodup, h.apart, h.inside, h.pages⟩
  apply h.chain_congr (.inl hx) hmem k _ (h.chain k)
  intro q hq
  exact ⟨hq, fun he => h.away k q hq (he ▸ hx)⟩

theorem apart_of_pages {x y : κ × ℕ} {page page' : ℕ} (hx : Inside shape x page) (hy : Inside shape y page')
    (hpage : page % 4096 = 0) (hpage' : page' % 4096 = 0) (hne : page ≠ page') : Apart shape x y := by
  obtain ⟨_, _⟩ := hx
  obtain ⟨_, _⟩ := hy
  rw [Apart]
  omega

variable [DecidableEq κ]

theorem Inv.take (h : Inv shape free s) (hk : free k = p :: l) :
    s.head k = p ∧ Inv shape (Function.update free k l) (take shape k s) := by
  have hc := h.chain k
  rw [hk] at hc
  have hnd := List.nodup_cons.mp (chain_nodup hc)
  have hhead : s.head k = p := by
    have := hc.1
    rw [pointer] at this
    split at this
    · cases this
    · exact Option.some.inj this
  have hp : Object free s (k, p) := .inr (by simp [hk])
  have hsub : ∀ j q, q ∈ Function.update free k l j → q ∈ free j := by
    intro j q hq
    by_cases hj : j = k
    · subst hj
      rw [Function.update_self] at hq
      exact hk ▸ List.mem_cons_of_mem _ hq
    · rwa [Function.update_of_ne hj] at hq
  have hobj : ∀ x, Object (Function.update free k l) (Pool.take shape k s) x → Object free s x := by
    intro x hx
    rcases hx with hx | hx
    · rcases List.mem_cons.mp hx with rfl | hx
      · exact hhead ▸ hp
      · exact .inl hx
    · exact .inr (hsub _ _ hx)
  have hmem : ∀ a, a < p ∨ p + (shape k).size ≤ a → (Pool.take shape k s).mem a = s.mem a := by
    intro a ha
    rw [← hhead] at ha
    exact clear_off ha
  refine ⟨hhead, ?_, ?_, ?_, fun x y hx hy => h.apart x y (hobj x hx) (hobj y hy), fun x hx => h.inside x (hobj x hx), h.pages⟩
  · intro j
    by_cases hj : j = k
    · subst hj
      have hnext : pointer ((Pool.take shape j s).head j) = next (shape j) s.mem p := by
        change pointer (Function.update s.head j _ j) = _
        rw [Function.update_self, hhead]
        rfl
      rw [hnext, Function.update_self]
      apply h.chain_congr hp hmem j _ hc.2
      intro q hq
      refine ⟨by rw [hk]; exact List.mem_cons_of_mem _ hq, fun he => hnd.1 ?_⟩
      rwa [← (Prod.mk.inj he).2]
    · have hother : (Pool.take shape k s).head j = s.head j := Function.update_of_ne hj _ _
      rw [hother, Function.update_of_ne hj]
      exact h.chain_congr hp hmem j (fun q hq => ⟨hq, fun he => hj (Prod.mk.inj he).1⟩) (h.chain j)
  · intro j q hq hout
    rcases List.mem_cons.mp hout with he | hout
    · obtain ⟨rfl, rfl⟩ := Prod.mk.inj he
      rw [Function.update_self] at hq
      exact hnd.1 (hhead ▸ hq)
    · exact h.away j q (hsub j q hq) hout
  · apply List.nodup_cons.mpr
    rw [hhead]
    exact ⟨h.away k p (by simp [hk]), h.nodup⟩

theorem Inv.release (h : Inv shape free s) (hp : (k, p) ∈ s.out) :
    Inv shape (Function.update free k (p :: free k)) (release shape k p s) := by
  have hout : ∀ x, x ∈ (Pool.release shape k p s).out ↔ x ≠ (k, p) ∧ x ∈ s.out := fun x => h.nodup.mem_erase_iff
  have hnot : p ∉ free k := fun hf => h.away k p hf hp
  have hpos := h.pos (.inl hp)
  have hadd : ∀ j q, q ∈ Function.update free k (p :: free k) j → (j, q) = (k, p) ∨ q ∈ free j := by
    intro j q hq
    by_cases hj : j = k
    · subst hj
      rw [Function.update_self] at hq
      rcases List.mem_cons.mp hq with rfl | hq
      · exact .inl rfl
      · exact .inr hq
    · rw [Function.update_of_ne hj] at hq
      exact .inr hq
  have hobj : ∀ x, Object (Function.update free k (p :: free k)) (Pool.release shape k p s) x → Object free s x := by
    rintro ⟨j, q⟩ hx
    rcases hx with hx | hx
    · exact .inl ((hout _).mp hx).2
    · rcases hadd j q hx with he | hx
      · exact .inl (he ▸ hp)
      · exact .inr hx
  have hmem : ∀ a, a < p ∨ p + (shape k).size ≤ a → (Pool.release shape k p s).mem a = s.mem a := by
    intro a ha
    change setFree (shape k) p (s.head k) (clear (shape k) p s.mem) a = s.mem a
    rw [setFree_off ha, clear_off ha]
  have hhead := h.head_lt k
  refine ⟨?_, ?_, h.nodup.erase _, fun x y hx hy => h.apart x y (hobj x hx) (hobj y hy),
    fun x hx => h.inside x (hobj x hx), h.pages⟩
  · intro j
    by_cases hj : j = k
    · subst hj
      have hself : (Pool.release shape j p s).head j = p := Function.update_self ..
      have hlink : next (shape j) (Pool.release shape j p s).mem p = pointer (s.head j) := next_setFree hhead
      rw [hself, Function.update_self, pointer_of_pos hpos.1]
      refine ⟨rfl, ?_⟩
      rw [hlink]
      apply h.chain_congr (.inl hp) hmem j _ (h.chain j)
      intro q hq
      refine ⟨hq, fun he => hnot ?_⟩
      rwa [← (Prod.mk.inj he).2]
    · have hother : (Pool.release shape k p s).head j = s.head j := Function.update_of_ne hj _ _
      rw [hother, Function.update_of_ne hj]
      exact h.chain_congr (.inl hp) hmem j (fun q hq => ⟨hq, fun he => hj (Prod.mk.inj he).1⟩) (h.chain j)
  · intro j q hq hmemo
    obtain ⟨hne, hmemo⟩ := (hout _).mp hmemo
    rcases hadd j q hq with he | hq
    · exact hne he
    · exact h.away j q hq hmemo

theorem Inv.reload (h : Inv shape free s) (hk : s.head k = 0) (hptr : Fresh ptr s) (hpos : 0 < ptr) :
    ∃ l, Inv shape (Function.update free k (ptr :: l)) (reload shape k ptr s) := by
  have hfits := (shape k).fits
  have hsmall := (shape k).small
  have haligned := hptr.aligned
  have hlt := hptr.small
  have hnil : free k = [] := by
    have hc := h.chain k
    rw [hk] at hc
    cases hl : free k with
    | nil => rfl
    | cons q l =>
      rw [hl] at hc
      cases hc.1
  obtain ⟨l, hl, hsort, hin, hoff⟩ := linkPage_spec (c := shape k) haligned hlt hpos s.mem
  have hnew : ∀ j q, q ∈ Function.update free k (ptr :: l) j → (j = k ∧ q ∈ ptr :: l) ∨ q ∈ free j := by
    intro j q hq
    by_cases hj : j = k
    · subst hj
      rw [Function.update_self] at hq
      exact .inl ⟨rfl, hq⟩
    · rw [Function.update_of_ne hj] at hq
      exact .inr hq
  have hobj : ∀ x, Object (Function.update free k (ptr :: l)) (Pool.reload shape k ptr s) x →
      (x.1 = k ∧ x.2 ∈ ptr :: l ∧ Inside shape x ptr) ∨ Object free s x := by
    rintro ⟨j, q⟩ hx
    rcases hx with hx | hx
    · exact .inr (.inl hx)
    · rcases hnew j q hx with ⟨hj, hq⟩ | hx
      · exact .inl ⟨hj, hq, by rw [Inside, hj]; exact hin q hq⟩
      · exact .inr (.inr hx)
  have hold : ∀ x, Object free s x → ∃ page ∈ s.pages, page % 4096 = 0 ∧ page ≠ ptr ∧ Inside shape x page := by
    intro x hx
    obtain ⟨page, hpage, hins⟩ := h.inside x hx
    exact ⟨page, hpage, (h.pages page hpage).1, fun he => hptr.new (he ▸ hpage), hins⟩
  refine ⟨l, ?_, ?_, h.nodup, ?_, ?_, ?_⟩
  · intro j
    by_cases hj : j = k
    · subst hj
      have hself : (Pool.reload shape j ptr s).head j = ptr := Function.update_self ..
      rw [hself, Function.update_self, pointer_of_pos hpos]
      exact hl
    · have hother : (Pool.reload shape k ptr s).head j = s.head j := Function.update_of_ne hj _ _
      rw [hother, Function.update_of_ne hj]
      apply seg_congr _ (h.chain j)
      intro q hq
      apply next_congr
      intro a hle hlt
      apply hoff
      obtain ⟨page, _, hmod, hne, hins⟩ := hold (j, q) (.inr hq)
      have := hins.1
      have := hins.2
      dsimp only at *
      omega
  · intro j q hq hout
    rcases hnew j q hq with ⟨rfl, hq'⟩ | hq
    · obtain ⟨page, _, hmod, hne, hins⟩ := hold (j, q) (.inl hout)
      have := hins.1
      have := hins.2
      have := hin q hq'
      dsimp only at *
      omega
    · exact h.away j q hq hout
  · intro x y hx hy hne
    rcases hobj x hx with ⟨hxk, hxl, hx⟩ | hx
    · rcases hobj y hy with ⟨hyk, hyl, hy⟩ | hy
      · have hxy : x.2 ≠ y.2 := fun he => hne (Prod.ext (hxk.trans hyk.symm) he)
        rw [Apart, hxk, hyk]
        have hsorted := hsort.imp (S := fun p q => p + (shape k).size ≤ q ∨ q + (shape k).size ≤ p) .inl
        have : Std.Symm fun p q => p + (shape k).size ≤ q ∨ q + (shape k).size ≤ p := ⟨fun _ _ => Or.symm⟩
        exact hsorted.forall hxl hyl hxy
      · obtain ⟨page, _, hmod, hnp, hins⟩ := hold y hy
        exact apart_of_pages hx hins haligned hmod (Ne.symm hnp)
    · rcases hobj y hy with ⟨hyk, hyl, hy⟩ | hy
      · obtain ⟨page, _, hmod, hnp, hins⟩ := hold x hx
        exact apart_of_pages hins hy hmod haligned hnp
      · exact h.apart x y hx hy hne
  · intro x hx
    rcases hobj x hx with ⟨_, _, hx⟩ | hx
    · exact ⟨ptr, List.mem_cons_self, hx⟩
    · obtain ⟨page, hpage, hins⟩ := h.inside x hx
      exact ⟨page, List.mem_cons_of_mem _ hpage, hins⟩
  · intro page hpage
    rcases List.mem_cons.mp hpage with rfl | hpage
    · exact ⟨haligned, hpos, hlt⟩
    · exact h.pages page hpage

theorem get_cases {msg : String} {refill : Pools κ → Pools κ} {t : Pools κ}
    (hget : get shape k msg refill s = .ok (p, t)) :
    (s.head k = 0 ∧ (refill s).head k ≠ 0 ∧ p = (refill s).head k ∧ t = Pool.take shape k (refill s)) ∨
      s.head k ≠ 0 ∧ p = s.head k ∧ t = Pool.take shape k s := by
  rw [Pool.get] at hget
  by_cases hk : s.head k = 0
  · simp only [if_pos hk] at hget
    split at hget
    · cases hget
    · rename_i hne
      obtain ⟨rfl, rfl⟩ := Prod.mk.inj (Except.ok.inj hget)
      exact .inl ⟨hk, hne, rfl, rfl⟩
  · simp only [if_neg hk] at hget
    obtain ⟨rfl, rfl⟩ := Prod.mk.inj (Except.ok.inj hget)
    exact .inr ⟨hk, rfl, rfl⟩

theorem Inv.get (h : Inv shape free s) {msg : String} {t : Pools κ} (hptr : s.head k = 0 → Fresh ptr s)
    (hget : get shape k msg (Pool.reload shape k ptr) s = .ok (p, t)) :
    ∃ free', Inv shape free' t ∧ At t.mem p (List.replicate (shape k).size 0) ∧ t.out = (k, p) :: s.out := by
  have htake : ∀ {free : κ → List ℕ} {s : Pools κ}, Inv shape free s → s.head k ≠ 0 → ∃ free',
      Inv shape free' (Pool.take shape k s) ∧
      At (Pool.take shape k s).mem (s.head k) (List.replicate (shape k).size 0) := by
    intro free s h hne
    have hc := h.chain k
    cases hl : free k with
    | nil =>
      rw [hl, pointer, if_neg hne] at hc
      cases hc
    | cons q l =>
      exact ⟨_, (h.take hl).2, at_put _ _ _⟩
  rcases get_cases hget with ⟨hk, hne, rfl, rfl⟩ | ⟨hk, rfl, rfl⟩
  · have hself : (Pool.reload shape k ptr s).head k = ptr := Function.update_self ..
    obtain ⟨l, hl⟩ := h.reload hk (hptr hk) (Nat.pos_of_ne_zero (hself ▸ hne))
    obtain ⟨free', hinv, hzero⟩ := htake hl hne
    exact ⟨free', hinv, hzero, rfl⟩
  · obtain ⟨free', hinv, hzero⟩ := htake h hk
    exact ⟨free', hinv, hzero, rfl⟩

theorem Inv.get_frame (h : Inv shape free s) {msg : String} {t : Pools κ} (hptr : s.head k = 0 → Fresh ptr s)
    (hget : Pool.get shape k msg (Pool.reload shape k ptr) s = .ok (p, t)) :
    (∀ x ∈ s.out, ∀ a, x.2 ≤ a → a < x.2 + (shape x.1).size → t.mem a = s.mem a) ∧
      ∀ page ∈ t.pages, page = ptr ∨ page ∈ s.pages := by
  rcases get_cases hget with ⟨hk, hne, -, rfl⟩ | ⟨hk, -, rfl⟩
  · have hself : (Pool.reload shape k ptr s).head k = ptr := Function.update_self ..
    have hfresh := hptr hk
    have haligned := hfresh.aligned
    have hsmall := (shape k).small
    have hpos : 0 < ptr := Nat.pos_of_ne_zero (hself ▸ hne)
    obtain ⟨_, _, _, _, hoff⟩ := linkPage_spec (c := shape k) haligned hfresh.small hpos s.mem
    refine ⟨fun x hx a hle hlt => ?_, fun page hpage => List.mem_cons.mp hpage⟩
    -- An old object lies in an old page, away from the new one.
    obtain ⟨page, hpage, hin⟩ := h.inside x (.inl hx)
    have hmod := (h.pages page hpage).1
    have hpne : page ≠ ptr := fun he => hfresh.new (he ▸ hpage)
    obtain ⟨_, _⟩ := hin
    have haway : a < ptr ∨ ptr + 4096 ≤ a := by omega
    change clear (shape k) ((Pool.reload shape k ptr s).head k) (linkPage (shape k) ptr s.mem) a = _
    rw [hself, clear_off (by omega), hoff a haway]
  · refine ⟨fun x hx a hle hlt => clear_off ?_, fun page hpage => .inr hpage⟩
    have hc := h.chain k
    cases hl : free k with
    | nil =>
      rw [hl, pointer, if_neg hk] at hc
      cases hc
    | cons q l =>
      rw [hl, pointer, if_neg hk] at hc
      have hhead := Option.some.inj hc.1
      have hq : (k, q) ∉ s.out := h.away k q (by simp [hl])
      have hapart := h.apart (k, q) x (.inr (by simp [hl])) (.inl hx) fun he => hq (he ▸ hx)
      rw [Apart] at hapart
      dsimp only at hapart
      omega

theorem get_ok {msg : String} (hptr : s.head k = 0 → ptr ≠ 0) :
    ∃ p t, get shape k msg (reload shape k ptr) s = .ok (p, t) := by
  rw [Pool.get]
  by_cases hk : s.head k = 0
  · have hself : (reload shape k ptr s).head k = ptr := Function.update_self ..
    simp only [if_pos hk]
    rw [if_neg (hself.symm ▸ hptr hk)]
    exact ⟨_, _, rfl⟩
  · simp only [if_neg hk]
    exact ⟨_, _, rfl⟩

end Os506.Pool
