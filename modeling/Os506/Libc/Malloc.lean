import Os506.Lib.Bytes
import Os506.Lib.Linked
import Os506.Lib.Run
import Mathlib.Data.List.Pairwise

namespace Os506.Malloc

open Bytes Linked

def size (mem : ℕ → UInt8) (a : ℕ) : ℕ := word mem a

def next (mem : ℕ → UInt8) (a : ℕ) : Option ℕ := if word mem (a + 8) = 0 then none else some (word mem (a + 8))

def free (mem : ℕ → UInt8) (a : ℕ) : ℕ := decode (peek mem (a + 16) 4)

def setFree (a x : ℕ) (mem : ℕ → UInt8) : ℕ → UInt8 := put (a + 16) (encode 4 x) mem

def setNext (a x : ℕ) (mem : ℕ → UInt8) : ℕ → UInt8 := put (a + 8) (encode 8 x) mem

def setMeta (a n : ℕ) (mem : ℕ → UInt8) : ℕ → UInt8 := setFree a 0 (setNext a 0 (put a (encode 8 n) mem))

/-- The memory of a process, the variable `head`, the break in the kernel, and the pointers that were handed out and not
freed, each with the size that was asked for. -/
structure Heap where
  mem : ℕ → UInt8
  head : ℕ
  brk : ℕ
  live : List (ℕ × ℕ)

def malignUp (x : ℕ) : ℕ := (x / 64 * 64 + 64) % 2 ^ 64

/-- The kernel moves the break to what it is asked for. (The test of the answer compares a pointer with 0 and never
fails.) -/
def sbrk (inc : ℕ) (s : Heap) : ℕ × Heap :=
  if inc = 0 then (s.brk, s) else (s.brk, { s with brk := malignUp ((s.brk + inc) % 2 ^ 64) })

inductive Found
  | fit (ptr : ℕ)
  | last (ptr : ℕ)

def findLoop (mem : ℕ → UInt8) (n : ℕ) : ℕ → ℕ → Option Found
  | 0, _ => none
  | k + 1, ptr =>
    if free mem ptr ≠ 0 ∧ n ≤ size mem ptr then some (.fit ptr)
    else match next mem ptr with
      | some q => findLoop mem n k q
      | none => some (.last ptr)

def find (mem : ℕ → UInt8) (n ptr : ℕ) : Option Found := findLoop mem n (2 ^ 64) ptr

theorem find_eq (mem : ℕ → UInt8) (n ptr : ℕ) : find mem n ptr = findLoop mem n (2 ^ 64) ptr := rfl

attribute [irreducible] find

def give (p n : ℕ) (mem : ℕ → UInt8) (s : Heap) : ℕ × Heap :=
  (p + 24, { s with mem := mem, live := (p + 24, n) :: s.live })

def malloc (n : ℕ) (s : Heap) : Option (ℕ × Heap) :=
  if s.head = 0 then
    let (p, s) := sbrk ((n + 24) % 2 ^ 64) s
    if p = 2 ^ 64 - 1 then some (0, s) else some (give p n (setMeta p n s.mem) { s with head := p })
  else (find s.mem n s.head).map fun
    | .fit ptr => give ptr n (setFree ptr 0 s.mem) s
    | .last ptr =>
      let (p, s) := sbrk ((n + 24) % 2 ^ 64) s
      if p = 2 ^ 64 - 1 then (0, s) else give p n (setNext ptr p (setMeta p n s.mem)) s

def freePtr (p : ℕ) (s : Heap) : Option Heap :=
  if p = 0 then some s
  else if free s.mem (p - 24) ≠ 0 then none
  else some { s with mem := setFree (p - 24) 1 s.mem, live := s.live.filter fun x => x.1 ≠ p }

section Fields

variable {mem mem' : ℕ → UInt8} {a b n : ℕ}

def Frame (lo hi : ℕ) (mem mem' : ℕ → UInt8) : Prop := ∀ x, x < lo ∨ hi ≤ x → mem' x = mem x

theorem frame_put {l : List UInt8} : Frame a (a + l.length) mem (put a l mem) := by
  intro x hx
  rcases hx with hx | hx
  · exact put_of_lt hx
  · exact put_of_ge hx

theorem Frame.mono {lo hi : ℕ} (h : Frame a b mem mem') (hlo : lo ≤ a) (hhi : b ≤ hi) : Frame lo hi mem mem' :=
  fun x hx => h x (by omega)

theorem Frame.trans {mem'' : ℕ → UInt8} (h : Frame a b mem mem') (h' : Frame a b mem' mem'') : Frame a b mem mem'' :=
  fun x hx => (h' x hx).trans (h x hx)

theorem Frame.peek (h : Frame a b mem mem') {c n : ℕ} (hc : c + n ≤ a ∨ b ≤ c) : Bytes.peek mem' c n = Bytes.peek mem c n :=
  peek_congr fun x _ _ => h x (by omega)

theorem setFree_frame : Frame (a + 16) (a + 20) mem (setFree a n mem) :=
  frame_put.mono le_rfl (by rw [length_encode])

theorem setNext_frame : Frame (a + 8) (a + 16) mem (setNext a n mem) :=
  frame_put.mono le_rfl (by rw [length_encode])

theorem setMeta_frame : Frame a (a + 24) mem (setMeta a n mem) := by
  have hsize : Frame a (a + 24) mem (put a (encode 8 n) mem) := frame_put.mono le_rfl (by rw [length_encode]; omega)
  have hnext : Frame a (a + 24) (put a (encode 8 n) mem) (setNext a 0 (put a (encode 8 n) mem)) :=
    setNext_frame.mono (by omega) (by omega)
  exact (hsize.trans hnext).trans (setFree_frame.mono (by omega) (by omega))

theorem Frame.header (h : Frame a b mem mem') {c : ℕ} (hc : c + 24 ≤ a ∨ b ≤ c) :
    size mem' c = size mem c ∧ next mem' c = next mem c ∧ free mem' c = free mem c := by
  have hword : ∀ i ≤ 16, word mem' (c + i) = word mem (c + i) := by
    intro i hi
    rw [word, word, h.peek (by omega)]
  refine ⟨hword 0 (by omega), ?_, ?_⟩
  · rw [next, next, hword 8 (by omega)]
  · rw [free, free, h.peek (by omega)]

theorem setFree_header (mem : ℕ → UInt8) (a : ℕ) (hn : n < 2 ^ 32) :
    size (setFree a n mem) a = size mem a ∧ next (setFree a n mem) a = next mem a ∧
    free (setFree a n mem) a = n := by
  have hframe : Frame (a + 16) (a + 20) mem (setFree a n mem) := setFree_frame
  refine ⟨?_, ?_, ?_⟩
  · rw [size, size, word, word, hframe.peek (by omega)]
  · rw [next, next, word, word, hframe.peek (by omega)]
  · have hat : At (setFree a n mem) (a + 16) (encode 4 n) := at_put _ _ _
    rw [At, length_encode] at hat
    rw [free, hat, decode_encode (hn.trans_le (by decide))]

theorem setNext_header (mem : ℕ → UInt8) (a : ℕ) (hn : n < 2 ^ 64) (hpos : 0 < n) : size (setNext a n mem) a = size mem a ∧
    next (setNext a n mem) a = some n ∧ free (setNext a n mem) a = free mem a := by
  have hframe : Frame (a + 8) (a + 16) mem (setNext a n mem) := setNext_frame
  refine ⟨?_, ?_, ?_⟩
  · rw [size, size, word, word, hframe.peek (by omega)]
  · have hword : word (setNext a n mem) (a + 8) = n := At.word_eq (at_put _ _ _) hn
    rw [next, hword, if_neg hpos.ne']
  · rw [free, free, hframe.peek (by omega)]

theorem setMeta_header (mem : ℕ → UInt8) (a : ℕ) (hn : n < 2 ^ 64) :
    size (setMeta a n mem) a = n ∧ next (setMeta a n mem) a = none ∧
    free (setMeta a n mem) a = 0 := by
  obtain ⟨hsize, hnext, hfree⟩ := setFree_header (n := 0) (setNext a 0 (put a (encode 8 n) mem)) a (by decide)
  have hframe : Frame (a + 8) (a + 16) (put a (encode 8 n) mem) (setNext a 0 (put a (encode 8 n) mem)) := setNext_frame
  refine ⟨?_, ?_, hfree⟩
  · rw [setMeta, hsize, size, word, hframe.peek (by omega)]
    exact At.word_eq (at_put _ _ _) hn
  · have hword : word (setNext a 0 (put a (encode 8 n) mem)) (a + 8) = 0 := At.word_eq (at_put _ _ _) (by decide)
    rw [setMeta, hnext, next, hword, if_pos rfl]

end Fields

theorem findLoop_spec {mem : ℕ → UInt8} {n k ptr : ℕ} {l : List ℕ} (hl : Chain (next mem) (some ptr) l) (hk : l.length ≤ k) :
    (∃ q ∈ l, findLoop mem n k ptr = some (.fit q) ∧ free mem q ≠ 0 ∧ n ≤ size mem q) ∨
      ∃ l₀ q, l = l₀ ++ [q] ∧ findLoop mem n k ptr = some (.last q) := by
  induction k generalizing ptr l with
  | zero =>
    obtain rfl := List.eq_nil_of_length_eq_zero (Nat.le_zero.mp hk)
    cases hl
  | succ k ih =>
    cases l with
    | nil => cases hl
    | cons q l =>
      obtain ⟨hq, hl⟩ := hl
      obtain rfl := Option.some.inj hq
      rw [findLoop]
      by_cases hfit : free mem ptr ≠ 0 ∧ n ≤ size mem ptr
      · rw [if_pos hfit]
        exact .inl ⟨ptr, List.mem_cons_self, rfl, hfit⟩
      · rw [if_neg hfit]
        cases hnext : next mem ptr with
        | none =>
          rw [hnext] at hl
          cases l with
          | nil => exact .inr ⟨[], ptr, rfl, rfl⟩
          | cons r l => cases hl.1
        | some q =>
          rw [hnext] at hl
          rw [List.length_cons] at hk
          rcases ih hl (by omega) with ⟨r, hr, hfind⟩ | ⟨l₀, r, rfl, hfind⟩
          · exact .inl ⟨r, List.mem_cons_of_mem _ hr, hfind⟩
          · exact .inr ⟨ptr :: l₀, r, rfl, hfind⟩

def pointer (a : ℕ) : Option ℕ := if a = 0 then none else some a

/-- The blocks `all` lie one after the other below the break, and `l` is the list from `head`. A first block at the
address 0 is not on the list. -/
structure Inv (all l : List ℕ) (s : Heap) : Prop where
  split : all = l ∨ all = 0 :: l
  chain : Chain (next s.mem) (pointer s.head) l
  sorted : all.Pairwise fun a b => a + 24 + size s.mem a ≤ b
  below : ∀ a ∈ all, a + 24 + size s.mem a ≤ s.brk
  aligned : all ≠ [] → s.brk % 64 = 0
  brk : s.brk < 2 ^ 64
  live : ∀ x ∈ s.live, ∃ a ∈ all, x.1 = a + 24 ∧ x.2 ≤ size s.mem a ∧ free s.mem a = 0
  nodup : (s.live.map Prod.fst).Nodup

section Invariant

variable {all l : List ℕ} {s : Heap} {mem : ℕ → UInt8} {a n : ℕ}

theorem Inv.block (h : Inv all l s) (ha : a ∈ l) : a ∈ all := by
  rcases h.split with he | he
  · exact he ▸ ha
  · exact he ▸ List.mem_cons_of_mem _ ha

theorem Inv.apart (h : Inv all l s) {a b : ℕ} (ha : a ∈ all) (hb : b ∈ all) (hne : a ≠ b) :
    a + 24 + size s.mem a ≤ b ∨ b + 24 + size s.mem b ≤ a := by
  have hor := h.sorted.imp (S := fun a b => a + 24 + size s.mem a ≤ b ∨ b + 24 + size s.mem b ≤ a) .inl
  have : Std.Symm fun a b => a + 24 + size s.mem a ≤ b ∨ b + 24 + size s.mem b ≤ a := ⟨fun _ _ => Or.symm⟩
  exact hor.forall ha hb hne

theorem Inv.relabel (h : Inv all l s) {live : List (ℕ × ℕ)}
    (hmem : ∀ b ∈ all, size mem b = size s.mem b ∧ next mem b = next s.mem b)
    (hlive : ∀ x ∈ live, ∃ a ∈ all, x.1 = a + 24 ∧ x.2 ≤ size mem a ∧ free mem a = 0)
    (hnodup : (live.map Prod.fst).Nodup) : Inv all l { s with mem := mem, live := live } := by
  refine ⟨h.split, ?_, ?_, ?_, h.aligned, h.brk, hlive, hnodup⟩
  · exact seg_congr (fun b hb => (hmem b (h.block hb)).2) h.chain
  · refine h.sorted.imp_of_mem fun {b c} hb _ hle => ?_
    rwa [(hmem b hb).1]
  · intro b hb
    rw [(hmem b hb).1]
    exact h.below b hb

theorem Inv.setFree (h : Inv all l s) (ha : a ∈ all) (hn : n < 2 ^ 32) :
    (∀ b ∈ all, size (Malloc.setFree a n s.mem) b = size s.mem b ∧ next (Malloc.setFree a n s.mem) b = next s.mem b) ∧
      ∀ b ∈ all, b ≠ a → free (Malloc.setFree a n s.mem) b = free s.mem b := by
  have hother : ∀ b ∈ all, b ≠ a → size (Malloc.setFree a n s.mem) b = size s.mem b ∧
      next (Malloc.setFree a n s.mem) b = next s.mem b ∧ free (Malloc.setFree a n s.mem) b = free s.mem b := by
    intro b hb hne
    apply setFree_frame.header
    have := h.apart hb ha hne
    omega
  constructor
  · intro b hb
    by_cases hne : b = a
    · subst hne
      obtain ⟨hsize, hnext, _⟩ := setFree_header s.mem b hn
      exact ⟨hsize, hnext⟩
    · obtain ⟨hsize, hnext, _⟩ := hother b hb hne
      exact ⟨hsize, hnext⟩
  · intro b hb hne
    exact (hother b hb hne).2.2

theorem Inv.reuse (h : Inv all l s) (ha : a ∈ all) (hfree : free s.mem a ≠ 0) (hn : n ≤ size s.mem a) :
    Inv all l (give a n (Malloc.setFree a 0 s.mem) s).2 := by
  obtain ⟨hkeep, hother⟩ := h.setFree ha (n := 0) (by decide)
  -- No live pointer belongs to the block.
  have hnew : ∀ x ∈ s.live, x.1 ≠ a + 24 := by
    intro x hx he
    obtain ⟨b, _, hxb, _, hb⟩ := h.live x hx
    obtain rfl : b = a := by omega
    exact hfree hb
  apply h.relabel hkeep
  · intro x hx
    rcases List.mem_cons.mp hx with rfl | hx
    · exact ⟨a, ha, rfl, (hkeep a ha).1.symm ▸ hn, (setFree_header _ _ (by decide)).2.2⟩
    · obtain ⟨b, hb, hxb, hsize, hzero⟩ := h.live x hx
      have hne : b ≠ a := by
        rintro rfl
        exact hfree hzero
      exact ⟨b, hb, hxb, (hkeep b hb).1.symm ▸ hsize, (hother b hb hne).trans hzero⟩
  · rw [List.map_cons, List.nodup_cons]
    refine ⟨fun hm => ?_, h.nodup⟩
    obtain ⟨x, hx, he⟩ := List.mem_map.mp hm
    exact hnew x hx he

theorem Inv.freePtr (h : Inv all l s) {x : ℕ × ℕ} (hx : x ∈ s.live) :
    ∃ t, Malloc.freePtr x.1 s = some t ∧ Inv all l t ∧ t.brk = s.brk := by
  obtain ⟨a, ha, hxa, _, hzero⟩ := h.live x hx
  obtain ⟨hkeep, hother⟩ := h.setFree ha (n := 1) (by decide)
  have hsub : x.1 - 24 = a := by omega
  refine ⟨{ s with mem := Malloc.setFree a 1 s.mem, live := s.live.filter fun y => y.1 ≠ x.1 }, ?_, ?_, rfl⟩
  · rw [Malloc.freePtr, if_neg (by omega), hsub, if_neg (not_not.mpr hzero)]
  · apply h.relabel hkeep
    · intro y hy
      obtain ⟨hy, hne⟩ := List.mem_filter.mp hy
      obtain ⟨b, hb, hyb, hsize, hfree⟩ := h.live y hy
      have hba : b ≠ a := by
        rintro rfl
        exact of_decide_eq_true hne (by omega)
      exact ⟨b, hb, hyb, (hkeep b hb).1.symm ▸ hsize, (hother b hb hba).trans hfree⟩
    · exact h.nodup.sublist (List.filter_sublist.map _)

theorem Inv.extend (h : Inv all l s) {l' : List ℕ} {head : ℕ} (hn : (s.brk + n + 24) / 64 * 64 + 64 < 2 ^ 64)
    (hold : ∀ b ∈ all, size mem b = size s.mem b ∧ free mem b = free s.mem b) (hsize : size mem s.brk = n)
    (hfree : free mem s.brk = 0) (hchain : Chain (next mem) (pointer head) l')
    (hsplit : all ++ [s.brk] = l' ∨ all ++ [s.brk] = 0 :: l') :
    Inv (all ++ [s.brk]) l' ⟨mem, head, (s.brk + n + 24) / 64 * 64 + 64, (s.brk + 24, n) :: s.live⟩ := by
  refine ⟨hsplit, hchain, ?_, ?_, fun _ => by dsimp only; omega, hn, ?_, ?_⟩
  · rw [List.pairwise_append]
    refine ⟨h.sorted.imp_of_mem fun {b c} hb _ hle => ?_, List.pairwise_singleton _ _, fun b hb c hc => ?_⟩
    · rwa [(hold b hb).1]
    · rw [List.mem_singleton.mp hc, (hold b hb).1]
      exact h.below b hb
  · intro b hb
    rcases List.mem_append.mp hb with hb | hb
    · have := h.below b hb
      rw [(hold b hb).1]
      dsimp only
      omega
    · rw [List.mem_singleton.mp hb, hsize]
      dsimp only
      omega
  · intro x hx
    rcases List.mem_cons.mp hx with rfl | hx
    · exact ⟨s.brk, by simp, rfl, hsize.ge, hfree⟩
    · obtain ⟨b, hb, hxb, hle, hzero⟩ := h.live x hx
      obtain ⟨hsame, hsame'⟩ := hold b hb
      exact ⟨b, List.mem_append_left _ hb, hxb, hsame.symm ▸ hle, hsame'.trans hzero⟩
  · rw [List.map_cons, List.nodup_cons]
    refine ⟨fun hm => ?_, h.nodup⟩
    obtain ⟨x, hx, he⟩ := List.mem_map.mp hm
    obtain ⟨b, hb, hxb, _⟩ := h.live x hx
    have := h.below b hb
    dsimp only at he
    omega

theorem Inv.setMeta_old (h : Inv all l s) {b : ℕ} (hb : b ∈ all) :
    size (setMeta s.brk n s.mem) b = size s.mem b ∧ next (setMeta s.brk n s.mem) b = next s.mem b ∧
      free (setMeta s.brk n s.mem) b = free s.mem b := by
  apply setMeta_frame.header
  have := h.below b hb
  omega

theorem Inv.first (h : Inv all l s) (hhead : s.head = 0) (hn : (s.brk + n + 24) / 64 * 64 + 64 < 2 ^ 64) :
    ∃ all' l', Inv all' l'
      ⟨setMeta s.brk n s.mem, s.brk, (s.brk + n + 24) / 64 * 64 + 64, (s.brk + 24, n) :: s.live⟩ := by
  obtain ⟨hsize, hnext, hfree⟩ := setMeta_header (n := n) s.mem s.brk (by omega)
  have hnil : l = [] := by
    have hc := h.chain
    rw [hhead] at hc
    cases l with
    | nil => rfl
    | cons b l => cases hc.1
  by_cases hb : s.brk = 0
  · have hall : all = [] := by
      cases hall : all with
      | nil => rfl
      | cons b all =>
        have := h.below b (by simp [hall])
        omega
    refine ⟨_, [], h.extend hn (fun b hb => ?_) hsize hfree ?_ ?_⟩
    · rw [hall] at hb
      cases hb
    · rw [hb]
      rfl
    · rw [hall, hb]
      exact .inr rfl
  · refine ⟨_, [s.brk], h.extend hn (fun b hb => ?_) hsize hfree ⟨if_neg hb, hnext⟩ ?_⟩
    · obtain ⟨hs, _, hf⟩ := h.setMeta_old hb
      exact ⟨hs, hf⟩
    · rcases h.split with he | he
      · rw [he, hnil]
        exact .inl rfl
      · rw [he, hnil]
        exact .inr rfl

theorem Inv.append (h : Inv all (l ++ [a]) s) (hn : (s.brk + n + 24) / 64 * 64 + 64 < 2 ^ 64) :
    ∃ all' l', Inv all' l'
      ⟨setNext a s.brk (setMeta s.brk n s.mem), s.head, (s.brk + n + 24) / 64 * 64 + 64, (s.brk + 24, n) :: s.live⟩ := by
  have ha : a ∈ all := h.block (by simp)
  have hle := h.below a ha
  obtain ⟨hsize, hnext, hfree⟩ := setMeta_header (n := n) s.mem s.brk (by omega)
  have hlink := setNext_header (setMeta s.brk n s.mem) a h.brk (by omega)
  have hother : ∀ b, b + 24 ≤ a ∨ a + 24 ≤ b →
      size (setNext a s.brk (setMeta s.brk n s.mem)) b = size (setMeta s.brk n s.mem) b ∧
      next (setNext a s.brk (setMeta s.brk n s.mem)) b = next (setMeta s.brk n s.mem) b ∧
      free (setNext a s.brk (setMeta s.brk n s.mem)) b = free (setMeta s.brk n s.mem) b :=
    fun b hb => setNext_frame.header (by omega)
  have hnew := hother s.brk (by omega)
  refine ⟨_, l ++ [a] ++ [s.brk], h.extend hn (fun b hb => ?_) (hnew.1.trans hsize) (hnew.2.2.trans hfree) ?_ ?_⟩
  · obtain ⟨hs, _, hf⟩ := h.setMeta_old (n := n) hb
    by_cases hba : b = a
    · subst hba
      exact ⟨hlink.1.trans hs, hlink.2.2.trans hf⟩
    · have hsep := h.apart hb ha hba
      obtain ⟨hs', _, hf'⟩ := hother b (by omega)
      exact ⟨hs'.trans hs, hf'.trans hf⟩
  · -- The links up to `a` are the old ones, `a` points to the new block.
    have hnd := chain_nodup h.chain
    obtain ⟨q, hfront, rfl, _⟩ := seg_append.mp h.chain
    rw [List.append_assoc]
    refine seg_append.mpr ⟨some a, seg_congr (fun b hb => ?_) hfront, rfl, ?_⟩
    · have hball : b ∈ all := h.block (by simp [hb])
      have hba : b ≠ a := by
        rintro rfl
        exact (List.nodup_append.mp hnd).2.2 b hb b (by simp) rfl
      have hsep := h.apart hball ha hba
      exact (hother b (by omega)).2.1.trans (h.setMeta_old hball).2.1
    · rw [hlink.2.1]
      exact ⟨rfl, hnew.2.1.trans hnext⟩
  · rcases h.split with he | he
    · exact .inl (by rw [he])
    · exact .inr (by rw [he]; rfl)

theorem Inv.length_le (h : Inv all l s) : l.length ≤ 2 ^ 64 := by
  apply length_le_of_nodup (chain_nodup h.chain)
  intro b hb
  have := h.below b (h.block hb)
  have := h.brk
  omega

end Invariant

inductive Op
  | malloc (n : ℕ)
  | free (p : ℕ)
  | write (x : ℕ × ℕ) (i : ℕ) (b : UInt8)

def Op.step : Op → Heap → Option Heap
  | .malloc n, s => (Malloc.malloc n s).map Prod.snd
  | .free p, s => freePtr p s
  | .write x i b, s => some { s with mem := Function.update s.mem (x.1 + i) b }

def Op.Allowed : Op → Heap → Prop
  | .malloc n, _ => n + 24 < 2 ^ 64
  | .free p, s => ∃ x ∈ s.live, x.1 = p
  | .write x i _, s => x ∈ s.live ∧ i < x.2

structure Good (s : Heap) : Prop where
  list : ∃ l, Chain (next s.mem) (pointer s.head) l ∧ l.Pairwise fun a b => a + 24 + size s.mem a ≤ b
  room : ∀ x ∈ s.live, x.1 + x.2 ≤ s.brk
  apart : s.live.Pairwise fun x y => x.1 + x.2 + 24 ≤ y.1 ∨ y.1 + y.2 + 24 ≤ x.1

def Keeps (s t : Heap) : Prop :=
  ∀ x ∈ s.live, ∀ y, x.1 ≤ y → y < x.1 + size s.mem (x.1 - 24) → t.mem y = s.mem y

def Op.Keeps : Op → Heap → Heap → Prop
  | .write _ _ _, _, _ => True
  | _, s, t => Malloc.Keeps s t

def Behaves : Heap → List Op → Prop
  | s, [] => Good s
  | s, op :: ops => Good s ∧ ∃ t, op.step s = some t ∧ op.Keeps s t ∧ Behaves t ops

/-- If the call has to ask the kernel, the new break can be written as an address. (A break of -1 is taken for an error,
and the call returns NULL.) -/
def Op.Room : Op → Heap → Prop
  | .malloc n, s => (s.head ≠ 0 ∧ ∃ q, find s.mem n s.head = some (.fit q)) ∨ s.brk = 2 ^ 64 - 1 ∨
      (s.brk + n + 24) / 64 * 64 + 64 < 2 ^ 64
  | _, _ => True

section Steps

variable {all l : List ℕ} {s : Heap} {a n : ℕ}

theorem Inv.good (h : Inv all l s) : Good s := by
  refine ⟨⟨l, h.chain, ?_⟩, fun x hx => ?_, ?_⟩
  · rcases h.split with he | he
    · exact he ▸ h.sorted
    · have hs := h.sorted
      rw [he] at hs
      exact (List.pairwise_cons.mp hs).2
  · obtain ⟨b, hb, hxb, hle, _⟩ := h.live x hx
    have := h.below b hb
    omega
  · have hne := List.pairwise_map.mp h.nodup
    refine hne.imp_of_mem fun {x y} hx hy hxy => ?_
    obtain ⟨b, hb, hxb, hle, _⟩ := h.live x hx
    obtain ⟨c, hc, hyc, hle', _⟩ := h.live y hy
    have := h.apart hb hc (by omega)
    omega

theorem Inv.keeps (h : Inv all l s) {t : Heap}
    (hmem : ∀ y, (∀ b ∈ all, y < b ∨ b + 24 ≤ y) → y < s.brk → t.mem y = s.mem y) : Keeps s t := by
  intro x hx y hle hlt
  obtain ⟨b, hb, hxb, _⟩ := h.live x hx
  have hsub : x.1 - 24 = b := by omega
  rw [hsub] at hlt
  have hbelow := h.below b hb
  apply hmem y _ (by omega)
  intro c hc
  by_cases hcb : c = b
  · omega
  · have := h.apart hc hb hcb
    omega

theorem sbrk_of_pos (hn : n + 24 < 2 ^ 64) (s : Heap) : sbrk ((n + 24) % 2 ^ 64) s =
    (s.brk, { s with brk := malignUp ((s.brk + (n + 24)) % 2 ^ 64) }) := by
  rw [Nat.mod_eq_of_lt hn, sbrk, if_neg (by omega)]

theorem malignUp_of_lt (hn : (s.brk + n + 24) / 64 * 64 + 64 < 2 ^ 64) :
    malignUp ((s.brk + (n + 24)) % 2 ^ 64) = (s.brk + n + 24) / 64 * 64 + 64 := by
  rw [malignUp]
  omega

theorem malignUp_of_ge (hb : s.brk < 2 ^ 64) (hn : ¬ (s.brk + n + 24) / 64 * 64 + 64 < 2 ^ 64) :
    malignUp ((s.brk + (n + 24)) % 2 ^ 64) < s.brk + 24 + n := by
  rw [malignUp]
  omega

theorem not_good_of_brk {t : Heap} (hlive : (a, n) ∈ t.live) (hbrk : t.brk < a + n) : ¬ Good t := by
  intro hg
  have := hg.room _ hlive
  dsimp only at this
  omega

theorem Inv.moved (h : Inv all l s) (hbrk : s.brk = 2 ^ 64 - 1) (x : ℕ) : Inv all l { s with brk := x % 2 ^ 64 } := by
  have hall : all = [] := by
    by_contra hne
    have := h.aligned hne
    omega
  refine ⟨h.split, h.chain, h.sorted, ?_, ?_, Nat.mod_lt _ (by decide), h.live, h.nodup⟩
  · rw [hall]
    exact fun b hb => absurd hb List.not_mem_nil
  · exact fun hne => absurd hall hne

theorem malloc_step (h : Inv all l s) (hn : n + 24 < 2 ^ 64) : ∃ t, (malloc n s).map Prod.snd = some t ∧
    ((Op.malloc n).Room s → Keeps s t ∧ ∃ all' l', Inv all' l' t) ∧ (¬ (Op.malloc n).Room s → ¬ Good t) := by
  have hbrk := h.brk
  by_cases hhead : s.head = 0
  · rw [malloc, if_pos hhead, sbrk_of_pos hn]
    dsimp only
    by_cases hmax : s.brk = 2 ^ 64 - 1
    · rw [if_pos hmax]
      refine ⟨_, rfl, fun _ => ⟨fun x hx y _ _ => rfl, all, l, h.moved hmax _⟩, fun hroom => ?_⟩
      exact absurd (.inr (.inl hmax)) hroom
    · rw [if_neg hmax]
      refine ⟨_, rfl, fun hroom => ?_, fun hroom => ?_⟩
      · have hfit : (s.brk + n + 24) / 64 * 64 + 64 < 2 ^ 64 := by
          rcases hroom with hroom | hroom | hroom
          · exact absurd hhead hroom.1
          · exact absurd hroom hmax
          · exact hroom
        refine ⟨h.keeps fun y _ hy => setMeta_frame y (.inl hy), ?_⟩
        rw [give, malignUp_of_lt hfit]
        exact h.first hhead hfit
      · have hover : ¬ (s.brk + n + 24) / 64 * 64 + 64 < 2 ^ 64 := fun hlt => hroom (.inr (.inr hlt))
        exact not_good_of_brk List.mem_cons_self (malignUp_of_ge hbrk hover)
  · have hc : Chain (next s.mem) (some s.head) l := by
      have := h.chain
      rwa [pointer, if_neg hhead] at this
    rw [malloc, if_neg hhead]
    rcases findLoop_spec (n := n) hc h.length_le with ⟨q, hq, hfind, hfree, hsize⟩ | ⟨l₀, q, rfl, hfind⟩
    · rw [← find_eq] at hfind
      rw [hfind]
      refine ⟨_, rfl, fun _ => ⟨h.keeps fun y hy _ => ?_, all, l, h.reuse (h.block hq) hfree hsize⟩, fun hroom => ?_⟩
      · have := hy q (h.block hq)
        exact setFree_frame y (by omega)
      · exact absurd (.inl ⟨hhead, q, hfind⟩) hroom
    · rw [← find_eq] at hfind
      have hq := h.block (a := q) (by simp)
      have hmax : s.brk ≠ 2 ^ 64 - 1 := by
        have := h.aligned (List.ne_nil_of_mem hq)
        omega
      rw [hfind, Option.map_some, sbrk_of_pos hn]
      dsimp only
      rw [if_neg hmax]
      refine ⟨_, rfl, fun hroom => ?_, fun hroom => ?_⟩
      · have hfit : (s.brk + n + 24) / 64 * 64 + 64 < 2 ^ 64 := by
          rcases hroom with ⟨_, r, hr⟩ | hroom | hroom
          · rw [hfind] at hr
            cases hr
          · exact absurd hroom hmax
          · exact hroom
        refine ⟨h.keeps fun y hy hlt => ?_, ?_⟩
        · have := hy q hq
          exact (setNext_frame y (by omega)).trans (setMeta_frame y (.inl hlt))
        · rw [give, malignUp_of_lt hfit]
          exact h.append hfit
      · have hover : ¬ (s.brk + n + 24) / 64 * 64 + 64 < 2 ^ 64 := fun hlt => hroom (.inr (.inr hlt))
        exact not_good_of_brk List.mem_cons_self (malignUp_of_ge hbrk hover)

theorem free_keeps (h : Inv all l s) {x : ℕ × ℕ} (hx : x ∈ s.live) {t : Heap} (ht : freePtr x.1 s = some t) : Keeps s t := by
  obtain ⟨a, ha, hxa, _, hzero⟩ := h.live x hx
  have hsub : x.1 - 24 = a := by omega
  rw [freePtr, if_neg (by omega), hsub, if_neg (not_not.mpr hzero)] at ht
  obtain rfl := Option.some.inj ht
  apply h.keeps
  intro y hy _
  have := hy a ha
  exact setFree_frame y (by omega)

theorem Inv.write (h : Inv all l s) {x : ℕ × ℕ} {i : ℕ} {b : UInt8} (hx : x ∈ s.live) (hi : i < x.2) :
    Inv all l { s with mem := Function.update s.mem (x.1 + i) b } := by
  have hheader : ∀ c ∈ all, size (Function.update s.mem (x.1 + i) b) c = size s.mem c ∧
      next (Function.update s.mem (x.1 + i) b) c = next s.mem c ∧
      free (Function.update s.mem (x.1 + i) b) c = free s.mem c := by
    intro c hc
    obtain ⟨a, ha, hxa, hle, _⟩ := h.live x hx
    have hframe : Frame (x.1 + i) (x.1 + i + 1) s.mem (Function.update s.mem (x.1 + i) b) :=
      fun y hy => Function.update_of_ne (by omega) _ _
    apply hframe.header
    by_cases hca : c = a
    · omega
    · have := h.apart hc ha hca
      omega
  apply h.relabel (fun c hc => ⟨(hheader c hc).1, (hheader c hc).2.1⟩) _ h.nodup
  intro y hy
  obtain ⟨a, ha, hya, hle, hzero⟩ := h.live y hy
  obtain ⟨hsize, _, hfree⟩ := hheader a ha
  exact ⟨a, ha, hya, hsize.symm ▸ hle, hfree.trans hzero⟩

theorem step_spec (h : Inv all l s) {op : Op} (hop : op.Allowed s) : ∃ t, op.step s = some t ∧
    (op.Room s → op.Keeps s t ∧ ∃ all' l', Inv all' l' t) ∧ (¬ op.Room s → ¬ Good t) := by
  cases op with
  | malloc n => exact malloc_step h hop
  | free p =>
    obtain ⟨x, hx, rfl⟩ := hop
    obtain ⟨t, ht, hinv, _⟩ := h.freePtr hx
    exact ⟨t, ht, fun _ => ⟨free_keeps h hx ht, all, l, hinv⟩, fun hroom => absurd trivial hroom⟩
  | write x i b =>
    exact ⟨_, rfl, fun _ => ⟨trivial, all, l, h.write hop.1 hop.2⟩, fun hroom => absurd trivial hroom⟩

end Steps

def start (mem : ℕ → UInt8) (brk : ℕ) : Heap := ⟨mem, 0, brk, []⟩

theorem start_inv (mem : ℕ → UInt8) {brk : ℕ} (h : brk < 2 ^ 64) : Inv [] [] (start mem brk) :=
  ⟨.inl rfl, rfl, List.Pairwise.nil, fun _ hb => absurd hb List.not_mem_nil, fun hne => absurd rfl hne, h,
    fun _ hx => absurd hx List.not_mem_nil, List.nodup_nil⟩

theorem Inv.run_iff {all l : List ℕ} {s : Heap} (h : Inv all l s) {ops : List Op}
    (hops : Run.Meets Op.step Op.Allowed s ops) : Behaves s ops ↔ Run.Meets Op.step Op.Room s ops := by
  induction ops generalizing all l s with
  | nil => exact iff_of_true h.good trivial
  | cons op ops ih =>
    obtain ⟨t, ht, hroom, hover⟩ := step_spec h hops.1
    have hone : ∀ u, op.step s = some u → u = t := fun u hu => Option.some.inj (hu.symm.trans ht)
    rw [Behaves, Run.Meets]
    by_cases hr : op.Room s
    · obtain ⟨hkeeps, all', l', hinv⟩ := hroom hr
      have hrest := ih hinv (hops.2 t ht)
      constructor
      · rintro ⟨_, u, hu, _, hb⟩
        refine ⟨hr, fun v hv => ?_⟩
        rw [hone u hu] at hb
        rw [hone v hv]
        exact hrest.mp hb
      · rintro ⟨_, hm⟩
        exact ⟨h.good, t, ht, hkeeps, hrest.mpr (hm t ht)⟩
    · constructor
      · rintro ⟨_, u, hu, _, hb⟩
        rw [hone u hu] at hb
        have hgood : Good t := by
          cases ops with
          | nil => exact hb
          | cons op' ops => exact hb.1
        exact absurd hgood (hover hr)
      · rintro ⟨hr', _⟩
        exact absurd hr' hr

theorem heap_behaves_iff (mem : ℕ → UInt8) {brk : ℕ} (hbrk : brk < 2 ^ 64) {ops : List Op}
    (hops : Run.Meets Op.step Op.Allowed (start mem brk) ops) :
    Behaves (start mem brk) ops ↔ Run.Meets Op.step Op.Room (start mem brk) ops :=
  (start_inv mem hbrk).run_iff hops

instance : (op : Op) → (s : Heap) → Decidable (op.Allowed s)
  | .malloc n, _ => inferInstanceAs (Decidable (n + 24 < 2 ^ 64))
  | .free p, s => inferInstanceAs (Decidable (∃ x ∈ s.live, x.1 = p))
  | .write x i _, s => inferInstanceAs (Decidable (x ∈ s.live ∧ i < x.2))

def Op.roomy : Op → Heap → Bool
  | .malloc n, s => decide ((s.brk + n + 24) / 64 * 64 + 64 < 2 ^ 64)
  | _, _ => true

theorem Op.room_of_roomy : ∀ (op : Op) (s : Heap), op.roomy s = true → op.Room s
  | .malloc _, _, h => .inr (.inr (of_decide_eq_true h))
  | .free _, _, _ => trivial
  | .write _ _ _, _, _ => trivial

theorem heap_behaves_small : Behaves (start (fun _ => 7) 0x401000)
    [.malloc 10, .malloc 100, .write (0x401018, 10) 9 3, .free 0x401018, .malloc 8, .malloc 8] := by
  apply (heap_behaves_iff _ (by decide) _).mpr
  · exact Run.meets_of_check Op.room_of_roomy (by decide +kernel)
  · exact Run.meets_of_check (c := fun op s => decide (op.Allowed s)) (fun _ _ => of_decide_eq_true) (by decide +kernel)

theorem malloc_wraps : (malloc (2 ^ 64 - 25) (start (fun _ => 0) 0x401001)).map (fun r => (r.1, r.2.brk)) =
      some (0x401019, 0x401040) ∧ ¬ Behaves (start (fun _ => 0) 0x401001) [.malloc (2 ^ 64 - 25)] := by
  have hcall : (malloc (2 ^ 64 - 25) (start (fun _ => 0) 0x401001)).map (fun r => (r.2.live, r.2.brk)) =
      some ([(0x401019, 2 ^ 64 - 25)], 0x401040) := by decide +kernel
  refine ⟨by decide +kernel, ?_⟩
  rintro ⟨_, t, ht, _, hgood⟩
  rw [Op.step] at ht
  obtain ⟨⟨p, u⟩, hu, rfl⟩ := Option.map_eq_some_iff.mp ht
  rw [hu, Option.map_some, Option.some.injEq, Prod.mk.injEq] at hcall
  have hroom := hgood.room (0x401019, 2 ^ 64 - 25) (by rw [hcall.1]; exact List.mem_cons_self)
  rw [hcall.2] at hroom
  exact absurd hroom (by decide)

end Os506.Malloc
