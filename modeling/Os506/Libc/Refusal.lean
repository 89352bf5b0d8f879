import Os506.Libc.Malloc

namespace Os506.Malloc

open Linked

/-- `sbrk` with the kernel's answer to its request. The answer is compared as a pointer with 0, so a refusal is not
seen; the break is the one the kernel has granted. -/
def sbrkAsk (granted : Bool) (inc : ℕ) (s : Heap) : ℕ × Heap :=
  if inc = 0 then (s.brk, s)
  else (s.brk, if granted then { s with brk := malignUp ((s.brk + inc) % 2 ^ 64) } else s)

def mallocAsk (granted : Bool) (n : ℕ) (s : Heap) : Option (ℕ × Heap) :=
  if s.head = 0 then
    let (p, s) := sbrkAsk granted ((n + 24) % 2 ^ 64) s
    if p = 2 ^ 64 - 1 then some (0, s) else some (give p n (setMeta p n s.mem) { s with head := p })
  else (find s.mem n s.head).map fun
    | .fit ptr => give ptr n (setFree ptr 0 s.mem) s
    | .last ptr =>
      let (p, s) := sbrkAsk granted ((n + 24) % 2 ^ 64) s
      if p = 2 ^ 64 - 1 then (0, s) else give p n (setNext ptr p (setMeta p n s.mem)) s

def Fits (n : ℕ) (s : Heap) : Prop := s.head ≠ 0 ∧ ∃ q, find s.mem n s.head = some (.fit q)

/-- The call returns NULL without a change of the list, or a block below the break; it returns NULL if its request is
refused and if the size with the header is no `size_t`. -/
structure Honest (granted : Bool) (n : ℕ) (s : Heap) (p : ℕ) (t : Heap) : Prop where
  result : p = 0 ∧ t.head = s.head ∧ t.mem = s.mem ∨ ∃ a, p = a + 24 ∧ a + 24 + n ≤ t.brk
  refused : ¬ Fits n s → (n + 24) % 2 ^ 64 ≠ 0 → granted = false → p = 0
  overflow : 2 ^ 64 ≤ n + 24 → p = 0

/-- A free block fits, or the break is -1, which is taken for an error, or the kernel grants a new break that has not
wrapped around. -/
def Served (granted : Bool) (n : ℕ) (s : Heap) : Prop :=
  Fits n s ∨ s.brk = 2 ^ 64 - 1 ∨ granted = true ∧ (s.brk + n + 24) / 64 * 64 + 64 < 2 ^ 64

theorem sbrkAsk_true (inc : ℕ) (s : Heap) : sbrkAsk true inc s = sbrk inc s := by
  rw [sbrkAsk, sbrk]
  rfl

theorem mallocAsk_true (n : ℕ) (s : Heap) : mallocAsk true n s = malloc n s := by
  have hsbrk : sbrkAsk true = sbrk := by
    funext inc s
    exact sbrkAsk_true inc s
  unfold mallocAsk
  exact hsbrk ▸ rfl

theorem sbrkAsk_spec (granted : Bool) (inc : ℕ) {s : Heap} (hb : s.brk < 2 ^ 64) :
    ∃ b < 2 ^ 64, sbrkAsk granted inc s = (s.brk, { s with brk := b }) ∧
      (inc ≠ 0 → granted = true → b = malignUp ((s.brk + inc) % 2 ^ 64)) := by
  rw [sbrkAsk]
  by_cases hinc : inc = 0
  · exact ⟨s.brk, hb, if_pos hinc, fun h => absurd hinc h⟩
  · rw [if_neg hinc]
    cases granted with
    | true => exact ⟨_, Nat.mod_lt _ (by decide), rfl, fun _ _ => rfl⟩
    | false => exact ⟨s.brk, hb, rfl, fun _ h => by cases h⟩

section Steps

variable {all l : List ℕ} {s : Heap} {n : ℕ} {granted : Bool}

theorem honest_new_iff (hb : s.brk < 2 ^ 64) (hfit : ¬ Fits n s) {t : Heap} {b : ℕ} (ht : t.brk = b)
    (hmove : (n + 24) % 2 ^ 64 ≠ 0 → granted = true → b = malignUp ((s.brk + (n + 24) % 2 ^ 64) % 2 ^ 64)) :
    Honest granted n s (s.brk + 24) t ↔ granted = true ∧ (s.brk + n + 24) / 64 * 64 + 64 < 2 ^ 64 := by
  constructor
  · intro h
    have hsmall : n + 24 < 2 ^ 64 := by
      by_contra hlarge
      have := h.overflow (by omega)
      omega
    have hinc : (n + 24) % 2 ^ 64 ≠ 0 := by omega
    have hgrant : granted = true := by
      cases granted with
      | true => rfl
      | false =>
        have := h.refused hfit hinc rfl
        omega
    refine ⟨hgrant, ?_⟩
    rcases h.result with ⟨hz, _⟩ | ⟨a, ha, hroom⟩
    · omega
    · by_contra hover
      have hlt := malignUp_of_ge hb hover
      rw [ht, hmove hinc hgrant, Nat.mod_eq_of_lt hsmall] at hroom
      omega
  · rintro ⟨hgrant, hlt⟩
    have hsmall : n + 24 < 2 ^ 64 := by omega
    refine ⟨.inr ⟨s.brk, rfl, ?_⟩, fun _ _ hg => ?_, fun hlarge => by omega⟩
    · rw [ht, hmove (by omega) hgrant, Nat.mod_eq_of_lt hsmall, malignUp_of_lt hlt]
      omega
    · rw [hgrant] at hg
      cases hg

theorem new_step (h : Inv all l s) (hfit : ¬ Fits n s) (hmax : s.brk ≠ 2 ^ 64 - 1) {t : Heap}
    (hcall : mallocAsk granted n s = some (s.brk + 24, t))
    (hmove : (n + 24) % 2 ^ 64 ≠ 0 → granted = true → t.brk = malignUp ((s.brk + (n + 24) % 2 ^ 64) % 2 ^ 64)) :
    (Served granted n s → Honest granted n s (s.brk + 24) t ∧ ∃ all' l', Inv all' l' t) ∧
      (¬ Served granted n s → ¬ Honest granted n s (s.brk + 24) t) := by
  have hiff := honest_new_iff h.brk hfit rfl hmove
  constructor
  · rintro (hf | hm | hserved)
    · exact absurd hf hfit
    · exact absurd hm hmax
    · obtain ⟨u, hu, hroom, _⟩ := malloc_step (n := n) h (by omega)
      rw [hserved.1, mallocAsk_true] at hcall
      rw [hcall] at hu
      obtain rfl := Option.some.inj hu
      exact ⟨hiff.mpr hserved, (hroom (.inr (.inr hserved.2))).2⟩
  · exact fun hs hh => hs (.inr (.inr (hiff.mp hh)))

theorem mallocAsk_step (h : Inv all l s) (granted : Bool) (n : ℕ) :
    ∃ p t, mallocAsk granted n s = some (p, t) ∧
      (Served granted n s → Honest granted n s p t ∧ ∃ all' l', Inv all' l' t) ∧
      (¬ Served granted n s → ¬ Honest granted n s p t) := by
  obtain ⟨b, hb, hask, hmove⟩ := sbrkAsk_spec granted ((n + 24) % 2 ^ 64) h.brk
  by_cases hhead : s.head = 0
  · have hfit : ¬ Fits n s := fun hf => hf.1 hhead
    by_cases hmax : s.brk = 2 ^ 64 - 1
    · have hcall : mallocAsk granted n s = some (0, { s with brk := b }) := by
        rw [mallocAsk, if_pos hhead, hask]
        exact if_pos hmax
      refine ⟨_, _, hcall, fun _ => ⟨⟨.inl ⟨rfl, rfl, rfl⟩, fun _ _ _ => rfl, fun _ => rfl⟩, all, l, ?_⟩, fun hs => ?_⟩
      · have := h.moved hmax b
        rwa [Nat.mod_eq_of_lt hb] at this
      · exact absurd (.inr (.inl hmax)) hs
    · have hcall : mallocAsk granted n s =
          some (give s.brk n (setMeta s.brk n s.mem) { s with brk := b, head := s.brk }) := by
        rw [mallocAsk, if_pos hhead, hask]
        exact if_neg hmax
      exact ⟨_, _, hcall, new_step h hfit hmax hcall hmove⟩
  · have hc : Chain (next s.mem) (some s.head) l := by
      have := h.chain
      rwa [pointer, if_neg hhead] at this
    rcases findLoop_spec (n := n) hc h.length_le with ⟨q, hq, hfind, hfree, hsize⟩ | ⟨l₀, q, rfl, hfind⟩
    · rw [← find_eq] at hfind
      have hfit : Fits n s := ⟨hhead, q, hfind⟩
      have hcall : mallocAsk granted n s = some (give q n (setFree q 0 s.mem) s) := by
        rw [mallocAsk, if_neg hhead, hfind]
        rfl
      have hbelow := h.below q (h.block hq)
      have hlast := h.brk
      refine ⟨_, _, hcall, fun _ => ⟨⟨.inr ⟨q, rfl, ?_⟩, fun hf => absurd hfit hf, fun hlarge => ?_⟩, all, l,
        h.reuse (h.block hq) hfree hsize⟩, fun hs => absurd (.inl hfit) hs⟩
      · change q + 24 + n ≤ s.brk
        omega
      · omega
    · rw [← find_eq] at hfind
      have hfit : ¬ Fits n s := by
        rintro ⟨_, r, hr⟩
        rw [hfind] at hr
        cases hr
      have hmax : s.brk ≠ 2 ^ 64 - 1 := by
        have := h.aligned (List.ne_nil_of_mem (h.block (a := q) (by simp)))
        omega
      have hcall : mallocAsk granted n s = some (give s.brk n (setNext q s.brk (setMeta s.brk n s.mem)) { s with brk := b }) := by
        rw [mallocAsk, if_neg hhead, hfind, Option.map_some, hask]
        exact congrArg some (if_neg hmax)
      exact ⟨_, _, hcall, new_step h hfit hmax hcall hmove⟩

end Steps

inductive Call
  | malloc (n : ℕ) (granted : Bool)
  | free (p : ℕ)
  | write (x : ℕ × ℕ) (i : ℕ) (b : UInt8)

def Call.step : Call → Heap → Option Heap
  | .malloc n granted, s => (mallocAsk granted n s).map Prod.snd
  | .free p, s => Op.step (.free p) s
  | .write x i b, s => Op.step (.write x i b) s

def Call.Allowed : Call → Heap → Prop
  | .malloc _ _, _ => True
  | .free p, s => Op.Allowed (.free p) s
  | .write x i b, s => Op.Allowed (.write x i b) s

def Call.Honest : Call → Heap → Prop
  | .malloc n granted, s => ∃ p t, mallocAsk granted n s = some (p, t) ∧ Malloc.Honest granted n s p t
  | _, _ => True

def Call.Served : Call → Heap → Prop
  | .malloc n granted, s => Malloc.Served granted n s
  | _, _ => True

theorem call_step {all l : List ℕ} {s : Heap} (h : Inv all l s) {c : Call} (hc : c.Allowed s) :
    ∃ t, c.step s = some t ∧ (c.Served s → c.Honest s ∧ ∃ all' l', Inv all' l' t) ∧ (¬ c.Served s → ¬ c.Honest s) := by
  cases c with
  | malloc n granted =>
    obtain ⟨p, t, hcall, hserved, hnot⟩ := mallocAsk_step h granted n
    refine ⟨t, by rw [Call.step, hcall]; rfl, fun hs => ?_, fun hs => ?_⟩
    · obtain ⟨hh, hinv⟩ := hserved hs
      exact ⟨⟨p, t, hcall, hh⟩, hinv⟩
    · rintro ⟨p', t', hcall', hh⟩
      rw [hcall] at hcall'
      cases hcall'
      exact hnot hs hh
  | free p =>
    have hop : (Op.free p).Allowed s := hc
    obtain ⟨t, ht, hroom, _⟩ := step_spec h hop
    exact ⟨t, ht, fun _ => ⟨trivial, (hroom trivial).2⟩, fun hs => absurd trivial hs⟩
  | write x i b =>
    have hop : (Op.write x i b).Allowed s := hc
    obtain ⟨t, ht, hroom, _⟩ := step_spec h hop
    exact ⟨t, ht, fun _ => ⟨trivial, (hroom trivial).2⟩, fun hs => absurd trivial hs⟩

theorem Inv.honest_iff {all l : List ℕ} {s : Heap} (h : Inv all l s) {cs : List Call}
    (hcs : Run.Meets Call.step Call.Allowed s cs) :
    Run.Meets Call.step Call.Honest s cs ↔ Run.Meets Call.step Call.Served s cs := by
  induction cs generalizing all l s with
  | nil => rfl
  | cons c cs ih =>
    obtain ⟨t, ht, hserved, hnot⟩ := call_step h hcs.1
    rw [Run.Meets, Run.Meets]
    by_cases hs : c.Served s
    · obtain ⟨hh, all', l', hinv⟩ := hserved hs
      have hrest : ∀ u, c.step s = some u → (Run.Meets Call.step Call.Honest u cs ↔ Run.Meets Call.step Call.Served u cs) := by
        intro u hu
        obtain rfl := Option.some.inj (hu.symm.trans ht)
        exact ih hinv (hcs.2 u hu)
      exact and_congr (iff_of_true hh hs) (forall_congr' fun u => imp_congr_right (hrest u))
    · exact iff_of_false (fun hx => hnot hs hx.1) fun hx => hs hx.1

theorem honest_run_iff (mem : ℕ → UInt8) {brk : ℕ} (hbrk : brk < 2 ^ 64) {cs : List Call}
    (hcs : Run.Meets Call.step Call.Allowed (start mem brk) cs) :
    Run.Meets Call.step Call.Honest (start mem brk) cs ↔ Run.Meets Call.step Call.Served (start mem brk) cs :=
  (start_inv mem hbrk).honest_iff hcs

theorem malloc_ignores_refusal : (mallocAsk false 10 (start (fun _ => 0) 0x401000)).map (fun r => (r.1, r.2.brk)) =
      some (0x401018, 0x401000) ∧ ¬ Run.Meets Call.step Call.Honest (start (fun _ => 0) 0x401000) [.malloc 10 false] := by
  have hcall : (mallocAsk false 10 (start (fun _ => 0) 0x401000)).map (fun r => (r.1, r.2.brk)) =
      some (0x401018, 0x401000) := by decide +kernel
  refine ⟨hcall, ?_⟩
  rintro ⟨⟨p, t, hpt, hh⟩, _⟩
  rw [hpt, Option.map_some, Option.some.injEq, Prod.mk.injEq] at hcall
  have hz := hh.refused (fun hf => hf.1 rfl) (by decide) rfl
  exact absurd (hcall.1.symm.trans hz) (by decide)

instance : (c : Call) → (s : Heap) → Decidable (c.Allowed s)
  | .malloc _ _, _ => inferInstanceAs (Decidable True)
  | .free p, s => inferInstanceAs (Decidable (Op.Allowed (.free p) s))
  | .write x i b, s => inferInstanceAs (Decidable (Op.Allowed (.write x i b) s))

def Call.served : Call → Heap → Bool
  | .malloc n granted, s => granted && (Op.malloc n).roomy s
  | _, _ => true

theorem Call.served_of_check : ∀ (c : Call) (s : Heap), c.served s = true → c.Served s
  | .malloc _ _, _, h =>
    have h' := Bool.and_eq_true_iff.mp h
    .inr (.inr ⟨h'.1, of_decide_eq_true h'.2⟩)
  | .free _, _, _ => trivial
  | .write _ _ _, _, _ => trivial

theorem honest_run_small : Run.Meets Call.step Call.Honest (start (fun _ => 7) 0x401000)
    [.malloc 10 true, .free 0x401018, .malloc 100 true] := by
  apply (honest_run_iff _ (by decide) _).mpr
  · exact Run.meets_of_check Call.served_of_check (by decide +kernel)
  · exact Run.meets_of_check (c := fun c s => decide (c.Allowed s)) (fun _ _ => of_decide_eq_true) (by decide +kernel)

end Os506.Malloc
