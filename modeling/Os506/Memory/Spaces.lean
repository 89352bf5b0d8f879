import Os506.Memory.VmaLists

namespace Os506

open Bytes Linked Pool TaskPool

namespace TaskPool

def walkVmas (mem : ℕ → UInt8) : ℕ → ℕ → Option (List ℕ)
  | 0, vma => if vma = 0 then some [] else none
  | n + 1, vma => if vma = 0 then some [] else (walkVmas mem n (word mem (vma + 32))).map (vma :: ·)

/-- `prev_vma->next = free_vma_struct; free_vma_struct = mm->vm`. The structs of the list are no longer in use. -/
def splice (prevVma vm : ℕ) (vmas : List ℕ) (s : Pools Kind) : Pools Kind :=
  { setVmaNext prevVma (s.head .vma) s with
    head := Function.update s.head .vma vm
    out := s.out.filter fun x => decide (x ∉ vmas.map fun p => (Kind.vma, p)) }

def replaceTask (vm : ℕ) (s : Pools Kind) : Option (Pools Kind) :=
  (walkVmas s.mem s.out.length vm).map fun vmas =>
    match vmas.getLast? with
    | none => s
    | some prevVma => splice prevVma vm vmas s

def drain : ℕ → Pools Kind → Option (List ℕ)
  | 0, _ => none
  | n + 1, s => if s.head .vma = 0 then some [] else (drain n (take shape .vma s)).map (s.head .vma :: ·)

structure Listed (s : Pools Kind) (vm : ℕ) (l : List ℕ) : Prop where
  chain : Chain (vmaNext s.mem) (pointer vm) l
  out : ∀ p ∈ l, (.vma, p) ∈ s.out
  free : ∀ p ∈ l, word s.mem (p + 40) = 0

variable {free : Kind → List ℕ} {s t : Pools Kind} {vm n p e : ℕ} {l : List ℕ}

theorem Listed.keep (h : Listed s vm l) (hout : ∀ p ∈ l, (.vma, p) ∈ t.out) (hkeep : ∀ p ∈ l, Keeps s t (.vma, p)) :
    Listed t vm l where
  chain := seg_congr (fun p hp => (hkeep p hp).vmaNext) h.chain
  out := hout
  free p hp := by rw [(hkeep p hp).word (by decide), h.free p hp]

theorem Listed.length_le (h : Listed s vm l) : l.length ≤ s.out.length := by
  have hnodup : (l.map fun p => (Kind.vma, p)).Nodup := (chain_nodup h.chain).map fun _ _ he => (Prod.mk.inj he).2
  have hsub : (l.map fun p => (Kind.vma, p)) ⊆ s.out := by
    intro x hx
    obtain ⟨p, hp, rfl⟩ := List.mem_map.mp hx
    exact h.out p hp
  have := (List.subperm_of_subset hnodup hsub).length_le
  rwa [List.length_map] at this

theorem walkVmas_eq {mem : ℕ → UInt8} (h : Chain (vmaNext mem) (pointer vm) l) (hn : l.length ≤ n) :
    walkVmas mem n vm = some l := by
  induction l generalizing vm n with
  | nil =>
    have hzero : vm = 0 := pointer_eq_none.mp h
    cases n <;> exact if_pos hzero
  | cons p l ih =>
    obtain ⟨n, rfl⟩ : ∃ m, n = m + 1 := ⟨n - 1, by simp at hn; omega⟩
    obtain ⟨rfl, hpos⟩ := pointer_eq_some.mp h.1
    rw [walkVmas, if_neg hpos, ih h.2 (by simpa using hn)]
    rfl

theorem walkVmas_some {mem : ℕ → UInt8} (h : walkVmas mem n vm = some l) :
    Chain (vmaNext mem) (pointer vm) l ∧ l.length ≤ n := by
  induction n generalizing vm l with
  | zero =>
    rw [walkVmas] at h
    split at h
    · obtain rfl := Option.some.inj h
      exact ⟨pointer_eq_none.mpr ‹_›, le_rfl⟩
    · cases h
  | succ n ih =>
    rw [walkVmas] at h
    split at h
    · obtain rfl := Option.some.inj h
      exact ⟨pointer_eq_none.mpr ‹_›, Nat.zero_le _⟩
    · rename_i hpos
      obtain ⟨l, hl, rfl⟩ := Option.map_eq_some_iff.mp h
      obtain ⟨hc, hlen⟩ := ih hl
      exact ⟨⟨pointer_of_pos (Nat.pos_of_ne_zero hpos), hc⟩, Nat.succ_le_succ hlen⟩

theorem traverseVmas_eq {mem : ℕ → UInt8} (h : Chain (vmaNext mem) (pointer vm) (l ++ [e])) (hn : l.length < n) :
    traverseVmas mem n vm = some e := by
  induction l generalizing vm n with
  | nil =>
    obtain ⟨n, rfl⟩ : ∃ m, n = m + 1 := ⟨n - 1, by simp at hn; omega⟩
    obtain ⟨rfl, _⟩ := pointer_eq_some.mp h.1
    exact if_pos (pointer_eq_none.mp h.2)
  | cons p l ih =>
    obtain ⟨n, rfl⟩ : ∃ m, n = m + 1 := ⟨n - 1, by simp at hn; omega⟩
    obtain ⟨rfl, _⟩ := pointer_eq_some.mp h.1
    have hnext : word mem (vm + 32) ≠ 0 := by
      intro hzero
      have hc : Chain (vmaNext mem) (vmaNext mem vm) (l ++ [e]) := h.2
      rw [vmaNext, hzero] at hc
      have := chain_head hc
      simp [pointer] at this
    rw [traverseVmas, if_neg hnext]
    exact ih h.2 (by simpa using hn)

theorem drain_eq (h : Inv shape free s) (hn : (free .vma).length < n) : drain n s = some (free .vma) := by
  induction n generalizing free s with
  | zero => omega
  | succ n ih =>
    rw [drain]
    have hc := h.chain .vma
    cases hl : free .vma with
    | nil =>
      rw [hl] at hc
      exact if_pos (pointer_eq_none.mp hc)
    | cons p l =>
      rw [hl] at hc hn
      obtain ⟨hhead, hinv⟩ := h.take hl
      have hpos := (pointer_eq_some.mp hc.1).2
      have hself : Function.update free .vma l .vma = l := Function.update_self ..
      have hrest := ih hinv (by rw [hself]; simpa using hn)
      rw [if_neg (hhead ▸ hpos), hrest, hself, hhead]
      rfl

theorem mem_splice_out {x : Kind × ℕ} {vmas : List ℕ} :
    x ∈ (splice p vm vmas s).out ↔ x ∈ s.out ∧ x ∉ vmas.map fun q => (Kind.vma, q) := by
  rw [splice, List.mem_filter, decide_eq_true_iff]

/-- After the splice the pool has the first struct of the old list, and nothing behind it. -/
theorem splice_inv (h : Inv shape free s) (hl : Listed s vm (vm :: l)) (he : e ∈ vm :: l) :
    Inv shape (Function.update free .vma [vm]) (splice e vm (vm :: l) s) ∧
      ∀ x ∈ (splice e vm (vm :: l) s).out, Keeps s (splice e vm (vm :: l) s) x := by
  have hvm := hl.out vm List.mem_cons_self
  obtain ⟨hinv, hkeeps, _, hrest⟩ := setVmaNext_spec h (hl.out e he) (h.head_lt .vma)
  have hlink : word (setVmaNext e (s.head .vma) s).mem (vm + 40) = 0 := by
    rw [← hl.free vm List.mem_cons_self]
    by_cases hne : vm = e
    · exact word_congr fun x hle hlt => hrest x (by omega)
    · exact (hkeeps (.vma, vm) hvm fun hx => hne (Prod.mk.inj hx).2).word (by decide)
  have hobj : ∀ x, Object (Function.update free .vma [vm]) (splice e vm (vm :: l) s) x → Object free s x := by
    rintro ⟨k, q⟩ (hx | hx)
    · exact .inl (mem_splice_out.mp hx).1
    · by_cases hk : k = .vma
      · subst hk
        dsimp only at hx
        rw [Function.update_self, List.mem_singleton] at hx
        exact .inl (hx ▸ hvm)
      · rw [Function.update_of_ne hk] at hx
        exact .inr hx
  refine ⟨⟨fun k => ?_, fun k q hq hmem => ?_, h.nodup.filter _, fun x y hx hy => h.apart x y (hobj x hx) (hobj y hy),
    fun x hx => h.inside x (hobj x hx), h.pages⟩, fun x hx => ?_⟩
  · by_cases hk : k = .vma
    · subst hk
      have hhead : (splice e vm (vm :: l) s).head .vma = vm := rfl
      rw [hhead, Function.update_self, hl.chain.1]
      exact ⟨rfl, pointer_eq_none.mpr hlink⟩
    · have hhead : (splice e vm (vm :: l) s).head k = s.head k := Function.update_of_ne hk _ _
      rw [hhead, Function.update_of_ne hk]
      exact hinv.chain k
  · obtain ⟨hold, hno⟩ := mem_splice_out.mp hmem
    by_cases hk : k = .vma
    · subst hk
      rw [Function.update_self, List.mem_singleton] at hq
      exact hno (by simp [hq])
    · rw [Function.update_of_ne hk] at hq
      exact h.away k q hq hold
  · obtain ⟨hold, hno⟩ := mem_splice_out.mp hx
    exact hkeeps x hold fun hxe => hno (hxe ▸ List.mem_map_of_mem he)

theorem replaceTask_nil (hl : Listed s vm []) : replaceTask vm s = some s := by
  rw [replaceTask, walkVmas_eq hl.chain hl.length_le]
  rfl

theorem replaceTask_cons (hl : Listed s vm (vm :: l)) :
    ∃ e ∈ vm :: l, replaceTask vm s = some (splice e vm (vm :: l) s) := by
  refine ⟨(vm :: l).getLast (List.cons_ne_nil _ _), List.getLast_mem _, ?_⟩
  rw [replaceTask, walkVmas_eq hl.chain hl.length_le, Option.map_some, List.getLast?_eq_getLast_of_ne_nil]

theorem Listed.snoc {l₀ : List ℕ} (h : Listed s vm (l₀ ++ [e])) (hinv : Inv shape free s) (hp : (.vma, p) ∈ s.out)
    (hnot : p ∉ l₀ ++ [e]) (hnext : vmaNext s.mem p = none) (hfree : word s.mem (p + 40) = 0) :
    Listed (setVmaNext e p s) vm (l₀ ++ [e] ++ [p]) := by
  have he := h.out e (by simp)
  obtain ⟨_, hkeeps, hword, hrest⟩ := setVmaNext_spec hinv he (hinv.pos (.inl hp)).2
  have hother : ∀ q, (.vma, q) ∈ s.out → q ≠ e → Keeps s (setVmaNext e p s) (.vma, q) := fun q hq hne =>
    hkeeps _ hq fun hx => hne (Prod.mk.inj hx).2
  have hmem : ∀ q ∈ l₀ ++ [e] ++ [p], (.vma, q) ∈ s.out ∧ word s.mem (q + 40) = 0 := by
    intro q hq
    rcases List.mem_append.mp hq with hq | hq
    · exact ⟨h.out q hq, h.free q hq⟩
    · rw [List.mem_singleton.mp hq]
      exact ⟨hp, hfree⟩
  refine ⟨?_, fun q hq => (hmem q hq).1, fun q hq => ?_⟩
  · have hnodup := chain_nodup h.chain
    obtain ⟨m, hm, hlast⟩ := seg_append.mp h.chain
    rw [List.append_assoc]
    refine seg_append.mpr ⟨m, seg_congr (fun q hq => ?_) hm, hlast.1, ?_, ?_⟩
    · refine (hother q (h.out q (List.mem_append_left _ hq)) ?_).vmaNext
      rintro rfl
      exact (List.nodup_append.mp hnodup).2.2 q hq q List.mem_cons_self rfl
    · rw [vmaNext, hword]
      exact pointer_of_pos (hinv.pos (.inl hp)).1
    · rw [(hother p hp fun hpe => hnot (by simp [hpe])).vmaNext]
      exact hnext
  · rw [← (hmem q hq).2]
    by_cases hqe : q = e
    · exact word_congr fun x hle _ => hrest x (.inr (by omega))
    · exact (hother q (hmem q hq).1 hqe).word (by decide)

theorem Listed.grow (h : Listed s vm l) (hinv : Inv shape free s) (hp : (.vma, p) ∈ s.out) (vmEnd : ℕ) :
    Listed (store (p + 8) (encode 8 vmEnd) s) vm l := by
  obtain ⟨_, hkeeps⟩ := store_inv hinv hp 8 (encode 8 vmEnd) (by rw [length_encode]; decide)
  have hword : ∀ q ∈ l, ∀ i, 16 ≤ i → i + 8 ≤ 48 →
      word (store (p + 8) (encode 8 vmEnd) s).mem (q + i) = word s.mem (q + i) := by
    intro q hq i hi hi'
    by_cases hqp : q = p
    · refine word_congr fun x hle _ => put_of_ge ?_
      rw [length_encode]
      omega
    · exact (hkeeps _ (h.out q hq) fun hx => hqp (Prod.mk.inj hx).2).word hi'
  refine ⟨seg_congr (fun q hq => ?_) h.chain, h.out, fun q hq => ?_⟩
  · rw [vmaNext, vmaNext, hword q hq 32 (by decide) (by decide)]
  · rw [hword q hq 40 (by decide) (by decide), h.free q hq]

end TaskPool

structure Spaces where
  pools : Pools Kind
  vm : ℕ → ℕ

inductive SpaceOp
  | append (t page : ℕ) (a : Area)
  | fork (parent child : ℕ) (pages : List ℕ)
  | grow (t vma vmEnd : ℕ)
  | replace (t : ℕ)

def SpaceOp.step : SpaceOp → Spaces → Option Spaces
  | append t page a, x => match setVma page a x.pools with
    | .error _ => none
    | .ok (vma, s) =>
      if x.vm t = 0 then some ⟨s, Function.update x.vm t vma⟩
      else (traverseVmas s.mem s.out.length (x.vm t)).map fun endVma => ⟨setVmaNext endVma vma s, x.vm⟩
  | fork parent child pages, x =>
    (forkVmas pages (x.vm parent) x.pools).map fun (vm, s) => ⟨s, Function.update x.vm child vm⟩
  | grow _ vma vmEnd, x => some ⟨store (vma + 8) (encode 8 vmEnd) x.pools, x.vm⟩
  | replace t, x => (replaceTask (x.vm t) x.pools).map fun s => ⟨s, Function.update x.vm t 0⟩

/-- `kmalloc` has fresh pages, one for each VMA of a parent, a child is a new task, and `sys_brk` takes a VMA of its own
task. -/
def SpaceOp.Allowed : SpaceOp → Spaces → Prop
  | append _ page _, x => x.pools.head .vma = 0 → Offered page x.pools
  | fork parent child pages, x => Supply pages x.pools ∧ parent ≠ child ∧ x.vm child = 0 ∧
      (walkVmas x.pools.mem pages.length (x.vm parent)).isSome = true
  | grow t vma _, x => On (vmaNext x.pools.mem) (pointer (x.vm t)) vma
  | replace _, _ => True

namespace Spaces

structure Owns (free : Kind → List ℕ) (lists : ℕ → List ℕ) (x : Spaces) : Prop where
  inv : Inv shape free x.pools
  listed : ∀ t, Listed x.pools (x.vm t) (lists t)
  apart : ∀ t u, t ≠ u → ∀ p ∈ lists t, p ∉ lists u

def Owned (x : Spaces) : Prop := ∃ free lists, Owns free lists x

variable {free : Kind → List ℕ} {lists : ℕ → List ℕ} {x y : Spaces} {t : ℕ}

theorem Owns.update (h : Owns free lists x) {free' : Kind → List ℕ} {s : Pools Kind} {vm : ℕ} {l : List ℕ} (t : ℕ)
    (hinv : Inv shape free' s) (hl : Listed s vm l) (hother : ∀ u, u ≠ t → Listed s (x.vm u) (lists u))
    (hnew : ∀ p ∈ l, ∀ u, u ≠ t → p ∉ lists u) : Owned ⟨s, Function.update x.vm t vm⟩ := by
  refine ⟨free', Function.update lists t l, hinv, fun u => ?_, fun u v huv p hp => ?_⟩
  · by_cases hu : u = t
    · subst hu
      dsimp only
      rw [Function.update_self, Function.update_self]
      exact hl
    · dsimp only
      rw [Function.update_of_ne hu, Function.update_of_ne hu]
      exact hother u hu
  · by_cases hu : u = t
    · subst hu
      rw [Function.update_self] at hp
      rw [Function.update_of_ne (Ne.symm huv)]
      exact hnew p hp v (Ne.symm huv)
    · rw [Function.update_of_ne hu] at hp
      by_cases hv : v = t
      · subst hv
        rw [Function.update_self]
        exact fun hpl => hnew p hpl u hu hp
      · rw [Function.update_of_ne hv]
        exact h.apart u v huv p hp

theorem Owns.append (h : Owns free lists x) {page : ℕ} {a : Area} (hop : (SpaceOp.append t page a).Allowed x) :
    ∃ y, (SpaceOp.append t page a).step x = some y ∧ Owned y := by
  obtain ⟨p, s, hset, ⟨free', hinv⟩, hout, hnew, hkeeps, hnext, hfree⟩ := setVma_spec h.inv hop a
  have hold : ∀ z ∈ x.pools.out, z ∈ s.out := by
    intro z hz
    rw [hout]
    exact List.mem_cons_of_mem _ hz
  have hp : (.vma, p) ∈ s.out := by
    rw [hout]
    exact List.mem_cons_self
  have hlisted : ∀ u, Listed s (x.vm u) (lists u) := fun u =>
    (h.listed u).keep (fun q hq => hold _ ((h.listed u).out q hq)) fun q hq => hkeeps _ ((h.listed u).out q hq)
  have hpnot : ∀ u, p ∉ lists u := fun u hu => hnew ((h.listed u).out p hu)
  rw [SpaceOp.step, hset]
  dsimp only
  by_cases hzero : x.vm t = 0
  · rw [if_pos hzero]
    refine ⟨_, rfl, h.update t hinv (l := [p]) ⟨⟨?_, hnext⟩, ?_, ?_⟩ (fun u _ => hlisted u) ?_⟩
    · exact pointer_of_pos (hinv.pos (.inl hp)).1
    · exact List.forall_mem_singleton.mpr hp
    · exact List.forall_mem_singleton.mpr hfree
    · exact List.forall_mem_singleton.mpr fun u _ => hpnot u
  · rw [if_neg hzero]
    obtain ⟨l₀, e, hlast⟩ : ∃ l₀ e, lists t = l₀ ++ [e] := by
      rcases List.eq_nil_or_concat' (lists t) with hnil | hlast
      · have hc := (h.listed t).chain
        rw [hnil] at hc
        exact absurd (pointer_eq_none.mp hc) hzero
      · exact hlast
    have ht := hlisted t
    rw [hlast] at ht
    have hlen := ht.length_le
    rw [List.length_append, List.length_singleton] at hlen
    rw [traverseVmas_eq ht.chain hlen]
    have he := ht.out e (by simp)
    obtain ⟨hinv', hkeeps', _, _⟩ := setVmaNext_spec hinv he (hinv.pos (.inl hp)).2
    refine ⟨_, rfl, ?_⟩
    have hown := h.update t hinv' (ht.snoc hinv hp (hlast ▸ hpnot t) hnext hfree) (fun u hu => ?_) fun q hq u hu => ?_
    · rwa [Function.update_eq_self] at hown
    · refine (hlisted u).keep (hlisted u).out fun q hq => hkeeps' _ ((hlisted u).out q hq) fun hx => ?_
      refine h.apart t u (Ne.symm hu) e (by rw [hlast]; simp) ?_
      rwa [← (Prod.mk.inj hx).2]
    · rcases List.mem_append.mp hq with hq | hq
      · exact h.apart t u (Ne.symm hu) q (hlast ▸ hq)
      · rw [List.mem_singleton.mp hq]
        exact hpnot u

theorem Owns.fork (h : Owns free lists x) {parent child : ℕ} {pages : List ℕ}
    (hop : (SpaceOp.fork parent child pages).Allowed x) :
    ∃ y l', (SpaceOp.fork parent child pages).step x = some y ∧ Owned y ∧
      y.vm = Function.update x.vm child (y.vm child) ∧ Forked x.pools (lists parent) (y.vm child) y.pools l' := by
  obtain ⟨hpages, hne, hzero, hwalk⟩ := hop
  have hp := h.listed parent
  obtain ⟨l, hl⟩ := Option.isSome_iff_exists.mp hwalk
  obtain ⟨hc, hlen⟩ := walkVmas_some hl
  obtain rfl := chain_unique hc hp.chain
  obtain ⟨vm', s, l', hrun, hfork⟩ := forkVmas_forked h.inv hp.chain hp.out hpages hlen
  obtain ⟨free', hinv⟩ := hfork.inv
  have hnodup := hinv.nodup
  rw [hfork.out, List.nodup_append] at hnodup
  have hout : ∀ q ∈ l', (.vma, q) ∈ s.out ∧ (Kind.vma, q) ∉ x.pools.out := by
    intro q hq
    have hmem : (Kind.vma, q) ∈ (l'.map fun q => (Kind.vma, q)).reverse := by simpa using hq
    rw [hfork.out]
    exact ⟨List.mem_append_left _ hmem, fun hx => hnodup.2.2 _ hmem _ hx rfl⟩
  have hold : ∀ z ∈ x.pools.out, z ∈ s.out := by
    intro z hz
    rw [hfork.out]
    exact List.mem_append_right _ hz
  have hfree : ∀ q ∈ l', word s.mem (q + 40) = 0 := by
    intro q hq
    obtain ⟨p, hpl, hcopy⟩ : ∃ p ∈ lists parent, Copied x.pools p s q := by
      obtain ⟨i, hi, rfl⟩ := List.getElem_of_mem hq
      have hi' : i < (lists parent).length := by rwa [hfork.copies.length_eq]
      exact ⟨_, List.getElem_mem hi', hfork.copies.get hi' hi⟩
    rw [hcopy.word (.inr rfl)]
    exact hp.free p hpl
  have hself : Function.update x.vm child vm' child = vm' := Function.update_self ..
  refine ⟨⟨s, Function.update x.vm child vm'⟩, l', ?_, ?_, ?_, ?_⟩
  · rw [SpaceOp.step, hrun]
    rfl
  · refine h.update child hinv ⟨hfork.chain, fun q hq => (hout q hq).1, hfree⟩ (fun u _ => ?_) fun q hq u _ hu => ?_
    · exact (h.listed u).keep (fun q hq => hold _ ((h.listed u).out q hq))
        fun q hq => hfork.keeps _ ((h.listed u).out q hq)
    · exact (hout q hq).2 ((h.listed u).out q hu)
  · dsimp only
    rw [hself]
  · dsimp only
    rw [hself]
    exact hfork

theorem Owns.grow (h : Owns free lists x) {vma vmEnd : ℕ} (hop : (SpaceOp.grow t vma vmEnd).Allowed x) :
    ∃ y, (SpaceOp.grow t vma vmEnd).step x = some y ∧ Owned y := by
  have hout := (h.listed t).out vma ((on_iff_mem (h.listed t).chain).mp hop)
  obtain ⟨hinv, _⟩ := store_inv h.inv hout 8 (encode 8 vmEnd) (by rw [length_encode]; decide)
  exact ⟨_, rfl, free, lists, hinv, fun u => (h.listed u).grow h.inv hout vmEnd, h.apart⟩

theorem Owns.replace (h : Owns free lists x) (t : ℕ) : ∃ y, (SpaceOp.replace t).step x = some y ∧ Owned y := by
  have ht := h.listed t
  rw [SpaceOp.step]
  cases hl : lists t with
  | nil =>
    rw [hl] at ht
    rw [replaceTask_nil ht]
    have hzero : x.vm t = 0 := pointer_eq_none.mp ht.chain
    refine ⟨_, rfl, free, lists, h.inv, fun u => ?_, h.apart⟩
    have hself : Function.update x.vm t 0 = x.vm := by rw [← hzero, Function.update_eq_self]
    dsimp only
    rw [hself]
    exact h.listed u
  | cons p l =>
    rw [hl] at ht
    obtain ⟨rfl, _⟩ := pointer_eq_some.mp ht.chain.1
    obtain ⟨e, he, hrun⟩ := replaceTask_cons ht
    obtain ⟨hinv, hkeeps⟩ := splice_inv h.inv ht he
    rw [hrun]
    refine ⟨_, rfl, h.update t hinv (l := []) ⟨rfl, nofun, nofun⟩ (fun u hu => ?_) nofun⟩
    have hout : ∀ q ∈ lists u, (.vma, q) ∈ (splice e (x.vm t) (x.vm t :: l) x.pools).out := by
      intro q hq
      refine mem_splice_out.mpr ⟨(h.listed u).out q hq, fun hmem => ?_⟩
      obtain ⟨q', hq', hqq⟩ := List.mem_map.mp hmem
      obtain ⟨-, rfl⟩ := Prod.mk.inj hqq
      exact h.apart t u (Ne.symm hu) q' (hl ▸ hq') hq
    exact (h.listed u).keep hout fun q hq => hkeeps _ (hout q hq)

theorem step_owned {op : SpaceOp} (h : Owned x) (hop : op.Allowed x) : ∃ y, op.step x = some y ∧ Owned y := by
  obtain ⟨free, lists, h⟩ := h
  cases op with
  | append t page a => exact h.append hop
  | fork parent child pages =>
    obtain ⟨y, _, hy, hown, _⟩ := h.fork hop
    exact ⟨y, hy, hown⟩
  | grow t vma vmEnd => exact h.grow hop
  | replace t => exact h.replace t

def start (mem : ℕ → UInt8) : Spaces := ⟨TaskPool.start mem, fun _ => 0⟩

theorem start_owned (mem : ℕ → UInt8) : Owned (start mem) :=
  ⟨fun _ => [], fun _ => [], start_inv mem, fun _ => ⟨rfl, nofun, nofun⟩, fun _ _ _ => nofun⟩

theorem owned_run (mem : ℕ → UInt8) (ops : List SpaceOp) (h : Run.Meets SpaceOp.step SpaceOp.Allowed (start mem) ops) :
    ∃ x, Run.exec SpaceOp.step ops (start mem) = some x ∧ Owned x := by
  have hrun : Run.Along SpaceOp.step Owned (start mem) ops := by
    apply Run.along_of_step (C := SpaceOp.Allowed) _ (start_owned mem) h
    intro op x y hx hop hy
    obtain ⟨z, hz, hown⟩ := step_owned hx hop
    exact Option.some.inj (hz.symm.trans hy) ▸ hown
  obtain ⟨x, hx⟩ := Run.exec_of_step (I := Owned) (C := SpaceOp.Allowed) (fun _ _ hx hop => step_owned hx hop)
    (start_owned mem) h
  exact ⟨x, hx, Run.exec_of_along hrun hx⟩

/-- After `replace_task` the pool gives out what it had before and all VMAs of the old task, each once. -/
def Reclaims (x : Spaces) (t : ℕ) : Prop :=
  ∃ s vmas, replaceTask (x.vm t) x.pools = some s ∧ Chain (vmaNext x.pools.mem) (pointer (x.vm t)) vmas ∧
    ∃ enough, ∀ n ≥ enough, ∃ before after, drain n x.pools = some before ∧ drain n s = some after ∧
      after.Perm (before ++ vmas)

theorem reclaims_of_null (h : Owns free lists x) (hvm : x.vm t = 0) : Reclaims x t := by
  have ht := h.listed t
  have hnil : lists t = [] := by
    have hc := ht.chain
    rw [hvm] at hc
    exact chain_unique hc rfl
  rw [hnil] at ht
  refine ⟨x.pools, [], replaceTask_nil ht, ht.chain, (free .vma).length + 1, fun n hn => ?_⟩
  have hdrain := drain_eq h.inv (n := n) (by omega)
  exact ⟨_, _, hdrain, hdrain, by rw [List.append_nil]⟩

theorem Owns.cons (h : Owns free lists x) (hvm : x.vm t ≠ 0) : ∃ l, lists t = x.vm t :: l := by
  have hc := (h.listed t).chain
  cases hl : lists t with
  | nil =>
    rw [hl] at hc
    exact absurd (pointer_eq_none.mp hc) hvm
  | cons p l =>
    rw [hl] at hc
    exact ⟨l, by rw [(pointer_eq_some.mp hc.1).1]⟩

theorem Owns.pool_nil (h : Owns free lists x) : free .vma = [] ↔ x.pools.head .vma = 0 := by
  rw [← pointer_eq_none, chain_head (h.inv.chain .vma), List.head?_eq_none_iff]

theorem reclaims_cons_iff {l : List ℕ} (h : Owns free lists x) (hl : lists t = x.vm t :: l) :
    Reclaims x t ↔ free .vma = [] ∧ l = [] := by
  have ht := h.listed t
  rw [hl] at ht
  obtain ⟨e, he, hrun⟩ := replaceTask_cons ht
  obtain ⟨hinv, _⟩ := splice_inv h.inv ht he
  have hself : Function.update free .vma [x.vm t] .vma = [x.vm t] := Function.update_self ..
  constructor
  · rintro ⟨s, vmas, hs, hc, enough, hdrains⟩
    obtain rfl := Option.some.inj (hrun.symm.trans hs)
    obtain rfl := chain_unique hc ht.chain
    obtain ⟨before, after, hbefore, hafter, hperm⟩ := hdrains (max enough ((free .vma).length + 2)) (le_max_left _ _)
    rw [drain_eq h.inv (by omega)] at hbefore
    rw [drain_eq hinv (by rw [hself, List.length_singleton]; omega), hself] at hafter
    obtain rfl := Option.some.inj hbefore
    obtain rfl := Option.some.inj hafter
    have hlen := hperm.length_eq
    simp only [List.length_append, List.length_cons, List.length_nil] at hlen
    exact ⟨List.eq_nil_of_length_eq_zero (by omega), List.eq_nil_of_length_eq_zero (by omega)⟩
  · rintro ⟨hfree, rfl⟩
    refine ⟨_, _, hrun, ht.chain, 2, fun n hn => ⟨[], [x.vm t], ?_, ?_, .refl _⟩⟩
    · rw [drain_eq h.inv (by rw [hfree]; exact Nat.lt_of_lt_of_le (by decide) hn), hfree]
    · rw [drain_eq hinv (by rw [hself]; exact hn), hself]

/-- The splice goes by the field `next`, and the pool by the field `free`: all is reclaimed only if there is nothing to
splice, or one VMA and nothing to splice it to. -/
theorem reclaims_iff (h : x.Owned) (t : ℕ) : x.Reclaims t ↔
    x.vm t = 0 ∨ x.pools.head .vma = 0 ∧ word x.pools.mem (x.vm t + 32) = 0 := by
  obtain ⟨free, lists, h⟩ := h
  by_cases hvm : x.vm t = 0
  · exact iff_of_true (reclaims_of_null h hvm) (.inl hvm)
  · obtain ⟨l, hl⟩ := h.cons hvm
    have hc := (h.listed t).chain
    rw [hl] at hc
    have hnext : l = [] ↔ word x.pools.mem (x.vm t + 32) = 0 := by
      rw [← pointer_eq_none, ← List.head?_eq_none_iff, ← chain_head hc.2]
      rfl
    rw [reclaims_cons_iff h hl, h.pool_nil, hnext, or_iff_right hvm]

instance (page : ℕ) (s : Pools Kind) : Decidable (Offered page s) := inferInstanceAs (Decidable (_ ∧ _))

instance (pages : List ℕ) (s : Pools Kind) : Decidable (Supply pages s) :=
  decidable_of_iff (pages.Nodup ∧ ∀ page ∈ pages, Offered page s) ⟨fun ⟨h, h'⟩ => ⟨h, h'⟩, fun ⟨h, h'⟩ => ⟨h, h'⟩⟩

def loaded : List SpaceOp :=
  [.append 0 0x1000 ⟨0x400000, 0x402000, 1, 5⟩, .append 0 0x2000 ⟨0x402000, 0x402000, 4, 6⟩,
    .append 0 0x2000 ⟨0x7FFFF000, 0x80000000, 3, 6⟩]

def allowed : SpaceOp → Spaces → Bool
  | .append _ page _, x => decide (x.pools.head .vma = 0 → Offered page x.pools)
  | .fork parent child pages, x => decide (Supply pages x.pools ∧ parent ≠ child ∧ x.vm child = 0 ∧
      (walkVmas x.pools.mem pages.length (x.vm parent)).isSome = true)
  | .grow .., _ => false
  | .replace _, _ => true

theorem allowed_sound (op : SpaceOp) (x : Spaces) (h : allowed op x = true) : op.Allowed x := by
  cases op with
  | append t page a =>
    rw [allowed, decide_eq_true_iff] at h
    exact h
  | fork parent child pages =>
    rw [allowed, decide_eq_true_iff] at h
    exact h
  | grow t vma vmEnd => cases h
  | replace t => trivial

theorem loaded_owned : ∃ x, Run.exec SpaceOp.step loaded (start fun _ => 0) = some x ∧ Owned x ∧
    (SpaceOp.fork 0 1 [0x3000, 0x4000, 0x5000]).Allowed x := by
  have hmeets : Run.Meets SpaceOp.step SpaceOp.Allowed (start fun _ => 0)
      (loaded ++ [.fork 0 1 [0x3000, 0x4000, 0x5000]]) :=
    Run.meets_of_check allowed_sound (by decide +kernel)
  obtain ⟨hload, hfork⟩ := Run.meets_append.mp hmeets
  obtain ⟨x, hx, hown⟩ := owned_run _ _ hload
  exact ⟨x, hx, hown, (hfork x hx).1⟩

theorem reclaims_last : ∃ x, Run.exec SpaceOp.step (loaded ++ [.replace 0, .append 1 0x2000 ⟨0x400000, 0x402000, 1, 5⟩])
    (start fun _ => 0) = some x ∧ x.Owned ∧ x.vm 1 = 0x1000 ∧ x.Reclaims 1 := by
  obtain ⟨x, hx, hown⟩ := owned_run (fun _ => 0)
    (loaded ++ [.replace 0, .append 1 0x2000 ⟨0x400000, 0x402000, 1, 5⟩]) (Run.meets_of_check allowed_sound (by decide +kernel))
  have hrun : (Run.exec SpaceOp.step (loaded ++ [.replace 0, .append 1 0x2000 ⟨0x400000, 0x402000, 1, 5⟩])
      (start fun _ => 0)).map (fun x => (x.vm 1, x.pools.head .vma, word x.pools.mem (x.vm 1 + 32))) =
        some (0x1000, 0, 0) := by decide +kernel
  rw [hx, Option.map_some, Option.some.injEq, Prod.mk.injEq, Prod.mk.injEq] at hrun
  exact ⟨x, hx, hown, hrun.1, (reclaims_iff hown 1).mpr (.inr hrun.2)⟩

theorem reclaims_fails_on_three : ∃ x, Run.exec SpaceOp.step loaded (start fun _ => 0) = some x ∧ x.Owned ∧
    x.pools.head .vma = 0x1090 ∧ walkVmas x.pools.mem 3 (x.vm 0) = some [0x1000, 0x1030, 0x1060] ∧
      (replaceTask (x.vm 0) x.pools).bind (drain 2) = some [0x1000] ∧ ¬ x.Reclaims 0 := by
  obtain ⟨x, hx, hown, _⟩ := loaded_owned
  have hrun : (Run.exec SpaceOp.step loaded (start fun _ => 0)).map (fun x =>
      (x.vm 0, x.pools.head .vma, walkVmas x.pools.mem 3 (x.vm 0), (replaceTask (x.vm 0) x.pools).bind (drain 2))) =
        some (0x1000, 0x1090, some [0x1000, 0x1030, 0x1060], some [0x1000]) := by decide +kernel
  rw [hx, Option.map_some, Option.some.injEq, Prod.mk.injEq, Prod.mk.injEq, Prod.mk.injEq] at hrun
  obtain ⟨hvm, hhead, hwalk, hafter⟩ := hrun
  refine ⟨x, hx, hown, hhead, hwalk, hafter, ?_⟩
  obtain ⟨free, lists, h⟩ := hown
  obtain ⟨l, hl⟩ := h.cons (t := 0) (by omega)
  rw [reclaims_cons_iff h hl, h.pool_nil, hhead]
  exact fun hno => absurd hno.1 (by decide)

/-- The child gets a list with the areas of the parent. Its structs come fresh from the pool, no other task has one of
them, and what was in use before is as it was. -/
theorem fork_copies (h : x.Owned) {parent child : ℕ} {pages : List ℕ}
    (hop : (SpaceOp.fork parent child pages).Allowed x) :
    ∃ y l l', (SpaceOp.fork parent child pages).step x = some y ∧
      Chain (vmaNext x.pools.mem) (pointer (x.vm parent)) l ∧ Chain (vmaNext y.pools.mem) (pointer (y.vm child)) l' ∧
      l'.length = l.length ∧ List.Forall₂ (fun p q => area y.pools.mem q = area x.pools.mem p) l l' ∧
      (∀ q ∈ l', (.vma, q) ∈ y.pools.out ∧ (∀ z ∈ x.pools.out, Apart shape (.vma, q) z) ∧
        ∀ u ≠ child, ¬ On (vmaNext y.pools.mem) (pointer (y.vm u)) q) ∧
      (∀ u ≠ child, y.vm u = x.vm u) ∧ ∀ z ∈ x.pools.out, Keeps x.pools y.pools z := by
  obtain ⟨free, lists, h⟩ := h
  obtain ⟨y, l', hy, ⟨free', lists', hown⟩, hvm, hfork⟩ := h.fork hop
  have hchild : lists' child = l' := chain_unique (hown.listed child).chain hfork.chain
  have hnodup := hown.inv.nodup
  rw [hfork.out, List.nodup_append] at hnodup
  refine ⟨y, lists parent, l', hy, (h.listed parent).chain, hfork.chain, hfork.copies.length_eq.symm,
    hfork.copies.imp fun _ _ hcopy => hcopy.area, fun q hq => ⟨?_, fun z hz => ?_, fun u hu hon => ?_⟩,
    fun u hu => ?_, hfork.keeps⟩
  · exact (hown.listed child).out q (hchild ▸ hq)
  · have hmem : (Kind.vma, q) ∈ (l'.map fun q => (Kind.vma, q)).reverse := by simpa using hq
    refine hown.inv.apart _ z (.inl ?_) (.inl ?_) (hnodup.2.2 _ hmem z hz)
    · rw [hfork.out]
      exact List.mem_append_left _ hmem
    · rw [hfork.out]
      exact List.mem_append_right _ hz
  · exact hown.apart child u (Ne.symm hu) q (hchild ▸ hq) ((on_iff_mem (hown.listed u).chain).mp hon)
  · rw [hvm, Function.update_of_ne hu]

theorem fork_copies_loaded : ∃ x y l l', Run.exec SpaceOp.step loaded (start fun _ => 0) = some x ∧
    (SpaceOp.fork 0 1 [0x3000, 0x4000, 0x5000]).step x = some y ∧
      Chain (vmaNext x.pools.mem) (pointer (x.vm 0)) l ∧ Chain (vmaNext y.pools.mem) (pointer (y.vm 1)) l' ∧
      l'.length = l.length ∧ List.Forall₂ (fun p q => area y.pools.mem q = area x.pools.mem p) l l' := by
  obtain ⟨x, hx, hown, hop⟩ := loaded_owned
  obtain ⟨y, l, l', hy, hl, hl', hlen, hareas, _⟩ := fork_copies hown hop
  exact ⟨x, y, l, l', hx, hy, hl, hl', hlen, hareas⟩

end Spaces

end Os506
