import Os506.Memory.Isolation

namespace Os506

open Pging CopyOnWrite Run

namespace PMap

variable {s : PMap} {f : BitVec 64}

def OnFreelist (s : PMap) (f : BitVec 64) : Prop := ∃ l, Linked.Chain s.next s.head l ∧ ∃ i ∈ l, (s.desc i).base = f

theorem onFreelist_iff (h : s.Ok) : s.OnFreelist f ↔ s.Known f ∧ s.counts f = 0 := by
  obtain ⟨l, hl⟩ := h.free
  constructor
  · rintro ⟨l', hl', i, hi, rfl⟩
    rw [Linked.chain_unique hl' hl.chain] at hi
    obtain ⟨hlt, hz⟩ := (hl.mem i).mp hi
    exact ⟨⟨i, hlt, rfl⟩, by rw [counts_base h.distinct hlt, hz]; rfl⟩
  · rintro ⟨⟨i, hi, rfl⟩, hz⟩
    rw [counts_base h.distinct hi] at hz
    exact ⟨l, hl.chain, i, (hl.mem i).mpr ⟨hi, BitVec.eq_of_toNat_eq hz⟩, rfl⟩

end PMap

def MemOp.Spares : MemOp → Mach → Prop
  | fork i _, m => ¬ m.Twice i
  | _, _ => True

def MemOp.spares : MemOp → Mach → Bool
  | fork i _, m => decide (m.visits i).Nodup
  | _, _ => true

theorem MemOp.spares_of {op : MemOp} {m : Mach} (h : op.spares m = true) : op.Spares m := by
  cases op with
  | fork i frames =>
    rintro ⟨p, _, hp⟩
    have := List.nodup_iff_count_le_one.mp (of_decide_eq_true h) p
    omega
  | load => trivial
  | brk => trivial
  | read => trivial
  | write => trivial

namespace Mach

variable {m m' : Mach} {i p : ℕ} {f : BitVec 64} {op : MemOp}

/-- A frame has as many references as there are leaf entries that point to it, and it goes back to the freelist
when the last of them is replaced. -/
structure Counted (m : Mach) : Prop where
  leaves : ∀ f, m.cow.Mapped f → m.pmap.counts f = (m.cow.holders f).ncard
  returns : ∀ i p m', m.breakShare i p = some m' → ∀ f, m.cow.Mapped f → (m'.pmap.OnFreelist f ↔ ¬ m'.cow.Mapped f)

theorem excess_eq_zero : m.excess f = 0 ↔ m.pmap.counts f = (m.cow.holders f).ncard := by
  rw [excess]
  omega

theorem counted_iff (h : Inv m) : m.Counted ↔ ∀ f, m.cow.Mapped f → m.excess f = 0 := by
  refine ⟨fun hc f hf => excess_eq_zero.mpr (hc.leaves f hf), fun hz => ⟨fun f hf => excess_eq_zero.mp (hz f hf), ?_⟩⟩
  intro i p m' hm f hf
  obtain ⟨hs, _, _, _, _, hkept⟩ := breakShare_spec h.sound hm
  obtain ⟨hexcess, hknown⟩ := hkept f hf
  rw [PMap.onFreelist_iff hs.ok, and_iff_right hknown, Space.mapped_iff hs.bounded,
    excess_eq_zero.mp (hexcess.trans (hz f hf))]
  omega

theorem Booted.counted (h : m.Booted) : m.Counted := by
  refine (counted_iff h.inv).mpr fun f hf => ?_
  obtain ⟨i, p, b, he⟩ := hf
  have hz := seen_eq_none.mp (h.inv.blank i (by rw [h.count]; exact Nat.zero_le i) p)
  rw [hz] at he
  cases he

theorem step_settled (h : Inv m) (hm : op.step m = some m') (hc : op.Spares m) : Settled m m' := by
  cases op with
  | load segments args frames =>
    obtain ⟨_, _, hset, _⟩ := loadElf_spec h hm
    exact hset
  | fork i frames =>
    rw [MemOp.step] at hm
    split at hm
    · obtain ⟨_, _, _, hset, _⟩ := forkProcess_spec h ‹_› hm
      exact hset hc
    · cases hm
  | brk i addr =>
    rw [MemOp.step] at hm
    split at hm
    · obtain rfl := Option.some.inj hm
      obtain ⟨_, _, hcow, hpmap⟩ := sysBrk_spec h i addr
      exact fun f hf => .inl ⟨hcow ▸ hf, excess_congr (by rw [hcow]) (by rw [hpmap])⟩
    · cases hm
  | read i va =>
    rw [MemOp.step] at hm
    split at hm
    · split at hm
      · obtain rfl := Option.some.inj hm
        exact fun f hf => .inl ⟨hf, rfl⟩
      · exact (handlePgFault_spec h ‹_› hm).2.2.1
    · cases hm
  | write i va b =>
    rw [MemOp.step] at hm
    split at hm
    · split at hm
      · obtain rfl := Option.some.inj hm
        exact (store_spec (c := b) h ‹_›).2.2.1
      · exact (handlePgFault_spec h ‹_› hm).2.2.1
    · cases hm

theorem step_counted (h : Inv m) (hp : m.Counted) (hm : op.step m = some m') : m'.Counted ↔ op.Spares m := by
  have hinv := (step_view h hm).1
  rw [counted_iff hinv]
  constructor
  · intro hz
    cases op with
    | fork i frames =>
      intro htwice
      rw [MemOp.step] at hm
      split at hm
      · obtain ⟨_, _, _, _, hbad⟩ := forkProcess_spec h ‹_› hm
        obtain ⟨f, hf, hpos⟩ := hbad htwice
        exact absurd (hz f hf) hpos.ne'
      · cases hm
    | load => trivial
    | brk => trivial
    | read => trivial
    | write => trivial
  · intro hc f hf
    rcases step_settled h hm hc f hf with ⟨hf', he⟩ | he
    · rw [he]
      exact (counted_iff h).mp hp f hf'
    · exact he

theorem counted_run_iff (h : m.Booted) {ops : List MemOp} (hrun : (exec MemOp.step ops m).isSome = true) :
    Along MemOp.step Counted m ops ↔ Meets MemOp.step MemOp.Spares m ops := by
  refine along_iff_meets (fun op s hi hp he => ?_) h.inv h.counted (meets_of_exec hrun)
  obtain ⟨t, ht⟩ := Option.isSome_iff_exists.mp he
  exact ⟨t, ht, fun _ => (step_view hi ht).1, step_counted hi hp ht⟩

theorem counted_run_separate_pages :
    let text : Segment := ⟨0x400000, 0x10, [1, 2, 3], by decide, by decide, by decide⟩
    let data : Segment := ⟨0x401800, 0x10, [4, 5], by decide, by decide, by decide⟩
    let ops : List MemOp := [.load [text, data] [7] 2, .fork 0 2, .fork 1 2, .write 1 0x400001 9, .write 0 0x400001 8,
      .write 2 0x400001 8]
    (exec MemOp.step ops (blank 40)).isSome = true ∧ Along MemOp.step Counted (blank 40) ops :=
  ⟨by decide +kernel, (counted_run_iff (blank_booted (by decide)) (by decide +kernel)).mpr
    (meets_of_check (c := MemOp.spares) (fun _ _ => MemOp.spares_of) (by decide +kernel))⟩

theorem Inv.ncard_holders_le (h : Inv m) (f : BitVec 64) : (m.cow.holders f).ncard ≤ m.count := by
  have hinj : Set.InjOn Prod.fst (m.cow.holders f) := by
    rintro ⟨i, p⟩ ⟨b, hb⟩ ⟨j, q⟩ ⟨c, hc⟩ he
    exact Prod.ext he (h.sound.priv.page hb hc)
  have hmaps : ∀ x ∈ m.cow.holders f, x.1 ∈ (Finset.range m.count : Set ℕ) := by
    rintro ⟨i, p⟩ ⟨b, hb⟩
    rw [Finset.mem_coe, Finset.mem_range]
    by_contra hi
    have hz := seen_eq_none.mp (h.blank i (not_lt.mp hi) p)
    exact absurd (hz.symm.trans hb) (by simp)
  have hle := Set.ncard_le_ncard_of_injOn Prod.fst hmaps hinj (Finset.finite_toSet _)
  rwa [Set.ncard_coe_finset, Finset.card_range] at hle

theorem inv_run (h : m.Booted) (ops : List MemOp) : Along MemOp.step Inv m ops :=
  along_of_inv (fun _ _ _ hi ht => (step_view hi ht).1) h.inv ops

def overcounted (i p : ℕ) (m : Mach) : Bool :=
  (m.cow.map i p).any fun e => decide (m.count < m.pmap.counts e.1)

theorem Inv.not_counted (h : Inv m) (ho : m.overcounted i p = true) : ¬ m.Counted := by
  intro hc
  obtain ⟨⟨f, b⟩, hmap, hlt⟩ := (Option.any_eq_true _ _).mp ho
  have hle := h.ncard_holders_le f
  have hcount := hc.leaves f ⟨i, p, b, hmap⟩
  have hmore : m.count < m.pmap.counts f := of_decide_eq_true hlt
  omega

theorem not_counted_of_exec {ops : List MemOp} (h : m.Booted)
    (ho : (exec MemOp.step ops m).any (overcounted i p) = true) : ¬ Along MemOp.step Counted m ops := by
  intro ha
  obtain ⟨t, ht, hb⟩ := (Option.any_eq_true _ _).mp ho
  exact (exec_of_along (inv_run h ops) ht).not_counted hb (exec_of_along ha ht)

/-- Two segments that share a page: the fork counts three references for two entries, and the frame is still counted
when both processes have a copy of their own. -/
theorem counted_run_shared_page :
    let text : Segment := ⟨0x400000, 0x10, [1, 2, 3], by decide, by decide, by decide⟩
    let data : Segment := ⟨0x400800, 0x10, [4, 5], by decide, by decide, by decide⟩
    let ops : List MemOp := [.load [text, data] [7] 2, .fork 0 2]
    ¬ Along MemOp.step Counted (blank 24) ops ∧
      (exec MemOp.step (ops ++ [.write 0 0x400001 8, .write 1 0x400001 9]) (blank 24)).map (fun m =>
        (m.pmap.counts 0x3000, m.frameAt 0 0x400000, m.frameAt 1 0x400000)) = some (1, 0x14000, 0x15000) :=
  ⟨not_counted_of_exec (i := 0) (p := 0x400) (blank_booted (by decide)) (by decide +kernel), by decide +kernel⟩

end Mach

end Os506
