import Os506.Memory.Progress
import Os506.Lib.Run

namespace Os506

open Pging CopyOnWrite Run

namespace PMap

def region (n : ℕ) : PMap where
  desc i := ⟨BitVec.ofNat 64 ((i + 1) * 4096), 0, if i + 1 < n then some (i + 1) else none⟩
  entryCount := n
  head := if 0 < n then some 0 else none

theorem region_chain {n k : ℕ} (h : k < n) : Linked.Chain (region n).next (some k) (List.range' k (n - k)) := by
  obtain ⟨d, hd⟩ : ∃ d, n - k = d + 1 := ⟨n - k - 1, by omega⟩
  induction d generalizing k with
  | zero =>
    rw [hd]
    refine ⟨rfl, ?_⟩
    simp only [next, region, List.range'_zero, Linked.Seg]
    rw [if_neg (by omega)]
  | succ d ih =>
    rw [hd]
    refine ⟨rfl, ?_⟩
    have hnext : (region n).next k = some (k + 1) := by
      simp only [next, region]
      rw [if_pos (by omega)]
    have htail := ih (k := k + 1) (by omega) (by omega)
    rw [hnext]
    rwa [show n - (k + 1) = d + 1 by omega] at htail

theorem physical_ofNat {i : ℕ} (h : i * 4096 < 2 ^ 52) : Physical (BitVec.ofNat 64 (i * 4096)) := by
  apply BitVec.eq_of_getLsbD_eq
  intro k hk
  rw [BitVec.getLsbD_and, BitVec.getLsbD_zero, BitVec.getLsbD_ofNat]
  by_cases hlow : k < 12
  · have hbit : (i * 2 ^ 12).testBit k = false := by rw [Nat.testBit_mul_two_pow]; simp [hlow]
    simp only [show (i * 4096).testBit k = false from hbit, Bool.and_false, Bool.false_and]
  · by_cases hhigh : k < 52
    · have hmask : ∀ k < 64, ¬ k < 12 → k < 52 → (0xFFF0000000000FFF#64).getLsbD k = false := by decide
      rw [hmask k hk hlow hhigh, Bool.and_false]
    · have hbit : (i * 4096).testBit k = false :=
        Nat.testBit_lt_two_pow (h.trans_le (Nat.pow_le_pow_right (by decide) (by omega)))
      rw [hbit, Bool.and_false, Bool.false_and]

theorem region_free (n : ℕ) : Free (region n) (List.range' 0 n) := by
  refine ⟨?_, fun i => by simp [region]⟩
  rcases Nat.eq_zero_or_pos n with rfl | hpos
  · rfl
  · have hh : (region n).head = some 0 := if_pos hpos
    rw [hh]
    exact region_chain hpos

theorem region_ok {n : ℕ} (hn : n < 2 ^ 39) : (region n).Ok := by
  refine ⟨fun i hi j hj he => ?_, ?_, _, region_free n⟩
  · simp only [region] at hi hj he
    have := congrArg BitVec.toNat he
    simp only [BitVec.toNat_ofNat] at this
    omega
  · rintro f ⟨i, hi, rfl⟩
    exact physical_ofNat (by simp only [region] at hi; omega)

theorem region_room (n : ℕ) : (region n).Room n := ⟨_, region_free n, by rw [List.length_range']⟩

end PMap

/-- What the processes should have: a memory of its own for each. -/
structure Ideal where
  count : ℕ
  byte : ℕ → ℕ → UInt8

namespace MemOp

def completes : MemOp → Mach → Bool
  | write i va _, m => m.writable i va
  | _, _ => true

def ideal (done : Bool) : MemOp → Ideal → Ideal
  | load segments args _, t => ⟨t.count + 1, Function.update t.byte t.count (Mach.loadImage segments args)⟩
  | fork i _, t => ⟨t.count + 1, Function.update t.byte t.count (t.byte i)⟩
  | write i va b, t => if done then { t with byte := Function.update t.byte i (Function.update (t.byte i) va b) } else t
  | brk .., t | read .., t => t

end MemOp

structure Twin where
  mach : Mach
  ideal : Ideal

namespace Mach

structure Booted (m : Mach) : Prop where
  ok : m.pmap.Ok
  tables : ∀ i, m.tables i = {}
  count : m.count = 0
  vmas : m.vmas ≤ vmaLimit

theorem Booted.inv {m : Mach} (h : m.Booted) : Inv m := by
  have hmap : ∀ i p, m.cow.map i p = none := fun i p => by
    change leaf ((m.tables i).pte p) = none
    rw [h.tables i]
    exact (by decide : leaf 0 = none)
  have hnone : ∀ f, ¬ m.cow.Mapped f := fun f ⟨i, p, b, he⟩ => by rw [hmap] at he; cases he
  refine ⟨⟨h.ok, fun i => ?_, fun i p => .inl (by rw [h.tables]), ⟨?_, ?_⟩, ?_, fun f hf => absurd hf (hnone f), ?_,
    fun _ => Nat.zero_le _, h.vmas⟩, fun k _ p => seen_eq_none.mpr (hmap k p), fun k hk => ?_⟩
  · rw [h.tables]
    exact ⟨fun _ _ => .inl rfl, fun _ _ => rfl, fun _ _ => rfl, fun _ _ => rfl⟩
  · intro i j p q f b b' he
    exact absurd ⟨i, p, b, he⟩ (hnone f)
  · intro i j p f b he
    exact absurd ⟨i, p, true, he⟩ (hnone f)
  · simp [Space.Bounded, hmap]
  · intro i p f b he
    exact absurd ⟨i, p, b, he⟩ (hnone f)
  · rw [h.count] at hk
    exact absurd hk (Nat.not_lt_zero k)

def blank (n : ℕ) : Mach := ⟨PMap.region n, fun _ _ => 0, fun _ => {}, 0, 0⟩

theorem blank_booted {n : ℕ} (hn : n < 2 ^ 39) : (blank n).Booted := ⟨PMap.region_ok hn, fun _ => rfl, rfl, Nat.zero_le _⟩

theorem step_view {m m' : Mach} {op : MemOp} (h : Inv m) (hm : op.step m = some m') :
    Inv m' ∧ op.ideal (op.completes m) ⟨m.count, m.view⟩ = ⟨m'.count, m'.view⟩ := by
  cases op with
  | load segments args frames =>
    obtain ⟨hinv, hcount, _, hview⟩ := loadElf_spec h hm
    exact ⟨hinv, by rw [MemOp.ideal, hcount, hview]⟩
  | fork i frames =>
    rw [MemOp.step] at hm
    split at hm
    · rename_i hi
      obtain ⟨hinv, hcount, hseen, _⟩ := forkProcess_spec h hi hm
      refine ⟨hinv, ?_⟩
      rw [MemOp.ideal, hcount]
      congr 1
      funext k x
      by_cases hk : k = m.count
      · rw [hk, Function.update_self]
        simp only [view, hseen, if_pos]
      · rw [Function.update_of_ne hk]
        simp only [view, hseen, if_neg hk]
    · cases hm
  | brk i addr =>
    rw [MemOp.step] at hm
    split at hm
    · obtain rfl := Option.some.inj hm
      obtain ⟨hinv, hcount, hcow, _⟩ := sysBrk_spec h i addr
      have hseen : (m.sysBrk i addr).seen = m.seen := by rw [seen, hcow]
      exact ⟨hinv, by rw [MemOp.ideal, hcount, view_congr hseen]⟩
    · cases hm
  | read i va =>
    rw [MemOp.step] at hm
    split at hm
    · rename_i hi
      split at hm
      · obtain rfl := Option.some.inj hm
        exact ⟨h, rfl⟩
      · obtain ⟨hinv, ha, _, hview⟩ := handlePgFault_spec h hi hm
        exact ⟨hinv, by rw [MemOp.ideal, ha.count, hview]⟩
    · cases hm
  | write i va b =>
    rw [MemOp.step] at hm
    split at hm
    · rename_i hi
      split at hm
      · rename_i hw
        obtain rfl := Option.some.inj hm
        obtain ⟨hinv, ha, _, _, hview⟩ := store_spec (c := b) h hw
        exact ⟨hinv, by rw [MemOp.completes, hw, MemOp.ideal, if_pos rfl, ha.count, hview]⟩
      · rename_i hw
        obtain ⟨hinv, ha, _, hview⟩ := handlePgFault_spec h hi hm
        exact ⟨hinv, by rw [MemOp.completes, MemOp.ideal, if_neg hw, ha.count, hview]⟩
    · cases hm

end Mach

namespace Twin

def step (op : MemOp) (x : Twin) : Option Twin :=
  (op.step x.mach).map fun m => ⟨m, op.ideal (op.completes x.mach) x.ideal⟩

/-- A read returns what the process should have; an access inside a VMA needs at most one fault. -/
structure Agrees (x : Twin) : Prop where
  count : x.mach.count = x.ideal.count
  reads : ∀ i < x.mach.count, ∀ va, x.mach.readable i va = true → x.mach.fetch i va = x.ideal.byte i va
  answers : ∀ i < x.mach.count, ∀ va v, x.mach.Served i va v → x.mach.readable i va = true ∨
    ∃ m, (MemOp.read i va).step x.mach = some m ∧ m.readable i va = true
  accepts : ∀ i < x.mach.count, ∀ va v b, x.mach.Served i va v → x.mach.writable i va = true ∨
    ∃ m, (MemOp.write i va b).step x.mach = some m ∧ m.writable i va = true

structure Same (x : Twin) : Prop where
  inv : x.mach.Inv
  ideal : x.ideal = ⟨x.mach.count, x.mach.view⟩

theorem Same.step {x y : Twin} {op : MemOp} (h : x.Same) (hy : Twin.step op x = some y) : y.Same := by
  obtain ⟨m, hm, rfl⟩ := Option.map_eq_some_iff.mp hy
  obtain ⟨hinv, hideal⟩ := Mach.step_view h.inv hm
  exact ⟨hinv, by rw [h.ideal, hideal]⟩

theorem Same.answers {x : Twin} {i va : ℕ} {v : Vma} (h : x.Same) (hi : i < x.mach.count) (hs : x.mach.Served i va v) :
    x.mach.readable i va = true ∨ ∃ m, (MemOp.read i va).step x.mach = some m ∧ m.readable i va = true := by
  by_cases hr : x.mach.readable i va = true
  · exact .inl hr
  · right
    have hz : x.mach.seen i (va / 4096) = none := not_not.mp (mt h.inv.sound.readable_iff.mpr hr)
    obtain ⟨m, hm, hinv, hw⟩ := hs.demand h.inv hi hz
    refine ⟨m, by rw [MemOp.step, if_pos hi, if_neg hr, hm], hinv.sound.readable_iff.mpr ?_⟩
    obtain ⟨f, hf⟩ := hinv.sound.writable_iff.mp hw
    rw [ne_eq, Mach.seen_eq_none, hf]
    simp

theorem Same.accepts {x : Twin} {i va : ℕ} {v : Vma} (h : x.Same) (hi : i < x.mach.count) (hs : x.mach.Served i va v)
    (b : UInt8) :
    x.mach.writable i va = true ∨ ∃ m, (MemOp.write i va b).step x.mach = some m ∧ m.writable i va = true := by
  by_cases hw : x.mach.writable i va = true
  · exact .inl hw
  · right
    have hstep : (MemOp.write i va b).step x.mach = x.mach.handlePgFault i va (x.mach.faultCode i va) := by
      rw [MemOp.step, if_pos hi, if_neg hw]
    rw [hstep]
    by_cases hz : x.mach.seen i (va / 4096) = none
    · obtain ⟨m, hm, _, hw'⟩ := hs.demand h.inv hi hz
      exact ⟨m, hm, hw'⟩
    · exact hs.unshare h.inv hi hz hw

theorem Same.agrees {x : Twin} (h : x.Same) : x.Agrees where
  count := by rw [h.ideal]
  reads i _ va hr := by
    rw [h.ideal]
    exact h.inv.sound.fetch_eq hr
  answers i hi va v hs := h.answers hi hs
  accepts i hi va v b hs := h.accepts hi hs b

theorem Same.start {m : Mach} (h : m.Booted) : Same ⟨m, ⟨0, fun _ _ => 0⟩⟩ := by
  refine ⟨h.inv, ?_⟩
  have hview : m.view = fun _ _ => 0 := by
    funext k va
    rw [Mach.view, h.inv.blank k (by rw [h.count]; exact Nat.zero_le k)]
    rfl
  rw [h.count, hview]

/-- Whatever the processes do, each of them reads what it would read with a memory of its own. -/
theorem agrees_run {m : Mach} (h : m.Booted) (ops : List MemOp) :
    Along Twin.step Agrees ⟨m, ⟨0, fun _ _ => 0⟩⟩ ops :=
  along_mono (fun _ hx => Same.agrees hx) (along_of_inv (fun _ _ _ hx hy => Same.step hx hy) (Same.start h) ops)

theorem agrees_run_two_segments :
    let text : Segment := ⟨0x400000, 0x10, [1, 2, 3], by decide, by decide, by decide⟩
    let data : Segment := ⟨0x400800, 0x10, [4, 5], by decide, by decide, by decide⟩
    let ops : List MemOp := [.load [text, data] [7] 2, .fork 0 2, .write 1 0x400001 9, .write 1 0x400001 9,
      .write 0 0x400002 8, .write 0 0x400002 8, .read 1 0x400801]
    Along Twin.step Agrees ⟨Mach.blank 24, ⟨0, fun _ _ => 0⟩⟩ ops ∧
      (exec Twin.step ops ⟨Mach.blank 24, ⟨0, fun _ _ => 0⟩⟩).map (fun x =>
        [0x400001, 0x400002, 0x400801].map fun va => (x.mach.fetch 0 va, x.mach.fetch 1 va)) =
        some [(2, 9), (8, 3), (5, 5)] :=
  ⟨agrees_run (Mach.blank_booted (by decide)) _, by decide +kernel⟩

end Twin

end Os506
