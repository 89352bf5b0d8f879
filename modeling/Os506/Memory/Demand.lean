import Os506.Memory.Nodes
import Os506.Memory.ElfLoading

namespace Os506

open Pging CopyOnWrite Run

namespace Mach

variable {m m' : Mach} {i va : ℕ} {v : Vma}

def Reachable (m : Mach) : Prop := ∃ m₀ ops, m₀.Booted ∧ exec MemOp.step ops m₀ = some m

theorem Reachable.inv (h : m.Reachable) : Inv m := by
  obtain ⟨m₀, ops, hb, he⟩ := h
  exact exec_of_along (along_of_inv (fun _ _ _ hi hs => (step_view hi hs).1) hb.inv ops) he

def populated (v : Vma) : List ℕ :=
  List.range' (v.start / 4096) (kmmapPages v.start (Int.bmod (v.stop - v.start : ℕ) (2 ^ 32))).toNat

theorem populated_sub (hle : v.start ≤ v.stop) {q : ℕ} (hq : q ∈ populated v) : q ∈ v.pages := by
  have hsum : v.start + (v.stop - v.start) = v.stop := by omega
  rw [populated] at hq
  have hq := kmmapPages_sub hq
  rw [hsum] at hq
  exact Vma.mem_pages.mpr hq

structure Demanded (i va : ℕ) (v : Vma) (m m' : Mach) : Prop where
  mapped : m'.writable i va = true
  zero : m'.seen i (va / 4096) = some fun _ => 0
  kept : ∀ q ∈ v.pages, ∀ x, m.cow.map i q = some x → m'.cow.map i q = some x ∧ m'.mem x.1 = m.mem x.1
  frames : Pays i m m'

theorem Inv.demanded (h : Inv m) (hm : m.mapPages i rwUser (populated v) = some m') (hz : m.seen i (va / 4096) = none)
    (hmem : va / 4096 ∈ populated v) : Demanded i va v m m' := by
  obtain ⟨hadv, _, hopen, hseen⟩ := mapPages_spec h.sound hm
  obtain ⟨_, hpays, hkeeps⟩ := mapPages_pays h.sound hm
  have hzero : m'.seen i (va / 4096) = some fun _ => 0 := by rw [hseen, if_pos ⟨rfl, hmem⟩, hz]; rfl
  refine ⟨?_, hzero, fun q _ x hx => ?_, hpays⟩
  · apply hadv.sound.writable_iff.mpr
    apply (hopen i (va / 4096)).resolve_left
    intro he
    have hnone := seen_eq_none.mpr (he.trans (seen_eq_none.mp hz))
    rw [hzero] at hnone
    cases hnone
  · have hx' := hkeeps i q x hx
    refine ⟨hx', ?_⟩
    have hold := seen_of_map hx
    have hsame : m'.seen i q = m.seen i q := by
      rw [hseen, hold]
      split <;> simp
    exact Option.some.inj ((seen_of_map hx').symm.trans (hsame.trans hold))

def tinySegment : Segment := ⟨0x400000, 1, [], by decide, by decide, by decide⟩

def tinyHeap (addr : ℕ) : List MemOp := [.load [tinySegment] [] 0, .brk 0 addr]

theorem tinyHeap_room {n : ℕ} (hn : n < 2 ^ 38) (addr : ℕ) :
    ∃ m, exec MemOp.step (tinyHeap addr) (blank (8 + n)) = some m ∧ m.Reachable ∧ m.pmap.Room n := by
  have hb : (blank (8 + n)).Booted := blank_booted (by omega)
  have hroom : (blank (8 + n)).pmap.Room (0 + (segmentFrames [tinySegment] + (4 + n))) := by
    have hframes : segmentFrames [tinySegment] = 4 := by decide
    exact (PMap.region_room (8 + n)).mono (by omega)
  obtain ⟨m, hm, hr⟩ : ∃ m, (blank (8 + n)).loadElf [tinySegment] [] 0 = some m ∧ m.pmap.Room n :=
    loadElf_total hb.inv (List.cons_ne_nil _ _) (by change 0 + 3 ≤ _; decide) (by decide) hroom
  obtain ⟨hinv, hcount, _⟩ := loadElf_spec hb.inv hm
  have hexec : exec MemOp.step (tinyHeap addr) (blank (8 + n)) = some (m.sysBrk 0 addr) := by
    have hone : 0 < m.count := by rw [hcount]; exact Nat.succ_pos _
    simp only [tinyHeap, exec, MemOp.step, hm, Option.bind_some, if_pos hone]
  refine ⟨_, hexec, ⟨_, _, hb, hexec⟩, ?_⟩
  rw [(sysBrk_spec hinv 0 addr).2.2.2]
  exact hr

end Mach

end Os506
