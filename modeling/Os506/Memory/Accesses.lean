import Os506.Memory.Faults

namespace Os506

open Pging CopyOnWrite

namespace Mach

variable {m m' : Mach} {slack : ℕ → ℕ} {i j p va : ℕ} {f : BitVec 64} {b : Bool} {front : List Vma}

theorem and_grant {e need : BitVec 64} (h : e &&& rwUser = rwUser) (hn : rwUser &&& need = need) : e &&& need = need := by
  rw [← hn, ← BitVec.and_assoc, h]

theorem Sound.allowed_iff {need : BitVec 64} (h : Sound slack m) (hn : rwUser &&& need = need)
    (hz : need ≠ 0) : m.allowed need i va = true ↔ (m.tables i).pte (va / 4096) &&& need = need := by
  simp only [allowed, Bool.and_eq_true, decide_eq_true_eq]
  refine ⟨fun hx => hx.2, fun hx => ⟨?_, hx⟩⟩
  have hpte : (m.tables i).pte (va / 4096) ≠ 0 := by
    intro h0
    rw [h0] at hx
    exact hz (hx.symm.trans BitVec.zero_and)
  have hu : (m.tables i).upper .pde (va / 4096 / 512) ≠ 0 := fun h0 => hpte ((h.rooted i).pte _ h0)
  have hall : ∀ l : Level, (m.tables i).upper l (l.index (va / 4096)) &&& need = need := fun l =>
    and_grant (((h.rooted i).form l _).resolve_left ((h.rooted i).upper_ne hu l)) hn
  exact ⟨⟨hall .pmle, hall .pdpe⟩, hall .pde⟩

theorem Sound.leaf_cases {need : BitVec 64} (h : Sound slack m) (hlow : 0xFFF0000000000FFF#64 &&& need = need) :
    m.cow.map i p = none ∧ (m.tables i).pte p = 0 ∨ ∃ f b, m.cow.map i p = some (f, b) ∧
      (m.tables i).pte p &&& need = (if b then rwUser else cowUser) &&& need := by
  rcases h.entry i p with hz | ⟨f, b, hf, he⟩
  · exact .inl ⟨h.map_eq_none.mpr hz, hz⟩
  · have hphys := h.ok.physical f hf
    refine .inr ⟨f, b, by simp only [cow, he, leaf_entryOf hphys], ?_⟩
    rw [he, entryOf, or_and_low hphys hlow]

theorem Sound.writable_iff (h : Sound slack m) :
    m.writable i va = true ↔ ∃ f, m.cow.map i (va / 4096) = some (f, true) := by
  rw [writable, h.allowed_iff (by decide) (by decide)]
  rcases h.leaf_cases (i := i) (p := va / 4096) (show _ &&& rwUser = rwUser by decide) with ⟨hm, hz⟩ | ⟨f, b, hm, hz⟩
  · rw [hz, hm]
    exact iff_of_false (by decide) (by simp)
  · rw [hz, hm]
    cases b
    · exact iff_of_false (by decide) (by simp)
    · exact iff_of_true (by decide) ⟨f, rfl⟩

theorem Sound.readable_iff (h : Sound slack m) : m.readable i va = true ↔ m.seen i (va / 4096) ≠ none := by
  rw [readable, h.allowed_iff (by decide) (by decide), ne_eq, seen_eq_none]
  rcases h.leaf_cases (i := i) (p := va / 4096) (show _ &&& (pageP ||| pageU) = _ by decide) with
    ⟨hm, hz⟩ | ⟨f, b, hm, hz⟩
  · rw [hz, hm]
    exact iff_of_false (by decide) (by simp)
  · rw [hz, hm]
    cases b
    · exact iff_of_true (by decide) (by simp)
    · exact iff_of_true (by decide) (by simp)

theorem Sound.frameAt_eq (h : Sound slack m) (hm : m.cow.map i (va / 4096) = some (f, b)) : m.frameAt i va = f := by
  obtain ⟨hf, he⟩ := h.map_eq_some hm
  rw [frameAt, he, frame_entryOf (h.ok.physical f hf)]

theorem Sound.fetch_eq (h : Sound slack m) (hr : m.readable i va = true) : m.fetch i va = m.view i va := by
  obtain ⟨⟨f, b⟩, hmap⟩ := Option.ne_none_iff_exists'.mp (mt seen_eq_none.mpr (h.readable_iff.mp hr))
  rw [fetch, h.frameAt_eq hmap, view, seen_of_map hmap]
  rfl

theorem store_spec {c : UInt8} (h : Inv m) (hw : m.writable i va = true) :
    Inv (m.store i va c) ∧ Alike m (m.store i va c) ∧ Settled m (m.store i va c) ∧
      (m.store i va c).cow.map = m.cow.map ∧
      (m.store i va c).view = Function.update m.view i (Function.update (m.view i) va c) := by
  obtain ⟨f, hmap⟩ := h.sound.writable_iff.mp hw
  have hframe := h.sound.frameAt_eq hmap
  have hseen : (m.store i va c).seen =
      m.sees i (va / 4096) (some (Function.update (m.mem f) (va % 4096) c)) := by
    rw [store, hframe]
    exact Space.seen_store_owner h.sound.priv hmap
  obtain ⟨h₁, h₂, h₃, h₄, h₅, h₆, h₇, h₈, h₉⟩ := h.sound
  have hs : Sound (fun _ => 0) (m.store i va c) := ⟨h₁, h₂, h₃, ⟨h₄.page, h₄.owner⟩, h₅, h₆, h₇, h₈, h₉⟩
  have ha : Alike m (m.store i va c) := ⟨fun _ => rfl, fun _ => rfl, rfl, rfl⟩
  have hpresent : ∀ k q, (m.store i va c).seen k q = none ↔ m.seen k q = none := fun k q => by
    rw [seen_eq_none, seen_eq_none]; rfl
  refine ⟨h.same hs ha hpresent, ha, fun e he => .inl ⟨he, rfl⟩, rfl, ?_⟩
  funext k x
  by_cases hk : k = i
  · subst hk
    rw [view, hseen, Function.update_self]
    by_cases hp : x / 4096 = va / 4096
    · have hold : m.view k x = m.mem f (x % 4096) := by rw [view, hp, seen_of_map hmap]; rfl
      rw [sees, Function.update_self, hp, Function.update_self, Option.getD_some]
      by_cases hx : x = va
      · subst hx; rw [Function.update_self, Function.update_self]
      · have hmod : x % 4096 ≠ va % 4096 := fun he => hx (by omega)
        rw [Function.update_of_ne hmod, Function.update_of_ne hx, hold]
    · have hx : x ≠ va := fun he => hp (by rw [he])
      rw [sees, Function.update_self, Function.update_of_ne hp, Function.update_of_ne hx, view]
  · rw [view, hseen, sees_of_ne hk, Function.update_of_ne hk, view]

def poke : ℕ → List UInt8 → (ℕ → UInt8) → ℕ → UInt8
  | _, [], t => t
  | va, c :: l, t => poke (va + 1) l (Function.update t va c)

theorem storeBytes_spec {l : List UInt8} (h : Inv m) (hm : m.storeBytes i va l = some m') :
    Inv m' ∧ Alike m m' ∧ Settled m m' ∧ m'.view = Function.update m.view i (poke va l (m.view i)) := by
  induction l generalizing m va with
  | nil =>
    obtain rfl := Option.some.inj hm
    exact ⟨h, .refl m, .refl m, by rw [poke, Function.update_eq_self]⟩
  | cons c l ih =>
    rw [storeBytes] at hm
    split at hm
    · rename_i hw
      obtain ⟨hinv, ha, hset, _, hview⟩ := store_spec (c := c) h hw
      obtain ⟨hinv', ha', hset', hview'⟩ := ih hinv hm
      refine ⟨hinv', ha.trans ha', hset.trans hset', ?_⟩
      rw [hview', hview, Function.update_self, Function.update_idem, poke]
    · cases hm

end Mach

end Os506
