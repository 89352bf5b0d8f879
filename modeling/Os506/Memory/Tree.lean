import Os506.Memory.Paging

namespace Os506

namespace Mmu

open Pging

def shift (d : ℕ) : ℕ := 39 - 9 * d

theorem shift_zero : shift 0 = 39 := rfl

theorem shift_one : shift 1 = 30 := rfl

theorem shift_two : shift 2 = 21 := rfl

theorem shift_three : shift 3 = 12 := rfl

section Depth

variable (mem : BitVec 64 → BitVec 64) (cr3 v : BitVec 64)

/-- The frame at depth `d` on the path of `v`: the PML4 at 0, the page table at 3, the page itself at 4. -/
def table : ℕ → Option (BitVec 64)
  | 0 => some cr3
  | d + 1 => (table d).bind fun t =>
    if present (mem (slot t (shift d) v)) then some (frame (mem (slot t (shift d) v))) else none

end Depth

def Same (n : ℕ) (v w : BitVec 64) : Prop := ∀ k < n, index (shift k) v = index (shift k) w

/-- Outside the slot through which the tables themselves are reached. -/
def Plain (v : BitVec 64) : Prop := index 39 v ≠ 510

instance (n : ℕ) (v w : BitVec 64) : Decidable (Same n v w) := inferInstanceAs (Decidable (∀ k < n, _))

instance (v : BitVec 64) : Decidable (Plain v) := inferInstanceAs (Decidable (_ ≠ _))

/-- A page table with the self entry, in which every frame of a table is used in one place. -/
structure Tree (mem : BitVec 64 → BitVec 64) (cr3 : BitVec 64) : Prop where
  self : Table (mem (cr3 + 8 * 510)) ∧ frame (mem (cr3 + 8 * 510)) = cr3
  small : ∀ v d t, d < 3 → Plain v → table mem cr3 v d = some t → present (mem (slot t (shift d) v)) = true →
    large (mem (slot t (shift d) v)) = false
  apart : ∀ v w d d' f, d ≤ 3 → d' ≤ 3 → Plain v → Plain w → table mem cr3 v d = some f → table mem cr3 w d' = some f →
    d = d' ∧ Same d v w

def Data (mem : BitVec 64 → BitVec 64) (cr3 f : BitVec 64) : Prop := ∀ v d, d ≤ 3 → Plain v → table mem cr3 v d ≠ some f

variable {mem mem' : BitVec 64 → BitVec 64} {cr3 v w f t t' a e : BitVec 64} {d d' n : ℕ}

theorem Same.symm (h : Same n v w) : Same n w v := fun k hk => (h k hk).symm

theorem Same.mono (h : Same n v w) (hd : d ≤ n) : Same d v w := fun k hk => h k (hk.trans_le hd)

theorem Same.plain (h : Same n v w) (hn : 0 < n) (hv : Plain v) : Plain w := fun hw => hv ((h 0 hn).trans hw)

theorem Same.slot_eq (h : Same n v w) (hd : d < n) (t : BitVec 64) : slot t (shift d) v = slot t (shift d) w := by
  rw [slot, slot, h d hd]

theorem same_succ : Same (n + 1) v w ↔ Same n v w ∧ index (shift n) v = index (shift n) w := by
  constructor
  · exact fun h => ⟨h.mono (Nat.le_succ n), h n (Nat.lt_succ_self n)⟩
  · rintro ⟨h, hn⟩ k hk
    rcases Nat.lt_or_eq_of_le (Nat.le_of_lt_succ hk) with hlt | rfl
    · exact h k hlt
    · exact hn

theorem table_same (h : Same d v w) : table mem cr3 v d = table mem cr3 w d := by
  induction d with
  | zero => rfl
  | succ d ih =>
    rw [table, table, ih (h.mono (Nat.le_succ d))]
    congr
    funext t
    rw [h.slot_eq (Nat.lt_succ_self d)]

theorem table_succ (h : table mem cr3 v d = some t) :
    table mem cr3 v (d + 1) = if present (mem (slot t (shift d) v)) then some (frame (mem (slot t (shift d) v))) else none := by
  rw [table, h, Option.bind_some]

theorem table_none (h : table mem cr3 v d = none) (hd : d ≤ n) : table mem cr3 v n = none := by
  induction n with
  | zero => rwa [Nat.le_zero.mp hd] at h
  | succ n ih =>
    rcases Nat.lt_or_eq_of_le hd with hlt | rfl
    · rw [table, ih (Nat.le_of_lt_succ hlt), Option.bind_none]
    · exact h

theorem table_some (h : table mem cr3 v n = some f) (hd : d ≤ n) : ∃ t, table mem cr3 v d = some t := by
  cases ht : table mem cr3 v d with
  | some t => exact ⟨t, rfl⟩
  | none =>
    rw [table_none ht hd] at h
    cases h

theorem table_congr (h : ∀ k < d, ∀ t, table mem cr3 v k = some t → mem' (slot t (shift k) v) = mem (slot t (shift k) v)) :
    table mem' cr3 v d = table mem cr3 v d := by
  induction d with
  | zero => rfl
  | succ d ih =>
    have hd := ih fun k hk => h k (Nat.lt_succ_of_lt hk)
    cases ht : table mem cr3 v d with
    | none => rw [table_none ht (Nat.le_succ d), table_none (hd.trans ht) (Nat.le_succ d)]
    | some t => rw [table_succ ht, table_succ (hd.trans ht), h d (Nat.lt_succ_self d) t ht]

open PMap (Physical)

theorem physical_frame (e : BitVec 64) : Physical (frame e) := by
  have hmask : (0x000FFFFFFFFFF000#64 &&& 0xFFF0000000000FFF#64) = 0#64 := by decide
  rw [Physical, frame, BitVec.and_assoc]
  change e &&& (0x000FFFFFFFFFF000#64 &&& 0xFFF0000000000FFF#64) = 0#64
  rw [hmask, BitVec.and_zero]

theorem frame_of_physical (h : Physical f) : frame f = f := and_high h (by decide)

theorem physical_toNat (h : Physical f) : f.toNat % 4096 = 0 ∧ f.toNat < 2 ^ 52 := by
  constructor
  · have hlow : f &&& 0xFFF#64 = 0#64 := by
      have hmask : (0xFFF0000000000FFF#64 &&& 0xFFF#64) = 0xFFF#64 := by decide
      rw [← hmask, ← BitVec.and_assoc, h, BitVec.zero_and]
    have hmod : (f &&& 0xFFF#64).toNat = f.toNat % 2 ^ 12 := Nat.and_two_pow_sub_one_eq_mod _ 12
    rw [hlow] at hmod
    exact hmod.symm
  · have hle : f.toNat ≤ 0x000FFFFFFFFFF000 := by
      conv_lhs => rw [← frame_of_physical h, frame, BitVec.toNat_and]
      exact Nat.and_le_right
    omega

theorem physical_of_toNat (h : f.toNat % 4096 = 0) (hlt : f.toNat < 2 ^ 52) : Physical f := by
  have hmask : ∀ i < 64, (0xFFF0000000000FFF#64).getLsbD i = decide (i < 12 ∨ 52 ≤ i) := by decide
  apply BitVec.eq_of_getLsbD_eq
  intro i hi
  rw [BitVec.getLsbD_and, hmask i hi, BitVec.getLsbD_zero, ← BitVec.testBit_toNat]
  by_cases h12 : i < 12
  · have hlow : (f.toNat % 2 ^ 12).testBit i = f.toNat.testBit i := by
      rw [Nat.testBit_mod_two_pow, decide_eq_true h12, Bool.true_and]
    rw [← hlow, show f.toNat % 2 ^ 12 = 0 from h, Nat.zero_testBit, Bool.false_and]
  · by_cases h52 : 52 ≤ i
    · have hle := Nat.pow_le_pow_right (show 0 < 2 by decide) h52
      rw [Nat.testBit_eq_false_of_lt (hlt.trans_le hle), Bool.false_and]
    · rw [decide_eq_false (by omega), Bool.and_false]

theorem table_physical (h : Tree mem cr3) (ht : table mem cr3 v d = some t) : Physical t := by
  cases d with
  | zero =>
    obtain rfl := Option.some.inj ht
    rw [← h.self.2]
    exact physical_frame _
  | succ d =>
    obtain ⟨t', ht'⟩ := table_some ht (Nat.le_succ d)
    rw [table_succ ht'] at ht
    split at ht
    · obtain rfl := Option.some.inj ht
      exact physical_frame _
    · cases ht

theorem slot_toNat (h : Physical t) (n : ℕ) (v : BitVec 64) : (slot t n v).toNat = t.toNat + 8 * (index n v).toNat := by
  have ht := physical_toNat h
  have hi := index_lt n v
  rw [slot, BitVec.toNat_add, BitVec.toNat_mul]
  change (_ + 8 * _ % _) % _ = _
  omega

theorem slot_inj {n n' : ℕ} (h : Physical t) (h' : Physical t') (he : slot t n v = slot t' n' w) :
    t = t' ∧ index n v = index n' w := by
  have ht := physical_toNat h
  have ht' := physical_toNat h'
  have hi := index_lt n v
  have hi' := index_lt n' w
  have := congrArg BitVec.toNat he
  rw [slot_toNat h, slot_toNat h'] at this
  exact ⟨BitVec.eq_of_toNat_eq (by omega), BitVec.eq_of_toNat_eq (by omega)⟩

theorem index_small {i : BitVec 64} (hi : i.toNat < 512) : index 0 i = i := by
  apply BitVec.eq_of_toNat_eq
  rw [index_toNat]
  omega

theorem slot_word {i : BitVec 64} (hi : i.toNat < 512) (g : BitVec 64) : slot g 0 i = g + 8 * i := by
  rw [slot, index_small hi]

theorem Tree.slot_inj (h : Tree mem cr3) (hd : d ≤ 3) (hd' : d' ≤ 3) (hv : Plain v) (hw : Plain w)
    (ht : table mem cr3 v d = some t) (ht' : table mem cr3 w d' = some t')
    (he : slot t (shift d) v = slot t' (shift d') w) : d = d' ∧ Same (d + 1) v w := by
  obtain ⟨rfl, hi⟩ := Mmu.slot_inj (table_physical h ht) (table_physical h ht') he
  obtain ⟨rfl, hs⟩ := h.apart v w d d' t hd hd' hv hw ht ht'
  exact ⟨rfl, same_succ.mpr ⟨hs, hi⟩⟩

theorem Tree.slot_ne_self (h : Tree mem cr3) (hd : d ≤ 3) (hv : Plain v) (ht : table mem cr3 v d = some t) :
    cr3 + 8 * 510 ≠ slot t (shift d) v := by
  intro he
  have hself : slot cr3 39 (510 <<< 39) = cr3 + 8 * 510 := rfl
  have hcr3 : Physical cr3 := table_physical (v := v) (d := 0) h rfl
  obtain ⟨rfl, hi⟩ := Mmu.slot_inj hcr3 (table_physical h ht) (hself.trans he)
  obtain ⟨rfl, _⟩ := h.apart v v d 0 cr3 hd (Nat.zero_le _) hv hv ht rfl
  exact hv hi.symm

/-- A write to an entry on the path of `v` changes only the paths that go through that entry. -/
theorem Tree.table_update (h : Tree mem cr3) (hd : d ≤ 3) (hv : Plain v) (ht : table mem cr3 v d = some t) (hw : Plain w)
    (hn : n ≤ 4) (hoff : ¬ Same (d + 1) v w ∨ n ≤ d) (e : BitVec 64) :
    table (Function.update mem (slot t (shift d) v) e) cr3 w n = table mem cr3 w n := by
  apply table_congr
  intro k hk t' ht'
  apply Function.update_of_ne
  intro he
  obtain ⟨rfl, hs⟩ := h.slot_inj (by omega) hd hw hv ht' ht he
  rcases hoff with hoff | hoff
  · exact hoff hs.symm
  · omega

theorem Tree.self_update (h : Tree mem cr3) (hd : d ≤ 3) (hv : Plain v) (ht : table mem cr3 v d = some t) (e : BitVec 64) :
    Function.update mem (slot t (shift d) v) e (cr3 + 8 * 510) = mem (cr3 + 8 * 510) :=
  Function.update_of_ne (h.slot_ne_self hd hv ht) _ _

theorem Tree.update_leaf (h : Tree mem cr3) (hv : Plain v) (ht : table mem cr3 v 3 = some t) (e : BitVec 64) :
    Tree (Function.update mem (slot t (shift 3) v) e) cr3 := by
  have hsame : ∀ w d, d ≤ 3 → Plain w → table (Function.update mem (slot t (shift 3) v) e) cr3 w d = table mem cr3 w d :=
    fun w d hd hw => h.table_update le_rfl hv ht hw (by omega) (.inr hd) e
  constructor
  · rw [h.self_update le_rfl hv ht]
    exact h.self
  · intro w d t' hd hw ht'
    rw [hsame w d (by omega) hw] at ht'
    have hne : slot t' (shift d) w ≠ slot t (shift 3) v := fun he => by
      obtain ⟨rfl, _⟩ := h.slot_inj (by omega) le_rfl hw hv ht' ht he
      omega
    rw [Function.update_of_ne hne]
    exact h.small w d t' hd hw ht'
  · intro u w d d' g hd hd' hu hw ht₁ ht₂
    rw [hsame u d hd hu] at ht₁
    rw [hsame w d' hd' hw] at ht₂
    exact h.apart u w d d' g hd hd' hu hw ht₁ ht₂

theorem Tree.table_leaf (h : Tree mem cr3) (hv : Plain v) (ht : table mem cr3 v 3 = some t) (hs : Same 4 v w) (e : BitVec 64) :
    table (Function.update mem (slot t (shift 3) v) e) cr3 w 4 = if present e then some (frame e) else none := by
  have hw : Plain w := hs.plain (by decide) hv
  have ht' : table (Function.update mem (slot t (shift 3) v) e) cr3 w 3 = some t := by
    rw [h.table_update le_rfl hv ht hw (by decide) (.inr le_rfl), ← ht]
    exact (table_same (hs.mono (by decide))).symm
  rw [table_succ ht', ← hs.slot_eq (by decide), Function.update_self]

theorem slot_page (h : Physical t) (n : ℕ) (v : BitVec 64) :
    (slot t n v).toNat / 4096 = t.toNat / 4096 ∧ (slot t n v).toNat % 8 = 0 := by
  have ht := physical_toNat h
  have hi := index_lt n v
  rw [slot_toNat h]
  omega

theorem physical_inj (h : Physical t) (h' : Physical t') (he : t.toNat / 4096 = t'.toNat / 4096) : t = t' := by
  have ht := physical_toNat h
  have ht' := physical_toNat h'
  exact BitVec.eq_of_toNat_eq (by omega)

theorem plain_zero : Plain 0 := by
  change index 39 0 ≠ 510
  decide

def AgreeOff (f : BitVec 64) (mem mem' : BitVec 64 → BitVec 64) : Prop :=
  ∀ a, a.toNat / 4096 ≠ f.toNat / 4096 → mem' a = mem a

section Off

variable (h : Tree mem cr3) (hf : Physical f) (hdata : Data mem cr3 f) (hoff : AgreeOff f mem mem')

theorem AgreeOff.slot (hf : Physical f) (hoff : AgreeOff f mem mem') (ht : Physical t) (hne : t ≠ f) (n : ℕ)
    (v : BitVec 64) : mem' (slot t n v) = mem (slot t n v) := by
  apply hoff
  rw [(slot_page ht n v).1]
  exact fun he => hne (physical_inj ht hf he)

include h hf hdata hoff

theorem Tree.table_off (hw : Plain w) (hn : n ≤ 4) : table mem' cr3 w n = table mem cr3 w n := by
  apply table_congr
  intro k hk t ht
  apply AgreeOff.slot hf hoff (table_physical h ht)
  rintro rfl
  exact hdata w k (by omega) hw ht

theorem Tree.off : Tree mem' cr3 := by
  have hne : cr3 ≠ f := fun he => hdata 0 0 (by decide) plain_zero (by rw [he]; rfl)
  have hself : mem' (cr3 + 8 * 510) = mem (cr3 + 8 * 510) :=
    AgreeOff.slot hf hoff (table_physical (v := 0) (d := 0) h rfl) hne 39 (510 <<< 39)
  constructor
  · rw [hself]
    exact h.self
  · intro v d t hd hv ht
    rw [h.table_off hf hdata hoff hv (by omega)] at ht
    have hne : t ≠ f := by
      rintro rfl
      exact hdata v d (by omega) hv ht
    rw [AgreeOff.slot hf hoff (table_physical h ht) hne]
    exact h.small v d t hd hv ht
  · intro v w d d' g hd hd' hv hw ht ht'
    rw [h.table_off hf hdata hoff hv (by omega)] at ht
    rw [h.table_off hf hdata hoff hw (by omega)] at ht'
    exact h.apart v w d d' g hd hd' hv hw ht ht'

end Off

section Link

variable (h : Tree mem cr3) (hd : d < 3) (hv : Plain v) (ht : table mem cr3 v d = some t) (hpresent : present e = true)
  (hframe : frame e = f) (hdata : Data mem cr3 f) (hzero : ∀ n w, mem (slot f n w) = 0)

include h hd hv ht hpresent hframe

theorem Tree.table_link (hs : Same (d + 1) v w) :
    table (Function.update mem (slot t (shift d) v) e) cr3 w (d + 1) = some f := by
  have hw : Plain w := hs.plain (Nat.succ_pos d) hv
  have ht' : table (Function.update mem (slot t (shift d) v) e) cr3 w d = some t := by
    rw [h.table_update (by omega) hv ht hw (by omega) (.inr le_rfl), ← ht]
    exact (table_same (hs.mono (Nat.le_succ d))).symm
  rw [table_succ ht', ← hs.slot_eq (Nat.lt_succ_self d), Function.update_self, if_pos hpresent, hframe]

include hdata hzero

omit hpresent in
theorem Tree.link_zero (n : ℕ) (w : BitVec 64) : Function.update mem (slot t (shift d) v) e (slot f n w) = 0 := by
  have hne : f ≠ t := by
    rintro rfl
    exact hdata v d (by omega) hv ht
  rw [Function.update_of_ne fun he => hne (Mmu.slot_inj ?_ (table_physical h ht) he).1, hzero]
  rw [← hframe]
  exact physical_frame e

theorem Tree.table_below (hs : Same (d + 1) v w) (hn : d + 1 < n) :
    table (Function.update mem (slot t (shift d) v) e) cr3 w n = none := by
  have hf := h.table_link hd hv ht hpresent hframe hs
  have hnext : table (Function.update mem (slot t (shift d) v) e) cr3 w (d + 2) = none := by
    rw [table_succ hf, h.link_zero hd hv ht hframe hdata hzero]
    rfl
  exact table_none hnext hn

theorem Tree.table_link_cases {g : BitVec 64} (hw : Plain w) (hn : n ≤ 4)
    (hg : table (Function.update mem (slot t (shift d) v) e) cr3 w n = some g) :
    (Same (d + 1) v w ∧ n = d + 1 ∧ g = f) ∨ (table mem cr3 w n = some g ∧ (Same (d + 1) v w → n ≤ d)) := by
  by_cases hs : Same (d + 1) v w
  · rcases Nat.lt_trichotomy n (d + 1) with hlt | rfl | hgt
    · rw [h.table_update (by omega) hv ht hw hn (.inr (by omega))] at hg
      exact .inr ⟨hg, fun _ => by omega⟩
    · rw [h.table_link hd hv ht hpresent hframe hs] at hg
      exact .inl ⟨hs, rfl, (Option.some.inj hg).symm⟩
    · rw [h.table_below hd hv ht hpresent hframe hdata hzero hs hgt] at hg
      cases hg
  · rw [h.table_update (by omega) hv ht hw hn (.inl hs)] at hg
    exact .inr ⟨hg, fun hs' => absurd hs' hs⟩

theorem Tree.link (hlarge : large e = false) : Tree (Function.update mem (slot t (shift d) v) e) cr3 := by
  constructor
  · rw [h.self_update (by omega) hv ht]
    exact h.self
  · intro w k t' hk hw ht' hp
    rcases h.table_link_cases hd hv ht hpresent hframe hdata hzero hw (by omega) ht' with ⟨hs, rfl, rfl⟩ | ⟨hold, hle⟩
    · rw [h.link_zero hd hv ht hframe hdata hzero] at hp
      cases hp
    · by_cases he : slot t' (shift k) w = slot t (shift d) v
      · rw [he, Function.update_self]
        exact hlarge
      · rw [Function.update_of_ne he] at hp ⊢
        exact h.small w k t' hk hw hold hp
  · intro u w n n' g hn hn' hu hw hg hg'
    rcases h.table_link_cases hd hv ht hpresent hframe hdata hzero hu (by omega) hg with ⟨hs, rfl, rfl⟩ | ⟨hold, _⟩
    · rcases h.table_link_cases hd hv ht hpresent hframe hdata hzero hw (by omega) hg' with ⟨hs', rfl, _⟩ | ⟨hold', _⟩
      · exact ⟨rfl, fun k hk => (hs.symm k hk).trans (hs' k hk)⟩
      · exact absurd hold' (hdata w n' hn' hw)
    · rcases h.table_link_cases hd hv ht hpresent hframe hdata hzero hw (by omega) hg' with ⟨hs', rfl, rfl⟩ | ⟨hold', _⟩
      · exact absurd hold (hdata u n hn hu)
      · exact h.apart u w n n' g hn hn' hu hw hold hold'

end Link

def ref (d : ℕ) (v : BitVec 64) : BitVec 64 :=
  match d with
  | 0 => getPMLT v
  | 1 => getPDPT v
  | 2 => getPDT v
  | _ => getPhys v

theorem Tree.entry (h : Tree mem cr3) (hv : Plain v) (hd : d < 3) (ht : table mem cr3 v d = some t)
    (ht' : table mem cr3 v (d + 1) = some t') : Table (mem (slot t (shift d) v)) ∧ frame (mem (slot t (shift d) v)) = t' := by
  rw [table_succ ht] at ht'
  split at ht'
  next hp => exact ⟨⟨hp, h.small v d t hd hv ht hp⟩, Option.some.inj ht'⟩
  next => cases ht'

theorem Tree.reach_ref (h : Tree mem cr3) (hv : Plain v) (hd : d ≤ 3) (ht : table mem cr3 v d = some t) :
    reach mem cr3 (ref d v) = some (slot t (shift d) v) := by
  obtain ⟨hself, hagain⟩ := h.self
  have hself' : mem (frame (mem (cr3 + 8 * 510)) + 8 * 510) = mem (cr3 + 8 * 510) := by rw [hagain]
  have hfirst : mem (frame (mem (cr3 + 8 * 510)) + 8 * index 39 v) = mem (slot cr3 (shift 0) v) := by
    rw [hagain]
    rfl
  match d, hd, ht with
  | 0, _, ht =>
    obtain rfl := Option.some.inj ht
    rw [ref, reach_path (getPMLT_path v) rfl hself hself' hself hself' hself hself' hself.1 hself.ne_ones, hagain]
    rfl
  | 1, _, ht =>
    obtain ⟨h₀, rfl⟩ := h.entry hv (by decide) rfl ht
    exact reach_path (getPDPT_path v) rfl hself hself' hself hself' hself hfirst h₀.1 h₀.ne_ones
  | 2, _, ht =>
    obtain ⟨t₁, ht₁⟩ := table_some ht (show 1 ≤ 2 by decide)
    obtain ⟨h₀, rfl⟩ := h.entry hv (by decide) rfl ht₁
    obtain ⟨h₁, rfl⟩ := h.entry hv (by decide) ht₁ ht
    exact reach_path (getPDT_path v) rfl hself hself' hself hfirst h₀ rfl h₁.1 h₁.ne_ones
  | 3, _, ht =>
    obtain ⟨t₁, ht₁⟩ := table_some ht (show 1 ≤ 3 by decide)
    obtain ⟨t₂, ht₂⟩ := table_some ht (show 2 ≤ 3 by decide)
    obtain ⟨h₀, rfl⟩ := h.entry hv (by decide) rfl ht₁
    obtain ⟨h₁, rfl⟩ := h.entry hv (by decide) ht₁ ht₂
    obtain ⟨h₂, rfl⟩ := h.entry hv (by decide) ht₂ ht
    exact reach_path (getPhys_path v) rfl hself hfirst h₀ rfl h₁ rfl h₂.1 h₂.ne_ones

theorem absent_of_table (ht : table mem cr3 v d = some t) (hnone : table mem cr3 v (d + 1) = none) :
    present (mem (slot t (shift d) v)) = false := by
  rw [table_succ ht] at hnone
  split at hnone
  · cases hnone
  next hp => exact Bool.eq_false_iff.mpr hp

theorem Tree.walk_eq (h : Tree mem cr3) (hv : Plain v) :
    walk mem cr3 v = if canonical v then (table mem cr3 v 4).map (· + (v &&& 0xFFF)) else none := by
  by_cases hc : canonical v = true
  · rw [if_pos hc, walk, hc]
    dsimp only
    have hroot : table mem cr3 v 0 = some cr3 := rfl
    cases ht₁ : table mem cr3 v 1 with
    | none =>
      have hp := absent_of_table hroot ht₁
      rw [shift_zero] at hp
      simp [hp, table_none ht₁ (show 1 ≤ 4 by decide)]
    | some t₁ =>
      obtain ⟨⟨hp₀, hl₀⟩, hf₀⟩ := h.entry hv (by decide) hroot ht₁
      rw [shift_zero] at hp₀ hl₀ hf₀
      rw [hp₀, hl₀, hf₀]
      cases ht₂ : table mem cr3 v 2 with
      | none =>
        have hp := absent_of_table ht₁ ht₂
        rw [shift_one] at hp
        simp [hp, table_none ht₂ (show 2 ≤ 4 by decide)]
      | some t₂ =>
        obtain ⟨⟨hp₁, hl₁⟩, hf₁⟩ := h.entry hv (by decide) ht₁ ht₂
        rw [shift_one] at hp₁ hl₁ hf₁
        rw [hp₁, hl₁, hf₁]
        cases ht₃ : table mem cr3 v 3 with
        | none =>
          have hp := absent_of_table ht₂ ht₃
          rw [shift_two] at hp
          simp [hp, table_none ht₃ (show 3 ≤ 4 by decide)]
        | some t₃ =>
          obtain ⟨⟨hp₂, hl₂⟩, hf₂⟩ := h.entry hv (by decide) ht₂ ht₃
          rw [shift_two] at hp₂ hl₂ hf₂
          rw [hp₂, hl₂, hf₂, table_succ ht₃, shift_three]
          cases hp₃ : present (mem (slot t₃ 12 v)) <;> simp
  · simp [walk, hc]

theorem page_word {k : ℕ} (ha : v &&& 0xFFF = 0) (hk : k < 512) :
    Same 4 v (v + 8 * BitVec.ofNat 64 k) ∧ canonical (v + 8 * BitVec.ofNat 64 k) = canonical v ∧
      (v + 8 * BitVec.ofNat 64 k) &&& 0xFFF = 8 * BitVec.ofNat 64 k := by
  have hlow : v.toNat % 4096 = 0 := by
    have hmod : (v &&& 0xFFF).toNat = v.toNat % 2 ^ 12 := Nat.and_two_pow_sub_one_eq_mod _ 12
    rw [ha] at hmod
    exact hmod.symm
  have hmul : (8 * BitVec.ofNat 64 k).toNat = 8 * k := by
    rw [BitVec.toNat_mul, BitVec.toNat_ofNat]
    change 8 * _ % _ = _
    omega
  have hv := v.isLt
  have hadd : (v + 8 * BitVec.ofNat 64 k).toNat = v.toNat + 8 * k := by
    rw [BitVec.toNat_add, hmul]
    omega
  refine ⟨fun d hd => ?_, ?_, ?_⟩
  · apply BitVec.eq_of_toNat_eq
    rw [index_toNat, index_toNat, hadd]
    match d, hd with
    | 0, _ => rw [shift_zero]; omega
    | 1, _ => rw [shift_one]; omega
    | 2, _ => rw [shift_two]; omega
    | 3, _ => rw [shift_three]; omega
  · have hshift : (v + 8 * BitVec.ofNat 64 k) >>> 47 = v >>> 47 := by
      apply BitVec.eq_of_toNat_eq
      rw [BitVec.toNat_ushiftRight, BitVec.toNat_ushiftRight, Nat.shiftRight_eq_div_pow, Nat.shiftRight_eq_div_pow, hadd]
      omega
    rw [canonical, canonical, hshift]
  · apply BitVec.eq_of_toNat_eq
    have hmod : ((v + 8 * BitVec.ofNat 64 k) &&& 0xFFF).toNat = (v + 8 * BitVec.ofNat 64 k).toNat % 2 ^ 12 :=
      Nat.and_two_pow_sub_one_eq_mod _ 12
    rw [hmod, hadd, hmul]
    omega

theorem Tree.walk_word {k : ℕ} (h : Tree mem cr3) (hv : Plain v) (hc : canonical v = true) (ha : v &&& 0xFFF = 0)
    (hk : k < 512) (hf : table mem cr3 v 4 = some f) :
    walk mem cr3 (v + 8 * BitVec.ofNat 64 k) = some (f + 8 * BitVec.ofNat 64 k) := by
  obtain ⟨hs, hc', hoff⟩ := page_word ha hk
  rw [h.walk_eq (hs.plain (by decide) hv), hc', if_pos hc, ← table_same hs, hf, hoff]
  rfl

theorem Tree.lastEntry_eq (h : Tree mem cr3) (hv : Plain v) (ht : table mem cr3 v 3 = some t) :
    lastEntry mem cr3 v = mem (slot t (shift 3) v) := by
  obtain ⟨t₁, ht₁⟩ := table_some ht (show 1 ≤ 3 by decide)
  obtain ⟨t₂, ht₂⟩ := table_some ht (show 2 ≤ 3 by decide)
  obtain ⟨_, h₀⟩ := h.entry hv (by decide) rfl ht₁
  obtain ⟨⟨_, hl₁⟩, h₁⟩ := h.entry hv (by decide) ht₁ ht₂
  obtain ⟨⟨_, hl₂⟩, h₂⟩ := h.entry hv (by decide) ht₂ ht
  have hpdpe : mem (pdpeAt mem cr3 v) = mem (slot t₁ (shift 1) v) := by
    rw [← h₀]
    rfl
  have hpde : mem (pdeAt mem cr3 v) = mem (slot t₂ (shift 2) v) := by
    rw [pdeAt, hpdpe, h₁]
    rfl
  rw [lastEntry, hpdpe, hl₁, hpde, hl₂, pteAt, hpde, h₂]
  rfl

theorem Tree.reach_word {k : ℕ} (h : Tree mem cr3) (hv : Plain v) (hc : canonical v = true) (ha : v &&& 0xFFF = 0)
    (hk : k < 512) (ht : table mem cr3 v 3 = some t) (he : Table (mem (slot t (shift 3) v)))
    (hframe : frame (mem (slot t (shift 3) v)) = f) :
    reach mem cr3 (v + 8 * BitVec.ofNat 64 k) = some (f + 8 * BitVec.ofNat 64 k) := by
  have hs := (page_word ha hk).1
  have hf : table mem cr3 v 4 = some f := by rw [table_succ ht, if_pos he.1, hframe]
  rw [reach, h.lastEntry_eq (hs.plain (by decide) hv) ((table_same (hs.mono (by decide))).symm.trans ht),
    ← hs.slot_eq (by decide), if_neg he.ne_ones, h.walk_word hv hc ha hk hf]

theorem Tree.reach_off {k : ℕ} (h : Tree mem cr3) (hf : Physical f) (hdata : Data mem cr3 f) (hoff : AgreeOff f mem mem')
    (hv : Plain v) (hc : canonical v = true) (ha : v &&& 0xFFF = 0) (hk : k < 512) (ht : table mem cr3 v 3 = some t)
    (he : Table (mem (slot t (shift 3) v))) (hframe : frame (mem (slot t (shift 3) v)) = f) :
    reach mem' cr3 (v + 8 * BitVec.ofNat 64 k) = some (f + 8 * BitVec.ofNat 64 k) := by
  have hne : t ≠ f := fun heq => hdata v 3 le_rfl hv (heq ▸ ht)
  have hsame := AgreeOff.slot hf hoff (table_physical h ht) hne (shift 3) v
  rw [← hsame] at he hframe
  exact (h.off hf hdata hoff).reach_word hv hc ha hk ((h.table_off hf hdata hoff hv (by decide)).trans ht) he hframe

theorem Tree.reach_ones (h : Tree mem cr3) (hv : Plain v) (ht : table mem cr3 v 3 = some t)
    (hones : mem (slot t (shift 3) v) = -1) : reach mem cr3 v = none := by
  rw [reach, h.lastEntry_eq hv ht, if_pos hones]

structure Line (mem : BitVec 64 → BitVec 64) (p i : ℕ → BitVec 64) : Prop where
  physical : ∀ d ≤ 3, Physical (p d)
  apart : ∀ d ≤ 3, ∀ d' ≤ 3, p d = p d' → d = d'
  self : Table (mem (p 0 + 8 * 510)) ∧ frame (mem (p 0 + 8 * 510)) = p 0
  link : ∀ d < 3, Table (mem (p d + 8 * i d)) ∧ frame (mem (p d + 8 * i d)) = p (d + 1)
  absent : ∀ d < 3, ∀ j : BitVec 64, j.toNat < 512 → (d = 0 → j ≠ 510) → j ≠ i d → present (mem (p d + 8 * j)) = false

section Line

variable {p i : ℕ → BitVec 64} (h : Line mem p i)
include h

theorem Line.table_eq (hd : d ≤ 3) (hi : ∀ k < d, index (shift k) v = i k) : table mem (p 0) v d = some (p d) := by
  induction d with
  | zero => rfl
  | succ d ih =>
    obtain ⟨hentry, hframe⟩ := h.link d hd
    rw [table_succ (ih (by omega) fun k hk => hi k (by omega)), slot, hi d (Nat.lt_succ_self d), if_pos hentry.1, hframe]

theorem Line.of_table (hv : Plain v) (hd : d ≤ 3) (ht : table mem (p 0) v d = some t) :
    t = p d ∧ ∀ k < d, index (shift k) v = i k := by
  induction d generalizing t with
  | zero => exact ⟨(Option.some.inj ht).symm, fun k hk => absurd hk (Nat.not_lt_zero k)⟩
  | succ d ih =>
    obtain ⟨t', ht'⟩ := table_some ht (Nat.le_succ d)
    obtain ⟨rfl, hi⟩ := ih (by omega) ht'
    have hindex : index (shift d) v = i d := by
      by_contra hne
      have := h.absent d hd _ (index_lt (shift d) v) (by rintro rfl; exact hv) hne
      rw [table_succ ht', slot, this] at ht
      cases ht
    have hall : ∀ k < d + 1, index (shift k) v = i k := by
      intro k hk
      rcases Nat.lt_succ_iff_lt_or_eq.mp hk with hk | rfl
      · exact hi k hk
      · exact hindex
    exact ⟨Option.some.inj (ht.symm.trans (h.table_eq hd hall)), hall⟩

theorem Line.tree : Tree mem (p 0) := by
  refine ⟨h.self, fun v d t hd hv ht hpresent => ?_, fun v w d d' f hd hd' hv hw ht ht' => ?_⟩
  · obtain ⟨rfl, _⟩ := h.of_table hv (by omega) ht
    by_cases hindex : index (shift d) v = i d
    · rw [slot, hindex]
      exact (h.link d hd).1.2
    · rw [slot, h.absent d hd _ (index_lt (shift d) v) (by rintro rfl; exact hv) hindex] at hpresent
      cases hpresent
  · obtain ⟨rfl, hi⟩ := h.of_table hv hd ht
    obtain ⟨heq, hi'⟩ := h.of_table hw hd' ht'
    obtain rfl := h.apart d hd d' hd' heq
    exact ⟨rfl, fun k hk => (hi k hk).trans (hi' k hk).symm⟩

end Line

end Mmu

end Os506
