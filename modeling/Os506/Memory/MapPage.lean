import Os506.Memory.Physical

namespace Os506

open Pging Mmu

open PMap (Physical)

namespace Mmu

variable {mem mem' : BitVec 64 → BitVec 64} {cr3 v w f t : BitVec 64} {d n : ℕ}

theorem isPresent_eq (e : BitVec 64) : isPresent e = present e := by
  have hbit : e &&& pageP = if e.getLsbD 0 then 1 else 0 := by
    apply BitVec.eq_of_getLsbD_eq
    intro i hi
    rw [pageP, BitVec.getLsbD_and]
    cases i with
    | zero => cases h : e.getLsbD 0 <;> simp
    | succ i =>
      have hone : (1 : BitVec 64).getLsbD (i + 1) = false := by simp
      rw [hone, Bool.and_false]
      split <;> simp
  rw [isPresent, present, hbit]
  cases e.getLsbD 0 <;> decide

def wipe (f : BitVec 64) (mem : BitVec 64 → BitVec 64) (a : BitVec 64) : BitVec 64 :=
  if a.toNat / 4096 = f.toNat / 4096 ∧ a.toNat % 8 = 0 then 0 else mem a

theorem wipe_agree (f : BitVec 64) (mem : BitVec 64 → BitVec 64) : AgreeOff f mem (wipe f mem) :=
  fun _ ha => if_neg fun hp => ha hp.1

theorem wipe_self (hf : Physical f) (n : ℕ) (v : BitVec 64) : wipe f mem (slot f n v) = 0 := if_pos (slot_page hf n v)

theorem word_toNat (hf : Physical f) {k : ℕ} (hk : k < 512) : (f + 8 * BitVec.ofNat 64 k).toNat = f.toNat + 8 * k := by
  have := physical_toNat hf
  rw [BitVec.toNat_add, BitVec.toNat_mul, BitVec.toNat_ofNat]
  change (_ + 8 * _ % _) % _ = _
  omega

theorem word_page (hf : Physical f) {k : ℕ} (hk : k < 512) :
    (f + 8 * BitVec.ofNat 64 k).toNat / 4096 = f.toNat / 4096 ∧ (f + 8 * BitVec.ofNat 64 k).toNat % 8 = 0 := by
  have hpage := physical_toNat hf
  rw [word_toNat hf hk]
  omega

theorem update_agree (hf : Physical f) {k : ℕ} (hk : k < 512) (mem : BitVec 64 → BitVec 64) (e : BitVec 64) :
    AgreeOff f mem (Function.update mem (f + 8 * BitVec.ofNat 64 k) e) := by
  intro a ha
  apply Function.update_of_ne
  rintro rfl
  exact ha (word_page hf hk).1

def grow (f p a e : BitVec 64) (mem : BitVec 64 → BitVec 64) : BitVec 64 → BitVec 64 :=
  Function.update (Function.update (wipe f mem) p 0) a e

theorem off_of_absent {g : BitVec 64} (hnone : table mem cr3 v (d + 1) = none) (hg : table mem cr3 w n = some g) :
    ¬ Same (d + 1) v w ∨ n ≤ d := by
  by_contra hc
  rw [not_or, not_not, Nat.not_le] at hc
  have : table mem cr3 w (d + 1) = none := by rw [← hnone, table_same hc.1]
  rw [table_none this hc.2] at hg
  cases hg

section Grow

variable {u p e g : BitVec 64} (h : Tree mem cr3) (hu : Plain u) (hp : table mem cr3 u 3 = some p) (hf : Physical f)
  (hunused : ∀ w n, n ≤ 4 → Plain w → table mem cr3 w n ≠ some f) (hd : d < 3) (hv : Plain v)
  (ht : table mem cr3 v d = some t) (hnone : table mem cr3 v (d + 1) = none) (hpresent : present e = true)
  (hframe : frame e = f)

include h hu hp hf hunused

theorem cleared (e : BitVec 64) :
    Tree (Function.update (wipe f mem) (slot p (shift 3) u) e) cr3 ∧
    (∀ w n, n ≤ 3 → Plain w → table (Function.update (wipe f mem) (slot p (shift 3) u) e) cr3 w n = table mem cr3 w n) ∧
    (∀ w, Plain w → ¬ Same 4 u w →
      table (Function.update (wipe f mem) (slot p (shift 3) u) e) cr3 w 4 = table mem cr3 w 4) ∧
    ∀ w, Same 4 u w →
      table (Function.update (wipe f mem) (slot p (shift 3) u) e) cr3 w 4 = if present e then some (frame e) else none := by
  have hdata : Data mem cr3 f := fun w n hn hw => hunused w n (by omega) hw
  have hoff := wipe_agree f mem
  have hwiped := h.off hf hdata hoff
  have hp' : table (wipe f mem) cr3 u 3 = some p := by rw [h.table_off hf hdata hoff hu (by decide), hp]
  refine ⟨hwiped.update_leaf hu hp' e, fun w n hn hw => ?_, fun w hw hs => ?_, fun w hs => hwiped.table_leaf hu hp' hs e⟩
  · rw [hwiped.table_update le_rfl hu hp' hw (by omega) (.inr hn), h.table_off hf hdata hoff hw (by omega)]
  · rw [hwiped.table_update le_rfl hu hp' hw le_rfl (.inl hs), h.table_off hf hdata hoff hw le_rfl]

theorem cleared_zero (n : ℕ) (w : BitVec 64) : Function.update (wipe f mem) (slot p (shift 3) u) 0 (slot f n w) = 0 := by
  have hne : f ≠ p := fun he => hunused u 3 (by decide) hu (by rw [hp, he])
  rw [Function.update_of_ne fun he => hne (slot_inj hf (table_physical h hp) he).1, wipe_self hf]

theorem cleared_data : Data (Function.update (wipe f mem) (slot p (shift 3) u) 0) cr3 f := by
  intro w n hn hw
  rw [(cleared h hu hp hf hunused 0).2.1 w n hn hw]
  exact hunused w n (by omega) hw

theorem cleared_unused {k : BitVec 64} (hk : ∀ w n, n ≤ 4 → Plain w → table mem cr3 w n ≠ some k) (hn : n ≤ 4)
    (hw : Plain w) : table (Function.update (wipe f mem) (slot p (shift 3) u) 0) cr3 w n ≠ some k := by
  obtain ⟨-, htables, hpages, hwindow⟩ := cleared h hu hp hf hunused 0
  rcases Nat.lt_or_eq_of_le hn with hlt | rfl
  · rw [htables w n (by omega) hw]
    exact hk w n hn hw
  · by_cases hs : Same 4 u w
    · rw [hwindow w hs, if_neg (by decide)]
      exact fun he => by cases he
    · rw [hpages w hw hs]
      exact hk w 4 le_rfl hw

include hd hv ht

theorem grow_at : table (Function.update (wipe f mem) (slot p (shift 3) u) 0) cr3 v d = some t := by
  rw [(cleared h hu hp hf hunused 0).2.1 v d (by omega) hv, ht]

include hpresent hframe

theorem grow_path : table (grow f (slot p (shift 3) u) (slot t (shift d) v) e mem) cr3 v (d + 1) = some f :=
  (cleared h hu hp hf hunused 0).1.table_link hd hv (grow_at h hu hp hf hunused hd hv ht) hpresent hframe fun _ _ => rfl

theorem grow_cases (hw : Plain w) (hn : n ≤ 4)
    (hg : table (grow f (slot p (shift 3) u) (slot t (shift d) v) e mem) cr3 w n = some g) :
    (Same (d + 1) v w ∧ n = d + 1 ∧ g = f) ∨
      table (Function.update (wipe f mem) (slot p (shift 3) u) 0) cr3 w n = some g := by
  rcases (cleared h hu hp hf hunused 0).1.table_link_cases hd hv (grow_at h hu hp hf hunused hd hv ht) hpresent hframe
    (cleared_data h hu hp hf hunused) (cleared_zero h hu hp hf hunused) hw hn hg with hnew | hold
  · exact .inl hnew
  · exact .inr hold.1

theorem grow_unused {k : BitVec 64} (hk : ∀ w n, n ≤ 4 → Plain w → table mem cr3 w n ≠ some k) (hne : k ≠ f) (hn : n ≤ 4)
    (hw : Plain w) : table (grow f (slot p (shift 3) u) (slot t (shift d) v) e mem) cr3 w n ≠ some k := by
  intro hg
  rcases grow_cases h hu hp hf hunused hd hv ht hpresent hframe hw hn hg with hnew | hold
  · exact hne hnew.2.2
  · exact cleared_unused h hu hp hf hunused hk hn hw hold

theorem grow_window : table (grow f (slot p (shift 3) u) (slot t (shift d) v) e mem) cr3 u 4 = none := by
  cases hg : table (grow f (slot p (shift 3) u) (slot t (shift d) v) e mem) cr3 u 4 with
  | none => rfl
  | some k =>
    rcases grow_cases h hu hp hf hunused hd hv ht hpresent hframe hu le_rfl hg with hnew | hold
    · omega
    · rw [(cleared h hu hp hf hunused 0).2.2.2 u fun _ _ => rfl, if_neg (by decide)] at hold
      cases hold

theorem grow_tree (hlarge : large e = false) : Tree (grow f (slot p (shift 3) u) (slot t (shift d) v) e mem) cr3 :=
  (cleared h hu hp hf hunused 0).1.link hd hv (grow_at h hu hp hf hunused hd hv ht) hpresent hframe
    (cleared_data h hu hp hf hunused) (cleared_zero h hu hp hf hunused) hlarge

theorem grow_below (hn : d + 1 < n) : table (grow f (slot p (shift 3) u) (slot t (shift d) v) e mem) cr3 v n = none :=
  (cleared h hu hp hf hunused 0).1.table_below hd hv (grow_at h hu hp hf hunused hd hv ht) hpresent hframe
    (cleared_data h hu hp hf hunused) (cleared_zero h hu hp hf hunused) (fun _ _ => rfl) hn

omit hpresent in
theorem grow_zero (n : ℕ) (w : BitVec 64) :
    grow f (slot p (shift 3) u) (slot t (shift d) v) e mem (slot f n w) = 0 :=
  (cleared h hu hp hf hunused 0).1.link_zero hd hv (grow_at h hu hp hf hunused hd hv ht) hframe
    (cleared_data h hu hp hf hunused) (cleared_zero h hu hp hf hunused) n w

include hnone

omit hpresent hframe in
theorem grow_kept (hw : Plain w) (hn : n ≤ 3) (hg : table mem cr3 w n = some g) :
    table (grow f (slot p (shift 3) u) (slot t (shift d) v) e mem) cr3 w n = some g := by
  have hoff := off_of_absent hnone hg
  rw [grow, (cleared h hu hp hf hunused 0).1.table_update (by omega) hv (grow_at h hu hp hf hunused hd hv ht) hw (by omega)
    hoff, (cleared h hu hp hf hunused 0).2.1 w n hn hw, hg]

theorem grow_pages (hw : Plain w) (hs : ¬ Same 4 u w) :
    table (grow f (slot p (shift 3) u) (slot t (shift d) v) e mem) cr3 w 4 = table mem cr3 w 4 := by
  have hold := (cleared h hu hp hf hunused 0).2.2.1 w hw hs
  by_cases hsame : Same (d + 1) v w
  · have hbelow := (cleared h hu hp hf hunused 0).1.table_below hd hv (grow_at h hu hp hf hunused hd hv ht) hpresent hframe
      (cleared_data h hu hp hf hunused) (cleared_zero h hu hp hf hunused) hsame (n := 4) (by omega)
    have : table mem cr3 w (d + 1) = none := by rw [← hnone, table_same hsame]
    rw [grow, hbelow, table_none this (by omega)]
  · rw [grow, (cleared h hu hp hf hunused 0).1.table_update (by omega) hv (grow_at h hu hp hf hunused hd hv ht) hw le_rfl
      (.inl hsame), hold]

theorem grow_entry {k : ℕ} (hk : k ≤ 3) (hw : Plain w) (hs : ¬ Same 4 u w) :
    ((table (grow f (slot p (shift 3) u) (slot t (shift d) v) e mem) cr3 w k).elim 0 fun g =>
      grow f (slot p (shift 3) u) (slot t (shift d) v) e mem (slot g (shift k) w)) =
      if k = d ∧ Same (d + 1) v w then e else (table mem cr3 w k).elim 0 fun g => mem (slot g (shift k) w) := by
  cases hg : table mem cr3 w k with
  | some g =>
    rw [grow_kept h hu hp hf hunused hd hv ht hnone hw hk hg, Option.elim_some, Option.elim_some]
    by_cases hsame : k = d ∧ Same (d + 1) v w
    · obtain ⟨rfl, hsame⟩ := hsame
      rw [if_pos ⟨rfl, hsame⟩]
      obtain rfl : g = t := Option.some.inj (hg.symm.trans ((table_same (hsame.mono (Nat.le_succ k))).symm.trans ht))
      rw [← hsame.slot_eq (Nat.lt_succ_self k)]
      exact Function.update_self ..
    · have hentry : slot g (shift k) w ≠ slot t (shift d) v := fun he => by
        obtain ⟨rfl, hsame'⟩ := h.slot_inj hk (by omega) hw hv hg ht he
        exact hsame ⟨rfl, hsame'.symm⟩
      have htemp : slot g (shift k) w ≠ slot p (shift 3) u := fun he => by
        obtain ⟨rfl, hsame'⟩ := h.slot_inj hk le_rfl hw hu hg hp he
        exact hs hsame'.symm
      have hne : g ≠ f := by
        rintro rfl
        exact hunused w k (by omega) hw hg
      rw [if_neg hsame, grow, Function.update_of_ne hentry, Function.update_of_ne htemp]
      exact AgreeOff.slot hf (wipe_agree f mem) (table_physical h hg) hne _ w
  | none =>
    have hoff : ¬ (k = d ∧ Same (d + 1) v w) := by
      rintro ⟨rfl, hsame⟩
      rw [← table_same (hsame.mono (Nat.le_succ k)), ht] at hg
      cases hg
    rw [if_neg hoff, Option.elim_none]
    cases hnew : table (grow f (slot p (shift 3) u) (slot t (shift d) v) e mem) cr3 w k with
    | none => rfl
    | some g' =>
      rcases grow_cases h hu hp hf hunused hd hv ht hpresent hframe hw (by omega) hnew with ⟨_, _, rfl⟩ | hold
      · exact grow_zero h hu hp hf hunused hd hv ht hframe _ w
      · rw [(cleared h hu hp hf hunused 0).2.1 w k hk hw, hg] at hold
        cases hold

end Grow

end Mmu

namespace Phys

variable {s s' : Phys} {va a x f t flags : BitVec 64}

theorem bind_ok {α β : Type} {m : Act α} {g : α → Act β} {r : α} (h : m s = .ok r s') : (m >>= g) s = g r s' := by
  change EStateM.bind m g s = _
  rw [EStateM.bind, h]

theorem bind_error {α β : Type} {m : Act α} {g : α → Act β} {e : Stop} (h : m s = .error e s') :
    (m >>= g) s = .error e s' := by
  change EStateM.bind m g s = _
  rw [EStateM.bind, h]

theorem load_ok (h : reach s.mem s.cr3 va = some a) : load va s = .ok (s.mem a) s := by rw [load, h]

theorem store_ok (h : reach s.mem s.cr3 va = some a) (x : BitVec 64) :
    store va x s = .ok () { s with mem := Function.update s.mem a x } := by rw [store, h]

theorem storeEntry_ok (h : reach s.mem s.cr3 va = some a) (e : BitVec 64) :
    storeEntry va e s = .ok () { s with mem := Function.update s.mem a e, log := .wrote e :: s.log } := by
  rw [storeEntry, bind_ok (store_ok h e)]
  rfl

theorem clearWords_ok {l : List ℕ} (hf : Physical f) (hl : ∀ k ∈ l, k < 512)
    (hreach : ∀ mem', AgreeOff f s.mem mem' → ∀ k < 512,
      reach mem' s.cr3 (va + 8 * BitVec.ofNat 64 k) = some (f + 8 * BitVec.ofNat 64 k)) :
    clearWords va l s =
      .ok () { s with mem := fun a => if l.any (fun k => a == f + 8 * BitVec.ofNat 64 k) then 0 else s.mem a } := by
  induction l generalizing s with
  | nil => rfl
  | cons k l ih =>
    have hk := hl k List.mem_cons_self
    have hstep := update_agree hf hk s.mem 0
    have hfirst := store_ok (hreach s.mem (fun _ _ => rfl) k hk) 0
    rw [clearWords, bind_ok hfirst, ih (fun k hk => hl k (List.mem_cons_of_mem _ hk))]
    · congr 2
      funext a
      dsimp only
      by_cases ha : a = f + 8 * BitVec.ofNat 64 k
      · simp [ha]
      · rw [List.any_cons, beq_eq_false_iff_ne.mpr ha, Bool.false_or, Function.update_of_ne ha]
    · intro mem' hmem'
      exact hreach mem' fun a ha => (hmem' a ha).trans (hstep a ha)

theorem clearPage_faults (h : reach s.mem s.cr3 va = none) : clearPage va s = .error .fault s := by
  have hstore : store (va + 8 * BitVec.ofNat 64 0) 0 s = .error .fault s := by
    rw [store, show va + 8 * BitVec.ofNat 64 0 = va from BitVec.add_zero va, h]
  rw [clearPage, List.range_eq_range', List.range'_succ, clearWords]
  change EStateM.bind _ _ _ = _
  rw [EStateM.bind, hstore]

theorem clearPage_ok (hf : Physical f)
    (hreach : ∀ mem', AgreeOff f s.mem mem' → ∀ k < 512,
      reach mem' s.cr3 (va + 8 * BitVec.ofNat 64 k) = some (f + 8 * BitVec.ofNat 64 k)) :
    clearPage va s = .ok () { s with mem := wipe f s.mem } := by
  have hwords := clearWords_ok hf (l := List.range 512) (fun k hk => List.mem_range.mp hk) hreach
  refine hwords.trans (congrArg (fun m => EStateM.Result.ok () { s with mem := m }) ?_)
  funext a
  have hiff : ((List.range 512).any fun k => a == f + 8 * BitVec.ofNat 64 k) = true ↔
      a.toNat / 4096 = f.toNat / 4096 ∧ a.toNat % 8 = 0 := by
    have hphys := physical_toNat hf
    rw [List.any_eq_true]
    constructor
    · rintro ⟨k, hk, he⟩
      rw [eq_of_beq he, word_toNat hf (List.mem_range.mp hk)]
      have := List.mem_range.mp hk
      omega
    · intro hp
      refine ⟨(a.toNat - f.toNat) / 8, List.mem_range.mpr (by omega), beq_iff_eq.mpr ?_⟩
      apply BitVec.eq_of_toNat_eq
      rw [word_toNat hf (by omega)]
      omega
  rw [wipe]
  by_cases hp : a.toNat / 4096 = f.toNat / 4096 ∧ a.toNat % 8 = 0
  · rw [if_pos (hiff.mpr hp), if_pos hp]
  · rw [if_neg (mt hiff.mp hp), if_neg hp]

structure UpperFlags (flags : BitVec 64) : Prop where
  address : flags &&& 0x000FFFFFFFFFF000#64 = 0#64
  present : present flags = true
  small : large flags = false

theorem UpperFlags.entry (h : UpperFlags flags) (hf : Physical f) :
    Mmu.present (f ||| flags) = true ∧ frame (f ||| flags) = f ∧ large (f ||| flags) = false := by
  refine ⟨?_, or_and_high hf h.address (by decide), ?_⟩
  · rw [Mmu.present, BitVec.getLsbD_or, ← Mmu.present, ← Mmu.present, h.present, Bool.or_true]
  · have hbit := congrArg (fun x : BitVec 64 => x.getLsbD 7) hf
    simp only [BitVec.getLsbD_and, BitVec.getLsbD_zero] at hbit
    rw [show (0xFFF0000000000FFF#64).getLsbD 7 = true by decide, Bool.and_true] at hbit
    rw [large, BitVec.getLsbD_or, hbit, ← large, h.small, Bool.or_self]

theorem upper_pageRW : UpperFlags (pageP ||| pageRW) := ⟨by decide, by decide, by decide⟩

structure Window (s : Phys) (t : BitVec 64) : Prop where
  plain : Plain s.temp
  canonical : canonical s.temp = true
  aligned : s.temp &&& 0xFFF = 0
  table : table s.mem s.cr3 s.temp 3 = some t

theorem zeroPage_ok (h : Tree s.mem s.cr3) (hw : s.Window t) (hf : Physical f) (hdata : Data s.mem s.cr3 f) :
    zeroPage f s = .ok () { s with
      mem := Function.update (wipe f s.mem) (slot t (shift 3) s.temp) 0
      log := .wrote 0 :: .wrote (f ||| pageP ||| pageRW) :: s.log } := by
  obtain ⟨hpresent, hframe, hlarge⟩ := upper_pageRW.entry hf
  rw [← BitVec.or_assoc] at hpresent hframe hlarge
  have hsame : ∀ w d, d ≤ 3 → Plain w → Mmu.table (Function.update s.mem (slot t (shift 3) s.temp)
      (f ||| pageP ||| pageRW)) s.cr3 w d = Mmu.table s.mem s.cr3 w d :=
    fun w d hd hp => h.table_update le_rfl hw.plain hw.table hp (by omega) (.inr hd) _
  have htree := h.update_leaf hw.plain hw.table (f ||| pageP ||| pageRW)
  have hdata' : Data (Function.update s.mem (slot t (shift 3) s.temp) (f ||| pageP ||| pageRW)) s.cr3 f := by
    intro w d hd hp
    rw [hsame w d hd hp]
    exact hdata w d hd hp
  have hentry : reach s.mem s.cr3 (getPhys s.temp) = some (slot t (shift 3) s.temp) :=
    h.reach_ref (d := 3) hw.plain le_rfl hw.table
  let s₁ : Phys := { s with
    mem := Function.update s.mem (slot t (shift 3) s.temp) (f ||| pageP ||| pageRW)
    log := .wrote (f ||| pageP ||| pageRW) :: s.log }
  let s₂ : Phys := { s₁ with mem := wipe f s₁.mem }
  have hclear : clearPage s.temp s₁ = .ok () s₂ := by
    apply clearPage_ok hf
    intro mem' hoff k hk
    refine htree.reach_off hf hdata' hoff hw.plain hw.canonical hw.aligned hk ((hsame _ _ le_rfl hw.plain).trans hw.table) ?_ ?_
    · rw [Function.update_self]
      exact ⟨hpresent, hlarge⟩
    · rw [Function.update_self]
      exact hframe
  have hentry' : reach s₂.mem s₂.cr3 (getPhys s₂.temp) = some (slot t (shift 3) s.temp) := by
    apply (htree.off hf hdata' (wipe_agree f s₁.mem)).reach_ref (d := 3) hw.plain le_rfl
    rw [htree.table_off hf hdata' (wipe_agree f s₁.mem) hw.plain (by decide), hsame _ _ le_rfl hw.plain, hw.table]
  have hfree : freeTemp s₂ = .ok () { s₂ with
      mem := Function.update s₂.mem (slot t (shift 3) s.temp) 0, log := .wrote 0 :: s₂.log } := storeEntry_ok hentry' 0
  have hmem : Function.update s₂.mem (slot t (shift 3) s.temp) 0 =
      Function.update (wipe f s.mem) (slot t (shift 3) s.temp) 0 := by
    funext a
    by_cases ha : a = slot t (shift 3) s.temp
    · rw [ha, Function.update_self, Function.update_self]
    · rw [Function.update_of_ne ha, Function.update_of_ne ha]
      simp only [s₂, s₁, wipe, Function.update_of_ne ha]
  have hget : (get : Act Phys) s = .ok s s := rfl
  rw [zeroPage, bind_ok hget, bind_ok (storeEntry_ok hentry _), bind_ok hclear, hfree, hmem]

/-- The frame is in use by no path outside the recursive slot, as a table or as a page. -/
def Unused (s : Phys) (f : BitVec 64) : Prop := ∀ v d, d ≤ 4 → Plain v → table s.mem s.cr3 v d ≠ some f

/-- A state for `map_page`: the tables are a tree, the temp page can be mapped, and the free frames `l` are not in use. -/
structure Ready (s : Phys) (t : BitVec 64) (l : List ℕ) : Prop where
  tree : Tree s.mem s.cr3
  window : s.Window t
  distinct : s.pmap.Distinct
  freelist : s.pmap.Free l
  physical : ∀ j ∈ l, Physical (s.pmap.desc j).base
  unused : ∀ j ∈ l, s.Unused (s.pmap.desc j).base

theorem Ready.move {l : List ℕ} (hr : s.Ready t l) (x : BitVec 64) : Ready { s with free := x } t l :=
  ⟨hr.tree, ⟨hr.window.plain, hr.window.canonical, hr.window.aligned, hr.window.table⟩, hr.distinct, hr.freelist, hr.physical,
    hr.unused⟩

theorem Ready.base_ne {j k : ℕ} {l : List ℕ} (hr : s.Ready t (j :: l)) (hk : k ∈ l) :
    (s.pmap.desc k).base ≠ (s.pmap.desc j).base := by
  intro he
  have hj := ((hr.freelist.mem j).mp List.mem_cons_self).1
  have hk' := ((hr.freelist.mem k).mp (List.mem_cons_of_mem j hk)).1
  exact (List.nodup_cons.mp (Linked.chain_nodup hr.freelist.chain)).1 (hr.distinct k hk' j hj he ▸ hk)

/-- What the steps of `map_page` for `v` do besides the leaf: they turn frames of `fs` into tables. -/
structure Evolves (v t : BitVec 64) (fs : List (BitVec 64)) (s s' : Phys) : Prop where
  cr3 : s'.cr3 = s.cr3
  temp : s'.temp = s.temp
  pages : ∀ w, Plain w → ¬ Same 4 s.temp w → table s'.mem s'.cr3 w 4 = table s.mem s.cr3 w 4
  kept : ∀ w d f, d ≤ 3 → Plain w → table s.mem s.cr3 w d = some f → table s'.mem s'.cr3 w d = some f
  tables : ∀ w d f, d ≤ 3 → Plain w → table s'.mem s'.cr3 w d = some f → table s.mem s.cr3 w d = some f ∨ f ∈ fs ∧ Same d v w
  mem : ∀ a, (∀ f ∈ fs, a.toNat / 4096 ≠ f.toNat / 4096) →
    (∀ d ≤ 3, ∀ g, table s'.mem s'.cr3 v d = some g → a ≠ slot g (shift d) v) → a ≠ slot t (shift 3) s.temp →
    s'.mem a = s.mem a

theorem Evolves.refl (v t : BitVec 64) (s : Phys) : Evolves v t [] s s :=
  ⟨rfl, rfl, fun _ _ _ => rfl, fun _ _ _ _ _ h => h, fun _ _ _ _ _ h => .inl h, fun _ _ _ _ => rfl⟩

theorem Evolves.trans {v t : BitVec 64} {fs fs' : List (BitVec 64)} {s s' s'' : Phys} (h : Evolves v t fs s s')
    (h' : Evolves v t fs' s' s'') (hv : Plain v) : Evolves v t (fs ++ fs') s s'' := by
  constructor
  · rw [h'.cr3, h.cr3]
  · rw [h'.temp, h.temp]
  · intro w hw hs
    rw [h'.pages w hw (by rw [h.temp]; exact hs), h.pages w hw hs]
  · exact fun w d f hd hw hf => h'.kept w d f hd hw (h.kept w d f hd hw hf)
  · intro w d f hd hw hf
    rcases h'.tables w d f hd hw hf with hf | hf
    · rcases h.tables w d f hd hw hf with hf | ⟨hf, hs⟩
      · exact .inl hf
      · exact .inr ⟨List.mem_append_left _ hf, hs⟩
    · exact .inr ⟨List.mem_append_right _ hf.1, hf.2⟩
  · intro a hfs hpath htemp
    rw [h'.mem a (fun f hf => hfs f (List.mem_append_right _ hf)) hpath (by rw [h.temp]; exact htemp)]
    exact h.mem a (fun f hf => hfs f (List.mem_append_left _ hf))
      (fun d hd g hg => hpath d hd g (h'.kept v d g hd hv hg)) htemp

/-- How many of the `n` frames on the path of `v` below the PML4 are not there, when the ones of the pages `es` are. -/
def absent (s : Phys) (es : List (BitVec 64)) (n : ℕ) (v : BitVec 64) : ℕ :=
  (List.range n).countP fun d => (table s.mem s.cr3 v (d + 1)).isNone && es.all fun u => !decide (Same (d + 1) u v)

theorem absent_le (s : Phys) (es : List (BitVec 64)) (n : ℕ) (v : BitVec 64) : s.absent es n v ≤ n :=
  List.countP_le_length.trans_eq List.length_range

theorem absent_congr {es es' : List (BitVec 64)} {n : ℕ} {v : BitVec 64}
    (h : ∀ d < n, (table s'.mem s'.cr3 v (d + 1) = none ∧ ∀ u ∈ es', ¬ Same (d + 1) u v) ↔
      (table s.mem s.cr3 v (d + 1) = none ∧ ∀ u ∈ es, ¬ Same (d + 1) u v)) : s'.absent es' n v = s.absent es n v := by
  refine List.countP_congr fun d hd => ?_
  simpa using h d (List.mem_range.mp hd)

theorem absent_succ (s : Phys) (n : ℕ) (v : BitVec 64) :
    s.absent [] (n + 1) v = s.absent [] n v + if table s.mem s.cr3 v (n + 1) = none then 1 else 0 := by
  simp [absent, List.range_succ, List.countP_append, List.countP_cons]

theorem absent_none {v g : BitVec 64} {d n : ℕ} (hg : table s.mem s.cr3 v d = some g)
    (hnone : table s.mem s.cr3 v (d + 1) = none) : s.absent [] n v = n - d := by
  induction n with
  | zero => exact (Nat.zero_sub d).symm
  | succ n ih =>
    rw [absent_succ, ih]
    by_cases hn : d ≤ n
    · rw [if_pos (table_none hnone (by omega))]
      omega
    · obtain ⟨t, ht⟩ := table_some hg (show n + 1 ≤ d by omega)
      rw [if_neg (by rw [ht]; exact Option.some_ne_none t)]
      omega

theorem absent_some {v g : BitVec 64} {n : ℕ} (hg : table s.mem s.cr3 v n = some g) : s.absent [] n v = 0 := by
  rw [absent, List.countP_eq_zero]
  intro d hd
  obtain ⟨t, ht⟩ := table_some hg (show d + 1 ≤ n from List.mem_range.mp hd)
  simp [ht]

def Foreign (s : Phys) (l : List ℕ) : PhysEvent → Prop
  | .took f => ∀ k ∈ l, (s.pmap.desc k).base ≠ f
  | .failed => True
  | .wrote _ => False

theorem Foreign.mono {l l' : List ℕ} {x : PhysEvent} (h : s.Foreign l x) (hsub : l' ⊆ l)
    (hbase : ∀ k, (s'.pmap.desc k).base = (s.pmap.desc k).base) : s'.Foreign l' x := by
  cases x with
  | took f => exact fun k hk => hbase k ▸ h k (hsub hk)
  | failed => trivial
  | wrote e => exact h

/-- Events of an operation for which the free frames `l` are enough: each present entry points to a frame that was taken. -/
structure Clean (s : Phys) (l : List ℕ) (a : List PhysEvent) : Prop where
  own : ∀ x ∈ a, ¬ s.Foreign l x
  entries : ∀ e, .wrote e ∈ a → present e = true → .took (frame e) ∈ a

section Clean

variable {l l' : List ℕ} {a a' : List PhysEvent}

theorem clean_nil (s : Phys) (l : List ℕ) : s.Clean l [] :=
  ⟨fun _ hx => absurd hx List.not_mem_nil, fun _ he => absurd he List.not_mem_nil⟩

theorem clean_took {j : ℕ} (hj : j ∈ l) : s.Clean l [.took (s.pmap.desc j).base] := by
  refine ⟨fun x hx hf => ?_, fun e he => by simp at he⟩
  rw [List.mem_singleton.mp hx] at hf
  exact hf j hj rfl

theorem Clean.wrote {e : BitVec 64} (h : s.Clean l a) (he : present e = true → .took (frame e) ∈ a) :
    s.Clean l (.wrote e :: a) := by
  refine ⟨fun x hx => ?_, fun e' he' hp => List.mem_cons_of_mem _ ?_⟩
  · rcases List.mem_cons.mp hx with rfl | hx
    · exact id
    · exact h.own x hx
  · rcases List.mem_cons.mp he' with heq | he'
    · cases heq
      exact he hp
    · exact h.entries e' he' hp

theorem Clean.append (h : s.Clean l a) (h' : s'.Clean l' a') (hsub : l' ⊆ l)
    (hbase : ∀ k, (s'.pmap.desc k).base = (s.pmap.desc k).base) : s.Clean l (a' ++ a) := by
  refine ⟨fun x hx hf => ?_, fun e he hp => ?_⟩
  · rcases List.mem_append.mp hx with hx | hx
    · exact h'.own x hx (hf.mono hsub hbase)
    · exact h.own x hx hf
  · rcases List.mem_append.mp he with he | he
    · exact List.mem_append_left _ (h'.entries e he hp)
    · exact List.mem_append_right _ (h.entries e he hp)

end Clean

def Quiet (l : List ℕ) (s s' : Phys) : Prop := ∃ a, s'.log = a ++ s.log ∧ s.Clean l a

theorem Quiet.refl (l : List ℕ) (s : Phys) : Quiet l s s := ⟨[], rfl, clean_nil s l⟩

theorem Quiet.trans {l l' : List ℕ} {s s₁ s' : Phys} (h : Quiet l s s₁) (h' : Quiet l' s₁ s') (hsub : l' ⊆ l)
    (hbase : ∀ k, (s₁.pmap.desc k).base = (s.pmap.desc k).base) : Quiet l s s' := by
  obtain ⟨a, hlog, ha⟩ := h
  obtain ⟨a', hlog', ha'⟩ := h'
  exact ⟨a' ++ a, by rw [hlog', hlog, List.append_assoc], ha.append ha' hsub hbase⟩

theorem clean_zeroed {l : List ℕ} {j : ℕ} (hj : j ∈ l) (hf : Physical (s.pmap.desc j).base) :
    s.Clean l [.wrote 0, .wrote ((s.pmap.desc j).base ||| pageP ||| pageRW), .took (s.pmap.desc j).base] := by
  have hframe := (upper_pageRW.entry hf).2.1
  rw [← BitVec.or_assoc] at hframe
  have hmapped := (clean_took (s := s) hj).wrote (e := (s.pmap.desc j).base ||| pageP ||| pageRW)
    fun _ => by rw [hframe]; exact List.mem_cons_self
  exact hmapped.wrote fun hp => by cases hp

section Need

variable {v g : BitVec 64} {d j : ℕ} {l : List ℕ}

theorem needTable_present {g' : BitVec 64} (h : Tree s.mem s.cr3) (hd : d ≤ 3) (hv : Plain v)
    (hg : table s.mem s.cr3 v d = some g) (hg' : table s.mem s.cr3 v (d + 1) = some g') (flags : BitVec 64) :
    needTable (ref d v) flags s = .ok () s := by
  have hpresent : isPresent (s.mem (slot g (shift d) v)) = true := by
    rw [isPresent_eq]
    rw [table_succ hg] at hg'
    split at hg'
    · assumption
    · cases hg'
  rw [needTable, bind_ok (load_ok (h.reach_ref hv hd hg)), if_pos hpresent]
  rfl

def entry (s : Phys) (v : BitVec 64) (d : ℕ) : BitVec 64 :=
  (table s.mem s.cr3 v d).elim 0 fun t => s.mem (slot t (shift d) v)

structure NewTable (v t flags : BitVec 64) (d j : ℕ) (l : List ℕ) (s s' : Phys) : Prop where
  ready : s'.Ready t l
  evolves : Evolves v t [(s.pmap.desc j).base] s s'
  path : table s'.mem s'.cr3 v (d + 1) = some (s.pmap.desc j).base
  below : ∀ n, d + 1 < n → table s'.mem s'.cr3 v n = none
  zero : ∀ n w, s'.mem (slot (s.pmap.desc j).base n w) = 0
  entries : ∀ w k, k ≤ 3 → Plain w → ¬ Same 4 s.temp w →
    s'.entry w k = if k = d ∧ Same (d + 1) v w then (s.pmap.desc j).base ||| flags else s.entry w k
  taken : s.pmap.getFreePage = (.ok (s.pmap.desc j).base, s'.pmap)
  touches : s.pmap.Touches j s'.pmap
  temp : table s'.mem s'.cr3 s'.temp 4 = none
  free : s'.free = s.free
  initPml4 : s'.initPml4 = s.initPml4
  quiet : Quiet (j :: l) s s'

/-- The block of `map_page` that makes a table, with the frame `f`. -/
theorem needTable_links {p : PMap} (hr : s.Ready t l) (hd : d < 3) (hv : Plain v) (hg : table s.mem s.cr3 v d = some g)
    (hnone : table s.mem s.cr3 v (d + 1) = none) (hget : s.pmap.getFreePage = (.ok f, p)) (hf : Physical f)
    (hunused : s.Unused f) : needTable (ref d v) flags s = .ok () { s with
      pmap := p
      mem := grow f (slot t (shift 3) s.temp) (slot g (shift d) v) (f ||| flags) s.mem
      log := .wrote (f ||| flags) :: .wrote 0 :: .wrote (f ||| pageP ||| pageRW) :: .took f :: s.log } := by
  let s₁ : Phys := { s with pmap := p, log := .took f :: s.log }
  let s₂ : Phys := { s₁ with
    mem := Function.update (wipe f s₁.mem) (slot t (shift 3) s₁.temp) 0
    log := .wrote 0 :: .wrote (f ||| pageP ||| pageRW) :: s₁.log }
  have hfirst : getFreePage s = .ok f s₁ := by rw [getFreePage, hget]
  have hwin : s₁.Window t := ⟨hr.window.plain, hr.window.canonical, hr.window.aligned, hr.window.table⟩
  have hzero : zeroPage f s₁ = .ok () s₂ := zeroPage_ok hr.tree hwin hf fun w n hn hw => hunused w n (by omega) hw
  have hreach : reach s₂.mem s₂.cr3 (ref d v) = some (slot g (shift d) v) :=
    (cleared hr.tree hr.window.plain hr.window.table hf hunused 0).1.reach_ref hv (by omega)
      (grow_at hr.tree hr.window.plain hr.window.table hf hunused hd hv hg)
  have hload : isPresent (s.mem (slot g (shift d) v)) = false := by
    rw [isPresent_eq]
    exact absent_of_table hg hnone
  rw [needTable, bind_ok (load_ok (hr.tree.reach_ref hv (by omega) hg)), hload, if_neg (by decide), bind_ok hfirst,
    bind_ok hzero]
  exact storeEntry_ok hreach _

theorem needTable_absent (hr : s.Ready t (j :: l)) (hd : d < 3) (hv : Plain v) (hg : table s.mem s.cr3 v d = some g)
    (hnone : table s.mem s.cr3 v (d + 1) = none) (hflags : UpperFlags flags) :
    ∃ s', needTable (ref d v) flags s = .ok () s' ∧ NewTable v t flags d j l s s' := by
  obtain ⟨p, hget, hfree, htouch, hcount⟩ := PMap.getFreePage_cons hr.freelist
  have hf := hr.physical j List.mem_cons_self
  have hunused := hr.unused j List.mem_cons_self
  obtain ⟨hpresent, hframe, hlarge⟩ := hflags.entry hf
  have hwin := hr.window
  have hkept : ∀ w n k, n ≤ 3 → Plain w → table s.mem s.cr3 w n = some k →
      table (grow (s.pmap.desc j).base (slot t (shift 3) s.temp) (slot g (shift d) v) ((s.pmap.desc j).base ||| flags) s.mem)
        s.cr3 w n = some k :=
    fun w n k hn hw hk => grow_kept hr.tree hwin.plain hwin.table hf hunused hd hv hg hnone hw hn hk
  refine ⟨_, needTable_links hr hd hv hg hnone hget hf hunused, ⟨?_, ⟨hwin.plain, hwin.canonical, hwin.aligned,
    hkept _ _ _ le_rfl hwin.plain hwin.table⟩, htouch.distinct hr.distinct, hfree, fun k hk => ?_, fun k hk w n hn hw => ?_⟩,
    ⟨rfl, rfl, fun w hw hs => ?_, hkept, fun w n k hn hw hk => ?_, fun a hfs hpath htemp => ?_⟩, ?_, ?_, ?_, ?_, hget, htouch,
    ?_, rfl, rfl, ?_⟩
  · exact grow_tree hr.tree hwin.plain hwin.table hf hunused hd hv hg hpresent hframe hlarge
  · exact (htouch.base k).symm ▸ hr.physical k (List.mem_cons_of_mem j hk)
  · dsimp only
    rw [htouch.base]
    exact grow_unused hr.tree hwin.plain hwin.table hf hunused hd hv hg hpresent hframe
      (hr.unused k (List.mem_cons_of_mem j hk)) (hr.base_ne hk) hn hw
  · exact grow_pages hr.tree hwin.plain hwin.table hf hunused hd hv hg hnone hpresent hframe hw hs
  · rcases grow_cases hr.tree hwin.plain hwin.table hf hunused hd hv hg hpresent hframe hw (by omega) hk with hnew | hold
    · exact .inr ⟨by rw [hnew.2.2, List.mem_singleton], hnew.2.1 ▸ hnew.1⟩
    · rw [(cleared hr.tree hwin.plain hwin.table hf hunused 0).2.1 w n hn hw] at hold
      exact .inl hold
  · have hentry := hpath d (by omega) g (hkept v d g (by omega) hv hg)
    have hpage := hfs _ List.mem_cons_self
    dsimp only
    rw [grow, Function.update_of_ne hentry, Function.update_of_ne htemp]
    exact if_neg fun hin => hpage hin.1
  · exact grow_path hr.tree hwin.plain hwin.table hf hunused hd hv hg hpresent hframe
  · exact fun n hn => grow_below hr.tree hwin.plain hwin.table hf hunused hd hv hg hpresent hframe hn
  · exact grow_zero hr.tree hwin.plain hwin.table hf hunused hd hv hg hframe
  · exact fun w k hk hw hne =>
      grow_entry hr.tree hwin.plain hwin.table hf hunused hd hv hg hnone hpresent hframe hk hw hne
  · exact grow_window hr.tree hwin.plain hwin.table hf hunused hd hv hg hpresent hframe
  · exact ⟨_, rfl, (clean_zeroed List.mem_cons_self hf).wrote fun _ => by rw [hframe]; simp⟩

structure Extended (v t : BitVec 64) (d : ℕ) (l : List ℕ) (s s' : Phys) : Prop where
  ready : ∃ l', s'.Ready t l'
  evolves : ∃ fs, Evolves v t fs s s' ∧ ∀ f ∈ fs, ∃ j ∈ l, (s.pmap.desc j).base = f
  reached : ∃ g, table s'.mem s'.cr3 v 3 = some g
  fresh : ∀ k, d ≤ k → k < 3 → table s.mem s.cr3 v (k + 1) = none → ∀ g, table s'.mem s'.cr3 v (k + 1) = some g →
    ∀ i : BitVec 64, i.toNat < 512 → i ≠ index (shift (k + 1)) v → s'.mem (g + 8 * i) = 0
  idle : (∃ g, table s.mem s.cr3 v 3 = some g) → s' = s
  quiet : Quiet l s s'

structure Takes (v t : BitVec 64) (l l' : List ℕ) (s s' : Phys) : Prop where
  ready : s'.Ready t l'
  rest : l' <:+ l
  length : l.length = l'.length + s.absent [] 3 v
  idle : (∃ g, table s.mem s.cr3 v 3 = some g) → l' = l
  held : ∀ k, k ∉ l → s'.pmap.desc k = s.pmap.desc k
  base : ∀ k, (s'.pmap.desc k).base = (s.pmap.desc k).base
  entryCount : s'.pmap.entryCount = s.pmap.entryCount
  temp : table s.mem s.cr3 s.temp 4 = none → table s'.mem s'.cr3 s'.temp 4 = none
  free : s'.free = s.free
  initPml4 : s'.initPml4 = s.initPml4

def Room (v : BitVec 64) (d : ℕ) (l : List ℕ) (s : Phys) : Prop :=
  ∀ k, d ≤ k → k < 3 → table s.mem s.cr3 v (k + 1) = none → 3 - k ≤ l.length

theorem room_of_absent (h : s.absent [] 3 v ≤ l.length) : Room v 0 l s := by
  intro k _ hk hnone
  induction k with
  | zero =>
    rw [absent_none (show table s.mem s.cr3 v 0 = some s.cr3 from rfl) hnone] at h
    exact h
  | succ k ih =>
    cases hg : table s.mem s.cr3 v (k + 1) with
    | none =>
      have := ih (Nat.zero_le k) (by omega) hg
      omega
    | some g =>
      rw [absent_none hg hnone] at h
      exact h

/-- The steps after the table of depth `d + 1` leave the words that its clearing made zero, but for the one on the path. -/
theorem NewTable.zero_kept {l₀ : List ℕ} {s₁ : Phys} {fs : List (BitVec 64)} {i : BitVec 64}
    (h : NewTable v t flags d j l₀ s s₁) (hr : s.Ready t (j :: l₀)) (hd : d < 3) (hv : Plain v)
    (hnone : table s.mem s.cr3 v (d + 1) = none) (hr' : s'.Ready t l) (hev : Evolves v t fs s₁ s')
    (hfs : ∀ f ∈ fs, ∃ k ∈ l₀, (s₁.pmap.desc k).base = f) (hg : table s'.mem s'.cr3 v (d + 1) = some g) (hi : i.toNat < 512)
    (hne : i ≠ index (shift (d + 1)) v) : s'.mem (g + 8 * i) = 0 := by
  have hr₁ := h.ready
  have hkept := hev.kept v _ _ hd hv h.path
  obtain rfl := Option.some.inj (hkept.symm.trans hg)
  have hphys := table_physical hr₁.tree h.path
  rw [← slot_word hi, hev.mem, h.zero]
  · -- the frames taken later are other ones
    rintro f hf hpage
    obtain ⟨k, hk, rfl⟩ := hfs f hf
    rw [(slot_page hphys 0 i).1] at hpage
    exact hr₁.unused k hk v _ (by omega) hv (physical_inj hphys (hr₁.physical k hk) hpage ▸ h.path)
  · intro d' hd' g' hg' hslot
    obtain ⟨rfl, hindex⟩ := slot_inj hphys (table_physical hr'.tree hg') hslot
    obtain ⟨rfl, _⟩ := hr'.tree.apart v v _ _ _ hd hd' hv hv hkept hg'
    exact hne (by rw [← hindex, index_small hi])
  · intro hslot
    obtain ⟨heq, _⟩ := slot_inj hphys (table_physical hr₁.tree hr₁.window.table) hslot
    obtain ⟨hdepth, hs⟩ := hr₁.tree.apart v s₁.temp _ 3 _ hd le_rfl hv hr₁.window.plain h.path (heq ▸ hr₁.window.table)
    rw [table_same hs, h.evolves.temp, hdepth, hr.window.table] at hnone
    cases hnone

theorem missing_of_none (hd : d < 3) (hnone : table s.mem s.cr3 v (d + 1) = none) : ¬ ∃ g, table s.mem s.cr3 v 3 = some g := by
  rintro ⟨g, hg⟩
  rw [table_none hnone (by omega)] at hg
  cases hg

theorem NewTable.extended {s₁ : Phys} (h : NewTable v t flags d j l s s₁) (hr : s.Ready t (j :: l)) (hd : d < 3)
    (hv : Plain v) (hnone : table s.mem s.cr3 v (d + 1) = none) (he : Extended v t (d + 1) l s₁ s') :
    Extended v t d (j :: l) s s' := by
  obtain ⟨fs, hev, hfs⟩ := he.evolves
  refine ⟨he.ready, ⟨_, h.evolves.trans hev hv, fun f hf => ?_⟩, he.reached, fun k hk hk3 _ g' hg' i hi hne => ?_,
    fun hex => absurd hex (missing_of_none hd hnone), h.quiet.trans he.quiet (List.subset_cons_self j l) h.touches.base⟩
  · rcases List.mem_append.mp hf with hf | hf
    · exact ⟨j, List.mem_cons_self, (List.mem_singleton.mp hf).symm⟩
    · obtain ⟨k, hk, hkf⟩ := hfs f hf
      exact ⟨k, List.mem_cons_of_mem j hk, (h.touches.base k).symm.trans hkf⟩
  · rcases Nat.lt_or_eq_of_le hk with hlt | rfl
    · exact he.fresh k hlt hk3 (h.below (k + 1) (by omega)) g' hg' i hi hne
    · obtain ⟨_, hr'⟩ := he.ready
      exact h.zero_kept hr hd hv hnone hr' hev hfs hg' hi hne

theorem NewTable.takes {l' : List ℕ} {s₁ : Phys} (h : NewTable v t flags d j l s s₁) (hd : d < 3)
    (hg : table s.mem s.cr3 v d = some g) (hnone : table s.mem s.cr3 v (d + 1) = none) (hk : Takes v t l l' s₁ s') :
    Takes v t (j :: l) l' s s' := by
  have hlength := hk.length
  have hleft := absent_none (n := 3) h.path (h.below (d + 2) (by omega))
  refine ⟨hk.ready, hk.rest.trans (List.suffix_cons j l), ?_, fun hex => absurd hex (missing_of_none hd hnone), fun k hk' => ?_,
    fun k => (hk.base k).trans (h.touches.base k), hk.entryCount.trans h.touches.entryCount, fun _ => hk.temp h.temp,
    hk.free.trans h.free, hk.initPml4.trans h.initPml4⟩
  · rw [List.length_cons, absent_none hg hnone]
    omega
  · rw [List.mem_cons, not_or] at hk'
    rw [hk.held k hk'.2, h.touches.other k hk'.1]

theorem extend_step {m : Act Unit} (hr : s.Ready t l) (hd : d < 3) (hv : Plain v) (hg : table s.mem s.cr3 v d = some g)
    (hflags : UpperFlags flags) (hroom : Room v d l s)
    (hrest : ∀ s₁ l₁ g₁, s₁.Ready t l₁ → table s₁.mem s₁.cr3 v (d + 1) = some g₁ → Room v (d + 1) l₁ s₁ →
      ∃ s' l', m s₁ = .ok () s' ∧ Extended v t (d + 1) l₁ s₁ s' ∧ Takes v t l₁ l' s₁ s') :
    ∃ s' l', (needTable (ref d v) flags >>= fun _ => m) s = .ok () s' ∧ Extended v t d l s s' ∧ Takes v t l l' s s' := by
  cases hnext : table s.mem s.cr3 v (d + 1) with
  | some g' =>
    obtain ⟨s', l', hs', he, hk⟩ := hrest s l g' hr hnext fun k hk => hroom k (by omega)
    refine ⟨s', l', ?_, ⟨he.ready, he.evolves, he.reached, fun k hk hk3 hnone => ?_, he.idle, he.quiet⟩, hk⟩
    · rw [bind_ok (needTable_present hr.tree (by omega) hv hg hnext flags), hs']
    · rcases Nat.lt_or_eq_of_le hk with hlt | rfl
      · exact he.fresh k hlt hk3 hnone
      · rw [hnext] at hnone
        cases hnone
  | none =>
    have hlen := hroom d le_rfl hd hnext
    cases l with
    | nil => simp at hlen; omega
    | cons j l =>
      obtain ⟨s₁, hs₁, hnew⟩ := needTable_absent hr hd hv hg hnext hflags
      obtain ⟨s', l', hs', he, hk⟩ := hrest s₁ l _ hnew.ready hnew.path fun k hk hk3 _ => by
        rw [List.length_cons] at hlen
        omega
      exact ⟨s', l', by rw [bind_ok hs₁, hs'], hnew.extended hr hd hv hnext he, hnew.takes hd hg hnext hk⟩

theorem Extended.done (hr : s.Ready t l) (hg : table s.mem s.cr3 v 3 = some g) : Extended v t 3 l s s :=
  ⟨⟨l, hr⟩, ⟨[], Evolves.refl v t s, fun _ hf => absurd hf List.not_mem_nil⟩, ⟨g, hg⟩,
    fun _ h3 hk => absurd hk (Nat.not_lt.mpr h3), fun _ => rfl, .refl l s⟩

theorem Takes.refl (hr : s.Ready t l) (hg : table s.mem s.cr3 v 3 = some g) : Takes v t l l s s :=
  ⟨hr, List.suffix_rfl, by rw [absent_some hg, Nat.add_zero], fun _ => rfl, fun _ _ => rfl, fun _ => rfl, rfl, id, rfl, rfl⟩

theorem Takes.few {l' : List ℕ} (h : Takes v t l l' s s') : l.length ≤ l'.length + 3 := by
  have hlength := h.length
  have hle := s.absent_le [] 3 v
  omega

theorem needTables_ok (hr : s.Ready t l) (hv : Plain v) (hflags : UpperFlags flags) (hroom : Room v 0 l s) :
    ∃ s' l', needTables v flags s = .ok () s' ∧ Extended v t 0 l s s' ∧ Takes v t l l' s s' := by
  have hlast : ∀ s₂ l₂ g₂, s₂.Ready t l₂ → table s₂.mem s₂.cr3 v 2 = some g₂ → Room v 2 l₂ s₂ →
      ∃ s' l', needTable (ref 2 v) flags s₂ = .ok () s' ∧ Extended v t 2 l₂ s₂ s' ∧ Takes v t l₂ l' s₂ s' := by
    intro s₂ l₂ g₂ hr₂ hg₂ hroom₂
    obtain ⟨s', l', hs', he⟩ := extend_step (m := pure ()) hr₂ (by decide) hv hg₂ hflags hroom₂
      fun s₃ l₃ g₃ hr₃ hg₃ _ => ⟨s₃, l₃, rfl, .done hr₃ hg₃, .refl hr₃ hg₃⟩
    refine ⟨s', l', ?_, he⟩
    cases hrun : needTable (ref 2 v) flags s₂ with
    | ok r s₃ =>
      rw [bind_ok hrun] at hs'
      exact hs'
    | error e s₃ =>
      change EStateM.bind _ _ s₂ = _ at hs'
      rw [EStateM.bind, hrun] at hs'
      cases hs'
  have hsteps : needTables v flags = (needTable (ref 0 v) flags >>= fun _ => needTable (ref 1 v) flags >>= fun _ =>
      needTable (ref 2 v) flags) := rfl
  rw [hsteps]
  exact extend_step hr (by decide) hv rfl hflags hroom fun s₁ l₁ g₁ hr₁ hg₁ hroom₁ =>
    extend_step hr₁ (by decide) hv hg₁ hflags hroom₁ hlast

theorem UpperFlags.high (h : UpperFlags flags) : UpperFlags (Mach.highFlags flags) := by
  rw [Mach.highFlags]
  split
  · constructor
    · rw [BitVec.and_comm, BitVec.and_or_distrib_left, ← BitVec.and_assoc, BitVec.and_comm _ flags, h.address]
      decide
    · rw [Mmu.present, BitVec.getLsbD_or, BitVec.getLsbD_and, ← Mmu.present, h.present]
      decide
    · rw [large, BitVec.getLsbD_or, BitVec.getLsbD_and, ← large, h.small]
      decide
  · exact h

theorem Evolves.data {fs : List (BitVec 64)} {s' : Phys} (h : Evolves v t fs s s') (hdata : Data s.mem s.cr3 f)
    (hf : f ∉ fs) : Data s'.mem s'.cr3 f := by
  intro w d hd hw ht
  rcases h.tables w d f hd hw ht with ht | ht
  · exact hdata w d hd hw ht
  · exact hf ht.1

theorem ne_slot_of_page {a : BitVec 64} {n : ℕ} (hf : Physical f) (hg : Physical g) (hne : g ≠ f)
    (ha : a.toNat / 4096 = f.toNat / 4096) : a ≠ slot g n v := by
  rintro rfl
  rw [(slot_page hg n v).1] at ha
  exact hne (physical_inj hg hf ha)

theorem Evolves.contents {fs : List (BitVec 64)} {s' : Phys} {a : BitVec 64} (h : Evolves v t fs s s')
    (htree : Tree s.mem s.cr3) (htree' : Tree s'.mem s'.cr3) (hv : Plain v) (hw : s.Window t) (hf : Physical f)
    (hdata : Data s.mem s.cr3 f) (hfs : ∀ g ∈ fs, Physical g ∧ g ≠ f) (ha : a.toNat / 4096 = f.toNat / 4096) :
    s'.mem a = s.mem a := by
  have hdata' : Data s'.mem s'.cr3 f := h.data hdata fun hin => (hfs f hin).2 rfl
  apply h.mem
  · intro g hg hpage
    exact (hfs g hg).2 (physical_inj (hfs g hg).1 hf (hpage.symm.trans ha))
  · intro d hd g hg
    exact ne_slot_of_page hf (table_physical htree' hg) (fun he => hdata' v d hd hv (he ▸ hg)) ha
  · exact ne_slot_of_page hf (table_physical htree hw.table) (fun he => hdata _ 3 le_rfl hw.plain (he ▸ hw.table)) ha

/-- `map_page` after the blocks that make the tables, where the leaf is absent. -/
theorem mapPage_stores {s₁ : Phys} (htables : needTables v (Mach.highFlags flags) s = .ok () s₁) (h : Tree s₁.mem s₁.cr3)
    (hv : Plain v) (hg : table s₁.mem s₁.cr3 v 3 = some g) (hnone : table s₁.mem s₁.cr3 v 4 = none) (paddr : BitVec 64) :
    mapPage paddr v flags s = .ok () { s₁ with
      mem := Function.update s₁.mem (slot g (shift 3) v) (paddr ||| flags)
      log := .wrote (paddr ||| flags) :: s₁.log } := by
  have hentry := h.reach_ref (d := 3) hv le_rfl hg
  have habsent : isPresent (s₁.mem (slot g (shift 3) v)) = false := by
    rw [isPresent_eq]
    exact absent_of_table hg hnone
  rw [mapPage, bind_ok htables]
  refine (bind_ok (load_ok hentry)).trans ?_
  rw [habsent, if_neg (by decide)]
  exact storeEntry_ok hentry _

theorem mapPage_releases {paddr : BitVec 64} (hr : s.Ready t l) (hv : Plain v) (hflags : UpperFlags flags)
    (hleaf : table s.mem s.cr3 v 4 = some f) :
    mapPage paddr v flags s = .ok () { s with pmap := (s.pmap.releasePage paddr).2 } := by
  obtain ⟨g, hg⟩ := table_some hleaf (show 3 ≤ 4 by decide)
  have hroom : Room v 0 l s := fun k _ hk hnone => by
    rw [table_none hnone (by omega)] at hleaf
    cases hleaf
  obtain ⟨s₁, _, hs₁, he, _⟩ := needTables_ok hr hv hflags.high hroom
  obtain rfl := he.idle ⟨g, hg⟩
  have hpresent : isPresent (s₁.mem (slot g (shift 3) v)) = true := by
    rw [isPresent_eq]
    rw [table_succ hg] at hleaf
    split at hleaf
    · assumption
    · cases hleaf
  rw [mapPage, bind_ok hs₁]
  refine (bind_ok (load_ok (hr.tree.reach_ref (d := 3) hv le_rfl hg))).trans ?_
  rw [if_pos hpresent]
  rfl

structure MapsPage (paddr v flags : BitVec 64) (s s' : Phys) : Prop where
  mapped : table s.mem s.cr3 v 4 = none → walk s'.mem s'.cr3 v = some (paddr + (v &&& 0xFFF)) ∧
    ∃ g, table s'.mem s'.cr3 v 3 = some g ∧ s'.mem (slot g 12 v) = paddr ||| flags
  kept : table s.mem s.cr3 v 4 ≠ none → s' = { s with pmap := (s.pmap.releasePage paddr).2 }
  pages : ∀ w, Plain w → ¬ Same 4 v w → ¬ Same 4 s.temp w → walk s'.mem s'.cr3 w = walk s.mem s.cr3 w
  contents : ∀ w f, Plain w → ¬ Same 4 v w → ¬ Same 4 s.temp w → table s.mem s.cr3 w 4 = some f →
    Data s.mem s.cr3 f → ∀ a, a.toNat / 4096 = f.toNat / 4096 → s'.mem a = s.mem a
  fresh : ∀ d < 3, table s.mem s.cr3 v (d + 1) = none → ∃ g, table s'.mem s'.cr3 v (d + 1) = some g ∧
    ∀ i : BitVec 64, i.toNat < 512 → i ≠ index (shift (d + 1)) v → s'.mem (g + 8 * i) = 0

theorem mapPage_maps {paddr : BitVec 64} (hr : s.Ready t l) (hv : Plain v) (hc : canonical v = true)
    (htemp : ¬ Same 4 s.temp v) (hp : Physical paddr) (hflags : UpperFlags flags) (hroom : Room v 0 l s) :
    ∃ s', mapPage paddr v flags s = .ok () s' ∧ MapsPage paddr v flags s s' := by
  cases hleaf : table s.mem s.cr3 v 4 with
  | some f =>
    refine ⟨_, mapPage_releases hr hv hflags hleaf, fun hnone => ?_, fun _ => rfl, fun _ _ _ _ => rfl,
      fun _ _ _ _ _ _ _ _ _ => rfl, fun d hd hnone => ?_⟩
    · rw [hleaf] at hnone
      cases hnone
    · rw [table_none hnone (by omega)] at hleaf
      cases hleaf
  | none =>
    obtain ⟨s₁, _, hs₁, he, _⟩ := needTables_ok hr hv hflags.high hroom
    obtain ⟨l₁, hr₁⟩ := he.ready
    obtain ⟨g, hg⟩ := he.reached
    obtain ⟨fs, hev, hfs⟩ := he.evolves
    have hrun := mapPage_stores hs₁ hr₁.tree hv hg ((hev.pages v hv htemp).trans hleaf) paddr
    have hphys := table_physical hr₁.tree hg
    have htree := hr₁.tree.update_leaf hv hg (paddr ||| flags)
    obtain ⟨hpresent, hframe, _⟩ := hflags.entry hp
    refine ⟨_, hrun, fun _ => ⟨?_, g, ?_, Function.update_self ..⟩, fun hne => absurd hleaf hne, ?_, ?_, ?_⟩
    · dsimp only
      rw [htree.walk_eq hv, if_pos hc, hr₁.tree.table_leaf hv hg (fun _ _ => rfl), if_pos hpresent, hframe]
      rfl
    · exact (hr₁.tree.table_update le_rfl hv hg hv (by decide) (.inr le_rfl) _).trans hg
    · intro w hw hne hne'
      dsimp only
      rw [htree.walk_eq hw, hr.tree.walk_eq hw, hr₁.tree.table_update le_rfl hv hg hw le_rfl (.inl hne), hev.pages w hw hne']
    · intro w f hw hne hne' hf hdata a ha
      have hfs' : ∀ k ∈ fs, Physical k ∧ k ≠ f := by
        intro k hk
        obtain ⟨j, hj, rfl⟩ := hfs k hk
        exact ⟨hr.physical j hj, fun heq => hr.unused j hj w 4 le_rfl hw (heq ▸ hf)⟩
      have hdata₁ := hev.data hdata fun hin => (hfs' f hin).2 rfl
      have hpf := table_physical hr.tree hf
      dsimp only
      rw [Function.update_of_ne (ne_slot_of_page hpf hphys (fun heq => hdata₁ v 3 le_rfl hv (heq ▸ hg)) ha)]
      exact hev.contents hr.tree hr₁.tree hv hr.window hpf hdata hfs' ha
    · intro d hd hnone
      obtain ⟨k, hk⟩ := table_some hg (show d + 1 ≤ 3 from hd)
      refine ⟨k, (hr₁.tree.table_update le_rfl hv hg hv (by omega) (.inr hd) _).trans hk, fun i hi hne => ?_⟩
      dsimp only
      rw [Function.update_of_ne, he.fresh d (Nat.zero_le d) hd hnone k hk i hi hne]
      -- the leaf is on the path of `v`, in the table at depth 3
      intro hslot
      rw [← slot_word hi] at hslot
      obtain ⟨rfl, hindex⟩ := slot_inj (table_physical hr₁.tree hk) hphys hslot
      obtain ⟨hdepth, _⟩ := hr₁.tree.apart v v _ _ _ hd le_rfl hv hv hk hg
      obtain rfl : d = 2 := by omega
      exact hne (by rw [← hindex, index_small hi])

end Need

def smallTables (a : BitVec 64) : BitVec 64 :=
  if a = 0x1FF0 then 0x1003
  else if a = 0x1FF8 then 0x2003
  else if a = 0x2FF0 then 0x3003
  else if a = 0x3008 then 0x4003
  else if a = 0x4020 then 0x4003
  else 0

def smallPath : ℕ → BitVec 64
  | 0 => 511
  | 1 => 510
  | _ => 1

def small : Phys where
  mem := smallTables
  cr3 := 0x1000
  pmap := { desc := fun i => ⟨0x10000 + 4096 * BitVec.ofNat 64 i, 0, if i < 2 then some (i + 1) else none⟩
            entryCount := 3
            head := some 0 }
  temp := 0xFFFFFFFF80220000
  free := 0xFFFFFFFF80221000
  initPml4 := 0xFFFFFFFF80201000
  log := []

theorem small_line : Line smallTables (fun d => 0x1000 + 0x1000 * BitVec.ofNat 64 d) smallPath := by
  have habsent : ∀ d < 3, ∀ n < 512, (d = 0 → BitVec.ofNat 64 n ≠ 510) → BitVec.ofNat 64 n ≠ smallPath d →
      present (smallTables (0x1000 + 0x1000 * BitVec.ofNat 64 d + 8 * BitVec.ofNat 64 n)) = false := by
    decide +kernel
  refine ⟨?_, by decide, by decide, by decide, fun d hd j hj hself hne => ?_⟩
  · simp only [Physical]
    decide
  · have := habsent d hd j.toNat hj
    rw [BitVec.ofNat_toNat, BitVec.setWidth_eq] at this
    exact this hself hne

theorem small_ready_of {p : PMap} {l : List ℕ} (hd : p.Distinct) (hf : p.Free l)
    (hbase : ∀ j ∈ l, Physical (p.desc j).base ∧ ∀ d ≤ 3, (p.desc j).base ≠ 0x1000 + 0x1000 * BitVec.ofNat 64 d) :
    Ready { small with pmap := p } 0x4000 l := by
  have hleaf : ∀ n < 512, smallTables (0x4000 + 8 * BitVec.ofNat 64 n) ∈ [0, 0x4003#64] := by decide +kernel
  have hwindow : small.Window 0x4000 := ⟨by decide, by decide, by decide, small_line.table_eq le_rfl (by decide)⟩
  refine ⟨small_line.tree, ⟨hwindow.plain, hwindow.canonical, hwindow.aligned, hwindow.table⟩, hd, hf,
    fun j hj => (hbase j hj).1, fun j hj v d hd hv ht => ?_⟩
  rcases Nat.lt_or_eq_of_le hd with hlt | rfl
  · exact (hbase j hj).2 d (by omega) (small_line.of_table hv (by omega) ht).1
  · obtain ⟨t, ht'⟩ := table_some ht (show 3 ≤ 4 by decide)
    obtain ⟨rfl, _⟩ := small_line.of_table hv le_rfl ht'
    rw [table_succ ht'] at ht
    have hword := hleaf _ (index_lt (shift 3) v)
    rw [BitVec.ofNat_toNat, BitVec.setWidth_eq, List.mem_pair] at hword
    change (if present (smallTables (0x4000 + 8 * index (shift 3) v)) then
      some (frame (smallTables (0x4000 + 8 * index (shift 3) v))) else none) = _ at ht
    rcases hword with hword | hword
    · rw [hword] at ht
      cases ht
    · rw [hword] at ht
      exact (hbase j hj).2 3 le_rfl (Option.some.inj ht).symm

theorem small_ready : small.Ready 0x4000 [0, 1, 2] := by
  refine small_ready_of (p := small.pmap) ?_ ⟨⟨rfl, rfl, rfl, rfl⟩, fun j => ?_⟩ (by decide)
  · change ∀ i < 3, ∀ j < 3, _
    decide
  · change j ∈ [0, 1, 2] ↔ j < 3 ∧ 0 = 0
    simp
    omega

theorem mapPage_maps_small : small.Ready 0x4000 [0, 1, 2] ∧
    ∃ s', mapPage 0x9000 0x400000 (pageP ||| pageRW ||| pageU) small = .ok () s' ∧
      MapsPage 0x9000 0x400000 (pageP ||| pageRW ||| pageU) small s' :=
  ⟨small_ready, mapPage_maps small_ready (by decide) (by decide) (by decide) (by decide)
    ⟨by decide, by decide, by decide⟩ fun k _ _ _ => by simp only [List.length_cons, List.length_nil]; omega⟩

theorem mapPage_changes_table_page : small.Ready 0x4000 [0, 1, 2] ∧
    ∃ s', mapPage 0x9000 0xFFFFFFFF80210000 (pageP ||| pageRW) small = .ok () s' ∧
      Plain 0xFFFFFFFF80204080 ∧ ¬ Same 4 0xFFFFFFFF80210000 0xFFFFFFFF80204080 ∧
      ¬ Same 4 small.temp 0xFFFFFFFF80204080 ∧ walk small.mem small.cr3 0xFFFFFFFF80204080 = some 0x4080 ∧
      walk s'.mem s'.cr3 0xFFFFFFFF80204080 = some 0x4080 ∧ small.mem 0x4080 = 0 ∧ s'.mem 0x4080 = 0x9003 := by
  have hrun : (match mapPage 0x9000 0xFFFFFFFF80210000 (pageP ||| pageRW) small with
      | .ok _ s' => decide (walk s'.mem s'.cr3 0xFFFFFFFF80204080 = some 0x4080 ∧ s'.mem 0x4080 = 0x9003)
      | .error _ _ => false) = true := by
    decide +kernel
  refine ⟨small_ready, ?_⟩
  split at hrun
  · exact ⟨_, ‹_›, by decide, by decide, by decide, by decide, (of_decide_eq_true hrun).1, by decide,
      (of_decide_eq_true hrun).2⟩
  · cases hrun

end Phys

end Os506
