import Os506.Memory.Kmalloc

namespace Os506

open Pging Mmu Run

open PMap (Physical)

namespace Phys

variable {s s' : Phys} {v w p q f t g : BitVec 64} {l l' : List ℕ} {j k n : ℕ}

theorem masked_toNat (hf : Physical f) : ((f ||| (pageP ||| pageRW)) &&& paMask).toNat = f.toNat % 2 ^ 48 := by
  have hsplit : paMask = 0x000FFFFFFFFFF000#64 &&& 0xFFFFFFFFFFFF#64 := by decide
  have hflags : (f ||| (pageP ||| pageRW)) &&& 0x000FFFFFFFFFF000#64 = f := or_and_high hf (by decide) (by decide)
  rw [hsplit, ← BitVec.and_assoc, hflags]
  exact Nat.and_two_pow_sub_one_eq_mod _ 48

theorem masked_eq_iff (hf : Physical f) : (f ||| (pageP ||| pageRW)) &&& paMask = f ↔ f.toNat < 2 ^ 48 := by
  constructor
  · intro h
    rw [← h, masked_toNat hf]
    exact Nat.mod_lt _ (by decide)
  · intro h
    apply BitVec.eq_of_toNat_eq
    rw [masked_toNat hf, Nat.mod_eq_of_lt h]

theorem kfree_run (h : Tree s.mem s.cr3) (hp : Plain p) (hz : p ≠ 0) (hg : table s.mem s.cr3 p 3 = some g) :
    kfree p s = .ok () { s with
      pmap := (s.pmap.releasePage (s.mem (slot g (shift 3) p) &&& paMask)).2
      mem := Function.update s.mem (slot g (shift 3) p) 0
      log := .wrote 0 :: s.log } := by
  have hentry := h.reach_ref (d := 3) hp le_rfl hg
  have hrelease : ∀ x, releasePage x s = .ok () { s with pmap := (s.pmap.releasePage x).2 } := fun _ => rfl
  have hstore : ∀ pm : PMap, storeEntry (getPhys p) 0 { s with pmap := pm } = .ok () { s with
      pmap := pm, mem := Function.update s.mem (slot g (shift 3) p) 0, log := .wrote 0 :: s.log } :=
    fun pm => storeEntry_ok (s := { s with pmap := pm }) hentry 0
  rw [kfree, if_pos hz]
  refine (bind_ok (load_ok hentry)).trans ?_
  rw [bind_ok (hrelease _)]
  exact hstore _

structure Frees (p t : BitVec 64) (k : ℕ) (l : List ℕ) (s s' : Phys) : Prop where
  ready : s'.Ready t (k :: l)
  base : ∀ i, (s'.pmap.desc i).base = (s.pmap.desc i).base
  entryCount : s'.pmap.entryCount = s.pmap.entryCount
  temp : s'.temp = s.temp
  free : s'.free = s.free
  gone : ∀ w, Same 4 p w → table s'.mem s'.cr3 w 4 = none
  tables : ∀ w d, d ≤ 3 → Plain w → table s'.mem s'.cr3 w d = table s.mem s.cr3 w d
  pages : ∀ w, Plain w → ¬ Same 4 p w → table s'.mem s'.cr3 w 4 = table s.mem s.cr3 w 4
  keeps : ∀ q f, Plain q → ¬ Same 4 p q → Backed s q f →
    Backed s' q f ∧ ∀ a, a.toNat / 4096 = f.toNat / 4096 → s'.mem a = s.mem a

theorem kfree_ok (hr : s.Ready t l) (hp : Plain p) (hz : p ≠ 0) (hb : Backed s p f) (hf : f.toNat < 2 ^ 48) :
    ∃ s' k, kfree p s = .ok () s' ∧ (s.pmap.desc k).base = f ∧ Frees p t k l s s' := by
  obtain ⟨g, hg, hentry⟩ := hb.entry
  obtain ⟨k, hk, rfl, hone⟩ := hb.desc
  obtain ⟨pm, hpm, hfree, htouch⟩ :=
    PMap.releasePage_last hr.freelist (PMap.walkList_base hr.distinct hk) hone
  have htree := hr.tree
  have hrun := kfree_run htree hp hz hg
  rw [hentry, (masked_eq_iff hb.physical).mpr hf, hpm] at hrun
  have hupper : ∀ w d, d ≤ 3 → Plain w →
      table (Function.update s.mem (slot g (shift 3) p) 0) s.cr3 w d = table s.mem s.cr3 w d :=
    fun w d hd hw => htree.table_update le_rfl hp hg hw (by omega) (.inr hd) 0
  have hother : ∀ w, Plain w → ¬ Same 4 p w →
      table (Function.update s.mem (slot g (shift 3) p) 0) s.cr3 w 4 = table s.mem s.cr3 w 4 :=
    fun w hw hne => htree.table_update le_rfl hp hg hw le_rfl (.inl hne) 0
  have hgone : ∀ w, Same 4 p w → table (Function.update s.mem (slot g (shift 3) p) 0) s.cr3 w 4 = none :=
    fun w hs => (htree.table_leaf hp hg hs 0).trans (if_neg (by decide))
  have hold : ∀ w e, Plain w → table (Function.update s.mem (slot g (shift 3) p) 0) s.cr3 w 4 = some e →
      ¬ Same 4 p w ∧ table s.mem s.cr3 w 4 = some e := fun w e hw he => by
    by_cases hs : Same 4 p w
    · rw [hgone w hs] at he
      cases he
    · exact ⟨hs, hother w hw hs ▸ he⟩
  have hwin := hr.window
  refine ⟨_, k, hrun, rfl, ⟨htree.update_leaf hp hg 0, ⟨hwin.plain, hwin.canonical, hwin.aligned, ?_⟩,
    htouch.distinct hr.distinct, hfree, fun i hi => ?_, fun i hi w d hd hw ht => ?_⟩, htouch.base, htouch.entryCount,
    rfl, rfl, hgone,
    hupper,
    hother, fun q e hq hne hbq => ⟨?_, fun a ha => ?_⟩⟩
  · exact (hupper _ 3 le_rfl hwin.plain).trans hwin.table
  · dsimp only
    rw [htouch.base]
    rcases List.mem_cons.mp hi with rfl | hi
    · exact hb.physical
    · exact hr.physical i hi
  · dsimp only at ht
    rw [htouch.base] at ht
    rcases Nat.lt_or_eq_of_le hd with hlt | rfl
    · rw [hupper w d (by omega) hw] at ht
      rcases List.mem_cons.mp hi with rfl | hi
      · exact hb.data w d (by omega) hw ht
      · exact hr.unused i hi w d hd hw ht
    · obtain ⟨hne, ht⟩ := hold w _ hw ht
      rcases List.mem_cons.mp hi with rfl | hi
      · exact hne (hb.only w hw ht)
      · exact hr.unused i hi w 4 le_rfl hw ht
  · refine hbq.keep (fun g' hg' => ⟨(hupper q 3 le_rfl hq).trans hg', ?_⟩) ?_ (fun w hw ht => (hold w e hw ht).2)
      htouch.entryCount fun i hi _ => ?_
    · exact Function.update_of_ne (fun he => hne (htree.slot_inj le_rfl le_rfl hq hp hg' hg he).2.symm) _ _
    · exact fun w d hd hw => (hupper w d hd hw).symm ▸ hbq.data w d hd hw
    · apply htouch.other
      rintro rfl
      exact hne (hb.only q hq (hi ▸ hbq.page))
  · exact Function.update_of_ne (ne_slot_of_page hbq.physical (table_physical htree hg)
      (fun he => hbq.data p 3 le_rfl hp (he ▸ hg)) ha) _ _

theorem kfree_loses (hr : s.Ready t l) (hp : Plain p) (hz : p ≠ 0) (hb : Backed s p f) (hf : 2 ^ 48 ≤ f.toNat) :
    ∃ s', kfree p s = .ok () s' ∧ ∀ l', s'.pmap.Free l' → ∀ k ∈ l', (s'.pmap.desc k).base ≠ f := by
  obtain ⟨g, hg, hentry⟩ := hb.entry
  obtain ⟨k, hk, hbase, hone⟩ := hb.desc
  have hrun := kfree_run hr.tree hp hz hg
  rw [hentry] at hrun
  refine ⟨_, hrun, fun l' hl' i hi he => ?_⟩
  obtain ⟨hlt, hzero⟩ := (hl'.mem i).mp hi
  dsimp only at hlt hzero he
  -- the count of the frame has not changed, since the one released has another base
  have hsame : ∀ pm : PMap, pm.entryCount = s.pmap.entryCount → (∀ j, (pm.desc j).base = (s.pmap.desc j).base) →
      pm.desc k = s.pmap.desc k → i < pm.entryCount → (pm.desc i).base = f → (pm.desc i).mapCount ≠ 0 := by
    intro pm hcount hbases hkeep hi hif hz
    obtain rfl : i = k := hr.distinct i (hcount ▸ hi) k hk ((hbases i).symm.trans (hif.trans hbase.symm))
    rw [hkeep, hone] at hz
    exact absurd hz (by decide)
  rcases PMap.releasePage_cases hr.freelist ((f ||| (pageP ||| pageRW)) &&& paMask) with heq | ⟨j, hj, ht⟩
  · rw [heq] at hlt hzero he
    exact hsame s.pmap rfl (fun _ => rfl) rfl hlt he hzero
  · have hkj : k ≠ j := by
      rintro rfl
      exact absurd ((masked_eq_iff hb.physical).mp (hj.symm.trans hbase)) (Nat.not_lt.mpr hf)
    exact hsame _ ht.entryCount ht.base (ht.other k hkj) hlt he hzero

def Supplied (s : Phys) : Prop :=
  1 ≤ s.pmap.avail ∧ ∀ k < 3, table s.mem s.cr3 s.free (k + 1) = none → 4 - k ≤ s.pmap.avail

theorem Supplied.split (h : s.Supplied) (hr : s.Ready t l) : ∃ j l', l = j :: l' ∧ Room s.free 0 l' s := by
  have hlen := hr.freelist.length_eq
  obtain ⟨hone, htables⟩ := h
  cases l with
  | nil =>
    rw [← hlen] at hone
    exact absurd hone (by decide)
  | cons j l =>
    refine ⟨j, l, rfl, fun k _ hk hn => ?_⟩
    have hroom := htables k hk hn
    rw [← hlen, List.length_cons] at hroom
    omega

end Phys

structure Heap where
  phys : Phys
  returned : List (BitVec 64)
  live : List (BitVec 64)

inductive HeapOp
  | kmalloc
  | kfree (p : BitVec 64)

namespace Heap

def step : HeapOp → Heap → Option Heap
  | .kmalloc, h => match Phys.kmalloc h.phys with
    | .ok v s => some ⟨s, v :: h.returned, v :: h.live⟩
    | .error _ _ => none
  | .kfree p, h => match Phys.kfree p h.phys with
    | .ok _ s => some ⟨s, h.returned, h.live.erase p⟩
    | .error _ _ => none

def Legal : HeapOp → Heap → Prop
  | .kmalloc, h => h.phys.Supplied
  | .kfree p, h => p ∈ h.live

/-- `kmalloc` returns a new aligned page of zeros; `kfree` unmaps the page, puts its frame on the free list and leaves
the other live pages as they are. -/
def Fine : HeapOp → Heap → Prop
  | .kmalloc, h => ∃ v s, Phys.kmalloc h.phys = .ok v s ∧ v &&& 0xFFF = 0 ∧ v ∉ h.returned ∧
      ∀ k < 512, ∃ a, walk s.mem s.cr3 (v + 8 * BitVec.ofNat 64 k) = some a ∧ s.mem a = 0
  | .kfree p, h => ∃ s, Phys.kfree p h.phys = .ok () s ∧ walk s.mem s.cr3 p = none ∧
      (∃ f l, table h.phys.mem h.phys.cr3 p 4 = some f ∧ s.pmap.Free l ∧ ∃ k ∈ l, (s.pmap.desc k).base = f) ∧
      ∀ q ∈ h.live, q ≠ p → ∀ k < 512, ∃ a, walk h.phys.mem h.phys.cr3 (q + 8 * BitVec.ofNat 64 k) = some a ∧
        walk s.mem s.cr3 (q + 8 * BitVec.ofNat 64 k) = some a ∧ s.mem a = h.phys.mem a

def Apart (h : Heap) : Prop :=
  ∀ p ∈ h.live, ∀ q ∈ h.live, p ≠ q → table h.phys.mem h.phys.cr3 p 4 ≠ table h.phys.mem h.phys.cr3 q 4

/-- The next address is canonical; what is freed is not the null pointer, and its frame lies below 2^48. -/
def Clean : HeapOp → Heap → Prop
  | .kmalloc, h => canonical h.phys.free = true
  | .kfree p, h => p ≠ 0 ∧ ∀ f, table h.phys.mem h.phys.cr3 p 4 = some f → f.toNat < 2 ^ 48

def Spot (first i : ℕ) (v : BitVec 64) : Prop :=
  first + 4096 * i = v.toNat ∨ first + 4096 * i = v.toNat + 2 ^ 64 ∧ v.toNat ≤ 2 ^ 47

def High (first : ℕ) : Prop := 0xFFFFFFFF80001000 ≤ first ∧ first % 4096 = 0

section Spots

variable {first i j : ℕ} {v w : BitVec 64}

theorem canonical_iff (v : BitVec 64) : canonical v = true ↔ v.toNat < 2 ^ 47 ∨ 2 ^ 64 - 2 ^ 47 ≤ v.toNat := by
  have hshift : (v >>> 47).toNat = v.toNat / 2 ^ 47 := by
    rw [BitVec.toNat_ushiftRight, Nat.shiftRight_eq_div_pow]
  have hlow : v >>> 47 = 0 ↔ v.toNat / 2 ^ 47 = 0 := by
    rw [← hshift]
    exact ⟨fun h => by rw [h]; rfl, fun h => BitVec.eq_of_toNat_eq h⟩
  have hhigh : v >>> 47 = 0x1FFFF ↔ v.toNat / 2 ^ 47 = 0x1FFFF := by
    rw [← hshift]
    exact ⟨fun h => by rw [h]; rfl, fun h => BitVec.eq_of_toNat_eq h⟩
  have := v.isLt
  rw [canonical, Bool.or_eq_true, decide_eq_true_eq, decide_eq_true_eq, hlow, hhigh]
  omega

theorem same_page (h : Same 4 v w) : v.toNat / 4096 % 2 ^ 36 = w.toNat / 4096 % 2 ^ 36 := by
  have hindex : ∀ k < 4, v.toNat / 2 ^ shift k % 512 = w.toNat / 2 ^ shift k % 512 := fun k hk => by
    rw [← index_toNat, ← index_toNat, h k hk]
  have h₀ := hindex 0 (by decide)
  have h₁ := hindex 1 (by decide)
  have h₂ := hindex 2 (by decide)
  have h₃ := hindex 3 (by decide)
  rw [shift_zero] at h₀
  rw [shift_one] at h₁
  rw [shift_two] at h₂
  rw [shift_three] at h₃
  omega

theorem Spot.aligned (h : Spot first i v) (hf : High first) : v &&& 0xFFF = 0 := by
  have hmod : (v &&& 0xFFF).toNat = v.toNat % 2 ^ 12 := Nat.and_two_pow_sub_one_eq_mod _ 12
  apply BitVec.eq_of_toNat_eq
  rw [hmod]
  change _ = 0
  have := hf.2
  rcases h with h | h
  · omega
  · omega

theorem Spot.plain (h : Spot first i v) (hf : High first) : Plain v := by
  intro he
  have hindex := congrArg BitVec.toNat he
  rw [index_toNat] at hindex
  change _ = 510 at hindex
  have := hf.1
  have := v.isLt
  rcases h with h | h
  · omega
  · omega

theorem Spot.inj (h : Spot first i v) (h' : Spot first j w) (hf : High first) (hs : Same 4 v w) : i = j := by
  have hpage := same_page hs
  have := hf.1
  have := v.isLt
  have := w.isLt
  rcases h with h | h
  · rcases h' with h' | h'
    · omega
    · omega
  · rcases h' with h' | h'
    · omega
    · omega

theorem Spot.unique (h : Spot first i v) (h' : Spot first i w) : v = w := by
  apply BitVec.eq_of_toNat_eq
  have := v.isLt
  have := w.isLt
  rcases h with h | h
  · rcases h' with h' | h'
    · omega
    · omega
  · rcases h' with h' | h'
    · omega
    · omega

theorem Spot.off_temp (h : Spot first i v) (hf : High first) (hw : w.toNat + 4096 = first) : ¬ Same 4 w v := by
  intro hs
  have hpage := same_page hs
  have := hf.1
  have := v.isLt
  rcases h with h | h
  · omega
  · omega

theorem Spot.next (h : Spot first i v) (hf : High first) (hc : canonical v = true) : Spot first (i + 1) (v + 4096) := by
  have hlt := v.isLt
  have := hf.2
  have hsum : (v + 4096).toNat = (v.toNat + 4096) % 2 ^ 64 := BitVec.toNat_add v 4096
  rw [canonical_iff] at hc
  rw [Spot, hsum]
  rcases h with h | h
  · by_cases hend : v.toNat + 4096 < 2 ^ 64
    · exact .inl (by omega)
    · exact .inr (by omega)
  · exact .inr (by omega)

end Spots

structure Sound (first : ℕ) (t : BitVec 64) (h : Heap) : Prop where
  ready : ∃ l, h.phys.Ready t l
  window : h.phys.temp.toNat + 4096 = first
  temp : table h.phys.mem h.phys.cr3 h.phys.temp 4 = none
  next : Spot first h.returned.length h.phys.free
  ahead : ∀ i v, h.returned.length ≤ i → Spot first i v → table h.phys.mem h.phys.cr3 v 4 = none
  returned : ∀ v ∈ h.returned, ∃ i < h.returned.length, Spot first i v
  live : ∀ p ∈ h.live, p ∈ h.returned ∧ canonical p = true ∧ ∃ f, h.phys.Backed p f
  nodup : h.live.Nodup

variable {first : ℕ} {t p : BitVec 64} {h h' : Heap} {op : HeapOp}

theorem Sound.spot (hs : Sound first t h) (hp : p ∈ h.live) : ∃ i < h.returned.length, Spot first i p :=
  hs.returned p (hs.live p hp).1

theorem Sound.distinct {q : BitVec 64} (hs : Sound first t h) (hf : High first) (hp : p ∈ h.live) (hq : q ∈ h.live)
    (hsame : Same 4 p q) : p = q := by
  obtain ⟨i, _, hi⟩ := hs.spot hp
  obtain ⟨j, _, hj⟩ := hs.spot hq
  obtain rfl := hi.inj hj hf hsame
  exact hi.unique hj

theorem Sound.apart (hs : Sound first t h) (hf : High first) : Apart h := by
  intro p hp q hq hne he
  obtain ⟨_, _, f, hb⟩ := hs.live p hp
  obtain ⟨i, _, hi⟩ := hs.spot hq
  rw [hb.page] at he
  exact hne (hs.distinct hf hp hq (hb.only q (hi.plain hf) he.symm))

section Kmalloc

variable (hs : Sound first t h) (hf : High first) (hl : h.phys.Supplied)

include hs hf hl

theorem Sound.kmalloc (hc : canonical h.phys.free = true) :
    ∃ s j l l', Phys.kmalloc h.phys = .ok h.phys.free s ∧ h.phys.Ready t (j :: l) ∧ Phys.Allocates t j l l' h.phys s ∧
      Sound first t ⟨s, h.phys.free :: h.returned, h.phys.free :: h.live⟩ := by
  obtain ⟨l, hr⟩ := hs.ready
  obtain ⟨j, l, rfl, hroom⟩ := hl.split hr
  have hplain := hs.next.plain hf
  obtain ⟨s, l', hrun, ha⟩ := Phys.kmalloc_ok hr hplain hc (hs.next.aligned hf) (hs.next.off_temp hf hs.window)
    (hs.ahead _ _ le_rfl hs.next) hs.temp hroom
  have hother : ∀ i v, i ≠ h.returned.length → Spot first i v → ¬ Same 4 h.phys.free v :=
    fun i v hi hv hsame => hi (hs.next.inj hv hf hsame).symm
  refine ⟨s, j, l, l', hrun, hr, ha, ⟨l', ha.ready⟩, ?_, ha.temp, ?_, fun i v hi hv => ?_, fun v hv => ?_, fun p hp => ?_, ?_⟩
  · rw [ha.window]
    exact hs.window
  · rw [ha.free]
    exact hs.next.next hf hc
  · rw [List.length_cons] at hi
    rw [ha.pages v (hv.plain hf) (hother i v (by omega) hv) (hv.off_temp hf hs.window)]
    exact hs.ahead i v (by omega) hv
  · rcases List.mem_cons.mp hv with rfl | hv
    · exact ⟨_, Nat.lt_succ_self _, hs.next⟩
    · obtain ⟨i, hi, hspot⟩ := hs.returned v hv
      exact ⟨i, Nat.lt_succ_of_lt hi, hspot⟩
  · rcases List.mem_cons.mp hp with rfl | hp
    · exact ⟨List.mem_cons_self, hc, _, ha.backed⟩
    · obtain ⟨hin, hcp, f, hb⟩ := hs.live p hp
      obtain ⟨i, hi, hspot⟩ := hs.spot hp
      refine ⟨List.mem_cons_of_mem _ hin, hcp, f, ?_⟩
      exact (ha.keeps p f (hspot.plain hf) (hother i p (by omega) hspot) (hspot.off_temp hf hs.window) hb).1
  · refine List.nodup_cons.mpr ⟨fun hp => ?_, hs.nodup⟩
    obtain ⟨i, hi, hspot⟩ := hs.spot hp
    exact hother i _ (by omega) hspot fun _ _ => rfl

theorem Sound.fine_kmalloc : Fine .kmalloc h ↔ Clean .kmalloc h := by
  constructor
  · rintro ⟨v, s, hrun, _⟩
    by_contra hc
    obtain ⟨l, hr⟩ := hs.ready
    obtain ⟨j, l, rfl, hroom⟩ := hl.split hr
    obtain ⟨s', hs'⟩ := Phys.kmalloc_faults hr (hs.next.plain hf) (Bool.eq_false_iff.mpr hc)
      (hs.next.off_temp hf hs.window) (hs.ahead _ _ le_rfl hs.next) hroom
    rw [hrun] at hs'
    cases hs'
  · intro hc
    obtain ⟨s, j, l, l', hrun, hr, ha, hs'⟩ := hs.kmalloc hf hl hc
    have haligned := hs.next.aligned hf
    refine ⟨_, s, hrun, haligned, fun hin => ?_, fun k hk => ?_⟩
    · obtain ⟨i, hi, hspot⟩ := hs.returned _ hin
      exact absurd (hs.next.inj hspot hf fun _ _ => rfl) (by omega)
    · obtain ⟨hpage, hword⟩ := word_page ha.backed.physical hk
      exact ⟨_, ha.ready.tree.walk_word (hs.next.plain hf) hc haligned hk ha.backed.page, ha.zero _ hpage hword⟩

end Kmalloc

section Kfree

variable {f : BitVec 64} (hs : Sound first t h) (hf : High first) (hp : p ∈ h.live)

include hs hf hp

theorem Sound.kfree (hz : p ≠ 0) (hb : h.phys.Backed p f) (hlow : f.toNat < 2 ^ 48) :
    ∃ s k l, Phys.kfree p h.phys = .ok () s ∧ h.phys.Ready t l ∧ (h.phys.pmap.desc k).base = f ∧
      Phys.Frees p t k l h.phys s ∧ Sound first t ⟨s, h.returned, h.live.erase p⟩ := by
  obtain ⟨l, hr⟩ := hs.ready
  obtain ⟨i, hi, hspot⟩ := hs.spot hp
  have hplain := hspot.plain hf
  obtain ⟨s, k, hrun, hk, hfr⟩ := Phys.kfree_ok hr hplain hz hb hlow
  refine ⟨s, k, l, hrun, hr, hk, hfr, ⟨_, hfr.ready⟩, ?_, ?_, ?_, fun j v hj hv => ?_, hs.returned,
    fun q hq => ?_, hs.nodup.erase p⟩
  · rw [hfr.temp]
    exact hs.window
  · rw [hfr.temp, hfr.pages _ hr.window.plain fun hsame => hspot.off_temp hf hs.window hsame.symm]
    exact hs.temp
  · rw [hfr.free]
    exact hs.next
  · change h.returned.length ≤ j at hj
    have hne : ¬ Same 4 p v := fun hsame => absurd (hspot.inj hv hf hsame) (by omega)
    rw [hfr.pages v (hv.plain hf) hne]
    exact hs.ahead j v hj hv
  · obtain ⟨hne, hq⟩ := (List.Nodup.mem_erase_iff hs.nodup).mp hq
    obtain ⟨hin, hc, e, hbq⟩ := hs.live q hq
    obtain ⟨j, _, hj⟩ := hs.spot hq
    exact ⟨hin, hc, e, (hfr.keeps q e (hj.plain hf) (fun hsame => hne (hs.distinct hf hp hq hsame).symm) hbq).1⟩

theorem Sound.fine_kfree : Fine (.kfree p) h ↔ Clean (.kfree p) h := by
  obtain ⟨_, hc, f, hb⟩ := hs.live p hp
  obtain ⟨i, _, hspot⟩ := hs.spot hp
  obtain ⟨l, hr⟩ := hs.ready
  have hplain := hspot.plain hf
  constructor
  · rintro ⟨s, hrun, hwalk, ⟨e, l', he, hl', k, hk, hke⟩, _⟩
    obtain rfl : f = e := Option.some.inj (hb.page.symm.trans he)
    have hz : p ≠ 0 := by
      rintro rfl
      obtain rfl : h.phys = s := (EStateM.Result.ok.inj hrun).2
      rw [hr.tree.walk_eq hplain, hc, hb.page] at hwalk
      cases hwalk
    refine ⟨hz, fun e he' => ?_⟩
    obtain rfl : f = e := Option.some.inj (hb.page.symm.trans he')
    by_contra hhigh
    obtain ⟨s', hs', hlost⟩ := Phys.kfree_loses hr hplain hz hb (Nat.not_lt.mp hhigh)
    obtain rfl : s = s' := (EStateM.Result.ok.inj (hrun.symm.trans hs')).2
    exact hlost l' hl' k hk hke
  · rintro ⟨hz, hlow⟩
    obtain ⟨s, k, l, hrun, _, hk, hfr, _⟩ := hs.kfree hf hp hz hb (hlow f hb.page)
    refine ⟨s, hrun, ?_, ⟨f, _, hb.page, hfr.ready.freelist, k, List.mem_cons_self, (hfr.base k).trans hk⟩,
      fun q hq hne n hn => ?_⟩
    · rw [hfr.ready.tree.walk_eq hplain, hfr.gone p fun _ _ => rfl, if_pos hc]
      rfl
    · obtain ⟨_, hcq, e, hbq⟩ := hs.live q hq
      obtain ⟨j, _, hj⟩ := hs.spot hq
      obtain ⟨hbq', hsame⟩ :=
        hfr.keeps q e (hj.plain hf) (fun hsame => hne (hs.distinct hf hp hq hsame).symm) hbq
      exact ⟨_, hr.tree.walk_word (hj.plain hf) hcq (hj.aligned hf) hn hbq.page,
        hfr.ready.tree.walk_word (hj.plain hf) hcq (hj.aligned hf) hn hbq'.page, hsame _ (word_page hbq.physical hn).1⟩

end Kfree

theorem Sound.fine_iff (hs : Sound first t h) (hf : High first) (hl : Legal op h) : Fine op h ↔ Clean op h := by
  cases op with
  | kmalloc => exact hs.fine_kmalloc hf hl
  | kfree p => exact hs.fine_kfree hf hl

theorem Sound.step (hs : Sound first t h) (hf : High first) (hl : Legal op h) (hc : Clean op h)
    (hstep : Heap.step op h = some h') : Sound first t h' := by
  cases op with
  | kmalloc =>
    obtain ⟨s, _, _, _, hrun, _, _, hs'⟩ := hs.kmalloc hf hl hc
    rw [Heap.step, hrun] at hstep
    exact Option.some.inj hstep ▸ hs'
  | kfree p =>
    obtain ⟨_, _, f, hb⟩ := hs.live p hl
    obtain ⟨s, _, _, hrun, _, _, _, hs'⟩ := hs.kfree hf hl hc.1 hb (hc.2 f hb.page)
    rw [Heap.step, hrun] at hstep
    exact Option.some.inj hstep ▸ hs'

/-- Over a run that is legal, the heap behaves exactly as long as the addresses and the frames stay in bounds. -/
theorem Sound.run_iff (hs : Sound first t h) (hf : High first) {ops : List HeapOp} (hl : Meets Heap.step Legal h ops) :
    (Along Heap.step Apart h ops ∧ Meets Heap.step Fine h ops) ↔ Meets Heap.step Clean h ops := by
  induction ops generalizing h with
  | nil => exact iff_of_true ⟨hs.apart hf, trivial⟩ trivial
  | cons op ops ih =>
    have hiff := hs.fine_iff hf hl.1
    constructor
    · rintro ⟨⟨_, hapart⟩, hfine, hrest⟩
      have hc := hiff.mp hfine
      exact ⟨hc, fun h' hh' => (ih (hs.step hf hl.1 hc hh') (hl.2 h' hh')).mp ⟨hapart h' hh', hrest h' hh'⟩⟩
    · rintro ⟨hc, hrest⟩
      have hnext := fun h' hh' => (ih (hs.step hf hl.1 hc hh') (hl.2 h' hh')).mpr (hrest h' hh')
      exact ⟨⟨hs.apart hf, fun h' hh' => (hnext h' hh').1⟩, hiff.mpr hc, fun h' hh' => (hnext h' hh').2⟩

theorem same_three {v : BitVec 64} (hv : v.toNat % 4096 = 0) (hmid : (v.toNat + 4096) % 2 ^ 21 ≠ 0) :
    Same 3 (v + 4096) v := by
  have hlt := v.isLt
  have hsum : (v + 4096).toNat = v.toNat + 4096 := by
    rw [BitVec.toNat_add]
    change (_ + 4096) % _ = _
    omega
  intro d hd
  apply BitVec.eq_of_toNat_eq
  rw [index_toNat, index_toNat, hsum]
  match d, hd with
  | 0, _ =>
    rw [shift_zero]
    omega
  | 1, _ =>
    rw [shift_one]
    omega
  | 2, _ =>
    rw [shift_two]
    omega

def churn (first : ℕ) : ℕ → ℕ → List HeapOp
  | _, 0 => []
  | i, n + 1 => .kmalloc :: .kfree (BitVec.ofNat 64 (first + 4096 * i)) :: churn first (i + 1) n

/-- The heap after `i` such rounds, of `room` frames: a new table is needed only where a page starts a range of 2 MB. -/
structure Churned (first room : ℕ) (t : BitVec 64) (i : ℕ) (h : Heap) : Prop where
  sound : Sound first t h
  count : h.returned.length = i
  live : h.live = []
  low : ∀ k < h.phys.pmap.entryCount, (h.phys.pmap.desc k).base.toNat < 2 ^ 48
  table : (first + 4096 * i) % 2 ^ 21 ≠ 0 → ∃ g, Mmu.table h.phys.mem h.phys.cr3 h.phys.free 3 = some g
  room : room + 3 * ((first - 1) / 2 ^ 21) ≤ h.phys.pmap.avail + 3 * ((first + 4096 * i - 1) / 2 ^ 21)

section Churn

variable {room i n : ℕ} (hc : Churned first room t i h) (hf : High first) (hroom : 3076 ≤ room)

include hc hf hroom

theorem Churned.supplied (hend : first + 4096 * i ≤ 2 ^ 64) : h.phys.Supplied := by
  have hcount := hc.room
  have hhigh := hf.1
  exact ⟨by omega, fun k _ _ => by omega⟩

theorem Churned.round (hend : first + 4096 * i < 2 ^ 64) : ∃ h₁ h₂, Heap.step .kmalloc h = some h₁ ∧
    Heap.step (.kfree (BitVec.ofNat 64 (first + 4096 * i))) h₁ = some h₂ ∧ Clean .kmalloc h ∧
    Legal (.kfree (BitVec.ofNat 64 (first + 4096 * i))) h₁ ∧ Clean (.kfree (BitVec.ofNat 64 (first + 4096 * i))) h₁ ∧
    Churned first room t (i + 1) h₂ := by
  have hhigh := hf.1
  have haligned := hf.2
  have hspot := hc.sound.next
  rw [hc.count] at hspot
  have hnat : h.phys.free.toNat = first + 4096 * i := by
    rcases hspot with he | he
    · exact he.symm
    · omega
  have hfree : BitVec.ofNat 64 (first + 4096 * i) = h.phys.free := by rw [← hnat, BitVec.ofNat_toNat, BitVec.setWidth_eq]
  rw [hfree]
  have hcanon : canonical h.phys.free = true := by
    rw [canonical_iff]
    omega
  have hz : h.phys.free ≠ 0 := by
    intro he
    rw [he] at hnat
    change 0 = _ at hnat
    omega
  obtain ⟨s, j, l, l', hrun, hr, ha, hs⟩ := hc.sound.kmalloc hf (hc.supplied hf hroom hend.le) hcanon
  have hlow := hc.low j ((hr.freelist.mem j).mp List.mem_cons_self).1
  obtain ⟨s₂, k, l₂, hrun₂, hr₂, _, hfr, hs₂⟩ := hs.kfree hf List.mem_cons_self hz ha.backed hlow
  have hlen := hr.freelist.length_eq
  have hlen' := ha.ready.freelist.length_eq
  have hlen₂ := hr₂.freelist.length_eq
  have hlen₃ := hfr.ready.freelist.length_eq
  have hnext := hspot.next hf hcanon
  refine ⟨⟨s, h.phys.free :: h.returned, h.phys.free :: h.live⟩, ⟨s₂, h.phys.free :: h.returned, []⟩, ?_, ?_, hcanon,
    List.mem_cons_self, ⟨hz, fun f hpage => ?_⟩, ?_, ?_, rfl, fun k' hk' => ?_, fun hmid => ?_, ?_⟩
  · rw [Heap.step, hrun]
  · rw [Heap.step, hrun₂, hc.live, List.erase_cons_head]
  · rw [ha.backed.page, Option.some.injEq] at hpage
    exact hpage ▸ hlow
  · rw [hc.live, List.erase_cons_head] at hs₂
    exact hs₂
  · change h.returned.length + 1 = i + 1
    rw [hc.count]
  · rw [hfr.entryCount, ha.entryCount] at hk'
    rw [hfr.base, ha.base]
    exact hc.low k' hk'
  · obtain ⟨g, hg, _⟩ := ha.backed.entry
    refine ⟨g, ?_⟩
    rw [hfr.free, ha.free, hfr.tables _ 3 le_rfl (hnext.plain hf), ← hg]
    apply table_same
    apply same_three
    · rw [hnat]
      omega
    · rw [hnat, Nat.add_assoc, ← Nat.mul_succ]
      exact hmid
  · have hold := hc.room
    dsimp only at hlen₂ hlen₃ ⊢
    rw [List.length_cons] at hlen hlen₃
    by_cases hmid : (first + 4096 * i) % 2 ^ 21 = 0
    · have hfew := ha.few
      omega
    · rw [ha.idle (hc.table hmid)] at hlen'
      omega

theorem Churned.run (hend : first + 4096 * (i + n) ≤ 2 ^ 64) :
    ∃ h', exec Heap.step (churn first i n) h = some h' ∧ Churned first room t (i + n) h' ∧
      Meets Heap.step Legal h (churn first i n) ∧ Meets Heap.step Clean h (churn first i n) := by
  induction n generalizing i h with
  | zero => exact ⟨h, rfl, hc, trivial, trivial⟩
  | succ n ih =>
    have hlt : first + 4096 * i < 2 ^ 64 := by omega
    have hsum : i + (n + 1) = i + 1 + n := by omega
    rw [hsum] at hend ⊢
    obtain ⟨h₁, h₂, hs₁, hs₂, hclean, hlegal₁, hclean₁, hc₂⟩ := hc.round hf hroom hlt
    obtain ⟨h', hexec, hc', hlegal, hmeets⟩ := ih hc₂ hend
    -- both steps of the round are determined
    have hone : ∀ C : HeapOp → Heap → Prop, C .kmalloc h → C (.kfree (BitVec.ofNat 64 (first + 4096 * i))) h₁ →
        Meets Heap.step C h₂ (churn first (i + 1) n) → Meets Heap.step C h (churn first i (n + 1)) := by
      intro C hk hkf hrest
      refine ⟨hk, fun a ha => ?_⟩
      obtain rfl := Option.some.inj (hs₁.symm.trans ha)
      refine ⟨hkf, fun b hb => ?_⟩
      obtain rfl := Option.some.inj (hs₂.symm.trans hb)
      exact hrest
    refine ⟨h', ?_, hc', hone Legal (hc.supplied hf hroom hlt.le) hlegal₁ hlegal, hone Clean hclean hclean₁ hmeets⟩
    rw [churn, exec, hs₁, Option.bind_some, exec, hs₂, Option.bind_some, hexec]

theorem Churned.wraps (hend : first + 4096 * i = 2 ^ 64) :
    Meets Heap.step Legal h [.kmalloc, .kfree 0] ∧ ¬ Meets Heap.step Clean h [.kmalloc, .kfree 0] := by
  have hspot := hc.sound.next
  rw [hc.count] at hspot
  have hzero : h.phys.free = 0 := by
    apply BitVec.eq_of_toNat_eq
    have := h.phys.free.isLt
    change _ = 0
    rcases hspot with he | he
    · omega
    · omega
  have hsup := hc.supplied hf hroom hend.le
  have hcanon : canonical h.phys.free = true := by
    rw [hzero]
    decide
  obtain ⟨s, _, _, _, hrun, _⟩ := hc.sound.kmalloc hf hsup hcanon
  have hstep : Heap.step .kmalloc h = some ⟨s, h.phys.free :: h.returned, h.phys.free :: h.live⟩ := by rw [Heap.step, hrun]
  constructor
  · refine ⟨hsup, fun a ha => ⟨?_, fun _ _ => trivial⟩⟩
    obtain rfl := Option.some.inj (hstep.symm.trans ha)
    rw [hzero]
    exact List.mem_cons_self
  · intro hm
    exact (hm.2 _ hstep).1.1 rfl

end Churn

end Heap

end Os506
