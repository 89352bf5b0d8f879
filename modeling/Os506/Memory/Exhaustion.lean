import Os506.Memory.Kmmap

namespace Os506

open Pging Mmu

open PMap (Physical)

namespace Phys

variable {α β : Type} {s s₁ s' : Phys} {v w t f paddr flags : BitVec 64} {l l' : List ℕ} {j n : ℕ}

inductive Op
  | kmalloc
  | kmmap (addr : BitVec 64) (size : BitVec 32) (flags : BitVec 64)
  | mapPage (paddr vaddr flags : BitVec 64)
  | allocPml4
  | copyOnWrite (faultAddr : BitVec 64)

def Op.run : Op → Act Unit
  | .kmalloc => do let _ ← Phys.kmalloc
  | .kmmap addr size flags => Phys.kmmap addr size flags
  | .mapPage paddr vaddr flags => Phys.mapPage paddr vaddr flags
  | .allocPml4 => do let _ ← Phys.allocPml4
  | .copyOnWrite faultAddr => Phys.copyOnWrite faultAddr

def final (m : Act α) (s : Phys) : Phys :=
  match m s with
  | .ok _ s' => s'
  | .error _ s' => s'

def Held (s : Phys) (f : BitVec 64) : Prop := ∃ k < s.pmap.entryCount, (s.pmap.desc k).base = f ∧ (s.pmap.desc k).mapCount ≠ 0

def Entries (s : Phys) (a : List PhysEvent) : Prop :=
  ∀ e, .wrote e ∈ a → present e = true → .took (frame e) ∈ a ∨ s.Held (frame e)

/-- The events `a` of the operation: a failure of `get_free_page` ends in `panic` without a present entry, and every present
entry is backed. -/
def Op.Handles (op : Op) (s : Phys) : Prop :=
  ∃ a, (final op.run s).log = a ++ s.log ∧
    (.failed ∈ a → (∃ s', op.run s = .error .panic s') ∧ ∀ e, .wrote e ∈ a → present e = false) ∧
    s.Entries a

def kmmapTurns (addr : BitVec 64) (size : BitVec 32) : List (BitVec 64) :=
  turns ((((addr + size.signExtend 64 - 1) >>> 12) - (addr >>> 12) + 1).setWidth 32 : BitVec 32).toInt.toNat
    (if addr % 4096 ≠ 0 then addr &&& ~~~(4096 - 1) else addr)

/-- The free frames that the loop of `kmmap` needs for the pages `vs` after the pages `es`. Each turn asks for one first,
which goes back when the page is there. -/
def wanted (s : Phys) : List (BitVec 64) → List (BitVec 64) → ℕ
  | _, [] => 0
  | es, v :: vs => max (1 + s.absent es 3 v) (s.absent es 4 v + wanted s (v :: es) vs)

def Op.frames (s : Phys) : Op → ℕ
  | .kmalloc => 1 + s.absent [] 3 s.free
  | .kmmap addr size _ => s.wanted [] (kmmapTurns addr size)
  | .mapPage _ v _ => s.absent [] 3 v
  | .allocPml4 => 1 + s.absent [] 3 s.free
  | .copyOnWrite v =>
    match table s.mem s.cr3 v 3 with
    | some g => if isCow (s.mem (slot g (shift 3) v)) && !isRW (s.mem (slot g (shift 3) v)) then 1 else 0
    | none => 0

/-- The frames that the operation maps without taking them have a raised count. -/
def Op.Covered (s : Phys) : Op → Prop
  | .mapPage paddr v _ => table s.mem s.cr3 v 4 = none → s.Held paddr
  | .allocPml4 => ∀ f, table s.mem s.cr3 s.temp 1 = some f → s.Held f
  | _ => True

structure NextPage (s : Phys) : Prop where
  plain : Plain s.free
  temp : ¬ Same 4 s.temp s.free
  absent : table s.mem s.cr3 s.free 4 = none

/-- `init_pml4` is mapped at the frame `p`, and its entry for the kernel is the one of the current tables. -/
structure KernelRoot (s : Phys) (p : BitVec 64) : Prop where
  plain : Plain s.initPml4
  canonical : canonical s.initPml4 = true
  aligned : s.initPml4 &&& 0xFFF = 0
  page : ∃ g, table s.mem s.cr3 s.initPml4 3 = some g ∧ Table (s.mem (slot g (shift 3) s.initPml4)) ∧
    frame (s.mem (slot g (shift 3) s.initPml4)) = p
  mapped : present (s.mem (p + 8 * 511)) = true
  shared : table s.mem s.cr3 s.temp 1 = some (frame (s.mem (p + 8 * 511)))
  place : p = s.cr3 ∧ index 39 s.temp = 511 ∨ Data s.mem s.cr3 p

def Op.Given (s : Phys) (l : List ℕ) : Op → Prop
  | .kmalloc => s.NextPage
  | .kmmap addr size flags => UpperFlags flags ∧ ∀ w ∈ kmmapTurns addr size, Plain w ∧ ¬ Same 4 s.temp w
  | .mapPage paddr v flags => Plain v ∧ ¬ Same 4 s.temp v ∧ UpperFlags flags ∧ Physical paddr ∧
    ∀ k ∈ l, (s.pmap.desc k).base ≠ paddr
  | .allocPml4 => s.NextPage ∧ canonical s.free = true ∧ s.free &&& 0xFFF = 0 ∧ ∃ p, s.KernelRoot p
  | .copyOnWrite v => Plain v ∧ ∃ g, table s.mem s.cr3 v 3 = some g

def Breaks (m : Act α) (s : Phys) : Prop :=
  ∃ s' a, m s = .error .fault s' ∧ s'.log = a ++ s.log ∧ .failed ∈ a ∧ .wrote (-1) ∈ a

section Breaks

variable {m m' : Act α} {k : α → Act β}

theorem Breaks.of_eq (h : Breaks m' s₁) (hrun : m s = m' s₁) (hlog : ∃ a, s₁.log = a ++ s.log) : Breaks m s := by
  obtain ⟨s', a, hs', ha, hfailed, hwrote⟩ := h
  obtain ⟨a₁, ha₁⟩ := hlog
  exact ⟨s', a ++ a₁, hrun.trans hs', by rw [ha, ha₁, List.append_assoc], List.mem_append_left _ hfailed,
    List.mem_append_left _ hwrote⟩

theorem Breaks.bind (h : Breaks m s) (k : α → Act β) : Breaks (m >>= k) s := by
  obtain ⟨s', a, hs', ha⟩ := h
  refine ⟨s', a, ?_, ha⟩
  change EStateM.bind m k s = _
  rw [EStateM.bind, hs']

theorem Breaks.after {x : α} (h : Breaks (k x) s₁) (hm : m s = .ok x s₁) (hlog : ∃ a, s₁.log = a ++ s.log) :
    Breaks (m >>= k) s :=
  h.of_eq (bind_ok hm) hlog

end Breaks

theorem Quiet.grows (h : Quiet l s s') : ∃ a, s'.log = a ++ s.log := by
  obtain ⟨a, ha, _⟩ := h
  exact ⟨a, ha⟩

theorem getFreePage_fails (h : s.pmap.Free []) : getFreePage s = .ok (-1) { s with log := .failed :: s.log } := by
  rw [getFreePage, PMap.getFreePage_nil h]

theorem zeroPage_faults (h : Tree s.mem s.cr3) (hw : s.Window t) : zeroPage (-1) s = .error .fault { s with
    mem := Function.update s.mem (slot t (shift 3) s.temp) (-1), log := .wrote (-1) :: s.log } := by
  have hentry : reach s.mem s.cr3 (getPhys s.temp) = some (slot t (shift 3) s.temp) :=
    h.reach_ref (d := 3) hw.plain le_rfl hw.table
  let s₁ : Phys := { s with mem := Function.update s.mem (slot t (shift 3) s.temp) (-1), log := .wrote (-1) :: s.log }
  have hreach : reach s₁.mem s₁.cr3 s.temp = none :=
    (h.update_leaf hw.plain hw.table (-1)).reach_ones hw.plain
      ((h.table_update le_rfl hw.plain hw.table hw.plain (by decide) (.inr le_rfl) _).trans hw.table) (Function.update_self ..)
  have hget : (get : Act Phys) s = .ok s s := rfl
  have hones : (-1 : BitVec 64) ||| pageP ||| pageRW = -1 := by decide
  rw [zeroPage, bind_ok hget, hones, bind_ok (storeEntry_ok hentry _)]
  change EStateM.bind _ _ s₁ = _
  rw [EStateM.bind, clearPage_faults hreach]

theorem breaks_take (hr : s.Ready t []) (k : BitVec 64 → Act α) :
    Breaks (getFreePage >>= fun a => zeroPage a >>= fun _ => k a) s := by
  refine ⟨{ s with mem := Function.update s.mem (slot t (shift 3) s.temp) (-1), log := .wrote (-1) :: .failed :: s.log },
    [.wrote (-1), .failed], ?_, rfl, by simp, by simp⟩
  have hwin : Window { s with log := .failed :: s.log } t :=
    ⟨hr.window.plain, hr.window.canonical, hr.window.aligned, hr.window.table⟩
  rw [bind_ok (getFreePage_fails hr.freelist)]
  change EStateM.bind _ _ _ = _
  rw [EStateM.bind, zeroPage_faults (s := { s with log := .failed :: s.log }) hr.tree hwin]

section Tables

variable {g : BitVec 64} {d : ℕ}

theorem breaks_step {m : Act Unit} (hr : s.Ready t l) (hd : d < 3) (hv : Plain v) (hg : table s.mem s.cr3 v d = some g)
    (hflags : UpperFlags flags) (hshort : l.length < s.absent [] 3 v)
    (hrest : ∀ s₁ l₁ g₁, s₁.Ready t l₁ → table s₁.mem s₁.cr3 v (d + 1) = some g₁ → l₁.length < s₁.absent [] 3 v →
      Breaks m s₁) : Breaks (needTable (ref d v) flags >>= fun _ => m) s := by
  cases hnext : table s.mem s.cr3 v (d + 1) with
  | some g' =>
    exact (hrest s l g' hr hnext hshort).after (needTable_present hr.tree (by omega) hv hg hnext flags) ⟨[], rfl⟩
  | none =>
    cases l with
    | nil =>
      apply Breaks.bind
      have hload : isPresent (s.mem (slot g (shift d) v)) = false := by
        rw [isPresent_eq]
        exact absent_of_table hg hnext
      refine (breaks_take hr fun a => storeEntry (ref d v) (a ||| flags)).of_eq ?_ ⟨[], rfl⟩
      rw [needTable, bind_ok (load_ok (hr.tree.reach_ref hv (by omega) hg)), hload, if_neg (by decide)]
    | cons j l =>
      obtain ⟨s₁, hs₁, hnew⟩ := needTable_absent hr hd hv hg hnext hflags
      refine (hrest s₁ l _ hnew.ready hnew.path ?_).after hs₁ hnew.quiet.grows
      rw [List.length_cons, absent_none hg hnext] at hshort
      rw [absent_none hnew.path (hnew.below (d + 2) (by omega))]
      omega

theorem needTables_breaks (hr : s.Ready t l) (hv : Plain v) (hflags : UpperFlags flags)
    (hshort : l.length < s.absent [] 3 v) : Breaks (needTables v flags) s := by
  have hlast : ∀ s₂ l₂ g₂, s₂.Ready t l₂ → table s₂.mem s₂.cr3 v 2 = some g₂ → l₂.length < s₂.absent [] 3 v →
      Breaks (needTable (ref 2 v) flags) s₂ := by
    intro s₂ l₂ g₂ hr₂ hg₂ hshort₂
    rw [← bind_pure_unit (x := needTable (ref 2 v) flags)]
    refine breaks_step hr₂ (by decide) hv hg₂ hflags hshort₂ fun s₃ l₃ g₃ _ hg₃ hshort₃ => ?_
    rw [absent_some hg₃] at hshort₃
    omega
  have hsteps : needTables v flags = (needTable (ref 0 v) flags >>= fun _ => needTable (ref 1 v) flags >>= fun _ =>
      needTable (ref 2 v) flags) := rfl
  rw [hsteps]
  exact breaks_step hr (by decide) hv rfl hflags hshort fun s₁ l₁ g₁ hr₁ hg₁ hshort₁ =>
    breaks_step hr₁ (by decide) hv hg₁ hflags hshort₁ hlast

theorem mapPage_breaks (hr : s.Ready t l) (hv : Plain v) (hflags : UpperFlags flags) (hshort : l.length < s.absent [] 3 v)
    (paddr : BitVec 64) : Breaks (mapPage paddr v flags) s :=
  (needTables_breaks hr hv hflags.high hshort).bind _

theorem mapPage_leaf (h : Tree s.mem s.cr3) (hv : Plain v) (hg : table s.mem s.cr3 v 3 = some g)
    (hnone : table s.mem s.cr3 v 4 = none) (paddr flags : BitVec 64) :
    mapPage paddr v flags s = .ok () { s with
      mem := Function.update s.mem (slot g (shift 3) v) (paddr ||| flags)
      log := .wrote (paddr ||| flags) :: s.log } := by
  obtain ⟨g₁, hg₁⟩ := table_some hg (show 1 ≤ 3 by decide)
  obtain ⟨g₂, hg₂⟩ := table_some hg (show 2 ≤ 3 by decide)
  have htables : needTables v (Mach.highFlags flags) s = .ok () s :=
    (bind_ok (needTable_present h (by decide) hv rfl hg₁ _)).trans
      ((bind_ok (needTable_present h (by decide) hv hg₁ hg₂ _)).trans (needTable_present h (by decide) hv hg₂ hg _))
  exact mapPage_stores htables h hv hg hnone paddr

end Tables

theorem Ready.record (hr : s.Ready t l) (a : List PhysEvent) : Ready { s with log := a } t l :=
  ⟨hr.tree, ⟨hr.window.plain, hr.window.canonical, hr.window.aligned, hr.window.table⟩, hr.distinct, hr.freelist, hr.physical,
    hr.unused⟩

theorem kmalloc_breaks_leaf {g : BitVec 64} (hr : s.Ready t []) (hn : s.NextPage) (hg : table s.mem s.cr3 s.free 3 = some g) :
    Breaks kmalloc s := by
  let s₁ : Phys := { s with log := .failed :: s.log }
  let s₂ : Phys := { s₁ with
    mem := Function.update s.mem (slot g (shift 3) s.free) (-1), log := .wrote (-1) :: .failed :: s.log }
  let s₃ : Phys := { s₂ with free := s.free + 4096 }
  have hones : (-1 : BitVec 64) ||| (pageP ||| pageRW) = -1 := by decide
  have hmap : mapPage (-1) s₁.free (pageP ||| pageRW) s₁ = .ok () s₂ := by
    rw [mapPage_leaf (s := s₁) hr.tree hn.plain hg hn.absent, hones]
  have htree := hr.tree.update_leaf hn.plain hg (-1)
  have hg' := (hr.tree.table_update le_rfl hn.plain hg hn.plain (show 3 ≤ 4 by decide) (.inr le_rfl) (-1)).trans hg
  have hload := load_ok (s := s₂) (htree.reach_ref (d := 3) hn.plain le_rfl hg')
  have hreach : reach s₃.mem s₃.cr3 s.free = none := htree.reach_ones hn.plain hg' (Function.update_self ..)
  have hget : (get : Act Phys) s₂ = .ok s₂ s₂ := rfl
  have hmove : (modify fun s => { s with free := s.free + 4096 } : Act Unit) s₂ = .ok () s₃ := rfl
  refine ⟨s₃, [.wrote (-1), .failed], ?_, rfl, by simp, by simp⟩
  rw [kmalloc_eq (getFreePage_fails hr.freelist), bind_ok hmap, bind_ok hget]
  refine (bind_ok hload).trans ?_
  rw [bind_ok hmove]
  change EStateM.bind _ _ s₃ = _
  rw [EStateM.bind, clearPage_faults hreach]

theorem kmalloc_breaks (hr : s.Ready t l) (hn : s.NextPage) (hshort : l.length < 1 + s.absent [] 3 s.free) :
    Breaks kmalloc s := by
  cases l with
  | nil =>
    cases hg : table s.mem s.cr3 s.free 3 with
    | some g => exact kmalloc_breaks_leaf hr hn hg
    | none =>
      have hr₁ := hr.record (.failed :: s.log)
      have hsome : 0 < s.absent [] 3 s.free := by
        rw [absent_succ, if_pos hg]
        omega
      exact ((mapPage_breaks hr₁ hn.plain upper_pageRW hsome (-1)).bind _).of_eq (kmalloc_eq (getFreePage_fails hr.freelist))
        ⟨[.failed], rfl⟩
  | cons j l =>
    obtain ⟨s₁, hs₁, hpop⟩ := getFreePage_popped hr.freelist
    have habsent : s₁.absent [] 3 s₁.free = s.absent [] 3 s.free := by
      rw [hpop.free]
      exact absent_congr fun d _ => by rw [hpop.mem, hpop.cr3]
    have hplain : Plain s₁.free := by
      rw [hpop.free]
      exact hn.plain
    rw [List.length_cons] at hshort
    exact ((mapPage_breaks (hpop.ready hr) hplain upper_pageRW (by omega) _).bind _).of_eq (kmalloc_eq hs₁) ⟨[_], hpop.log⟩

section Turns

variable {vs es es' : List (BitVec 64)}

theorem wanted_turn (hnone : ∀ w ∈ vs, ∀ d ≤ 4, table s'.mem s'.cr3 w d = none ↔ table s.mem s.cr3 w d = none ∧ ¬ Same d v w)
    (hes : ∀ u, u ∈ es' ↔ u = v ∨ u ∈ es) : s'.wanted es vs = s.wanted es' vs := by
  induction vs generalizing es es' with
  | nil => rfl
  | cons w vs ih =>
    have habsent : ∀ n ≤ 4, s'.absent es n w = s.absent es' n w := by
      intro n hn
      refine absent_congr fun d hd => ?_
      rw [hnone w List.mem_cons_self (d + 1) (by omega), and_assoc]
      simp only [hes, forall_eq_or_imp]
    have hrest : s'.wanted (w :: es) vs = s.wanted (w :: es') vs := by
      refine ih (fun u hu => hnone u (List.mem_cons_of_mem w hu)) fun u => ?_
      rw [List.mem_cons, List.mem_cons, hes]
      tauto
    rw [wanted, wanted, habsent 3 (by decide), habsent 4 le_rfl, hrest]

theorem kmmapPages_next (hr : s.Ready t l) (hz : table s.mem s.cr3 s.temp 4 = none)
    (hturns : ∀ w ∈ turns (n + 1) v, Plain w ∧ ¬ Same 4 s.temp w) (hflags : UpperFlags flags)
    (hroom : 1 + s.absent [] 3 v ≤ l.length) :
    ∃ s' l', kmmapPages flags (n + 1) v s = kmmapPages flags n (v + 4096) s' ∧ Fills [v] t l l' s s' ∧
      (∀ w ∈ turns n (v + 4096), Plain w ∧ ¬ Same 4 s'.temp w) ∧
      s'.wanted [] (turns n (v + 4096)) = s.wanted [v] (turns n (v + 4096)) ∧ l.length = l'.length + s.absent [] 4 v := by
  rw [turns, List.forall_mem_cons] at hturns
  obtain ⟨s', l', hs', hfill, hlength, htables⟩ := kmmapPages_turn hr hz hturns.1.1 hturns.1.2 hflags hroom
  refine ⟨s', l', hs' n, hfill, by rw [hfill.temp]; exact hturns.2,
    wanted_turn (v := v) (fun w hw d hd => ?_) fun u => by simp, hlength⟩
  rcases Nat.lt_or_eq_of_le hd with hlt | rfl
  · exact htables w d (by omega) (hturns.2 w hw).1
  · rw [hfill.none_iff (hturns.2 w hw).1, List.forall_mem_singleton]

theorem kmmapPages_quiet (hr : s.Ready t l) (hz : table s.mem s.cr3 s.temp 4 = none)
    (hturns : ∀ w ∈ turns n v, Plain w ∧ ¬ Same 4 s.temp w) (hflags : UpperFlags flags)
    (hroom : s.wanted [] (turns n v) ≤ l.length) : Quiet l s (final (kmmapPages flags n v) s) := by
  induction n generalizing s l v with
  | zero => exact .refl l s
  | succ n ih =>
    rw [turns, wanted, Nat.max_le] at hroom
    obtain ⟨s', l', hs', hfill, hturns', hwanted, hlength⟩ := kmmapPages_next hr hz hturns hflags hroom.1
    have hrest := ih hfill.ready hfill.window hturns' (by omega)
    rw [final, hs', ← final]
    exact hfill.quiet.trans hrest hfill.rest hfill.base

theorem kmmapPages_breaks (hr : s.Ready t l) (hz : table s.mem s.cr3 s.temp 4 = none)
    (hturns : ∀ w ∈ turns n v, Plain w ∧ ¬ Same 4 s.temp w) (hflags : UpperFlags flags)
    (hshort : l.length < s.wanted [] (turns n v)) : Breaks (kmmapPages flags n v) s := by
  induction n generalizing s l v with
  | zero => exact absurd hshort (Nat.not_lt_zero _)
  | succ n ih =>
    rw [turns, wanted] at hshort
    by_cases hroom : 1 + s.absent [] 3 v ≤ l.length
    · obtain ⟨s', l', hs', hfill, hturns', hwanted, hlength⟩ := kmmapPages_next hr hz hturns hflags hroom
      exact (ih hfill.ready hfill.window hturns' (by omega)).of_eq hs' hfill.quiet.grows
    · cases l with
      | nil => exact breaks_take hr _
      | cons j l =>
        rw [turns, List.forall_mem_cons] at hturns
        obtain ⟨s₁, hs₁, hsup⟩ := supply hr hz
        have habsent : s₁.absent [] 3 v = s.absent [] 3 v :=
          absent_congr fun d hd => by rw [hsup.tables v (d + 1) (by omega) hturns.1.1]
        rw [List.length_cons] at hroom
        exact ((mapPage_breaks hsup.ready hturns.1.1 hflags (by omega) _).bind _).of_eq (hs₁ _) (hsup.quiet hr).grows

end Turns

def Writes (es : List (BitVec 64)) (m : Act α) : Prop :=
  ∀ s, ∃ a, (final m s).log = a ++ s.log ∧ ∀ x ∈ a, ∃ e ∈ es, x = .wrote e

section Writes

variable {m : Act α} {k : α → Act β} {es : List (BitVec 64)}

theorem writes_silent (h : ∀ s, (final m s).log = s.log) : Writes es m :=
  fun s => ⟨[], h s, fun _ hx => absurd hx List.not_mem_nil⟩

theorem writes_bind (h : Writes es m) (hk : ∀ x, Writes es (k x)) : Writes es (m >>= k) := by
  intro s
  obtain ⟨a, ha, hes⟩ := h s
  cases hm : m s with
  | error e s₁ =>
    rw [final, hm] at ha
    exact ⟨a, by rw [final, bind_error hm]; exact ha, hes⟩
  | ok x s₁ =>
    obtain ⟨a', ha', hes'⟩ := hk x s₁
    rw [final, hm] at ha
    refine ⟨a' ++ a, by rw [final, bind_ok hm, ← final, ha', ha, List.append_assoc], fun y hy => ?_⟩
    rcases List.mem_append.mp hy with hy | hy
    · exact hes' y hy
    · exact hes y hy

theorem writes_load (va : BitVec 64) : Writes es (load va) := by
  refine writes_silent fun s => ?_
  rw [final, load]
  split
  · rename_i h
    split at h
    · cases h
      rfl
    · cases h
  · rename_i h
    split at h
    · cases h
    · cases h
      rfl

theorem writes_store (va x : BitVec 64) : Writes es (store va x) := by
  refine writes_silent fun s => ?_
  rw [final, store]
  split
  · rename_i h
    split at h
    · cases h
      rfl
    · cases h
  · rename_i h
    split at h
    · cases h
    · cases h
      rfl

theorem writes_storeEntry {e : BitVec 64} (he : e ∈ es) (va : BitVec 64) : Writes es (storeEntry va e) :=
  writes_bind (writes_store va e) fun _ _ => ⟨[.wrote e], rfl, fun _ hx => ⟨e, he, List.mem_singleton.mp hx⟩⟩

theorem writes_pure (x : α) : Writes es (pure x : Act α) := writes_silent fun _ => rfl

theorem writes_clearWords (va : BitVec 64) (l : List ℕ) : Writes es (clearWords va l) := by
  induction l with
  | nil => exact writes_pure ()
  | cons k l ih => exact writes_bind (writes_store _ _) fun _ => ih

theorem writes_copyWords (src dst : BitVec 64) (l : List ℕ) : Writes es (copyWords src dst l) := by
  induction l with
  | nil => exact writes_pure ()
  | cons k l ih => exact writes_bind (writes_load _) fun x => writes_bind (writes_store _ x) fun _ => ih

theorem Clean.writes {a : List PhysEvent} (h : s.Clean l a) (es : List (BitVec 64)) (hlog : s₁.log = a ++ s.log)
    (hm : Writes es m) (hes : ∀ e ∈ es, present e = true → .took (frame e) ∈ a) : Quiet l s (final m s₁) := by
  obtain ⟨a', ha', hes'⟩ := hm s₁
  refine ⟨a' ++ a, by rw [ha', hlog, List.append_assoc], fun x hx => ?_, fun e he hp => List.mem_append_right _ ?_⟩
  · rcases List.mem_append.mp hx with hx | hx
    · obtain ⟨e, _, rfl⟩ := hes' x hx
      exact id
    · exact h.own x hx
  · rcases List.mem_append.mp he with he | he
    · obtain ⟨e', he', heq⟩ := hes' _ he
      cases heq
      exact hes e he' hp
    · exact h.entries e he hp

end Writes

theorem kmalloc_quiet (hr : s.Ready t l) (hn : s.NextPage) (hroom : 1 + s.absent [] 3 s.free ≤ l.length) :
    Quiet l s (final kmalloc s) := by
  cases l with
  | nil =>
    rw [List.length_nil] at hroom
    omega
  | cons j l =>
    rw [List.length_cons] at hroom
    obtain ⟨s₁, s₂, l', hpop, hadd, hrun⟩ := kmalloc_maps hr hn.plain hn.temp hn.absent (room_of_absent (by omega))
    obtain ⟨a, hlog, ha, _⟩ := hadd.clean upper_pageRW (hr.physical j List.mem_cons_self) hpop.log
      (clean_took List.mem_cons_self) List.mem_cons_self (List.subset_cons_self j l) hpop.touches.base
    rw [final, hrun, ← final]
    exact ha.writes [] hlog (writes_bind (writes_clearWords _ _) fun _ => writes_pure _)
      fun _ he => absurd he List.not_mem_nil

section CopyOnWrite

variable {g e : BitVec 64} (hr : s.Ready t l) (hz : table s.mem s.cr3 s.temp 4 = none) (hv : Plain v)
  (hg : table s.mem s.cr3 v 3 = some g) (he : s.mem (slot g (shift 3) v) = e)

def copyOver (faultAddr paddr naddr : BitVec 64) : Act Unit := do
  let temp := (← get).temp
  mapPage naddr temp (pageP ||| pageU ||| pageRW)
  copyPage (faultAddr &&& ~~~(4096 - 1)) temp
  freeTemp
  storeEntry (getPhys faultAddr) (naddr ||| pageU ||| pageP ||| pageRW)
  releasePage (paddr &&& ~~~(4096 - 1))

include hr hv hg he

theorem copyOnWrite_eq : copyOnWrite v s =
    (if isCow e && !isRW e then getFreePage >>= fun a => zeroPage a >>= fun _ => copyOver v e a else pure ()) s := by
  have hload : load (getPhys v) s = .ok e s := he ▸ load_ok (hr.tree.reach_ref (d := 3) hv le_rfl hg)
  rw [copyOnWrite, bind_ok hload]
  rfl

include hz

theorem copyOnWrite_quiet (hroom : (if isCow e && !isRW e then 1 else 0) ≤ l.length) :
    Quiet l s (final (copyOnWrite v) s) := by
  rw [final, copyOnWrite_eq hr hv hg he, ← final]
  split at hroom
  next hcow =>
    rw [if_pos hcow]
    obtain ⟨j, l, rfl⟩ := List.exists_cons_of_length_pos hroom
    obtain ⟨s₁, hs₁, hsup⟩ := supply hr hz
    have hphys := hr.physical j List.mem_cons_self
    have hwin := hsup.ready.window
    have hnone : table s₁.mem s₁.cr3 s₁.temp 4 = none := by rw [hsup.pages _ hwin.plain, hsup.temp, hz]
    have hmap := mapPage_leaf hsup.ready.tree hwin.plain hwin.table hnone (s.pmap.desc j).base (pageP ||| pageU ||| pageRW)
    have hflags : UpperFlags (pageP ||| pageU ||| pageRW) := ⟨by decide, by decide, by decide⟩
    have hflags' : UpperFlags (pageU ||| (pageP ||| pageRW)) := ⟨by decide, by decide, by decide⟩
    have hframe' : frame ((s.pmap.desc j).base ||| pageU ||| pageP ||| pageRW) = (s.pmap.desc j).base := by
      rw [BitVec.or_assoc, BitVec.or_assoc]
      exact (hflags'.entry hphys).2.1
    have hclean := (clean_zeroed (s := s) (l := j :: l) List.mem_cons_self hphys).wrote
      (e := (s.pmap.desc j).base ||| (pageP ||| pageU ||| pageRW)) fun _ => by rw [(hflags.entry hphys).2.1]; simp
    have hget : (get : Act Phys) s₁ = .ok s₁ s₁ := rfl
    rw [final, hs₁, copyOver, bind_ok hget, bind_ok hmap, ← final]
    refine hclean.writes [0, (s.pmap.desc j).base ||| pageU ||| pageP ||| pageRW] ?_ ?_ fun x hx hp => ?_
    · rw [hsup.log]
      rfl
    · refine writes_bind (writes_copyWords _ _ _) fun _ => ?_
      refine writes_bind ?_ fun _ => writes_bind (writes_storeEntry (by simp) _) fun _ => writes_silent fun _ => rfl
      exact writes_bind (writes_silent fun _ => rfl) fun _ => writes_storeEntry (by simp) _
    · rw [List.mem_pair] at hx
      rcases hx with rfl | rfl
      · cases hp
      · rw [hframe']
        simp
  next hcow =>
    rw [if_neg hcow]
    exact .refl l s

omit hz in
theorem copyOnWrite_breaks (hshort : l.length < if isCow e && !isRW e then 1 else 0) : Breaks (copyOnWrite v) s := by
  split at hshort
  next hcow =>
    obtain rfl : l = [] := List.length_eq_zero_iff.mp (by omega)
    refine (breaks_take hr (copyOver v e)).of_eq ?_ ⟨[], rfl⟩
    rw [copyOnWrite_eq hr hv hg he, if_pos hcow]
  next => omega

end CopyOnWrite

section AllocPml4

variable {p : BitVec 64} (hr : s.Ready t (j :: l)) (hz : table s.mem s.cr3 s.temp 4 = none) (hn : s.NextPage)

def rootPml4 (pml4 virPml4 : BitVec 64) : Act (BitVec 64) := do
  let kernel ← load ((← get).initPml4 + 8 * 511)
  storeEntry (virPml4 + 8 * 511) kernel
  storeEntry (virPml4 + 8 * 510) (pml4 ||| pageP ||| pageRW)
  return pml4

def fillPml4 (pml4 : BitVec 64) : Act (BitVec 64) := do
  let virPml4 := (← get).free
  modify fun s => { s with free := virPml4 + 8 * 4096 }
  mapPage pml4 virPml4 (pageP ||| pageRW ||| pageU)
  rootPml4 pml4 virPml4

theorem allocPml4_eq : allocPml4 = getFreePage >>= fun a => zeroPage a >>= fun _ => fillPml4 a := rfl

theorem rootPml4_ok {q : BitVec 64} (hf : Physical f)
    (hplace : ∀ mem', AgreeOff f s.mem mem' → ∀ k < 512,
      reach mem' s.cr3 (v + 8 * BitVec.ofNat 64 k) = some (f + 8 * BitVec.ofNat 64 k))
    (hq : reach s.mem s.cr3 (s.initPml4 + 8 * 511) = some q) :
    ∃ s', rootPml4 f v s = .ok f s' ∧ s'.log = .wrote (f ||| pageP ||| pageRW) :: .wrote (s.mem q) :: s.log := by
  have hkernel := hplace s.mem (fun _ _ => rfl) 511 (by decide)
  have hself := hplace _ (update_agree hf (show 511 < 512 by decide) s.mem (s.mem q)) 510 (by decide)
  have hget : (get : Act Phys) s = .ok s s := rfl
  have hfirst := storeEntry_ok hkernel (s.mem q)
  have hsecond := storeEntry_ok (s := { s with
    mem := Function.update s.mem (f + 8 * BitVec.ofNat 64 511) (s.mem q), log := .wrote (s.mem q) :: s.log }) hself
    (f ||| pageP ||| pageRW)
  have hrun : rootPml4 f v s = _ :=
    (bind_ok hget).trans ((bind_ok (load_ok hq)).trans ((bind_ok hfirst).trans (bind_ok hsecond)))
  exact ⟨_, hrun, rfl⟩

theorem upper_pageRWU : UpperFlags (pageP ||| pageRW ||| pageU) := ⟨by decide, by decide, by decide⟩

include hz hn

theorem allocPml4_breaks (hr : s.Ready t l) (hshort : l.length < 1 + s.absent [] 3 s.free) : Breaks allocPml4 s := by
  rw [allocPml4_eq]
  cases l with
  | nil => exact breaks_take hr fillPml4
  | cons j l =>
    obtain ⟨s₁, hs₁, hsup⟩ := supply hr hz
    let s₂ : Phys := { s₁ with free := s₁.free + 8 * 4096 }
    have hget : (get : Act Phys) s₁ = .ok s₁ s₁ := rfl
    have hmove : (modify fun s => { s with free := s₁.free + 8 * 4096 } : Act Unit) s₁ = .ok () s₂ := rfl
    have hshort₂ : l.length < s₂.absent [] 3 s₁.free := by
      have habsent : s₂.absent [] 3 s.free = s.absent [] 3 s.free :=
        absent_congr fun d hd => by rw [← hsup.tables s.free (d + 1) (by omega) hn.plain]
      rw [List.length_cons] at hshort
      rw [hsup.free]
      omega
    have hplain : Plain s₁.free := by
      rw [hsup.free]
      exact hn.plain
    have hmap := mapPage_breaks (hsup.ready.move (s₁.free + 8 * 4096)) hplain upper_pageRWU hshort₂ (s.pmap.desc j).base
    have hfill : Breaks (fillPml4 (s.pmap.desc j).base) s₁ := by
      refine Breaks.after ?_ hget ⟨[], rfl⟩
      refine Breaks.after ?_ hmove ⟨[], rfl⟩
      exact hmap.bind _
    exact hfill.of_eq (hs₁ fillPml4) (hsup.quiet hr).grows

theorem KernelRoot.kept {s₂ : Phys} {l' : List ℕ} (hk : s.KernelRoot p) (hr : s.Ready t (j :: l)) (hs : Supplies t j l s s₁)
    (hadd : Adds (s.pmap.desc j).base s.free flags t l l' { s₁ with free := w } s₂) :
    reach s₂.mem s₂.cr3 (s.initPml4 + 8 * 511) = some (p + 8 * 511) ∧ present (s₂.mem (p + 8 * 511)) = true ∧
      frame (s₂.mem (p + 8 * 511)) = frame (s.mem (p + 8 * 511)) := by
  obtain ⟨g, hg, htable, hframe⟩ := hk.page
  have hpage : table s.mem s.cr3 s.initPml4 4 = some p := by rw [table_succ hg, if_pos htable.1, hframe]
  have hp := table_physical hr.tree hpage
  have hfree : ¬ Same 4 s.free s.initPml4 := fun hsame => by
    rw [← table_same hsame, hn.absent] at hpage
    cases hpage
  have htemp : ¬ Same 4 s.temp s.initPml4 := fun hsame => by
    rw [← table_same hsame, hz] at hpage
    cases hpage
  have hg₁ := (hs.tables s.initPml4 3 le_rfl hk.plain).trans hg
  obtain ⟨hg₂, hentry⟩ := hadd.entries s.initPml4 g hk.plain hfree (by rw [hs.temp]; exact htemp) hg₁
  have hkept : s₁.mem (slot g (shift 3) s.initPml4) = s.mem (slot g (shift 3) s.initPml4) := by
    have hword := hs.entries s.initPml4 3 le_rfl hk.plain htemp
    rwa [entry, entry, hg₁, hg] at hword
  have hsame : s₂.mem (slot g (shift 3) s.initPml4) = s.mem (slot g (shift 3) s.initPml4) := hentry.trans hkept
  refine ⟨?_, ?_⟩
  · exact hadd.ready.tree.reach_word (k := 511) hk.plain hk.canonical hk.aligned (by decide) hg₂ (hsame ▸ htable)
      (hsame ▸ hframe)
  · rcases hk.place with ⟨rfl, hindex⟩ | hdata
    · -- the entry is in the current PML4, on the path of the temp page
      have hkept := hadd.kept s.temp 1 _ (by decide) hr.window.plain
        ((hs.tables s.temp 1 (by decide) hr.window.plain).trans hk.shared)
      have hcr3 : s₂.cr3 = s.cr3 := hadd.cr3.trans hs.cr3
      have hslot : slot s₂.cr3 (shift 0) s.temp = s.cr3 + 8 * 511 := by rw [hcr3, slot, shift_zero, hindex]
      rw [table_succ (show table s₂.mem s₂.cr3 s.temp 0 = some s₂.cr3 from rfl), hslot] at hkept
      split at hkept
      next hpresent => exact ⟨hpresent, Option.some.inj hkept⟩
      next => cases hkept
    · have hword : (p + 8 * 511).toNat / 4096 = p.toNat / 4096 := (word_page hp (k := 511) (by decide)).1
      have hne : ∀ k ∈ j :: l, (s.pmap.desc k).base ≠ p := fun k hk' he =>
        hr.unused k hk' s.initPml4 4 le_rfl hk.plain (he ▸ hpage)
      have hsame' : s₂.mem (p + 8 * 511) = s.mem (p + 8 * 511) := by
        refine (hadd.contents p hp (hs.data p hdata) (fun k hk' => ?_) _ hword).trans
          (hs.contents p hp hdata (hne j List.mem_cons_self).symm _ hword)
        exact (hs.touches.base k).symm ▸ hne k (List.mem_cons_of_mem j hk')
      rw [hsame']
      exact ⟨hk.mapped, rfl⟩

include hr

theorem allocPml4_ok (hk : s.KernelRoot p) (hc : canonical s.free = true) (ha : s.free &&& 0xFFF = 0)
    (hroom : s.absent [] 3 s.free ≤ l.length) :
    ∃ s' a x, allocPml4 s = .ok (s.pmap.desc j).base s' ∧
      s'.log = .wrote ((s.pmap.desc j).base ||| pageP ||| pageRW) :: .wrote x :: a ++ s.log ∧ s.Clean (j :: l) a ∧
      .took (s.pmap.desc j).base ∈ a ∧ present x = true ∧ frame x = frame (s.mem (p + 8 * 511)) := by
  obtain ⟨s₁, hs₁, hsup⟩ := supply hr hz
  have hphys := hr.physical j List.mem_cons_self
  let s₂ : Phys := { s₁ with free := s.free + 8 * 4096 }
  have hfresh : ∀ k ∈ l, (s₂.pmap.desc k).base ≠ (s.pmap.desc j).base := fun k hk' => by
    rw [hsup.touches.base]
    exact hr.base_ne hk'
  have habsent : s₂.absent [] 3 s.free = s.absent [] 3 s.free :=
    absent_congr fun d hd => by rw [← hsup.tables s.free (d + 1) (by omega) hn.plain]
  obtain ⟨s₃, l', hs₃, hadd⟩ := mapPage_adds (hsup.ready.move (s.free + 8 * 4096)) hn.plain
    (by rw [hsup.temp]; exact hn.temp) hphys upper_pageRWU (room_of_absent (s := s₂) (by omega))
    ((hsup.pages s.free hn.plain).trans hn.absent) hfresh
  obtain ⟨hreach, hpresent, hframe⟩ := hk.kept hz hn hr hsup hadd
  obtain ⟨a, hlog, hclean, htook⟩ := hadd.clean upper_pageRWU hphys hsup.log (clean_zeroed List.mem_cons_self hphys) (by simp)
    (List.subset_cons_self j l) hsup.touches.base
  obtain ⟨g, hg, hentry⟩ := hadd.leaf
  obtain ⟨hp, hf, hl⟩ := upper_pageRWU.entry hphys
  have hdata : Data s₃.mem s₃.cr3 (s.pmap.desc j).base :=
    hadd.data _ (fun w d hd hw => hsup.unused w d (by omega) hw) hfresh
  have hplace : ∀ mem', AgreeOff (s.pmap.desc j).base s₃.mem mem' → ∀ k < 512,
      reach mem' s₃.cr3 (s.free + 8 * BitVec.ofNat 64 k) = some ((s.pmap.desc j).base + 8 * BitVec.ofNat 64 k) :=
    fun mem' hoff k hk' => hadd.ready.tree.reach_off hphys hdata hoff hn.plain hc ha hk' hg (hentry ▸ ⟨hp, hl⟩) (hentry ▸ hf)
  have hroot : s₃.initPml4 = s.initPml4 := hadd.initPml4.trans hsup.initPml4
  obtain ⟨s₄, hs₄, hlog₄⟩ := rootPml4_ok hphys hplace (hroot.symm ▸ hreach)
  have hget : ∀ s : Phys, (get : Act Phys) s = .ok s s := fun _ => rfl
  have hmove : (modify fun x => { x with free := s.free + 8 * 4096 } : Act Unit) s₁ = .ok () s₂ := rfl
  refine ⟨s₄, a, s₃.mem (p + 8 * 511), ?_, ?_, hclean, htook, hpresent, hframe⟩
  · rw [allocPml4_eq, hs₁, fillPml4, bind_ok (hget s₁), hsup.free, bind_ok hmove, bind_ok hs₃, hs₄]
  · rw [hlog₄, hlog, List.cons_append, List.cons_append]

end AllocPml4

theorem final_discard (m : Act α) (s : Phys) : final (m >>= fun _ => pure ()) s = final m s := by
  cases hm : m s with
  | ok x s₁ => rw [final, bind_ok hm, final, hm]; rfl
  | error e s₁ => rw [final, bind_error hm, final, hm]

section Entries

variable {a b : List PhysEvent} {x : BitVec 64}

theorem Clean.quiet (h : s.Clean l a) : .failed ∉ a := fun hin => h.own _ hin trivial

theorem Clean.entries_iff (h : s.Clean l a) (hb : ∀ y, y ∈ b ↔ y = .wrote x ∨ y ∈ a) (hp : present x = true)
    (hx : ∀ k ∈ l, (s.pmap.desc k).base ≠ frame x) : s.Entries b ↔ s.Held (frame x) := by
  have htook : ∀ g, .took g ∈ b ↔ .took g ∈ a := fun g => by rw [hb]; simp
  refine ⟨fun hall => ?_, fun hheld e he hpe => ?_⟩
  · refine (hall x ((hb _).mpr (.inl rfl)) hp).resolve_left fun hin => h.own _ ((htook _).mp hin) hx
  · rcases (hb _).mp he with heq | he
    · cases heq
      exact .inr hheld
    · exact .inl ((htook _).mpr (h.entries e he hpe))

end Entries

theorem Op.enough {op : Op} (hr : s.Ready t l) (hz : table s.mem s.cr3 s.temp 4 = none) (hgiven : op.Given s l)
    (hroom : op.frames s ≤ l.length) :
    ∃ a, (final op.run s).log = a ++ s.log ∧ .failed ∉ a ∧ (s.Entries a ↔ op.Covered s) := by
  have hquiet : Quiet l s (final op.run s) → op.Covered s →
      ∃ a, (final op.run s).log = a ++ s.log ∧ .failed ∉ a ∧ (s.Entries a ↔ op.Covered s) := by
    rintro ⟨a, hlog, ha⟩ hcovered
    exact ⟨a, hlog, ha.quiet, iff_of_true (fun e he hp => .inl (ha.entries e he hp)) hcovered⟩
  cases op with
  | kmalloc =>
    refine hquiet ?_ trivial
    rw [Op.run, final_discard]
    exact kmalloc_quiet hr hgiven hroom
  | kmmap addr size flags => exact hquiet (kmmapPages_quiet hr hz hgiven.2 hgiven.1 hroom) trivial
  | mapPage paddr v flags =>
    obtain ⟨hv, htemp, hflags, hp, hfree⟩ := hgiven
    cases hleaf : table s.mem s.cr3 v 4 with
    | some f =>
      refine hquiet ?_ fun hnone => by rw [hleaf] at hnone; cases hnone
      rw [Op.run, final, mapPage_releases hr hv hflags hleaf]
      exact ⟨[], rfl, clean_nil s l⟩
    | none =>
      obtain ⟨s', l', hs', hadd⟩ := mapPage_adds hr hv htemp hp hflags (room_of_absent hroom) hleaf hfree
      obtain ⟨a, hlog, ha⟩ := hadd.log
      obtain ⟨hpresent, hframe, _⟩ := hflags.entry hp
      have hiff := ha.entries_iff (b := .wrote (paddr ||| flags) :: a) (fun y => List.mem_cons) hpresent
        (hframe.symm ▸ hfree)
      rw [hframe] at hiff
      refine ⟨_, by rw [Op.run, final, hs']; exact hlog, ?_, hiff.trans ⟨fun hheld _ => hheld, fun hheld => hheld hleaf⟩⟩
      simpa using ha.quiet
  | allocPml4 =>
    obtain ⟨hn, hc, haligned, p, hk⟩ := hgiven
    cases l with
    | nil =>
      change 1 + s.absent [] 3 s.free ≤ 0 at hroom
      omega
    | cons j l =>
      change 1 + s.absent [] 3 s.free ≤ l.length + 1 at hroom
      obtain ⟨s', a, x, hs', hlog, ha, htook, hpresent, hframe⟩ := allocPml4_ok hr hz hn hk hc haligned (by omega)
      have hself : frame ((s.pmap.desc j).base ||| pageP ||| pageRW) = (s.pmap.desc j).base := by
        rw [BitVec.or_assoc]
        exact (upper_pageRW.entry (hr.physical j List.mem_cons_self)).2.1
      have hclean := ha.wrote (e := (s.pmap.desc j).base ||| pageP ||| pageRW) fun _ => hself.symm ▸ htook
      have hfree : ∀ k ∈ j :: l, (s.pmap.desc k).base ≠ frame x := fun k hk' he =>
        hr.unused k hk' s.temp 1 (by decide) hr.window.plain (by rw [he, hframe]; exact hk.shared)
      have hiff := hclean.entries_iff (b := .wrote ((s.pmap.desc j).base ||| pageP ||| pageRW) :: .wrote x :: a)
        (fun y => by simp only [List.mem_cons]; tauto) hpresent hfree
      refine ⟨_, by rw [Op.run, final_discard, final, hs']; exact hlog, ?_, hiff.trans ?_⟩
      · simpa using ha.quiet
      · rw [hframe]
        exact ⟨fun hheld f hf => Option.some.inj (hk.shared.symm.trans hf) ▸ hheld, fun hall => hall _ hk.shared⟩
  | copyOnWrite v =>
    obtain ⟨hv, g, hg⟩ := hgiven
    rw [Op.frames, hg] at hroom
    exact hquiet (copyOnWrite_quiet hr hz hv hg rfl hroom) trivial

theorem Op.breaks {op : Op} (hr : s.Ready t l) (hz : table s.mem s.cr3 s.temp 4 = none) (hgiven : op.Given s l)
    (hshort : l.length < op.frames s) : Breaks op.run s := by
  cases op with
  | kmalloc => exact (kmalloc_breaks hr hgiven hshort).bind _
  | kmmap addr size flags => exact kmmapPages_breaks hr hz hgiven.2 hgiven.1 hshort
  | mapPage paddr v flags => exact mapPage_breaks hr hgiven.1 hgiven.2.2.1 hshort paddr
  | allocPml4 => exact (allocPml4_breaks hz hgiven.1 hr hshort).bind _
  | copyOnWrite v =>
    obtain ⟨hv, g, hg⟩ := hgiven
    rw [Op.frames, hg] at hshort
    exact copyOnWrite_breaks hr hv hg rfl hshort

/-- The operations handle a failed allocation in no state: they need their frames. Without them the operation faults after
an entry with all bits set. -/
theorem Op.handles_iff (op : Op) (hr : s.Ready t l) (hz : table s.mem s.cr3 s.temp 4 = none) (hgiven : op.Given s l) :
    (op.Handles s ↔ op.frames s ≤ l.length ∧ op.Covered s) ∧
    (l.length < op.frames s → ∃ s' a, op.run s = .error .fault s' ∧ s'.log = a ++ s.log ∧ .failed ∈ a ∧ .wrote (-1) ∈ a) := by
  refine ⟨⟨?_, ?_⟩, op.breaks hr hz hgiven⟩
  · rintro ⟨a, hlog, hfails, hentries⟩
    by_cases hroom : op.frames s ≤ l.length
    · obtain ⟨a', hlog', _, hiff⟩ := Op.enough hr hz hgiven hroom
      obtain rfl := List.append_cancel_right (hlog.symm.trans hlog')
      exact ⟨hroom, hiff.mp hentries⟩
    · obtain ⟨s', a', hrun, hlog', hfailed, _⟩ := Op.breaks hr hz hgiven (by omega)
      rw [final, hrun] at hlog
      obtain rfl := List.append_cancel_right (hlog.symm.trans hlog')
      obtain ⟨⟨s'', hpanic⟩, _⟩ := hfails hfailed
      rw [hrun] at hpanic
      cases hpanic
  · rintro ⟨hroom, hcovered⟩
    obtain ⟨a, hlog, hquiet, hiff⟩ := Op.enough hr hz hgiven hroom
    exact ⟨a, hlog, fun hfailed => absurd hfailed hquiet, hiff.mpr hcovered⟩

theorem handles_two_pages : (Op.kmmap 0x400FFF 2 (pageP ||| pageRW ||| pageU)).frames { small with pmap := eightFrames } = 5 ∧
    (Op.kmmap 0x400FFF 2 (pageP ||| pageRW ||| pageU)).Handles { small with pmap := eightFrames } := by
  have hturns : kmmapTurns 0x400FFF 2 = turns 2 0x400000 :=
    congrArg₂ turns (kmmap_count (n := 2) (by decide) (by decide) (by decide)) (kmmap_start 0x400FFF)
  have hframes : (Op.kmmap 0x400FFF 2 (pageP ||| pageRW ||| pageU)).frames { small with pmap := eightFrames } = 5 := by
    rw [Op.frames, hturns]
    decide +kernel
  have hgiven : (Op.kmmap 0x400FFF 2 (pageP ||| pageRW ||| pageU)).Given { small with pmap := eightFrames } (List.range 8) := by
    refine ⟨⟨by decide, by decide, by decide⟩, ?_⟩
    rw [hturns, turns, turns, turns, List.forall_mem_cons, List.forall_mem_singleton]
    decide
  refine ⟨hframes, (Op.handles_iff _ eightFrames_ready (by decide) hgiven).1.mpr ⟨?_, trivial⟩⟩
  rw [hframes]
  decide

def bare : Phys := { small with pmap := { small.pmap with entryCount := 0, head := none } }

def faulted (m : Act α) (s : Phys) : Option Phys :=
  match m s with
  | .error .fault s' => some s'
  | _ => none

theorem faulted_eq_some {m : Act α} (h : faulted m s = some s') : m s = .error .fault s' := by
  rw [faulted] at h
  split at h
  · rename_i heq
    rw [heq, Option.some.inj h]
  · cases h

theorem kmalloc_installs_all_ones : ¬ Op.kmalloc.Handles bare ∧
    ∃ s', Op.kmalloc.run bare = .error .fault s' ∧ s'.mem 0x4108 = -1 ∧ s'.log = [.wrote (-1), .failed] := by
  have heval : (faulted Op.kmalloc.run bare).map (fun s' => (s'.mem 0x4108, s'.log)) = some (-1, [.wrote (-1), .failed]) := by
    decide +kernel
  obtain ⟨s', hs', hafter⟩ := Option.map_eq_some_iff.mp heval
  obtain ⟨hmem, hlog⟩ := Prod.mk.inj hafter
  have hrun := faulted_eq_some hs'
  refine ⟨?_, s', hrun, hmem, hlog⟩
  rintro ⟨a, ha, hfails, _⟩
  rw [final, hrun, show bare.log = [] from rfl, List.append_nil, hlog] at ha
  obtain ⟨⟨s'', hpanic⟩, _⟩ := hfails (by rw [← ha]; decide)
  rw [hrun] at hpanic
  cases hpanic

end Phys

end Os506
