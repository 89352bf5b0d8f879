import Os506.Files.Descriptors

namespace Os506

open Run Sched Tarfs

namespace Files

variable {x y : Files} {c t : ℕ} {n fd : Fin 50} {a : ℕ} {r : Option FileRef}

def Bounded (x : Files) : Prop := ∀ a, x.fresh ≤ a → x.obj a = none

def FreesUnused (x y : Files) : Prop := ∀ a, (x.obj a).isSome → y.obj a = none → y.slots a = ∅

theorem freesUnused_of_isSome (h : ∀ a, (x.obj a).isSome → (y.obj a).isSome) : x.FreesUnused y := by
  intro a ha hn
  have := h a ha
  rw [hn] at this
  cases this

theorem slots_setSlot (hc : x.sched.Live c) (r : Option FileRef) (a : ℕ) : (x.setSlot c fd r).slots a =
    if r = some (.object a) then insert (c, fd) (x.slots a) else (x.slots a).erase (c, fd) := by
  ext ⟨t, n⟩
  rw [mem_slots, setSlot_live, setSlot_slot]
  by_cases he : t = c ∧ n = fd
  · obtain ⟨rfl, rfl⟩ := he
    by_cases hr : r = some (.object a)
    · rw [if_pos ⟨rfl, rfl⟩, if_pos hr]
      exact iff_of_true ⟨hc, hr⟩ (Finset.mem_insert_self _ _)
    · rw [if_pos ⟨rfl, rfl⟩, if_neg hr]
      exact iff_of_false (fun h => hr h.2) (Finset.notMem_erase _ _)
  · have hne : (t, n) ≠ (c, fd) := fun h => he ⟨congrArg Prod.fst h, congrArg Prod.snd h⟩
    rw [if_neg he]
    split
    · rw [Finset.mem_insert, mem_slots]
      simp [hne]
    · rw [Finset.mem_erase, mem_slots]
      simp [hne]

theorem slots_congr (hs : y.sched = x.sched) (a : ℕ) : y.slots a = x.slots a := by
  ext ⟨t, n⟩
  rw [mem_slots, mem_slots, slot, slot, hs]

theorem slots_fresh (hb : x.Bounded) (h : x.Sound) : x.slots x.fresh = ∅ := by
  rw [Finset.eq_empty_iff_forall_notMem]
  rintro ⟨t, n⟩ hm
  obtain ⟨ht, hs⟩ := mem_slots.mp hm
  have := h.alive t ht n _ hs
  rw [hb _ le_rfl] at this
  cases this

theorem sound_install {o : FileObj} (hb : x.Bounded) (h : x.Sound) (hc : x.sched.Live c) (hfd : x.slot c fd = none)
    (ho : o.count = 1) (hs : y.sched = (x.setSlot c fd (some (.object x.fresh))).sched)
    (hobj : y.obj = Function.update x.obj x.fresh (some o)) : y.Sound := by
  have hslots : ∀ a, y.slots a = (x.setSlot c fd (some (.object x.fresh))).slots a := slots_congr hs
  constructor
  · intro t ht n a ha
    have hslot : y.slot t n = (x.setSlot c fd (some (.object x.fresh))).slot t n := by simp only [slot, hs]
    rw [hs, setSlot_live] at ht
    rw [hslot, setSlot_slot] at ha
    rw [hobj]
    split at ha
    · obtain rfl : x.fresh = a := by simpa using ha
      simp
    · by_cases hf : a = x.fresh
      · subst hf; simp
      · simpa [hf] using h.alive t ht n a ha
  · intro a p hp
    rw [hobj] at hp
    rw [hslots, slots_setSlot hc]
    by_cases hf : a = x.fresh
    · subst hf
      rw [Function.update_self] at hp
      rw [if_pos rfl, slots_fresh hb h, ← Option.some.inj hp, ho]
      rfl
    · rw [Function.update_of_ne hf] at hp
      rw [if_neg (by simpa using Ne.symm hf), Finset.erase_eq_of_notMem, h.count a p hp]
      intro hm
      rw [(mem_slots.mp hm).2] at hfd
      cases hfd

theorem sound_open (fs : Tarfs) (name : Option (List UInt8)) (flags : BitVec 32) (hb : x.Bounded) (h : x.Sound)
    (hc : x.sched.Live c) : (x.sysOpen fs c name flags).Sound ∧ (x.sysOpen fs c name flags).Bounded ∧
      x.FreesUnused (x.sysOpen fs c name flags) := by
  have hkeep : x.Sound ∧ x.Bounded ∧ x.FreesUnused x := ⟨h, hb, freesUnused_of_isSome fun _ => id⟩
  unfold sysOpen
  split
  · exact hkeep
  · split
    · exact hkeep
    · rename_i fd hfd
      split
      · exact hkeep
      · rename_i o ho
        have hnone : x.slot c fd = none := by simpa using List.find?_some hfd
        refine ⟨sound_install hb h hc hnone (tfsOpen_count ho) rfl rfl, fun a ha => ?_,
          freesUnused_of_isSome fun a ha => ?_⟩
        · have : x.fresh + 1 ≤ a := ha
          have hne : a ≠ x.fresh := by omega
          simp only [Function.update_of_ne hne]
          exact hb a (by omega)
        · by_cases hf : a = x.fresh
          · subst hf; simp
          · simpa [hf] using ha

theorem sound_close_object {o : FileObj} (h : x.Sound) (hc : x.sched.Live c)
    (hfd : x.slot c fd = some (.object a)) (ho : x.obj a = some o) (hs : y.sched = (x.setSlot c fd none).sched)
    (hobj : y.obj = Function.update x.obj a (tfsClose o)) : y.Sound ∧ x.FreesUnused y := by
  have hslots : ∀ b, y.slots b = (x.slots b).erase (c, fd) := fun b => by
    rw [slots_congr hs, slots_setSlot hc, if_neg (by simp)]
  have hmem : (c, fd) ∈ x.slots a := mem_slots.mpr ⟨hc, hfd⟩
  have hcount := h.count a o ho
  have hpos := Finset.card_pos.mpr ⟨_, hmem⟩
  have hcard : (y.slots a).card + 1 = (x.slots a).card := by
    rw [hslots, Finset.card_erase_of_mem hmem]
    omega
  have hnat : (o.count - 1).toNat = (y.slots a).card := by
    have : (1 : BitVec 64).toNat = 1 := rfl
    rw [BitVec.toNat_sub_of_le (by rw [BitVec.le_def]; omega)]
    omega
  -- the object is freed exactly when this was its last descriptor
  have hfree : tfsClose o = none → y.slots a = ∅ := by
    intro hn
    by_cases hz : o.count - 1 = 0
    · rw [← Finset.card_eq_zero, ← hnat, hz]
      rfl
    · rw [tfsClose, if_neg hz] at hn
      cases hn
  refine ⟨⟨fun t ht n b hb => ?_, fun b p hp => ?_⟩, fun b hb hn => ?_⟩
  · rw [hs, setSlot_live] at ht
    have hslot : y.slot t n = (x.setSlot c fd none).slot t n := by simp only [slot, hs]
    have hin : (t, n) ∈ y.slots b := mem_slots.mpr ⟨by rw [hs, setSlot_live]; exact ht, hb⟩
    rw [hslot, setSlot_slot] at hb
    split at hb
    · cases hb
    · rw [hobj]
      by_cases hba : b = a
      · subst hba
        rw [Function.update_self, Option.isSome_iff_ne_none]
        intro hn
        rw [hfree hn] at hin
        cases hin
      · rw [Function.update_of_ne hba]
        exact h.alive t ht n b hb
  · rw [hobj] at hp
    by_cases hba : b = a
    · subst hba
      rw [Function.update_self, tfsClose] at hp
      dsimp only at hp
      split at hp
      · cases hp
      · rw [← Option.some.inj hp, hnat]
    · rw [Function.update_of_ne hba] at hp
      rw [hslots, Finset.erase_eq_of_notMem, h.count b p hp]
      intro hm
      have := (mem_slots.mp hm).2
      rw [hfd, Option.some.injEq, FileRef.object.injEq] at this
      exact hba this.symm
  · rw [hobj] at hn
    by_cases hba : b = a
    · subst hba
      rw [Function.update_self] at hn
      exact hfree hn
    · rw [Function.update_of_ne hba] at hn
      rw [hn] at hb
      cases hb

theorem sound_close_term (h : x.Sound) (hc : x.sched.Live c) (hfd : x.slot c fd = some .term) :
    (x.setSlot c fd none).Sound := by
  constructor
  · intro t ht n b hb
    rw [setSlot_live] at ht
    rw [setSlot_slot] at hb
    split at hb
    · cases hb
    · exact h.alive t ht n b hb
  · intro b p hp
    rw [slots_setSlot hc, if_neg (by simp), Finset.erase_eq_of_notMem, h.count b p hp]
    intro hm
    rw [(mem_slots.mp hm).2] at hfd
    cases hfd

theorem bounded_update {o : Option FileObj} (hb : x.Bounded) (ha : (x.obj a).isSome)
    (hobj : y.obj = Function.update x.obj a o) (hf : y.fresh = x.fresh) : y.Bounded := by
  intro b hle
  rw [hf] at hle
  have hne : b ≠ a := by
    intro he
    rw [← he, hb b hle] at ha
    cases ha
  rw [hobj, Function.update_of_ne hne]
  exact hb b hle

theorem sound_close (hb : x.Bounded) (h : x.Sound) (hc : x.sched.Live c) (fd : Fin 50) :
    ∃ y, x.sysClose c fd = some y ∧ y.Sound ∧ y.Bounded ∧ x.FreesUnused y := by
  unfold sysClose
  cases hfd : x.slot c fd with
  | none => exact ⟨x, rfl, h, hb, freesUnused_of_isSome fun _ => id⟩
  | some f =>
    cases f with
    | term => exact ⟨_, rfl, sound_close_term h hc hfd, hb, freesUnused_of_isSome fun _ => id⟩
    | object a =>
      have halive := h.alive c hc fd a hfd
      obtain ⟨o, ho⟩ := Option.isSome_iff_exists.mp halive
      refine ⟨{ x.setSlot c fd none with obj := Function.update x.obj a (tfsClose o) }, by simp only [ho]; rfl, ?_⟩
      obtain ⟨hs, hf⟩ := sound_close_object h hc hfd ho (y := { x.setSlot c fd none with
        obj := Function.update x.obj a (tfsClose o) }) rfl rfl
      exact ⟨hs, bounded_update hb halive rfl rfl, hf⟩

theorem sound_onFile (hb : x.Bounded) (h : x.Sound) (hc : x.sched.Live c) (fd : Fin 50) {f : FileObj → FileObj}
    (hf : ∀ o, (f o).count = o.count) :
    ∃ y, x.onFile c fd f = some y ∧ y.Sound ∧ y.Bounded ∧ x.FreesUnused y := by
  have hkeep : x.Sound ∧ x.Bounded ∧ x.FreesUnused x := ⟨h, hb, freesUnused_of_isSome fun _ => id⟩
  unfold onFile
  cases hfd : x.slot c fd with
  | none => exact ⟨x, rfl, hkeep⟩
  | some r =>
    cases r with
    | term => exact ⟨x, rfl, hkeep⟩
    | object a =>
      have halive := h.alive c hc fd a hfd
      obtain ⟨o, ho⟩ := Option.isSome_iff_exists.mp halive
      refine ⟨{ x with obj := Function.update x.obj a (some (f o)) }, by simp only [ho]; rfl, ⟨?_, ?_⟩,
        bounded_update hb halive rfl rfl, freesUnused_of_isSome fun b hbs => ?_⟩
      · intro t ht n b hbs
        by_cases hba : b = a
        · subst hba; simp
        · simpa [hba] using h.alive t ht n b hbs
      · intro b p hp
        change p.count.toNat = (x.slots b).card
        by_cases hba : b = a
        · subst hba
          simp only [Function.update_self, Option.some.injEq] at hp
          rw [← hp, hf, h.count b o ho]
        · simp only [Function.update_of_ne hba] at hp
          exact h.count b p hp
      · by_cases hba : b = a
        · subst hba; simp
        · simpa [hba] using hbs

theorem mem_slots_new {k : Task} (hg : Grown k x.sched y.sched) (hrun : k.runnable = true) :
    (t, n) ∈ y.slots a ↔ (t, n) ∈ x.slots a ∨ t = x.sched.count ∧ k.fdarr n = some (.object a) := by
  rw [mem_slots, mem_slots, Live, Live, slot, slot, hg.count]
  by_cases he : t = x.sched.count
  · subst he
    rw [hg.new]
    simp [hrun]
  · by_cases hlt : t < x.sched.count
    · obtain ⟨m, hm⟩ := hg.old t hlt
      rw [hm]
      simp [he, hlt, Nat.lt_succ_of_lt hlt]
    · simp only [he, hlt, false_and, or_false, iff_false, not_and]
      omega

theorem sound_new {k : Task} (h : x.Sound) (hg : Grown k x.sched y.sched) (hrun : k.runnable = true)
    (hk : ∀ n a, k.fdarr n ≠ some (.object a)) (hobj : y.obj = x.obj) : y.Sound := by
  have hmem : ∀ t n a, (t, n) ∈ y.slots a ↔ (t, n) ∈ x.slots a := fun t n a => by
    rw [mem_slots_new hg hrun]
    exact or_iff_left fun hh => hk n a hh.2
  constructor
  · intro t ht n a hs
    obtain ⟨hl, hs⟩ := mem_slots.mp ((hmem t n a).mp (mem_slots.mpr ⟨ht, hs⟩))
    rw [hobj]
    exact h.alive t hl n a hs
  · intro a o ho
    rw [hobj] at ho
    rw [h.count a o ho]
    congr 1
    ext ⟨t, n⟩
    exact (hmem t n a).symm

theorem not_sound_fork {k : Task} (h : x.Sound) (hy : y.Sound) (hg : Grown k x.sched y.sched) (hrun : k.runnable = true)
    (hk : k.fdarr = (x.sched.task c).fdarr) (hc : x.sched.Live c) (hobj : y.obj = x.obj)
    (hn : x.slot c n = some (.object a)) : False := by
  obtain ⟨o, ho⟩ := Option.isSome_iff_exists.mp (h.alive c hc n a hn)
  have hbefore := h.count a o ho
  have hafter := hy.count a o (by rw [hobj]; exact ho)
  have hnew : (x.sched.count, n) ∈ y.slots a := (mem_slots_new hg hrun).mpr (.inr ⟨rfl, by rw [hk]; exact hn⟩)
  have hold : (x.sched.count, n) ∉ x.slots a := fun hm => by
    have := (mem_slots.mp hm).1.1
    omega
  have hsub : insert (x.sched.count, n) (x.slots a) ⊆ y.slots a := by
    rintro ⟨t, m⟩ hm
    rcases Finset.mem_insert.mp hm with hm | hm
    · rw [hm]; exact hnew
    · exact (mem_slots_new hg hrun).mpr (.inl hm)
  have := Finset.card_le_card hsub
  rw [Finset.card_insert_of_notMem hold] at this
  omega

end Files

namespace FileAct

open Files

variable {x : Files} {a : FileAct}

/-- A task that forks has no file of the archive open. -/
def Unshared (a : FileAct) (x : Files) : Prop :=
  match a.op with
  | .fork _ => ∀ n p, x.slot a.caller n ≠ some (.object p)
  | _ => True

theorem step_sound (fs : Tarfs) (hb : x.Bounded) (h : x.Sound) (he : a.Enabled x) :
    ∃ y, a.step fs x = some y ∧ y.Bounded ∧ x.FreesUnused y ∧ (y.Sound ↔ a.Unshared x) := by
  obtain ⟨c, op⟩ := a
  cases op with
  | create userp name entry =>
    obtain ⟨k, _, hrun, _, _, hk, hg, _⟩ := @effect_schedule x.sched c userp name entry
    exact ⟨_, rfl, hb, freesUnused_of_isSome fun _ => id, iff_of_true (sound_new h hg hrun hk rfl) trivial⟩
  | fork entry =>
    have hc : x.sched.Live c := he
    obtain ⟨k, _, _, hrun, _, _, hk, hg, _⟩ := effect_fork entry hc.1
    refine ⟨_, rfl, hb, freesUnused_of_isSome fun _ => id, fun hy n p hn => ?_, fun hu => ?_⟩
    · exact not_sound_fork h hy hg hrun hk hc rfl hn
    · exact sound_new h hg hrun (fun n p => by rw [hk]; exact hu n p) rfl
  | openFile name flags =>
    obtain ⟨hs, hbd, hf⟩ := sound_open fs name flags hb h he
    exact ⟨_, rfl, hbd, hf, iff_of_true hs trivial⟩
  | close fd =>
    obtain ⟨y, hy, hs, hbd, hf⟩ := sound_close hb h he fd
    exact ⟨y, hy, hbd, hf, iff_of_true hs trivial⟩
  | read fd count =>
    by_cases hz : count = 0
    · exact ⟨x, if_pos hz, hb, freesUnused_of_isSome fun _ => id, iff_of_true h trivial⟩
    · obtain ⟨y, hy, hs, hbd, hf⟩ := sound_onFile hb h he fd (f := tfsRead count) fun _ => rfl
      exact ⟨y, (if_neg hz).trans hy, hbd, hf, iff_of_true hs trivial⟩
  | getdents fd offset =>
    obtain ⟨y, hy, hs, hbd, hf⟩ := sound_onFile hb h he fd (f := fun o => { o with offset := offset }) fun _ => rfl
    exact ⟨y, hy, hbd, hf, iff_of_true hs trivial⟩

theorem step_frees (fs : Tarfs) {y : Files} (hb : x.Bounded) (h : x.Sound) (he : a.Enabled x)
    (hy : a.step fs x = some y) : x.FreesUnused y := by
  obtain ⟨y', hy', _, hf, _⟩ := step_sound fs hb h he
  exact Option.some.inj (hy'.symm.trans hy) ▸ hf

theorem lifetime_run (fs : Tarfs) (as : List FileAct) (h : Meets (step fs) Enabled Files.boot as) :
    Along (step fs) (fun x => x.Sound ∧ ∀ a y, Enabled a x → step fs a x = some y → x.FreesUnused y)
        Files.boot as ↔
      Meets (step fs) Unshared Files.boot as := by
  have hboot : Files.boot.Sound := by
    refine ⟨fun t ht n a hs => ?_, nofun⟩
    have : t < 1 := ht.1
    obtain rfl : t = 0 := by omega
    exact absurd ht.2 (by decide)
  have hb : Files.boot.Bounded := fun _ _ => rfl
  refine along_iff_meets (I := Bounded) (fun a x hb hp he => ?_) hb ⟨hboot, fun a y => step_frees fs hb hboot⟩ h
  obtain ⟨y, hy, hby, _, hiff⟩ := step_sound fs hb hp.1 he
  refine ⟨y, hy, fun _ => hby, fun hs => hiff.mp hs.1, fun hu => ?_⟩
  have hs := hiff.mpr hu
  exact ⟨hs, fun b z => step_frees fs hby hs⟩

instance (a : FileAct) (x : Files) : Decidable (a.Enabled x) :=
  match a with
  | ⟨_, .create ..⟩ => .isTrue trivial
  | ⟨c, .fork _⟩ | ⟨c, .openFile ..⟩ | ⟨c, .close _⟩ | ⟨c, .read ..⟩ | ⟨c, .getdents ..⟩ =>
    inferInstanceAs (Decidable (x.sched.Live c))

def noFiles (a : FileAct) (x : Files) : Bool :=
  match a.op with
  | .fork _ => (List.finRange 50).all fun n => x.slot a.caller n == none || x.slot a.caller n == some .term
  | _ => true

theorem unshared_of_noFiles (h : a.noFiles x = true) : a.Unshared x := by
  obtain ⟨c, op⟩ := a
  cases op with
  | fork entry =>
    intro n p hp
    have := List.all_eq_true.mp h n (List.mem_finRange n)
    simp [hp] at this
  | _ => trivial

theorem lifetime_run_root :
    Along (step ⟨[], 0x1000⟩) (fun x => x.Sound ∧
        ∀ a y, Enabled a x → step ⟨[], 0x1000⟩ a x = some y → x.FreesUnused y) Files.boot
      [⟨0, .create true [] 0⟩, ⟨1, .openFile (some [0x2F, 0x0A]) oDirectory⟩, ⟨1, .getdents 3 0⟩, ⟨1, .close 3⟩,
        ⟨1, .fork 0⟩, ⟨2, .openFile (some [0x2F, 0x0A]) 0⟩] := by
  apply (lifetime_run _ _ _).mpr
  · exact meets_of_check (fun _ _ => unshared_of_noFiles) (by decide +kernel)
  · exact meets_of_check (fun _ _ => of_decide_eq_true) (by decide +kernel)

theorem lifetime_fails_on_close_in_child :
    Meets (step ⟨[], 0x1000⟩) Enabled Files.boot
        [⟨0, .create true [] 0⟩, ⟨1, .openFile (some [0x2F, 0x0A]) 0⟩, ⟨1, .fork 0⟩, ⟨2, .close 3⟩] ∧
      ¬ Along (step ⟨[], 0x1000⟩) Files.Sound Files.boot
        [⟨0, .create true [] 0⟩, ⟨1, .openFile (some [0x2F, 0x0A]) 0⟩, ⟨1, .fork 0⟩, ⟨2, .close 3⟩] := by
  refine ⟨meets_of_check (fun _ _ => of_decide_eq_true) (by decide +kernel), ?_⟩
  refine not_along_of_exec (b := fun x => decide (x.sched.Live 1 ∧ x.slot 1 3 = some (.object 0) ∧
    (x.obj 0).isSome = false)) (fun x hx h => ?_) (by decide +kernel)
  obtain ⟨hl, hs, hn⟩ := of_decide_eq_true hx
  rw [h.alive 1 hl 3 0 hs] at hn
  cases hn

end FileAct

end Os506
