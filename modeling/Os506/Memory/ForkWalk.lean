import Os506.Memory.Demand

namespace Os506

open Pging CopyOnWrite Run

/-- The entries that the walk over a stack reads: the first one that is not present is the last. -/
def Tables.stackSlots (t : Tables) : List ℕ → List ℕ
  | [] => []
  | p :: l => p :: if isPresent (t.pte p) then t.stackSlots l else []

namespace PMap

variable {s : PMap} {f : BitVec 64} {n : ℕ}

theorem incMapCount_room (h : s.Room n) (hok : (s.incMapCount f).2.Ok) : (s.incMapCount f).2.Room n := by
  obtain ⟨l, hl, hn⟩ := h
  cases hw : s.walkList f with
  | none => rw [incMapCount_none hw]; exact ⟨l, hl, hn⟩
  | some i =>
    by_cases hz : (s.desc i).mapCount = 0
    · rw [incMapCount_free hw hz]; exact ⟨l, hl, hn⟩
    · have hstate : (s.incMapCount f).2 = s.modify i fun d => { d with mapCount := d.mapCount + 1 } := by
        simp only [incMapCount, hw, if_neg hz]
      obtain ⟨l', hl'⟩ := hok.free
      have hsub : l ⊆ l' := fun j hj => by
        obtain ⟨hlt, hzero⟩ := (hl.mem j).mp hj
        have hne : j ≠ i := fun he => hz (he ▸ hzero)
        rw [hl'.mem, hstate, modify_desc_of_ne _ hne]
        exact ⟨hlt, hzero⟩
      exact ⟨l', hl', hn.trans (List.subperm_of_subset (Linked.chain_nodup hl.chain) hsub).length_le⟩

end PMap

namespace Mach

variable {m m' : Mach} {slack : ℕ → ℕ} {i j p n : ℕ} {f g flags : BitVec 64} {l : List ℕ}

def forkSlots (m : Mach) (i : ℕ) : List ℕ :=
  (m.mm i).vm.flatMap fun v => if v.type = .stack then (m.tables i).stackSlots v.stackPages else v.pages

structure ForkRuns (i : ℕ) (m : Mach) : Prop where
  reads : ∀ p ∈ m.forkSlots i, (m.tables i).Reached p
  returns : ∀ frames, m.pmap.Room (frames + 4 * (m.forkSlots i).length) →
    m.vmas + (m.mm i).vm.length ≤ vmaLimit → ∃ m', m.forkProcess i frames = some m'

theorem reached_congr (h : m'.nodes i = m.nodes i) : (m'.tables i).Reached p ↔ (m.tables i).Reached p := by
  have hnode : ∀ l k, isPresent ((m'.tables i).upper l k) = true ↔ isPresent ((m.tables i).upper l k) = true :=
    fun l k => iff_of_eq (congrArg (Node.table l k ∈ ·) h)
  exact forall_congr' fun l => hnode l _

theorem stackSlots_congr (h : m'.nodes i = m.nodes i) (l : List ℕ) :
    (m'.tables i).stackSlots l = (m.tables i).stackSlots l := by
  induction l with
  | nil => rfl
  | cons p l ih =>
    have hpage : (isPresent ((m'.tables i).pte p) = true) = (isPresent ((m.tables i).pte p) = true) :=
      congrArg (Node.page p ∈ ·) h
    simp only [Tables.stackSlots, hpage, ih]

theorem needTable_other {l : Level} (hij : i ≠ j) (hm : m.needTable j p flags l = some m') :
    m'.tables i = m.tables i := by
  rw [needTable] at hm
  split at hm
  · exact Option.some.inj hm ▸ rfl
  · obtain ⟨⟨g, m₁⟩, hg, rfl⟩ := Option.map_eq_some_iff.mp hm
    obtain ⟨s, _, rfl⟩ := getFreePage_some hg
    rw [modifyTables_of_ne _ _ hij]
    rfl

theorem mapPage_other (hij : i ≠ j) (hm : m.mapPage j f p flags = some m') : m'.tables i = m.tables i := by
  obtain ⟨m₁, h₁, hm⟩ := Option.bind_eq_some_iff.mp hm
  obtain ⟨m₂, h₂, hm⟩ := Option.bind_eq_some_iff.mp hm
  obtain ⟨m₃, h₃, rfl⟩ := Option.map_eq_some_iff.mp hm
  have htab : m₃.tables i = m.tables i := by
    rw [needTable_other hij h₃, needTable_other hij h₂, needTable_other hij h₁]
  split
  · exact htab
  · rw [setPte, modifyTables_of_ne _ _ hij, htab]

theorem isPresent_protect (e : BitVec 64) : isPresent ((e &&& ~~~pageRW) ||| pageCow) = isPresent e := by
  have hbit : ((e &&& ~~~pageRW) ||| pageCow) &&& pageP = e &&& pageP := by
    have hcow : pageP &&& pageCow = 0#64 := by decide
    have hrw : ~~~pageRW &&& pageP = pageP := by decide
    rw [BitVec.and_comm, BitVec.and_or_distrib_left, hcow, BitVec.or_zero, BitVec.and_comm, BitVec.and_assoc, hrw]
  rw [isPresent, isPresent, hbit]

theorem sharePage_total (h : Sound slack m) (hpos : 0 < slack p) (hc : Copied i j m) (hij : i ≠ j)
    (hr : (m.tables i).Reached p) (hroom : m.pmap.Room (n + 3)) :
    ∃ m', m.sharePage i j p = some m' ∧ m'.pmap.Room n ∧ m'.nodes i = m.nodes i := by
  by_cases hp : isPresent ((m.tables i).pte p) = true
  · -- the parent's entry loses the right to write, then the child gets the page
    have hstep : ∀ (e : BitVec 64) (m₁ : Mach), m₁.pmap = m.pmap → m₁.nodes i = m.nodes i →
        m.sharePage i j p = (m₁.mapPage j e p (e &&& 0xFFF)).map (incMapCount (e &&& ~~~0xFFF)) →
        ∃ m', m.sharePage i j p = some m' ∧ m'.pmap.Room n ∧ m'.nodes i = m.nodes i := by
      intro e m₁ hpmap hnodes heq
      obtain ⟨m₂, hm₂, hroom₂⟩ : ∃ m₂, m₁.mapPage j e p (e &&& 0xFFF) = some m₂ ∧ m₂.pmap.Room n :=
        mapPage_room (hpmap.symm ▸ hroom)
      rw [hm₂, Option.map_some] at heq
      obtain ⟨hadv, _⟩ := sharePage_spec h hpos hc heq
      refine ⟨_, heq, PMap.incMapCount_room hroom₂ hadv.sound.ok, ?_⟩
      exact (congrArg Tables.nodes (mapPage_other hij hm₂)).trans hnodes
    by_cases hrw : isRW ((m.tables i).pte p) = true
    · apply hstep (((m.tables i).pte p &&& ~~~pageRW) ||| pageCow)
        (m.setPte i p (((m.tables i).pte p &&& ~~~pageRW) ||| pageCow)) rfl
      · have hmem : Node.page p ∈ (m.tables i).nodes := hp
        rw [nodes, setPte, modifyTables_self, Tables.nodes_setPte _ ((isPresent_protect _).trans hp),
          Set.insert_eq_of_mem hmem, nodes]
      · rw [sharePage, if_neg (not_not.mpr hr)]
        simp only [hp, hrw, ↓reduceIte]
    · apply hstep ((m.tables i).pte p) m rfl rfl
      rw [sharePage, if_neg (not_not.mpr hr)]
      simp only [hp, hrw, ↓reduceIte]
      rfl
  · refine ⟨m, ?_, hroom.mono (Nat.le_add_right n 3), rfl⟩
    rw [sharePage, if_neg (not_not.mpr hr)]
    exact if_neg hp

theorem sharePages_total (h : Sound (fun q => l.count q) m) (hij : i ≠ j) (hc : Copied i j m)
    (hr : ∀ p ∈ l, (m.tables i).Reached p) (hroom : m.pmap.Room (4 * l.length + n)) :
    ∃ m', m.sharePages i j l = some m' ∧ m'.pmap.Room n ∧ m'.nodes i = m.nodes i := by
  induction l generalizing m with
  | nil => exact ⟨m, rfl, hroom.mono (Nat.le_add_left n _), rfl⟩
  | cons p l ih =>
    have hpos : 0 < (p :: l).count p := List.count_pos_iff.mpr List.mem_cons_self
    obtain ⟨m₁, hm₁, hroom₁, hnodes₁⟩ : ∃ m₁, m.sharePage i j p = some m₁ ∧ m₁.pmap.Room (4 * l.length + n) ∧
        m₁.nodes i = m.nodes i :=
      sharePage_total h hpos hc hij (hr p List.mem_cons_self) (hroom.mono (by rw [List.length_cons]; omega))
    obtain ⟨hadv, hseen, _⟩ := sharePage_spec h hpos hc hm₁
    have hs₁ : Sound (fun q => l.count q) m₁ := count_update p l ▸ hadv.sound
    obtain ⟨m₂, hm₂, hroom₂, hnodes₂⟩ := ih hs₁ (hc.sees hij hseen)
      (fun q hq => (reached_congr hnodes₁).mpr (hr q (List.mem_cons_of_mem p hq))) hroom₁
    exact ⟨m₂, by rw [sharePages, hm₁, Option.bind_some, hm₂], hroom₂, hnodes₂.trans hnodes₁⟩

theorem copyPage_total (hij : i ≠ j) (hroom : m.pmap.Room (n + 4)) :
    ∃ m', m.copyPage i j p = some m' ∧ m'.pmap.Room n ∧ m'.nodes i = m.nodes i := by
  obtain ⟨g, m₁, hg, hroom₁⟩ := getFreePage_room hroom
  obtain ⟨m₂, hm₂, hroom₂⟩ : ∃ m₂, ((m₁.zeroPage g).setPage g
      ((m₁.zeroPage g).mem (Mmu.frame (((m₁.zeroPage g).tables i).pte p)))).mapPage j g p rwUser = some m₂ ∧
      m₂.pmap.Room n := mapPage_room hroom₁
  refine ⟨m₂, ?_, hroom₂, ?_⟩
  · rw [copyPage, hg, Option.bind_some]
    exact hm₂
  · have hother := mapPage_other hij hm₂
    obtain ⟨s, _, rfl⟩ := getFreePage_some hg
    exact congrArg Tables.nodes hother

theorem copyStack_total (hij : i ≠ j) (hr : ∀ p ∈ (m.tables i).stackSlots l, (m.tables i).Reached p)
    (hroom : m.pmap.Room (4 * ((m.tables i).stackSlots l).length + n)) : ∃ m', m.copyStack i j l = some m' := by
  induction l generalizing m with
  | nil => exact ⟨m, rfl⟩
  | cons p l ih =>
    have hp : (m.tables i).Reached p := hr p List.mem_cons_self
    rw [copyStack, if_neg (not_not.mpr hp)]
    rw [Tables.stackSlots] at hr hroom
    split
    · rename_i hpage
      rw [if_pos hpage] at hr hroom
      obtain ⟨m₁, hm₁, hroom₁, hnodes⟩ : ∃ m₁, m.copyPage i j p = some m₁ ∧
          m₁.pmap.Room (4 * ((m.tables i).stackSlots l).length + n) ∧ m₁.nodes i = m.nodes i :=
        copyPage_total hij (hroom.mono (by rw [List.length_cons]; omega))
      rw [← stackSlots_congr hnodes] at hr hroom₁
      obtain ⟨m₂, hm₂⟩ := ih (fun q hq => (reached_congr hnodes).mpr (hr q (List.mem_cons_of_mem p hq))) hroom₁
      exact ⟨m₂, by rw [hm₁, Option.bind_some, hm₂]⟩
    · exact ⟨m, rfl⟩

theorem takeFrames_same (hm : m.takeFrames n = some m') : m'.tables = m.tables ∧ m'.count = m.count := by
  induction n generalizing m with
  | zero => exact Option.some.inj hm ▸ ⟨rfl, rfl⟩
  | succ n ih =>
    obtain ⟨⟨g, m₁⟩, hg, hm⟩ := Option.bind_eq_some_iff.mp hm
    obtain ⟨htab, hcount⟩ := ih hm
    obtain ⟨s, _, rfl⟩ := getFreePage_some hg
    exact ⟨htab, hcount⟩

theorem newMm_other {vm : List Vma} {brk frames : ℕ} (hi : i ≠ m.count) (hm : m.newMm vm brk frames = some m') :
    m'.tables i = m.tables i := by
  rw [newMm] at hm
  split at hm
  · cases hm
  · obtain ⟨m₁, hm₁, rfl⟩ := Option.map_eq_some_iff.mp hm
    obtain ⟨htab, hcount⟩ := takeFrames_same hm₁
    rw [← htab, tables, tables]
    dsimp only
    rw [Function.update_of_ne (hcount.symm ▸ hi)]

theorem Lays.forkSlots_eq {front : List Vma} (h : Lays m i front) :
    m.forkSlots i = front.flatMap Vma.pages ++ (m.tables i).stackSlots stackVma.stackPages := by
  have hfront : (front.flatMap fun v => if v.type = .stack then (m.tables i).stackSlots v.stackPages else v.pages) =
      front.flatMap Vma.pages := List.flatMap_congr fun v hv => if_neg (h.user v hv).1
  rw [forkSlots, h.vm, List.flatMap_append, hfront, List.flatMap_singleton]
  rfl

theorem Inv.fork_total {frames : ℕ} (h : Inv m) (hi : i < m.count) (hr : ∀ p ∈ m.forkSlots i, (m.tables i).Reached p)
    (hroom : m.pmap.Room (frames + 4 * (m.forkSlots i).length)) (hv : m.vmas + (m.mm i).vm.length ≤ vmaLimit) :
    ∃ m', m.forkProcess i frames = some m' := by
  obtain ⟨front, hlay⟩ := h.laid i hi
  have hij : i ≠ m.count := hi.ne
  rw [hlay.forkSlots_eq] at hr hroom
  rw [List.length_append, Nat.mul_add] at hroom
  obtain ⟨m₁, hm₁, hroom₁⟩ := newMm_room (m.mm i).brk hv hroom
  have hlen : ∀ q, (front.flatMap Vma.pages).count q ≤ (m.mm i).vm.length := fun q => by
    have := count_pages_le front q
    rw [hlay.vm, List.length_append]
    omega
  obtain ⟨hs₁, hseen₁, _⟩ := newMm_spec h.sound (h.blank _ le_rfl) hm₁ hlen
  have hnodes₁ : m₁.nodes i = m.nodes i := congrArg Tables.nodes (newMm_other hij hm₁)
  have hc : Copied i m.count m₁ := fun q => .inl (by rw [hseen₁]; exact h.blank _ le_rfl q)
  obtain ⟨m₂, hm₂, hroom₂, hnodes₂⟩ := sharePages_total hs₁ hij hc
    (fun p hp => (reached_congr hnodes₁).mpr (hr p (List.mem_append_left _ hp))) hroom₁
  have hnodes := hnodes₂.trans hnodes₁
  rw [← stackSlots_congr hnodes] at hr hroom₂
  obtain ⟨m₃, hm₃⟩ := copyStack_total (n := 0) hij
    (fun p hp => (reached_congr hnodes).mpr (hr p (List.mem_append_right _ hp))) hroom₂
  refine ⟨m₃, ?_⟩
  rw [forkProcess, hm₁, Option.bind_some, hlay.vm, forkVmas_front fun v hv => (hlay.user v hv).1, hm₂,
    Option.bind_some, hm₃]

end Mach

inductive GrowOp
  | brk (addr : ℕ)
  | fault (va : ℕ)

def GrowOp.step (i : ℕ) : GrowOp → Mach → Option Mach
  | brk addr, m => some (m.sysBrk i addr)
  | fault va, m => if m.faultCode i va then none else m.handlePgFault i va false

namespace Mach

variable {m m' : Mach} {i j p va : ℕ} {segments : List Segment} {v : Vma}

def Holds (l : List ℕ) (i : ℕ) (m : Mach) : Prop := m.nodes i = {x | ∃ q ∈ l, x ∈ Node.path q}

theorem Holds.reached_iff {l : List ℕ} (h : Holds l i m) (hr : (m.tables i).Rooted) :
    (m.tables i).Reached p ↔ ∃ q ∈ l, q / 512 = p / 512 := by
  have hmem : Node.table .pde (p / 512) ∈ m.nodes i ↔ ∃ q ∈ l, q / 512 = p / 512 := by
    rw [h]
    simp only [Node.path, Set.mem_ofPred_eq]
    constructor
    · rintro ⟨q, hq, hx | ⟨k, hx⟩⟩
      · cases hx
      · obtain ⟨rfl, hx⟩ := Node.table.inj hx
        exact ⟨q, hq, hx.symm⟩
    · rintro ⟨q, hq, hx⟩
      exact ⟨q, hq, .inr ⟨.pde, congrArg (Node.table .pde) hx.symm⟩⟩
  exact hr.reached_iff_mem.trans hmem

theorem Holds.seen_iff {l : List ℕ} (h : Holds l i m) : m.seen i p ≠ none ↔ p ∈ l := by
  rw [← page_mem_nodes, h]
  simp only [Node.path, Set.mem_ofPred_eq]
  constructor
  · rintro ⟨q, hq, hx | ⟨k, hx⟩⟩
    · exact Node.page.inj hx ▸ hq
    · cases hx
  · intro hp
    exact ⟨p, hp, .inl rfl⟩

theorem Holds.mapPages {slack : ℕ → ℕ} {l l' : List ℕ} (h : Holds l i m) (hs : Sound slack m)
    (hm : m.mapPages i rwUser l' = some m') : Holds (l ++ l') i m' := by
  have hnodes := (mapPages_pays hs hm).1
  rw [Holds, hnodes, h]
  ext x
  simp only [Set.mem_union, Set.mem_ofPred_eq, List.mem_append, or_and_right, exists_or]

theorem storeBytes_tables {l : List UInt8} (hm : m.storeBytes i va l = some m') : m'.tables = m.tables := by
  induction l generalizing m va with
  | nil => exact Option.some.inj hm ▸ rfl
  | cons b l ih =>
    rw [storeBytes] at hm
    split at hm
    · have htail : m'.tables = (m.store i va b).tables := ih hm
      exact htail
    · cases hm

theorem Holds.loadSegments {l : List ℕ} (h : Holds l i m) (hinv : Inv m) (hi : i < m.count)
    (hv : ∀ g ∈ segments, g.vma ∈ (m.mm i).vm) (hm : m.loadSegments i segments = some m') :
    Holds (l ++ segments.flatMap fun g => populated g.vma) i m' := by
  induction segments generalizing m l with
  | nil =>
    obtain rfl := Option.some.inj hm
    rwa [List.flatMap_nil, List.append_nil]
  | cons g segments ih =>
    rw [List.forall_mem_cons] at hv
    obtain ⟨m₃, hm₃, hm⟩ := Option.bind_eq_some_iff.mp hm
    obtain ⟨hinv₃, ha, _⟩ := loadSegment_spec hinv hi hv.1 hm₃
    obtain ⟨m₁, hm₁, hm₃⟩ := Option.bind_eq_some_iff.mp hm₃
    obtain ⟨m₂, hm₂, hm₃⟩ := Option.bind_eq_some_iff.mp hm₃
    have hsize : g.vma.stop - g.vma.start = g.memsz := Nat.add_sub_cancel_left _ _
    have hmap : m.mapPages i rwUser (populated g.vma) = some m₁ := by
      rw [populated, hsize]
      exact hm₁
    have htab : m₃.tables = m₁.tables := (storeBytes_tables hm₃).trans (storeBytes_tables hm₂)
    have hholds : Holds (l ++ populated g.vma) i m₃ := by
      rw [Holds, nodes, htab]
      exact h.mapPages hinv.sound hmap
    have hrest := ih hholds hinv₃ (ha.count.symm ▸ hi) (fun g hg => by rw [ha.vm]; exact hv.2 g hg) hm
    rwa [List.flatMap_cons, ← List.append_assoc]

structure Parent (segments : List Segment) (i : ℕ) (m : Mach) : Prop where
  inv : Inv m
  lt : i < m.count
  vm : ∃ stop, (m.mm i).vm = segments.map Segment.vma ++ [⟨loadBrk segments, stop, .heap⟩, stackVma]
  holds : ∃ l, Holds l i m ∧ (∀ g ∈ segments, ∀ q ∈ g.vma.pages, q ∈ l) ∧ 0xEFFFFFF ∈ l

theorem newMm_new {vm : List Vma} {brk frames : ℕ} (hm : m.newMm vm brk frames = some m') : m'.tables m.count = {} := by
  rw [newMm] at hm
  split at hm
  · cases hm
  · obtain ⟨m₁, hm₁, rfl⟩ := Option.map_eq_some_iff.mp hm
    rw [← (takeFrames_same hm₁).2, tables]
    dsimp only
    rw [Function.update_self]

theorem mem_populated_segment {g : Segment} (hp : p ∈ g.vma.pages) : p ∈ populated g.vma := by
  obtain ⟨hle, hlt⟩ := Vma.mem_pages.mp hp
  have hsize : g.vma.stop - g.vma.start = g.memsz := Nat.add_sub_cancel_left _ _
  rw [populated, hsize]
  exact kmmapPages_all g.size_lt hle hlt

theorem Inv.load_parent {args : List UInt8} {frames : ℕ} (h : Inv m) (hm : m.loadElf segments args frames = some m') :
    Parent segments m.count m' := by
  obtain ⟨hinv, hcount, _⟩ := loadElf_spec h hm
  refine ⟨hinv, by omega, ⟨loadBrk segments, (loadElf_seen h hm).1⟩, ?_⟩
  obtain ⟨m₁, m₂, m₃, hm₁, hm₂, hm₃, hm⟩ := loadElf_stages hm
  obtain ⟨hinv₁, _⟩ := newMm_load h hm₁
  obtain ⟨hlt, hsegs⟩ := newMm_vma h hm₁
  have hnew : Holds [] m.count m₁ := by
    rw [Holds, nodes, newMm_new hm₁]
    ext x
    cases x <;> simp [Tables.nodes, Tables.entry, isPresent]
  have hholds₂ := hnew.loadSegments hinv₁ hlt hsegs hm₂
  obtain ⟨hinv₂, _⟩ := loadSegments_spec hinv₁ hlt hsegs hm₂
  have hholds₃ := hholds₂.mapPages hinv₂.sound hm₃
  have htop : 0xEFFFFFF ∈ List.range' ((userStackTop - 4096) / 4096)
      (kmmapPages (userStackTop - 4096) (Int.bmod (4096 : ℕ) (2 ^ 32))).toNat := by decide
  have hend : m'.nodes m.count = m₃.nodes m.count := congrArg Tables.nodes (congrFun (storeBytes_tables hm) _)
  refine ⟨_, hend.trans hholds₃, fun g hg q hq => ?_, List.mem_append_right _ htop⟩
  apply List.mem_append_left
  exact List.mem_flatMap.mpr ⟨g, hg, mem_populated_segment hq⟩

theorem sysBrk_tables (m : Mach) (i addr : ℕ) : (m.sysBrk i addr).tables = m.tables := by
  rw [sysBrk]
  split
  · rfl
  · funext k
    by_cases hk : k = i
    · subst hk; simp [tables, setMm]
    · simp [tables, setMm, hk]

theorem growHeap_segments (addr : ℕ) (l : List Vma) (segments : List Segment) :
    growHeap addr (segments.map Segment.vma ++ l) = segments.map Segment.vma ++ growHeap addr l := by
  induction segments with
  | nil => rfl
  | cons g segments ih =>
    rw [List.map_cons, List.cons_append, growHeap, if_neg (by simp [Segment.vma]), ih]
    rfl

theorem Parent.brk (h : Parent segments i m) (addr : ℕ) : Parent segments i (m.sysBrk i addr) := by
  obtain ⟨hinv, hcount, _⟩ := sysBrk_spec h.inv i addr
  obtain ⟨l, hl, hrest⟩ := h.holds
  refine ⟨hinv, hcount.symm ▸ h.lt, ?_, l, ?_, hrest⟩
  · obtain ⟨stop, hvm⟩ := h.vm
    rw [sysBrk]
    split
    · exact ⟨stop, hvm⟩
    · simp only [setMm, Function.update_self, hvm]
      split
      · rw [growHeap_segments, growHeap, if_pos rfl]
        split
        · exact ⟨_, rfl⟩
        · exact ⟨stop, rfl⟩
      · exact ⟨stop, rfl⟩
  · rw [Holds, nodes, sysBrk_tables]
    exact hl

theorem Parent.fault (h : Parent segments i m) (hm : m.handlePgFault i va false = some m') : Parent segments i m' := by
  obtain ⟨hinv, ha, _⟩ := handlePgFault_spec h.inv h.lt hm
  obtain ⟨l, hl, hsegs, htop⟩ := h.holds
  refine ⟨hinv, ha.count.symm ▸ h.lt, ?_, ?_⟩
  · obtain ⟨stop, hvm⟩ := h.vm
    exact ⟨stop, (ha.vm i).trans hvm⟩
  · rw [handlePgFault] at hm
    split at hm
    · cases hm
    · rw [if_neg (by decide)] at hm
      split at hm
      · exact ⟨_, hl.mapPages h.inv.sound hm, fun g hg q hq => List.mem_append_left _ (hsegs g hg q hq),
          List.mem_append_left _ htop⟩
      · cases hm

theorem Parent.step {op : GrowOp} (h : Parent segments i m) (hm : op.step i m = some m') : Parent segments i m' := by
  cases op with
  | brk addr => exact Option.some.inj hm ▸ h.brk addr
  | fault va =>
    rw [GrowOp.step] at hm
    split at hm
    · cases hm
    · exact h.fault hm

theorem stackSlots_sub {t : Tables} {l : List ℕ} (hp : p ∈ t.stackSlots l) : p ∈ l := by
  induction l with
  | nil => cases hp
  | cons q l ih =>
    rw [Tables.stackSlots, List.mem_cons] at hp
    rcases hp with rfl | hp
    · exact List.mem_cons_self
    · split at hp
      · exact List.mem_cons_of_mem q (ih hp)
      · cases hp

theorem Inv.forkRuns (h : Inv m) (hi : i < m.count) :
    ForkRuns i m ↔ ∀ p ∈ m.forkSlots i, (m.tables i).Reached p :=
  ⟨fun hf => hf.reads, fun hr => ⟨hr, fun _ hroom hv => h.fork_total hi hr hroom hv⟩⟩

/-- A parent can be forked exactly when every block of 2 MiB that its heap reaches into holds a page that is there. -/
theorem forkRuns_iff {m₀ m₁ : Mach} {args : List UInt8} {frames : ℕ} {ops : List GrowOp} (h : m₀.Reachable)
    (hload : m₀.loadElf segments args frames = some m₁) (hrun : exec (GrowOp.step m₀.count) ops m₁ = some m) :
    ForkRuns m₀.count m ↔ ∀ v ∈ (m.mm m₀.count).vm, v.type = .heap →
      ∀ p ∈ v.pages, ∃ q, m.seen m₀.count q ≠ none ∧ q / 512 = p / 512 := by
  have hpar : Parent segments m₀.count m :=
    exec_of_along (along_of_inv (fun _ _ _ hp hs => Parent.step hp hs) (h.inv.load_parent hload) ops) hrun
  obtain ⟨stop, hvm⟩ := hpar.vm
  obtain ⟨l, hl, hsegs, htop⟩ := hpar.holds
  have hreach : ∀ p, (m.tables m₀.count).Reached p ↔ ∃ q ∈ l, q / 512 = p / 512 := fun p =>
    hl.reached_iff (hpar.inv.sound.rooted _)
  rw [hpar.inv.forkRuns hpar.lt, forkSlots]
  simp only [List.mem_flatMap, hreach, hl.seen_iff]
  constructor
  · intro hr v hv hheap p hp
    exact hr p ⟨v, hv, by rw [if_neg (by rw [hheap]; decide)]; exact hp⟩
  · rintro hheap p ⟨v, hv, hp⟩
    rw [hvm] at hv hheap
    rcases List.mem_append.mp hv with hv | hv
    · -- a page of a segment was mapped by the loader
      obtain ⟨g, hg, rfl⟩ := List.mem_map.mp hv
      rw [if_neg (by simp [Segment.vma])] at hp
      exact ⟨p, hsegs g hg p hp, rfl⟩
    · rcases List.mem_cons.mp hv with rfl | hv
      · rw [if_neg (by simp)] at hp
        exact hheap _ (by simp) rfl p hp
      · -- the whole stack lies in the block of its top page
        obtain rfl := List.mem_singleton.mp hv
        have hstack : stackVma.type = .stack := rfl
        rw [if_pos hstack] at hp
        have hp := Vma.mem_stackPages.mp (stackSlots_sub hp)
        exact ⟨0xEFFFFFF, htop, by omega⟩

def edgeSegment : Segment := { tinySegment with vaddr := 0x5FE000, user := by decide }

theorem forkRuns_after_fault : ∃ m₁ m, (blank 128).loadElf [edgeSegment] [] 0 = some m₁ ∧
    exec (GrowOp.step 0) [.brk 0x601000, .fault 0x600000] m₁ = some m ∧ ForkRuns 0 m := by
  have hfacts : ((blank 128).loadElf [edgeSegment] [] 0).any (fun m₁ =>
      (exec (GrowOp.step 0) [.brk 0x601000, .fault 0x600000] m₁).any fun m =>
        (m.mm 0).vm.all fun v => v.type != .heap || v.pages.all fun p => isPresent ((m.tables 0).pte p)) = true := by
    decide +kernel
  obtain ⟨m₁, hload, hfacts⟩ := (Option.any_eq_true _ _).mp hfacts
  obtain ⟨m, hrun, hfacts⟩ := (Option.any_eq_true _ _).mp hfacts
  have hreach : (blank 128).Reachable := ⟨blank 128, [], blank_booted (by decide), rfl⟩
  refine ⟨m₁, m, hload, hrun, (forkRuns_iff hreach hload hrun).mpr fun v hv hheap p hp => ⟨p, ?_, rfl⟩⟩
  have hpages := List.all_eq_true.mp hfacts v hv
  rw [hheap, Bool.or_eq_true] at hpages
  have hall := hpages.resolve_left (by decide)
  exact isPresent_iff_seen.mp (List.all_eq_true.mp hall p hp)

theorem fork_reads_missing_table : ∃ m₁ m, (blank 128).loadElf [edgeSegment] [] 0 = some m₁ ∧
    exec (GrowOp.step 0) [.brk 0x601000] m₁ = some m ∧
    m.pmap.Room (2 + 4 * (m.forkSlots 0).length) ∧ m.forkProcess 0 2 = none ∧ ¬ ForkRuns 0 m := by
  have hfacts : ((blank 128).loadElf [edgeSegment] [] 0).any (fun m₁ =>
      (exec (GrowOp.step 0) [.brk 0x601000] m₁).any fun m =>
        2 + 4 * (m.forkSlots 0).length ≤ m.pmap.avail && (m.forkProcess 0 2).isNone &&
        (m.forkSlots 0).any fun p => !decide ((m.tables 0).Reached p)) = true := by
    decide +kernel
  obtain ⟨m₁, hload, hfacts⟩ := (Option.any_eq_true _ _).mp hfacts
  obtain ⟨m, hrun, hfacts⟩ := (Option.any_eq_true _ _).mp hfacts
  simp only [Bool.and_eq_true, decide_eq_true_eq, Option.isNone_iff_eq_none, List.any_eq_true, Bool.not_eq_true',
    decide_eq_false_iff_not] at hfacts
  obtain ⟨⟨havail, hnone⟩, p, hp, hmiss⟩ := hfacts
  refine ⟨m₁, m, hload, hrun, ?_, hnone, fun hf => hmiss (hf.reads p hp)⟩
  have hpar := (blank_booted (n := 128) (by decide)).inv.load_parent hload
  have hend : Parent [edgeSegment] 0 m :=
    exec_of_along (along_of_inv (fun _ _ _ hp hs => Parent.step hp hs) hpar _) hrun
  obtain ⟨l, hl⟩ := hend.inv.sound.ok.free
  exact ⟨l, hl, hl.length_eq.symm ▸ havail⟩

end Mach

end Os506
