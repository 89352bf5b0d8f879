import Os506.Files.Readdir

namespace Os506

open Linked

namespace Member

def rest (dir : List UInt8) (m : Member) : List UInt8 := m.name.drop dir.length

def IsChild (dir : List UInt8) (m : Member) : Prop :=
  dir <+: m.name ∧ m.rest dir ≠ [] ∧ slash ∉ (m.rest dir).dropLast

instance (dir : List UInt8) (m : Member) : Decidable (m.IsChild dir) := inferInstanceAs (Decidable (_ ∧ _ ∧ _))

def basename (dir : List UInt8) (m : Member) : List UInt8 := (m.rest dir).takeWhile (· != slash)

def under (dir : List UInt8) (m : Member) : Bool := decide (dir <+: m.name)

end Member

namespace Archive

def children (a : Archive) (dir : List UInt8) : List (List UInt8) :=
  (a.members.filter fun m => decide (m.IsChild dir)).map (Member.basename dir)

def behind (a : Archive) (base : BitVec 64) (x : BitVec 64 × Member) : List Member :=
  (((a.entries base).dropWhile fun y => y.1 != x.1).tail).map Prod.snd

/-- A directory comes before what is in it, and that follows without a gap, as `find` prints it and `tar` stores it. -/
structure Preorder (a : Archive) : Prop where
  names : (a.members.map Member.name).Nodup
  modes : ∀ m ∈ a.members, m.ModeOk
  directories : ∀ m ∈ a.members, m.isDir ↔ m.name.getLast? = some slash
  components : ∀ m ∈ a.members, ∀ p r, m.name = p ++ slash :: r → p ≠ [] ∧ p.getLast? ≠ some slash
  parents : ∀ m ∈ a.members, ∀ p r, m.name = p ++ slash :: r → r ≠ [] → ∃ d ∈ a.members, d.name = p ++ [slash]
  before : ∀ l₁ d l₂, a.members = l₁ ++ d :: l₂ → d.isDir → ∀ e ∈ l₁, ¬ d.name <+: e.name
  together : ∀ l₁ d l₂, a.members = l₁ ++ d :: l₂ → d.isDir → ∀ e ∈ l₂.dropWhile (Member.under d.name), ¬ d.name <+: e.name

end Archive

inductive Dir
  | root
  | entry (x : BitVec 64 × Member)

namespace Dir

def path : Dir → List UInt8
  | root => [slash]
  | entry x => x.2.name

def stem : Dir → List UInt8
  | root => []
  | entry x => x.2.name

def header (fs : Ustar.Fs) : Dir → BitVec 64
  | root => fs.root
  | entry x => x.1

end Dir

namespace Ustar.Fs

/-- `tfs_open` opens the directory, and the calls of `tfs_readdir` up to the first 0 return and give its children. -/
def Lists (fs : Fs) (a : Archive) (flags : BitVec 32) (d : Dir) : Prop :=
  ∃ o fs', ∃ N, o.data = d.header fs ∧ ∀ fuel ≥ N, fs.tfsOpen fuel d.path flags = some (some o, fs') ∧
    ∃ ds, fs'.readAll fuel fuel o = some ds ∧ ds.map Dirent.name = a.children d.stem

/-- A directory without subdirectories whose files have short names, with no header in the way. -/
structure Flat (fs : Fs) (a : Archive) (x : BitVec 64 × Member) : Prop where
  opens : (a.entries fs.first).find? (fun y => fs.begins (x.2.name.dropWhile (· == 0x20)) y.1) = some x
  files : ∀ m ∈ a.members, x.2.name <+: m.name → m.name ≠ x.2.name →
    slash ∉ m.rest x.2.name ∧ m.prefixField = [] ∧ m.nameField.length < 100
  stops : ∀ z, ((a.behind fs.first x).dropWhile (Member.under x.2.name)).head? = some z → ¬ x.2.cname <+: z.cname

section Names

variable {pre : List UInt8} {g : Member → List UInt8} {l₁ l₂ : List Member} {r : List (List UInt8)}

theorem listing_append (h : ∀ m ∈ l₁, m.cname = pre ++ g m ∧ slash ∉ g m) :
    listing pre (l₁ ++ l₂) = (listing pre l₂).map (l₁.map g ++ ·) := by
  induction l₁ with
  | nil => simp
  | cons m l₁ ih =>
    obtain ⟨hname, hslash⟩ := h m List.mem_cons_self
    have hdrop : m.cname.drop pre.length = g m := by rw [hname, List.drop_left]
    rw [List.cons_append, listing, if_pos ⟨g m, hname.symm⟩, hdrop, if_neg hslash,
      ih fun m' hm' => h m' (List.mem_cons_of_mem m hm'), Option.map_map]
    rfl

theorem listed_append (h : listing pre (l₁ ++ l₂) = some (l₁.map g ++ r)) :
    (∀ m ∈ l₁, m.cname = pre ++ g m ∧ slash ∉ g m) ∧ listing pre l₂ = some r := by
  induction l₁ with
  | nil => exact ⟨fun m hm => absurd hm List.not_mem_nil, h⟩
  | cons m l₁ ih =>
    rw [List.cons_append, List.map_cons, List.cons_append, listing] at h
    by_cases hp : pre <+: m.cname
    · obtain ⟨t, ht⟩ := hp
      have hdrop : m.cname.drop pre.length = t := by rw [← ht, List.drop_left]
      rw [if_pos ⟨t, ht⟩, hdrop] at h
      by_cases hslash : slash ∈ t
      · simp [hslash] at h
      · rw [if_neg hslash, Option.map_eq_some_iff] at h
        obtain ⟨r', hr', he⟩ := h
        obtain ⟨rfl, rfl⟩ := List.cons.inj he
        obtain ⟨hall, hrest⟩ := ih hr'
        refine ⟨fun m' hm' => ?_, hrest⟩
        rcases List.mem_cons.mp hm' with rfl | hm'
        · exact ⟨ht.symm, hslash⟩
        · exact hall m' hm'
    · simp [hp] at h

theorem listing_eq_nil : listing pre l₂ = some [] ↔ ∀ z, l₂.head? = some z → ¬ pre <+: z.cname := by
  cases l₂ with
  | nil => simp [listing]
  | cons m l =>
    rw [listing, List.head?_cons]
    constructor
    · intro h z hz hp
      obtain rfl := Option.some.inj hz
      rw [if_pos hp] at h
      split at h
      · cases h
      · simp at h
    · intro h
      rw [if_neg (h m rfl)]

end Names

end Ustar.Fs

namespace Member

variable {d m : Member} {c r dir : List UInt8}

theorem nameField_suffix (m : Member) : m.nameField <:+ m.name := by
  rw [name]
  split
  · exact List.suffix_rfl
  · exact (List.suffix_cons _ _).trans (List.suffix_append _ _)

theorem nameField_ne_nil (m : Member) : m.nameField ≠ [] := by
  have hraw := m.raw_length
  have hnamed := m.named
  rw [nameField, field, List.drop_zero]
  cases hr : m.raw with
  | nil => simp [hr] at hraw
  | cons b l =>
    have hb : b ≠ 0 := by simpa [hr] using hnamed
    simp [hb]

theorem nameField_slash (h : m.name.getLast? = some slash) : ∃ q, m.nameField = q ++ [slash] := by
  obtain ⟨p, hp⟩ := m.nameField_suffix
  rw [← hp, List.getLast?_append_of_ne_nil _ m.nameField_ne_nil] at h
  exact List.getLast?_eq_some_iff.mp h

theorem digit_ne_slash {b : UInt8} (h : 48 ≤ b ∧ b ≤ 55) : b ≠ slash := by
  rintro rfl
  exact absurd h.1 (by decide)

theorem cname_eq (h : m.ModeOk) : ∃ ds, m.cname = m.nameField ++ ds ∧ slash ∉ ds ∧
    (m.nameField.length < 100 ∧ ds = [] ∨ m.nameField.length = 100 ∧ ds.length = 7) := by
  rcases cname_cases h with ⟨hlt, he⟩ | ⟨hfull, ds, hlen, hds, he⟩
  · exact ⟨[], by rw [he, List.append_nil], List.not_mem_nil, .inl ⟨hlt, rfl⟩⟩
  · exact ⟨ds, he, fun hs => digit_ne_slash (hds _ hs) rfl, .inr ⟨hfull, hlen⟩⟩

theorem not_listed_of_dir (hd : d.ModeOk) (hm : m.ModeOk) (hname : m.name.getLast? = some slash) (hc : c ≠ [])
    (hslash : slash ∉ c) : m.cname ≠ d.cname ++ c := by
  intro he
  obtain ⟨q, hq⟩ := nameField_slash hname
  obtain ⟨ds, hds, hdigits, hm⟩ := cname_eq hm
  obtain ⟨ds', hds', _, hd⟩ := cname_eq hd
  rw [hds, hq, List.append_assoc] at he
  have hlen := congrArg List.length he
  have hcpos := List.length_pos_iff.mpr hc
  rw [hq] at hm
  simp only [List.length_append, List.length_singleton, hds'] at hlen hm hcpos
  by_cases hle : d.cname.length ≤ q.length
  · -- the slash at the end of the name field is part of what is listed
    obtain ⟨s, hs⟩ := List.prefix_of_prefix_length_le (he ▸ List.prefix_append d.cname c) (List.prefix_append q _) hle
    rw [← hs, List.append_assoc, List.append_cancel_left_eq] at he
    exact hslash (by rw [← he]; simp)
  · rw [hds', List.length_append] at hle
    rcases hm with ⟨_, rfl⟩ | ⟨hfull, hseven⟩
    · simp at hlen
      omega
    · rcases hd with ⟨hlt, rfl⟩ | ⟨_, hseven'⟩
      · simp at hle
        omega
      · omega

theorem short_of_listed (hd : d.ModeOk) (hm : m.ModeOk) (hdir : d.name = d.nameField) (hname : m.name = d.name ++ r)
    (hr : r ≠ []) (he : m.cname = d.cname ++ r) : m.prefixField = [] ∧ m.nameField.length < 100 := by
  obtain ⟨ds, hds, hdigits, hm⟩ := cname_eq hm
  obtain ⟨ds', hds', hdigits', hd⟩ := cname_eq hd
  have hfront : m.prefixField = [] := by
    by_contra hne
    have hcount := congrArg (List.count slash) he
    have hcount' := congrArg (List.count slash) hname
    rw [name, if_neg hne, hdir] at hcount'
    rw [hds, hds'] at hcount
    simp only [List.count_append, List.count_cons, List.count_eq_zero_of_not_mem hdigits,
      List.count_eq_zero_of_not_mem hdigits'] at hcount hcount'
    simp [slash] at hcount hcount'
    omega
  refine ⟨hfront, ?_⟩
  rw [name, if_pos hfront, hdir] at hname
  have hlen := congrArg List.length hname
  have hlen' := congrArg List.length he
  have hpos := List.length_pos_iff.mpr hr
  rw [hds, hds'] at hlen'
  simp only [List.length_append] at hlen hlen'
  rcases hd with ⟨_, rfl⟩ | ⟨_, hseven'⟩
  · rcases hm with ⟨hlt, _⟩ | ⟨_, hseven⟩
    · exact hlt
    · simp at hlen'
      omega
  · omega

theorem rest_eq (h : m.name = dir ++ r) : m.rest dir = r := by rw [rest, h, List.drop_left]

theorem basename_of_file (h : slash ∉ m.rest dir) : m.basename dir = m.rest dir := by
  rw [basename, List.takeWhile_eq_self_iff]
  intro b hb
  simp only [bne_iff_ne]
  rintro rfl
  exact h hb

theorem child_of_dir (h : m.name = dir ++ (c ++ [slash])) (hslash : slash ∉ c) : m.IsChild dir ∧ m.basename dir = c := by
  have hrest := rest_eq h
  refine ⟨⟨⟨_, h.symm⟩, by rw [hrest]; simp, by rwa [hrest, List.dropLast_concat]⟩, ?_⟩
  rw [basename, hrest, List.takeWhile_append_of_pos, List.takeWhile_cons_of_neg, List.append_nil]
  · simp
  · intro b hb
    simp only [bne_iff_ne]
    rintro rfl
    exact hslash hb

theorem IsChild.cases (h : m.IsChild dir) : slash ∉ m.rest dir ∨ ∃ c, slash ∉ c ∧ m.name = dir ++ (c ++ [slash]) := by
  obtain ⟨⟨r, hr⟩, hne, hslash⟩ := h
  rw [rest_eq hr.symm] at hne hslash ⊢
  rw [← hr]
  by_cases hlast : r.getLast hne = slash
  · exact .inr ⟨r.dropLast, hslash, by rw [← hlast, List.dropLast_append_getLast hne]⟩
  · left
    rw [← List.dropLast_append_getLast hne, List.mem_append, List.mem_singleton]
    exact fun hs => hs.elim hslash fun hs => hlast hs.symm

theorem exists_parent (h : dir <+: m.name) (hne : m.rest dir ≠ []) (hchild : ¬ m.IsChild dir) :
    ∃ c r, slash ∉ c ∧ r ≠ [] ∧ m.name = dir ++ (c ++ slash :: r) := by
  obtain ⟨t, ht⟩ := h
  have hmem : slash ∈ (m.rest dir).dropLast := by
    by_contra hs
    exact hchild ⟨⟨t, ht⟩, hne, hs⟩
  rw [rest_eq ht.symm] at hne hmem
  obtain ⟨c, r, hcr, hc⟩ := List.eq_append_cons_of_mem hmem
  refine ⟨c, r ++ [t.getLast hne], hc, by simp, ?_⟩
  rw [← ht, ← List.cons_append, ← List.append_assoc c, ← hcr, List.dropLast_append_getLast hne]

end Member

namespace Archive.Preorder

open Member Ustar.Fs

variable {a : Archive} {d m : Member} {l₁ l₂ l₃ t : List Member}

section

variable (hp : a.Preorder) (hs : a.members = l₁ ++ d :: t) (hdir : d.isDir)

include hp hs

theorem name_slash (hdir : d.isDir) : d.name.getLast? = some slash :=
  (hp.directories d (by rw [hs]; simp)).mp hdir

theorem name_ne (hm : m ∈ t) : m.name ≠ d.name := by
  have hn := hp.names
  rw [hs, List.map_append, List.map_cons, List.nodup_append, List.nodup_cons] at hn
  exact fun he => hn.2.1.1 (he ▸ List.mem_map_of_mem hm)

theorem mem_block (hm : m ∈ t.takeWhile (under d.name)) : m ∈ a.members ∧ d.name <+: m.name ∧ m.rest d.name ≠ [] := by
  have hmem : m ∈ t := (List.takeWhile_sublist _).subset hm
  have hunder : under d.name m = true := List.mem_takeWhile_imp hm
  have hpre : d.name <+: m.name := of_decide_eq_true hunder
  refine ⟨by rw [hs]; simp [hmem], hpre, fun hr => ?_⟩
  obtain ⟨r, hr'⟩ := hpre
  rw [rest_eq hr'.symm] at hr
  rw [hr, List.append_nil] at hr'
  exact hp.name_ne hs hmem hr'.symm

include hdir

theorem block_of_mem (hm : m ∈ a.members) (hpre : d.name <+: m.name) (hne : m.name ≠ d.name) :
    m ∈ t.takeWhile (under d.name) := by
  have hmem := hm
  rw [hs, List.mem_append, List.mem_cons, ← List.takeWhile_append_dropWhile (p := under d.name) (l := t),
    List.mem_append] at hmem
  rcases hmem with hl | rfl | hb | hr
  · exact absurd hpre (hp.before l₁ d t hs hdir m hl)
  · exact absurd rfl hne
  · exact hb
  · exact absurd hpre (hp.together l₁ d t hs hdir m hr)

theorem children_eq :
    a.children d.name =
      ((t.takeWhile (under d.name)).filter fun m => decide (m.IsChild d.name)).map (basename d.name) := by
  have hnone : ∀ l : List Member, (∀ m ∈ l, ¬ m.IsChild d.name) → l.filter (fun m => decide (m.IsChild d.name)) = [] :=
    fun l hl => List.filter_eq_nil_iff.mpr fun m hm => by simpa using hl m hm
  have hself : ¬ d.IsChild d.name := fun hc => hc.2.1 (by rw [rest, List.drop_length])
  rw [children, hs, List.filter_append, List.filter_cons_of_neg (by simpa using hself),
    hnone l₁ fun m hm hc => hp.before l₁ d t hs hdir m hm hc.1, List.nil_append]
  conv_lhs => rw [← List.takeWhile_append_dropWhile (p := under d.name) (l := t)]
  rw [List.filter_append, hnone (t.dropWhile _) fun m hm hc => hp.together l₁ d t hs hdir m hm hc.1, List.append_nil]

theorem subdirectory_not_listed {c : List UInt8} (hm : m ∈ a.members) (hc : slash ∉ c)
    (hname : m.name = d.name ++ (c ++ [slash])) : m.cname ≠ d.cname ++ m.basename d.name := by
  have hlast : m.name.getLast? = some slash := by rw [hname]; simp [← List.append_assoc]
  have hne : c ≠ [] := by
    rintro rfl
    exact (hp.components m hm d.name [] hname).2 (hp.name_slash hs hdir)
  rw [(child_of_dir hname hc).2]
  exact not_listed_of_dir (hp.modes d (by rw [hs]; simp)) (hp.modes m hm) hlast hne hc

theorem exists_subdirectory (hblock : t.takeWhile (under d.name) = l₂ ++ m :: l₃) (hchild : ¬ m.IsChild d.name) :
    ∃ e ∈ l₂, ∃ c, slash ∉ c ∧ e.name = d.name ++ (c ++ [slash]) := by
  obtain ⟨hm, hpre, hne⟩ := hp.mem_block hs (m := m) (by rw [hblock]; simp)
  obtain ⟨c, r, hc, hr, hname⟩ := exists_parent hpre hne hchild
  obtain ⟨e, he, hename⟩ := hp.parents m hm (d.name ++ c) r (by rw [hname, List.append_assoc]) hr
  rw [List.append_assoc] at hename
  refine ⟨e, ?_, c, hc, hename⟩
  have hmem : e ∈ t.takeWhile (under d.name) := by
    apply hp.block_of_mem hs hdir he ⟨_, hename.symm⟩
    simp [hename]
  rw [hblock, List.mem_append, List.mem_cons] at hmem
  rcases hmem with hl | rfl | hl
  · exact hl
  · rw [hname] at hename
    simp [hr] at hename
  · obtain ⟨r₁, r₂, rfl⟩ := List.append_of_mem hl
    have hsplit : a.members = (l₁ ++ d :: (l₂ ++ m :: r₁)) ++ e :: (r₂ ++ t.dropWhile (under d.name)) := by
      have ht := List.takeWhile_append_dropWhile (p := under d.name) (l := t)
      rw [hblock] at ht
      conv_lhs => rw [hs, ← ht]
      simp
    have hdir' : e.isDir := (hp.directories e he).mpr (by rw [hename]; simp [← List.append_assoc])
    refine absurd ?_ (hp.before _ e _ hsplit hdir' m (by simp))
    rw [hename, hname]
    exact (List.prefix_append_right_inj _).mpr ((List.prefix_append_right_inj _).mpr (by simp))

variable (hfield : d.name = d.nameField)

include hfield

theorem listing_of_flat
    (hfiles : ∀ m ∈ a.members, d.name <+: m.name → m.name ≠ d.name →
      slash ∉ m.rest d.name ∧ m.prefixField = [] ∧ m.nameField.length < 100)
    (hstops : ∀ z, (t.dropWhile (under d.name)).head? = some z → ¬ d.cname <+: z.cname) :
    listing d.cname t = some (a.children d.name) := by
  have hblock : ∀ m ∈ t.takeWhile (under d.name), m.cname = d.cname ++ m.rest d.name ∧ slash ∉ m.rest d.name := by
    intro m hm
    obtain ⟨hmem, ⟨r, hr⟩, hne⟩ := hp.mem_block hs hm
    obtain ⟨hslash, hfront, hlt⟩ := hfiles m hmem ⟨r, hr⟩ (hp.name_ne hs ((List.takeWhile_sublist _).subset hm))
    refine ⟨?_, hslash⟩
    rw [rest_eq hr.symm]
    have hname : m.name = m.nameField := by rw [name, if_pos hfront]
    have hlen := congrArg List.length (hr.trans hname)
    rw [List.length_append] at hlen
    obtain ⟨ds, hds, _, hfull⟩ := cname_eq (hp.modes m hmem)
    obtain ⟨ds', hds', _, hfull'⟩ := cname_eq (hp.modes d (by rw [hs]; simp))
    have hnil : ds = [] := by
      rcases hfull with hfull | hfull
      · exact hfull.2
      · omega
    have hnil' : ds' = [] := by
      rcases hfull' with hfull' | hfull'
      · exact hfull'.2
      · rw [← hfield] at hfull'
        omega
    rw [hds, hds', hnil, hnil', List.append_nil, List.append_nil, ← hfield, ← hname, hr]
  have hchildren : a.children d.name = (t.takeWhile (under d.name)).map (rest d.name) := by
    rw [hp.children_eq hs hdir, List.filter_eq_self.mpr]
    · exact List.map_congr_left fun m hm => basename_of_file (hblock m hm).2
    · intro m hm
      obtain ⟨_, hpre, hne⟩ := hp.mem_block hs hm
      exact decide_eq_true ⟨hpre, hne, fun h => (hblock m hm).2 (List.mem_of_mem_dropLast h)⟩
  rw [hchildren]
  conv_lhs => rw [← List.takeWhile_append_dropWhile (p := under d.name) (l := t)]
  rw [listing_append hblock, listing_eq_nil.mpr hstops, Option.map_some, List.append_nil]

omit hfield in
theorem isChild_of_listing (hl : listing d.cname t = some (a.children d.name)) :
    ∀ m ∈ t.takeWhile (under d.name), m.IsChild d.name := by
  have ht := List.takeWhile_append_dropWhile (p := under d.name) (l := t)
  have hsplit := List.takeWhile_append_dropWhile (p := fun m => decide (m.IsChild d.name))
    (l := t.takeWhile (under d.name))
  cases hdeep : (t.takeWhile (under d.name)).dropWhile fun m => decide (m.IsChild d.name) with
  | nil =>
    intro m hm
    simpa using List.dropWhile_eq_nil_iff.mp hdeep m hm
  | cons m l =>
    exfalso
    rw [hdeep] at hsplit
    have hm := List.head?_dropWhile_not (fun m => decide (m.IsChild d.name)) (t.takeWhile (under d.name))
    rw [hdeep] at hm
    obtain ⟨e, he, c, hc, hname⟩ := hp.exists_subdirectory hs hdir hsplit.symm (by simpa using hm)
    have hemem := (hp.mem_block hs ((List.takeWhile_sublist _).subset he)).1
    have hfirst : a.children d.name =
        ((t.takeWhile (under d.name)).takeWhile fun m => decide (m.IsChild d.name)).map (basename d.name) ++
          ((m :: l).filter fun m => decide (m.IsChild d.name)).map (basename d.name) := by
      rw [hp.children_eq hs hdir]
      conv_lhs => rw [← hsplit]
      rw [List.filter_append, List.map_append, List.filter_eq_self.mpr fun m hm =>
        List.mem_takeWhile_imp (p := fun m : Member => decide (m.IsChild d.name)) hm]
    have hlisted : listing d.cname ((t.takeWhile (under d.name)).takeWhile (fun m => decide (m.IsChild d.name)) ++
        (m :: l ++ t.dropWhile (under d.name))) = some (a.children d.name) := by
      rw [← List.append_assoc, hsplit, ht, hl]
    rw [hfirst] at hlisted
    exact hp.subdirectory_not_listed hs hdir hemem hc hname ((listed_append hlisted).1 e he).1

theorem flat_of_listing (hl : listing d.cname t = some (a.children d.name)) :
    (∀ m ∈ a.members, d.name <+: m.name → m.name ≠ d.name →
      slash ∉ m.rest d.name ∧ m.prefixField = [] ∧ m.nameField.length < 100) ∧
    ∀ z, (t.dropWhile (under d.name)).head? = some z → ¬ d.cname <+: z.cname := by
  have hall := hp.isChild_of_listing hs hdir hl
  rw [hp.children_eq hs hdir, List.filter_eq_self.mpr fun m hm => decide_eq_true (hall m hm)] at hl
  conv_lhs at hl => rw [← List.takeWhile_append_dropWhile (p := under d.name) (l := t)]
  rw [← List.append_nil (List.map _ _)] at hl
  obtain ⟨hlisted, hrest⟩ := listed_append hl
  refine ⟨fun m hm hpre hne => ?_, listing_eq_nil.mp hrest⟩
  have hblock := hp.block_of_mem hs hdir hm hpre hne
  obtain ⟨hcname, _⟩ := hlisted m hblock
  have hmd := hp.modes d (by rw [hs]; simp)
  rcases (hall m hblock).cases with hfile | ⟨c, hc, hname⟩
  · refine ⟨hfile, ?_⟩
    obtain ⟨r, hr⟩ := hpre
    rw [basename_of_file hfile, rest_eq hr.symm] at hcname
    exact short_of_listed hmd (hp.modes m hm) hfield hr.symm (by rintro rfl; simp [← hr] at hne) hcname
  · exact absurd hcname (hp.subdirectory_not_listed hs hdir hm hc hname)

end

end Archive.Preorder

namespace Ustar.Fs

variable {fs : Fs} {a : Archive} {x : BitVec 64 × Member} {fuel : ℕ} {flags : BitVec 32} {path : List UInt8}

theorem openHeader_dir (flags : BitVec 32) (h : Archive.Loaded fs.mem fs.first a) {l₁ l₂ : List (BitVec 64 × Member)}
    (hs : a.entries fs.first = l₁ ++ x :: l₂) (hdir : x.2.isDir) :
    ∃ o, fs.openHeader false flags x.1 = some o ∧ o.data = x.1 ∧ o.offset = Archive.pointTo l₂ := by
  have hflag : fs.mem (x.1 + 156) = Tarfs.tfsDir := (h.typeflag (by rw [hs]; simp)).trans hdir
  refine ⟨_, if_neg fun hd => hd.1 hflag, rfl, ?_⟩
  simp only [hflag, Bool.false_eq_true, ↓reduceIte]
  exact h.next_entry hs

theorem begins_cname {l : List UInt8} (h : Archive.Loaded fs.mem fs.first a) (hx : x ∈ a.entries fs.first)
    (hmode : x.2.ModeOk) (hl : l <:+ x.2.name) (hb : fs.begins l x.1 = true) : l <+: x.2.cname := by
  have hfield : ∀ off n, (x.2.field off n).length ≤ n ∧ 0 ∉ x.2.field off n := by
    intro off n
    refine ⟨((List.takeWhile_prefix _).length_le).trans (List.length_take_le _ _), fun hz => ?_⟩
    simpa using List.mem_takeWhile_imp hz
  have hname : x.2.name.length ≤ 256 ∧ 0 ∉ x.2.name := by
    have h₁ := hfield 0 100
    have h₂ := hfield 345 155
    rw [Member.name]
    split
    · exact ⟨h₁.1.trans (by decide), h₁.2⟩
    · refine ⟨?_, ?_⟩
      · rw [List.length_append, List.length_cons]
        have := h₁.1
        have := h₂.1
        simp only [Member.nameField, Member.prefixField]
        omega
      · rw [List.mem_append, List.mem_cons, not_or, not_or]
        exact ⟨h₂.2, by decide, h₁.2⟩
  obtain ⟨t, ht⟩ := Member.raw_cname hmode
  have hlen := hl.length_le.trans hname.1
  have hst := h.stored_entry hx
  rw [Member.bytes, List.append_assoc, Stored.append_iff] at hst
  rw [begins, Nat.mod_eq_of_lt (by omega), List.take_length, decide_eq_true_eq,
    memcmp_eq_zero hst.1 (by rw [x.2.raw_length]; omega), prefix_cname (fun hz => hname.2 (hl.subset hz)) ht] at hb
  exact hb

theorem name_eq_nameField (h : Archive.Loaded fs.mem fs.first a) (hx : x ∈ a.entries fs.first) (hmode : x.2.ModeOk)
    (hlast : x.2.name.getLast? = some slash) (hb : fs.begins (x.2.name.dropWhile (· == 0x20)) x.1 = true) :
    x.2.name = x.2.nameField := by
  by_cases hfront : x.2.prefixField = []
  · rw [Member.name, if_pos hfront]
  exfalso
  have hname : x.2.name = x.2.prefixField ++ slash :: x.2.nameField := by
    rw [Member.name, if_neg hfront]
    rfl
  -- the blanks end before the slash
  have hskip : slash :: x.2.nameField <:+ x.2.name.dropWhile (· == 0x20) := by
    rw [hname, List.dropWhile_append, List.dropWhile_cons_of_neg (by decide)]
    split
    · exact List.suffix_rfl
    · exact List.suffix_append _ _
  have hsuffix := List.dropWhile_suffix (l := x.2.name) (· == (0x20 : UInt8))
  obtain ⟨ds, hds, hdigits, _⟩ := Member.cname_eq hmode
  have hp : x.2.name.dropWhile (· == 0x20) <+: x.2.nameField ++ ds := by
    rw [← hds]
    exact begins_cname h hx hmode hsuffix hb
  generalize x.2.name.dropWhile (· == 0x20) = s at hskip hsuffix hp
  have hlen := hskip.length_le
  rw [List.length_cons] at hlen
  obtain ⟨v, hv⟩ := List.prefix_of_prefix_length_le (List.prefix_append x.2.nameField ds) hp (by omega)
  rw [← hv, List.prefix_append_right_inj] at hp
  have hvne : v ≠ [] := by
    rintro rfl
    rw [← hv, List.append_nil] at hlen
    omega
  obtain ⟨u, hu⟩ := hsuffix
  rw [← hu, ← hv, ← List.append_assoc, List.getLast?_append_of_ne_nil _ hvne] at hlast
  exact hdigits (hp.subset (List.mem_of_getLast? hlast))

theorem behind_eq (h : Archive.Loaded fs.mem fs.first a) {l₁ l₂ : List (BitVec 64 × Member)}
    (hs : a.entries fs.first = l₁ ++ x :: l₂) : a.behind fs.first x = l₂.map Prod.snd := by
  have hn := chain_nodup h.chain
  rw [Archive.headers, hs, List.map_append, List.map_cons, List.nodup_append] at hn
  rw [Archive.behind, hs, List.dropWhile_append_of_pos, List.dropWhile_cons_of_neg, List.tail_cons]
  · simp
  · intro y hy
    simpa using hn.2.2 y.1 (List.mem_map_of_mem hy) x.1 List.mem_cons_self

theorem nil_notMem_children (hp : a.Preorder) : [] ∉ a.children [] := by
  intro hmem
  obtain ⟨m, hm, hbase⟩ := List.mem_map.mp hmem
  obtain ⟨hm, hchild⟩ := List.mem_filter.mp hm
  have hrest : m.rest [] = m.name := List.drop_zero
  cases hname : m.name with
  | nil => exact (of_decide_eq_true hchild).2.1 (hrest.trans hname)
  | cons c l =>
    by_cases hc : c = slash
    · exact (hp.components m hm [] l (by rw [hname, hc]; rfl)).1 rfl
    · rw [Member.basename, hrest, hname, List.takeWhile_cons_of_pos (by simpa using hc)] at hbase
      cases hbase

theorem tfsOpen_root {o : FileObj} {fs' : Fs} (h : fs.tfsOpen fuel [slash] flags = some (some o, fs')) :
    fs' = fs.fillRoot ∧ fs.root ≠ 0 ∧ o.offset = o.data := by
  rw [tfsOpen] at h
  split at h
  · simp at h
  · simp only [show ([slash] == [(0x2F : UInt8)]) = true from rfl, ↓reduceIte, Option.map_eq_some_iff, Prod.mk.injEq,
      Option.bind_eq_some_iff] at h
    obtain ⟨r, hsearch, ⟨hdr, rfl, ho⟩, rfl⟩ := h
    refine ⟨rfl, fun hz => ?_, ?_⟩
    · have hnone : pointer fs.fillRoot.root = none := if_pos hz
      rw [hnone] at hsearch
      cases fuel <;> cases hsearch
    · have := openHeader_some ho
      rw [this.1, this.2.1 rfl]

theorem not_lists_root (hp : a.Preorder) : ¬ fs.Lists a flags .root := by
  rintro ⟨o, fs', N, hdata, hl⟩
  obtain ⟨hopen, ds, hds, hnames⟩ := hl (N + 3) (by omega)
  obtain ⟨rfl, hroot, hoff⟩ := tfsOpen_root hopen
  rw [Dir.header] at hdata
  rw [readAll] at hds
  obtain ⟨r, hr, hds⟩ := Option.bind_eq_some_iff.mp hds
  obtain ⟨next, -, rfl⟩ := tfsReaddir_root hroot hdata (hoff.trans hdata) hr
  obtain ⟨ds', _, rfl⟩ := Option.map_eq_some_iff.mp hds
  exact nil_notMem_children hp (by rw [← show Dir.root.stem = [] from rfl, ← hnames]; exact List.mem_cons_self)

section Entry

variable (h : Archive.Loaded fs.mem fs.first a) (hm : fs.Maps a) (hp : a.Preorder) (hroot : fs.root ∉ a.headers fs.first)
  (hflags : flags &&& (Tarfs.oWronly ||| Tarfs.oRdwr) = 0) (hx : x ∈ a.entries fs.first) (hdir : x.2.isDir)

include hp hx in
theorem path_ne_root : x.2.name ≠ [slash] := by
  have hmem : x.2 ∈ a.members := by
    rw [← Archive.entries_snd a fs.first]
    exact List.mem_map_of_mem hx
  exact fun he => (hp.components x.2 hmem [] [] he).1 rfl

include hroot hx in
theorem addr_ne_root : x.1 ≠ fs.root := fun he => hroot (he ▸ List.mem_map_of_mem hx)

theorem members_split {l₁ l₂ : List (BitVec 64 × Member)} (hs : a.entries fs.first = l₁ ++ x :: l₂) :
    a.members = l₁.map Prod.snd ++ x.2 :: l₂.map Prod.snd := by
  rw [← Archive.entries_snd a fs.first, hs, List.map_append, List.map_cons]

include h hm hp hroot hflags hx hdir

theorem flat_of_lists (hl : fs.Lists a flags (.entry x)) : fs.Flat a x := by
  obtain ⟨o', fs', N, hdata', hl⟩ := hl
  obtain ⟨l₁, l₂, hs⟩ := List.append_of_mem hx
  have hs' := members_split hs
  obtain ⟨hopen, ds, hds, hnames⟩ := hl (max N a.members.length) (le_max_left _ _)
  rw [Dir.path, tfsOpen_path h (le_max_right _ _) (path_ne_root hp hx) hflags, Option.some.injEq, Prod.mk.injEq,
    Option.bind_eq_some_iff] at hopen
  obtain ⟨⟨y, hy, ho'⟩, rfl⟩ := hopen
  have hsame : y = x := h.addr_inj (List.mem_of_find?_eq_some hy) hx ((openHeader_some ho').1.symm.trans hdata')
  subst hsame
  obtain ⟨o, ho, hdata, hpos⟩ := openHeader_dir flags h hs hdir
  obtain rfl := Option.some.inj (ho.symm.trans ho')
  have hb := List.find?_some hy
  have hfield := name_eq_nameField h hx (modeOk_of_mem hp.modes hx) (hp.name_slash hs' hdir) hb
  have hl := listing_of_readAll h hp.modes hx hm (addr_ne_root hroot hx) hdata (hs.trans (List.append_cons ..)) hpos hds
  rw [hnames] at hl
  have hflat := hp.flat_of_listing hs' hdir hfield hl
  refine ⟨hy, hflat.1, ?_⟩
  rw [behind_eq h hs]
  exact hflat.2

theorem lists_of_flat (hf : fs.Flat a x) : fs.Lists a flags (.entry x) := by
  obtain ⟨l₁, l₂, hs⟩ := List.append_of_mem hx
  have hs' := members_split hs
  obtain ⟨o, ho, hdata, hpos⟩ := openHeader_dir flags h hs hdir
  have hb := List.find?_some hf.opens
  have hfield := name_eq_nameField h hx (modeOk_of_mem hp.modes hx) (hp.name_slash hs' hdir) hb
  refine ⟨o, fs, max a.members.length 513, hdata, fun fuel hfuel => ⟨?_, ?_⟩⟩
  · rw [Dir.path, tfsOpen_path h ((le_max_left _ _).trans hfuel) (path_ne_root hp hx) hflags, hf.opens,
      Option.bind_some, ho]
  · have hlen := congrArg List.length hs'
    rw [List.length_append, List.length_cons, List.length_map, List.length_map] at hlen
    have hstops := hf.stops
    rw [behind_eq h hs] at hstops
    apply readAll_of_listing h hp.modes hx hm (addr_ne_root hroot hx) hdata (by omega) (hs.trans (List.append_cons ..)) hpos
      (by omega)
    exact hp.listing_of_flat hs' hdir hfield hf.files hstops

end Entry

end Ustar.Fs

theorem forall_split {α : Type} {l : List α} {P : List α → α → List α → Prop}
    (h : ∀ k, ∀ hk : k < l.length, P (l.take k) (l.get ⟨k, hk⟩) (l.drop (k + 1))) :
    ∀ l₁ x l₂, l = l₁ ++ x :: l₂ → P l₁ x l₂ := by
  rintro l₁ x l₂ rfl
  have := h l₁.length (by simp)
  simpa using this

theorem Member.make_modeOk {name pre data : List UInt8} {typeflag : UInt8} (hname : name.length ≤ 100)
    (hpre : pre.length ≤ 155) (hne : name ≠ []) (hhead : name.head? ≠ some 0) (hdata : data.length < 2 ^ 31) :
    (Member.make name pre typeflag data hname hpre hne hhead hdata).ModeOk := by
  refine ⟨[48, 48, 48, 48, 54, 52, 52], rfl, by decide +kernel, ?_⟩
  have hlen : (name ++ List.replicate (100 - name.length) (0 : UInt8)).length = 100 := by simp; omega
  simp only [Member.make, ustarHeader]
  rw [List.append_assoc, List.append_assoc, List.append_assoc, ← List.append_assoc, List.drop_left' hlen]
  rfl

theorem Archive.preorder_of_check {a : Archive} (hnames : (a.members.map Member.name).Nodup)
    (hmodes : ∀ m ∈ a.members, m.ModeOk) (hdirs : ∀ m ∈ a.members, m.isDir ↔ m.name.getLast? = some slash)
    (hslashes : ∀ m ∈ a.members, ∀ k, ∀ hk : k < m.name.length, m.name.get ⟨k, hk⟩ = slash →
      (m.name.take k ≠ [] ∧ (m.name.take k).getLast? ≠ some slash) ∧
        (m.name.drop (k + 1) ≠ [] → ∃ d ∈ a.members, d.name = m.name.take k ++ [slash]))
    (horder : ∀ k, ∀ hk : k < a.members.length, (a.members.get ⟨k, hk⟩).isDir →
      (∀ e ∈ a.members.take k, ¬ (a.members.get ⟨k, hk⟩).name <+: e.name) ∧
        ∀ e ∈ (a.members.drop (k + 1)).dropWhile (Member.under (a.members.get ⟨k, hk⟩).name),
          ¬ (a.members.get ⟨k, hk⟩).name <+: e.name) : a.Preorder where
  names := hnames
  modes := hmodes
  directories := hdirs
  components m hm p r he :=
    forall_split (P := fun p c _ => c = slash → p ≠ [] ∧ p.getLast? ≠ some slash)
      (fun k hk hc => (hslashes m hm k hk hc).1) p slash r he rfl
  parents m hm p r he :=
    forall_split (P := fun p c r => c = slash → r ≠ [] → ∃ d ∈ a.members, d.name = p ++ [slash])
      (fun k hk hc => (hslashes m hm k hk hc).2) p slash r he rfl
  before := forall_split fun k hk hdir => (horder k hk hdir).1
  together := forall_split fun k hk hdir => (horder k hk hdir).2

namespace Ustar.Fs

theorem flat_of_check {fs : Fs} {a : Archive} {x : BitVec 64 × Member} (h : Archive.Loaded fs.mem fs.first a)
    (hx : x ∈ a.entries fs.first)
    (hopens : ((a.entries fs.first).find? fun y => fs.begins (x.2.name.dropWhile (· == 0x20)) y.1).map Prod.fst = some x.1)
    (hfiles : ∀ m ∈ a.members, x.2.name <+: m.name → m.name ≠ x.2.name →
      slash ∉ m.rest x.2.name ∧ m.prefixField = [] ∧ m.nameField.length < 100)
    (hstops : (((a.behind fs.first x).dropWhile (Member.under x.2.name)).head?.all
      fun z => decide ¬ x.2.cname <+: z.cname) = true) : fs.Flat a x := by
  obtain ⟨y, hy, he⟩ := Option.map_eq_some_iff.mp hopens
  obtain rfl := h.addr_inj (List.mem_of_find?_eq_some hy) hx he
  refine ⟨hy, hfiles, fun z hz => ?_⟩
  rw [hz] at hstops
  exact of_decide_eq_true hstops

theorem small_modes : ∀ m ∈ Archive.small.members, m.ModeOk := by
  intro m hm
  simp only [Archive.small, List.mem_cons, List.not_mem_nil, or_false] at hm
  rcases hm with rfl | rfl | rfl <;> apply Member.make_modeOk

def nested : Archive where
  members := [
    .make (ascii "a/") [] 0x35 [] (by decide) Member.pre_nil (by decide) (by decide) Member.data_nil,
    .make (ascii "a/b/") [] 0x35 [] (by decide) Member.pre_nil (by decide) (by decide) Member.data_nil,
    .make (ascii "a/b/c") [] 0x30 [1] (by decide) Member.pre_nil (by decide) (by decide) Member.data_one]
  nonempty := List.cons_ne_nil _ _

end Ustar.Fs

end Os506
