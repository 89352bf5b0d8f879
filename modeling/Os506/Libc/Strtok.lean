import Mathlib.Data.List.DropRight
import Os506.Lib.Bytes

namespace Os506.Libc

open Bytes

structure Tok where
  mem : ℕ → UInt8
  position : ℕ

def isDelimiter (c : UInt8) : List UInt8 → Bool
  | [] => false
  | d :: delimiters => if c = d then true else isDelimiter c delimiters

/-- `while (position[index])` and what follows it, for at most `n` bytes. The pointer that is returned is 0 when there is
no token. -/
def tokLoop (delimiters : List UInt8) (t : Tok) : ℕ → ℕ → Option (ℕ × Tok)
  | 0, _ => none
  | n + 1, index =>
    if t.mem (t.position + index) ≠ 0 then
      if isDelimiter (t.mem (t.position + index)) delimiters then
        some (t.position, ⟨Function.update t.mem (t.position + index) 0, t.position + index + 1⟩)
      else tokLoop delimiters t n (index + 1)
    else if t.mem t.position ≠ 0 then some (t.position, { t with position := t.position + index })
    else some (0, t)

def tok (n str : ℕ) (delimiters : List UInt8) (t : Tok) : Option (ℕ × Tok) :=
  tokLoop delimiters (if str ≠ 0 then { t with position := str } else t) n 0

def strtok (n str : ℕ) (delimiters : List UInt8) (t : Tok) : Option (ℕ × Tok) := tok n str delimiters t

def kstrtok (n str : ℕ) (delimiters : List UInt8) (t : Tok) : Option (ℕ × Tok) := tok n str delimiters t

def nameLoop (n : ℕ) : ℕ → ℕ → ℕ → Tok → Option (ℕ × Tok)
  | 0, _, _, _ => none
  | k + 1, part, name, t =>
    if part ≠ 0 then (kstrtok n 0 [0x2F] t).bind fun r => nameLoop n k r.1 part r.2 else some (name, t)

def elfName (n fname : ℕ) (t : Tok) : Option (ℕ × Tok) :=
  (kstrtok n fname [0x2F] t).bind fun r => nameLoop n n r.1 r.1 r.2

def calls (call : Tok → Option (ℕ × Tok)) : ℕ → Tok → Option (List ℕ × Tok)
  | 0, t => some ([], t)
  | k + 1, t => (call t).bind fun r => (calls call k r.2).map fun rs => (r.1 :: rs.1, rs.2)

/-- The fields between delimiters, without a last one that is empty. -/
def fields (delimiters str : List UInt8) : List (List UInt8) :=
  let l := str.splitOnP (· ∈ delimiters)
  if l.getLast? = some [] then l.dropLast else l

structure Splits (delimiters : List UInt8) (mem mem' : ℕ → UInt8) (s : ℕ) (str : List UInt8) (k : ℕ) (ps : List ℕ) :
    Prop where
  pointers : ps = pointers s ((fields delimiters str).take k) ++ List.replicate (k - (fields delimiters str).length) 0
  strings : At mem' s (strings ((fields delimiters str).take k))
  cuts : ∀ x, mem' x ≠ mem x → s ≤ x ∧ x < s + str.length ∧ mem x ∈ delimiters ∧ mem' x = 0

structure Ready (t : Tok) (rest : List UInt8) : Prop where
  text : At t.mem t.position (rest ++ [0])
  no_zero : 0 ∉ rest

variable {D rest f str : List UInt8} {c : UInt8} {t t' : Tok} {n k : ℕ}

theorem isDelimiter_iff : isDelimiter c D = true ↔ c ∈ D := by
  induction D with
  | nil => exact iff_of_false Bool.false_ne_true List.not_mem_nil
  | cons d D ih =>
    rw [isDelimiter, List.mem_cons]
    by_cases hc : c = d
    · rw [if_pos hc]
      exact iff_of_true rfl (.inl hc)
    · rw [if_neg hc, ih, or_iff_right hc]

section Fields

theorem fields_nil : fields D [] = [] := rfl

theorem fields_append_cons (hf : ∀ x ∈ f, x ∉ D) (hc : c ∈ D) (rest : List UInt8) :
    fields D (f ++ c :: rest) = f :: fields D rest := by
  have hne := List.splitOnP_ne_nil (· ∈ D) rest
  rw [fields, List.splitOnP_append_cons_of_forall_mem (by simpa using hf) c (by simpa using hc), fields]
  rw [List.getLast?_cons_of_ne_nil hne, List.dropLast_cons_of_ne_nil hne]
  split <;> rfl

theorem fields_of_ne_nil (hf : ∀ x ∈ f, x ∉ D) (hne : f ≠ []) : fields D f = [f] := by
  rw [fields, List.splitOnP_eq_singleton (by simpa using hf)]
  rw [List.getLast?_singleton, if_neg (by simpa using hne)]

theorem exists_cut (D rest : List UInt8) :
    (∀ x ∈ rest, x ∉ D) ∨ ∃ f c rest', rest = f ++ c :: rest' ∧ (∀ x ∈ f, x ∉ D) ∧ c ∈ D := by
  induction rest with
  | nil => exact .inl nofun
  | cons b rest ih =>
    by_cases hb : b ∈ D
    · exact .inr ⟨[], b, rest, rfl, nofun, hb⟩
    · rcases ih with h | ⟨f, c, rest', rfl, hf, hc⟩
      · exact .inl (List.forall_mem_cons.mpr ⟨hb, h⟩)
      · exact .inr ⟨b :: f, c, rest', rfl, List.forall_mem_cons.mpr ⟨hb, hf⟩, hc⟩

theorem rtakeWhile_append_cons {p : UInt8 → Bool} (hc : ¬ p c) (f rest : List UInt8) :
    (f ++ c :: rest).rtakeWhile p = rest.rtakeWhile p := by
  have hstop : (c :: f.reverse).takeWhile p = [] := List.takeWhile_cons_of_neg hc
  rw [List.rtakeWhile, List.reverse_append, List.reverse_cons, List.append_assoc, List.singleton_append,
    List.takeWhile_append, hstop, List.append_nil, List.rtakeWhile]
  split
  · rename_i hall
    rw [(List.takeWhile_prefix p).eq_of_length hall]
  · rfl

theorem getLast?_fields (hne : str ≠ []) (hlast : ∀ c ∈ str.getLast?, c ∉ D) :
    (fields D str).getLast? = some (str.rtakeWhile (· ∉ D)) := by
  induction hlen : str.length using Nat.strongRecOn generalizing str with
  | ind m ih =>
    rcases exists_cut D str with hf | ⟨f, c, rest, rfl, hf, hc⟩
    · rw [fields_of_ne_nil hf hne, List.getLast?_singleton, List.rtakeWhile_eq_self_iff.mpr (by simpa using hf)]
    · have hrest : rest ≠ [] := by
        rintro rfl
        exact hlast c (by simp) hc
      have hends : (f ++ c :: rest).getLast? = rest.getLast? := by
        rw [List.getLast?_append_of_ne_nil _ (List.cons_ne_nil c rest), List.getLast?_cons_of_ne_nil hrest]
      have hih := ih rest.length (by rw [← hlen]; simp; omega) hrest (hends ▸ hlast) rfl
      rw [fields_append_cons hf hc, rtakeWhile_append_cons (by simpa using hc), List.getLast?_cons, hih]
      rfl

end Fields

section OneCall

structure Cut (D : List UInt8) (t : Tok) (rest f rest' : List UInt8) (t' : Tok) : Prop where
  fields_eq : fields D rest = f :: fields D rest'
  token : At t'.mem t.position (f ++ [0])
  ready : Ready t' rest'
  next : rest' ≠ [] → t'.position = t.position + f.length + 1
  last : t'.position + rest'.length = t.position + rest.length
  shorter : rest'.length < rest.length
  cuts : ∀ x, t'.mem x ≠ t.mem x → t.position ≤ x ∧ x < t'.position ∧ t.mem x ∈ D ∧ t'.mem x = 0

theorem tokLoop_skip {index : ℕ} (hat : At t.mem (t.position + index) f) (hf : ∀ x ∈ f, x ∉ D) (hz : 0 ∉ f) (n : ℕ) :
    tokLoop D t (f.length + n) index = tokLoop D t n (index + f.length) := by
  induction f generalizing index with
  | nil => rw [List.length_nil, Nat.zero_add, Nat.add_zero]
  | cons b f ih =>
    obtain ⟨hb, hrest⟩ := at_cons.mp hat
    obtain ⟨hbD, hfD⟩ := List.forall_mem_cons.mp hf
    have hb0 : b ≠ 0 := fun h => hz (h ▸ List.mem_cons_self)
    rw [List.length_cons, Nat.add_right_comm, tokLoop, hb, if_pos hb0, if_neg (mt isDelimiter_iff.mp hbD),
      ih hrest hfD fun h => hz (List.mem_cons_of_mem b h), Nat.add_assoc, Nat.add_comm 1]

theorem tok_nil (h : Ready t []) (hn : 0 < n) : tok n 0 D t = some (0, t) := by
  obtain ⟨n, rfl⟩ := Nat.exists_eq_add_of_lt hn
  have hzero : t.mem t.position = 0 := at_head h.text
  rw [tok, if_neg (not_not.mpr rfl), tokLoop, Nat.add_zero, if_neg (not_not.mpr hzero), if_neg (not_not.mpr hzero)]

theorem tok_last (h : Ready t f) (hne : f ≠ []) (hf : ∀ x ∈ f, x ∉ D) :
    ∃ t', (∀ n, f.length < n → tok n 0 D t = some (t.position, t')) ∧ Cut D t f f [] t' := by
  obtain ⟨hat, hend⟩ := at_append.mp h.text
  have hzero : t.mem (t.position + f.length) = 0 := (at_cons.mp hend).1
  have hhead : t.mem t.position ≠ 0 := by
    obtain ⟨b, l, rfl⟩ := List.exists_cons_of_ne_nil hne
    rw [(at_cons.mp hat).1]
    exact fun hb => h.no_zero (hb ▸ List.mem_cons_self)
  refine ⟨{ t with position := t.position + f.length }, fun n hn => ?_, ?_⟩
  · obtain ⟨n, rfl⟩ := Nat.exists_eq_add_of_lt hn
    rw [tok, if_neg (not_not.mpr rfl), Nat.add_assoc, tokLoop_skip hat hf h.no_zero, tokLoop, Nat.zero_add,
      if_neg (not_not.mpr hzero), if_pos hhead]
  · exact {
      fields_eq := fields_of_ne_nil hf hne
      token := h.text
      ready := ⟨hend, List.not_mem_nil⟩
      next := fun hnil => absurd rfl hnil
      last := rfl
      shorter := List.length_pos_iff.mpr hne
      cuts := fun x hx => absurd rfl hx }

theorem tok_cut {rest' : List UInt8} (h : Ready t (f ++ c :: rest')) (hf : ∀ x ∈ f, x ∉ D) (hc : c ∈ D) :
    ∃ t', (∀ n, f.length < n → tok n 0 D t = some (t.position, t')) ∧ Cut D t (f ++ c :: rest') f rest' t' := by
  have htext := h.text
  rw [List.append_assoc, List.cons_append, at_append, at_cons] at htext
  obtain ⟨hat, hmem, hend⟩ := htext
  have hz := h.no_zero
  rw [List.mem_append, List.mem_cons, not_or, not_or] at hz
  obtain ⟨hzf, hzc, hz'⟩ := hz
  refine ⟨⟨Function.update t.mem (t.position + f.length) 0, t.position + f.length + 1⟩, fun n hn => ?_, ?_⟩
  · obtain ⟨n, rfl⟩ := Nat.exists_eq_add_of_lt hn
    rw [tok, if_neg (not_not.mpr rfl), Nat.add_assoc, tokLoop_skip hat hf hzf, tokLoop, Nat.zero_add, hmem,
      if_pos (Ne.symm hzc), if_pos (isDelimiter_iff.mpr hc)]
  · refine
      { fields_eq := fields_append_cons hf hc rest'
        token := ?_
        ready := ⟨?_, hz'⟩
        next := fun _ => rfl
        last := by simp [Nat.add_assoc, Nat.add_comm 1]
        shorter := by simp; omega
        cuts := fun x hx => ?_ }
    · rw [at_append]
      refine ⟨hat.congr fun x _ hx => Function.update_of_ne (by omega) _ _, at_cons.mpr ⟨Function.update_self _ _ _, rfl⟩⟩
    · exact hend.congr fun x hx _ => Function.update_of_ne (Nat.ne_of_gt hx) _ _
    · obtain rfl : x = t.position + f.length := by
        by_contra hne
        exact hx (Function.update_of_ne hne _ _)
      exact ⟨Nat.le_add_right _ _, Nat.lt_succ_self _, hmem ▸ hc, Function.update_self _ _ _⟩

theorem tok_cons (h : Ready t rest) (hne : rest ≠ []) (D : List UInt8) :
    ∃ f rest' t', (∀ n, rest.length < n → tok n 0 D t = some (t.position, t')) ∧ Cut D t rest f rest' t' := by
  rcases exists_cut D rest with hf | ⟨f, c, rest', rfl, hf, hc⟩
  · obtain ⟨t', htok, hcut⟩ := tok_last h hne hf
    exact ⟨rest, [], t', htok, hcut⟩
  · obtain ⟨t', htok, hcut⟩ := tok_cut h hf hc
    refine ⟨f, rest', t', fun n hn => htok n ?_, hcut⟩
    rw [List.length_append] at hn
    omega

end OneCall

section Runs

theorem Splits.zero (D : List UInt8) (mem : ℕ → UInt8) (s : ℕ) (str : List UInt8) : Splits D mem mem s str 0 [] where
  pointers := by rw [Nat.zero_sub]; rfl
  strings := rfl
  cuts := fun x hx => absurd rfl hx

theorem Splits.empty {mem mem' : ℕ → UInt8} {s : ℕ} {ps : List ℕ} (h : Splits D mem mem' s [] k ps) :
    Splits D mem mem' s [] (k + 1) (0 :: ps) where
  pointers := by
    have hps := h.pointers
    rw [fields_nil, List.take_nil, List.length_nil, Nat.sub_zero] at hps
    rw [hps, fields_nil, List.take_nil]
    rfl
  strings := rfl
  cuts := h.cuts

theorem Cut.next_eq {rest' : List UInt8} (h : Cut D t rest f rest' t') :
    fields D rest' = [] ∨ t'.position = t.position + f.length + 1 := by
  by_cases hne : rest' = []
  · exact .inl (hne ▸ fields_nil)
  · exact .inr (h.next hne)

theorem Cut.splits {rest' : List UInt8} {mem' : ℕ → UInt8} {ps : List ℕ} (h : Cut D t rest f rest' t')
    (hs : Splits D t'.mem mem' t'.position rest' k ps) :
    Splits D t.mem mem' t.position rest (k + 1) (t.position :: ps) where
  pointers := by
    have hps := hs.pointers
    rw [h.fields_eq, List.take_succ_cons, List.length_cons, Nat.add_sub_add_right, Bytes.pointers, List.cons_append, hps]
    rcases h.next_eq with hnil | hnext
    · rw [hnil, List.take_nil]
      rfl
    · rw [hnext]
  strings := by
    rw [h.fields_eq, List.take_succ_cons, strings_cons, at_append, List.length_append, List.length_singleton]
    refine ⟨h.token.congr fun x hle hlt => ?_, ?_⟩
    · -- the later calls write behind the place where this one has put its NUL
      by_contra hx
      obtain ⟨hle', hlt', -⟩ := hs.cuts x hx
      have hnext := h.next fun hnil => by rw [hnil, List.length_nil] at hlt'; omega
      rw [List.length_append, List.length_singleton] at hlt
      omega
    · rcases h.next_eq with hnil | hnext
      · rw [hnil, List.take_nil]
        rfl
      · have hrest := hs.strings
        rwa [hnext, Nat.add_assoc] at hrest
  cuts := by
    intro x hx
    by_cases hx' : mem' x = t'.mem x
    · obtain ⟨hle, hlt, hD, hzero⟩ := h.cuts x (hx' ▸ hx)
      have := h.last
      exact ⟨hle, by omega, hD, hx' ▸ hzero⟩
    · obtain ⟨hle, hlt, hD, hzero⟩ := hs.cuts x hx'
      have hsame : t'.mem x = t.mem x := by
        by_contra hne
        exact absurd (h.cuts x hne).2.1 (Nat.not_lt.mpr hle)
      have hlast := h.last
      have hshorter := h.shorter
      exact ⟨by omega, by omega, hsame ▸ hD, hzero⟩

theorem calls_splits (h : Ready t rest) (D : List UInt8) (k : ℕ) :
    ∃ ps t', (∀ n, rest.length < n → calls (tok n 0 D) k t = some (ps, t')) ∧
      Splits D t.mem t'.mem t.position rest k ps := by
  induction k generalizing t rest with
  | zero => exact ⟨[], t, fun _ _ => rfl, .zero D t.mem t.position rest⟩
  | succ k ih =>
    by_cases hne : rest = []
    · subst hne
      obtain ⟨ps, t', hrun, hsplits⟩ := ih h
      refine ⟨0 :: ps, t', fun n hn => ?_, hsplits.empty⟩
      rw [calls, tok_nil h hn, Option.bind_some, hrun n hn]
      rfl
    · obtain ⟨f, rest', t₁, htok, hcut⟩ := tok_cons h hne D
      obtain ⟨ps, t', hrun, hsplits⟩ := ih hcut.ready
      refine ⟨t.position :: ps, t', fun n hn => ?_, hcut.splits hsplits⟩
      rw [calls, htok n hn, Option.bind_some, hrun n (hcut.shorter.trans hn)]
      rfl

end Runs

section Name

variable {m part name fname : ℕ} {ps : List ℕ}

theorem calls_cons {call : Tok → Option (ℕ × Tok)} {p : ℕ} (h : calls call (k + 1) t = some (p :: ps, t')) :
    ∃ t₁, call t = some (p, t₁) ∧ calls call k t₁ = some (ps, t') := by
  obtain ⟨⟨p', t₁⟩, hcall, hrest⟩ := Option.bind_eq_some_iff.mp h
  obtain ⟨⟨ps', t₂⟩, hcalls, heq⟩ := Option.map_eq_some_iff.mp hrest
  cases heq
  exact ⟨t₁, hcall, hcalls⟩

theorem nameLoop_eq (h : calls (tok n 0 [0x2F]) (ps.length + 1) t = some (ps ++ [0], t')) (hps : 0 ∉ ps)
    (hpart : part ≠ 0) (hm : ps.length + 1 < m) : nameLoop n m part name t = some (ps.getLast?.getD part, t') := by
  obtain ⟨m, rfl⟩ : ∃ m', m = m' + 1 := ⟨m - 1, by omega⟩
  induction ps generalizing t part name m with
  | nil =>
    obtain ⟨t₁, htok, hend⟩ := calls_cons h
    cases hend
    obtain ⟨m, rfl⟩ : ∃ m', m = m' + 1 := ⟨m - 1, by simp at hm; omega⟩
    rw [nameLoop, if_pos hpart, kstrtok, htok, Option.bind_some, nameLoop, if_neg (not_not.mpr rfl)]
    rfl
  | cons p ps ih =>
    obtain ⟨t₁, htok, hcalls⟩ := calls_cons h
    rw [List.mem_cons, not_or] at hps
    rw [List.length_cons] at hm
    obtain ⟨m, rfl⟩ : ∃ m', m = m' + 1 := ⟨m - 1, by omega⟩
    rw [nameLoop, if_pos hpart, kstrtok, htok, Option.bind_some, List.getLast?_cons]
    exact ih hcalls hps.2 (Ne.symm hps.1) m (by omega)

theorem elfName_eq (hf : fname ≠ 0)
    (h : calls (tok n 0 [0x2F]) (ps.length + 1) { t with position := fname } = some (ps ++ [0], t')) (hps : 0 ∉ ps)
    (hn : ps.length + 1 < n) : elfName n fname t = some (ps.getLast?.getD 0, t') := by
  have hfirst : kstrtok n fname [0x2F] t = tok n 0 [0x2F] { t with position := fname } := by
    rw [kstrtok, tok, tok, if_pos hf, if_neg (not_not.mpr rfl)]
  rw [elfName, hfirst]
  cases ps with
  | nil =>
    obtain ⟨t₁, htok, hend⟩ := calls_cons h
    cases hend
    obtain ⟨n, rfl⟩ : ∃ n', n = n' + 1 := ⟨n - 1, by simp at hn; omega⟩
    rw [htok, Option.bind_some, nameLoop, if_neg (not_not.mpr rfl)]
    rfl
  | cons p ps =>
    obtain ⟨t₁, htok, hcalls⟩ := calls_cons h
    rw [List.mem_cons, not_or] at hps
    rw [List.length_cons] at hn
    rw [htok, Option.bind_some, nameLoop_eq hcalls hps.2 (Ne.symm hps.1) (by omega), List.getLast?_cons]
    rfl

theorem zero_notMem_pointers {s : ℕ} (hs : s ≠ 0) (l : List (List UInt8)) : 0 ∉ pointers s l := by
  induction l generalizing s with
  | nil => exact List.not_mem_nil
  | cons f l ih =>
    rw [pointers, List.mem_cons, not_or]
    exact ⟨Ne.symm hs, ih (Nat.succ_ne_zero _)⟩

theorem at_last_pointer {mem : ℕ → UInt8} {s : ℕ} {l : List (List UInt8)} (h : At mem s (strings l))
    (hl : l.getLast? = some f) : At mem ((pointers s l).getLast?.getD 0) (f ++ [0]) := by
  obtain ⟨l, rfl⟩ := List.getLast?_eq_some_iff.mp hl
  rw [strings_append, at_append] at h
  rw [pointers_append, pointers, pointers, List.getLast?_append, List.getLast?_singleton]
  exact (at_append.mp h.2).1

end Name

section Strings

variable {mem : ℕ → UInt8} {s : ℕ}

def callsFrom (call : ℕ → Tok → Option (ℕ × Tok)) (s k : ℕ) (t : Tok) : Option (List ℕ × Tok) :=
  (call s t).bind fun r => (calls (call 0) k r.2).map fun rs => (r.1 :: rs.1, rs.2)

theorem callsFrom_eq (hs : s ≠ 0) (n : ℕ) (D : List UInt8) (k position : ℕ) :
    callsFrom (fun str => tok n str D) s k ⟨mem, position⟩ = calls (tok n 0 D) (k + 1) ⟨mem, s⟩ := by
  have hfirst : tok n s D ⟨mem, position⟩ = tok n 0 D ⟨mem, s⟩ := by
    rw [tok, tok, if_pos hs, if_neg (not_not.mpr rfl)]
  rw [callsFrom, hfirst, calls]

theorem callsFrom_splits (hs : s ≠ 0) (hat : At mem s (str ++ [0])) (hz : 0 ∉ str) (D : List UInt8) (k position : ℕ) :
    ∃ ps t, (∀ n, str.length < n → callsFrom (fun str => tok n str D) s k ⟨mem, position⟩ = some (ps, t)) ∧
      Splits D mem t.mem s str (k + 1) ps := by
  obtain ⟨ps, t, hrun, hsplits⟩ := calls_splits (t := ⟨mem, s⟩) ⟨hat, hz⟩ D (k + 1)
  exact ⟨ps, t, fun n hn => (callsFrom_eq hs n D k position).trans (hrun n hn), hsplits⟩

theorem elfName_splits (hs : s ≠ 0) (hat : At mem s (str ++ [0])) (hz : 0 ∉ str)
    (hslash : str.getLast? ≠ some 0x2F) (position : ℕ) :
    ∃ fuel name t, (∀ n, fuel < n → elfName n s ⟨mem, position⟩ = some (name, t)) ∧
      if str = [] then name = 0 else At t.mem name (str.rtakeWhile (· ≠ 0x2F) ++ [0]) := by
  obtain ⟨ps, t, hrun, hsplits⟩ := calls_splits (t := ⟨mem, s⟩) ⟨hat, hz⟩ [0x2F] ((fields [0x2F] str).length + 1)
  have hps := hsplits.pointers
  have hat' := hsplits.strings
  rw [List.take_of_length_le (Nat.le_succ _)] at hps hat'
  rw [Nat.add_sub_cancel_left] at hps
  refine ⟨str.length + (fields [0x2F] str).length + 1, (pointers s (fields [0x2F] str)).getLast?.getD 0, t, fun n hn => ?_, ?_⟩
  · have hcalls := hrun n (by omega)
    rw [hps, ← length_pointers s] at hcalls
    exact elfName_eq hs hcalls (zero_notMem_pointers hs _) (by rw [length_pointers]; omega)
  · split
    · rename_i hnil
      rw [hnil]
      rfl
    · rename_i hne
      have hlast := getLast?_fields (D := [0x2F]) hne fun c hc hmem =>
        hslash (by rw [← List.mem_singleton.mp hmem]; exact hc)
      simp only [List.mem_singleton] at hlast
      exact at_last_pointer hat' hlast

/-- The tokens of a string are its fields in their order, and 0 when there are none left; only delimiters are
overwritten. The name of a process is what stands behind the last slash of a path that does not end in one, and no
string for the empty path. -/
theorem strtok_splits (hs : s ≠ 0) (hat : At mem s (str ++ [0])) (hz : 0 ∉ str) :
    (∀ D k position, ∃ ps t,
      (∀ n, str.length < n → callsFrom (fun str => strtok n str D) s k ⟨mem, position⟩ = some (ps, t)) ∧
        Splits D mem t.mem s str (k + 1) ps) ∧
    (∀ D k position, ∃ ps t,
      (∀ n, str.length < n → callsFrom (fun str => kstrtok n str D) s k ⟨mem, position⟩ = some (ps, t)) ∧
        Splits D mem t.mem s str (k + 1) ps) ∧
    (str.getLast? ≠ some 0x2F → ∀ position, ∃ fuel name t,
      (∀ n, fuel < n → elfName n s ⟨mem, position⟩ = some (name, t)) ∧
        if str = [] then name = 0 else At t.mem name (str.rtakeWhile (· ≠ 0x2F) ++ [0])) :=
  ⟨callsFrom_splits hs hat hz, callsFrom_splits hs hat hz, elfName_splits hs hat hz⟩

theorem elfName_fails_on_empty : At (fun x => if x = 1 then 0 else 1) 1 ([] ++ [0]) ∧
    ∃ t, elfName 1 1 ⟨fun x => if x = 1 then 0 else 1, 0⟩ = some (0, t) ∧ ¬ At t.mem 0 ([] ++ [0]) :=
  ⟨by decide, _, rfl, by decide⟩

theorem strtok_splits_slash : ∃ ps t,
    (∀ n, 2 < n → callsFrom (fun str => strtok n str [0x2F]) 1 2 ⟨fun x => [0, 0x2F, 0x62].getD x 0, 0⟩ = some (ps, t)) ∧
      Splits [0x2F] (fun x => [0, 0x2F, 0x62].getD x 0) t.mem 1 [0x2F, 0x62] 3 ps := by
  have hat : At (fun x => [0, 0x2F, 0x62].getD x 0) 1 ([0x2F, 0x62] ++ [0]) := by decide
  exact (strtok_splits (by decide) hat (by decide)).1 [0x2F] 2 0

end Strings

end Os506.Libc
