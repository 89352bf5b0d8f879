import Mathlib.Data.List.Monad
import Os506.Terminal.Buffer
import Os506.Lib.Run
import Os506.Memory.Memmove

namespace Os506

/-- The cursor, the bytes of video memory from `BASE` and of `arr`, and the ranges of bytes that were written in them
since `clr`. The bytes before and behind the two arrays have offsets too; `updatecsr` is left out. -/
structure Screen where
  x : ℤ
  y : ℤ
  video : ℤ → UInt8
  arr : ℤ → UInt8
  writes : List (ℤ × ℕ)

def onward (l : ℕ → UInt8) (m : ℤ → UInt8) (i : ℤ) : UInt8 := if 0 ≤ i ∧ i < 0x100000000 then l i.toNat else m i

def moveBytes (src dst n : ℕ) (m : ℤ → UInt8) : ℤ → UInt8 := onward (System.memmove src dst n fun k => m k) m

/-- `memmove` to an array from another one, which is 4 GB above. -/
def copyBytes (arr : ℤ → UInt8) (src dst n : ℕ) (m : ℤ → UInt8) : ℤ → UInt8 :=
  onward (System.memmove (0x100000000 + src) dst n fun k => if k < 0x100000000 then m k else arr (k - 0x100000000)) m

def memsetw (lo hi : UInt8) : ℕ → ℤ → (ℤ → UInt8) → ℤ → UInt8
  | 0, _, m => m
  | n + 1, a, m => memsetw lo hi n (a + 2) (Function.update (Function.update m a lo) (a + 1) hi)

theorem onward_moved {l : ℕ → UInt8} {m arr : ℤ → UInt8} {n src dst p : ℕ} (hsrc : ∀ k < n, l (p + k) = arr (src + k))
    (hl : ∀ k < 2 ^ 32, l k = m k) (hd : dst + n ≤ 2 ^ 32) (i : ℤ) :
    onward (Copy.moved n dst p l) m i = if dst ≤ i ∧ i < dst + n then arr (i + (src - dst)) else m i := by
  rw [onward]
  by_cases hin : dst ≤ i ∧ i < dst + n
  · rw [if_pos (by omega), if_pos hin, Copy.moved, if_pos (by omega), hsrc _ (by omega)]
    exact congrArg arr (by omega)
  · rw [if_neg hin]
    split
    · rw [Copy.moved, if_neg (by omega), hl _ (by omega), Int.toNat_of_nonneg (by omega)]
    · rfl

theorem moveBytes_apply {src dst n : ℕ} (hle : dst ≤ src) (hs : src + n ≤ 2 ^ 32) (m : ℤ → UInt8) (i : ℤ) :
    moveBytes src dst n m i = if dst ≤ i ∧ i < dst + n then m (i + (src - dst)) else m i := by
  have hmoves : System.Moves src dst n fun k => m k :=
    (System.moves_iff (by omega) (by omega)).mpr fun hcase => by omega
  rw [moveBytes, System.moves_iff_eq.mp hmoves]
  exact onward_moved (fun k _ => congrArg m (Int.natCast_add src k)) (fun _ _ => rfl) (by omega) i

theorem copyBytes_apply (arr : ℤ → UInt8) {src dst n : ℕ} (hs : src + n ≤ 2 ^ 32) (hd : dst + n ≤ 2 ^ 32) (m : ℤ → UInt8)
    (i : ℤ) : copyBytes arr src dst n m i = if dst ≤ i ∧ i < dst + n then arr (i + (src - dst)) else m i := by
  rw [copyBytes, System.memmove_disjoint (by omega) (by omega) (by omega)]
  refine onward_moved (fun k _ => ?_) (fun k hk => if_pos hk) hd i
  rw [if_neg (by omega)]
  exact congrArg arr (by omega)

theorem memsetw_off (lo hi : UInt8) {n : ℕ} {a i : ℤ} (m : ℤ → UInt8) (h : i < a ∨ a + 2 * n ≤ i) :
    memsetw lo hi n a m i = m i := by
  induction n generalizing a m with
  | zero => rfl
  | succ n ih =>
    rw [memsetw, ih _ (by omega), Function.update_of_ne (by omega), Function.update_of_ne (by omega)]

theorem memsetw_low (lo hi : UInt8) {n : ℕ} {a k : ℤ} (m : ℤ → UInt8) (h0 : 0 ≤ k) (hk : k < n) :
    memsetw lo hi n a m (a + 2 * k) = lo := by
  induction n generalizing a m k with
  | zero => omega
  | succ n ih =>
    rw [memsetw]
    by_cases hz : k = 0
    · rw [memsetw_off _ _ _ (by omega), Function.update_of_ne (by omega), hz, Int.mul_zero, Int.add_zero, Function.update_self]
    · rw [show a + 2 * k = a + 2 + 2 * (k - 1) by omega, ih _ (by omega) (by omega)]

namespace Screen

def width : ℤ := 80

def height : ℤ := 24

def blank : UInt8 := 0x20

def black : UInt8 := 7

def carriageReturn : UInt8 := 13

def draw (c : UInt8) (s : Screen) : Screen :=
  { s with
    video := Function.update s.video (s.x * 2 + s.y * width * 2) c
    arr := Function.update (Function.update s.arr ((s.x + s.y * width) * 2) c) ((s.x + s.y * width) * 2 + 1) black
    writes := (s.x * 2 + s.y * width * 2, 1) :: ((s.x + s.y * width) * 2, 2) :: s.writes }

def scroll (s : Screen) : Screen :=
  if height ≤ s.y then
    { x := 0
      y := height - 1
      video := memsetw blank black 80 3680 (copyBytes s.arr 160 0 3680 s.video)
      arr := memsetw blank black 80 3680 (moveBytes 160 0 3680 s.arr)
      writes := (3680, 160) :: (0, 3680) :: (3680, 160) :: (0, 3680) :: s.writes }
  else s

def settle (s : Screen) : Screen := scroll (if width ≤ s.x then { s with x := 0, y := s.y + 1 } else s)

mutual

/-- `kputchar`, with a bound for the turns of its loop; a `char` is signed. -/
def kputchar : ℕ → UInt8 → Screen → Option Screen
  | 0, _, _ => none
  | fuel + 1, c, s =>
    if c = Terminal.newline then some (settle { s with x := 0, y := s.y + 1 })
    else if c = carriageReturn then some (settle { s with x := 0 })
    else if blank.toBitVec.toInt ≤ c.toBitVec.toInt then
      let s := s.draw c
      some (settle { s with x := s.x + 1 })
    else if c = Terminal.backspaceKey then
      let s := if s.x = 0 then { s with y := s.y - 1, x := width - 1 } else { s with x := s.x - 1 }
      some (settle (s.draw blank))
    else if c = Terminal.tab then (tabLoop fuel 0 s).map settle
    else some s

/-- The loop of the branch for a tab, which does not change `cnt`. -/
def tabLoop : ℕ → ℤ → Screen → Option Screen
  | 0, _, _ => none
  | fuel + 1, cnt, s => if cnt < 4 then (kputchar fuel blank s).bind (tabLoop fuel cnt) else some s

end

def clrRow (s : Screen) (i : ℕ) : Screen :=
  { s with
    video := memsetw blank black 80 (i * 160) s.video
    arr := memsetw blank black 80 (i * 160) s.arr
    writes := (i * 160, 160) :: (i * 160, 160) :: s.writes }

def clr (s : Screen) : Screen :=
  { (List.range 24).foldl clrRow { s with writes := [] } with x := 0, y := 0 }

def kputs (fuel : ℕ) : List UInt8 → Screen → Option Screen
  | [], s => some s
  | c :: l, s => (kputchar fuel c s).bind (kputs fuel l)

def termWrite (fuel : ℕ) (buf : Option (List UInt8)) (s : Screen) : Option (ℤ × Screen) :=
  match buf with
  | none => some (-1, s)
  | some l => (kputs fuel l s).map fun s => (l.length, s)

def put (c : UInt8) (s : Screen) : Screen := (kputchar 1 c s).getD s

variable {s t : Screen} {c : UInt8} {fuel : ℕ}

theorem kputchar_put (hc : c ≠ Terminal.tab) (fuel : ℕ) (s : Screen) : kputchar (fuel + 1) c s = some (put c s) := by
  rw [put, kputchar, kputchar]
  split_ifs <;> rfl

theorem tabLoop_none (fuel : ℕ) (s : Screen) : tabLoop fuel 0 s = none := by
  induction fuel generalizing s with
  | zero => rw [tabLoop]
  | succ fuel ih =>
    rw [tabLoop, if_pos (by decide)]
    cases kputchar fuel blank s with
    | none => rfl
    | some t => exact ih t

theorem kputchar_tab (fuel : ℕ) (s : Screen) : kputchar fuel Terminal.tab s = none := by
  cases fuel with
  | zero => rw [kputchar]
  | succ fuel =>
    rw [kputchar, if_neg (by decide), if_neg (by decide), if_neg (by decide), if_neg (by decide), if_pos rfl, tabLoop_none]
    rfl

theorem kputchar_some (h : kputchar fuel c s = some t) : c ≠ Terminal.tab ∧ t = put c s := by
  have hc : c ≠ Terminal.tab := by
    rintro rfl
    rw [kputchar_tab] at h
    cases h
  cases fuel with
  | zero =>
    rw [kputchar] at h
    cases h
  | succ fuel =>
    rw [kputchar_put hc] at h
    exact ⟨hc, (Option.some.inj h).symm⟩

structure Kept (s : Screen) : Prop where
  writes : ∀ w ∈ s.writes, 0 ≤ w.1 ∧ w.1 + w.2 ≤ 3840
  same : ∀ k, 0 ≤ k → k < width * height → s.video (2 * k) = s.arr (2 * k)

structure Inside (s : Screen) : Prop extends Kept s where
  column : 0 ≤ s.x ∧ s.x < width
  line : 0 ≤ s.y ∧ s.y < height

theorem Kept.move (h : Kept s) (x y : ℤ) : Kept { s with x := x, y := y } := ⟨h.writes, h.same⟩

theorem Kept.draw (h : Kept s) {x y : ℤ} (hx : 0 ≤ x ∧ x < width) (hy : 0 ≤ y ∧ y < height) (c : UInt8) :
    Kept (draw c { s with x := x, y := y }) := by
  simp only [width, height] at hx hy
  refine ⟨?_, fun k h0 hk => ?_⟩
  · simp only [Screen.draw, List.forall_mem_cons, width]
    exact ⟨by omega, by omega, h.writes⟩
  · simp only [Screen.draw, width]
    rw [Function.update_of_ne (show 2 * k ≠ (x + y * 80) * 2 + 1 by omega)]
    by_cases hcell : k = x + y * 80
    · rw [show 2 * k = x * 2 + y * 80 * 2 by omega, Function.update_self, show x * 2 + y * 80 * 2 = (x + y * 80) * 2 by omega,
        Function.update_self]
    · rw [Function.update_of_ne (by omega), Function.update_of_ne (by omega)]
      exact h.same k h0 hk

theorem Kept.scroll (h : Kept s) {x y : ℤ} (hx : 0 ≤ x ∧ x < width) (hy : 0 ≤ y) :
    Inside (scroll { s with x := x, y := y }) := by
  by_cases hh : height ≤ y
  · rw [Screen.scroll, if_pos hh]
    have hfirst : (0 : ℤ) ≤ 0 ∧ 0 < width := by decide
    have hlast : 0 ≤ height - 1 ∧ height - 1 < height := by decide
    refine ⟨⟨?_, fun k h0 hk => ?_⟩, hfirst, hlast⟩
    · simp only [List.forall_mem_cons]
      exact ⟨by decide, by decide, by decide, by decide, h.writes⟩
    · simp only [width, height] at hk ⊢
      by_cases hlow : k < 1840
      · rw [memsetw_off _ _ _ (by omega), memsetw_off _ _ _ (by omega), copyBytes_apply _ (by decide) (by decide),
          moveBytes_apply (by decide) (by decide), if_pos (by omega), if_pos (by omega)]
      · rw [show 2 * k = 3680 + 2 * (k - 1840) by omega, memsetw_low _ _ _ (by omega) (by omega),
          memsetw_low _ _ _ (by omega) (by omega)]
  · rw [Screen.scroll, if_neg hh]
    exact ⟨h.move x y, hx, hy, by dsimp only; omega⟩

theorem Kept.settle (h : Kept s) {x y : ℤ} (hx : 0 ≤ x ∧ x ≤ width) (hy : 0 ≤ y) :
    Inside (settle { s with x := x, y := y }) := by
  by_cases hw : width ≤ x
  · rw [Screen.settle, if_pos hw]
    exact h.scroll (by decide) (by change 0 ≤ y + 1; omega)
  · rw [Screen.settle, if_neg hw]
    exact h.scroll (by omega) hy

theorem Inside.put (h : Inside s) (hc : c = Terminal.backspaceKey → ¬ (s.x = 0 ∧ s.y = 0)) : Inside (put c s) := by
  obtain ⟨⟨hx0, hx⟩, hy0, hy⟩ := h.column, h.line
  rw [Screen.put, kputchar]
  split_ifs with hnl hcr hprint hbs hzero htab
  · exact h.toKept.settle (by decide) (by omega)
  · exact h.toKept.settle (by decide) hy0
  · exact (h.toKept.draw h.column h.line c).settle ⟨by change 0 ≤ s.x + 1; omega, by change s.x + 1 ≤ width; omega⟩ hy0
  · have hline : s.y ≠ 0 := fun hz => hc hbs ⟨hzero, hz⟩
    have hlast : 0 ≤ width - 1 ∧ width - 1 < width := by decide
    exact (h.toKept.draw hlast (y := s.y - 1) (by omega) blank).settle ⟨hlast.1, Int.le_of_lt hlast.2⟩
      (by change 0 ≤ s.y - 1; omega)
  · have hleft : 0 ≤ s.x - 1 ∧ s.x - 1 < width := by omega
    exact (h.toKept.draw hleft h.line blank).settle ⟨hleft.1, Int.le_of_lt hleft.2⟩ hy0
  · exact h
  · exact h

theorem clrRows {n : ℕ} (hn : n ≤ 24) (s : Screen) :
    (∀ w ∈ ((List.range n).foldl clrRow { s with writes := [] }).writes, 0 ≤ w.1 ∧ w.1 + w.2 ≤ 3840) ∧
      ∀ k : ℤ, 0 ≤ k → k < 80 * n → ((List.range n).foldl clrRow { s with writes := [] }).video (2 * k) =
        ((List.range n).foldl clrRow { s with writes := [] }).arr (2 * k) := by
  induction n with
  | zero => exact ⟨fun w hw => (List.not_mem_nil hw).elim, fun k h0 hk => by omega⟩
  | succ n ih =>
    obtain ⟨hwrites, hsame⟩ := ih (by omega)
    rw [List.range_succ, List.foldl_append]
    refine ⟨?_, fun k h0 hk => ?_⟩
    · simp only [List.foldl_cons, List.foldl_nil, clrRow, List.forall_mem_cons]
      exact ⟨by omega, by omega, hwrites⟩
    · simp only [List.foldl_cons, List.foldl_nil, clrRow]
      by_cases hlow : k < 80 * n
      · rw [memsetw_off _ _ _ (by omega), memsetw_off _ _ _ (by omega), hsame k h0 hlow]
      · rw [show 2 * k = n * 160 + 2 * (k - 80 * n) by omega, memsetw_low _ _ _ (by omega) (by omega),
          memsetw_low _ _ _ (by omega) (by omega)]

theorem clr_inside (s : Screen) : Inside s.clr := by
  obtain ⟨hwrites, hsame⟩ := clrRows (n := 24) (by decide) s
  have hzero : (0 : ℤ) ≤ 0 ∧ 0 < width := by decide
  have hzero' : (0 : ℤ) ≤ 0 ∧ 0 < height := by decide
  exact ⟨⟨hwrites, fun k h0 hk => hsame k h0 hk⟩, hzero, hzero'⟩

def Stays (c : UInt8) (s : Screen) : Prop := c = Terminal.backspaceKey → ¬ (s.x = 0 ∧ s.y = 0)

theorem put_first (hx : s.x = 0) (hy : s.y = 0) : (put Terminal.backspaceKey s).y = -1 := by
  rw [put, kputchar, if_neg (by decide), if_neg (by decide), if_neg (by decide), if_pos rfl, if_pos hx, hy]
  rfl

theorem inside_put_iff (h : Inside s) : Inside (put c s) ↔ Stays c s := by
  refine ⟨fun h' hc hz => ?_, h.put⟩
  subst hc
  have hline := h'.line.1
  rw [put_first hz.1 hz.2] at hline
  omega

theorem kputs_returns {l : List UInt8} (h : kputs fuel l s = some t) :
    Run.Meets (kputchar fuel) (fun c s => kputchar fuel c s = some (put c s)) s l := by
  induction l generalizing s with
  | nil => trivial
  | cons c l ih =>
    rw [kputs, Option.bind_eq_some_iff] at h
    obtain ⟨u, hu, hl⟩ := h
    refine ⟨hu.trans (congrArg some (kputchar_some hu).2), fun v hv => ?_⟩
    rw [Option.some.inj (hv.symm.trans hu)]
    exact ih hl

theorem kputs_put {l : List UInt8} (hl : Terminal.tab ∉ l) (fuel : ℕ) (s : Screen) :
    kputs (fuel + 1) l s = some (l.foldl (fun s c => put c s) s) := by
  induction l generalizing s with
  | nil => rfl
  | cons c l ih =>
    rw [kputs, kputchar_put (fun hc => hl (hc ▸ List.mem_cons_self))]
    exact ih (fun hin => hl (List.mem_cons_of_mem c hin)) (put c s)

theorem kputs_some {l : List UInt8} (h : kputs fuel l s = some t) : Terminal.tab ∉ l := by
  induction l generalizing s with
  | nil => exact List.not_mem_nil
  | cons c l ih =>
    rw [kputs, Option.bind_eq_some_iff] at h
    obtain ⟨u, hu, hl⟩ := h
    rw [List.mem_cons]
    rintro (rfl | hin)
    · exact (kputchar_some hu).1 rfl
    · exact ih hl hin

/-- From `clr` on, the screen is in order after each character of a text that is written to its end exactly when no
backspace comes in the first place of the screen. -/
theorem inside_run_iff (fuel : ℕ) (s₀ t : Screen) (l : List UInt8) (h : kputs fuel l s₀.clr = some t) :
    Run.Along (kputchar fuel) Inside s₀.clr l ↔ Run.Meets (kputchar fuel) Stays s₀.clr l := by
  apply Run.along_iff_meets (I := Inside) (E := fun c s => kputchar fuel c s = some (put c s)) _ (clr_inside s₀) (clr_inside s₀)
    (kputs_returns h)
  intro c s hs _ hput
  exact ⟨put c s, hput, id, inside_put_iff hs⟩

def dark : Screen := ⟨0, 0, fun _ => 0, fun _ => 0, []⟩

theorem inside_run_line : (∃ t, kputs 1 [0x61, 8, 10] dark.clr = some t) ∧
    Run.Along (kputchar 1) Inside dark.clr [0x61, 8, 10] := by
  have hwrite := kputs_put (l := [0x61, 8, 10]) (by decide) 0 dark.clr
  refine ⟨⟨_, hwrite⟩, (inside_run_iff 1 dark _ _ hwrite).mpr ⟨fun hc => ?_, fun t ht =>
    ⟨fun _ hz => ?_, fun u _ => ⟨fun hc => ?_, ?_⟩⟩⟩⟩
  · exact absurd hc (by decide)
  · rw [(kputchar_some ht).2] at hz
    exact absurd hz.1 (by decide)
  · exact absurd hc (by decide)
  · exact fun _ _ => trivial

theorem inside_fails_on_backspace : (∃ t, kputs 1 [Terminal.backspaceKey] dark.clr = some t) ∧
    ¬ Run.Along (kputchar 1) Inside dark.clr [Terminal.backspaceKey] := by
  refine ⟨⟨_, kputs_put (l := [Terminal.backspaceKey]) (by decide) 0 dark.clr⟩, fun h => ?_⟩
  have hout := (h.2 _ (kputchar_put (by decide) 0 _)).line.1
  rw [put_first rfl rfl] at hout
  omega

def written (l : List UInt8) (s : Screen) : Screen :=
  l.foldl (fun s c => if c = Terminal.tab then put blank (put blank (put blank (put blank s))) else put c s) s

theorem written_eq {l : List UInt8} (hl : Terminal.tab ∉ l) (s : Screen) : written l s = l.foldl (fun s c => put c s) s := by
  induction l generalizing s with
  | nil => rfl
  | cons c l ih =>
    rw [written, List.foldl_cons, if_neg (fun hc : c = Terminal.tab => hl (hc ▸ List.mem_cons_self))]
    exact ih (fun hin => hl (List.mem_cons_of_mem c hin)) (put c s)

theorem kputs_written_iff {l : List UInt8} : (∃ fuel, kputs fuel l s = some (written l s)) ↔ Terminal.tab ∉ l := by
  constructor
  · rintro ⟨fuel, h⟩
    exact kputs_some h
  · intro hl
    exact ⟨1, (kputs_put hl 0 s).trans (congrArg some (written_eq hl s).symm)⟩

end Screen

end Os506
