import Os506.Ktime
import Os506.Terminal.Screen

namespace Os506

open Run

def Ktime.updates (k : Ktime) : List ℕ :=
  let due := (if k.sCnt < 4 then 18 else 19) ≤ k.ticks
  let second := if due then (k.second + 1) % 2 ^ 64 else k.second
  (if due then [second] else []) ++ (if 86400 ≤ second then [0] else [])

section Tick

variable {k : Ktime}

theorem Ktime.addTick_early (h : k.second < 86400) (ht : k.ticks < if k.sCnt < 4 then 18 else 19) :
    (addTick k).second = k.second ∧ (addTick k).day = k.day := by
  have hday : ¬ 86400 ≤ k.second := Nat.not_le.mpr h
  by_cases hs : k.sCnt < 4
  · rw [if_pos hs] at ht
    simp only [addTick, hs, ht, hday, if_true, if_false, and_self]
  · rw [if_neg hs] at ht
    simp only [addTick, hs, ht, hday, if_true, if_false, and_self]

theorem Ktime.addTick_due (h : k.second < 86400) (ht : (if k.sCnt < 4 then 18 else 19) ≤ k.ticks) :
    (addTick k).second = if 86400 ≤ k.second + 1 then 0 else k.second + 1 := by
  have hnext : (k.second + 1) % 2 ^ 64 = k.second + 1 := Nat.mod_eq_of_lt (by omega)
  rw [addTick]
  by_cases hs : k.sCnt < 4
  · rw [if_pos hs] at ht
    simp only [hs, Nat.not_lt.mpr ht, hnext, if_true, if_false, apply_ite Ktime.second]
  · rw [if_neg hs] at ht
    simp only [hs, Nat.not_lt.mpr ht, hnext, if_false, apply_ite Ktime.second]

theorem Ktime.addTick_cases (h : k.second < 86400) :
    (k.updates = [] ∧ (addTick k).second = k.second ∧ (addTick k).day = k.day) ∨
      (k.updates = [k.second + 1] ∧ (addTick k).second = k.second + 1 ∧ k.second + 1 < 86400) ∨
      (k.updates = [86400, 0] ∧ (addTick k).second = 0) := by
  have hnext : (k.second + 1) % 2 ^ 64 = k.second + 1 := Nat.mod_eq_of_lt (by omega)
  rcases Nat.lt_or_ge k.ticks (if k.sCnt < 4 then 18 else 19) with ht | ht
  · left
    refine ⟨?_, addTick_early h ht⟩
    simp only [updates, Nat.not_le.mpr ht, if_false, Nat.not_le.mpr h, List.append_nil]
  · right
    rw [addTick_due h ht]
    simp only [updates, ht, if_true, hnext]
    by_cases hday : 86400 ≤ k.second + 1
    · -- the last second of a day
      have hlast : k.second + 1 = 86400 := by omega
      right
      rw [if_pos hday, if_pos hday, hlast]
      exact ⟨rfl, rfl⟩
    · left
      rw [if_neg hday, if_neg hday, List.append_nil]
      exact ⟨rfl, rfl, Nat.not_le.mp hday⟩

end Tick

namespace Screen

def cells : ℤ → List UInt8 → (ℤ → UInt8) → ℤ → UInt8
  | _, [], m => m
  | loc, c :: l, m => cells (loc + 1) l (Function.update (Function.update m (2 * loc) c) (2 * loc + 1) black)

def timeDigits : ℕ → ℕ → List ℕ
  | 0, _ => []
  | room + 1, integer => if integer = 0 then [] else integer % 10 :: timeDigits room (integer / 10)

def zero : UInt8 := 0x30

def timeChars (integer : ℕ) : List UInt8 :=
  if integer < 10 then [zero, zero + UInt8.ofNat integer]
  else (timeDigits 25 integer).reverse.map fun d => UInt8.ofNat d + zero

def kputTime (integer : ℕ) (loc : ℤ) (m : ℤ → UInt8) : ℤ → UInt8 := cells loc (timeChars integer) m

def colon : UInt8 := 0x3A

/-- `BASE + 80*25 - CLOCK_OFFSET`, in words. -/
def clockLoc : ℤ := 80 * 25 - 15

def updateTime (sec : ℕ) (m : ℤ → UInt8) : ℤ → UInt8 :=
  let sec := sec % 2 ^ 32
  let m := kputTime (sec / 3600) clockLoc m
  let m := cells (clockLoc + 2) [colon] m
  let m := kputTime (sec % 3600 / 60) (clockLoc + 3) m
  let m := cells (clockLoc + 5) [colon] m
  kputTime (sec % 3600 % 60) (clockLoc + 6) m

def clockText (sec : ℕ) : List UInt8 :=
  let two (n : ℕ) : List UInt8 := [zero + UInt8.ofNat (n / 10), zero + UInt8.ofNat (n % 10)]
  two (sec / 3600) ++ colon :: two (sec / 60 % 60) ++ colon :: two (sec % 60)

theorem cells_off {loc : ℤ} {l : List UInt8} {m : ℤ → UInt8} {a : ℤ} (h : a < 2 * loc ∨ 2 * (loc + l.length) ≤ a) :
    cells loc l m a = m a := by
  induction l generalizing loc m with
  | nil => rfl
  | cons c l ih =>
    rw [List.length_cons] at h
    rw [cells, ih (by omega), Function.update_of_ne (by omega), Function.update_of_ne (by omega)]

theorem cells_get {loc : ℤ} {l : List UInt8} {m : ℤ → UInt8} {i : ℕ} (hi : i < l.length) :
    l[i]? = some (cells loc l m (2 * (loc + i))) := by
  induction l generalizing loc m i with
  | nil => exact absurd hi (Nat.not_lt_zero i)
  | cons c l ih =>
    cases i with
    | zero =>
      rw [cells, cells_off (by omega), Function.update_of_ne (by omega), Int.natCast_zero, Int.add_zero, Function.update_self]
      rfl
    | succ i =>
      have hloc : loc + ((i + 1 : ℕ) : ℤ) = loc + 1 + i := by omega
      rw [cells, hloc, List.getElem?_cons_succ]
      exact ih (Nat.lt_of_succ_lt_succ hi)

theorem timeChars_eq {n : ℕ} (h : n < 60) : timeChars n = [zero + UInt8.ofNat (n / 10), zero + UInt8.ofNat (n % 10)] := by
  have hall : ∀ n < 60, timeChars n = [zero + UInt8.ofNat (n / 10), zero + UInt8.ofNat (n % 10)] := by decide +kernel
  exact hall n h

theorem updateTime_eq {sec : ℕ} (h : sec < 86400) (m : ℤ → UInt8) : updateTime sec m = cells clockLoc (clockText sec) m := by
  have hsec : sec % 2 ^ 32 = sec := Nat.mod_eq_of_lt (by omega)
  have hminute : sec % 3600 / 60 = sec / 60 % 60 := by omega
  have hsecond : sec % 3600 % 60 = sec % 60 := by omega
  simp only [updateTime, kputTime, hsec, hminute, hsecond]
  rw [timeChars_eq (show sec / 3600 < 60 by omega), timeChars_eq (show sec / 60 % 60 < 60 by omega),
    timeChars_eq (show sec % 60 < 60 by omega)]
  rfl

/-- For a moment at midnight the clock shows 24 hours. -/
theorem updateTime_midnight (m : ℤ → UInt8) :
    updateTime 86400 m = cells clockLoc [0x32, 0x34, 0x3A, 0x30, 0x30, 0x3A, 0x30, 0x30] m := rfl

def Shows (sec : ℕ) (m : ℤ → UInt8) : Prop := ∀ i : ℕ, i < 8 → (clockText sec)[i]? = some (m (2 * (clockLoc + i)))

def textBytes : ℤ := 3840

theorem updateTime_text {sec : ℕ} (h : sec ≤ 86400) {m : ℤ → UInt8} {a : ℤ} (ha : a < textBytes) :
    updateTime sec m a = m a := by
  rw [textBytes] at ha
  rcases Nat.lt_or_eq_of_le h with hlt | rfl
  · rw [updateTime_eq hlt, cells_off (by rw [clockLoc]; omega)]
  · rw [updateTime_midnight, cells_off (by rw [clockLoc]; omega)]

theorem updateTime_shows {sec : ℕ} (h : sec < 86400) (m : ℤ → UInt8) : Shows sec (updateTime sec m) := by
  intro i hi
  rw [updateTime_eq h]
  exact cells_get hi

inductive ScreenEvent
  | tick
  | char (c : UInt8)

structure Display where
  time : Ktime
  screen : Screen

def ScreenEvent.step : ScreenEvent → Display → Option Display
  | .tick, d => some ⟨d.time.addTick,
      { d.screen with video := d.time.updates.foldl (fun m sec => updateTime sec m) d.screen.video }⟩
  | .char c, d => (kputchar 1 c d.screen).map (Display.mk d.time)

def ScreenEvent.printed : ScreenEvent → Option UInt8
  | .tick => none
  | .char c => some c

instance (c : UInt8) (s : Screen) : Decidable (Stays c s) := inferInstanceAs (Decidable (_ → _))

def print (c : UInt8) (s : Screen) : Option Screen := if Stays c s then kputchar 1 c s else none

section Agree

structure Agree (s t : Screen) : Prop where
  x : s.x = t.x
  y : s.y = t.y
  arr : s.arr = t.arr
  video : ∀ a < textBytes, s.video a = t.video a

variable {s t : Screen} {c : UInt8}

theorem Agree.draw (h : Agree s t) (c : UInt8) : Agree (draw c s) (draw c t) := by
  refine ⟨h.x, h.y, ?_, fun a ha => ?_⟩
  · simp only [Screen.draw, h.x, h.y, h.arr]
  · simp only [Screen.draw, h.x, h.y]
    by_cases hc : a = t.x * 2 + t.y * width * 2
    · rw [hc, Function.update_self, Function.update_self]
    · rw [Function.update_of_ne hc, Function.update_of_ne hc, h.video a ha]

theorem Agree.move (h : Agree s t) (x y : ℤ) : Agree { s with x := x, y := y } { t with x := x, y := y } :=
  ⟨rfl, rfl, h.arr, h.video⟩

theorem memsetw_congr (lo hi : UInt8) (n : ℕ) (a : ℤ) {m m' : ℤ → UInt8} {i : ℤ} (h : m i = m' i) :
    memsetw lo hi n a m i = memsetw lo hi n a m' i := by
  induction n generalizing a m m' with
  | zero => exact h
  | succ n ih =>
    rw [memsetw, memsetw]
    apply ih
    simp only [Function.update_apply, h]

theorem Agree.scroll (h : Agree s t) : Agree (scroll s) (scroll t) := by
  rw [Screen.scroll, Screen.scroll, h.y]
  split
  · refine ⟨rfl, rfl, by rw [h.arr], fun a ha => ?_⟩
    apply memsetw_congr
    rw [copyBytes_apply _ (by decide) (by decide), copyBytes_apply _ (by decide) (by decide), h.arr, h.video a ha]
  · exact h

theorem Agree.settle (h : Agree s t) : Agree (settle s) (settle t) := by
  apply Agree.scroll
  rw [h.x]
  split
  · rw [h.y]
    exact h.move 0 (t.y + 1)
  · exact h

theorem Agree.put (h : Agree s t) (c : UInt8) : Agree (put c s) (put c t) := by
  have hx := h.x
  have hy := h.y
  rw [Screen.put, Screen.put, kputchar, kputchar]
  split_ifs with hnl hcr hprint hbs hs ht ht htab
  · exact hy ▸ (h.move 0 (s.y + 1)).settle
  · exact hy ▸ (h.move 0 s.y).settle
  · have hdraw := h.draw c
    exact Agree.settle ⟨congrArg (· + 1) hx, hy, hdraw.arr, hdraw.video⟩
  · exact hy ▸ ((h.move (width - 1) (s.y - 1)).draw blank).settle
  · exact absurd (hx ▸ hs) ht
  · exact absurd (hx ▸ ht) hs
  · exact hy ▸ hx ▸ ((h.move (s.x - 1) s.y).draw blank).settle
  · exact h
  · exact h

theorem settle_behind (s : Screen) {a : ℤ} (ha : textBytes ≤ a) : (settle s).video a = s.video a := by
  rw [textBytes] at ha
  have hscroll : ∀ s : Screen, (scroll s).video a = s.video a := by
    intro s
    rw [Screen.scroll]
    split
    · dsimp only
      rw [memsetw_off _ _ _ (by omega), copyBytes_apply _ (by decide) (by decide), if_neg (by omega)]
    · rfl
  rw [Screen.settle, hscroll]
  split <;> rfl

theorem draw_behind {a : ℤ} (hx : 0 ≤ s.x ∧ s.x < width) (hy : 0 ≤ s.y ∧ s.y < height) (c : UInt8) (ha : textBytes ≤ a) :
    (draw c s).video a = s.video a := by
  rw [textBytes] at ha
  simp only [width, height] at hx hy
  apply Function.update_of_ne
  simp only [width]
  omega

theorem put_behind (hx : 0 ≤ s.x ∧ s.x < width) (hy : 0 ≤ s.y ∧ s.y < height) (hc : Stays c s) {a : ℤ}
    (ha : textBytes ≤ a) : (put c s).video a = s.video a := by
  rw [Screen.put, kputchar]
  split_ifs with hnl hcr hprint hbs hzero htab
  · exact settle_behind _ ha
  · exact settle_behind _ ha
  · exact (settle_behind _ ha).trans (draw_behind hx hy c ha)
  · have hline : s.y ≠ 0 := fun hz => hc hbs ⟨hzero, hz⟩
    have hrow : 0 ≤ s.y - 1 ∧ s.y - 1 < height := by omega
    refine (settle_behind _ ha).trans ?_
    have hlast : 0 ≤ width - 1 ∧ width - 1 < width := by decide
    exact draw_behind (s := { s with y := s.y - 1, x := width - 1 }) hlast hrow blank ha
  · have hleft : 0 ≤ s.x - 1 ∧ s.x - 1 < width := by omega
    refine (settle_behind _ ha).trans ?_
    exact draw_behind (s := { s with x := s.x - 1 }) hleft hy blank ha
  · rfl
  · rfl

end Agree

section Run

variable {d : Display} {s v : Screen} {k : Ktime}

structure Follows (d : Display) (s : Screen) : Prop where
  agree : Agree d.screen s
  inside : Inside s
  within : d.time.second < 86400
  clock : d.time.seconds ≠ 0 → Shows d.time.second d.screen.video

theorem Follows.tick (h : Follows d s) : ∃ d', ScreenEvent.step .tick d = some d' ∧ Follows d' s := by
  refine ⟨_, rfl, ?_⟩
  have htext : ∀ n ≤ 86400, ∀ m : ℤ → UInt8, (∀ a < textBytes, m a = s.video a) →
      ∀ a < textBytes, updateTime n m a = s.video a := by
    intro n hn m hm a ha
    rw [updateTime_text hn ha, hm a ha]
  have hx := h.agree.x
  have hy := h.agree.y
  have harr := h.agree.arr
  rcases Ktime.addTick_cases h.within with ⟨hup, hsec, hday⟩ | ⟨hup, hsec, hlt⟩ | ⟨hup, hsec⟩
  · refine ⟨⟨hx, hy, harr, ?_⟩, h.inside, ?_, ?_⟩
    · rw [hup]
      exact h.agree.video
    · exact hsec ▸ h.within
    · rw [hup]
      intro hne
      change Shows (d.time.addTick).second d.screen.video
      rw [hsec]
      refine h.clock ?_
      simpa only [Ktime.seconds, hsec, hday] using hne
  · refine ⟨⟨hx, hy, harr, ?_⟩, h.inside, hsec ▸ hlt, fun _ => ?_⟩
    · rw [hup]
      exact htext _ (by omega) _ h.agree.video
    · rw [hup]
      change Shows (d.time.addTick).second (updateTime (d.time.second + 1) d.screen.video)
      rw [hsec]
      exact updateTime_shows hlt _
  · refine ⟨⟨hx, hy, harr, ?_⟩, h.inside, by rw [hsec]; decide, fun _ => ?_⟩
    · rw [hup]
      exact htext 0 (by decide) _ (htext 86400 le_rfl _ h.agree.video)
    · rw [hup]
      change Shows (d.time.addTick).second (updateTime 0 (updateTime 86400 d.screen.video))
      rw [hsec]
      exact updateTime_shows (by decide) _

theorem Follows.char {c : UInt8} (h : Follows d s) (hv : print c s = some v) :
    ∃ d', ScreenEvent.step (.char c) d = some d' ∧ Follows d' v := by
  rw [print] at hv
  split at hv
  case isFalse => cases hv
  case isTrue hstay =>
    obtain ⟨htab, rfl⟩ := kputchar_some hv
    have hx : 0 ≤ d.screen.x ∧ d.screen.x < width := h.agree.x ▸ h.inside.column
    have hy : 0 ≤ d.screen.y ∧ d.screen.y < height := h.agree.y ▸ h.inside.line
    have hstay' : Stays c d.screen := by rwa [Stays, h.agree.x, h.agree.y]
    refine ⟨⟨d.time, put c d.screen⟩, ?_, h.agree.put c, h.inside.put hstay, h.within, fun hne i hi => ?_⟩
    · rw [ScreenEvent.step, kputchar_put htab, Option.map_some]
    · rw [put_behind hx hy hstay' (by rw [textBytes, clockLoc]; omega)]
      exact h.clock hne i hi

/-- Ticks of the clock between any characters: the console shows the text as it would without them, and once a second
has been counted the last row shows the time of day. -/
theorem clock_and_text {events : List ScreenEvent} {s₀ : Screen}
    (h : exec print (events.filterMap ScreenEvent.printed) s₀.clr = some v) :
    ∃ d, exec ScreenEvent.step events ⟨.boot, s₀.clr⟩ = some d ∧ Agree d.screen v ∧
      (d.time.seconds ≠ 0 → Shows d.time.second d.screen.video) := by
  have hstart : Follows ⟨.boot, s₀.clr⟩ s₀.clr :=
    ⟨⟨rfl, rfl, rfl, fun _ _ => rfl⟩, clr_inside s₀, show 0 < 86400 by decide, fun hne => absurd rfl hne⟩
  have hhidden : ∀ (e : ScreenEvent) (d : Display) (s : Screen), e.printed = none → Follows d s →
      ∃ d', e.step d = some d' ∧ Follows d' s := by
    rintro (_ | c) d s hvis hR
    · exact hR.tick
    · cases hvis
  have hvisible : ∀ (e : ScreenEvent) (c : UInt8) (d : Display) (s v : Screen), e.printed = some c → Follows d s →
      print c s = some v → ∃ d', e.step d = some d' ∧ Follows d' v := by
    rintro (_ | c) b d s v hvis hR hv
    · cases hvis
    · cases hvis
      exact hR.char hv
  obtain ⟨d, hd, hfollows⟩ := exec_of_simulation hhidden hvisible hstart h
  exact ⟨d, hd, hfollows.agree, hfollows.clock⟩

theorem clock_and_text_first_second :
    ∃ d, exec ScreenEvent.step (.char 0x61 :: List.replicate 18 .tick ++ [.char 10, .tick]) ⟨.boot, dark.clr⟩ = some d ∧
      Shows 1 d.screen.video := by
  set events : List ScreenEvent := .char 0x61 :: List.replicate 18 .tick ++ [.char 10, .tick]
  obtain ⟨v, hv⟩ : ∃ v, exec print (events.filterMap ScreenEvent.printed) dark.clr = some v := ⟨_, rfl⟩
  obtain ⟨d, hd, -, hshows⟩ := clock_and_text hv
  have htime : (exec ScreenEvent.step events ⟨.boot, dark.clr⟩).map (fun d => (d.time.second, d.time.day)) = some (1, 0) := by
    decide +kernel
  rw [hd, Option.map_some, Option.some.injEq, Prod.mk.injEq] at htime
  rw [Ktime.seconds, htime.1, htime.2] at hshows
  exact ⟨d, hd, hshows (by decide)⟩

end Run

end Screen

end Os506
