import PugOS.NumText

/-! # The console

The characters of `printer_vprintf` on the screen: `console_putc`, `console_vprintf`,
`console_clear`, and the two callers that print what comes from outside, the keyboard's `maybe_echo`
and `vnode_kbc::write`.

Against them stands a text that has no last row (`Text`): what is printed at the cursor goes on at
its end, and nothing in it ever moves.  The screen is a window of 25 rows on it (`Shows`).  Every
run of the operations keeps that (`console_shows_text`), so it writes no cell outside of `console`
and leaves `cursorpos` between 0 and 2000.
-/
namespace PugOS.Console
open Lib

/-- `CONSOLE_COLUMNS`, `CONSOLE_ROWS` and the number of cells of `console`. -/
def consoleColumns : Int := 80

/-- The size of the console. -/
def consoleRows : Int := 25
def consoleCells : Int := consoleRows * consoleColumns

/-- `c | color`, as a cell holds it. -/
def cell (c : UInt8) (color : Int) : UInt16 := c.toUInt16 ||| UInt16.ofInt color

/-- `console_printer`: the memory around `console`, a cell at each distance from it, and the
distance of the cursor. -/
structure ConsolePrinter where
  console : Int → UInt16
  cursor : Int
  scroll : Bool

namespace ConsolePrinter

/-- `*cp->cursor++ = v`. -/
def push (cp : ConsolePrinter) (v : UInt16) : ConsolePrinter :=
  { cp with console := Function.update cp.console cp.cursor v, cursor := cp.cursor + 1 }

/-- The loop of a newline, with the cells it has left. -/
def pad (color : Int) : Nat → ConsolePrinter → ConsolePrinter
  | 0, cp => cp
  | n + 1, cp => pad color n (cp.push (cell 32 color))

end ConsolePrinter

/-- The rows go up by one (`memmove`), and the last one is cleared (`memset`). -/
def scrollUp (console : Int → UInt16) (p : Int) : UInt16 :=
  if 0 ≤ p ∧ p < (consoleRows - 1) * consoleColumns then console (p + consoleColumns)
  else if (consoleRows - 1) * consoleColumns ≤ p ∧ p < consoleCells then 0
  else console p

/-- The loop that makes room for a character. -/
def makeRoom (cp : ConsolePrinter) : ConsolePrinter :=
  if cp.cursor < consoleCells then cp
  else if cp.scroll then makeRoom
    { cp with console := scrollUp cp.console, cursor := cp.cursor - consoleColumns }
  else makeRoom { cp with cursor := 0 }
termination_by cp.cursor.toNat
decreasing_by all_goals (simp only [consoleCells, consoleRows, consoleColumns] at *; omega)

/-- `console_putc`, with the scrolling before it. -/
def consolePutc (cp : ConsolePrinter) (c : UInt8) (color : Int) : ConsolePrinter :=
  let cp := makeRoom cp
  if c = 10 then cp.pad color (80 - cp.cursor.tmod 80).toNat
  else cp.push (cell c color)

/-- The memory around `console`, and `cursorpos`. -/
structure Screen where
  console : Int → UInt16
  cursorpos : Int

namespace Screen

/-- The printer a call starts with. -/
def printer (s : Screen) (cpos : Int) : ConsolePrinter where
  console := s.console
  cursor := if cpos < 0 then s.cursorpos else if cpos ≤ consoleCells then cpos else 0
  scroll := decide (cpos < 0)

/-- `console_vprintf`: the screen and the position it returns. -/
def consoleVprintf (s : Screen) (cpos color : Int) (fmt : List UInt8) (va : Args) :
    Option (Screen × Int) :=
  (vprintf consolePutc color fmt va (s.printer cpos)).map fun cp =>
    (⟨cp.console, if cpos < 0 then cp.cursor else s.cursorpos⟩, cp.cursor)

/-- `console_printf` at the cursor. -/
def consolePrintf (s : Screen) (color : Int) (fmt : List UInt8) (va : Args) : Option Screen :=
  (s.consoleVprintf (-1) color fmt va).map Prod.fst

/-- `console_clear`. -/
def consoleClear (s : Screen) : Screen where
  console p := if 0 ≤ p ∧ p < consoleCells then cell 32 0x0700 else s.console p
  cursorpos := 0

/-- `"%c"`. -/
def fmtC : List UInt8 := [37, 99]

/-- `console_printf(color, "%c", ch)`. -/
def printChar (s : Screen) (color ch : Int) : Option Screen :=
  s.consolePrintf color fmtC (oneArg (UInt64.ofInt ch))

/-- `keyboardstate::maybe_echo`, when the keyboard is being read. -/
def maybeEcho (s : Screen) (ch : Int) : Option Screen :=
  if ch = 8 then
    if 0 < s.cursorpos then
      (consolePrintf { s with cursorpos := s.cursorpos - 1 } 0x0700 [32] (oneArg 0)).map fun s =>
        { s with cursorpos := s.cursorpos - 1 }
    else some s
  else if ch ≠ 4 then s.printChar 0x0300 ch
  else some s

/-- `vnode_kbc::write`, with the bytes of the buffer. -/
def kbcWrite (s : Screen) : List UInt8 → Option Screen
  | [] => some s
  | c :: buf => (s.printChar 0x0F00 (schar c)).bind fun s => s.kbcWrite buf

end Screen

/-- What the kernel does to the screen. -/
inductive Op where
  | clear
  | print (cpos color : Int) (fmt : List UInt8) (va : Args)
  | echo (ch : Int)
  | write (buf : List UInt8)

/-- A call. -/
def Screen.step (s : Screen) : Op → Option Screen
  | .clear => some s.consoleClear
  | .print cpos color fmt va => (s.consoleVprintf cpos color fmt va).map Prod.fst
  | .echo ch => s.maybeEcho ch
  | .write buf => s.kbcWrite buf

/-- A sequence of calls. -/
def Screen.run (s : Screen) : List Op → Option Screen
  | [] => some s
  | op :: ops => (s.step op).bind fun s => s.run ops

/-! ## The text -/

/-- A text with no last row: its cells, where it is continued, and the first row of the window. -/
structure Text where
  cells : Nat → UInt16
  pos : Nat
  top : Nat

/-- The cells of `[a, b)` set. -/
def fill {ι : Type} [LinearOrder ι] (f : ι → UInt16) (a b : ι) (v : UInt16) (p : ι) : UInt16 :=
  if a ≤ p ∧ p < b then v else f p

/-- The cell that a character leaves, of a newline as often as it takes to the end of the row. -/
def charCell (c : UInt8) (color : Int) : UInt16 := cell (if c = 10 then 32 else c) color

/-- Where a character at `p` stops. -/
def stop (c : UInt8) (p : Nat) : Nat := if c = 10 then (p / 80 + 1) * 80 else p + 1

namespace Text

/-- The text goes on with a character, and the window goes down until it has the character's row. -/
def put (t : Text) (c : UInt8) (color : Int) : Text where
  cells := fill t.cells t.pos (stop c t.pos) (charCell c color)
  pos := stop c t.pos
  top := max t.top (t.pos / 80 - 24)

/-- A character is written over the window at a cell of it, from its end on at its start. -/
def putAt (r : Text × Nat) (c : UInt8) (color : Int) : Text × Nat :=
  let p := if r.2 < 2000 then r.2 else 0
  ({ r.1 with
      cells := fill r.1.cells (80 * r.1.top + p) (80 * r.1.top + stop c p) (charCell c color) },
    stop c p)

/-- An empty screen. -/
def blank : Text where
  cells := fill (fun _ => 0) 0 2000 (cell 32 0x0700)
  pos := 0
  top := 0

/-- The last character in the window goes. -/
def erase (t : Text) : Text :=
  if 80 * t.top <
    t.pos then { t with cells := fill t.cells (t.pos - 1) t.pos (cell 32 0x0700), pos := t.pos - 1 }
  else t

/-- A character that a `%c` prints, none for a NUL. -/
def putChar (t : Text) (color : Int) (c : UInt8) : Text := if c = 0 then t else t.put c color

/-- What a call makes of the text. -/
def step (t : Text) : Op → Text
  | .clear => blank
  | .print cpos color fmt va =>
    let l := (output color fmt va).getD []
    if cpos < 0 then putAll put l t
      else (putAll putAt l (t, if cpos ≤ 2000 then cpos.toNat else 0)).1
  | .echo ch => if ch = 8 then t.erase else if ch = 4 then t else t.putChar 0x0300 (UInt8.ofInt ch)
  | .write buf => buf.foldl (fun t c => t.putChar 0x0F00 c) t

/-- What a sequence of them makes of it. -/
def run (t : Text) (ops : List Op) : Text := ops.foldl step t

/-- The text that a screen shows to begin with. -/
def ofScreen (s : Screen) : Text where
  cells p := if p < 2000 then s.console p else 0
  pos := s.cursorpos.toNat
  top := 0

end Text

/-- The cells of the screen are those of the window, those below the window are clear, and the
memory around the screen is `mem`. -/
structure Window (mem : Int → UInt16) (cells : Nat → UInt16) (top : Nat) (console : Int → UInt16) :
    Prop where
  shown : ∀ p : Nat, p < 2000 → console p = cells (80 * top + p)
  below : ∀ p, 80 * top + 2000 ≤ p → cells p = 0
  outside : ∀ p : Int, p < 0 ∨ 2000 ≤ p → console p = mem p

/-- The screen shows the window of the text, with the cursor where the text is continued. -/
structure Shows (mem : Int → UInt16) (t : Text) (console : Int → UInt16) (cursor : Int) :
    Prop extends Window mem t.cells t.top console where
  first : 80 * t.top ≤ t.pos
  last : t.pos ≤ 80 * t.top + 2000
  cursor_eq : cursor = t.pos - 80 * t.top

/-! ## One character -/

namespace ConsolePrinter

theorem pad_eq (color : Int) (n : Nat) : ∀ cp : ConsolePrinter, cp.pad color n =
    { cp with
      console := fill cp.console cp.cursor (cp.cursor + n) (cell 32 color)
      cursor := cp.cursor + n } := by
  induction n with
  | zero =>
    intro cp
    have hsame : fill cp.console cp.cursor (cp.cursor + (0 : Nat)) (cell 32 color) = cp.console :=
      funext fun p => if_neg (by omega)
    rw [hsame, pad, Int.natCast_zero, Int.add_zero]
  | succ n ih =>
    intro cp
    have hcells : fill (cp.push (cell 32 color)).console (cp.cursor + 1) (cp.cursor + 1 + n)
        (cell 32 color) = fill cp.console cp.cursor (cp.cursor + (n + 1 : Nat))
        (cell 32 color) := by
      funext p
      by_cases hp : p = cp.cursor
      · rw [hp, fill, if_neg (by omega), fill, if_pos (by omega)]
        exact Function.update_self _ _ _
      · have hkeep : (cp.push (cell 32 color)).console p = cp.console p :=
          Function.update_of_ne hp _ _
        rw [fill, fill, hkeep]
        exact if_congr (by omega) rfl rfl
    have hcursor : cp.cursor + (n + 1 : Nat) = cp.cursor + 1 + n := by omega
    rw [pad, ih]
    refine (ConsolePrinter.mk.injEq ..).mpr ⟨hcells, hcursor.symm, rfl⟩

end ConsolePrinter

theorem consoleCells_eq : consoleCells = 2000 := rfl

theorem makeRoom_of_lt {cp : ConsolePrinter} (h : cp.cursor < 2000) : makeRoom cp = cp := by
  rw [makeRoom, consoleCells_eq, if_pos h]

theorem makeRoom_scroll {console : Int → UInt16} :
    makeRoom ⟨console, 2000, true⟩ = ⟨scrollUp console, 1920, true⟩ := by
  have hfull : ¬(2000 : Int) < consoleCells := by decide
  have hroom : (2000 : Int) - consoleColumns < 2000 := by decide
  rw [makeRoom, if_neg hfull, if_pos rfl]
  exact makeRoom_of_lt hroom

theorem makeRoom_wrap {console : Int → UInt16} :
    makeRoom ⟨console, 2000, false⟩ = ⟨console, 0, false⟩ := by
  have hfull : ¬(2000 : Int) < consoleCells := by decide
  have hroom : (0 : Int) < 2000 := by decide
  rw [makeRoom, if_neg hfull, if_neg Bool.false_ne_true]
  exact makeRoom_of_lt hroom

theorem stop_le {c : UInt8} {p : Nat} (h : p < 2000) : stop c p ≤ 2000 := by
  unfold stop
  split_ifs <;> omega

/-- Once there is room, a character is its cell or the rest of its row. -/
theorem consolePutc_eq {cp : ConsolePrinter} {p : Nat} (hroom : (makeRoom cp).cursor = p)
    (c : UInt8) (color : Int) : consolePutc cp c color =
      ⟨fill (makeRoom cp).console p (stop c p) (charCell c color), stop c p,
        (makeRoom cp).scroll⟩ := by
  unfold consolePutc charCell stop
  dsimp only
  by_cases hc : c = 10
  · have hend : (p : Int) + (80 - (p : Int).tmod 80).toNat = ((p / 80 + 1) * 80 : Nat) := by
      rw [Int.tmod_eq_emod_of_nonneg (Int.natCast_nonneg p)]
      omega
    rw [if_pos hc, if_pos hc, if_pos hc, ConsolePrinter.pad_eq, hroom, hend]
  · rw [if_neg hc, if_neg hc, if_neg hc]
    refine (ConsolePrinter.mk.injEq ..).mpr ⟨funext fun q => ?_, congrArg (· + 1) hroom, rfl⟩
    rw [hroom]
    by_cases hq : q = p
    · rw [hq, Function.update_self, fill, if_pos (by omega)]
    · rw [Function.update_of_ne hq, fill, if_neg (by omega)]

section Window
variable {mem : Int → UInt16} {cells : Nat → UInt16} {top : Nat} {console : Int → UInt16}

theorem Window.fill {a b : Nat} (h : Window mem cells top console) (hb : b ≤ 2000) (v : UInt16) :
    Window mem (fill cells (80 * top + a) (80 * top + b) v) top (fill console a b v) := by
  refine ⟨fun p hp => ?_, fun p hp => ?_, fun p hp => ?_⟩
  · dsimp only [Console.fill]
    rw [h.shown p hp]
    exact if_congr (by omega) rfl rfl
  · exact (if_neg (by omega)).trans (h.below p hp)
  · exact (if_neg (by omega)).trans (h.outside p hp)

/-- The window goes down by a row. -/
theorem Window.scroll (h : Window mem cells top console) :
    Window mem cells (top + 1) (scrollUp console) := by
  have hrows : (consoleRows - 1) * consoleColumns = 1920 := by decide
  have hcells : consoleCells = 2000 := by decide
  refine ⟨fun p hp => ?_, fun p hp => h.below p (by omega), fun p hp => ?_⟩
  · rw [scrollUp, hrows, hcells]
    by_cases hup : p < 1920
    · rw [if_pos (by omega), show (p : Int) + consoleColumns = (p + 80 : Nat) by rfl,
        h.shown _ (by omega)]
      exact congrArg cells (by omega)
    · rw [if_neg (by omega), if_pos (by omega)]
      exact (h.below _ (by omega)).symm
  · rw [scrollUp, hrows, hcells, if_neg (by omega), if_neg (by omega)]
    exact h.outside p hp

end Window

section Step
variable {mem : Int → UInt16} {t : Text} {console : Int → UInt16}

theorem stop_shift (c : UInt8) (n p : Nat) : stop c (80 * n + p) = 80 * n + stop c p := by
  unfold stop
  split_ifs <;> omega

/-- **A character at the cursor** goes to the end of the text. -/
theorem Shows.put {cursor : Int} (h : Shows mem t console cursor) (c : UInt8) (color : Int) :
    ∃ console' cursor', consolePutc ⟨console, cursor, true⟩ c color = ⟨console', cursor', true⟩ ∧
      Shows mem (t.put c color) console' cursor' := by
  -- the window that has the row of the cursor, and the place of the cursor in it
  have hroom : ∃ (top p : Nat) (console' : Int → UInt16), top = max t.top (t.pos / 80 - 24) ∧
      t.pos = 80 * top + p ∧ p < 2000 ∧ makeRoom ⟨console, cursor, true⟩ = ⟨console', p, true⟩ ∧
      Window mem t.cells top console' := by
    have hfirst := h.first
    have hlast := h.last
    have hcursor := h.cursor_eq
    by_cases hlt : t.pos < 80 * t.top + 2000
    · refine ⟨t.top, t.pos - 80 * t.top, console, by omega, by omega, by omega, ?_, h.toWindow⟩
      rw [makeRoom_of_lt (by dsimp only; omega)]
      exact (ConsolePrinter.mk.injEq ..).mpr ⟨rfl, by omega, rfl⟩
    · obtain rfl : cursor = 2000 := by omega
      exact ⟨t.top + 1, 1920, scrollUp console, by omega, by omega, by omega, makeRoom_scroll,
        h.toWindow.scroll⟩
  obtain ⟨top, p, console', htop, hpos, hp, hroom, hwindow⟩ := hroom
  have hstop := @stop_le c p hp
  have hless : p ≤ stop c p := by
    unfold stop
    split_ifs <;> omega
  have hput : t.put c color = ⟨fill t.cells (80 * top + p) (80 * top + stop c p) (charCell c color),
      80 * top + stop c p, top⟩ := by
    rw [Text.put, ← htop, hpos, stop_shift]
  rw [consolePutc_eq (p := p) (by rw [hroom]), hroom, hput]
  refine ⟨_, _, rfl, hwindow.fill hstop _, Nat.le_add_right _ _, ?_, ?_⟩
  · dsimp only
    omega
  · dsimp only
    omega

/-- **A character at a place of the screen** goes there, and the window stays where it is. -/
theorem Window.putAt {p : Nat} (h : Window mem t.cells t.top console) (hp : p ≤ 2000) (c : UInt8)
    (color : Int) : ∃ console', consolePutc ⟨console, p, false⟩ c color =
    ⟨console', (Text.putAt (t, p) c color).2, false⟩ ∧
      Window mem (Text.putAt (t, p) c color).1.cells t.top console' ∧
      (Text.putAt (t, p) c color).2 ≤ 2000 := by
  have hroom : ∃ q : Nat, (if p < 2000 then p else 0) = q ∧ q < 2000 ∧
      makeRoom ⟨console, p, false⟩ = ⟨console, q, false⟩ := by
    by_cases hlt : p < 2000
    · exact ⟨p, if_pos hlt, hlt, makeRoom_of_lt (by dsimp only; omega)⟩
    · obtain rfl : p = 2000 := by omega
      exact ⟨0, if_neg hlt, by omega, makeRoom_wrap⟩
  obtain ⟨q, hq, hlt, hroom⟩ := hroom
  have hstop := @stop_le c q hlt
  dsimp only [Text.putAt]
  rw [hq, consolePutc_eq (p := q) (by rw [hroom]), hroom]
  exact ⟨_, rfl, h.fill hstop _, hstop⟩

end Step

/-! ## One call -/

section Calls
variable {mem : Int → UInt16}

theorem Shows.putAll (l : List (UInt8 × Int)) :
    ∀ {t : Text} {console : Int → UInt16} {cursor : Int},
    Shows mem t console cursor → ∃ console' cursor', putAll consolePutc l ⟨console, cursor, true⟩ =
      ⟨console', cursor', true⟩ ∧ Shows mem (putAll Text.put l t) console' cursor' := by
  induction l with
  | nil => exact fun h => ⟨_, _, rfl, h⟩
  | cons ch l ih =>
    intro t console cursor h
    obtain ⟨console₁, cursor₁, hputc, hput⟩ := h.put ch.1 ch.2
    obtain ⟨console', cursor', hrun, hshows⟩ := ih hput
    refine ⟨console', cursor', ?_, hshows⟩
    rw [← hrun, ← hputc]
    rfl

theorem Window.putAll (l : List (UInt8 × Int)) : ∀ {t : Text} {console : Int → UInt16} {p : Nat},
    Window mem t.cells t.top console → p ≤ 2000 →
      Window mem (putAll Text.putAt l (t, p)).1.cells t.top
      (putAll consolePutc l ⟨console, p, false⟩).console ∧
      (putAll Text.putAt l (t, p)).1 =
      { t with cells := (putAll Text.putAt l (t, p)).1.cells } := by
  induction l with
  | nil => exact fun h _ => ⟨h, rfl⟩
  | cons ch l ih =>
    intro t console p h hp
    obtain ⟨console₁, hputc, hwindow, hstop⟩ := h.putAt hp ch.1 ch.2
    have hrest := @ih (Text.putAt (t, p) ch.1 ch.2).1 console₁ _ hwindow hstop
    rw [← hputc] at hrest
    exact hrest

/-- **A call at the cursor** continues the text with its characters. -/
theorem print_cursor {t : Text} {s : Screen} (h : Shows mem t s.console s.cursorpos) {cpos : Int}
    (hcpos : cpos < 0) {color : Int} {fmt : List UInt8} {va : Args} {l : List (UInt8 × Int)}
    (hout : output color fmt va = some l) : ∃ s' r, s.consoleVprintf cpos color fmt va =
    some (s', r) ∧ Shows mem (putAll Text.put l t) s'.console s'.cursorpos := by
  obtain ⟨l', hout', hrun⟩ := vprintf_output color fmt va
  obtain rfl : l = l' := Option.some.inj (hout.symm.trans hout')
  obtain ⟨console', cursor', hl, hshows⟩ := h.putAll l
  have hprinter : s.printer cpos = ⟨s.console, s.cursorpos, true⟩ := by
    rw [Screen.printer, if_pos hcpos, decide_eq_true hcpos]
  refine ⟨⟨console', cursor'⟩, cursor', ?_, hshows⟩
  rw [Screen.consoleVprintf, hrun, hprinter, hl, Option.map_some, if_pos hcpos]

/-- **A call at a position** writes its characters over the window. -/
theorem print_position {t : Text} {s : Screen} (h : Shows mem t s.console s.cursorpos) {cpos : Int}
    (hcpos : ¬cpos < 0) {color : Int} {fmt : List UInt8} {va : Args} {l : List (UInt8 × Int)}
    (hout : output color fmt va = some l) :
    ∃ s' r, s.consoleVprintf cpos color fmt va = some (s', r) ∧
      Shows mem (putAll Text.putAt l (t, if cpos ≤ 2000 then cpos.toNat else 0)).1 s'.console
      s'.cursorpos := by
  obtain ⟨l', hout', hrun⟩ := vprintf_output color fmt va
  obtain rfl : l = l' := Option.some.inj (hout.symm.trans hout')
  generalize hp : (if cpos ≤ 2000 then cpos.toNat else 0) = p
  have hprinter : s.printer cpos = ⟨s.console, p, false⟩ := by
    rw [Screen.printer, if_neg hcpos, decide_eq_false hcpos, ← hp, consoleCells_eq]
    refine (ConsolePrinter.mk.injEq ..).mpr ⟨rfl, ?_, rfl⟩
    split_ifs <;> omega
  have hle : p ≤ 2000 := by
    rw [← hp]
    split_ifs <;> omega
  obtain ⟨hwindow, htext⟩ := h.toWindow.putAll l hle
  refine ⟨⟨_, s.cursorpos⟩, _,
    by rw [Screen.consoleVprintf, hrun, hprinter, Option.map_some, if_neg hcpos], ?_⟩
  · rw [htext]
    exact ⟨hwindow, h.first, h.last, h.cursor_eq⟩

/-- The byte that `%c` prints for an `int`. -/
theorem uint_char (ch : Int) : UInt8.ofNat ((oneArg (UInt64.ofInt ch)).uint 0) =
    UInt8.ofInt ch := by
  have hword : (UInt64.ofInt ch).toNat = (ch % 2 ^ 64).toNat := by
    rw [UInt64.ofInt, UInt64.toNat_ofNat']
    omega
  apply UInt8.toNat.inj
  rw [UInt8.ofInt, UInt8.toNat_ofNat', UInt8.toNat_ofNat', Args.uint, Args.ulong, oneArg, hword]
  omega

/-- What `%c` prints: nothing for a NUL. -/
theorem output_char (color ch : Int) : output color Screen.fmtC (oneArg (UInt64.ofInt ch)) =
    some (if UInt8.ofInt ch = 0 then [] else [(UInt8.ofInt ch, color)]) := by
  have hdirective : directive Screen.fmtC (oneArg (UInt64.ofInt ch)) 0 0 =
      some ⟨1, 1, .print (-1) (-1) ⟨{}, 10, 0, cstring [UInt8.ofInt ch, 0]⟩⟩ := by
    rw [← uint_char]
    rfl
  have hdata : cstring [UInt8.ofInt ch, 0] = if UInt8.ofInt ch = 0 then []
      else [UInt8.ofInt ch] := by
    by_cases hnul : UInt8.ofInt ch = 0
    · rw [if_pos hnul, hnul]
      rfl
    · rw [if_neg hnul, cstring, List.takeWhile_cons, if_pos (decide_eq_true hnul)]
      rfl
  have hlen : (cstring [UInt8.ofInt ch, 0]).length < NUMBUFSIZ :=
    lt_of_le_of_lt (List.takeWhile_sublist _).length_le (by decide : 2 < NUMBUFSIZ)
  have hstart : readFormat Screen.fmtC 0 = some 37 := by rfl
  have hend : readFormat Screen.fmtC (1 + 1) = some 0 := by rfl
  rw [output, vprintf, vprintfLoop, hstart, Option.bind_some, if_neg (by decide),
    if_neg (by decide), hdirective, Option.bind_some]
  dsimp only
  rw [show Screen.fmtC.length = 1 + 1 from rfl, vprintfLoop, hend, Option.bind_some, if_pos rfl,
    printItem_eq, puts_eq, putAll_collect, chars_plain rfl hlen, hdata]
  split_ifs <;> rfl

/-- **A character from outside** continues the text. -/
theorem printChar_shows {t : Text} {s : Screen} (h : Shows mem t s.console s.cursorpos)
    (color ch : Int) : ∃ s', s.printChar color ch = some s' ∧
    Shows mem (t.putChar color (UInt8.ofInt ch)) s'.console s'.cursorpos := by
  obtain ⟨s', r, hrun, hshows⟩ := print_cursor h (by decide : (-1 : Int) < 0) (output_char color ch)
  refine ⟨s', by rw [Screen.printChar, Screen.consolePrintf, hrun]; rfl, ?_⟩
  unfold Text.putChar
  by_cases hnul : UInt8.ofInt ch = 0
  · rw [if_pos hnul] at hshows ⊢
    exact hshows
  · rw [if_neg hnul] at hshows ⊢
    exact hshows

theorem ofInt_schar (c : UInt8) : UInt8.ofInt (schar c) = c := by
  have hlt := c.toNat_lt
  apply UInt8.toNat.inj
  rw [UInt8.ofInt, UInt8.toNat_ofNat', schar]
  split_ifs <;> omega

theorem kbcWrite_shows (buf : List UInt8) :
    ∀ {t : Text} {s : Screen}, Shows mem t s.console s.cursorpos → ∃ s', s.kbcWrite buf = some s' ∧
      Shows mem (buf.foldl (fun t c => t.putChar 0x0F00 c) t) s'.console s'.cursorpos := by
  induction buf with
  | nil => exact fun h => ⟨_, rfl, h⟩
  | cons c buf ih =>
    intro t s h
    obtain ⟨s₁, hchar, hfirst⟩ := printChar_shows h 0x0F00 (schar c)
    obtain ⟨s', hrun, hshows⟩ := ih hfirst
    refine ⟨s', by rw [Screen.kbcWrite, hchar, Option.bind_some, hrun], ?_⟩
    rw [ofInt_schar] at hshows
    exact hshows

theorem consoleClear_shows {t : Text} {s : Screen} (h : Shows mem t s.console s.cursorpos) :
    Shows mem Text.blank s.consoleClear.console s.consoleClear.cursorpos := by
  refine ⟨⟨fun p hp => ?_, fun p hp => if_neg (by omega), fun p hp => ?_⟩, Nat.zero_le _,
    Nat.zero_le _, rfl⟩
  · rw [Screen.consoleClear, consoleCells_eq]
    dsimp only [Text.blank]
    rw [if_pos (by omega), fill, if_pos (by omega)]
  · rw [Screen.consoleClear, consoleCells_eq]
    dsimp only
    rw [if_neg (by omega)]
    exact h.outside p hp

/-- A backspace prints a blank over the last character, and goes back again. -/
theorem erase_shows {t : Text} {s : Screen} (h : Shows mem t s.console s.cursorpos) :
    ∃ s', s.maybeEcho 8 = some s' ∧ Shows mem t.erase s'.console s'.cursorpos := by
  have hfirst := h.first
  have hlast := h.last
  have hcursor := h.cursor_eq
  unfold Screen.maybeEcho Text.erase
  rw [if_pos rfl]
  by_cases hpos : 0 < s.cursorpos
  · rw [if_pos hpos, if_pos (by omega)]
    have hback : Shows mem { t with pos := t.pos - 1 } s.console (s.cursorpos - 1) :=
      ⟨h.toWindow, by dsimp only; omega, by dsimp only; omega, by dsimp only; omega⟩
    have hblank : output 0x0700 [32] (oneArg 0) = some [(32, 0x0700)] := by rfl
    obtain ⟨s', r, hrun, hshows⟩ :=
      print_cursor (s := { s with cursorpos := s.cursorpos - 1 }) hback
        (by decide : (-1 : Int) < 0) hblank
    have hput : Text.put { t with pos := t.pos - 1 } 32 0x0700 =
        ⟨fill t.cells (t.pos - 1) t.pos (cell 32 0x0700), t.pos, t.top⟩ := by
      have hstop : stop 32 (t.pos - 1) = t.pos := (if_neg (by decide)).trans (by omega)
      have htop : max t.top ((t.pos - 1) / 80 - 24) = t.top := by omega
      rw [Text.put]
      dsimp only
      rw [hstop, htop]
      rfl
    have htext : Lib.putAll Text.put [(32, 0x0700)] { t with pos := t.pos - 1 } =
        ⟨fill t.cells (t.pos - 1) t.pos (cell 32 0x0700), t.pos, t.top⟩ := hput
    rw [htext] at hshows
    have hpos' := hshows.cursor_eq
    dsimp only at hpos'
    refine ⟨{ s' with cursorpos := s'.cursorpos - 1 }, by rw [Screen.consolePrintf, hrun]; rfl,
      ⟨hshows.toWindow, by dsimp only; omega, by dsimp only; omega, by dsimp only; omega⟩⟩
  · rw [if_neg hpos, if_neg (by omega)]
    exact ⟨s, rfl, h⟩

end Calls

/-! ## Every run -/

theorem step_shows {mem : Int → UInt16} {t : Text} {s : Screen}
    (h : Shows mem t s.console s.cursorpos) (op : Op) :
    ∃ s', s.step op = some s' ∧ Shows mem (t.step op) s'.console s'.cursorpos := by
  cases op with
  | clear => exact ⟨_, rfl, consoleClear_shows h⟩
  | print cpos color fmt va =>
    obtain ⟨l, hout, -⟩ := vprintf_output color fmt va
    dsimp only [Text.step]
    rw [hout, Option.getD_some]
    by_cases hcpos : cpos < 0
    · obtain ⟨s', r, hrun, hshows⟩ := print_cursor h hcpos hout
      rw [if_pos hcpos]
      exact ⟨s', by rw [Screen.step, hrun]; rfl, hshows⟩
    · obtain ⟨s', r, hrun, hshows⟩ := print_position h hcpos hout
      rw [if_neg hcpos]
      exact ⟨s', by rw [Screen.step, hrun]; rfl, hshows⟩
  | echo ch =>
    by_cases hback : ch = 8
    · subst hback
      exact erase_shows h
    dsimp only [Screen.step, Text.step, Screen.maybeEcho]
    rw [if_neg hback, if_neg hback]
    by_cases hend : ch = 4
    · rw [if_neg (not_not.mpr hend), if_pos hend]
      exact ⟨s, rfl, h⟩
    · rw [if_pos hend, if_neg hend]
      exact printChar_shows h 0x0300 ch
  | write buf => exact kbcWrite_shows buf h

theorem run_shows {mem : Int → UInt16} (ops : List Op) :
    ∀ {t : Text} {s : Screen}, Shows mem t s.console s.cursorpos →
    ∃ s', s.run ops = some s' ∧ Shows mem (t.run ops) s'.console s'.cursorpos := by
  induction ops with
  | nil => exact fun h => ⟨_, rfl, h⟩
  | cons op ops ih =>
    intro t s h
    obtain ⟨s₁, hstep, hfirst⟩ := step_shows h op
    obtain ⟨s', hrun, hshows⟩ := ih hfirst
    exact ⟨s', by rw [Screen.run, hstep, Option.bind_some, hrun], hshows⟩

theorem ofScreen_shows {s : Screen} (hfirst : 0 ≤ s.cursorpos) (hlast : s.cursorpos ≤ 2000) :
    Shows s.console (Text.ofScreen s) s.console s.cursorpos := by
  refine ⟨⟨fun p hp => ?_,
    fun p hp => if_neg (by exact Nat.not_lt.mpr (by simpa [Text.ofScreen] using hp)),
    fun p _ => rfl⟩, ?_, ?_, ?_⟩
  · dsimp only [Text.ofScreen]
    rw [if_pos (by omega), Nat.mul_zero, Nat.zero_add]
  all_goals
    dsimp only [Text.ofScreen]
    omega

/-- **The screen is a window on a text**: after any calls, whatever the formats, arguments,
positions and characters, the cells are 25 rows of the text that the calls make, the cursor is where
it is continued, and no cell outside of `console` has been written. -/
theorem console_shows_text (s : Screen) (hfirst : 0 ≤ s.cursorpos) (hlast : s.cursorpos ≤ 2000)
    (ops : List Op) : ∃ s' : Screen, s.run ops = some s' ∧
    (0 ≤ s'.cursorpos ∧ s'.cursorpos ≤ 2000) ∧
      (∀ p : Int, p < 0 ∨ 2000 ≤ p → s'.console p = s.console p) ∧
      (∀ p : Nat, p < 2000 → s'.console p =
        ((Text.ofScreen s).run ops).cells (80 * ((Text.ofScreen s).run ops).top + p)) ∧
      s'.cursorpos = ((Text.ofScreen s).run ops).pos - 80 * ((Text.ofScreen s).run ops).top := by
  obtain ⟨s', hrun, hshows⟩ := run_shows ops (ofScreen_shows hfirst hlast)
  have hpos := hshows.cursor_eq
  have hafter := hshows.first
  have hbefore := hshows.last
  exact ⟨s', hrun, ⟨by omega, by omega⟩, hshows.outside, hshows.shown, hpos⟩

/-- In the last cell an `A`; a `B` makes the rows go up, and is erased. -/
theorem console_shows_text_scrolled : ∃ s' : Screen,
    Screen.run ⟨fun _ => 0, 1999⟩ [.write [65, 66], .echo 8] = some s' ∧ s'.cursorpos = 1920 ∧
      s'.console 1919 = cell 65 0x0F00 ∧ s'.console 1920 = cell 32 0x0700 ∧
      ∀ p : Int, p < 0 ∨ 2000 ≤ p → s'.console p = 0 := by
  obtain ⟨s', hrun, -, houtside, hshown, hpos⟩ :=
    console_shows_text ⟨fun _ => 0, 1999⟩ (by decide) (by decide) [.write [65, 66], .echo 8]
  refine ⟨s', hrun, hpos, ?_, ?_, houtside⟩
  · exact (hshown 1919 (by decide)).trans (by decide)
  · exact (hshown 1920 (by decide)).trans (by decide)

end PugOS.Console
