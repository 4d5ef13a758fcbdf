import PugOS.Bytes
import PugOS.Strtol

/-! # Formatted printing

`printer_vprintf` and `vsnprintf` of the kernel's library.  The format is read at an index, and a
read past its NUL stops the model (`readFormat`).  A directive is read without knowing where its
characters go (`directive`); what it prints goes to the printer's `putc`, one character after
another.

So a call prints one list of characters, whatever the printer is (`vprintf_output`): every
directive, finished or not, ends at or before the NUL, and the pointer is past its `%`.  `vsnprintf`
keeps as much of that list as there is room for (`vsnprintf_truncates`).

A count that overflows an `int` is taken modulo 2^32.
-/
namespace PugOS.Lib
open Bytes Ring

/-- A number as an `int`. -/
def int32 (x : Int) : Int := (x + 2 ^ 31) % 2 ^ 32 - 2 ^ 31

/-- A number as an `unsigned long`. -/
def toUlong (x : Int) : Nat := (x % 2 ^ 64).toNat

/-- The arguments, a word each, and the string at each address. -/
structure Args where
  word : Nat → UInt64
  str : Nat → List UInt8

namespace Args
variable (va : Args) (k : Nat)

/-- The next argument, as an `unsigned long`. -/
def ulong : Nat := (va.word k).toNat

/-- As a `long`. -/
def long : Int := toLong (va.ulong k)

/-- As an `unsigned`. -/
def uint : Nat := va.ulong k % 2 ^ 32

/-- As an `int`. -/
def int : Int := int32 (va.ulong k)

end Args

/-! ## Numbers -/

/-- The size of the buffer that numbers are written to. -/
def NUMBUFSIZ : Nat := 24

/-- `"0123456789ABCDEF"`. -/
def upperDigits : List UInt8 := [48, 49, 50, 51, 52, 53, 54, 55, 56, 57, 65, 66, 67, 68, 69, 70]

/-- `"0123456789abcdef"`. -/
def lowerDigits : List UInt8 := [48, 49, 50, 51, 52, 53, 54, 55, 56, 57, 97, 98, 99, 100, 101, 102]

/-- The loop of `fill_numbuf`, with `room` bytes of the buffer before `numbuf_end` and the bytes
from there on. -/
def fillLoop (digits : List UInt8) (base : Nat) : Nat → Nat → List UInt8 → Option (List UInt8)
  | 0, _, _ => none
  | room + 1, val, filled =>
    (digits[val % base]?).bind fun digit =>
      if val / base ≠ 0 then fillLoop digits base room (val / base) (digit :: filled)
      else some (digit :: filled)

/-- `fill_numbuf` for a buffer of `size` bytes: what is in the buffer from the result on.  None for
a write before the buffer. -/
def fillNumbuf (size val : Nat) (base : Int) : Option (List UInt8) :=
  let digits := if base < 0 then lowerDigits else upperDigits
  match size with
  | 0 => none
  | room + 1 => fillLoop digits base.natAbs room val [0]

/-- The string at the start of some bytes. -/
def cstring (l : List UInt8) : List UInt8 := l.takeWhile (· ≠ 0)

/-! ## Directives -/

/-- The flags of a directive, and what the conversion adds to them. -/
structure Flags where
  alt : Bool := false
  zero : Bool := false
  leftJustify : Bool := false
  spacePositive : Bool := false
  plusPositive : Bool := false
  numeric : Bool := false
  signed : Bool := false
  negative : Bool := false
  alt2 : Bool := false

/-- The flag with this character, set. -/
def setFlag (flags : Flags) (c : UInt8) : Option Flags :=
  if c = 35 then some { flags with alt := true }
  else if c = 48 then some { flags with zero := true }
  else if c = 45 then some { flags with leftJustify := true }
  else if c = 32 then some { flags with spacePositive := true }
  else if c = 43 then some { flags with plusPositive := true }
  else none

/-- A conversion once its argument has been fetched: `data` is what to print, without the prefix. -/
structure Item where
  flags : Flags
  base : Int
  num : Nat
  data : List UInt8

/-- What a directive does. -/
inductive Action where
  | color (c : Int)
  | print (width precision : Int) (item : Item)

/-- A directive: where `format` is after it, and how many arguments have been fetched. -/
structure Directive where
  pos : Nat
  arg : Nat
  action : Action

section Format
variable (fmt : List UInt8) (va : Args)

/-- `format[i]`, with the NUL after the last character. -/
def readFormat (i : Nat) : Option UInt8 := (fmt ++ [0])[i]?

/-- The loop over the flags. -/
def flagLoop : Nat → Nat → Flags → Option (Nat × Flags)
  | 0, _, _ => none
  | fuel + 1, i, flags =>
    (readFormat fmt i).bind fun c =>
      if c = 0 then some (i, flags)
      else
        match setFlag flags c with
        | some flags => flagLoop fuel (i + 1) flags
        | none => some (i, flags)

/-- The loop over the digits of a width or a precision. -/
def numberLoop : Nat → Nat → Int → Option (Nat × Int)
  | 0, _, _ => none
  | fuel + 1, i, n =>
    (readFormat fmt i).bind fun c =>
      if 48 ≤ schar c ∧ schar c ≤ 57 then numberLoop fuel (i + 1) (int32 (10 * n + schar c - 48))
      else some (i, n)

/-- A width or a precision: `format`, the arguments fetched and the number.  `first` is the least
character it may start with. -/
def readCount (first : Int) (i k : Nat) : Option (Nat × Nat × Int) :=
  (readFormat fmt i).bind fun c =>
    if first ≤ schar c ∧ schar c ≤ 57 then (numberLoop fmt (fmt.length + 1) i 0).map
      fun r => (r.1, k, r.2)
    else if c = 42 then some (i + 1, k + 1, va.int k)
    else some (i, k, -1)

/-- The width of a directive, -1 if there is none. -/
def readWidth (i k : Nat) : Option (Nat × Nat × Int) := readCount fmt va 49 i k

/-- The precision, -1 if there is none. -/
def readPrecision (i k : Nat) : Option (Nat × Nat × Int) :=
  (readFormat fmt i).bind fun c =>
    if c = 46 then
      (readCount fmt va 48 (i + 1) k).map fun r => (r.1, r.2.1, if r.2.2 < 0 then 0 else r.2.2)
    else some (i, k, -1)

/-- The jumps back to `again`: where `format` is after them, and `length`. -/
def lengthLoop : Nat → Nat → Bool → Option (Nat × Bool)
  | 0, _, _ => none
  | fuel + 1, i, length =>
    (readFormat fmt i).bind fun c =>
      if c = 108 ∨ c = 122 then lengthLoop fuel (i + 1) true
      else some (i, length)

/-- `data = fill_numbuf(numbuf + NUMBUFSIZ, num, base)`. -/
def number (flags : Flags) (base : Int) (num : Nat) : Option Item :=
  (fillNumbuf NUMBUFSIZ num base).map fun numbuf =>
    ⟨{ flags with numeric := true }, base, num, cstring numbuf⟩

/-- The argument of an unsigned conversion. -/
def unsignedArg (length : Bool) (k : Nat) : Nat := if length then va.ulong k else va.uint k

/-- The conversions `d` and `i`. -/
def signedItem (flags : Flags) (length : Bool) (k : Nat) : Option Item :=
  let x := if length then va.long k else va.int k
  let negative := decide (x < 0)
  number { flags with signed := true, negative := negative } 10
    (toUlong (if negative then -x else x))

/-- The switch on the conversion character. -/
def conversion (width precision : Int) (flags : Flags) (length : Bool) (i k : Nat) :
    Option Directive :=
  (readFormat fmt i).bind fun c =>
    if c = 100 ∨ c = 105 then
      (signedItem va flags length k).map fun item => ⟨i, k + 1, .print width precision item⟩
    else if c = 117 then
      (number flags 10 (unsignedArg va length k)).map fun item =>
        ⟨i, k + 1, .print width precision item⟩
    else if c = 120 then
      (number flags (-16) (unsignedArg va length k)).map fun item =>
        ⟨i, k + 1, .print width precision item⟩
    else if c = 88 then
      (number flags 16 (unsignedArg va length k)).map fun item =>
        ⟨i, k + 1, .print width precision item⟩
    else if c = 112 then
      (number { flags with alt := true, alt2 := true } (-16) (va.ulong k)).map fun item =>
        ⟨i, k + 1, .print width precision item⟩
    else if c = 115 then some ⟨i, k + 1,
      .print width precision ⟨flags, 10, 0, cstring (va.str (va.ulong k))⟩⟩
    else if c = 67 then some ⟨i, k + 1, .color (va.int k)⟩
    else if c = 99 then
      some ⟨i, k + 1, .print width precision ⟨flags, 10, 0, cstring [UInt8.ofNat (va.uint k), 0]⟩⟩
    -- a premature end: the `%` is printed and `format` steps back
    else if c = 0 then some ⟨i - 1, k, .print width precision ⟨flags, 10, 0, cstring [37, 0]⟩⟩
    else some ⟨i, k, .print width precision ⟨flags, 10, 0, cstring [c, 0]⟩⟩

/-- The directive whose `%` is at `i`. -/
def directive (i k : Nat) : Option Directive :=
  (flagLoop fmt (fmt.length + 1) (i + 1) {}).bind fun r₁ =>
    (readWidth fmt va r₁.1 k).bind fun r₂ =>
      (readPrecision fmt va r₂.1 r₂.2.1).bind fun r₃ =>
        (lengthLoop fmt (fmt.length + 1) r₃.1 false).bind fun r₄ =>
          conversion fmt va r₂.2.2 r₃.2.2 r₁.2 r₄.2 r₄.1 r₃.2.1

end Format

/-! ## Printing -/

namespace Item
variable (item : Item) (width precision : Int)

/-- The sign, or the prefix of a hexadecimal number. -/
def prefixChars : List UInt8 :=
  if item.flags.numeric ∧ item.flags.signed then
    if item.flags.negative then [45]
    else if item.flags.plusPositive then [43]
    else if item.flags.spacePositive then [32]
    else []
  else if item.flags.numeric ∧ item.flags.alt ∧ (item.base = 16 ∨ item.base = -16) ∧
    (item.num ≠ 0 ∨ item.flags.alt2) then
    if item.base = -16 then [48, 120] else [48, 88]
  else []

/-- How much of the data is printed. -/
def datalen : Int :=
  if 0 ≤ precision ∧ ¬item.flags.numeric then int32 (min precision.toNat item.data.length)
  else int32 item.data.length

/-- How many zeros go before it. -/
def zeros : Int :=
  if item.flags.numeric ∧ 0 ≤ precision then
    if item.datalen precision < precision then precision - item.datalen precision else 0
  else if item.flags.numeric ∧ item.flags.zero ∧ ¬item.flags.leftJustify ∧
      item.datalen precision + item.prefixChars.length < width then
    width - item.datalen precision - item.prefixChars.length
  else 0

/-- `width` once the number of characters is off. -/
def padding : Int :=
  int32 (width - (item.datalen precision + item.zeros width precision + item.prefixChars.length))

end Item

section Printer
variable {σ : Type} (putc : σ → UInt8 → Int → σ)

/-- `p->putc(p, c, color)` for one character after another. -/
def puts (color : Int) (cs : List UInt8) (p : σ) : σ := cs.foldl (fun p c => putc p c color) p

/-- The five loops that print a conversion. -/
def printItem (color width precision : Int) (item : Item) (p : σ) : σ :=
  let pad := item.padding width precision
  let before := if item.flags.leftJustify then 0 else pad.toNat
  let p := puts putc color (List.replicate before 32) p
  let p := puts putc color item.prefixChars p
  let p := puts putc color (List.replicate (item.zeros width precision).toNat 48) p
  let p := puts putc color (item.data.take (item.datalen precision).toNat) p
  puts putc color (List.replicate (pad - before).toNat 32) p

/-- The loop over the format. -/
def vprintfLoop (fmt : List UInt8) (va : Args) : Nat → Nat → Nat → Int → σ → Option σ
  | 0, _, _, _, _ => none
  | fuel + 1, i, k, color, p =>
    (readFormat fmt i).bind fun c =>
      if c = 0 then some p
      else if c ≠ 37 then vprintfLoop fmt va fuel (i + 1) k color (putc p c color)
      else
        (directive fmt va i k).bind fun d =>
          match d.action with
          | .color color => vprintfLoop fmt va fuel (d.pos + 1) d.arg color p
          | .print width precision item =>
            vprintfLoop fmt va fuel (d.pos + 1) d.arg color
              (printItem putc color width precision item p)

/-- `printer_vprintf`. -/
def vprintf (color : Int) (fmt : List UInt8) (va : Args) (p : σ) : Option σ :=
  vprintfLoop putc fmt va (fmt.length + 1) 0 0 color p

end Printer

/-- The characters of `printer_vprintf`, with their colors. -/
def output (color : Int) (fmt : List UInt8) (va : Args) : Option (List (UInt8 × Int)) :=
  vprintf (fun l c color => l ++ [(c, color)]) color fmt va []

/-- `string_printer`. -/
structure StringPrinter where
  mem : Mem
  s : Nat
  limit : Nat
  n : Nat

/-- `string_putc`: a character behind the end is counted only. -/
def stringPutc (sp : StringPrinter) (c : UInt8) (_color : Int) : StringPrinter :=
  if sp.s <
    sp.limit then { sp with mem := Function.update sp.mem sp.s c, s := sp.s + 1, n := sp.n + 1 }
  else { sp with n := sp.n + 1 }

/-- `vsnprintf`, for a buffer that ends at the last address or before it: `s + size` is at most 2^64
and does not wrap. -/
def vsnprintf (mem : Mem) (s size : Nat) (fmt : List UInt8) (va : Args) : Option (Mem × Nat) :=
  (vprintf stringPutc 0 fmt va ⟨mem, s, s + size, 0⟩).map fun sp =>
    if size ≠ 0 ∧ sp.s < sp.limit then (Function.update sp.mem sp.s 0, sp.n)
    else if size ≠ 0 then (Function.update sp.mem (sp.limit - 1) 0, sp.n)
    else (sp.mem, sp.n)

/-! ## What `fill_numbuf` writes -/

/-- The characters of `digits` are the digits of the base. -/
def DigitsOf (digits : List UInt8) (base : Nat) : Prop :=
  ∀ d, d < base → ∃ c, digits[d]? = some c ∧ digitOf base c = some d

theorem upperDigits_ten : DigitsOf upperDigits 10 := by
  unfold DigitsOf
  decide

theorem upperDigits_sixteen : DigitsOf upperDigits 16 := by
  unfold DigitsOf
  decide

theorem lowerDigits_sixteen : DigitsOf lowerDigits 16 := by
  unfold DigitsOf
  decide

theorem valueFrom_append (base x d : Nat) (ds : List Nat) :
    valueFrom base x (ds ++ [d]) = valueFrom base x ds * base + d := by
  rw [valueFrom, List.foldl_append]
  rfl

/-- The characters of `val` in a base, which start with a 0 only for 0 itself. -/
structure Writes (base val : Nat) (cs : List UInt8) : Prop where
  digits : ∃ ds, Digits base cs ds ∧ valueFrom base 0 ds = val
  nonempty : cs ≠ []
  leading : ∀ s, cs = chZero :: s → s = [] ∧ val = 0

section Fill
variable {digits : List UInt8} {base : Nat}

/-- One digit after the others. -/
theorem Writes.snoc {val d : Nat} {cs : List UInt8} {c : UInt8} (h : Writes base val cs)
    (hval : 0 < val) (hd : digitOf base c = some d) : Writes base (val * base + d) (cs ++ [c]) := by
  obtain ⟨ds, hcs, hds⟩ := h.digits
  refine ⟨⟨ds ++ [d], List.rel_append hcs (.cons hd .nil), ?_⟩, by simp, fun s hs => ?_⟩
  · rw [valueFrom_append, hds]
  · cases cs with
    | nil => exact absurd rfl h.nonempty
    | cons c' cs =>
      have hzero := (h.leading cs (by rw [(List.cons.inj hs).1])).2
      omega

theorem digitOf_zero (hbase : 0 < base) : digitOf base chZero = some 0 := by
  have hzero : schar chZero = 48 := by decide
  unfold digitOf
  rw [hzero, if_pos ⟨le_refl _, by omega⟩]
  rfl

/-- `val` has at most `room` digits, and they are what the loop writes. -/
theorem fillLoop_spec (hbase : 0 < base) (hdigits : DigitsOf digits base) :
    ∀ (room val : Nat) (filled : List UInt8), 0 < room → val < base ^ room →
      ∃ cs, fillLoop digits base room val filled = some (cs ++ filled) ∧ Writes base val cs ∧
      cs.length ≤ room := by
  intro room
  induction room with
  | zero => exact fun _ _ h => absurd h (lt_irrefl 0)
  | succ room ih =>
    intro val filled _ hval
    obtain ⟨c, hc, hd⟩ := hdigits (val % base) (Nat.mod_lt val hbase)
    rw [fillLoop, hc, Option.bind_some]
    by_cases hmore : val / base ≠ 0
    · rw [if_pos hmore]
      have hquot : val / base < base ^ room := by
        rw [Nat.div_lt_iff_lt_mul hbase, ← Nat.pow_succ]
        exact hval
      have hroom : 0 < room := by
        by_contra hzero
        rw [show room = 0 by omega, pow_zero] at hquot
        exact hmore (Nat.lt_one_iff.mp hquot)
      obtain ⟨cs, hrun, hwrites, hlen⟩ := ih (val / base) (c :: filled) hroom hquot
      refine ⟨cs ++ [c], by rw [hrun, List.append_assoc]; rfl, ?_,
        by rw [List.length_append]; exact Nat.succ_le_succ hlen⟩
      have hsnoc := hwrites.snoc (Nat.pos_of_ne_zero hmore) hd
      rwa [Nat.div_add_mod'] at hsnoc
    · rw [if_neg hmore]
      rw [not_not] at hmore
      have hmod : val % base = val := by
        have := Nat.div_add_mod' val base
        rw [hmore, Nat.zero_mul, Nat.zero_add] at this
        exact this
      rw [hmod] at hd
      refine ⟨[c], rfl, ⟨⟨[val], .cons hd .nil, ?_⟩, List.cons_ne_nil _ _, fun s hs => ?_⟩,
        Nat.succ_le_succ (Nat.zero_le _)⟩
      · rw [valueFrom, List.foldl_cons, List.foldl_nil, Nat.zero_mul, Nat.zero_add]
      · obtain ⟨rfl, rfl⟩ := List.cons.inj hs
        refine ⟨rfl, ?_⟩
        rw [digitOf_zero hbase] at hd
        exact (Option.some.inj hd).symm

end Fill

/-- The bases that `printer_vprintf` prints in. -/
def PrintBase (base : Int) : Prop := base = 10 ∨ base = 16 ∨ base = -16

/-- **`fill_numbuf` stays in its buffer**, in which it leaves the digits of the number. -/
theorem fillNumbuf_spec {val : Nat} {base : Int} (hval : val < 2 ^ 64) (hbase : PrintBase base) :
    ∃ cs, fillNumbuf NUMBUFSIZ val base = some (cs ++ [0]) ∧ Writes base.natAbs val cs ∧
      cs.length < NUMBUFSIZ := by
  have hroom : ∀ {digits : List UInt8} {b : Nat}, 10 ≤ b → DigitsOf digits b →
      ∃ cs, fillLoop digits b 23 val [0] = some (cs ++ [0]) ∧ Writes b val cs ∧
      cs.length < NUMBUFSIZ := by
    intro digits b hb hdigits
    have hfits : val < b ^ 23 := by
      have h₁ : 10 ^ 23 ≤ b ^ 23 := Nat.pow_le_pow_left hb 23
      have h₂ : 2 ^ 64 < 10 ^ 23 := by decide
      omega
    obtain ⟨cs, hrun, hwrites, hlen⟩ :=
      fillLoop_spec (by omega) hdigits 23 val [0] (by decide) hfits
    exact ⟨cs, hrun, hwrites, Nat.lt_succ_of_le hlen⟩
  rcases hbase with rfl | rfl | rfl
  · exact hroom (by decide) upperDigits_ten
  · exact hroom (by decide) upperDigits_sixteen
  · exact hroom (by decide) lowerDigits_sixteen

/-! ## Where the format is read -/

section Position
variable {fmt : List UInt8} {i : Nat}

theorem readFormat_some (h : i ≤ fmt.length) : ∃ c, readFormat fmt i = some c ∧
    (c ≠ 0 → i < fmt.length) := by
  unfold readFormat
  by_cases hi : i < fmt.length
  · exact ⟨fmt[i], by rw [List.getElem?_append_left hi, List.getElem?_eq_getElem hi], fun _ => hi⟩
  · obtain rfl : i = fmt.length := by omega
    exact ⟨0, by simp, fun h => absurd rfl h⟩

theorem flagLoop_some : ∀ (fuel i : Nat) (flags : Flags), i ≤ fmt.length → fmt.length < i + fuel →
    ∃ j flags', flagLoop fmt fuel i flags = some (j, flags') ∧ i ≤ j ∧ j ≤ fmt.length := by
  intro fuel
  induction fuel with
  | zero => intro i _ hi hfuel; omega
  | succ fuel ih =>
    intro i flags hi hfuel
    obtain ⟨c, hc, hlt⟩ := readFormat_some hi
    rw [flagLoop, hc, Option.bind_some]
    by_cases hnul : c = 0
    · exact ⟨i, flags, if_pos hnul, le_refl i, hi⟩
    rw [if_neg hnul]
    cases setFlag flags c with
    | none => exact ⟨i, flags, rfl, le_refl i, hi⟩
    | some flags₁ =>
      have := hlt hnul
      obtain ⟨j, flags', hrun, hij, hj⟩ := ih (i + 1) flags₁ (by omega) (by omega)
      exact ⟨j, flags', hrun, by omega, hj⟩

/-- A digit is not the NUL. -/
theorem digit_ne_nul {c : UInt8} (h : 48 ≤ schar c) : c ≠ 0 := by
  rintro rfl
  exact absurd h (by decide)

theorem numberLoop_some : ∀ (fuel i : Nat) (n : Int), i ≤ fmt.length → fmt.length < i + fuel →
    ∃ j n', numberLoop fmt fuel i n = some (j, n') ∧ i ≤ j ∧ j ≤ fmt.length := by
  intro fuel
  induction fuel with
  | zero => intro i _ hi hfuel; omega
  | succ fuel ih =>
    intro i n hi hfuel
    obtain ⟨c, hc, hlt⟩ := readFormat_some hi
    rw [numberLoop, hc, Option.bind_some]
    by_cases hdigit : 48 ≤ schar c ∧ schar c ≤ 57
    · rw [if_pos hdigit]
      have := hlt (digit_ne_nul hdigit.1)
      obtain ⟨j, n', hrun, hij, hj⟩ :=
        ih (i + 1) (int32 (10 * n + schar c - 48)) (by omega) (by omega)
      exact ⟨j, n', hrun, by omega, hj⟩
    · exact ⟨i, n, if_neg hdigit, le_refl i, hi⟩

theorem lengthLoop_some : ∀ (fuel i : Nat) (length : Bool), i ≤ fmt.length → fmt.length < i + fuel →
    ∃ j length', lengthLoop fmt fuel i length = some (j, length') ∧ i ≤ j ∧ j ≤ fmt.length := by
  intro fuel
  induction fuel with
  | zero => intro i _ hi hfuel; omega
  | succ fuel ih =>
    intro i length hi hfuel
    obtain ⟨c, hc, hlt⟩ := readFormat_some hi
    rw [lengthLoop, hc, Option.bind_some]
    by_cases hlong : c = 108 ∨ c = 122
    · rw [if_pos hlong]
      have := hlt (by rcases hlong with rfl | rfl <;> decide)
      obtain ⟨j, length', hrun, hij, hj⟩ := ih (i + 1) true (by omega) (by omega)
      exact ⟨j, length', hrun, by omega, hj⟩
    · exact ⟨i, length, if_neg hlong, le_refl i, hi⟩

variable {va : Args} {k : Nat}

theorem readCount_some (first : Int) (h : i ≤ fmt.length) :
    ∃ r, readCount fmt va first i k = some r ∧ i ≤ r.1 ∧ r.1 ≤ fmt.length := by
  obtain ⟨c, hc, hlt⟩ := readFormat_some h
  rw [readCount, hc, Option.bind_some]
  by_cases hdigit : first ≤ schar c ∧ schar c ≤ 57
  · obtain ⟨j, n, hrun, hij, hj⟩ := numberLoop_some (fmt.length + 1) i 0 h (by omega)
    rw [if_pos hdigit, hrun]
    exact ⟨_, rfl, hij, hj⟩
  rw [if_neg hdigit]
  by_cases hstar : c = 42
  · have := hlt (by rw [hstar]; decide)
    exact ⟨_, if_pos hstar, Nat.le_succ i, this⟩
  · exact ⟨_, if_neg hstar, le_refl i, h⟩

theorem readPrecision_some (h : i ≤ fmt.length) :
    ∃ r, readPrecision fmt va i k = some r ∧ i ≤ r.1 ∧ r.1 ≤ fmt.length := by
  obtain ⟨c, hc, hlt⟩ := readFormat_some h
  rw [readPrecision, hc, Option.bind_some]
  by_cases hpoint : c = 46
  · have := hlt (by rw [hpoint]; decide)
    obtain ⟨r, hrun, hir, hr⟩ := @readCount_some fmt (i + 1) va k 48 this
    rw [if_pos hpoint, hrun]
    exact ⟨_, rfl, Nat.le_of_succ_le hir, hr⟩
  · exact ⟨_, if_neg hpoint, le_refl i, h⟩

end Position

theorem toUlong_lt (x : Int) : toUlong x < 2 ^ 64 := by
  unfold toUlong
  omega

namespace Args
variable {va : Args} {k : Nat}

theorem ulong_lt : va.ulong k < 2 ^ 64 := (va.word k).toNat_lt

theorem unsignedArg_lt {length : Bool} : unsignedArg va length k < 2 ^ 64 := by
  have h := @ulong_lt va k
  unfold unsignedArg uint
  split <;> omega

end Args

theorem number_some {num : Nat} {base : Int} (flags : Flags) (hnum : num < 2 ^ 64)
    (hbase : PrintBase base) : ∃ item, number flags base num = some item := by
  obtain ⟨cs, hcs, -⟩ := fillNumbuf_spec hnum hbase
  rw [number, hcs]
  exact ⟨_, rfl⟩

/-- After a conversion `format` is where it was, or one before if that was the NUL. -/
theorem conversion_some {fmt : List UInt8} {va : Args} {i k : Nat} (width precision : Int)
    (flags : Flags) (length : Bool) (hpos : 0 < i) (h : i ≤ fmt.length) :
    ∃ d, conversion fmt va width precision flags length i k = some d ∧ i ≤ d.pos + 1 ∧
      d.pos + 1 ≤ fmt.length := by
  obtain ⟨c, hc, hlt⟩ := readFormat_some h
  -- a conversion that prints a number
  have hnumber : ∀ {item : Option Item}, (∃ x, item = some x) → c ≠ 0 →
      ∃ d, item.map (fun item => (⟨i, k + 1, .print width precision item⟩ : Directive)) = some d ∧
        i ≤ d.pos + 1 ∧ d.pos + 1 ≤ fmt.length := by
    rintro _ ⟨x, rfl⟩ hnul
    exact ⟨_, rfl, Nat.le_succ i, hlt hnul⟩
  rw [conversion, hc, Option.bind_some]
  by_cases hd : c = 100 ∨ c = 105
  · rw [if_pos hd]
    refine hnumber (number_some _ (toUlong_lt _) (Or.inl rfl)) ?_
    rcases hd with rfl | rfl <;> decide
  rw [if_neg hd]
  by_cases hu : c = 117
  · rw [if_pos hu]
    exact hnumber (number_some _ Args.unsignedArg_lt (Or.inl rfl)) (by rw [hu]; decide)
  rw [if_neg hu]
  by_cases hx : c = 120
  · rw [if_pos hx]
    exact hnumber (number_some _ Args.unsignedArg_lt (Or.inr (Or.inr rfl))) (by rw [hx]; decide)
  rw [if_neg hx]
  by_cases hX : c = 88
  · rw [if_pos hX]
    exact hnumber (number_some _ Args.unsignedArg_lt (Or.inr (Or.inl rfl))) (by rw [hX]; decide)
  rw [if_neg hX]
  by_cases hp : c = 112
  · rw [if_pos hp]
    exact hnumber (number_some _ Args.ulong_lt (Or.inr (Or.inr rfl))) (by rw [hp]; decide)
  rw [if_neg hp]
  by_cases hs : c = 115
  · rw [if_pos hs]
    exact ⟨_, rfl, Nat.le_succ i, hlt (by rw [hs]; decide)⟩
  rw [if_neg hs]
  by_cases hC : c = 67
  · rw [if_pos hC]
    exact ⟨_, rfl, Nat.le_succ i, hlt (by rw [hC]; decide)⟩
  rw [if_neg hC]
  by_cases hchar : c = 99
  · rw [if_pos hchar]
    exact ⟨_, rfl, Nat.le_succ i, hlt (by rw [hchar]; decide)⟩
  rw [if_neg hchar]
  by_cases hnul : c = 0
  · rw [if_pos hnul]
    exact ⟨_, rfl, by dsimp only; omega, by dsimp only; omega⟩
  rw [if_neg hnul]
  exact ⟨_, rfl, Nat.le_succ i, hlt hnul⟩

/-- **A directive is read** up to the NUL at most, and `format` is past its `%` then. -/
theorem directive_some {fmt : List UInt8} {va : Args} {i k : Nat} (h : i < fmt.length) :
    ∃ d, directive fmt va i k = some d ∧ i ≤ d.pos ∧ d.pos + 1 ≤ fmt.length := by
  obtain ⟨i₁, flags, hflags, h₁, hend₁⟩ := flagLoop_some (fmt.length + 1) (i + 1) {} h (by omega)
  obtain ⟨r₂, hwidth, h₂, hend₂⟩ := @readCount_some fmt i₁ va k 49 hend₁
  obtain ⟨r₃, hprecision, h₃, hend₃⟩ := @readPrecision_some fmt r₂.1 va r₂.2.1 hend₂
  obtain ⟨i₄, length, hlength, h₄, hend₄⟩ :=
    lengthLoop_some (fmt.length + 1) r₃.1 false hend₃ (by omega)
  obtain ⟨d, hd, h₅, hend₅⟩ :=
    @conversion_some fmt va i₄ r₃.2.1 r₂.2.2 r₃.2.2 flags length (by omega) hend₄
  refine ⟨d, ?_, by omega, hend₅⟩
  rw [directive, hflags, Option.bind_some, readWidth, hwidth, Option.bind_some, hprecision,
    Option.bind_some, hlength, Option.bind_some, hd]

/-! ## What is printed -/

/-- The characters of a conversion. -/
def Item.chars (item : Item) (width precision : Int) : List UInt8 :=
  let pad := item.padding width precision
  let before := if item.flags.leftJustify then 0 else pad.toNat
  List.replicate before 32 ++
    (item.prefixChars ++ (List.replicate (item.zeros width precision).toNat 48 ++
    (item.data.take (item.datalen precision).toNat ++ List.replicate (pad - before).toNat 32)))

section Run
variable {σ : Type} (putc : σ → UInt8 → Int → σ)

/-- The characters of a list, each in its color. -/
def putAll (l : List (UInt8 × Int)) (p : σ) : σ := l.foldl (fun p ch => putc p ch.1 ch.2) p

/-- Characters of one color. -/
def colored (color : Int) (cs : List UInt8) : List (UInt8 × Int) := cs.map (·, color)

theorem puts_eq (color : Int) (cs : List UInt8) (p : σ) :
    puts putc color cs p = putAll putc (colored color cs) p := by
  rw [puts, putAll, colored, List.foldl_map]

theorem putAll_append (l l' : List (UInt8 × Int)) (p : σ) :
    putAll putc (l ++ l') p = putAll putc l' (putAll putc l p) := List.foldl_append

theorem puts_append (color : Int) (cs cs' : List UInt8) (p : σ) :
    puts putc color (cs ++ cs') p = puts putc color cs' (puts putc color cs p) := List.foldl_append

theorem printItem_eq (color width precision : Int) (item : Item) (p : σ) :
    printItem putc color width precision item p = puts putc color
      (item.chars width precision) p := by
  unfold printItem Item.chars
  dsimp only
  rw [puts_append, puts_append, puts_append, puts_append]

end Run

/-- What is printed from a point of the loop on does not depend on the printer. -/
theorem vprintfLoop_prints (fmt : List UInt8) (va : Args) :
    ∀ (fuel i k : Nat) (color : Int), i ≤ fmt.length →
    fmt.length < i + fuel → ∃ l : List (UInt8 × Int), ∀ (σ : Type) (putc : σ → UInt8 → Int →
      σ) (p : σ), vprintfLoop putc fmt va fuel i k color p = some (putAll putc l p) := by
  intro fuel
  induction fuel with
  | zero => intro i _ _ hi hfuel; omega
  | succ fuel ih =>
    intro i k color hi hfuel
    obtain ⟨c, hc, hlt⟩ := readFormat_some hi
    by_cases hnul : c = 0
    · refine ⟨[], fun σ putc p => ?_⟩
      rw [vprintfLoop, hc, Option.bind_some, if_pos hnul]
      rfl
    have hlt := hlt hnul
    by_cases hplain : c ≠ 37
    · obtain ⟨l, hl⟩ := ih (i + 1) k color hlt (by omega)
      refine ⟨(c, color) :: l, fun σ putc p => ?_⟩
      rw [vprintfLoop, hc, Option.bind_some, if_neg hnul, if_pos hplain, hl]
      rfl
    obtain ⟨⟨pos, arg, action⟩, hd, hpos, hend⟩ := @directive_some fmt va i k hlt
    dsimp only at hpos hend
    cases action with
    | color color' =>
      obtain ⟨l, hl⟩ := ih (pos + 1) arg color' hend (by omega)
      refine ⟨l, fun σ putc p => ?_⟩
      rw [vprintfLoop, hc, Option.bind_some, if_neg hnul, if_neg hplain, hd, Option.bind_some]
      exact hl σ putc p
    | print width precision item =>
      obtain ⟨l, hl⟩ := ih (pos + 1) arg color hend (by omega)
      refine ⟨colored color (item.chars width precision) ++ l, fun σ putc p => ?_⟩
      rw [vprintfLoop, hc, Option.bind_some, if_neg hnul, if_neg hplain, hd, Option.bind_some,
        putAll_append, ← puts_eq, ← printItem_eq]
      exact hl σ putc _

/-- A call prints one list of characters, whatever the printer. -/
theorem vprintf_prints (color : Int) (fmt : List UInt8) (va : Args) :
    ∃ l : List (UInt8 × Int), ∀ (σ : Type) (putc : σ → UInt8 → Int → σ) (p : σ),
      vprintf putc color fmt va p = some (putAll putc l p) :=
  vprintfLoop_prints fmt va (fmt.length + 1) 0 0 color (Nat.zero_le _) (by omega)

theorem putAll_collect (l acc : List (UInt8 × Int)) :
    putAll (fun l c color => l ++ [(c, color)]) l acc = acc ++ l := by
  induction l generalizing acc with
  | nil => exact (List.append_nil acc).symm
  | cons ch l ih =>
    have hstep := ih (acc ++ [ch])
    rw [List.append_assoc] at hstep
    exact hstep

/-- The list is the output. -/
theorem vprintf_output (color : Int) (fmt : List UInt8) (va : Args) :
    ∃ l, output color fmt va = some l ∧ ∀ (σ : Type) (putc : σ → UInt8 → Int → σ) (p : σ),
      vprintf putc color fmt va p = some (putAll putc l p) := by
  obtain ⟨l, hl⟩ := vprintf_prints color fmt va
  refine ⟨l, ?_, hl⟩
  rw [output, hl, putAll_collect, List.nil_append]

/-! ## Truncation -/

/-- After the characters `cs`: those for which there is room are in the buffer, and nothing else has
been written. -/
structure Printed (mem : Mem) (s size : Nat) (cs : List UInt8) (sp : StringPrinter) : Prop where
  at_ : sp.s = s + min cs.length size
  limit : sp.limit = s + size
  n : sp.n = cs.length
  stored : slice sp.mem s (min cs.length size) = cs.take size
  outside : ∀ a, a < s ∨ s + size ≤ a → sp.mem a = mem a

theorem Printed.start (mem : Mem) (s size : Nat) : Printed mem s size [] ⟨mem, s, s + size, 0⟩ :=
  ⟨by simp, rfl, rfl, by simp [slice], fun _ _ => rfl⟩

theorem slice_update_snoc (f : Mem) (s n : Nat) (c : UInt8) :
    slice (Function.update f (s + n) c) s (n + 1) = slice f s n ++ [c] := by
  rw [slice_add]
  refine congrArg₂ (· ++ ·) (slice_congr fun x _ hx => ?_) ?_
  · exact Function.update_of_ne (by omega) _ _
  · simp [slice]

/-- One more character. -/
theorem Printed.putc {mem : Mem} {s size : Nat} {cs : List UInt8} {sp : StringPrinter}
    (h : Printed mem s size cs sp) (c : UInt8) (color : Int) :
    Printed mem s size (cs ++ [c]) (stringPutc sp c color) := by
  have hlen : (cs ++ [c]).length = cs.length + 1 := by simp
  unfold stringPutc
  by_cases hroom : sp.s < sp.limit
  · have hless : cs.length < size := by
      have := h.at_
      have := h.limit
      omega
    have hmin : min (cs ++ [c]).length size = min cs.length size + 1 := by omega
    have hmin' : min cs.length size = cs.length := by omega
    rw [if_pos hroom]
    refine ⟨by rw [hmin]; dsimp only; rw [h.at_]; omega, h.limit,
      by rw [hlen]; exact congrArg (· + 1) h.n, ?_, fun a ha => ?_⟩
    · have hstored := h.stored
      rw [hmin', List.take_of_length_le (by omega)] at hstored
      dsimp only
      rw [hmin, hmin', h.at_, hmin', slice_update_snoc, hstored, List.take_of_length_le (by omega)]
    · have hne : a ≠ sp.s := by
        have := h.at_
        omega
      dsimp only
      rw [Function.update_of_ne hne]
      exact h.outside a ha
  · have hfull : size ≤ cs.length := by
      have := h.at_
      have := h.limit
      omega
    rw [if_neg hroom]
    refine ⟨by rw [h.at_]; omega, h.limit, by rw [hlen]; exact congrArg (· + 1) h.n, ?_, h.outside⟩
    have hmin : min (cs ++ [c]).length size = min cs.length size := by omega
    rw [hmin, List.take_append_of_le_length hfull]
    exact h.stored

theorem Printed.putAll {mem : Mem} {s size : Nat} (l : List (UInt8 × Int)) :
    ∀ {cs : List UInt8} {sp : StringPrinter}, Printed mem s size cs sp →
    Printed mem s size (cs ++ l.map Prod.fst) (putAll stringPutc l sp) := by
  induction l with
  | nil =>
    intro cs sp h
    rwa [List.map_nil, List.append_nil]
  | cons ch l ih =>
    intro cs sp h
    have hrest := ih (h.putc ch.1 ch.2)
    rw [List.append_assoc] at hrest
    exact hrest

/-- **`vsnprintf` truncates**: for every format and arguments there is one list of characters, the
output of `printer_vprintf`, whose length a call returns for a buffer of any size; it writes in the
buffer only and leaves as much of the list there as fits before a NUL. -/
theorem vsnprintf_truncates (fmt : List UInt8) (va : Args) :
    ∃ l : List (UInt8 × Int), output 0 fmt va = some l ∧ ∀ (mem : Mem) (s size : Nat),
      ∃ mem', vsnprintf mem s size fmt va = some (mem', l.length) ∧
        (∀ a, a < s ∨ s + size ≤ a → mem' a = mem a) ∧
        (0 < size → slice mem' s (min l.length (size - 1)) = (l.map Prod.fst).take (size - 1) ∧
          mem' (s + min l.length (size - 1)) = 0) := by
  obtain ⟨l, hout, hl⟩ := vprintf_output 0 fmt va
  refine ⟨l, hout, fun mem s size => ?_⟩
  have hprinted := (Printed.start mem s size).putAll l
  rw [List.nil_append] at hprinted
  rw [vsnprintf, hl, Option.map_some]
  generalize putAll stringPutc l ⟨mem, s, s + size, 0⟩ = sp at hprinted
  have hn := hprinted.n
  have hat := hprinted.at_
  have hlimit := hprinted.limit
  have hlen : (l.map Prod.fst).length = l.length := List.length_map _
  rw [hlen] at hn hat
  -- the place of the NUL
  have hnul : ∀ x, 0 < size → x = s + min l.length (size - 1) →
      (∀ a, a < s ∨ s + size ≤ a → Function.update sp.mem x 0 a = mem a) ∧
      (0 < size → slice (Function.update sp.mem x 0) s (min l.length (size - 1)) =
        (l.map Prod.fst).take (size - 1) ∧ Function.update sp.mem x 0
        (s + min l.length (size - 1)) = 0) := by
    rintro _ hpos rfl
    refine ⟨fun a ha => ?_, fun _ => ⟨?_, Function.update_self _ _ _⟩⟩
    · rw [Function.update_of_ne (by omega)]
      exact hprinted.outside a ha
    · have hkeep : slice (Function.update sp.mem (s + min l.length (size - 1)) 0) s
          (min l.length (size - 1)) = slice sp.mem s (min l.length (size - 1)) :=
        slice_congr fun x _ hx => Function.update_of_ne (by omega) _ _
      have hstored := congrArg (List.take (size - 1)) hprinted.stored
      rw [hlen, List.take_take, show min (size - 1) size = size - 1 by omega] at hstored
      rw [hkeep, ← hstored, slice, slice, ← List.map_take, List.take_range]
      congr 2
      omega
  by_cases hroom : size ≠ 0 ∧ sp.s < sp.limit
  · rw [if_pos hroom, hn]
    exact ⟨_, rfl, hnul sp.s (by omega) (by omega)⟩
  rw [if_neg hroom]
  by_cases hsize : size ≠ 0
  · rw [if_pos hsize, hn]
    have hend : sp.limit - 1 = s + min l.length (size - 1) := by
      have : ¬sp.s < sp.limit := fun h => hroom ⟨hsize, h⟩
      omega
    exact ⟨_, rfl, hnul (sp.limit - 1) (by omega) hend⟩
  · rw [if_neg hsize, hn]
    exact ⟨_, rfl, hprinted.outside, fun h => absurd h (by omega)⟩

end PugOS.Lib
