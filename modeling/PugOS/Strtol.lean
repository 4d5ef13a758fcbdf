import Mathlib.Data.List.Forall2
import Mathlib.Data.Nat.Digits.Defs

/-! # Reading numbers

`strtoul` and `strtol` of the kernel's library, and what they read in base 10.  A pointer into a
NUL-terminated string is the list of the characters from there up to the NUL, and `endptr` is the
second part of a result.

`strtoul` stops at the first character that is no digit, with the number the digits stand for, or
the largest `unsigned long` if that is too large (`strtoulLoop_digits`).  `strtol` takes the blanks
and a minus sign off and calls `strtoul`, which takes blanks and a sign off again.  So a minus sign
that is followed by blanks or by another sign is read as the start of a number: with that exception
`strtol` reads what the grammar says (`strtol_reads_iff`).
-/
namespace PugOS.Lib

/-- `-1UL`. -/
def ulongMax : Nat := 2 ^ 64 - 1

/-- An `unsigned long` negated. -/
def negUlong (x : Nat) : Nat := (2 ^ 64 - x) % 2 ^ 64

/-- An `unsigned long` as a `long`. -/
def toLong (x : Nat) : Int := if x < 2 ^ 63 then x else x - 2 ^ 64

/-- `isspace`. -/
def isspace (c : UInt8) : Bool := (9 ≤ c.toNat ∧ c.toNat ≤ 13) ∨ c.toNat = 32

/-- A `char` as a number. -/
def schar (c : UInt8) : Int := if c.toNat < 128 then c.toNat else c.toNat - 256

/-- `*s`. -/
def deref (s : List UInt8) : UInt8 := s.headD 0

/-- The characters that `strtol` and `strtoul` look for. -/
def chMinus : UInt8 := 45
def chPlus : UInt8 := 43
def chZero : UInt8 := 48
def chLowerX : UInt8 := 120
def chUpperX : UInt8 := 88

/-- `s[0] == '0' && (s[1] == 'x' || s[1] == 'X')`. -/
def hexPrefix (s : List UInt8) : Bool :=
  deref s = chZero ∧ (deref s.tail = chLowerX ∨ deref s.tail = chUpperX)

/-- The digit a character is in a base, if it is one. -/
def digitOf (base : Nat) (c : UInt8) : Option Nat :=
  if 48 ≤ schar c ∧ schar c < 48 + base then some (c.toNat - 48)
  else if 10 < base ∧ 97 ≤ schar c ∧ schar c < 97 + base - 10 then some (c.toNat - 97 + 10)
  else if 10 < base ∧ 65 ≤ schar c ∧ schar c < 65 + base - 10 then some (c.toNat - 65 + 10)
  else none

/-- The loop of `strtoul`: `x`, `overflow` and the string it stops at. -/
def strtoulLoop (base : Nat) : Nat → Bool → List UInt8 → Nat × Bool × List UInt8
  | x, overflow, [] => (x, overflow, [])
  | x, overflow, c :: s =>
    match digitOf base c with
    | none => (x, overflow, c :: s)
    | some digit =>
      if (ulongMax - digit) / base < x then strtoulLoop base x true s
      else strtoulLoop base ((x * base + digit) % 2 ^ 64) overflow s

/-- The base, and what is left of the string once the base's own prefix is gone. -/
def readBase (base : Nat) (s : List UInt8) : Nat × List UInt8 :=
  if base = 0 then
    if hexPrefix s then (16, s.drop 2)
    else if deref s = chZero then (8, s)
    else (10, s)
  else if base = 16 ∧ hexPrefix s then (16, s.drop 2)
  else (base, s)

/-- `s += negative || *s == '+'`. -/
def skipSign (s : List UInt8) : List UInt8 :=
  if deref s = chMinus ∨ deref s = chPlus then s.tail else s

/-- `strtoul`: the number, and the rest of the string. -/
def strtoul (s : List UInt8) (base : Nat) : Nat × List UInt8 :=
  let s := s.dropWhile isspace
  let negative := decide (deref s = chMinus)
  let (base, s) := readBase base (skipSign s)
  let (x, overflow, s) := strtoulLoop base 0 false s
  let x := if overflow then ulongMax else x
  (if negative then negUlong x else x, s)

/-- `strtol`, which reads the digits with `strtoul`. -/
def strtol (s : List UInt8) (base : Nat) : Int × List UInt8 :=
  let s := s.dropWhile isspace
  let negative := decide (deref s = chMinus)
  let s := if negative then s.tail else s
  let (u, s) := strtoul s base
  let bound := if negative then 2 ^ 63 else 2 ^ 63 - 1
  let u := if bound < u then bound else u
  (toLong (if negative then negUlong u else u), s)

/-! ## The digits -/

/-- The number that digits stand for after `x`, the first one first. -/
def valueFrom (base : Nat) (x : Nat) (ds : List Nat) : Nat := ds.foldl (fun x d => x * base + d) x

/-- The characters are the digits `ds`. -/
def Digits (base : Nat) (cs : List UInt8) (ds : List Nat) : Prop :=
  List.Forall₂ (fun c d => digitOf base c = some d) cs ds

/-- No digit comes first. -/
def NoDigit (base : Nat) (s : List UInt8) : Prop := ∀ c ∈ s.head?, digitOf base c = none

/-- The loop's variables stand for `v`. -/
def Stands (x : Nat) (overflow : Bool) (v : Nat) : Prop :=
  (overflow = false ∧ x = v ∧ v ≤ ulongMax) ∨ (overflow = true ∧ ulongMax < v)

theorem Stands.result {x v : Nat} {overflow : Bool} (h : Stands x overflow v) :
    (if overflow then ulongMax else x) = min v ulongMax := by
  rcases h with ⟨rfl, rfl, hv⟩ | ⟨rfl, hv⟩
  · rw [if_neg Bool.false_ne_true, Nat.min_eq_left hv]
  · rw [if_pos rfl, Nat.min_eq_right (Nat.le_of_lt hv)]

section Loop
variable {base x v digit : Nat} {overflow : Bool} {cs rest : List UInt8} {ds : List Nat}

theorem digitOf_le {c : UInt8} (h : digitOf base c = some digit) : digit ≤ ulongMax := by
  have hc := c.toNat_lt
  unfold ulongMax
  unfold digitOf at h
  split_ifs at h <;> cases h <;> omega

/-- The overflow test is exact. -/
theorem overflow_iff (hbase : 0 < base) (hd : digit ≤ ulongMax) :
    (ulongMax - digit) / base < x ↔ ulongMax < x * base + digit := by
  rw [Nat.div_lt_iff_lt_mul hbase]
  omega

/-- A round of the loop on a digit. -/
theorem strtoulLoop_cons (hbase : 0 < base) (h : Stands x overflow v) {c : UInt8}
    (hc : digitOf base c = some digit) (s : List UInt8) :
    ∃ x' overflow', Stands x' overflow' (v * base + digit) ∧
      strtoulLoop base x overflow (c :: s) = strtoulLoop base x' overflow' s := by
  have hd := digitOf_le hc
  rw [strtoulLoop, hc]
  dsimp only
  rcases h with ⟨rfl, rfl, hv⟩ | ⟨rfl, hv⟩
  · by_cases hover : (ulongMax - digit) / base < x
    · rw [if_pos hover]
      exact ⟨x, true, Or.inr ⟨rfl, (overflow_iff hbase hd).mp hover⟩, rfl⟩
    · have hfits : x * base + digit ≤ ulongMax := by
        have := mt (overflow_iff hbase hd).mpr hover
        omega
      have hmod : (x * base + digit) % 2 ^ 64 = x * base + digit := by
        refine Nat.mod_eq_of_lt ?_
        unfold ulongMax at hfits
        omega
      rw [if_neg hover, hmod]
      exact ⟨_, false, Or.inl ⟨rfl, rfl, hfits⟩, rfl⟩
  · have hgrows : v ≤ v * base := Nat.le_mul_of_pos_right v hbase
    have hstays : ulongMax < v * base + digit := by omega
    by_cases hover : (ulongMax - digit) / base < x
    · rw [if_pos hover]
      exact ⟨x, true, Or.inr ⟨rfl, hstays⟩, rfl⟩
    · rw [if_neg hover]
      exact ⟨_, true, Or.inr ⟨rfl, hstays⟩, rfl⟩

theorem strtoulLoop_noDigit (h : NoDigit base rest) :
    strtoulLoop base x overflow rest = (x, overflow, rest) := by
  cases rest with
  | nil => rfl
  | cons c s => rw [strtoulLoop, h c rfl]

/-- The loop reads the digits to the last. -/
theorem strtoulLoop_run (hbase : 0 < base) (hcs : Digits base cs ds) (hrest : NoDigit base rest) :
    ∀ {x v : Nat} {overflow : Bool}, Stands x overflow v →
      ∃ x' overflow', Stands x' overflow' (valueFrom base v ds) ∧
      strtoulLoop base x overflow (cs ++ rest) = (x', overflow', rest) := by
  induction hcs with
  | nil =>
    intro x v overflow h
    exact ⟨x, overflow, h, strtoulLoop_noDigit hrest⟩
  | @cons c d cs ds hc _ ih =>
    intro x v overflow h
    obtain ⟨x₁, overflow₁, h₁, hround⟩ := strtoulLoop_cons hbase h hc (cs ++ rest)
    obtain ⟨x₂, overflow₂, h₂, hrun⟩ := ih h₁
    exact ⟨x₂, overflow₂, h₂, hround.trans hrun⟩

/-- The number read, with the largest one for those that are too large. -/
theorem strtoulLoop_digits (hbase : 0 < base) (hcs : Digits base cs ds)
    (hrest : NoDigit base rest) : ∃ x overflow, strtoulLoop base 0 false (cs ++ rest) =
    (x, overflow, rest) ∧
      (if overflow then ulongMax else x) = min (valueFrom base 0 ds) ulongMax := by
  have hstart : Stands 0 false 0 := Or.inl ⟨rfl, rfl, Nat.zero_le _⟩
  obtain ⟨x, overflow, h, hrun⟩ := strtoulLoop_run hbase hcs hrest hstart
  exact ⟨x, overflow, hrun, h.result⟩

end Loop

/-- Every string is some digits and a rest that does not start with one. -/
theorem exists_digits (base : Nat) (s : List UInt8) :
    ∃ cs ds rest, s = cs ++ rest ∧ Digits base cs ds ∧ NoDigit base rest := by
  induction s with
  | nil => exact ⟨[], [], [], rfl, .nil, fun _ h => by cases h⟩
  | cons c s ih =>
    cases hc : digitOf base c with
    | none =>
      refine ⟨[], [], c :: s, rfl, .nil, fun c' h => ?_⟩
      rw [List.head?_cons, Option.mem_some_iff] at h
      rwa [← h]
    | some d =>
      obtain ⟨cs, ds, rest, rfl, hcs, hrest⟩ := ih
      exact ⟨c :: cs, d :: ds, rest, rfl, .cons hc hcs, hrest⟩

/-! ## Signs and blanks -/

/-- The sign a number is written with. -/
inductive Sign where
  | none
  | plus
  | minus
  deriving DecidableEq

/-- A sign as it is written. -/
def Sign.text : Sign → List UInt8
  | .none => []
  | .plus => [chPlus]
  | .minus => [chMinus]

/-- The number with its sign. -/
def Sign.apply : Sign → Nat → Int
  | .minus, v => -v
  | _, v => v

/-- The sign on an `unsigned long`. -/
def Sign.wrap : Sign → Nat → Nat
  | .minus, x => negUlong x
  | _, x => x

/-- Blanks only. -/
def Blanks (s : List UInt8) : Prop := ∀ c ∈ s, isspace c = true

/-- No blank and no sign comes first. -/
def Bare (s : List UInt8) : Prop := isspace (deref s) = false ∧ deref s ≠ chMinus ∧ deref s ≠ chPlus

theorem dropWhile_blanks {blanks s : List UInt8} (hb : Blanks blanks)
    (hs : isspace (deref s) = false) : (blanks ++ s).dropWhile isspace = s := by
  rw [List.dropWhile_append_of_pos hb]
  cases s with
  | nil => rfl
  | cons c s =>
    have hc : ¬isspace c = true := Bool.eq_false_iff.mp hs
    exact List.dropWhile_cons_of_neg hc

theorem exists_blanks (s : List UInt8) :
    ∃ blanks t, s = blanks ++ t ∧ Blanks blanks ∧ isspace (deref t) = false := by
  induction s with
  | nil => exact ⟨[], [], rfl, nofun, rfl⟩
  | cons c s ih =>
    by_cases hc : isspace c = true
    · obtain ⟨blanks, t, rfl, hb, ht⟩ := ih
      exact ⟨c :: blanks, t, rfl, List.forall_mem_cons.mpr ⟨hc, hb⟩, ht⟩
    · exact ⟨[], c :: s, rfl, nofun, Bool.eq_false_iff.mpr hc⟩

/-- Every string that starts with no blank is a sign, which may be absent, and what follows it. -/
theorem exists_sign {t : List UInt8} (ht : isspace (deref t) = false) :
    ∃ sign u, t = Sign.text sign ++ u ∧ (sign = .none → Bare u) := by
  cases t with
  | nil => exact ⟨.none, [], rfl, fun _ => ⟨rfl, by decide, by decide⟩⟩
  | cons c u =>
    by_cases hm : c = chMinus
    · exact ⟨.minus, u, by rw [hm]; rfl, nofun⟩
    by_cases hp : c = chPlus
    · exact ⟨.plus, u, by rw [hp]; rfl, nofun⟩
    exact ⟨.none, c :: u, rfl, fun _ => ⟨ht, hm, hp⟩⟩

theorem sign_not_space {sign : Sign} {u : List UInt8} (hu : sign = .none → Bare u) :
    isspace (deref (sign.text ++ u)) = false := by
  cases sign with
  | none => exact (hu rfl).1
  | plus => rfl
  | minus => rfl

theorem skipSign_text {sign : Sign} {u : List UInt8} (hu : sign = .none → Bare u) :
    skipSign (sign.text ++ u) = u := by
  cases sign with
  | none =>
    obtain ⟨-, hm, hp⟩ := hu rfl
    exact if_neg (not_or.mpr ⟨hm, hp⟩)
  | plus => rfl
  | minus => rfl

theorem text_minus_iff {sign : Sign} {u : List UInt8} (hu : sign = .none → Bare u) :
    deref (sign.text ++ u) = chMinus ↔ sign = .minus := by
  cases sign with
  | none => exact ⟨fun h => absurd h (hu rfl).2.1, nofun⟩
  | plus => exact ⟨fun h => absurd h (by decide : chPlus ≠ chMinus), nofun⟩
  | minus => exact ⟨fun _ => rfl, fun _ => rfl⟩

theorem readBase_ten (s : List UInt8) : readBase 10 s = (10, s) := by
  unfold readBase
  rw [if_neg (by decide), if_neg (fun h => by exact absurd h.1 (by decide))]

theorem Sign.wrap_eq (sign : Sign) (x : Nat) :
    sign.wrap x = if sign = .minus then negUlong x else x := by
  cases sign <;> rfl

section Parts
variable {base base' : Nat} {blanks u cs rest : List UInt8} {sign : Sign} {ds : List Nat}

/-- `strtoul` of blanks, a sign, a base, digits and a rest. -/
theorem strtoul_parts (hb : Blanks blanks) (hbare : sign = .none → Bare u)
    (hbase : readBase base u = (base', cs ++ rest)) (hpos : 0 < base') (hcs : Digits base' cs ds)
    (hrest : NoDigit base' rest) : strtoul (blanks ++ (sign.text ++ u)) base =
    (sign.wrap (min (valueFrom base' 0 ds) ulongMax), rest) := by
  obtain ⟨x, overflow, hloop, hx⟩ := strtoulLoop_digits hpos hcs hrest
  unfold strtoul
  rw [dropWhile_blanks hb (sign_not_space hbare)]
  dsimp only
  rw [skipSign_text hbare, hbase]
  dsimp only
  rw [hloop]
  dsimp only
  rw [hx, Sign.wrap_eq]
  simp only [text_minus_iff hbare, decide_eq_true_eq]

theorem strtol_minus (hb : Blanks blanks) :
    strtol (blanks ++ chMinus :: u) base =
      (toLong (negUlong (min (strtoul u base).1 (2 ^ 63))), (strtoul u base).2) := by
  have hneg : decide (deref (chMinus :: u) = chMinus) = true := rfl
  unfold strtol
  rw [dropWhile_blanks hb (rfl : isspace (deref (chMinus :: u)) = false)]
  dsimp only
  rw [hneg, if_pos rfl, if_pos rfl, if_pos rfl, List.tail_cons, min_def]
  split_ifs <;> first | rfl | omega

theorem strtol_plain (hb : Blanks blanks) (hu : isspace (deref u) = false)
    (hm : deref u ≠ chMinus) :
    strtol (blanks ++ u) base = (toLong (min (strtoul u base).1 (2 ^ 63 - 1)),
    (strtoul u base).2) := by
  have hneg : decide (deref u = chMinus) = false := decide_eq_false hm
  unfold strtol
  rw [dropWhile_blanks hb hu]
  dsimp only
  rw [hneg, if_neg Bool.false_ne_true, if_neg Bool.false_ne_true, if_neg Bool.false_ne_true,
    min_def]
  split_ifs <;> first | rfl | omega

/-! ## What the grammar says -/

/-- `LONG_MIN` and `LONG_MAX`. -/
def longMin : Int := -2 ^ 63
def longMax : Int := 2 ^ 63 - 1

/-- A number clamped to a `long`. -/
def clamp (v : Int) : Int := max longMin (min v longMax)

theorem toLong_minus (v : Nat) : toLong (negUlong (min (min v ulongMax) (2 ^ 63))) =
    clamp (-v) := by
  unfold toLong negUlong clamp ulongMax longMin longMax
  split_ifs <;> omega

theorem toLong_plain (v : Nat) : toLong (min (min v ulongMax) (2 ^ 63 - 1)) = clamp v := by
  unfold toLong clamp ulongMax longMin longMax
  split_ifs <;> omega

/-- `whitespace* [+-]? digit+`. -/
structure Numeral where
  blanks : List UInt8
  sign : Sign
  chars : List UInt8
  digits : List Nat
  blank : Blanks blanks
  nonempty : chars ≠ []
  decimal : Digits 10 chars digits

namespace Numeral

/-- A numeral as it is written. -/
def text (n : Numeral) : List UInt8 := n.blanks ++ (n.sign.text ++ n.chars)

/-- What the digits stand for. -/
def magnitude (n : Numeral) : Nat := valueFrom 10 0 n.digits

/-- The `long` it stands for, or the closest there is. -/
def value (n : Numeral) : Int := clamp (n.sign.apply n.magnitude)

/-- The longest prefix of the grammar's form. -/
def Longest (n : Numeral) (s : List UInt8) : Prop :=
  n.text <+: s ∧ ∀ n' : Numeral, n'.text <+: s → n'.text.length ≤ n.text.length

end Numeral

/-- The result the grammar gives. -/
structure Reads (s : List UInt8) (r : Int × List UInt8) : Prop where
  longest : ∀ n : Numeral, n.Longest s → r.1 = n.value ∧ n.text ++ r.2 = s
  nothing : (∀ n : Numeral, ¬n.text <+: s) → r.1 = 0

/-- After the blanks comes a minus sign, and after that a number other than 0 that starts with a
blank or a sign of its own. -/
def SecondSign (s : List UInt8) : Prop :=
  ∃ (blanks : List UInt8) (n : Numeral) (rest : List UInt8), Blanks blanks ∧ NoDigit 10 rest ∧
    s = blanks ++ chMinus :: (n.text ++ rest) ∧ (n.blanks ≠ [] ∨ n.sign ≠ .none) ∧ n.magnitude ≠ 0

theorem digit_bare {c : UInt8} {d : Nat} (h : digitOf base c = some d) (s : List UInt8) :
    Bare (c :: s) := by
  have hlo : 48 ≤ c.toNat := by
    have hc := c.toNat_lt
    unfold digitOf schar at h
    split_ifs at h <;> omega
  refine ⟨decide_eq_false ?_, fun hc => ?_, fun hc => ?_⟩
  · rw [show deref (c :: s) = c from rfl]
    omega
  · rw [show c = chMinus from hc] at hlo
    exact absurd hlo (by decide)
  · rw [show c = chPlus from hc] at hlo
    exact absurd hlo (by decide)

theorem digits_bare (hcs : Digits base cs ds) (hne : cs ≠ []) (s : List UInt8) :
    Bare (cs ++ s) := by
  cases hcs with
  | nil => exact absurd rfl hne
  | cons hc _ => exact digit_bare hc _

/-- A string that starts with a number starts with its sign and digits once the blanks are gone. -/
theorem Numeral.dropWhile (n : Numeral) (rest : List UInt8) :
    (n.text ++ rest).dropWhile isspace = n.sign.text ++ (n.chars ++ rest) := by
  rw [Numeral.text, List.append_assoc, List.append_assoc]
  exact dropWhile_blanks n.blank (sign_not_space fun _ => digits_bare n.decimal n.nonempty rest)

theorem Numeral.text_not_bare {n : Numeral} (h : n.blanks ≠ [] ∨ n.sign ≠ .none)
    (rest : List UInt8) : ¬Bare (n.text ++ rest) := by
  rintro ⟨hspace, hm, hp⟩
  unfold Numeral.text at hspace hm hp
  cases hb : n.blanks with
  | cons c blanks =>
    have hc := n.blank c (by rw [hb]; exact List.mem_cons_self)
    rw [hb] at hspace
    exact Bool.false_ne_true (hspace.symm.trans hc)
  | nil =>
    rw [hb] at hm hp
    rcases h with h | h
    · exact h hb
    · cases hs : n.sign with
      | none => exact h hs
      | plus => exact hp (by rw [hs]; rfl)
      | minus => exact hm (by rw [hs]; rfl)

/-- `strtol` reads a number to its last digit. -/
theorem strtol_numeral (n : Numeral) (hrest : NoDigit 10 rest) :
    strtol (n.text ++ rest) 10 = (n.value, rest) := by
  have hbare := digits_bare n.decimal n.nonempty rest
  have hread : ∀ {sign : Sign}, strtoul (sign.text ++ (n.chars ++ rest)) 10 =
      (sign.wrap (min (valueFrom 10 0 n.digits) ulongMax), rest) := fun {sign} =>
    @strtoul_parts 10 10 [] _ n.chars rest sign _ nofun (fun _ => hbare) (readBase_ten _)
      (by decide) n.decimal hrest
  have hsplit : n.text ++ rest = n.blanks ++ (n.sign.text ++ (n.chars ++ rest)) := by
    rw [Numeral.text, List.append_assoc, List.append_assoc]
  have hspace := sign_not_space (fun _ : n.sign = .none => hbare)
  rw [hsplit, Numeral.value, Numeral.magnitude]
  cases hs : n.sign with
  | minus =>
    rw [show Sign.minus.text ++ (n.chars ++ rest) = chMinus :: (Sign.none.text ++ (n.chars ++ rest))
      from rfl, strtol_minus n.blank, hread]
    exact congrArg (·, rest) (toLong_minus _)
  | none =>
    rw [hs] at hspace
    rw [strtol_plain n.blank hspace hbare.2.1, hread]
    exact congrArg (·, rest) (toLong_plain _)
  | plus =>
    have hplus : Sign.plus.text ++ (n.chars ++ rest) = chPlus :: (n.chars ++ rest) := rfl
    have hm : deref (chPlus :: (n.chars ++ rest)) ≠ chMinus := (by decide : chPlus ≠ chMinus)
    rw [strtol_plain n.blank rfl (hplus ▸ hm), hread]
    exact congrArg (·, rest) (toLong_plain _)

/-- After the longest prefix of the form there is no digit. -/
theorem Numeral.Longest.noDigit {n : Numeral} (h : n.Longest (n.text ++ rest)) :
    NoDigit 10 rest := by
  intro c hc
  by_contra hdigit
  obtain ⟨d, hd⟩ := Option.ne_none_iff_exists'.mp hdigit
  obtain ⟨rest, rfl⟩ : ∃ r, rest = c :: r := by
    cases rest with
    | nil => cases hc
    | cons c' r =>
      rw [List.head?_cons, Option.mem_some_iff] at hc
      exact ⟨r, by rw [hc]⟩
  let longer : Numeral :=
    ⟨n.blanks, n.sign, n.chars ++ [c], n.digits ++ [d], n.blank, by simp,
      List.rel_append n.decimal (.cons hd .nil)⟩
  have htext : longer.text = n.text ++ [c] := by simp [longer, Numeral.text]
  have hle := h.2 longer ⟨rest, by rw [htext, List.append_assoc]; rfl⟩
  rw [htext, List.length_append] at hle
  exact absurd hle (by simp)

/-- A second sign: nothing of the form is there. -/
theorem SecondSign.no_numeral {s : List UInt8} (h : SecondSign s) (n' : Numeral) :
    ¬n'.text <+: s := by
  obtain ⟨blanks, n, rest, hb, -, rfl, hsecond, -⟩ := h
  rintro ⟨rest', hs⟩
  have hdrop := n'.dropWhile rest'
  rw [hs, dropWhile_blanks hb (rfl : isspace (deref (chMinus :: _)) = false)] at hdrop
  have hbare := digits_bare n'.decimal n'.nonempty rest'
  have hminus := (text_minus_iff (fun _ : n'.sign = .none => hbare)).mp (by rw [← hdrop]; rfl)
  rw [hminus] at hdrop
  have htail : n.text ++ rest = n'.chars ++ rest' := (List.cons.inj hdrop).2
  rw [← htail] at hbare
  exact Numeral.text_not_bare hsecond rest hbare

/-- A minus sign before another number. -/
theorem strtol_minus_numeral (hb : Blanks blanks) (n : Numeral) (hrest : NoDigit 10 rest) :
    (strtol (blanks ++ chMinus :: (n.text ++ rest)) 10).1 = 0 ↔ n.magnitude = 0 := by
  have hbare := digits_bare n.decimal n.nonempty rest
  have hread : strtoul (n.text ++ rest) 10 = (n.sign.wrap (min n.magnitude ulongMax), rest) := by
    rw [Numeral.text, List.append_assoc, List.append_assoc]
    exact strtoul_parts n.blank (fun _ => hbare) (readBase_ten _) (by decide) n.decimal hrest
  rw [strtol_minus hb, hread, Sign.wrap_eq]
  unfold toLong negUlong ulongMax
  dsimp only
  split_ifs <;> omega

end Parts

theorem strtoul_no_digits {blanks rest : List UInt8} {sign : Sign} (hb : Blanks blanks)
    (hbare : sign = .none → Bare rest) (hrest : NoDigit 10 rest) :
    strtoul (blanks ++ (sign.text ++ rest)) 10 = (0, rest) := by
  have h :=
    @strtoul_parts 10 10 blanks rest [] rest sign [] hb hbare (readBase_ten _)
      (by decide) .nil hrest
  rw [h, Sign.wrap_eq]
  split <;> rfl

/-- Where nothing of the form is there, the result is 0 but for a second sign. -/
theorem strtol_nothing {s : List UInt8} (hnone : ∀ n : Numeral, ¬n.text <+: s) (h : ¬SecondSign s) :
    (strtol s 10).1 = 0 := by
  obtain ⟨blanks, t, rfl, hb, ht⟩ := exists_blanks s
  by_cases hm : deref t = chMinus
  · obtain ⟨u, rfl⟩ : ∃ u, t = chMinus :: u := by
      cases t with
      | nil => exact absurd hm (by decide)
      | cons c u => exact ⟨u, by rw [show c = chMinus from hm]⟩
    obtain ⟨blanks', t', rfl, hb', ht'⟩ := exists_blanks u
    obtain ⟨sign, w, rfl, hbare⟩ := exists_sign ht'
    obtain ⟨cs, ds, rest, rfl, hcs, hrest⟩ := exists_digits 10 w
    by_cases hne : cs = []
    · subst hne
      have hread : strtoul (blanks' ++ (sign.text ++ ([] ++ rest))) 10 = (0, rest) :=
        strtoul_no_digits hb' hbare hrest
      rw [strtol_minus hb, hread]
      dsimp only
      rw [Nat.zero_min]
      decide
    -- a number is there: it has a sign or blanks of its own, so it is 0
    let n : Numeral := ⟨blanks', sign, cs, ds, hb', hne, hcs⟩
    have htext : blanks' ++ (sign.text ++ (cs ++ rest)) = n.text ++ rest := by
      simp [n, Numeral.text]
    rw [htext] at hnone h ⊢
    by_cases hown : n.blanks ≠ [] ∨ n.sign ≠ .none
    · refine (strtol_minus_numeral hb n hrest).mpr ?_
      by_contra hvalue
      exact h ⟨blanks, n, rest, hb, hrest, rfl, hown, hvalue⟩
    · rw [not_or, not_not, not_not] at hown
      refine absurd ?_ (hnone ⟨blanks, .minus, cs, ds, hb, hne, hcs⟩)
      refine ⟨rest, ?_⟩
      rw [Numeral.text, Numeral.text, hown.1, hown.2]
      simp [Sign.text, n]
  · obtain ⟨sign, w, rfl, hbare⟩ := exists_sign ht
    obtain ⟨cs, ds, rest, rfl, hcs, hrest⟩ := exists_digits 10 w
    by_cases hne : cs = []
    · subst hne
      rw [List.nil_append] at ht hm hbare ⊢
      have hread : strtoul (sign.text ++ rest) 10 = (0, rest) :=
        @strtoul_no_digits [] rest sign nofun hbare hrest
      rw [strtol_plain hb ht hm, hread]
      rfl
    · refine absurd ?_ (hnone ⟨blanks, sign, cs, ds, hb, hne, hcs⟩)
      exact ⟨rest, by simp [Numeral.text]⟩

/-- **`strtol` and the grammar**: in base 10, `strtol` reads the longest prefix that is blanks, a
sign that may be absent and digits, and returns its value clamped to a `long`, or 0 if there is no
such prefix, except where a minus sign is followed by a number with a sign or blanks of its own. -/
theorem strtol_reads_iff (s : List UInt8) : Reads s (strtol s 10) ↔ ¬SecondSign s := by
  constructor
  · intro h hsecond
    have hzero := h.nothing hsecond.no_numeral
    obtain ⟨blanks, n, rest, hb, hrest, rfl, -, hvalue⟩ := hsecond
    exact hvalue ((strtol_minus_numeral hb n hrest).mp hzero)
  · intro h
    refine ⟨fun n hlong => ?_, fun hnone => strtol_nothing hnone h⟩
    obtain ⟨rest, rfl⟩ := hlong.1
    rw [strtol_numeral n hlong.noDigit]
    exact ⟨rfl, rfl⟩

/-- The string `- 5`. -/
def minusBlankFive : List UInt8 := [chMinus, 32, 53]

/-- There is a minus sign, a blank and then the 5, so that nothing of the form is there, and
`strtol` returns -5. -/
theorem strtol_minusBlankFive : (strtol minusBlankFive 10).1 = -5 ∧
    ¬Reads minusBlankFive (strtol minusBlankFive 10) := by
  have hvalue : (strtol minusBlankFive 10).1 = -5 := by decide
  refine ⟨hvalue, fun h => ?_⟩
  have hsecond : SecondSign minusBlankFive :=
    ⟨[], ⟨[32], .none, [53], [5], by simp [Blanks, isspace], by decide, .cons rfl .nil⟩, [], nofun,
      nofun, rfl, Or.inl (by decide), by decide⟩
  have hzero := h.nothing hsecond.no_numeral
  rw [hvalue] at hzero
  exact absurd hzero (by decide)

end PugOS.Lib
