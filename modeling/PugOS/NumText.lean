import PugOS.Printf

/-! # Numbers printed and read

A number goes through `printer_vprintf` and back through `strtol` or `strtoul`: with the directives
that print it alone, the number comes back, in every base in which it is a number there
(`numbers_survive`).

The text has no leading zero but for 0 (`Writes.leading`), so base 0 reads a decimal one in base 10,
and 0 itself in base 8.
-/
namespace PugOS.Lib

/-- `%ld`, `%lu`, `%lx`, `%lX` and `%#lx`. -/
def fmtLd : List UInt8 := [37, 108, 100]

/-- `%lu` -/
def fmtLu : List UInt8 := [37, 108, 117]

/-- `%lx` -/
def fmtLx : List UInt8 := [37, 108, 120]

/-- `%lX` -/
def fmtLX : List UInt8 := [37, 108, 88]

/-- `%#lx` -/
def fmtAltLx : List UInt8 := [37, 35, 108, 120]

/-- An argument list that starts with a word. -/
def oneArg (w : UInt64) : Args := ⟨fun _ => w, fun _ => []⟩

/-- The text that a format prints for one argument. -/
def printed (fmt : List UInt8) (w : UInt64) : Option (List UInt8) :=
  (output 0 fmt (oneArg w)).map (List.map Prod.fst)

variable {w : UInt64}

/-- `%ld` is a signed number. -/
theorem directive_ld : directive fmtLd (oneArg w) 0 0 =
    (signedItem (oneArg w) {} true 0).map fun item => ⟨2, 1, .print (-1) (-1) item⟩ := by
  rfl

/-- `%lu` is an unsigned number in base 10. -/
theorem directive_lu : directive fmtLu (oneArg w) 0 0 =
    (number {} 10 (unsignedArg (oneArg w) true 0)).map fun item =>
    ⟨2, 1, .print (-1) (-1) item⟩ := by
  rfl

/-- `%lx` is one in base 16, with lower-case digits. -/
theorem directive_lx : directive fmtLx (oneArg w) 0 0 =
    (number {} (-16) (unsignedArg (oneArg w) true 0)).map fun item =>
    ⟨2, 1, .print (-1) (-1) item⟩ := by
  rfl

/-- `%lX` is one with upper-case digits. -/
theorem directive_lX : directive fmtLX (oneArg w) 0 0 =
    (number {} 16 (unsignedArg (oneArg w) true 0)).map fun item =>
    ⟨2, 1, .print (-1) (-1) item⟩ := by
  rfl

/-- `%#lx` is one with a prefix. -/
theorem directive_altLx : directive fmtAltLx (oneArg w) 0 0 =
    (number { alt := true } (-16) (unsignedArg (oneArg w) true 0)).map fun item =>
    ⟨3, 1, .print (-1) (-1) item⟩ := by
  rfl

/-! ## The text -/

/-- No digit is NUL. -/
theorem digit_ne_zero {base d : Nat} {c : UInt8} (h : digitOf base c = some d) : c ≠ 0 := by
  rintro rfl
  have hzero : schar 0 = 0 := by decide
  unfold digitOf at h
  rw [hzero, if_neg (by omega), if_neg (by omega), if_neg (by omega)] at h
  cases h

/-- So the digits are a string up to the NUL that `fill_numbuf` puts after them. -/
theorem cstring_digits {base : Nat} {cs : List UInt8} {ds : List Nat} (h : Digits base cs ds) :
    cstring (cs ++ [0]) = cs := by
  induction h with
  | nil => rfl
  | @cons c d cs ds hc _ ih =>
    have hne : decide (c ≠ 0) = true := decide_eq_true (digit_ne_zero hc)
    rw [List.cons_append, cstring, List.takeWhile_cons, if_pos hne]
    exact congrArg (c :: ·) ih

/-- **`fill_numbuf` writes the number** in the base of the conversion, and it fits in the buffer. -/
theorem number_writes (flags : Flags) {base : Int} {num : Nat} (hnum : num < 2 ^ 64)
    (hbase : PrintBase base) :
    ∃ cs, number flags base num = some ⟨{ flags with numeric := true }, base, num, cs⟩ ∧
    Writes base.natAbs num cs ∧
      cs.length < NUMBUFSIZ := by
  obtain ⟨cs, hfill, hwrites, hlen⟩ := fillNumbuf_spec hnum hbase
  obtain ⟨ds, hcs, -⟩ := hwrites.digits
  refine ⟨cs, ?_, hwrites, hlen⟩
  rw [number, hfill, Option.map_some, cstring_digits hcs]

/-- Without a width, a precision and zeros to fill with, a conversion prints its prefix and its
digits. -/
theorem chars_plain {item : Item} (hzero : item.flags.zero = false)
    (hlen : item.data.length < NUMBUFSIZ) :
    item.chars (-1) (-1) = item.prefixChars ++ item.data := by
  have hshort : item.prefixChars.length ≤ 2 := by
    unfold Item.prefixChars
    split_ifs <;> simp
  have hdatalen : item.datalen (-1) = item.data.length := by
    unfold NUMBUFSIZ at hlen
    unfold Item.datalen int32
    rw [if_neg (by omega)]
    omega
  have hzeros : item.zeros (-1) (-1) = 0 := by
    unfold Item.zeros
    rw [if_neg (by omega), if_neg (by simp [hzero])]
  have hpad : item.padding (-1) (-1) < 0 := by
    unfold NUMBUFSIZ at hlen
    unfold Item.padding int32
    rw [hdatalen, hzeros]
    omega
  have hbefore : (if item.flags.leftJustify then 0 else (item.padding (-1) (-1)).toNat) = 0 := by
    rw [Int.toNat_of_nonpos (Int.le_of_lt hpad), ite_self]
  unfold Item.chars
  dsimp only
  rw [hbefore, hzeros, hdatalen, Int.toNat_natCast, List.take_length, Nat.cast_zero, Int.sub_zero,
    Int.toNat_of_nonpos (Int.le_of_lt hpad)]
  simp

/-- What a format of one directive prints. -/
theorem printed_directive {fmt rest : List UInt8} (hfmt : fmt = 37 :: rest) {item : Item}
    (hd : directive fmt (oneArg w) 0 0 = some ⟨rest.length, 1, .print (-1) (-1) item⟩)
    (hzero : item.flags.zero = false) (hlen : item.data.length < NUMBUFSIZ) :
    printed fmt w = some (item.prefixChars ++ item.data) := by
  have hstart : readFormat fmt 0 = some 37 := by
    rw [hfmt]
    rfl
  have hend : readFormat fmt (rest.length + 1) = some 0 := by
    rw [hfmt]
    simp [readFormat]
  have hfuel : fmt.length + 1 = rest.length + 2 := by
    rw [hfmt]
    rfl
  rw [printed, output, vprintf, hfuel, vprintfLoop, hstart, Option.bind_some, if_neg (by decide),
    if_neg (by decide), hd, Option.bind_some]
  dsimp only
  rw [vprintfLoop, hend, Option.bind_some, if_pos rfl, printItem_eq, puts_eq, putAll_collect,
    chars_plain hzero hlen, List.nil_append, Option.map_some, colored, List.map_map]
  exact congrArg some (List.map_id _)

/-! ## Reading it -/

/-- Digits alone are no `0x`, for `x` is no digit. -/
theorem hexPrefix_digits {base : Nat} {cs : List UInt8} {ds : List Nat} (hbase : base ≤ 16)
    (h : Digits base cs ds) : hexPrefix cs = false := by
  have hx : ∀ c : UInt8, c = chLowerX ∨ c = chUpperX → digitOf base c = none := by
    have hlower : schar chLowerX = 120 := by decide
    have hupper : schar chUpperX = 88 := by decide
    rintro c (rfl | rfl) <;> unfold digitOf
    · rw [hlower, if_neg (by omega), if_neg (by omega), if_neg (by omega)]
    · rw [hupper, if_neg (by omega), if_neg (by omega), if_neg (by omega)]
  refine decide_eq_false fun hhex => ?_
  cases h with
  | nil => exact absurd hhex.1 (by decide)
  | cons hc hcs =>
    cases hcs with
    | nil =>
      have hnul : ¬((0 : UInt8) = chLowerX ∨ (0 : UInt8) = chUpperX) := by decide
      exact hnul hhex.2
    | cons hc' hcs => exact absurd (hc'.symm.trans (hx _ hhex.2)) (Option.some_ne_none _)

/-- The end of the string ends the digits. -/
theorem noDigit_nil (base : Nat) : NoDigit base [] := fun _ h => by cases h

section Read
variable {base val : Nat} {cs : List UInt8}

/-- A number of 64 bits does not saturate. -/
theorem min_ulongMax (hval : val < 2 ^ 64) : min val ulongMax = val :=
  Nat.min_eq_left (Nat.le_pred_of_lt hval)

/-- The text of a number is read in its base. -/
theorem strtoul_writes (h : Writes base val cs) (hbase : base = 10 ∨ base = 16)
    (hval : val < 2 ^ 64) : strtoul cs base = (val, []) := by
  obtain ⟨ds, hcs, hds⟩ := h.digits
  have hread : readBase base cs = (base, cs ++ []) := by
    rw [List.append_nil]
    rcases hbase with rfl | rfl
    · exact readBase_ten cs
    · have hhex := hexPrefix_digits (le_refl 16) hcs
      unfold readBase
      rw [if_neg (by decide), if_neg (by simp [hhex])]
  have hbare := digits_bare hcs h.nonempty []
  rw [List.append_nil] at hbare
  have hrun :=
    @strtoul_parts base base [] cs cs [] .none ds nofun (fun _ => hbare) hread (by omega) hcs
      (noDigit_nil base)
  rwa [hds, min_ulongMax hval] at hrun

/-- With `0x` before it, in base 16. -/
theorem strtoul_prefixed (h : Writes 16 val cs) (hval : val < 2 ^ 64) :
    strtoul (48 :: 120 :: cs) 16 = (val, []) := by
  obtain ⟨ds, hcs, hds⟩ := h.digits
  have hread : readBase 16 (48 :: 120 :: cs) = (16, cs ++ []) := by
    rw [List.append_nil]
    rfl
  have hbare : Bare (48 :: 120 :: cs) :=
    ⟨rfl, (by decide : (48 : UInt8) ≠ chMinus), (by decide : (48 : UInt8) ≠ chPlus)⟩
  have hrun := @strtoul_parts 16 16 [] (48 :: 120 :: cs) cs [] .none ds nofun (fun _ => hbare) hread
      (by decide) hcs
    (noDigit_nil 16)
  rwa [hds, min_ulongMax hval] at hrun

/-- In base 0, a decimal text. -/
theorem strtoul_base_zero (h : Writes 10 val cs) (hval : val < 2 ^ 64) :
    (strtoul cs 0).1 = val := by
  obtain ⟨ds, hcs, hds⟩ := h.digits
  by_cases hlead : deref cs = chZero
  · obtain ⟨s, rfl⟩ : ∃ s, cs = chZero :: s := by
      cases cs with
      | nil => exact absurd rfl h.nonempty
      | cons c s => exact ⟨s, by rw [show c = chZero from hlead]⟩
    obtain ⟨rfl, rfl⟩ := h.leading s rfl
    decide
  · have hhex := hexPrefix_digits (by decide) hcs
    have hread : readBase 0 cs = (10, cs ++ []) := by
      rw [List.append_nil]
      unfold readBase
      rw [if_pos rfl, hhex, if_neg Bool.false_ne_true, if_neg hlead]
    have hbare := digits_bare hcs h.nonempty []
    rw [List.append_nil] at hbare
    have hrun :=
      @strtoul_parts 0 10 [] cs cs [] .none ds nofun (fun _ => hbare) hread (by decide) hcs
        (noDigit_nil 10)
    rw [hds, min_ulongMax hval] at hrun
    rw [show cs = [] ++ (Sign.none.text ++ cs) from rfl, hrun]
    rfl

/-- `strtol` of a decimal text, with its sign. -/
theorem strtol_writes (h : Writes 10 val cs) (hval : val ≤ 2 ^ 63) {base : Nat}
    (hbase : base = 10 ∨ base = 0) : (val < 2 ^ 63 → (strtol cs base).1 = val) ∧
    (strtol (chMinus :: cs) base).1 = -val := by
  obtain ⟨ds, hcs, -⟩ := h.digits
  have hbare := digits_bare hcs h.nonempty []
  rw [List.append_nil] at hbare
  have hread : (strtoul cs base).1 = val := by
    rcases hbase with rfl | rfl
    · rw [strtoul_writes h (Or.inl rfl) (by omega)]
    · exact strtoul_base_zero h (by omega)
  constructor
  · intro hlt
    have hrun := @strtol_plain base [] cs nofun hbare.1 hbare.2.1
    rw [List.nil_append] at hrun
    rw [hrun, hread]
    unfold toLong
    dsimp only
    split_ifs <;> omega
  · have hrun := @strtol_minus base [] cs nofun
    rw [List.nil_append] at hrun
    rw [hrun, hread]
    unfold toLong negUlong
    dsimp only
    split_ifs <;> omega

end Read

/-! ## There and back -/

/-- The argument word of a `long`. -/
theorem long_oneArg (n : Int64) : (oneArg n.toUInt64).long 0 = n.toInt := by
  have h : n.toInt = if 2 * n.toBitVec.toNat < 2 ^ 64 then (n.toBitVec.toNat : Int)
      else n.toBitVec.toNat - 2 ^ 64 :=
    BitVec.toInt_eq_toNat_cond n.toBitVec
  rw [h, Args.long, toLong, show (oneArg n.toUInt64).ulong 0 = n.toBitVec.toNat from rfl]
  split_ifs <;> omega

/-- The text of a signed number. -/
theorem printed_ld (n : Int64) :
    ∃ cs, Writes 10 n.toInt.natAbs cs ∧
      printed fmtLd n.toUInt64 = some (if n.toInt < 0 then chMinus :: cs else cs) := by
  have hlo := n.le_toInt
  have hhi := n.toInt_lt
  have hmagnitude : toUlong (if decide (n.toInt < 0) then -n.toInt else n.toInt) =
      n.toInt.natAbs := by
    unfold toUlong
    simp only [decide_eq_true_eq]
    split_ifs <;> omega
  obtain ⟨cs, hnumber, hwrites, hlen⟩ :=
    number_writes { signed := true, negative := decide (n.toInt < 0) }
      (toUlong_lt (if decide (n.toInt < 0) then -n.toInt else n.toInt)) (Or.inl rfl)
  have hd := @directive_ld n.toUInt64
  rw [signedItem, if_pos rfl, long_oneArg, hnumber, Option.map_some] at hd
  rw [hmagnitude] at hwrites
  refine ⟨cs, hwrites, ?_⟩
  rw [printed_directive (rfl : fmtLd = 37 :: _) hd rfl hlen, Item.prefixChars, if_pos ⟨rfl, rfl⟩]
  by_cases hneg : n.toInt < 0
  · rw [if_pos (decide_eq_true hneg), if_pos hneg]
    rfl
  · rw [if_neg (by simpa using hneg), if_neg hneg]
    rfl

/-- **A `long` survives `%ld`**, and is read back in base 10 or with the base left to `strtol`. -/
theorem ld_survives (n : Int64) :
    ∃ s, printed fmtLd n.toUInt64 = some s ∧ (strtol s 10).1 = n.toInt ∧
      (strtol s 0).1 = n.toInt := by
  obtain ⟨cs, hwrites, hprinted⟩ := printed_ld n
  have hlo := n.le_toInt
  have hhi := n.toInt_lt
  have hread : ∀ base, base = 10 ∨ base = 0 →
      (strtol (if n.toInt < 0 then chMinus :: cs else cs) base).1 = n.toInt := by
    intro base hbase
    obtain ⟨hplain, hminus⟩ := strtol_writes hwrites (by omega) hbase
    by_cases hneg : n.toInt < 0
    · rw [if_pos hneg, hminus]
      omega
    · rw [if_neg hneg, hplain (by omega)]
      omega
  exact ⟨_, hprinted, hread 10 (Or.inl rfl), hread 0 (Or.inr rfl)⟩

/-- The bases are 10 and 16, whichever digits are used. -/
theorem PrintBase.natAbs {base : Int} (h : PrintBase base) : base.natAbs = 10 ∨
    base.natAbs = 16 := by
  rcases h with rfl | rfl | rfl
  · exact Or.inl rfl
  · exact Or.inr rfl
  · exact Or.inr rfl

/-- An unsigned number without a prefix. -/
theorem unsigned_survives {u : UInt64} {fmt rest : List UInt8} {base : Int} {radix : Nat}
    (hfmt : fmt = 37 :: rest) (hbase : PrintBase base) (hradix : base.natAbs = radix)
    (hd : directive fmt (oneArg u) 0 0 =
      (number {} base (unsignedArg (oneArg u) true 0)).map fun item =>
      ⟨rest.length, 1, .print (-1) (-1) item⟩) :
    ∃ s, printed fmt u = some s ∧ (strtoul s radix).1 = u.toNat := by
  have hu : unsignedArg (oneArg u) true 0 = u.toNat := rfl
  obtain ⟨cs, hnumber, hwrites, hlen⟩ := number_writes {} u.toNat_lt hbase
  rw [hu, hnumber, Option.map_some] at hd
  have htext := hbase.natAbs
  rw [hradix] at hwrites htext
  refine ⟨_, printed_directive hfmt hd rfl hlen, ?_⟩
  rw [Item.prefixChars, if_neg (by simp), if_neg (by simp)]
  exact congrArg Prod.fst (strtoul_writes hwrites htext u.toNat_lt)

/-- With `%#lx` there is a prefix, which base 16 takes. -/
theorem altLx_survives (u : UInt64) : ∃ s, printed fmtAltLx u = some s ∧
    (strtoul s 16).1 = u.toNat := by
  have hu : unsignedArg (oneArg u) true 0 = u.toNat := rfl
  obtain ⟨cs, hnumber, hwrites, hlen⟩ :=
    number_writes { alt := true } u.toNat_lt (Or.inr (Or.inr rfl))
  have hd := @directive_altLx u
  rw [hu, hnumber, Option.map_some] at hd
  refine ⟨_, printed_directive rfl hd rfl hlen, ?_⟩
  -- 0 is printed without `0x`
  by_cases hzero : u.toNat = 0
  · rw [Item.prefixChars, if_neg (by simp), if_neg (by simp [hzero])]
    exact congrArg Prod.fst (strtoul_writes hwrites (Or.inr rfl) u.toNat_lt)
  · rw [Item.prefixChars, if_neg (by simp), if_pos ⟨rfl, rfl, Or.inr rfl, Or.inl hzero⟩]
    exact congrArg Prod.fst (strtoul_prefixed hwrites u.toNat_lt)

/-- **Numbers survive**: what a directive prints for a number is read as the number, in the bases it
is a number in, and `fill_numbuf` stays in its buffer in each base it is called with. -/
theorem numbers_survive :
    (∀ n : Int64, ∃ s, printed fmtLd n.toUInt64 = some s ∧ (strtol s 10).1 = n.toInt ∧
    (strtol s 0).1 = n.toInt) ∧
    (∀ u : UInt64, (∃ s, printed fmtLu u = some s ∧ (strtoul s 10).1 = u.toNat) ∧
      (∃ s, printed fmtLx u = some s ∧ (strtoul s 16).1 = u.toNat) ∧
      (∃ s, printed fmtLX u = some s ∧ (strtoul s 16).1 = u.toNat) ∧
      (∃ s, printed fmtAltLx u = some s ∧ (strtoul s 16).1 = u.toNat)) ∧
    (∀ (val : UInt64) (base : Int), PrintBase base →
      ∃ numbuf, fillNumbuf NUMBUFSIZ val.toNat base = some numbuf) := by
  refine ⟨ld_survives, fun u => ⟨?_, ?_, ?_, altLx_survives u⟩, fun val base hbase => ?_⟩
  · exact unsigned_survives (rfl : fmtLu = 37 :: _) (Or.inl rfl) rfl directive_lu
  · exact unsigned_survives (rfl : fmtLx = 37 :: _) (Or.inr (Or.inr rfl)) rfl directive_lx
  · exact unsigned_survives (rfl : fmtLX = 37 :: _) (Or.inr (Or.inl rfl)) rfl directive_lX
  · obtain ⟨cs, hcs, -⟩ := fillNumbuf_spec val.toNat_lt hbase
    exact ⟨_, hcs⟩

end PugOS.Lib
