import Mathlib.Data.Nat.Bitwise
import Mathlib.Data.List.Basic

/-! # Division in a shift register

A register of `w` bits holds the remainder of a division over the field of two elements, while a
message goes in one bit at a time, lowest bit first.  The divisor `p` is written without its leading
term and with its bits reversed, so that its highest bit is the constant term.

A step of the register is linear, and it can be undone (`shift_inj`).  So `n` bits can be taken at
once (`feed_bits`), the low bits of a number and the rest of it can be divided apart
(`steps_split`), and two messages that differ only in `w` bits next to each other leave different
remainders (`feed_burst`).
-/
namespace ShiftRegister

/-- One step of the division. -/
def shift (p c : Nat) : Nat := if c % 2 = 1 then (c >>> 1) ^^^ p else c >>> 1

/-- `n` steps. -/
def steps (p : Nat) : Nat → Nat → Nat
  | 0, c => c
  | n + 1, c => steps p n (shift p c)

/-- What a message leaves in the register. -/
def feed (p : Nat) : Nat → List Bool → Nat
  | c, [] => c
  | c, b :: l => feed p (shift p (c ^^^ b.toNat)) l

/-- The `n` lowest bits of a number, the lowest first. -/
def bits : Nat → Nat → List Bool
  | 0, _ => []
  | n + 1, v => decide (v % 2 = 1) :: bits n (v / 2)

/-- The number with the given bits. -/
def value : List Bool → Nat
  | [] => 0
  | b :: l => b.toNat + 2 * value l

/-- `p` is a divisor for a register of `w` bits: it has the highest bit. -/
structure Divisor (w p : Nat) : Prop where
  top : 2 ^ (w - 1) ≤ p
  lt : p < 2 ^ w

variable {p w n k a b c v : Nat} {l l' : List Bool}

/-! ## Steps -/

theorem shift_xor (p a b : Nat) : shift p (a ^^^ b) = shift p a ^^^ shift p b := by
  have hmod : (a ^^^ b) % 2 = (a + b) % 2 := Nat.xor_mod_two_eq
  unfold shift
  rw [hmod, Nat.shiftRight_xor_distrib]
  rcases Nat.mod_two_eq_zero_or_one a with ha | ha <;> rcases Nat.mod_two_eq_zero_or_one b with hb |
    hb
  · rw [if_neg (by omega), if_neg (by omega), if_neg (by omega)]
  · rw [if_pos (by omega), if_neg (by omega), if_pos (by omega), Nat.xor_assoc]
  · rw [if_pos (by omega), if_pos (by omega), if_neg (by omega), Nat.xor_right_comm]
  · rw [if_neg (by omega), if_pos (by omega), if_pos (by omega)]
    -- the divisor is taken off twice
    rw [Nat.xor_assoc, Nat.xor_comm (b >>> 1) p, ← Nat.xor_assoc p p, Nat.xor_self, Nat.zero_xor]

theorem shift_two_mul (p k : Nat) : shift p (2 * k) = k := by
  unfold shift
  rw [if_neg (by omega), Nat.shiftRight_eq_div_pow]
  omega

theorem shift_lt (hp : Divisor w p) (hc : c < 2 ^ w) : shift p c < 2 ^ w := by
  have hhalf : c >>> 1 < 2 ^ w := Nat.lt_of_le_of_lt (Nat.shiftRight_le c 1) hc
  unfold shift
  split
  · exact Nat.xor_lt_two_pow hhalf hp.lt
  · exact hhalf

theorem Divisor.pos (hp : Divisor w p) : 0 < w := by
  by_contra h
  obtain rfl : w = 0 := by omega
  have htop := hp.top
  have hlt := hp.lt
  omega

/-- Nothing but zero is shifted to zero. -/
theorem shift_eq_zero (hp : Divisor w p) (hc : c < 2 ^ w) (h : shift p c = 0) : c = 0 := by
  have hhalf : c >>> 1 < 2 ^ (w - 1) := by
    rw [Nat.shiftRight_eq_div_pow]
    have hpow : 2 ^ w = 2 * 2 ^ (w - 1) := by
      rw [← Nat.pow_succ', Nat.succ_eq_add_one, Nat.sub_add_cancel hp.pos]
    omega
  unfold shift at h
  split at h
  · have heq : c >>> 1 = p := Nat.xor_eq_zero_iff.mp h
    have htop := hp.top
    omega
  · rw [Nat.shiftRight_eq_div_pow] at h
    omega

/-- **A step can be undone.** -/
theorem shift_inj (hp : Divisor w p) (ha : a < 2 ^ w) (hb : b < 2 ^ w) (h : shift p a = shift p b) :
    a = b := by
  have hzero : shift p (a ^^^ b) = 0 := by rw [shift_xor, h, Nat.xor_self]
  exact Nat.xor_eq_zero_iff.mp (shift_eq_zero hp (Nat.xor_lt_two_pow ha hb) hzero)

theorem steps_xor (p n a b : Nat) : steps p n (a ^^^ b) = steps p n a ^^^ steps p n b := by
  induction n generalizing a b with
  | zero => rfl
  | succ n ih => rw [steps, shift_xor, ih, steps, steps]

theorem steps_add (p n k c : Nat) : steps p (n + k) c = steps p k (steps p n c) := by
  induction n generalizing c with
  | zero => rw [Nat.zero_add, steps]
  | succ n ih => rw [Nat.succ_add, steps, ih, steps]

theorem steps_inj (hp : Divisor w p) (ha : a < 2 ^ w) (hb : b < 2 ^ w)
    (h : steps p n a = steps p n b) : a = b := by
  induction n generalizing a b with
  | zero => exact h
  | succ n ih => exact shift_inj hp ha hb (ih (shift_lt hp ha) (shift_lt hp hb) h)

theorem steps_two_pow_mul (p n k : Nat) : steps p n (2 ^ n * k) = k := by
  induction n with
  | zero => rw [Nat.pow_zero, Nat.one_mul, steps]
  | succ n ih => rw [steps, Nat.pow_succ', Nat.mul_assoc, shift_two_mul, ih]

/-- The low bits of a number, and the rest of it. -/
theorem eq_xor_mod (n c : Nat) : c = 2 ^ n * (c / 2 ^ n) ^^^ c % 2 ^ n := by
  refine Nat.eq_of_testBit_eq fun i => ?_
  rw [Nat.testBit_xor, Nat.testBit_two_pow_mul, Nat.testBit_mod_two_pow, Nat.testBit_div_two_pow]
  by_cases h : i < n
  · simp [h, Nat.not_le.mpr h]
  · have hle := Nat.not_lt.mp h
    simp [h, hle]

/-- **The low bits are divided apart from the rest.** -/
theorem steps_split (p n k c : Nat) : steps p (n + k) c = steps p k (c / 2 ^ n) ^^^ steps p (n + k)
    (c % 2 ^ n) := by
  have hrest : steps p (n + k) (2 ^ n * (c / 2 ^ n)) = steps p k (c / 2 ^ n) := by
    rw [steps_add, steps_two_pow_mul]
  rw [← hrest, ← steps_xor, ← eq_xor_mod]

/-! ## Bits -/

@[simp] theorem length_bits (n v : Nat) : (bits n v).length = n := by
  induction n generalizing v with
  | zero => rfl
  | succ n ih => rw [bits, List.length_cons, ih]

theorem toNat_odd (v : Nat) : (decide (v % 2 = 1)).toNat = v % 2 := by
  rcases Nat.mod_two_eq_zero_or_one v with h | h <;> rw [h] <;> rfl

theorem value_bits (h : v < 2 ^ n) : value (bits n v) = v := by
  induction n generalizing v with
  | zero =>
    rw [bits, value]
    omega
  | succ n ih =>
    rw [bits, value, toNat_odd, ih (by rw [Nat.pow_succ] at h; omega)]
    omega

theorem bits_value (l : List Bool) : bits l.length (value l) = l := by
  induction l with
  | nil => rfl
  | cons b l ih =>
    have hmod : decide ((b.toNat + 2 * value l) % 2 = 1) = b := by
      cases b <;> simp
    have hdiv : (b.toNat + 2 * value l) / 2 = value l := by
      have := Bool.toNat_lt b
      omega
    rw [List.length_cons, value, bits, hmod, hdiv, ih]

theorem value_lt (l : List Bool) : value l < 2 ^ l.length := by
  induction l with
  | nil => exact Nat.one_pos
  | cons b l ih =>
    have := Bool.toNat_lt b
    rw [value, List.length_cons, Nat.pow_succ]
    omega

theorem bits_add (h : v < 2 ^ n) (u : Nat) : bits (n + k) (v + 2 ^ n * u) =
    bits n v ++ bits k u := by
  induction n generalizing v with
  | zero =>
    obtain rfl : v = 0 := by omega
    rw [Nat.zero_add, Nat.zero_add, Nat.pow_zero, Nat.one_mul]
    rfl
  | succ n ih =>
    have hpow : v + 2 ^ (n + 1) * u = v + 2 * (2 ^ n * u) := by rw [Nat.pow_succ', Nat.mul_assoc]
    have hmod : (v + 2 * (2 ^ n * u)) % 2 = v % 2 := Nat.add_mul_mod_self_left _ _ _
    have hdiv : (v + 2 * (2 ^ n * u)) / 2 = v / 2 + 2 ^ n * u :=
      Nat.add_mul_div_left _ _ Nat.two_pos
    rw [Nat.succ_add, bits, hpow, hmod, hdiv, ih (by rw [Nat.pow_succ] at h; omega), bits,
      List.cons_append]

/-! ## Messages -/

theorem feed_append (p c : Nat) (l l' : List Bool) :
    feed p c (l ++ l') = feed p (feed p c l) l' := by
  induction l generalizing c with
  | nil => rfl
  | cons b l ih => exact ih _

/-- **Bits can be taken together.** -/
theorem feed_bits (p c : Nat) (h : v < 2 ^ n) : feed p c (bits n v) = steps p n (c ^^^ v) := by
  induction n generalizing c v with
  | zero =>
    obtain rfl : v = 0 := by omega
    rw [Nat.xor_zero]
    rfl
  | succ n ih =>
    have hlow : c ^^^ v = (2 * (v / 2)) ^^^ (c ^^^ v % 2) := by
      have hv : v = 2 * (v / 2) ^^^ v % 2 := by simpa using eq_xor_mod 1 v
      rw [Nat.xor_left_comm, ← hv]
    have hstep : shift p (c ^^^ v) = shift p (c ^^^ v % 2) ^^^ v / 2 := by
      rw [hlow, shift_xor p (2 * (v / 2)), shift_two_mul, Nat.xor_comm]
    rw [bits, feed, toNat_odd, ih _ (by rw [Nat.pow_succ] at h; omega), steps, hstep]

theorem feed_eq_steps (p c : Nat) (l : List Bool) :
    feed p c l = steps p l.length (c ^^^ value l) := by
  rw [← feed_bits p c (value_lt l), bits_value]

theorem xor_bit_lt (hp : Divisor w p) (hc : c < 2 ^ w) (b : Bool) : c ^^^ b.toNat < 2 ^ w := by
  refine Nat.xor_lt_two_pow hc (Nat.lt_of_lt_of_le (Bool.toNat_lt b) ?_)
  exact Nat.pow_le_pow_right Nat.two_pos hp.pos

theorem feed_lt (hp : Divisor w p) (hc : c < 2 ^ w) (l : List Bool) : feed p c l < 2 ^ w := by
  induction l generalizing c with
  | nil => exact hc
  | cons b l ih => exact ih (shift_lt hp (xor_bit_lt hp hc b))

/-- The register before a message can be told from the one after it. -/
theorem feed_inj (hp : Divisor w p) (ha : a < 2 ^ w) (hb : b < 2 ^ w)
    (h : feed p a l = feed p b l) : a = b := by
  induction l generalizing a b with
  | nil => exact h
  | cons β l ih =>
    have ha' := xor_bit_lt hp ha β
    have hb' := xor_bit_lt hp hb β
    have hxor := shift_inj hp ha' hb' (ih (shift_lt hp ha') (shift_lt hp hb') h)
    exact Nat.xor_left_inj.mp hxor

/-- A message no longer than the register can be told from what it leaves. -/
theorem feed_inj_message (hp : Divisor w p) (hc : c < 2 ^ w) (hlen : l.length = l'.length)
    (hw : l.length ≤ w) (h : feed p c l = feed p c l') : l = l' := by
  have hlt : ∀ u : List Bool, u.length ≤ w → c ^^^ value u < 2 ^ w := fun u hu =>
    Nat.xor_lt_two_pow hc (Nat.lt_of_lt_of_le (value_lt u) (Nat.pow_le_pow_right Nat.two_pos hu))
  rw [feed_eq_steps, feed_eq_steps, ← hlen] at h
  have hvalue := Nat.xor_right_inj.mp (steps_inj hp (hlt l hw) (hlt l' (hlen ▸ hw)) h)
  rw [← bits_value l, ← bits_value l', hvalue, hlen]

/-- **A burst leaves another remainder.** -/
theorem feed_burst (hp : Divisor w p) (hc : c < 2 ^ w) {s t : List Bool}
    (hlen : l.length = l'.length) (hw : l.length ≤ w)
    (h : feed p c (s ++ l ++ t) = feed p c (s ++ l' ++ t)) : l = l' := by
  have hs := feed_lt hp hc s
  rw [feed_append, feed_append, feed_append _ _ (s ++ l'), feed_append _ _ s] at h
  exact feed_inj_message hp hs hlen hw (feed_inj hp (feed_lt hp hs l) (feed_lt hp hs l') h)

end ShiftRegister
