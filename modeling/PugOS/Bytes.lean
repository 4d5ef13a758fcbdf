import PugOS.Ring
import Mathlib.Tactic.Ring

/-! # Numbers in byte memory

A memory is a function from addresses to bytes.  `getLE` reads a little-endian
number of a given width and `putLE` writes one; a write is read back, and leaves
every byte outside it alone.
-/
namespace Bytes
open Ring

/-- Byte-addressed memory. -/
abbrev Mem : Type := Nat → UInt8

/-- The little-endian number in the `n` bytes at `a`. -/
def getLE (m : Mem) : Nat → Nat → Nat
  | _, 0 => 0
  | a, n + 1 => (m a).toNat + 256 * getLE m (a + 1) n

/-- `m` with the `n` bytes at `a` set to the little-endian number `v`. -/
def putLE (m : Mem) (a n v : Nat) : Mem :=
  fun x => if a ≤ x ∧ x < a + n then UInt8.ofNat (v / 256 ^ (x - a)) else m x

variable {m m' : Mem} {a n v x : Nat}

theorem getLE_congr (h : ∀ x, a ≤ x → x < a + n → m x = m' x) : getLE m a n = getLE m' a n := by
  induction n generalizing a with
  | zero => rfl
  | succ n ih =>
    have htail := @ih (a + 1) (fun x h₁ h₂ => h x (by omega) (by omega))
    rw [getLE, getLE, h a (by omega) (by omega), htail]

theorem getLE_lt (m : Mem) (a n : Nat) : getLE m a n < 256 ^ n := by
  induction n generalizing a with
  | zero => simp [getLE]
  | succ n ih =>
    have h₁ := ih (a + 1)
    have h₂ := (m a).toNat_lt
    rw [getLE, Nat.pow_succ]
    omega

theorem putLE_of_not_mem (h : x < a ∨ a + n ≤ x) : putLE m a n v x = m x := by
  unfold putLE
  rw [if_neg (by omega)]

/-- A number that fits is read back. -/
theorem getLE_putLE (m : Mem) (a : Nat) (h : v < 256 ^ n) : getLE (putLE m a n v) a n = v := by
  -- the bytes from `a + i` on hold `v / 256 ^ i`
  have key : ∀ k i, i + k = n → getLE (putLE m a n v) (a + i) k = v / 256 ^ i % 256 ^ k := by
    intro k
    induction k with
    | zero => intro i _; simp [getLE, Nat.mod_one]
    | succ k ih =>
      intro i hi
      have hbyte : (putLE m a n v (a + i)).toNat = v / 256 ^ i % 256 := by
        unfold putLE
        rw [if_pos (by omega), Nat.add_sub_cancel_left, UInt8.toNat_ofNat']
      have hrest := ih (i + 1) (by omega)
      rw [getLE, hbyte, Nat.add_assoc, hrest, Nat.pow_succ, ← Nat.div_div_eq_div_mul,
        Nat.pow_succ, Nat.mul_comm (256 ^ k) 256, Nat.mod_mul]
  have := key n 0 (by omega)
  simpa [Nat.mod_eq_of_lt h] using this

theorem getLE_putLE_frame {b k : Nat} (h : b + k ≤ a ∨ a + n ≤ b) :
    getLE (putLE m a n v) b k = getLE m b k :=
  getLE_congr fun _ _ _ => putLE_of_not_mem (by omega)

theorem getLE_byte {k : Nat} (m : Mem) (h : k < n) :
    getLE m a n / 256 ^ k % 256 = (m (a + k)).toNat := by
  induction n generalizing a k with
  | zero => exact absurd h (Nat.not_lt_zero k)
  | succ n ih =>
    have hbyte := (m a).toNat_lt
    cases k with
    | zero =>
      rw [getLE, Nat.pow_zero, Nat.div_one]
      change _ = (m a).toNat
      omega
    | succ k =>
      have hrest : ((m a).toNat + 256 * getLE m (a + 1) n) / 256 = getLE m (a + 1) n := by omega
      rw [getLE, Nat.pow_succ, Nat.mul_comm (256 ^ k), ← Nat.div_div_eq_div_mul, hrest,
        ih (Nat.lt_of_succ_lt_succ h), Nat.add_assoc, Nat.add_comm 1 k]

/-- Writing what is there changes nothing. -/
theorem putLE_getLE (m : Mem) (a n : Nat) : putLE m a n (getLE m a n) = m := by
  funext x
  unfold putLE
  by_cases h : a ≤ x ∧ x < a + n
  · rw [if_pos h, ← UInt8.toNat_inj, UInt8.toNat_ofNat', getLE_byte m (by omega),
      Nat.add_sub_cancel' h.1]
  · rw [if_neg h]

theorem getLE_zero (h : ∀ x, a ≤ x → x < a + n → m x = 0) : getLE m a n = 0 := by
  induction n generalizing a with
  | zero => rfl
  | succ n ih =>
    rw [getLE, h a (by omega) (by omega), @ih (a + 1) fun x h₁ h₂ => h x (by omega) (by omega)]
    rfl

theorem store_replicate {c : UInt8} (h₁ : a ≤ x) (h₂ : x < a + n) :
    store m a (List.replicate n c) x = c := by
  have h : a ≤ x ∧ x < a + (List.replicate n c).length := by
    rw [List.length_replicate]
    exact ⟨h₁, h₂⟩
  unfold store
  rw [dif_pos h]
  exact List.getElem_replicate _

/-- The `n` bytes of the little-endian number `v`. -/
def toLE (n v : Nat) : List UInt8 := (List.range n).map fun i => UInt8.ofNat (v / 256 ^ i)

@[simp] theorem length_toLE (n v : Nat) : (toLE n v).length = n := by simp [toLE]

/-- Writing a number is storing its bytes. -/
theorem store_toLE (m : Mem) (a n v : Nat) : store m a (toLE n v) = putLE m a n v := by
  funext x
  unfold store putLE
  by_cases h : a ≤ x ∧ x < a + n
  · rw [dif_pos (by simpa using h), if_pos h]
    simp [toLE]
  · rw [dif_neg (by simpa using h), if_neg h]

theorem slice_congr {f g : Nat → UInt8} (h : ∀ x, a ≤ x → x < a + n → f x = g x) :
    slice f a n = slice g a n := by
  unfold slice
  refine List.map_congr_left fun k hk => ?_
  have := List.mem_range.mp hk
  exact h _ (by omega) (by omega)

/-- Two equal slices agree byte by byte. -/
theorem eq_of_slice_eq {f g : Nat → UInt8} (h : slice f a n = slice g a n) (h₁ : a ≤ x)
    (h₂ : x < a + n) : f x = g x := by
  unfold slice at h
  have hk := List.map_inj_left.mp h (x - a) (List.mem_range.mpr (by omega))
  rwa [show a + (x - a) = x by omega] at hk

theorem slice_add (f : Nat → UInt8) (a n k : Nat) :
    slice f a (n + k) = slice f a n ++ slice f (a + n) k := by
  unfold slice
  rw [List.range_add, List.map_append, List.map_map]
  refine congrArg (_ ++ ·) (List.map_congr_left fun i _ => ?_)
  rw [Function.comp_apply, Nat.add_assoc]

theorem slice_replicate {f : Nat → UInt8} {c : UInt8} (h : ∀ x, a ≤ x → x < a + n → f x = c) :
    slice f a n = List.replicate n c := by
  rw [List.eq_replicate_iff]
  refine ⟨slice_length f a n, fun b hb => ?_⟩
  obtain ⟨k, hk, rfl⟩ := List.mem_map.mp hb
  have := List.mem_range.mp hk
  exact h _ (by omega) (by omega)

/-- The memory with the given numbers, each with its address and width, and zeros
elsewhere. -/
def image : List (Nat × Nat × Nat) → Mem
  | [] => fun _ => 0
  | (a, n, v) :: fields => putLE (image fields) a n v

theorem image_of_not_mem {fields : List (Nat × Nat × Nat)}
    (h : ∀ f ∈ fields, x < f.1 ∨ f.1 + f.2.1 ≤ x) : image fields x = 0 := by
  induction fields with
  | nil => rfl
  | cons f fields ih =>
    obtain ⟨hf, hrest⟩ := List.forall_mem_cons.mp h
    exact (putLE_of_not_mem hf).trans (ih hrest)

/-! ## Parts of a slice -/

theorem getLE_of_slice (h : slice m a n = toLE n v) (hv : v < 256 ^ n) : getLE m a n = v := by
  have hsame : getLE m a n = getLE (putLE m a n v) a n := by
    refine getLE_congr fun x h₁ h₂ => eq_of_slice_eq ?_ h₁ h₂
    have hstored := slice_store m a (toLE n v)
    rw [length_toLE, store_toLE] at hstored
    rw [h, hstored]
  rw [hsame, getLE_putLE m a hv]

theorem slice_take {j : Nat} {l : List UInt8} (h : slice m a n = l) (hj : j ≤ n) :
    slice m a j = l.take j := by
  obtain ⟨d, rfl⟩ := Nat.exists_eq_add_of_le hj
  rw [slice_add] at h
  rw [← h, List.take_append_of_le_length (by rw [slice_length]),
    List.take_of_length_le (by rw [slice_length])]

theorem slice_drop {d : Nat} {l : List UInt8} (h : slice m a (d + n) = l) :
    slice m (a + d) n = l.drop d := by
  rw [slice_add] at h
  rw [← h, List.drop_append_of_le_length (by rw [slice_length]),
    List.drop_of_length_le (by rw [slice_length]), List.nil_append]

theorem getElem?_slice (m : Mem) (a : Nat) {i : Nat} (hi : i < n) :
    (slice m a n)[i]? = some (m (a + i)) := by
  unfold slice
  rw [List.getElem?_map, List.getElem?_range hi]
  rfl

/-- Pieces of one length, one after the other. -/
theorem flatMap_piece {α : Type} {f : α → List UInt8} {d : Nat} :
    ∀ {L : List α}, (∀ x ∈ L, (f x).length = d) →
    ∀ (k : Nat) (h : k < L.length), ((L.flatMap f).drop (k * d)).take d = f L[k] := by
  intro L
  induction L with
  | nil => exact fun _ k h => absurd h (Nat.not_lt_zero k)
  | cons x L ih =>
    intro hlen k hk
    obtain ⟨hx, hlen⟩ := List.forall_mem_cons.mp hlen
    rw [List.flatMap_cons]
    cases k with
    | zero => rw [Nat.zero_mul, List.drop_zero, ← hx, List.take_left, List.getElem_cons_zero]
    | succ k =>
      rw [Nat.succ_mul, Nat.add_comm, ← List.drop_drop, List.drop_left' hx,
        ih hlen k (Nat.lt_of_succ_lt_succ hk), List.getElem_cons_succ]

/-- The string at an address is a name with a NUL after it. -/
theorem string_iff {s name : List UInt8} (h : slice m a n = s ++ List.replicate (n - s.length) 0)
    (hn : s.length < n) (hs : (0 : UInt8) ∉ s) (hname : (0 : UInt8) ∉ name) :
    slice m a (name.length + 1) = name ++ [0] ↔ name = s := by
  have hstring : slice m a (s.length + 1) = s ++ [0] := by
    obtain ⟨d, hd⟩ : ∃ d, n - s.length = d + 1 := ⟨n - s.length - 1, by omega⟩
    rw [slice_take h hn, hd, List.replicate_succ, List.take_append,
      List.take_of_length_le (Nat.le_succ _),
      show s.length + 1 - s.length = 1 by omega]
    rfl
  constructor
  · intro heq
    -- the shorter of the two would have the other's NUL in it
    have hbyte : ∀ {u v : List UInt8}, slice m a (u.length + 1) = u ++ [0] →
        slice m a (v.length + 1) = v ++ [0] → (0 : UInt8) ∉ v → ¬u.length < v.length := by
      intro u v hu hv hzero hlt
      have hnul : some (m (a + u.length)) = some 0 := by
        rw [← getElem?_slice m a (Nat.lt_succ_self u.length), hu,
          List.getElem?_append_right (Nat.le_refl _), Nat.sub_self]
        rfl
      have hin : v[u.length]? = some 0 := by
        rw [← hnul, ← getElem?_slice m a (Nat.lt_succ_of_lt hlt), hv, List.getElem?_append_left hlt]
      exact hzero (List.mem_of_getElem? hin)
    have hlen : name.length = s.length :=
      Nat.le_antisymm (Nat.not_lt.mp (hbyte hstring heq hname))
        (Nat.not_lt.mp (hbyte heq hstring hs))
    rw [hlen, hstring] at heq
    exact (List.append_cancel_right heq).symm
  · rintro rfl
    exact hstring

end Bytes
