import Mathlib.Data.List.Basic
import Mathlib.Data.Nat.ModEq

/-! # Windows of a circular array

An array of `cap` cells read modulo `cap`: the window of length `n` at `i` is
the sequence of cells `i, i + 1, …, i + n - 1`, wrapping at the end.  Contiguous
reads and writes (`slice`, `store`) are what a copy routine does; the lemmas
say what they do to a window.
-/
namespace Ring
variable {α : Type}

/-- The `n` cells from `i` on, without wrapping. -/
def slice (f : Nat → α) (i n : Nat) : List α := (List.range n).map (fun k => f (i + k))

/-- The array with `xs` copied to the cells from `i` on. -/
def store (f : Nat → α) (i : Nat) (xs : List α) : Nat → α :=
  fun k => if h : i ≤ k ∧ k < i + xs.length then xs.get ⟨k - i, by omega⟩ else f k

/-- The `n` cells from `i` on, wrapping at `cap`. -/
def window (f : Nat → α) (cap i n : Nat) : List α :=
  (List.range n).map (fun k => f ((i + k) % cap))

@[simp] theorem slice_length (f : Nat → α) (i n : Nat) : (slice f i n).length = n := by
  simp [slice]

@[simp] theorem window_length (f : Nat → α) (cap i n : Nat) :
    (window f cap i n).length = n := by
  simp [window]

@[simp] theorem window_zero (f : Nat → α) (cap i : Nat) : window f cap i 0 = [] := rfl

/-- A window splits at any point; the second part starts at the wrapped index. -/
theorem window_add (f : Nat → α) (cap i a b : Nat) :
    window f cap i (a + b) = window f cap i a ++ window f cap ((i + a) % cap) b := by
  unfold window
  rw [List.range_add, List.map_append, List.map_map]
  refine congrArg (_ ++ ·) (List.map_congr_left fun k _ => ?_)
  show f ((i + (a + k)) % cap) = f (((i + a) % cap + k) % cap)
  rw [Nat.mod_add_mod, Nat.add_assoc]

/-- A window that does not reach the end is a contiguous slice. -/
theorem window_eq_slice (f : Nat → α) {cap i n : Nat} (h : i + n ≤ cap) :
    window f cap i n = slice f i n := by
  unfold window slice
  refine List.map_congr_left fun k hk => ?_
  rw [Nat.mod_eq_of_lt (by have := List.mem_range.mp hk; omega)]

theorem store_of_not_mem (f : Nat → α) {i k : Nat} (xs : List α)
    (h : ¬ (i ≤ k ∧ k < i + xs.length)) : store f i xs k = f k := dif_neg h

theorem store_getElem (f : Nat → α) (i : Nat) {k : Nat} {xs : List α} (h : k < xs.length) :
    store f i xs (i + k) = xs[k] := by
  unfold store
  rw [dif_pos ⟨by omega, by omega⟩]
  simp only [Nat.add_sub_cancel_left, List.get_eq_getElem]

theorem slice_store (f : Nat → α) (i : Nat) (xs : List α) :
    slice (store f i xs) i xs.length = xs := by
  refine List.ext_getElem (by simp) fun k h1 h2 => ?_
  simp only [slice, List.getElem_map, List.getElem_range, store_getElem f i h2]

/-- Wrapped indices at distance less than `cap` are distinct. -/
theorem wrap_ne {cap i a b : Nat} (hab : a < b) (hb : b < a + cap) :
    (i + a) % cap ≠ (i + b) % cap := by
  intro h
  have h1 : (i + a + (b - a)) % cap = (i + a + 0) % cap := by
    rw [show i + a + (b - a) = i + b from by omega, Nat.add_zero, h]
  have h2 : (b - a) % cap = 0 % cap := Nat.ModEq.add_left_cancel' (i + a) h1
  rw [Nat.mod_eq_of_lt (by omega), Nat.zero_mod] at h2
  omega

/-- A write just past a window, within the free cells, leaves the window alone. -/
theorem window_store_frame (f : Nat → α) (cap i n : Nat) (xs : List α)
    (hfit : n + xs.length ≤ cap) (hend : (i + n) % cap + xs.length ≤ cap) :
    window (store f ((i + n) % cap) xs) cap i n = window f cap i n := by
  unfold window
  refine List.map_congr_left fun k hk => store_of_not_mem f xs ?_
  have hk := List.mem_range.mp hk
  rintro ⟨h1, h2⟩
  -- the cell written is the `d`-th one past the window, so it wraps to another index
  obtain ⟨d, hd⟩ := Nat.exists_eq_add_of_le h1
  have hd' : d < xs.length := by omega
  have hlt : (i + k) % cap < cap := Nat.mod_lt _ (by omega)
  have hwrap : (i + (n + d)) % cap = (i + k) % cap := by
    rw [hd, ← Nat.add_assoc, Nat.add_mod, Nat.mod_eq_of_lt (show d < cap by omega),
      Nat.mod_eq_of_lt (show (i + n) % cap + d < cap by omega)]
  exact wrap_ne (show k < n + d by omega) (by omega) hwrap.symm

/-- **Appending to a window.**  A contiguous write just past the window extends it. -/
theorem window_store (f : Nat → α) (cap i n : Nat) (xs : List α)
    (hfit : n + xs.length ≤ cap) (hend : (i + n) % cap + xs.length ≤ cap) :
    window (store f ((i + n) % cap) xs) cap i (n + xs.length) = window f cap i n ++ xs := by
  rw [window_add, window_store_frame f cap i n xs hfit hend, window_eq_slice _ hend, slice_store]

end Ring
