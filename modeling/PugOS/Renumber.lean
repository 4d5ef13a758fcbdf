import Mathlib.Data.Set.Finite.Basic
import Mathlib.Data.List.Nodup
import Mathlib.Order.Interval.Finset.Nat

/-! # Tables that renumber

A table of the numbers below `n` in which the entries at some positions are exchanged among
themselves.  Whatever their new order, the table is a permutation of the numbers, and fixes the
other positions.
-/
namespace Renumber

variable {t : List Nat} {n b c : Nat} {ins outs : List Nat}

/-- The entries at `ins` set to `outs`, one after another. -/
def setAll (t : List Nat) (pairs : List (Nat × Nat)) : List Nat :=
  pairs.foldl (fun t x => t.set x.1 x.2) t

/-- The numbers below `n`, with those at `ins` replaced by `outs`. -/
def table (n : Nat) (ins outs : List Nat) : List Nat := setAll (List.range n) (ins.zip outs)

/-- The table has `π b` at every `b` below `n`, and `π` takes no two of them to one number. -/
structure Renumbering (t : List Nat) (n : Nat) (π : Nat → Nat) : Prop where
  get : ∀ b < n, t[b]? = some (π b)
  lt : ∀ b < n, π b < n
  inj : ∀ b < n, ∀ c < n, π b = π c → b = c

theorem setAll_of_not_mem : ∀ {pairs : List (Nat × Nat)} {t : List Nat}, b ∉ pairs.map Prod.fst →
    (setAll t pairs)[b]? = t[b]? := by
  intro pairs
  induction pairs with
  | nil => exact fun _ => rfl
  | cons x pairs ih =>
    intro t hb
    rw [List.map_cons, List.mem_cons, not_or] at hb
    exact (ih hb.2).trans (List.getElem?_set_ne (Ne.symm hb.1))

theorem setAll_length :
    ∀ {pairs : List (Nat × Nat)} {t : List Nat}, (setAll t pairs).length = t.length := by
  intro pairs
  induction pairs with
  | nil => exact rfl
  | cons x pairs ih => exact ih.trans List.length_set

/-- The last pair for a position is the only one. -/
theorem setAll_of_mem : ∀ {pairs : List (Nat × Nat)} {t : List Nat}, (pairs.map Prod.fst).Nodup →
    (b, c) ∈ pairs → b < t.length → (setAll t pairs)[b]? = some c := by
  intro pairs
  induction pairs with
  | nil => exact fun _ h => absurd h List.not_mem_nil
  | cons x pairs ih =>
    intro t hnodup hmem hlt
    rw [List.map_cons, List.nodup_cons] at hnodup
    rcases List.mem_cons.mp hmem with rfl | hmem
    · exact (setAll_of_not_mem hnodup.1).trans (List.getElem?_set_self hlt)
    · exact ih hnodup.2 hmem (by rwa [List.length_set])

/-- A position has a pair in the zip of two lists of one length. -/
theorem exists_zip (hlen : ins.length = outs.length) (hb : b ∈ ins) :
    ∃ c, (b, c) ∈ ins.zip outs := by
  obtain ⟨i, hi, rfl⟩ := List.getElem_of_mem hb
  refine ⟨outs[i], List.mem_iff_getElem.mpr ⟨i, ?_, List.getElem_zip⟩⟩
  rw [List.length_zip]
  omega

/-- Two pairs with one second entry are the same. -/
theorem zip_unique (hnodup : outs.Nodup) {b' : Nat} (h : (b, c) ∈ ins.zip outs)
    (h' : (b', c) ∈ ins.zip outs) : b = b' := by
  obtain ⟨i, hi, hx⟩ := List.getElem_of_mem h
  obtain ⟨j, hj, hy⟩ := List.getElem_of_mem h'
  rw [List.getElem_zip] at hx hy
  obtain ⟨hb, hc⟩ := Prod.mk.inj hx
  obtain ⟨hb', hc'⟩ := Prod.mk.inj hy
  obtain rfl := (List.Nodup.getElem_inj_iff hnodup).mp (hc.trans hc'.symm)
  exact hb.symm.trans hb'

/-- **Whatever the order is, the table is a permutation.** -/
theorem table_renumbering (hnodup : ins.Nodup) (hlt : ∀ b ∈ ins, b < n) (hperm : outs.Perm ins) :
    ∃ π, Renumbering (table n ins outs) n π ∧ ∀ b, b ∉ ins → π b = b := by
  have hlen : ins.length = outs.length := hperm.length_eq.symm
  have hfst : (ins.zip outs).map Prod.fst = ins := List.map_fst_zip (Nat.le_of_eq hlen)
  have hin : ∀ {b c : Nat}, (b, c) ∈ ins.zip outs → b < n →
      (table n ins outs)[b]? = some c := fun h hb =>
    setAll_of_mem (hfst.symm ▸ hnodup) h (by rwa [List.length_range])
  have hout : ∀ {b : Nat}, b ∉ ins → b < n → (table n ins outs)[b]? = some b := fun h hb =>
    (setAll_of_not_mem (hfst.symm ▸ h)).trans (List.getElem?_range hb)
  let π : Nat → Nat := fun b => ((table n ins outs)[b]?).getD b
  have hπin : ∀ {b c : Nat}, (b, c) ∈ ins.zip outs → b < n → π b = c := fun h hb => by
    simp only [π, hin h hb, Option.getD_some]
  have hπout : ∀ {b : Nat}, b ∉ ins → b < n → π b = b := fun h hb => by
    simp only [π, hout h hb, Option.getD_some]
  have hmem : ∀ {b c : Nat}, (b, c) ∈ ins.zip outs → c ∈ ins :=
    fun h => hperm.subset (List.of_mem_zip h).2
  have hnodup' : outs.Nodup := hperm.nodup_iff.mpr hnodup
  refine ⟨π, ⟨fun b hb => ?_, fun b hb => ?_, fun b hb b' hb' heq => ?_⟩, fun b hb => ?_⟩
  · by_cases h : b ∈ ins
    · obtain ⟨c, hc⟩ := exists_zip hlen h
      rw [hπin hc hb, hin hc hb]
    · rw [hπout h hb, hout h hb]
  · by_cases h : b ∈ ins
    · obtain ⟨c, hc⟩ := exists_zip hlen h
      rw [hπin hc hb]
      exact hlt c (hmem hc)
    · rwa [hπout h hb]
  · by_cases h : b ∈ ins <;> by_cases h' : b' ∈ ins
    · obtain ⟨c, hc⟩ := exists_zip hlen h
      obtain ⟨c', hc'⟩ := exists_zip hlen h'
      rw [hπin hc hb, hπin hc' hb'] at heq
      subst heq
      exact zip_unique hnodup' hc hc'
    · obtain ⟨c, hc⟩ := exists_zip hlen h
      rw [hπin hc hb, hπout h' hb'] at heq
      exact absurd (heq ▸ hmem hc) h'
    · obtain ⟨c', hc'⟩ := exists_zip hlen h'
      rw [hπout h hb, hπin hc' hb'] at heq
      exact absurd (heq ▸ hmem hc') h
    · rwa [hπout h hb, hπout h' hb'] at heq
  · by_cases hn : b < n
    · exact hπout hb hn
    · have hnone : (table n ins outs)[b]? = none := by
        refine List.getElem?_eq_none ?_
        unfold table
        rw [setAll_length, List.length_range]
        exact Nat.not_lt.mp hn
      simp only [π, hnone, Option.getD_none]

/-- Every number below `n` is some number's new one. -/
theorem Renumbering.surj {π : Nat → Nat} (h : Renumbering t n π) (hc : c < n) :
    ∃ b < n, π b = c := by
  have hinj : Set.InjOn π (Finset.range n) := fun b hb c hc heq =>
    h.inj b (Finset.mem_range.mp hb) c (Finset.mem_range.mp hc) heq
  have hmaps : Set.MapsTo π (Finset.range n) (Finset.range n) := fun b hb =>
    Finset.mem_range.mpr (h.lt b (Finset.mem_range.mp hb))
  obtain ⟨b, hb, rfl⟩ :=
    Finset.surjOn_of_injOn_of_card_le π hmaps hinj (Nat.le_refl _) (Finset.mem_range.mpr hc)
  exact ⟨b, Finset.mem_range.mp hb, rfl⟩

end Renumber
