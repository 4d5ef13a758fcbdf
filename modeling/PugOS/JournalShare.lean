import PugOS.JournalTid

/-! # Where the data of the metablocks lies

The data of a metablock follows it in the journal, round its end, one block for each
journaled reference (`dataRange`).  `nb_` may be any `unsigned`: in a journal of almost
`2 ^ 32` blocks the sum `bi + delta` wraps before the remainder is taken, and
`blockAfter` says where the code then looks.

A data block does not look like a metablock when its reference is checked.  Later
metablocks of the journal are still as on disk then and accepted ones are never changed,
so no data block is an accepted metablock at the end (`Spaced`).  The blocks between a
metablock and its last data block are all its data blocks, so two metablocks with a data
block in common would have one of them among the data blocks of the other
(`Spaced.apart`).
-/
namespace PugOS.Journal
open Bytes Ring

variable {m d : Mem} {b b' bi r nb δ δ' : Nat}

/-- `(bi + delta) % nb_`, in `unsigned`. -/
def blockAfter (nb bi δ : Nat) : Nat := (bi + δ) % 2 ^ 32 % nb

/-- The journal blocks that hold the journaled data of block `bi`, from the one after it
on. -/
def dataRange (m : Mem) (nb bi : Nat) : List Nat :=
  (List.range' 1 (delta m bi (nref m bi) - 1)).map (blockAfter nb bi)

theorem blockAfter_lt (hnb : 0 < nb) (bi δ : Nat) : blockAfter nb bi δ < nb := Nat.mod_lt _ hnb

/-- A block that is not round the end is found as it is. -/
theorem blockAfter_of_lt (hnb : nb < 2 ^ 32) (h : bi + δ < nb) : blockAfter nb bi δ = bi + δ := by
  unfold blockAfter
  rw [Nat.mod_eq_of_lt (Nat.lt_trans h hnb), Nat.mod_eq_of_lt h]

/-- Where the count is round the end: the sum is reduced by the number of blocks, or has
wrapped. -/
def Round (nb N sum : Nat) : Prop := (N = nb ∧ sum < 2 ^ 32) ∨ N = 2 ^ 32

theorem blockAfter_round {N x : Nat} (hN : Round nb N (bi + δ)) (hx : x < nb)
    (hnb : nb < 2 ^ 32) (h : bi + δ = x + N) : blockAfter nb bi δ = x := by
  unfold blockAfter
  rcases hN with ⟨rfl, hsum⟩ | rfl
  · rw [Nat.mod_eq_of_lt hsum, h, Nat.add_mod_right, Nat.mod_eq_of_lt hx]
  · rw [h, Nat.add_mod_right, Nat.mod_eq_of_lt (Nat.lt_trans hx hnb), Nat.mod_eq_of_lt hx]

theorem exists_round (hnb : nb < 2 ^ 32) (hbi : bi < nb) (hδ : δ < nb) (h : nb ≤ bi + δ) :
    ∃ N, Round nb N (bi + δ) ∧ bi + δ = blockAfter nb bi δ + N := by
  by_cases hsum : bi + δ < 2 ^ 32
  · have hx : bi + δ = bi + δ - nb + nb := (Nat.sub_add_cancel h).symm
    have hN : Round nb nb (bi + δ) := .inl ⟨rfl, hsum⟩
    exact ⟨nb, hN, by rw [blockAfter_round hN (by omega) hnb hx, ← hx]⟩
  · have hx : bi + δ = bi + δ - 2 ^ 32 + 2 ^ 32 := (Nat.sub_add_cancel (by omega)).symm
    have hN : Round nb (2 ^ 32) (bi + δ) := .inr rfl
    exact ⟨2 ^ 32, hN, by rw [blockAfter_round hN (by omega) hnb hx, ← hx]⟩

/-- While no sum wraps, the data follows cyclically. -/
theorem dataRange_cyclic (h : nb + refSize ≤ 2 ^ 32) (hbi : bi < nb) (hn : nref m bi ≤ refSize) :
    dataRange m nb bi = (List.range' 1 (delta m bi (nref m bi) - 1)).map fun δ =>
      (bi + δ) % nb := by
  refine List.map_congr_left fun δ hδ => ?_
  have hle := delta_le m bi (nref m bi)
  have hrange := List.mem_range'_1.mp hδ
  have hsum : (bi + δ) % 2 ^ 32 = bi + δ := Nat.mod_eq_of_lt (by omega)
  rw [blockAfter, hsum]

/-- The data blocks are those of the journaled references. -/
theorem mem_dataRange : b ∈ dataRange m nb bi ↔
    ∃ r < nref m bi, journaled m bi r ∧ blockAfter nb bi (delta m bi r) = b := by
  unfold dataRange
  rw [List.mem_map]
  constructor
  · rintro ⟨δ, hδ, rfl⟩
    have hrange := List.mem_range'_1.mp hδ
    obtain ⟨r, hr, hj, hδ⟩ : ∃ r < nref m bi, journaled m bi r ∧ delta m bi r = δ :=
      exists_delta hrange.1 (by omega)
    exact ⟨r, hr, hj, congrArg _ hδ⟩
  · rintro ⟨r, hr, hj, rfl⟩
    have hlt : delta m bi r < delta m bi (nref m bi) := delta_lt hr hj
    have hpos : 1 ≤ delta m bi r := Nat.le_add_right 1 _
    exact ⟨_, List.mem_range'_1.mpr (by omega), rfl⟩

/-! ## The analysis -/

/-- When the blocks below `k` have been looked at, the data blocks of the accepted
metablocks lie in the journal and do not look like metablocks, which these still do. -/
structure Spaced (d : Mem) (nb k : Nat) (s : Replayer) : Prop where
  length : s.nb = nb
  kept : Kept d k s
  nref : ∀ bi ∈ s.mr, nref d bi ≤ refSize
  potential : ∀ bi ∈ s.mr, isPotentialMetablock d bi = true
  data : s.ok = true → ∀ bi ∈ s.mr, ∀ r < Journal.nref d bi, journaled d bi r →
    delta d bi r < nb ∧ isPotentialMetablock s.jd (blockAfter nb bi (delta d bi r)) = false

theorem analyzeBlock_spaced {k : Nat} {s : Replayer} (h : Spaced d nb k s) :
    Spaced d nb (k + 1) (analyzeBlock s k) := by
  have hsame : SameBlock s.jd d k := h.kept.same k (.inl (Nat.le_refl k))
  have hkept := analyzeBlock_kept h.kept
  by_cases hpot : isPotentialMetablock s.jd k = true
  · have hscan := scan_scanned s k
    rcases analyzeBlock_cases s hpot with ⟨he, hx⟩ | ⟨he, hx⟩
    · -- the metablock is rejected, and is no data block of an accepted one
      rw [hx] at hkept ⊢
      have hmr : (scan s k).1.mr = s.mr := hscan.mr
      refine ⟨hscan.nb.trans h.length, hkept, hmr ▸ h.nref, hmr ▸ h.potential, ?_⟩
      intro hok bi hbi r hr hj
      rw [hmr] at hbi
      obtain ⟨hδ, hdata⟩ := h.data (hscan.ok hok).1 bi hbi r hr hj
      refine ⟨hδ, ?_⟩
      have hne : blockAfter nb bi (delta d bi r) ≠ k := by
        intro heq
        rw [heq, hpot] at hdata
        cases hdata
      rw [((scan_touched s k).sameBlock hne).isPotentialMetablock]
      exact hdata
    · -- the metablock is accepted, and the memory is as it was
      rw [hx] at hkept ⊢
      obtain ⟨hjd, hcf, -, -, hnref⟩ := scan_clean he
      rw [hsame.nref] at hnref
      refine ⟨hscan.nb.trans h.length, hkept, ?_, ?_, ?_⟩
      · intro bi hbi
        rcases mem_insertMeta.mp hbi with rfl | hbi
        · exact hnref
        · exact h.nref bi hbi
      · intro bi hbi
        rcases mem_insertMeta.mp hbi with rfl | hbi
        · exact hsame.isPotentialMetablock ▸ hpot
        · exact h.potential bi hbi
      · intro hok bi hbi r hr hj
        dsimp only at hok ⊢
        rw [hjd]
        rcases mem_insertMeta.mp hbi with rfl | hbi
        · have hr' : r < refSize := Nat.lt_of_lt_of_le hr hnref
          have hjr : journaled (checkFlags s.jd bi) bi r = true := by
            rw [hcf, hsame.journaled hr']
            exact hj
          have hδ : delta (checkFlags s.jd bi) bi r = delta d bi r := by
            rw [hcf, hsame.delta (Nat.le_of_lt hr')]
          have hrs : r < Journal.nref s.jd bi := hsame.nref ▸ hr
          have hlt := (hscan.ok hok).2 r hrs hjr
          have hdata := (Bool.or_eq_false_iff.mp (hscan.data he r hrs hjr)).1
          dsimp only at hlt hdata
          rw [hδ, h.length] at hlt hdata
          rw [hcf] at hdata
          exact ⟨hlt, hdata⟩
        · exact h.data (hscan.ok hok).1 bi hbi r hr hj
  · have hs : analyzeBlock s k = s := by
      unfold analyzeBlock
      rw [if_neg hpot]
    rw [hs] at hkept ⊢
    exact ⟨h.length, hkept, h.nref, h.potential, h.data⟩

theorem blocks_spaced (d : Mem) (nb k : Nat) :
    Spaced d nb k ((List.range k).foldl analyzeBlock (start d nb)) := by
  induction k with
  | zero => exact ⟨rfl, blocks_kept d nb 0, nofun, nofun, nofun⟩
  | succ k ih =>
    rw [List.range_succ, List.foldl_append, List.foldl_cons, List.foldl_nil]
    exact analyzeBlock_spaced ih

theorem looked_spaced (d : Mem) (nb : Nat) : Spaced d nb nb (looked d nb) := blocks_spaced d nb nb

theorem Spaced.asDisk {k : Nat} {s : Replayer} (h : Spaced d nb k s) : AsDisk d s :=
  ⟨fun bi hbi => h.kept.same bi (.inr hbi), h.nref⟩

/-! ## Data blocks -/

section Apart
variable {s : Replayer} (h : Spaced d nb nb s) (hok : s.ok = true)
include h hok

/-- No data block is an accepted metablock. -/
theorem Spaced.not_meta (hb : b ∈ s.mr) (hb' : b' ∈ s.mr) : b' ∉ dataRange d nb b := by
  intro hmem
  obtain ⟨r, hr, hj, rfl⟩ := mem_dataRange.mp hmem
  have hdata := (h.data hok b hb r hr hj).2
  rw [(h.kept.same _ (.inr hb')).isPotentialMetablock, h.potential _ hb'] at hdata
  cases hdata

/-- The block `δ` after `b`, not behind its last data block, is no accepted metablock. -/
theorem Spaced.between (hb : b ∈ s.mr) (hb' : b' ∈ s.mr) (h₁ : 1 ≤ δ)
    (h₂ : δ < delta d b (Journal.nref d b)) : blockAfter nb b δ ≠ b' := by
  rintro rfl
  exact h.not_meta hok hb hb' (List.mem_map.mpr ⟨δ, List.mem_range'_1.mpr (by omega), rfl⟩)

/-- Two metablocks, the first before the second, have no data block in common: the second
would be a data block of the first, or the first would be one of the second, round the
end. -/
theorem Spaced.apart (hnb : nb < 2 ^ 32) (hb : b ∈ s.mr) (hb' : b' ∈ s.mr) (hlt : b < b')
    (hr : r < Journal.nref d b) (hj : journaled d b r) {r' : Nat} (hr' : r' < Journal.nref d b')
    (hj' : journaled d b' r') :
    blockAfter nb b (delta d b r) ≠ blockAfter nb b' (delta d b' r') := by
  intro heq
  have hbn := h.kept.lt b' hb'
  have hmax := delta_lt hr hj
  have hmax' := delta_lt hr' hj'
  have hδ' := (h.data hok b' hb' r' hr' hj').1
  generalize delta d b r = δ at heq hmax
  generalize delta d b' r' = δ' at heq hmax' hδ'
  -- the second metablock is not between the first and its data block
  have hnear : b + δ < b' := by
    by_contra hc
    have hne := @Spaced.between _ _ _ _ (b' - b) _ h hok hb hb' (by omega) (by omega)
    rw [blockAfter_of_lt hnb (by omega)] at hne
    omega
  rw [blockAfter_of_lt hnb (by omega)] at heq
  by_cases hend : b' + δ' < nb
  · rw [blockAfter_of_lt hnb hend] at heq
    omega
  -- the second reaches round the end, past the first
  obtain ⟨N, hN, hsum⟩ := exists_round hnb hbn hδ' (Nat.le_of_not_lt hend)
  rw [← heq] at hsum
  have hfirst : b' + (δ' - δ) = b + N := by
    unfold Round at hN
    omega
  have hN' : Round nb N (b' + (δ' - δ)) := hN.imp_left (And.imp_right fun hs => by omega)
  refine @Spaced.between _ _ _ _ (δ' - δ) _ h hok hb' hb ?_ ?_
    (blockAfter_round hN' (by omega) hnb hfirst)
  · unfold Round at hN
    omega
  · omega

end Apart

/-- **Accepted metablocks share no journal block**: their data ranges are disjoint, and
none of them lies in the data range of any. -/
theorem data_ranges_disjoint (hnb : nb < 2 ^ 32) (h : (analyze d nb).2 = true)
    (hb : b ∈ (analyze d nb).1.mr) (hb' : b' ∈ (analyze d nb).1.mr) :
    (b ≠ b' → (dataRange d nb b).Disjoint (dataRange d nb b')) ∧ b' ∉ dataRange d nb b := by
  obtain ⟨hok, hs⟩ := analyze_true h
  have hmr : (analyze d nb).1.mr = (looked d nb).mr := by rw [hs]
  rw [hmr] at hb hb'
  have hsp := looked_spaced d nb
  refine ⟨fun hne x hx hx' => ?_, hsp.not_meta hok hb hb'⟩
  obtain ⟨r, hr, hj, rfl⟩ := mem_dataRange.mp hx
  obtain ⟨r', hr', hj', heq⟩ := mem_dataRange.mp hx'
  rcases Nat.lt_or_gt_of_ne hne with hlt | hlt
  · exact hsp.apart hok hnb hb hb' hlt hr hj hr' hj' heq.symm
  · exact hsp.apart hok hnb hb' hb hlt hr' hj' hr hj heq

/-- One transaction in two metablocks, each with one data block behind it. -/
def interleaved : Mem :=
  image [(0, 8, journalmagic), (8, 4, nochecksum), (24, 2, 0x11), (26, 2, 1), (28, 4, 5),
    (32, 4, nochecksum), (8192, 8, journalmagic), (8200, 4, nochecksum), (8208, 2, 1), (8212, 2, 1),
    (8216, 2, 0x21), (8218, 2, 1), (8220, 4, 6), (8224, 4, nochecksum)]

theorem data_ranges_disjoint_interleaved :
    dataRange interleaved 4 0 = [1] ∧ dataRange interleaved 4 2 = [3] ∧
      (0 ≠ 2 → (dataRange interleaved 4 0).Disjoint (dataRange interleaved 4 2)) ∧
      2 ∉ dataRange interleaved 4 0 :=
  ⟨by decide, by decide, data_ranges_disjoint (by decide) (by decide) (by decide) (by decide)⟩

end PugOS.Journal
