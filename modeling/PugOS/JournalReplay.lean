import PugOS.JournalAnalyze
import PugOS.LastWrite
import Mathlib.Data.List.Nodup
import Mathlib.Data.Nat.Bitwise

/-! # What the replay writes

The marking pass of `analyze` changes nothing but `jbf_overwritten` bits
(`Marked`), and goes through the references from the last one down as the pass of
`LastWrite` does (`markAll_settled`): at its end a reference is marked exactly when
a later reference of a committed transaction is to the same block.  `run` then
writes every committed, journaled, unmarked reference once, from a data block
nothing else uses (`run_writes`).

The data is that of the journal on disk unless the data block was changed by the
analysis, that is, unless it looks like a metablock on disk: a metablock that comes
later in the journal, and reaches round its end, finds it no longer looking like one
once it has been marked (`replay_latest_iff`, `wrapped_replays_marked`).
-/
namespace PugOS.Journal
open Bytes Ring LastWrite

variable {m m₁ d : Mem} {bi r n : Nat} {mr rest : List Nat} {R : List (Nat × Nat)}
  {marked marked' : Nat × Nat → Bool} {e : Nat × Nat}

/-- The references of one metablock below index `n`. -/
def refsBelow (bi n : Nat) : List (Nat × Nat) := (List.range n).map (bi, ·)

/-- All references of the metablocks of `mr`, in order. -/
def refs (m : Mem) (mr : List Nat) : List (Nat × Nat) :=
  mr.flatMap fun bi => refsBelow bi (nref m bi)

theorem mem_refsBelow : e ∈ refsBelow bi n ↔ e.1 = bi ∧ e.2 < n := by
  unfold refsBelow
  rw [List.mem_map]
  constructor
  · rintro ⟨r, hr, rfl⟩
    exact ⟨rfl, List.mem_range.mp hr⟩
  · rintro ⟨rfl, hr⟩
    exact ⟨e.2, List.mem_range.mpr hr, rfl⟩

theorem refsBelow_succ (bi n : Nat) : refsBelow bi (n + 1) = refsBelow bi n ++ [(bi, n)] := by
  simp [refsBelow, List.range_succ]

/-- A reference is a metablock of the list and an index below its `nref`. -/
theorem mem_refs : e ∈ refs m mr ↔ e.1 ∈ mr ∧ e.2 < nref m e.1 := by
  unfold refs
  rw [List.mem_flatMap]
  constructor
  · rintro ⟨bi, hbi, he⟩
    obtain ⟨rfl, hr⟩ := mem_refsBelow.mp he
    exact ⟨hbi, hr⟩
  · rintro ⟨hbi, hr⟩
    exact ⟨e.1, hbi, mem_refsBelow.mpr ⟨rfl, hr⟩⟩

theorem nodup_refsBelow (bi n : Nat) : (refsBelow bi n).Nodup :=
  List.nodup_range.map fun _ _ h => (Prod.mk.inj h).2

/-- Metablocks that are listed once have their references listed once. -/
theorem nodup_refs (h : mr.Nodup) : (refs m mr).Nodup := by
  unfold refs
  rw [List.nodup_flatMap]
  refine ⟨fun bi _ => nodup_refsBelow bi _, h.imp ?_⟩
  intro a b hab x hx hx'
  exact hab ((mem_refsBelow.mp hx).1.symm.trans (mem_refsBelow.mp hx').1)

/-! ## Setting the overwritten bits -/

/-- The references `R` lie inside their blocks. -/
def Inside (R : List (Nat × Nat)) : Prop := ∀ e ∈ R, e.2 < refSize

/-- `m` is `m₁` with `jbf_overwritten` set in the references `marked` holds of. -/
structure Marked (m₁ : Mem) (R : List (Nat × Nat)) (m : Mem) (marked : Nat × Nat → Bool) :
    Prop where
  off : ∀ x, (∀ e ∈ R, x < refAddr e.1 e.2 + 8 ∨ refAddr e.1 e.2 + 10 ≤ x) → m x = m₁ x
  flag : ∀ e ∈ R, bflags m e.1 e.2 =
    bflags m₁ e.1 e.2 ||| if marked e then jbfOverwritten else 0

/-- Before the pass nothing is marked. -/
theorem Marked.start (m : Mem) (R : List (Nat × Nat)) : Marked m R m (fun _ => false) :=
  ⟨fun _ _ => rfl, fun e _ => by simp⟩

/-- Two references are at least twelve bytes apart. -/
theorem refAddr_disjoint {e e' : Nat × Nat} (h : e.2 < refSize) (h' : e'.2 < refSize)
    (hne : e ≠ e') :
    refAddr e.1 e.2 + 12 ≤ refAddr e'.1 e'.2 ∨ refAddr e'.1 e'.2 + 12 ≤ refAddr e.1 e.2 := by
  obtain ⟨b, r⟩ := e
  obtain ⟨b', r'⟩ := e'
  have hne : b ≠ b' ∨ r ≠ r' := by
    by_contra hc
    push Not at hc
    exact hne (by rw [hc.1, hc.2])
  unfold refAddr blocksize refSize at *
  dsimp only at *
  rcases Nat.lt_trichotomy b b' with hlt | rfl | hlt <;> omega

theorem bflags_lt (m : Mem) (bi r : Nat) : bflags m bi r < 2 ^ 16 := getLE_lt m _ 2

/-- One more mark in the memory is one more in the set. -/
theorem Marked.mark (hin : Inside R) (h : Marked m₁ R m marked) (he : e ∈ R)
    (hmark : ∀ x, marked' x = true ↔ marked x = true ∨ x = e) :
    Marked m₁ R (markOverwritten m e.1 e.2) marked' := by
  refine ⟨?_, ?_⟩
  · intro x hx
    have hxe := hx e he
    have hout : markOverwritten m e.1 e.2 x = m x := putLE_of_not_mem (by omega)
    exact hout.trans (h.off x hx)
  · intro e' he'
    by_cases heq : e' = e
    · subst heq
      have hset : bflags (markOverwritten m e'.1 e'.2) e'.1 e'.2 =
          bflags m e'.1 e'.2 ||| jbfOverwritten :=
        getLE_putLE _ _ (Nat.or_lt_two_pow (bflags_lt m _ _) (by decide))
      rw [hset, h.flag e' he', if_pos ((hmark e').mpr (.inr rfl)), Nat.or_assoc]
      split <;> simp
    · have hsame : bflags (markOverwritten m e.1 e.2) e'.1 e'.2 = bflags m e'.1 e'.2 := by
        have := refAddr_disjoint (hin e he) (hin e' he') (Ne.symm heq)
        exact getLE_putLE_frame (by omega)
      have hm : marked' e' = marked e' := by
        rw [Bool.eq_iff_iff, hmark]
        exact or_iff_left heq
      rw [hsame, h.flag e' he', hm]

/-- The fields before the references are untouched. -/
theorem Marked.low {o k : Nat} (h : Marked m₁ R m marked) (hin : Inside R) (ho : o + k ≤ 28) :
    getLE m (bi * blocksize + o) k = getLE m₁ (bi * blocksize + o) k := by
  refine getLE_congr fun x h₁ h₂ => h.off x fun e he => ?_
  have := hin e he
  unfold refAddr blocksize refSize at *
  rcases Nat.lt_trichotomy e.1 bi with hlt | rfl | hlt <;> omega

theorem Marked.nref (h : Marked m₁ R m marked) (hin : Inside R) : nref m bi = nref m₁ bi :=
  h.low hin (by decide)

theorem Marked.tid (h : Marked m₁ R m marked) (hin : Inside R) : tid m bi = tid m₁ bi :=
  h.low hin (by decide)

/-- A mark changes the flags of a reference, never its block number. -/
theorem Marked.bn (h : Marked m₁ R m marked) (hin : Inside R) (he : e ∈ R) :
    bn m e.1 e.2 = bn m₁ e.1 e.2 := by
  refine getLE_congr fun x h₁ h₂ => h.off x fun e' he' => ?_
  by_cases heq : e' = e
  · subst heq
    omega
  · have := refAddr_disjoint (hin e he) (hin e' he') (Ne.symm heq)
    omega

/-- A block none of the references is in is untouched. -/
theorem Marked.sameBlock {b : Nat} (h : Marked m₁ R m marked) (hin : Inside R)
    (hb : ∀ e ∈ R, e.1 ≠ b) : SameBlock m m₁ b := by
  intro x h₁ h₂
  refine h.off x fun e he => ?_
  have h₃ := hin e he
  have h₄ := hb e he
  unfold refAddr blocksize refSize at *
  omega

/-- A bit of a disjunction is in one part or the other. -/
theorem has_or (x y mask : Nat) : has (x ||| y) mask = (has x mask || has y mask) := by
  unfold has
  rw [Nat.and_or_distrib_right, Bool.eq_iff_iff]
  simp only [decide_eq_true_eq, Bool.or_eq_true, ne_eq, Nat.or_eq_zero_iff]
  tauto

/-- The bit is set in the marked references and no other flag changes. -/
theorem Marked.has {mask : Nat} (h : Marked m₁ R m marked) (he : e ∈ R) :
    has (bflags m e.1 e.2) mask =
      (has (bflags m₁ e.1 e.2) mask || (marked e && has jbfOverwritten mask)) := by
  rw [h.flag e he, has_or]
  cases marked e <;> simp [Journal.has]

theorem Marked.congr (h : Marked m₁ R m marked) (hm : ∀ x, marked x = marked' x) :
    Marked m₁ R m marked' :=
  ⟨h.off, fun e he => hm e ▸ h.flag e he⟩

/-- The marks, and those the references `l` to block `target` get. -/
def addMarks (m₁ : Mem) (target : Nat) (l : List (Nat × Nat)) (marked : Nat × Nat → Bool) :
    Nat × Nat → Bool :=
  fun x => marked x || (decide (x ∈ l) && decide (bn m₁ x.1 x.2 = target))

/-- The marks after a row of references: those before, and the ones to the block sought. -/
theorem addMarks_iff {target : Nat} {l : List (Nat × Nat)} {x : Nat × Nat} :
    addMarks m₁ target l marked x = true ↔
      marked x = true ∨ (x ∈ l ∧ bn m₁ x.1 x.2 = target) := by
  simp [addMarks]

/-- Marking the references of one metablock, by induction on their number. -/
theorem markRefs_marked (hin : Inside R) (target bi : Nat) : ∀ (n : Nat) {m : Mem}
    {marked : Nat × Nat → Bool}, refsBelow bi n ⊆ R → Marked m₁ R m marked →
    Marked m₁ R (markRefs target bi n m) (addMarks m₁ target (refsBelow bi n) marked) := by
  intro n
  induction n with
  | zero =>
    intro m marked _ h
    exact h.congr fun x => by simp [addMarks, refsBelow]
  | succ n ih =>
    intro m marked hsub h
    rw [refsBelow_succ] at hsub ⊢
    have hlast : (bi, n) ∈ R := hsub (by simp)
    have hbn : bn m bi n = bn m₁ bi n := h.bn (e := (bi, n)) hin hlast
    unfold markRefs
    -- the last reference first, then the ones below it
    have hstep : Marked m₁ R (if bn m bi n = target then markOverwritten m bi n else m)
        (addMarks m₁ target [(bi, n)] marked) := by
      split
      · rename_i ht
        refine h.mark (e := (bi, n)) hin hlast fun x => ?_
        rw [addMarks_iff, List.mem_singleton]
        refine or_congr_right ⟨fun hx => hx.1, ?_⟩
        rintro rfl
        exact ⟨rfl, hbn ▸ ht⟩
      · rename_i ht
        refine h.congr fun x => ?_
        rw [Bool.eq_iff_iff, addMarks_iff, List.mem_singleton]
        refine (or_iff_left ?_).symm
        rintro ⟨rfl, hx⟩
        exact ht (hbn.trans hx)
    refine (ih (fun x hx => hsub (List.mem_append_left _ hx)) hstep).congr fun x => ?_
    rw [Bool.eq_iff_iff, addMarks_iff, addMarks_iff, addMarks_iff, List.mem_append]
    tauto

theorem nref_lt (m : Mem) (bi : Nat) : nref m bi < 2 ^ 16 := getLE_lt m _ 2

/-- From the second metablock on, `mark_overwritten_block` goes through all
references. -/
theorem markOverwrittenBlock_rest (hin : Inside R) (target : Nat) : ∀ (rest : List Nat) {m : Mem}
    {marked : Nat × Nat → Bool}, refs m₁ rest ⊆ R → Marked m₁ R m marked →
    Marked m₁ R (markOverwrittenBlock target rest (2 ^ 32 - 1) m)
      (addMarks m₁ target (refs m₁ rest) marked) := by
  intro rest
  induction rest with
  | nil =>
    intro m marked _ h
    exact h.congr fun x => by simp [addMarks, refs]
  | cons b rest ih =>
    intro m marked hsub h
    have hcons : refs m₁ (b :: rest) = refsBelow b (nref m₁ b) ++ refs m₁ rest := rfl
    rw [hcons] at hsub ⊢
    have hlt := nref_lt m₁ b
    unfold markOverwrittenBlock
    rw [h.nref hin, if_pos (by omega)]
    have h' := markRefs_marked hin target b (nref m₁ b)
      (fun x hx => hsub (List.mem_append_left _ hx)) h
    refine (ih (fun x hx => hsub (List.mem_append_right _ hx)) h').congr fun x => ?_
    rw [Bool.eq_iff_iff, addMarks_iff, addMarks_iff, addMarks_iff, List.mem_append]
    tauto

/-- `mark_overwritten_block` marks the references to `target` before reference `n` of
block `bi`. -/
theorem markOverwrittenBlock_marked (hin : Inside R) (target : Nat) (hn : n ≤ nref m₁ bi)
    (hsub : refsBelow bi n ⊆ R) (hrest : refs m₁ rest ⊆ R) (h : Marked m₁ R m marked) :
    Marked m₁ R (markOverwrittenBlock target (bi :: rest) n m)
      (addMarks m₁ target (refs m₁ rest ++ refsBelow bi n) marked) := by
  unfold markOverwrittenBlock
  rw [h.nref hin, if_neg (by omega)]
  have h' := markRefs_marked hin target bi n hsub h
  refine (markOverwrittenBlock_rest hin target rest hrest h').congr fun x => ?_
  rw [Bool.eq_iff_iff, addMarks_iff, addMarks_iff, addMarks_iff, List.mem_append]
  tauto

/-! ## The pass from the last reference down -/

section Pass
variable (m₁ : Mem) (complete commit : Nat)

/-- The block number a reference is to. -/
def target (e : Nat × Nat) : Nat := bn m₁ e.1 e.2

/-- The reference belongs to a transaction in the committable region. -/
def committed (e : Nat × Nat) : Bool := committable m₁ complete commit e.1

/-- The reference marks the earlier ones to its block: `analyze_overwritten_blocks` passes
over those that carry `jbf_overwritten` on disk. -/
def marks (e : Nat × Nat) : Bool :=
  committed m₁ complete commit e && !Journal.has (bflags m₁ e.1 e.2) jbfOverwritten

end Pass

variable {complete commit : Nat} {done : List (Nat × Nat)}

/-- The references of the metablocks before the current one, which `rest` lists from
the last one down. -/
theorem mem_refs_reverse : e ∈ refs m₁ rest.reverse ↔ e ∈ refs m₁ rest := by
  rw [mem_refs, mem_refs, List.mem_reverse]

/-- The state of the pass when the references `done` have been gone through and those
of `rest`, and those of block `bi` below `n`, have not. -/
structure Passing (m₁ : Mem) (complete commit : Nat) (R : List (Nat × Nat)) (rest : List Nat)
    (bi n : Nat) (done : List (Nat × Nat)) (m : Mem) (marked : Nat × Nat → Bool) : Prop where
  bits : Marked m₁ R m marked
  settled : Settled (target m₁) (marks m₁ complete commit)
    (refs m₁ rest.reverse ++ refsBelow bi n) done marked
  all : refs m₁ rest.reverse ++ refsBelow bi n ++ done = R

/-- A reference of a metablock that is not replayed overwrites nothing. -/
theorem Passing.step_skip (hnodup : R.Nodup) (hlive : committable m₁ complete commit bi = false)
    (h : Passing m₁ complete commit R rest bi (n + 1) done m marked) :
    Passing m₁ complete commit R rest bi n ((bi, n) :: done) m marked := by
  obtain ⟨hm, hs, hall⟩ := h
  rw [refsBelow_succ, ← List.append_assoc] at hs hall
  rw [List.append_assoc _ [(bi, n)], List.singleton_append] at hall
  refine ⟨hm, hs.step (hall ▸ hnodup) fun x => ?_, hall⟩
  exact (or_iff_left fun hx => by simp [marks, committed, hlive] at hx).symm

/-- One that is replayed marks every earlier reference to its block. -/
theorem Passing.step_live (hin : Inside R) (hnodup : R.Nodup)
    (hlive : committable m₁ complete commit bi = true) (hn : n < nref m₁ bi)
    (h : Passing m₁ complete commit R rest bi (n + 1) done m marked) :
    ∃ marked', Passing m₁ complete commit R rest bi n ((bi, n) :: done)
      (if Journal.has (bflags m bi n) jbfOverwritten then m
        else markOverwrittenBlock (bn m bi n) (bi :: rest) n m) marked' := by
  obtain ⟨hm, hs, hall⟩ := h
  rw [refsBelow_succ, ← List.append_assoc] at hs hall
  rw [List.append_assoc _ [(bi, n)], List.singleton_append] at hall
  have he : (bi, n) ∈ R := hall ▸ by simp
  -- the bit tells whether the reference is marked, or was on disk
  have hbit : Journal.has (bflags m bi n) jbfOverwritten =
      (Journal.has (bflags m₁ bi n) jbfOverwritten || marked (bi, n)) := by
    have hbits : Journal.has (bflags m bi n) jbfOverwritten =
        (Journal.has (bflags m₁ bi n) jbfOverwritten ||
          (marked (bi, n) && Journal.has jbfOverwritten jbfOverwritten)) := hm.has (e := (bi, n)) he
    have hself : Journal.has jbfOverwritten jbfOverwritten = true := by decide
    rw [hbits, hself, Bool.and_true]
  cases hmk : Journal.has (bflags m bi n) jbfOverwritten with
  | true =>
    refine ⟨marked, by simpa using hm, hs.step (hall ▸ hnodup) fun x => ?_, hall⟩
    refine (or_iff_left ?_).symm
    rintro ⟨hl, hno, -⟩
    rw [hbit, hno, Bool.or_false] at hmk
    simp [marks, hmk] at hl
  | false =>
    have hpre : refs m₁ rest.reverse ++ refsBelow bi n ⊆ R := fun x hx =>
      hall ▸ List.mem_append_left _ hx
    have hmark := markOverwrittenBlock_marked hin (bn m₁ bi n) (Nat.le_of_lt hn)
      (fun x hx => hpre (List.mem_append_right _ hx))
      (fun x hx => hpre (List.mem_append_left _ (mem_refs_reverse.mpr hx))) hm
    have hbn : bn m bi n = bn m₁ bi n := hm.bn (e := (bi, n)) hin he
    rw [hbit, Bool.or_eq_false_iff] at hmk
    refine ⟨_, by simpa [hbn] using hmark, hs.step (hall ▸ hnodup) fun x => ?_, hall⟩
    rw [addMarks_iff, List.mem_append, List.mem_append, mem_refs_reverse]
    simp only [marks, committed, hlive, hmk.1, hmk.2, target, true_and, Bool.not_false,
      Bool.and_true]

/-- The whole metablock, by induction on its references. -/
theorem analyzeOverwrittenBlocks_passing (hin : Inside R) (hnodup : R.Nodup)
    (hlive : committable m₁ complete commit bi = true) : ∀ (n : Nat) {m : Mem}
    {marked : Nat × Nat → Bool} {done : List (Nat × Nat)}, n ≤ nref m₁ bi →
    Passing m₁ complete commit R rest bi n done m marked →
    ∃ marked', Passing m₁ complete commit R rest bi 0 (refsBelow bi n ++ done)
      (analyzeOverwrittenBlocks bi rest n m) marked' := by
  intro n
  induction n with
  | zero => exact fun {m marked done} _ h => ⟨marked, h⟩
  | succ n ih =>
    intro m marked done hn h
    obtain ⟨marked', h'⟩ := h.step_live hin hnodup hlive hn
    obtain ⟨marked'', h''⟩ := ih (Nat.le_of_lt hn) h'
    refine ⟨marked'', ?_⟩
    rw [refsBelow_succ, List.append_assoc]
    exact h''

/-- A metablock that is not replayed is passed over. -/
theorem Passing.skip_all (hnodup : R.Nodup) (hlive : committable m₁ complete commit bi = false) :
    ∀ (n : Nat) {done : List (Nat × Nat)}, Passing m₁ complete commit R rest bi n done m marked →
    Passing m₁ complete commit R rest bi 0 (refsBelow bi n ++ done) m marked := by
  intro n
  induction n with
  | zero => exact fun h => h
  | succ n ih =>
    intro done h
    rw [refsBelow_succ, List.append_assoc]
    exact ih (h.step_skip hnodup hlive)

/-- **The marking pass.**  At its end a reference carries `jbf_overwritten` exactly
when it did on disk, or when a later reference of a committed transaction, which did not,
is to the same block. -/
theorem markAll_settled (hin : Inside R) (hnodup : R.Nodup) :
    ∀ (l : List Nat) {m : Mem} {marked : Nat × Nat → Bool} {done : List (Nat × Nat)},
    Marked m₁ R m marked →
    Settled (target m₁) (marks m₁ complete commit) (refs m₁ l.reverse) done marked →
    refs m₁ l.reverse ++ done = R →
    ∃ marked', Marked m₁ R (markAll complete commit l m) marked' ∧
      Settled (target m₁) (marks m₁ complete commit) [] R marked' := by
  intro l
  induction l with
  | nil =>
    intro m marked done hm hs hall
    exact ⟨marked, hm, by simpa [refs, ← hall] using hs⟩
  | cons bi rest ih =>
    intro m marked done hm hs hall
    have hrefs : refs m₁ (bi :: rest).reverse =
        refs m₁ rest.reverse ++ refsBelow bi (nref m₁ bi) := by
      simp [refs]
    rw [hrefs] at hs hall
    have hpass : Passing m₁ complete commit R rest bi (nref m₁ bi) done m marked :=
      ⟨hm, hs, hall⟩
    -- the references of `bi` are gone through, whether its transaction is committed or not
    have hdone : ∃ marked', Passing m₁ complete commit R rest bi 0
        (refsBelow bi (nref m₁ bi) ++ done)
        (if committable m complete commit bi then
          analyzeOverwrittenBlocks bi rest (nref m bi) m else m) marked' := by
      have hc : committable m complete commit bi = committable m₁ complete commit bi := by
        unfold committable
        rw [hm.tid hin]
      rw [hc, hm.nref hin]
      cases hlive : committable m₁ complete commit bi with
      | true =>
        exact analyzeOverwrittenBlocks_passing hin hnodup hlive _ (Nat.le_refl _) hpass
      | false => exact ⟨marked, hpass.skip_all hnodup hlive _⟩
    obtain ⟨marked', hm', hs', hall'⟩ := hdone
    have hnil : refsBelow bi 0 = [] := rfl
    rw [hnil, List.append_nil] at hs' hall'
    unfold markAll
    exact ih hm' hs' hall'

/-! ## The replay -/

/-- The call of `write_block` for a reference, from the journal `m`. -/
def replayed (m : Mem) (nb : Nat) (e : Nat × Nat) : Write :=
  let dbi := dataBlock m nb e.1 e.2
  { tid := tid m e.1
    bn := bn m e.1 e.2
    buf := block (if has (bflags m e.1 e.2) jbfEscaped then unescape m dbi else m) dbi }

/-- The reference is replayed if its transaction is. -/
def replays (m : Mem) (e : Nat × Nat) : Bool :=
  journaled m e.1 e.2 && !has (bflags m e.1 e.2) jbfOverwritten

/-- What the analysis promises the replay: no data block is a metablock or is used
twice. -/
structure Runnable (m : Mem) (nb : Nat) (mr : List Nat) : Prop where
  small : nb + refSize ≤ 2 ^ 32
  lt : ∀ bi ∈ mr, bi < nb
  nref : ∀ bi ∈ mr, nref m bi ≤ refSize
  notMeta : ∀ e ∈ refs m mr, journaled m e.1 e.2 → ∀ b ∈ mr, dataBlock m nb e.1 e.2 ≠ b
  inj : ∀ e ∈ refs m mr, ∀ e' ∈ refs m mr, journaled m e.1 e.2 → journaled m e'.1 e'.2 →
    dataBlock m nb e.1 e.2 = dataBlock m nb e'.1 e'.2 → e = e'

/-- `m` is `m₂` with the magic number of some data blocks of `done` restored. -/
def Restored (m₂ : Mem) (nb : Nat) (done : List (Nat × Nat)) (m : Mem) : Prop :=
  ∀ x, m x = m₂ x ∨ ∃ e ∈ done, journaled m₂ e.1 e.2 ∧
    dataBlock m₂ nb e.1 e.2 * blocksize ≤ x ∧ x < dataBlock m₂ nb e.1 e.2 * blocksize + 8

variable {m₂ : Mem} {nb : Nat}

/-- Data that has been put back stays so while more is. -/
theorem Restored.mono {done' : List (Nat × Nat)} (h : Restored m₂ nb done m) (hd : done ⊆ done') :
    Restored m₂ nb done' m := by
  intro x
  exact (h x).imp_right fun ⟨e, he, hj, hx⟩ => ⟨e, hd he, hj, hx⟩

/-- Putting the first word of one data block back. -/
theorem Restored.unescape (h : Restored m₂ nb done m) (he : e ∈ done)
    (hj : journaled m₂ e.1 e.2) :
    Restored m₂ nb done (unescape m (dataBlock m₂ nb e.1 e.2)) := by
  intro x
  by_cases hx : dataBlock m₂ nb e.1 e.2 * blocksize ≤ x ∧
      x < dataBlock m₂ nb e.1 e.2 * blocksize + 8
  · exact .inr ⟨e, he, hj, hx⟩
  · have hout : Journal.unescape m (dataBlock m₂ nb e.1 e.2) x = m x :=
      putLE_of_not_mem (by omega)
    rw [hout]
    exact h x

/-- A block that is no data block of `done` is as it was. -/
theorem Restored.sameBlock {b : Nat} (h : Restored m₂ nb done m)
    (hb : ∀ e ∈ done, journaled m₂ e.1 e.2 → dataBlock m₂ nb e.1 e.2 ≠ b) : SameBlock m m₂ b := by
  intro x h₁ h₂
  rcases h x with hx | ⟨e, he, hj, h₃, h₄⟩
  · exact hx
  · have := hb e he hj
    unfold blocksize at *
    omega

/-- Two memories with the same block have the same block after it is put back. -/
theorem SameBlock.unescape {m m' : Mem} {b : Nat} (h : SameBlock m m' b) :
    SameBlock (unescape m b) (unescape m' b) b := by
  intro x h₁ h₂
  unfold Journal.unescape putLE
  split
  · rfl
  · exact h x h₁ h₂

/-- The loop over the references of a metablock. -/
structure Running (m₂ : Mem) (nb bi : Nat) (done : List (Nat × Nat)) (writes : List Write) (n : Nat)
    (s : RunState) : Prop where
  delta : s.delta = delta m₂ bi n
  restored : Restored m₂ nb (done ++ refsBelow bi n) s.jd
  writes : s.writes = writes ++ ((refsBelow bi n).filter (replays m₂)).map (replayed m₂ nb)

/-- One reference of the replay: a write if it is live, and the data block put back. -/
theorem runRef_running {writes : List Write} {s : RunState} (hrun : Runnable m₂ nb mr)
    (hbi : bi ∈ mr) (hn : n < nref m₂ bi) (hsub : done ⊆ refs m₂ mr)
    (hfresh : ∀ e ∈ done, e.1 ≠ bi) (h : Running m₂ nb bi done writes n s) :
    Running m₂ nb bi done writes (n + 1) (runRef nb bi s n) := by
  obtain ⟨hδ, hr, hw⟩ := h
  have he : (bi, n) ∈ refs m₂ mr := mem_refs.mpr ⟨hbi, hn⟩
  have hnr : n < refSize := Nat.lt_of_lt_of_le hn (hrun.nref bi hbi)
  have hold : done ++ refsBelow bi n ⊆ refs m₂ mr := by
    intro x hx
    rcases List.mem_append.mp hx with hx | hx
    · exact hsub hx
    · obtain ⟨h₁, h₂⟩ := mem_refsBelow.mp hx
      exact mem_refs.mpr ⟨h₁ ▸ hbi, by rw [h₁]; omega⟩
  have hgrow : done ++ refsBelow bi n ⊆ done ++ refsBelow bi (n + 1) := by
    rw [refsBelow_succ, ← List.append_assoc]
    exact List.subset_append_left _ _
  -- the metablock itself is as it was
  have hmeta : ∀ {l : List (Nat × Nat)} {m : Mem}, l ⊆ refs m₂ mr → Restored m₂ nb l m →
      SameBlock m m₂ bi :=
    fun hl hm => hm.sameBlock fun e he hj => hrun.notMeta e (hl he) hj bi hbi
  have hfl : bflags s.jd bi n = bflags m₂ bi n := (hmeta hold hr).bflags hnr
  have hlist : ((refsBelow bi (n + 1)).filter (replays m₂)).map (replayed m₂ nb) =
      ((refsBelow bi n).filter (replays m₂)).map (replayed m₂ nb) ++
        ([(bi, n)].filter (replays m₂)).map (replayed m₂ nb) := by
    rw [refsBelow_succ, List.filter_append, List.map_append]
  unfold runRef
  dsimp only
  rw [hfl]
  cases hj : has (bflags m₂ bi n) jbfNonjournaled with
  | true =>
    have hjr : journaled m₂ bi n = false := by simp [journaled, hj]
    have hnone : [(bi, n)].filter (replays m₂) = [] := by simp [replays, hjr]
    refine ⟨?_, hr.mono hgrow, ?_⟩
    · rw [delta_succ, hjr]
      exact hδ
    · rw [hlist, hnone]
      simpa using hw
  | false =>
    have hjr : journaled m₂ bi n = true := by simp [journaled, hj]
    have hδ' : s.delta + 1 = Journal.delta m₂ bi (n + 1) := by
      rw [delta_succ, hjr, hδ]
      rfl
    cases ho : has (bflags m₂ bi n) jbfOverwritten with
    | true =>
      have hnone : [(bi, n)].filter (replays m₂) = [] := by simp [replays, ho]
      refine ⟨hδ', hr.mono hgrow, ?_⟩
      rw [hlist, hnone]
      simpa using hw
    | false =>
      have hone : [(bi, n)].filter (replays m₂) = [(bi, n)] := by simp [replays, ho, hjr]
      have hdbi : (bi + s.delta) % 2 ^ 32 % nb = dataBlock m₂ nb bi n := by
        have h₁ := delta_le m₂ bi n
        have h₂ := hrun.lt bi hbi
        have h₃ := hrun.small
        have hsum : (bi + s.delta) % 2 ^ 32 = bi + s.delta := Nat.mod_eq_of_lt (by omega)
        rw [hsum, hδ, dataBlock]
      simp only [Bool.false_eq_true, if_false]
      rw [hdbi]
      -- the data block of this reference is as it was, and gets its magic number back
      have hdata : SameBlock s.jd m₂ (dataBlock m₂ nb bi n) := by
        refine hr.sameBlock fun e hmem hje heq => ?_
        have hee := hrun.inj e (hold hmem) (bi, n) he hje hjr heq
        rcases List.mem_append.mp hmem with hmem | hmem
        · exact hfresh e hmem (hee ▸ rfl)
        · have := (mem_refsBelow.mp hmem).2
          rw [hee] at this
          exact Nat.lt_irrefl _ this
      generalize hjd : (if has (bflags m₂ bi n) jbfEscaped then unescape s.jd (dataBlock m₂ nb bi n)
        else s.jd) = jd
      have hres : Restored m₂ nb (done ++ refsBelow bi (n + 1)) jd := by
        rw [← hjd]
        split
        · refine Restored.unescape (e := (bi, n)) (hr.mono hgrow) ?_ hjr
          simp [refsBelow_succ]
        · exact hr.mono hgrow
      have hnew : done ++ refsBelow bi (n + 1) ⊆ refs m₂ mr := by
        rw [refsBelow_succ, ← List.append_assoc]
        exact List.append_subset.mpr ⟨hold, by simpa using he⟩
      have hsame := hmeta hnew hres
      refine ⟨hδ', hres, ?_⟩
      rw [hlist, hone, hw, List.append_assoc]
      refine congrArg (writes ++ ·) (congrArg (_ ++ ·) (congrArg (fun w => [w]) ?_))
      have hbuf : block jd (dataBlock m₂ nb bi n) =
          block (if has (bflags m₂ bi n) jbfEscaped then unescape m₂ (dataBlock m₂ nb bi n)
            else m₂) (dataBlock m₂ nb bi n) := by
        rw [← hjd]
        split
        · exact hdata.unescape.block
        · exact hdata.block
      rw [hsame.tid, hsame.bn hnr, hbuf]
      rfl

/-- The references of one metablock, by induction on how many have been run. -/
theorem runRefs_running {writes : List Write} {s : RunState} (hrun : Runnable m₂ nb mr)
    (hbi : bi ∈ mr) (hsub : done ⊆ refs m₂ mr) (hfresh : ∀ e ∈ done, e.1 ≠ bi)
    (h : Running m₂ nb bi done writes 0 s) (hn : n ≤ nref m₂ bi) :
    Running m₂ nb bi done writes n ((List.range n).foldl (runRef nb bi) s) := by
  induction n with
  | zero => exact h
  | succ n ih =>
    rw [List.range_succ, List.foldl_append, List.foldl_cons, List.foldl_nil]
    exact runRef_running hrun hbi hn hsub hfresh (ih (by omega))

/-- The loop over the metablocks. -/
theorem runMetas_writes (hrun : Runnable m₂ nb mr) (hnodup : mr.Nodup) :
    ∀ (l : List Nat) {l₀ : List Nat} {s : RunState}, l₀ ++ l = mr →
    Restored m₂ nb (refs m₂ l₀) s.jd →
    (l.foldl (runMeta nb complete commit) s).writes = s.writes ++
      ((refs m₂ l).filter (fun e => committed m₂ complete commit e && replays m₂ e)).map
        (replayed m₂ nb) := by
  intro l
  induction l with
  | nil => intro l₀ s _ _; simp [refs]
  | cons bi l ih =>
    intro l₀ s hmr hr
    have hbi : bi ∈ mr := hmr ▸ by simp
    have hl₀ : refs m₂ l₀ ⊆ refs m₂ mr := by
      intro e he
      obtain ⟨h₁, h₂⟩ := mem_refs.mp he
      exact mem_refs.mpr ⟨hmr ▸ List.mem_append_left _ h₁, h₂⟩
    have hfresh : ∀ e ∈ refs m₂ l₀, e.1 ≠ bi := by
      intro e he heq
      have hdisj := (List.nodup_append.mp (hmr ▸ hnodup)).2.2
      exact hdisj e.1 (mem_refs.mp he).1 bi (by simp) heq
    have hsame : SameBlock s.jd m₂ bi :=
      hr.sameBlock fun e he hj => hrun.notMeta e (hl₀ he) hj bi hbi
    have hcom : committable s.jd complete commit bi = committable m₂ complete commit bi := by
      unfold committable
      rw [hsame.tid]
    have hrefs : refs m₂ (l₀ ++ [bi]) = refs m₂ l₀ ++ refsBelow bi (nref m₂ bi) := by
      simp [refs]
    have hsplit : refs m₂ (bi :: l) = refsBelow bi (nref m₂ bi) ++ refs m₂ l := rfl
    rw [List.foldl_cons, hsplit, List.filter_append, List.map_append]
    unfold runMeta
    rw [hcom]
    cases hc : committable m₂ complete commit bi with
    | true =>
      have h₀ : Running m₂ nb bi (refs m₂ l₀) s.writes 0 { s with delta := 1 } :=
        ⟨rfl, by simpa [refsBelow] using hr, by simp [refsBelow]⟩
      have h := runRefs_running hrun hbi hl₀ hfresh h₀ (Nat.le_refl (nref m₂ bi))
      have hfilter : (refsBelow bi (nref m₂ bi)).filter
          (fun e => committed m₂ complete commit e && replays m₂ e) =
          (refsBelow bi (nref m₂ bi)).filter (replays m₂) := by
        refine List.filter_congr fun e he => ?_
        rw [committed, (mem_refsBelow.mp he).1, hc, Bool.true_and]
      rw [if_pos rfl, hsame.nref, hfilter]
      have := @ih (l₀ ++ [bi]) _ (by simpa using hmr) (hrefs ▸ h.restored)
      unfold runMeta at this
      rw [this, h.writes, List.append_assoc]
    | false =>
      have hfilter : (refsBelow bi (nref m₂ bi)).filter
          (fun e => committed m₂ complete commit e && replays m₂ e) = [] := by
        refine List.filter_eq_nil_iff.mpr fun e he => ?_
        rw [committed, (mem_refsBelow.mp he).1, hc]
        simp
      rw [if_neg Bool.false_ne_true, hfilter, List.map_nil, List.nil_append]
      have hmono : Restored m₂ nb (refs m₂ (l₀ ++ [bi])) s.jd :=
        hr.mono (hrefs ▸ List.subset_append_left _ _)
      have := ih (by simpa using hmr) hmono
      unfold runMeta at this
      exact this

/-- The committable region: the boundaries of the last metablock. -/
def region (m : Mem) (mr : List Nat) : Nat × Nat :=
  match mr.getLast? with
  | none => (0, 0)
  | some last => (completeBoundary m last, commitBoundary m last)

/-- **The calls of `run`**: one for each committed, journaled, unmarked reference. -/
theorem run_writes {s : Replayer} (hrun : Runnable s.jd s.nb s.mr) (hnodup : s.mr.Nodup) :
    run s = ((refs s.jd s.mr).filter fun e =>
      committed s.jd (region s.jd s.mr).1 (region s.jd s.mr).2 e && replays s.jd e).map
        (replayed s.jd s.nb) := by
  unfold run region
  cases hlast : s.mr.getLast? with
  | none =>
    rw [List.getLast?_eq_none_iff.mp hlast]
    rfl
  | some last =>
    have h₀ : Restored s.jd s.nb (refs s.jd []) s.jd := fun _ => .inl rfl
    dsimp only
    rw [runMetas_writes hrun hnodup s.mr (List.nil_append _) h₀, List.nil_append]

/-! ## The latest committed data -/

/-- The last reference to block number `n` in the committable region, in the order of
`mr` and then of the index. -/
def lastRef (m : Mem) (mr : List Nat) (n : Nat) : Option (Nat × Nat) :=
  last? (fun e => committed m (region m mr).1 (region m mr).2 e && decide (target m e = n))
    (refs m mr)

/-- A journal: `nb` blocks in memory, few enough for the `unsigned` sums of block
indices not to wrap. -/
structure Input where
  jd : Mem
  nb : Nat
  small : nb + refSize ≤ 2 ^ 32

/-- The replayer when every block has been looked at. -/
def looked (d : Mem) (nb : Nat) : Replayer := (List.range nb).foldl analyzeBlock (start d nb)

/-- What `analyze` has done when it returns true. -/
theorem analyze_true (h : (analyze d nb).2 = true) :
    (looked d nb).ok = true ∧ (analyze d nb).1 = { looked d nb with
      jd := markAll (region (looked d nb).jd (looked d nb).mr).1
        (region (looked d nb).jd (looked d nb).mr).2 (looked d nb).mr.reverse
        (looked d nb).jd } := by
  have hdef : analyze d nb = analyzeMetas (looked d nb) := rfl
  rw [hdef] at h ⊢
  generalize looked d nb = s at h ⊢
  unfold analyzeMetas at h ⊢
  split at h
  · cases h
  · cases h
  · rename_i last hok hlast
    split at h
    · rename_i hcheck
      refine ⟨hok, ?_⟩
      dsimp only at h ⊢
      rw [if_pos hcheck]
      simp only [h, region, hlast, hok]
    · cases h

/-- The accepted metablocks are as on disk, and their references fit in them. -/
structure AsDisk (d : Mem) (s : Replayer) : Prop where
  same : ∀ bi ∈ s.mr, SameBlock s.jd d bi
  nref : ∀ bi ∈ s.mr, nref d bi ≤ refSize

section Result
variable {s : Replayer} (hd : AsDisk d s) (hm : Marked s.jd (refs d s.mr) m₂ marked)
include hd

/-- The metablocks that `analyze` keeps have their references inside the block. -/
theorem AsDisk.inside : Inside (refs d s.mr) := by
  intro e he
  obtain ⟨h₁, h₂⟩ := mem_refs.mp he
  exact Nat.lt_of_lt_of_le h₂ (hd.nref e.1 h₁)

/-- The analysis leaves the references as they are on the disk. -/
theorem AsDisk.refs_eq : refs s.jd s.mr = refs d s.mr := by
  unfold refs
  exact List.flatMap_congr fun bi hbi => by rw [(hd.same bi hbi).nref]

include hm

theorem AsDisk.nref_marked (hbi : bi ∈ s.mr) : Journal.nref m₂ bi = Journal.nref d bi :=
  (hm.nref hd.inside).trans (hd.same bi hbi).nref

theorem AsDisk.refs_marked : refs m₂ s.mr = refs d s.mr := by
  unfold refs
  exact List.flatMap_congr fun bi hbi => by rw [hd.nref_marked hm hbi]

/-- A flag other than `jbf_overwritten` is as on disk. -/
theorem AsDisk.has_marked {mask : Nat} (hmask : has jbfOverwritten mask = false)
    (he : e ∈ refs d s.mr) : has (bflags m₂ e.1 e.2) mask = has (bflags d e.1 e.2) mask := by
  have hsame := (hd.same e.1 (mem_refs.mp he).1).bflags (hd.inside e he)
  rw [hm.has he, hmask, Bool.and_false, Bool.or_false, hsame]

theorem AsDisk.journaled_marked (he : e ∈ refs d s.mr) :
    journaled m₂ e.1 e.2 = journaled d e.1 e.2 := by
  rw [journaled, journaled, hd.has_marked hm (by decide) he]

theorem AsDisk.dataBlock_marked (he : e ∈ refs d s.mr) :
    dataBlock m₂ nb e.1 e.2 = dataBlock d nb e.1 e.2 := by
  obtain ⟨hbi, hr⟩ := mem_refs.mp he
  have hδ : delta m₂ e.1 e.2 = delta d e.1 e.2 := by
    refine delta_congr (fun r hr' => ?_) (Nat.le_refl _)
    exact hd.journaled_marked hm (e := (e.1, r)) (mem_refs.mpr ⟨hbi, Nat.lt_trans hr' hr⟩)
  rw [dataBlock, dataBlock, hδ]

/-- What is replayed for a reference, as far as it does not depend on the data. -/
theorem AsDisk.replayed_marked (he : e ∈ refs d s.mr) :
    replayed m₂ nb e = ⟨tid d e.1, bn d e.1 e.2, block
      (if has (bflags d e.1 e.2) jbfEscaped then unescape m₂ (dataBlock d nb e.1 e.2) else m₂)
      (dataBlock d nb e.1 e.2)⟩ := by
  have hsame := hd.same e.1 (mem_refs.mp he).1
  have htid : tid m₂ e.1 = tid d e.1 := (hm.tid hd.inside).trans hsame.tid
  have hbn : bn m₂ e.1 e.2 = bn d e.1 e.2 :=
    (hm.bn hd.inside he).trans (hsame.bn (hd.inside e he))
  rw [replayed, htid, hbn, hd.has_marked hm (by decide) he, hd.dataBlock_marked hm he]

theorem AsDisk.region_marked : region m₂ s.mr = region d s.mr := by
  unfold region
  split
  · rfl
  · rename_i last hlast
    have hsame := hd.same last (List.mem_of_getLast? hlast)
    have h₁ : completeBoundary m₂ last = completeBoundary d last :=
      (hm.low hd.inside (by decide)).trans hsame.completeBoundary
    have h₂ : commitBoundary m₂ last = commitBoundary d last :=
      (hm.low hd.inside (by decide)).trans hsame.commitBoundary
    rw [h₁, h₂]

/-- When the marks are settled, the references replayed are the last ones with data. -/
theorem AsDisk.filter_replays
    (hs : Settled (target s.jd) (marks s.jd complete commit) [] (refs d s.mr) marked) :
    (refs d s.mr).filter (fun e => committed m₂ complete commit e && replays m₂ e) =
      (lastOnly (target s.jd) (marks s.jd complete commit) (refs d s.mr)).filter
        fun e => journaled d e.1 e.2 := by
  rw [← hs.filter_eq_lastOnly, List.filter_filter]
  refine List.filter_congr fun e he => ?_
  have hbit : has jbfOverwritten jbfOverwritten = true := by decide
  have hcom : committed m₂ complete commit e = committed s.jd complete commit e := by
    rw [committed, committed, committable, committable, hm.tid hd.inside]
  rw [replays, marks, hcom, hd.journaled_marked hm he, hm.has he, hbit, Bool.and_true, Bool.not_or,
    Bool.and_assoc, Bool.and_left_comm]

end Result

section Result
variable {s : Replayer} (hl : Looked d nb nb s) (hok : s.ok = true)
  (hm : Marked s.jd (refs d s.mr) m₂ marked)
include hl

theorem Looked.asDisk : AsDisk d s :=
  ⟨fun bi hbi => hl.kept bi (.inr (.inr hbi)), fun bi hbi => (hl.accepted bi hbi).2⟩

include hm

include hok

/-- A journal that `analyze` has looked through can be run. -/
theorem Looked.runnable (hsmall : nb + refSize ≤ 2 ^ 32) : Runnable m₂ nb s.mr := by
  refine ⟨hsmall, hl.lt, ?_, ?_, ?_⟩
  · intro bi hbi
    rw [hl.asDisk.nref_marked hm hbi]
    exact (hl.accepted bi hbi).2
  · intro e he hj b hb
    rw [hl.asDisk.refs_marked hm] at he
    rw [hl.asDisk.dataBlock_marked hm he]
    rw [hl.asDisk.journaled_marked hm he] at hj
    obtain ⟨h₁, h₂⟩ := mem_refs.mp he
    exact hl.data_not_meta hok h₁ hb h₂ hj
  · intro e he e' he' hj hj' heq
    rw [hl.asDisk.refs_marked hm] at he he'
    rw [hl.asDisk.dataBlock_marked hm he, hl.asDisk.dataBlock_marked hm he'] at heq
    rw [hl.asDisk.journaled_marked hm he] at hj
    rw [hl.asDisk.journaled_marked hm he'] at hj'
    obtain ⟨h₁, h₂⟩ := mem_refs.mp he
    obtain ⟨h₁', h₂'⟩ := mem_refs.mp he'
    obtain ⟨hb, hr⟩ := hl.data_block_inj hok h₁ h₁' h₂ h₂' hj hj' heq
    exact Prod.ext hb hr

/-- The data block of a reference is the one on disk exactly when it does not look
like a metablock there: had it looked like one and not been changed, the reference
would have been rejected. -/
theorem Looked.replayed_eq_iff (he : e ∈ refs d s.mr) (hj : journaled d e.1 e.2) :
    replayed m₂ nb e = replayed d nb e ↔
      isPotentialMetablock d (dataBlock d nb e.1 e.2) = false := by
  obtain ⟨hbi, hr⟩ := mem_refs.mp he
  rw [hl.asDisk.replayed_marked hm he, replayed]
  have hdata := (hl.data hok e.1 hbi e.2 hr hj).2
  have hm₂ : SameBlock m₂ s.jd (dataBlock d nb e.1 e.2) := by
    refine hm.sameBlock hl.asDisk.inside fun e' he' heq => ?_
    exact hl.data_not_meta hok hbi (mem_refs.mp he').1 hr hj heq.symm
  generalize dataBlock d nb e.1 e.2 = b at hdata hm₂ ⊢
  generalize has (bflags d e.1 e.2) jbfEscaped = esc
  constructor
  · intro h
    have hbuf := (Write.mk.inj h).2.2
    -- the bytes the analysis may have changed are past the magic number
    have htail : ∀ x, b * blocksize + 8 ≤ x → x < b * blocksize + blocksize → m₂ x = d x := by
      intro x h₁ h₂
      have hx := eq_of_slice_eq hbuf (Nat.le_of_add_right_le h₁) h₂
      cases esc with
      | false => exact hx
      | true =>
        rw [if_pos rfl, if_pos rfl] at hx
        have hout : ∀ m, unescape m b x = m x := fun m => putLE_of_not_mem (.inr h₁)
        rwa [hout, hout] at hx
    have hsame : SameBlock s.jd d b := by
      intro x h₁ h₂
      by_cases hx : b * blocksize + 8 ≤ x
      · exact (hm₂ x h₁ h₂).symm.trans (htail x hx h₂)
      · refine hl.off x ?_ ?_ <;> unfold blocksize at * <;> omega
    rw [← hsame.isPotentialMetablock]
    exact hdata
  · intro hpot
    have hsame : SameBlock m₂ d b := hm₂.trans (hl.kept b (.inr (.inl hpot)))
    rw [Write.mk.injEq]
    refine ⟨rfl, rfl, ?_⟩
    cases esc with
    | false => exact slice_congr hsame
    | true => exact slice_congr hsame.unescape

end Result

namespace Input
variable (J : Input)

/-- The metablocks of `mr_` when `analyze` is through. -/
def metas : List Nat := (analyze J.jd J.nb).1.mr

/-- No reference of a metablock carries `jbf_overwritten` on disk. -/
def Clean : Prop :=
  ∀ bi ∈ J.metas, ∀ r < nref J.jd bi, has (bflags J.jd bi r) jbfOverwritten = false

/-- The last reference to block number `n` in the committable region, if it has data. -/
def latest (n : Nat) : Option (Nat × Nat) :=
  (lastRef J.jd J.metas n).filter fun e => journaled J.jd e.1 e.2

/-- `run` writes, for every block number, the data on disk of its last committed
reference, once, and nothing when there is none. -/
def ReplaysLatest : Prop :=
  ∀ n, (run (analyze J.jd J.nb).1).filter (fun w => w.bn = n) =
    (J.latest n).toList.map (replayed J.jd J.nb)

end Input

/-- What `analyze` has changed when it returns true. -/
theorem AsDisk.analyze_marked (hd : AsDisk d (looked d nb)) (hnodup : (looked d nb).mr.Nodup)
    (hok : (analyze d nb).2 = true) :
    ∃ marked, Marked (looked d nb).jd (refs d (looked d nb).mr) (analyze d nb).1.jd marked ∧
      Settled (target (looked d nb).jd) (marks (looked d nb).jd (region d (looked d nb).mr).1
        (region d (looked d nb).mr).2) [] (refs d (looked d nb).mr) marked := by
  obtain ⟨-, hs⟩ := analyze_true hok
  rw [hs, ← hd.region_marked (Marked.start _ _)]
  refine markAll_settled hd.inside (nodup_refs hnodup) _ (Marked.start _ _)
    (Settled.start fun _ _ => rfl) ?_
  rw [List.reverse_reverse, List.append_nil, hd.refs_eq]

/-- **The calls of `run` for each block number**, from the journal the analysis
leaves. -/
theorem run_filter (J : Input) (hok : (analyze J.jd J.nb).2 = true) (hclean : J.Clean) (n : Nat) :
    (run (analyze J.jd J.nb).1).filter (fun w => w.bn = n) =
      (J.latest n).toList.map (replayed (analyze J.jd J.nb).1.jd J.nb) := by
  have hl : Looked J.jd J.nb J.nb (looked J.jd J.nb) := blocks_looked J.small (Nat.le_refl _)
  obtain ⟨marked, hm, hs⟩ := hl.asDisk.analyze_marked hl.nodup hok
  obtain ⟨hsok, heq⟩ := analyze_true hok
  have hmr : (analyze J.jd J.nb).1.mr = (looked J.jd J.nb).mr := by rw [heq]
  have hnb : (analyze J.jd J.nb).1.nb = J.nb := by
    rw [heq]
    exact hl.length
  have hclean' : ∀ e ∈ refs J.jd (looked J.jd J.nb).mr,
      has (bflags J.jd e.1 e.2) jbfOverwritten = false := fun e he =>
    hclean e.1 (by rw [Input.metas, hmr]; exact (mem_refs.mp he).1) e.2 (mem_refs.mp he).2
  have hrun := hl.runnable hsok hm J.small
  rw [run_writes (by rw [hnb, hmr]; exact hrun) (by rw [hmr]; exact hl.nodup), hmr, hnb,
    hl.asDisk.refs_marked hm, hl.asDisk.region_marked hm, hl.asDisk.filter_replays hm hs,
    List.filter_map]
  have htarget : ∀ e ∈ refs J.jd (looked J.jd J.nb).mr,
      target (looked J.jd J.nb).jd e = target J.jd e := fun e he =>
    (hl.asDisk.same _ (mem_refs.mp he).1).bn (hl.asDisk.inside e he)
  have hlast : lastRef J.jd J.metas n = last? (fun e => marks (looked J.jd J.nb).jd
      (region J.jd (looked J.jd J.nb).mr).1 (region J.jd (looked J.jd J.nb).mr).2 e &&
      decide (target (looked J.jd J.nb).jd e = n)) (refs J.jd (looked J.jd J.nb).mr) := by
    unfold lastRef
    rw [Input.metas, hmr]
    refine last?_congr fun e he => ?_
    have hsame := hl.asDisk.same _ (mem_refs.mp he).1
    rw [htarget e he, marks, hsame.bflags (hl.asDisk.inside e he), hclean' e he, Bool.not_false,
      Bool.and_true, committed, committed, committable, committable, hsame.tid]
  congr 1
  rw [Input.latest, Option.toList_filter, hlast, ← lastOnly_filter_key, List.filter_filter,
    List.filter_filter]
  refine List.filter_congr fun e he => ?_
  have he := lastOnly_subset _ _ _ he
  rw [Bool.and_comm, Function.comp_apply, hl.asDisk.replayed_marked hm he, htarget e he]
  rfl

theorem replays_latest_at (J : Input) (hok : (analyze J.jd J.nb).2 = true) (hclean : J.Clean)
    (n : Nat) :
    (run (analyze J.jd J.nb).1).filter (fun w => w.bn = n) =
        (J.latest n).toList.map (replayed J.jd J.nb) ↔
      ∀ e ∈ J.latest n, isPotentialMetablock J.jd (dataBlock J.jd J.nb e.1 e.2) = false := by
  have hl : Looked J.jd J.nb J.nb (looked J.jd J.nb) := blocks_looked J.small (Nat.le_refl _)
  obtain ⟨marked, hm, -⟩ := hl.asDisk.analyze_marked hl.nodup hok
  obtain ⟨hsok, heq⟩ := analyze_true hok
  have hmr : J.metas = (looked J.jd J.nb).mr := by rw [Input.metas, heq]
  rw [run_filter J hok hclean n]
  cases hlast : J.latest n with
  | none => simp
  | some e =>
    rw [Input.latest, Option.filter_eq_some_iff] at hlast
    have he : e ∈ refs J.jd (looked J.jd J.nb).mr := hmr ▸ mem_of_last? hlast.1
    have hiff := hl.replayed_eq_iff hsok hm he hlast.2
    simpa using hiff

/-- **Replay writes the latest committed data** exactly when no such data looks like a
metablock on disk. -/
theorem replay_latest_iff (J : Input) (hok : (analyze J.jd J.nb).2 = true) (hclean : J.Clean) :
    J.ReplaysLatest ↔ ∀ n, ∀ e ∈ J.latest n,
      isPotentialMetablock J.jd (dataBlock J.jd J.nb e.1 e.2) = false :=
  forall_congr' (replays_latest_at J hok hclean)

/-! ## A journal that is replayed, and one that is not -/

/-- Two transactions, in blocks 0 and 2, that write block number 5, with the data in blocks 1 and 3.
-/
def twice : Input where
  jd := image [(0, 8, journalmagic), (8, 4, nochecksum), (20, 2, 1), (24, 2, 0x31), (26, 2, 1),
    (28, 4, 5), (32, 4, nochecksum), (4096, 4, 77), (8192, 8, journalmagic), (8200, 4, nochecksum),
    (8208, 2, 1), (8210, 2, 1), (8212, 2, 2), (8216, 2, 0x31),
    (8218, 2, 1), (8220, 4, 5), (8224, 4, nochecksum), (12288, 4, 78)]
  nb := 4
  small := by decide

theorem twice_metas : twice.metas = [0, 2] := by decide

theorem twice_refs : refs twice.jd [0, 2] = [(0, 0), (2, 0)] := by decide

/-- No reference carries `jbf_overwritten` on disk, and no data block looks like a metablock. -/
theorem twice_data :
    (∀ bi ∈ [0, 2], ∀ r < nref twice.jd bi, has (bflags twice.jd bi r) jbfOverwritten = false) ∧
    ∀ e ∈ [(0, 0), (2, 0)], isPotentialMetablock twice.jd (dataBlock twice.jd twice.nb e.1 e.2) =
    false := by decide

theorem replay_latest_iff_twice : twice.ReplaysLatest := by
  refine (replay_latest_iff twice (by decide) ?_).mpr ?_
  · intro bi hbi
    rw [twice_metas] at hbi
    exact twice_data.1 bi hbi
  · intro n e he
    rw [Option.mem_def, Input.latest, Option.filter_eq_some_iff] at he
    have hmem := mem_of_last? he.1
    rw [twice_metas, twice_refs] at hmem
    exact twice_data.2 e hmem

/-- The metablock in block 1 has its data in block 0, round the end.  Block 0 looks
like a metablock, but has no `jf_meta`. -/
def wrapped : Input where
  jd := image [(0, 8, journalmagic), (8, 4, 2085443791), (4096, 8, journalmagic),
    (4104, 4, nochecksum), (4116, 2, 1), (4120, 2, 0x31), (4122, 2, 1), (4124, 4, 5),
    (4128, 4, nochecksum)]
  nb := 2
  small := by decide

/-- The journal once block 0 has been rejected. -/
def wrappedMarked : Mem := markError wrapped.jd 0

theorem crcShift_eq (c : Nat) : crcShift c = c % 2 * 0x82F63B78 ^^^ c / 2 := by
  unfold crcShift
  rcases Nat.mod_two_eq_zero_or_one c with h | h
  · rw [h, if_neg (by decide), Nat.shiftRight_one, Nat.zero_mul, Nat.zero_xor]
  · rw [h, if_pos rfl, Nat.shiftRight_one, Nat.one_mul, Nat.xor_comm]

/-- The division is linear. -/
theorem crcShift_xor (a b : Nat) : crcShift (a ^^^ b) = crcShift a ^^^ crcShift b := by
  have hmod : (a ^^^ b) % 2 * 0x82F63B78 = (a % 2 * 0x82F63B78) ^^^ (b % 2 * 0x82F63B78) := by
    have hbit : (a ^^^ b) % 2 = a % 2 ^^^ b % 2 := Nat.xor_mod_two_pow (n := 1)
    rw [hbit]
    rcases Nat.mod_two_eq_zero_or_one a with ha | ha <;>
      rcases Nat.mod_two_eq_zero_or_one b with hb | hb <;> rw [ha, hb] <;> rfl
  have hdiv : (a ^^^ b) / 2 = a / 2 ^^^ b / 2 := by
    simpa [Nat.shiftRight_one] using Nat.shiftRight_xor_distrib (a := a) (b := b) (i := 1)
  rw [crcShift_eq, crcShift_eq, crcShift_eq, hmod, hdiv]
  ac_rfl

/-- Eight shifts are linear in exclusive or. -/
theorem crcShift8_xor (a b : Nat) : crcShift8 (a ^^^ b) = crcShift8 a ^^^ crcShift8 b := by
  simp only [crcShift8, crcShift_xor]

theorem crcShift_double (y : Nat) : crcShift (2 * y) = y := by
  rw [crcShift_eq, Nat.mul_mod_right, Nat.zero_mul, Nat.zero_xor,
    Nat.mul_div_cancel_left _ (by decide)]

/-- The low byte is divided and the others move down. -/
theorem crcShift8_eq (c : Nat) : crcShift8 c = crcShift8 (c &&& 0xFF) ^^^ (c >>> 8) := by
  have hshift : crcShift8 (256 * (c >>> 8)) = c >>> 8 := by
    have h : 256 * (c >>> 8) = 2 * (2 * (2 * (2 * (2 * (2 * (2 * (2 * (c >>> 8)))))))) := by omega
    rw [h]
    simp only [crcShift8, crcShift_double]
  have hsplit : c = (c &&& 0xFF) ^^^ 256 * (c >>> 8) := by
    refine Nat.eq_of_testBit_eq fun i => ?_
    have hlow : Nat.testBit 0xFF i = decide (i < 8) := Nat.testBit_two_pow_sub_one 8 i
    have hhigh : Nat.testBit (256 * (c >>> 8)) i = (decide (i ≥ 8) && c.testBit (8 + (i - 8))) := by
      rw [show 256 = 2 ^ 8 from rfl, Nat.testBit_two_pow_mul, Nat.testBit_shiftRight]
    rw [Nat.testBit_xor, Nat.testBit_and, hlow, hhigh]
    by_cases hi : i < 8
    · simp [hi, Nat.not_le.mpr hi]
    · rw [show 8 + (i - 8) = i by omega]
      simp [hi, Nat.not_lt.mp hi]
  calc crcShift8 c = crcShift8 ((c &&& 0xFF) ^^^ 256 * (c >>> 8)) := by rw [← hsplit]
    _ = crcShift8 (c &&& 0xFF) ^^^ (c >>> 8) := by rw [crcShift8_xor, hshift]

/-- The division of a word. -/
def crcWord (c : Nat) : Nat := crcShift8 (crcShift8 (crcShift8 (crcShift8 c)))

/-- A slice is its four bytes divided together. -/
theorem crc32cSlice_eq {c : Nat} (a : UInt8) (hc : c < 2 ^ 32) :
    crc32cSlice c a 0 0 0 = crcWord (c ^^^ a.toNat) := by
  have hlt : c ^^^ a.toNat < 2 ^ 32 :=
    Nat.xor_lt_two_pow hc (Nat.lt_of_lt_of_le a.toNat_lt (by decide))
  have hword : a.toNat + 256 * UInt8.toNat 0 + 65536 * UInt8.toNat 0 + 16777216 * UInt8.toNat 0 =
    a.toNat := by simp
  unfold crc32cSlice crcWord
  rw [hword]
  dsimp only
  generalize c ^^^ a.toNat = x at hlt ⊢
  have h₁ : crcShift8 (x >>> 8) = crcShift8 ((x >>> 8) &&& 0xFF) ^^^ (x >>> 16) := by
    rw [crcShift8_eq (x >>> 8), ← Nat.shiftRight_add]
  have h₂ : crcShift8 (x >>> 16) = crcShift8 ((x >>> 16) &&& 0xFF) ^^^ (x >>> 24) := by
    rw [crcShift8_eq (x >>> 16), ← Nat.shiftRight_add]
  have h₃ : crcShift8 (x >>> 24) = crcShift8 ((x >>> 24) &&& 0xFF) := by
    have hzero : x >>> 32 = 0 := by
      rw [Nat.shiftRight_eq_div_pow]
      exact Nat.div_eq_of_lt hlt
    rw [crcShift8_eq (x >>> 24), ← Nat.shiftRight_add, hzero, Nat.xor_zero]
  rw [crcShift8_eq x]
  simp only [crc32cLookup, crcShift8_xor, h₁, h₂, h₃]
  generalize crcShift8 ((x >>> 24) &&& 0xFF) = b₃
  generalize crcShift8 (crcShift8 ((x >>> 16) &&& 0xFF)) = b₂
  generalize crcShift8 (crcShift8 (crcShift8 ((x >>> 8) &&& 0xFF))) = b₁
  generalize crcShift8 (crcShift8 (crcShift8 (crcShift8 (x &&& 0xFF)))) = b₀
  ac_rfl

theorem crcShift_mapsTo : Set.MapsTo crcShift (Set.Iio (2 ^ 32)) (Set.Iio (2 ^ 32)) := by
  intro c hc
  rw [Set.mem_Iio] at hc ⊢
  rw [crcShift_eq]
  refine Nat.xor_lt_two_pow ?_ ?_ <;> omega

/-- The division loses nothing. -/
theorem crcShift_injOn : Set.InjOn crcShift (Set.Iio (2 ^ 32)) := by
  intro a ha b hb h
  rw [Set.mem_Iio] at ha hb
  have hlt : a ^^^ b < 2 ^ 32 := Nat.xor_lt_two_pow ha hb
  have hzero : crcShift (a ^^^ b) = 0 := by rw [crcShift_xor, h, Nat.xor_self]
  rw [crcShift_eq, Nat.xor_eq_zero_iff] at hzero
  refine Nat.xor_eq_zero_iff.mp ?_
  omega

theorem crcShift8_mapsTo : Set.MapsTo crcShift8 (Set.Iio (2 ^ 32)) (Set.Iio (2 ^ 32)) := by
  intro c hc
  unfold crcShift8
  repeat refine crcShift_mapsTo ?_
  exact hc

/-- Eight shifts of a 32-bit word can be undone. -/
theorem crcShift8_injOn : Set.InjOn crcShift8 (Set.Iio (2 ^ 32)) := by
  have h₂ := crcShift_injOn.comp crcShift_injOn crcShift_mapsTo
  have m₂ := crcShift_mapsTo.comp crcShift_mapsTo
  have h₄ := h₂.comp h₂ m₂
  exact h₄.comp h₄ (m₂.comp m₂)

theorem crcWord_mapsTo : Set.MapsTo crcWord (Set.Iio (2 ^ 32)) (Set.Iio (2 ^ 32)) := by
  intro c hc
  unfold crcWord
  repeat refine crcShift8_mapsTo ?_
  exact hc

/-- So can four zero bytes. -/
theorem crcWord_injOn : Set.InjOn crcWord (Set.Iio (2 ^ 32)) := by
  intro a ha b hb h
  have ha₁ := crcShift8_mapsTo ha
  have ha₂ := crcShift8_mapsTo ha₁
  have hb₁ := crcShift8_mapsTo hb
  have hb₂ := crcShift8_mapsTo hb₁
  have h₃ := crcShift8_injOn (crcShift8_mapsTo ha₂) (crcShift8_mapsTo hb₂) h
  exact crcShift8_injOn ha hb (crcShift8_injOn ha₁ hb₁ (crcShift8_injOn ha₂ hb₂ h₃))

theorem crc32cLoop_nil (c : Nat) : crc32cLoop c [] = c := by
  rw [crc32cLoop]
  · rfl
  · intro _ _ _ _ _ h
    cases h

/-- Zero bytes only move the remainder on. -/
theorem crc32cLoop_zeros {c : Nat} (n : Nat) (hc : c < 2 ^ 32) (rest : List UInt8) :
    crc32cLoop c (List.replicate (4 * n) 0 ++ rest) = crc32cLoop (crcWord^[n] c) rest := by
  induction n generalizing c with
  | zero => rfl
  | succ n ih =>
    have hlist : List.replicate (4 * (n + 1)) (0 : UInt8) ++ rest =
      0 :: 0 :: 0 :: 0 :: (List.replicate (4 * n) 0 ++ rest) := rfl
    have hslice : crc32cSlice c 0 0 0 0 = crcWord c := by
      rw [crc32cSlice_eq 0 hc, UInt8.toNat_zero, Nat.xor_zero]
    rw [hlist, crc32cLoop, hslice, ih (crcWord_mapsTo hc), Function.iterate_succ_apply]

/-- Evaluate a number before going on with it. -/
def strictly {α : Type} (c : Nat) (k : Nat → α) : α := Nat.casesOn c (k 0) fun n => k (n + 1)

theorem strictly_eq {α : Type} (c : Nat) (k : Nat → α) : strictly c k = k c := by
  cases c <;> rfl

/-- `crcShift`, `n` times, evaluated at each step. -/
def crcShifts (n : Nat) : Nat → Nat :=
  Nat.rec (fun c => c) (fun _ next c =>
    strictly (Nat.xor (Nat.mul (Nat.land c 1) 0x82F63B78) (Nat.shiftRight c 1)) next) n

theorem crcShifts_succ (n c : Nat) : crcShifts (n + 1) c = crcShifts n (crcShift c) := by
  have hstep : crcShifts (n + 1) c = strictly ((c &&& 1) * 0x82F63B78 ^^^ c >>> 1) (crcShifts n) :=
    rfl
  rw [hstep, strictly_eq, Nat.and_one_is_mod, Nat.shiftRight_one, ← crcShift_eq]

theorem crcShifts_eight (n c : Nat) : crcShifts (n + 8) c = crcShifts n (crcShift8 c) := by
  simp only [crcShifts_succ, crcShift8]

/-- Shifting 32 times is feeding four zero bytes. -/
theorem crcShifts_eq (n c : Nat) : crcShifts (32 * n) c = crcWord^[n] c := by
  induction n generalizing c with
  | zero => rfl
  | succ n ih =>
    rw [Nat.mul_succ, Function.iterate_succ_apply, ← ih, crcWord, crcShifts_eight (32 * n + 24),
      crcShifts_eight (32 * n + 16), crcShifts_eight (32 * n + 8), crcShifts_eight (32 * n)]

/-- The journal holds no number between the checksum of block 0 and block 1. -/
theorem wrapped_zero {x : Nat} (h₁ : 12 ≤ x) (h₂ : x < 4096) : wrapped.jd x = 0 := by
  refine image_of_not_mem ?_
  simp only [List.forall_mem_cons]
  refine ⟨?_, ?_, ?_, ?_, ?_, ?_, ?_, ?_, ?_, fun _ h => absurd h List.not_mem_nil⟩ <;> omega

theorem zeros_crc : crcWord^[1020] 0xFFFFFFFF = 2085443791 ^^^ 0xFFFFFFFF := by
  rw [← crcShifts_eq]
  decide +kernel

theorem wrapped_crc : crc32c (slice wrapped.jd 16 4080) = 2085443791 := by
  have hzero : slice wrapped.jd 16 4080 = List.replicate (4 * 1020) 0 ++ [] :=
    (slice_replicate fun x h₁ h₂ => wrapped_zero (by omega) h₂).trans (List.append_nil _).symm
  rw [hzero, crc32c, crc32cLoop_zeros 1020 (by decide), crc32cLoop_nil, zeros_crc, Nat.xor_assoc,
    Nat.xor_self, Nat.xor_zero]

/-- The bytes of block 0 once it has been marked. -/
theorem wrappedMarked_slice : slice wrappedMarked 16 4080 =
    List.replicate (4 * 2) 0 ++ (2 :: 0 :: 0 :: 0 :: (List.replicate (4 * 1017) 0 ++ [])) := by
  have hout : ∀ x, 12 ≤ x → x < 4096 → x < 24 ∨ 26 ≤ x → wrappedMarked x = 0 :=
    fun x h₁ h₂ h₃ => (putLE_of_not_mem h₃).trans (wrapped_zero h₁ h₂)
  have h₁ : slice wrappedMarked 16 8 = List.replicate (4 * 2) 0 :=
    slice_replicate fun x h₁ h₂ => hout x (by omega) (by omega) (by omega)
  have h₂ : slice wrappedMarked 24 4 = [2, 0, 0, 0] := by decide
  have h₃ : slice wrappedMarked 28 4068 = List.replicate (4 * 1017) 0 ++ [] :=
    (slice_replicate fun x h₁ h₂ => hout x (by omega) (by omega) (by omega)).trans
      (List.append_nil _).symm
  rw [show 4080 = 8 + (4 + 4068) from rfl, slice_add, slice_add, h₁, h₂, h₃, List.cons_append,
    List.cons_append, List.cons_append, List.cons_append, List.nil_append]

/-- The mark changes the checksum, as the division loses nothing. -/
theorem wrappedMarked_crc : crc32c (slice wrappedMarked 16 4080) ≠ 2085443791 := by
  generalize hx : crcWord^[2] 0xFFFFFFFF = x
  have hlt : x < 2 ^ 32 := hx ▸ crcWord_mapsTo.iterate 2 (show 0xFFFFFFFF < 2 ^ 32 by decide)
  have hlt' : x ^^^ 2 < 2 ^ 32 := Nat.xor_lt_two_pow hlt (by decide)
  have htwo : UInt8.toNat 2 = 2 := rfl
  have hloop : crc32cLoop 0xFFFFFFFF (slice wrappedMarked 16 4080) = crcWord^[1018] (x ^^^ 2) := by
    rw [wrappedMarked_slice, crc32cLoop_zeros 2 (by decide), crc32cLoop, hx, crc32cSlice_eq 2 hlt,
      htwo, crc32cLoop_zeros 1017 (crcWord_mapsTo hlt'), crc32cLoop_nil,
      ← Function.iterate_succ_apply crcWord]
  have hzeros : crcWord^[1018] x = 2085443791 ^^^ 0xFFFFFFFF := by
    rw [← zeros_crc, ← hx, ← Function.iterate_add_apply]
  intro h
  rw [crc32c, hloop] at h
  have hsame : crcWord^[1018] (x ^^^ 2) = crcWord^[1018] x := by
    rw [hzeros, ← h, Nat.xor_assoc, Nat.xor_self, Nat.xor_zero]
  have hbits := crcWord_injOn.iterate crcWord_mapsTo 1018 hlt' hlt hsame
  have hbit : Nat.testBit (x ^^^ 2) 1 = Nat.testBit x 1 := congrArg (Nat.testBit · 1) hbits
  rw [Nat.testBit_xor] at hbit
  revert hbit
  cases Nat.testBit x 1 <;> decide

theorem wrapped_potential : isPotentialMetablock wrapped.jd 0 = true := by
  have hcrc : crc32c (slice wrapped.jd (0 * blocksize + 16) (blocksize - 16)) = 2085443791 :=
    wrapped_crc
  unfold isPotentialMetablock
  rw [hcrc]
  decide

theorem wrappedMarked_not_potential : isPotentialMetablock wrappedMarked 0 = false := by
  have hcrc : crc32c (slice wrappedMarked (0 * blocksize + 16) (blocksize - 16)) ≠ 2085443791 :=
    wrappedMarked_crc
  have hsum : checksum wrappedMarked 0 = 2085443791 := by decide
  refine decide_eq_false ?_
  rw [hsum]
  rintro ⟨-, h | h⟩
  · exact absurd h (by decide)
  · exact hcrc h.symm

/-- Block 0 is rejected for its flags. -/
theorem wrapped_block_zero : analyzeBlock (start wrapped.jd 2) 0 =
    { start wrapped.jd 2 with jd := wrappedMarked } := by
  have hcheck : checkFlags wrapped.jd 0 = wrappedMarked := by
    have h₁ : has (flags wrapped.jd 0) (jfError ||| jfCorrupt) = false := by decide
    have h₂ : has (flags wrapped.jd 0) jfMeta = false := by decide
    have h₃ : nref wrappedMarked 0 = 0 := by decide
    unfold wrappedMarked at h₃ ⊢
    simp [checkFlags, markErrorIf, h₁, h₂, h₃]
  have hnref : nref wrappedMarked 0 = 0 := by decide
  have herror : has (flags wrappedMarked 0) jfError = true := has_markError _ _
  unfold analyzeBlock
  rw [start, if_pos wrapped_potential]
  dsimp only
  rw [hcheck, hnref]
  simp [herror]

/-- Block 0 is no metablock any more when block 1 is looked at, which is accepted. -/
theorem wrapped_block_one : analyzeBlock { start wrapped.jd 2 with jd := wrappedMarked } 1 =
    { jd := wrappedMarked, nb := 2, mr := [1], ok := true } := by
  have hpot : isPotentialMetablock wrappedMarked 1 = true := by decide
  have hcheck : checkFlags wrappedMarked 1 = wrappedMarked := by
    have h₁ : has (flags wrappedMarked 1) (jfError ||| jfCorrupt) = false := by decide
    have h₂ : has (flags wrappedMarked 1) jfMeta = true := by decide
    have h₃ : nref wrappedMarked 1 = 1 := by decide
    simp [checkFlags, markErrorIf, h₁, h₂, h₃, refSize]
  have hnref : nref wrappedMarked 1 = 1 := by decide
  have hclean : has (flags wrappedMarked 1) jfError = false := by decide
  have hflags : has (bflags wrappedMarked 1 0) jbfNonjournaled = false := by decide
  have hsum : bchecksum wrappedMarked 1 0 = nochecksum := by decide
  unfold analyzeBlock
  dsimp only [start]
  rw [if_pos hpot, hcheck, hnref]
  have hdata : isPotentialMetablock wrappedMarked ((1 + 1) % 2 ^ 32 % 2) = false :=
    wrappedMarked_not_potential
  have hrange : List.range 1 = [0] := rfl
  simp only [hrange, List.foldl_cons, List.foldl_nil, analyzeBlockReference, badData, hflags,
    hsum, hdata]
  simp [markErrorIf, hclean, insertMeta]

/-- What the analysis of the two blocks leaves. -/
theorem wrapped_looked : looked wrapped.jd wrapped.nb =
    { jd := wrappedMarked, nb := 2, mr := [1], ok := true } := by
  have hrange : List.range wrapped.nb = [0, 1] := rfl
  rw [looked, hrange, List.foldl_cons, List.foldl_cons, List.foldl_nil]
  exact (congrArg (analyzeBlock · 1) wrapped_block_zero).trans wrapped_block_one

/-- The analysis takes the journal whose reference wraps around. -/
theorem wrapped_accepted : (analyze wrapped.jd wrapped.nb).2 = true := by
  have h : analyze wrapped.jd wrapped.nb = analyzeMetas (looked wrapped.jd wrapped.nb) := rfl
  rw [h, wrapped_looked]
  decide

theorem wrapped_metas : wrapped.metas = [1] := by
  rw [Input.metas, (analyze_true wrapped_accepted).2, wrapped_looked]

theorem wrapped_clean : wrapped.Clean := by
  intro bi hbi
  rw [wrapped_metas, List.mem_singleton] at hbi
  subst hbi
  decide

/-- **The journal is accepted, and the replay writes data that is not the journal's.** -/
theorem wrapped_replays_marked : (analyze wrapped.jd wrapped.nb).2 = true ∧ wrapped.Clean ∧
    ¬ wrapped.ReplaysLatest := by
  refine ⟨wrapped_accepted, wrapped_clean, fun h => ?_⟩
  have hlatest : wrapped.latest 5 = some (1, 0) := by
    rw [Input.latest, wrapped_metas]
    decide
  have hnot := (replays_latest_at wrapped wrapped_accepted wrapped_clean 5).mp (h 5) (1, 0) hlatest
  have hdata : dataBlock wrapped.jd wrapped.nb 1 0 = 0 := by decide
  rw [hdata, wrapped_potential] at hnot
  cases hnot

end PugOS.Journal
