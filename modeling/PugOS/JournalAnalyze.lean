import PugOS.Journal

/-! # What the analysis of the blocks leaves

`analyze` looks at every block of the journal once.  It changes nothing but the
`flags` of a metablock it rejects, at that metablock's turn (`Touched`), so an
accepted metablock and a block that is no metablock keep their contents, and a
data block of an accepted metablock did not look like a metablock when the
metablock was accepted (`Looked`).  Two accepted metablocks therefore never share
a data block, and none is a data block of another (`data_block_inj`).
-/
namespace PugOS.Journal
open Bytes Ring

variable {m m' d : Mem} {b bi r nb : Nat}

/-! ## Reading a block -/

/-- Block `b` is the same in both memories. -/
def SameBlock (m m' : Mem) (b : Nat) : Prop :=
  ∀ x, b * blocksize ≤ x → x < b * blocksize + blocksize → m x = m' x

theorem SameBlock.symm (h : SameBlock m m' b) : SameBlock m' m b :=
  fun x h₁ h₂ => (h x h₁ h₂).symm

theorem SameBlock.trans {m'' : Mem} (h : SameBlock m m' b) (h' : SameBlock m' m'' b) :
    SameBlock m m'' b :=
  fun x h₁ h₂ => (h x h₁ h₂).trans (h' x h₁ h₂)

/-- A number inside a block is read the same from both memories. -/
theorem SameBlock.getLE {o n : Nat} (h : SameBlock m m' b) (ho : o + n ≤ blocksize) :
    getLE m (b * blocksize + o) n = getLE m' (b * blocksize + o) n :=
  getLE_congr fun x h₁ h₂ => h x (by omega) (by omega)

/-- The same block has the same bytes. -/
theorem SameBlock.slice {o n : Nat} (h : SameBlock m m' b) (ho : o + n ≤ blocksize) :
    slice m (b * blocksize + o) n = slice m' (b * blocksize + o) n :=
  slice_congr fun x h₁ h₂ => h x (by omega) (by omega)

section Fields
variable (h : SameBlock m m' b)
include h

/-- So it has the same fields. -/
theorem SameBlock.magic : magic m b = magic m' b :=
  getLE_congr fun x h₁ h₂ => h x h₁ (Nat.lt_of_lt_of_le h₂ (Nat.add_le_add_left (by decide) _))

theorem SameBlock.checksum : checksum m b = checksum m' b := h.getLE (by decide)
theorem SameBlock.seq : seq m b = seq m' b := h.getLE (by decide)
theorem SameBlock.tid : tid m b = tid m' b := h.getLE (by decide)
theorem SameBlock.flags : flags m b = flags m' b := h.getLE (by decide)
theorem SameBlock.nref : nref m b = nref m' b := h.getLE (by decide)
theorem SameBlock.commitBoundary : commitBoundary m b = commitBoundary m' b := h.getLE (by decide)
theorem SameBlock.completeBoundary : completeBoundary m b = completeBoundary m' b :=
  h.getLE (by decide)

/-- And the same references. -/
theorem SameBlock.bn (hr : r < refSize) : bn m b r = bn m' b r := by
  unfold Journal.bn refAddr
  rw [Nat.add_assoc]
  exact h.getLE (by unfold blocksize; unfold refSize at hr; omega)

theorem SameBlock.bflags (hr : r < refSize) : bflags m b r = bflags m' b r := by
  unfold Journal.bflags refAddr
  rw [Nat.add_assoc, Nat.add_assoc]
  exact h.getLE (by unfold blocksize; unfold refSize at hr; omega)

theorem SameBlock.bchecksum (hr : r < refSize) : bchecksum m b r = bchecksum m' b r := by
  unfold Journal.bchecksum refAddr
  rw [Nat.add_assoc, Nat.add_assoc]
  exact h.getLE (by unfold blocksize; unfold refSize at hr; omega)

theorem SameBlock.block : block m b = block m' b := slice_congr h

/-- It looks like a metablock in both, or in none. -/
theorem SameBlock.isPotentialMetablock :
    isPotentialMetablock m b = isPotentialMetablock m' b := by
  unfold Journal.isPotentialMetablock
  rw [h.magic, h.checksum, h.slice (by decide)]

end Fields

/-! ## The journaled references -/

/-- Reference `r` of block `bi` has its data in the journal. -/
def journaled (m : Mem) (bi r : Nat) : Bool := !has (bflags m bi r) jbfNonjournaled

/-- `delta` at reference `r`: one more than the number of journaled references before
it. -/
def delta (m : Mem) (bi r : Nat) : Nat := 1 + (List.range r).countP (journaled m bi)

/-- The journal block that holds the data of reference `r` of block `bi`. -/
def dataBlock (m : Mem) (nb bi r : Nat) : Nat := (bi + delta m bi r) % nb

theorem delta_zero (m : Mem) (bi : Nat) : delta m bi 0 = 1 := rfl

/-- A journaled reference has a block of its own. -/
theorem delta_succ (m : Mem) (bi r : Nat) :
    delta m bi (r + 1) = delta m bi r + if journaled m bi r then 1 else 0 := by
  unfold delta
  rw [List.range_succ, List.countP_append, List.countP_singleton]
  omega

/-- There are no more of them than references. -/
theorem delta_le (m : Mem) (bi r : Nat) : delta m bi r ≤ r + 1 := by
  unfold delta
  have := List.countP_le_length (l := List.range r) (p := journaled m bi)
  rw [List.length_range] at this
  omega

theorem delta_congr {n : Nat} (h : ∀ r < n, journaled m bi r = journaled m' bi r) (hr : r ≤ n) :
    delta m bi r = delta m' bi r := by
  unfold delta
  refine congrArg (1 + ·) (List.countP_congr fun x hx => ?_)
  rw [h x (by have := List.mem_range.mp hx; omega)]

/-- Later journaled references have a larger `delta`. -/
theorem delta_lt {r' : Nat} (h : r < r') (hj : journaled m bi r) :
    delta m bi r < delta m bi r' := by
  induction r' with
  | zero => omega
  | succ r' ih =>
    rw [delta_succ]
    rcases Nat.lt_succ_iff_lt_or_eq.mp h with h | rfl
    · have := ih h
      omega
    · rw [if_pos hj]
      omega

/-! ## One metablock -/

/-- `m'` is `m` but for the `flags` of block `bi`, and is `m` unless they carry
`jf_error`. -/
structure Touched (bi : Nat) (m m' : Mem) : Prop where
  off : ∀ x, (x < bi * blocksize + 24 ∨ bi * blocksize + 26 ≤ x) → m' x = m x
  clean : has (flags m' bi) jfError = false → m' = m

theorem Touched.refl (bi : Nat) (m : Mem) : Touched bi m m := ⟨fun _ _ => rfl, fun _ => rfl⟩

theorem Touched.trans {m'' : Mem} (h : Touched bi m m') (h' : Touched bi m' m'') :
    Touched bi m m'' := by
  refine ⟨fun x hx => (h'.off x hx).trans (h.off x hx), fun hc => ?_⟩
  have h₂ := h'.clean hc
  rw [h₂] at hc
  exact h₂.trans (h.clean hc)

theorem has_or_self (x mask : Nat) (h : mask ≠ 0) : has (x ||| mask) mask = true := by
  unfold has
  rw [Nat.and_or_distrib_right, Nat.and_self, decide_eq_true_iff]
  intro h0
  exact h (Nat.or_eq_zero_iff.mp h0).2

theorem flags_lt (m : Mem) (bi : Nat) : flags m bi < 2 ^ 16 := getLE_lt m _ 2

/-- The error flag is set beside the others. -/
theorem flags_markError (m : Mem) (bi : Nat) : flags (markError m bi) bi = flags m bi ||| jfError :=
  getLE_putLE _ _ (Nat.or_lt_two_pow (flags_lt m bi) (by decide))

/-- So it is set. -/
theorem has_markError (m : Mem) (bi : Nat) : has (flags (markError m bi) bi) jfError = true := by
  rw [flags_markError]
  exact has_or_self _ _ (by decide)

/-- Marking a block touches its flags alone. -/
theorem Touched.markErrorIf (bi : Nat) (m : Mem) (failed : Bool) :
    Touched bi m (markErrorIf m bi failed) := by
  unfold Journal.markErrorIf
  split
  · refine ⟨fun x hx => putLE_of_not_mem (by omega), fun hc => ?_⟩
    rw [has_markError] at hc
    cases hc
  · exact .refl bi m

/-- An unmarked metablock passed the check. -/
theorem markErrorIf_clean {failed : Bool}
    (h : has (flags (markErrorIf m bi failed) bi) jfError = false) : failed = false := by
  cases failed with
  | false => rfl
  | true =>
    rw [markErrorIf, if_pos rfl, has_markError] at h
    cases h

/-- The references of any metablock lie outside the `flags` of block `bi`. -/
theorem Touched.getLE {a n : Nat} (h : Touched bi m m')
    (ha : a + n ≤ bi * blocksize + 24 ∨ bi * blocksize + 26 ≤ a) :
    getLE m' a n = getLE m a n :=
  getLE_congr fun x h₁ h₂ => h.off x (by omega)

/-- So the number of references is as before. -/
theorem Touched.nref (h : Touched bi m m') : nref m' bi = nref m bi := h.getLE (by omega)

theorem Touched.bflags (h : Touched bi m m') : bflags m' bi r = bflags m bi r :=
  h.getLE (by unfold refAddr; omega)

/-- The checks touch the flags alone. -/
theorem checkFlags_touched (m : Mem) (bi : Nat) : Touched bi m (checkFlags m bi) :=
  ((Touched.markErrorIf bi m _).trans (.markErrorIf bi _ _)).trans (.markErrorIf bi _ _)

/-- A check that leaves no `jf_error` has not failed and changes nothing. -/
theorem markErrorIf_passed {failed : Bool}
    (h : has (flags (markErrorIf m bi failed) bi) jfError = false) :
    failed = false ∧ markErrorIf m bi failed = m :=
  ⟨markErrorIf_clean h, (Touched.markErrorIf bi m failed).clean h⟩

/-- A metablock that passes the checks of its flags has passed each of them. -/
theorem checkFlags_clean (h : has (flags (checkFlags m bi) bi) jfError = false) :
    has (flags m bi) (jfError ||| jfCorrupt) = false ∧ has (flags m bi) jfMeta = true ∧
      nref m bi ≤ refSize := by
  unfold checkFlags at h
  dsimp only at h
  obtain ⟨hn, h₃⟩ := markErrorIf_passed h
  rw [h₃] at h
  obtain ⟨hmeta, h₂⟩ := markErrorIf_passed h
  rw [h₂] at h hn
  obtain ⟨herr, h₁⟩ := markErrorIf_passed h
  rw [h₁] at hmeta hn
  refine ⟨herr, ?_, ?_⟩
  · simpa using hmeta
  · simpa using hn

/-- What the loop over the references of block `bi` finds. -/
structure Scanned (s : Replayer) (bi n : Nat) (x : Replayer × Nat) : Prop where
  touched : Touched bi s.jd x.1.jd
  nb : x.1.nb = s.nb
  mr : x.1.mr = s.mr
  delta : x.2 = delta s.jd bi n
  ok : x.1.ok = true → s.ok = true ∧ ∀ r < n, journaled s.jd bi r → Journal.delta s.jd bi r < s.nb
  data : has (flags x.1.jd bi) jfError = false → ∀ r < n, journaled s.jd bi r →
    badData s.jd bi r ((bi + Journal.delta s.jd bi r) % 2 ^ 32 % s.nb) = false

/-- One reference more. -/
theorem analyzeBlockReference_scanned {s : Replayer} {n : Nat} {x : Replayer × Nat}
    (h : Scanned s bi n x) : Scanned s bi (n + 1) (analyzeBlockReference bi x n) := by
  obtain ⟨s', δ⟩ := x
  obtain ⟨ht, hnb, hmr, rfl, hok, hdata⟩ := h
  dsimp only at *
  have hfl : has (bflags s'.jd bi n) jbfNonjournaled = !journaled s.jd bi n := by
    rw [ht.bflags, journaled, Bool.not_not]
  unfold analyzeBlockReference
  dsimp only
  rw [hfl]
  cases hj : journaled s.jd bi n with
  | false =>
    have hlast : ∀ {P : Nat → Prop}, (∀ r < n, journaled s.jd bi r → P r) →
        ∀ r < n + 1, journaled s.jd bi r → P r := by
      intro P hP r hr hjr
      rcases Nat.lt_succ_iff_lt_or_eq.mp hr with hr | rfl
      · exact hP r hr hjr
      · rw [hj] at hjr
        cases hjr
    refine ⟨ht, hnb, hmr, ?_, fun h => ⟨(hok h).1, hlast (hok h).2⟩, fun h => hlast (hdata h)⟩
    simp [delta_succ, hj]
  | true =>
    simp only [Bool.not_true, Bool.false_eq_true, if_false]
    generalize hb : badData s'.jd bi n _ = bad
    refine ⟨ht.trans (.markErrorIf ..), hnb, hmr, by simp [delta_succ, hj], ?_, ?_⟩
    · intro h
      simp only [Bool.and_eq_true, decide_eq_true_eq] at h
      refine ⟨(hok h.1).1, fun r hr hjr => ?_⟩
      rcases Nat.lt_succ_iff_lt_or_eq.mp hr with hr | rfl
      · exact (hok h.1).2 r hr hjr
      · rw [hnb] at h
        exact h.2
    · intro h r hr hjr
      -- nothing was marked, so the memory is still the one the loop began with
      have hbad : bad = false := markErrorIf_clean h
      have hclean := (Touched.markErrorIf bi s'.jd bad).clean h
      dsimp only at h
      rw [hclean] at h
      have hjd : s'.jd = s.jd := ht.clean h
      rcases Nat.lt_succ_iff_lt_or_eq.mp hr with hr | rfl
      · exact hdata h r hr hjr
      · rw [hbad, hjd, hnb] at hb
        exact hb

/-- All of them. -/
theorem references_scanned (s : Replayer) (bi n : Nat) :
    Scanned s bi n ((List.range n).foldl (analyzeBlockReference bi) (s, 1)) := by
  induction n with
  | zero => exact ⟨.refl .., rfl, rfl, rfl, fun h => ⟨h, by simp⟩, by simp⟩
  | succ n ih =>
    rw [List.range_succ, List.foldl_append]
    exact analyzeBlockReference_scanned ih

/-! ## The whole journal -/

/-- A metablock is inserted among the others. -/
theorem mem_insertMeta {x : Nat} {l : List Nat} : x ∈ insertMeta m bi l ↔ x = bi ∨ x ∈ l := by
  induction l with
  | nil => simp [insertMeta]
  | cons y l ih =>
    unfold insertMeta
    split
    · rw [List.mem_cons, ih, List.mem_cons]
      exact or_left_comm
    · simp

/-- It is there once. -/
theorem nodup_insertMeta {l : List Nat} (h : l.Nodup) (hbi : bi ∉ l) :
    (insertMeta m bi l).Nodup := by
  induction l with
  | nil => simp [insertMeta]
  | cons y l ih =>
    obtain ⟨hy, hl⟩ := List.nodup_cons.mp h
    unfold insertMeta
    split
    · refine List.nodup_cons.mpr ⟨?_, ih hl (fun h => hbi (List.mem_cons_of_mem _ h))⟩
      rw [mem_insertMeta]
      rintro (rfl | hmem)
      · exact hbi List.mem_cons_self
      · exact hy hmem
    · exact List.nodup_cons.mpr ⟨hbi, h⟩

/-- The state of the analysis of the journal `d` when the blocks below `k` have been
looked at. -/
structure Looked (d : Mem) (nb k : Nat) (s : Replayer) : Prop where
  length : s.nb = nb
  lt : ∀ bi ∈ s.mr, bi < k
  nodup : s.mr.Nodup
  off : ∀ x, x % blocksize ≠ 24 → x % blocksize ≠ 25 → s.jd x = d x
  kept : ∀ b, (k ≤ b ∨ isPotentialMetablock d b = false ∨ b ∈ s.mr) → SameBlock s.jd d b
  accepted : ∀ bi ∈ s.mr, isPotentialMetablock d bi = true ∧ nref d bi ≤ refSize
  data : s.ok = true → ∀ bi ∈ s.mr, ∀ r < nref d bi, journaled d bi r →
    delta d bi r < nb ∧ isPotentialMetablock s.jd (dataBlock d nb bi r) = false

/-- A metablock's own `flags` are in no other block. -/
theorem Touched.sameBlock (h : Touched bi m m') (hb : b ≠ bi) : SameBlock m' m b := by
  intro x h₁ h₂
  refine h.off x ?_
  unfold blocksize at *
  omega

/-- Bytes that are no flags are as before. -/
theorem Touched.off_mod (h : Touched bi m m') {x : Nat} (h₁ : x % blocksize ≠ 24)
    (h₂ : x % blocksize ≠ 25) : m' x = m x := by
  refine h.off x ?_
  unfold blocksize at *
  omega

theorem SameBlock.journaled (h : SameBlock m m' bi) (hr : r < refSize) :
    journaled m bi r = journaled m' bi r := by
  unfold Journal.journaled
  rw [h.bflags hr]

theorem SameBlock.delta (h : SameBlock m m' bi) (hr : r ≤ refSize) :
    delta m bi r = delta m' bi r :=
  delta_congr (fun _ => h.journaled) hr

/-- The checks `analyze_block` makes of a potential metablock. -/
def scan (s : Replayer) (bi : Nat) : Replayer × Nat :=
  (List.range (nref s.jd bi)).foldl (analyzeBlockReference bi)
    ({ s with jd := checkFlags s.jd bi }, 1)

/-- A block that looks like a metablock is accepted, unless a check has failed. -/
theorem analyzeBlock_eq (s : Replayer) (hpot : isPotentialMetablock s.jd bi = true) :
    analyzeBlock s bi = if has (flags (scan s bi).1.jd bi) jfError then (scan s bi).1
      else { (scan s bi).1 with mr := insertMeta (scan s bi).1.jd bi (scan s bi).1.mr } := by
  unfold analyzeBlock scan
  rw [if_pos hpot]
  dsimp only
  rw [(checkFlags_touched s.jd bi).nref]

/-- The references are scanned after the flags. -/
theorem scan_scanned (s : Replayer) (bi : Nat) :
    Scanned { s with jd := checkFlags s.jd bi } bi (nref s.jd bi) (scan s bi) :=
  references_scanned _ bi _

/-- Both touch the flags alone. -/
theorem scan_touched (s : Replayer) (bi : Nat) : Touched bi s.jd (scan s bi).1.jd :=
  (checkFlags_touched s.jd bi).trans (scan_scanned s bi).touched

/-- A metablock that passes the checks has passed those of its flags, and nothing was
touched. -/
theorem scan_clean {s : Replayer} (h : has (flags (scan s bi).1.jd bi) jfError = false) :
    (scan s bi).1.jd = s.jd ∧ checkFlags s.jd bi = s.jd ∧
      has (flags s.jd bi) (jfError ||| jfCorrupt) = false ∧ has (flags s.jd bi) jfMeta = true ∧
      nref s.jd bi ≤ refSize := by
  have h₁ : (scan s bi).1.jd = checkFlags s.jd bi := (scan_scanned s bi).touched.clean h
  have hjd := (scan_touched s bi).clean h
  rw [h₁] at h
  exact ⟨hjd, h₁.symm.trans hjd, checkFlags_clean h⟩

/-- What `analyze_block` does to a potential metablock: it rejects it and touches its
flags, or accepts it and touches nothing. -/
theorem analyzeBlock_cases (s : Replayer) (hpot : isPotentialMetablock s.jd bi = true) :
    (has (flags (scan s bi).1.jd bi) jfError = true ∧ analyzeBlock s bi = (scan s bi).1) ∨
      (has (flags (scan s bi).1.jd bi) jfError = false ∧
        analyzeBlock s bi = { (scan s bi).1 with mr := insertMeta s.jd bi s.mr }) := by
  rw [analyzeBlock_eq s hpot]
  cases he : has (flags (scan s bi).1.jd bi) jfError with
  | true => exact .inl ⟨rfl, by simp⟩
  | false => exact .inr ⟨rfl, by simp [(scan_clean he).1, (scan_scanned s bi).mr]⟩

/-- **One block more has been looked at.** -/
theorem analyzeBlock_looked {k : Nat} {s : Replayer} (hsmall : nb + refSize ≤ 2 ^ 32) (hk : k < nb)
    (h : Looked d nb k s) : Looked d nb (k + 1) (analyzeBlock s k) := by
  have hsame : SameBlock s.jd d k := h.kept k (.inl (Nat.le_refl k))
  by_cases hpot : isPotentialMetablock s.jd k = true
  · have hknot : k ∉ s.mr := fun hmem => Nat.lt_irrefl k (h.lt k hmem)
    have hpotd : isPotentialMetablock d k = true := hsame.isPotentialMetablock ▸ hpot
    have hscan := scan_scanned s k
    have ht := scan_touched s k
    rcases analyzeBlock_cases s hpot with ⟨he, hx⟩ | ⟨he, hx⟩
    · rw [hx]
      have hne : ∀ b, (k + 1 ≤ b ∨ isPotentialMetablock d b = false ∨ b ∈ s.mr) → b ≠ k := by
        rintro b hb rfl
        rcases hb with hb | hb | hb
        · omega
        · rw [hpotd] at hb
          cases hb
        · exact hknot hb
      refine ⟨hscan.nb.trans h.length, ?_, ?_, ?_, ?_, ?_, ?_⟩
      · intro b hb
        rw [hscan.mr] at hb
        exact Nat.lt_succ_of_lt (h.lt b hb)
      · rw [hscan.mr]
        exact h.nodup
      · intro y h₁ h₂
        exact (ht.off_mod h₁ h₂).trans (h.off y h₁ h₂)
      · intro b hb
        rw [hscan.mr] at hb
        exact (ht.sameBlock (hne b hb)).trans (h.kept b (hb.imp_left Nat.le_of_succ_le))
      · rw [hscan.mr]
        exact h.accepted
      · intro hok b hb r hr hj
        rw [hscan.mr] at hb
        obtain ⟨hδ, hdata⟩ := h.data (hscan.ok hok).1 b hb r hr hj
        refine ⟨hδ, ?_⟩
        have hdk : dataBlock d nb b r ≠ k := by
          rintro hdk
          rw [hdk, hpot] at hdata
          cases hdata
        rw [(ht.sameBlock hdk).isPotentialMetablock]
        exact hdata
    · rw [hx]
      obtain ⟨hjd, hcf, -, -, hnref⟩ := scan_clean he
      refine ⟨hscan.nb.trans h.length, ?_, nodup_insertMeta h.nodup hknot, ?_, ?_, ?_, ?_⟩
      · intro b hb
        rcases mem_insertMeta.mp hb with rfl | hb
        · exact Nat.lt_succ_self b
        · exact Nat.lt_succ_of_lt (h.lt b hb)
      · exact hjd ▸ h.off
      · intro b hb
        rw [mem_insertMeta] at hb
        dsimp only
        rw [hjd]
        rcases hb with hb | hb | rfl | hb
        · exact h.kept b (.inl (Nat.le_of_succ_le hb))
        · exact h.kept b (.inr (.inl hb))
        · exact hsame
        · exact h.kept b (.inr (.inr hb))
      · intro b hb
        rcases mem_insertMeta.mp hb with rfl | hb
        · exact ⟨hpotd, hsame.nref ▸ hnref⟩
        · exact h.accepted b hb
      · intro hok b hb r hr hj
        dsimp only at hok ⊢
        rw [hjd]
        rcases mem_insertMeta.mp hb with rfl | hb
        · have hr' : r < refSize := Nat.lt_of_lt_of_le (hsame.nref ▸ hr) hnref
          have hj' : journaled (checkFlags s.jd b) b r = true := by
            rw [hcf, hsame.journaled hr']
            exact hj
          have hδ : delta (checkFlags s.jd b) b r = delta d b r := by
            rw [hcf, hsame.delta (Nat.le_of_lt hr')]
          have hlt := (hscan.ok hok).2 r (hsame.nref ▸ hr) hj'
          have hdata := (Bool.or_eq_false_iff.mp (hscan.data he r (hsame.nref ▸ hr) hj')).1
          dsimp only at hlt hdata
          rw [hδ, h.length] at hlt hdata
          rw [hcf] at hdata
          refine ⟨hlt, ?_⟩
          have hsum : (b + delta d b r) % 2 ^ 32 = b + delta d b r := by
            have := delta_le d b r
            exact Nat.mod_eq_of_lt (by omega)
          rw [hsum] at hdata
          exact hdata
        · exact h.data (hscan.ok hok).1 b hb r hr hj
  · have hs : analyzeBlock s k = s := by
      unfold analyzeBlock
      rw [if_neg hpot]
    rw [hs]
    refine ⟨h.length, fun b hb => Nat.lt_succ_of_lt (h.lt b hb), h.nodup, h.off, ?_, h.accepted,
      h.data⟩
    exact fun b hb => h.kept b (hb.imp_left Nat.le_of_succ_le)

/-- The first state of `analyze`. -/
def start (d : Mem) (nb : Nat) : Replayer := { jd := d, nb := nb, mr := [], ok := true }

/-- **All of them have.** -/
theorem blocks_looked (hsmall : nb + refSize ≤ 2 ^ 32) {k : Nat} (hk : k ≤ nb) :
    Looked d nb k ((List.range k).foldl analyzeBlock (start d nb)) := by
  induction k with
  | zero =>
    change Looked d nb 0 (start d nb)
    refine ⟨rfl, ?_, List.nodup_nil, fun _ _ _ => rfl, fun _ _ _ _ _ => rfl, ?_, ?_⟩
    · exact fun bi hbi => absurd hbi List.not_mem_nil
    · exact fun bi hbi => absurd hbi List.not_mem_nil
    · exact fun _ bi hbi => absurd hbi List.not_mem_nil
  | succ k ih =>
    rw [List.range_succ, List.foldl_append, List.foldl_cons, List.foldl_nil]
    exact analyzeBlock_looked hsmall (by omega) (ih (by omega))

/-! ## Data blocks -/

/-- A metablock looks the same before and after the analysis unless it was rejected. -/
theorem Looked.potential {s : Replayer} (h : Looked d nb nb s) (hbi : bi ∈ s.mr) :
    isPotentialMetablock s.jd bi = true := by
  rw [(h.kept bi (.inr (.inr hbi))).isPotentialMetablock]
  exact (h.accepted bi hbi).1

/-- **No accepted metablock is a data block of an accepted metablock.** -/
theorem Looked.data_not_meta {s : Replayer} (h : Looked d nb nb s) (hok : s.ok = true) {b' : Nat}
    (hbi : bi ∈ s.mr) (hb' : b' ∈ s.mr) (hr : r < nref d bi) (hj : journaled d bi r) :
    dataBlock d nb bi r ≠ b' := by
  intro heq
  have hdata := (h.data hok bi hbi r hr hj).2
  rw [heq, h.potential hb'] at hdata
  cases hdata

/-- The blocks from `bi` on up to a data block of `bi` are data blocks of `bi`. -/
theorem exists_delta {n δ : Nat} (h₁ : 1 ≤ δ) (h₂ : δ < delta m bi n) :
    ∃ r < n, journaled m bi r ∧ delta m bi r = δ := by
  induction n with
  | zero =>
    rw [delta_zero] at h₂
    omega
  | succ n ih =>
    rw [delta_succ] at h₂
    split at h₂
    · rename_i hj
      by_cases hδ : δ = delta m bi n
      · exact ⟨n, Nat.lt_succ_self n, hj, hδ.symm⟩
      · obtain ⟨r, hr, hjr⟩ := ih (by omega)
        exact ⟨r, by omega, hjr⟩
    · obtain ⟨r, hr, hjr⟩ := ih (by omega)
      exact ⟨r, by omega, hjr⟩

/-- A data block of `bi` is not reached sooner from another metablock: that one
would be a data block of `bi` itself. -/
theorem Looked.delta_not_lt {s : Replayer} (h : Looked d nb nb s) (hok : s.ok = true)
    {b' r' : Nat} (hbi : bi ∈ s.mr) (hb' : b' ∈ s.mr) (hr : r < nref d bi)
    (heq : dataBlock d nb bi r = dataBlock d nb b' r') : ¬ delta d b' r' < delta d bi r := by
  intro hlt
  have hpos : 1 ≤ delta d b' r' := Nat.le_add_right 1 _
  obtain ⟨r₀, hr₀, hj₀, hδ₀⟩ : ∃ r₀ < r, journaled d bi r₀ ∧
      delta d bi r₀ = delta d bi r - delta d b' r' := exists_delta (by omega) (by omega)
  refine h.data_not_meta hok hbi hb' (Nat.lt_trans hr₀ hr) hj₀ ?_
  -- both sides are `delta d b' r'` blocks before the common data block
  have hmod : (bi + delta d bi r₀) + delta d b' r' ≡ b' + delta d b' r' [MOD nb] := by
    rw [hδ₀, Nat.add_assoc, Nat.sub_add_cancel (Nat.le_of_lt hlt)]
    exact heq
  have hb := Nat.ModEq.add_right_cancel' _ hmod
  rwa [Nat.ModEq, Nat.mod_eq_of_lt (h.lt b' hb')] at hb

/-- **Accepted metablocks share no data block**, and a metablock's references have
different ones. -/
theorem Looked.data_block_inj {s : Replayer} (h : Looked d nb nb s) (hok : s.ok = true)
    {b' r' : Nat} (hbi : bi ∈ s.mr) (hb' : b' ∈ s.mr) (hr : r < nref d bi) (hr' : r' < nref d b')
    (hj : journaled d bi r) (hj' : journaled d b' r')
    (heq : dataBlock d nb bi r = dataBlock d nb b' r') : bi = b' ∧ r = r' := by
  have h₁ := h.delta_not_lt hok hbi hb' hr heq
  have h₂ := h.delta_not_lt hok hb' hbi hr' heq.symm
  have hδ : delta d bi r = delta d b' r' := by omega
  have hmod : bi + delta d b' r' ≡ b' + delta d b' r' [MOD nb] := by
    rw [dataBlock, hδ] at heq
    exact heq
  have hb : bi = b' := by
    have := Nat.ModEq.add_right_cancel' _ hmod
    rwa [Nat.ModEq, Nat.mod_eq_of_lt (h.lt bi hbi), Nat.mod_eq_of_lt (h.lt b' hb')] at this
  subst hb
  refine ⟨rfl, ?_⟩
  rcases Nat.lt_trichotomy r r' with hlt | rfl | hlt
  · have := delta_lt hlt hj
    omega
  · rfl
  · have := delta_lt hlt hj'
    omega

end PugOS.Journal
