import PugOS.JournalReplay

/-! # Sequence numbers that wrap around

Two journals that differ in the sequence numbers of their metablocks, and the
checksums over them, go through the analysis and the replay in lockstep (`Agree`,
`Alike`).  Sequence numbers are compared for equality, which adding a constant modulo
`2 ^ 16` does not change, and by the insertion in `analyze_block`, which compares them
as plain numbers: recovery is insensitive to the constant as long as that order is
(`recover_rotated`), and not otherwise (`pair_rotated`).
-/
namespace PugOS.Journal
open Bytes Ring LastWrite

variable {Z : Nat → Bool} {m m' : Mem} {b bi r n : Nat}

/-! ## Memories that differ in sequence numbers -/

/-- The offsets of `checksum` and `seq`. -/
def Renumbered (o : Nat) : Prop := (8 ≤ o ∧ o < 12) ∨ (16 ≤ o ∧ o < 18)

/-- The memories differ at most in the `checksum` and `seq` of the blocks `Z`. -/
def Agree (Z : Nat → Bool) (m m' : Mem) : Prop :=
  ∀ x, m' x = m x ∨ (Z (x / blocksize) = true ∧ Renumbered (x % blocksize))

/-- A number behind `seq` is read the same. -/
theorem Agree.read {o k : Nat} (h : Agree Z m m') (ho : 18 ≤ o) (hk : o + k ≤ blocksize) :
    getLE m' (b * blocksize + o) k = getLE m (b * blocksize + o) k := by
  refine getLE_congr fun x h₁ h₂ => ?_
  rcases h x with hx | ⟨-, hx⟩
  · exact hx
  · unfold Renumbered blocksize at *
    omega

section Fields
variable (h : Agree Z m m')
include h

theorem Agree.tid : tid m' b = tid m b := h.read (by decide) (by decide)
theorem Agree.flags : flags m' b = flags m b := h.read (by decide) (by decide)
theorem Agree.nref : nref m' b = nref m b := h.read (by decide) (by decide)
theorem Agree.commitBoundary : commitBoundary m' b = commitBoundary m b :=
  h.read (by decide) (by decide)
theorem Agree.completeBoundary : completeBoundary m' b = completeBoundary m b :=
  h.read (by decide) (by decide)

/-- A number in a reference is read the same. -/
theorem Agree.ref {o k : Nat} (hr : r < refSize) (ho : o + k ≤ 12) :
    getLE m' (refAddr b r + o) k = getLE m (refAddr b r + o) k := by
  unfold refAddr
  rw [Nat.add_assoc, Nat.add_assoc]
  exact h.read (by omega) (by unfold blocksize; unfold refSize at hr; omega)

theorem Agree.bn (hr : r < refSize) : bn m' b r = bn m b r := by
  have := h.ref (b := b) (o := 0) (k := 4) hr (by decide)
  rwa [Nat.add_zero] at this

theorem Agree.bchecksum (hr : r < refSize) : bchecksum m' b r = bchecksum m b r :=
  h.ref hr (by decide)

theorem Agree.bflags (hr : r < refSize) : bflags m' b r = bflags m b r := h.ref hr (by decide)

theorem Agree.journaled (hr : r < refSize) : journaled m' b r = journaled m b r := by
  rw [Journal.journaled, h.bflags hr, Journal.journaled]

theorem Agree.delta (hr : r ≤ refSize) : delta m' b r = delta m b r :=
  delta_congr (fun _ hr => h.journaled hr) hr

/-- A block that is not renumbered is the same. -/
theorem Agree.sameBlock (hb : Z b = false) : SameBlock m' m b := by
  intro x h₁ h₂
  rcases h x with hx | ⟨hx, -⟩
  · exact hx
  · rw [show x / blocksize = b by unfold blocksize at *; omega, hb] at hx
    cases hx

/-- The same number is written to both. -/
theorem Agree.write (a k v : Nat) : Agree Z (putLE m a k v) (putLE m' a k v) := by
  intro x
  unfold putLE
  split
  · exact .inl rfl
  · exact h x

theorem Agree.markErrorIf (failed : Bool) :
    Agree Z (markErrorIf m bi failed) (markErrorIf m' bi failed) := by
  unfold Journal.markErrorIf markError
  split
  · rw [h.flags]
    exact h.write _ _ _
  · exact h

theorem Agree.checkFlags : Agree Z (checkFlags m bi) (checkFlags m' bi) := by
  unfold Journal.checkFlags
  dsimp only
  rw [h.flags]
  have h₁ : Agree Z (Journal.markErrorIf m bi _) (Journal.markErrorIf m' bi _) :=
    h.markErrorIf (has (Journal.flags m bi) (jfError ||| jfCorrupt))
  rw [h₁.flags]
  generalize (!has (Journal.flags (Journal.markErrorIf m bi _) bi) jfMeta) = failed
  have h₂ : Agree Z (Journal.markErrorIf _ bi failed) (Journal.markErrorIf _ bi failed) :=
    h₁.markErrorIf failed
  rw [h₂.nref]
  exact h₂.markErrorIf _

end Fields

/-! ## The references of a metablock -/

/-- The references are looked at in lockstep, or a data block does not fit in the
journal and neither analysis can succeed. -/
theorem references_agree {s s' : Replayer} (hn : n ≤ refSize) (hnb : s'.nb = s.nb)
    (hok : s'.ok = s.ok) (h : Agree Z s.jd s'.jd)
    (hbad : ∀ r < n, journaled s.jd bi r → delta s.jd bi r < s.nb → ∀ j j', Touched bi s.jd j →
      Touched bi s'.jd j' → Agree Z j j' →
      badData j' bi r ((bi + delta s.jd bi r) % 2 ^ 32 % s.nb) =
        badData j bi r ((bi + delta s.jd bi r) % 2 ^ 32 % s.nb)) :
    let x := ((List.range n).foldl (analyzeBlockReference bi) (s, 1)).1
    let x' := ((List.range n).foldl (analyzeBlockReference bi) (s', 1)).1
    (x.ok = false ∧ x'.ok = false) ∨ (x'.ok = x.ok ∧ Agree Z x.jd x'.jd) := by
  induction n with
  | zero => exact .inr ⟨hok, h⟩
  | succ n ih =>
    have hstep := ih (Nat.le_of_succ_le hn) fun r hr => hbad r (Nat.lt_succ_of_lt hr)
    have hs := references_scanned s bi n
    have hs' := references_scanned s' bi n
    have hδ : delta s'.jd bi n = delta s.jd bi n := h.delta (Nat.le_of_succ_le hn)
    dsimp only at hstep ⊢
    rw [List.range_succ, List.foldl_append, List.foldl_append, List.foldl_cons, List.foldl_nil,
      List.foldl_cons, List.foldl_nil]
    generalize (List.range n).foldl (analyzeBlockReference bi) (s, 1) = x at hstep hs ⊢
    generalize (List.range n).foldl (analyzeBlockReference bi) (s', 1) = x' at hstep hs' ⊢
    have hj : ∀ {y : Replayer × Nat} {t : Replayer}, Touched bi t.jd y.1.jd →
        has (bflags y.1.jd bi n) jbfNonjournaled = !journaled t.jd bi n := by
      intro y t ht
      rw [ht.bflags, journaled, Bool.not_not]
    unfold analyzeBlockReference
    dsimp only
    rw [hj hs.touched, hj hs'.touched, h.journaled hn, hs.delta, hs'.delta, hδ, hs'.nb, hs.nb, hnb]
    cases hjn : journaled s.jd bi n with
    | false => exact hstep
    | true =>
      simp only [Bool.not_true, Bool.false_eq_true, if_false]
      rcases hstep with ⟨h₁, h₂⟩ | ⟨h₁, h₂⟩
      · exact .inl ⟨by simp [h₁], by simp [h₂]⟩
      · by_cases hlt : delta s.jd bi n < s.nb
        · refine .inr ⟨by rw [h₁], ?_⟩
          rw [hbad n (Nat.lt_succ_self n) hjn hlt _ _ hs.touched hs'.touched h₂]
          exact h₂.markErrorIf _
        · exact .inl ⟨by simp [hlt], by simp [hlt]⟩

/-! ## What is marked -/

section Marked
variable {d : Mem} {s : Replayer}

theorem or_jfError {x : Nat} (h : has x jfError = true) : x ||| jfError = x := by
  have hbit : x.testBit 1 = true := by
    by_contra hc
    have hand := Nat.and_two_pow x 1
    rw [Bool.eq_false_iff.mpr hc] at hand
    exact of_decide_eq_true h hand
  refine Nat.eq_of_testBit_eq fun i => ?_
  rw [Nat.testBit_or, show jfError = 2 ^ 1 from rfl, Nat.testBit_two_pow]
  by_cases hi : 1 = i
  · rw [← hi, hbit, Bool.true_or]
  · rw [decide_eq_false hi, Bool.or_false]

/-- A block that is marked already is not changed. -/
theorem markErrorIf_of_has (h : has (flags m bi) jfError = true) (failed : Bool) :
    markErrorIf m bi failed = m := by
  cases failed with
  | false => rfl
  | true =>
    change putLE m _ _ _ = m
    rw [or_jfError h]
    exact putLE_getLE m _ 2

theorem SameBlock.markError (h : SameBlock m m' b) :
    SameBlock (markError m b) (markError m' b) b := by
  intro x h₁ h₂
  unfold Journal.markError putLE
  rw [h.flags, h x h₁ h₂]

/-- Every block is as in `d`, or as in `d` with `jf_error` set. -/
def MarkedOnce (d m : Mem) : Prop := ∀ b, SameBlock m d b ∨ SameBlock m (markError d b) b

theorem MarkedOnce.markErrorIf (h : MarkedOnce d m) (bi : Nat) (failed : Bool) :
    MarkedOnce d (markErrorIf m bi failed) := by
  intro b
  by_cases hb : b = bi
  · subst hb
    cases failed with
    | false => exact h b
    | true =>
      right
      rcases h b with hsame | hsame
      · exact hsame.markError
      · have htwice := hsame.markError
        have hmarked := markErrorIf_of_has (has_markError d b) true
        change Journal.markError (Journal.markError d b) b = Journal.markError d b at hmarked
        rwa [hmarked] at htwice
  · have hkeep := (Touched.markErrorIf bi m failed).sameBlock hb
    exact (h b).imp hkeep.trans hkeep.trans

theorem MarkedOnce.references (h : MarkedOnce d s.jd) (bi n : Nat) :
    MarkedOnce d ((List.range n).foldl (analyzeBlockReference bi) (s, 1)).1.jd := by
  induction n with
  | zero => exact h
  | succ n ih =>
    rw [List.range_succ, List.foldl_append, List.foldl_cons, List.foldl_nil]
    generalize (List.range n).foldl (analyzeBlockReference bi) (s, 1) = x at ih
    unfold analyzeBlockReference
    dsimp only
    split
    · exact ih
    · dsimp only
      exact ih.markErrorIf bi _

theorem MarkedOnce.scan (h : MarkedOnce d s.jd) (bi : Nat) : MarkedOnce d (scan s bi).1.jd := by
  have hcheck : MarkedOnce d (checkFlags s.jd bi) :=
    ((h.markErrorIf bi _).markErrorIf bi _).markErrorIf bi _
  exact @MarkedOnce.references d { s with jd := checkFlags s.jd bi } hcheck bi _

theorem blocks_markedOnce (d : Mem) (nb k : Nat) :
    MarkedOnce d ((List.range k).foldl analyzeBlock (start d nb)).jd := by
  induction k with
  | zero => exact fun b => .inl fun _ _ _ => rfl
  | succ k ih =>
    rw [List.range_succ, List.foldl_append, List.foldl_cons, List.foldl_nil]
    generalize (List.range k).foldl analyzeBlock (start d nb) = s at ih
    by_cases hpot : isPotentialMetablock s.jd k = true
    · rcases analyzeBlock_cases s hpot with ⟨-, hx⟩ | ⟨herr, hx⟩
      · rw [hx]
        exact ih.scan k
      · rw [hx]
        exact ih.scan k
    · have hskip : analyzeBlock s k = s := if_neg hpot
      rw [hskip]
      exact ih

/-- The block looks like a metablock, and would still with `jf_error` set. -/
def StaysMeta (m : Mem) (b : Nat) : Prop :=
  isPotentialMetablock m b = true ∧ isPotentialMetablock (markError m b) b = true

theorem StaysMeta.potential (h : StaysMeta d b) (hm : MarkedOnce d m) :
    isPotentialMetablock m b = true := by
  rcases hm b with hsame | hsame
  · rw [hsame.isPotentialMetablock]
    exact h.1
  · rw [hsame.isPotentialMetablock]
    exact h.2

/-- The references of a block that is marked already change nothing in it. -/
theorem references_marked (h : has (flags s.jd bi) jfError = true) (n : Nat) :
    ((List.range n).foldl (analyzeBlockReference bi) (s, 1)).1.jd = s.jd := by
  induction n with
  | zero => rfl
  | succ n ih =>
    rw [List.range_succ, List.foldl_append, List.foldl_cons, List.foldl_nil]
    generalize (List.range n).foldl (analyzeBlockReference bi) (s, 1) = x at ih
    rw [← ih] at h
    unfold analyzeBlockReference
    dsimp only
    split
    · exact ih
    · dsimp only
      rw [markErrorIf_of_has h]
      exact ih

/-- References whose data is good change nothing. -/
theorem references_good (n : Nat) (h : ∀ r < n, journaled s.jd bi r →
      badData s.jd bi r ((bi + delta s.jd bi r) % 2 ^ 32 % s.nb) = false) :
    ((List.range n).foldl (analyzeBlockReference bi) (s, 1)).1.jd = s.jd := by
  induction n with
  | zero => rfl
  | succ n ih =>
    have hstep := ih fun r hr => h r (Nat.lt_succ_of_lt hr)
    have hs := references_scanned s bi n
    rw [List.range_succ, List.foldl_append, List.foldl_cons, List.foldl_nil]
    generalize (List.range n).foldl (analyzeBlockReference bi) (s, 1) = x at hstep hs
    unfold analyzeBlockReference
    dsimp only
    rw [hstep, hs.delta, hs.nb]
    by_cases hj : journaled s.jd bi n = true
    · have hfl : has (bflags s.jd bi n) jbfNonjournaled = false := by
        rw [← Bool.not_eq_true']
        exact hj
      rw [hfl, if_neg Bool.false_ne_true, h n (Nat.lt_succ_self n) hj]
      rfl
    · have hfl : has (bflags s.jd bi n) jbfNonjournaled = true := by
        rwa [journaled, Bool.not_eq_true', Bool.not_eq_false] at hj
      rw [if_pos hfl]
      exact hstep

/-- References with room for their data are in order. -/
theorem references_ok (n : Nat) (hok : s.ok = true)
    (h : ∀ r < n, journaled s.jd bi r → delta s.jd bi r < s.nb) :
    ((List.range n).foldl (analyzeBlockReference bi) (s, 1)).1.ok = true := by
  induction n with
  | zero => exact hok
  | succ n ih =>
    have hstep := ih fun r hr => h r (Nat.lt_succ_of_lt hr)
    have hs := references_scanned s bi n
    rw [List.range_succ, List.foldl_append, List.foldl_cons, List.foldl_nil]
    generalize (List.range n).foldl (analyzeBlockReference bi) (s, 1) = x at hstep hs
    unfold analyzeBlockReference
    dsimp only
    split
    · exact hstep
    · rename_i hfl
      have hj : journaled s.jd bi n = true := by
        rw [journaled, ← hs.touched.bflags, Bool.not_eq_true']
        exact Bool.eq_false_iff.mpr hfl
      rw [hs.delta, hs.nb, hstep, Bool.true_and, decide_eq_true_iff]
      exact h n (Nat.lt_succ_self n) hj

end Marked

/-! ## Rotating the sequence numbers -/

/-- The block looks like a metablock, and its flags and the number of its references are in order.
-/
structure Headed (m : Mem) (bi : Nat) : Prop where
  potential : isPotentialMetablock m bi = true
  clean : has (flags m bi) (jfError ||| jfCorrupt) = false
  isMeta : has (flags m bi) jfMeta = true
  nref : nref m bi ≤ refSize

/-- The block is a metablock `analyze_block` accepts, judged by the journal `m`. -/
structure Valid (m : Mem) (nb bi : Nat) : Prop extends Headed m bi where
  data : ∀ r < Journal.nref m bi, journaled m bi r → badData m bi r (dataBlock m nb bi r) = false

/-- The block is in the journal and looks like a metablock. -/
def Input.looksMeta (J : Input) (bi : Nat) : Bool :=
  decide (bi < J.nb) && isPotentialMetablock J.jd bi

/-- `J'` is `J` with `c` added to the `seq` of every metablock, checksums kept valid. -/
structure Rotated (c : Nat) (J J' : Input) : Prop where
  nb : J'.nb = J.nb
  agree : Agree J.looksMeta J.jd J'.jd
  seq : ∀ bi < J.nb, isPotentialMetablock J.jd bi = true →
    seq J'.jd bi = (seq J.jd bi + c) % 2 ^ 16
  potential : ∀ bi < J.nb, isPotentialMetablock J.jd bi = true →
    isPotentialMetablock J'.jd bi = true

/-- What recovery needs of a journal to be insensitive to the constant `c`: the order of the
metablocks stays; no metablock has references read past its block that can decide anything; and no
data block that has been looked at before, and rejected, has stopped looking like a metablock. -/
structure Rotatable (c : Nat) (J J' : Input) : Prop where
  order : ∀ bi < J.nb, ∀ bi' < J.nb, Valid J.jd J.nb bi → Valid J.jd J.nb bi' →
    (seq J.jd bi ≤ seq J.jd bi' ↔ (seq J.jd bi + c) % 2 ^ 16 ≤ (seq J.jd bi' + c) % 2 ^ 16)
  nref : ∀ bi < J.nb, isPotentialMetablock J.jd bi = true → nref J.jd bi ≤ refSize ∨
    Journal.nref J.jd bi < J.nb
  data : ∀ bi < J.nb, Headed J.jd bi → ∀ r < Journal.nref J.jd bi, journaled J.jd bi r →
    dataBlock J.jd J.nb bi r < bi → isPotentialMetablock J.jd (dataBlock J.jd J.nb bi r) = true →
    Valid J.jd J.nb (dataBlock J.jd J.nb bi r) ∨
      (StaysMeta J.jd (dataBlock J.jd J.nb bi r) ∧ StaysMeta J'.jd (dataBlock J.jd J.nb bi r))

variable {c : Nat} {J J' : Input}

theorem Input.looksMeta_eq (h : bi < J.nb) : J.looksMeta bi = isPotentialMetablock J.jd bi := by
  rw [Input.looksMeta, decide_eq_true h, Bool.true_and]

/-- A block looks like a metablock in both journals or in neither. -/
theorem Rotated.potential_eq (h : Rotated c J J') (hbi : bi < J.nb) :
    isPotentialMetablock J'.jd bi = isPotentialMetablock J.jd bi := by
  cases hp : isPotentialMetablock J.jd bi with
  | true => exact h.potential bi hbi hp
  | false =>
    have hz : J.looksMeta bi = false := (Input.looksMeta_eq hbi).trans hp
    rw [(h.agree.sameBlock hz).isPotentialMetablock, hp]

/-- The two analyses have come to block `k`, with nothing wrong so far. -/
structure Alike (J : Input) (k : Nat) (s s' : Replayer) : Prop where
  ok : s.ok = true
  ok' : s'.ok = true
  mr : s'.mr = s.mr
  agree : Agree J.looksMeta s.jd s'.jd
  valid : ∀ bi ∈ s.mr, Valid J.jd J.nb bi
  accepted : ∀ bi < k, Valid J.jd J.nb bi → bi ∈ s.mr

/-- Nothing the analysis has changed bears on whether a data block is rejected. -/
theorem badData_congr {m m' : Mem} {dbi : Nat} (hsum : bchecksum m' bi r = bchecksum m bi r)
    (hpot : isPotentialMetablock m' dbi = isPotentialMetablock m dbi)
    (hsame : isPotentialMetablock m dbi = false → SameBlock m' m dbi) :
    badData m' bi r dbi = badData m bi r dbi := by
  unfold badData
  rw [hpot, hsum]
  cases hp : isPotentialMetablock m dbi with
  | true => rw [Bool.true_or, Bool.true_or]
  | false => rw [(hsame hp).block]

section Step
variable {k : Nat} {s s' : Replayer}

/-- The index the code computes is that of the data block. -/
theorem Input.index_eq (J : Input) (hk : k < J.nb) (hr : r < refSize) :
    (k + delta J.jd k r) % 2 ^ 32 % J.nb = dataBlock J.jd J.nb k r := by
  have h₁ := delta_le J.jd k r
  have h₂ := J.small
  rw [dataBlock, Nat.mod_eq_of_lt (by omega : k + delta J.jd k r < 2 ^ 32)]

/-- A data block of block `k` that fits in the journal is not block `k`. -/
theorem dataBlock_ne {d : Mem} {nb : Nat} (hk : k < nb) (hδ : delta d k r < nb) :
    dataBlock d nb k r ≠ k := by
  have hpos : 1 ≤ delta d k r := Nat.le_add_right 1 _
  unfold dataBlock
  by_cases hwrap : k + delta d k r < nb
  · rw [Nat.mod_eq_of_lt hwrap]
    omega
  · rw [Nat.mod_eq_sub_mod (by omega), Nat.mod_eq_of_lt (by omega)]
    omega

/-- What looks like a metablock on disk does so still when it is looked at for data. -/
theorem data_potential (hrot : Rotated c J J') (hc : Rotatable c J J') (hk : k < J.nb)
    (h : Looked J.jd J.nb k s) (h' : Looked J'.jd J.nb k s') (ho : MarkedOnce J.jd s.jd)
    (ho' : MarkedOnce J'.jd s'.jd) (ha : Alike J k s s')
    (hhead : Headed J.jd k) (hr : r < Journal.nref J.jd k) (hj : journaled J.jd k r)
    (hp : isPotentialMetablock J.jd (dataBlock J.jd J.nb k r) = true) :
    isPotentialMetablock s.jd (dataBlock J.jd J.nb k r) = true ∧
      isPotentialMetablock s'.jd (dataBlock J.jd J.nb k r) = true := by
  have hlt : dataBlock J.jd J.nb k r < J.nb := Nat.mod_lt _ (Nat.zero_lt_of_lt hk)
  have hp' := (hrot.potential_eq hlt).trans hp
  have hdata := hc.data k hk hhead r hr hj
  generalize dataBlock J.jd J.nb k r = dbi at hlt hp hp' hdata
  have hkept : k ≤ dbi ∨ dbi ∈ s.mr → isPotentialMetablock s.jd dbi = true ∧
      isPotentialMetablock s'.jd dbi = true := by
    intro hor
    have hor' : k ≤ dbi ∨ dbi ∈ s'.mr := ha.mr ▸ hor
    rw [(h.kept dbi (hor.imp_right .inr)).isPotentialMetablock,
      (h'.kept dbi (hor'.imp_right .inr)).isPotentialMetablock]
    exact ⟨hp, hp'⟩
  by_cases hge : k ≤ dbi
  · exact hkept (.inl hge)
  · rcases hdata (Nat.not_le.mp hge) hp with hvalid | ⟨hstay, hstay'⟩
    · exact hkept (.inr (ha.accepted dbi (Nat.not_le.mp hge) hvalid))
    · exact ⟨hstay.potential ho, hstay'.potential ho'⟩

/-- The scans of block `k` go in lockstep. -/
theorem scan_agree (hrot : Rotated c J J') (hc : Rotatable c J J') (hk : k < J.nb)
    (h : Looked J.jd J.nb k s) (h' : Looked J'.jd J.nb k s') (ho : MarkedOnce J.jd s.jd)
    (ho' : MarkedOnce J'.jd s'.jd) (ha : Alike J k s s')
    (hpot : isPotentialMetablock J.jd k = true) :
    ((scan s k).1.ok = false ∧ (scan s' k).1.ok = false) ∨
      ((scan s' k).1.ok = (scan s k).1.ok ∧
        Agree J.looksMeta (scan s k).1.jd (scan s' k).1.jd) := by
  have hsame : SameBlock s.jd J.jd k := h.kept k (.inl (Nat.le_refl k))
  have hn : Journal.nref s'.jd k = Journal.nref s.jd k := ha.agree.nref
  have ht := checkFlags_touched s.jd k
  have ht' := checkFlags_touched s'.jd k
  have hcheck : Agree J.looksMeta (checkFlags s.jd k) (checkFlags s'.jd k) := ha.agree.checkFlags
  have hlength := h'.length.trans h.length.symm
  by_cases hmark : has (flags (checkFlags s.jd k) k) jfError = true
  · -- the references of a block that is rejected for its flags bear on `ok` only
    have hmark' : has (flags (checkFlags s'.jd k) k) jfError = true := by rwa [hcheck.flags]
    have hjd : (scan s k).1.jd = checkFlags s.jd k :=
      @references_marked _ { s with jd := checkFlags s.jd k } hmark _
    have hjd' : (scan s' k).1.jd = checkFlags s'.jd k :=
      @references_marked _ { s' with jd := checkFlags s'.jd k } hmark' _
    refine .inr ⟨?_, by rw [hjd, hjd']; exact hcheck⟩
    have hfit : Journal.nref s.jd k ≤ refSize ∨ Journal.nref s.jd k < J.nb := by
      rw [hsame.nref]
      exact hc.nref k hk hpot
    have hscan := (scan_scanned s k).ok
    have hscan' := (scan_scanned s' k).ok
    have hok := @references_ok k { s with jd := checkFlags s.jd k } (Journal.nref s.jd k) ha.ok
    have hok' := @references_ok k { s' with jd := checkFlags s'.jd k } (Journal.nref s'.jd k) ha.ok'
    change _ → (scan s k).1.ok = true at hok
    change _ → (scan s' k).1.ok = true at hok'
    dsimp only at hok hok' hscan hscan'
    rw [h.length] at hok hscan
    rw [h'.length, hn] at hok' hscan'
    rcases hfit with hsize | hlt
    · have hiff : ∀ r < Journal.nref s.jd k, (journaled (checkFlags s'.jd k) k r = true →
          delta (checkFlags s'.jd k) k r < J.nb) ↔
          (journaled (checkFlags s.jd k) k r = true → delta (checkFlags s.jd k) k r < J.nb) := by
        intro r hr
        have hr' : r < refSize := Nat.lt_of_lt_of_le hr hsize
        rw [hcheck.journaled hr', hcheck.delta (Nat.le_of_lt hr')]
      rw [Bool.eq_iff_iff]
      exact ⟨fun hx => hok fun r hr => (hiff r hr).mp ((hscan' hx).2 r hr),
        fun hx => hok' fun r hr => (hiff r hr).mpr ((hscan hx).2 r hr)⟩
    · have hroom : ∀ (m : Mem), ∀ r < Journal.nref s.jd k, delta m k r < J.nb := by
        intro m r hr
        have hle := delta_le m k r
        omega
      rw [hok fun r hr _ => hroom _ r hr, hok' fun r hr _ => hroom _ r hr]
  · have hunmarked := Bool.eq_false_iff.mpr hmark
    have hcf : checkFlags s.jd k = s.jd := ht.clean hunmarked
    obtain ⟨hclean, hmeta, hnref⟩ := checkFlags_clean hunmarked
    rw [hsame.flags] at hclean hmeta
    have hhead : Headed J.jd k := ⟨hpot, hclean, hmeta, hsame.nref ▸ hnref⟩
    unfold scan
    rw [hn]
    refine references_agree hnref hlength (ha.ok'.trans ha.ok.symm) hcheck ?_
    intro r hr hj hδ j j' hj₁ hj₂ hjj
    have hr' : r < refSize := Nat.lt_of_lt_of_le hr hnref
    dsimp only at hj hδ hj₁ hj₂ ⊢
    have hjd : journaled J.jd k r = true := by
      rw [← hsame.journaled hr', ← hj, hcf]
    have hδd : delta (checkFlags s.jd k) k r = delta J.jd k r := by
      rw [hcf]
      exact hsame.delta (Nat.le_of_lt hr')
    have hr₀ : r < Journal.nref J.jd k := hsame.nref ▸ hr
    rw [hδd, h.length] at hδ
    rw [hδd, h.length, J.index_eq hk hr']
    have hne := dataBlock_ne hk hδ
    have hlt : dataBlock J.jd J.nb k r < J.nb := Nat.mod_lt _ (by omega)
    have hmetas := data_potential hrot hc hk h h' ho ho' ha hhead hr₀ hjd
    generalize dataBlock J.jd J.nb k r = dbi at hne hlt hmetas ⊢
    -- outside block `k` the scan has changed nothing
    have hstill : SameBlock j s.jd dbi := (ht.trans hj₁).sameBlock hne
    have hstill' : SameBlock j' s'.jd dbi := (ht'.trans hj₂).sameBlock hne
    cases hp : isPotentialMetablock J.jd dbi with
    | true =>
      obtain ⟨hm, hm'⟩ := hmetas hp
      unfold badData
      rw [hstill.isPotentialMetablock, hstill'.isPotentialMetablock, hm, hm', Bool.true_or,
        Bool.true_or]
    | false =>
      have hp' := (hrot.potential_eq hlt).trans hp
      have hdisk : SameBlock j J.jd dbi := hstill.trans (h.kept dbi (.inr (.inl hp)))
      have hdisk' : SameBlock j' J'.jd dbi := hstill'.trans (h'.kept dbi (.inr (.inl hp')))
      refine badData_congr (hjj.bchecksum hr') ?_ fun _ => hjj.sameBlock ?_
      · rw [hdisk'.isPotentialMetablock, hdisk.isPotentialMetablock, hp, hp']
      · rw [Input.looksMeta_eq hlt, hp]

theorem insertMeta_congr {l : List Nat}
    (h : ∀ x ∈ l, Journal.seq m' x ≤ Journal.seq m' bi ↔ Journal.seq m x ≤ Journal.seq m bi) :
    insertMeta m' bi l = insertMeta m bi l := by
  induction l with
  | nil => rfl
  | cons x l ih =>
    rw [insertMeta, insertMeta, ih fun y hy => h y (List.mem_cons_of_mem x hy)]
    exact if_congr (h x List.mem_cons_self) rfl rfl

/-- An accepted block is valid on disk. -/
theorem scan_valid (hrot : Rotated c J J') (hc : Rotatable c J J') (hk : k < J.nb)
    (h : Looked J.jd J.nb k s) (h' : Looked J'.jd J.nb k s') (ho : MarkedOnce J.jd s.jd)
    (ho' : MarkedOnce J'.jd s'.jd) (ha : Alike J k s s')
    (hpot : isPotentialMetablock J.jd k = true)
    (he : has (flags (scan s k).1.jd k) jfError = false) : Valid J.jd J.nb k := by
  have hsame : SameBlock s.jd J.jd k := h.kept k (.inl (Nat.le_refl k))
  have hscan := scan_scanned s k
  obtain ⟨-, hcf, h₁, h₂, h₃⟩ := scan_clean he
  rw [hcf] at hscan
  rw [hsame.flags] at h₁ h₂
  have hhead : Headed J.jd k := ⟨hpot, h₁, h₂, hsame.nref ▸ h₃⟩
  refine ⟨hhead, fun r hr hj => ?_⟩
  have hr' : r < refSize := Nat.lt_of_lt_of_le (hsame.nref ▸ hr) h₃
  have hjs : journaled s.jd k r = true := (hsame.journaled hr').trans hj
  have hδ : delta s.jd k r = delta J.jd k r := hsame.delta (Nat.le_of_lt hr')
  have hdata := hscan.data he r (hsame.nref ▸ hr) hjs
  dsimp only at hdata
  rw [hδ, h.length, J.index_eq hk hr'] at hdata
  have hmetas := data_potential hrot hc hk h h' ho ho' ha hhead hr hj
  generalize dataBlock J.jd J.nb k r = dbi at hdata hmetas ⊢
  have hp : isPotentialMetablock J.jd dbi = false := by
    rw [Bool.eq_false_iff]
    intro hp
    unfold badData at hdata
    rw [(hmetas hp).1, Bool.true_or] at hdata
    cases hdata
  have hdisk := h.kept dbi (.inr (.inl hp))
  rw [← hdata]
  exact badData_congr (hsame.bchecksum hr').symm hdisk.isPotentialMetablock.symm fun _ => hdisk.symm

/-- A block that is valid on disk is accepted. -/
theorem Valid.scan (hv : Valid J.jd J.nb k) (hk : k < J.nb) (h : Looked J.jd J.nb k s) :
    has (flags (scan s k).1.jd k) jfError = false := by
  have hsame : SameBlock s.jd J.jd k := h.kept k (.inl (Nat.le_refl k))
  have hor : has (flags J.jd k) (jfError ||| jfCorrupt) = false := hv.clean
  have hcf : checkFlags s.jd k = s.jd := by
    have hmany : decide (Journal.nref J.jd k > refSize) = false :=
      decide_eq_false (Nat.not_lt.mpr hv.nref)
    unfold checkFlags
    dsimp only
    rw [hsame.flags, hor, show markErrorIf s.jd k false = s.jd from rfl, hsame.flags, hv.isMeta,
      Bool.not_true,
      show markErrorIf s.jd k false = s.jd from rfl, hsame.nref, hmany]
    rfl
  have hjd : (Journal.scan s k).1.jd = s.jd := by
    unfold Journal.scan
    rw [hcf]
    refine references_good _ fun r hr hj => ?_
    have hr₀ : r < Journal.nref J.jd k := hsame.nref ▸ hr
    have hr' : r < refSize := Nat.lt_of_lt_of_le hr₀ hv.nref
    rw [hsame.delta (Nat.le_of_lt hr'), h.length, J.index_eq hk hr',
      ← hv.data r hr₀ ((hsame.journaled hr').symm.trans hj)]
    have hp := (Bool.or_eq_false_iff.mp (hv.data r hr₀ ((hsame.journaled hr').symm.trans hj))).1
    have hdisk := h.kept _ (.inr (.inl hp))
    exact badData_congr (hsame.bchecksum hr') hdisk.isPotentialMetablock fun _ => hdisk
  rw [hjd, hsame.flags, Bool.eq_false_iff]
  intro hbad
  unfold has at hbad hor
  rw [Nat.and_or_distrib_left] at hor
  exact of_decide_eq_true hbad (Nat.or_eq_zero_iff.mp (not_not.mp (of_decide_eq_false hor))).1

theorem analyzeBlock_ok (s : Replayer) (hpot : isPotentialMetablock s.jd k = true) :
    (analyzeBlock s k).ok = (scan s k).1.ok := by
  rw [analyzeBlock_eq s hpot]
  split <;> rfl

/-- **One block of the two analyses.** -/
theorem analyzeBlock_alike (hrot : Rotated c J J') (hc : Rotatable c J J') (hk : k < J.nb)
    (h : Looked J.jd J.nb k s) (h' : Looked J'.jd J.nb k s') (ho : MarkedOnce J.jd s.jd)
    (ho' : MarkedOnce J'.jd s'.jd) (ha : Alike J k s s') :
    ((analyzeBlock s k).ok = false ∧ (analyzeBlock s' k).ok = false) ∨
      Alike J (k + 1) (analyzeBlock s k) (analyzeBlock s' k) := by
  have hsame : SameBlock s.jd J.jd k := h.kept k (.inl (Nat.le_refl k))
  have hsame' : SameBlock s'.jd J'.jd k := h'.kept k (.inl (Nat.le_refl k))
  have hp := hsame.isPotentialMetablock
  have hp' := hsame'.isPotentialMetablock.trans (hrot.potential_eq hk)
  -- the blocks below `k + 1` that are valid, once block `k` has been looked at
  have haccepted : ∀ {mr : List Nat}, (Valid J.jd J.nb k → k ∈ mr) → s.mr ⊆ mr →
      ∀ bi < k + 1, Valid J.jd J.nb bi → bi ∈ mr := by
    intro mr hnew hold bi hbi hv
    rcases Nat.lt_succ_iff_lt_or_eq.mp hbi with hbi | rfl
    · exact hold (ha.accepted bi hbi hv)
    · exact hnew hv
  cases hpot : isPotentialMetablock J.jd k with
  | false =>
    have hskip : analyzeBlock s k = s := if_neg (by rw [hp, hpot]; exact Bool.false_ne_true)
    have hskip' : analyzeBlock s' k = s' := if_neg (by rw [hp', hpot]; exact Bool.false_ne_true)
    have hnot : ¬Valid J.jd J.nb k := fun hv => Bool.false_ne_true (hpot.symm.trans hv.potential)
    rw [hskip, hskip']
    exact .inr ⟨ha.ok, ha.ok', ha.mr, ha.agree, ha.valid,
      haccepted (absurd · hnot) (List.Subset.refl _)⟩
  | true =>
    rw [hpot] at hp hp'
    rcases scan_agree hrot hc hk h h' ho ho' ha hpot with ⟨h₁, h₂⟩ | ⟨hok, hagree⟩
    · exact .inl ⟨(analyzeBlock_ok s hp).trans h₁, (analyzeBlock_ok s' hp').trans h₂⟩
    · cases hs : (scan s k).1.ok with
      | false =>
        rw [hs] at hok
        exact .inl ⟨(analyzeBlock_ok s hp).trans hs, (analyzeBlock_ok s' hp').trans hok⟩
      | true =>
        right
        rw [hs] at hok
        have hfl := hagree.flags (b := k)
        have hmr := (scan_scanned s k).mr
        have hmr' := (scan_scanned s' k).mr
        rcases analyzeBlock_cases s hp with ⟨he, hx⟩ | ⟨he, hx⟩
        · rcases analyzeBlock_cases s' hp' with ⟨-, hx'⟩ | ⟨he', -⟩
          · have hnot : ¬Valid J.jd J.nb k :=
              fun hv => Bool.false_ne_true ((hv.scan hk h).symm.trans he)
            rw [hx, hx']
            refine ⟨hs, hok, by rw [hmr, hmr']; exact ha.mr, hagree, by rw [hmr]; exact ha.valid,
              ?_⟩
            rw [hmr]
            exact haccepted (absurd · hnot) (List.Subset.refl _)
          · rw [hfl, he] at he'
            cases he'
        · rcases analyzeBlock_cases s' hp' with ⟨he', -⟩ | ⟨-, hx'⟩
          · rw [hfl, he] at he'
            cases he'
          · have hv := scan_valid hrot hc hk h h' ho ho' ha hpot he
            rw [hx, hx']
            refine ⟨hs, hok, ?_, hagree, ?_, ?_⟩
            · dsimp only
              rw [ha.mr]
              refine insertMeta_congr fun x hx => ?_
              have hxk := h.lt x hx
              have hxmr' : x ∈ s'.mr := ha.mr ▸ hx
              rw [hsame.seq, hsame'.seq, (h.kept x (.inr (.inr hx))).seq,
                (h'.kept x (.inr (.inr hxmr'))).seq, hrot.seq k hk hpot,
                hrot.seq x (by omega) (ha.valid x hx).potential]
              exact (hc.order x (by omega) k hk (ha.valid x hx) hv).symm
            · intro x hx
              rcases mem_insertMeta.mp hx with rfl | hx
              · exact hv
              · exact ha.valid x hx
            · exact haccepted (fun _ => mem_insertMeta.mpr (.inl rfl)) fun x hx =>
                mem_insertMeta.mpr (.inr hx)

theorem analyzeBlock_ok_of_ok (hok : (analyzeBlock s k).ok = true) : s.ok = true := by
  by_cases hpot : isPotentialMetablock s.jd k = true
  · rw [analyzeBlock_ok s hpot] at hok
    exact ((scan_scanned s k).ok hok).1
  · rwa [analyzeBlock, if_neg hpot] at hok

end Step

/-- **The two analyses of all blocks.** -/
theorem blocks_alike (hrot : Rotated c J J') (hc : Rotatable c J J') {k : Nat} (hk : k ≤ J.nb) :
    let s := (List.range k).foldl analyzeBlock (start J.jd J.nb)
    let s' := (List.range k).foldl analyzeBlock (start J'.jd J.nb)
    (s.ok = false ∧ s'.ok = false) ∨ Alike J k s s' := by
  induction k with
  | zero =>
    exact .inr ⟨rfl, rfl, rfl, hrot.agree, fun bi hbi => absurd hbi List.not_mem_nil,
      fun bi hbi => absurd hbi (Nat.not_lt_zero bi)⟩
  | succ k ih =>
    have hl : Looked J.jd J.nb k _ := blocks_looked J.small (Nat.le_of_succ_le hk)
    have hl' : Looked J'.jd J.nb k _ := blocks_looked J.small (Nat.le_of_succ_le hk)
    have ho := blocks_markedOnce J.jd J.nb k
    have ho' := blocks_markedOnce J'.jd J.nb k
    dsimp only at ih ⊢
    rw [List.range_succ, List.foldl_append, List.foldl_append, List.foldl_cons, List.foldl_nil,
      List.foldl_cons, List.foldl_nil]
    rcases ih (Nat.le_of_succ_le hk) with ⟨h₁, h₂⟩ | ha
    · left
      constructor
      · exact Bool.eq_false_iff.mpr fun h => by simp [analyzeBlock_ok_of_ok h] at h₁
      · exact Bool.eq_false_iff.mpr fun h => by simp [analyzeBlock_ok_of_ok h] at h₂
    · exact analyzeBlock_alike hrot hc hk hl hl' ho ho' ha

/-! ## The checks of the list -/

section Metas
variable {l : List Nat} (h : Agree Z m m')
  (hseq : ∀ x ∈ l, Journal.seq m' x = (Journal.seq m x + c) % 2 ^ 16)

theorem seq_lt (m : Mem) (bi : Nat) : Journal.seq m bi < 2 ^ 16 := getLE_lt m _ 2

include h hseq

theorem checkMetas_agree : checkMetas m' l = checkMetas m l := by
  have hmeta : ∀ x, checkMeta m' x = checkMeta m x := by
    intro x
    unfold checkMeta
    rw [h.completeBoundary, h.commitBoundary, h.nref, h.tid, h.flags]
  induction l with
  | nil => rfl
  | cons x l ih =>
    cases l with
    | nil => exact hmeta x
    | cons y l =>
      have hpair : checkPair m' x y = checkPair m x y := by
        have hne : (Journal.seq m' y ≠ Journal.seq m' x) = (Journal.seq m y ≠ Journal.seq m x) := by
          have h₁ := seq_lt m x
          have h₂ := seq_lt m y
          rw [hseq x (by simp), hseq y (by simp), eq_iff_iff]
          omega
        unfold checkPair
        simp only [hne, h.completeBoundary, h.commitBoundary, h.nref, h.tid]
      rw [checkMetas, checkMetas, hmeta, hpair, ih fun z hz => hseq z (List.mem_cons_of_mem x hz)]

theorem analyzeTidLoop_agree (t fl : Nat) (ok : Bool) (last : Option Nat)
    (hlast : ∀ x ∈ last, Journal.seq m' x = (Journal.seq m x + c) % 2 ^ 16) :
    analyzeTidLoop m' t fl last ok l = analyzeTidLoop m t fl last ok l := by
  induction l generalizing fl ok last with
  | nil => rfl
  | cons x l ih =>
    have hx := hseq x List.mem_cons_self
    have htail : ∀ fl ok, analyzeTidLoop m' t fl (some x) ok l = analyzeTidLoop m t fl
        (some x) ok l :=
      fun fl ok => ih (fun y hy => hseq y (List.mem_cons_of_mem x hy)) fl ok (some x)
        (by rintro y ⟨⟩; exact hx)
    have hmissing : seqMissing m' fl last x = seqMissing m fl last x := by
      cases last with
      | none => rfl
      | some last =>
        have h₁ := seq_lt m x
        have h₂ := seq_lt m last
        have hne : (Journal.seq m' x != (Journal.seq m' last + 1) % 2 ^ 16) =
            (Journal.seq m x != (Journal.seq m last + 1) % 2 ^ 16) := by
          rw [hx, hlast last rfl, Bool.eq_iff_iff, bne_iff_ne, bne_iff_ne]
          omega
        unfold seqMissing
        dsimp only
        rw [hne]
    unfold analyzeTidLoop
    dsimp only
    rw [hmissing, h.tid, h.flags, h.nref, htail, htail]
    simp only [boundaryFlags, h.commitBoundary, h.completeBoundary]

theorem analyzeTid_agree (t : Nat) : analyzeTid m' l t = analyzeTid m l t := by
  unfold analyzeTid
  rw [analyzeTidLoop_agree h hseq t 0 true none (by rintro x ⟨⟩)]

end Metas

/-! ## The marks -/

section Marks
variable {m₁ : Mem} {R : List (Nat × Nat)} {mr : List Nat} {target : Nat}

/-- Both memories, once some references have been marked in `m₁` and alike in the
other. -/
structure Marking (Z : Nat → Bool) (m₁ : Mem) (R : List (Nat × Nat)) (m m' : Mem) : Prop where
  marked : ∃ marked, Marked m₁ R m marked
  agree : Agree Z m m'

theorem Agree.markRefs (h : Agree Z m m') (hn : n ≤ refSize) :
    Agree Z (markRefs target bi n m) (markRefs target bi n m') := by
  induction n generalizing m m' with
  | zero => exact h
  | succ n ih =>
    unfold Journal.markRefs
    rw [h.bn hn]
    refine ih ?_ (Nat.le_of_succ_le hn)
    split
    · unfold markOverwritten
      rw [h.bflags hn]
      exact h.write _ _ _
    · exact h

theorem Marking.markOverwrittenBlock (hin : Inside R) {l : List Nat} (refx : Nat)
    (hsub : refs m₁ l ⊆ R) (h : Marking Z m₁ R m m') :
    Marking Z m₁ R (markOverwrittenBlock target l refx m)
      (markOverwrittenBlock target l refx m') := by
  induction l generalizing m m' refx with
  | nil => exact h
  | cons bi l ih =>
    obtain ⟨marked, hm⟩ := h.marked
    have hcons : refs m₁ (bi :: l) = refsBelow bi (Journal.nref m₁ bi) ++ refs m₁ l := rfl
    rw [hcons, List.append_subset] at hsub
    unfold Journal.markOverwrittenBlock
    rw [h.agree.nref, hm.nref hin]
    generalize hn : (if refx > Journal.nref m₁ bi then Journal.nref m₁ bi else refx) = n
    have hle : n ≤ Journal.nref m₁ bi := by
      split at hn <;> omega
    have hbelow : refsBelow bi n ⊆ R := fun e he => hsub.1 (mem_refsBelow.mpr
      ⟨(mem_refsBelow.mp he).1, Nat.lt_of_lt_of_le (mem_refsBelow.mp he).2 hle⟩)
    have hsize : n ≤ refSize := by
      cases n with
      | zero => exact Nat.zero_le _
      | succ n => exact hin (bi, n) (hbelow (mem_refsBelow.mpr ⟨rfl, Nat.lt_succ_self n⟩))
    exact ih _ hsub.2 ⟨⟨_, markRefs_marked hin target bi n hbelow hm⟩, h.agree.markRefs hsize⟩

theorem Marking.analyzeOverwrittenBlocks (hin : Inside R) {rest : List Nat}
    (hn : n ≤ Journal.nref m₁ bi) (hsub : refs m₁ (bi :: rest) ⊆ R) (h : Marking Z m₁ R m m') :
    Marking Z m₁ R (analyzeOverwrittenBlocks bi rest n m)
      (analyzeOverwrittenBlocks bi rest n m') := by
  induction n generalizing m m' with
  | zero => exact h
  | succ n ih =>
    have hr : n < refSize := hin (bi, n) (hsub (mem_refs.mpr ⟨List.mem_cons_self, hn⟩))
    unfold Journal.analyzeOverwrittenBlocks
    rw [h.agree.bflags hr, h.agree.bn hr]
    refine ih (Nat.le_of_succ_le hn) ?_
    split
    · exact h
    · exact h.markOverwrittenBlock hin n hsub

theorem Marking.markAll (hin : Inside R) {complete commit : Nat} {l : List Nat}
    (hsub : refs m₁ l ⊆ R) (h : Marking Z m₁ R m m') :
    Marking Z m₁ R (markAll complete commit l m) (markAll complete commit l m') := by
  induction l generalizing m m' with
  | nil => exact h
  | cons bi l ih =>
    obtain ⟨marked, hm⟩ := h.marked
    have hcons : refs m₁ (bi :: l) = refsBelow bi (Journal.nref m₁ bi) ++ refs m₁ l := rfl
    unfold Journal.markAll
    rw [committable, committable, h.agree.tid, h.agree.nref, hm.nref hin]
    refine ih (List.append_subset.mp (hcons ▸ hsub)).2 ?_
    split
    · exact h.analyzeOverwrittenBlocks hin (Nat.le_refl _) hsub
    · exact h

end Marks

/-! ## Recovery -/

/-- The calls of `write_block` that follow an analysis, which must have succeeded
(`assert(ok_)` in `run`). -/
def replay (x : Replayer × Bool) : Option (List Write) := if x.2 then some (run x.1) else none

theorem replay_false (s : Replayer) : replay (s, false) = none := rfl

/-- What recovery does with a journal. -/
def recover (J : Input) : Option (List Write) := replay (analyze J.jd J.nb)

section Recover
variable {s s' : Replayer} {m₂ m₂' : Mem} {marked marked' : Nat × Nat → Bool}

theorem Agree.region (h : Agree Z m m') (mr : List Nat) : region m' mr = region m mr := by
  unfold Journal.region
  split
  · rfl
  · rw [h.completeBoundary, h.commitBoundary]

theorem Agree.refs (h : Agree Z m m') (mr : List Nat) : refs m' mr = refs m mr := by
  unfold Journal.refs
  simp only [h.nref]

/-- The data of a reference is the same in both journals. -/
theorem Alike.replayed {k : Nat} (ha : Alike J k s s') (hl : Looked J.jd J.nb J.nb s)
    (hm : Marked s.jd (Journal.refs J.jd s.mr) m₂ marked) (h : Agree J.looksMeta m₂ m₂')
    {e : Nat × Nat} (he : e ∈ Journal.refs J.jd s.mr) (hj : journaled m₂ e.1 e.2 = true) :
    replayed m₂' J.nb e = replayed m₂ J.nb e := by
  obtain ⟨hbi, hr⟩ := mem_refs.mp he
  have hr' := hl.asDisk.inside e he
  have hdb : dataBlock m₂' J.nb e.1 e.2 = dataBlock m₂ J.nb e.1 e.2 := by
    rw [dataBlock, dataBlock, h.delta (Nat.le_of_lt hr')]
  have hlt : dataBlock J.jd J.nb e.1 e.2 < J.nb :=
    Nat.mod_lt _ (Nat.zero_lt_of_lt (hl.lt e.1 hbi))
  have hdata : J.looksMeta (dataBlock J.jd J.nb e.1 e.2) = false := by
    rw [hl.asDisk.journaled_marked hm he] at hj
    rw [Input.looksMeta_eq hlt]
    exact (Bool.or_eq_false_iff.mp ((ha.valid e.1 hbi).data e.2 hr hj)).1
  have hsame : SameBlock m₂' m₂ (dataBlock m₂ J.nb e.1 e.2) := by
    rw [hl.asDisk.dataBlock_marked hm he]
    exact h.sameBlock hdata
  rw [Journal.replayed, Journal.replayed, h.tid, h.bn hr', h.bflags hr', hdb, Write.mk.injEq]
  refine ⟨rfl, rfl, ?_⟩
  split
  · exact slice_congr hsame.unescape
  · exact slice_congr hsame

/-- **The two replays.** -/
theorem Alike.run {k : Nat} (ha : Alike J k s s') (hl : Looked J.jd J.nb J.nb s)
    (hl' : Looked J'.jd J.nb J.nb s') (hm : Marked s.jd (Journal.refs J.jd s.mr) m₂ marked)
    (hm' : Marked s'.jd (Journal.refs J'.jd s'.mr) m₂' marked')
    (h : Agree J.looksMeta m₂ m₂') (ok : Bool) :
    run { s' with jd := m₂', ok := ok } = run { s with jd := m₂, ok := ok } := by
  have hw := run_writes (s := { s with jd := m₂, ok := ok })
    (by dsimp only; rw [hl.length]; exact hl.runnable ha.ok hm J.small) hl.nodup
  have hw' := run_writes (s := { s' with jd := m₂', ok := ok })
    (by dsimp only; rw [hl'.length]; exact hl'.runnable ha.ok' hm' J.small) hl'.nodup
  dsimp only at hw hw'
  rw [hw, hw', ha.mr, h.refs, h.region, hl.length, hl'.length, hl.asDisk.refs_marked hm]
  have hfilter : ∀ e ∈ Journal.refs J.jd s.mr, replays m₂' e = replays m₂ e := by
    intro e he
    rw [replays, replays, h.journaled (hl.asDisk.inside e he), h.bflags (hl.asDisk.inside e he)]
  have hcom : ∀ e, committed m₂' (Journal.region m₂ s.mr).1 (Journal.region m₂ s.mr).2 e =
      committed m₂ (Journal.region m₂ s.mr).1 (Journal.region m₂ s.mr).2 e := by
    intro e
    rw [committed, committed, committable, committable, h.tid]
  rw [List.filter_congr fun e he => by rw [hcom, hfilter e he]]
  refine List.map_congr_left fun e he => ?_
  obtain ⟨he, hp⟩ := List.mem_filter.mp he
  have hj : journaled m₂ e.1 e.2 = true := by
    simp only [replays, Bool.and_eq_true] at hp
    exact hp.2.1
  exact ha.replayed hl hm h he hj

end Recover

theorem analyzeMetas_alike {s s' : Replayer} (hrot : Rotated c J J') (ha : Alike J J.nb s s')
    (hl : Looked J.jd J.nb J.nb s) (hl' : Looked J'.jd J.nb J.nb s') :
    replay (analyzeMetas s') = replay (analyzeMetas s) := by
  have hseq : ∀ x ∈ s.mr, Journal.seq s'.jd x = (Journal.seq s.jd x + c) % 2 ^ 16 := by
    intro x hx
    have hx' : x ∈ s'.mr := ha.mr ▸ hx
    rw [(hl'.asDisk.same x hx').seq, (hl.asDisk.same x hx).seq,
      hrot.seq x (hl.lt x hx) (ha.valid x hx).potential]
  unfold analyzeMetas
  rw [ha.ok, ha.ok', ha.mr]
  cases hlast : s.mr.getLast? with
  | none => rw [replay_false, replay_false]
  | some last =>
    dsimp only
    rw [checkMetas_agree ha.agree hseq, ha.agree.completeBoundary, ha.agree.commitBoundary]
    have htid : analyzeTid s'.jd s.mr = analyzeTid s.jd s.mr :=
      funext (analyzeTid_agree ha.agree hseq)
    rw [htid]
    split
    · generalize completeBoundary s.jd last = complete
      generalize commitBoundary s.jd last = commit
      generalize (tidRange complete commit).all _ = ok
      have hmarking : Marking J.looksMeta s.jd (Journal.refs J.jd s.mr)
          (markAll complete commit s.mr.reverse s.jd)
          (markAll complete commit s.mr.reverse s'.jd) := by
        refine Marking.markAll hl.asDisk.inside ?_ ⟨⟨_, Marked.start _ _⟩, ha.agree⟩
        rw [← hl.asDisk.refs_eq]
        exact fun e he => mem_refs_reverse.mp he
      have hmarking' : Marking J.looksMeta s'.jd (Journal.refs J'.jd s'.mr)
          (markAll complete commit s.mr.reverse s'.jd)
          (markAll complete commit s.mr.reverse s'.jd) := by
        refine Marking.markAll hl'.asDisk.inside ?_ ⟨⟨_, Marked.start _ _⟩, fun _ => .inl rfl⟩
        rw [← hl'.asDisk.refs_eq, ha.mr]
        exact fun e he => mem_refs_reverse.mp he
      obtain ⟨⟨marked, hm⟩, hagree⟩ := hmarking
      obtain ⟨⟨marked', hm'⟩, -⟩ := hmarking'
      have hrun := ha.run hl hl' hm hm' hagree ok
      unfold replay
      dsimp only
      rw [ha.mr] at hrun
      rw [hrun]
    · rw [replay_false, replay_false]

/-- **Recovery is insensitive to a rotation of the sequence numbers** that keeps their
order. -/
theorem recover_rotated (hrot : Rotated c J J') (hc : Rotatable c J J') :
    recover J' = recover J := by
  have hlooked : ((looked J.jd J.nb).ok = false ∧ (looked J'.jd J.nb).ok = false) ∨
      Alike J J.nb (looked J.jd J.nb) (looked J'.jd J.nb) := blocks_alike hrot hc (Nat.le_refl J.nb)
  have hdef : ∀ d, analyze d J.nb = analyzeMetas (looked d J.nb) := fun d => rfl
  unfold recover
  rw [hrot.nb, hdef, hdef]
  rcases hlooked with ⟨h₁, h₂⟩ | ha
  · have hfail : ∀ {s : Replayer}, s.ok = false → replay (analyzeMetas s) = none := by
      intro s hs
      unfold analyzeMetas
      rw [hs]
      exact replay_false s
    rw [hfail h₁, hfail h₂]
  · exact analyzeMetas_alike hrot ha (blocks_looked J.small (Nat.le_refl _))
      (blocks_looked J.small (Nat.le_refl _))

/-! ## Journals that are rotated -/

/-- `twice` with the sequence numbers 5 and 6. -/
def twiceRotated : Input where
  jd := putLE (putLE twice.jd 16 2 5) 8208 2 6
  nb := 4
  small := twice.small

theorem twice_looksMeta {bi : Nat} (hbi : bi < twice.nb)
    (hpot : isPotentialMetablock twice.jd bi = true) : bi = 0 ∨ bi = 2 := by
  have hdata : isPotentialMetablock twice.jd 1 = false ∧
      isPotentialMetablock twice.jd 3 = false := by decide
  change bi < 4 at hbi
  obtain rfl | rfl | rfl | rfl : bi = 0 ∨ bi = 1 ∨ bi = 2 ∨ bi = 3 := by omega
  · exact .inl rfl
  · exact absurd (hdata.1.symm.trans hpot) Bool.false_ne_true
  · exact .inr rfl
  · exact absurd (hdata.2.symm.trans hpot) Bool.false_ne_true

theorem twice_rotated : Rotated 5 twice twiceRotated := by
  have hlooks : twice.looksMeta 0 = true ∧ twice.looksMeta 2 = true := by decide
  refine ⟨rfl, ?_, ?_, ?_⟩
  · intro x
    by_cases h₂ : 8208 ≤ x ∧ x < 8210
    · have hdiv : x / blocksize = 2 := by unfold blocksize; omega
      rw [hdiv]
      exact .inr ⟨hlooks.2, .inr (by unfold blocksize; omega)⟩
    by_cases h₀ : 16 ≤ x ∧ x < 18
    · have hdiv : x / blocksize = 0 := by unfold blocksize; omega
      rw [hdiv]
      exact .inr ⟨hlooks.1, .inr (by unfold blocksize; omega)⟩
    · exact .inl ((putLE_of_not_mem (by omega)).trans (putLE_of_not_mem (by omega)))
  · intro bi hbi hpot
    obtain rfl | rfl := twice_looksMeta hbi hpot
    all_goals decide
  · intro bi hbi hpot
    obtain rfl | rfl := twice_looksMeta hbi hpot
    all_goals decide

theorem twice_rotatable : Rotatable 5 twice twiceRotated := by
  have hnref : nref twice.jd 0 = 1 ∧ nref twice.jd 2 = 1 := by decide
  refine ⟨?_, ?_, ?_⟩
  · intro bi hbi bi' hbi' hv hv'
    obtain rfl | rfl := twice_looksMeta hbi hv.potential
    all_goals
      obtain rfl | rfl := twice_looksMeta hbi' hv'.potential
      all_goals decide
  · intro bi hbi hpot
    obtain rfl | rfl := twice_looksMeta hbi hpot
    all_goals decide
  · intro bi hbi hhead r hr _ hlt
    -- the data of both metablocks lies behind them
    obtain rfl | rfl := twice_looksMeta hbi hhead.potential
    · exact absurd hlt (Nat.not_lt_zero _)
    · rw [hnref.2] at hr
      obtain rfl : r = 0 := Nat.lt_one_iff.mp hr
      exact absurd hlt (by decide)

theorem recover_rotated_twice : recover twiceRotated = recover twice ∧
    (recover twice).map (List.map fun w => (w.tid, w.bn)) = some [(1, 5)] :=
  ⟨recover_rotated twice_rotated twice_rotatable, by decide⟩

/-- The sequence numbers of the metablocks lie in a window of fewer than `2 ^ 15`
values. -/
def Input.Window (J : Input) : Prop :=
  ∃ w, ∀ bi < J.nb, isPotentialMetablock J.jd bi = true →
    tidDiff (seq J.jd bi) w < 2 ^ 15 - 1

/-- One transaction in two metablocks, with the sequence numbers `first` and `second`. -/
def pair (first second : Nat) : Input where
  jd := image [(16, 2, first), (4112, 2, second), (0, 8, journalmagic), (8, 4, nochecksum),
    (24, 2, 0x11), (4096, 8, journalmagic), (4104, 4, nochecksum), (4116, 2, 1), (4120, 2, 0x21)]
  nb := 2
  small := wrapped.small

/-- **The transaction is committed with the sequence numbers 0 and 1, and rejected
with 65535 and 0.** -/
theorem pair_rotated : (pair 0 1).Window ∧ Rotated 65535 (pair 0 1) (pair 65535 0) ∧
    recover (pair 65535 0) ≠ recover (pair 0 1) := by
  refine ⟨⟨0, ?_⟩, ⟨rfl, ?_, ?_, ?_⟩, ?_⟩
  · intro bi hbi _
    obtain rfl | rfl : bi = 0 ∨ bi = 1 := by change bi < 2 at hbi; omega
    all_goals decide
  · intro x
    by_cases h₀ : 16 ≤ x ∧ x < 18
    · have hdiv : x / blocksize = 0 := by unfold blocksize; omega
      have hmod : x % blocksize = x := by unfold blocksize; omega
      rw [hdiv, hmod]
      exact .inr ⟨by decide, .inr h₀⟩
    by_cases h₁ : 4112 ≤ x ∧ x < 4114
    · have hdiv : x / blocksize = 1 := by unfold blocksize; omega
      rw [hdiv]
      exact .inr ⟨by decide, .inr (by unfold blocksize; omega)⟩
    have hout : ∀ a b, (pair a b).jd x = image _ x := fun a b =>
      (putLE_of_not_mem (by omega)).trans (putLE_of_not_mem (by omega))
    exact .inl ((hout _ _).trans (hout _ _).symm)
  · intro bi hbi _
    obtain rfl | rfl : bi = 0 ∨ bi = 1 := by change bi < 2 at hbi; omega
    all_goals decide
  · intro bi hbi _
    obtain rfl | rfl : bi = 0 ∨ bi = 1 := by change bi < 2 at hbi; omega
    all_goals decide
  · have h₁ : recover (pair 65535 0) = none := by decide
    have h₂ : recover (pair 0 1) = some [] := by decide
    rw [h₁, h₂]
    exact Option.some_ne_none _ ∘ Eq.symm

end PugOS.Journal
