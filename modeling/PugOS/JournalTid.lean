import PugOS.JournalReplay

/-! # Whole transactions

`analyze_tid` goes through the metablocks once and collects flags.  What it accepts is
described here without the flags: the metablocks of the transaction begin with its only
`jf_start`; up to the first of them that commits it no sequence number is missing; it has
no references after that one, and none of them marks it complete.  The boundary carried by
a metablock of another transaction is never used.
-/
namespace PugOS.Journal
open Bytes Ring

variable {m : Mem} {t : Nat} {mr : List Nat}

/-- A metablock of transaction `t` commits it, by its flags or by its boundary. -/
def commits (m : Mem) (t bi : Nat) : Bool :=
  has (flags m bi) jfCommit || tidGt (commitBoundary m bi) t

/-- A metablock of transaction `t` marks it complete. -/
def completes (m : Mem) (t bi : Nat) : Bool :=
  has (flags m bi) jfComplete || tidGt (completeBoundary m bi) t

/-- The next metablock has the next sequence number. -/
def NextSeq (m : Mem) (last cur : Nat) : Prop := seq m cur = (seq m last + 1) % 2 ^ 16

/-- Transaction `t` is whole: `mr` splits into the metablocks before it, those from its
first to `c`, which commits it, and those after. -/
structure Whole (m : Mem) (mr : List Nat) (t : Nat) (pre run : List Nat) (c : Nat)
    (post : List Nat) : Prop where
  split : mr = pre ++ run ++ c :: post
  before : ∀ x ∈ pre, tid m x ≠ t
  first : ∃ x, (run ++ [c]).head? = some x ∧ tid m x = t ∧ has (flags m x) jfStart = true
  start_only : ∀ x ∈ (run ++ [c]).tail ++ post, tid m x = t → has (flags m x) jfStart = false
  consecutive : (run ++ [c]).IsChain (NextSeq m)
  uncommitted : ∀ x ∈ run, tid m x = t → commits m t x = false
  tid_commit : tid m c = t
  commit : commits m t c = true
  refs : ∀ x ∈ post, tid m x = t → nref m x = 0
  incomplete : ∀ x ∈ mr, tid m x = t → completes m t x = false

/-! ### The flags -/

/-- The flags `analyze_tid` collects from a metablock of the transaction. -/
def tidFlags (m : Mem) (t bi : Nat) : Nat := flags m bi ||| boundaryFlags m bi t

theorem has_tidFlags_start (m : Mem) (t bi : Nat) :
    has (tidFlags m t bi) jfStart = has (flags m bi) jfStart := by
  have hb : has (boundaryFlags m bi t) jfStart = false := by
    unfold boundaryFlags
    split <;> split <;> decide
  rw [tidFlags, has_or, hb, Bool.or_false]

/-- The commit flag as `analyze_tid` computes it for transaction `t`. -/
theorem has_tidFlags_commit (m : Mem) (t bi : Nat) :
    has (tidFlags m t bi) jfCommit = commits m t bi := by
  have hb : has (boundaryFlags m bi t) jfCommit = tidGt (commitBoundary m bi) t := by
    unfold boundaryFlags
    split <;> split <;> simp_all [has, jfCommit, jfComplete]
  rw [tidFlags, has_or, hb, commits]

theorem has_tidFlags_complete (m : Mem) (t bi : Nat) :
    has (tidFlags m t bi) jfComplete = completes m t bi := by
  have hb : has (boundaryFlags m bi t) jfComplete = tidGt (completeBoundary m bi) t := by
    unfold boundaryFlags
    split <;> split <;> simp_all [has, jfCommit, jfComplete]
  rw [tidFlags, has_or, hb, completes]

theorem ne_zero_of_has {fl mask : Nat} (h : has fl mask = true) : fl ≠ 0 := by
  rintro rfl
  simp [has] at h

theorem has_zero (mask : Nat) : has 0 mask = false := by simp [has]

/-! ### The loop -/

/-- The transaction is accepted. -/
def accepted (r : Nat × Bool) : Prop := r.2 = true ∧ has r.1 jfCommit = true

/-- An error is not taken back. -/
theorem loop_error : ∀ (mr : List Nat) (fl : Nat) (last : Option Nat),
    (analyzeTidLoop m t fl last false mr).2 = false := by
  intro mr
  induction mr with
  | nil => exact fun _ _ => rfl
  | cons cur mr ih =>
    intro fl last
    rw [analyzeTidLoop]
    split
    · exact ih _ _
    · exact ih _ _

/-- Once an error has been seen the transaction is rejected. -/
theorem not_accepted_error (mr : List Nat) (fl : Nat) (last : Option Nat) :
    ¬accepted (analyzeTidLoop m t fl last false mr) := by
  rintro ⟨h, _⟩
  rw [loop_error] at h
  cases h

/-- One metablock of the transaction. -/
theorem loop_own {fl cur : Nat} {last : Option Nat} {ok : Bool} (hcur : tid m cur = t) :
    analyzeTidLoop m t fl last ok (cur :: mr) =
      analyzeTidLoop m t (fl ||| tidFlags m t cur) (some cur)
        (ok && !seqMissing m fl last cur && (has (flags m cur) jfStart == (fl == 0)) &&
          !(has fl jfCommit && nref m cur != 0) && !has fl jfComplete && !completes m t cur)
          mr := by
  rw [analyzeTidLoop, if_pos hcur, ← has_tidFlags_start m t cur, ← has_tidFlags_complete]
  rfl

/-- One metablock of another transaction. -/
theorem loop_other {fl cur : Nat} {last : Option Nat} {ok : Bool} (hcur : tid m cur ≠ t) :
    analyzeTidLoop m t fl last ok (cur :: mr) =
      analyzeTidLoop m t fl (some cur) (ok && !seqMissing m fl last cur) mr := by
  rw [analyzeTidLoop, if_neg hcur]

/-- The metablocks of the transaction after the one that commits it. -/
def After (m : Mem) (t x : Nat) : Prop :=
  tid m x = t → has (flags m x) jfStart = false ∧ completes m t x = false ∧ nref m x = 0

/-- After the commit the transaction may only have metablocks without references that neither
start nor complete it. -/
theorem loop_committed : ∀ (mr : List Nat) {fl : Nat} {last : Option Nat} {ok : Bool},
    has fl jfCommit = true → has fl jfComplete = false →
      (accepted (analyzeTidLoop m t fl last ok mr) ↔ ok = true ∧ ∀ x ∈ mr, After m t x) := by
  intro mr
  induction mr with
  | nil =>
    intro fl last ok hcommit _
    simp [analyzeTidLoop, accepted, hcommit]
  | cons cur mr ih =>
    intro fl last ok hcommit hcomplete
    have hseq : seqMissing m fl last cur = false := by
      cases last <;> simp [seqMissing, hcommit]
    rw [List.forall_mem_cons]
    by_cases hcur : tid m cur = t
    · rw [loop_own hcur]
      have hz : (fl == 0) = false := by simpa using ne_zero_of_has hcommit
      by_cases hafter : After m t cur
      · obtain ⟨hs, hc, hn⟩ := hafter hcur
        rw [ih (by rw [has_or, hcommit, Bool.true_or])
          (by rw [has_or, hcomplete, has_tidFlags_complete, hc, Bool.or_false])]
        simp [hseq, hs, hz, hn, hcomplete, hc, hafter]
      · have hfalse :
            (ok && !seqMissing m fl last cur && (has (flags m cur) jfStart == (fl == 0)) &&
            !(has fl jfCommit && nref m cur != 0) && !has fl jfComplete &&
            !completes m t cur) = false := by
          by_contra hc
          rw [Bool.not_eq_false] at hc
          simp only [Bool.and_eq_true, hz, hcommit, Bool.true_and, Bool.not_eq_true', beq_iff_eq,
            bne_eq_false_iff_eq] at hc
          exact hafter fun _ => ⟨hc.1.1.1.2, hc.2, hc.1.1.2⟩
        rw [hfalse]
        constructor
        · exact fun h => absurd h (not_accepted_error _ _ _)
        · exact fun h => absurd h.2.1 hafter
    · rw [loop_other hcur, ih hcommit hcomplete, hseq]
      have hafter : After m t cur := fun h => absurd h hcur
      simp [hafter]

/-- A metablock between the first of the transaction and the one that commits it. -/
def During (m : Mem) (t x : Nat) : Prop :=
  tid m x = t → has (flags m x) jfStart = false ∧ completes m t x = false ∧ commits m t x = false

/-- A later metablock of the transaction that commits it. -/
def Committing (m : Mem) (t x : Nat) : Prop :=
  tid m x = t ∧ has (flags m x) jfStart = false ∧ completes m t x = false ∧ commits m t x = true

/-- What is left of a whole transaction after the metablock `last`. -/
def Tail (m : Mem) (t last : Nat) (mr : List Nat) : Prop :=
  ∃ run c post, mr = run ++ c :: post ∧ (last :: (run ++ [c])).IsChain (NextSeq m) ∧
    (∀ x ∈ run, During m t x) ∧ Committing m t c ∧ ∀ x ∈ post, After m t x

/-- A transaction that has begun does not end without a commit. -/
theorem tail_nil (last : Nat) : ¬Tail m t last [] := by
  rintro ⟨run, c, post, h, -⟩
  simp at h

/-- The metablock that follows either commits or goes on with the transaction. -/
theorem tail_cons {last cur : Nat} : Tail m t last (cur :: mr) ↔ NextSeq m last cur ∧
    ((Committing m t cur ∧ ∀ x ∈ mr, After m t x) ∨ (During m t cur ∧ Tail m t cur mr)) := by
  constructor
  · rintro ⟨run, c, post, hmr, hchain, hrun, hc, hpost⟩
    cases run with
    | nil =>
      obtain ⟨rfl, rfl⟩ := List.cons.inj hmr
      exact ⟨(List.isChain_cons_cons.mp hchain).1, .inl ⟨hc, hpost⟩⟩
    | cons x run =>
      obtain ⟨rfl, rfl⟩ := List.cons.inj hmr
      obtain ⟨hseq, hchain⟩ := List.isChain_cons_cons.mp hchain
      obtain ⟨hx, hrun⟩ := List.forall_mem_cons.mp hrun
      exact ⟨hseq, .inr ⟨hx, run, c, post, rfl, hchain, hrun, hc, hpost⟩⟩
  · rintro ⟨hseq, ⟨hc, hpost⟩ | ⟨hx, run, c, post, rfl, hchain, hrun, hc, hpost⟩⟩
    · exact ⟨[], cur, mr, rfl, List.isChain_cons_cons.mpr ⟨hseq, .singleton _⟩, nofun, hc, hpost⟩
    · exact ⟨cur :: run, c, post, rfl, List.isChain_cons_cons.mpr ⟨hseq, hchain⟩,
        List.forall_mem_cons.mpr ⟨hx, hrun⟩, hc, hpost⟩

/-- The check on sequence numbers is that no number is left out. -/
theorem seqMissing_eq_false {fl : Nat} (last cur : Nat) (hfl : fl ≠ 0)
    (hcommit : has fl jfCommit = false) : seqMissing m fl (some last) cur = false ↔
    NextSeq m last cur := by
  simp [seqMissing, hfl, hcommit, NextSeq]

/-- The loop inside a transaction, by induction on the metablocks. -/
theorem loop_started : ∀ (mr : List Nat) {fl last : Nat} {ok : Bool}, fl ≠ 0 →
    has fl jfCommit = false → has fl jfComplete = false →
      (accepted (analyzeTidLoop m t fl (some last) ok mr) ↔ ok = true ∧ Tail m t last mr) := by
  intro mr
  induction mr with
  | nil =>
    intro fl last ok _ hcommit _
    constructor
    · rintro ⟨_, h⟩
      rw [analyzeTidLoop] at h
      exact absurd h (by simp [hcommit])
    · exact fun h => absurd h.2 (tail_nil last)
  | cons cur mr ih =>
    intro fl last ok hfl hcommit hcomplete
    have hseq := seqMissing_eq_false (m := m) last cur hfl hcommit
    rw [tail_cons, ← hseq]
    by_cases hcur : tid m cur = t
    · rw [loop_own hcur]
      have hz : (fl == 0) = false := by simpa using hfl
      by_cases hbad : has (flags m cur) jfStart = true ∨ completes m t cur = true
      · -- the metablock is rejected, and it can be neither of the two kinds
        have hfalse : (ok && !seqMissing m fl (some last) cur &&
            (has (flags m cur) jfStart == (fl == 0)) && !(has fl jfCommit && nref m cur != 0) &&
            !has fl jfComplete && !completes m t cur) = false := by
          rw [hz]
          rcases hbad with h | h <;> simp [h]
        rw [hfalse]
        constructor
        · exact fun h => absurd h (not_accepted_error _ _ _)
        · rintro ⟨_, _, ⟨⟨_, hs, hc, _⟩, _⟩ | ⟨hd, _⟩⟩
          · simp [hs, hc] at hbad
          · obtain ⟨hs, hc, _⟩ := hd hcur
            simp [hs, hc] at hbad
      · push Not at hbad
        simp only [ne_eq, Bool.not_eq_true] at hbad
        obtain ⟨hs, hc⟩ := hbad
        have hcomplete' : has (fl ||| tidFlags m t cur) jfComplete = false := by
          rw [has_or, hcomplete, has_tidFlags_complete, hc, Bool.or_false]
        by_cases hcommits : commits m t cur = true
        · rw [loop_committed mr (by rw [has_or, has_tidFlags_commit, hcommits, Bool.or_true])
            hcomplete']
          simp [hz, hs, hc, hcommit, hcomplete, Committing, During, hcur, hcommits, and_assoc]
        · rw [Bool.not_eq_true] at hcommits
          have hne : fl ||| tidFlags m t cur ≠ 0 := fun h => hfl (Nat.or_eq_zero_iff.mp h).1
          rw [ih hne (by rw [has_or, hcommit, has_tidFlags_commit, hcommits, Bool.or_false])
            hcomplete']
          simp [hz, hs, hc, hcommit, hcomplete, Committing, During, hcur, hcommits, and_assoc]
    · rw [loop_other hcur, ih hfl hcommit hcomplete]
      simp [Committing, During, hcur, and_assoc]

/-- The first metablock of the transaction and what follows it. -/
def Started (m : Mem) (t first : Nat) (rest : List Nat) : Prop :=
  tid m first = t ∧ has (flags m first) jfStart = true ∧ completes m t first = false ∧
    if commits m t first then ∀ x ∈ rest, After m t x else Tail m t first rest

/-- The loop before the transaction begins. -/
theorem loop_idle : ∀ (mr : List Nat) {last : Option Nat},
    accepted (analyzeTidLoop m t 0 last true mr) ↔
      ∃ pre first rest, mr = pre ++ first :: rest ∧ (∀ x ∈ pre, tid m x ≠ t) ∧
        Started m t first rest := by
  intro mr
  induction mr with
  | nil =>
    intro last
    constructor
    · rintro ⟨_, h⟩
      exact absurd h (by rw [analyzeTidLoop]; decide)
    · rintro ⟨pre, first, rest, h, -⟩
      simp at h
  | cons cur mr ih =>
    intro last
    have hseq : seqMissing m 0 last cur = false := by
      cases last <;> simp [seqMissing]
    by_cases hcur : tid m cur = t
    · have hsplit : (∃ pre first rest, cur :: mr = pre ++ first :: rest ∧
          (∀ x ∈ pre, tid m x ≠ t) ∧ Started m t first rest) ↔ Started m t cur mr := by
        constructor
        · rintro ⟨pre, first, rest, hmr, hpre, hst⟩
          cases pre with
          | nil =>
            obtain ⟨rfl, rfl⟩ := List.cons.inj hmr
            exact hst
          | cons x pre =>
            obtain ⟨rfl, rfl⟩ := List.cons.inj hmr
            exact absurd hcur (hpre cur (List.mem_cons_self ..))
        · exact fun hst => ⟨[], cur, mr, rfl, nofun, hst⟩
      rw [hsplit, loop_own hcur, Nat.zero_or]
      by_cases hok : has (flags m cur) jfStart = true ∧ completes m t cur = false
      · obtain ⟨hs, hc⟩ := hok
        have hcomplete : has (tidFlags m t cur) jfComplete = false := by
          rw [has_tidFlags_complete, hc]
        by_cases hcommits : commits m t cur = true
        · rw [loop_committed mr (by rw [has_tidFlags_commit, hcommits]) hcomplete]
          simp [Started, hseq, hs, hc, hcur, hcommits, has_zero]
        · rw [Bool.not_eq_true] at hcommits
          have hne : tidFlags m t cur ≠ 0 := by
            have hstart : has (tidFlags m t cur) jfStart = true := by rw [has_tidFlags_start, hs]
            exact ne_zero_of_has hstart
          rw [loop_started mr hne (by rw [has_tidFlags_commit, hcommits]) hcomplete]
          simp [Started, hseq, hs, hc, hcur, hcommits, has_zero]
      · have hfalse :
            (true && !seqMissing m 0 last cur && (has (flags m cur) jfStart == (0 == 0)) &&
            !(has 0 jfCommit && nref m cur != 0) && !has 0 jfComplete && !completes m t cur) =
            false := by
          by_contra hc
          rw [Bool.not_eq_false] at hc
          simp only [Bool.and_eq_true, beq_self_eq_true, beq_iff_eq, Bool.not_eq_true'] at hc
          exact hok ⟨hc.1.1.1.2, hc.2⟩
        rw [hfalse]
        constructor
        · exact fun h => absurd h (not_accepted_error _ _ _)
        · exact fun h => absurd ⟨h.2.1, h.2.2.1⟩ hok
    · rw [loop_other hcur, hseq, Bool.not_false, Bool.and_true, ih]
      constructor
      · rintro ⟨pre, first, rest, rfl, hpre, hst⟩
        exact ⟨cur :: pre, first, rest, rfl, List.forall_mem_cons.mpr ⟨hcur, hpre⟩, hst⟩
      · rintro ⟨pre, first, rest, hmr, hpre, hst⟩
        cases pre with
        | nil =>
          obtain ⟨rfl, rfl⟩ := List.cons.inj hmr
          exact absurd hst.1 hcur
        | cons x pre =>
          obtain ⟨rfl, rfl⟩ := List.cons.inj hmr
          exact ⟨pre, first, rest, rfl, (List.forall_mem_cons.mp hpre).2, hst⟩

/-- **What `analyze_tid` accepts** is a whole transaction. -/
theorem analyzeTid_iff : analyzeTid m mr t = true ↔
    ∃ pre run c post, Whole m mr t pre run c post := by
  have hacc : analyzeTid m mr t = true ↔ accepted (analyzeTidLoop m t 0 none true mr) := by
    simp only [analyzeTid, accepted, Bool.and_eq_true]
  rw [hacc, loop_idle]
  constructor
  · rintro ⟨pre, first, rest, rfl, hpre, htid, hstart, hincomplete, hrest⟩
    have hpre' : ∀ x ∈ pre, tid m x = t → completes m t x = false :=
      fun x hx h => absurd h (hpre x hx)
    cases hcommits : commits m t first with
    | true =>
      rw [hcommits, if_pos rfl] at hrest
      refine ⟨pre, [], first, rest, ?_⟩
      constructor
      case split => simp
      case before => exact hpre
      case first => exact ⟨first, rfl, htid, hstart⟩
      case start_only => exact fun x hx h => (hrest x hx h).1
      case consecutive => exact .singleton _
      case uncommitted => exact nofun
      case tid_commit => exact htid
      case commit => exact hcommits
      case refs => exact fun x hx h => (hrest x hx h).2.2
      case incomplete =>
        intro x hx h
        rcases List.mem_append.mp hx with hx | hx
        · exact hpre' x hx h
        · rcases List.mem_cons.mp hx with rfl | hx
          · exact hincomplete
          · exact (hrest x hx h).2.1
    | false =>
      rw [hcommits, if_neg (by simp)] at hrest
      obtain ⟨run, c, post, rfl, hchain, hrun, ⟨hc, hcs, hcc, hccommit⟩, hpost⟩ := hrest
      refine ⟨pre, first :: run, c, post, ?_⟩
      constructor
      case split => simp
      case before => exact hpre
      case first => exact ⟨first, rfl, htid, hstart⟩
      case start_only =>
        intro x hx h
        rw [List.cons_append, List.tail_cons, List.append_assoc, List.mem_append] at hx
        rcases hx with hx | hx
        · exact (hrun x hx h).1
        · rcases List.mem_cons.mp hx with rfl | hx
          · exact hcs
          · exact (hpost x hx h).1
      case consecutive => exact hchain
      case uncommitted =>
        refine List.forall_mem_cons.mpr ⟨fun _ => hcommits, ?_⟩
        exact fun x hx h => (hrun x hx h).2.2
      case tid_commit => exact hc
      case commit => exact hccommit
      case refs => exact fun x hx h => (hpost x hx h).2.2
      case incomplete =>
        intro x hx h
        rcases List.mem_append.mp hx with hx | hx
        · exact hpre' x hx h
        · rcases List.mem_cons.mp hx with rfl | hx
          · exact hincomplete
          · rcases List.mem_append.mp hx with hx | hx
            · exact (hrun x hx h).2.1
            · rcases List.mem_cons.mp hx with rfl | hx
              · exact hcc
              · exact (hpost x hx h).2.1
  · rintro ⟨pre, run, c, post, hw⟩
    obtain ⟨first, hfirst, htid, hstart⟩ := hw.first
    have hmem : ∀ x ∈ run ++ c :: post, x ∈ mr := by
      intro x hx
      rw [hw.split, List.append_assoc]
      exact List.mem_append_right _ hx
    have hpost : ∀ x ∈ post, After m t x := by
      intro x hx h
      refine ⟨hw.start_only x (List.mem_append_right _ hx) h, hw.incomplete x ?_ h, hw.refs x hx h⟩
      exact hmem x (List.mem_append_right _ (List.mem_cons_of_mem _ hx))
    cases run with
    | nil =>
      obtain rfl : c = first := Option.some.inj hfirst
      refine ⟨pre, c, post, by simpa using hw.split, hw.before, htid, hstart, ?_, ?_⟩
      · exact hw.incomplete c (hmem c (List.mem_cons_self ..)) htid
      · rw [hw.commit, if_pos rfl]
        exact hpost
    | cons f run =>
      obtain rfl : f = first := Option.some.inj hfirst
      have hf : commits m t f = false := hw.uncommitted f (List.mem_cons_self ..) htid
      refine ⟨pre, f, run ++ c :: post, by simpa using hw.split, hw.before, htid, hstart, ?_, ?_⟩
      · exact hw.incomplete f (hmem f (List.mem_cons_self ..)) htid
      · rw [hf, if_neg (by simp)]
        refine ⟨run, c, post, rfl, hw.consecutive, ?_, ⟨hw.tid_commit, ?_, ?_, hw.commit⟩, hpost⟩
        · intro x hx h
          refine ⟨hw.start_only x ?_ h, hw.incomplete x ?_ h,
            hw.uncommitted x (List.mem_cons_of_mem _ hx) h⟩
          · exact List.mem_append_left _ (List.mem_append_left _ hx)
          · exact hmem x (List.mem_cons_of_mem _ (List.mem_append_left _ hx))
        · refine hw.start_only c ?_ hw.tid_commit
          exact List.mem_append_left _ (List.mem_append_right _ (List.mem_singleton.mpr rfl))
        · exact hw.incomplete c (hmem c (List.mem_append_right _ (List.mem_cons_self ..)))
            hw.tid_commit

/-! ### The journal on disk -/

/-- The checks `analyze` makes before it looks at transactions: the blocks, that there is
a metablock, and the metablock invariants. -/
def Checked (d : Mem) (nb : Nat) : Prop :=
  (looked d nb).ok = true ∧ (looked d nb).mr ≠ [] ∧
    checkMetas (looked d nb).jd (looked d nb).mr = true

/-- `analyze` succeeds when the blocks pass and every transaction in the range does. -/
theorem analyze_iff {d : Mem} {nb : Nat} : (analyze d nb).2 = true ↔ Checked d nb ∧
    ∀ t ∈ tidRange (region (looked d nb).jd (looked d nb).mr).1
      (region (looked d nb).jd (looked d nb).mr).2,
      analyzeTid (looked d nb).jd (looked d nb).mr t = true := by
  have hdef : analyze d nb = analyzeMetas (looked d nb) := rfl
  unfold Checked
  rw [hdef]
  generalize looked d nb = s
  unfold analyzeMetas region
  cases hok : s.ok with
  | false => simp
  | true =>
    cases hlast : s.mr.getLast? with
    | none => simp [List.getLast?_eq_none_iff.mp hlast]
    | some last =>
      have hne : s.mr ≠ [] := by
        rintro h
        rw [h] at hlast
        cases hlast
      cases hcheck : checkMetas s.jd s.mr with
      | false => simp
      | true => simp [hne, List.all_eq_true]

/-- Every accepted metablock, and every block not looked at yet, is as on disk. -/
structure Kept (d : Mem) (k : Nat) (s : Replayer) : Prop where
  lt : ∀ bi ∈ s.mr, bi < k
  same : ∀ b, (k ≤ b ∨ b ∈ s.mr) → SameBlock s.jd d b

/-- Looking at one block leaves the metablocks before it as they were. -/
theorem analyzeBlock_kept {d : Mem} {k : Nat} {s : Replayer} (h : Kept d k s) :
    Kept d (k + 1) (analyzeBlock s k) := by
  have hknot : k ∉ s.mr := fun hmem => Nat.lt_irrefl k (h.lt k hmem)
  by_cases hpot : isPotentialMetablock s.jd k = true
  · have hscan := scan_scanned s k
    have ht := scan_touched s k
    rcases analyzeBlock_cases s hpot with ⟨_, hx⟩ | ⟨he, hx⟩
    · rw [hx]
      constructor
      · intro b hb
        rw [hscan.mr] at hb
        exact Nat.lt_succ_of_lt (h.lt b hb)
      · intro b hb
        rw [hscan.mr] at hb
        have hne : b ≠ k := by
          rintro rfl
          rcases hb with hb | hb
          · omega
          · exact hknot hb
        exact (ht.sameBlock hne).trans (h.same b (hb.imp_left Nat.le_of_succ_le))
    · rw [hx]
      have hjd := (scan_clean he).1
      constructor
      · intro b hb
        rcases mem_insertMeta.mp hb with rfl | hb
        · exact Nat.lt_succ_self b
        · exact Nat.lt_succ_of_lt (h.lt b hb)
      · intro b hb
        dsimp only
        rw [hjd]
        rw [mem_insertMeta] at hb
        rcases hb with hb | rfl | hb
        · exact h.same b (.inl (Nat.le_of_succ_le hb))
        · exact h.same b (.inl (Nat.le_refl b))
        · exact h.same b (.inr hb)
  · have hs : analyzeBlock s k = s := by
      unfold analyzeBlock
      rw [if_neg hpot]
    rw [hs]
    exact ⟨fun b hb => Nat.lt_succ_of_lt (h.lt b hb),
      fun b hb => h.same b (hb.imp_left Nat.le_of_succ_le)⟩

/-- By induction, so do all blocks. -/
theorem blocks_kept (d : Mem) (nb k : Nat) :
    Kept d k ((List.range k).foldl analyzeBlock (start d nb)) := by
  induction k with
  | zero => exact ⟨nofun, fun _ _ _ _ _ => rfl⟩
  | succ k ih =>
    rw [List.range_succ, List.foldl_append, List.foldl_cons, List.foldl_nil]
    exact analyzeBlock_kept ih

/-- The metablocks kept are the disk's. -/
theorem looked_same (d : Mem) (nb : Nat) : ∀ x ∈ (looked d nb).mr, SameBlock (looked d nb).jd d x :=
  fun x hx => (blocks_kept d nb nb).same x (.inr hx)

theorem seqMissing_congr {m' : Mem} {fl cur : Nat} {last : Option Nat} (hcur : SameBlock m m' cur)
    (hlast : ∀ x ∈ last, SameBlock m m' x) :
    seqMissing m fl last cur = seqMissing m' fl last cur := by
  cases last with
  | none => rfl
  | some last => rw [seqMissing, seqMissing, hcur.seq, (hlast last rfl).seq]

theorem tidFlags_congr {m' : Mem} {cur : Nat} (h : SameBlock m m' cur) :
    tidFlags m t cur = tidFlags m' t cur := by
  rw [tidFlags, tidFlags, boundaryFlags, boundaryFlags, h.flags, h.commitBoundary,
    h.completeBoundary]

/-- `analyze_tid` reads the accepted metablocks only. -/
theorem loop_congr {m' : Mem} : ∀ (mr : List Nat) {fl : Nat} {last : Option Nat} {ok : Bool},
    (∀ x ∈ mr, SameBlock m m' x) → (∀ x ∈ last, SameBlock m m' x) →
      analyzeTidLoop m t fl last ok mr = analyzeTidLoop m' t fl last ok mr := by
  intro mr
  induction mr with
  | nil => exact fun _ _ => rfl
  | cons cur mr ih =>
    intro fl last ok hmr hlast
    obtain ⟨hcur, hmr⟩ := List.forall_mem_cons.mp hmr
    have hcur' : ∀ x ∈ some cur, SameBlock m m' x := by
      rintro x hx
      obtain rfl := Option.some.inj hx
      exact hcur
    by_cases htid : tid m cur = t
    · rw [loop_own htid, loop_own (hcur.tid ▸ htid), ih hmr hcur', tidFlags_congr hcur,
        seqMissing_congr hcur hlast, completes, completes, hcur.flags, hcur.nref,
        hcur.completeBoundary]
    · rw [loop_other htid, loop_other (hcur.tid ▸ htid), ih hmr hcur', seqMissing_congr hcur hlast]

/-- The analysis of a transaction reads its metablocks and nothing else. -/
theorem analyzeTid_congr {m' : Mem} (h : ∀ x ∈ mr, SameBlock m m' x) :
    analyzeTid m mr t = analyzeTid m' mr t := by
  rw [analyzeTid, analyzeTid, loop_congr mr h fun x hx => absurd hx (Option.not_mem_none x)]

theorem region_congr {m' : Mem} (h : ∀ x ∈ mr, SameBlock m m' x) : region m mr = region m' mr := by
  unfold region
  cases hlast : mr.getLast? with
  | none => rfl
  | some last =>
    have hsame := h last (List.mem_of_getLast? hlast)
    dsimp only
    rw [hsame.commitBoundary, hsame.completeBoundary]

/-- The tids of the committable region of the journal on disk. -/
def committableTids (d : Mem) (nb : Nat) : List Nat :=
  tidRange (region d (looked d nb).mr).1 (region d (looked d nb).mr).2

/-- The same with everything read off the disk. -/
theorem analyze_iff_disk {d : Mem} {nb : Nat} : (analyze d nb).2 = true ↔ Checked d nb ∧
    ∀ t ∈ committableTids d nb, ∃ pre run c post, Whole d (looked d nb).mr t pre run c post := by
  have hsame := looked_same d nb
  rw [analyze_iff, region_congr hsame]
  refine and_congr_right fun _ => forall_congr' fun t => imp_congr_right fun _ => ?_
  rw [analyzeTid_congr hsame, analyzeTid_iff]

/-- **Replayed transactions are whole**: what `analyze` accepts has, for every tid of the
committable region, all the metablocks of the transaction up to the one that commits it. -/
theorem replayed_whole {d : Mem} {nb : Nat} (h : (analyze d nb).2 = true) {t : Nat}
    (ht : t ∈ committableTids d nb) :
    ∃ pre run c post, Whole d (analyze d nb).1.mr t pre run c post := by
  obtain ⟨-, hs⟩ := analyze_true h
  have hmr : (analyze d nb).1.mr = (looked d nb).mr := by rw [hs]
  rw [hmr]
  exact (analyze_iff_disk.mp h).2 t ht

/-- Two transactions of two metablocks each, in turns. -/
def inTurns : Mem :=
  image [(0, 8, journalmagic), (8, 4, nochecksum), (24, 2, 0x11),
    (4096, 8, journalmagic), (4104, 4, nochecksum), (4112, 2, 1), (4114, 2, 1), (4120, 2, 0x11),
    (8192, 8, journalmagic), (8200, 4, nochecksum), (8208, 2, 2), (8212, 2, 1), (8216, 2, 0x21),
    (12288, 8, journalmagic), (12296, 4, nochecksum), (12304, 2, 3), (12306, 2, 1), (12308, 2, 2),
    (12312, 2, 0x21)]

theorem replayed_whole_inTurns :
    (∃ pre run c post, Whole inTurns (analyze inTurns 4).1.mr 0 pre run c post) ∧
      ∃ pre run c post, Whole inTurns (analyze inTurns 4).1.mr 1 pre run c post :=
  have htids : (analyze inTurns 4).2 = true ∧ 0 ∈ committableTids inTurns 4 ∧
      1 ∈ committableTids inTurns 4 := by decide
  ⟨replayed_whole htids.1 htids.2.1, replayed_whole htids.1 htids.2.2⟩

/-! ### Commit by the boundary of another transaction -/

/-- Transaction `t` is committed by the boundary of `b`, a metablock of `t` or of a later
transaction, with no sequence number missing from its start. -/
structure ByBoundary (m : Mem) (mr : List Nat) (t : Nat) (pre run : List Nat) (b : Nat)
    (post : List Nat) : Prop where
  split : mr = pre ++ run ++ b :: post
  before : ∀ x ∈ pre, tid m x ≠ t
  first : ∃ x, (run ++ [b]).head? = some x ∧ tid m x = t ∧ has (flags m x) jfStart = true
  start_only : ∀ x ∈ (run ++ [b]).tail ++ post, tid m x = t → has (flags m x) jfStart = false
  consecutive : (run ++ [b]).IsChain (NextSeq m)
  later : tid m b = t ∨ tidGt (tid m b) t = true
  boundary : tidGt (commitBoundary m b) t = true
  refs : ∀ x ∈ post, tid m x = t → nref m x = 0
  incomplete : ∀ x ∈ mr, tid m x = t → completes m t x = false

/-- A metablock `c` of transaction `t` itself commits it, the first of `t` that does; from
the first metablock of `t` to `c` no sequence number is missing, and `t` has no references
after `c`. -/
structure OwnCommit (m : Mem) (mr : List Nat) (t : Nat) (pre run : List Nat) (c : Nat)
    (post : List Nat) : Prop where
  split : mr = pre ++ run ++ c :: post
  before : ∀ x ∈ pre, tid m x ≠ t
  first : ∃ x, (run ++ [c]).head? = some x ∧ tid m x = t
  consecutive : (run ++ [c]).IsChain (NextSeq m)
  uncommitted : ∀ x ∈ run, tid m x = t → commits m t x = false
  tid_commit : tid m c = t
  commit : commits m t c = true
  refs : ∀ x ∈ post, tid m x = t → nref m x = 0

/-- A list has one first element of a kind. -/
theorem first_unique {p : Nat → Prop} {x y : Nat} {r r' : List Nat} : ∀ {l l' : List Nat},
    l ++ x :: r = l' ++ y :: r' → (∀ z ∈ l, ¬p z) → (∀ z ∈ l', ¬p z) → p x → p y →
      x = y ∧ r = r' := by
  intro l
  induction l with
  | nil =>
    intro l' h _ hl' hx _
    cases l' with
    | nil => exact List.cons.inj h
    | cons z l' =>
      obtain ⟨rfl, _⟩ := List.cons.inj h
      exact absurd hx (hl' x (List.mem_cons_self ..))
  | cons z l ih =>
    intro l' h hl hl' hx hy
    cases l' with
    | nil =>
      obtain ⟨rfl, _⟩ := List.cons.inj h
      exact absurd hy (hl z (List.mem_cons_self ..))
    | cons w l' =>
      obtain ⟨rfl, htail⟩ := List.cons.inj h
      exact ih htail (List.forall_mem_cons.mp hl).2 (List.forall_mem_cons.mp hl').2 hx hy

/-- The first element of `run ++ [c]` and the rest, in the whole list. -/
theorem split_first {pre run post : List Nat} {c x : Nat} (h : mr = pre ++ run ++ c :: post)
    (hx : (run ++ [c]).head? = some x) : mr = pre ++ x :: ((run ++ [c]).tail ++ post) := by
  cases run with
  | nil =>
    obtain rfl := Option.some.inj hx
    simpa using h
  | cons y run =>
    obtain rfl := Option.some.inj hx
    simpa using h

/-- A transaction with its own commit is whole when a boundary commits it as well: the boundary
gives the flags of its first metablock. -/
theorem OwnCommit.whole {pre run post pre' run' post' : List Nat} {c b : Nat}
    (ho : OwnCommit m mr t pre run c post) (hb : ByBoundary m mr t pre' run' b post') :
    Whole m mr t pre run c post := by
  obtain ⟨x, hx, htx⟩ := ho.first
  obtain ⟨y, hy, hty, hstart⟩ := hb.first
  have hsplit := (split_first ho.split hx).symm.trans (split_first hb.split hy)
  obtain ⟨rfl, hrest⟩ := first_unique (p := fun z => tid m z = t) hsplit ho.before hb.before htx hty
  constructor
  case split => exact ho.split
  case before => exact ho.before
  case first => exact ⟨x, hx, htx, hstart⟩
  case start_only =>
    rw [hrest]
    exact hb.start_only
  case consecutive => exact ho.consecutive
  case uncommitted => exact ho.uncommitted
  case tid_commit => exact ho.tid_commit
  case commit => exact ho.commit
  case refs => exact ho.refs
  case incomplete => exact hb.incomplete

/-- A whole transaction has a commit of its own. -/
theorem Whole.own {pre run post : List Nat} {c : Nat} (hw : Whole m mr t pre run c post) :
    OwnCommit m mr t pre run c post := by
  obtain ⟨x, hx, htx, _⟩ := hw.first
  exact ⟨hw.split, hw.before, ⟨x, hx, htx⟩, hw.consecutive, hw.uncommitted, hw.tid_commit,
    hw.commit, hw.refs⟩

/-- **Commit by boundary** is recognised exactly when every committable transaction is also
committed by a metablock of its own. -/
theorem analyze_true_iff_own {d : Mem} {nb : Nat} (hc : Checked d nb)
    (hb : ∀ t ∈ committableTids d nb, ∃ pre run b post, ByBoundary d (looked d nb).mr t pre run
      b post) :
    (analyze d nb).2 = true ↔
      ∀ t ∈ committableTids d nb, ∃ pre run c post, OwnCommit d (looked d nb).mr t pre run c
      post := by
  rw [analyze_iff_disk]
  constructor
  · rintro ⟨_, h⟩ t ht
    obtain ⟨pre, run, c, post, hw⟩ := h t ht
    exact ⟨pre, run, c, post, hw.own⟩
  · intro h
    refine ⟨hc, ?_⟩
    intro t ht
    obtain ⟨pre, run, c, post, ho⟩ := h t ht
    obtain ⟨pre', run', b, post', hby⟩ := hb t ht
    exact ⟨pre, run, c, post, ho.whole hby⟩

theorem twice_tids : committableTids twice.jd twice.nb = [0, 1] := by decide

theorem twice_looked : (looked twice.jd twice.nb).mr = [0, 2] := by decide

theorem twice_checked : Checked twice.jd twice.nb :=
  ⟨by decide, by rw [twice_looked]; exact List.cons_ne_nil _ _, by decide⟩

theorem twice_byBoundary : ByBoundary twice.jd [0, 2] 0 [] [] 0 [2] ∧
    ByBoundary twice.jd [0, 2] 1 [0] [] 2 [] := by
  constructor
  · constructor
    case split => rfl
    case before => exact nofun
    case first => exact ⟨0, rfl, by decide, by decide⟩
    case start_only => decide
    case consecutive => exact .singleton _
    case later => exact .inl (by decide)
    case boundary => decide
    case refs => decide
    case incomplete => decide
  · constructor
    case split => rfl
    case before => decide
    case first => exact ⟨2, rfl, by decide, by decide⟩
    case start_only => exact nofun
    case consecutive => exact .singleton _
    case later => exact .inl (by decide)
    case boundary => decide
    case refs => exact nofun
    case incomplete => decide

theorem twice_ownCommit : OwnCommit twice.jd [0, 2] 0 [] [] 0 [2] ∧
    OwnCommit twice.jd [0, 2] 1 [0] [] 2 [] :=
  ⟨⟨rfl, nofun, ⟨0, rfl, by decide⟩, .singleton _, nofun, by decide, by decide, by decide⟩,
    ⟨rfl, by decide, ⟨2, rfl, by decide⟩, .singleton _, nofun, by decide, by decide, nofun⟩⟩

theorem analyze_true_iff_own_twice : (analyze twice.jd twice.nb).2 = true := by
  have htids : ∀ t ∈ committableTids twice.jd twice.nb, t = 0 ∨ t = 1 := by
    rw [twice_tids]
    decide
  refine (analyze_true_iff_own twice_checked ?_).mpr ?_
  · intro t ht
    rw [twice_looked]
    obtain rfl | rfl := htids t ht
    · exact ⟨[], [], 0, [2], twice_byBoundary.1⟩
    · exact ⟨[0], [], 2, [], twice_byBoundary.2⟩
  · intro t ht
    rw [twice_looked]
    obtain rfl | rfl := htids t ht
    · exact ⟨[], [], 0, [2], twice_ownCommit.1⟩
    · exact ⟨[0], [], 2, [], twice_ownCommit.2⟩

/-- Transaction 1 has one metablock, without `jf_commit`; the metablock of transaction 2
that follows it has the commit boundary 2. -/
def handover : Mem :=
  image [(0, 8, journalmagic), (8, 4, nochecksum), (18, 2, 1), (20, 2, 1), (22, 2, 1),
    (24, 2, 0x11), (4096, 8, journalmagic), (4104, 4, nochecksum), (4112, 2, 1), (4114, 2, 2),
    (4116, 2, 2), (4118, 2, 1), (4120, 2, 0x11)]

theorem handover_looked : (looked handover 2).mr = [0, 1] := by decide

theorem handover_tids : committableTids handover 2 = [1] := by decide

/-- Every transaction of the region is committed by a boundary, and `analyze` rejects the
journal. -/
theorem handover_rejected : Checked handover 2 ∧
    (∀ t ∈ committableTids handover 2, ∃ pre run b post,
      ByBoundary handover (looked handover 2).mr t pre run b post) ∧
    (analyze handover 2).2 = false := by
  refine ⟨⟨by decide, by rw [handover_looked]; exact List.cons_ne_nil _ _, by decide⟩, ?_,
    by decide⟩
  intro t ht
  rw [handover_tids, List.mem_singleton] at ht
  subst ht
  rw [handover_looked]
  refine ⟨[], [0], 1, [], ?_⟩
  constructor
  case split => rfl
  case before => exact nofun
  case first => exact ⟨0, rfl, by decide, by decide⟩
  case start_only => decide
  case consecutive =>
    refine List.isChain_cons_cons.mpr ⟨?_, .singleton _⟩
    show seq handover 1 = _
    decide
  case later => exact .inr (by decide)
  case boundary => decide
  case refs => exact nofun
  case incomplete => decide

end PugOS.Journal
