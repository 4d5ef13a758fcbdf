import PugOS.JournalShare
import PugOS.Fsck

/-! # What the replay reaches into

The accesses of `analyze` and `run`, in the order of the code: to entries of `mr_`, to
references of a metablock and to bytes of the journal.  What they depend on is taken from
the functions of the replay themselves.

`analyze_block` flags a metablock with more than `ref_size` references and goes on to look
at all of them; `write_block` of `chickadeefsck` trusts the block number of a reference;
and `replay_journal` copies `njournal` blocks and has the blocks up to the end of the image
analysed.  Nothing else is out of range, whatever the journal holds (`replay_safe_iff`).
-/
namespace PugOS.Journal
open Bytes Ring LastWrite

/-- An entry of `mr_`, a reference of a metablock by its index, or bytes of the journal. -/
inductive Access where
  | mr (i : Nat)
  | ref (refi : Nat)
  | bytes (a n : Nat)
  deriving DecidableEq

/-- The access is in range, for `nb` entries of `mr_` and a journal of `size` bytes. -/
def Access.InRange (nb size : Nat) : Access → Prop
  | .mr i => i < nb
  | .ref refi => refi < refSize
  | .bytes a n => a + n ≤ size

/-- The fields of a metablock before its references. -/
def headerAccess (b : Nat) : Access := .bytes (b * blocksize) 28

def blockAccess (b : Nat) : Access := .bytes (b * blocksize) blocksize

/-- `jmb->ref[refi]`. -/
def refAccesses (b refi : Nat) : List Access := [.ref refi, .bytes (refAddr b refi) 12]

/-! ## Analysis -/

/-- `is_potential_metablock`. -/
def potentialAccesses (m : Mem) (b : Nat) : List Access :=
  .bytes (b * blocksize) 8 :: if magic m b = journalmagic then
    .bytes (b * blocksize + 8) 4 :: if checksum m b = nochecksum then []
      else [.bytes (b * blocksize + 16) (blocksize - 16)]
  else []

/-- `analyze_block_reference`. -/
def referenceAccesses (bi : Nat) (x : Replayer × Nat) (refi : Nat) : List Access :=
  let (s, delta) := x
  refAccesses bi refi ++
    if has (bflags s.jd bi refi) jbfNonjournaled then []
    else
      let dbi := blockAfter s.nb bi delta
      potentialAccesses s.jd dbi ++
        (if isPotentialMetablock s.jd dbi || bchecksum s.jd bi refi == nochecksum then []
          else [blockAccess dbi]) ++
        if badData s.jd bi refi dbi then [headerAccess bi] else []

/-- The place for a metablock is looked for, and the entries from there on move up. -/
def insertAccesses (m : Mem) (bi : Nat) : Nat → List Nat → List Access
  | x, [] => [.mr x]
  | x, b :: mr =>
    .mr x :: headerAccess b ::
      if seq m b ≤ seq m bi then insertAccesses m bi (x + 1) mr
      else (List.range (mr.length + 2)).map fun k => .mr (x + k)

/-- `analyze_block`. -/
def analyzeBlockAccesses (s : Replayer) (bi : Nat) : List Access :=
  potentialAccesses s.jd bi ++
    if isPotentialMetablock s.jd bi then
      headerAccess bi ::
        (List.range (nref s.jd bi)).flatMap (fun refi => referenceAccesses bi
          ((List.range refi).foldl (analyzeBlockReference bi)
            ({ s with jd := checkFlags s.jd bi }, 1)) refi) ++
        if has (flags (scan s bi).1.jd bi) jfError then []
        else insertAccesses (scan s bi).1.jd bi 0 s.mr
    else [.bytes (bi * blocksize) 12]

/-- The metablock invariants, from `mr_[mi]` on. -/
def checkMetasAccesses : Nat → Option Nat → List Nat → List Access
  | _, _, [] => []
  | mi, last, cur :: mr =>
    .mr mi :: headerAccess cur ::
      (last.elim [] fun last => [.mr (mi - 1), headerAccess last]) ++
      checkMetasAccesses (mi + 1) (some cur) mr

/-- The loop of `analyze_tid`, from `mr_[mi]` on. -/
def analyzeTidAccesses (m : Mem) (t : Nat) : Nat → Option Nat → Nat → List Nat → List Access
  | _, _, _, [] => []
  | fl, last, mi, cur :: mr =>
    .mr mi :: headerAccess cur ::
      (if fl = 0 then [] else .mr ((mi + 2 ^ 32 - 1) % 2 ^ 32) :: last.toList.map headerAccess) ++
      analyzeTidAccesses m t (if tid m cur = t then fl ||| tidFlags m t cur else fl) (some cur)
        (mi + 1) mr

/-- `mark_overwritten_block`. -/
def markOverwrittenAccesses (target : Nat) : List Nat → Nat → Mem → List Access
  | [], _, _ => []
  | bi :: rest, refx, m =>
    let refx := if refx > nref m bi then nref m bi else refx
    .mr rest.length :: headerAccess bi ::
      (List.range refx).flatMap (refAccesses bi) ++
      markOverwrittenAccesses target rest (2 ^ 32 - 1) (markRefs target bi refx m)

/-- `analyze_overwritten_blocks`, from the reference before `refx` down. -/
def analyzeOverwrittenAccesses (bi : Nat) (rest : List Nat) : Nat → Mem → List Access
  | 0, _ => []
  | refx + 1, m =>
    refAccesses bi refx ++
      if has (bflags m bi refx) jbfOverwritten then analyzeOverwrittenAccesses bi rest refx m
      else
        markOverwrittenAccesses (bn m bi refx) (bi :: rest) refx m ++
          analyzeOverwrittenAccesses bi rest refx
            (markOverwrittenBlock (bn m bi refx) (bi :: rest) refx m)

/-- The last loop of `analyze`. -/
def markAllAccesses (complete commit : Nat) : List Nat → Mem → List Access
  | [], _ => []
  | bi :: rest, m =>
    .mr rest.length :: headerAccess bi ::
      if committable m complete commit bi then
        .mr rest.length :: headerAccess bi :: analyzeOverwrittenAccesses bi rest (nref m bi) m ++
          markAllAccesses complete commit rest (analyzeOverwrittenBlocks bi rest (nref m bi) m)
      else markAllAccesses complete commit rest m

/-- `analyze`, once every block has been looked at. -/
def analyzeMetasAccesses (s : Replayer) : List Access :=
  match s.ok, s.mr.getLast? with
  | true, some last =>
    checkMetasAccesses 0 none s.mr ++
      if checkMetas s.jd s.mr then
        let complete := completeBoundary s.jd last
        let commit := commitBoundary s.jd last
        .mr (s.mr.length - 1) :: headerAccess last ::
          (tidRange complete commit).flatMap (fun t => analyzeTidAccesses s.jd t 0 none 0 s.mr) ++
          markAllAccesses complete commit s.mr.reverse s.jd
      else []
  | _, _ => []

/-- The first loop of `analyze`. -/
def blocksAccesses (jd : Mem) (nb : Nat) : List Access :=
  (List.range nb).flatMap fun bi =>
    analyzeBlockAccesses ((List.range bi).foldl analyzeBlock (start jd nb)) bi

/-- `analyze`. -/
def analyzeAccesses (jd : Mem) (nb : Nat) : List Access :=
  blocksAccesses jd nb ++ analyzeMetasAccesses (looked jd nb)

/-! ## Replay -/

/-- The body of the inner loop of `run`, of which `write_block` reads the buffer. -/
def runRefAccesses (nb bi mi : Nat) (s : RunState) (refi : Nat) : List Access :=
  let fl := bflags s.jd bi refi
  refAccesses bi refi ++
    if has fl jbfNonjournaled || has fl jbfOverwritten then []
    else
      let dbi := blockAfter nb bi s.delta
      .mr mi :: (if has fl jbfEscaped then [.bytes (dbi * blocksize) 8] else []) ++
        [headerAccess bi, blockAccess dbi]

/-- The body of the outer loop of `run`. -/
def runMetaAccesses (nb complete commit mi : Nat) (s : RunState) (bi : Nat) : List Access :=
  .mr mi :: headerAccess bi ::
    if committable s.jd complete commit bi then
      (List.range (nref s.jd bi)).flatMap fun refi => runRefAccesses nb bi mi
        ((List.range refi).foldl (runRef nb bi) { s with delta := 1 }) refi
    else []

/-- The outer loop of `run`, from `mr_[mi]` on. -/
def runMetasAccesses (nb complete commit : Nat) : Nat → RunState → List Nat → List Access
  | _, _, [] => []
  | mi, s, bi :: mr =>
    runMetaAccesses nb complete commit mi s bi ++
      runMetasAccesses nb complete commit (mi + 1) (runMeta nb complete commit s bi) mr

/-- `run`. -/
def runAccesses (s : Replayer) : List Access :=
  .mr ((s.mr.length + 2 ^ 32 - 1) % 2 ^ 32) ::
    match s.mr.getLast? with
    | none => []
    | some last =>
      headerAccess last :: runMetasAccesses s.nb (completeBoundary s.jd last)
        (commitBoundary s.jd last) 0 { jd := s.jd, writes := [], delta := 1 } s.mr

/-- The accesses of the analysis, and of `run` if it succeeds. -/
def replayAccesses (jd : Mem) (nb : Nat) : List Access :=
  analyzeAccesses jd nb ++ if (analyze jd nb).2 then runAccesses (analyze jd nb).1 else []

/-- The calls of `write_block`. -/
def replayWrites (jd : Mem) (nb : Nat) : List Write :=
  if (analyze jd nb).2 then run (analyze jd nb).1 else []

/-! ## What is in range -/

/-- All accesses are in range of a journal of `nb` blocks. -/
def AllInRange (nb : Nat) (l : List Access) : Prop := ∀ a ∈ l, a.InRange nb (nb * blocksize)

variable {nb b bi r n : Nat} {m d : Mem} {l l' mr : List Nat} {s : Replayer}

@[simp] theorem allInRange_nil : AllInRange nb [] := nofun

@[simp] theorem allInRange_cons {a : Access} {l : List Access} :
    AllInRange nb (a :: l) ↔ a.InRange nb (nb * blocksize) ∧ AllInRange nb l :=
  List.forall_mem_cons

@[simp] theorem allInRange_append {l l' : List Access} :
    AllInRange nb (l ++ l') ↔ AllInRange nb l ∧ AllInRange nb l' :=
  List.forall_mem_append

@[simp] theorem allInRange_flatMap {α : Type} {l : List α} {f : α → List Access} :
    AllInRange nb (l.flatMap f) ↔ ∀ x ∈ l, AllInRange nb (f x) := by
  unfold AllInRange
  simp only [List.mem_flatMap]
  exact ⟨fun h x hx a ha => h a ⟨x, hx, ha⟩, fun h a ⟨x, hx, ha⟩ => h x hx a ha⟩

@[simp] theorem mr_inRange {i size : Nat} : (Access.mr i).InRange nb size ↔ i < nb := Iff.rfl
@[simp] theorem ref_inRange {size : Nat} : (Access.ref r).InRange nb size ↔ r < refSize := Iff.rfl

/-- Bytes of a block of the journal. -/
theorem bytes_inRange {o : Nat} (hb : b < nb) (ho : o + n ≤ blocksize) :
    (Access.bytes (b * blocksize + o) n).InRange nb (nb * blocksize) := by
  have hle : (b + 1) * blocksize ≤ nb * blocksize := Nat.mul_le_mul_right _ hb
  rw [Nat.add_one_mul] at hle
  change b * blocksize + o + n ≤ nb * blocksize
  omega

theorem bytes_inRange_zero (hb : b < nb) (hn : n ≤ blocksize) :
    (Access.bytes (b * blocksize) n).InRange nb (nb * blocksize) := by
  have h : (Access.bytes (b * blocksize + 0) n).InRange nb (nb * blocksize) :=
    bytes_inRange hb (by omega)
  rwa [Nat.add_zero] at h

theorem blockAccess_inRange (hb : b < nb) : (blockAccess b).InRange nb (nb * blocksize) :=
  bytes_inRange_zero hb (Nat.le_refl blocksize)

theorem headerAccess_inRange (hb : b < nb) : (headerAccess b).InRange nb (nb * blocksize) :=
  bytes_inRange_zero hb (by decide)

theorem refAccesses_inRange (hb : b < nb) (hr : r < refSize) : AllInRange nb (refAccesses b r) := by
  unfold refAccesses refAddr
  rw [Nat.add_assoc]
  simp only [allInRange_cons, allInRange_nil, and_true]
  refine ⟨hr, bytes_inRange hb ?_⟩
  unfold refSize at hr
  unfold blocksize
  omega

theorem potentialAccesses_inRange (m : Mem) (hb : b < nb) :
    AllInRange nb (potentialAccesses m b) := by
  have h₀ : (Access.bytes (b * blocksize) 8).InRange nb (nb * blocksize) :=
    bytes_inRange_zero hb (by decide)
  have h₁ : (Access.bytes (b * blocksize + 8) 4).InRange nb (nb * blocksize) :=
    bytes_inRange hb (by decide)
  have h₂ : (Access.bytes (b * blocksize + 16) (blocksize - 16)).InRange nb (nb * blocksize) :=
    bytes_inRange hb (by decide)
  unfold potentialAccesses
  split
  · split <;> simp [h₀, h₁, h₂]
  · simp [h₀]

/-! ### The analysis of the blocks -/

theorem referenceAccesses_inRange {x : Replayer × Nat} (hx : x.1.nb = nb) (hbi : bi < nb)
    (hr : r < refSize) : AllInRange nb (referenceAccesses bi x r) := by
  obtain ⟨s, δ⟩ := x
  have hnb : s.nb = nb := hx
  have hdbi : blockAfter s.nb bi δ < nb := hnb ▸ blockAfter_lt (by omega) bi δ
  have hmeta := potentialAccesses_inRange s.jd hdbi
  have hdata := blockAccess_inRange hdbi
  have hheader := headerAccess_inRange hbi
  unfold referenceAccesses
  rw [allInRange_append]
  refine ⟨refAccesses_inRange hbi hr, ?_⟩
  split
  · exact allInRange_nil
  · simp only [allInRange_append]
    refine ⟨⟨hmeta, ?_⟩, ?_⟩
    · split <;> simp [hdata]
    · split <;> simp [hheader]

theorem insertAccesses_inRange (hmr : ∀ b ∈ mr, b < nb) : ∀ {x : Nat}, x + mr.length < nb →
    AllInRange nb (insertAccesses m bi x mr) := by
  induction mr with
  | nil =>
    intro x hx
    simpa [insertAccesses] using hx
  | cons b mr ih =>
    intro x hx
    obtain ⟨hb, hmr⟩ := List.forall_mem_cons.mp hmr
    rw [List.length_cons] at hx
    unfold insertAccesses
    simp only [allInRange_cons, mr_inRange]
    refine ⟨by omega, headerAccess_inRange hb, ?_⟩
    split
    · exact ih hmr (by omega)
    · intro a ha
      obtain ⟨k, hk, rfl⟩ := List.mem_map.mp ha
      have := List.mem_range.mp hk
      rw [mr_inRange]
      omega

theorem analyzeBlockAccesses_inRange (hs : s.nb = nb) (hbi : bi < nb) (hmr : ∀ b ∈ s.mr, b < nb)
    (hlen : s.mr.length < nb) (hn : isPotentialMetablock s.jd bi = true → nref s.jd bi ≤ refSize) :
    AllInRange nb (analyzeBlockAccesses s bi) := by
  unfold analyzeBlockAccesses
  rw [allInRange_append]
  refine ⟨potentialAccesses_inRange _ hbi, ?_⟩
  split
  · rename_i hpot
    simp only [allInRange_cons, allInRange_append, allInRange_flatMap, List.cons_append]
    refine ⟨headerAccess_inRange hbi, fun refi hrefi => ?_, ?_⟩
    · have hlt := List.mem_range.mp hrefi
      have hscan := references_scanned { s with jd := checkFlags s.jd bi } bi refi
      exact referenceAccesses_inRange (hscan.nb.trans hs) hbi (Nat.lt_of_lt_of_le hlt (hn hpot))
    · split
      · exact allInRange_nil
      · exact insertAccesses_inRange hmr (by omega)
  · simp only [allInRange_cons, allInRange_nil, and_true]
    exact bytes_inRange_zero hbi (by decide)

/-- A reference index above `ref_size` is used when the metablock counts that many. -/
theorem ref_mem_analyzeBlockAccesses (hpot : isPotentialMetablock s.jd bi = true)
    (hr : r < nref s.jd bi) : Access.ref r ∈ analyzeBlockAccesses s bi := by
  unfold analyzeBlockAccesses
  rw [if_pos hpot, List.cons_append]
  refine List.mem_append_right _ (List.mem_cons_of_mem _ (List.mem_append_left _ ?_))
  refine List.mem_flatMap.mpr ⟨r, List.mem_range.mpr hr, List.mem_append_left _ ?_⟩
  exact List.mem_cons_self

theorem length_insertMeta (m : Mem) (bi : Nat) (mr : List Nat) :
    (insertMeta m bi mr).length = mr.length + 1 := by
  induction mr with
  | nil => rfl
  | cons b mr ih =>
    unfold insertMeta
    split
    · rw [List.length_cons, ih, List.length_cons]
    · rfl

theorem length_analyzeBlock (s : Replayer) (bi : Nat) :
    (analyzeBlock s bi).mr.length ≤ s.mr.length + 1 := by
  by_cases hpot : isPotentialMetablock s.jd bi = true
  · rcases analyzeBlock_cases s hpot with ⟨-, hx⟩ | ⟨-, hx⟩
    · rw [hx, (scan_scanned s bi).mr]
      exact Nat.le_succ _
    · rw [hx]
      exact Nat.le_of_eq (length_insertMeta ..)
  · unfold analyzeBlock
    rw [if_neg hpot]
    exact Nat.le_succ _

theorem length_blocks (d : Mem) (nb k : Nat) :
    ((List.range k).foldl analyzeBlock (start d nb)).mr.length ≤ k := by
  induction k with
  | zero => exact Nat.le_refl 0
  | succ k ih =>
    rw [List.range_succ, List.foldl_append, List.foldl_cons, List.foldl_nil]
    exact Nat.le_trans (length_analyzeBlock _ k) (Nat.succ_le_succ ih)

theorem nodup_analyzeBlock (h : s.mr.Nodup) (hbi : bi ∉ s.mr) : (analyzeBlock s bi).mr.Nodup := by
  by_cases hpot : isPotentialMetablock s.jd bi = true
  · rcases analyzeBlock_cases s hpot with ⟨-, hx⟩ | ⟨-, hx⟩
    · rw [hx, (scan_scanned s bi).mr]
      exact h
    · rw [hx]
      exact nodup_insertMeta h hbi
  · unfold analyzeBlock
    rw [if_neg hpot]
    exact h

theorem looked_nodup (d : Mem) (nb : Nat) : (looked d nb).mr.Nodup := by
  have hrun : ∀ k, ((List.range k).foldl analyzeBlock (start d nb)).mr.Nodup := by
    intro k
    induction k with
    | zero => exact List.nodup_nil
    | succ k ih =>
      rw [List.range_succ, List.foldl_append, List.foldl_cons, List.foldl_nil]
      exact nodup_analyzeBlock ih fun hmem =>
        Nat.lt_irrefl k ((blocks_kept d nb k).lt k hmem)
  exact hrun nb

/-- No block that looks like a metablock counts more references than one holds. -/
def Bounded (d : Mem) (nb : Nat) : Prop :=
  ∀ bi < nb, isPotentialMetablock d bi = true → nref d bi ≤ refSize

theorem blocksAccesses_inRange (hb : Bounded d nb) : AllInRange nb (blocksAccesses d nb) := by
  unfold blocksAccesses
  rw [allInRange_flatMap]
  intro bi hbi
  have hbi := List.mem_range.mp hbi
  have hsp := blocks_spaced d nb bi
  have hlen := length_blocks d nb bi
  have hsame := hsp.kept.same bi (.inl (Nat.le_refl bi))
  refine analyzeBlockAccesses_inRange hsp.length hbi ?_ (by omega) fun hpot => ?_
  · exact fun b hmem => Nat.lt_trans (hsp.kept.lt b hmem) hbi
  · rw [hsame.isPotentialMetablock] at hpot
    rw [hsame.nref]
    exact hb bi hbi hpot

theorem bounded_of_inRange {size : Nat} (h : ∀ a ∈ blocksAccesses d nb, a.InRange nb size) :
    Bounded d nb := by
  intro bi hbi hpot
  have hsame := (blocks_spaced d nb bi).kept.same bi (.inl (Nat.le_refl bi))
  by_contra hc
  have hmem := ref_mem_analyzeBlockAccesses (r := refSize) (hsame.isPotentialMetablock.trans hpot)
    (by rw [hsame.nref]; omega)
  have hin : refSize < refSize :=
    h _ (List.mem_flatMap.mpr ⟨bi, List.mem_range.mpr hbi, hmem⟩)
  exact Nat.lt_irrefl _ hin

/-! ### The checks of the metablocks -/

theorem checkMetasAccesses_inRange : ∀ {last : Option Nat} {mi : Nat}, (∀ b ∈ mr, b < nb) →
    (∀ b ∈ last, b < nb) → mi + mr.length ≤ nb → AllInRange nb (checkMetasAccesses mi last mr) := by
  induction mr with
  | nil => exact fun _ _ _ => allInRange_nil
  | cons cur mr ih =>
    intro last mi hmr hlast hlen
    obtain ⟨hcur, hmr⟩ := List.forall_mem_cons.mp hmr
    rw [List.length_cons] at hlen
    unfold checkMetasAccesses
    simp only [allInRange_cons, allInRange_append, List.cons_append, mr_inRange]
    refine ⟨by omega, headerAccess_inRange hcur, ?_, ih hmr (by simpa using hcur) (by omega)⟩
    cases last with
    | none => exact allInRange_nil
    | some last =>
      simp only [Option.elim_some, allInRange_cons, mr_inRange, allInRange_nil, and_true]
      exact ⟨by omega, headerAccess_inRange (hlast last rfl)⟩

/-- `analyze_tid` looks at the entry before `mi` only when flags have been collected, which
the first entry has yet to do. -/
theorem analyzeTidAccesses_inRange (hnb : nb < 2 ^ 32) (m : Mem) (t : Nat) :
    ∀ {fl : Nat} {last : Option Nat} {mi : Nat}, (∀ b ∈ mr, b < nb) → (∀ b ∈ last, b < nb) →
      mi + mr.length ≤ nb → (fl ≠ 0 → 0 < mi) →
      AllInRange nb (analyzeTidAccesses m t fl last mi mr) := by
  induction mr with
  | nil => exact fun _ _ _ _ => allInRange_nil
  | cons cur mr ih =>
    intro fl last mi hmr hlast hlen hfl
    obtain ⟨hcur, hmr⟩ := List.forall_mem_cons.mp hmr
    rw [List.length_cons] at hlen
    unfold analyzeTidAccesses
    simp only [allInRange_cons, allInRange_append, List.cons_append, mr_inRange]
    refine ⟨by omega, headerAccess_inRange hcur, ?_,
      ih hmr (by simpa using hcur) (by omega) fun _ => Nat.succ_pos mi⟩
    split
    · exact allInRange_nil
    · rename_i hne
      have hpos := hfl hne
      rw [allInRange_cons, mr_inRange]
      refine ⟨by omega, fun a ha => ?_⟩
      obtain ⟨b, hb, rfl⟩ := List.mem_map.mp ha
      exact headerAccess_inRange (hlast b (Option.mem_toList.mp hb))

/-! ### The marking pass -/

/-- A mark lies in the references of its block. -/
theorem nref_markOverwritten (m : Mem) (hr : r < refSize) :
    nref (markOverwritten m bi r) b = nref m b := by
  have hr' : r < 339 := hr
  refine getLE_putLE_frame ?_
  unfold refAddr blocksize
  omega

theorem nref_markRefs (target : Nat) : ∀ {n : Nat} {m : Mem}, n ≤ refSize →
    nref (markRefs target bi n m) b = nref m b := by
  intro n
  induction n with
  | zero => exact fun _ => rfl
  | succ n ih =>
    intro m hn
    unfold markRefs
    rw [ih (Nat.le_of_succ_le hn)]
    split
    · exact nref_markOverwritten m hn
    · rfl

theorem nref_markOverwrittenBlock (target : Nat) : ∀ {refx : Nat} {m : Mem},
    (∀ b ∈ mr, nref m b ≤ refSize) →
    nref (markOverwrittenBlock target mr refx m) b = nref m b := by
  induction mr with
  | nil => exact fun _ => rfl
  | cons bi mr ih =>
    intro refx m hmr
    obtain ⟨hbi, hmr⟩ := List.forall_mem_cons.mp hmr
    unfold markOverwrittenBlock
    have hle : (if refx > nref m bi then nref m bi else refx) ≤ refSize := by split <;> omega
    rw [ih fun b hb => by rw [nref_markRefs target hle]; exact hmr b hb, nref_markRefs target hle]

theorem nref_analyzeOverwrittenBlocks : ∀ {refx : Nat} {m : Mem},
    (∀ b ∈ bi :: mr, nref m b ≤ refSize) →
    nref (analyzeOverwrittenBlocks bi mr refx m) b = nref m b := by
  intro refx
  induction refx with
  | zero => exact fun _ => rfl
  | succ refx ih =>
    intro m hmr
    unfold analyzeOverwrittenBlocks
    split
    · exact ih hmr
    · rw [ih fun b hb => by rw [nref_markOverwrittenBlock _ hmr]; exact hmr b hb,
        nref_markOverwrittenBlock _ hmr]

theorem refsAccesses_inRange (hb : b < nb) (hn : n ≤ refSize) :
    AllInRange nb ((List.range n).flatMap (refAccesses b)) := by
  rw [allInRange_flatMap]
  intro r hr
  exact refAccesses_inRange hb (Nat.lt_of_lt_of_le (List.mem_range.mp hr) hn)

theorem markOverwrittenAccesses_inRange (target : Nat) : ∀ {refx : Nat} {m : Mem},
    (∀ b ∈ mr, b < nb) → (∀ b ∈ mr, nref m b ≤ refSize) → mr.length ≤ nb →
    AllInRange nb (markOverwrittenAccesses target mr refx m) := by
  induction mr with
  | nil => exact fun _ _ _ => allInRange_nil
  | cons bi mr ih =>
    intro refx m hmr hn hlen
    obtain ⟨hbi, hmr⟩ := List.forall_mem_cons.mp hmr
    obtain ⟨hnbi, hn⟩ := List.forall_mem_cons.mp hn
    rw [List.length_cons] at hlen
    have hle : (if refx > nref m bi then nref m bi else refx) ≤ refSize := by split <;> omega
    unfold markOverwrittenAccesses
    simp only [allInRange_cons, allInRange_append, List.cons_append, mr_inRange]
    refine ⟨by omega, headerAccess_inRange hbi, refsAccesses_inRange hbi hle, ?_⟩
    exact ih hmr (fun b hb => by rw [nref_markRefs target hle]; exact hn b hb) (by omega)

theorem analyzeOverwrittenAccesses_inRange : ∀ {refx : Nat} {m : Mem}, refx ≤ refSize →
    (∀ b ∈ bi :: mr, b < nb) → (∀ b ∈ bi :: mr, nref m b ≤ refSize) → (bi :: mr).length ≤ nb →
    AllInRange nb (analyzeOverwrittenAccesses bi mr refx m) := by
  intro refx
  induction refx with
  | zero => exact fun _ _ _ _ => allInRange_nil
  | succ refx ih =>
    intro m hle hmr hn hlen
    have hbi : bi < nb := hmr bi List.mem_cons_self
    unfold analyzeOverwrittenAccesses
    rw [allInRange_append]
    refine ⟨refAccesses_inRange hbi hle, ?_⟩
    split
    · exact ih (Nat.le_of_succ_le hle) hmr hn hlen
    · rw [allInRange_append]
      refine ⟨markOverwrittenAccesses_inRange _ hmr hn hlen, ?_⟩
      refine ih (Nat.le_of_succ_le hle) hmr (fun b hb => ?_) hlen
      rw [nref_markOverwrittenBlock _ hn]
      exact hn b hb

theorem markAllAccesses_inRange (complete commit : Nat) : ∀ {m : Mem}, (∀ b ∈ mr, b < nb) →
    (∀ b ∈ mr, nref m b ≤ refSize) → mr.length ≤ nb →
    AllInRange nb (markAllAccesses complete commit mr m) := by
  induction mr with
  | nil => exact fun _ _ _ => allInRange_nil
  | cons bi mr ih =>
    intro m hmr hn hlen
    have hbi : bi < nb := hmr bi List.mem_cons_self
    have hmr' := (List.forall_mem_cons.mp hmr).2
    have hn' := (List.forall_mem_cons.mp hn).2
    have hlen' : mr.length < nb := hlen
    unfold markAllAccesses
    simp only [allInRange_cons, mr_inRange]
    refine ⟨hlen', headerAccess_inRange hbi, ?_⟩
    split
    · simp only [allInRange_cons, allInRange_append, List.cons_append, mr_inRange]
      refine ⟨hlen', headerAccess_inRange hbi, ?_, ?_⟩
      · exact analyzeOverwrittenAccesses_inRange (hn bi List.mem_cons_self) hmr hn hlen
      · refine ih hmr' (fun b hb => ?_) (Nat.le_of_lt hlen')
        rw [nref_analyzeOverwrittenBlocks hn]
        exact hn' b hb
    · exact ih hmr' hn' (Nat.le_of_lt hlen')

theorem analyzeMetasAccesses_inRange (hnb : nb < 2 ^ 32) (hmr : ∀ b ∈ s.mr, b < nb)
    (hn : ∀ b ∈ s.mr, nref s.jd b ≤ refSize) (hlen : s.mr.length ≤ nb) :
    AllInRange nb (analyzeMetasAccesses s) := by
  unfold analyzeMetasAccesses
  split
  · rename_i last _ hlast
    have hmem := List.mem_of_getLast? hlast
    have hpos := List.length_pos_of_mem hmem
    rw [allInRange_append]
    refine ⟨checkMetasAccesses_inRange hmr nofun (by omega), ?_⟩
    split
    · simp only [allInRange_cons, allInRange_append, allInRange_flatMap, List.cons_append,
        mr_inRange]
      refine ⟨by omega, headerAccess_inRange (hmr last hmem), fun t _ => ?_, ?_⟩
      · exact analyzeTidAccesses_inRange hnb s.jd t hmr nofun (by omega) (fun h => absurd rfl h)
      · refine markAllAccesses_inRange _ _ ?_ ?_ (by simpa using hlen)
        · exact fun b hb => hmr b (List.mem_reverse.mp hb)
        · exact fun b hb => hn b (List.mem_reverse.mp hb)
    · exact allInRange_nil
  · exact allInRange_nil

/-! ### The replay -/

/-- The metablocks `mr` of the memory `m` lie in the journal with their references, and
none is a data block of one. -/
structure Replayable (m : Mem) (nb : Nat) (mr : List Nat) : Prop where
  lt : ∀ b ∈ mr, b < nb
  nref : ∀ b ∈ mr, nref m b ≤ refSize
  notMeta : ∀ b ∈ mr, ∀ b' ∈ mr, b' ∉ dataRange m nb b

/-- `run` is at reference `n` of block `bi`, and no metablock has changed. -/
structure RunAt (m : Mem) (mr : List Nat) (bi n : Nat) (s : RunState) : Prop where
  delta : s.delta = delta m bi n
  same : ∀ b ∈ mr, SameBlock s.jd m b

variable {st : RunState} {complete commit : Nat}

theorem unescape_sameBlock {dbi : Nat} (h : b ≠ dbi) : SameBlock (unescape m dbi) m b := by
  intro x h₁ h₂
  refine putLE_of_not_mem ?_
  unfold blocksize at *
  omega

/-- The block number written for a reference, if it is replayed. -/
def writtenBn (m : Mem) (e : Nat × Nat) : List Nat := if replays m e then [target m e] else []

theorem runRef_at (hmr : Replayable m nb mr) (hbi : bi ∈ mr) (hn : n < nref m bi)
    (h : RunAt m mr bi n st) : RunAt m mr bi (n + 1) (runRef nb bi st n) ∧
      (runRef nb bi st n).writes.map (·.bn) = st.writes.map (·.bn) ++ writtenBn m (bi, n) := by
  have hn' : n < refSize := Nat.lt_of_lt_of_le hn (hmr.nref bi hbi)
  have hfl : bflags st.jd bi n = bflags m bi n := (h.same bi hbi).bflags hn'
  have hδ := delta_succ m bi n
  unfold runRef writtenBn replays journaled
  rw [hfl]
  unfold journaled at hδ
  cases hj : has (bflags m bi n) jbfNonjournaled with
  | true =>
    simp only [hj, if_true, Bool.not_true, Bool.false_and, Bool.false_eq_true, if_false,
      List.append_nil] at hδ ⊢
    exact ⟨⟨h.delta.trans hδ.symm, h.same⟩, trivial⟩
  | false =>
    simp only [hj, Bool.not_false, if_true, Bool.false_eq_true, if_false, Bool.true_and] at hδ ⊢
    cases ho : has (bflags m bi n) jbfOverwritten with
    | true =>
      simp only [if_true, Bool.not_true, Bool.false_eq_true, if_false, List.append_nil]
      exact ⟨⟨by rw [hδ, h.delta], h.same⟩, trivial⟩
    | false =>
      simp only [Bool.false_eq_true, if_false, Bool.not_false, if_true]
      -- the data block is none of the metablocks
      have hdata : blockAfter nb bi st.delta ∈ dataRange m nb bi := by
        rw [h.delta]
        exact mem_dataRange.mpr ⟨n, hn, by rw [journaled, hj]; rfl, rfl⟩
      have hsame : ∀ b ∈ mr, SameBlock (if has (bflags m bi n) jbfEscaped then
          unescape st.jd (blockAfter nb bi st.delta) else st.jd) m b := by
        intro b hb
        split
        · have hne : b ≠ blockAfter nb bi st.delta :=
            fun heq => hmr.notMeta bi hbi b hb (heq ▸ hdata)
          exact (unescape_sameBlock hne).trans (h.same b hb)
        · exact h.same b hb
      unfold blockAfter at hsame
      refine ⟨⟨by rw [hδ, h.delta], hsame⟩, ?_⟩
      rw [List.map_append, List.map_singleton, (hsame bi hbi).bn hn']
      rfl

/-- The inner loop of `run`. -/
theorem runRefs_at (hmr : Replayable m nb mr) (hbi : bi ∈ mr) (h : RunAt m mr bi 0 st)
    (hn : n ≤ nref m bi) : RunAt m mr bi n ((List.range n).foldl (runRef nb bi) st) ∧
      ((List.range n).foldl (runRef nb bi) st).writes.map (·.bn) =
        st.writes.map (·.bn) ++ (refsBelow bi n).flatMap (writtenBn m) := by
  induction n with
  | zero => exact ⟨h, (List.append_nil _).symm⟩
  | succ n ih =>
    obtain ⟨hat, hw⟩ := ih (Nat.le_of_succ_le hn)
    obtain ⟨hat', hw'⟩ := runRef_at hmr hbi hn hat
    rw [List.range_succ, List.foldl_append, List.foldl_cons, List.foldl_nil, refsBelow_succ,
      List.flatMap_append, List.flatMap_singleton]
    exact ⟨hat', by rw [hw', hw, List.append_assoc]⟩

theorem runRefAccesses_inRange {mi : Nat} (hmi : mi < nb) (hbi : bi < nb) (hr : r < refSize) :
    AllInRange nb (runRefAccesses nb bi mi st r) := by
  have hdbi : blockAfter nb bi st.delta < nb := blockAfter_lt (by omega) bi st.delta
  unfold runRefAccesses
  rw [allInRange_append]
  refine ⟨refAccesses_inRange hbi hr, ?_⟩
  split
  · exact allInRange_nil
  · simp only [allInRange_cons, allInRange_append, List.cons_append, mr_inRange]
    refine ⟨hmi, ?_, headerAccess_inRange hbi, blockAccess_inRange hdbi, allInRange_nil⟩
    split
    · simp only [allInRange_cons, allInRange_nil, and_true]
      exact bytes_inRange_zero hdbi (by decide)
    · exact allInRange_nil

/-- The block numbers written for the references of the metablocks `l`. -/
def writtenBns (m : Mem) (complete commit : Nat) (l : List Nat) : List Nat :=
  ((refs m l).filter (committed m complete commit)).flatMap (writtenBn m)

theorem writtenBns_cons (m : Mem) (bi : Nat) (l : List Nat) :
    writtenBns m complete commit (bi :: l) = (if committable m complete commit bi then
      (refsBelow bi (nref m bi)).flatMap (writtenBn m) else []) ++
        writtenBns m complete commit l := by
  have hcons : refs m (bi :: l) = refsBelow bi (nref m bi) ++ refs m l := rfl
  have hown : ∀ e ∈ refsBelow bi (nref m bi), committed m complete commit e =
      committable m complete commit bi := fun e he => by rw [committed, (mem_refsBelow.mp he).1]
  unfold writtenBns
  rw [hcons, List.filter_append, List.flatMap_append, List.filter_congr hown]
  cases committable m complete commit bi <;> simp

/-- The outer loop of `run`. -/
theorem runMetas_inRange (hmr : Replayable m nb mr) : ∀ (l : List Nat) {mi : Nat} {st : RunState},
    l ⊆ mr → mi + l.length ≤ nb → (∀ b ∈ mr, SameBlock st.jd m b) →
    AllInRange nb (runMetasAccesses nb complete commit mi st l) ∧
      (l.foldl (runMeta nb complete commit) st).writes.map (·.bn) =
        st.writes.map (·.bn) ++ writtenBns m complete commit l := by
  intro l
  induction l with
  | nil => exact fun _ _ _ => ⟨allInRange_nil, (List.append_nil _).symm⟩
  | cons bi l ih =>
    intro mi st hsub hlen hsame
    have hbi : bi ∈ mr := hsub List.mem_cons_self
    have hbn := hmr.lt bi hbi
    rw [List.length_cons] at hlen
    have hcom : committable st.jd complete commit bi = committable m complete commit bi := by
      rw [committable, committable, (hsame bi hbi).tid]
    have hstart : RunAt m mr bi 0 { st with delta := 1 } := ⟨rfl, hsame⟩
    -- one metablock
    have hmeta : AllInRange nb (runMetaAccesses nb complete commit mi st bi) := by
      unfold runMetaAccesses
      simp only [allInRange_cons, mr_inRange]
      refine ⟨by omega, headerAccess_inRange hbn, ?_⟩
      split
      · rw [allInRange_flatMap]
        intro r hr
        have hlt := List.mem_range.mp hr
        rw [(hsame bi hbi).nref] at hlt
        exact runRefAccesses_inRange (by omega) hbn (Nat.lt_of_lt_of_le hlt (hmr.nref bi hbi))
      · exact allInRange_nil
    have hstep : (∀ b ∈ mr, SameBlock (runMeta nb complete commit st bi).jd m b) ∧
        (runMeta nb complete commit st bi).writes.map (·.bn) = st.writes.map (·.bn) ++
          if committable m complete commit bi then
            (refsBelow bi (nref m bi)).flatMap (writtenBn m) else [] := by
      unfold runMeta
      rw [hcom, (hsame bi hbi).nref]
      split
      · obtain ⟨hat, hw⟩ := runRefs_at hmr hbi hstart (Nat.le_refl (nref m bi))
        exact ⟨hat.same, hw⟩
      · exact ⟨hsame, (List.append_nil _).symm⟩
    have htail : l ⊆ mr := fun b hb => hsub (List.mem_cons_of_mem _ hb)
    obtain ⟨hacc, hw⟩ := @ih (mi + 1) _ htail (by omega) hstep.1
    constructor
    · unfold runMetasAccesses
      exact allInRange_append.mpr ⟨hmeta, hacc⟩
    · rw [List.foldl_cons, hw, hstep.2, List.append_assoc, writtenBns_cons]

theorem runAccesses_inRange (hnb : nb < 2 ^ 32) (hs : s.nb = nb) (hne : s.mr ≠ [])
    (hlen : s.mr.length ≤ nb) (hmr : Replayable s.jd nb s.mr) :
    AllInRange nb (runAccesses s) ∧ (run s).map (·.bn) =
      writtenBns s.jd (region s.jd s.mr).1 (region s.jd s.mr).2 s.mr := by
  have hpos := List.length_pos_of_ne_nil hne
  obtain ⟨last, hlast⟩ : ∃ last, s.mr.getLast? = some last :=
    ⟨_, List.getLast?_eq_getLast_of_ne_nil hne⟩
  obtain ⟨hacc, hw⟩ := @runMetas_inRange _ _ _ (completeBoundary s.jd last)
    (commitBoundary s.jd last) hmr s.mr 0 { jd := s.jd, writes := [], delta := 1 }
    (List.Subset.refl _) (by omega) (fun _ _ _ _ _ => rfl)
  unfold runAccesses run region
  rw [hlast]
  dsimp only
  rw [hs, allInRange_cons, allInRange_cons, mr_inRange]
  refine ⟨⟨by omega, headerAccess_inRange (hmr.lt last (List.mem_of_getLast? hlast)), hacc⟩, ?_⟩
  rw [hw]
  rfl

/-! ## The replay of a journal -/

/-- The analysis of `d` leaves journal and metablocks fit for `run`. -/
theorem analyze_replayable (hok : (analyze d nb).2 = true) :
    Replayable (analyze d nb).1.jd nb (looked d nb).mr := by
  have hsp := looked_spaced d nb
  have hd := hsp.asDisk
  obtain ⟨marked, hm, -⟩ := hd.analyze_marked (looked_nodup d nb) hok
  refine ⟨hsp.kept.lt, fun b hb => ?_, fun b hb b' hb' => ?_⟩
  · rw [hd.nref_marked hm hb]
    exact hd.nref b hb
  · rw [mem_dataRange]
    rintro ⟨r, hr, hj, heq⟩
    rw [hd.nref_marked hm hb] at hr
    have he : (b, r) ∈ refs d (looked d nb).mr := mem_refs.mpr ⟨hb, hr⟩
    have hj' : journaled d b r = true := (hd.journaled_marked hm he).symm.trans hj
    have hδ : delta (analyze d nb).1.jd b r = delta d b r :=
      delta_congr (fun r' hr' => hd.journaled_marked hm (e := (b, r'))
        (mem_refs.mpr ⟨hb, Nat.lt_trans hr' hr⟩)) (Nat.le_refl r)
    rw [hδ] at heq
    exact hsp.not_meta (analyze_true hok).1 hb hb' (mem_dataRange.mpr ⟨r, hr, hj', heq⟩)

/-- **What the replay reaches into** is in range exactly when every block that looks like
a metablock counts no more references than it holds. -/
theorem replayAccesses_inRange_iff (hnb : nb < 2 ^ 32) :
    AllInRange nb (replayAccesses d nb) ↔ Bounded d nb := by
  unfold replayAccesses analyzeAccesses
  rw [allInRange_append, allInRange_append]
  constructor
  · exact fun h => bounded_of_inRange h.1.1
  · intro hb
    have hsp := looked_spaced d nb
    have hlen := length_blocks d nb nb
    refine ⟨⟨blocksAccesses_inRange hb, ?_⟩, ?_⟩
    · refine analyzeMetasAccesses_inRange hnb hsp.kept.lt (fun b hmem => ?_) hlen
      rw [(hsp.asDisk.same b hmem).nref]
      exact hsp.nref b hmem
    · split
      · rename_i hok
        have hmr : (analyze d nb).1.mr = (looked d nb).mr := by rw [(analyze_true hok).2]
        have hlength : (analyze d nb).1.nb = nb := by
          rw [(analyze_true hok).2]
          exact hsp.length
        have hne := (analyze_iff.mp hok).1.2.1
        exact (runAccesses_inRange hnb hlength (hmr ▸ hne) (hmr ▸ hlen)
          (hmr ▸ analyze_replayable hok)).1
      · exact allInRange_nil

/-- The last reference to block number `n` of a committed transaction, among those that do
not carry `jbf_overwritten` on disk. -/
def lastMark (d : Mem) (mr : List Nat) (n : Nat) : Option (Nat × Nat) :=
  last? (fun e => marks d (region d mr).1 (region d mr).2 e && decide (target d e = n)) (refs d mr)

/-- **The block numbers written** are those of which the last such reference has data. -/
theorem mem_replayWrites (hnb : nb < 2 ^ 32) (hok : (analyze d nb).2 = true) :
    (∃ w ∈ replayWrites d nb, w.bn = n) ↔
      ∃ e ∈ lastMark d (analyze d nb).1.mr n, journaled d e.1 e.2 = true := by
  have hsp := looked_spaced d nb
  have hd := hsp.asDisk
  obtain ⟨marked, hm, hs⟩ := hd.analyze_marked (looked_nodup d nb) hok
  have heq := (analyze_true hok).2
  have hmr : (analyze d nb).1.mr = (looked d nb).mr := by rw [heq]
  have hlength : (analyze d nb).1.nb = nb := by
    rw [heq]
    exact hsp.length
  have hlen := length_blocks d nb nb
  have hw := (runAccesses_inRange hnb hlength (hmr ▸ (analyze_iff.mp hok).1.2.1) (hmr ▸ hlen)
    (hmr ▸ analyze_replayable hok)).2
  have hmem : (∃ w ∈ replayWrites d nb, w.bn = n) ↔ n ∈ (run (analyze d nb).1).map (·.bn) := by
    unfold replayWrites
    rw [if_pos hok, List.mem_map]
  have hflat : ∀ {l : List (Nat × Nat)}, n ∈ l.flatMap (writtenBn (analyze d nb).1.jd) ↔
      ∃ e ∈ l.filter (replays (analyze d nb).1.jd), target (analyze d nb).1.jd e = n := by
    intro l
    simp only [List.mem_flatMap, writtenBn, List.mem_filter, and_assoc]
    refine exists_congr fun e => and_congr_right fun _ => ?_
    split
    · rename_i h
      simp [h, eq_comm]
    · rename_i h
      simp [h]
  rw [hmem, hw, hmr, writtenBns, hflat, List.filter_filter, hd.refs_marked hm, hd.region_marked hm]
  rw [List.filter_congr fun e _ => Bool.and_comm _ _, hd.filter_replays hm hs]
  have htarget : ∀ e ∈ refs d (looked d nb).mr, target (analyze d nb).1.jd e = target d e ∧
      target (looked d nb).jd e = target d e := by
    intro e he
    have hsame := (hd.same e.1 (mem_refs.mp he).1).bn (hd.inside e he)
    exact ⟨(hm.bn hd.inside he).trans hsame, hsame⟩
  have hlast : lastMark d (looked d nb).mr n = last? (fun e => marks (looked d nb).jd
      (region d (looked d nb).mr).1 (region d (looked d nb).mr).2 e &&
      decide (target (looked d nb).jd e = n)) (refs d (looked d nb).mr) := by
    refine last?_congr fun e he => ?_
    have hsame := hd.same e.1 (mem_refs.mp he).1
    rw [(htarget e he).2, marks, marks, hsame.bflags (hd.inside e he), committed, committed,
      committable, committable, hsame.tid]
  have hmemlast : ∀ e, e ∈ lastMark d (looked d nb).mr n ↔
      e ∈ lastOnly (target (looked d nb).jd) (marks (looked d nb).jd
        (region d (looked d nb).mr).1 (region d (looked d nb).mr).2) (refs d (looked d nb).mr) ∧
      target d e = n := by
    intro e
    rw [hlast, Option.mem_def, ← Option.mem_toList, ← lastOnly_filter_key, List.mem_filter,
      decide_eq_true_eq]
    refine and_congr_right fun he => ?_
    rw [(htarget e (lastOnly_subset _ _ _ he)).2]
  constructor
  · rintro ⟨e, he, rfl⟩
    obtain ⟨he, hj⟩ := List.mem_filter.mp he
    refine ⟨e, (hmemlast e).mpr ⟨he, ?_⟩, hj⟩
    rw [(htarget e (lastOnly_subset _ _ _ he)).1]
  · rintro ⟨e, he, hj⟩
    obtain ⟨he', hn⟩ := (hmemlast e).mp he
    refine ⟨e, List.mem_filter.mpr ⟨he', hj⟩, ?_⟩
    rw [(htarget e (lastOnly_subset _ _ _ he')).1, hn]

/-! ## `replay_journal` -/

/-- `jcopy`: the journal of the image, with what lies behind it in memory. -/
def jcopy (sb : Fsck.Superblock) (data past : Mem) : Mem := fun x =>
  if x < sb.njournal * blocksize then data (sb.journalBn * blocksize + x) else past x

/-- `sb.nblocks - sb.journal_bn`, the length of the journal for `analyze`. -/
def analyzedBlocks (sb : Fsck.Superblock) : Nat := (sb.nblocks + 2 ^ 32 - sb.journalBn) % 2 ^ 32

/-- The replay stays within `ref`, `mr_` and the copy of the journal, writes inside the image
and has the copy analysed. -/
structure ReplaySafe (sb : Fsck.Superblock) (data past : Mem) : Prop where
  accesses : ∀ a ∈ replayAccesses (jcopy sb data past) (analyzedBlocks sb),
    a.InRange (analyzedBlocks sb) (sb.njournal * blocksize)
  writes : ∀ w ∈ replayWrites (jcopy sb data past) (analyzedBlocks sb), w.bn < sb.nblocks
  length : analyzedBlocks sb = sb.njournal

/-- **The replay is safe** exactly when the journal reaches to the end of the image, no block
that looks like a metablock counts more than `ref_size` references, and, in a journal the
analysis accepts, no block number from `nblocks` on has data as its last mark. -/
theorem replay_safe_iff (sb : Fsck.Superblock) (data past : Mem) :
    ReplaySafe sb data past ↔ analyzedBlocks sb = sb.njournal ∧
      Bounded (jcopy sb data past) (analyzedBlocks sb) ∧
      ((analyze (jcopy sb data past) (analyzedBlocks sb)).2 = true → ∀ n, sb.nblocks ≤ n →
        ∀ e ∈ lastMark (jcopy sb data past)
            (analyze (jcopy sb data past) (analyzedBlocks sb)).1.mr n,
          journaled (jcopy sb data past) e.1 e.2 = false) := by
  have hnb : analyzedBlocks sb < 2 ^ 32 := Nat.mod_lt _ (by decide)
  generalize hJ : jcopy sb data past = J
  have hwrites : (∀ w ∈ replayWrites J (analyzedBlocks sb), w.bn < sb.nblocks) ↔
      ((analyze J (analyzedBlocks sb)).2 = true → ∀ n, sb.nblocks ≤ n →
        ∀ e ∈ lastMark J (analyze J (analyzedBlocks sb)).1.mr n, journaled J e.1 e.2 = false) := by
    cases hok : (analyze J (analyzedBlocks sb)).2 with
    | false => simp [replayWrites, hok]
    | true =>
      constructor
      · intro h _ n hn e he
        rw [Bool.eq_false_iff]
        intro hj
        obtain ⟨w, hw, rfl⟩ := (mem_replayWrites hnb hok).mpr ⟨e, he, hj⟩
        exact Nat.not_lt_of_le hn (h w hw)
      · intro h w hw
        obtain ⟨e, he, hj⟩ := (mem_replayWrites hnb hok).mp ⟨w, hw, rfl⟩
        by_contra hc
        rw [h rfl w.bn (Nat.le_of_not_lt hc) e he] at hj
        cases hj
  constructor
  · rintro ⟨hacc, hw, hlen⟩
    rw [hJ] at hacc hw
    rw [← hlen] at hacc
    exact ⟨hlen, (replayAccesses_inRange_iff hnb).mp hacc, hwrites.mp hw⟩
  · rintro ⟨hlen, hb, hw⟩
    refine ⟨?_, ?_, hlen⟩
    · rw [hJ, ← hlen]
      exact (replayAccesses_inRange_iff hnb).mpr hb
    · rw [hJ]
      exact hwrites.mpr hw

/-- An image of six blocks, the last two for the journal, of which the superblock counts
`njournal`. -/
def smallImage (njournal : Nat) (fields : List (Nat × Nat × Nat)) : Mem :=
  image ([(512, 8, Fsck.magic), (520, 4, 6), (528, 4, 10), (532, 4, njournal), (536, 4, 1),
    (540, 4, 1), (544, 4, 2), (548, 4, 3), (552, 4, 4)] ++ fields)

/-- A metablock counts 340 references. -/
def crowded : Mem :=
  smallImage 2 [(16384, 8, journalmagic), (16392, 4, nochecksum), (16410, 2, 340)]

/-- A committed transaction has data for block 100. -/
def stray : Mem :=
  smallImage 2 [(16384, 8, journalmagic), (16392, 4, nochecksum), (16404, 2, 1), (16408, 2, 0x31),
    (16410, 2, 1), (16412, 4, 100), (16416, 4, nochecksum)]

/-- **Three images `chickadeefsck` accepts**, whose replay goes past the references of a
metablock, past the image, and past the copy of the journal. -/
theorem replay_unsafe :
    (∀ data ∈ [crowded, stray, smallImage 1 []],
      Fsck.superblockErrors 24576 (Fsck.superblock data) = []) ∧
    ¬ ReplaySafe (Fsck.superblock crowded) crowded (fun _ => 0) ∧
    ¬ ReplaySafe (Fsck.superblock stray) stray (fun _ => 0) ∧
    ¬ ReplaySafe (Fsck.superblock (smallImage 1 [])) (smallImage 1 []) (fun _ => 0) := by
  refine ⟨?_, fun h => ?_, fun h => ?_, fun h => ?_⟩
  · simp only [List.forall_mem_cons]
    decide +kernel
  · have hb : Bounded (jcopy (Fsck.superblock crowded) crowded fun _ => 0) 2 :=
      bounded_of_inRange fun a ha =>
        h.accesses a (List.mem_append_left _ (List.mem_append_left _ ha))
    exact absurd (hb 0 (by decide) (by decide +kernel)) (by decide +kernel)
  · have hw : 100 ∈ (replayWrites (jcopy (Fsck.superblock stray) stray fun _ => 0) 2).map
        (·.bn) := by
      decide +kernel
    obtain ⟨w, hw, hbn⟩ := List.mem_map.mp hw
    have hlt : w.bn < 6 := h.writes w hw
    omega
  · exact absurd h.length (by decide +kernel)

end PugOS.Journal
