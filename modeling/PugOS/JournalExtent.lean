import PugOS.JournalBounds

/-! # What a replay depends on

Behind the copy of the journal that `analyze` and `run` are given lies memory of any content.  As
long as no block that looks like a metablock counts more references than it holds, neither reads
there: two memories that agree on the journal have the same metablocks, the same marks and the same
writes (`replayWrites_congr`).
-/
namespace PugOS.Journal
open Bytes Ring

section Extent
variable {m m' d d' : Mem} {nb b bi r n v : Nat} {mr : List Nat} {s s' : Replayer}

/-- The journal of `nb` blocks is the same in both memories. -/
def SameJournal (nb : Nat) (m m' : Mem) : Prop := ∀ b < nb, SameBlock m m' b

/-- A number that is written is written to both. -/
theorem SameJournal.putLE (h : SameJournal nb m m') (a n v : Nat) :
    SameJournal nb (putLE m a n v) (putLE m' a n v) := by
  intro b hb x h₁ h₂
  unfold Bytes.putLE
  rw [h b hb x h₁ h₂]

/-! ## One block -/

theorem SameJournal.markErrorIf (h : SameJournal nb m m') (hb : bi < nb) (failed : Bool) :
    SameJournal nb (markErrorIf m bi failed) (markErrorIf m' bi failed) := by
  cases failed with
  | false => exact h
  | true =>
    change SameJournal nb (Bytes.putLE m _ _ _) (Bytes.putLE m' _ _ _)
    rw [(h bi hb).flags]
    exact h.putLE _ _ _

theorem SameJournal.checkFlags (h : SameJournal nb m m') (hb : bi < nb) :
    SameJournal nb (checkFlags m bi) (checkFlags m' bi) := by
  unfold Journal.checkFlags
  dsimp only
  rw [(h bi hb).flags]
  have h₁ := h.markErrorIf hb (has (flags m' bi) (jfError ||| jfCorrupt))
  rw [(h₁ bi hb).flags]
  have h₂ :=
    h₁.markErrorIf hb
      (!has (flags (Journal.markErrorIf m' bi (has (flags m' bi) (jfError ||| jfCorrupt))) bi)
      jfMeta)
  rw [(h₂ bi hb).nref]
  exact h₂.markErrorIf hb _

theorem SameJournal.badData (h : SameJournal nb m m') (hb : bi < nb) (hr : r < refSize) {dbi : Nat}
    (hdbi : dbi < nb) : badData m bi r dbi = badData m' bi r dbi := by
  unfold Journal.badData
  rw [(h dbi hdbi).isPotentialMetablock, (h bi hb).bchecksum hr, (h dbi hdbi).block]

/-- The analyses of two memories with the same journal have come to the same. -/
structure SameReplayer (nb : Nat) (s s' : Replayer) : Prop where
  jd : SameJournal nb s.jd s'.jd
  nb : s.nb = nb
  nb_eq : s.nb = s'.nb
  mr : s.mr = s'.mr
  ok : s.ok = s'.ok

theorem SameReplayer.reference {x x' : Replayer × Nat} (h : SameReplayer nb x.1 x'.1)
    (hδ : x.2 = x'.2) (hb : bi < nb) (hr : r < refSize) :
    SameReplayer nb (analyzeBlockReference bi x r).1 (analyzeBlockReference bi x' r).1 ∧
      (analyzeBlockReference bi x r).2 = (analyzeBlockReference bi x' r).2 := by
  obtain ⟨s, δ⟩ := x
  obtain ⟨s', δ'⟩ := x'
  obtain rfl : δ = δ' := hδ
  unfold analyzeBlockReference
  dsimp only at h ⊢
  rw [(h.jd bi hb).bflags hr]
  by_cases hnon : has (bflags s'.jd bi r) jbfNonjournaled = true
  · rw [if_pos hnon, if_pos hnon]
    exact ⟨h, rfl⟩
  · rw [if_neg hnon, if_neg hnon]
    have hlt : (bi + δ) % 2 ^ 32 % s'.nb < nb := by
      rw [← h.nb_eq, h.nb]
      exact Nat.mod_lt _ (Nat.zero_lt_of_lt hb)
    have hbad := h.jd.badData hb hr hlt
    rw [h.nb_eq]
    generalize (bi + δ) % 2 ^ 32 % s'.nb = dbi at hbad
    rw [hbad]
    dsimp only
    refine ⟨⟨?_, h.nb_eq ▸ h.nb, rfl, h.mr, ?_⟩, rfl⟩
    · dsimp only
      exact h.jd.markErrorIf hb _
    · dsimp only
      rw [h.ok]

theorem SameReplayer.references (h : SameReplayer nb s s') (hb : bi < nb) (hn : n ≤ refSize) :
    SameReplayer nb ((List.range n).foldl (analyzeBlockReference bi) (s, 1)).1
      ((List.range n).foldl (analyzeBlockReference bi) (s', 1)).1 := by
  have hboth : ∀ k ≤ n, SameReplayer nb ((List.range k).foldl (analyzeBlockReference bi) (s, 1)).1
      ((List.range k).foldl (analyzeBlockReference bi) (s', 1)).1 ∧
      ((List.range k).foldl (analyzeBlockReference bi) (s, 1)).2 =
        ((List.range k).foldl (analyzeBlockReference bi) (s', 1)).2 := by
    intro k
    induction k with
    | zero => exact fun _ => ⟨h, rfl⟩
    | succ k ih =>
      intro hk
      obtain ⟨hsame, hδ⟩ := ih (Nat.le_of_succ_le hk)
      rw [List.range_succ, List.foldl_append, List.foldl_append]
      exact hsame.reference hδ hb (Nat.lt_of_lt_of_le hk hn)
  exact (hboth n (Nat.le_refl n)).1

theorem SameJournal.insertMeta (h : SameJournal nb m m') (hb : bi < nb) (hmr : ∀ b ∈ mr, b < nb) :
    insertMeta m bi mr = insertMeta m' bi mr := by
  induction mr with
  | nil => rfl
  | cons x mr ih =>
    obtain ⟨hx, hmr⟩ := List.forall_mem_cons.mp hmr
    unfold Journal.insertMeta
    rw [(h x hx).seq, (h bi hb).seq, ih hmr]

/-- **One block**, with no more references than it holds if it looks like a metablock. -/
theorem SameReplayer.block (h : SameReplayer nb s s') (hb : bi < nb) (hmr : ∀ b ∈ s.mr, b < nb)
    (hn : isPotentialMetablock s.jd bi = true → nref s.jd bi ≤ refSize) :
    SameReplayer nb (analyzeBlock s bi) (analyzeBlock s' bi) := by
  have hpot := (h.jd bi hb).isPotentialMetablock
  by_cases hp : isPotentialMetablock s.jd bi = true
  · have hcheck : SameReplayer nb { s with jd := Journal.checkFlags s.jd bi }
        { s' with jd := Journal.checkFlags s'.jd bi } :=
      ⟨h.jd.checkFlags hb, h.nb, h.nb_eq, h.mr, h.ok⟩
    have hscan : SameReplayer nb (scan s bi).1 (scan s' bi).1 := by
      unfold scan
      rw [← (h.jd bi hb).nref]
      exact hcheck.references hb (hn hp)
    rw [analyzeBlock_eq s hp, analyzeBlock_eq s' (hpot ▸ hp), (hscan.jd bi hb).flags]
    by_cases herr : has (flags (scan s' bi).1.jd bi) jfError = true
    · rw [if_pos herr, if_pos herr]
      exact hscan
    · rw [if_neg herr, if_neg herr]
      refine ⟨hscan.jd, hscan.nb, hscan.nb_eq, ?_, hscan.ok⟩
      dsimp only
      rw [← hscan.mr, (scan_scanned s bi).mr]
      exact hscan.jd.insertMeta hb hmr
  · have hp' : ¬isPotentialMetablock s'.jd bi = true := hpot ▸ hp
    unfold analyzeBlock
    rw [if_neg hp, if_neg hp']
    exact h

theorem looked_sameReplayer (h : SameJournal nb d d') (hb : Bounded d nb) :
    SameReplayer nb (looked d nb) (looked d' nb) := by
  have hstart : SameReplayer nb (start d nb) (start d' nb) := ⟨h, rfl, rfl, rfl, rfl⟩
  have hall : ∀ k ≤ nb, SameReplayer nb ((List.range k).foldl analyzeBlock (start d nb))
      ((List.range k).foldl analyzeBlock (start d' nb)) := by
    intro k
    induction k with
    | zero => exact fun _ => hstart
    | succ k ih =>
      intro hk
      have hkept := blocks_kept d nb k
      -- nothing has been marked in the block that is next
      have hsame := hkept.same k (.inl (Nat.le_refl k))
      have hn : isPotentialMetablock ((List.range k).foldl analyzeBlock (start d nb)).jd k = true →
          nref ((List.range k).foldl analyzeBlock (start d nb)).jd k ≤ refSize := by
        rw [hsame.isPotentialMetablock, hsame.nref]
        exact hb k hk
      have hnext :=
        (ih (Nat.le_of_succ_le hk)).block hk (fun b hmem => Nat.lt_trans (hkept.lt b hmem) hk) hn
      rw [List.range_succ, List.foldl_append, List.foldl_append, List.foldl_cons, List.foldl_nil,
        List.foldl_cons, List.foldl_nil]
      exact hnext
  exact hall nb (Nat.le_refl nb)

/-! ## The metablocks -/

theorem SameJournal.checkMeta (h : SameJournal nb m m') (hb : b < nb) :
    checkMeta m b = checkMeta m' b := by
  have hsame := h b hb
  unfold Journal.checkMeta
  rw [hsame.completeBoundary, hsame.commitBoundary, hsame.nref, hsame.tid, hsame.flags]

theorem SameJournal.checkPair (h : SameJournal nb m m') {last : Nat} (hlast : last < nb)
    (hb : b < nb) : checkPair m last b = checkPair m' last b := by
  have hsame := h b hb
  have hprev := h last hlast
  unfold Journal.checkPair
  rw [hsame.seq, hprev.seq, hsame.commitBoundary, hprev.commitBoundary, hsame.completeBoundary,
    hprev.completeBoundary, hsame.nref, hsame.tid]

theorem SameJournal.checkMetas (h : SameJournal nb m m') (hmr : ∀ b ∈ mr, b < nb) :
    checkMetas m mr = checkMetas m' mr := by
  induction mr with
  | nil => rfl
  | cons last mr ih =>
    obtain ⟨hlast, hmr⟩ := List.forall_mem_cons.mp hmr
    have hrest := ih hmr
    cases mr with
    | nil => exact h.checkMeta hlast
    | cons cur mr =>
      unfold Journal.checkMetas
      rw [h.checkMeta hlast, h.checkPair hlast (hmr cur List.mem_cons_self), hrest]

/-! ## The marks -/

theorem SameJournal.markRefs (target : Nat) (hb : bi < nb) :
    ∀ {n : Nat} {m m' : Mem}, SameJournal nb m m' → n ≤ refSize →
    SameJournal nb (markRefs target bi n m) (markRefs target bi n m') := by
  intro n
  induction n with
  | zero => exact fun h _ => h
  | succ n ih =>
    intro m m' h hn
    unfold Journal.markRefs
    rw [(h bi hb).bn hn]
    by_cases ht : bn m' bi n = target
    · rw [if_pos ht, if_pos ht]
      unfold markOverwritten
      rw [(h bi hb).bflags hn]
      exact ih (h.putLE _ _ _) (Nat.le_of_succ_le hn)
    · rw [if_neg ht, if_neg ht]
      exact ih h (Nat.le_of_succ_le hn)

theorem SameJournal.markOverwrittenBlock (target : Nat) :
    ∀ {refx : Nat} {m m' : Mem}, SameJournal nb m m' →
    (∀ b ∈ mr, b < nb) → (∀ b ∈ mr, nref m b ≤ refSize) →
    SameJournal nb (markOverwrittenBlock target mr refx m)
    (markOverwrittenBlock target mr refx m') := by
  induction mr with
  | nil => exact fun h _ _ => h
  | cons bi mr ih =>
    intro refx m m' h hmr hn
    obtain ⟨hbi, hmr⟩ := List.forall_mem_cons.mp hmr
    obtain ⟨hnbi, hn⟩ := List.forall_mem_cons.mp hn
    have hle : (if refx > nref m bi then nref m bi else refx) ≤ refSize := by split <;> omega
    unfold Journal.markOverwrittenBlock
    rw [← (h bi hbi).nref]
    exact ih (.markRefs target hbi h hle) hmr fun b hb =>
      by rw [nref_markRefs target hle]; exact hn b hb

theorem SameJournal.analyzeOverwrittenBlocks : ∀ {refx : Nat} {m m' : Mem}, SameJournal nb m m' →
    refx ≤ refSize → (∀ b ∈ bi :: mr, b < nb) → (∀ b ∈ bi :: mr, nref m b ≤ refSize) →
    SameJournal nb (analyzeOverwrittenBlocks bi mr refx m)
    (analyzeOverwrittenBlocks bi mr refx m') := by
  intro refx
  induction refx with
  | zero => exact fun h _ _ _ => h
  | succ refx ih =>
    intro m m' h hle hmr hn
    have hbi := h bi (hmr bi List.mem_cons_self)
    unfold Journal.analyzeOverwrittenBlocks
    rw [hbi.bflags hle, hbi.bn hle]
    by_cases hover : has (bflags m' bi refx) jbfOverwritten = true
    · rw [if_pos hover, if_pos hover]
      exact ih h (Nat.le_of_succ_le hle) hmr hn
    · rw [if_neg hover, if_neg hover]
      refine ih (.markOverwrittenBlock _ h hmr hn) (Nat.le_of_succ_le hle) hmr fun b hb => ?_
      rw [nref_markOverwrittenBlock _ hn]
      exact hn b hb

theorem SameJournal.markAll (complete commit : Nat) : ∀ {m m' : Mem}, SameJournal nb m m' →
    (∀ b ∈ mr, b < nb) → (∀ b ∈ mr, nref m b ≤ refSize) →
    SameJournal nb (markAll complete commit mr m) (markAll complete commit mr m') := by
  induction mr with
  | nil => exact fun h _ _ => h
  | cons bi mr ih =>
    intro m m' h hmr hn
    have hbi := h bi (hmr bi List.mem_cons_self)
    have hmr' := (List.forall_mem_cons.mp hmr).2
    have hn' := (List.forall_mem_cons.mp hn).2
    unfold Journal.markAll committable
    rw [hbi.tid, ← hbi.nref]
    split
    · refine ih (.analyzeOverwrittenBlocks h (hn bi List.mem_cons_self) hmr hn) hmr' fun b hb => ?_
      rw [nref_analyzeOverwrittenBlocks hn]
      exact hn' b hb
    · exact ih h hmr' hn'

/-- **The analysis** depends on the journal alone. -/
theorem analyze_sameReplayer (h : SameJournal nb d d') (hb : Bounded d nb) :
    SameReplayer nb (analyze d nb).1 (analyze d' nb).1 ∧ (analyze d nb).2 = (analyze d' nb).2 := by
  have hlook := looked_sameReplayer h hb
  have hsp := looked_spaced d nb
  have hmr := hsp.kept.lt
  have hn : ∀ b ∈ (looked d nb).mr, nref (looked d nb).jd b ≤ refSize := by
    intro b hmem
    rw [(hsp.asDisk.same b hmem).nref]
    exact hsp.nref b hmem
  change SameReplayer nb (analyzeMetas (looked d nb)).1 (analyzeMetas (looked d' nb)).1 ∧
    (analyzeMetas (looked d nb)).2 = (analyzeMetas (looked d' nb)).2
  generalize looked d nb = s at hlook hmr hn
  generalize looked d' nb = s' at hlook
  obtain ⟨jd, nb', mr, ok⟩ := s
  obtain ⟨jd', nb'', mr', ok'⟩ := s'
  obtain ⟨hjd, hnb, hnb', rfl, rfl⟩ := hlook
  dsimp only at *
  unfold analyzeMetas
  dsimp only
  cases ok with
  | false => exact ⟨⟨hjd, hnb, hnb', rfl, rfl⟩, rfl⟩
  | true =>
    cases hlast : mr.getLast? with
    | none => exact ⟨⟨hjd, hnb, hnb', rfl, rfl⟩, rfl⟩
    | some last =>
      have hin := hjd last (hmr last (List.mem_of_getLast? hlast))
      have htid : analyzeTid jd mr = analyzeTid jd' mr :=
        funext fun t => analyzeTid_congr fun x hx => hjd x (hmr x hx)
      dsimp only
      rw [hjd.checkMetas hmr, hin.completeBoundary, hin.commitBoundary, htid]
      by_cases hok : checkMetas jd' mr = true
      · rw [if_pos hok, if_pos hok]
        refine ⟨⟨hjd.markAll _ _ (fun b hb => ?_) (fun b hb => ?_), hnb, hnb', rfl, rfl⟩, rfl⟩
        · exact hmr b (List.mem_reverse.mp hb)
        · exact hn b (List.mem_reverse.mp hb)
      · rw [if_neg hok, if_neg hok]
        exact ⟨⟨hjd, hnb, hnb', rfl, rfl⟩, rfl⟩

/-! ## The writes -/

/-- The replays of two memories with the same journal have come to the same. -/
structure SameRun (nb : Nat) (t t' : RunState) : Prop where
  jd : SameJournal nb t.jd t'.jd
  writes : t.writes = t'.writes
  delta : t.delta = t'.delta

theorem SameRun.ref {t t' : RunState} (h : SameRun nb t t') (hb : bi < nb) (hr : r < refSize) :
    SameRun nb (runRef nb bi t r) (runRef nb bi t' r) := by
  have hlt : (bi + t'.delta) % 2 ^ 32 % nb < nb := Nat.mod_lt _ (Nat.zero_lt_of_lt hb)
  unfold runRef
  rw [(h.jd bi hb).bflags hr]
  dsimp only
  by_cases hnon : has (bflags t'.jd bi r) jbfNonjournaled = true
  · rw [if_pos hnon, if_pos hnon]
    exact h
  rw [if_neg hnon, if_neg hnon]
  by_cases hover : has (bflags t'.jd bi r) jbfOverwritten = true
  · rw [if_pos hover, if_pos hover]
    exact ⟨h.jd, h.writes, by rw [h.delta]⟩
  rw [if_neg hover, if_neg hover, h.delta]
  by_cases hesc : has (bflags t'.jd bi r) jbfEscaped = true
  · have hjd := h.jd.putLE ((bi + t'.delta) % 2 ^ 32 % nb * blocksize) 8 journalmagic
    rw [if_pos hesc, if_pos hesc]
    refine ⟨hjd, ?_, rfl⟩
    dsimp only
    unfold unescape
    rw [h.writes, (hjd bi hb).tid, (hjd bi hb).bn hr, (hjd _ hlt).block]
  · rw [if_neg hesc, if_neg hesc]
    refine ⟨h.jd, ?_, rfl⟩
    dsimp only
    rw [h.writes, (h.jd bi hb).tid, (h.jd bi hb).bn hr, (h.jd _ hlt).block]

theorem SameRun.refs {t t' : RunState} (h : SameRun nb t t') (hb : bi < nb) (hn : n ≤ refSize) :
    SameRun nb ((List.range n).foldl (runRef nb bi) t)
      ((List.range n).foldl (runRef nb bi) t') := by
  induction n with
  | zero => exact h
  | succ n ih =>
    rw [List.range_succ, List.foldl_append, List.foldl_append]
    exact (ih (Nat.le_of_succ_le hn)).ref hb hn

/-- The outer loop of `run`; no metablock changes in it. -/
theorem SameRun.metas {complete commit : Nat} (hmr : Replayable m nb mr) :
    ∀ (l : List Nat) {t t' : RunState}, SameRun nb t t' → l ⊆ mr → (∀ b ∈ mr, SameBlock t.jd m b) →
    SameRun nb (l.foldl (runMeta nb complete commit) t)
    (l.foldl (runMeta nb complete commit) t') := by
  intro l
  induction l with
  | nil => exact fun h _ _ => h
  | cons bi l ih =>
    intro t t' h hsub hsame
    have hbi : bi ∈ mr := hsub List.mem_cons_self
    have hlt := hmr.lt bi hbi
    have htail : l ⊆ mr := fun b hb => hsub (List.mem_cons_of_mem _ hb)
    have hnref : nref t.jd bi = nref m bi := (hsame bi hbi).nref
    have hstart : RunAt m mr bi 0 { t with delta := 1 } := ⟨rfl, hsame⟩
    rw [List.foldl_cons, List.foldl_cons]
    unfold runMeta committable
    rw [(h.jd bi hlt).tid, ← (h.jd bi hlt).nref]
    by_cases hcom : decide (tidGe (tid t'.jd bi) complete = true ∧
      tidLt (tid t'.jd bi) commit = true) = true
    · rw [if_pos hcom, if_pos hcom]
      have hone : SameRun nb { t with delta := 1 } { t' with delta := 1 } := ⟨h.jd, h.writes, rfl⟩
      refine ih (hone.refs hlt ?_) htail ?_
      · rw [hnref]
        exact hmr.nref bi hbi
      · exact (runRefs_at hmr hbi hstart (Nat.le_of_eq hnref)).1.same
    · rw [if_neg hcom, if_neg hcom]
      exact ih h htail hsame

/-- **The replay depends on the journal alone**: what lies behind it decides neither whether it is
made nor what it writes. -/
theorem replayWrites_congr (h : SameJournal nb d d') (hb : Bounded d nb) :
    replayWrites d nb = replayWrites d' nb := by
  obtain ⟨hsame, hok⟩ := analyze_sameReplayer h hb
  unfold replayWrites
  rw [← hok]
  by_cases htrue : (analyze d nb).2 = true
  · have hrep := analyze_replayable htrue
    have hmr : (analyze d nb).1.mr = (looked d nb).mr := by rw [(analyze_true htrue).2]
    rw [← hmr] at hrep
    rw [if_pos htrue, if_pos htrue]
    generalize (analyze d nb).1 = s at hsame hrep
    generalize (analyze d' nb).1 = s' at hsame
    obtain ⟨jd, nb', mr, ok⟩ := s
    obtain ⟨jd', nb'', mr', ok'⟩ := s'
    obtain ⟨hjd, rfl, rfl, rfl, rfl⟩ := hsame
    unfold run
    dsimp only at *
    cases hlast : mr.getLast? with
    | none => rfl
    | some last =>
      have hin := hjd last (hrep.lt last (List.mem_of_getLast? hlast))
      dsimp only
      rw [hin.completeBoundary, hin.commitBoundary]
      have hstart : SameRun _ { jd := jd, writes := [], delta := 1 }
          { jd := jd', writes := [], delta := 1 } := ⟨hjd, rfl, rfl⟩
      exact (hstart.metas hrep mr (List.Subset.refl mr) fun _ _ _ _ _ => rfl).writes
  · rw [if_neg htrue, if_neg htrue]

end Extent

end PugOS.Journal
