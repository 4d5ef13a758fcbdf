import PugOS.JournalExtent
import PugOS.FsckSound
import Mathlib.Logic.Relation

/-! # A replay that is killed

`replay_journal` of `chickadeefsck --save-journal`, with the callbacks that write into the image.
The blocks are written first, the journal is cleared last, and what is written comes out of a copy
of the journal.  So a replay that dies among its writes has changed nothing but blocks it would
write again: another run, after any number of such deaths, leaves the image that one run would have
left (`replay_after_kills`).  A replay that came to its end leaves a journal in which there is
nothing to replay (`replay_replay`).  What lies behind the copy of the journal is another thing in
each run.
-/
namespace PugOS.Journal
open Bytes Ring

/-- `ujournalreplayer::write_block`. -/
def writeBlock (disk : Mem) (w : Write) : Mem := store disk (w.bn * blocksize) w.buf

/-- `ujournalreplayer::write_replay_complete`. -/
def writeReplayComplete (sb : Fsck.Superblock) (disk : Mem) : Mem :=
  store disk (sb.journalBn * blocksize) (List.replicate (analyzedBlocks sb * blocksize) 0)

/-- `replay_journal`: the image it leaves.  `past` is what lies behind the copy of the journal. -/
def replayJournal (sb : Fsck.Superblock) (past data : Mem) : Mem :=
  let jd := jcopy sb data past
  if (analyze jd (analyzedBlocks sb)).2 then
    writeReplayComplete sb ((replayWrites jd (analyzedBlocks sb)).foldl writeBlock data)
  else data

/-- `main` has the journal of an image of this size replayed. -/
def hasJournal (size : Nat) (data : Mem) : Prop :=
  Fsck.superblockErrors size (Fsck.superblock data) = [] ∧
    (Fsck.superblock data).journalBn < (Fsck.superblock data).nblocks

instance (size : Nat) (data : Mem) : Decidable (hasJournal size data) :=
  inferInstanceAs (Decidable (_ ∧ _))

/-- What `main` does with the journal. -/
def fsckReplay (size : Nat) (past data : Mem) : Mem :=
  if hasJournal size data then replayJournal (Fsck.superblock data) past data else data

/-- The calls of `write_block` that it makes. -/
def fsckWrites (size : Nat) (past data : Mem) : List Write :=
  if hasJournal size data then
    replayWrites (jcopy (Fsck.superblock data) data past) (analyzedBlocks (Fsck.superblock data))
  else []

/-! ## A list of writes -/

section Writes
variable {d d' : Mem} {W : List Write} {w : Write} {a : Nat}

/-- The address is in a block that is written. -/
def Covered (W : List Write) (a : Nat) : Prop :=
  ∃ w ∈ W, w.bn * blocksize ≤ a ∧ a < w.bn * blocksize + blocksize

/-- Two images that differ in blocks that are written at most. -/
def AgreeOutside (W : List Write) (d d' : Mem) : Prop := ∀ a, ¬Covered W a → d' a = d a

theorem covered_cons : Covered (w :: W) a ↔
    (w.bn * blocksize ≤ a ∧ a < w.bn * blocksize + blocksize) ∨ Covered W a := by
  unfold Covered
  rw [List.exists_mem_cons_iff]

theorem writeBlock_outside (hlen : w.buf.length = blocksize)
    (ha : ¬(w.bn * blocksize ≤ a ∧ a < w.bn * blocksize + blocksize)) : writeBlock d w a = d a :=
  store_of_not_mem d w.buf (by rw [hlen]; exact ha)

/-- A block that is written whole does not depend on what was there. -/
theorem writeBlock_inside (hlen : w.buf.length = blocksize)
    (ha : w.bn * blocksize ≤ a ∧ a < w.bn * blocksize + blocksize) :
    writeBlock d' w a = writeBlock d w a := by
  have hbuf : w.bn * blocksize ≤ a ∧ a < w.bn * blocksize + w.buf.length := by rwa [hlen]
  unfold writeBlock store
  rw [dif_pos hbuf, dif_pos hbuf]

theorem writes_outside : ∀ {d : Mem}, (∀ w ∈ W, w.buf.length = blocksize) →
    AgreeOutside W d (W.foldl writeBlock d) := by
  induction W with
  | nil => exact fun _ _ _ => rfl
  | cons w W ih =>
    intro d hlen a ha
    rw [covered_cons, not_or] at ha
    obtain ⟨hw, hlen⟩ := List.forall_mem_cons.mp hlen
    rw [List.foldl_cons, ih hlen a ha.2, writeBlock_outside hw ha.1]

/-- **Whole blocks hide what was under them**: two images that differ there only are the same
afterwards. -/
theorem writes_congr : ∀ {d d' : Mem}, (∀ w ∈ W, w.buf.length = blocksize) → AgreeOutside W d d' →
    W.foldl writeBlock d' = W.foldl writeBlock d := by
  induction W with
  | nil => exact fun _ hagree => funext fun a => hagree a (by rintro ⟨w, hw, -⟩; cases hw)
  | cons w W ih =>
    intro d d' hlen hagree
    obtain ⟨hw, hrest⟩ := List.forall_mem_cons.mp hlen
    refine ih hrest fun a ha => ?_
    by_cases hin : w.bn * blocksize ≤ a ∧ a < w.bn * blocksize + blocksize
    · exact writeBlock_inside hw hin
    · rw [writeBlock_outside hw hin, writeBlock_outside hw hin]
      exact hagree a (by rw [covered_cons, not_or]; exact ⟨hin, ha⟩)

end Writes

/-! ## The writes of a replay -/

section Replay
variable {size : Nat} {past d d' : Mem}

theorem runRef_lengths {nb bi : Nat} {s : RunState} (h : ∀ w ∈ s.writes, w.buf.length = blocksize)
    (refi : Nat) : ∀ w ∈ (runRef nb bi s refi).writes, w.buf.length = blocksize := by
  unfold runRef
  dsimp only
  by_cases hnon : has (bflags s.jd bi refi) jbfNonjournaled = true
  · rwa [if_pos hnon]
  rw [if_neg hnon]
  by_cases hover : has (bflags s.jd bi refi) jbfOverwritten = true
  · rwa [if_pos hover]
  rw [if_neg hover]
  intro w hw
  rcases List.mem_append.mp hw with hw | hw
  · exact h w hw
  · rw [List.mem_singleton.mp hw]
    dsimp only
    rw [block, slice_length]

theorem runMeta_lengths {nb complete commit : Nat} {s : RunState}
    (h : ∀ w ∈ s.writes, w.buf.length = blocksize) (bi : Nat) :
    ∀ w ∈ (runMeta nb complete commit s bi).writes, w.buf.length = blocksize := by
  have hrefs : ∀ (l : List Nat) {s : RunState}, (∀ w ∈ s.writes, w.buf.length = blocksize) →
      ∀ w ∈ (l.foldl (runRef nb bi) s).writes, w.buf.length = blocksize := by
    intro l
    induction l with
    | nil => exact fun h => h
    | cons refi l ih => exact fun h => ih (runRef_lengths h refi)
  unfold runMeta
  by_cases hin : committable s.jd complete commit bi = true
  · rw [if_pos hin]
    exact hrefs _ h
  · rwa [if_neg hin]

theorem runMetas_lengths {nb complete commit : Nat} (l : List Nat) : ∀ {s : RunState},
    (∀ w ∈ s.writes, w.buf.length = blocksize) →
    ∀ w ∈ (l.foldl (runMeta nb complete commit) s).writes, w.buf.length = blocksize := by
  induction l with
  | nil => exact fun h => h
  | cons bi l ih => exact fun h => ih (runMeta_lengths h bi)

/-- Every write is of a whole block. -/
theorem replayWrites_lengths {jd : Mem} {nb : Nat} :
    ∀ w ∈ replayWrites jd nb, w.buf.length = blocksize := by
  unfold replayWrites run
  by_cases hok : (analyze jd nb).2 = true
  · rw [if_pos hok]
    cases (analyze jd nb).1.mr.getLast? with
    | none => exact List.forall_mem_nil _
    | some last => exact runMetas_lengths _ (List.forall_mem_nil _)
  · rw [if_neg hok]
    exact List.forall_mem_nil _

theorem fsckWrites_lengths : ∀ w ∈ fsckWrites size past d, w.buf.length = blocksize := by
  unfold fsckWrites
  by_cases hj : hasJournal size d
  · rw [if_pos hj]
    exact replayWrites_lengths
  · rw [if_neg hj]
    exact List.forall_mem_nil _

/-- The replay writes neither the superblock nor the journal. -/
def TargetsData (size : Nat) (past d : Mem) : Prop :=
  ∀ w ∈ fsckWrites size past d, 0 < w.bn ∧ w.bn < (Fsck.superblock d).journalBn

/-- What a replay that is killed among its writes can leave: blocks that it writes hold anything. -/
def Killed (size : Nat) (past d d' : Mem) : Prop := AgreeOutside (fsckWrites size past d) d d'

/-- The journal of the image, as long as the image. -/
def journalOf (d : Mem) : Mem := fun x => d ((Fsck.superblock d).journalBn * blocksize + x)

/-- The copy takes in the whole journal, in which no block that looks like a metablock counts more
references than one holds. -/
structure SelfContained (d : Mem) : Prop where
  length : analyzedBlocks (Fsck.superblock d) = (Fsck.superblock d).njournal
  bounded : Bounded (journalOf d) (analyzedBlocks (Fsck.superblock d))

/-- The copy is the journal. -/
theorem SelfContained.jcopy_same (h : SelfContained d) (past : Mem) :
    SameJournal (analyzedBlocks (Fsck.superblock d)) (journalOf d)
      (jcopy (Fsck.superblock d) d past) := by
  intro b hb x _ hx
  have hlast : (b + 1) * blocksize ≤ (Fsck.superblock d).njournal * blocksize :=
    Nat.mul_le_mul_right _ (h.length ▸ hb)
  rw [Nat.succ_mul] at hlast
  unfold journalOf jcopy
  rw [if_pos (Nat.lt_of_lt_of_le hx hlast)]

/-- **What lies behind the copy** does not matter. -/
theorem SelfContained.writes_eq (h : SelfContained d) (size : Nat) (past past' : Mem) :
    fsckWrites size past d = fsckWrites size past' d := by
  unfold fsckWrites
  rw [← replayWrites_congr (h.jcopy_same past) h.bounded,
    ← replayWrites_congr (h.jcopy_same past') h.bounded]

theorem SelfContained.analyze_eq (h : SelfContained d) (past past' : Mem) :
    (analyze (jcopy (Fsck.superblock d) d past) (analyzedBlocks (Fsck.superblock d))).2 =
      (analyze (jcopy (Fsck.superblock d) d past') (analyzedBlocks (Fsck.superblock d))).2 := by
  rw [← (analyze_sameReplayer (h.jcopy_same past) h.bounded).2,
    ← (analyze_sameReplayer (h.jcopy_same past') h.bounded).2]

theorem superblock_congr (h : ∀ a < blocksize, d' a = d a) :
    Fsck.superblock d' = Fsck.superblock d := by
  have hsame : ∀ a n, a + n ≤ blocksize → getLE d' a n = getLE d a n :=
    fun a n ha => getLE_congr fun x _ hx => h x (Nat.lt_of_lt_of_le hx ha)
  unfold Fsck.superblock
  rw [hsame 512 8 (by decide), hsame 520 4 (by decide), hsame 524 4 (by decide),
    hsame 528 4 (by decide), hsame 532 4 (by decide), hsame 536 4 (by decide),
    hsame 540 4 (by decide), hsame 544 4 (by decide), hsame 548 4 (by decide),
    hsame 552 4 (by decide)]

theorem TargetsData.not_covered (htargets : TargetsData size past d) {a : Nat}
    (ha : a < blocksize ∨ (Fsck.superblock d).journalBn * blocksize ≤ a) :
    ¬Covered (fsckWrites size past d) a := by
  rintro ⟨w, hw, hlow, hhigh⟩
  have hpos : 1 * blocksize ≤ w.bn * blocksize := Nat.mul_le_mul_right _ (htargets w hw).1
  have hbelow : (w.bn + 1) * blocksize ≤ (Fsck.superblock d).journalBn * blocksize :=
    Nat.mul_le_mul_right _ (htargets w hw).2
  rw [Nat.succ_mul] at hbelow
  omega

theorem Killed.superblock (h : Killed size past d d') (htargets : TargetsData size past d) :
    Fsck.superblock d' = Fsck.superblock d :=
  superblock_congr fun a ha => h a (htargets.not_covered (.inl ha))

/-- The copy of the journal is what it was. -/
theorem Killed.jcopy_eq (h : Killed size past d d') (htargets : TargetsData size past d) :
    jcopy (Fsck.superblock d) d' past = jcopy (Fsck.superblock d) d past := by
  funext x
  unfold jcopy
  exact if_congr Iff.rfl (h _ (htargets.not_covered (.inr (Nat.le_add_right _ _)))) rfl

theorem Killed.hasJournal_iff (h : Killed size past d d') (htargets : TargetsData size past d) :
    hasJournal size d' ↔ hasJournal size d := by
  unfold hasJournal
  rw [h.superblock htargets]

theorem Killed.journalOf_eq (h : Killed size past d d') (htargets : TargetsData size past d) :
    journalOf d' = journalOf d := by
  funext x
  unfold journalOf
  rw [h.superblock htargets]
  exact h _ (htargets.not_covered (.inr (Nat.le_add_right _ _)))

theorem Killed.selfContained (h : Killed size past d d') (htargets : TargetsData size past d)
    (hself : SelfContained d) :
    SelfContained d' := by
  constructor
  · rw [h.superblock htargets]
    exact hself.length
  · rw [h.superblock htargets, h.journalOf_eq htargets]
    exact hself.bounded

/-- So the next run makes the same writes. -/
theorem Killed.writes (h : Killed size past d d') (htargets : TargetsData size past d) :
    fsckWrites size past d' = fsckWrites size past d := by
  unfold fsckWrites
  by_cases hj : hasJournal size d
  · rw [if_pos hj, if_pos ((h.hasJournal_iff htargets).mpr hj), h.superblock htargets,
      h.jcopy_eq htargets]
  · rw [if_neg hj, if_neg (mt (h.hasJournal_iff htargets).mp hj)]

theorem fsckReplay_eq (size : Nat) (past d : Mem) : fsckReplay size past d =
    if hasJournal size d ∧
        (analyze (jcopy (Fsck.superblock d) d past) (analyzedBlocks (Fsck.superblock d))).2 =
        true then
      writeReplayComplete (Fsck.superblock d) ((fsckWrites size past d).foldl writeBlock d)
    else d := by
  unfold fsckReplay replayJournal fsckWrites
  by_cases hj : hasJournal size d
  · rw [if_pos hj, if_pos hj]
    dsimp only
    by_cases hok :
      (analyze (jcopy (Fsck.superblock d) d past) (analyzedBlocks (Fsck.superblock d))).2 = true
    · rw [if_pos hok, if_pos ⟨hj, hok⟩]
    · rw [if_neg hok, if_neg fun h => hok h.2]
  · rw [if_neg hj, if_neg fun h => hj h.1]

/-- **A killed replay is made good** by the next one. -/
theorem Killed.replay (h : Killed size past d d') (htargets : TargetsData size past d) :
    fsckReplay size past d' = fsckReplay size past d := by
  have hwrites := h.writes htargets
  have hfold := writes_congr fsckWrites_lengths h
  rw [fsckReplay_eq, fsckReplay_eq, hwrites, hfold, h.superblock htargets, h.jcopy_eq htargets]
  by_cases hrun : hasJournal size d ∧
      (analyze (jcopy (Fsck.superblock d) d past) (analyzedBlocks (Fsck.superblock d))).2 = true
  · rw [if_pos hrun, if_pos ⟨(h.hasJournal_iff htargets).mpr hrun.1, hrun.2⟩]
  · rw [if_neg hrun, if_neg fun hc => hrun ⟨(h.hasJournal_iff htargets).mp hc.1, hc.2⟩]
    -- then nothing is written, and nothing can have changed
    funext a
    refine h a ?_
    rintro ⟨w, hw, -⟩
    unfold fsckWrites replayWrites at hw
    by_cases hj : hasJournal size d
    · rw [if_pos hj, if_neg fun hok => hrun ⟨hj, hok⟩] at hw
      cases hw
    · rw [if_neg hj] at hw
      cases hw

theorem SelfContained.replay_eq (h : SelfContained d) (size : Nat) (past past' : Mem) :
    fsckReplay size past d = fsckReplay size past' d := by
  rw [fsckReplay_eq, fsckReplay_eq, h.writes_eq size past past', h.analyze_eq past past']

theorem SelfContained.targets (h : SelfContained d) (htargets : TargetsData size past d)
    (past' : Mem) :
    TargetsData size past' d := by
  unfold TargetsData
  rw [h.writes_eq size past' past]
  exact htargets

theorem Killed.targets (h : Killed size past d d') (htargets : TargetsData size past d) :
    TargetsData size past d' := by
  unfold TargetsData
  rw [h.writes htargets, h.superblock htargets]
  exact htargets

/-! ## Killed for certain -/

/-- A replay that has made `k` of its writes and `n` bytes of the next. -/
def stopped (W : List Write) (k n : Nat) (d : Mem) : Mem :=
  let disk := (W.take k).foldl writeBlock d
  match W[k]? with
  | none => disk
  | some w => writeBlock disk { w with buf := w.buf.take n }

/-- Wherever it dies, a replay has changed blocks that it writes only. -/
theorem stopped_killed (k n : Nat) :
    Killed size past d (stopped (fsckWrites size past d) k n d) := by
  have hlen := @fsckWrites_lengths size past d
  generalize hW : fsckWrites size past d = W at hlen
  unfold Killed stopped
  rw [hW]
  intro a ha
  have hdone : (W.take k).foldl writeBlock d a = d a := by
    refine writes_outside (fun w hw => hlen w (List.mem_of_mem_take hw)) a fun hc => ha ?_
    obtain ⟨w, hw, hin⟩ := hc
    exact ⟨w, List.mem_of_mem_take hw, hin⟩
  cases hnext : W[k]? with
  | none => exact hdone
  | some w =>
    have hw := List.mem_of_getElem? hnext
    refine (store_of_not_mem _ _ fun hin => ha ⟨w, hw, hin.1, ?_⟩).trans hdone
    have hshort := List.length_take_le' n w.buf
    have := hlen w hw
    have hend := hin.2
    dsimp only at hend
    omega

/-- **Replays that are killed do no harm**: after any number of runs that died among their writes,
whatever is in the blocks they were writing and whatever lay behind their copies of the journal, a
run that comes to its end leaves the image that it would have left at first. -/
theorem replay_after_kills (hself : SelfContained d) (htargets : TargetsData size past d)
    (hkills : Relation.ReflTransGen (fun d d' => ∃ past, Killed size past d d') d d')
    (past' : Mem) : fsckReplay size past' d' = fsckReplay size past d := by
  have hall : SelfContained d' ∧ TargetsData size past d' ∧
      fsckReplay size past d' = fsckReplay size past d := by
    induction hkills with
    | refl => exact ⟨hself, htargets, rfl⟩
    | tail _ hkill ih =>
      obtain ⟨hself, htargets, hreplay⟩ := ih
      obtain ⟨past', hkill⟩ := hkill
      have htargets' := hself.targets htargets past'
      have hself' := hkill.selfContained htargets' hself
      refine ⟨hself', hself'.targets (hkill.targets htargets') past, ?_⟩
      rw [hself'.replay_eq size past past', hkill.replay htargets', hself.replay_eq size past' past,
        hreplay]
  rw [hall.1.replay_eq size past' past, hall.2.2]

/-- A committed transaction has data for block 3. -/
def pending : Mem :=
  smallImage 2 [(16384, 8, journalmagic), (16392, 4, nochecksum), (16404, 2, 1), (16408, 2, 0x31),
    (16410, 2, 1), (16412, 4, 3), (16416, 4, nochecksum), (20480, 1, 7)]

theorem pending_writes : hasJournal 24576 pending ∧
    (fsckWrites 24576 (fun _ => 0) pending).map (·.bn) = [3] ∧
    (Fsck.superblock pending).journalBn = 4 ∧
    analyzedBlocks (Fsck.superblock pending) = (Fsck.superblock pending).njournal ∧
    ∀ bi < analyzedBlocks (Fsck.superblock pending), nref (journalOf pending) bi ≤ refSize := by
  decide +kernel

theorem pending_selfContained : SelfContained pending :=
  ⟨pending_writes.2.2.2.1, fun bi hbi _ => pending_writes.2.2.2.2 bi hbi⟩

theorem pending_targets : TargetsData 24576 (fun _ => 0) pending := by
  intro w hw
  have hbn : w.bn ∈ [3] := by
    rw [← pending_writes.2.1]
    exact List.mem_map_of_mem hw
  rw [List.mem_singleton.mp hbn, pending_writes.2.2.1]
  exact ⟨by decide, by decide⟩

/-- What two runs that die leave, the first after 100 bytes of its block, the second after 50. -/
def killedTwice : Mem :=
  let first := stopped (fsckWrites 24576 (fun _ => 0) pending) 0 100 pending
  stopped (fsckWrites 24576 (fun _ => 1) first) 0 50 first

theorem replay_after_kills_pending : fsckReplay 24576 (fun _ => 2) killedTwice = fsckReplay 24576
    (fun _ => 0) pending :=
  replay_after_kills pending_selfContained pending_targets
    (.tail (.single ⟨fun _ => 0, stopped_killed 0 100⟩) ⟨fun _ => 1, stopped_killed 0 50⟩)
    fun _ => 2

/-! ## A finished replay -/

theorem zero_journal {jd : Mem} {nb : Nat} (h : ∀ a < nb * blocksize, jd a = 0) :
    (analyze jd nb).2 = false := by
  have hstay : ∀ l : List Nat, (∀ b ∈ l, b < nb) →
      l.foldl analyzeBlock (start jd nb) = start jd nb := by
    intro l
    induction l with
    | nil => exact fun _ => rfl
    | cons b l ih =>
      intro hl
      obtain ⟨hb, hl⟩ := List.forall_mem_cons.mp hl
      have hmagic : magic jd b = 0 := by
        have hin : (b + 1) * blocksize ≤ nb * blocksize := Nat.mul_le_mul_right _ hb
        rw [Nat.succ_mul] at hin
        refine getLE_zero fun x _ hx => h x ?_
        have : 8 < blocksize := by decide
        omega
      have hno : isPotentialMetablock jd b = false := by
        unfold isPotentialMetablock
        rw [hmagic]
        exact decide_eq_false fun hm => absurd hm.1 (by decide)
      have hkeep : analyzeBlock (start jd nb) b = start jd nb := by
        unfold analyzeBlock
        exact if_neg (by rw [show (start jd nb).jd = jd from rfl, hno]; exact Bool.false_ne_true)
      rw [List.foldl_cons, hkeep]
      exact ih hl
  have hlook : (List.range nb).foldl analyzeBlock (start jd nb) = start jd nb :=
    hstay _ fun b hb => List.mem_range.mp hb
  unfold analyze
  rw [show ({ jd := jd, nb := nb, mr := [], ok := true } : Replayer) = start jd nb from rfl, hlook]
  rfl

theorem journalBn_pos (hsb : Fsck.superblockErrors size (Fsck.superblock d) = []) :
    0 < (Fsck.superblock d).journalBn := by
  have hall := Fsck.superblockErrors_nil hsb
  simp only [Fsck.superblockChecks, List.forall_mem_cons, decide_eq_true_eq] at hall
  obtain ⟨-, -, -, hn, -, -, -, hinode, -, hdata, -, hjournal, -⟩ := hall
  have hblocks : 0 < ((Fsck.superblock d).nblocks + ChkFS.bitsperblock - 1) / ChkFS.bitsperblock :=
    Nat.div_pos (by omega) (by decide)
  have horder := Fsck.superblock_order hsb
  omega

/-- **A finished replay has nothing left to replay**: run again, with whatever behind its copy of
the journal, it changes nothing. -/
theorem replay_replay (hself : SelfContained d) (htargets : TargetsData size past d) (past' : Mem) :
    fsckReplay size past' (fsckReplay size past d) = fsckReplay size past d := by
  rw [fsckReplay_eq size past d]
  by_cases hrun : hasJournal size d ∧
      (analyze (jcopy (Fsck.superblock d) d past) (analyzedBlocks (Fsck.superblock d))).2 = true
  · rw [if_pos hrun]
    generalize hfinal : writeReplayComplete (Fsck.superblock d)
      ((fsckWrites size past d).foldl writeBlock d) = final
    have hlow : blocksize ≤ (Fsck.superblock d).journalBn * blocksize :=
      Nat.le_mul_of_pos_left _ (journalBn_pos hrun.1.1)
    have hsb : Fsck.superblock final = Fsck.superblock d := by
      refine superblock_congr fun a ha => ?_
      rw [← hfinal, writeReplayComplete, store_of_not_mem _ _ (by omega)]
      exact writes_outside fsckWrites_lengths a (htargets.not_covered (.inl ha))
    have hzero :
        (analyze (jcopy (Fsck.superblock d) final past') (analyzedBlocks (Fsck.superblock d))).2
          = false := by
      refine zero_journal fun x hx => ?_
      rw [jcopy, if_pos (by rwa [← hself.length]), ← hfinal]
      exact store_replicate (Nat.le_add_right _ _) (Nat.add_lt_add_left hx _)
    rw [fsckReplay_eq, hsb, hzero, if_neg fun h => Bool.false_ne_true h.2]
  · rw [hself.analyze_eq past past'] at hrun
    rw [hself.analyze_eq past past', if_neg hrun, fsckReplay_eq, if_neg hrun]

theorem replay_replay_pending :
    fsckReplay 24576 (fun _ => 1) (fsckReplay 24576 (fun _ => 0) pending) =
    fsckReplay 24576 (fun _ => 0) pending :=
  replay_replay pending_selfContained pending_targets fun _ => 1

end Replay

end PugOS.Journal
