import PugOS.BufCacheBusy
import PugOS.BufCacheRefs

/-! # Buffers that are loaded

The machine of the cache is watched (`Watch`): of each buffer, which block has been read into it
since it was allocated, whether a call has returned it, whether a cleaner has been applied to it and
whether the call that last began its read has one to apply; of each task, the block it has asked
for, whether it has passed a cleaner and whether it has begun the read of that block itself.
Nothing of this is used by the cache.

A call returns an entry whose read is done, in every run without the five kinds of step that take a
buffer away under a read or return it before, without a read that the disk reports as failed, and
without a call that has no cleaner completing a load that one with a cleaner has begun
(`returned_buffers_loaded`).
-/
namespace PugOS
namespace BufCache
open Heap (one one_self one_ne)

/-- What has been done to a buffer since it was allocated. -/
structure Page where
  /-- the block that has been read into it -/
  filled : Option Nat
  /-- `get_disk_entry` has returned its entry -/
  returned : Bool
  cleaned : Bool
  /-- the call that has begun its read has passed a cleaner -/
  owed : Bool

/-- The machine's state, what the tasks have asked for, and what has been done to the buffers. -/
structure Watch where
  s : State
  want : Nat → Nat
  cleaner : Nat → Bool
  began : Nat → Bool
  page : Nat → Page

/-- The cleaner is for the block of the call, and not for those it prefetches. -/
def Job.owes (cleaner : Bool) : Job → Bool
  | .main _ => cleaner
  | .ahead _ _ _ => false

/-- What a step does to the buffers. -/
def pages (w : Watch) : Label → Nat → Page
  | .load τ buf =>
    match w.s.tasks.get τ with
    | some (.load j k _) =>
      if (w.s.e k).loadeding then w.page
      else
        match (w.s.e k).buf, buf with
        | some b, _ => Function.update w.page b { w.page b with owed := j.owes (w.cleaner τ) }
        | none, some b => Function.update w.page b ⟨none, false, false, j.owes (w.cleaner τ)⟩
        | none, none => w.page
    | _ => w.page
  | .acknowledge q false =>
    match w.s.cmds.get q with
    | some c =>
      if c.write then w.page
        else Function.update w.page c.buf { w.page c.buf with filled := some c.bn }
    | none => w.page
  | .finish τ =>
    match w.s.tasks.get τ with
    | some (.wait k) =>
      match (w.s.e k).buf with
      | some b => Function.update w.page b { w.page b with
          returned := true, cleaned := (w.page b).cleaned || (w.cleaner τ && (w.s.e k).loading) }
      | none => w.page
    | _ => w.page
  | _ => w.page

/-- Whether the calls have begun the reads of their blocks. -/
def begins (w : Watch) : Label → Nat → Bool
  | .get τ _ => Function.update w.began τ false
  | .load τ _ =>
    match w.s.tasks.get τ with
    | some (.load (.main _) k _) => Function.update w.began τ !(w.s.e k).loadeding
    | _ => w.began
  | _ => w.began

/-- A step; a call says whether it passes a cleaner. -/
def watch (nslots : Nat) (w : Watch) (a : Label × Bool) : Option Watch :=
  (step nslots w.s a.1).map fun s =>
    { s := s
      want := match a.1 with
        | .get τ bn => Function.update w.want τ bn
        | _ => w.want
      cleaner := match a.1 with
        | .get τ _ => Function.update w.cleaner τ a.2
        | _ => w.cleaner
      began := begins w a.1
      page := pages w a.1 }

/-- The cache has booted, with the superblock in its slot. -/
def bootWatch : Watch where
  s := boot
  want := fun _ => 0
  cleaner := fun _ => false
  began := fun _ => false
  page := Function.update (fun _ => ⟨none, false, false, false⟩) 0 ⟨some 0, true, false, false⟩

/-- The cache, with what is watched of it. -/
def watched (nslots : Nat) : Transition.Machine Watch (Label × Bool) where
  init w := w = bootWatch
  step := watch nslots

/-- The disk reports an error for a read. -/
def ReadFails (s : State) : Label → Prop
  | .acknowledge q true => ∃ c, s.cmds.get q = some c ∧ c.write = false
  | _ => False

/-- A call without a cleaner is the first to see that a read is done, which a call with one has
begun. -/
def LeavesUnclean (w : Watch) : Label → Prop
  | .finish τ =>
    ∃ k b, w.s.tasks.get τ = some (.wait k) ∧ (w.s.e k).loading = true ∧ (w.s.e k).buf = some b ∧
      (w.page b).owed = true ∧ w.cleaner τ = false
  | _ => False

/-- No step of the five kinds, no read that fails, and no load with a cleaner completed without it.
-/
def CarefulRead (w : Watch) (a : Label × Bool) : Prop :=
  Careful w.s a.1 ∧ ¬ReadFails w.s a.1 ∧ ¬LeavesUnclean w a.1

/-! ## What a section does to the entries -/

variable {s s' : State} {k i τ bn nslots : Nat} {w w' : Watch}

/-- An entry but for its references, its lists and its being dirty. -/
def Entry.core (x : Entry) : Nat × Bool × Bool × Option Nat × Status :=
  (x.bn, x.loaded, x.loading, x.buf, x.fetchStatus)

/-- The entries that are referenced are as they were, and the others are as they were or empty. -/
def Moves (s s' : State) : Prop := ∀ i, (s'.e i).core = (s.e i).core ∨
  (s.e i).ref = 0 ∧ (s'.e i).loaded = false ∧ (s'.e i).loading = false

theorem Moves.of_core (h : ∀ i, (s'.e i).core = (s.e i).core) : Moves s s' := fun i => .inl (h i)

theorem Moves.core {s'' : State} (h : Moves s s') (hcore : ∀ i, (s''.e i).core = (s'.e i).core) :
    Moves s s'' := by
  intro i
  rcases h i with h | ⟨hr, hloaded, hloading⟩
  · exact .inl ((hcore i).trans h)
  · refine .inr ⟨hr, ?_, ?_⟩
    · exact (congrArg (fun c => c.2.1) (hcore i)).trans hloaded
    · exact (congrArg (fun c => c.2.2.1) (hcore i)).trans hloading

/-- An update that keeps the core of the slot it changes keeps every core. -/
theorem core_modify {f : Entry → Entry} (hf : ∀ x, (f x).core = x.core) (i : Nat) :
    ((s.modify k f).e i).core = (s.e i).core := by
  by_cases hi : i = k
  · rw [hi, modify_self, hf]
  · rw [modify_ne _ _ hi]

/-- A command that goes out leaves `E_AGAIN` in its entry's `fetch_status_`. -/
theorem issue_self (s : State) (q : Nat) (c : Cmd) :
    (issue s q c).e c.entry = { s.e c.entry with fetchStatus := .again } := modify_self ..

theorem issue_ne (s : State) (q : Nat) {c : Cmd} (hi : i ≠ c.entry) : (issue s q c).e i = s.e i :=
  modify_ne _ _ hi

/-- The search for a free slot moves slots only by emptying the one it returns. -/
theorem moves_freeSlot {l : List Nat} (h : Inv none s)
    (hstep : freeSlot s bn l = some (.slot k s')) : Moves s s' ∧ (s'.e k).bn = bn := by
  obtain ⟨-, hbn, htake⟩ | ⟨s₁, hv, hevict, htake⟩ := freeSlot_slot hstep
  · obtain ⟨hl, rfl⟩ := take_some htake
    obtain ⟨hr, -, hloaded, hloading, -⟩ := (h.entry k).empty hbn hl
    refine ⟨fun i => ?_, by rw [modify_self]⟩
    by_cases hi : i = k
    · subst hi
      rw [modify_self]
      exact .inr ⟨hr, hloaded, hloading⟩
    · rw [modify_ne _ _ hi]
      exact .inl rfl
  · obtain ⟨s₀, hunlink, hr, rfl⟩ := evict_some hevict
    obtain ⟨-, rfl⟩ := unlink_some hunlink
    obtain ⟨-, rfl⟩ := take_some htake
    refine ⟨fun i => ?_, by rw [modify_self]⟩
    by_cases hi : i = k
    · subst hi
      have hclear :
          (release { s with eList := s.eList.erase i, prefList := s.prefList.erase i } i).e i =
          (s.e i).clear :=
        release_e_self _ i
      refine .inr ⟨hr, ?_, ?_⟩
      · rw [modify_self]
        exact congrArg Entry.loaded hclear
      · rw [modify_self]
        exact congrArg Entry.loading hclear
    · rw [modify_ne _ _ hi]
      exact .inl (congrArg Entry.core (release_e_ne hi))

/-- So does `get_bufentry_slot`, which returns a slot of block `bn`. -/
theorem moves_getBufentrySlot (h : Inv none s) (hstep : getBufentrySlot s bn = some (.slot k s')) :
    Moves s s' ∧ (s'.e k).bn = bn := by
  obtain ⟨s₁, -, hbn, hunlink, htake⟩ | ⟨-, hfree⟩ := getBufentrySlot_slot hstep
  · obtain ⟨-, rfl⟩ := unlink_some hunlink
    obtain ⟨-, rfl⟩ := take_some htake
    refine ⟨fun i => .inl ?_, by rw [modify_self]⟩
    by_cases hi : i = k
    · rw [hi, modify_self, ← hbn]
    · rw [modify_ne _ _ hi]
  · exact moves_freeSlot h hfree

/-- A reference is not part of the core. -/
theorem core_addRef (s : State) (k bn i : Nat) : ((addRef s k bn).e i).core = (s.e i).core := by
  unfold addRef
  split
  · refine core_modify ?_ i
    exact fun _ => rfl
  · rfl

/-- Nor is a place on the prefetch queue. -/
theorem core_movePrefetch (h : movePrefetch s k = some s') (i : Nat) :
    (s'.e i).core = (s.e i).core := by
  unfold movePrefetch at h
  split at h
  · obtain ⟨s₁, h₁, h⟩ := Option.bind_eq_some_iff.mp h
    rw [← Option.some.inj h]
    obtain ⟨-, rfl⟩ := unlink_some h₁
    refine core_modify ?_ i
    exact fun _ => rfl
  · rw [Option.some.inj h]

theorem core_sullyEntry (h : sullyEntry s k = some s') (i : Nat) :
    (s'.e i).core = (s.e i).core := by
  unfold sullyEntry at h
  split at h
  · rw [Option.some.inj h]
  · obtain ⟨-, h⟩ := of_guard h
    rw [← Option.some.inj h]
    refine core_modify ?_ i
    exact fun _ => rfl

/-- The loop that drops entries only empties slots that nobody refers to. -/
theorem moves_drop : ∀ (l : List Nat) {s s' : State}, drop l s = some s' →
    ∀ i, s'.e i = s.e i ∨ ((s.e i).ref = 0 ∧ (s'.e i).ref = 0 ∧ (s'.e i).loaded = false ∧
      (s'.e i).loading = false) := by
  intro l
  induction l with
  | nil =>
    intro s s' h i
    rw [Option.some.inj h]
    exact .inl rfl
  | cons k l ih =>
    intro s s' h i
    rw [drop] at h
    split at h
    · rename_i hk
      simp only [Bool.and_eq_true, decide_eq_true_eq] at hk
      obtain ⟨s₁, h₁, h⟩ := Option.bind_eq_some_iff.mp h
      obtain ⟨-, rfl⟩ := unlink_some h₁
      have hrest := ih h i
      by_cases hi : i = k
      · subst hi
        rw [release_e_self] at hrest
        rcases hrest with heq | ⟨-, hrest⟩
        · rw [heq]
          exact .inr ⟨hk.2, hk.2, rfl, rfl⟩
        · exact .inr ⟨hk.2, hrest⟩
      · rwa [release_e_ne hi] at hrest
    · exact ih h i

/-! ## The invariant -/

/-- A task is about to queue a read for entry `i`. -/
def Queued (s : State) (i : Nat) : Prop := ∃ τ j p, s.tasks.get τ = some (.queue j i p)

/-- A loaded entry has been returned, with its block in its buffer. -/
def Done (w : Watch) (i : Nat) : Prop :=
  (w.s.e i).loaded = true → ∃ b, (w.s.e i).buf = some b ∧ (w.page b).filled = some (w.s.e i).bn ∧
    (w.page b).returned = true ∧ ((w.page b).owed = true → (w.page b).cleaned = true)

/-- An entry whose read has been queued and is over has its block in its buffer. -/
def Read (w : Watch) (i : Nat) : Prop :=
  (w.s.e i).loading = true → (w.s.e i).fetchStatus ≠ .again → ¬Queued w.s i →
    ∃ b, (w.s.e i).buf = some b ∧ (w.page b).filled = some (w.s.e i).bn

/-- The read into the buffer of the slot is of the kind `c`. -/
def Owes (w : Watch) (i : Nat) (c : Bool) : Prop :=
  ∃ b, (w.s.e i).buf = some b ∧ (w.page b).owed = c

/-- The read of entry `i` has been queued by a call that has passed a cleaner or not. -/
def Started (w : Watch) (i : Nat) (c : Bool) : Prop :=
  (w.s.e i).loadeding = true ∧ ¬Queued w.s i ∧ Owes w i c

/-- The call of task `τ` has entry `i` for its block, and is past the load of it. -/
def Later (w : Watch) (τ i : Nat) : Prop :=
  (w.s.e i).bn = w.want τ ∧ (w.began τ = true → Started w i (w.cleaner τ))

/-- The job is the call the task wants, or one ahead of it. -/
def Job.follows (w : Watch) (τ : Nat) : Job → Prop
  | .main bn => bn = w.want τ
  | .ahead _ i _ => Later w τ i

/-- The task is where what is watched says. -/
def Pc.follows (w : Watch) (τ : Nat) : Pc → Prop
  | .flush j => j.follows w τ
  | .load j _ _ => j.follows w τ
  | .queue j k _ => j.follows w τ ∧ ∀ bn, j = .main bn → w.began τ = true → Owes w k (w.cleaner τ)
  | .next _ i _ => Later w τ i
  | .wait i => Later w τ i
  | .hold _ => True
  | .writing _ => True

/-- The invariant: that of the cache, and that what is watched is right of it. -/
structure WInv (w : Watch) : Prop where
  inv : Inv none w.s
  done : ∀ i, Done w i
  read : ∀ i, Read w i
  follows : ∀ τ pc, w.s.tasks.get τ = some pc → pc.follows w τ

/-! ### Entries that a step leaves alone -/

/-- What the tasks that refer to entry `i` go by stays. -/
structure Steady (w w' : Watch) (i : Nat) : Prop where
  bn : (w'.s.e i).bn = (w.s.e i).bn
  owes : Queued w.s i → ∀ c, Owes w i c → Owes w' i c
  started : ∀ c, Started w i c → Started w' i c

/-- A slot is as it was, in all that is watched of it. -/
structure Same (w w' : Watch) (i : Nat) : Prop where
  core : (w'.s.e i).core = (w.s.e i).core
  queued : Queued w'.s i ↔ Queued w.s i
  page : ∀ b, (w.s.e i).buf = some b → w'.page b = w.page b

section Same
variable (h : Same w w' i)
include h

theorem Same.block : (w'.s.e i).bn = (w.s.e i).bn := congrArg Prod.fst h.core

theorem Same.loaded : (w'.s.e i).loaded = (w.s.e i).loaded := congrArg (fun c => c.2.1) h.core

theorem Same.loading : (w'.s.e i).loading = (w.s.e i).loading := congrArg (fun c => c.2.2.1) h.core

theorem Same.buf : (w'.s.e i).buf = (w.s.e i).buf := congrArg (fun c => c.2.2.2.1) h.core

theorem Same.fetchStatus : (w'.s.e i).fetchStatus = (w.s.e i).fetchStatus :=
  congrArg (fun c => c.2.2.2.2) h.core

theorem Same.done (hd : Done w i) : Done w' i := by
  intro hloaded
  rw [h.loaded] at hloaded
  obtain ⟨b, hb, hpage⟩ := hd hloaded
  refine ⟨b, h.buf.trans hb, ?_⟩
  rwa [h.page b hb, h.block]

theorem Same.read (hr : Read w i) : Read w' i := by
  intro hloading hst hq
  rw [h.loading] at hloading
  rw [h.fetchStatus] at hst
  rw [h.queued] at hq
  obtain ⟨b, hb, hpage⟩ := hr hloading hst hq
  refine ⟨b, h.buf.trans hb, ?_⟩
  rwa [h.page b hb, h.block]

theorem Same.owes {c : Bool} (ho : Owes w i c) : Owes w' i c := by
  obtain ⟨b, hb, howed⟩ := ho
  refine ⟨b, h.buf.trans hb, ?_⟩
  rwa [h.page b hb]

/-- A slot that is the same is steady for the tasks that refer to it. -/
theorem Same.steady : Steady w w' i := by
  refine ⟨h.block, fun _ c => h.owes, ?_⟩
  rintro c ⟨hload, hq, ho⟩
  refine ⟨?_, h.queued.not.mpr hq, h.owes ho⟩
  unfold Entry.loadeding at hload ⊢
  rwa [h.loaded, h.loading]

end Same

/-- The entry has nothing in it. -/
def Blank (s : State) (i : Nat) : Prop := (s.e i).loaded = false ∧ (s.e i).loading = false

/-- A slot that is not loaded promises nothing of its buffer. -/
theorem Blank.done (h : Blank w.s i) : Done w i :=
  fun hloaded => absurd (h.1.symm.trans hloaded) Bool.false_ne_true

theorem Blank.read (h : Blank w.s i) : Read w i :=
  fun hloading => absurd (h.2.symm.trans hloading) Bool.false_ne_true

/-- An entry that a task refers to is referenced. -/
theorem Inv.claimed {x : Option Nat} {pc : Pc} (h : Inv x s) (hpc : s.tasks.get τ = some pc)
    (hc : 0 < claim i pc) : 0 < (s.e i).ref := by
  by_cases hi : i = 0
  · rw [hi]
    exact h.super.2
  · have hle : claim i pc ≤ s.tasks.sum (claim i) := Heap.le_sum hpc
    exact hc.trans_le (hle.trans ((h.entry i).claims hi))

/-- What a task still has to do survives a step that leaves its slot steady. -/
theorem Later.steady (hs : Steady w w' i) (hwant : w'.want τ = w.want τ)
    (hcleaner : w'.cleaner τ = w.cleaner τ) (hbegan : w'.began τ = w.began τ) (h : Later w τ i) :
    Later w' τ i := by
  refine ⟨hs.bn.trans (h.1.trans hwant.symm), fun hb => ?_⟩
  rw [hcleaner]
  exact hs.started _ (h.2 (hbegan.symm.trans hb))

/-- A task that stays where it is. -/
theorem WInv.follows_steady {pc : Pc} (h : WInv w) (hpc : w.s.tasks.get τ = some pc)
    (hs : ∀ i, 0 < (w.s.e i).ref → Steady w w' i) (hwant : w'.want τ = w.want τ)
    (hcleaner : w'.cleaner τ = w.cleaner τ) (hbegan : w'.began τ = w.began τ) :
    pc.follows w' τ := by
  have hf := h.follows τ pc hpc
  have hone : ∀ i, 0 < one i i := fun i => by rw [one_self]; exact Nat.one_pos
  have hclaim : ∀ {i}, 0 < claim i pc → Later w τ i → Later w' τ i := fun hc hl =>
    hl.steady (hs _ (h.inv.claimed hpc hc)) hwant hcleaner hbegan
  cases pc with
  | flush j =>
    cases j with
    | main bn => exact Eq.trans hf hwant.symm
    | ahead bn i n => exact hclaim (hone i) hf
  | load j k p =>
    cases j with
    | main bn => exact Eq.trans hf hwant.symm
    | ahead bn i n => exact hclaim (hone i) hf
  | queue j k p =>
    cases j with
    | main bn =>
      refine ⟨Eq.trans hf.1 hwant.symm, fun bn' _ hb => ?_⟩
      rw [hcleaner]
      exact (hs k (h.inv.claimed hpc (hone k))).owes ⟨τ, _, p, hpc⟩ _
        (hf.2 bn rfl (hbegan.symm.trans hb))
    | ahead bn i n => exact ⟨hclaim (hone i) hf.1, nofun⟩
  | next bn i n => exact hclaim (hone i) hf
  | wait i => exact hclaim (hone i) hf
  | hold i => trivial
  | writing i => trivial

/-- The same for the job that a task is on. -/
theorem Job.follows.steady {j : Job} (hpc : ∀ i, (∃ bn n, j = .ahead bn i n) → 0 < (w.s.e i).ref)
    (hs : ∀ i, 0 < (w.s.e i).ref → Steady w w' i) (hwant : w'.want τ = w.want τ)
    (hcleaner : w'.cleaner τ = w.cleaner τ) (hbegan : w'.began τ = w.began τ) (hj : j.follows w τ) :
    j.follows w' τ := by
  cases j with
  | main bn => exact Eq.trans hj hwant.symm
  | ahead bn i n => exact Later.steady (hs i (hpc i ⟨bn, n, rfl⟩)) hwant hcleaner hbegan hj

/-- A task that is not about to queue a read, before or after, does not matter to `Queued`. -/
theorem queued_congr (hother : ∀ τ', τ' ≠ τ → s'.tasks.get τ' = s.tasks.get τ')
    (hold : ∀ j p, s.tasks.get τ ≠ some (.queue j i p))
    (hnew : ∀ j p, s'.tasks.get τ ≠ some (.queue j i p)) : Queued s' i ↔ Queued s i := by
  constructor
  · rintro ⟨τ', j, p, hpc⟩
    have hne : τ' ≠ τ := fun heq => hnew j p (heq ▸ hpc)
    exact ⟨τ', j, p, (hother τ' hne).symm.trans hpc⟩
  · rintro ⟨τ', j, p, hpc⟩
    have hne : τ' ≠ τ := fun heq => hold j p (heq ▸ hpc)
    exact ⟨τ', j, p, (hother τ' hne).trans hpc⟩

/-! ### The steps -/

variable {l : Label} {c : Bool}

/-- A step of the watched system is a step of the cache with the pages updated. -/
theorem watch_some (h : watch nslots w (l, c) = some w') : step nslots w.s l = some w'.s ∧
    w'.page = pages w l ∧ w'.began = begins w l := by
  obtain ⟨s', hs, rfl⟩ := Option.map_eq_some_iff.mp h
  exact ⟨hs, rfl, rfl⟩

/-- A step changes what the watch knows of its own task only. -/
theorem watch_other (h : watch nslots w (l, c) = some w') (hl : l.task ≠ some τ) :
    w'.want τ = w.want τ ∧ w'.cleaner τ = w.cleaner τ ∧ w'.began τ = w.began τ := by
  obtain ⟨s', -, rfl⟩ := Option.map_eq_some_iff.mp h
  cases l with
  | get τ' bn =>
    have hne : τ ≠ τ' := fun heq => hl (heq ▸ rfl)
    exact ⟨Function.update_of_ne hne .., Function.update_of_ne hne .., Function.update_of_ne hne ..⟩
  | load τ' buf =>
    have hne : τ ≠ τ' := fun heq => hl (heq ▸ rfl)
    refine ⟨rfl, rfl, ?_⟩
    have hbegins : begins w (.load τ' buf) = w.began ∨ ∃ v, begins w (.load τ' buf) =
        Function.update w.began τ' v := by
      unfold begins
      dsimp only
      split
      · exact .inr ⟨_, rfl⟩
      · exact .inl rfl
    rcases hbegins with hsame | ⟨v, hset⟩
    · exact congrFun hsame τ
    · exact (congrFun hset τ).trans (Function.update_of_ne hne ..)
  | _ => exact ⟨rfl, rfl, rfl⟩

/-- A step keeps the invariant if it does for the entry it changes and for its task. -/
theorem WInv.next (h : WInv w) (hok : Careful w.s l) (hstep : watch nslots w (l, c) = some w')
    (x : Option Nat) (hsame : ∀ i, x ≠ some i → Same w w' i ∨ (w.s.e i).ref = 0 ∧ Blank w'.s i)
    (hx : ∀ i, x = some i → Done w' i ∧ Read w' i ∧ Steady w w' i)
    (hown : ∀ τ pc, l.task = some τ → w'.s.tasks.get τ = some pc →
      (∀ i, 0 < (w.s.e i).ref → Steady w w' i) → pc.follows w' τ) : WInv w' := by
  obtain ⟨hs, -, -⟩ := watch_some hstep
  have hsteady : ∀ i, 0 < (w.s.e i).ref → Steady w w' i := by
    intro i hr
    by_cases hi : x = some i
    · exact (hx i hi).2.2
    · rcases hsame i hi with hsame | ⟨hz, -⟩
      · exact hsame.steady
      · omega
  refine ⟨step_inv h.inv hok hs, fun i => ?_, fun i => ?_, fun τ pc hpc => ?_⟩
  · by_cases hi : x = some i
    · exact (hx i hi).1
    · rcases hsame i hi with hsame | ⟨-, hblank⟩
      · exact hsame.done (h.done i)
      · exact hblank.done
  · by_cases hi : x = some i
    · exact (hx i hi).2.1
    · rcases hsame i hi with hsame | ⟨-, hblank⟩
      · exact hsame.read (h.read i)
      · exact hblank.read
  · by_cases ht : l.task = some τ
    · exact hown τ pc ht hpc hsteady
    · rw [tasks_step ht hs] at hpc
      obtain ⟨hwant, hcleaner, hbegan⟩ := watch_other hstep ht
      exact h.follows_steady hpc hsteady hwant hcleaner hbegan

/-- A step that loads nothing and ends no load. -/
theorem WInv.moves (h : WInv w) (hok : Careful w.s l) (hstep : watch nslots w (l, c) = some w')
    (hmoves : Moves w.s w'.s) (hq : ∀ i, Queued w'.s i ↔ Queued w.s i) (hpage : pages w l = w.page)
    (hown : ∀ τ pc, l.task = some τ → w'.s.tasks.get τ = some pc →
      (∀ i, 0 < (w.s.e i).ref → Steady w w' i) → pc.follows w' τ) : WInv w' := by
  refine h.next hok hstep none (fun i _ => ?_) nofun hown
  rcases hmoves i with hcore | hblank
  · exact .inl ⟨hcore, hq i, fun b _ => congrFun ((watch_some hstep).2.1.trans hpage) b⟩
  · exact .inr hblank

/-! ### Looking for a slot -/

/-- Entering a block moves slots as its search did, and leaves the task in one of three places. -/
theorem enter_moves {j : Job} {r : Got} (hr : ∀ k s₁, r = .slot k s₁ → Moves s s₁)
    (he : enter s τ j r = some s') : Moves s s' ∧ ∀ pc, s'.tasks.get τ = some pc →
      pc = .flush j ∨ (∃ k p, pc = .load j k p) ∨ ∃ bn i n, j = .ahead bn i n ∧ pc = .wait i := by
  have hset : ∀ {t : Heap Pc} {pc pc' : Pc}, (t.set τ pc').get τ = some pc → pc = pc' := by
    intro t pc pc' hpc
    rw [Heap.get_set_self] at hpc
    exact (Option.some.inj hpc).symm
  cases r with
  | flush =>
    cases Option.some.inj he
    exact ⟨.of_core fun _ => rfl, fun pc hpc => .inl (hset hpc)⟩
  | full =>
    cases j with
    | main bn =>
      cases Option.some.inj he
      refine ⟨.of_core fun _ => rfl, fun pc hpc => ?_⟩
      have hnone := (Heap.get_erase_self (h := s.tasks) (a := τ)).symm.trans hpc
      cases hnone
    | ahead bn i n =>
      cases Option.some.inj he
      exact ⟨.of_core fun _ => rfl, fun pc hpc => .inr (.inr ⟨bn, i, n, rfl, hset hpc⟩)⟩
  | slot k s₁ =>
    cases j with
    | main bn =>
      cases Option.some.inj he
      exact ⟨(hr k s₁ rfl).core fun i => core_addRef s₁ k bn i,
        fun pc hpc => .inr (.inl ⟨k, _, hset hpc⟩)⟩
    | ahead bn i n =>
      obtain ⟨s₂, h₂, he⟩ := Option.bind_eq_some_iff.mp he
      cases Option.some.inj he
      exact ⟨(hr k s₁ rfl).core fun i => core_movePrefetch h₂ i,
        fun pc hpc => .inr (.inl ⟨k, _, hset hpc⟩)⟩

/-- A section that looks for a slot for `j`. -/
theorem WInv.enter {j : Job} {r : Got} (h : WInv w) (hok : Careful w.s l)
    (hstep : watch nslots w (l, c) = some w') (htask : l.task = some τ) (hpage : pages w l = w.page)
    (hnot : ∀ i j p, w.s.tasks.get τ ≠ some (.queue j i p))
    (hr : ∀ k s₁, r = .slot k s₁ → Moves w.s s₁) (he : BufCache.enter w.s τ j r = some w'.s)
    (hj : (∀ i, 0 < (w.s.e i).ref → Steady w w' i) → j.follows w' τ) : WInv w' := by
  obtain ⟨hs, -, -⟩ := watch_some hstep
  obtain ⟨hmoves, hpc'⟩ := enter_moves hr he
  refine h.moves hok hstep hmoves (fun i => ?_) hpage ?_
  · refine queued_congr (fun τ' hne => ?_) (hnot i) fun j' p hpc => ?_
    · exact tasks_step (fun ht => hne (Option.some.inj (ht.symm.trans htask))) hs
    · rcases hpc' _ hpc with heq | ⟨k, p', heq⟩ | ⟨_, _, _, -, heq⟩ <;> cases heq
  · intro τ' pc ht hpc hsteady
    cases Option.some.inj (htask.symm.trans ht)
    have hfollows := hj hsteady
    rcases hpc' _ hpc with rfl | ⟨k, p, rfl⟩ | ⟨bn, i, n, rfl, rfl⟩
    · exact hfollows
    · exact hfollows
    · exact hfollows

theorem get_winv (h : WInv w) (hok : Careful w.s (.get τ bn))
    (hstep : watch nslots w (.get τ bn, c) = some w') :
    WInv w' := by
  obtain ⟨hs, -, -⟩ := watch_some hstep
  obtain ⟨hnone, hs⟩ := of_guard hs
  obtain ⟨-, hs⟩ := of_guard hs
  obtain ⟨r, hr, hs⟩ := Option.bind_eq_some_iff.mp hs
  refine h.enter hok hstep rfl rfl (fun i j p hpc => ?_) (fun k s₁ hslot => ?_) hs fun _ => ?_
  · cases hnone.symm.trans hpc
  · exact (moves_getBufentrySlot h.inv (hslot ▸ hr)).1
  · obtain ⟨s', -, rfl⟩ := Option.map_eq_some_iff.mp hstep
    show bn = Function.update w.want τ bn τ
    rw [Function.update_self]

theorem resume_winv (h : WInv w) (hok : Careful w.s (.resume τ))
    (hstep : watch nslots w (.resume τ, c) = some w') :
    WInv w' := by
  obtain ⟨hs, -, -⟩ := watch_some hstep
  change resume w.s τ = some w'.s at hs
  unfold resume at hs
  split at hs
  · rename_i j hpc
    obtain ⟨r, hr, hs⟩ := Option.bind_eq_some_iff.mp hs
    refine h.enter hok hstep rfl rfl (fun i j' p hpc' => ?_) (fun k s₁ hslot => ?_) hs
      fun hsteady => ?_
    · cases hpc.symm.trans hpc'
    · exact (moves_freeSlot h.inv (hslot ▸ hr)).1
    · obtain ⟨s', -, rfl⟩ := Option.map_eq_some_iff.mp hstep
      refine Job.follows.steady (fun i hi => ?_) hsteady rfl rfl rfl (h.follows τ _ hpc)
      obtain ⟨bn, n, rfl⟩ := hi
      exact h.inv.claimed hpc (by rw [claim, one_self]; exact Nat.one_pos)
  · cases hs

theorem prefetch_winv (h : WInv w) (hok : Careful w.s (.prefetch τ))
    (hstep : watch nslots w (.prefetch τ, c) = some w') :
    WInv w' := by
  obtain ⟨hs, -, -⟩ := watch_some hstep
  change prefetch w.s τ = some w'.s at hs
  unfold prefetch at hs
  split at hs
  · rename_i bn i n hpc
    have hlater : (∀ i, 0 < (w.s.e i).ref → Steady w w' i) → Later w' τ i := by
      intro hsteady
      obtain ⟨s', -, rfl⟩ := Option.map_eq_some_iff.mp hstep
      have hi : 0 < (w.s.e i).ref := h.inv.claimed hpc (by rw [claim, one_self]; exact Nat.one_pos)
      exact Later.steady (hsteady i hi) rfl rfl rfl (h.follows τ _ hpc)
    have hnot : ∀ i j p, w.s.tasks.get τ ≠ some (.queue j i p) := by
      intro i' j p hpc'
      cases hpc.symm.trans hpc'
    split at hs
    · obtain ⟨r, hr, hs⟩ := Option.bind_eq_some_iff.mp hs
      refine h.enter hok hstep rfl rfl hnot (fun k s₁ hslot => ?_) hs hlater
      exact (moves_getBufentrySlot h.inv (hslot ▸ hr)).1
    · have heq := Option.some.inj hs
      have hwait : w'.s.tasks.get τ = some (.wait i) := by
        rw [← heq]
        exact Heap.get_set_self
      refine h.moves hok hstep (.of_core fun i => ?_) (fun i' => ?_) rfl ?_
      · rw [← heq]
        rfl
      · refine queued_congr (fun τ' hne => ?_) (hnot i') fun j p hpc' => ?_
        · rw [← heq]
          exact Heap.get_set_ne hne
        · cases hwait.symm.trans hpc'
      · intro τ' pc ht hpc' hsteady
        cases Option.some.inj ht
        cases hwait.symm.trans hpc'
        exact hlater hsteady
  · cases hs

/-! ### Loading -/

/-- Where a task is after `load_disk_block`. -/
theorem loaded_pc {j : Job} {p ok : Bool} (hpc : (loaded s τ j k p ok).tasks.get τ = some pc) :
    ((∃ bn, j = .main bn) ∧ ok = true ∧ ((∃ bn n, pc = .next bn k n) ∨ pc = .wait k)) ∨
      ∃ bn i n, j = .ahead bn i n ∧ ((∃ m, pc = .next bn i m) ∨ pc = .wait i) := by
  have hset : ∀ {t : Heap Pc} {pc' : Pc}, (t.set τ pc').get τ = some pc → pc = pc' := by
    intro t pc' hpc
    rw [Heap.get_set_self] at hpc
    exact (Option.some.inj hpc).symm
  cases j with
  | main bn =>
    cases ok with
    | true =>
      refine .inl ⟨⟨bn, rfl⟩, rfl, ?_⟩
      cases p
      · exact .inr (hset hpc)
      · exact .inl ⟨bn, 1, hset hpc⟩
    | false =>
      have hnone := (Heap.get_erase_self (h := s.tasks) (a := τ)).symm.trans hpc
      cases hnone
  | ahead bn i n =>
    refine .inr ⟨bn, i, n, rfl, ?_⟩
    cases ok
    · exact .inr (hset hpc)
    · exact .inl ⟨n + 1, hset hpc⟩

/-- After the check for a buffer no task is about to queue a command. -/
theorem loaded_not_queue {j : Job} {p ok : Bool} (j' : Job) (i : Nat) (p' : Bool) :
    (loaded s τ j k p ok).tasks.get τ ≠ some (.queue j' i p') := by
  intro hpc
  rcases loaded_pc hpc with ⟨-, -, ⟨_, _, heq⟩ | heq⟩ | ⟨_, _, _, -, ⟨_, heq⟩ | heq⟩ <;> cases heq

/-- The place that follows the check keeps what the task still has to do. -/
theorem loaded_follows {j : Job} {p ok : Bool}
    (hmain : (∃ bn, j = .main bn) → ok = true → Later w τ k)
    (hahead : ∀ bn i n, j = .ahead bn i n → Later w τ i)
    (hpc : (loaded s τ j k p ok).tasks.get τ = some pc) :
    pc.follows w τ := by
  rcases loaded_pc hpc with ⟨hj, hok, ⟨_, _, rfl⟩ | rfl⟩ | ⟨bn, i, n, hj, ⟨_, rfl⟩ | rfl⟩
  · exact hmain hj hok
  · exact hmain hj hok
  · exact hahead bn i n hj
  · exact hahead bn i n hj

/-- A `get` begins to load when nobody loads or has loaded the entry. -/
theorem begins_main {p : Bool} (buf : Option Nat)
    (hpc : w.s.tasks.get τ = some (.load (.main bn) k p)) :
    begins w (.load τ buf) τ = !(w.s.e k).loadeding := by
  unfold begins
  dsimp only
  rw [hpc]
  exact Function.update_self ..

/-- A prefetch on the way does not count as the task's own load. -/
theorem begins_ahead {p : Bool} {n : Nat} (buf : Option Nat)
    (hpc : w.s.tasks.get τ = some (.load (.ahead bn i n) k p)) :
    begins w (.load τ buf) = w.began := by
  unfold begins
  dsimp only
  rw [hpc]

/-- No page is touched when the entry is loaded already or being loaded. -/
theorem pages_loadeding {j : Job} {p : Bool} (buf : Option Nat)
    (hpc : w.s.tasks.get τ = some (.load j k p)) (hload : (w.s.e k).loadeding = true) :
    pages w (.load τ buf) = w.page := by
  unfold pages
  dsimp only
  rw [hpc]
  exact if_pos hload

/-- An entry that still has a buffer loads into it again. -/
theorem pages_reuse {j : Job} {p : Bool} {b : Nat} (buf : Option Nat)
    (hpc : w.s.tasks.get τ = some (.load j k p)) (hno : (w.s.e k).loadeding = false)
    (hb : (w.s.e k).buf = some b) :
    pages w (.load τ buf) = Function.update w.page b
    { w.page b with owed := j.owes (w.cleaner τ) } := by
  unfold pages
  dsimp only
  rw [hpc]
  dsimp only
  rw [if_neg (by rw [hno]; exact Bool.false_ne_true), hb]

/-- A new page has not been filled or cleaned yet. -/
theorem pages_alloc {j : Job} {p : Bool} (b : Nat) (hpc : w.s.tasks.get τ = some (.load j k p))
    (hno : (w.s.e k).loadeding = false) (hb : (w.s.e k).buf = none) :
    pages w (.load τ (some b)) = Function.update w.page b
      ⟨none, false, false, j.owes (w.cleaner τ)⟩ := by
  unfold pages
  dsimp only
  rw [hpc]
  dsimp only
  rw [if_neg (by rw [hno]; exact Bool.false_ne_true), hb]

/-- The task sets `f_loading` and is about to queue the read into buffer `b`. -/
theorem WInv.startLoad {j : Job} {p : Bool} {buf : Option Nat} {b : Nat} {pg : Page} (h : WInv w)
    (hok : Careful w.s (.load τ buf)) (hstep : watch nslots w (.load τ buf, c) = some w')
    (hpc : w.s.tasks.get τ = some (.load j k p)) (hno : (w.s.e k).loadeding = false)
    (he : w'.s.e = Function.update w.s.e k { w.s.e k with buf := some b, loading := true })
    (htasks : w'.s.tasks = w.s.tasks.set τ (.queue j k p))
    (hpage : pages w (.load τ buf) = Function.update w.page b pg)
    (howed : pg.owed = j.owes (w.cleaner τ)) (hb : ∀ i ≠ k, (w.s.e i).buf ≠ some b) : WInv w' := by
  obtain ⟨hs, hpages, hbegins⟩ := watch_some hstep
  obtain ⟨hloaded, hloading⟩ := Bool.or_eq_false_iff.mp hno
  have hek : w'.s.e k = { w.s.e k with buf := some b, loading := true } := by
    rw [he, Function.update_self]
  have hqueue : w'.s.tasks.get τ = some (.queue j k p) := by rw [htasks, Heap.get_set_self]
  rw [hpage] at hpages
  -- nobody else is about to queue a read for the entry, as it is not being loaded
  have hnobody : ¬Queued w.s k := by
    rintro ⟨τ', j', p', hpc'⟩
    have hneeds := (h.inv.entry k).tasks τ' _ hpc' rfl
    exact absurd (hloading.symm.trans hneeds.2.2.1) Bool.false_ne_true
  refine h.next hok hstep (some k) (fun i hi => .inl ?_) (fun i hi => ?_) ?_
  · have hik : i ≠ k := fun heq => hi (heq ▸ rfl)
    refine ⟨?_, ?_, fun b' hb' => ?_⟩
    · rw [he, Function.update_of_ne hik]
    · refine @queued_congr _ _ _ τ (fun τ' hne => ?_) (fun j' p' hpc' => ?_) fun j' p' hpc' => ?_
      · rw [htasks, Heap.get_set_ne hne]
      · cases hpc.symm.trans hpc'
      · cases hqueue.symm.trans hpc'
        exact hik rfl
    · rw [hpages, Function.update_of_ne]
      exact fun heq => hb i hik (heq ▸ hb')
  · cases hi
    refine ⟨fun hl => ?_, fun _ _ hq => absurd ⟨τ, j, p, hqueue⟩ hq, ?_,
      fun hq => absurd hq hnobody, fun c hst => ?_⟩
    · rw [hek] at hl
      exact absurd (hloaded.symm.trans hl) Bool.false_ne_true
    · rw [hek]
    · exact absurd (hno.symm.trans hst.1) Bool.false_ne_true
  · intro τ' pc ht hpc' hsteady
    cases Option.some.inj ht
    cases hqueue.symm.trans hpc'
    have hf := h.follows τ _ hpc
    obtain ⟨s', -, rfl⟩ := Option.map_eq_some_iff.mp hstep
    refine ⟨?_, fun bn hj _ => ⟨b, congrArg Entry.buf hek, ?_⟩⟩
    · cases j with
      | main bn => exact hf
      | ahead bn i n =>
        have hi : 0 < (w.s.e i).ref :=
          h.inv.claimed hpc (by rw [claim, one_self]; exact Nat.one_pos)
        exact Later.steady (hsteady i hi) rfl rfl (congrFun (begins_ahead buf hpc) τ) hf
    · rw [hpages, Function.update_self, howed, hj]
      rfl

theorem load_winv {buf : Option Nat} (h : WInv w) (hok : Careful w.s (.load τ buf))
    (hstep : watch nslots w (.load τ buf, c) = some w') : WInv w' := by
  obtain ⟨hs, -, -⟩ := watch_some hstep
  change loadDiskBlock w.s τ buf = some w'.s at hs
  unfold loadDiskBlock at hs
  split at hs
  · rename_i j k p hpc
    split at hs
    · rename_i hload
      have heq := Option.some.inj hs
      refine h.moves hok hstep (.of_core fun i => ?_) (fun i => ?_)
        (pages_loadeding buf hpc hload) ?_
      · rw [← heq, (loaded_other w.s τ j k p true).1]
      · refine @queued_congr _ _ _ τ (fun τ' hne => ?_) (fun j' p' hpc' => ?_) fun j' p' => ?_
        · rw [← heq]
          exact loaded_get_ne w.s hne j k p true
        · cases hpc.symm.trans hpc'
        · rw [← heq]
          exact loaded_not_queue j' i p'
      · intro τ' pc ht hpc' hsteady
        cases Option.some.inj ht
        rw [← heq] at hpc'
        have hf := h.follows τ _ hpc
        have hk : 0 < (w.s.e k).ref → (w'.s.e k).bn = (w.s.e k).bn := fun hr => (hsteady k hr).bn
        have hneeds := (h.inv.entry k).tasks τ _ hpc rfl
        obtain ⟨s', -, rfl⟩ := Option.map_eq_some_iff.mp hstep
        refine loaded_follows ?_ ?_ hpc'
        · rintro ⟨bn, rfl⟩ -
          refine ⟨?_, fun hb => ?_⟩
          · refine (hk (h.inv.claimed hpc ?_)).trans (hneeds.1.trans hf)
            rw [claim, one_self]
            exact Nat.one_pos
          · -- the load has been begun by another call
            have hbegan : begins w (.load τ buf) τ = false := by
              rw [begins_main buf hpc, hload, Bool.not_true]
            exact absurd (hbegan.symm.trans hb) Bool.false_ne_true
        · rintro bn i n rfl
          have hi : 0 < (w.s.e i).ref :=
            h.inv.claimed hpc (by rw [claim, one_self]; exact Nat.one_pos)
          exact Later.steady (hsteady i hi) rfl rfl (congrFun (begins_ahead buf hpc) τ) hf
    · rename_i hno
      rw [Bool.not_eq_true] at hno
      split at hs
      · rename_i b hb
        have heq := Option.some.inj hs
        refine h.startLoad hok hstep hpc hno ?_ ?_ (pages_reuse _ hpc hno hb) rfl fun i hik hib =>
          hik (h.inv.inj i k b hib hb)
        · rw [← heq, ← hb]
          rfl
        · rw [← heq]
          rfl
      · rename_i b hb
        obtain ⟨hfresh, hs⟩ := of_guard hs
        have heq := Option.some.inj hs
        refine h.startLoad hok hstep hpc hno ?_ ?_ (pages_alloc b hpc hno hb) rfl
          fun i _ hib => hfresh ((h.inv.entry i).live b hib)
        · rw [← heq]
          rfl
        · rw [← heq]
          rfl
      · rename_i hb
        exact absurd ⟨rfl, j, k, p, hpc, hno, hb⟩ hok.2.2.2.1
  · cases hs

/-- The read has been queued, or not; the task goes on. -/
theorem WInv.endLoad {j : Job} {p ok : Bool} {s₁ : State} (h : WInv w)
    (hok : Careful w.s (.queue τ)) (hstep : watch nslots w (.queue τ, c) = some w')
    (hpc : w.s.tasks.get τ = some (.queue j k p)) (htasks : s₁.tasks = w.s.tasks)
    (hs' : w'.s = loaded s₁ τ j k p ok) (he : ∀ i, i ≠ k → s₁.e i = w.s.e i)
    (hbn : (s₁.e k).bn = (w.s.e k).bn) (hbuf : (s₁.e k).buf = (w.s.e k).buf)
    (hloaded : (s₁.e k).loaded = false)
    (hover : (s₁.e k).loading = true → (s₁.e k).fetchStatus = .again)
    (hload : ok = true → (s₁.e k).loading = true) : WInv w' := by
  have hk := h.inv.entry k
  have he' : w'.s.e = s₁.e := by rw [hs', (loaded_other s₁ τ j k p ok).1]
  have howes : ∀ c, Owes w k c → Owes w' k c := by
    rintro c ⟨b, hb, howed⟩
    refine ⟨b, ?_, ?_⟩
    · rw [he', hbuf, hb]
    · rwa [(watch_some hstep).2.1]
  have hneeds := hk.tasks τ _ hpc rfl
  refine h.next hok hstep (some k) (fun i hi => .inl ?_) (fun i hi => ?_) ?_
  · have hik : i ≠ k := fun heq => hi (heq ▸ rfl)
    refine ⟨?_, ?_, fun b _ => congrFun (watch_some hstep).2.1 b⟩
    · rw [he', he i hik]
    · refine @queued_congr _ _ _ τ (fun τ' hne => ?_) (fun j' p' hpc' => ?_) fun j' p' => ?_
      · rw [hs', loaded_get_ne s₁ hne, htasks]
      · cases hpc.symm.trans hpc'
        exact hik rfl
      · rw [hs']
        exact loaded_not_queue j' i p'
  · cases hi
    refine ⟨fun hl => ?_, fun hl hst _ => ?_, ?_, fun _ c hc => howes c hc, fun c hst => ?_⟩
    · rw [he', hloaded] at hl
      cases hl
    · rw [he'] at hl hst
      exact absurd (hover hl) hst
    · rw [he', hbn]
    · exact absurd ⟨τ, j, p, hpc⟩ hst.2.1
  · intro τ' pc ht hpc' hsteady
    cases Option.some.inj ht
    have hf := h.follows τ _ hpc
    have hgone : ¬Queued w'.s k := by
      have hsum : w'.s.tasks.sum (queuing k) = 0 := by
        have hbusy := hk.busy
        rw [hs']
        exact loaded_queuing ok (by rw [htasks, hpc]) (by rw [htasks]; omega)
      rintro ⟨τ', j', p', hpc'⟩
      have hone := Heap.sum_eq_zero.mp hsum τ' _ hpc'
      rw [queuing, one_self] at hone
      cases hone
    rw [hs'] at hpc'
    refine loaded_follows ?_ ?_ hpc'
    · rintro ⟨bn, rfl⟩ hok'
      obtain ⟨s', -, rfl⟩ := Option.map_eq_some_iff.mp hstep
      refine ⟨?_, fun hb => ⟨?_, hgone, howes _ (hf.2 bn rfl hb)⟩⟩
      · rw [he', hbn]
        exact hneeds.1.trans hf.1
      · rw [he', Entry.loadeding, hload hok', Bool.or_true]
    · rintro bn i n rfl
      have hi : 0 < (w.s.e i).ref := h.inv.claimed hpc (by rw [claim, one_self]; exact Nat.one_pos)
      obtain ⟨s', -, rfl⟩ := Option.map_eq_some_iff.mp hstep
      exact Later.steady (hsteady i hi) rfl rfl rfl hf.1

theorem queue_winv (h : WInv w) (hok : Careful w.s (.queue τ))
    (hstep : watch nslots w (.queue τ, c) = some w') :
    WInv w' := by
  obtain ⟨hs, -, -⟩ := watch_some hstep
  change queueRead nslots w.s τ = some w'.s at hs
  unfold queueRead at hs
  split at hs
  · rename_i j k p hpc
    obtain ⟨-, -, hloading, hloaded, -⟩ := (h.inv.entry k).tasks τ _ hpc rfl
    split at hs
    · refine h.endLoad hok hstep hpc ?_ (Option.some.inj hs).symm (fun i hi => modify_ne _ _ hi) ?_
        ?_ ?_ ?_ nofun
      · rfl
      · rw [modify_self]
      · rw [modify_self]
      · rw [modify_self]
        exact hloaded
      · rw [modify_self]
        exact nofun
    · rename_i q _
      obtain ⟨b, hb, hs⟩ := Option.bind_eq_some_iff.mp hs
      have hek : (issue w.s q ⟨k, b, j.block, false⟩).e k =
          { w.s.e k with fetchStatus := .again } := issue_self ..
      refine h.endLoad hok hstep hpc ?_ (Option.some.inj hs).symm (fun i hi => modify_ne _ _ hi) ?_
        ?_ ?_ ?_ fun _ => ?_
      · rfl
      · rw [hek]
      · rw [hek]
      · rw [hek]
        exact hloaded
      · rw [hek]
        exact fun _ => rfl
      · rw [hek]
        exact hloading
  · cases hs

/-! ### Returning -/

/-- `finish_load` writes one entry: its flags, not its block or its page. -/
theorem finishLoad_entry (h : finishLoad s k = some s') : (∀ i, i ≠ k → s'.e i = s.e i) ∧
    (s'.e k).bn = (s.e k).bn ∧ (s'.e k).buf = (s.e k).buf ∧ (s'.e k).loaded = (s.e k).loadeding ∧
    (s'.e k).loading = false := by
  unfold finishLoad at h
  split at h
  · rename_i hloading
    have hload : (s.e k).loadeding = true := by rw [Entry.loadeding, hloading, Bool.or_true]
    dsimp only at h
    split at h
    · obtain ⟨s₁, h₁, h⟩ := Option.bind_eq_some_iff.mp h
      obtain ⟨-, rfl⟩ := unlink_some h₁
      cases Option.some.inj h
      refine ⟨fun i hi => ?_, ?_⟩
      · have hfirst : (s.modify k fun x => { x with loading := false, loaded := true }).e i =
            s.e i := modify_ne _ _ hi
        exact (modify_ne _ _ hi).trans hfirst
      have hfirst : (s.modify k fun x => { x with loading := false, loaded := true }).e k =
          { s.e k with loading := false, loaded := true } := modify_self ..
      rw [modify_self, hload]
      have hbn := congrArg Entry.bn hfirst
      have hbuf := congrArg Entry.buf hfirst
      have hloaded := congrArg Entry.loaded hfirst
      have hloading := congrArg Entry.loading hfirst
      exact ⟨hbn, hbuf, hloaded, hloading⟩
    · cases Option.some.inj h
      refine ⟨fun i hi => modify_ne _ _ hi, ?_⟩
      rw [modify_self, hload]
      exact ⟨rfl, rfl, rfl, rfl⟩
  · rename_i hloading
    rw [Bool.not_eq_true] at hloading
    cases Option.some.inj h
    exact ⟨fun _ _ => rfl, rfl, rfl, by rw [Entry.loadeding, hloading, Bool.or_false], hloading⟩

/-- Task `τ` has returned entry `k` with buffer `b`. -/
structure Finished (w w' : Watch) (τ k b : Nat) : Prop where
  wait : w.s.tasks.get τ = some (.wait k)
  hold : w'.s.tasks = w.s.tasks.set τ (.hold k)
  other : ∀ i, i ≠ k → w'.s.e i = w.s.e i
  bn : (w'.s.e k).bn = (w.s.e k).bn
  had : (w.s.e k).buf = some b
  buf : (w'.s.e k).buf = some b
  loadeding : (w.s.e k).loadeding = true
  loaded : (w'.s.e k).loaded = true
  loading : (w'.s.e k).loading = false
  queued : ¬Queued w.s k
  filled : (w.page b).filled = some (w.s.e k).bn
  page : w'.page = Function.update w.page b { w.page b with
    returned := true, cleaned := (w.page b).cleaned || (w.cleaner τ && (w.s.e k).loading) }

/-- What the step that returns an entry does. -/
theorem WInv.finished (h : WInv w) (hok : Careful w.s (.finish τ))
    (hstep : watch nslots w (.finish τ, c) = some w') : ∃ k b, Finished w w' τ k b := by
  obtain ⟨hs, hpages, -⟩ := watch_some hstep
  change finish w.s τ = some w'.s at hs
  unfold finish at hs
  split at hs
  · rename_i k hpc
    obtain ⟨hst, hs⟩ := of_guard hs
    obtain ⟨s₁, h₁, hs⟩ := Option.bind_eq_some_iff.mp hs
    have heq : s₁.goto τ (.hold k) = w'.s := Option.some.inj hs
    have hload : (w.s.e k).loadeding = true := by
      by_contra hno
      exact hok.2.2.1 ⟨k, hpc, .inl (Bool.not_eq_true _ ▸ hno)⟩
    have hq : ¬Queued w.s k := fun hq => hok.2.2.1 ⟨k, hpc, .inr hq⟩
    have hfilled : ∃ b, (w.s.e k).buf = some b ∧ (w.page b).filled = some (w.s.e k).bn := by
      rcases Bool.or_eq_true_iff.mp hload with hloaded | hloading
      · obtain ⟨b, hb, hfilled, -⟩ := h.done k hloaded
        exact ⟨b, hb, hfilled⟩
      · exact h.read k hloading hst hq
    obtain ⟨b, hb, hfilled⟩ := hfilled
    obtain ⟨hother, hbn, hbuf, hloaded, hloading⟩ := finishLoad_entry h₁
    refine ⟨k, b, hpc, ?_, ?_, ?_, hb, ?_, hload, ?_, ?_, hq, hfilled, ?_⟩
    · rw [← heq, ← tasks_finishLoad h₁]
      rfl
    · rw [← heq]
      exact hother
    · rw [← heq]
      exact hbn
    · rw [← heq, ← hb]
      exact hbuf
    · rw [← heq, ← hload]
      exact hloaded
    · rw [← heq]
      exact hloading
    · rw [hpages]
      unfold pages
      dsimp only
      rw [hpc]
      dsimp only
      rw [hb]
  · cases hs

theorem finish_winv (h : WInv w) (hok : Careful w.s (.finish τ))
    (hclean : ¬LeavesUnclean w (.finish τ)) (hstep : watch nslots w (.finish τ, c) = some w') :
    WInv w' := by
  obtain ⟨k, b, hf⟩ := h.finished hok hstep
  have hhold : w'.s.tasks.get τ = some (.hold k) := by rw [hf.hold, Heap.get_set_self]
  have hqueued : ∀ i, Queued w'.s i ↔ Queued w.s i := by
    intro i
    refine @queued_congr _ _ _ τ (fun τ' hne => ?_) (fun j p hpc => ?_) fun j p hpc => ?_
    · rw [hf.hold, Heap.get_set_ne hne]
    · cases hf.wait.symm.trans hpc
    · cases hhold.symm.trans hpc
  have hpage : w'.page b = { w.page b with
      returned := true, cleaned := (w.page b).cleaned || (w.cleaner τ && (w.s.e k).loading) } := by
    rw [hf.page, Function.update_self]
  -- what the buffer is owed it has got, from this call or from the one that has completed the load
  have howed : (w.page b).owed = true → (w'.page b).cleaned = true := by
    intro howed
    rw [hpage]
    rcases Bool.or_eq_true_iff.mp hf.loadeding with hloaded | hloading
    · obtain ⟨b', hb', -, -, hcleaned⟩ := h.done k hloaded
      cases hf.had.symm.trans hb'
      rw [hcleaned howed, Bool.true_or]
    · have hc : w.cleaner τ = true := by
        by_contra hc
        exact hclean ⟨k, b, hf.wait, hloading, hf.had, howed, Bool.not_eq_true _ ▸ hc⟩
      rw [hc, hloading, Bool.and_true, Bool.or_true]
  refine h.next hok hstep (some k) (fun i hi => .inl ?_) (fun i hi => ?_) ?_
  · have hik : i ≠ k := fun heq => hi (heq ▸ rfl)
    refine ⟨by rw [hf.other i hik], hqueued i, fun b' hb' => ?_⟩
    rw [hf.page, Function.update_of_ne]
    rintro rfl
    exact hik (h.inv.inj i k b' hb' hf.had)
  · cases hi
    refine ⟨fun _ => ⟨b, hf.buf, ?_, ?_, fun ho => howed ?_⟩, fun hl => ?_, hf.bn, ?_, ?_⟩
    · rw [hpage, hf.bn]
      exact hf.filled
    · rw [hpage]
    · rwa [hpage] at ho
    · exact absurd (hf.loading.symm.trans hl) Bool.false_ne_true
    · exact fun hq => absurd hq hf.queued
    · rintro c ⟨-, hq, b', hb', ho⟩
      cases hf.had.symm.trans hb'
      refine ⟨?_, (hqueued k).not.mpr hq, b, hf.buf, ?_⟩
      · rw [Entry.loadeding, hf.loaded, Bool.true_or]
      · rw [hpage]
        exact ho
  · intro τ' pc ht hpc _
    cases Option.some.inj ht
    cases hhold.symm.trans hpc
    trivial

/-! ### The disk and `sync` -/

theorem acknowledge_winv {q : Nat} {failed : Bool} (h : WInv w)
    (hok : Careful w.s (.acknowledge q failed)) (hread : ¬ReadFails w.s (.acknowledge q failed))
    (hstep : watch nslots w (.acknowledge q failed, c) = some w') :
    WInv w' := by
  obtain ⟨hs, hpages, -⟩ := watch_some hstep
  obtain ⟨cmd, hq, hs⟩ := Option.bind_eq_some_iff.mp hs
  have heq := Option.some.inj hs
  obtain ⟨hagain, hneeds⟩ := (h.inv.entry cmd.entry).cmds q cmd hq rfl
  have hself : w'.s.e cmd.entry =
      { w.s.e cmd.entry with fetchStatus := if failed then .io else .done } := by
    rw [← heq, modify_self]
  have hne : ∀ i, i ≠ cmd.entry → w'.s.e i = w.s.e i := by
    intro i hi
    rw [← heq, modify_ne _ _ hi]
  have hqueued : ∀ i, Queued w'.s i ↔ Queued w.s i := by
    intro i
    rw [← heq]
    exact Iff.rfl
  -- the page of the read's buffer is the only one that changes
  have hpage : w'.page = w.page ∧ cmd.write = true ∨
      w'.page = Function.update w.page cmd.buf { w.page cmd.buf with filled := some cmd.bn } ∧
      cmd.write = false := by
    rw [hpages]
    unfold pages
    cases hw : cmd.write with
    | true =>
      refine .inl ⟨?_, rfl⟩
      cases failed
      · dsimp only
        rw [hq]
        exact if_pos hw
      · rfl
    | false =>
      refine .inr ⟨?_, rfl⟩
      cases failed
      · dsimp only
        rw [hq]
        exact if_neg (by rw [hw]; exact Bool.false_ne_true)
      · exact absurd ⟨cmd, hq, hw⟩ hread
  have hother : ∀ i b, i ≠ cmd.entry → (w.s.e i).buf = some b → w'.page b = w.page b := by
    intro i b hi hb
    rcases hpage with ⟨hsame, -⟩ | ⟨hset, hw⟩
    · exact congrFun hsame b
    · rw [hw, if_neg Bool.false_ne_true] at hneeds
      rw [hset, Function.update_of_ne]
      rintro rfl
      exact hi (h.inv.inj i _ _ hb hneeds.2.1)
  have howed : ∀ b, (w'.page b).owed = (w.page b).owed := by
    intro b
    rcases hpage with ⟨hsame, -⟩ | ⟨hset, -⟩
    · rw [hsame]
    · rw [hset]
      by_cases hb : b = cmd.buf
      · rw [hb, Function.update_self]
      · rw [Function.update_of_ne hb]
  have howes : ∀ c, Owes w cmd.entry c → Owes w' cmd.entry c := by
    rintro c ⟨b, hb, ho⟩
    refine ⟨b, ?_, (howed b).trans ho⟩
    rw [hself]
    exact hb
  refine h.next hok hstep (some cmd.entry) (fun i hi => .inl ?_) (fun i hi => ?_) nofun
  · have hi' : i ≠ cmd.entry := fun heq => hi (heq ▸ rfl)
    exact ⟨by rw [hne i hi'], hqueued i, fun b hb => hother i b hi' hb⟩
  · cases hi
    refine ⟨fun hloaded => ?_, fun hloading _ _ => ?_, by rw [hself], fun _ c => howes c, ?_⟩
    · rw [hself] at hloaded ⊢
      rcases hpage with ⟨hsame, -⟩ | ⟨-, hw⟩
      · rw [hsame]
        exact h.done _ hloaded
      · rw [hw, if_neg Bool.false_ne_true] at hneeds
        exact absurd (hneeds.2.2.2.symm.trans hloaded) Bool.false_ne_true
    · rw [hself] at hloading ⊢
      rcases hpage with ⟨-, hw⟩ | ⟨hset, hw⟩
      · rw [hw, if_pos rfl] at hneeds
        exact absurd (((h.inv.entry _).flags hloading).symm.trans hneeds.1) Bool.false_ne_true
      · rw [hw, if_neg Bool.false_ne_true] at hneeds
        refine ⟨cmd.buf, hneeds.2.1, ?_⟩
        rw [hset, Function.update_self, hneeds.1]
    · rintro c ⟨hload, hnq, ho⟩
      refine ⟨?_, (hqueued _).not.mpr hnq, howes c ho⟩
      rw [hself]
      exact hload

/-- A task that leaves, or goes to write, with no entry changed but for its references and its being
dirty. -/
theorem WInv.quiet (h : WInv w) (hok : Careful w.s l) (hstep : watch nslots w (l, c) = some w')
    (htask : l.task = some τ) (hpage : pages w l = w.page)
    (hcore : ∀ i, (w'.s.e i).core = (w.s.e i).core)
    (hold : ∀ i j p, w.s.tasks.get τ ≠ some (.queue j i p))
    (hnew : ∀ pc, w'.s.tasks.get τ = some pc → (∃ i, pc = .hold i) ∨ ∃ i, pc = .writing i) :
    WInv w' := by
  obtain ⟨hs, -, -⟩ := watch_some hstep
  refine h.moves hok hstep (.of_core hcore) (fun i => ?_) hpage ?_
  · refine queued_congr (fun τ' hne => ?_) (hold i) fun j p hpc => ?_
    · exact tasks_step (fun ht => hne (Option.some.inj (ht.symm.trans htask))) hs
    · rcases hnew _ hpc with ⟨i', heq⟩ | ⟨i', heq⟩ <;> cases heq
  · intro τ' pc ht hpc _
    cases Option.some.inj (htask.symm.trans ht)
    rcases hnew pc hpc with ⟨i', rfl⟩ | ⟨i', rfl⟩
    · trivial
    · trivial

theorem put_winv (h : WInv w) (hok : Careful w.s (.put τ))
    (hstep : watch nslots w (.put τ, c) = some w') : WInv w' := by
  obtain ⟨hs, -, -⟩ := watch_some hstep
  change putEntry w.s τ = some w'.s at hs
  unfold putEntry at hs
  split at hs
  · rename_i k hpc
    have hold : ∀ i j p, w.s.tasks.get τ ≠ some (.queue j i p) := by
      intro i j p hpc'
      cases hpc.symm.trans hpc'
    split at hs
    · have heq := Option.some.inj hs
      refine h.quiet hok hstep rfl rfl (fun i => ?_) hold fun pc hpc' => ?_
      · have hcore : ((w.s.modify k fun x => { x with ref := decRef x.ref }).e i).core =
            (w.s.e i).core := by
          refine core_modify ?_ i
          exact fun _ => rfl
        rw [← heq]
        exact hcore
      · rw [← heq] at hpc'
        have hnone := (Heap.get_erase_self (h := w.s.tasks) (a := τ)).symm.trans hpc'
        cases hnone
    · have heq := Option.some.inj hs
      refine h.quiet hok hstep rfl rfl (fun i => ?_) hold fun pc hpc' => ?_
      · rw [← heq]
        rfl
      · rw [← heq] at hpc'
        have hnone := (Heap.get_erase_self (h := w.s.tasks) (a := τ)).symm.trans hpc'
        cases hnone
  · cases hs

theorem sully_winv (h : WInv w) (hok : Careful w.s (.sully τ))
    (hstep : watch nslots w (.sully τ, c) = some w') :
    WInv w' := by
  obtain ⟨hs, -, -⟩ := watch_some hstep
  change sully w.s τ = some w'.s at hs
  unfold sully at hs
  split at hs
  · rename_i k hpc
    refine h.quiet hok hstep rfl rfl (core_sullyEntry hs) (fun i j p hpc' => ?_) fun pc hpc' => ?_
    · cases hpc.symm.trans hpc'
    · rw [tasks_sullyEntry hs, hpc] at hpc'
      exact .inl ⟨k, (Option.some.inj hpc').symm⟩
  · cases hs

theorem markClean_winv (h : WInv w) (hok : Careful w.s (.markClean τ))
    (hstep : watch nslots w (.markClean τ, c) = some w') : WInv w' := by
  obtain ⟨hs, -, -⟩ := watch_some hstep
  change markClean w.s τ = some w'.s at hs
  unfold markClean at hs
  split at hs
  · rename_i k hpc
    obtain ⟨-, hs⟩ := of_guard hs
    have heq := Option.some.inj hs
    refine h.quiet hok hstep rfl rfl (fun i => ?_) (fun i j p hpc' => ?_) fun pc hpc' => ?_
    · have hcore : ((w.s.modify k fun x => { x with dirty := false }).e i).core =
          (w.s.e i).core := by
        refine core_modify ?_ i
        exact fun _ => rfl
      rw [← heq]
      exact hcore
    · cases hpc.symm.trans hpc'
    · rw [← heq] at hpc'
      have hnone := (Heap.get_erase_self (h := w.s.tasks) (a := τ)).symm.trans hpc'
      cases hnone
  · cases hs

theorem drop_winv (h : WInv w) (hok : Careful w.s .drop)
    (hstep : watch nslots w (.drop, c) = some w') : WInv w' := by
  obtain ⟨hs, -, -⟩ := watch_some hstep
  refine h.moves hok hstep (fun i => ?_) (fun i => ?_) rfl nofun
  · rcases moves_drop _ hs i with heq | ⟨hr, -, hloaded, hloading⟩
    · exact .inl (congrArg Entry.core heq)
    · exact .inr ⟨hr, hloaded, hloading⟩
  · unfold Queued
    rw [tasks_drop _ hs]

theorem writeBack_winv (h : WInv w) (hok : Careful w.s (.writeBack τ k))
    (hstep : watch nslots w (.writeBack τ k, c) = some w') : WInv w' := by
  obtain ⟨hs, hpages, -⟩ := watch_some hstep
  obtain ⟨hnone, hs⟩ := of_guard hs
  obtain ⟨hdirty, hs⟩ := of_guard hs
  obtain ⟨s₁, h₁, hs⟩ := Option.bind_eq_some_iff.mp hs
  obtain ⟨q, -, hs⟩ := Option.bind_eq_some_iff.mp hs
  obtain ⟨b, -, hs⟩ := Option.bind_eq_some_iff.mp hs
  have heq := Option.some.inj hs
  have hk := h.inv.entry k
  have hloaded : (w.s.e k).loaded = true := hk.dirty (hk.dirtied hdirty)
  have hcore₁ : ∀ i, (s₁.e i).core = (w.s.e i).core := fun i => core_sullyEntry h₁ i
  have hself : w'.s.e k = { s₁.e k with fetchStatus := .again } := by
    rw [← heq]
    exact issue_self s₁ q ⟨k, b, _, true⟩
  have hne : ∀ i, i ≠ k → w'.s.e i = s₁.e i := by
    intro i hi
    rw [← heq]
    exact issue_ne s₁ q (c := ⟨k, b, _, true⟩) hi
  have hwriting : w'.s.tasks.get τ = some (.writing k) := by
    rw [← heq]
    exact Heap.get_set_self
  have hqueued : ∀ i, Queued w'.s i ↔ Queued w.s i := by
    intro i
    refine @queued_congr _ _ _ τ (fun τ' hτ => ?_) (fun j p hpc => ?_) fun j p hpc => ?_
    · refine tasks_step (fun ht => ?_) (watch_some hstep).1
      cases Option.some.inj ht
      exact hτ rfl
    · cases hnone.symm.trans hpc
    · cases hwriting.symm.trans hpc
  have hbn : (w'.s.e k).bn = (w.s.e k).bn := by
    rw [hself]
    exact congrArg Prod.fst (hcore₁ k)
  have hbuf : (w'.s.e k).buf = (w.s.e k).buf := by
    rw [hself]
    exact congrArg (fun c => c.2.2.2.1) (hcore₁ k)
  have hloaded' : (w'.s.e k).loaded = true := by
    rw [hself]
    exact (congrArg (fun c => c.2.1) (hcore₁ k)).trans hloaded
  have hpage : w'.page = w.page := hpages
  have howes : ∀ c, Owes w k c → Owes w' k c := by
    rintro c ⟨b, hb, ho⟩
    exact ⟨b, hbuf.trans hb, by rwa [hpage]⟩
  refine h.next hok hstep (some k) (fun i hi => .inl ?_) (fun i hi => ?_) ?_
  · have hik : i ≠ k := fun heq => hi (heq ▸ rfl)
    exact ⟨by rw [hne i hik, hcore₁], hqueued i, fun b _ => by rw [hpage]⟩
  · cases hi
    refine ⟨fun _ => ?_, fun hloading hst _ => ?_, hbn, fun _ c => howes c,
      fun c hst => ⟨?_, ?_, howes c hst.2.2⟩⟩
    · rw [hbn, hbuf, hpage]
      exact h.done k hloaded
    · exact absurd (by rw [hself]) hst
    · rw [Entry.loadeding, hloaded', Bool.true_or]
    · exact (hqueued k).not.mpr hst.2.1
  · intro τ' pc ht hpc _
    cases Option.some.inj ht
    cases hwriting.symm.trans hpc
    trivial

/-! ### Runs -/

/-- The step lemma: every careful step, by its kind. -/
theorem step_winv {a : Label × Bool} (h : WInv w) (hok : CarefulRead w a)
    (hstep : watch nslots w a = some w') :
    WInv w' := by
  obtain ⟨l, c⟩ := a
  obtain ⟨hok, hread, hclean⟩ := hok
  cases l with
  | get τ bn => exact get_winv h hok hstep
  | resume τ => exact resume_winv h hok hstep
  | load τ buf => exact load_winv h hok hstep
  | queue τ => exact queue_winv h hok hstep
  | prefetch τ => exact prefetch_winv h hok hstep
  | finish τ => exact finish_winv h hok hclean hstep
  | put τ => exact put_winv h hok hstep
  | sully τ => exact sully_winv h hok hstep
  | writeBack τ k => exact writeBack_winv h hok hstep
  | markClean τ => exact markClean_winv h hok hstep
  | drop => exact drop_winv h hok hstep
  | acknowledge q failed => exact acknowledge_winv h hok hread hstep

/-- Nothing is in the cache at boot. -/
theorem boot_winv : WInv bootWatch := by
  refine ⟨boot_inv, fun i hloaded => ?_, fun i hloading => ?_, nofun⟩
  · by_cases hi : i = 0
    · subst hi
      exact ⟨0, rfl, rfl, rfl, nofun⟩
    · change (boot.e i).loaded = true at hloaded
      rw [boot_e hi] at hloaded
      cases hloaded
  · change (boot.e i).loading = true at hloading
    by_cases hi : i = 0
    · subst hi
      cases hloading
    · rw [boot_e hi] at hloading
      cases hloading

/-- **A buffer that is returned is loaded**, in every run whose steps are careful:
`get_disk_entry(bn)` returns an entry for `bn` that is loaded and whose buffer has been filled with
the block; and if the call has passed a cleaner and is the first to return the buffer, or has begun
its read itself, the cleaner has been applied. -/
theorem returned_buffers_loaded (h : (watched nslots).ReachWhen CarefulRead w)
    (hok : CarefulRead w (.finish τ, c))
    (hstep : (watched nslots).step w (.finish τ, c) = some w') :
    ∃ k b, w'.s.tasks.get τ = some (.hold k) ∧ (w'.s.e k).bn = w.want τ ∧ (w'.s.e k).buf = some b ∧
      (w'.s.e k).loaded = true ∧ (w'.page b).filled = some (w.want τ) ∧
      (w.cleaner τ = true → ((w.page b).returned = false ∨ w.began τ = true) →
        (w'.page b).cleaned = true) := by
  have hinv : WInv w := by
    refine h.invariant WInv ?_ ?_
    · rintro w rfl
      exact boot_winv
    · exact fun w a w' hw ha hstep => step_winv hw ha hstep
  obtain ⟨k, b, hf⟩ := hinv.finished hok.1 hstep
  obtain ⟨hwant, hstarted⟩ := hinv.follows τ _ hf.wait
  refine ⟨k, b, ?_, hf.bn.trans hwant, hf.buf, hf.loaded, ?_, fun hcleaner hfirst => ?_⟩
  · rw [hf.hold, Heap.get_set_self]
  · rw [hf.page, Function.update_self, ← hwant]
    exact hf.filled
  · rw [hf.page, Function.update_self]
    show ((w.page b).cleaned || (w.cleaner τ && (w.s.e k).loading)) = true
    rcases Bool.or_eq_true_iff.mp hf.loadeding with hloaded | hloading
    · obtain ⟨b', hb', -, hreturned, hcleaned⟩ := hinv.done k hloaded
      cases hf.had.symm.trans hb'
      rcases hfirst with hfirst | hbegan
      · exact absurd (hfirst.symm.trans hreturned) Bool.false_ne_true
      · obtain ⟨-, -, b', hb', howed⟩ := hstarted hbegan
        cases hf.had.symm.trans hb'
        rw [hcleaned (howed.trans hcleaner), Bool.true_or]
    · rw [hcleaner, hloading, Bool.and_true, Bool.or_true]

/-- The steps of others leave a task where it is. -/
theorem tasks_run : ∀ (l : List (Label × Bool)) {w w' : Watch}, (∀ a ∈ l, a.1.task ≠ some τ) →
    (watched nslots).run w l = some w' → w'.s.tasks.get τ = w.s.tasks.get τ := by
  intro l
  induction l with
  | nil =>
    intro w w' _ h
    rw [Option.some.inj h]
  | cons a l ih =>
    intro w w' hl h
    obtain ⟨w₁, h₁, h⟩ := Option.bind_eq_some_iff.mp h
    have hfirst := tasks_step (hl a (List.mem_cons_self ..)) (watch_some h₁).1
    exact (ih (fun a' ha' => hl a' (List.mem_cons_of_mem _ ha')) h).trans hfirst

/-- The one command slot is taken by the read of block 7, so that the prefetching ends with block 8.
-/
theorem returned_buffers_loaded_seven :
    ∃ w w' : Watch, (watched 1).run bootWatch [(.get 1 7, true), (.load 1 (some 100), false),
      (.queue 1, false), (.prefetch 1, false), (.load 1 (some 101), false), (.queue 1, false),
        (.acknowledge 0 false, false)] = some w ∧ (watched 1).step w (.finish 1, false) = some w' ∧
    ∃ k b, w'.s.tasks.get 1 = some (.hold k) ∧ (w'.s.e k).bn = 7 ∧ (w'.s.e k).buf = some b ∧
      (w'.s.e k).loaded = true ∧ (w'.page b).filled = some 7 ∧ (w'.page b).cleaned = true := by
  have hget : CarefulRead bootWatch (.get 1 7, true) := by
    refine ⟨⟨id, ?_, id, id, ?_⟩, id, id⟩
    · rintro ⟨-, hfree, -⟩
      rw [show findFree bootWatch.s.e (List.range ne) = .slot 1 from rfl] at hfree
      cases hfree
    · rintro ⟨-, k, hfind, -⟩
      cases hfind
  have hrun : ∃ w w' : Watch, (watched 1).ReachWhen CarefulRead w ∧
      (watched 1).run bootWatch
      [(.get 1 7, true), (.load 1 (some 100), false), (.queue 1, false), (.prefetch 1, false),
      (.load 1 (some 101), false), (.queue 1, false), (.acknowledge 0 false, false)] = some w ∧
      (watched 1).step w (.finish 1, false) = some w' ∧ w.s.tasks.get 1 = some (.wait 1) ∧
      (w.s.e 1).loadeding = true ∧ w.want 1 = 7 ∧ w.cleaner 1 = true ∧ w.began 1 = true := by
    refine ⟨_, _, .step (a := (.acknowledge 0 false, false)) (.step (a := (.queue 1, false))
      (.step (a := (.load 1 (some 101), false))
        (.step (a := (.prefetch 1, false)) (.step (a := (.queue 1, false))
        (.step (a := (.load 1 (some 100), false))
          (.step (a := (.get 1 7, true)) (.init rfl) hget rfl) ?_ rfl) ?_ rfl) ?_ rfl)
          ?_ rfl) ?_ rfl) ?_ rfl, rfl, rfl, rfl, rfl, rfl, rfl, rfl⟩
    · exact ⟨⟨id, id, id, nofun, id⟩, id, id⟩
    · exact ⟨⟨id, id, id, id, id⟩, id, id⟩
    · refine ⟨⟨id, ?_, id, id, id⟩, id, id⟩
      rintro ⟨bn, i, n, -, -, -, hfree, -⟩
      cases hfree
    · exact ⟨⟨id, id, id, nofun, id⟩, id, id⟩
    · exact ⟨⟨id, id, id, id, id⟩, id, id⟩
    · exact ⟨⟨id, id, id, id, id⟩, id, id⟩
  obtain ⟨w, w', hreach, hrun, hstep, hwait, hload, hwant, hcleaner, hbegan⟩ := hrun
  have hfinish : CarefulRead w (.finish 1, false) := by
    refine ⟨⟨id, id, ?_, id, id⟩, id, ?_⟩
    · rintro ⟨k, hpc, hno | ⟨τ', j, p, hpc'⟩⟩
      · cases hwait.symm.trans hpc
        exact absurd (hno.symm.trans hload) Bool.false_ne_true
      · by_cases hτ : τ' = 1
        · subst hτ
          cases hwait.symm.trans hpc'
        · have hone : some 1 ≠ some τ' := fun heq => hτ (Option.some.inj heq).symm
          have hnone := tasks_run _ (by
            simp only [List.forall_mem_cons]
            exact ⟨hone, hone, hone, hone, hone, hone, nofun, nofun⟩) hrun
          cases hnone.symm.trans hpc'
    · rintro ⟨k, b, -, -, -, -, hc⟩
      exact absurd (hc.symm.trans hcleaner) Bool.false_ne_true
  obtain ⟨k, b, hhold, hbn, hbuf, hloaded, hfilled, hcleaned⟩ :=
    returned_buffers_loaded hreach hfinish hstep
  rw [hwant] at hbn hfilled
  exact ⟨w, w', hrun, hstep, k, b, hhold, hbn, hbuf, hloaded, hfilled,
    hcleaned hcleaner (.inr hbegan)⟩

/-- Task 1 has set `f_loading` for block 7 and not queued the read, whose status is still 0, when
task 2 finds the entry. -/
theorem returned_before_read :
    ¬ ∀ (nslots : Nat) (w w' : Watch) (τ : Nat) (c : Bool), (watched nslots).Reach w →
    (watched nslots).step w (.finish τ, c) = some w' → ∃ k b, w'.s.tasks.get τ = some (.hold k) ∧
      (w'.s.e k).bn = w.want τ ∧ (w'.s.e k).buf = some b ∧ (w'.s.e k).loaded = true ∧
      (w'.page b).filled = some (w.want τ) ∧
      (w.cleaner τ = true → (w.page b).returned = false → (w'.page b).cleaned = true) := by
  intro h
  have hrun : ∃ w w' : Watch, (watched 32).Reach w ∧ (watched 32).step w (.finish 2, false) =
      some w' ∧ w'.s.tasks.get 2 = some (.hold 1) ∧ (w'.s.e 1).buf = some 100 ∧
      (w'.page 100).filled = none :=
    ⟨_, _, Transition.Machine.Reach.run
      (l := [(.get 1 7, false), (.load 1 (some 100), false), (.get 2 7, false),
      (.load 2 none, false)]) (Transition.Machine.Reach.init rfl) rfl, rfl, rfl, rfl, rfl⟩
  obtain ⟨w, w', hw, hstep, hhold, hbuf, hpage⟩ := hrun
  obtain ⟨k, b, hk, -, hb, -, hfilled, -⟩ := h 32 w w' 2 false hw hstep
  cases hk.symm.trans hhold
  cases hb.symm.trans hbuf
  cases hpage.symm.trans hfilled

end BufCache
end PugOS
