import PugOS.BufCacheSlot

/-! # Buffers under outstanding commands

What keeps the buffer of a queued read alive: an entry that is being loaded is referenced or
in the prefetch list, and an entry in the prefetch list is not evicted while its status is
`E_AGAIN`.  `Inv` says so entry by entry.  Five kinds of step break it, each with a predicate
of its own: `sync(true)` drops an entry that is dirty or being loaded; an eviction takes an
entry between the section that gave it its block and the queueing of its read; a task
returns an entry whose read has not been queued; `kalloc` fails in `load_disk_block`; the
count of an entry goes from its largest value to 0.
-/
namespace PugOS
namespace BufCache
open Heap (one one_self one_ne one_le)

variable {s s' : State} {k i τ : Nat} {x : Option Nat} {pc pc' : Pc}

/-- The references to entry `k` that a task in `get_disk_entry`, or back from it, has. -/
def claim (k : Nat) : Pc → Nat
  | .flush (.main _) => 0
  | .flush (.ahead _ i _) => one k i
  | .load (.main _) i _ => one k i
  | .load (.ahead _ i _) _ _ => one k i
  | .queue (.main _) i _ => one k i
  | .queue (.ahead _ i _) _ _ => one k i
  | .next _ i _ => one k i
  | .wait i => one k i
  | .hold i => one k i
  | .writing _ => 0

/-- The task is about to queue a read for entry `k`. -/
def queuing (k : Nat) : Pc → Nat
  | .queue _ i _ => one k i
  | _ => 0

/-- The task waits for a write of entry `k`. -/
def writingTo (k : Nat) : Pc → Nat
  | .writing i => one k i
  | _ => 0

/-- The command is for entry `k`. -/
def onEntry (k : Nat) (c : Cmd) : Nat := one k c.entry

/-- The command writes entry `k`. -/
def writeOn (k : Nat) (c : Cmd) : Nat := if c.write then one k c.entry else 0

/-- The entry a task relies on. -/
def Pc.target : Pc → Option Nat
  | .load _ k _ => some k
  | .queue _ k _ => some k
  | .hold k => some k
  | .writing k => some k
  | _ => none

/-- What it relies on. -/
def Pc.needs (e : Entry) (linked : Bool) : Pc → Prop
  | .load j _ _ => e.bn = j.block ∧ linked = true
  | .queue j _ _ =>
    e.bn = j.block ∧ linked = true ∧ e.loading = true ∧ e.loaded = false ∧ e.buf ≠ none
  | .hold _ => e.loaded = true
  | .writing _ => e.dirty = true
  | _ => True

/-- What an outstanding command relies on. -/
def Cmd.needs (e : Entry) (c : Cmd) : Prop :=
  e.fetchStatus = .again ∧
    if c.write then e.loaded = true ∧ e.dirty = true
    else e.bn = c.bn ∧ e.buf = some c.buf ∧ e.loading = true ∧ e.loaded = false

/-- Entry `k` is in order; `x` is an entry that has just been given a slot and is neither
referenced nor in the prefetch list yet. -/
structure EntryOk (x : Option Nat) (s : State) (k : Nat) : Prop where
  live : ∀ b, (s.e k).buf = some b → b ∈ s.live
  empty : (s.e k).bn = emptyblock → s.linked k = false → (s.e k).ref = 0 ∧ (s.e k).buf = none ∧
    (s.e k).loaded = false ∧ (s.e k).loading = false ∧ (s.e k).dirty = false
  once : s.eList.count k + s.prefList.count k ≤ 1
  flags : (s.e k).loading = true → (s.e k).loaded = false
  dirty : (s.e k).dirty = true → (s.e k).loaded = true
  idle : x ≠ some k → k ∈ s.eList → (s.e k).ref = 0 → (s.e k).loaded = true
  dirtied : k ∈ s.dirtyList → (s.e k).dirty = true
  claims : k ≠ 0 → s.tasks.sum (claim k) ≤ (s.e k).ref
  busy : s.tasks.sum (queuing k) + s.cmds.sum (onEntry k) ≤ 1
  writers : s.dirtyList.count k + s.tasks.sum (writingTo k) ≤ 1
  writes : s.cmds.sum (writeOn k) ≤ s.tasks.sum (writingTo k)
  tasks : ∀ τ pc, s.tasks.get τ = some pc → pc.target = some k → pc.needs (s.e k) (s.linked k)
  cmds : ∀ q c, s.cmds.get q = some c → c.entry = k → c.needs (s.e k)

structure Inv (x : Option Nat) (s : State) : Prop where
  entry : ∀ k, EntryOk x s k
  inj : ∀ i j b, (s.e i).buf = some b → (s.e j).buf = some b → i = j
  super : (s.e 0).bn = 0 ∧ 0 < (s.e 0).ref
  super_only : ∀ k, (s.e k).bn = 0 → k = 0
  flushes : ∀ τ j, s.tasks.get τ = some (.flush j) → j.block ≠ 0

/-! ### Entries that nobody uses -/

theorem EntryOk.no_cmd (h : EntryOk x s k) (hidle : (s.e k).loading = false)
    (hclean : (s.e k).dirty = false) {q : Nat} {c : Cmd} (hq : s.cmds.get q = some c) :
    c.entry ≠ k := by
  intro hc
  obtain ⟨-, hneeds⟩ := h.cmds q c hq hc
  split at hneeds
  · rw [hclean] at hneeds
    exact absurd hneeds.2 (by simp)
  · rw [hidle] at hneeds
    exact absurd hneeds.2.2.1 (by simp)

theorem EntryOk.no_cmd_status (h : EntryOk x s k) (hst : (s.e k).fetchStatus ≠ .again) {q : Nat}
    {c : Cmd} (hq : s.cmds.get q = some c) : c.entry ≠ k :=
  fun hc => hst (h.cmds q c hq hc).1

theorem cmds_zero (h : ∀ q c, s.cmds.get q = some c → c.entry ≠ k) : s.cmds.sum (onEntry k) = 0 :=
  Heap.sum_eq_zero.mpr fun q c hq => one_ne (h q c hq)

theorem writeOn_le (c : Cmd) : writeOn k c ≤ onEntry k c := by
  unfold writeOn onEntry
  split
  · exact Nat.le_refl _
  · exact Nat.zero_le _

theorem writes_zero (h : ∀ q c, s.cmds.get q = some c → c.entry ≠ k) : s.cmds.sum (writeOn k) = 0 :=
  Heap.sum_eq_zero.mpr fun q c hq => Nat.le_zero.mp ((writeOn_le c).trans (one_ne (h q c hq)).le)

theorem EntryOk.queuing_zero (h : EntryOk x s k) (hidle : (s.e k).loading = false) :
    s.tasks.sum (queuing k) = 0 := by
  refine Heap.sum_eq_zero.mpr fun τ pc hpc => ?_
  cases pc with
  | queue j i prefetching =>
    refine one_ne fun hi => ?_
    subst hi
    have := (h.tasks τ _ hpc rfl).2.2.1
    rw [hidle] at this
    cases this
  | _ => rfl

theorem EntryOk.writing_zero (h : EntryOk x s k) (hclean : (s.e k).dirty = false) :
    s.tasks.sum (writingTo k) = 0 := by
  refine Heap.sum_eq_zero.mpr fun τ pc hpc => ?_
  cases pc with
  | writing i =>
    refine one_ne fun hi => ?_
    subst hi
    have := h.tasks τ _ hpc rfl
    rw [Pc.needs, hclean] at this
    cases this
  | _ => rfl

theorem EntryOk.not_dirtied (h : EntryOk x s k) (hclean : (s.e k).dirty = false) :
    k ∉ s.dirtyList := by
  intro hk
  have := h.dirtied hk
  rw [hclean] at this
  cases this

theorem linked_iff : s.linked k = true ↔ 0 < s.eList.count k + s.prefList.count k := by
  unfold State.linked
  rw [decide_eq_true_iff, ← List.count_pos_iff, ← List.count_pos_iff]
  omega

theorem linked_congr (hE : s'.eList.count k = s.eList.count k)
    (hP : s'.prefList.count k = s.prefList.count k) : s'.linked k = s.linked k := by
  rw [Bool.eq_iff_iff, linked_iff, linked_iff, hE, hP]

/-- An entry that a step does not touch stays in order. -/
theorem EntryOk.frame {y : Option Nat} (h : EntryOk x s i) (he : s'.e i = s.e i)
    (hE : s'.eList.count i = s.eList.count i) (hP : s'.prefList.count i = s.prefList.count i)
    (hD : s'.dirtyList = s.dirtyList) (hT : s'.tasks = s.tasks) (hC : s'.cmds = s.cmds)
    (hlive : ∀ b, (s.e i).buf = some b → b ∈ s'.live) (hxy : y ≠ some i → x ≠ some i) :
    EntryOk y s' i := by
  have hlinked := linked_congr hE hP
  constructor
  case live => exact he ▸ hlive
  case empty =>
    rw [he, hlinked]
    exact h.empty
  case once =>
    rw [hE, hP]
    exact h.once
  case flags => exact he ▸ h.flags
  case dirty => exact he ▸ h.dirty
  case idle =>
    rw [he]
    intro hy hmem
    refine h.idle (hxy hy) ?_
    rw [← List.count_pos_iff, ← hE]
    exact List.count_pos_iff.mpr hmem
  case dirtied => exact he ▸ hD ▸ h.dirtied
  case claims => exact he ▸ hT ▸ h.claims
  case busy => exact hT ▸ hC ▸ h.busy
  case writers => exact hD ▸ hT ▸ h.writers
  case writes => exact hC ▸ hT ▸ h.writes
  case tasks =>
    rw [he, hlinked, hT]
    exact h.tasks
  case cmds =>
    rw [he, hC]
    exact h.cmds

/-! ### Changing a task -/

/-- The tasks change, and every task that is new has what it needs. -/
theorem Inv.retask {tasks' : Heap Pc} (h : Inv x s)
    (hget : ∀ τ p, tasks'.get τ = some p → s.tasks.get τ = some p ∨
      ((∀ k, p.target = some k → p.needs (s.e k) (s.linked k)) ∧ ∀ j, p = .flush j → j.block ≠ 0))
    (hclaim : ∀ k ≠ 0, tasks'.sum (claim k) ≤ (s.e k).ref)
    (hbusy : ∀ k, tasks'.sum (queuing k) + s.cmds.sum (onEntry k) ≤ 1)
    (hwriters : ∀ k, s.dirtyList.count k + tasks'.sum (writingTo k) ≤ 1)
    (hwrites : ∀ k, s.cmds.sum (writeOn k) ≤ tasks'.sum (writingTo k)) :
    Inv x { s with tasks := tasks' } := by
  refine ⟨?_, h.inj, h.super, h.super_only, ?_⟩
  · intro k
    have hk := h.entry k
    refine ⟨hk.live, hk.empty, hk.once, hk.flags, hk.dirty, hk.idle, hk.dirtied, hclaim k, hbusy k,
      hwriters k, hwrites k, ?_, hk.cmds⟩
    intro τ p hp ht
    obtain hp | hnew := hget τ p hp
    · exact hk.tasks τ p hp ht
    · exact hnew.1 k ht
  · intro τ j hj
    obtain hj | hnew := hget τ _ hj
    · exact h.flushes τ j hj
    · exact hnew.2 j rfl

/-- A task is where it was, or it is the one that has been set. -/
theorem get_set_cases {tasks : Heap Pc} {τ' : Nat} {p : Pc}
    (h : (tasks.set τ pc').get τ' = some p) : tasks.get τ' = some p ∨ p = pc' := by
  by_cases hτ : τ' = τ
  · rw [hτ, Heap.get_set_self] at h
    exact .inr (Option.some.inj h).symm
  · rw [Heap.get_set_ne hτ] at h
    exact .inl h

/-- A task goes on. -/
theorem Inv.goto (h : Inv x s) (hpc : s.tasks.get τ = some pc)
    (hclaim : ∀ k ≠ 0, s.tasks.sum (claim k) + claim k pc' ≤ (s.e k).ref + claim k pc)
    (hbusy : ∀ k, s.tasks.sum (queuing k) + s.cmds.sum (onEntry k) + queuing k pc' ≤
      1 + queuing k pc)
    (hwrite : ∀ k, writingTo k pc' = writingTo k pc)
    (hneeds : ∀ k, pc'.target = some k → pc'.needs (s.e k) (s.linked k))
    (hflush : ∀ j, pc' = .flush j → j.block ≠ 0) : Inv x (s.goto τ pc') := by
  refine h.retask ?_ ?_ ?_ ?_ ?_
  · intro τ' p hp
    obtain hp | rfl := get_set_cases hp
    · exact .inl hp
    · exact .inr ⟨hneeds, hflush⟩
  · intro k hk
    have hsum := Heap.sum_set (w := claim k) (x := pc') hpc
    have := hclaim k hk
    omega
  · intro k
    have hsum := Heap.sum_set (w := queuing k) (x := pc') hpc
    have := hbusy k
    omega
  · intro k
    have hsum := Heap.sum_set (w := writingTo k) (x := pc') hpc
    have := hwrite k
    have := (h.entry k).writers
    omega
  · intro k
    have hsum := Heap.sum_set (w := writingTo k) (x := pc') hpc
    have := hwrite k
    have := (h.entry k).writes
    omega

/-- A task begins. -/
theorem Inv.spawn (h : Inv x s) (hτ : s.tasks.get τ = none)
    (hclaim : ∀ k ≠ 0, s.tasks.sum (claim k) + claim k pc' ≤ (s.e k).ref)
    (hqueue : ∀ k, queuing k pc' = 0)
    (hwrite : ∀ k, s.dirtyList.count k + s.tasks.sum (writingTo k) + writingTo k pc' ≤ 1)
    (hneeds : ∀ k, pc'.target = some k → pc'.needs (s.e k) (s.linked k))
    (hflush : ∀ j, pc' = .flush j → j.block ≠ 0) : Inv x (s.goto τ pc') := by
  refine h.retask ?_ ?_ ?_ ?_ ?_
  · intro τ' p hp
    obtain hp | rfl := get_set_cases hp
    · exact .inl hp
    · exact .inr ⟨hneeds, hflush⟩
  · intro k hk
    rw [Heap.sum_set_fresh hτ]
    have := hclaim k hk
    omega
  · intro k
    rw [Heap.sum_set_fresh hτ, hqueue k, Nat.zero_add]
    exact (h.entry k).busy
  · intro k
    rw [Heap.sum_set_fresh hτ]
    have := hwrite k
    omega
  · intro k
    rw [Heap.sum_set_fresh hτ]
    have := (h.entry k).writes
    omega

/-- A task ends. -/
theorem Inv.leave (h : Inv x s) (hpc : s.tasks.get τ = some pc)
    (hwrite : ∀ k, s.cmds.sum (writeOn k) + writingTo k pc ≤ s.tasks.sum (writingTo k)) :
    Inv x (s.leave τ) := by
  refine h.retask ?_ ?_ ?_ ?_ ?_
  · intro τ' p hp
    by_cases hτ : τ' = τ
    · rw [hτ, Heap.get_erase_self] at hp
      cases hp
    · rw [Heap.get_erase_ne hτ] at hp
      exact .inl hp
  · intro k hk
    have hsum := Heap.sum_erase (w := claim k) hpc
    have := (h.entry k).claims hk
    omega
  · intro k
    have hsum := Heap.sum_erase (w := queuing k) hpc
    have := (h.entry k).busy
    omega
  · intro k
    have hsum := Heap.sum_erase (w := writingTo k) hpc
    have := (h.entry k).writers
    omega
  · intro k
    have hsum := Heap.sum_erase (w := writingTo k) hpc
    have := hwrite k
    omega

/-! ### Changing an entry -/

/-- An entry changes and keeps its block and its buffer. -/
theorem Inv.modify {f : Entry → Entry} (h : Inv x s) (hbn : (f (s.e k)).bn = (s.e k).bn)
    (hbuf : (f (s.e k)).buf = (s.e k).buf) (hsuper : k = 0 → 0 < (f (s.e k)).ref)
    (hempty : (s.e k).bn = emptyblock → s.linked k = false → (f (s.e k)).ref = 0 ∧
      (f (s.e k)).loaded = false ∧ (f (s.e k)).loading = false ∧ (f (s.e k)).dirty = false)
    (hflags : (f (s.e k)).loading = true → (f (s.e k)).loaded = false)
    (hdirty : (f (s.e k)).dirty = true → (f (s.e k)).loaded = true)
    (hidle : x ≠ some k → k ∈ s.eList → (f (s.e k)).ref = 0 → (f (s.e k)).loaded = true)
    (hdirtied : k ∈ s.dirtyList → (f (s.e k)).dirty = true)
    (hclaims : k ≠ 0 → s.tasks.sum (claim k) ≤ (f (s.e k)).ref)
    (htasks : ∀ τ pc, s.tasks.get τ = some pc → pc.target = some k → pc.needs (s.e k) (s.linked k) →
      pc.needs (f (s.e k)) (s.linked k))
    (hcmds : ∀ q c, s.cmds.get q = some c → c.entry = k → c.needs (s.e k) → c.needs (f (s.e k))) :
    Inv x (s.modify k f) := by
  have hbufs : ∀ i, ((s.modify k f).e i).buf = (s.e i).buf := by
    intro i
    by_cases hi : i = k
    · rw [hi, modify_self, hbuf]
    · rw [modify_ne _ _ hi]
  have hbns : ∀ i, ((s.modify k f).e i).bn = (s.e i).bn := by
    intro i
    by_cases hi : i = k
    · rw [hi, modify_self, hbn]
    · rw [modify_ne _ _ hi]
  refine ⟨?_, ?_, ⟨?_, ?_⟩, ?_, h.flushes⟩
  · intro i
    have hi := h.entry i
    by_cases hik : i = k
    · subst hik
      constructor
      case live =>
        intro b hb
        rw [hbufs] at hb
        exact hi.live b hb
      case empty =>
        intro he hl
        rw [hbns] at he
        obtain ⟨-, hb, -⟩ := hi.empty he hl
        obtain ⟨h₁, h₂⟩ := hempty he hl
        rw [hbufs, modify_self]
        exact ⟨h₁, hb, h₂⟩
      case once => exact hi.once
      case flags =>
        rw [modify_self]
        exact hflags
      case dirty =>
        rw [modify_self]
        exact hdirty
      case idle =>
        rw [modify_self]
        exact hidle
      case dirtied =>
        rw [modify_self]
        exact hdirtied
      case claims =>
        rw [modify_self]
        exact hclaims
      case busy => exact hi.busy
      case writers => exact hi.writers
      case writes => exact hi.writes
      case tasks =>
        intro τ pc hpc ht
        rw [modify_self]
        exact htasks τ pc hpc ht (hi.tasks τ pc hpc ht)
      case cmds =>
        intro q c hq hc
        rw [modify_self]
        exact hcmds q c hq hc (hi.cmds q c hq hc)
    · exact hi.frame (modify_ne _ _ hik) rfl rfl rfl rfl rfl hi.live id
  · intro i j b hbi hbj
    rw [hbufs] at hbi hbj
    exact h.inj i j b hbi hbj
  · rw [hbns]
    exact h.super.1
  · by_cases hk : 0 = k
    · subst hk
      rw [modify_self]
      exact hsuper rfl
    · rw [modify_ne _ _ hk]
      exact h.super.2
  · intro i hi
    rw [hbns] at hi
    exact h.super_only i hi

/-! ### Changing the lists -/

/-- Entry `k` moves within or between the lists. -/
theorem Inv.relist {y : Option Nat} {eList' prefList' : List Nat} (h : Inv x s)
    (hl : s.linked k = true) (hE : ∀ i, i ≠ k → eList'.count i = s.eList.count i)
    (hP : ∀ i, i ≠ k → prefList'.count i = s.prefList.count i)
    (honce : eList'.count k + prefList'.count k = 1)
    (hidle : y ≠ some k → k ∈ eList' → (s.e k).ref = 0 → (s.e k).loaded = true)
    (hxy : ∀ i, i ≠ k → y ≠ some i → x ≠ some i) :
    Inv y { s with eList := eList', prefList := prefList' } := by
  have hlinked : ∀ i, ({ s with eList := eList', prefList := prefList' } : State).linked i =
      s.linked i := by
    intro i
    by_cases hik : i = k
    · subst hik
      rw [hl, linked_iff]
      show 0 < eList'.count i + prefList'.count i
      omega
    · exact linked_congr (hE i hik) (hP i hik)
  refine ⟨?_, h.inj, h.super, h.super_only, h.flushes⟩
  intro i
  have hi := h.entry i
  constructor
  case live => exact hi.live
  case empty =>
    rw [hlinked]
    exact hi.empty
  case once =>
    by_cases hik : i = k
    · rw [hik]
      exact honce.le
    · show eList'.count i + prefList'.count i ≤ 1
      rw [hE i hik, hP i hik]
      exact hi.once
  case flags => exact hi.flags
  case dirty => exact hi.dirty
  case idle =>
    by_cases hik : i = k
    · rw [hik]
      exact hidle
    · intro hy hmem hr
      refine hi.idle (hxy i hik hy) ?_ hr
      rw [← List.count_pos_iff, ← hE i hik]
      exact List.count_pos_iff.mpr hmem
  case dirtied => exact hi.dirtied
  case claims => exact hi.claims
  case busy => exact hi.busy
  case writers => exact hi.writers
  case writes => exact hi.writes
  case tasks =>
    rw [hlinked]
    exact hi.tasks
  case cmds => exact hi.cmds

/-- `erase(&e_[k]); e_list_.push_back(&e_[k]);` -/
theorem Inv.pushBack {y : Option Nat} (h : Inv x s) (hl : s.linked k = true)
    (hidle : y ≠ some k → (s.e k).ref = 0 → (s.e k).loaded = true)
    (hxy : ∀ i, i ≠ k → y ≠ some i → x ≠ some i) :
    Inv y { s with eList := s.eList.erase k ++ [k], prefList := s.prefList.erase k } := by
  have honce := (h.entry k).once
  refine h.relist hl ?_ ?_ ?_ (fun hy _ => hidle hy) hxy
  · intro i hik
    rw [List.count_append, List.count_erase_of_ne hik, List.count_singleton,
      if_neg (by simpa using Ne.symm hik), Nat.add_zero]
  · intro i hik
    rw [List.count_erase_of_ne hik]
  · have hpos := linked_iff.mp hl
    rw [List.count_append, List.count_erase_self, List.count_erase_self, List.count_singleton_self]
    omega

/-- `erase(&e_[k]); pref_list_.push_front(&e_[k]);` -/
theorem Inv.pushPref (h : Inv x s) (hl : s.linked k = true) (hx : ∀ i, i ≠ k → x ≠ some i) :
    Inv none { s with eList := s.eList.erase k, prefList := k :: s.prefList.erase k } := by
  have honce := (h.entry k).once
  have hpos := linked_iff.mp hl
  refine h.relist hl ?_ ?_ ?_ ?_ fun i hik _ => hx i hik
  · intro i hik
    rw [List.count_erase_of_ne hik]
  · intro i hik
    rw [List.count_cons_of_ne (Ne.symm hik), List.count_erase_of_ne hik]
  · rw [List.count_erase_self, List.count_cons_self, List.count_erase_self]
    omega
  · intro _ hmem _
    have := List.count_pos_iff.mpr hmem
    rw [List.count_erase_self] at this
    omega

/-- The entry that had just been given a slot is in order. -/
theorem Inv.settle (h : Inv (some k) s) (hidle : (s.e k).ref = 0 → (s.e k).loaded = true) :
    Inv none s := by
  refine ⟨?_, h.inj, h.super, h.super_only, h.flushes⟩
  intro i
  have hi := h.entry i
  refine ⟨hi.live, hi.empty, hi.once, hi.flags, hi.dirty, ?_, hi.dirtied, hi.claims, hi.busy,
    hi.writers, hi.writes, hi.tasks, hi.cmds⟩
  intro _ hmem hr
  by_cases hik : k = i
  · subst hik
    exact hidle hr
  · exact hi.idle (fun hc => hik (Option.some.inj hc)) hmem hr

/-- The dirty list changes for one entry. -/
theorem Inv.redirty {l : List Nat} (h : Inv x s)
    (hother : ∀ i, i ≠ k → l.count i = s.dirtyList.count i)
    (hk : k ∈ l → (s.e k).dirty = true) (hcount : l.count k + s.tasks.sum (writingTo k) ≤ 1) :
    Inv x { s with dirtyList := l } := by
  refine ⟨?_, h.inj, h.super, h.super_only, h.flushes⟩
  intro i
  have hi := h.entry i
  refine ⟨hi.live, hi.empty, hi.once, hi.flags, hi.dirty, hi.idle, ?_, hi.claims, hi.busy, ?_,
    hi.writes, hi.tasks, hi.cmds⟩
  · intro hmem
    by_cases hik : i = k
    · subst hik
      exact hk hmem
    · refine hi.dirtied ?_
      rw [← List.count_pos_iff, ← hother i hik]
      exact List.count_pos_iff.mpr hmem
  · by_cases hik : i = k
    · rw [hik]
      exact hcount
    · show l.count i + _ ≤ 1
      rw [hother i hik]
      exact hi.writers

/-! ### Changing the commands -/

theorem Inv.recmd (h : Inv x s) (cmds' : Heap Cmd)
    (hget : ∀ q c, cmds'.get q = some c → s.cmds.get q = some c ∨ c.needs (s.e c.entry))
    (hbusy : ∀ k, s.tasks.sum (queuing k) + cmds'.sum (onEntry k) ≤ 1)
    (hwrites : ∀ k, cmds'.sum (writeOn k) ≤ s.tasks.sum (writingTo k)) :
    Inv x { s with cmds := cmds' } := by
  refine ⟨?_, h.inj, h.super, h.super_only, h.flushes⟩
  intro i
  have hi := h.entry i
  refine ⟨hi.live, hi.empty, hi.once, hi.flags, hi.dirty, hi.idle, hi.dirtied, hi.claims, hbusy i,
    hi.writers, hwrites i, hi.tasks, ?_⟩
  intro q c hq hc
  obtain hq | hn := hget q c hq
  · exact hi.cmds q c hq hc
  · exact hc ▸ hn

/-- A status changes while no command of the entry is outstanding. -/
theorem Inv.setStatus (h : Inv x s) (st : Status)
    (hno : ∀ q c, s.cmds.get q = some c → c.entry ≠ k) :
    Inv x (s.modify k fun e => { e with fetchStatus := st }) := by
  have hk := h.entry k
  refine h.modify rfl rfl ?_ ?_ hk.flags hk.dirty hk.idle hk.dirtied hk.claims ?_ ?_
  · intro hz
    rw [hz]
    exact h.super.2
  · intro he hl
    obtain ⟨h₁, -, h₂⟩ := hk.empty he hl
    exact ⟨h₁, h₂⟩
  · intro τ pc _ _ hneeds
    cases pc <;> exact hneeds
  · exact fun q c hq hc _ => absurd hc (hno q c hq)

/-- A command is issued for an entry that has none and whose read nobody is about to
queue. -/
theorem Inv.issue {q : Nat} {c : Cmd} (h : Inv x s) (hq : s.cmds.get q = none)
    (hno : ∀ q c', s.cmds.get q = some c' → c'.entry ≠ c.entry)
    (hqueuing : s.tasks.sum (queuing c.entry) = 0)
    (hwrite : c.write = true → 0 < s.tasks.sum (writingTo c.entry))
    (hneeds : if c.write then (s.e c.entry).loaded = true ∧ (s.e c.entry).dirty = true
      else (s.e c.entry).bn = c.bn ∧ (s.e c.entry).buf = some c.buf ∧
        (s.e c.entry).loading = true ∧ (s.e c.entry).loaded = false) :
    Inv x (issue s q c) := by
  have hs := h.setStatus .again hno
  refine hs.recmd (s.cmds.set q c) ?_ ?_ ?_
  · intro q' c' hq'
    by_cases hqq : q' = q
    · rw [hqq, Heap.get_set_self] at hq'
      obtain rfl := Option.some.inj hq'
      right
      rw [modify_self]
      exact ⟨rfl, hneeds⟩
    · rw [Heap.get_set_ne hqq] at hq'
      exact .inl hq'
  · intro k
    have hsum := Heap.sum_set_fresh (w := onEntry k) (x := c) hq
    rw [hsum]
    by_cases hk : c.entry = k
    · subst hk
      rw [cmds_zero hno]
      show s.tasks.sum _ + (one c.entry c.entry + 0) ≤ 1
      rw [hqueuing, one_self]
    · rw [onEntry, one_ne hk, Nat.zero_add]
      exact (h.entry k).busy
  · intro k
    have hsum := Heap.sum_set_fresh (w := writeOn k) (x := c) hq
    rw [hsum]
    by_cases hk : c.entry = k
    · subst hk
      rw [writes_zero hno, Nat.add_zero, writeOn]
      split
      · rename_i hw
        rw [one_self]
        exact hwrite hw
      · exact Nat.zero_le _
    · have hz : writeOn k c = 0 := Nat.le_zero.mp ((writeOn_le c).trans (one_ne hk).le)
      rw [hz, Nat.zero_add]
      exact (h.entry k).writes

theorem acknowledge_inv {q : Nat} {failed : Bool} (h : Inv x s)
    (hstep : acknowledge s q failed = some s') :
    Inv x s' := by
  unfold acknowledge at hstep
  obtain ⟨c, hq, hstep⟩ := Option.bind_eq_some_iff.mp hstep
  obtain rfl := Option.some.inj hstep
  have hget : ∀ q' c', (s.cmds.erase q).get q' = some c' → s.cmds.get q' = some c' ∧ q' ≠ q := by
    intro q' c' hq'
    by_cases hqq : q' = q
    · rw [hqq, Heap.get_erase_self] at hq'
      cases hq'
    · rw [Heap.get_erase_ne hqq] at hq'
      exact ⟨hq', hqq⟩
  have hs : Inv x { s with cmds := s.cmds.erase q } := by
    refine h.recmd _ (fun q' c' hq' => .inl (hget q' c' hq').1) ?_ ?_
    · intro k
      have hsum := Heap.sum_erase (w := onEntry k) hq
      have := (h.entry k).busy
      omega
    · intro k
      have hsum := Heap.sum_erase (w := writeOn k) hq
      have := (h.entry k).writes
      omega
  refine hs.setStatus _ ?_
  -- another command of the entry would make two
  intro q' c' hq' hc'
  have hle : onEntry c.entry c' ≤ (s.cmds.erase q).sum (onEntry c.entry) := Heap.le_sum hq'
  have hsum := Heap.sum_erase (w := onEntry c.entry) hq
  have hbusy := (h.entry c.entry).busy
  rw [onEntry, hc', one_self] at hle
  rw [onEntry, one_self] at hsum
  omega

/-! ### Slots -/

/-- A task has taken slot `k` and not queued its read. -/
def Window (s : State) (k : Nat) : Prop :=
  ∃ τ j p, s.tasks.get τ = some (.load j k p) ∨ s.tasks.get τ = some (.queue j k p)

/-- An entry without references is free to go when it is clean and nobody is loading it. -/
structure Idle (s : State) (k : Nat) : Prop where
  ref : (s.e k).ref = 0
  dirty : (s.e k).dirty = false
  window : ¬Window s k
  cmds : ∀ q c, s.cmds.get q = some c → c.entry ≠ k

theorem Inv.ne_zero (h : Inv x s) (hr : (s.e k).ref = 0) : k ≠ 0 := by
  rintro rfl
  have := h.super.2
  omega

theorem EntryOk.no_target (h : EntryOk x s k) (hi : Idle s k) (hk : k ≠ 0) {τ : Nat} {pc : Pc}
    (hpc : s.tasks.get τ = some pc) : pc.target ≠ some k := by
  intro ht
  have hneeds := h.tasks τ pc hpc ht
  have hclaim := h.claims hk
  rw [hi.ref, Nat.le_zero, Heap.sum_eq_zero] at hclaim
  have hz := hclaim τ pc hpc
  cases pc with
  | load j i p =>
    obtain rfl := Option.some.inj ht
    exact hi.window ⟨τ, j, p, .inl hpc⟩
  | queue j i p =>
    obtain rfl := Option.some.inj ht
    exact hi.window ⟨τ, j, p, .inr hpc⟩
  | hold i =>
    obtain rfl := Option.some.inj ht
    rw [claim, one_self] at hz
    cases hz
  | writing i =>
    rw [Pc.needs, hi.dirty] at hneeds
    cases hneeds
  | flush j => cases ht
  | next bn i n => cases ht
  | wait i => cases ht

theorem release_e_ne (h : i ≠ k) : (release s k).e i = s.e i := modify_ne _ _ h

theorem release_e_self (s : State) (k : Nat) : (release s k).e k = (s.e k).clear := modify_self ..

theorem mem_release_live {b : Nat} (hb : b ∈ s.live) (hne : (s.e k).buf ≠ some b) :
    b ∈ (release s k).live := by
  unfold release State.modify
  dsimp only
  split
  · exact hb
  · rename_i b' hb'
    refine Finset.mem_erase.mpr ⟨?_, hb⟩
    rintro rfl
    exact hne hb'

/-- An entry that is free to go is released. -/
theorem Inv.free (h : Inv none s) (hl : s.linked k = true) (hi : Idle s k) :
    Inv none (release { s with eList := s.eList.erase k, prefList := s.prefList.erase k } k) := by
  have hk0 := h.ne_zero hi.ref
  have hk := h.entry k
  have honce := hk.once
  have hbns : ∀ i, i ≠ k →
      ((release { s with eList := s.eList.erase k, prefList := s.prefList.erase k } k).e i) =
      s.e i := fun i hik => release_e_ne hik
  have hself : (release { s with eList := s.eList.erase k, prefList := s.prefList.erase k } k).e k =
      (s.e k).clear := release_e_self _ _
  refine ⟨?_, ?_, ⟨?_, ?_⟩, ?_, h.flushes⟩
  · intro i
    have hi' := h.entry i
    by_cases hik : i = k
    · subst hik
      have hnd : i ∉ s.dirtyList := hk.not_dirtied hi.dirty
      have hcount : s.eList.count i - 1 + (s.prefList.count i - 1) = 0 := by omega
      constructor
      case live =>
        intro b hb
        rw [hself] at hb
        cases hb
      case empty =>
        intro _ _
        rw [hself]
        exact ⟨hi.ref, rfl, rfl, rfl, rfl⟩
      case once =>
        show (s.eList.erase i).count i + (s.prefList.erase i).count i ≤ 1
        rw [List.count_erase_self, List.count_erase_self]
        omega
      case flags =>
        rw [hself]
        exact fun hf => absurd hf Bool.false_ne_true
      case dirty =>
        rw [hself]
        exact fun hf => absurd hf Bool.false_ne_true
      case idle =>
        intro _ hmem _
        have hpos := List.count_pos_iff.mpr hmem
        change 0 < (s.eList.erase i).count i at hpos
        rw [List.count_erase_self] at hpos
        omega
      case dirtied => exact fun hmem => absurd hmem hnd
      case claims =>
        intro hne
        rw [hself]
        exact hk.claims hne
      case busy => exact hk.busy
      case writers => exact hk.writers
      case writes => exact hk.writes
      case tasks => exact fun τ pc hpc ht => absurd ht (hk.no_target hi hk0 hpc)
      case cmds => exact fun q c hq hc => absurd hc (hi.cmds q c hq)
    · refine hi'.frame (hbns i hik) (List.count_erase_of_ne hik) (List.count_erase_of_ne hik)
        rfl rfl rfl ?_ id
      intro b hb
      refine mem_release_live (hi'.live b hb) ?_
      exact fun hbk => hik (h.inj i k b hb hbk)
  · intro i j b hbi hbj
    by_cases hik : i = k
    · rw [hik, hself] at hbi
      cases hbi
    · by_cases hjk : j = k
      · rw [hjk, hself] at hbj
        cases hbj
      · rw [hbns i hik] at hbi
        rw [hbns j hjk] at hbj
        exact h.inj i j b hbi hbj
  · rw [hbns 0 hk0.symm]
    exact h.super.1
  · rw [hbns 0 hk0.symm]
    exact h.super.2
  · intro i hi0
    by_cases hik : i = k
    · rw [hik, hself] at hi0
      exact absurd (show emptyblock = 0 from hi0) (by decide)
    · rw [hbns i hik] at hi0
      exact h.super_only i hi0

/-- A slot that is empty and in no list gets a block. -/
theorem Inv.takeEmpty {bn : Nat} (h : Inv none s) (hbn : (s.e k).bn = emptyblock) (hbn0 : bn ≠ 0)
    (hstep : take s k bn = some s') : Inv (some k) s' := by
  obtain ⟨hl, rfl⟩ := take_some hstep
  have hk := h.entry k
  obtain ⟨href, hbuf, hloaded, hloading, hdirty⟩ := hk.empty hbn hl
  have hk0 : k ≠ 0 := h.ne_zero href
  have hcount : s.eList.count k + s.prefList.count k = 0 := by
    by_contra hc
    have := linked_iff.mpr (Nat.pos_of_ne_zero hc)
    rw [hl] at this
    cases this
  have hothers : ∀ i, i ≠ k → (({ s with eList := s.eList ++ [k] } : State).modify k
      fun x => { x with bn := bn }).e i = s.e i := fun i hik => modify_ne _ _ hik
  have hself : (({ s with eList := s.eList ++ [k] } : State).modify k
      fun x => { x with bn := bn }).e k = { s.e k with bn := bn } := modify_self ..
  have hE : ∀ i, i ≠ k → (s.eList ++ [k]).count i = s.eList.count i := by
    intro i hik
    rw [List.count_append, List.count_singleton, if_neg (by simpa using Ne.symm hik), Nat.add_zero]
  have hEk : (s.eList ++ [k]).count k = s.eList.count k + 1 := by
    rw [List.count_append, List.count_singleton_self]
  have hlk : (({ s with eList := s.eList ++ [k] } : State).modify k
      fun x => { x with bn := bn }).linked k = true := by
    rw [linked_iff]
    show 0 < (s.eList ++ [k]).count k + s.prefList.count k
    omega
  have hnot : ∀ τ pc, s.tasks.get τ = some pc → pc.target ≠ some k := by
    refine fun τ pc hpc =>
      hk.no_target ⟨href, hdirty, ?_, fun q c hq => hk.no_cmd hloading hdirty hq⟩ hk0 hpc
    rintro ⟨τ, j, p, hw | hw⟩
    · have := (hk.tasks τ _ hw rfl).2
      rw [hl] at this
      cases this
    · have := (hk.tasks τ _ hw rfl).2.1
      rw [hl] at this
      cases this
  refine ⟨?_, ?_, ⟨?_, ?_⟩, ?_, h.flushes⟩
  · intro i
    have hi := h.entry i
    by_cases hik : i = k
    · subst hik
      constructor
      case live =>
        rw [hself]
        exact hk.live
      case empty =>
        intro _ hl'
        rw [hlk] at hl'
        cases hl'
      case once =>
        show (s.eList ++ [i]).count i + s.prefList.count i ≤ 1
        omega
      case flags =>
        rw [hself]
        exact hk.flags
      case dirty =>
        rw [hself]
        exact hk.dirty
      case idle => exact fun hx => absurd rfl hx
      case dirtied => exact fun hmem => absurd hmem (hk.not_dirtied hdirty)
      case claims =>
        rw [hself]
        exact hk.claims
      case busy => exact hk.busy
      case writers => exact hk.writers
      case writes => exact hk.writes
      case tasks => exact fun τ pc hpc ht => absurd ht (hnot τ pc hpc)
      case cmds => exact fun q c hq hc => absurd hc (hk.no_cmd hloading hdirty hq)
    · exact hi.frame (hothers i hik) (hE i hik) rfl rfl rfl rfl hi.live fun _ => nofun
  · intro i j b hbi hbj
    have hbufs : ∀ i, ((({ s with eList := s.eList ++ [k] } : State).modify k
        fun x => { x with bn := bn }).e i).buf = (s.e i).buf := by
      intro i
      by_cases hik : i = k
      · rw [hik, hself]
      · rw [hothers i hik]
    rw [hbufs] at hbi hbj
    exact h.inj i j b hbi hbj
  · rw [hothers 0 hk0.symm]
    exact h.super.1
  · rw [hothers 0 hk0.symm]
    exact h.super.2
  · intro i hi0
    by_cases hik : i = k
    · rw [hik, hself] at hi0
      exact absurd hi0 hbn0
    · rw [hothers i hik] at hi0
      exact h.super_only i hi0

/-! ### Sections that look for a slot -/

theorem modify_eq_self {f : Entry → Entry} (hf : f (s.e k) = s.e k) : s.modify k f = s := by
  unfold State.modify
  rw [hf, Function.update_eq_self]

/-- What a search leaves: a slot with the block, in a list, and nothing changed for the
tasks and the disk. -/
structure Placed (s s' : State) (k bn : Nat) : Prop where
  inv : Inv (some k) s'
  block : (s'.e k).bn = bn
  linked : s'.linked k = true
  tasks : s'.tasks = s.tasks
  cmds : s'.cmds = s.cmds
  super : bn = 0 → k = 0

theorem found_placed {s₁ : State} {bn : Nat} (h : Inv none s) (hbn : (s.e k).bn = bn)
    (h₁ : s.unlink k = some s₁) (hstep : take s₁ k bn = some s') : Placed s s' k bn := by
  obtain ⟨hl, rfl⟩ := unlink_some h₁
  obtain ⟨-, rfl⟩ := take_some hstep
  have hself :
      ({ s with eList := s.eList.erase k ++ [k], prefList := s.prefList.erase k } : State).modify k
      (fun x => { x with bn := bn }) =
      { s with eList := s.eList.erase k ++ [k], prefList := s.prefList.erase k } := by
    refine modify_eq_self ?_
    show { s.e k with bn := bn } = s.e k
    rw [← hbn]
  have hinv :
      Inv (some k) { s with eList := s.eList.erase k ++ [k], prefList := s.prefList.erase k } :=
    h.pushBack hl (fun hc => absurd rfl hc) fun _ _ _ => nofun
  refine ⟨?_, ?_, ?_, rfl, rfl, fun hz => h.super_only k (hbn.trans hz)⟩
  · rw [hself]
    exact hinv
  · rw [hself]
    exact hbn
  · rw [hself]
    refine linked_iff.mpr ?_
    show 0 < (s.eList.erase k ++ [k]).count k + _
    rw [List.count_append, List.count_singleton_self]
    omega

theorem takeEmpty_placed {bn : Nat} (h : Inv none s) (hbn : (s.e k).bn = emptyblock) (hbn0 : bn ≠ 0)
    (hstep : take s k bn = some s') : Placed s s' k bn := by
  have hinv := h.takeEmpty hbn hbn0 hstep
  obtain ⟨-, rfl⟩ := take_some hstep
  refine ⟨hinv, ?_, ?_, rfl, rfl, fun hz => absurd hz hbn0⟩
  · rw [modify_self]
  · refine linked_iff.mpr ?_
    show 0 < (s.eList ++ [k]).count k + _
    rw [List.count_append, List.count_singleton_self]
    omega

/-- A victim is free to go unless a task has just taken its slot. -/
theorem Inv.victim_idle (h : Inv none s) (hv : victim s = some k) (hr : (s.e k).ref = 0)
    (hw : ¬Window s k) : Idle s k := by
  have hk := h.entry k
  unfold victim at hv
  obtain hv | ⟨-, hv⟩ := Option.or_eq_some_iff.mp hv
  · have hp := List.find?_some hv
    have hmem := List.mem_of_find?_eq_some hv
    simp only [Bool.and_eq_true, decide_eq_true_eq, Bool.not_eq_true'] at hp
    have hloaded := hk.idle nofun hmem hr
    have hloading : (s.e k).loading = false := by
      by_contra hc
      rw [Bool.not_eq_false] at hc
      rw [hk.flags hc] at hloaded
      cases hloaded
    exact ⟨hr, hp.2, hw, fun q c hq => hk.no_cmd hloading hp.2 hq⟩
  · have hp := List.find?_some hv
    simp only [Bool.and_eq_true, Bool.not_eq_true', ne_eq, decide_not] at hp
    exact ⟨hr, hp.2, hw, fun q c hq => hk.no_cmd_status (of_decide_eq_false hp.1.2) hq⟩

theorem freeSlot_placed {bn : Nat} {l : List Nat} (h : Inv none s) (hbn0 : bn ≠ 0)
    (hw : ∀ k, findFree s.e l = .full → victim s = some k → ¬Window s k)
    (hstep : freeSlot s bn l = some (.slot k s')) : Placed s s' k bn := by
  unfold freeSlot at hstep
  split at hstep
  · rename_i i hfree
    obtain ⟨s₁, h₁, hstep⟩ := Option.bind_eq_some_iff.mp hstep
    cases Option.some.inj hstep
    exact takeEmpty_placed h (findFree_slot hfree).2 hbn0 h₁
  · cases Option.some.inj hstep
  · rename_i hfull
    split at hstep
    · cases Option.some.inj hstep
    · rename_i i hv
      obtain ⟨s₁, h₁, hstep⟩ := Option.bind_eq_some_iff.mp hstep
      obtain ⟨s₂, h₂, hstep⟩ := Option.bind_eq_some_iff.mp hstep
      cases Option.some.inj hstep
      obtain ⟨s₀, h₀, hr, rfl⟩ := evict_some h₁
      obtain ⟨hl, rfl⟩ := unlink_some h₀
      have hfree := h.free hl (h.victim_idle hv hr (hw k hfull hv))
      have hp := takeEmpty_placed hfree (by rw [release_e_self]; rfl) hbn0 h₂
      exact ⟨hp.inv, hp.block, hp.linked, hp.tasks, hp.cmds, hp.super⟩

theorem getBufentrySlot_placed {bn : Nat} (h : Inv none s)
    (hw : ∀ k, findBlock s.e bn = none → findFree s.e (List.range ne) = .full → victim s = some k →
      ¬Window s k)
    (hstep : getBufentrySlot s bn = some (.slot k s')) : Placed s s' k bn := by
  unfold getBufentrySlot at hstep
  split at hstep
  · rename_i i hfind
    obtain ⟨s₁, h₁, hstep⟩ := Option.bind_eq_some_iff.mp hstep
    obtain ⟨s₂, h₂, hstep⟩ := Option.bind_eq_some_iff.mp hstep
    cases Option.some.inj hstep
    exact found_placed h (findBlock_some hfind).2 h₁ h₂
  · rename_i hnone
    have hbn0 : bn ≠ 0 := by
      rintro rfl
      exact findBlock_none hnone (k := 0) (by decide) h.super.1
    exact freeSlot_placed h hbn0 (fun k => hw k hnone) hstep

/-- The slot that is free has no references. -/
theorem freeSlot_ref {bn : Nat} {l : List Nat} (h : Inv none s)
    (hstep : freeSlot s bn l = some (.slot k s')) : (s'.e k).ref = 0 := by
  obtain ⟨-, hbn, htake⟩ | ⟨s₁, -, hevict, htake⟩ := freeSlot_slot hstep
  · obtain ⟨hl, rfl⟩ := take_some htake
    rw [modify_self]
    exact ((h.entry k).empty hbn hl).1
  · obtain ⟨s₀, hunlink, hr, rfl⟩ := evict_some hevict
    obtain ⟨-, rfl⟩ := unlink_some hunlink
    obtain ⟨-, rfl⟩ := take_some htake
    rw [modify_self]
    show ((release { s with eList := s.eList.erase k, prefList := s.prefList.erase k } k).e k).ref
      = 0
    rw [release_e_self]
    exact hr

/-- A slot that is found has the references of its block. -/
theorem getBufentrySlot_ref {bn : Nat} (h : Inv none s)
    (hstep : getBufentrySlot s bn = some (.slot k s')) :
    (s'.e k).ref = 0 ∨ findBlock s.e bn = some k ∧ (s'.e k).ref = (s.e k).ref := by
  unfold getBufentrySlot at hstep
  split at hstep
  · rename_i i hfind
    obtain ⟨s₁, h₁, hstep⟩ := Option.bind_eq_some_iff.mp hstep
    obtain ⟨s₂, h₂, hstep⟩ := Option.bind_eq_some_iff.mp hstep
    cases Option.some.inj hstep
    obtain ⟨-, rfl⟩ := unlink_some h₁
    obtain ⟨-, rfl⟩ := take_some h₂
    refine .inr ⟨hfind, ?_⟩
    rw [modify_self]
  · exact .inl (freeSlot_ref h hstep)

/-- The flags of a `flush` that a search ends with: its block is not the superblock. -/
theorem getBufentrySlot_flush {bn : Nat} (h : Inv none s)
    (hstep : getBufentrySlot s bn = some .flush) : bn ≠ 0 := by
  rintro rfl
  unfold getBufentrySlot at hstep
  split at hstep
  · obtain ⟨s₁, h₁, hstep⟩ := Option.bind_eq_some_iff.mp hstep
    obtain ⟨s₂, h₂, hstep⟩ := Option.bind_eq_some_iff.mp hstep
    cases Option.some.inj hstep
  · rename_i hnone
    exact findBlock_none hnone (k := 0) (by decide) h.super.1

/-- Only the number of references of an entry changes. -/
theorem Inv.setRef {r : Nat} (h : Inv x s) (hl : s.linked k = true) (hpos : k = 0 → 0 < r)
    (hidle : x ≠ some k → k ∈ s.eList → r = 0 → (s.e k).loaded = true)
    (hclaims : k ≠ 0 → s.tasks.sum (claim k) ≤ r) :
    Inv x (s.modify k fun e => { e with ref := r }) := by
  have hk := h.entry k
  refine h.modify rfl rfl hpos ?_ hk.flags hk.dirty hidle hk.dirtied hclaims ?_ ?_
  · intro _ hl'
    rw [hl] at hl'
    cases hl'
  · intro τ pc _ _ hneeds
    cases pc <;> exact hneeds
  · exact fun _ _ _ _ hneeds => hneeds

/-- The reference of `get_disk_entry`, where the count has room for it. -/
theorem Placed.addRef {s₁ : State} {bn : Nat} (h : Placed s s₁ k bn)
    (hroom : bn ≠ 0 → (s₁.e k).ref ≠ 2 ^ 32 - 1) : Inv none (addRef s₁ k bn) ∧
      (k ≠ 0 → s₁.tasks.sum (claim k) + 1 ≤ ((addRef s₁ k bn).e k).ref) ∧
      ∀ i, i ≠ k → (addRef s₁ k bn).e i = s₁.e i := by
  have hk := h.inv.entry k
  unfold BufCache.addRef
  split
  · rename_i hbn
    have hinc : incRef (s₁.e k).ref = (s₁.e k).ref + 1 := if_neg (hroom hbn)
    have hinv : Inv (some k) (s₁.modify k fun e => { e with ref := incRef e.ref }) := by
      refine h.inv.setRef (r := incRef (s₁.e k).ref) h.linked (fun _ => ?_)
        (fun hc => absurd rfl hc) fun hk0 => ?_
      · rw [hinc]
        exact Nat.succ_pos _
      · have := hk.claims hk0
        omega
    refine ⟨hinv.settle ?_, ?_, fun i hik => modify_ne _ _ hik⟩
    · rw [modify_self]
      intro hc
      exact absurd (hinc.symm.trans hc) (Nat.succ_ne_zero _)
    · intro hk0
      have := hk.claims hk0
      rw [modify_self]
      exact (Nat.succ_le_succ this).trans hinc.ge
  · rename_i hbn
    obtain rfl : k = 0 := h.super (not_not.mp hbn)
    have := h.inv.super.2
    refine ⟨h.inv.settle fun hr => ?_, fun hc => absurd rfl hc, fun _ _ => rfl⟩
    omega

theorem addRef_other (s : State) (k bn : Nat) : (addRef s k bn).tasks = s.tasks ∧
    (addRef s k bn).cmds = s.cmds ∧ (addRef s k bn).dirtyList = s.dirtyList ∧
    (addRef s k bn).linked k = s.linked k ∧ ((addRef s k bn).e k).bn = (s.e k).bn := by
  unfold addRef
  split
  · exact ⟨rfl, rfl, rfl, rfl, by rw [modify_self]⟩
  · exact ⟨rfl, rfl, rfl, rfl, rfl⟩

theorem enterMain_inv {s₁ : State} {bn : Nat} {p : Bool} (h : Placed s s₁ k bn)
    (hroom : bn ≠ 0 → (s₁.e k).ref ≠ 2 ^ 32 - 1)
    (hτ : s.tasks.get τ = none ∨ s.tasks.get τ = some (.flush (.main bn))) :
    Inv none ((addRef s₁ k bn).goto τ (.load (.main bn) k p)) := by
  obtain ⟨hinv, hself, hother⟩ := h.addRef hroom
  obtain ⟨ht, hc, hd, hl, hbn⟩ := addRef_other s₁ k bn
  have hclaim : ∀ i ≠ 0, (addRef s₁ k bn).tasks.sum (claim i) + claim i (.load (.main bn) k p) ≤
      ((addRef s₁ k bn).e i).ref := by
    intro i hi
    by_cases hik : i = k
    · subst hik
      rw [claim, one_self, ht]
      exact hself hi
    · have := (h.inv.entry i).claims hi
      rw [claim, one_ne (Ne.symm hik), Nat.add_zero, ht, hother i hik]
      exact this
  have hneeds : ∀ i, (Pc.load (.main bn) k p).target = some i →
      (Pc.load (.main bn) k p).needs ((addRef s₁ k bn).e i) ((addRef s₁ k bn).linked i) := by
    intro i hi
    obtain rfl := Option.some.inj hi
    exact ⟨hbn.trans h.block, hl.trans h.linked⟩
  obtain hτ | hτ := hτ
  · refine hinv.spawn (by rw [ht, h.tasks, hτ]) hclaim (fun _ => rfl) ?_ hneeds nofun
    exact fun i => (hinv.entry i).writers
  · have hpc : (addRef s₁ k bn).tasks.get τ = some (.flush (.main bn)) := by rw [ht, h.tasks, hτ]
    refine hinv.goto hpc ?_ ?_ (fun _ => rfl) hneeds nofun
    · exact fun i hi => (hclaim i hi).trans (Nat.le_add_right _ _)
    · exact fun i => (hinv.entry i).busy

/-- The prefetched slot is referenced or in the prefetch list. -/
theorem Placed.movePrefetch {s₁ s₂ : State} {bn : Nat} (h : Placed s s₁ k bn)
    (hstep : movePrefetch s₁ k = some s₂) : Inv none s₂ ∧ (s₂.e k).bn = bn ∧ s₂.linked k = true ∧
      s₂.tasks = s₁.tasks ∧ s₂.cmds = s₁.cmds := by
  unfold BufCache.movePrefetch at hstep
  split at hstep
  · obtain ⟨s₃, h₃, hstep⟩ := Option.bind_eq_some_iff.mp hstep
    obtain rfl := Option.some.inj hstep
    obtain ⟨hl, rfl⟩ := unlink_some h₃
    have hpref :
        Inv none { s₁ with eList := s₁.eList.erase k, prefList := k :: s₁.prefList.erase k } :=
      h.inv.pushPref hl fun i hik hc => hik (Option.some.inj hc).symm
    have hk := hpref.entry k
    refine ⟨?_, ?_, ?_, rfl, rfl⟩
    · refine hpref.modify rfl rfl ?_ ?_ hk.flags hk.dirty hk.idle hk.dirtied hk.claims ?_ ?_
      · rintro rfl
        exact h.inv.super.2
      · intro he hl'
        obtain ⟨h₁, -, h₂⟩ := hk.empty he hl'
        exact ⟨h₁, h₂⟩
      · intro τ pc _ _ hneeds
        cases pc <;> exact hneeds
      · exact fun _ _ _ _ hneeds => hneeds
    · rw [modify_self]
      exact h.block
    · refine linked_iff.mpr ?_
      show 0 < _ + (k :: s₁.prefList.erase k).count k
      rw [List.count_cons_self]
      omega
  · rename_i hr
    obtain rfl := Option.some.inj hstep
    exact ⟨h.inv.settle fun hc => absurd hc hr, h.block, h.linked, rfl, rfl⟩

theorem enterAhead_inv {s₁ s₂ : State} {bn n : Nat} (h : Placed s s₁ k (Job.ahead bn i n).block)
    (hpc : s.tasks.get τ = some pc) (hclaim : ∀ k, claim k pc = one k i)
    (hqueue : ∀ k, queuing k pc = 0) (hwrite : ∀ k, writingTo k pc = 0)
    (hstep : movePrefetch s₁ k = some s₂) :
    Inv none (s₂.goto τ (.load (.ahead bn i n) k false)) := by
  obtain ⟨hinv, hbn, hl, ht, hc⟩ := h.movePrefetch hstep
  refine hinv.goto (by rw [ht, h.tasks, hpc]) ?_ ?_ (fun k => (hwrite k).symm) ?_ nofun
  · intro k hk
    have := (hinv.entry k).claims hk
    rw [hclaim]
    exact Nat.add_le_add_right this _
  · intro k
    rw [hqueue]
    exact (hinv.entry k).busy
  · intro k hk
    obtain rfl := Option.some.inj hk
    exact ⟨hbn, hl⟩

/-! ### Loading -/

/-- A task goes on to a place where it has the references it had, relies on no entry and
is about to queue nothing. -/
theorem Inv.advance (h : Inv x s) (hpc : s.tasks.get τ = some pc)
    (hclaim : ∀ k, claim k pc' ≤ claim k pc) (hqueue : ∀ k, queuing k pc' = 0)
    (hwrite : ∀ k, writingTo k pc' = writingTo k pc) (htarget : pc'.target = none)
    (hflush : ∀ j, pc' ≠ .flush j) : Inv x (s.goto τ pc') := by
  refine h.goto hpc ?_ ?_ hwrite ?_ ?_
  · intro k hk
    have := (h.entry k).claims hk
    exact Nat.add_le_add this (hclaim k)
  · intro k
    rw [hqueue]
    have := (h.entry k).busy
    omega
  · intro k hk
    rw [htarget] at hk
    cases hk
  · exact fun j hj => absurd hj (hflush j)

/-- A task that does not write returns. -/
theorem Inv.return (h : Inv x s) (hpc : s.tasks.get τ = some pc)
    (hwrite : ∀ k, writingTo k pc = 0) : Inv x (s.leave τ) := by
  refine h.leave hpc ?_
  intro k
  rw [hwrite]
  exact (h.entry k).writes

/-- `load_disk_block` returns. -/
theorem loaded_inv {j : Job} {p ok : Bool} (h : Inv none s)
    (hpc : s.tasks.get τ = some pc) (hclaim : ∀ i, claim i pc = claim i (.load j k p))
    (hwrite : ∀ i, writingTo i pc = 0) : Inv none (loaded s τ j k p ok) := by
  cases j with
  | main bn =>
    cases ok with
    | true =>
      cases p with
      | true =>
        exact h.advance hpc (fun i => (hclaim i).ge) (fun _ => rfl) (fun i => (hwrite i).symm)
          rfl nofun
      | false =>
        exact h.advance hpc (fun i => (hclaim i).ge) (fun _ => rfl) (fun i => (hwrite i).symm)
          rfl nofun
    | false => exact h.return hpc hwrite
  | ahead bn i n =>
    cases ok with
    | true =>
      exact h.advance hpc (fun i => (hclaim i).ge) (fun _ => rfl) (fun i => (hwrite i).symm)
        rfl nofun
    | false =>
      exact h.advance hpc (fun i => (hclaim i).ge) (fun _ => rfl) (fun i => (hwrite i).symm)
        rfl nofun

/-- An entry that is not being loaded, and is not loaded, is marked. -/
theorem Inv.setLoading (h : Inv none s) (hl : s.linked k = true) (hno : (s.e k).loadeding = false) :
    Inv none (s.modify k fun e => { e with loading := true }) ∧ s.tasks.sum (queuing k) = 0 ∧
      s.cmds.sum (onEntry k) = 0 := by
  have hk := h.entry k
  obtain ⟨hloaded, hloading⟩ := Bool.or_eq_false_iff.mp hno
  have hdirty : (s.e k).dirty = false := by
    by_contra hc
    rw [Bool.not_eq_false] at hc
    rw [hk.dirty hc] at hloaded
    cases hloaded
  refine ⟨?_, hk.queuing_zero hloading, cmds_zero fun q c hq => hk.no_cmd hloading hdirty hq⟩
  refine h.modify rfl rfl ?_ ?_ (fun _ => hloaded) hk.dirty hk.idle hk.dirtied hk.claims ?_ ?_
  · rintro rfl
    exact h.super.2
  · intro _ hl'
    rw [hl] at hl'
    cases hl'
  · intro τ pc _ _ hneeds
    cases pc with
    | queue j i p => exact ⟨hneeds.1, hneeds.2.1, rfl, hneeds.2.2.2⟩
    | _ => exact hneeds
  · exact fun q c hq hc _ => absurd hc (hk.no_cmd hloading hdirty hq)

/-- An entry that is not being loaded, and is not loaded, gets a buffer. -/
theorem Inv.setBuf {b : Nat} (h : Inv none s) (hl : s.linked k = true) (hnone : (s.e k).buf = none)
    (hb : b ∉ s.live) : Inv none (({ s with live := insert b s.live } : State).modify k
      fun e => { e with buf := some b }) := by
  have hk := h.entry k
  have hothers : ∀ i, i ≠ k → (({ s with live := insert b s.live } : State).modify k
      fun e => { e with buf := some b }).e i = s.e i := fun i hik => modify_ne _ _ hik
  have hself : (({ s with live := insert b s.live } : State).modify k
      fun e => { e with buf := some b }).e k = { s.e k with buf := some b } := modify_self ..
  have hbns : ∀ i, ((({ s with live := insert b s.live } : State).modify k
      fun e => { e with buf := some b }).e i).bn = (s.e i).bn := by
    intro i
    by_cases hik : i = k
    · rw [hik, hself]
    · rw [hothers i hik]
  refine ⟨?_, ?_, ⟨?_, ?_⟩, ?_, h.flushes⟩
  · intro i
    have hi := h.entry i
    by_cases hik : i = k
    · subst hik
      constructor
      case live =>
        intro b' hb'
        rw [hself] at hb'
        obtain rfl := Option.some.inj hb'
        exact Finset.mem_insert_self ..
      case empty =>
        intro _ hl'
        cases hl.symm.trans hl'
      case once => exact hk.once
      case flags => exact hself ▸ hk.flags
      case dirty => exact hself ▸ hk.dirty
      case idle => exact hself ▸ hk.idle
      case dirtied => exact hself ▸ hk.dirtied
      case claims => exact hself ▸ hk.claims
      case busy => exact hk.busy
      case writers => exact hk.writers
      case writes => exact hk.writes
      case tasks =>
        intro τ pc hpc ht
        have hneeds := hk.tasks τ pc hpc ht
        rw [hself]
        cases pc with
        | queue j i p => exact absurd hnone hneeds.2.2.2.2
        | _ => exact hneeds
      case cmds =>
        intro q c hq hc
        obtain ⟨hst, hneeds⟩ := hk.cmds q c hq hc
        rw [hself]
        refine ⟨hst, ?_⟩
        split at hneeds
        · rename_i hw
          rw [if_pos hw]
          exact hneeds
        · rw [hnone] at hneeds
          cases hneeds.2.1
    · refine hi.frame (hothers i hik) rfl rfl rfl rfl rfl ?_ id
      exact fun b' hb' => Finset.mem_insert_of_mem (hi.live b' hb')
  · intro i j b' hbi hbj
    by_cases hik : i = k
    · by_cases hjk : j = k
      · rw [hik, hjk]
      · rw [hik, hself] at hbi
        rw [hothers j hjk] at hbj
        obtain rfl := Option.some.inj hbi
        exact absurd ((h.entry j).live _ hbj) hb
    · by_cases hjk : j = k
      · rw [hjk, hself] at hbj
        rw [hothers i hik] at hbi
        obtain rfl := Option.some.inj hbj
        exact absurd ((h.entry i).live _ hbi) hb
      · rw [hothers i hik] at hbi
        rw [hothers j hjk] at hbj
        exact h.inj i j b' hbi hbj
  · rw [hbns]
    exact h.super.1
  · by_cases hk0 : 0 = k
    · subst hk0
      rw [hself]
      exact h.super.2
    · rw [hothers 0 hk0]
      exact h.super.2
  · intro i hi
    rw [hbns] at hi
    exact h.super_only i hi

theorem modify_modify (s : State) (k : Nat) (f g : Entry → Entry) :
    (s.modify k f).modify k g = s.modify k fun e => g (f e) := by
  unfold State.modify
  simp only [Function.update_self, Function.update_idem]

/-- A task marks its entry and is about to queue the read. -/
theorem Inv.toQueue {j : Job} {p : Bool} (h : Inv none s) (hpc : s.tasks.get τ = some (.load j k p))
    (hno : (s.e k).loadeding = false) (hbuf : (s.e k).buf ≠ none) :
    Inv none ((s.modify k fun e => { e with loading := true }).goto τ (.queue j k p)) := by
  obtain ⟨hbn, hl⟩ := (h.entry k).tasks τ _ hpc rfl
  obtain ⟨hinv, hq, hc⟩ := h.setLoading hl hno
  have hclaim : ∀ i, claim i (.queue j k p) = claim i (.load j k p) := by
    intro i
    cases j <;> rfl
  refine hinv.goto hpc ?_ ?_ (fun _ => rfl) ?_ nofun
  · intro i hi
    rw [hclaim]
    exact Nat.add_le_add_right ((hinv.entry i).claims hi) _
  · intro i
    by_cases hik : k = i
    · subst hik
      show s.tasks.sum (queuing k) + s.cmds.sum (onEntry k) + one k k ≤ 1 + 0
      rw [hq, hc, one_self]
    · have := (hinv.entry i).busy
      rw [queuing, one_ne hik]
      exact this.trans (Nat.le_add_right _ _)
  · intro i hi
    obtain rfl := Option.some.inj hi
    rw [modify_self]
    exact ⟨hbn, hl, rfl, (Bool.or_eq_false_iff.mp hno).1, hbuf⟩

/-- `kalloc` fails in `load_disk_block`. -/
def NoMemory (s : State) : Label → Prop
  | .load τ buf => buf = none ∧ ∃ j k p, s.tasks.get τ = some (.load j k p) ∧
      (s.e k).loadeding = false ∧ (s.e k).buf = none
  | _ => False

theorem loadDiskBlock_inv {buf : Option Nat} (h : Inv none s) (hok : ¬NoMemory s (.load τ buf))
    (hstep : loadDiskBlock s τ buf = some s') : Inv none s' := by
  unfold loadDiskBlock at hstep
  split at hstep
  · rename_i j k p hpc
    split at hstep
    · obtain rfl := Option.some.inj hstep
      exact loaded_inv h hpc (fun _ => rfl) fun _ => rfl
    · rename_i hno
      rw [Bool.not_eq_true] at hno
      obtain ⟨hbn, hl⟩ := (h.entry k).tasks τ _ hpc rfl
      split at hstep
      · rename_i hb
        obtain rfl := Option.some.inj hstep
        exact h.toQueue hpc hno (by rw [hb]; exact Option.some_ne_none _)
      · rename_i b hb
        obtain ⟨hfresh, hstep⟩ := of_guard hstep
        obtain rfl := Option.some.inj hstep
        have hinv := h.setBuf hl hb hfresh
        have hq := hinv.toQueue (k := k) hpc (by rw [modify_self]; exact hno)
          (by rw [modify_self]; exact Option.some_ne_none b)
        rw [modify_modify] at hq
        exact hq
      · rename_i hb
        exact absurd ⟨rfl, j, k, p, hpc, hno, hb⟩ hok
  · cases hstep

theorem openSlot_get {nslots q : Nat} (h : openSlot nslots s = some q) : s.cmds.get q = none :=
  of_decide_eq_true (List.find?_some (p := fun q => decide (s.cmds.get q = none)) h)

theorem loaded_issue {q : Nat} {c : Cmd} {j : Job} {p ok : Bool} :
    loaded (issue s q c) τ j k p ok = issue (loaded s τ j k p ok) q c := by
  cases j <;> cases ok <;> rfl

theorem loaded_modify {f : Entry → Entry} {j : Job} {p ok : Bool} :
    loaded (s.modify i f) τ j k p ok = (loaded s τ j k p ok).modify i f := by
  cases j <;> cases ok <;> rfl

/-- What `load_disk_block` returning leaves. -/
theorem loaded_other (s : State) (τ : Nat) (j : Job) (k : Nat) (p ok : Bool) :
    (loaded s τ j k p ok).e = s.e ∧ (loaded s τ j k p ok).cmds = s.cmds ∧
    (loaded s τ j k p ok).dirtyList = s.dirtyList ∧
    (loaded s τ j k p ok).eList = s.eList ∧ (loaded s τ j k p ok).prefList = s.prefList := by
  cases j <;> cases ok <;> exact ⟨rfl, rfl, rfl, rfl, rfl⟩

/-- The task that has queued its read, or failed to, is no longer about to. -/
theorem loaded_queuing {j : Job} {p : Bool} (ok : Bool) (hpc : s.tasks.get τ = some (.queue j k p))
    (hbusy : s.tasks.sum (queuing k) ≤ 1) : (loaded s τ j k p ok).tasks.sum (queuing k) = 0 := by
  have herase := Heap.sum_erase (w := queuing k) hpc
  rw [queuing, one_self] at herase
  have hset : ∀ pc', queuing k pc' = 0 → (s.tasks.set τ pc').sum (queuing k) = 0 := by
    intro pc' hpc'
    have := Heap.sum_set (w := queuing k) (x := pc') hpc
    rw [queuing, one_self, hpc'] at this
    omega
  cases j with
  | main bn =>
    cases ok with
    | true => cases p <;> exact hset _ rfl
    | false =>
      show (s.tasks.erase τ).sum (queuing k) = 0
      omega
  | ahead bn i n => cases ok <;> exact hset _ rfl

theorem queueRead_inv {nslots : Nat} (h : Inv none s) (hstep : queueRead nslots s τ = some s') :
    Inv none s' := by
  unfold queueRead at hstep
  split at hstep
  · rename_i j k p hpc
    have hk := h.entry k
    obtain ⟨hbn, hl, hloading, hloaded, hbuf⟩ := hk.tasks τ _ hpc rfl
    have hle : 1 ≤ s.tasks.sum (queuing k) := by
      have := Heap.le_sum (w := queuing k) hpc
      rwa [queuing, one_self] at this
    have hbusy := hk.busy
    -- no command of the entry is outstanding
    have hno : ∀ q c, s.cmds.get q = some c → c.entry ≠ k := by
      intro q c hq hc
      have := Heap.le_sum (w := onEntry k) hq
      rw [onEntry, hc, one_self] at this
      omega
    have hclaim : ∀ i, claim i (.queue j k p) = claim i (.load j k p) := by
      intro i
      cases j <;> rfl
    have hinv : ∀ ok, Inv none (loaded s τ j k p ok) :=
      fun ok => loaded_inv h hpc hclaim fun _ => rfl
    split at hstep
    · obtain rfl := Option.some.inj hstep
      rw [loaded_modify]
      obtain ⟨he, hc, hd, hE, hP⟩ := loaded_other s τ j k p false
      have hk' := (hinv false).entry k
      have hqz := loaded_queuing false hpc (by omega)
      refine (hinv false).modify rfl rfl ?_ ?_ nofun hk'.dirty hk'.idle hk'.dirtied hk'.claims ?_ ?_
      · rintro rfl
        exact (hinv false).super.2
      · intro he hl'
        obtain ⟨h₁, -, h₂, -, h₃⟩ := hk'.empty he hl'
        exact ⟨h₁, h₂, rfl, h₃⟩
      · intro τ' pc hpc' ht hneeds
        cases pc with
        | queue j' i p' =>
          obtain rfl := Option.some.inj ht
          have := Heap.sum_eq_zero.mp hqz τ' _ hpc'
          rw [queuing, one_self] at this
          cases this
        | _ => exact hneeds
      · intro q c hq hc' _
        rw [hc] at hq
        exact absurd hc' (hno q c hq)
    · rename_i q hq
      obtain ⟨b, hb, hstep⟩ := Option.bind_eq_some_iff.mp hstep
      obtain rfl := Option.some.inj hstep
      rw [loaded_issue]
      obtain ⟨he, hc, hd, hE, hP⟩ := loaded_other s τ j k p true
      refine (hinv true).issue ?_ ?_ (loaded_queuing true hpc (by omega)) nofun ?_
      · rw [hc]
        exact openSlot_get hq
      · rw [hc]
        exact hno
      · rw [he, if_neg Bool.false_ne_true]
        exact ⟨hbn, hb, hloading, hloaded⟩
  · cases hstep

/-! ### Returning an entry, and letting it go -/

/-- A task stops waiting for an entry whose read has not been queued: another task is about
to queue it, or has failed to. -/
def FinishesEarly (s : State) : Label → Prop
  | .finish τ => ∃ k, s.tasks.get τ = some (.wait k) ∧
      ((s.e k).loadeding = false ∨ ∃ τ' j p, s.tasks.get τ' = some (.queue j k p))
  | _ => False

/-- Only `prefetched_` changes. -/
theorem Inv.setPrefetched {b : Bool} (h : Inv x s) :
    Inv x (s.modify k fun e => { e with prefetched := b }) := by
  have hk := h.entry k
  refine h.modify rfl rfl ?_ ?_ hk.flags hk.dirty hk.idle hk.dirtied hk.claims ?_ ?_
  · rintro rfl
    exact h.super.2
  · intro he hl
    obtain ⟨h₁, -, h₂⟩ := hk.empty he hl
    exact ⟨h₁, h₂⟩
  · intro τ pc _ _ hneeds
    cases pc <;> exact hneeds
  · exact fun _ _ _ _ hneeds => hneeds

/-- The read of an entry is done. -/
theorem Inv.setLoaded (h : Inv none s) (hloading : (s.e k).loading = true)
    (hst : (s.e k).fetchStatus ≠ .again) (hq : ∀ τ j p, s.tasks.get τ ≠ some (.queue j k p)) :
    Inv none (s.modify k fun e => { e with loading := false, loaded := true }) := by
  have hk := h.entry k
  refine h.modify rfl rfl ?_ ?_ nofun (fun _ => rfl) (fun _ _ _ => rfl) hk.dirtied hk.claims ?_ ?_
  · rintro rfl
    exact h.super.2
  · intro he hl
    rw [(hk.empty he hl).2.2.2.1] at hloading
    cases hloading
  · intro τ pc hpc ht hneeds
    cases pc with
    | queue j i p =>
      obtain rfl := Option.some.inj ht
      exact absurd hpc (hq τ j p)
    | hold i => rfl
    | _ => exact hneeds
  · exact fun q c hq hc _ => absurd hc (hk.no_cmd_status hst hq)

theorem finishLoad_inv (h : Inv none s) (hst : (s.e k).fetchStatus ≠ .again)
    (hlo : (s.e k).loadeding = true) (hq : ∀ τ j p, s.tasks.get τ ≠ some (.queue j k p))
    (hstep : finishLoad s k = some s') : Inv none s' ∧ (s'.e k).loaded = true ∧
    s'.tasks = s.tasks := by
  unfold finishLoad at hstep
  split at hstep
  · rename_i hloading
    have hinv := h.setLoaded hloading hst hq
    have hloaded :
        ((s.modify k fun e => { e with loading := false, loaded := true }).e k).loaded = true := by
      rw [modify_self]
    dsimp only at hstep
    split at hstep
    · obtain ⟨s₁, h₁, hstep⟩ := Option.bind_eq_some_iff.mp hstep
      obtain rfl := Option.some.inj hstep
      obtain ⟨hl, rfl⟩ := unlink_some h₁
      have hback := hinv.pushBack (y := none) hl (fun _ _ => hloaded) fun _ _ _ => nofun
      refine ⟨hback.setPrefetched, ?_, rfl⟩
      rw [modify_self]
      exact hloaded
    · obtain rfl := Option.some.inj hstep
      exact ⟨hinv, hloaded, rfl⟩
  · rename_i hno
    obtain rfl := Option.some.inj hstep
    refine ⟨h, ?_, rfl⟩
    obtain hl | hl := Bool.or_eq_true_iff.mp hlo
    · exact hl
    · exact absurd hl hno

theorem finish_inv (h : Inv none s) (hok : ¬FinishesEarly s (.finish τ))
    (hstep : finish s τ = some s') :
    Inv none s' := by
  unfold finish at hstep
  split at hstep
  · rename_i k hpc
    obtain ⟨hst, hstep⟩ := of_guard hstep
    obtain ⟨s₁, h₁, hstep⟩ := Option.bind_eq_some_iff.mp hstep
    obtain rfl := Option.some.inj hstep
    have hlo : (s.e k).loadeding = true := by
      by_contra hc
      exact hok ⟨k, hpc, .inl (Bool.not_eq_true _ ▸ hc)⟩
    have hq : ∀ τ' j p, s.tasks.get τ' ≠ some (.queue j k p) :=
      fun τ' j p hc => hok ⟨k, hpc, .inr ⟨τ', j, p, hc⟩⟩
    obtain ⟨hinv, hloaded, ht⟩ := finishLoad_inv h hst hlo hq h₁
    have hpc₁ : s₁.tasks.get τ = some (.wait k) := by rw [ht, hpc]
    refine hinv.goto hpc₁ ?_ ?_ (fun _ => rfl) ?_ nofun
    · exact fun i hi => Nat.add_le_add_right ((hinv.entry i).claims hi) _
    · exact fun i => (hinv.entry i).busy
    · intro i hi
      obtain rfl := Option.some.inj hi
      exact hloaded
  · cases hstep

theorem putEntry_inv (h : Inv none s) (hstep : putEntry s τ = some s') : Inv none s' := by
  unfold putEntry at hstep
  split at hstep
  · rename_i k hpc
    have hleave : Inv none (s.leave τ) := h.return hpc fun _ => rfl
    have hk := h.entry k
    have hloaded : (s.e k).loaded = true := hk.tasks τ _ hpc rfl
    split at hstep
    · rename_i hbn
      obtain rfl := Option.some.inj hstep
      have hk0 : k ≠ 0 := by
        rintro rfl
        exact hbn h.super.1
      have hclaims := hk.claims hk0
      have herase := Heap.sum_erase (w := claim k) hpc
      rw [claim, one_self] at herase
      have hdec : decRef (s.e k).ref = (s.e k).ref - 1 := if_neg (by omega)
      have hk' := hleave.entry k
      refine hleave.modify (k := k) (f := fun e => { e with ref := decRef e.ref }) rfl rfl ?_ ?_
        hk'.flags hk'.dirty (fun _ _ _ => hloaded) hk'.dirtied ?_ ?_ ?_
      · exact fun hz => absurd hz hk0
      · intro he hl
        have := (hk.empty he hl).2.2.1
        rw [hloaded] at this
        cases this
      · intro _
        show (s.tasks.erase τ).sum (claim k) ≤ decRef (s.e k).ref
        omega
      · intro τ pc _ _ hneeds
        cases pc <;> exact hneeds
      · exact fun _ _ _ _ hneeds => hneeds
    · obtain rfl := Option.some.inj hstep
      exact hleave
  · cases hstep

/-! ### Writing back -/

theorem sullyEntry_inv (h : Inv none s) (hloaded : (s.e k).loaded = true)
    (hstep : sullyEntry s k = some s') : Inv none s' := by
  unfold sullyEntry at hstep
  split at hstep
  · obtain rfl := Option.some.inj hstep
    exact h
  · rename_i hclean
    rw [Bool.not_eq_true] at hclean
    obtain ⟨hmem, hstep⟩ := of_guard hstep
    obtain rfl := Option.some.inj hstep
    have hk := h.entry k
    have hmod : Inv none (s.modify k fun e => { e with dirty := true }) := by
      refine h.modify rfl rfl ?_ ?_ hk.flags (fun _ => hloaded) hk.idle
        (fun _ => rfl) hk.claims ?_ ?_
      · rintro rfl
        exact h.super.2
      · intro he hl
        rw [(hk.empty he hl).2.2.1] at hloaded
        cases hloaded
      · intro τ pc _ _ hneeds
        cases pc with
        | writing i => rfl
        | _ => exact hneeds
      · rintro q c - - ⟨hst, hneeds⟩
        refine ⟨hst, ?_⟩
        split at hneeds
        · rename_i hw
          rw [if_pos hw]
          exact ⟨hneeds.1, rfl⟩
        · rename_i hw
          rw [if_neg hw]
          exact hneeds
    refine hmod.redirty (k := k) (l := k :: s.dirtyList) ?_ ?_ ?_
    · exact fun i hik => List.count_cons_of_ne (Ne.symm hik)
    · intro _
      rw [modify_self]
    · rw [List.count_cons_self, List.count_eq_zero.mpr hmem]
      show 0 + 1 + s.tasks.sum (writingTo k) ≤ 1
      rw [hk.writing_zero hclean]

theorem sully_inv (h : Inv none s) (hstep : sully s τ = some s') : Inv none s' := by
  unfold sully at hstep
  split at hstep
  · rename_i k hpc
    exact sullyEntry_inv h ((h.entry k).tasks τ _ hpc rfl) hstep
  · cases hstep

theorem writeBack_inv {nslots : Nat} (h : Inv none s) (hstep : writeBack nslots s τ k = some s') :
    Inv none s' := by
  unfold writeBack at hstep
  obtain ⟨hτ, hstep⟩ := of_guard hstep
  obtain ⟨hmem, hstep⟩ := of_guard hstep
  obtain ⟨s₁, h₁, hstep⟩ := Option.bind_eq_some_iff.mp hstep
  obtain ⟨q, hq, hstep⟩ := Option.bind_eq_some_iff.mp hstep
  obtain ⟨b, hb, hstep⟩ := Option.bind_eq_some_iff.mp hstep
  obtain rfl := Option.some.inj hstep
  have hk := h.entry k
  have hdirty := hk.dirtied hmem
  have hloaded := hk.dirty hdirty
  have hcount : s.dirtyList.count k + s.tasks.sum (writingTo k) ≤ 1 := hk.writers
  have hpos := List.count_pos_iff.mpr hmem
  -- the entry is dirty, so marking it again does nothing
  obtain rfl : { s with dirtyList := s.dirtyList.erase k } = s₁ := by
    unfold sullyEntry at h₁
    rw [if_pos (by exact hdirty)] at h₁
    exact Option.some.inj h₁
  have hinv : Inv none { s with dirtyList := s.dirtyList.erase k } := by
    refine h.redirty (k := k) (fun i hik => List.count_erase_of_ne hik) (fun _ => hdirty) ?_
    rw [List.count_erase_self]
    omega
  have hspawn :
      Inv none (({ s with dirtyList := s.dirtyList.erase k } : State).goto τ (.writing k)) := by
    refine hinv.spawn hτ ?_ (fun _ => rfl) ?_ ?_ nofun
    · exact fun i hi => (hinv.entry i).claims hi
    · intro i
      by_cases hik : k = i
      · subst hik
        show (s.dirtyList.erase k).count k + s.tasks.sum (writingTo k) + one k k ≤ 1
        rw [List.count_erase_self, one_self]
        omega
      · have := (hinv.entry i).writers
        rw [writingTo, one_ne hik]
        exact this
    · intro i hi
      obtain rfl := Option.some.inj hi
      exact hdirty
  -- a read that is outstanding or about to be queued is of an entry that is not loaded
  have hno : ∀ q c, s.cmds.get q = some c → c.entry ≠ k := by
    intro q c hq hc
    have hw : writeOn k c ≤ s.cmds.sum (writeOn k) := Heap.le_sum hq
    have hle := hk.writes
    have hneeds := (hk.cmds q c hq hc).2
    rw [writeOn, hc, one_self] at hw
    split at hneeds
    · rename_i hwrite
      rw [if_pos hwrite] at hw
      omega
    · rw [hloaded] at hneeds
      cases hneeds.2.2.2
  have hloading : (s.e k).loading = false := by
    by_contra hc
    rw [Bool.not_eq_false] at hc
    rw [hk.flags hc] at hloaded
    cases hloaded
  refine hspawn.issue (c := ⟨k, b, (s.e k).bn, true⟩) (openSlot_get hq) hno ?_ ?_ ?_
  · show (s.tasks.set τ (.writing k)).sum (queuing k) = 0
    rw [Heap.sum_set_fresh hτ, hk.queuing_zero hloading]
    rfl
  · intro _
    show 0 < (s.tasks.set τ (.writing k)).sum (writingTo k)
    rw [Heap.sum_set_fresh hτ, writingTo, one_self]
    omega
  · rw [if_pos rfl]
    exact ⟨hloaded, hdirty⟩

theorem markClean_inv (h : Inv none s) (hstep : markClean s τ = some s') : Inv none s' := by
  unfold markClean at hstep
  split at hstep
  · rename_i k hpc
    obtain ⟨hst, hstep⟩ := of_guard hstep
    obtain rfl := Option.some.inj hstep
    have hk := h.entry k
    have hno : ∀ q c, s.cmds.get q = some c → c.entry ≠ k := fun q c hq => hk.no_cmd_status hst hq
    have hwriters := hk.writers
    have herase := Heap.sum_erase (w := writingTo k) hpc
    rw [writingTo, one_self] at herase
    have hleave : Inv none (s.leave τ) := by
      refine h.leave hpc ?_
      intro i
      by_cases hik : k = i
      · subst hik
        rw [writes_zero hno, writingTo, one_self]
        omega
      · rw [writingTo, one_ne hik]
        exact (h.entry i).writes
    have hk' := hleave.entry k
    refine hleave.modify (k := k) (f := fun e => { e with dirty := false }) rfl rfl ?_ ?_
      hk'.flags nofun hk'.idle ?_ hk'.claims ?_ ?_
    · rintro rfl
      exact h.super.2
    · intro he hl
      obtain ⟨h₁, -, h₂, h₃, -⟩ := hk.empty he hl
      exact ⟨h₁, h₂, h₃, rfl⟩
    · intro hmem
      have := List.count_pos_iff.mpr (show k ∈ s.dirtyList from hmem)
      omega
    · intro τ' pc hpc' ht hneeds
      cases pc with
      | writing i =>
        obtain rfl := Option.some.inj ht
        have hle : writingTo i (.writing i) ≤ (s.tasks.erase τ).sum (writingTo i) :=
          Heap.le_sum hpc'
        rw [writingTo, one_self] at hle
        omega
      | _ => exact hneeds
    · exact fun q c hq hc _ => absurd hc (hno q c hq)
  · cases hstep

/-! ### Dropping entries -/

/-- `sync(true)` finds an entry without references that is not free to go: it is dirty, a
task has taken its slot and not queued the read, or the disk has a command for it. -/
def DropsBusy (s : State) : Label → Prop
  | .drop => ∃ k < ne, (s.e k).bn ≠ emptyblock ∧ (s.e k).ref = 0 ∧
      ((s.e k).dirty = true ∨ Window s k ∨ ∃ q c, s.cmds.get q = some c ∧ c.entry = k)
  | _ => False

theorem idle_of_not_dropsBusy (hok : ¬DropsBusy s .drop) (hk : k < ne)
    (hbn : (s.e k).bn ≠ emptyblock) (hr : (s.e k).ref = 0) : Idle s k := by
  refine ⟨hr, ?_, ?_, ?_⟩
  · by_contra hd
    exact hok ⟨k, hk, hbn, hr, .inl (Bool.not_eq_false _ ▸ hd)⟩
  · exact fun hw => hok ⟨k, hk, hbn, hr, .inr (.inl hw)⟩
  · exact fun q c hq hc => hok ⟨k, hk, hbn, hr, .inr (.inr ⟨q, c, hq, hc⟩)⟩

/-- The loop keeps the invariant: what it releases leaves the other entries free to go. -/
theorem drop_inv : ∀ (l : List Nat) {s s' : State}, Inv none s →
    (∀ k ∈ l, (s.e k).bn ≠ emptyblock → (s.e k).ref = 0 → Idle s k) → drop l s = some s' →
    Inv none s' := by
  intro l
  induction l with
  | nil =>
    intro s s' h _ hstep
    rw [← Option.some.inj hstep]
    exact h
  | cons k l ih =>
    intro s s' h hidle hstep
    rw [drop] at hstep
    split at hstep
    · rename_i hk
      simp only [ne_eq, decide_not, Bool.and_eq_true, Bool.not_eq_true', decide_eq_false_iff_not,
        decide_eq_true_eq] at hk
      obtain ⟨s₁, h₁, hstep⟩ := Option.bind_eq_some_iff.mp hstep
      obtain ⟨hl, rfl⟩ := unlink_some h₁
      refine ih (h.free hl (hidle k (List.mem_cons_self ..) hk.1 hk.2)) ?_ hstep
      intro i hi hbn hr
      by_cases hik : i = k
      · rw [hik, release_e_self] at hbn
        exact absurd rfl hbn
      · rw [release_e_ne hik] at hbn hr
        obtain ⟨h₁, h₂, h₃, h₄⟩ := hidle i (List.mem_cons_of_mem _ hi) hbn hr
        exact ⟨by rw [release_e_ne hik]; exact h₁, by rw [release_e_ne hik]; exact h₂, h₃, h₄⟩
    · exact ih h (fun i hi => hidle i (List.mem_cons_of_mem _ hi)) hstep

/-! ### Runs -/

/-- No slot is free among the indices `l`, and the entry that is evicted is one whose slot a
task has taken without having queued the read. -/
def EvictsFrom (s : State) (l : List Nat) : Prop :=
  findFree s.e l = .full ∧ ∃ k, victim s = some k ∧ Window s k

/-- An eviction takes an entry that a task is about to load. -/
def EvictsLoading (s : State) : Label → Prop
  | .get _ bn => findBlock s.e bn = none ∧ EvictsFrom s (List.range ne)
  | .resume _ => EvictsFrom s (List.range ne).tail
  | .prefetch τ => ∃ bn i n, s.tasks.get τ = some (.next bn i n) ∧ n ≤ nPrefetch ∧
      findBlock s.e ((bn + n) % 2 ^ 32) = none ∧ EvictsFrom s (List.range ne)
  | _ => False

/-- A call takes a reference to a block whose count has no room for it: `++ref_` comes
to 0. -/
def WrapsRef (s : State) : Label → Prop
  | .get _ bn => bn ≠ 0 ∧ ∃ k, findBlock s.e bn = some k ∧ (s.e k).ref = 2 ^ 32 - 1
  | _ => False

/-- No step of the five kinds. -/
def Careful (s : State) (l : Label) : Prop :=
  ¬DropsBusy s l ∧ ¬EvictsLoading s l ∧ ¬FinishesEarly s l ∧ ¬NoMemory s l ∧ ¬WrapsRef s l

theorem getDiskEntry_inv {bn : Nat} (h : Inv none s) (hok : ¬EvictsLoading s (.get τ bn))
    (hwrap : ¬WrapsRef s (.get τ bn)) (hstep : getDiskEntry s τ bn = some s') : Inv none s' := by
  unfold getDiskEntry at hstep
  obtain ⟨hτ, hstep⟩ := of_guard hstep
  obtain ⟨-, hstep⟩ := of_guard hstep
  obtain ⟨r, hr, hstep⟩ := Option.bind_eq_some_iff.mp hstep
  cases r with
  | flush =>
    rw [← Option.some.inj hstep]
    refine h.spawn hτ (fun i hi => (h.entry i).claims hi) (fun _ => rfl)
      (fun i => (h.entry i).writers) nofun ?_
    intro j hj
    cases hj
    exact getBufentrySlot_flush h hr
  | full =>
    rw [← Option.some.inj hstep]
    show Inv none { s with tasks := s.tasks.erase τ }
    rw [Heap.erase_none hτ]
    exact h
  | slot k s₁ =>
    rw [← Option.some.inj hstep]
    refine enterMain_inv
      (getBufentrySlot_placed h (fun i h₁ h₂ hv hw => hok ⟨h₁, h₂, i, hv, hw⟩) hr)
      (fun hbn hmax => ?_) (.inl hτ)
    rcases getBufentrySlot_ref h hr with hz | ⟨hfind, hsame⟩
    · exact absurd (hz.symm.trans hmax) (by decide)
    · exact hwrap ⟨hbn, k, hfind, hsame.symm.trans hmax⟩

theorem resume_inv (h : Inv none s) (hok : ¬EvictsLoading s (.resume τ))
    (hstep : resume s τ = some s') :
    Inv none s' := by
  unfold resume at hstep
  split at hstep
  · rename_i j hj
    obtain ⟨r, hr, hstep⟩ := Option.bind_eq_some_iff.mp hstep
    have hbn := h.flushes τ j hj
    cases r with
    | flush =>
      rw [← Option.some.inj hstep]
      refine h.goto hj ?_ ?_ (fun _ => rfl) nofun ?_
      · exact fun i hi => Nat.add_le_add_right ((h.entry i).claims hi) _
      · exact fun i => (h.entry i).busy
      · intro j' hj'
        cases hj'
        exact hbn
    | full =>
      cases j with
      | main bn =>
        rw [← Option.some.inj hstep]
        exact h.return hj fun _ => rfl
      | ahead bn i n =>
        rw [← Option.some.inj hstep]
        exact h.advance hj (fun _ => le_rfl) (fun _ => rfl) (fun _ => rfl) rfl nofun
    | slot k s₁ =>
      have hp := freeSlot_placed h hbn (fun i hf hv hw => hok ⟨hf, i, hv, hw⟩) hr
      cases j with
      | main bn =>
        rw [← Option.some.inj hstep]
        refine enterMain_inv hp (fun _ hmax => ?_) (.inr hj)
        exact absurd ((freeSlot_ref h hr).symm.trans hmax) (by decide)
      | ahead bn i n =>
        obtain ⟨s₂, h₂, hstep⟩ := Option.bind_eq_some_iff.mp hstep
        rw [← Option.some.inj hstep]
        exact enterAhead_inv hp hj (fun _ => rfl) (fun _ => rfl) (fun _ => rfl) h₂
  · cases hstep

theorem prefetch_inv (h : Inv none s) (hok : ¬EvictsLoading s (.prefetch τ))
    (hstep : prefetch s τ = some s') :
    Inv none s' := by
  unfold prefetch at hstep
  split at hstep
  · rename_i bn i n hpc
    split at hstep
    · rename_i hn
      obtain ⟨r, hr, hstep⟩ := Option.bind_eq_some_iff.mp hstep
      cases r with
      | flush =>
        rw [← Option.some.inj hstep]
        refine h.goto hpc ?_ ?_ (fun _ => rfl) nofun ?_
        · exact fun k hk => Nat.add_le_add_right ((h.entry k).claims hk) _
        · exact fun k => (h.entry k).busy
        · intro j hj
          cases hj
          exact getBufentrySlot_flush h hr
      | full =>
        rw [← Option.some.inj hstep]
        exact h.advance hpc (fun _ => le_rfl) (fun _ => rfl) (fun _ => rfl) rfl nofun
      | slot k s₁ =>
        have hp := getBufentrySlot_placed h
          (fun k h₁ h₂ hv hw => hok ⟨bn, i, n, hpc, hn, h₁, h₂, k, hv, hw⟩) hr
        obtain ⟨s₂, h₂, hstep⟩ := Option.bind_eq_some_iff.mp hstep
        rw [← Option.some.inj hstep]
        exact enterAhead_inv hp hpc (fun _ => rfl) (fun _ => rfl) (fun _ => rfl) h₂
    · rw [← Option.some.inj hstep]
      exact h.advance hpc (fun _ => le_rfl) (fun _ => rfl) (fun _ => rfl) rfl nofun
  · cases hstep

theorem step_inv {nslots : Nat} {l : Label} (h : Inv none s) (hok : Careful s l)
    (hstep : step nslots s l = some s') : Inv none s' := by
  obtain ⟨hdrop, hevict, hfinish, hmemory, hwrap⟩ := hok
  cases l with
  | get τ bn => exact getDiskEntry_inv h hevict hwrap hstep
  | resume τ => exact resume_inv h hevict hstep
  | load τ buf => exact loadDiskBlock_inv h hmemory hstep
  | queue τ => exact queueRead_inv h hstep
  | prefetch τ => exact prefetch_inv h hevict hstep
  | finish τ => exact finish_inv h hfinish hstep
  | put τ => exact putEntry_inv h hstep
  | sully τ => exact sully_inv h hstep
  | writeBack τ k => exact writeBack_inv h hstep
  | markClean τ => exact markClean_inv h hstep
  | drop =>
    refine drop_inv _ h ?_ hstep
    exact fun k hk hbn hr => idle_of_not_dropsBusy hdrop (List.mem_range.mp hk) hbn hr
  | acknowledge q failed => exact acknowledge_inv h hstep

theorem boot_inv : Inv none boot := by
  refine ⟨?_, ?_, ⟨rfl, Nat.one_pos⟩, ?_, nofun⟩
  · intro k
    by_cases hk : k = 0
    · subst hk
      refine ⟨?_, ?_, by decide, nofun, nofun, nofun, nofun, fun hc => absurd rfl hc, by decide,
        by decide, by decide, nofun, nofun⟩
      · intro b hb
        cases hb
        exact Finset.mem_singleton_self 0
      · intro hc
        exact absurd hc (by decide)
    · have hcount : boot.eList.count k = 0 :=
        List.count_eq_zero.mpr fun hc => hk (List.mem_singleton.mp hc)
      refine ⟨?_, ?_, ?_, ?_, ?_, ?_, nofun, fun _ => Nat.zero_le _, Nat.zero_le _, Nat.zero_le _,
        Nat.zero_le _, nofun, nofun⟩
      · rw [boot_e hk]
        exact nofun
      · rw [boot_e hk]
        exact fun _ _ => ⟨rfl, rfl, rfl, rfl, rfl⟩
      · rw [hcount]
        exact Nat.zero_le _
      · rw [boot_e hk]
        exact nofun
      · rw [boot_e hk]
        exact nofun
      · intro _ hmem
        exact absurd (List.mem_singleton.mp hmem) hk
  · intro i j b hi hj
    have hz : ∀ k, (boot.e k).buf = some b → k = 0 := by
      intro k hb
      by_contra hk
      rw [boot_e hk] at hb
      cases hb
    rw [hz i hi, hz j hj]
  · intro k hbn
    by_contra hk
    rw [boot_e hk] at hbn
    exact absurd hbn (by decide)

/-- **No buffer is freed under an outstanding read**, in every run without a step of the
five kinds. -/
theorem read_buffers_owned {nslots : Nat} {s : State} (h : (machine nslots).ReachWhen Careful s)
    {q : Nat} {c : Cmd} (hq : s.cmds.get q = some c) (hread : c.write = false) :
    (s.e c.entry).bn = c.bn ∧ (s.e c.entry).buf = some c.buf ∧ c.buf ∈ s.live := by
  have hinv : Inv none s := by
    refine h.invariant (Inv none) ?_ ?_
    · rintro s rfl
      exact boot_inv
    · exact fun s l s' hs hok hstep => step_inv hs hok hstep
  have hk := hinv.entry c.entry
  obtain ⟨-, hneeds⟩ := hk.cmds q c hq rfl
  rw [hread, if_neg Bool.false_ne_true] at hneeds
  exact ⟨hneeds.1, hneeds.2.1, hk.live _ hneeds.2.1⟩

theorem read_buffers_owned_queue :
    ∃ s, (machine 32).run boot [.get 1 7, .load 1 (some 100), .queue 1] = some s ∧
    s.cmds.get 0 = some ⟨1, 100, 7, false⟩ ∧ (s.e 1).bn = 7 ∧ (s.e 1).buf = some 100 ∧
    100 ∈ s.live := by
  have hget : Careful boot (.get 1 7) := by
    refine ⟨id, ?_, id, id, ?_⟩
    · rintro ⟨-, hfree, -⟩
      rw [show findFree boot.e (List.range ne) = .slot 1 from rfl] at hfree
      cases hfree
    · rintro ⟨-, k, hfind, -⟩
      cases hfind
  refine ⟨_, rfl, rfl, ?_⟩
  refine @read_buffers_owned 32 _ (.step (a := .queue 1) (.step (a := .load 1 (some 100))
    (.step (a := .get 1 7) (.init rfl) hget rfl) ?_ rfl) ?_ rfl) 0 ⟨1, 100, 7, false⟩ rfl rfl
  · exact ⟨id, id, id, nofun, id⟩
  · exact ⟨id, id, id, id, id⟩

/-- While the read of a block that task 1 prefetches is outstanding, `sync(true)` drops its
entry. -/
theorem freed_under_read : ∃ s, (machine 32).Reach s ∧ ∃ q c, s.cmds.get q = some c ∧
    c.write = false ∧ c.buf ∉ s.live := by
  have hrun : ∃ s, (machine 32).Reach s ∧ s.cmds.get 1 = some ⟨2, 101, 8, false⟩ ∧
      s.live = {0, 100} :=
    ⟨_, Transition.Machine.Reach.run (l := [.get 1 7, .load 1 (some 100), .queue 1, .prefetch 1,
      .load 1 (some 101), .queue 1, .drop]) (Transition.Machine.Reach.init rfl) rfl, rfl, by decide⟩
  obtain ⟨s, hs, hq, hlive⟩ := hrun
  refine ⟨s, hs, 1, _, hq, rfl, ?_⟩
  rw [hlive]
  decide

end BufCache
end PugOS
