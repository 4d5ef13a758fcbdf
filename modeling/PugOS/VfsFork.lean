import PugOS.VfsRefs

/-! # What a child inherits

`process_fork` copies the slots of the parent's table in order, and its loop ends at the first null
slot.  The child has a descriptor exactly when no slot up to it is null, so it has all of them
exactly when the open slots of the parent are its first ones (`fork_inherits_iff`): `sys_open` and
`sys_pipe` take the lowest null slots and keep a table so, `sys_close` and `sys_dup2` need not.
-/
namespace PugOS
namespace Vfs
variable {s s' : State} {pid child : Nat} {t : FdTable}

/-- `fds_[i]` of a process. -/
def slot (s : State) (pid i : Nat) : Option Nat := (s.procs.get pid).bind fun t => t.fds.get i

/-- No open slot comes after a null one. -/
def NoGap (s : State) (pid : Nat) : Prop := ∀ i j, j < i → slot s pid i ≠ none → slot s pid j ≠ none

theorem share_procs {a : Nat} (h : share s a = some s') : s'.procs = s.procs := by
  obtain ⟨f, v, -, -, rfl⟩ := share_some h
  rfl

/-- **The loop** over slots in order: what is stored is what comes before the first null one. -/
theorem clone_slots {l : List (Fin NFDS)} (hl : l.Pairwise (· < ·)) :
    ∀ {s s' : State} {c c' : FdTable}, clone t l s c = some (s', c') → s'.procs = s.procs ∧
    ∀ j : Fin NFDS, c'.fds.get j =
      if j ∈ l ∧ ∀ k ∈ l, k ≤ j → t.fds.get k ≠ none then t.fds.get j else c.fds.get j := by
  induction l with
  | nil =>
    intro s s' c c' h
    cases h
    exact ⟨rfl, fun j => (if_neg fun hj => List.not_mem_nil hj.1).symm⟩
  | cons i l ih =>
    obtain ⟨hlt, hl⟩ := List.pairwise_cons.mp hl
    intro s s' c c' h
    unfold clone at h
    cases hi : t.fds.get i with
    | none =>
      rw [hi] at h
      cases h
      refine ⟨rfl, fun j => (if_neg ?_).symm⟩
      rintro ⟨hj, hall⟩
      rcases List.mem_cons.mp hj with rfl | hj
      · exact hall j List.mem_cons_self (Fin.le_refl j) hi
      · exact hall i List.mem_cons_self (Fin.le_of_lt (hlt j hj)) hi
    | some a =>
      rw [hi] at h
      obtain ⟨s₁, hshare, h⟩ := Option.bind_eq_some_iff.mp h
      obtain ⟨hprocs, hslots⟩ := ih hl h
      refine ⟨hprocs.trans (share_procs hshare), fun j => ?_⟩
      rw [hslots j]
      by_cases hji : j = i
      · subst hji
        have hnot : j ∉ l := fun hj => absurd (hlt j hj) (Fin.lt_irrefl j)
        rw [if_neg fun hc => hnot hc.1, if_pos]
        · exact (Heap.get_set_self).trans hi.symm
        · refine ⟨List.mem_cons_self, fun k hk hle => ?_⟩
          rcases List.mem_cons.mp hk with rfl | hk
          · rw [hi]
            exact Option.some_ne_none a
          · exact absurd (hlt k hk) (Fin.not_lt.mpr hle)
      · have hset : (c.set i a).fds.get j = c.fds.get j :=
          Heap.get_set_ne fun hc => hji (Fin.ext hc)
        rw [hset]
        refine if_congr ⟨?_, ?_⟩ rfl rfl
        · rintro ⟨hj, hall⟩
          refine ⟨List.mem_cons_of_mem i hj, fun k hk hle => ?_⟩
          rcases List.mem_cons.mp hk with rfl | hk
          · rw [hi]
            exact Option.some_ne_none a
          · exact hall k hk hle
        · rintro ⟨hj, hall⟩
          exact ⟨(List.mem_cons.mp hj).resolve_left hji, fun k hk hle =>
            hall k (List.mem_cons_of_mem i hk) hle⟩

/-- **A slot of the child** is the parent's if no slot up to it is null, and null otherwise. -/
theorem fork_slot (h : sysFork s pid child = some s') (j : Fin NFDS) :
    slot s' pid j = slot s pid j ∧ slot s' child j = if ∀ k : Fin NFDS, k ≤ j →
    slot s pid k ≠ none then slot s pid j else none := by
  obtain ⟨t, s₁, c, ht, hchild, hclone, rfl⟩ := sysFork_some h
  have hsorted : (List.finRange NFDS).Pairwise (· < ·) := List.pairwise_lt_finRange NFDS
  obtain ⟨hprocs, hslots⟩ := clone_slots hsorted hclone
  have hne : pid ≠ child := by
    rintro rfl
    rw [ht] at hchild
    cases hchild
  have hparent : ∀ i, slot s pid i = t.fds.get i := by
    intro i
    unfold slot
    rw [ht]
    rfl
  refine ⟨?_, ?_⟩
  · unfold slot
    rw [Heap.get_set_ne hne, hprocs]
  · have hget : slot { s₁ with procs := s₁.procs.set child c } child j = c.fds.get j := by
      unfold slot
      rw [Heap.get_set_self]
      rfl
    rw [hget, hslots j]
    simp only [hparent]
    refine if_congr ⟨fun hc k hle => hc.2 k (List.mem_finRange k) hle,
      fun hc => ⟨List.mem_finRange j, fun k _ => hc k⟩⟩ rfl rfl

/-- **The child has every descriptor of the parent, exactly when** no open slot of the parent comes
after a null one. -/
theorem fork_inherits_iff (h : sysFork s pid child = some s') :
    (∀ i < NFDS, slot s' child i = slot s' pid i) ↔ NoGap s pid := by
  constructor
  · intro hall i j hji hi
    have hlt : i < NFDS := by
      unfold slot at hi
      obtain ⟨a, ha⟩ := Option.ne_none_iff_exists'.mp hi
      obtain ⟨t, -, ha⟩ := Option.bind_eq_some_iff.mp ha
      refine t.lt_NFDS i ?_
      rw [ha]
      exact Option.some_ne_none a
    obtain ⟨hparent, hchild⟩ := fork_slot h ⟨i, hlt⟩
    have heq := hall i hlt
    rw [hparent, hchild] at heq
    split at heq
    · rename_i hopen
      exact hopen ⟨j, Nat.lt_trans hji hlt⟩ (Fin.le_def.mpr (Nat.le_of_lt hji))
    · exact absurd heq.symm hi
  · intro hgap i hi
    obtain ⟨hparent, hchild⟩ := fork_slot h ⟨i, hi⟩
    rw [hparent, hchild]
    split
    · rfl
    · rename_i hnull
      push Not at hnull
      obtain ⟨k, hle, hk⟩ := hnull
      by_contra hi'
      rcases Nat.lt_or_eq_of_le (Fin.le_def.mp hle) with hlt | heq
      · exact hgap i k hlt (Ne.symm hi') hk
      · rw [heq] at hk
        exact hi' hk.symm

/-- The first process has a pipe besides the console. -/
theorem fork_inherits_pipe :
    ∃ s s', machine.run boot
    [.setup 1 10 20, .pipe 1 (some 11) (some 12) (some 21) true blank blank] =
    some s ∧ sysFork s 1 2 = some s' ∧ ∀ i < NFDS, slot s' 2 i = slot s' 1 i := by
  have hrun :
      ∃ s, machine.run boot [.setup 1 10 20, .pipe 1 (some 11) (some 12) (some 21) true blank blank]
      = some s ∧ (∀ i < 5, slot s 1 i ≠ none) ∧ (∀ i, 5 ≤ i → slot s 1 i = none) ∧
      ∃ s', sysFork s 1 2 = some s' := by
    refine ⟨_, rfl, by decide, fun i hi => ?_, _, rfl⟩
    refine (Heap.get_set_ne ?_).trans ((Heap.get_set_ne ?_).trans ((Heap.get_set_ne ?_).trans
      ((Heap.get_set_ne ?_).trans (Heap.get_set_ne ?_))))
    all_goals
      intro hc
      rw [hc] at hi
      exact absurd hi (by decide)
  obtain ⟨s, hrun, hlow, hhigh, s', hfork⟩ := hrun
  refine ⟨s, s', hrun, hfork, (fork_inherits_iff hfork).mpr fun i j hji hi => hlow j ?_⟩
  by_contra hj
  exact hi (hhigh i (by omega))

/-- A descriptor after one that has been closed is lost. -/
theorem fork_loses_descriptor : ∃ s s', machine.Reach s ∧ sysFork s 1 2 = some s' ∧
    slot s' 1 1 = some 10 ∧ slot s' 2 1 = none := by
  have hrun := Transition.Machine.Reach.run (M := machine) (s := boot)
    (l := [.setup 1 10 20, .close 1 0]) (Transition.Machine.Reach.init rfl) rfl
  exact ⟨_, _, hrun, rfl, rfl, rfl⟩

end Vfs
end PugOS
