import PugOS.ChkFSCalls

/-! # References to cached blocks

What the calls on the buffer cache do to its reference counts.  `Cache.WF` holds whatever
happens: no block is in two slots, and the superblock stays in slot 0.  `Holding base held`
is the state of the counts while a file-system call is at work: the count of a slot is what
it was before, `base`, and what the call holds on the slot's block, as long as no count has
wrapped.  Taking and giving back a reference move `held`, unless the disk has no command slot
or a prefetch finds no memory (`Choice.Ok`).
-/
namespace PugOS.ChkFS
open Bytes BlockProg
open Journal (blocksize)
open BufCache (ne emptyblock incRef decRef Unique)

/-- The counts before a call, and how often one had wrapped. -/
structure Base where
  refs : Nat → Nat
  wraps : Nat

variable {s s' : Cache} {k bn : Nat} {base : Base} {held : Nat → Nat}

namespace Cache

@[simp] theorem modify_self (s : Cache) (k : Nat) (f : CacheEntry → CacheEntry) :
    (s.modify k f).e k = f (s.e k) := Function.update_self ..

theorem modify_ne {i : Nat} (s : Cache) (f : CacheEntry → CacheEntry) (h : i ≠ k) :
    (s.modify k f).e i = s.e i := Function.update_of_ne h ..

/-- The slot that is found has the block. -/
theorem findBlock_some (h : s.findBlock bn = some k) : k < ne ∧ (s.e k).bn = bn := by
  have hp := List.find?_some h
  exact ⟨List.mem_range.mp (List.mem_of_find?_eq_some h), of_decide_eq_true hp⟩

/-- If none is found, none has. -/
theorem findBlock_none (h : s.findBlock bn = none) (hk : k < ne) : (s.e k).bn ≠ bn := by
  have := List.find?_eq_none.mp h k (List.mem_range.mpr hk)
  simpa using this

/-- An entry that is found is loaded. -/
theorem findEntry_some (h : s.findEntry bn = some k) : k < ne ∧ (s.e k).bn = bn ∧
    (s.e k).loaded = true := by
  have hp := List.find?_some h
  exact ⟨List.mem_range.mp (List.mem_of_find?_eq_some h), of_decide_eq_true hp⟩

/-- The parts of the entries that references depend on are the same. -/
structure SameRefs (s s' : Cache) : Prop where
  wraps : s'.wraps = s.wraps
  entry : ∀ k, (s'.e k).bn = (s.e k).bn ∧ (s'.e k).ref = (s.e k).ref ∧
    (s'.e k).loaded = (s.e k).loaded

theorem SameRefs.refl (s : Cache) : SameRefs s s := ⟨rfl, fun _ => ⟨rfl, rfl, rfl⟩⟩

theorem SameRefs.trans {s'' : Cache} (h : SameRefs s s') (h' : SameRefs s' s'') :
    SameRefs s s'' := by
  refine ⟨h'.wraps.trans h.wraps, fun k => ?_⟩
  obtain ⟨h₁, h₂, h₃⟩ := h.entry k
  obtain ⟨h₁', h₂', h₃'⟩ := h'.entry k
  exact ⟨h₁'.trans h₁, h₂'.trans h₂, h₃'.trans h₃⟩

theorem SameRefs.modify {f : CacheEntry → CacheEntry} (hbn : (f (s.e k)).bn = (s.e k).bn)
    (href : (f (s.e k)).ref = (s.e k).ref) (hload : (f (s.e k)).loaded = (s.e k).loaded) :
    SameRefs s (s.modify k f) := by
  refine ⟨rfl, fun i => ?_⟩
  by_cases hi : i = k
  · rw [hi, modify_self]
    exact ⟨hbn, href, hload⟩
  · rw [modify_ne _ _ hi]
    exact ⟨rfl, rfl, rfl⟩

/-- Writing an entry back changes no reference. -/
theorem sameRefs_writeEntry (s : Cache) (k : Nat) : SameRefs s (s.writeEntry k) := by
  have h :
      SameRefs s
      { s with disk := fun x => if x / blocksize = (s.e k).bn then s.mem x else s.disk x } :=
    ⟨rfl, fun _ => ⟨rfl, rfl, rfl⟩⟩
  exact h.trans (SameRefs.modify rfl rfl rfl)

theorem sameRefs_foldl (l : List Nat) : ∀ s : Cache, SameRefs s (l.foldl writeEntry s) := by
  induction l with
  | nil => exact SameRefs.refl
  | cons k l ih => exact fun s => (sameRefs_writeEntry s k).trans (ih _)

/-- Nor does writing all of them back. -/
theorem sameRefs_flush (s : Cache) : SameRefs s s.flush :=
  (show SameRefs s { s with dirtyList := [] } from ⟨rfl, fun _ => ⟨rfl, rfl, rfl⟩⟩).trans
    (sameRefs_foldl _ _)

theorem sameRefs_flushFor {flush : Bool} (h : s.flushFor flush = some s') : SameRefs s s' := by
  unfold flushFor at h
  split at h
  · obtain ⟨-, h⟩ := BufCache.of_guard h
    rw [← Option.some.inj h]
    exact sameRefs_flush s
  · rw [← Option.some.inj h]
    exact SameRefs.refl s

/-- Nor does marking one dirty. -/
theorem sameRefs_sully (h : s.sully bn = some s') : SameRefs s s' := by
  unfold sully at h
  obtain ⟨k, -, h⟩ := Option.bind_eq_some_iff.mp h
  split at h
  · rw [← Option.some.inj h]
    exact SameRefs.refl s
  · rw [← Option.some.inj h]
    have hl : SameRefs s { s with dirtyList := k :: s.dirtyList } := ⟨rfl, fun _ => ⟨rfl, rfl, rfl⟩⟩
    exact hl.trans (SameRefs.modify rfl rfl rfl)

/-! ### What every state has -/

/-- No block is in two slots, and the superblock stays in slot 0. -/
structure WF (s : Cache) : Prop where
  unique : Unique fun k => (s.e k).bn
  super : (s.e 0).bn = 0
  loaded : (s.e 0).loaded = true
  pinned : 0 < (s.e 0).ref

/-- The order of the slots depends on the blocks and references alone. -/
theorem WF.congr (h : s.WF) (hs : SameRefs s s') : s'.WF := by
  have hbn : (fun k => (s'.e k).bn) = fun k => (s.e k).bn := funext fun k => (hs.entry k).1
  refine ⟨hbn ▸ h.unique, (hs.entry 0).1.trans h.super, (hs.entry 0).2.2.trans h.loaded, ?_⟩
  rw [(hs.entry 0).2.1]
  exact h.pinned

theorem zero_lt_ne : 0 < ne := by decide

/-- The superblock is in slot 0. -/
theorem WF.slot_zero (h : s.WF) (hk : k < ne) (hbn : (s.e k).bn = 0) : k = 0 := by
  refine h.unique k 0 hk zero_lt_ne (hbn.trans h.super.symm) ?_
  show (s.e k).bn ≠ emptyblock
  rw [hbn]
  decide

/-- No block is in two slots. -/
theorem WF.slot_eq {i : Nat} (h : s.WF) (hk : k < ne) (hi : i < ne) (hbn : (s.e i).bn = (s.e k).bn)
    (hne : (s.e k).bn ≠ emptyblock) : i = k := by
  refine h.unique i k hi hk hbn ?_
  show (s.e i).bn ≠ emptyblock
  rw [hbn]
  exact hne

/-- An entry other than the superblock's changes without its block. -/
theorem WF.modify {f : CacheEntry → CacheEntry} (h : s.WF) (hk : k ≠ 0)
    (hbn : (f (s.e k)).bn = (s.e k).bn) : (s.modify k f).WF := by
  have hbns : (fun i => ((s.modify k f).e i).bn) = fun i => (s.e i).bn := by
    funext i
    by_cases hi : i = k
    · rw [hi, modify_self, hbn]
    · rw [modify_ne _ _ hi]
  refine ⟨hbns ▸ h.unique, ?_, ?_, ?_⟩ <;> rw [modify_ne _ _ hk.symm]
  · exact h.super
  · exact h.loaded
  · exact h.pinned

/-- Slot 0 is never given out. -/
theorem WF.available_ne (h : s.WF) (hk : s.available k = true) : k ≠ 0 := by
  rintro rfl
  unfold available at hk
  obtain ⟨-, hbn | ⟨hr, -⟩⟩ := of_decide_eq_true hk
  · rw [h.super] at hbn
    exact absurd hbn (by decide)
  · have := h.pinned
    omega

/-- An available slot gets a block that is not in the cache. -/
theorem WF.take (h : s.WF) (hk : s.available k = true) (habs : ∀ i < ne, (s.e i).bn ≠ bn) :
    (s.modify k fun x => { x with bn := bn, loaded := false, dirty := false }).WF := by
  have hk0 := h.available_ne hk
  have hbns :
      (fun i => ((s.modify k fun x => { x with bn := bn, loaded := false, dirty := false }).e i).bn)
      = Function.update (fun i => (s.e i).bn) k bn := by
    funext i
    by_cases hi : i = k
    · rw [hi, modify_self, Function.update_self]
    · rw [modify_ne _ _ hi, Function.update_of_ne hi]
  refine ⟨hbns ▸ h.unique.update_absent habs k, ?_, ?_, ?_⟩ <;> rw [modify_ne _ _ hk0.symm]
  · exact h.super
  · exact h.loaded
  · exact h.pinned

/-- How `get_bufentry_slot` ends. -/
theorem getBufentrySlot_cases {flush : Bool} {slot r : Option Nat}
    (h : s.getBufentrySlot bn flush slot = some (r, s')) : bn ≠ emptyblock ∧
      ((∃ k, r = some k ∧ k < ne ∧ (s.e k).bn = bn ∧ s' = s) ∨
        (∀ i < ne, (s.e i).bn ≠ bn) ∧ ∃ s₁, s.flushFor flush = some s₁ ∧
          (r = none ∧ s' = s₁ ∨ ∃ k, r = some k ∧ s₁.available k = true ∧
            s' = s₁.modify k fun x => { x with bn := bn, loaded := false, dirty := false })) := by
  unfold getBufentrySlot at h
  obtain ⟨hbn, h⟩ := BufCache.of_guard h
  refine ⟨hbn, ?_⟩
  split at h
  · rename_i k hk
    cases Option.some.inj h
    obtain ⟨hlt, hb⟩ := findBlock_some hk
    exact .inl ⟨k, rfl, hlt, hb, rfl⟩
  · rename_i hnone
    refine .inr ⟨fun i hi => findBlock_none hnone hi, ?_⟩
    obtain ⟨s₁, h₁, h⟩ := Option.bind_eq_some_iff.mp h
    refine ⟨s₁, h₁, ?_⟩
    split at h
    · cases Option.some.inj h
      exact .inl ⟨rfl, rfl⟩
    · obtain ⟨hav, h⟩ := BufCache.of_guard h
      cases Option.some.inj h
      exact .inr ⟨_, rfl, hav, rfl⟩

theorem available_lt (h : s.available k = true) : k < ne := (of_decide_eq_true h).1

/-- A slot that is found is the block's. -/
theorem WF.getBufentrySlot {flush : Bool} {slot r : Option Nat} (hs : s.WF)
    (h : s.getBufentrySlot bn flush slot = some (r, s')) : s'.WF ∧
      ∀ k, r = some k → k < ne ∧ (s'.e k).bn = bn ∧ bn ≠ emptyblock := by
  obtain ⟨hbn, ⟨k, rfl, hk, hb, rfl⟩ | ⟨habs, s₁, h₁, ⟨rfl, rfl⟩ | ⟨k, rfl, hav, rfl⟩⟩⟩ :=
    getBufentrySlot_cases h
  · refine ⟨hs, fun i hi => ?_⟩
    cases hi
    exact ⟨hk, hb, hbn⟩
  · exact ⟨hs.congr (sameRefs_flushFor h₁), nofun⟩
  · have hsame := sameRefs_flushFor h₁
    refine ⟨(hs.congr hsame).take hav fun i hi => ?_, fun i hi => ?_⟩
    · rw [(hsame.entry i).1]
      exact habs i hi
    · cases hi
      refine ⟨available_lt hav, ?_, hbn⟩
      rw [modify_self]

/-- A count that does not wrap is one more. -/
theorem incRef_pos {r : Nat} (h : incRef r ≠ 0) : incRef r = r + 1 := by
  unfold incRef at h ⊢
  split at h
  · exact absurd rfl h
  · rename_i hr
    rw [if_neg hr]

/-- A count that is not 0 is one less. -/
theorem decRef_pos (r : Nat) (h : 0 < r) : decRef r = r - 1 := if_neg (by omega)

/-- A slot that is not loaded is not slot 0. -/
theorem WF.not_loaded_ne (h : s.WF) (hl : (s.e k).loaded = false) : k ≠ 0 := by
  rintro rfl
  rw [h.loaded] at hl
  cases hl

/-- A prefetch leaves the slots in order. -/
theorem WF.prefetchOne {a : Ahead} (hs : s.WF) (h : s.prefetchOne bn a = some s') : s'.WF := by
  unfold Cache.prefetchOne at h
  obtain ⟨⟨r, s₁⟩, h₁, h⟩ := Option.bind_eq_some_iff.mp h
  obtain ⟨hwf, -⟩ := hs.getBufentrySlot h₁
  cases r with
  | none =>
    rw [← Option.some.inj h]
    exact hwf
  | some k =>
    dsimp only at h
    split at h
    · rw [← Option.some.inj h]
      exact hwf
    · rename_i hno
      rw [Bool.or_eq_true, not_or, Bool.not_eq_true] at hno
      rw [← Option.some.inj h]
      exact hwf.modify (hwf.not_loaded_ne hno.1) rfl

theorem WF.prefetch {l : List Ahead} : ∀ {n : Nat} {s : Cache}, s.WF → prefetch bn n l s = some s' →
    s'.WF := by
  induction l with
  | nil =>
    intro n s hs h
    rw [← Option.some.inj h]
    exact hs
  | cons a l ih =>
    intro n s hs h
    rw [Cache.prefetch] at h
    obtain ⟨-, h⟩ := BufCache.of_guard h
    obtain ⟨s₁, h₁, h⟩ := Option.bind_eq_some_iff.mp h
    exact ih (hs.prefetchOne h₁) h

theorem WF.readBlock (hs : s.WF) (hk : k ≠ 0) : (s.readBlock k).WF := by
  have h : SameRefs s { s with
      mem := fun x => if x / blocksize = (s.e k).bn then s.disk x else s.mem x
      mref := fun a => if a / blocksize = (s.e k).bn then 0 else s.mref a
      reads := Function.update s.reads (s.e k).bn (s.reads (s.e k).bn + 1) } := ⟨rfl, fun _ =>
        ⟨rfl, rfl, rfl⟩⟩
  exact (hs.congr h).modify hk rfl

theorem WF.addRef (hs : s.WF) (hk : k < ne) (hbn : (s.e k).bn = bn) : (s.addRef k bn).WF := by
  unfold Cache.addRef
  split
  · rename_i hne
    have hw : ∀ n, ({ s with wraps := n } : Cache).WF :=
      fun _ => ⟨hs.unique, hs.super, hs.loaded, hs.pinned⟩
    refine (hw _).modify ?_ rfl
    rintro rfl
    exact hne (hbn ▸ hs.super)
  · exact hs

/-- **`get_disk_entry` leaves the slots in order.** -/
theorem WF.getDiskEntry {c : Choice} {b : Bool} (hs : s.WF)
    (h : s.getDiskEntry bn c = some (b, s')) : s'.WF := by
  unfold Cache.getDiskEntry at h
  obtain ⟨⟨r, s₁⟩, h₁, h⟩ := Option.bind_eq_some_iff.mp h
  obtain ⟨hwf, hr⟩ := hs.getBufentrySlot h₁
  cases r with
  | none =>
    cases Option.some.inj h
    exact hwf
  | some k =>
    obtain ⟨hk, hbn, -⟩ := hr k rfl
    have hwf := hwf.addRef hk hbn
    change (s₁.addRef k bn).load k bn c = some (b, s') at h
    unfold Cache.load at h
    split at h
    · cases Option.some.inj h
      exact hwf
    · rename_i hno
      have hk0 := hwf.not_loaded_ne (Bool.not_eq_true _ ▸ hno)
      split at h
      · cases Option.some.inj h
        exact hwf.modify hk0 rfl
      · cases Option.some.inj h
        exact hwf
      · obtain ⟨s₂, h₂, h⟩ := Option.bind_eq_some_iff.mp h
        cases Option.some.inj h
        exact (hwf.prefetch h₂).readBlock hk0

/-- So does `put_entry`. -/
theorem WF.putEntry (hs : s.WF) (h : s.putEntry bn = some s') : s'.WF := by
  unfold Cache.putEntry at h
  obtain ⟨k, hk, h⟩ := Option.bind_eq_some_iff.mp h
  obtain ⟨-, hbn, -⟩ := findEntry_some hk
  split at h
  · rename_i hne
    rw [← Option.some.inj h]
    refine hs.modify ?_ rfl
    rintro rfl
    exact hne (hbn ▸ hs.super)
  · rw [← Option.some.inj h]
    exact hs

/-- Programs keep it, whatever the choices. -/
theorem WF.exec {α : Type} {p : Prog α} {cs : List Choice} {r : α × Cache × List Choice} (hs : s.WF)
    (h : exec interp p s cs = some r) : r.2.1.WF := by
  refine exec_invariant WF ?_ ?_ ?_ ?_ p hs h
  · exact fun s bn c r hs h => hs.getDiskEntry h
  · exact fun s bn s' hs h => hs.putEntry h
  · exact fun s bn s' hs h => hs.congr (sameRefs_sully h)
  · exact fun s m hs => hs.congr ⟨rfl, fun _ => ⟨rfl, rfl, rfl⟩⟩

theorem WF.refInode (hs : s.WF) (r : Option Nat) : (s.refInode r).WF := by
  cases r with
  | none => exact hs
  | some ino => exact hs.congr ⟨rfl, fun _ => ⟨rfl, rfl, rfl⟩⟩

/-- So does `put_inode`. -/
theorem WF.putInode {ino : Nat} (hs : s.WF) (h : s.putInode ino = some s') : s'.WF := by
  unfold Cache.putInode at h
  dsimp only at h
  have hm : ∀ m, ({ s with mref := m } : Cache).WF :=
    fun m => hs.congr ⟨rfl, fun _ => ⟨rfl, rfl, rfl⟩⟩
  split at h
  · exact (hm _).putEntry h
  · rw [← Option.some.inj h]
    exact hm _

/-- Dropping the unused blocks does. -/
theorem WF.dropUnused (hs : s.WF) : s.dropUnused.WF := by
  have h0 : s.dropUnused.e 0 = s.e 0 := if_neg fun h => (hs.pinned.ne' h.2).elim
  refine ⟨?_, h0 ▸ hs.super, h0 ▸ hs.loaded, h0 ▸ hs.pinned⟩
  have hbn : ∀ i, (s.dropUnused.e i).bn ≠ emptyblock → (s.dropUnused.e i).bn = (s.e i).bn := by
    intro i hi
    by_cases hc : (s.e i).bn ≠ emptyblock ∧ (s.e i).ref = 0
    · have he : s.dropUnused.e i =
          { s.e i with bn := emptyblock, loaded := false, dirty := false } := if_pos hc
      rw [he] at hi
      exact absurd rfl hi
    · have he : s.dropUnused.e i = s.e i := if_neg hc
      rw [he]
  intro i j hi hj heq hne
  have hj' : (s.dropUnused.e j).bn ≠ emptyblock := by
    rw [← show (s.dropUnused.e i).bn = (s.dropUnused.e j).bn from heq]
    exact hne
  refine hs.unique i j hi hj ?_ ?_
  · show (s.e i).bn = (s.e j).bn
    rw [← hbn i hne, ← hbn j hj']
    exact heq
  · show (s.e i).bn ≠ emptyblock
    rw [← hbn i hne]
    exact hne

/-- So `sync` does. -/
theorem WF.sync (hs : s.WF) (drop : Bool) : (s.sync drop).WF := by
  have hf := hs.congr (sameRefs_flush s)
  unfold Cache.sync
  split
  · exact hf.dropUnused
  · exact hf

/-! ### The references of a call -/

end Cache

/-- The reference to a block, if there is one: the superblock's are not counted. -/
def refTo : Option Nat → Nat → Nat
  | none => 0
  | some bn => if bn = 0 then 0 else Pi.single bn 1

/-- What `get_disk_entry` may be refused: a slot and memory for the block, but neither a
command slot of the disk nor memory for a prefetch. -/
def Choice.Ok (c : Choice) : Prop := c.outcome ≠ .noSlot ∧ ∀ a ∈ c.ahead, a.memory = true

/-- The counts are those of `base` and the references of `held`, unless one has wrapped
since. -/
structure Holding (base : Base) (held : Nat → Nat) (s : Cache) : Prop where
  wf : s.WF
  real : held 0 = 0 ∧ held emptyblock = 0
  since : base.wraps ≤ s.wraps
  cached : s.wraps = base.wraps → ∀ bn, 0 < held bn → ∃ k < ne, (s.e k).bn = bn
  count : s.wraps = base.wraps → ∀ k < ne, (s.e k).ref = base.refs k + held (s.e k).bn

namespace Holding
open Cache

theorem congr (h : Holding base held s) (hs : SameRefs s s') : Holding base held s' := by
  refine ⟨h.wf.congr hs, h.real, h.since.trans hs.wraps.ge, ?_, ?_⟩
  · intro hw bn hbn
    obtain ⟨k, hk, hb⟩ := h.cached (hs.wraps.symm.trans hw) bn hbn
    exact ⟨k, hk, (hs.entry k).1.trans hb⟩
  · intro hw k hk
    rw [(hs.entry k).1, (hs.entry k).2.1]
    exact h.count (hs.wraps.symm.trans hw) k hk

theorem refTo_some (h : bn ≠ 0) : refTo (some bn) = Pi.single bn 1 := if_neg h

theorem refTo_super : refTo (some 0) = 0 := rfl

theorem refTo_of_ne {b : Nat} (h : b ≠ bn) : refTo (some bn) b = 0 := by
  by_cases hz : bn = 0
  · rw [hz, refTo_super]
    rfl
  · rw [refTo_some hz]
    exact Pi.single_eq_of_ne h 1

theorem refTo_self (h : bn ≠ 0) : refTo (some bn) bn = 1 := by
  rw [refTo_some h]
  exact Pi.single_eq_same ..

/-- Two slots do not have one block. -/
theorem other {i : Nat} (h : Holding base held s) (hk : k < ne) (hi : i < ne) (hik : i ≠ k)
    (hne : (s.e k).bn ≠ emptyblock) : (s.e i).bn ≠ (s.e k).bn :=
  fun hc => hik (h.wf.slot_eq hk hi hc hne)

/-- The count of a slot changes by one with the references to its block. -/
theorem recount {f : CacheEntry → CacheEntry} {held' : Nat → Nat} (h : Holding base held s)
    (hk : k < ne) (hk0 : k ≠ 0) (hne : (s.e k).bn ≠ emptyblock) (hbn : (f (s.e k)).bn = (s.e k).bn)
    (hother : ∀ b, b ≠ (s.e k).bn → held' b = held b)
    (href : s.wraps = base.wraps → (f (s.e k)).ref = base.refs k + held' (s.e k).bn) :
    Holding base held' (s.modify k f) := by
  have hbns : ∀ i, ((s.modify k f).e i).bn = (s.e i).bn := by
    intro i
    by_cases hi : i = k
    · rw [hi, modify_self, hbn]
    · rw [modify_ne _ _ hi]
  have hz : (s.e k).bn ≠ 0 := fun hc => hk0 (h.wf.slot_zero hk hc)
  refine ⟨h.wf.modify hk0 hbn, ⟨?_, ?_⟩, h.since, ?_, ?_⟩
  · rw [hother 0 hz.symm]
    exact h.real.1
  · rw [hother _ hne.symm]
    exact h.real.2
  · intro hw b hb
    by_cases hbk : b = (s.e k).bn
    · exact ⟨k, hk, (hbns k).trans hbk.symm⟩
    · rw [hother b hbk] at hb
      obtain ⟨i, hi, hib⟩ := h.cached hw b hb
      exact ⟨i, hi, (hbns i).trans hib⟩
  · intro hw i hi
    rw [hbns]
    by_cases hik : i = k
    · rw [hik, modify_self]
      exact href hw
    · rw [modify_ne _ _ hik, hother _ (h.other hk hi hik hne)]
      exact h.count hw i hi

theorem addRef (h : Holding base held s) (hk : k < ne) (hbn : (s.e k).bn = bn)
    (hne : bn ≠ emptyblock) : Holding base (held + refTo (some bn)) (s.addRef k bn) := by
  unfold Cache.addRef
  split
  · rename_i hz
    subst hbn
    -- nothing is said of the counts once one has wrapped
    have hroom : (if incRef (s.e k).ref = 0 then s.wraps + 1 else s.wraps) = base.wraps →
        s.wraps = base.wraps ∧ incRef (s.e k).ref = (s.e k).ref + 1 := by
      have := h.since
      intro hw
      split at hw
      · omega
      · rename_i hno
        exact ⟨hw, incRef_pos hno⟩
    have hs : Holding base held
        { s with wraps := if incRef (s.e k).ref = 0 then s.wraps + 1 else s.wraps } := by
      refine ⟨⟨h.wf.unique, h.wf.super, h.wf.loaded, h.wf.pinned⟩, h.real, ?_, ?_, ?_⟩
      · have := h.since
        show base.wraps ≤ if incRef (s.e k).ref = 0 then s.wraps + 1 else s.wraps
        split <;> omega
      · exact fun hw => h.cached (hroom hw).1
      · exact fun hw => h.count (hroom hw).1
    refine hs.recount hk ?_ hne rfl ?_ fun hw => ?_
    · rintro rfl
      exact hz h.wf.super
    · intro b hb
      rw [Pi.add_apply, refTo_of_ne hb, Nat.add_zero]
    · obtain ⟨hw, hinc⟩ := hroom hw
      rw [Pi.add_apply, refTo_self hz]
      show incRef (s.e k).ref = _
      rw [hinc, h.count hw k hk, Nat.add_assoc]
  · rename_i hz
    rw [not_not.mp hz, refTo_super, add_zero]
    exact h

/-- `--ref_`, for one of the references that are held. -/
theorem dropRef (h : Holding base (held + refTo (some bn)) s) (hk : k < ne) (hbn : (s.e k).bn = bn)
    (hz : bn ≠ 0) : Holding base held (s.modify k fun x => { x with ref := decRef x.ref }) := by
  have hne : bn ≠ emptyblock := by
    rintro rfl
    have := h.real.2
    rw [Pi.add_apply, refTo_self hz] at this
    omega
  subst hbn
  refine h.recount hk ?_ hne rfl ?_ fun hw => ?_
  · rintro rfl
    exact hz h.wf.super
  · intro b hb
    rw [Pi.add_apply, refTo_of_ne hb, Nat.add_zero]
  · have hc := h.count hw k hk
    rw [Pi.add_apply, refTo_self hz] at hc
    show decRef (s.e k).ref = _
    rw [decRef_pos _ (by omega)]
    omega

theorem take (h : Holding base held s) (hav : s.available k = true)
    (habs : ∀ i < ne, (s.e i).bn ≠ bn) :
    Holding base held
    (s.modify k fun x => { x with bn := bn, loaded := false, dirty := false }) := by
  have hk := available_lt hav
  have hk0 := h.wf.available_ne hav
  have hold : s.wraps = base.wraps → held (s.e k).bn = 0 := by
    intro hw
    obtain ⟨-, hb | ⟨hr, -⟩⟩ := of_decide_eq_true hav
    · rw [hb]
      exact h.real.2
    · have := h.count hw k hk
      omega
  have hnew : s.wraps = base.wraps → held bn = 0 := by
    intro hw
    by_contra hc
    obtain ⟨i, hi, hib⟩ := h.cached hw bn (Nat.pos_of_ne_zero hc)
    exact habs i hi hib
  refine ⟨h.wf.take hav habs, h.real, h.since, ?_, ?_⟩
  · intro hw b hb
    obtain ⟨i, hi, hib⟩ := h.cached hw b hb
    have hik : i ≠ k := by
      rintro rfl
      rw [← hib, hold hw] at hb
      omega
    exact ⟨i, hi, by rw [modify_ne _ _ hik, hib]⟩
  · intro hw i hi
    by_cases hik : i = k
    · have hcount := h.count hw k hk
      have hold := hold hw
      have hnew := hnew hw
      rw [hik, modify_self]
      show (s.e k).ref = base.refs k + held bn
      omega
    · rw [modify_ne _ _ hik]
      exact h.count hw i hi

theorem getBufentrySlot {flush : Bool} {slot r : Option Nat} (hs : Holding base held s)
    (h : s.getBufentrySlot bn flush slot = some (r, s')) : Holding base held s' := by
  obtain ⟨hbn, ⟨k, rfl, hk, hb, rfl⟩ | ⟨habs, s₁, h₁, ⟨rfl, rfl⟩ | ⟨k, rfl, hav, rfl⟩⟩⟩ :=
    getBufentrySlot_cases h
  · exact hs
  · exact hs.congr (sameRefs_flushFor h₁)
  · have hsame := sameRefs_flushFor h₁
    refine (hs.congr hsame).take hav fun i hi => ?_
    rw [(hsame.entry i).1]
    exact habs i hi

theorem prefetch {l : List Ahead} (hl : ∀ a ∈ l, a.memory = true) :
    ∀ {n : Nat} {s : Cache}, Holding base held s → Cache.prefetch bn n l s = some s' →
    Holding base held s' := by
  induction l with
  | nil =>
    intro n s hs h
    rw [← Option.some.inj h]
    exact hs
  | cons a l ih =>
    intro n s hs h
    obtain ⟨ha, hl⟩ := List.forall_mem_cons.mp hl
    rw [Cache.prefetch] at h
    obtain ⟨-, h⟩ := BufCache.of_guard h
    obtain ⟨s₁, h₁, h⟩ := Option.bind_eq_some_iff.mp h
    refine ih hl ?_ h
    unfold Cache.prefetchOne at h₁
    obtain ⟨⟨r, s₂⟩, h₂, h₁⟩ := Option.bind_eq_some_iff.mp h₁
    have hs₂ := hs.getBufentrySlot h₂
    cases r with
    | none =>
      rw [← Option.some.inj h₁]
      exact hs₂
    | some k =>
      dsimp only at h₁
      rw [ha, Bool.or_true, if_pos rfl] at h₁
      rw [← Option.some.inj h₁]
      exact hs₂

theorem readBlock (hs : Holding base held s) (hk0 : k ≠ 0) : Holding base held (s.readBlock k) := by
  have hself : ∀ i, ((s.readBlock k).e i).bn = (s.e i).bn ∧
      ((s.readBlock k).e i).ref = (s.e i).ref := by
    intro i
    by_cases hik : i = k
    · rw [hik, show (s.readBlock k).e k = { s.e k with loaded := true } from modify_self _ _ _]
      exact ⟨rfl, rfl⟩
    · rw [show (s.readBlock k).e i = s.e i from modify_ne _ _ hik]
      exact ⟨rfl, rfl⟩
  refine ⟨hs.wf.readBlock hk0, hs.real, hs.since, ?_, ?_⟩
  · intro hw b hb
    obtain ⟨i, hi, hib⟩ := hs.cached hw b hb
    exact ⟨i, hi, (hself i).1.trans hib⟩
  · intro hw i hi
    rw [(hself i).1, (hself i).2]
    exact hs.count hw i hi

theorem getDiskEntry {c : Choice} {b : Bool} (hs : Holding base held s) (hc : c.Ok)
    (h : s.getDiskEntry bn c = some (b, s')) :
    Holding base (held + refTo (if b then some bn else none)) s' := by
  unfold Cache.getDiskEntry at h
  obtain ⟨⟨r, s₁⟩, h₁, h⟩ := Option.bind_eq_some_iff.mp h
  have hs₁ := hs.getBufentrySlot h₁
  cases r with
  | none =>
    cases Option.some.inj h
    rw [if_neg Bool.false_ne_true, show refTo none = 0 from rfl, add_zero]
    exact hs₁
  | some k =>
    obtain ⟨hk, hbn, hne⟩ := (hs.wf.getBufentrySlot h₁).2 k rfl
    have hs₂ := hs₁.addRef hk hbn hne
    change (s₁.addRef k bn).load k bn c = some (b, s') at h
    unfold Cache.load at h
    split at h
    · cases Option.some.inj h
      exact hs₂
    · rename_i hno
      have hk0 := hs₂.wf.not_loaded_ne (Bool.not_eq_true _ ▸ hno)
      have hz : bn ≠ 0 := fun hc => hk0 (hs₁.wf.slot_zero hk (hbn.trans hc))
      split at h
      · cases Option.some.inj h
        rw [if_neg Bool.false_ne_true, show refTo none = 0 from rfl, add_zero]
        refine hs₂.dropRef hk ?_ hz
        unfold Cache.addRef
        rw [if_pos hz, modify_self]
        exact hbn
      · rename_i hout
        exact absurd hout hc.1
      · obtain ⟨s₃, h₃, h⟩ := Option.bind_eq_some_iff.mp h
        cases Option.some.inj h
        exact (hs₂.prefetch hc.2 h₃).readBlock hk0

theorem putEntry (hs : Holding base (held + refTo (some bn)) s) (h : s.putEntry bn = some s') :
    Holding base held s' := by
  unfold Cache.putEntry at h
  obtain ⟨k, hk, h⟩ := Option.bind_eq_some_iff.mp h
  obtain ⟨hlt, hbn, -⟩ := findEntry_some hk
  split at h
  · rename_i hz
    rw [← Option.some.inj h]
    exact hs.dropRef hlt hbn hz
  · rename_i hz
    rw [not_not.mp hz, refTo_super, add_zero] at hs
    rw [← Option.some.inj h]
    exact hs

end Holding
end PugOS.ChkFS
