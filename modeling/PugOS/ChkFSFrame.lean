import PugOS.ChkFSRead

/-! # What `map` leaves alone

`map` with any block number, in any inode whose pointer blocks form a tree.  It fills the empty
slots of pointer blocks on the way to the data block with blocks from `allocate_block`, cleared, and
sets the data block's own slot, empty or not.  Every other slot keeps its value (`map_frame`).
Nothing is asked of the data blocks.
-/
namespace PugOS.ChkFS
open Bytes Ring BlockProg
open Journal (blocksize SameBlock)
open FileIter (iclass)

variable {m m' m'' : Mem} {ino bn b : Nat}

/-- The next `n` blocks that `allocate_block` returns, the lowest free ones, are nowhere in the
tree, and are not `bn`. -/
def AllocApart (n : Nat) (m : Mem) (ino bn : Nat) : Prop :=
  ∀ b, isFree m b = true → countBelow b (isFree m) < n →
    ¬ Reserved m ino b ∧ (∀ s : Slot, s.Ok → val m ino s ≠ b) ∧ b ≠ bn

/-- Empty slots of `S` have been filled with free blocks, and no other slot has changed. -/
structure Extended (ino bn : Nat) (S : Finset Slot) (m m' : Mem) : Prop where
  tree : PtrTree m' ino
  apart : ∀ n, AllocApart (n + (absent m ino S).card) m ino bn → AllocApart n m' ino bn
  full : ∀ s ∈ S, val m' ino s ≠ 0
  kept : ∀ s : Slot, s.Ok → val m ino s ≠ 0 → val m' ino s = val m ino s
  rest : ∀ s : Slot, s.Ok → s ∉ S → val m' ino s = val m ino s
  fresh : ∀ s ∈ S, val m ino s = 0 → isFree m (val m' ino s) = true
  free : ∀ b, isFree m' b = true → isFree m b = true
  fbb : fbbBn m' = fbbBn m
  sound : Sound m ino → Sound m' ino

theorem Extended.refl {S : Finset Slot} (hs : PtrTree m ino) (h : ∀ s ∈ S, val m ino s ≠ 0) :
    Extended ino bn S m m :=
  ⟨hs, fun n ha => by rwa [absent_eq_empty h] at ha, h, fun _ _ _ => rfl, fun _ _ _ =>
    rfl, fun s hmem hz => absurd hz (h s hmem), fun _ h => h, rfl, id⟩

theorem Extended.trans {S T : Finset Slot} (hS : ∀ s ∈ S, s.Ok) (hT : ∀ s ∈ T, s.Ok)
    (h : Extended ino bn S m m') (h' : Extended ino bn T m' m'') :
    Extended ino bn (S ∪ T) m m'' := by
  refine ⟨h'.tree, fun n ha => ?_, fun s hs => ?_, fun s hs hne => ?_, fun s ok hs => ?_,
    fun s hs hz => ?_, fun b hb => h.free b (h'.free b hb), h'.fbb.trans h.fbb,
    fun hs => h'.sound (h.sound hs)⟩
  · rw [card_absent_union hT h.full h.rest, Nat.add_comm (absent m ino S).card, ← Nat.add_assoc]
      at ha
    exact h'.apart n (h.apart _ ha)
  · by_cases hin : s ∈ T
    · exact h'.full s hin
    · have hin := (Finset.mem_union.mp hs).resolve_right hin
      rw [h'.kept s (hS s hin) (h.full s hin)]
      exact h.full s hin
  · have hkept := h.kept s hs hne
    rw [h'.kept s hs (hkept.symm ▸ hne), hkept]
  · rw [Finset.mem_union, not_or] at hs
    rw [h'.rest s ok hs.2, h.rest s ok hs.1]
  · by_cases hin : s ∈ S
    · rw [h'.kept s (hS s hin) (h.full s hin)]
      exact h.fresh s hin hz
    · have hin' := (Finset.mem_union.mp hs).resolve_left hin
      have hz' : val m' ino s = 0 := (h.rest s (hT s hin') hin).trans hz
      exact h.free _ (h'.fresh s hin' hz')

/-- A block that is fresh is still fresh. -/
theorem Extended.keeps_fresh {S : Finset Slot} {v : Nat} (h : Extended ino bn S m m')
    (hv : Fresh m ino v) : Fresh m' ino v := by
  refine hv.congr h.fbb h.free fun s ok => ?_
  by_cases hz : val m ino s = 0
  · by_cases hs : s ∈ S
    · intro heq
      have hfree := h.fresh s hs hz
      rw [heq, hv.free] at hfree
      cases hfree
    · rw [h.rest s ok hs]
      exact hv.unused s ok
  · rw [h.kept s ok hz]
    exact hv.unused s ok

/-! ## A new pointer block -/

theorem PtrTree.congr (h : PtrTree m ino) (hfbb : fbbBn m' = fbbBn m)
    (hval : ∀ s : Slot, s.Ok → s.Pointer → val m' ino s = val m ino s) : PtrTree m' ino := by
  refine ⟨h.inode, hfbb ▸ h.fbb, h.ino_ne, hfbb ▸ h.ino_ne_fbb, fun p q hp hq hp' hq' hne heq => ?_,
    fun p hp hp' hne => ?_⟩
  · rw [hval p hp hp'] at hne
    rw [hval p hp hp', hval q hq hq'] at heq
    exact h.inj p q hp hq hp' hq' hne heq
  · rw [hval p hp hp'] at hne ⊢
    have := h.apart p hp hp' hne
    unfold Reserved at this ⊢
    rwa [hfbb]

/-- A block that has been taken and cleared: the pointers are as before. -/
structure Taken (ino b : Nat) (m m' : Mem) : Prop where
  tree : PtrTree m' ino
  val : ∀ s : Slot, s.Ok → val m' ino s = val m ino s
  fbb : fbbBn m' = fbbBn m
  free : ∀ c, isFree m' c = (isFree m c && decide (c ≠ b))
  zero : ∀ i < nindirect, getLE m' (entryAddr b i) 4 = 0

theorem taken (hs : PtrTree m ino) (hb : isFree m b = true) (hreserved : ¬ Reserved m ino b)
    (hunused : ∀ s : Slot, s.Ok → val m ino s ≠ b) :
    Taken ino b m (store (takeBlock m b) (b * blocksize) (List.replicate blocksize 0)) := by
  have htake := takeBlock_confined hb
  have hfbb := htake.fbbBn hs.fbb
  have hval : ∀ s : Slot, s.Ok → val (takeBlock m b) ino s = val m ino s := fun s ok =>
    htake.val hs.inode (Ne.symm hs.ino_ne_fbb) (fun p hp hptr hne h =>
      hs.apart p hp hptr hne (.inr (.inl h))) ok
  have hclear :
      Confined b (takeBlock m b)
      (store (takeBlock m b) (b * blocksize) (List.replicate blocksize 0)) :=
    Confined.store (Nat.le_refl _) (by rw [List.length_replicate])
  have hne : b ≠ 0 ∧ b ≠ fbbBn (takeBlock m b) ∧ b ≠ inoEntry ino :=
    ⟨fun h => hreserved (.inl h), fun h => hreserved (.inr (.inl (h.trans hfbb))), fun h =>
      hreserved (.inr (.inr h))⟩
  have hval' : ∀ s : Slot, s.Ok →
      val (store (takeBlock m b) (b * blocksize) (List.replicate blocksize 0)) ino s =
      val m ino s := fun s ok =>
    (hclear.val hs.inode hne.2.2 (fun p hp _ _ => by rw [hval p hp]; exact hunused p hp) ok).trans
      (hval s ok)
  have hfbb' := (hclear.fbbBn hne.1).trans hfbb
  refine ⟨hs.congr hfbb' fun s ok _ => hval' s ok, hval', hfbb', fun c => ?_, fun i hi => ?_⟩
  · rw [hclear.isFree hne.1 hne.2.1, isFree_take hs.fbb hb]
  · refine getLE_zero fun x h₁ h₂ => store_replicate ?_ ?_
    · unfold entryAddr at h₁
      omega
    · unfold entryAddr nindirect blocksize at *
      omega

/-- The lowest free block is gone from those below another one. -/
theorem countBelow_take {p q : Nat → Bool} {b c : Nat} (hp : p b = true)
    (hlow : ∀ c < b, p c = false) (hc : p c = true) (hcb : c ≠ b)
    (hq : ∀ c, q c = (p c && decide (c ≠ b))) : countBelow c q + 1 = countBelow c p := by
  refine countBelow_erase ?_ hp hq
  rcases Nat.lt_or_ge c b with hlt | hge
  · rw [hlow c hlt] at hc
    cases hc
  · exact Nat.lt_of_le_of_ne hge (Ne.symm hcb)

/-- **A new block in its slot**, the lowest free one. -/
theorem Extended.metablock {s : Slot} (hs : PtrTree m ino) (ok : s.Ok)
    (hparent : HasParent m ino s) (hempty : val m ino s = 0) (hb : isFree m b = true)
    (hlow : ∀ c < b, isFree m c = false) (hreserved : ¬ Reserved m ino b)
    (hunused : ∀ s : Slot, s.Ok → val m ino s ≠ b) (h : Taken ino b m m') :
    Extended ino bn {s} m (putLE m' (slotAddr m' ino s) 4 b) ∧
      val (putLE m' (slotAddr m' ino s) 4 b) ino s = b := by
  have hparent' : HasParent m' ino s := fun p i hp => h.val p (ok.parent hp).1 ▸ hparent p i hp
  have hreserved' : ¬ Reserved m' ino b := by
    unfold Reserved
    rw [h.fbb]
    exact hreserved
  have hlt : b < 2 ^ 32 := by
    have := isFree_lt hb
    unfold bitsperblock blocksize at this
    omega
  have hset : ∀ {t : Slot}, t.Ok → val (putLE m' (slotAddr m' ino s) 4 b) ino t = if t = s then b
      else val m ino t := by
    intro t ht
    rw [val_store h.tree ok hparent' hlt (fun _ => ⟨(h.val s ok).trans hempty, hreserved',
      fun q hq _ => by rw [h.val q hq]; exact hunused q hq, h.zero⟩) ht, h.val t ht]
  have hself : val (putLE m' (slotAddr m' ino s) 4 b) ino s = b := (hset ok).trans (if_pos rfl)
  -- the slot is in the inode or in a block of the tree
  obtain ⟨h₁, h₂⟩ := h.tree.slotAddr_block ok
  have hconf : Confined (slotBlock m' ino s) m' (putLE m' (slotAddr m' ino s) 4 b) :=
    Confined.putLE h₁ h₂ b
  have hblock : slotBlock m' ino s ≠ 0 ∧ slotBlock m' ino s ≠ fbbBn m' := by
    unfold slotBlock
    cases hp : s.place with
    | inode o => exact ⟨h.tree.ino_ne, h.tree.ino_ne_fbb⟩
    | block p i =>
      obtain ⟨hpok, -, -, hpp⟩ := ok.parent hp
      have hne := hparent' p i hp
      exact ⟨hne, fun heq => h.tree.apart p hpok hpp hne (.inr (.inl heq))⟩
  have hfbb : fbbBn (putLE m' (slotAddr m' ino s) 4 b) = fbbBn m :=
    (hconf.fbbBn hblock.1).trans h.fbb
  have hsame : ∀ c, isFree (putLE m' (slotAddr m' ino s) 4 b) c =
      (isFree m c && decide (c ≠ b)) := by
    intro c
    rw [hconf.isFree hblock.1 hblock.2, h.free]
  have hfree : ∀ c, isFree (putLE m' (slotAddr m' ino s) 4 b) c = true → isFree m c = true ∧
      c ≠ b := by
    intro c hc
    rw [hsame, Bool.and_eq_true, decide_eq_true_iff] at hc
    exact hc
  refine ⟨⟨⟨hs.inode, hfbb ▸ hs.fbb, hs.ino_ne, hfbb ▸ hs.ino_ne_fbb, ?_, ?_⟩, ?_, ?_, ?_, ?_, ?_,
    fun c hc => (hfree c hc).1, hfbb, fun hsound => ?_⟩, hself⟩
  · intro p q hp hq hp' hq' hne heq
    rw [hset hp] at hne heq
    rw [hset hq] at heq
    by_cases hps : p = s <;> by_cases hqs : q = s
    · rw [hps, hqs]
    · rw [if_pos hps, if_neg hqs] at heq
      exact absurd heq.symm (hunused q hq)
    · rw [if_neg hps, if_pos hqs] at heq
      exact absurd heq (hunused p hp)
    · rw [if_neg hps] at hne heq
      rw [if_neg hqs] at heq
      exact hs.inj p q hp hq hp' hq' hne heq
  · intro p hp hp' hne
    rw [hset hp] at hne ⊢
    unfold Reserved
    rw [hfbb]
    by_cases hps : p = s
    · rw [if_pos hps]
      exact hreserved
    · rw [if_neg hps] at hne ⊢
      exact hs.apart p hp hp' hne
  · intro n ha c hc hn
    obtain ⟨hc, hcb⟩ := hfree c hc
    have hcard : (absent m ino {s}).card = 1 := by
      unfold absent
      rw [Finset.filter_singleton, if_pos hempty, Finset.card_singleton]
    rw [hcard] at ha
    have hbelow := countBelow_take hb hlow hc hcb hsame
    obtain ⟨hres, hunusedc, hcbn⟩ := ha c hc (by omega)
    refine ⟨?_, fun t ht => ?_, hcbn⟩
    · unfold Reserved
      rw [hfbb]
      exact hres
    · rw [hset ht]
      split
      · exact Ne.symm hcb
      · exact hunusedc t ht
  · intro t ht
    rw [Finset.mem_singleton.mp ht, hself]
    exact fun hz => hreserved (.inl hz)
  · intro t ht hne
    rw [hset ht, if_neg]
    rintro rfl
    exact hne hempty
  · intro t ht hnot
    rw [hset ht, if_neg fun hts => hnot (Finset.mem_singleton.mpr hts)]
  · intro t ht _
    rw [Finset.mem_singleton.mp ht, hself]
    exact hb
  · have hsound' : Sound m' ino := hsound.congr h.fbb (fun c hc => by
      rw [h.free, Bool.and_eq_true] at hc
      exact hc.1) h.val
    refine hsound'.set ok hparent' ((h.val s ok).trans hempty) ⟨hreserved', ?_, fun t ht => ?_, hlt⟩
      fun _ => h.zero
    · rw [h.free, decide_eq_false fun hne => hne rfl, Bool.and_false]
    · rw [h.val t ht]
      exact hunused t ht

/-! ## The steps of `map` -/

theorem view_allocateFrom_cases {fbb nblocks : Nat} : ∀ (fuel bn : Nat),
    (view (allocateFrom fbb nblocks fuel bn) m = some (E_NOSPC, m) ∧
      ∀ c, bn ≤ c → c < bn + fuel → c < nblocks →
      bitSet (getLE m (fbb * blocksize + c / 8) 1) c = false) ∨
      ∃ b, b < bn + fuel ∧ b < nblocks ∧ bitSet (getLE m (fbb * blocksize + b / 8) 1) b = true ∧
        (∀ c, bn ≤ c → c < b → bitSet (getLE m (fbb * blocksize + c / 8) 1) c = false) ∧
        view (allocateFrom fbb nblocks fuel bn) m =
          some (b,
            putLE m (fbb * blocksize + b / 8) 1
            (clearBit (getLE m (fbb * blocksize + b / 8) 1) b)) := by
  intro fuel
  induction fuel with
  | zero => exact fun bn => .inl ⟨rfl, fun c hle hlt => absurd hlt (Nat.not_lt.mpr hle)⟩
  | succ fuel ih =>
    intro bn
    unfold allocateFrom
    by_cases hbn : bn < nblocks
    · rw [if_pos hbn]
      cases hbit : bitSet (getLE m (fbb * blocksize + bn / 8) 1) bn with
      | true =>
        exact .inr ⟨bn, by omega, hbn, hbit, fun c hc hc' => absurd hc' (Nat.not_lt.mpr hc),
          by simp [hbit]⟩
      | false =>
        rcases ih (bn + 1) with ⟨h, hnone⟩ | ⟨b, h₁, h₂, h₃, hlow, h₄⟩
        · refine .inl ⟨by simp [hbit, h], fun c hc hc' hn => ?_⟩
          rcases Nat.lt_or_eq_of_le hc with hlt | rfl
          · exact hnone c hlt (by omega) hn
          · exact hbit
        · refine .inr ⟨b, by omega, h₂, h₃, fun c hc hc' => ?_, by simp [hbit, h₄]⟩
          rcases Nat.lt_or_eq_of_le hc with hlt | rfl
          · exact hlow c hlt hc'
          · exact hbit
    · rw [if_neg hbn]
      exact .inl ⟨rfl, fun c hc _ hn => absurd (Nat.lt_of_le_of_lt hc hn) hbn⟩

/-- **`allocate_block`** takes the lowest free block or fails. -/
theorem view_allocateBlock_cases (m : Mem) :
    (view allocateBlock m = some (E_NOSPC, m) ∧ ∀ b, isFree m b = false) ∨
    ∃ b, isFree m b = true ∧ (∀ c < b, isFree m c = false) ∧
    view allocateBlock m = some (b, takeBlock m b) := by
  rcases @view_allocateFrom_cases m (fbbBn m) (getLE m nblocksAddr 4) bitsperblock 0 with ⟨h,
    hnone⟩ | ⟨b, h₁, h₂, h₃, hlow, h₄⟩
  · refine .inl ⟨?_, fun b => ?_⟩
    · unfold fbbBn at h
      simp [allocateBlock, h]
    · by_contra hb
      rw [Bool.not_eq_false] at hb
      unfold isFree at hb
      simp only [Bool.and_eq_true, decide_eq_true_eq] at hb
      rw [hnone b (Nat.zero_le b) (by omega) hb.1.1] at hb
      exact Bool.false_ne_true hb.2
  · refine .inr ⟨b, ?_, fun c hc => ?_, ?_⟩
    · unfold isFree
      simp only [Bool.and_eq_true, decide_eq_true_eq]
      exact ⟨⟨h₂, by omega⟩, h₃⟩
    · unfold isFree
      rw [hlow c (Nat.zero_le c) hc, Bool.and_false]
    · unfold fbbBn at h₄
      simp [allocateBlock, h₄, takeBlock, fbbByte, fbbBn]

theorem view_allocateMetablockEntry_cases (m : Mem) :
    (view FileIter.allocateMetablockEntry m = some ((E_NOSPC, none), m) ∧ ∀ b, isFree m b = false) ∨
      ∃ b, isFree m b = true ∧ (∀ c < b, isFree m c = false) ∧ b < E_MINERROR ∧
        view FileIter.allocateMetablockEntry m =
        some ((b, some b), store (takeBlock m b) (b * blocksize) (List.replicate blocksize 0)) := by
  rcases view_allocateBlock_cases m with ⟨h, hnone⟩ | ⟨b, hb, hlow, h⟩
  · exact .inl ⟨by simp [FileIter.allocateMetablockEntry, h, show E_NOSPC ≥ E_MINERROR by decide],
      hnone⟩
  · have hlt : b < E_MINERROR := by
      have := isFree_lt hb
      unfold E_MINERROR bitsperblock blocksize at *
      omega
    exact .inr ⟨b, hb, hlow, hlt, by simp [FileIter.allocateMetablockEntry, h, Nat.not_le.mpr hlt]⟩

section Map
variable {it : FileIter} {off : Nat}

theorem countBelow_lowest {p : Nat → Bool} (hlow : ∀ c < b, p c = false) : countBelow b p = 0 := by
  unfold countBelow
  rw [Finset.card_eq_zero, Finset.filter_eq_empty_iff]
  intro c hc hp
  rw [hlow c (Finset.mem_range.mp hc)] at hp
  cases hp

theorem mapIndirect2_cases (hs : PtrTree m ino)
    (ha : AllocApart (absent m ino (rootSlots (off / blocksize))).card m ino bn)
    (h : it.At m ino off) :
    (∃ e m', view (it.mapIndirect2 (off / blocksize)) m = some (.error e, m') ∧ e ≠ 0) ∨
      ∃ it' m', view (it.mapIndirect2 (off / blocksize)) m = some (.ok it', m') ∧
        it'.At m' ino off ∧ Extended ino bn (rootSlots (off / blocksize)) m m' := by
  obtain rfl := h.inode
  have hlt := h.inv.lt
  rw [h.offset] at hlt
  unfold FileIter.mapIndirect2
  by_cases hd : ndirect + nindirect ≤ off / blocksize
  · have hslots : rootSlots (off / blocksize) = {.root} := if_pos hd
    by_cases hroot : val m it.ino .root = 0
    · -- the indirect2 block is made
      have hnone : it.indirect2 = none := by rw [h.indirect2 hd, hroot, entryOf_zero]
      rcases view_allocateMetablockEntry_cases m with ⟨halloc, -⟩ | ⟨b, hb, hlow, hmin, halloc⟩
      · refine .inl ⟨E_NOSPC, m, ?_, by decide⟩
        simp only [hd, hnone, and_self, if_true, view_bind, halloc, Option.bind_some,
          if_pos (show E_NOSPC ≥ E_MINERROR by decide), view_pure]
      · have hcard : (absent m it.ino (rootSlots (off / blocksize))).card = 1 := by
          unfold absent
          rw [hslots, Finset.filter_singleton, if_pos hroot, Finset.card_singleton]
        obtain ⟨hreserved, hunused, -⟩ :=
          ha b hb (by rw [countBelow_lowest hlow, hcard]; exact Nat.one_pos)
        obtain ⟨hext, hself⟩ := @Extended.metablock _ _ _ bn _ .root hs trivial
          (fun p i hp => by cases hp) hroot hb hlow hreserved hunused
          (taken hs hb hreserved hunused)
        have hbne : b ≠ 0 := fun hz => hreserved (.inl hz)
        refine .inr ⟨{ it with indirect2 := some b }, _, ?_, ?_, hslots ▸ hext⟩
        · simp only [hd, hnone, and_self, if_true, view_bind, halloc, Option.bind_some,
            if_neg (Nat.not_le.mpr hmin), view_sully, view_poke, view_pure]
          rfl
        · have hinv : it.Inv _ := h.inv.mono rfl hext.kept
          refine ⟨⟨hinv.lt, fun e he => ?_, hinv.indirect⟩, h.inode, h.offset, fun _ => ?_,
            fun hind => ?_⟩
          · cases he
            dsimp only
            rw [hself]
            exact ⟨rfl, hbne⟩
          · rw [hself, entryOf_some hbne]
          · have hind' : (Slot.ind (iclass (off / blocksize))).Ok :=
              ⟨iclass_pos hind, iclass_le hlt⟩
            rw [hext.rest _ hind' (by simp)]
            exact h.indirect hind
    · have hsome : it.indirect2 ≠ none := by
        rw [h.indirect2 hd, entryOf_some hroot]
        exact Option.some_ne_none _
      rw [if_neg fun hc => hsome hc.2, hslots]
      refine .inr ⟨it, m, rfl, h, Extended.refl hs fun s hmem => ?_⟩
      rw [Finset.mem_singleton.mp hmem]
      exact hroot
  · have hslots : rootSlots (off / blocksize) = ∅ := if_neg hd
    rw [if_neg fun hc => hd hc.1, hslots]
    exact .inr ⟨it, m, rfl, h, Extended.refl hs fun s hmem => absurd hmem (Finset.notMem_empty s)⟩

theorem mapIndirect_cases (hs : PtrTree m ino)
    (ha : AllocApart (absent m ino (indSlots (off / blocksize))).card m ino bn)
    (h : it.At m ino off) (hroot : ∀ s ∈ rootSlots (off / blocksize), val m ino s ≠ 0) :
    (∃ e m', view (it.mapIndirect (off / blocksize)) m = some (.error e, m') ∧ e ≠ 0) ∨
      ∃ it' m', view (it.mapIndirect (off / blocksize)) m = some (.ok it', m') ∧ it'.At m' ino off ∧
        Extended ino bn (indSlots (off / blocksize)) m m' := by
  obtain rfl := h.inode
  have hlt := h.inv.lt
  rw [h.offset] at hlt
  unfold FileIter.mapIndirect
  by_cases hd : ndirect ≤ off / blocksize
  · have hslots : indSlots (off / blocksize) = {.ind (iclass (off / blocksize))} := if_pos hd
    have hind : (Slot.ind (iclass (off / blocksize))).Ok := ⟨iclass_pos hd, iclass_le hlt⟩
    by_cases hval₀ : val m it.ino (.ind (iclass (off / blocksize))) = 0
    · -- the indirect block is made
      have hnone : it.indirect = none := by rw [h.indirect hd, hval₀, entryOf_zero]
      rcases view_allocateMetablockEntry_cases m with ⟨halloc, -⟩ | ⟨b, hb, hlow, hmin, halloc⟩
      · refine .inl ⟨E_NOSPC, m, ?_, by decide⟩
        simp only [hd, hnone, and_self, if_true, view_bind, halloc, Option.bind_some,
          if_pos (show E_NOSPC ≥ E_MINERROR by decide), view_pure]
      · have hcard : (absent m it.ino (indSlots (off / blocksize))).card = 1 := by
          unfold absent
          rw [hslots, Finset.filter_singleton, if_pos hval₀, Finset.card_singleton]
        obtain ⟨hreserved, hunused, -⟩ :=
          ha b hb (by rw [countBelow_lowest hlow, hcard]; exact Nat.one_pos)
        have htaken := taken hs hb hreserved hunused
        obtain ⟨hext, hself⟩ := @Extended.metablock _ _ _ bn _ _ hs hind (hasParent_ind hroot hd)
          hval₀ hb hlow hreserved hunused htaken
        have hbne : b ≠ 0 := fun hz => hreserved (.inl hz)
        obtain ⟨e, hentry, hiptr⟩ := h.iptr hd hroot (htaken.val .root trivial)
        refine .inr ⟨{ it with indirect := some b }, _, ?_, ?_, hslots ▸ hext⟩
        · simp only [hd, hnone, and_self, if_true, view_bind, halloc, Option.bind_some,
            if_neg (Nat.not_le.mpr hmin), hentry, hiptr, view_sully, view_poke, view_pure]
        · have hinv : it.Inv _ := h.inv.mono rfl hext.kept
          refine ⟨⟨hinv.lt, hinv.indirect2, fun e he => ?_⟩, h.inode, h.offset, fun hdouble => ?_,
            fun _ => ?_⟩
          · cases he
            dsimp only
            rw [h.offset, hself]
            exact ⟨rfl, hbne⟩
          · rw [hext.rest .root trivial (by simp)]
            exact h.indirect2 hdouble
          · rw [hself, entryOf_some hbne]
    · have hsome : it.indirect ≠ none := by
        rw [h.indirect hd, entryOf_some hval₀]
        exact Option.some_ne_none _
      rw [if_neg fun hc => hsome hc.2, hslots]
      refine .inr ⟨it, m, rfl, h, Extended.refl hs fun s hmem => ?_⟩
      rw [Finset.mem_singleton.mp hmem]
      exact hval₀
  · have hslots : indSlots (off / blocksize) = ∅ := if_neg hd
    rw [if_neg fun hc => hd hc.1, hslots]
    exact .inr ⟨it, m, rfl, h, Extended.refl hs fun s hmem => absurd hmem (Finset.notMem_empty s)⟩

/-- A slot of a data block, and those of the pointer blocks on the way, in `rootSlots` and
`indSlots`. -/
theorem way_ok (hlt : off / blocksize < maxsize / blocksize) :
    (∀ s ∈ rootSlots (off / blocksize), s.Ok) ∧ ∀ s ∈ indSlots (off / blocksize), s.Ok := by
  have hok := path_ok hlt
  exact ⟨fun s hs => hok s (Finset.mem_union_left _ (Finset.mem_union_left _ hs)),
    fun s hs => hok s (Finset.mem_union_left _ (Finset.mem_union_right _ hs))⟩

/-- The data block's own slot is set last. -/
theorem mapData_view (hs : PtrTree m ino) (h : it.At m ino off) (hbn : bn < 2 ^ 32)
    (hind : ∀ s ∈ indSlots (off / blocksize), val m ino s ≠ 0) : ∃ it' m',
      view (it.mapData (off / blocksize) bn) m = some (it', m') ∧ it'.Inv m' ∧ it'.ino = ino ∧
        PtrTree m' ino ∧ (∀ s : Slot, s.Ok → val m' ino s = if s = .data (off / blocksize) then bn
        else val m ino s) ∧
        (Sound m ino → Fresh m ino bn → val m ino (.data (off / blocksize)) = 0 →
        Sound m' ino) := by
  have hlt := h.inv.lt
  rw [h.offset] at hlt
  have hdata : (Slot.data (off / blocksize)).Ok := hlt
  have hparent := hasParent_data hind
  have hset := fun (s : Slot) (ok : s.Ok) =>
    val_store hs hdata hparent hbn (fun hptr => absurd rfl (hptr (off / blocksize))) ok
  have hptr : ∀ s : Slot, s.Ok → s.Pointer →
      val (putLE m (slotAddr m ino (.data (off / blocksize))) 4 bn) ino s =
      val m ino s := fun s ok hp => (hset s ok).trans (if_neg (hp (off / blocksize)))
  obtain ⟨e, hentry, hdptr⟩ := h.dptr hind
  obtain ⟨h₁, h₂⟩ := hs.slotAddr_block hdata
  have hne : slotBlock m ino (.data (off / blocksize)) ≠ 0 := by
    unfold slotBlock
    cases hp : (Slot.data (off / blocksize)).place with
    | inode o => exact hs.ino_ne
    | block p i => exact hparent p i hp
  have hconf : Confined (slotBlock m ino (.data (off / blocksize))) m
      (putLE m (slotAddr m ino (.data (off / blocksize))) 4 bn) := Confined.putLE h₁ h₂ bn
  have hfbb := hconf.fbbBn hne
  have hinv : it.Inv _ := h.inv.of_pointers h.inode fun s ok hp _ => hptr s ok hp
  refine ⟨{ it with dptr := some (slotAddr m ino (.data (off / blocksize))) }, _, ?_,
    ⟨hinv.lt, hinv.indirect2, hinv.indirect⟩, h.inode, hs.congr hfbb hptr, hset, fun hsound hv hz =>
      hsound.set hdata hparent hz hv fun hptr => absurd rfl (hptr (off / blocksize))⟩
  unfold FileIter.mapData
  simp only [hentry, hdptr, view_bind, view_sully, view_poke, view_pure, Option.bind_some]

/-- **A `map` that returns 0**: it has found nothing to clear, or has set the data block's slot
after it has filled those on the way. -/
theorem map_cases {it' : FileIter} (hs : PtrTree m ino) (ha : AllocApart
    (absent m ino (rootSlots (off / blocksize) ∪ indSlots (off / blocksize))).card m ino bn) (h :
    it.At m ino off) (hbn : bn < 2 ^ 32)
    (hmap : view (it.map bn) m = some ((0, it'), m')) :
    (m' = m ∧ it' = it ∧ bn = 0 ∧ it.dptr = none) ∨
      ∃ m₁, Extended ino bn (rootSlots (off / blocksize) ∪ indSlots (off / blocksize)) m m₁ ∧
        it'.Inv m' ∧ it'.ino = ino ∧ PtrTree m' ino ∧ ∀ s : Slot, s.Ok →
        val m' ino s = if s = .data (off / blocksize) then bn else val m₁ ino s := by
  have hlt := h.inv.lt
  rw [h.offset] at hlt
  have hmod : off / blocksize % 2 ^ 32 = off / blocksize :=
    Nat.mod_eq_of_lt (Nat.lt_trans (nmax_eq ▸ hlt) (by decide))
  obtain ⟨hok₂, hok₁⟩ := way_ok hlt
  unfold FileIter.map at hmap
  rw [h.offset, hmod] at hmap
  by_cases hnothing : bn = 0 ∧ it.dptr = none
  · simp only [hnothing, and_self, if_true, view_pure] at hmap
    cases hmap
    exact .inl ⟨rfl, rfl, hnothing⟩
  · simp only [if_neg hnothing, Nat.not_le.mpr (lt_maxsize hlt), if_false, view_bind] at hmap
    refine .inr ?_
    have ha₁ : AllocApart (absent m ino (rootSlots (off / blocksize))).card m ino bn :=
      fun b hb hn =>
        ha b hb
        (Nat.lt_of_lt_of_le hn (Finset.card_le_card (absent_subset Finset.subset_union_left)))
    rcases mapIndirect2_cases hs ha₁ h with ⟨e, m₁, hmap₁, hne⟩ | ⟨it₁, m₁, hmap₁, hat₁, hext₁⟩
    · simp only [hmap₁, Option.bind_some, view_pure] at hmap
      cases hmap
      exact absurd rfl hne
    · have ha₂ := hext₁.apart (absent m₁ ino (indSlots (off / blocksize))).card
        (by rwa [Nat.add_comm, ← card_absent_union hok₁ hext₁.full hext₁.rest])
      rcases mapIndirect_cases hext₁.tree ha₂ hat₁ hext₁.full with ⟨e, m₂, hmap₂, hne⟩ |
        ⟨it₂, m₂, hmap₂, hat₂, hext₂⟩
      · simp only [hmap₁, hmap₂, Option.bind_some, view_bind, view_pure] at hmap
        cases hmap
        exact absurd rfl hne
      · obtain ⟨it₃, m₃, hdata, hinv₃, hino₃, htree₃, hval₃, -⟩ :=
          mapData_view hext₂.tree hat₂ hbn hext₂.full
        simp only [hmap₁, hmap₂, hdata, Option.bind_some, view_bind, view_pure] at hmap
        cases hmap
        exact ⟨m₂, hext₁.trans hok₂ hok₁ hext₂, hinv₃, hino₃, htree₃, hval₃⟩

/-- Every index of a pointer block is a slot. -/
theorem exists_slot {p : Slot} (hp : p.Ok) (hptr : p.Pointer) {i : Nat} (hi : i < nindirect) :
    ∃ s : Slot, s.Ok ∧ s.place = .block p i := by
  cases p with
  | data bi => exact absurd rfl (hptr bi)
  | root =>
    refine ⟨.ind (i + 2), ⟨by omega, by omega⟩, ?_⟩
    rw [place_ind (by omega), Nat.add_sub_cancel]
  | ind c =>
    obtain ⟨hpos, hle⟩ : 1 ≤ c ∧ c ≤ nindirect + 1 := hp
    refine ⟨.data (ndirect + (c - 1) * nindirect + i), ?_, ?_⟩
    · change _ < maxsize / blocksize
      rw [nmax_eq]
      unfold ndirect nindirect at *
      omega
    · have hclass : iclass (ndirect + (c - 1) * nindirect + i) = c := by
        unfold iclass ndirect nindirect at *
        omega
      have hindex : biDirectIndex (ndirect + (c - 1) * nindirect + i) = i := by
        unfold biDirectIndex ndirect nindirect at *
        rw [if_neg (by omega)]
        omega
      rw [place_data (by omega), hclass, hindex]

theorem readPlace_zero {p : Slot} (hz : val m ino p = 0) (i : Nat) :
    readPlace m ino (.block p i) = 0 := if_pos hz

/-- **`map` changes one block's mapping.**  A pointer block that is new was free before, and holds
zeros but for the slot on the way; the pointer blocks that were there stay; and the iterator finds
everything where it is now. -/
theorem map_frame {it₀ it' : FileIter} (hinv : it₀.Inv m) (hino : it₀.ino = ino)
    (hoff : off < maxsize) (hfind : view (it₀.find off) m = some (it, m)) (hs : PtrTree m ino)
    (ha : AllocApart (absent m ino (rootSlots (off / blocksize) ∪ indSlots (off / blocksize))).card
      m ino bn) (hbn : bn < 2 ^ 32)
    (hmap : view (it.map bn) m = some ((0, it'), m')) :
    (∀ bi < maxsize / blocksize, walk m' ino bi = if bi = off / blocksize then bn
      else walk m ino bi) ∧ (∀ p : Slot, p.Ok → p.Pointer → val m ino p ≠ 0 →
      val m' ino p = val m ino p) ∧ (∀ p : Slot, p.Ok → p.Pointer → val m ino p = 0 →
      val m' ino p ≠ 0 → isFree m (val m' ino p) = true ∧
        ∀ i < nindirect, (∀ s ∈ path (off / blocksize), s.place ≠ .block p i) →
          getLE m' (entryAddr (val m' ino p) i) 4 = 0) ∧
      PtrTree m' ino ∧ it'.Inv m' ∧ it'.ino = ino ∧
      ∀ offs : List Nat, (∀ o ∈ offs, o < maxsize) →
        ∀ o < maxsize, ∃ it₁ it₂, view (it'.finds offs) m' = some (it₁, m') ∧
        view (it₁.find o) m' = some (it₂, m') ∧
        view it₂.blocknum m' = some (walk m' ino (o / blocksize), m') := by
  have hlt := lt_max_of_lt_maxsize hoff
  obtain ⟨it₁, hfind₁, hat, hdptr⟩ := view_find_dptr hinv hlt
  obtain rfl : it₁ = it := congrArg Prod.fst (Option.some.inj (hfind₁.symm.trans hfind))
  rw [hino] at hat
  -- later lookups need the invariant only
  have hlater : ∀ {it' : FileIter} {m' : Mem}, it'.Inv m' → it'.ino = ino →
      ∀ offs : List Nat, (∀ o ∈ offs, o < maxsize) →
      ∀ o < maxsize, ∃ it₁ it₂, view (it'.finds offs) m' = some (it₁, m') ∧
      view (it₁.find o) m' = some (it₂, m') ∧
        view it₂.blocknum m' = some (walk m' ino (o / blocksize), m') := by
    intro it' m' hinv' hino' offs hoffs o ho
    obtain ⟨it₁, hfinds, hinv₁, hino₁⟩ := view_finds m' offs hinv' hoffs
    obtain ⟨it₂, hfind₂, -, hbn₂⟩ := view_find_blocknum hinv₁ (lt_max_of_lt_maxsize ho)
    refine ⟨it₁, it₂, hfinds, hfind₂, ?_⟩
    rw [walk_eq, ← hino', ← hino₁]
    exact hbn₂
  rcases map_cases hs ha hat hbn hmap with ⟨rfl, rfl, rfl, hnone⟩ | ⟨m₁, hext, hinv', hino',
    htree, hval⟩
  · -- there was nothing to clear
    have hzero : val m' ino (.data (off / blocksize)) = 0 := by
      by_contra hne
      have hfull := path_full hne
      obtain ⟨e, -, hget⟩ :=
        hat.dptr fun s hs => hfull s (Finset.mem_union_left _ (Finset.mem_union_right _ hs))
      rw [hnone, if_neg, hget] at hdptr
      · cases hdptr
      · rintro ⟨hd, hind⟩
        rw [hat.indirect hd, entryOf_eq_none] at hind
        exact hfull _ (mem_path.mpr (.inr (.inl ⟨hd, rfl⟩))) hind
    refine ⟨fun bi _ => ?_, fun _ _ _ _ => rfl, fun p _ _ hz hne => absurd hz hne, hs, hat.inv,
      hat.inode, hlater hat.inv hat.inode⟩
    split
    · rename_i heq
      rw [walk_eq, heq]
      exact hzero
    · rfl
  · have hptr : ∀ p : Slot, p.Ok → p.Pointer → val m' ino p = val m₁ ino p :=
      fun p hp hp' => (hval p hp).trans (if_neg (hp' (off / blocksize)))
    refine ⟨fun bi hbi => ?_, fun p hp hp' hne => ?_, fun p hp hp' hz hne =>
      ⟨?_, fun i hi hpath => ?_⟩, htree, hinv', hino', hlater hinv' hino'⟩
    · rw [walk_eq, walk_eq]
      have hdata := hval (.data bi) hbi
      change dataVal m' ino bi = _ at hdata
      rw [hdata]
      by_cases heq : bi = off / blocksize
      · rw [if_pos (congrArg Slot.data heq), if_pos heq]
      · rw [if_neg (fun h => heq (Slot.data.inj h)), if_neg heq]
        exact hext.rest (.data bi) hbi data_not_mem
    · rw [hptr p hp hp', hext.kept p hp hne]
    · rw [hptr p hp hp'] at hne ⊢
      refine hext.fresh p ?_ hz
      by_contra hnot
      exact hne ((hext.rest p hp hnot).trans hz)
    · obtain ⟨s, ok, hplace⟩ := exists_slot hp hp' hi
      have hnot : s ∉ path (off / blocksize) := fun hmem => hpath s hmem hplace
      unfold path at hnot
      rw [Finset.mem_union, not_or, Finset.mem_singleton] at hnot
      have hsame : val m' ino s = val m ino s := by
        rw [hval s ok, if_neg hnot.2, hext.rest s ok hnot.1]
      rw [val_eq ok, val_eq ok, hplace, readPlace_zero hz, readPlace, if_neg hne] at hsame
      exact hsame

end Map

theorem oneBlock_allocApart (n : Nat) : AllocApart n oneBlock 8256 3 := by
  intro b hb _
  have hle := oneBlock_free hb
  refine ⟨oneBlock_sound.free b hb, fun s ok => ?_, Nat.ne_of_gt hle⟩
  rw [oneBlock_val ok]
  split
  · exact Nat.ne_of_lt hle
  · omega

/-- The block of a one-block file, mapped at the first indirect index as well. -/
theorem map_frame_oneBlock : ∃ it it' m', view ((FileIter.mk' 8256).find 36864) oneBlock =
    some (it, oneBlock) ∧ view (it.map 3) oneBlock = some ((0, it'), m') ∧
    ∀ bi < maxsize / blocksize, walk m' 8256 bi = if bi = 36864 / blocksize then 3
    else walk oneBlock 8256 bi := by
  have hinv := FileIter.Inv.start oneBlock 8256
  obtain ⟨it, hfind, -⟩ := @view_find _ _ hinv 36864 (by decide)
  have hrun : (view ((FileIter.mk' 8256).find 36864 >>= fun it => it.map 3) oneBlock).map
      (fun r => r.1.1) = some 0 := by
    decide +kernel
  rw [view_bind, hfind, Option.bind_some] at hrun
  obtain ⟨⟨⟨r, it'⟩, m'⟩, hmap, rfl⟩ := Option.map_eq_some_iff.mp hrun
  have hframe :=
    map_frame hinv rfl (by decide) hfind oneBlock_sound.ptrTree (oneBlock_allocApart _)
      (by decide) hmap
  exact ⟨it, it', m', hfind, hmap, hframe.1⟩

end PugOS.ChkFS
