import PugOS.ChkFSMap
import Mathlib.Data.Finset.Union
import Mathlib.Order.Interval.Finset.Nat

/-! # Writing files

A file is the array of its bytes (`fileByte`, `contents`).  `vnode_inode::write` stores
the buffer block by block, and maps the next block only when it goes on beyond the one
it is in: so it does what a write to an array does if the block it starts in is mapped
(`view_write`), and nothing at all otherwise (`view_write_unmapped`).
-/
namespace PugOS.ChkFS
open Bytes Ring BlockProg
open Journal (blocksize SameBlock)

variable {m m' m'' : Mem} {ino bi off : Nat} {S T : Finset Slot} {buf a b : List UInt8}

/-! ## Files as arrays -/

section File
variable (m : Mem) (ino : Nat)

def fileSize : Nat := getLE m (sizeAddr ino) 4

/-- Byte `x` of the file, if it is in a block that is mapped. -/
def fileByte (x : Nat) : Option UInt8 :=
  (entryOf (dataVal m ino (x / blocksize))).map fun bn => m (bn * blocksize + x % blocksize)

/-- The bytes of the file. -/
def contents : List (Option UInt8) := (List.range (fileSize m ino)).map (fileByte m ino)

/-- All blocks that cover the file are mapped. -/
def Mapped : Prop := ∀ x < fileSize m ino, dataVal m ino (x / blocksize) ≠ 0

end File

/-- The slots through which `n` bytes at `off` are reached. -/
def span (off n : Nat) : Finset Slot :=
  (Finset.Ico off (off + n)).biUnion fun x => path (x / blocksize)

/-- There are as many free blocks as `n` bytes at `off` need and the file lacks. -/
def EnoughFree (m : Mem) (ino off n : Nat) : Prop := (absent m ino (span off n)).card ≤ freeCount m

theorem mem_span {s : Slot} {n : Nat} :
    s ∈ span off n ↔ ∃ x, off ≤ x ∧ x < off + n ∧ s ∈ path (x / blocksize) := by
  unfold span
  simp only [Finset.mem_biUnion, Finset.mem_Ico, and_assoc]

theorem span_zero (off : Nat) : span off 0 = ∅ := by
  unfold span
  rw [Nat.add_zero, Finset.Ico_self, Finset.biUnion_empty]

theorem span_add (off n k : Nat) : span off (n + k) = span off n ∪ span (off + n) k := by
  have hIco : Finset.Ico off (off + (n + k)) =
      Finset.Ico off (off + n) ∪ Finset.Ico (off + n) (off + n + k) := by
    rw [Finset.Ico_union_Ico_eq_Ico (by omega) (by omega), Nat.add_assoc]
  unfold span
  rw [hIco, Finset.union_biUnion]

/-- All bytes of one block are reached through the same slots. -/
theorem span_block {n : Nat} (hn : 0 < n) (h : off % blocksize + n ≤ blocksize) :
    span off n = path (off / blocksize) := by
  ext s
  rw [mem_span]
  have hdiv : ∀ x, off ≤ x → x < off + n → x / blocksize = off / blocksize := by
    unfold blocksize at *
    omega
  constructor
  · rintro ⟨x, h₁, h₂, hs⟩
    rwa [hdiv x h₁ h₂] at hs
  · exact fun hs => ⟨off, Nat.le_refl _, by omega, hs⟩

theorem div_lt_max (h : off < 2 ^ 32) : off / blocksize < maxsize / blocksize := by
  rw [nmax_eq]
  unfold blocksize
  omega

theorem span_ok {n : Nat} (h : off + n < 2 ^ 32) : ∀ s ∈ span off n, s.Ok := by
  intro s hs
  obtain ⟨x, -, hx, hs⟩ := mem_span.mp hs
  exact path_ok (div_lt_max (by omega)) s hs

theorem fileByte_eq {x : Nat} (h : dataVal m ino (x / blocksize) ≠ 0) :
    fileByte m ino x = some (m (dataVal m ino (x / blocksize) * blocksize + x % blocksize)) := by
  unfold fileByte
  rw [entryOf_some h]
  rfl

theorem mapped_of_fileByte {x : Nat} {c : UInt8} (h : fileByte m ino x = some c) :
    dataVal m ino (x / blocksize) ≠ 0 := by
  intro hz
  unfold fileByte at h
  rw [hz] at h
  cases h

/-! ## What a write does -/

/-- `buf` has been written at `off`: the slots of `S` have been filled, no pointer that
was there has changed, and no other byte. -/
structure Written (ino : Nat) (S : Finset Slot) (off : Nat) (buf : List UInt8) (m m' : Mem) :
    Prop where
  ok : ∀ s ∈ S, s.Ok
  sound : Sound m' ino
  kept : ∀ s : Slot, s.Ok → val m ino s ≠ 0 → val m' ino s = val m ino s
  full : ∀ s ∈ S, val m' ino s ≠ 0
  rest : ∀ s : Slot, s.Ok → s ∉ S → val m' ino s = val m ino s
  count : freeCount m' + (absent m ino S).card = freeCount m
  size : fileSize m' ino = max (fileSize m ino) (off + buf.length)
  bytes : ∀ i (hi : i < buf.length), fileByte m' ino (off + i) = some buf[i]
  others : ∀ x, (Slot.data (x / blocksize)).Ok → dataVal m ino (x / blocksize) ≠ 0 →
    (x < off ∨ off + buf.length ≤ x) → fileByte m' ino x = fileByte m ino x

theorem Written.trans {o : Nat} (h : Written ino S off a m m') (h' : Written ino T o b m' m'')
    (ho : off + a.length = o) (hmax : o < 2 ^ 32) : Written ino (S ∪ T) off (a ++ b) m m'' := by
  subst ho
  have hkept : ∀ s : Slot, s.Ok → val m ino s ≠ 0 → val m'' ino s = val m ino s := by
    intro s ok hne
    have h₁ := h.kept s ok hne
    rw [h'.kept s ok (h₁.symm ▸ hne), h₁]
  refine ⟨?_, h'.sound, hkept, ?_, ?_, ?_, ?_, ?_, ?_⟩
  · exact fun s hs => (Finset.mem_union.mp hs).elim (h.ok s) (h'.ok s)
  · intro s hs
    by_cases hT : s ∈ T
    · exact h'.full s hT
    · have hS := (Finset.mem_union.mp hs).resolve_right hT
      rw [h'.rest s (h.ok s hS) hT]
      exact h.full s hS
  · intro s ok hs
    rw [Finset.mem_union, not_or] at hs
    rw [h'.rest s ok hs.2, h.rest s ok hs.1]
  · have hcard := card_absent_union h'.ok h.full h.rest
    have h₁ := h.count
    have h₂ := h'.count
    omega
  · rw [h'.size, h.size, List.length_append]
    omega
  · intro i hi
    rw [List.length_append] at hi
    by_cases hia : i < a.length
    · have hbyte := h.bytes i hia
      rw [h'.others (off + i) (div_lt_max (by omega)) (mapped_of_fileByte hbyte) (by omega), hbyte,
        List.getElem_append_left hia]
    · have hbyte := h'.bytes (i - a.length) (by omega)
      rw [show off + a.length + (i - a.length) = off + i by omega] at hbyte
      rw [hbyte, List.getElem_append_right (by omega)]
  · intro x ok hne hx
    rw [List.length_append] at hx
    have hne' : dataVal m' ino (x / blocksize) ≠ 0 := by
      have := h.kept _ ok hne
      exact fun hz => hne (this.symm.trans hz)
    rw [h'.others x ok hne' (by omega), h.others x ok hne (by omega)]

/-- There are still enough free blocks for what is left. -/
theorem Written.free (h : Written ino S off buf m m') (hT : ∀ s ∈ T, s.Ok)
    (hfree : (absent m ino (S ∪ T)).card ≤ freeCount m) :
    (absent m' ino T).card ≤ freeCount m' := by
  have hcard := card_absent_union hT h.full h.rest
  have hcount := h.count
  omega

/-- Mapping blocks writes nothing. -/
theorem Filled.written (h : Filled ino S m m') (hoff : off ≤ fileSize m ino) :
    Written ino S off [] m m' := by
  refine ⟨h.ok, h.evolved.sound, h.evolved.kept, h.full, h.rest, h.evolved.count, ?_, ?_, ?_⟩
  · unfold fileSize at *
    rw [h.evolved.size, List.length_nil]
    omega
  · intro i hi
    cases hi
  · intro x ok hne _
    have hkept : dataVal m' ino (x / blocksize) = dataVal m ino (x / blocksize) :=
      h.evolved.kept _ ok hne
    have hblock := h.evolved.data _ ok hne
    rw [fileByte_eq hne, fileByte_eq (hkept.symm ▸ hne), hkept]
    refine congrArg some (hblock _ (by simp [val]) ?_)
    have : x % blocksize < blocksize := Nat.mod_lt _ (by decide)
    simp only [val]
    omega

/-! ## One block -/

/-- The pointers and the free blocks are the same. -/
structure SameMap (ino : Nat) (m m' : Mem) : Prop where
  val : ∀ s : Slot, s.Ok → val m' ino s = val m ino s
  fbb : fbbBn m' = fbbBn m
  free : ∀ b, isFree m' b = isFree m b

theorem SameMap.sound (h : SameMap ino m m') (hs : Sound m ino) : Sound m' ino :=
  hs.congr h.fbb (fun b hb => h.free b ▸ hb) h.val

/-- Storing in a data block changes no pointer. -/
theorem SameMap.confined_data (hs : Sound m ino) (ok : (Slot.data bi).Ok)
    (hne : dataVal m ino bi ≠ 0) (h : Confined (dataVal m ino bi) m m') : SameMap ino m m' := by
  have hres := (hs.used (.data bi) ok hne).1
  refine ⟨fun s hs' => h.val hs.inode (fun hc => hres (.inr (.inr hc))) ?_ hs', h.fbbBn hne,
    h.isFree hne fun hc => hres (.inr (.inl hc))⟩
  intro p hp hnd hp0 heq
  exact hnd bi (hs.inj p (.data bi) hp ok hp0 heq)

/-- Setting the size changes no pointer. -/
theorem SameMap.size (hs : Sound m ino) (n : Nat) :
    SameMap ino m (putLE m (sizeAddr ino) 4 n) ∧
      Confined (inoEntry ino) m (putLE m (sizeAddr ino) 4 n) := by
  have hino := hs.inode
  have hconf : Confined (inoEntry ino) m (putLE m (sizeAddr ino) 4 n) := by
    refine Confined.putLE ?_ ?_ n <;> unfold sizeAddr inoEntry blocksize <;> omega
  refine ⟨⟨fun s ok => ?_, hconf.fbbBn hs.ino_ne, hconf.isFree hs.ino_ne hs.ino_ne_fbb⟩, hconf⟩
  refine val_congr (fun x h₁ _ => putLE_of_not_mem ?_) (fun p hp _ hne => hconf _ ?_) ok
  · unfold sizeAddr
    omega
  · exact fun hc => (hs.used p hp hne).1 (.inr (.inr hc))

/-- What `growSize` does. -/
def grown (m : Mem) (ino off : Nat) : Mem :=
  if off > fileSize m ino then putLE m (sizeAddr ino) 4 off else m

theorem view_growSize (m : Mem) (ino off : Nat) :
    view (growSize ino off) m = some ((), grown m ino off) := by
  unfold growSize grown fileSize
  rw [view_bind, view_peek, Option.bind_some]
  split
  · rw [view_poke]
  · rfl

theorem grown_spec (hs : Sound m ino) (hmax : off < 2 ^ 32) :
    SameMap ino m (grown m ino off) ∧ Confined (inoEntry ino) m (grown m ino off) ∧
      fileSize (grown m ino off) ino = max (fileSize m ino) off := by
  unfold grown
  split
  · obtain ⟨h₁, h₂⟩ := SameMap.size hs off
    refine ⟨h₁, h₂, ?_⟩
    unfold fileSize at *
    rw [getLE_putLE m _ hmax]
    omega
  · exact ⟨⟨fun _ _ => rfl, rfl, fun _ => rfl⟩, fun _ _ _ _ _ => rfl, by omega⟩

/-- A byte is the same when its pointer is and its block. -/
theorem SameMap.fileByte (h : SameMap ino m m') {x : Nat} (ok : (Slot.data (x / blocksize)).Ok)
    (hne : dataVal m ino (x / blocksize) ≠ 0)
    (hblock : m' (dataVal m ino (x / blocksize) * blocksize + x % blocksize) =
      m (dataVal m ino (x / blocksize) * blocksize + x % blocksize)) :
    fileByte m' ino x = fileByte m ino x := by
  have hval : dataVal m' ino (x / blocksize) = dataVal m ino (x / blocksize) := h.val _ ok
  rw [fileByte_eq hne, fileByte_eq (hval.symm ▸ hne), hval, hblock]

theorem block_addr (bn x : Nat) : bn * blocksize ≤ bn * blocksize + x % blocksize ∧
    bn * blocksize + x % blocksize < bn * blocksize + blocksize := by
  have : x % blocksize < blocksize := Nat.mod_lt _ (by decide)
  omega

/-- **A write within one block** that is mapped. -/
theorem written_store (hs : Sound m ino) (ok : (Slot.data (off / blocksize)).Ok)
    (hne : dataVal m ino (off / blocksize) ≠ 0) (hlen : off % blocksize + buf.length ≤ blocksize)
    (hmax : off + buf.length < 2 ^ 32) :
    Written ino ∅ off buf m (grown (store m (dataVal m ino (off / blocksize) * blocksize +
      off % blocksize) buf) ino (off + buf.length)) := by
  have hconf : Confined (dataVal m ino (off / blocksize)) m
      (store m (dataVal m ino (off / blocksize) * blocksize + off % blocksize)
      buf) := Confined.store (by omega) (by omega)
  have hsame := SameMap.confined_data hs ok hne hconf
  generalize hm₁ : store m (dataVal m ino (off / blocksize) * blocksize + off % blocksize) buf = m₁
    at hconf hsame ⊢
  have hs₁ := hsame.sound hs
  obtain ⟨hgrow, hconf', hsize⟩ := grown_spec hs₁ hmax
  generalize grown m₁ ino (off + buf.length) = m₂ at hgrow hconf' hsize ⊢
  have hval : ∀ s : Slot, s.Ok → val m₂ ino s = val m ino s :=
    fun s ok => (hgrow.val s ok).trans (hsame.val s ok)
  have hsame₂ : SameMap ino m m₂ :=
    ⟨hval, hgrow.fbb.trans hsame.fbb, fun b => (hgrow.free b).trans (hsame.free b)⟩
  -- the size of the inode only changes with the inode
  have hsize₁ : fileSize m₁ ino = fileSize m ino := by
    have hres := (hs.used _ ok hne).1
    have hblock := hconf (inoEntry ino) fun hc => hres (.inr (.inr hc.symm))
    have hino := hs.inode
    refine getLE_congr fun x h₁ h₂ => hblock x ?_ ?_ <;>
      (unfold sizeAddr inoEntry blocksize at *; omega)
  -- and a data block's bytes do not change with the inode
  have hdata : ∀ x, (Slot.data (x / blocksize)).Ok → dataVal m ino (x / blocksize) ≠ 0 →
      m₂ (dataVal m ino (x / blocksize) * blocksize + x % blocksize) =
        m₁ (dataVal m ino (x / blocksize) * blocksize + x % blocksize) := by
    intro x hx hx0
    have hres := (hs.used _ hx hx0).1
    obtain ⟨h₁, h₂⟩ := block_addr (dataVal m ino (x / blocksize)) x
    exact hconf' _ (fun hc => hres (.inr (.inr hc))) _ h₁ h₂
  refine ⟨fun s hs => absurd hs (Finset.notMem_empty s), hsame₂.sound hs, fun s ok _ => hval s ok,
    fun s hs => absurd hs (Finset.notMem_empty s), fun s ok _ => hval s ok, ?_, ?_, ?_, ?_⟩
  · exact freeCount_congr hsame₂.free
  · rw [hsize, hsize₁]
  · intro i hi
    have hdiv : (off + i) / blocksize = off / blocksize := by
      unfold blocksize at *
      omega
    have hmod : (off + i) % blocksize = off % blocksize + i := by
      unfold blocksize at *
      omega
    have hval' : dataVal m₂ ino (off / blocksize) = dataVal m ino (off / blocksize) := hval _ ok
    have hbyte := hdata (off + i)
    rw [hdiv, hmod] at hbyte
    rw [fileByte_eq (by rw [hdiv, hval']; exact hne), hdiv, hmod, hval', hbyte ok hne, ← hm₁,
      ← Nat.add_assoc]
    exact congrArg some (store_getElem m _ hi)
  · intro x okx hx0 hx
    refine hsame₂.fileByte okx hx0 ?_
    rw [hdata x okx hx0]
    by_cases hdiv : x / blocksize = off / blocksize
    · rw [← hm₁]
      refine store_of_not_mem m buf ?_
      rw [hdiv]
      unfold blocksize at *
      omega
    · obtain ⟨h₁, h₂⟩ := block_addr (dataVal m ino (x / blocksize)) x
      refine hconf _ (fun hc => hdiv ?_) _ h₁ h₂
      exact Slot.data.inj (hs.inj _ _ okx ok hx0 hc)

/-! ## The loop -/

theorem Written.nil (hs : Sound m ino) (hoff : off ≤ fileSize m ino) : Written ino ∅ off [] m m :=
  (Filled.refl hs (fun s hs => absurd hs (Finset.notMem_empty s))
    fun s hs => absurd hs (Finset.notMem_empty s)).written hoff

/-- What is left once the slots of the first block are there, and those of the next. -/
theorem span_split {n k : Nat} (hn : 0 < n) (h : off % blocksize + n ≤ blocksize) :
    span off (n + k) = path (off / blocksize) ∪ span (off + n) k := by
  rw [span_add, span_block hn h]

/-- The next chunk is stored once the blocks it needs are there. -/
theorem Written.chunk (h : Written ino S off [] m m') (hok : (Slot.data (off / blocksize)).Ok)
    (hne : dataVal m ino (off / blocksize) ≠ 0) (hlen : off % blocksize + a.length ≤ blocksize)
    (hmax : off + a.length < 2 ^ 32) :
    Written ino S off a m (grown (store m' (dataVal m ino (off / blocksize) * blocksize +
      off % blocksize) a) ino (off + a.length)) ∧
    ∀ s : Slot, s.Ok → val m' ino s ≠ 0 → val (grown (store m' (dataVal m ino (off / blocksize) *
      blocksize + off % blocksize) a) ino (off + a.length)) ino s = val m' ino s := by
  have hval : dataVal m' ino (off / blocksize) = dataVal m ino (off / blocksize) := h.kept _ hok hne
  have hstore := written_store h.sound hok (hval.symm ▸ hne) hlen hmax
  rw [hval] at hstore
  have hboth := h.trans hstore rfl (by omega)
  rw [Finset.union_empty] at hboth
  exact ⟨hboth, hstore.kept⟩

theorem view_writeLoop_nil (m : Mem) (ino fuel : Nat) (it : FileIter) (off nwritten : Nat) :
    view (writeLoop ino fuel it [] off nwritten) m = some ((nwritten, off, it), m) := by
  cases fuel <;> rfl

/-- **The loop writes the whole buffer** if the block it starts in is mapped and there
are enough free blocks for the others. -/
theorem view_writeLoop (fuel : Nat) (it : FileIter) (nwritten : Nat) (hs : Sound m ino)
    (hinv : it.Inv m) (hino : it.ino = ino) (hfuel : buf.length ≤ fuel)
    (hmapped : buf ≠ [] → dataVal m ino (off / blocksize) ≠ 0) (hoff : off ≤ fileSize m ino)
    (hmax : off + buf.length < 2 ^ 32) (hfree : EnoughFree m ino off buf.length) :
    ∃ it' m', view (writeLoop ino fuel it buf off nwritten) m =
        some ((nwritten + buf.length, off + buf.length, it'), m') ∧
      Written ino (span off buf.length) off buf m m' := by
  induction fuel generalizing m it buf off nwritten with
  | zero =>
    have hnil : buf = [] := List.length_eq_zero_iff.mp (by omega)
    subst hnil
    exact ⟨it, m, view_writeLoop_nil m ino _ it off nwritten, span_zero off ▸ Written.nil hs hoff⟩
  | succ fuel ih =>
    by_cases hnil : buf = []
    · subst hnil
      exact ⟨it, m, view_writeLoop_nil m ino _ it off nwritten, span_zero off ▸ Written.nil hs hoff⟩
    have hlen : 0 < buf.length := List.length_pos_iff.mpr hnil
    have hne := hmapped hnil
    have hok : (Slot.data (off / blocksize)).Ok := div_lt_max (by omega)
    have hbs : off / blocksize * blocksize / blocksize = off / blocksize :=
      Nat.mul_div_cancel _ (by decide)
    have hsub : off - off / blocksize * blocksize = off % blocksize := by
      rw [Nat.mod_eq_sub_div_mul]
    have hget := view_getDataBlock m ino (Nat.mul_mod_left (off / blocksize) blocksize)
      (by rw [hbs]; exact hok)
    rw [hbs, entryOf_some hne] at hget
    have hstart : Written ino (path (off / blocksize)) off [] m m :=
      (Filled.refl hs (path_ok hok) (path_full hne)).written hoff
    unfold writeLoop
    rw [if_neg (by omega), view_bind, hget, Option.bind_some]
    dsimp only
    rw [hsub]
    by_cases hcross : off + buf.length > off / blocksize * blocksize + blocksize
    · -- the write goes on beyond this block, and the next one is mapped
      simp only [if_pos hcross]
      have hmod : off % blocksize < blocksize := Nat.mod_lt _ (by decide)
      have hend : off / blocksize * blocksize + blocksize = off +
          (blocksize - off % blocksize) := by
        unfold blocksize at *
        omega
      rw [hend] at hcross ⊢
      generalize hn : blocksize - off % blocksize = n at hcross ⊢
      have hlt : n < buf.length := by omega
      have hnext : (off + n) / blocksize < maxsize / blocksize := div_lt_max (by omega)
      have hspan : span off buf.length = path (off / blocksize) ∪ span (off + n)
          (buf.length - n) := by
        rw [← span_split (by omega) (by omega), Nat.add_sub_cancel' (Nat.le_of_lt hlt)]
      have hsub' : path ((off + n) / blocksize) ⊆ span (off + n) (buf.length - n) := by
        intro s hs
        exact mem_span.mpr ⟨off + n, Nat.le_refl _, by omega, hs⟩
      have hfree₁ : (absent m ino (path ((off + n) / blocksize))).card ≤ freeCount m := by
        refine Nat.le_trans (Finset.card_le_card (absent_subset ?_)) hfree
        rw [hspan]
        exact hsub'.trans Finset.subset_union_right
      obtain ⟨it₁, m₁, hmap, hinv₁, hino₁, hfill⟩ := view_mapNext hs hinv hino
        (by unfold blocksize at *; omega) hnext hfree₁
      have hw₁ := hstart.trans (hfill.written hoff) rfl (by omega)
      have htake : (buf.take n).length = n := List.length_take_of_le (by omega)
      obtain ⟨hw, hkept⟩ := hw₁.chunk (a := buf.take n) hok hne (by omega) (by omega)
      rw [htake] at hw hkept
      generalize hm₂ : grown _ ino (off + n) = m₂ at hw hkept
      have hfull : dataVal m₁ ino ((off + n) / blocksize) ≠ 0 :=
        hfill.full (.data _) (mem_path.mpr (.inr (.inr rfl)))
      have hdrop : (buf.drop n).length = buf.length - n := List.length_drop
      have hunion : (path (off / blocksize) ∪ path ((off + n) / blocksize)) ∪
          span (off + n) (buf.length - n) = span off buf.length := by
        rw [hspan, Finset.union_assoc, Finset.union_eq_right.mpr hsub']
      have hnextok : ∀ s ∈ span (off + n) (buf.length - n), s.Ok := span_ok (by omega)
      have hfree₂ : EnoughFree m₂ ino (off + n) (buf.drop n).length := by
        rw [hdrop]
        refine hw.free hnextok ?_
        rw [hunion]
        exact hfree
      have hfull₂ : dataVal m₂ ino ((off + n) / blocksize) ≠ 0 := by
        have := hkept (.data _) hnext hfull
        exact fun hz => hfull (this.symm.trans hz)
      have hsize : off + n ≤ fileSize m₂ ino := by
        rw [hw.size, htake]
        omega
      obtain ⟨it', m', hview, hw'⟩ := ih it₁ (nwritten + n) hw.sound (hinv₁.mono hino₁ hkept) hino₁
        (by omega) (fun _ => hfull₂) hsize (by omega) hfree₂
      have hboth := hw.trans hw' (by rw [htake]) (by omega)
      rw [hdrop, hunion, List.take_append_drop] at hboth
      refine ⟨it', m', ?_, hboth⟩
      simp only [view_bind, hmap, view_sully, view_storeBytes, view_putEntry, view_growSize,
        Option.bind_some, hm₂, hview, hdrop]
      rw [Nat.add_assoc, Nat.add_assoc, Nat.add_sub_cancel' (Nat.le_of_lt hlt)]
    · simp only [if_neg hcross]
      have hlast : off % blocksize + buf.length ≤ blocksize := by
        unfold blocksize at *
        omega
      obtain ⟨hw, -⟩ := hstart.chunk hok hne hlast hmax
      rw [← span_block hlen hlast] at hw
      refine ⟨it, _, ?_, hw⟩
      simp only [view_bind, view_pure, view_sully, view_storeBytes, view_putEntry, view_growSize,
        Option.bind_some, List.take_length, List.drop_length, view_writeLoop_nil]

/-! ## `write` -/

theorem view_release (it : FileIter) (m : Mem) : view it.release m = some ((), m) := by
  obtain ⟨_, _, _, indirect2, indirect⟩ := it
  cases indirect2 <;> cases indirect <;> rfl

/-- **A write that starts in a mapped block** writes the whole buffer. -/
theorem view_write (hs : Sound m ino) (hmapped : dataVal m ino (off / blocksize) ≠ 0)
    (hoff : off ≤ fileSize m ino) (hmax : off + buf.length < 2 ^ 32)
    (hfree : EnoughFree m ino off buf.length) :
    ∃ m', view (write ino buf off) m = some ((buf.length, off + buf.length), m') ∧
      Written ino (span off buf.length) off buf m m' := by
  obtain ⟨it, m', hview, hw⟩ := view_writeLoop buf.length (FileIter.mk' ino) 0 hs
    (FileIter.Inv.start m ino) rfl (Nat.le_refl _) (fun _ => hmapped) hoff hmax hfree
  refine ⟨m', ?_, hw⟩
  unfold write
  simp only [view_bind, view_sully, Option.bind_some, hview, view_release, view_pure, Nat.zero_add]

/-- **A write that starts in a block that is not mapped** writes nothing. -/
theorem view_write_unmapped (hmax : off < 2 ^ 32) (hnil : buf ≠ [])
    (h : dataVal m ino (off / blocksize) = 0) :
    view (write ino buf off) m = some ((0, off), m) := by
  have hbs : off / blocksize * blocksize / blocksize = off / blocksize :=
    Nat.mul_div_cancel _ (by decide)
  have hget := view_getDataBlock m ino (Nat.mul_mod_left (off / blocksize) blocksize)
    (by rw [hbs]; exact div_lt_max hmax)
  rw [hbs, entryOf_eq_none.mpr h] at hget
  obtain ⟨fuel, hfuel⟩ := Nat.exists_eq_succ_of_ne_zero
    (Nat.ne_of_gt (List.length_pos_iff.mpr hnil))
  unfold write
  rw [hfuel]
  unfold writeLoop
  rw [hfuel, if_neg (Nat.succ_ne_zero fuel)]
  simp only [view_bind, view_sully, Option.bind_some, hget, view_release, view_pure]

/-- The write does what it does to an array: it returns the length of the buffer and
moves the offset by it, the file is as long as it needs to be, the bytes from `off` on
are those of the buffer, and no other byte of the file changes. -/
def WritesArray (m : Mem) (ino off : Nat) (buf : List UInt8) : Prop :=
  ∃ m', view (write ino buf off) m = some ((buf.length, off + buf.length), m') ∧
    fileSize m' ino = max (fileSize m ino) (off + buf.length) ∧
    (∀ i (hi : i < buf.length), fileByte m' ino (off + i) = some buf[i]) ∧
    ∀ x < fileSize m ino, (x < off ∨ off + buf.length ≤ x) → fileByte m' ino x = fileByte m ino x

/-- Writes through one descriptor, one after another: the offset at the end. -/
def writes (ino : Nat) : List (List UInt8) → Nat → Prog Nat
  | [], off => return off
  | buf :: bufs, off => do
    let (_, off) ← write ino buf off
    writes ino bufs off

/-- Appending the buffers to the file appends them all. -/
def AppendsAll (m : Mem) (ino : Nat) (bufs : List (List UInt8)) : Prop :=
  ∃ off m', view (writes ino bufs (fileSize m ino)) m = some (off, m') ∧
    contents m' ino = contents m ino ++ bufs.flatten.map some

/-- Each of the buffers, written one after another from `off` on, starts in a block that
the file has, or in the middle of one. -/
def StartsMapped (m : Mem) (ino : Nat) : Nat → List (List UInt8) → Prop
  | _, [] => True
  | off, buf :: bufs => (off % blocksize = 0 → dataVal m ino (off / blocksize) ≠ 0) ∧
      StartsMapped m ino (off + buf.length) bufs

theorem fileSize_lt (m : Mem) (ino : Nat) : fileSize m ino < 2 ^ 32 := getLE_lt m _ 4

section Appends
variable {bufs : List (List UInt8)}

theorem Written.mapped (h : Written ino S off buf m m') (hmap : Mapped m ino)
    (hoff : off ≤ fileSize m ino) : Mapped m' ino := by
  intro x hx
  rw [h.size] at hx
  by_cases hlt : x < fileSize m ino
  · have hne := hmap x hlt
    have hsize := fileSize_lt m ino
    have hkept := h.kept (.data (x / blocksize)) (div_lt_max (by omega)) hne
    exact fun hz => hne (hkept.symm.trans hz)
  · have hbyte := h.bytes (x - off) (by omega)
    rw [Nat.add_sub_cancel' (by omega)] at hbyte
    exact mapped_of_fileByte hbyte

theorem Written.contents (h : Written ino S (fileSize m ino) buf m m') (hmap : Mapped m ino) :
    contents m' ino = contents m ino ++ buf.map some := by
  have hsize : fileSize m' ino = fileSize m ino + buf.length := by
    rw [h.size]
    omega
  unfold ChkFS.contents
  rw [hsize, List.range_add, List.map_append, List.map_map]
  congr 1
  · refine List.map_congr_left fun x hx => ?_
    have hlt := List.mem_range.mp hx
    have := fileSize_lt m ino
    exact h.others x (div_lt_max (by omega)) (hmap x hlt) (.inl hlt)
  · refine List.ext_getElem (by simp) fun i h₁ h₂ => ?_
    rw [List.length_map, List.length_range] at h₁
    simp only [List.getElem_map, List.getElem_range, Function.comp_apply]
    exact h.bytes i h₁

/-- Every write from a block that is not mapped on writes nothing. -/
theorem view_writes_unmapped (hmax : off < 2 ^ 32) (hne : ∀ buf ∈ bufs, buf ≠ [])
    (h : dataVal m ino (off / blocksize) = 0) : view (writes ino bufs off) m = some (off, m) := by
  induction bufs with
  | nil => rfl
  | cons buf bufs ih =>
    obtain ⟨hbuf, hrest⟩ := List.forall_mem_cons.mp hne
    unfold writes
    rw [view_bind, view_write_unmapped hmax hbuf h, Option.bind_some]
    exact ih hrest

/-- Whether the later buffers start in a mapped block depends on the blocks beyond. -/
theorem startsMapped_congr (hmax : off + bufs.flatten.length < 2 ^ 32)
    (h : ∀ x, off ≤ x → x < 2 ^ 32 → x % blocksize = 0 →
      dataVal m' ino (x / blocksize) = dataVal m ino (x / blocksize)) :
    StartsMapped m' ino off bufs ↔ StartsMapped m ino off bufs := by
  induction bufs generalizing off with
  | nil => exact Iff.rfl
  | cons buf bufs ih =>
    rw [List.flatten_cons, List.length_append] at hmax
    have hrest := @ih (off + buf.length) (by omega) fun x hx => h x (by omega)
    unfold StartsMapped
    rw [hrest]
    refine and_congr_left fun _ => forall_congr' fun hmod => ?_
    rw [h off (Nat.le_refl _) (by omega) hmod]

/-- A write maps no block that starts at its end or beyond. -/
theorem Written.beyond {n : Nat} (h : Written ino (span off n) off buf m m') {x : Nat}
    (hx : off + n ≤ x) (hlt : x < 2 ^ 32) (hmod : x % blocksize = 0) :
    dataVal m' ino (x / blocksize) = dataVal m ino (x / blocksize) := by
  refine h.rest (.data (x / blocksize)) (div_lt_max hlt) fun hmem => ?_
  obtain ⟨y, -, hy, hpath⟩ := mem_span.mp hmem
  rcases mem_path.mp hpath with ⟨-, hs⟩ | ⟨-, hs⟩ | hs
  · cases hs
  · cases hs
  · have hdiv := Slot.data.inj hs
    unfold blocksize at *
    omega

/-- The block at the end of a file is mapped if the file ends in the middle of it. -/
theorem Mapped.last (hmap : Mapped m ino) (h : fileSize m ino % blocksize ≠ 0) :
    dataVal m ino (fileSize m ino / blocksize) ≠ 0 := by
  have hlast := hmap (fileSize m ino - 1) (Nat.sub_lt (by
    rw [Nat.pos_iff_ne_zero]
    rintro hz
    exact h (by rw [hz, Nat.zero_mod])) Nat.one_pos)
  rwa [show (fileSize m ino - 1) / blocksize = fileSize m ino / blocksize by
    unfold blocksize at *; omega] at hlast

/-- **Appends give the concatenation** if and only if each starts in a block that is
mapped. -/
theorem appendsAll_iff (hs : Sound m ino) (hmap : Mapped m ino) (hne : ∀ buf ∈ bufs, buf ≠ [])
    (hmax : fileSize m ino + bufs.flatten.length < 2 ^ 32)
    (hfree : EnoughFree m ino (fileSize m ino) bufs.flatten.length) :
    AppendsAll m ino bufs ↔ StartsMapped m ino (fileSize m ino) bufs := by
  induction bufs generalizing m with
  | nil => exact iff_of_true ⟨_, m, rfl, by simp⟩ trivial
  | cons buf bufs ih =>
    obtain ⟨hbuf, hrest⟩ := List.forall_mem_cons.mp hne
    rw [List.flatten_cons, List.length_append] at hmax hfree
    by_cases hstart : dataVal m ino (fileSize m ino / blocksize) = 0
    · -- nothing is written, now and later
      have hmod : fileSize m ino % blocksize = 0 := by
        by_contra hc
        exact hmap.last hc hstart
      have hview := view_writes_unmapped (fileSize_lt m ino) hne hstart
      refine iff_of_false ?_ fun hc => hc.1 hmod hstart
      rintro ⟨off, m', hview', hcontents⟩
      rw [hview] at hview'
      cases hview'
      have hlen := congrArg List.length hcontents
      have := List.length_pos_iff.mpr hbuf
      simp only [List.length_append, List.length_map, List.flatten_cons] at hlen
      omega
    · have hfree₁ : EnoughFree m ino (fileSize m ino) buf.length := by
        refine Nat.le_trans (Finset.card_le_card (absent_subset ?_)) hfree
        rw [span_add]
        exact Finset.subset_union_left
      obtain ⟨m₁, hview, hw⟩ := view_write hs hstart (Nat.le_refl _) (by omega) hfree₁
      have hsize : fileSize m₁ ino = fileSize m ino + buf.length := by
        rw [hw.size]
        omega
      have hfree₂ : EnoughFree m₁ ino (fileSize m₁ ino) bufs.flatten.length := by
        rw [hsize]
        refine hw.free (span_ok (by omega)) ?_
        rw [← span_add]
        exact hfree
      have hiff := ih hw.sound (hw.mapped hmap (Nat.le_refl _)) hrest (by omega) hfree₂
      rw [hsize, startsMapped_congr (by omega) fun x hx hlt hmod => hw.beyond hx hlt hmod] at hiff
      have happend : AppendsAll m ino (buf :: bufs) ↔ AppendsAll m₁ ino bufs := by
        unfold AppendsAll
        rw [writes, hsize, view_bind, hview, Option.bind_some, hw.contents hmap, List.flatten_cons,
          List.map_append, List.append_assoc]
      rw [happend, hiff]
      exact ⟨fun h => ⟨fun _ => hstart, h⟩, fun h => h.2⟩

end Appends

/-- **Writing a file is writing an array** exactly when the block a write starts in is
mapped.  As the file ends in a mapped block or at a multiple of the block size, what
fails are the writes from there on, and appends give the concatenation exactly when each
one that starts at a multiple of the block size finds a block there. -/
theorem write_array_iff (hs : Sound m ino) (hmap : Mapped m ino) :
    (∀ (off : Nat) (buf : List UInt8), off ≤ fileSize m ino → off + buf.length < 2 ^ 32 → buf ≠ [] →
      EnoughFree m ino off buf.length →
        (WritesArray m ino off buf ↔ dataVal m ino (off / blocksize) ≠ 0)) ∧
    ∀ bufs : List (List UInt8), (∀ buf ∈ bufs, buf ≠ []) →
      fileSize m ino + bufs.flatten.length < 2 ^ 32 →
      EnoughFree m ino (fileSize m ino) bufs.flatten.length →
        (AppendsAll m ino bufs ↔ StartsMapped m ino (fileSize m ino) bufs) := by
  refine ⟨fun off buf hoff hmax hne hfree => ⟨?_, fun hmapped => ?_⟩,
    fun bufs hne hmax hfree => appendsAll_iff hs hmap hne hmax hfree⟩
  · rintro ⟨m', hview, -⟩ hz
    rw [view_write_unmapped (by omega) hne hz] at hview
    have hlen := congrArg (fun r => r.map fun r => r.1.1) hview
    simp only [Option.map_some, Option.some.injEq] at hlen
    exact hne (List.length_eq_zero_iff.mp hlen.symm)
  · obtain ⟨m', hview, hw⟩ := view_write hs hmapped hoff hmax hfree
    refine ⟨m', hview, hw.size, hw.bytes, fun x hx hout => ?_⟩
    have := fileSize_lt m ino
    exact hw.others x (div_lt_max (by omega)) (hmap x hx) hout

/-! ## A file of one full block -/

/-- A file without pointer blocks has the pointers in its inode. -/
theorem val_direct {s : Slot} (hroot : rootVal m ino = 0)
    (hsingle : getLE m (indirectAddr ino) 4 = 0) (hs : s.Ok) :
    (∃ bi < ndirect, s = .data bi) ∨ ((∀ bi < ndirect, s ≠ .data bi) ∧ val m ino s = 0) := by
  have hind : ∀ c, indVal m ino c = 0 := by
    intro c
    unfold indVal
    rw [if_pos hroot]
    split
    · exact hsingle
    · rfl
  rcases hs.kinds with ⟨bi, hbi, rfl⟩ | ⟨bi, hbi, -, rfl⟩ | rfl | ⟨c, hc, -, rfl⟩ | rfl
  · exact .inl ⟨bi, hbi, rfl⟩
  · refine .inr ⟨?_, ?_⟩
    · rintro bi' hbi' h
      cases h
      exact absurd hbi (by omega)
    · change dataVal m ino bi = _
      rw [dataVal, if_neg (by omega), if_pos (hind _)]
  · exact .inr ⟨by rintro _ _ ⟨⟩, hind 1⟩
  · exact .inr ⟨by rintro _ _ ⟨⟩, hind c⟩
  · exact .inr ⟨by rintro _ _ ⟨⟩, hroot⟩

/-- A disk of 16 blocks, with the bitmap in block 1, the inodes in block 2, and a file
of 4096 bytes in block 3. -/
def oneBlock : Mem := image [(nblocksAddr, 4, 16), (fbbBnAddr, 4, 1), (4096, 2, 0xfff0),
  (sizeAddr 8256, 4, 4096), (directAddr 8256 0, 4, 3)]

theorem oneBlock_direct : ∀ bi < ndirect, dataVal oneBlock 8256 bi = if bi = 0 then 3 else 0 := by
  decide

/-- There is one data block. -/
theorem oneBlock_val {s : Slot} (hs : s.Ok) :
    val oneBlock 8256 s = if s = .data 0 then 3 else 0 := by
  rcases val_direct (show rootVal oneBlock 8256 = 0 by decide) (by decide) hs with ⟨bi, hbi, rfl⟩ |
    ⟨hne, hz⟩
  · change dataVal oneBlock 8256 bi = _
    rw [oneBlock_direct bi hbi]
    simp only [Slot.data.injEq]
  · rw [hz, if_neg (hne 0 (by decide))]

theorem oneBlock_free {b : Nat} (h : isFree oneBlock b = true) : 4 ≤ b := by
  by_contra hlt
  have : ∀ b < 4, isFree oneBlock b = false := by decide
  rw [this b (by omega)] at h
  cases h

theorem oneBlock_sound : Sound oneBlock 8256 := by
  have hthree : ∀ s : Slot, s.Ok → val oneBlock 8256 s ≠ 0 →
      s = .data 0 ∧ val oneBlock 8256 s = 3 := by
    intro s hs hne
    rw [oneBlock_val hs] at hne ⊢
    by_cases h : s = .data 0
    · exact ⟨h, if_pos h⟩
    · exact absurd (if_neg h) hne
  have hres : ∀ b, 3 ≤ b → ¬ Reserved oneBlock 8256 b := by
    intro b hb hr
    have h₁ : fbbBn oneBlock = 1 := by decide
    have h₂ : inoEntry 8256 = 2 := by decide
    unfold Reserved at hr
    omega
  refine ⟨by decide, by decide, by decide, by decide, ?_, ?_, ?_⟩
  · intro s t hs ht hne heq
    rw [(hthree s hs hne).1, (hthree t ht (heq ▸ hne)).1]
  · intro s hs hne
    rw [(hthree s hs hne).2]
    exact ⟨hres 3 (Nat.le_refl 3), by decide⟩
  · intro b hb
    exact hres b (Nat.le_of_lt (oneBlock_free hb))

theorem oneBlock_size : fileSize oneBlock 8256 = 4096 := by decide

theorem oneBlock_mapped : Mapped oneBlock 8256 := by
  intro x hx
  rw [oneBlock_size] at hx
  rw [show x / blocksize = 0 from Nat.div_eq_of_lt hx]
  decide

/-- There is a free block for one more byte. -/
theorem oneBlock_enough : EnoughFree oneBlock 8256 4096 1 := by
  have hpath : span 4096 1 = {.data 1} := by
    rw [span_block (by decide) (by decide)]
    decide
  have hfree : 0 < freeCount oneBlock := by
    unfold freeCount countBelow
    refine Finset.card_pos.mpr ⟨4, Finset.mem_filter.mpr ⟨?_, by decide⟩⟩
    exact Finset.mem_range.mpr (by decide)
  unfold EnoughFree
  rw [hpath]
  exact Nat.le_trans (Finset.card_filter_le _ _) hfree

/-- Rewriting a byte of the full block works, and appending one does not. -/
theorem write_array_iff_oneBlock : WritesArray oneBlock 8256 0 [65] ∧
    ¬ AppendsAll oneBlock 8256 [[65]] := by
  obtain ⟨hwrite, happend⟩ := write_array_iff oneBlock_sound oneBlock_mapped
  have hspan : EnoughFree oneBlock 8256 0 1 := by
    unfold EnoughFree
    rw [span_block (by decide) (by decide), absent_eq_empty (path_full (by decide))]
    exact Nat.zero_le _
  refine ⟨(hwrite 0 [65] (Nat.zero_le _) (by decide) (by decide) hspan).mpr (by decide),
    fun h => ?_⟩
  rw [happend [[65]] (by decide) (by decide) (oneBlock_size ▸ oneBlock_enough)] at h
  exact h.1 (by decide) (by decide)

/-- A write at the end of the full block returns zero. -/
theorem full_block_append_fails : ¬ ∀ (m : Mem) (ino off : Nat) (buf : List UInt8), Sound m ino →
    Mapped m ino → off ≤ fileSize m ino → off + buf.length < 2 ^ 32 → buf ≠ [] →
    EnoughFree m ino off buf.length → WritesArray m ino off buf := by
  intro h
  obtain ⟨m', hview, -⟩ := h oneBlock 8256 4096 [65] oneBlock_sound oneBlock_mapped
    (by rw [oneBlock_size]) (by decide) (by decide) oneBlock_enough
  rw [view_write_unmapped (by decide) (by decide) (by decide)] at hview
  cases hview

end PugOS.ChkFS
