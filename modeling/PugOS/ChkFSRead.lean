import PugOS.ChkFSCalls
import PugOS.ChkFSWrite

/-! # Reading a file

A file is read in two ways: `vnode_inode::read` walks from the inode to the data block for every
round (`get_data_block`), `chickadeefs_read_file_data` keeps an iterator, which keeps the pointer
blocks it has come through.  The iterator finds what the walk finds, wherever it has been before
(`find_history`), so the two loops differ only in how they clip against the file size.  They agree
up to the end of the file; past it `vnode_inode::read` subtracts below zero (`reads_agree_iff`).
-/
namespace PugOS.ChkFS
open Bytes BlockProg FileIter Ring
open Journal (blocksize)

variable {m : Mem} {ino off : Nat}

/-! ## The iterator and the walk -/

/-- Calls of `find`, one after another. -/
def FileIter.finds (it : FileIter) : List Nat → Prog FileIter
  | [] => return it
  | off :: l => do
    let it ← it.find off
    it.finds l

/-- `get_data_block`'s walk to the number of block `bi`, by the indices of `chickadeefs.hh`. -/
def walk (m : Mem) (ino bi : Nat) : Nat :=
  if bi < ndirect then getLE m (directAddr ino (biDirectIndex bi)) 4
  else
    let ibn := if bi < ndirect + nindirect then getLE m (indirectAddr ino) 4
      else if rootVal m ino = 0 then 0
        else getLE m (entryAddr (rootVal m ino) (biIndirectIndex bi)) 4
    if ibn = 0 then 0 else getLE m (entryAddr ibn (biDirectIndex bi)) 4

theorem walk_eq (m : Mem) (ino bi : Nat) : walk m ino bi = dataVal m ino bi := by
  unfold walk dataVal
  by_cases hd : bi < ndirect
  · rw [if_pos hd, if_pos hd, biDirectIndex, if_pos hd]
  · rw [if_neg hd, if_neg hd]
    unfold indVal
    by_cases hs : bi < ndirect + nindirect
    · rw [if_pos hs, iclass_single (by omega) hs, if_pos (Nat.le_refl 1)]
    · have hclass : iclass bi = biIndirectIndex bi + 2 := iclass_double (Nat.not_lt.mp hs)
      have hne : ¬ biIndirectIndex bi + 2 ≤ 1 := by omega
      rw [if_neg hs, hclass, if_neg hne, Nat.add_sub_cancel]

theorem lt_max_of_lt_maxsize (h : off < maxsize) : off / blocksize < maxsize / blocksize := by
  unfold maxsize ndirect nindirect blocksize at *
  omega

/-- **The block number at an iterator's offset.** -/
theorem view_find_blocknum {it : FileIter} (h : it.Inv m)
    (hmax : off / blocksize < maxsize / blocksize) : ∃ it', view (it.find off) m = some (it', m) ∧
    it'.At m it.ino off ∧
      view it'.blocknum m = some (dataVal m it.ino (off / blocksize), m) := by
  obtain ⟨it', hfind, hat, hdptr⟩ := view_find_dptr h hmax
  refine ⟨it', hfind, hat, ?_⟩
  unfold FileIter.blocknum dataVal
  rw [hdptr]
  by_cases hd : off / blocksize < ndirect
  · rw [if_neg (by omega), if_pos hd, FileIter.getDptr, if_neg (by omega), hat.inode]
    rfl
  · have hind := hat.indirect (by omega)
    change it'.indirect = entryOf (indVal m it.ino (iclass (off / blocksize))) at hind
    rw [if_neg hd]
    by_cases hz : indVal m it.ino (iclass (off / blocksize)) = 0
    · rw [hz, entryOf_zero] at hind
      rw [if_pos ⟨by omega, hind⟩, if_pos hz]
      rfl
    · rw [entryOf_some hz] at hind
      rw [if_neg (by rw [hind]; exact fun hc => Option.some_ne_none _ hc.2), if_neg hz,
        FileIter.getDptr, if_pos (by omega), hind]
      rfl

theorem view_finds (m : Mem) : ∀ (offs : List Nat) {it : FileIter}, it.Inv m →
    (∀ o ∈ offs, o < maxsize) → ∃ it', view (it.finds offs) m = some (it', m) ∧ it'.Inv m ∧
    it'.ino = it.ino := by
  intro offs
  induction offs with
  | nil => exact fun h _ => ⟨_, rfl, h, rfl⟩
  | cons o l ih =>
    intro it h hoffs
    obtain ⟨it₁, hfind, hat⟩ := view_find h (lt_max_of_lt_maxsize (hoffs o List.mem_cons_self))
    obtain ⟨it₂, hrest, hinv, hino⟩ :=
      ih hat.inv fun o' ho' => hoffs o' (List.mem_cons_of_mem o ho')
    refine ⟨it₂, ?_, hinv, hino.trans hat.inode⟩
    unfold FileIter.finds
    rw [view_bind, hfind, Option.bind_some]
    exact hrest

/-- **The iterator agrees with the direct mapping whatever its history.**  After any calls of
`find` with offsets below the maximum file size, `find(off)` leaves the iterator at the block
number that the walk of `get_data_block` reaches for `off`: 0 if a pointer on the way is 0. -/
theorem find_history (m : Mem) (ino : Nat) {offs : List Nat} {off : Nat}
    (hoffs : ∀ o ∈ offs, o < maxsize) (hoff : off < maxsize) :
    ∃ it it', view ((FileIter.mk' ino).finds offs) m = some (it, m) ∧
      view (it.find off) m = some (it', m) ∧
      view it'.blocknum m = some (walk m ino (off / blocksize), m) ∧
      view (getDataBlock ino (off / blocksize * blocksize)) m =
      some (entryOf (walk m ino (off / blocksize)), m) := by
  obtain ⟨it, hfinds, hinv, hino⟩ := view_finds m offs (FileIter.Inv.start m ino) hoffs
  have hmax := lt_max_of_lt_maxsize hoff
  obtain ⟨it', hfind, -, hbn⟩ := view_find_blocknum hinv hmax
  have hino : it.ino = ino := hino
  refine ⟨it, it', hfinds, hfind, ?_, ?_⟩
  · rw [hbn, hino, walk_eq]
  · have hbs : off / blocksize * blocksize / blocksize = off / blocksize :=
      Nat.mul_div_cancel _ (by decide)
    have hget :=
      view_getDataBlock m ino (Nat.mul_mod_left (off / blocksize) blocksize)
        (by rw [hbs]; exact hmax)
    rw [hget, hbs, walk_eq]

/-- A file with one data block, number 2197, whose inode is in block 4. -/
def holeFile : Mem :=
  image [(indirect2Addr 0x4040, 4, 9), (entryAddr 9 1, 4, 10), (entryAddr 10 140, 4, 77)]

/-- From a doubly indirect block to a direct one, to the last block a file can have, and to another
indirect class. -/
theorem find_history_jumps : ∃ it it',
    view ((FileIter.mk' 0x4040).finds [5000000, 100, 4299198463]) holeFile = some (it, holeFile) ∧
      view (it.find 9000000) holeFile = some (it', holeFile) ∧
      view it'.blocknum holeFile = some (77, holeFile) := by
  have hoffs : ∀ o ∈ [5000000, 100, 4299198463], o < maxsize := by decide
  have hoff : 9000000 < maxsize := by decide
  obtain ⟨it, it', hfinds, hfind, hbn, -⟩ := find_history holeFile 0x4040 hoffs hoff
  have hwalk : walk holeFile 0x4040 (9000000 / blocksize) = 77 := by decide +kernel
  rw [hwalk] at hbn
  exact ⟨it, it', hfinds, hfind, hbn⟩

/-! ## The two loops -/

/-- `n` bytes of the file from `off` on, each if its block is mapped. -/
def fileSlice (m : Mem) (ino off n : Nat) : List (Option UInt8) :=
  (List.range n).map fun i => fileByte m ino (off + i)

section Loops
variable {n k sz fuel : Nat}

theorem fileSlice_add (m : Mem) (ino off n k : Nat) :
    fileSlice m ino off (n + k) = fileSlice m ino off n ++ fileSlice m ino (off + n) k := by
  unfold fileSlice
  rw [List.range_add, List.map_append, List.map_map]
  refine congrArg _ (List.map_congr_left fun i _ => ?_)
  rw [Function.comp_apply, Nat.add_assoc]

/-- The part of the contents that a read is for. -/
theorem contents_slice (m : Mem) (ino off sz : Nat) :
    ((contents m ino).drop off).take sz = fileSlice m ino off (min sz (fileSize m ino - off)) := by
  refine List.ext_getElem ?_ fun i h₁ h₂ => ?_
  · simp [contents, fileSlice]
  · simp [contents, fileSlice]

theorem view_peekBytes (m : Mem) : ∀ n a, view (peekBytes a n) m = some (slice m a n, m) := by
  intro n
  induction n with
  | zero => exact fun a => rfl
  | succ n ih =>
    intro a
    unfold peekBytes
    rw [view_bind, view_peek, Option.bind_some, view_bind, ih]
    refine congrArg some (Prod.ext ?_ rfl)
    unfold slice
    rw [List.range_succ_eq_map, List.map_cons, List.map_map]
    refine congrArg₂ List.cons ?_ (List.map_congr_left fun i _ => ?_)
    · simp [getLE]
    · rw [Function.comp_apply, Nat.succ_eq_add_one, Nat.add_right_comm, Nat.add_assoc]

/-- Bytes of one block. -/
theorem slice_block (hmapped : dataVal m ino (off / blocksize) ≠ 0)
    (hn : off % blocksize + n ≤ blocksize) :
    (slice m (dataVal m ino (off / blocksize) * blocksize + off % blocksize) n).map some =
      fileSlice m ino off n := by
  unfold slice fileSlice
  rw [List.map_map]
  refine List.map_congr_left fun i hi => ?_
  have hi := List.mem_range.mp hi
  have hdiv : (off + i) / blocksize = off / blocksize := by
    unfold blocksize at *
    omega
  have hmod : (off + i) % blocksize = off % blocksize + i := by
    unfold blocksize at *
    omega
  rw [Function.comp_apply, fileByte_eq (by rwa [hdiv]), hdiv, hmod, Nat.add_assoc]

/-- What a loop returns has the bytes of the file from `off` on, up to its end. -/
def Reads (m : Mem) (ino off sz : Nat) (bytes : List UInt8) : Prop :=
  bytes.map some = fileSlice m ino off (min sz (fileSize m ino - off))

theorem Reads.nil (h : sz = 0 ∨ fileSize m ino ≤ off) : Reads m ino off sz [] := by
  have hz : min sz (fileSize m ino - off) = 0 := by omega
  unfold Reads
  rw [hz]
  rfl

/-- The bytes of a round and of the rounds after it. -/
theorem Reads.append {bytes : List UInt8} (hmapped : dataVal m ino (off / blocksize) ≠ 0)
    (hblock : off % blocksize + n ≤ blocksize) (hsz : n ≤ sz) (hsize : off + n ≤ fileSize m ino)
    (h : Reads m ino (off + n) (sz - n) bytes) :
    Reads m ino off sz
      (slice m (dataVal m ino (off / blocksize) * blocksize + off % blocksize) n ++ bytes) := by
  have hsum : min sz (fileSize m ino - off) = n + min (sz - n) (fileSize m ino - (off + n)) := by
    omega
  unfold Reads at *
  rw [List.map_append, slice_block hmapped hblock, h, hsum, fileSlice_add]

theorem div_mul_div (off : Nat) : off / blocksize * blocksize / blocksize = off / blocksize :=
  Nat.mul_div_cancel _ (by decide)

theorem sub_block (off : Nat) : off - off / blocksize * blocksize = off % blocksize := by
  have := Nat.div_add_mod' off blocksize
  omega

/-- How many bytes `vnode_inode::read` copies in a round. -/
theorem read_round (hoff : off ≤ fileSize m ino) (hsum : off + sz < 2 ^ 64) :
    min (if (off + sz) % 2 ^ 64 > off / blocksize * blocksize + blocksize then blocksize - off %
        blocksize else sz) ((fileSize m ino + 2 ^ 64 - off) % 2 ^ 64) =
      min (min sz (blocksize - off % blocksize)) (fileSize m ino - off) := by
  have hsize := fileSize_lt m ino
  have hmod := Nat.div_add_mod' off blocksize
  have hlt : off % blocksize < blocksize := Nat.mod_lt _ (by decide)
  rw [Nat.mod_eq_of_lt hsum]
  have hwrap : (fileSize m ino + 2 ^ 64 - off) % 2 ^ 64 = fileSize m ino - off := by omega
  rw [hwrap]
  split <;> omega

/-- **`vnode_inode::read` up to the end of the file.** -/
theorem view_readLoop (hmapped : Mapped m ino) : ∀ {fuel sz off : Nat}, sz ≤ fuel →
    off ≤ fileSize m ino → off + sz < 2 ^ 64 →
    ∃ bytes o, view (readLoop ino fuel sz off) m = some ((bytes, o), m) ∧
      Reads m ino off sz bytes := by
  intro fuel
  induction fuel with
  | zero => exact fun hsz _ _ => ⟨[], _, rfl, .nil (.inl (Nat.le_zero.mp hsz))⟩
  | succ fuel ih =>
    intro sz off hsz hoff hsum
    unfold readLoop
    by_cases hz : sz = 0
    · rw [if_pos hz]
      exact ⟨[], off, rfl, .nil (.inl hz)⟩
    · have hsize := fileSize_lt m ino
      have hget := view_getDataBlock m ino (Nat.mul_mod_left (off / blocksize) blocksize)
        (by rw [div_mul_div]; exact div_lt_max (Nat.lt_of_le_of_lt hoff hsize))
      rw [div_mul_div] at hget
      rw [if_neg hz, view_bind, hget, Option.bind_some]
      by_cases hblock : dataVal m ino (off / blocksize) = 0
      · -- only past the last block of the file
        have hend : fileSize m ino ≤ off := by
          by_contra hlt
          exact hmapped off (Nat.not_le.mp hlt) hblock
        rw [hblock]
        exact ⟨[], off, rfl, .nil (.inr hend)⟩
      · rw [entryOf_some hblock]
        have hpeek : getLE m (sizeAddr ino) 4 = fileSize m ino := rfl
        simp only [view_bind, view_peek, Option.bind_some, view_peekBytes, view_putEntry, hpeek,
          read_round hoff hsum, sub_block]
        have hlt : off % blocksize < blocksize := Nat.mod_lt _ (by decide)
        generalize hn : min (min sz (blocksize - off % blocksize)) (fileSize m ino - off) = n
        by_cases hnz : n = 0
        · rw [if_pos hnz]
          exact ⟨[], off, rfl, .nil (.inr (by omega))⟩
        · rw [if_neg hnz]
          obtain ⟨bytes, o, hrest, hreads⟩ := ih (show sz - n ≤ fuel by omega)
            (show off + n ≤ fileSize m ino by omega) (by omega)
          rw [view_bind, hrest, Option.bind_some]
          exact ⟨_, o, rfl, hreads.append hblock (by omega) (by omega) (by omega)⟩

/-- How many bytes `chickadeefs_read_file_data` copies in a round. -/
theorem copyBytes_eq (hoff : off ≤ fileSize m ino) : copyBytes (fileSize m ino) sz off =
    min (min sz (blocksize - off % blocksize)) (fileSize m ino - off) := by
  have hsize := fileSize_lt m ino
  have hmod := Nat.div_add_mod' off blocksize
  have hlt : off % blocksize < blocksize := Nat.mod_lt _ (by decide)
  have hwrap : (fileSize m ino + 2 ^ 64 - off / blocksize * blocksize) % 2 ^ 64 =
      fileSize m ino - off / blocksize * blocksize := by omega
  unfold copyBytes blockBytes
  rw [hwrap]
  dsimp only
  split <;> omega

/-- `find(off).present()` and the block. -/
theorem view_findEntry {it : FileIter} (h : it.Inv m)
    (hmax : off / blocksize < maxsize / blocksize) :
    ∃ it', view (it.findEntry off) m = some ((it', entryOf (dataVal m it.ino (off / blocksize))),
    m) ∧
      it'.Inv m ∧ it'.ino = it.ino := by
  obtain ⟨it', hfind, hat, hbn⟩ := view_find_blocknum h hmax
  refine ⟨it', ?_, hat.inv, hat.inode⟩
  unfold FileIter.findEntry
  rw [view_bind, hfind, Option.bind_some, view_bind, hbn, Option.bind_some]
  by_cases hz : dataVal m it.ino (off / blocksize) = 0
  · rw [if_neg (not_not.mpr hz), hz]
    rfl
  · rw [if_pos hz, entryOf_some hz]
    rfl

/-- **`chickadeefs_read_file_data` up to the end of the file.** -/
theorem view_readFileLoop (hmapped : Mapped m ino) :
    ∀ {fuel sz off : Nat} {it : FileIter}, it.Inv m → it.ino = ino → sz ≤ fuel →
    off ≤ fileSize m ino → ∃ it' bytes,
      view (readFileLoop ino fuel it sz off) m = some ((it', bytes), m) ∧
      Reads m ino off sz bytes := by
  intro fuel
  induction fuel with
  | zero => exact fun _ _ hsz _ => ⟨_, [], rfl, .nil (.inl (Nat.le_zero.mp hsz))⟩
  | succ fuel ih =>
    intro sz off it hit hino hsz hoff
    unfold readFileLoop
    by_cases hz : sz = 0
    · rw [if_pos hz]
      exact ⟨it, [], rfl, .nil (.inl hz)⟩
    · have hsize := fileSize_lt m ino
      have hmax := div_lt_max (Nat.lt_of_le_of_lt hoff hsize)
      obtain ⟨it₁, hfind, hinv, hino₁⟩ := view_findEntry hit hmax
      rw [hino] at hfind hino₁
      rw [if_neg hz, view_bind, hfind, Option.bind_some]
      by_cases hblock : dataVal m ino (off / blocksize) = 0
      · have hend : fileSize m ino ≤ off := by
          by_contra hlt
          exact hmapped off (Nat.not_le.mp hlt) hblock
        rw [hblock]
        exact ⟨it₁, [], rfl, .nil (.inr hend)⟩
      · rw [entryOf_some hblock]
        have hpeek : getLE m (sizeAddr ino) 4 = fileSize m ino := rfl
        rw [view_bind, view_peek, Option.bind_some]
        dsimp only
        rw [hpeek, copyBytes_eq hoff]
        simp only [view_bind, Option.bind_some, view_peekBytes, view_putEntry]
        have hlt : off % blocksize < blocksize := Nat.mod_lt _ (by decide)
        generalize hn : min (min sz (blocksize - off % blocksize)) (fileSize m ino - off) = n
        by_cases hnz : n = 0
        · rw [if_pos hnz]
          exact ⟨it₁, [], rfl, .nil (.inr (by omega))⟩
        · rw [if_neg hnz]
          obtain ⟨it₂, bytes, hrest, hreads⟩ :=
            ih hinv hino₁ (show sz - n ≤ fuel by omega) (show off + n ≤ fileSize m ino by omega)
          rw [view_bind, hrest, Option.bind_some]
          exact ⟨it₂, _, rfl, hreads.append hblock (by omega) (by omega) (by omega)⟩

/-! ## Where they agree -/

/-- Both loops return the bytes from `off` on, up to the end of the file, and nothing past it. -/
def ReadsAgree (m : Mem) (ino off sz : Nat) : Prop :=
  ∃ bytes o, view (read ino sz off) m = some ((bytes, o), m) ∧
    view (readFileData ino sz off) m = some (bytes, m) ∧
    bytes.map some = ((contents m ino).drop off).take sz

theorem ReadsAgree.of_loops {bytes : List UInt8} {o : Nat} {it : FileIter}
    (hread : view (readLoop ino sz sz off) m = some ((bytes, o), m))
    (hfile : view (readFileLoop ino sz (FileIter.mk' ino) sz off) m = some ((it, bytes), m))
    (hreads : Reads m ino off sz bytes) : ReadsAgree m ino off sz := by
  refine ⟨bytes, o, hread, ?_, ?_⟩
  · unfold readFileData
    rw [view_bind, hfile, Option.bind_some, view_bind, view_release]
    rfl
  · rw [contents_slice]
    exact hreads

/-- Past the end of the file `vnode_inode::read` returns what is left in a mapped block. -/
theorem view_read_past (hoff : fileSize m ino < off) (hmax : off < maxsize) (hsz : sz ≠ 0)
    (hsum : off + sz < 2 ^ 64) (hblock : dataVal m ino (off / blocksize) ≠ 0) {bytes : List UInt8}
    {o : Nat} {m' : Mem} (h : view (read ino sz off) m = some ((bytes, o), m')) : bytes ≠ [] := by
  obtain ⟨fuel, rfl⟩ := Nat.exists_eq_succ_of_ne_zero hsz
  have hget := view_getDataBlock m ino (Nat.mul_mod_left (off / blocksize) blocksize)
    (by rw [div_mul_div]; exact lt_max_of_lt_maxsize hmax)
  rw [div_mul_div, entryOf_some hblock] at hget
  have hpeek : getLE m (sizeAddr ino) 4 = fileSize m ino := rfl
  unfold read readLoop at h
  rw [if_neg hsz, view_bind, hget, Option.bind_some] at h
  simp only [view_bind, view_peek, Option.bind_some, view_peekBytes, view_putEntry, hpeek] at h
  -- the subtraction wraps around, so it does not bound the number of bytes
  have hsize := fileSize_lt m ino
  have hlt : off % blocksize < blocksize := Nat.mod_lt _ (by decide)
  have hpos : 0 < min (if (off + fuel.succ) % 2 ^ 64 > off / blocksize * blocksize + blocksize
      then blocksize - off % blocksize else fuel.succ)
      ((fileSize m ino + 2 ^ 64 - off) % 2 ^ 64) := by
    have hmax' : maxsize < 2 ^ 63 := by decide
    split <;> omega
  generalize (min _ _ : Nat) = n at h hpos
  rw [if_neg (Nat.ne_of_gt hpos), view_bind] at h
  obtain ⟨⟨⟨rest, o'⟩, m₁⟩, -, h⟩ := Option.bind_eq_some_iff.mp h
  cases h
  intro hnil
  have hlen := congrArg List.length hnil
  rw [List.length_append, slice, List.length_map, List.length_range, List.length_nil] at hlen
  omega

/-- **The two read paths agree, exactly unless** something is read past the end of the file in a
block that is mapped there. -/
theorem reads_agree_iff (hmapped : Mapped m ino) (hmax : off < maxsize) (hsum : off + sz < 2 ^ 64) :
    ReadsAgree m ino off sz ↔ off ≤ fileSize m ino ∨ sz = 0 ∨
      dataVal m ino (off / blocksize) = 0 := by
  constructor
  · rintro ⟨bytes, o, hread, -, hbytes⟩
    refine or_iff_not_imp_left.mpr fun hoff => or_iff_not_imp_left.mpr fun hsz => ?_
    by_contra hblock
    refine view_read_past (Nat.not_le.mp hoff) hmax hsz hsum hblock hread
      (List.map_eq_nil_iff.mp (hbytes.trans ?_))
    rw [contents_slice, Nat.sub_eq_zero_of_le (by omega), Nat.min_zero]
    rfl
  · intro h
    by_cases hoff : off ≤ fileSize m ino
    · obtain ⟨bytes, o, hread, hreads⟩ := view_readLoop hmapped (Nat.le_refl sz) hoff hsum
      obtain ⟨it, bytes', hfile, hreads'⟩ :=
        view_readFileLoop hmapped (FileIter.Inv.start m ino) rfl (Nat.le_refl sz) hoff
      obtain rfl : bytes' = bytes := by
        refine List.map_injective_iff.mpr (Option.some_injective _) ?_
        exact hreads'.trans hreads.symm
      exact .of_loops hread hfile hreads
    · by_cases hsz : sz = 0
      · subst hsz
        exact .of_loops rfl rfl (.nil (.inl rfl))
      · have hblock := (h.resolve_left hoff).resolve_left hsz
        obtain ⟨fuel, rfl⟩ := Nat.exists_eq_succ_of_ne_zero hsz
        have hget := view_getDataBlock m ino (Nat.mul_mod_left (off / blocksize) blocksize)
          (by rw [div_mul_div]; exact lt_max_of_lt_maxsize hmax)
        obtain ⟨it, hfind, -⟩ :=
          view_findEntry (FileIter.Inv.start m ino) (lt_max_of_lt_maxsize hmax)
        have hino : (FileIter.mk' ino).ino = ino := rfl
        rw [div_mul_div, hblock, entryOf_zero] at hget
        rw [hino, hblock, entryOf_zero] at hfind
        refine @ReadsAgree.of_loops m ino off _ [] off it ?_ ?_ (.nil (.inr (by omega)))
        · unfold readLoop
          rw [if_neg hsz, view_bind, hget]
          rfl
        · unfold readFileLoop
          rw [if_neg hsz, view_bind, hfind]
          rfl

/-- A file of 100 bytes, whose inode is in block 4 and whose data are in block 7. -/
def shortFile : Mem := image [(sizeAddr 0x4040, 4, 100), (directAddr 0x4040 0, 4, 7)]

theorem shortFile_size : fileSize shortFile 0x4040 = 100 := by decide +kernel

theorem shortFile_data : dataVal shortFile 0x4040 0 = 7 := by decide +kernel

theorem shortFile_mapped : Mapped shortFile 0x4040 := by
  intro x hx
  rw [shortFile_size] at hx
  have hzero : x / blocksize = 0 := Nat.div_eq_of_lt (by unfold blocksize; omega)
  rw [hzero, shortFile_data]
  decide

/-- A read from the middle to past the end. -/
theorem reads_agree_short : ReadsAgree shortFile 0x4040 50 1000 := by
  refine (reads_agree_iff shortFile_mapped (by decide) (by decide)).mpr (.inl ?_)
  rw [shortFile_size]
  decide

/-- A read from offset 200 on, where the first block goes on after the end of the file. -/
theorem reads_disagree_past : Mapped shortFile 0x4040 ∧ ¬ ReadsAgree shortFile 0x4040 200 1 := by
  refine ⟨shortFile_mapped, ?_⟩
  rintro ⟨bytes, o, hread, -, hbytes⟩
  have hpast : fileSize shortFile 0x4040 < 200 := by
    rw [shortFile_size]
    decide
  have hblock : dataVal shortFile 0x4040 (200 / blocksize) ≠ 0 := by
    rw [Nat.div_eq_of_lt (by decide), shortFile_data]
    decide
  refine view_read_past hpast (by decide) Nat.one_ne_zero (by decide) hblock hread
    (List.map_eq_nil_iff.mp (hbytes.trans ?_))
  rw [contents_slice, shortFile_size]
  rfl

end Loops
end PugOS.ChkFS
