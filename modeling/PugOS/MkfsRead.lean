import PugOS.MkfsShuffle
import PugOS.Directory

/-! # Reading an image back

The image that `mkchickadeefs` writes, through the kernel's own code: `lookup_inode` in the root
directory finds the inode of every file and of nothing else, and `chickadeefs_read_file_data`
returns what the file had (`mkfs_read_back`).  This holds of the image as it has been built and of
the one that has been shuffled, since in both the inodes hold the same data (`Holds`, `OnDisk`).
-/
namespace PugOS.Mkfs
open Bytes Ring ChkFS BlockProg
open Journal (blocksize)
open BlockAlloc (Options Superblock)

variable {sb : Superblock} {im im' : Image} {m : Mem} {p root : Placed} {placed : List Placed}
  {files : List InputFile} {data name : List UInt8} {π : Nat → Nat} {firstData : Bool}
  {a k x n ino off sz : Nat}

/-! ## The superblock -/

/-- Fields that are apart are all read back. -/
theorem getLE_putFields {f : Nat × Nat × Nat} : ∀ {fields : List (Nat × Nat × Nat)} {m : Mem},
    fields.Pairwise (fun f g => f.1 + f.2.1 ≤ g.1 ∨ g.1 + g.2.1 ≤ f.1) → f ∈ fields →
    f.2.2 < 256 ^ f.2.1 →
    getLE (fields.foldl (fun m f => putLE m f.1 f.2.1 f.2.2) m) f.1 f.2.1 = f.2.2 := by
  intro fields
  induction fields with
  | nil => exact fun _ hf => absurd hf List.not_mem_nil
  | cons g fields ih =>
    intro m hapart hf hv
    obtain ⟨hg, hrest⟩ := List.pairwise_cons.mp hapart
    rcases List.mem_cons.mp hf with rfl | hf
    · rw [List.foldl_cons, getLE_congr fun x h₁ h₂ => putFields_frame fun g' hg' => ?_]
      · exact getLE_putLE m f.1 hv
      · have := hg g' hg'
        omega
    · exact ih hrest hf hv

theorem superblockFields_apart (sb : Superblock) :
    (superblockFields sb).Pairwise fun f g => f.1 + f.2.1 ≤ g.1 ∨ g.1 + g.2.1 ≤ f.1 := by
  unfold superblockFields
  simp

/-- **The kernel finds the inodes** where the builder has put them. -/
theorem inodes_found {boot : Option (List UInt8)} (g : Geometry sb) (hmarked : Marked sb boot im)
    (hfree : im.freeb ≤ sb.nblocks) (hfirst : ∀ a < blocksize, m a = im.mem a) :
    ninodes m = sb.ninodes ∧
      ∀ i < sb.ninodes, ChkFS.inodeAddr m i = inodeAt sb i := by
  obtain ⟨mb, m', -, hmem, hlow, -⟩ := hmarked
  have hfbb := g.fbb
  have hlt := g.lt
  have hjournal := g.journal
  have hle := g.le
  have hdata := g.data
  have hfield : ∀ f ∈ superblockFields sb, f.2.2 < 256 ^ f.2.1 → getLE m f.1 f.2.1 = f.2.2 := by
    intro f hf hv
    rw [← getLE_putFields (superblockFields_apart sb) hf hv (m := mb)]
    refine getLE_congr fun x _ hx => ?_
    have hblock := superblockFields_lt sb f hf
    have hlow' : blocksize ≤ sb.fbbBn * blocksize := Nat.le_mul_of_pos_left _ (by omega)
    rw [hfirst x (by omega), hmem, markFreeBlocks_frame hfree hle (.inl (by omega)),
      hlow x (by omega)]
    rfl
  have hbn : sb.inodeBn ≤ sb.dataBn :=
    Nat.le_of_mul_le_mul_right (Nat.le_of_add_right_le hdata) (by decide : 0 < blocksize)
  have hinode : getLE m (512 + 32) 4 = sb.inodeBn :=
    hfield (512 + 32, 4, sb.inodeBn) (by simp [superblockFields]) (by dsimp only; omega)
  have hcount : getLE m (512 + 16) 4 = sb.ninodes :=
    hfield (512 + 16, 4, sb.ninodes) (by simp [superblockFields])
      (by have := g.ninodes; dsimp only; omega)
  refine ⟨?_, fun i hi => ?_⟩
  · unfold ninodes ninodesAddr toInum
    rw [hcount, if_pos g.ninodes]
  · have hin := (g.inode_lt hi).2
    unfold ChkFS.inodeAddr ChkFS.inodeBn inodeBnAddr inodeBlock inodeAt inodesperblock
    rw [hinode]
    unfold inodesize blocksize at *
    omega

/-! ## What an inode holds -/

/-- The inode at `ino` has the data, in blocks that are mapped as far as the data go. -/
structure Holds (m : Mem) (ino : Nat) (data : List UInt8) : Prop where
  size : fileSize m ino = data.length
  mapped : ∀ bi, dataVal m ino bi ≠ 0 ↔ bi * blocksize < data.length
  bytes : ∀ x (h : x < data.length),
    m (dataVal m ino (x / blocksize) * blocksize + x % blocksize) = data[x]

/-- What is read within a block. -/
theorem Holds.within (h : Holds m ino data) (hx : x + n ≤ data.length)
    (hin : x % blocksize + n ≤ blocksize) :
    slice m (dataVal m ino (x / blocksize) * blocksize + x % blocksize) n =
    (data.drop x).take n := by
  refine List.ext_getElem ?_ fun i h₁ h₂ => ?_
  · rw [slice_length, List.length_take, List.length_drop]
    omega
  · rw [slice_length] at h₁
    have hdiv : (x + i) / blocksize = x / blocksize := by
      unfold blocksize at *
      omega
    have hmod : (x + i) % blocksize = x % blocksize + i := by
      unfold blocksize at *
      omega
    have hbyte := h.bytes (x + i) (by omega)
    rw [hdiv, hmod, ← Nat.add_assoc] at hbyte
    rw [List.getElem_take, List.getElem_drop, ← hbyte]
    simp [slice]

/-- The contents of an inode are its data. -/
theorem Holds.contents (h : Holds m ino data) : Mapped m ino ∧ contents m ino = data.map some := by
  have hmapped : ∀ x < data.length, dataVal m ino (x / blocksize) ≠ 0 :=
    fun x hx => (h.mapped _).mpr (Nat.lt_of_le_of_lt (Nat.div_mul_le_self x blocksize) hx)
  refine ⟨fun x hx => hmapped x (by rwa [← h.size]), List.ext_getElem ?_ fun x h₁ h₂ => ?_⟩
  · rw [ChkFS.contents, List.length_map, List.length_map, List.length_range, h.size]
  · have hx : x < data.length := by rwa [List.length_map] at h₂
    simp only [ChkFS.contents, List.getElem_map, List.getElem_range]
    rw [fileByte_eq (hmapped x hx), h.bytes x hx]

/-- **The kernel reads the data**, at every offset and length. -/
theorem Holds.view_readFileData (h : Holds m ino data) (hoff : off ≤ data.length) :
    view (readFileData ino sz off) m = some ((data.drop off).take sz, m) := by
  obtain ⟨hmapped, hcontents⟩ := h.contents
  obtain ⟨it, read, hrun, hreads⟩ := view_readFileLoop hmapped (FileIter.Inv.start m ino) rfl
    (Nat.le_refl sz) (show off ≤ fileSize m ino by rwa [h.size])
  have hread : read.map some = ((data.drop off).take sz).map some := by
    rw [List.map_take, List.map_drop, ← hcontents, contents_slice]
    exact hreads
  unfold readFileData
  rw [view_bind, hrun, Option.bind_some, view_bind, view_release,
    List.map_injective_iff.mpr (Option.some_injective _) hread]
  rfl

/-- A file of whole blocks has a hole before the largest size. -/
theorem Holds.ends (h : Holds m ino data) (hmod : data.length % blocksize = 0) :
    ∃ bi < maxsize / blocksize, dataVal m ino bi = 0 := by
  refine ⟨data.length / blocksize, div_lt_max ?_, not_not.mp fun hne => ?_⟩
  · rw [← h.size]
    exact fileSize_lt _ _
  · have := (h.mapped _).mp hne
    rw [Nat.div_mul_cancel (Nat.dvd_of_mod_eq_zero hmod)] at this
    exact Nat.lt_irrefl _ this

/-! ## Directories -/

/-- Where entry `k` is. -/
def entryAt (m : Mem) (dir k : Nat) : Nat := direntAddr m dir (k / 32) (k % 32)

/-- **The kernel goes through all entries** of a directory of whole blocks. -/
theorem Holds.mem_dirEntries (h : Holds m ino data) (hmod : data.length % blocksize = 0) :
    a ∈ dirEntries m ino ↔ ∃ k, k * direntsize < data.length ∧ a = entryAt m ino k := by
  have hmax : data.length < 2 ^ 32 := by
    rw [← h.size]
    exact fileSize_lt _ _
  -- a block that is mapped is full
  have hfull : ∀ bi, bi * blocksize < data.length →
      blockBytes (fileSize m ino) (bi * blocksize) = blocksize := by
    intro bi hbi
    rw [h.size]
    unfold blockBytes blocksize at *
    omega
  rw [ChkFS.mem_dirEntries]
  constructor
  · rintro ⟨bi, i, -, hmapped, hin, rfl⟩
    have hbi := (h.mapped bi).mp (hmapped bi (Nat.le_refl bi))
    rw [hfull bi hbi] at hin
    have hi : i < 32 := by
      unfold blocksize direntsize at hin
      omega
    refine ⟨bi * 32 + i, ?_, ?_⟩
    · unfold blocksize direntsize at *
      omega
    · unfold entryAt
      rw [Nat.add_comm, Nat.add_mul_div_right _ _ (by decide), Nat.add_mul_mod_self_right,
        Nat.div_eq_of_lt hi, Nat.mod_eq_of_lt hi, Nat.zero_add]
  · rintro ⟨k, hk, rfl⟩
    have hbi : k / 32 * blocksize < data.length := by
      unfold blocksize direntsize at *
      omega
    refine ⟨k / 32, k % 32, ?_, fun bj hj => (h.mapped bj).mpr ?_, ?_, rfl⟩
    · have := div_lt_max hmax
      unfold blocksize at *
      omega
    · exact Nat.lt_of_le_of_lt (Nat.mul_le_mul_right _ hj) hbi
    · rw [hfull _ hbi]
      unfold blocksize direntsize
      omega

/-- Entry `k` has the bytes that the data have there. -/
theorem Holds.entry (h : Holds m ino data) (hmod : data.length % blocksize = 0)
    (hk : k * direntsize < data.length) :
    slice m (entryAt m ino k) direntsize = (data.drop (k * direntsize)).take direntsize := by
  have hdiv : k * direntsize / blocksize = k / 32 := by
    unfold direntsize blocksize
    omega
  have hoff : k * direntsize % blocksize = k % 32 * direntsize := by
    unfold direntsize blocksize
    omega
  have hslice := @Holds.within m data (k * direntsize) direntsize ino h
      (by unfold direntsize blocksize at *; omega)
    (by unfold direntsize blocksize; omega)
  rwa [hdiv, hoff] at hslice

/-- What the bytes of an entry say. -/
theorem entry_fields {de : Dirent} (h : slice m a direntsize = de.bytes)
    (hinum : de.inum < 2 ^ 32) : getLE m a 4 = de.inum ∧ slice m (a + 4) (maxnamelen + 1) =
    de.name ++ List.replicate (maxnamelen + 1 - de.name.length) 0 := by
  unfold Dirent.bytes at h
  rw [List.append_assoc] at h
  constructor
  · refine getLE_of_slice ?_ hinum
    rw [slice_take h (by decide), List.take_append_of_le_length (by rw [length_toLE]),
      List.take_of_length_le (by rw [length_toLE])]
  · rw [slice_drop (d := 4) (n := maxnamelen + 1) h,
      List.drop_append_of_le_length (by rw [length_toLE]),
      List.drop_of_length_le (by rw [length_toLE]), List.nil_append]

/-! ## The image as the kernel finds it -/

theorem ImageBuilt.names (h : ImageBuilt sb firstData files im placed root) :
    ∀ de ∈ rootEntries (entries placed), de.name.length ≤ maxnamelen := by
  intro de hde
  rcases List.mem_append.mp hde with hde | hde
  · obtain ⟨p, hp, rfl⟩ := List.mem_map.mp hde
    exact legalName_length (h.legal p hp)
  · rw [List.eq_of_mem_replicate hde]
    exact Nat.zero_le _

theorem ImageBuilt.root_length (h : ImageBuilt sb firstData files im placed root) :
    root.data.length = (rootEntries (entries placed)).length * direntsize := by
  rw [h.data, flatMap_bytes_length h.names]

theorem ImageBuilt.root_mod (h : ImageBuilt sb firstData files im placed root) :
    root.data.length % blocksize = 0 := by
  rw [h.root_size]
  exact rootSize_mod _

theorem ImageBuilt.first_pos (g : Geometry sb) (h : ImageBuilt sb firstData files im placed root)
    (hp : p ∈ root :: placed) : 0 < p.first := by
  obtain ⟨lo, hi, hlo, -, hw⟩ := (h.fits g p hp).blocks
  have hpos := g.dataBn_pos
  by_cases hsize : p.data.length ≤ maxdirectsize
  · have := (hw.direct hsize).2
    omega
  · rcases hw.indirect (Nat.not_le.mp hsize) with ⟨-, hfirst⟩ | ⟨-, hfirst⟩ <;> omega

/-- The inodes of an image that has been built hold what the files had. -/
theorem ImageBuilt.holds (g : Geometry sb) (h : ImageBuilt sb firstData files im placed root)
    (hp : p ∈ root :: placed) : Holds im.mem (inodeAt sb p.inum) p.data := by
  have hpos := h.first_pos g hp
  have hlaid := h.built.laid p (ImageBuilt.mem_iff.mp hp)
  have hval : ∀ bi, dataVal im.mem (inodeAt sb p.inum) bi = p.ptr bi :=
    fun bi => hlaid.dataVal g (h.fits g p hp)
  unfold Placed.ptr at hval
  refine ⟨hlaid.size, fun bi => ?_, fun x hx => ?_⟩
  · rw [hval]
    split
    · exact ⟨fun _ => ‹_›, fun _ => by omega⟩
    · exact ⟨fun hne => absurd rfl hne, fun hlt => absurd hlt ‹_›⟩
  · rw [hval, if_pos (Nat.lt_of_le_of_lt (Nat.div_mul_le_self x blocksize) hx), Nat.add_mul,
      Nat.add_assoc, Nat.div_add_mod', hlaid.bytes x hx]

/-- **Shuffling leaves every inode its data.** -/
theorem Shuffled.holds (g : Geometry sb) (h : ImageBuilt sb firstData files im placed root)
    (hs : Shuffled sb firstData π im im') (hp : p ∈ root :: placed) :
    Holds im'.disk (inodeAt sb p.inum) p.data := by
  have hfits := h.fits g p hp
  have hold := h.holds g hp
  have hpos := g.dataBn_pos
  have hn : 0 < sb.nblocks := by
    have := g.journal
    have := g.le
    omega
  have hfix : π 0 = 0 := hs.fixed 0 hn (.inl hpos)
  have hval : ∀ bi, dataVal im'.disk (inodeAt sb p.inum) bi =
      π (dataVal im.mem (inodeAt sb p.inum) bi) := by
    intro bi
    rw [← disk_eq h.built]
    exact hs.pointer p.inum hfits.inum bi
  have hlt : ∀ bi, dataVal im.mem (inodeAt sb p.inum) bi < sb.nblocks := by
    intro bi
    rw [(h.built.laid p (ImageBuilt.mem_iff.mp hp)).dataVal g hfits]
    unfold Placed.ptr
    split
    · exact (hfits.has_ge
        (.inl ⟨Nat.le_add_right _ bi, Nat.add_lt_add_left (lt_dataBlocks ‹_›) _⟩)).2
    · exact hn
  have hmapped : ∀ bi, dataVal im'.disk (inodeAt sb p.inum) bi ≠ 0 ↔
      bi * blocksize < p.data.length := by
    intro bi
    rw [← hold.mapped bi, hval]
    refine ⟨fun hne hz => hne (by rw [hz, hfix]), fun hne hz => hne ?_⟩
    exact hs.inj _ (hlt bi) 0 hn (hz.trans hfix.symm)
  refine ⟨?_, hmapped, fun x hx => ?_⟩
  · rw [hs.size p.inum hfits.inum, disk_eq h.built]
    exact hold.size
  · have hbi := Nat.lt_of_le_of_lt (Nat.div_mul_le_self x blocksize) hx
    have hreads := hs.reads p.inum hfits.inum x
    rw [disk_eq h.built, fileByte_eq ((hmapped _).mpr hbi), fileByte_eq ((hold.mapped _).mpr hbi),
      hold.bytes x hx] at hreads
    exact Option.some.inj hreads

/-- What the kernel finds on the disk: the inodes, with the data of the files and of the root
directory. -/
structure OnDisk (sb : Superblock) (placed : List Placed) (root : Placed) (m : Mem) : Prop where
  ninodes : ninodes m = sb.ninodes
  inodes : ∀ i < sb.ninodes, ChkFS.inodeAddr m i = inodeAt sb i
  holds : ∀ p ∈ root :: placed, Holds m (inodeAt sb p.inum) p.data

/-- The image that has been built, and what the shuffling makes of it. -/
theorem mkfs_onDisk {o : Options} {boot : Option (List UInt8)} {shuffle : List Nat → List Nat}
    (ho : o.Ok) (h : mkfs o boot files = some (sb, im)) (hshuffle : ∀ l, (shuffle l).Perm l)
    (him : im' = im ∨ shuffleBlocks sb shuffle (o.firstData ≠ 0) im = some im') : ∃ placed root,
      Geometry sb ∧ ImageBuilt sb (o.firstData ≠ 0) files im placed root ∧
      OnDisk sb placed root im'.disk := by
  obtain ⟨g, hmarked, placed, root, hb⟩ := mkfs_built ho h
  have hend := Nat.le_trans hb.built.journal g.le
  have hdisk := disk_eq hb.built
  refine ⟨placed, root, g, hb, ?_⟩
  rcases him with rfl | him
  · obtain ⟨hninodes, haddr⟩ := inodes_found g hmarked hend fun a _ => rfl
    rw [hdisk]
    exact ⟨hninodes, haddr, fun p hp => hb.holds g hp⟩
  · rcases shuffleBlocks_spec ho h hshuffle with ⟨-, -, hnone⟩ | ⟨im'', π, hsome, hs, hfirst⟩
    · rw [hnone] at him
      cases him
    · obtain rfl := Option.some.inj (hsome.symm.trans him)
      rw [hdisk] at hfirst
      obtain ⟨hninodes, haddr⟩ := inodes_found g hmarked hend hfirst
      exact ⟨hninodes, haddr, fun p hp => hs.holds g hb hp⟩

theorem ImageBuilt.placed_names (h : ImageBuilt sb firstData files im placed root) :
    placed.map Placed.name = files.map InputFile.name := by
  have := congrArg (List.map Prod.fst) h.files
  rwa [List.map_map, List.map_map] at this

theorem ImageBuilt.no_nul (h : ImageBuilt sb firstData files im placed root) :
    ∀ p ∈ placed, (0 : UInt8) ∉ p.name := by
  intro p hp
  have hname : p.name ∈ files.map InputFile.name := by
    rw [← h.placed_names]
    exact List.mem_map_of_mem hp
  obtain ⟨f, -, hf⟩ := List.mem_map.mp hname
  rw [← hf]
  exact f.nul

section Root
variable (h : ImageBuilt sb firstData files im placed root) (hm : OnDisk sb placed root m)
  (g : Geometry sb)
include h hm

theorem OnDisk.root_dir : ChkFS.inodeAddr m 1 = inodeAt sb 1 ∧
    Holds m (inodeAt sb 1) root.data := by
  have hlt := h.built.inums root (List.mem_append_right _ (List.mem_singleton_self root))
  have hholds := hm.holds root List.mem_cons_self
  rw [h.inum] at hlt hholds
  exact ⟨hm.inodes 1 hlt, hholds⟩

/-- **The kernel goes through the builder's entries.** -/
theorem OnDisk.root_entries : a ∈ dirEntries m (inodeAt sb 1) ↔
    ∃ k < (rootEntries (entries placed)).length, a = entryAt m (inodeAt sb 1) k := by
  rw [(hm.root_dir h).2.mem_dirEntries h.root_mod, h.root_length]
  simp only [Nat.mul_lt_mul_right (show 0 < direntsize by decide)]

include g

/-- **The kernel reads the builder's entries**: entry `k` is that of file `k`, and those after the
files are not used. -/
theorem OnDisk.named_iff (hnul : ∀ p ∈ placed, (0 : UInt8) ∉ p.name) (hname : (0 : UInt8) ∉ name)
    (hk : k < (rootEntries (entries placed)).length) :
    (Named m name (entryAt m (inodeAt sb 1) k) ↔ ∃ p, placed[k]? = some p ∧ p.name = name) ∧
      ∀ p, placed[k]? = some p → getLE m (entryAt m (inodeAt sb 1) k) 4 = p.inum := by
  have hslice : slice m (entryAt m (inodeAt sb 1) k) direntsize =
      (rootEntries (entries placed))[k].bytes := by
    rw [(hm.root_dir h).2.entry h.root_mod
      (by rw [h.root_length]; exact Nat.mul_lt_mul_of_pos_right hk (by decide)), h.data]
    exact flatMap_piece (fun de hde => bytes_length (h.names de hde)) k hk
  generalize entryAt m (inodeAt sb 1) k = a at hslice ⊢
  by_cases hfile : k < placed.length
  · have hmem : placed[k] ∈ placed := List.getElem_mem hfile
    have hentry : (rootEntries (entries placed))[k]? = some ⟨placed[k].inum, placed[k].name⟩ := by
      rw [rootEntries, List.getElem?_append_left (by rwa [entries, List.length_map]), entries,
        List.getElem?_map, List.getElem?_eq_getElem hfile]
      rfl
    have hinum : placed[k].inum < 2 ^ 31 :=
      Nat.lt_trans (h.built.inums _ (List.mem_append_left _ hmem)) g.ninodes
    have hpos : placed[k].inum ≠ 0 := by
      have hin : placed[k].inum ∈ placed.map Placed.inum := List.mem_map_of_mem hmem
      rw [h.numbered, List.mem_range'_1] at hin
      omega
    rw [Option.some.inj ((List.getElem?_eq_getElem hk).symm.trans hentry)] at hslice
    obtain ⟨hget, hstring⟩ := entry_fields hslice (by dsimp only; omega)
    have hiff :=
      string_iff hstring (Nat.lt_succ_of_le (legalName_length (h.legal _ hmem))) (hnul _ hmem) hname
    rw [List.getElem?_eq_getElem hfile]
    refine ⟨⟨?_, ?_⟩, ?_⟩
    · rintro ⟨-, heq⟩
      exact ⟨_, rfl, (hiff.mp heq).symm⟩
    · rintro ⟨p, hp, heq⟩
      obtain rfl := Option.some.inj hp
      exact ⟨by rwa [hget], hiff.mpr heq.symm⟩
    · intro p hp
      obtain rfl := Option.some.inj hp
      exact hget
  · have hlen : (rootEntries (entries placed)).length = placed.length +
        padding (entries placed).length := by
      rw [rootEntries, List.length_append, List.length_replicate, entries, List.length_map]
    have hentry : (rootEntries (entries placed))[k]? = some ⟨0, []⟩ := by
      rw [rootEntries, List.getElem?_append_right (by rw [entries, List.length_map]; omega)]
      exact List.getElem?_replicate_of_lt (by rw [entries, List.length_map] at *; omega)
    rw [Option.some.inj ((List.getElem?_eq_getElem hk).symm.trans hentry)] at hslice
    have hget := (entry_fields hslice (Nat.two_pow_pos 32)).1
    rw [List.getElem?_eq_none (Nat.not_lt.mp hfile)]
    refine ⟨⟨fun hnamed => absurd hget hnamed.1, ?_⟩, ?_⟩
    · rintro ⟨p, hp, -⟩
      cases hp
    · intro p hp
      cases hp

/-- **The lookup of a file** gives its inode. -/
theorem OnDisk.inum_of_file (hdistinct : (files.map InputFile.name).Nodup)
    (hp : placed[k]? = some p) : inumOf m p.name (dirEntries m (inodeAt sb 1)) = p.inum := by
  have hmem := List.mem_of_getElem? hp
  have hk : k < placed.length := (List.getElem?_eq_some_iff.mp hp).1
  have hlen : placed.length ≤ (rootEntries (entries placed)).length := by
    rw [rootEntries, List.length_append, entries, List.length_map]
    exact Nat.le_add_right _ _
  have hname := h.no_nul p hmem
  have hin := Nat.lt_of_lt_of_le hk hlen
  obtain ⟨hnamed, hget⟩ := hm.named_iff h g h.no_nul hname hin
  rw [inumOf_unique ((hm.root_entries h).mpr ⟨k, hin, rfl⟩) (hnamed.mpr ⟨p, hp, rfl⟩) ?_, hget p hp]
  intro b hb hb'
  obtain ⟨j, hj, rfl⟩ := (hm.root_entries h).mp hb
  obtain ⟨q, hq, heq⟩ := (hm.named_iff h g h.no_nul hname hj).1.mp hb'
  -- the names are distinct
  have hsame : (placed.map Placed.name)[k]? = (placed.map Placed.name)[j]? := by
    rw [List.getElem?_map, List.getElem?_map, hp, hq, Option.map_some, Option.map_some, heq]
  rw [← h.placed_names] at hdistinct
  rw [(List.getElem?_inj (by rwa [List.length_map]) hdistinct).mp hsame]

/-- Every file is found, with its data. -/
theorem OnDisk.reads_file (hdistinct : (files.map InputFile.name).Nodup) {f : InputFile}
    (hf : f ∈ files) : ∃ ino, view (lookupInode (ChkFS.inodeAddr m 1) f.name) m =
    some (some ino, m) ∧
      ∀ off ≤ f.contents.length, ∀ sz, view (readFileData ino sz off) m =
      some ((f.contents.drop off).take sz, m) := by
  obtain ⟨haddr, hroot⟩ := hm.root_dir h
  obtain ⟨k, hk, rfl⟩ := List.getElem_of_mem hf
  have hpair : (placed.map fun p => (p.name, p.data))[k]? =
      some (files[k].name, files[k].contents) := by
    rw [h.files, List.getElem?_map, List.getElem?_eq_getElem hk]
    rfl
  rw [List.getElem?_map] at hpair
  obtain ⟨p, hp, heq⟩ := Option.map_eq_some_iff.mp hpair
  obtain ⟨hpname, hpdata⟩ := Prod.mk.inj heq
  have hmem := List.mem_of_getElem? hp
  have hlt := h.built.inums p (List.mem_append_left _ hmem)
  have hpos : 0 < p.inum := by
    have hin : p.inum ∈ placed.map Placed.inum := List.mem_map_of_mem hmem
    rw [h.numbered, List.mem_range'_1] at hin
    omega
  have hinum : toInum p.inum = p.inum := if_pos (Nat.lt_trans hlt g.ninodes)
  refine ⟨inodeAt sb p.inum, ?_, fun off hoff sz => ?_⟩
  · rw [haddr, view_lookupInode (hroot.ends h.root_mod), inodeOf, ← hpname,
      hm.inum_of_file h g hdistinct hp, hinum, hm.ninodes,
      if_pos ⟨by omega, by omega⟩, hm.inodes _ hlt]
  · rw [← hpdata] at hoff ⊢
    exact (hm.holds p (List.mem_cons_of_mem _ hmem)).view_readFileData hoff

/-- No other name is found. -/
theorem OnDisk.finds_nothing (hnul : (0 : UInt8) ∉ name) (hname : name ∉ files.map InputFile.name) :
    view (lookupInode (ChkFS.inodeAddr m 1) name) m = some (none, m) := by
  obtain ⟨haddr, hroot⟩ := hm.root_dir h
  have hnone : inumOf m name (dirEntries m (inodeAt sb 1)) = 0 := by
    refine inumOf_none fun a ha hnamed => hname ?_
    obtain ⟨k, hk, rfl⟩ := (hm.root_entries h).mp ha
    obtain ⟨p, hp, rfl⟩ := (hm.named_iff h g h.no_nul hnul hk).1.mp hnamed
    rw [← h.placed_names]
    exact List.mem_map_of_mem (List.mem_of_getElem? hp)
  have hzero : ¬(0 : Int) < toInum 0 := by decide
  rw [haddr, view_lookupInode (hroot.ends h.root_mod), inodeOf, hnone, if_neg fun h => hzero h.1]

end Root

/-! ## Reading back -/

/-- **What is written is read back**: the lookup finds the inode of each file, from which its
contents are read at every offset and length, and it finds nothing under any other name. -/
theorem mkfs_read_back {o : Options} {boot : Option (List UInt8)} (ho : o.Ok)
    (h : mkfs o boot files = some (sb, im)) (hdistinct : (files.map InputFile.name).Nodup) :
    (∀ f ∈ files, ∃ ino, view (lookupInode (ChkFS.inodeAddr im.disk 1) f.name) im.disk =
      some (some ino, im.disk) ∧ ∀ off ≤ f.contents.length, ∀ sz,
        view (readFileData ino sz off) im.disk = some ((f.contents.drop off).take sz, im.disk)) ∧
    ∀ name, (0 : UInt8) ∉ name → name ∉ files.map InputFile.name →
      view (lookupInode (ChkFS.inodeAddr im.disk 1) name) im.disk = some (none, im.disk) := by
  obtain ⟨placed, root, g, hb, hm⟩ := mkfs_onDisk ho h (fun l => List.Perm.refl l) (.inl rfl)
  exact ⟨fun f hf => hm.reads_file hb g hdistinct hf, fun name hnul hname =>
    hm.finds_nothing hb g hnul hname⟩

theorem smallAndLarge_names : (smallAndLarge.map InputFile.name).Nodup := by decide

/-- The last three bytes of the second file, of which one is in its indirect block. -/
theorem mkfs_read_back_small : ∃ (sb : Superblock) (im : Image),
    mkfs ⟨64, 0, 0, 0, 16⟩ none smallAndLarge = some (sb, im) ∧
    ∃ ino, view (lookupInode (ChkFS.inodeAddr im.disk 1) [65]) im.disk = some (some ino, im.disk) ∧
      view (readFileData ino 10 36862) im.disk = some ([7, 7, 7], im.disk) := by
  obtain ⟨sb, im, h, -⟩ := smallAndLarge_built
  obtain ⟨hread, -⟩ := mkfs_read_back options64_ok h smallAndLarge_names
  obtain ⟨ino, hlookup, hbytes⟩ := hread _ (List.mem_cons_of_mem _ List.mem_cons_self)
  refine ⟨sb, im, h, ino, hlookup,
    (hbytes 36862 (by rw [List.length_replicate]; decide) 10).trans ?_⟩
  rw [List.drop_replicate, List.take_replicate]
  rfl

/-- **With `--randomize`, too**: whatever order the blocks are put in, the kernel reads what the
image would have had without it. -/
theorem randomized_read_back {o : Options} {boot : Option (List UInt8)}
    {shuffle : List Nat → List Nat} (ho : o.Ok) (h : mkfs o boot files = some (sb, im))
    (hdistinct : (files.map InputFile.name).Nodup) (hshuffle : ∀ l, (shuffle l).Perm l)
    (him : im' = im ∨ shuffleBlocks sb shuffle (o.firstData ≠ 0) im = some im') :
    (∀ f ∈ files, ∃ ino, view (lookupInode (ChkFS.inodeAddr im'.disk 1) f.name) im'.disk =
      some (some ino, im'.disk) ∧ ∀ off ≤ f.contents.length, ∀ sz,
        view (readFileData ino sz off) im'.disk = some ((f.contents.drop off).take sz, im'.disk)) ∧
    ∀ name, (0 : UInt8) ∉ name → name ∉ files.map InputFile.name →
      view (lookupInode (ChkFS.inodeAddr im'.disk 1) name) im'.disk = some (none, im'.disk) := by
  obtain ⟨placed, root, g, hb, hm⟩ := mkfs_onDisk ho h hshuffle him
  exact ⟨fun f hf => hm.reads_file hb g hdistinct hf, fun name hnul hname =>
    hm.finds_nothing hb g hnul hname⟩

/-- The same bytes, with the blocks of the second file in reverse order. -/
theorem randomized_read_back_reversed : ∃ (sb : Superblock) (im im' : Image),
    mkfs ⟨64, 0, 0, 0, 16⟩ none smallAndLarge = some (sb, im) ∧
    shuffleBlocks sb List.reverse true im = some im' ∧
    ∃ ino, view (lookupInode (ChkFS.inodeAddr im'.disk 1) [65]) im'.disk =
      some (some ino, im'.disk) ∧ view (readFileData ino 10 36862) im'.disk =
      some ([7, 7, 7], im'.disk) := by
  obtain ⟨sb, im, h, hsb⟩ := smallAndLarge_built
  rcases shuffleBlocks_spec options64_ok h List.reverse_perm with ⟨-, htwo, -⟩ |
    ⟨im', π, hshuffle, -⟩
  · rw [hsb] at htwo
    exact absurd htwo (by decide)
  · obtain ⟨hread, -⟩ :=
      randomized_read_back options64_ok h smallAndLarge_names List.reverse_perm (.inr hshuffle)
    obtain ⟨ino, hlookup, hbytes⟩ := hread _ (List.mem_cons_of_mem _ List.mem_cons_self)
    refine ⟨sb, im, im', h, hshuffle, ino, hlookup,
      (hbytes 36862 (by rw [List.length_replicate]; decide) 10).trans ?_⟩
    rw [List.drop_replicate, List.take_replicate]
    rfl

end PugOS.Mkfs
