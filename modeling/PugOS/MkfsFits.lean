import PugOS.MkfsBuilt

/-! # What fits into an image

`mkchickadeefs` gives up when it runs out of blocks or inodes, or does not like a name.  Here is
exactly when (`mkfs_isSome_iff`).  The loop of `add_file` takes a block to find that there is no
more to read, and gives it back; the root directory takes it then.
-/
namespace PugOS.Mkfs
open Bytes Ring ChkFS
open Journal (blocksize)
open BlockAlloc (Options Superblock layout nfbb)

variable {sb : Superblock} {im im' : Image} {base : Mem} {placed : List Placed} {data : List UInt8}
  {files : List InputFile} {firstData : Bool} {fuel sz first inum type nlink ino : Nat}
  {atEnd : Bool}

theorem advanceBlockno_fits (h : im.freeb < sb.journalBn) :
    advanceBlockno sb im = some { im with freeb := im.freeb + 1 } :=
  if_neg (Nat.not_le.mpr h)

/-! ## One file -/

/-- Of `n` bytes the loop takes `n / blocksize + 1` blocks, and has taken those of the first `sz`.
-/
theorem readLoop_fits : ∀ {fuel : Nat} {im : Image} {rest : List UInt8} {sz : Nat}, rest.length <
    fuel → im.freeb + (sz + rest.length) / blocksize + 1 ≤ sb.journalBn + dataBlocks sz →
    ∃ r, readLoop sb fuel im rest sz = some r := by
  intro fuel
  induction fuel with
  | zero => exact fun h _ => absurd h (Nat.not_lt_zero _)
  | succ fuel ih =>
    intro im rest sz hfuel hroom
    obtain ⟨im₁, hnext, hfree⟩ : ∃ im₁, nextBlock sb im sz = some im₁ ∧
      im₁.freeb + dataBlocks sz = im.freeb + (sz / blocksize + 1) := by
      unfold nextBlock
      unfold dataBlocks blocksize at *
      by_cases hz : sz % 4096 = 0
      · rw [if_pos hz]
        refine ⟨_, advanceBlockno_fits (by omega), ?_⟩
        dsimp only
        omega
      · rw [if_neg hz]
        exact ⟨im, rfl, by omega⟩
    have hensure := (ensureBlock_kept im₁).2
    have hlen : (rest.take (blocksize - sz % blocksize)).length =
        min (blocksize - sz % blocksize) rest.length :=
      List.length_take
    unfold readLoop
    rw [hnext, Option.bind_eq_bind, Option.bind_some]
    dsimp only
    by_cases hz : (rest.take (blocksize - sz % blocksize)).length = 0
    · rw [if_pos hz]
      exact ⟨_, rfl⟩
    · rw [if_neg hz]
      refine ih (by rw [List.length_drop]; omega) ?_
      dsimp only
      rw [hensure, List.length_drop, hlen]
      unfold dataBlocks blocksize at *
      omega

theorem fillInode_fits (hsize : sz ≤ maxindirectsize)
    (hroom : maxdirectsize < sz → im.freeb < sb.journalBn) :
    ∃ im', fillInode sb im ino type sz nlink first atEnd = some im' := by
  unfold fillInode
  dsimp only
  rw [if_neg (Nat.not_lt.mpr hsize)]
  by_cases hgt : sz > maxdirectsize
  · rw [if_pos hgt]
    unfold addIndirect advanceBlockno
    rw [if_neg (Nat.not_le.mpr (hroom hgt))]
    cases atEnd <;> exact ⟨_, rfl⟩
  · rw [if_neg hgt]
    exact ⟨_, rfl⟩

theorem addInode_fits {im₀ : Image} {inum' : Nat} (hfree : im.freeb = first + dataBlocks sz)
    (hnew : newInum sb im inum = some (inum', im₀)) (hfree₀ : im₀.freeb = im.freeb)
    (hinum : inum' < sb.ninodes) (hsize : sz ≤ maxindirectsize)
    (hroom : maxdirectsize < sz → im.freeb < sb.journalBn) :
    ∃ r, addInode sb im inum type sz nlink first atEnd = some r := by
  obtain ⟨im', hfill⟩ := @fillInode_fits sb im₀ sz first type nlink (inodeAt sb inum') atEnd hsize
    (fun hgt => by rw [hfree₀]; exact hroom hgt)
  refine ⟨(im', inum'), ?_⟩
  unfold addInode getInode
  unfold dataBlocks at hfree
  rw [if_pos (Nat.le_of_eq hfree.symm), hnew, Option.bind_eq_bind, Option.bind_some]
  dsimp only
  rw [if_pos hinum, Option.bind_eq_bind, Option.bind_some, hfill]
  rfl

/-- **A file is added** if there is room for one block more than it takes. -/
theorem addFile_fits {f : InputFile} (g : Geometry sb) (h : Built sb base im placed)
    (hlegal : legalName f.name = true) (hsize : f.contents.length ≤ maxindirectsize)
    (hinum : im.freeinode < sb.ninodes)
    (hroom : im.freeb + blocksFor f.contents.length + 1 ≤ sb.journalBn) :
    ∃ im', addFile sb im f atEnd = some im' := by
  unfold blocksFor at hroom
  obtain ⟨⟨im₁, sz⟩, hread⟩ := @readLoop_fits sb _ im f.contents 0 (Nat.lt_succ_self _) (by
    unfold dataBlocks blocksize at *
    omega)
  obtain ⟨hsz, hkept, -, -, hload⟩ := readLoop_loaded g h hread
  dsimp only at hsz hkept hload
  generalize him : (if sz % blocksize = 0 then { im₁ with freeb := im₁.freeb - 1 }
    else im₁ : Image) = im₂ at hload
  have hfree : im₂.freeinode = im.freeinode := by
    rw [← him, ← hkept.freeinode]
    split <;> rfl
  have hnew :
      newInum sb im₂ 0 = some (im.freeinode, { im₂ with freeinode := im₂.freeinode + 1 }) := by
    unfold newInum
    rw [if_pos rfl, if_neg (by omega), hfree]
  obtain ⟨⟨im₃, inum⟩, hadd⟩ := @addInode_fits sb im₂ sz im.freeb 0 typeRegular 1 atEnd _ _
    (hsz ▸ hload.freeb) hnew rfl hinum (hsz ▸ hsize) (fun hgt => by
      rw [hload.freeb]
      rw [hsz] at hgt
      rw [if_pos hgt] at hroom
      omega)
  refine ⟨{ im₃ with root := im₃.root ++ [⟨inum, f.name⟩] }, ?_⟩
  unfold addFile
  rw [hread, Option.bind_eq_bind, Option.bind_some]
  dsimp only
  rw [him, hadd, Option.bind_some]
  exact if_pos hlegal

/-! ## All files, and the directory -/

theorem addFiles_fits (g : Geometry sb) :
    ∀ {rest : List InputFile} {isFirst : Bool} {im : Image} {files : List InputFile}
    {placed : List Placed}, FilesBuilt sb base firstData files im placed →
    (placed = [] → isFirst = firstData) →
    (∀ f ∈ rest, legalName f.name = true ∧ f.contents.length ≤ maxindirectsize) →
    im.freeinode + rest.length ≤ sb.ninodes →
    im.freeb + (rest.map fun f => blocksFor f.contents.length).sum + 1 ≤ sb.journalBn →
    ∃ im', addFiles sb isFirst rest im = some im' ∧
      im'.freeb = im.freeb + (rest.map fun f => blocksFor f.contents.length).sum := by
  intro rest
  induction rest with
  | nil => exact fun _ _ _ _ _ => ⟨_, rfl, rfl⟩
  | cons f rest ih =>
    intro isFirst im files placed h hat hfiles hinodes hroom
    obtain ⟨⟨hlegal, hsize⟩, hrest⟩ := List.forall_mem_cons.mp hfiles
    rw [List.map_cons, List.sum_cons] at hroom ⊢
    rw [List.length_cons] at hinodes
    obtain ⟨im₁, hadd⟩ :=
      @addFile_fits sb im base placed isFirst f g h.toBuilt hlegal hsize (by omega) (by omega)
    obtain ⟨p, h₁⟩ := h.add g hat hadd
    have hdata : p.data.length = f.contents.length := by
      have := h₁.files
      rw [List.map_append, List.map_append, h.files] at this
      have := List.append_cancel_left this
      rw [List.map_singleton, List.map_singleton, List.singleton_inj, Prod.mk.injEq] at this
      rw [this.2]
    have hfree₁ : im₁.freeb = im.freeb + blocksFor f.contents.length := by
      rw [h₁.tiles.stop, h.tiles.stop, List.map_append, List.sum_append, List.map_singleton,
        List.sum_singleton, hdata, Nat.add_assoc]
    have hfreeinode : im₁.freeinode = im.freeinode + 1 := by
      rw [h₁.freeinode, h.freeinode, List.length_append]
      rfl
    obtain ⟨im', hrun, hfree⟩ :=
      ih h₁ (fun hnil => absurd hnil (by simp)) hrest (by omega) (by omega)
    refine ⟨im', ?_, by rw [hfree, hfree₁, Nat.add_assoc]⟩
    unfold addFiles
    rw [hadd, Option.bind_eq_bind, Option.bind_some]
    exact hrun

theorem rootLoop_fits (hmod : data.length % blocksize = 0) :
    ∀ {fuel : Nat} {im : Image} {sz : Nat}, data.length - sz < fuel →
    sz % blocksize = 0 → im.freeb + (data.length - sz) / blocksize ≤ sb.journalBn →
    ∃ r, rootLoop sb data fuel im sz = some r := by
  intro fuel
  induction fuel with
  | zero => exact fun h _ _ => absurd h (Nat.not_lt_zero _)
  | succ fuel ih =>
    intro im sz hfuel hsz hroom
    unfold rootLoop
    by_cases hlt : sz < data.length
    · rw [if_pos hlt, advanceBlockno_fits (by unfold blocksize at *; omega), Option.bind_eq_bind,
        Option.bind_some]
      refine ih ?_ (by rw [Nat.add_mod_right, hsz]) ?_
      · unfold blocksize at *
        omega
      · change im.freeb + 1 + _ ≤ _
        unfold blocksize at *
        omega
    · rw [if_neg hlt]
      exact ⟨_, rfl⟩

/-- **The root directory is added.** -/
theorem addRoot_fits (h : FilesBuilt sb base firstData files im placed) (hinodes : 1 < sb.ninodes)
    (hsize : rootSize placed.length ≤ maxindirectsize)
    (hroom : im.freeb + blocksFor (rootSize placed.length) ≤ sb.journalBn) :
    ∃ im', addRoot sb im = some im' := by
  have hnames : ∀ de ∈ im.root, de.name.length ≤ maxnamelen := by
    intro de hde
    rw [h.root] at hde
    obtain ⟨p, hp, rfl⟩ := List.mem_map.mp hde
    exact legalName_length (h.legal p hp)
  have hlen : ((rootEntries im.root).flatMap Dirent.bytes).length = rootSize placed.length := by
    rw [rootEntries_length hnames, h.root, List.length_map]
  have hmod := rootSize_mod placed.length
  rw [← hlen] at hmod hsize hroom
  unfold addRoot
  dsimp only
  rw [padRoot_eq (padding_le _)]
  change ∃ im', (rootLoop sb ((rootEntries im.root).flatMap Dirent.bytes)
    (((rootEntries im.root).flatMap Dirent.bytes).length + 1)
    { im with root := rootEntries im.root } 0).bind _ = some im'
  generalize (rootEntries im.root).flatMap Dirent.bytes = data at *
  have hstart : RootState { im with root := rootEntries im.root } im.freeb 0 data :=
    ⟨rfl, rfl, Nat.zero_le _, fun x _ hx => absurd hx (Nat.not_lt_zero x), h.zero, h.present⟩
  unfold blocksFor at hroom
  obtain ⟨⟨im₁, sz⟩, hloop⟩ := @rootLoop_fits sb data hmod (data.length + 1)
    { im with root := rootEntries im.root } 0 (by omega) rfl (by
      change im.freeb + _ ≤ _
      unfold dataBlocks blocksize at *
      omega)
  obtain ⟨hsz, hload, -⟩ := rootLoop_spec hmod hstart hloop
  dsimp only at hsz hload
  subst hsz
  obtain ⟨⟨im₂, inum⟩, hadd⟩ := @addInode_fits sb im₁ data.length im.freeb 1 typeDirectory 1 false
    im₁ 1 hload.freeb (by unfold newInum; rw [if_neg (by decide)]) rfl hinodes hsize (fun hgt => by
      rw [if_pos hgt] at hroom
      rw [hload.freeb]
      omega)
  rw [hloop, Option.bind_some]
  dsimp only
  rw [hadd]
  exact ⟨_, rfl⟩

/-! ## The image -/

/-- The files fit into an image with this superblock. -/
structure Fits (sb : Superblock) (files : List InputFile) : Prop where
  legal : ∀ f ∈ files, legalName f.name = true
  size : ∀ f ∈ files, f.contents.length ≤ maxindirectsize
  rootSize : rootSize files.length ≤ maxindirectsize
  inodes : 2 + files.length ≤ sb.ninodes
  blocks : usedBlocks sb files ≤ sb.journalBn

theorem rootSize_blocks (n : Nat) : 1 ≤ blocksFor (rootSize n) := by
  unfold blocksFor dataBlocks rootSize padding direntsize blocksize
  split <;> split <;> omega

theorem layout_of_mkfs {o : Options} {boot : Option (List UInt8)}
    (h : mkfs o boot files = some (sb, im)) : layout o = some sb := by
  obtain ⟨sb', hlayout, h⟩ := Option.bind_eq_some_iff.mp h
  obtain ⟨im₀, -, h⟩ := Option.bind_eq_some_iff.mp h
  obtain ⟨im₁, -, h⟩ := Option.bind_eq_some_iff.mp h
  obtain ⟨im₂, -, h⟩ := Option.bind_eq_some_iff.mp h
  obtain ⟨rfl, -⟩ := Prod.mk.inj (Option.some.inj h)
  exact hlayout

theorem ImageBuilt.fits_in {root : Placed} (h : ImageBuilt sb firstData files im placed root) :
    Fits sb files := by
  have hfile : ∀ f ∈ files, ∃ p ∈ placed, (p.name, p.data) = (f.name, f.contents) := by
    intro f hf
    refine List.mem_map.mp ?_
    rw [h.files]
    exact List.mem_map_of_mem hf
  have hsize : ∀ p ∈ placed ++ [root], p.data.length ≤ maxindirectsize := by
    intro p hp
    obtain ⟨lo, hi, -, -, hw⟩ := h.built.tiles.mem hp
    exact hw.size
  refine ⟨fun f hf => ?_, fun f hf => ?_, ?_, ?_, ?_⟩
  · obtain ⟨p, hp, heq⟩ := hfile f hf
    rw [← (Prod.mk.inj heq).1]
    exact h.legal p hp
  · obtain ⟨p, hp, heq⟩ := hfile f hf
    rw [← (Prod.mk.inj heq).2]
    exact hsize p (List.mem_append_left _ hp)
  · rw [← h.root_size]
    exact hsize root (List.mem_append_right _ (List.mem_singleton_self root))
  · have hroot := h.built.inums root (List.mem_append_right _ (List.mem_singleton_self root))
    rw [h.inum] at hroot
    rcases Nat.eq_zero_or_pos placed.length with hz | hpos
    · rw [← h.length_eq, hz]
      exact hroot
    · have hlast : 1 + placed.length ∈ placed.map Placed.inum := by
        rw [h.numbered, List.mem_range'_1]
        omega
      obtain ⟨p, hp, hinum⟩ := List.mem_map.mp hlast
      have := h.built.inums p (List.mem_append_left _ hp)
      rw [hinum, h.length_eq] at this
      omega
  · rw [← h.freeb]
    exact h.built.journal

/-- **What `mkchickadeefs` accepts**: it makes an image of what fits, and of nothing else. -/
theorem mkfs_isSome_iff {o : Options} {boot : Option (List UInt8)} (ho : o.Ok)
    (hlayout : layout o = some sb) (hdata : sb.dataBn ≤ sb.nblocks)
    (hboot : (bootBlock boot).isSome) : (mkfs o boot files).isSome ↔ Fits sb files := by
  constructor
  · intro h
    obtain ⟨⟨sb', im⟩, h⟩ := Option.isSome_iff_exists.mp h
    obtain ⟨-, -, placed, root, hb⟩ := mkfs_built ho h
    obtain rfl := Option.some.inj (hlayout.symm.trans (layout_of_mkfs h))
    exact hb.fits_in
  · intro h
    have g := layout_geometry ho hlayout hdata
    obtain ⟨mb, hboot⟩ := Option.isSome_iff_exists.mp hboot
    obtain ⟨im₀, hstart⟩ : ∃ im₀, start sb boot = some im₀ := by
      unfold start
      rw [if_pos hdata, hboot]
      exact ⟨_, rfl⟩
    obtain ⟨-, hfree, -, -, hbuilt⟩ := @start_spec sb im₀ (o.firstData ≠ 0) boot hstart
    have hblocks := h.blocks
    have hroot := rootSize_blocks files.length
    have hinodes := h.inodes
    unfold usedBlocks at hblocks
    obtain ⟨im₁, hfiles, hfree₁⟩ := @addFiles_fits sb _ (o.firstData ≠ 0) g files _ im₀ [] []
      (hbuilt g) (fun _ => rfl) (fun f hf => ⟨h.legal f hf, h.size f hf⟩)
      (by rw [(hbuilt g).freeinode]; exact hinodes) (by omega)
    obtain ⟨placed, h₁⟩ := addFiles_spec g (hbuilt g) (fun _ => rfl) hfiles
    have hlen : placed.length = files.length := by
      have := congrArg List.length h₁.files
      rwa [List.nil_append, List.length_map, List.length_map] at this
    obtain ⟨im₂, haddRoot⟩ := addRoot_fits h₁ (by omega) (hlen ▸ h.rootSize) (by rw [hlen]; omega)
    unfold mkfs
    rw [hlayout, Option.bind_eq_bind, Option.bind_some, hstart, Option.bind_eq_bind,
      Option.bind_some, hfiles, Option.bind_some, haddRoot]
    rfl

/-! ## A file with an indirect block -/

/-- A file of 20 bytes, and one with a byte in its indirect block. -/
def smallAndLarge : List InputFile :=
  [⟨[66], List.replicate 20 8, by decide⟩, ⟨[65], List.replicate 36865 7, by decide⟩]

theorem options64_ok : (⟨64, 0, 0, 0, 16⟩ : Options).Ok := by
  unfold BlockAlloc.Options.Ok
  decide

/-- The first file has block 16, the second one has eleven blocks, and the directory has one. -/
theorem smallAndLarge_built : ∃ sb im, mkfs ⟨64, 0, 0, 0, 16⟩ none smallAndLarge = some (sb, im) ∧
    sb.ninodes = 896 := by
  obtain ⟨sb, hlayout, hsb⟩ := Option.map_eq_some_iff.mp
    (show (layout ⟨64, 0, 0, 0, 16⟩).map (fun sb =>
    (sb.ninodes, sb.dataBn, sb.nblocks, sb.journalBn)) = some (896, 16, 64, 64) from rfl)
  simp only [Prod.mk.injEq] at hsb
  obtain ⟨hninodes, hdata, hnblocks, hjournal⟩ := hsb
  have hsmall : blocksFor (List.replicate 20 (8 : UInt8)).length = 1 := by
    rw [List.length_replicate]
    rfl
  have hlarge : blocksFor (List.replicate 36865 (7 : UInt8)).length = 11 := by
    rw [List.length_replicate]
    rfl
  have hfits : Fits sb smallAndLarge := by
    refine ⟨?_, ?_, by decide, by rw [hninodes]; decide, ?_⟩
    · rw [smallAndLarge, List.forall_mem_cons, List.forall_mem_singleton]
      exact ⟨rfl, rfl⟩
    · rw [smallAndLarge, List.forall_mem_cons, List.forall_mem_singleton, List.length_replicate,
        List.length_replicate]
      decide
    · unfold usedBlocks smallAndLarge
      rw [List.map_cons, List.map_cons, List.map_nil, hsmall, hlarge, hdata, hjournal]
      decide
  have hsome :=
    (@mkfs_isSome_iff sb smallAndLarge _ none options64_ok hlayout (by rw [hdata, hnblocks]; decide)
      rfl).mpr hfits
  obtain ⟨⟨sb', im⟩, h⟩ := Option.isSome_iff_exists.mp hsome
  obtain rfl := Option.some.inj (hlayout.symm.trans (layout_of_mkfs h))
  exact ⟨sb, im, h, hninodes⟩

end PugOS.Mkfs
