import PugOS.JournalReplay
import PugOS.ShiftRegister

/-! # The checksum of the journal

`crc32c` goes through a buffer four bytes at a time, with a table for each of the four, and byte by
byte up to the first aligned address and at the end.  What it computes is the plain division, a bit
at a time: the result depends neither on where the buffer is nor on how it is cut into pieces
(`crc32c_chunks`).

So a burst of at most 32 bits cannot go unnoticed.  When a metablock with checksums is accepted from
a journal that a burst has hit, nothing of what the replay takes from it has been hit
(`analyze_undamaged`).
-/
namespace PugOS.Journal
open Bytes Ring ShiftRegister

/-- The Castagnoli polynomial, as the register has it. -/
def castagnoli : Nat := 0x82F63B78

/-- The bits of a buffer, in the order in which they are divided. -/
def messageBits (buf : List UInt8) : List Bool := buf.flatMap fun a => bits 8 a.toNat

/-- The loop over the initial unaligned bytes, of a buffer at `cbuf`: the remainder, and the bytes
that are left. -/
def crc32cHead : Nat → Nat → List UInt8 → Nat × List UInt8
  | _, crc0, [] => (crc0, [])
  | cbuf, crc0, a :: buf =>
    if cbuf % 4 ≠ 0 then crc32cHead (cbuf + 1) (crc32cByte crc0 a) buf else (crc0, a :: buf)

/-- `crc32c(crc, buf, len)`, for the bytes at `cbuf`. -/
def crc32cAt (cbuf crc : Nat) (buf : List UInt8) : Nat :=
  let (crc0, buf) := crc32cHead cbuf (crc ^^^ 0xFFFFFFFF) buf
  crc32cLoop crc0 buf ^^^ 0xFFFFFFFF

/-! ## The tables -/

section Tables
variable {crc0 : Nat} {buf : List UInt8}

theorem castagnoli_divisor : Divisor 32 castagnoli := ⟨by decide, by decide⟩

theorem crcShift8_steps (c : Nat) : crcShift8 c = steps castagnoli 8 c := rfl

theorem crc32cLookup_steps (k i : Nat) : crc32cLookup k i = steps castagnoli (8 * k + 8) i := by
  induction k with
  | zero => rfl
  | succ k ih => rw [crc32cLookup, crcShift8_steps, ih, Nat.mul_succ, ← steps_add]

/-- The table `crc32c_lookup`. -/
def crc32cTable : List (List Nat) := [
  [ 0x00000000, 0xf26b8303, 0xe13b70f7, 0x1350f3f4, 0xc79a971f, 0x35f1141c, 0x26a1e7e8, 0xd4ca64eb,
    0x8ad958cf, 0x78b2dbcc, 0x6be22838, 0x9989ab3b, 0x4d43cfd0, 0xbf284cd3, 0xac78bf27, 0x5e133c24,
    0x105ec76f, 0xe235446c, 0xf165b798, 0x030e349b, 0xd7c45070, 0x25afd373, 0x36ff2087, 0xc494a384,
    0x9a879fa0, 0x68ec1ca3, 0x7bbcef57, 0x89d76c54, 0x5d1d08bf, 0xaf768bbc, 0xbc267848, 0x4e4dfb4b,
    0x20bd8ede, 0xd2d60ddd, 0xc186fe29, 0x33ed7d2a, 0xe72719c1, 0x154c9ac2, 0x061c6936, 0xf477ea35,
    0xaa64d611, 0x580f5512, 0x4b5fa6e6, 0xb93425e5, 0x6dfe410e, 0x9f95c20d, 0x8cc531f9, 0x7eaeb2fa,
    0x30e349b1, 0xc288cab2, 0xd1d83946, 0x23b3ba45, 0xf779deae, 0x05125dad, 0x1642ae59, 0xe4292d5a,
    0xba3a117e, 0x4851927d, 0x5b016189, 0xa96ae28a, 0x7da08661, 0x8fcb0562, 0x9c9bf696, 0x6ef07595,
    0x417b1dbc, 0xb3109ebf, 0xa0406d4b, 0x522bee48, 0x86e18aa3, 0x748a09a0, 0x67dafa54, 0x95b17957,
    0xcba24573, 0x39c9c670, 0x2a993584, 0xd8f2b687, 0x0c38d26c, 0xfe53516f, 0xed03a29b, 0x1f682198,
    0x5125dad3, 0xa34e59d0, 0xb01eaa24, 0x42752927, 0x96bf4dcc, 0x64d4cecf, 0x77843d3b, 0x85efbe38,
    0xdbfc821c, 0x2997011f, 0x3ac7f2eb, 0xc8ac71e8, 0x1c661503, 0xee0d9600, 0xfd5d65f4, 0x0f36e6f7,
    0x61c69362, 0x93ad1061, 0x80fde395, 0x72966096, 0xa65c047d, 0x5437877e, 0x4767748a, 0xb50cf789,
    0xeb1fcbad, 0x197448ae, 0x0a24bb5a, 0xf84f3859, 0x2c855cb2, 0xdeeedfb1, 0xcdbe2c45, 0x3fd5af46,
    0x7198540d, 0x83f3d70e, 0x90a324fa, 0x62c8a7f9, 0xb602c312, 0x44694011, 0x5739b3e5, 0xa55230e6,
    0xfb410cc2, 0x092a8fc1, 0x1a7a7c35, 0xe811ff36, 0x3cdb9bdd, 0xceb018de, 0xdde0eb2a, 0x2f8b6829,
    0x82f63b78, 0x709db87b, 0x63cd4b8f, 0x91a6c88c, 0x456cac67, 0xb7072f64, 0xa457dc90, 0x563c5f93,
    0x082f63b7, 0xfa44e0b4, 0xe9141340, 0x1b7f9043, 0xcfb5f4a8, 0x3dde77ab, 0x2e8e845f, 0xdce5075c,
    0x92a8fc17, 0x60c37f14, 0x73938ce0, 0x81f80fe3, 0x55326b08, 0xa759e80b, 0xb4091bff, 0x466298fc,
    0x1871a4d8, 0xea1a27db, 0xf94ad42f, 0x0b21572c, 0xdfeb33c7, 0x2d80b0c4, 0x3ed04330, 0xccbbc033,
    0xa24bb5a6, 0x502036a5, 0x4370c551, 0xb11b4652, 0x65d122b9, 0x97baa1ba, 0x84ea524e, 0x7681d14d,
    0x2892ed69, 0xdaf96e6a, 0xc9a99d9e, 0x3bc21e9d, 0xef087a76, 0x1d63f975, 0x0e330a81, 0xfc588982,
    0xb21572c9, 0x407ef1ca, 0x532e023e, 0xa145813d, 0x758fe5d6, 0x87e466d5, 0x94b49521, 0x66df1622,
    0x38cc2a06, 0xcaa7a905, 0xd9f75af1, 0x2b9cd9f2, 0xff56bd19, 0x0d3d3e1a, 0x1e6dcdee, 0xec064eed,
    0xc38d26c4, 0x31e6a5c7, 0x22b65633, 0xd0ddd530, 0x0417b1db, 0xf67c32d8, 0xe52cc12c, 0x1747422f,
    0x49547e0b, 0xbb3ffd08, 0xa86f0efc, 0x5a048dff, 0x8ecee914, 0x7ca56a17, 0x6ff599e3, 0x9d9e1ae0,
    0xd3d3e1ab, 0x21b862a8, 0x32e8915c, 0xc083125f, 0x144976b4, 0xe622f5b7, 0xf5720643, 0x07198540,
    0x590ab964, 0xab613a67, 0xb831c993, 0x4a5a4a90, 0x9e902e7b, 0x6cfbad78, 0x7fab5e8c, 0x8dc0dd8f,
    0xe330a81a, 0x115b2b19, 0x020bd8ed, 0xf0605bee, 0x24aa3f05, 0xd6c1bc06, 0xc5914ff2, 0x37faccf1,
    0x69e9f0d5, 0x9b8273d6, 0x88d28022, 0x7ab90321, 0xae7367ca, 0x5c18e4c9, 0x4f48173d, 0xbd23943e,
    0xf36e6f75, 0x0105ec76, 0x12551f82, 0xe03e9c81, 0x34f4f86a, 0xc69f7b69, 0xd5cf889d, 0x27a40b9e,
    0x79b737ba, 0x8bdcb4b9, 0x988c474d, 0x6ae7c44e, 0xbe2da0a5, 0x4c4623a6, 0x5f16d052, 0xad7d5351],
  [ 0x00000000, 0x13a29877, 0x274530ee, 0x34e7a899, 0x4e8a61dc, 0x5d28f9ab, 0x69cf5132, 0x7a6dc945,
    0x9d14c3b8, 0x8eb65bcf, 0xba51f356, 0xa9f36b21, 0xd39ea264, 0xc03c3a13, 0xf4db928a, 0xe7790afd,
    0x3fc5f181, 0x2c6769f6, 0x1880c16f, 0x0b225918, 0x714f905d, 0x62ed082a, 0x560aa0b3, 0x45a838c4,
    0xa2d13239, 0xb173aa4e, 0x859402d7, 0x96369aa0, 0xec5b53e5, 0xfff9cb92, 0xcb1e630b, 0xd8bcfb7c,
    0x7f8be302, 0x6c297b75, 0x58ced3ec, 0x4b6c4b9b, 0x310182de, 0x22a31aa9, 0x1644b230, 0x05e62a47,
    0xe29f20ba, 0xf13db8cd, 0xc5da1054, 0xd6788823, 0xac154166, 0xbfb7d911, 0x8b507188, 0x98f2e9ff,
    0x404e1283, 0x53ec8af4, 0x670b226d, 0x74a9ba1a, 0x0ec4735f, 0x1d66eb28, 0x298143b1, 0x3a23dbc6,
    0xdd5ad13b, 0xcef8494c, 0xfa1fe1d5, 0xe9bd79a2, 0x93d0b0e7, 0x80722890, 0xb4958009, 0xa737187e,
    0xff17c604, 0xecb55e73, 0xd852f6ea, 0xcbf06e9d, 0xb19da7d8, 0xa23f3faf, 0x96d89736, 0x857a0f41,
    0x620305bc, 0x71a19dcb, 0x45463552, 0x56e4ad25, 0x2c896460, 0x3f2bfc17, 0x0bcc548e, 0x186eccf9,
    0xc0d23785, 0xd370aff2, 0xe797076b, 0xf4359f1c, 0x8e585659, 0x9dface2e, 0xa91d66b7, 0xbabffec0,
    0x5dc6f43d, 0x4e646c4a, 0x7a83c4d3, 0x69215ca4, 0x134c95e1, 0x00ee0d96, 0x3409a50f, 0x27ab3d78,
    0x809c2506, 0x933ebd71, 0xa7d915e8, 0xb47b8d9f, 0xce1644da, 0xddb4dcad, 0xe9537434, 0xfaf1ec43,
    0x1d88e6be, 0x0e2a7ec9, 0x3acdd650, 0x296f4e27, 0x53028762, 0x40a01f15, 0x7447b78c, 0x67e52ffb,
    0xbf59d487, 0xacfb4cf0, 0x981ce469, 0x8bbe7c1e, 0xf1d3b55b, 0xe2712d2c, 0xd69685b5, 0xc5341dc2,
    0x224d173f, 0x31ef8f48, 0x050827d1, 0x16aabfa6, 0x6cc776e3, 0x7f65ee94, 0x4b82460d, 0x5820de7a,
    0xfbc3faf9, 0xe861628e, 0xdc86ca17, 0xcf245260, 0xb5499b25, 0xa6eb0352, 0x920cabcb, 0x81ae33bc,
    0x66d73941, 0x7575a136, 0x419209af, 0x523091d8, 0x285d589d, 0x3bffc0ea, 0x0f186873, 0x1cbaf004,
    0xc4060b78, 0xd7a4930f, 0xe3433b96, 0xf0e1a3e1, 0x8a8c6aa4, 0x992ef2d3, 0xadc95a4a, 0xbe6bc23d,
    0x5912c8c0, 0x4ab050b7, 0x7e57f82e, 0x6df56059, 0x1798a91c, 0x043a316b, 0x30dd99f2, 0x237f0185,
    0x844819fb, 0x97ea818c, 0xa30d2915, 0xb0afb162, 0xcac27827, 0xd960e050, 0xed8748c9, 0xfe25d0be,
    0x195cda43, 0x0afe4234, 0x3e19eaad, 0x2dbb72da, 0x57d6bb9f, 0x447423e8, 0x70938b71, 0x63311306,
    0xbb8de87a, 0xa82f700d, 0x9cc8d894, 0x8f6a40e3, 0xf50789a6, 0xe6a511d1, 0xd242b948, 0xc1e0213f,
    0x26992bc2, 0x353bb3b5, 0x01dc1b2c, 0x127e835b, 0x68134a1e, 0x7bb1d269, 0x4f567af0, 0x5cf4e287,
    0x04d43cfd, 0x1776a48a, 0x23910c13, 0x30339464, 0x4a5e5d21, 0x59fcc556, 0x6d1b6dcf, 0x7eb9f5b8,
    0x99c0ff45, 0x8a626732, 0xbe85cfab, 0xad2757dc, 0xd74a9e99, 0xc4e806ee, 0xf00fae77, 0xe3ad3600,
    0x3b11cd7c, 0x28b3550b, 0x1c54fd92, 0x0ff665e5, 0x759baca0, 0x663934d7, 0x52de9c4e, 0x417c0439,
    0xa6050ec4, 0xb5a796b3, 0x81403e2a, 0x92e2a65d, 0xe88f6f18, 0xfb2df76f, 0xcfca5ff6, 0xdc68c781,
    0x7b5fdfff, 0x68fd4788, 0x5c1aef11, 0x4fb87766, 0x35d5be23, 0x26772654, 0x12908ecd, 0x013216ba,
    0xe64b1c47, 0xf5e98430, 0xc10e2ca9, 0xd2acb4de, 0xa8c17d9b, 0xbb63e5ec, 0x8f844d75, 0x9c26d502,
    0x449a2e7e, 0x5738b609, 0x63df1e90, 0x707d86e7, 0x0a104fa2, 0x19b2d7d5, 0x2d557f4c, 0x3ef7e73b,
    0xd98eedc6, 0xca2c75b1, 0xfecbdd28, 0xed69455f, 0x97048c1a, 0x84a6146d, 0xb041bcf4, 0xa3e32483],
  [ 0x00000000, 0xa541927e, 0x4f6f520d, 0xea2ec073, 0x9edea41a, 0x3b9f3664, 0xd1b1f617, 0x74f06469,
    0x38513ec5, 0x9d10acbb, 0x773e6cc8, 0xd27ffeb6, 0xa68f9adf, 0x03ce08a1, 0xe9e0c8d2, 0x4ca15aac,
    0x70a27d8a, 0xd5e3eff4, 0x3fcd2f87, 0x9a8cbdf9, 0xee7cd990, 0x4b3d4bee, 0xa1138b9d, 0x045219e3,
    0x48f3434f, 0xedb2d131, 0x079c1142, 0xa2dd833c, 0xd62de755, 0x736c752b, 0x9942b558, 0x3c032726,
    0xe144fb14, 0x4405696a, 0xae2ba919, 0x0b6a3b67, 0x7f9a5f0e, 0xdadbcd70, 0x30f50d03, 0x95b49f7d,
    0xd915c5d1, 0x7c5457af, 0x967a97dc, 0x333b05a2, 0x47cb61cb, 0xe28af3b5, 0x08a433c6, 0xade5a1b8,
    0x91e6869e, 0x34a714e0, 0xde89d493, 0x7bc846ed, 0x0f382284, 0xaa79b0fa, 0x40577089, 0xe516e2f7,
    0xa9b7b85b, 0x0cf62a25, 0xe6d8ea56, 0x43997828, 0x37691c41, 0x92288e3f, 0x78064e4c, 0xdd47dc32,
    0xc76580d9, 0x622412a7, 0x880ad2d4, 0x2d4b40aa, 0x59bb24c3, 0xfcfab6bd, 0x16d476ce, 0xb395e4b0,
    0xff34be1c, 0x5a752c62, 0xb05bec11, 0x151a7e6f, 0x61ea1a06, 0xc4ab8878, 0x2e85480b, 0x8bc4da75,
    0xb7c7fd53, 0x12866f2d, 0xf8a8af5e, 0x5de93d20, 0x29195949, 0x8c58cb37, 0x66760b44, 0xc337993a,
    0x8f96c396, 0x2ad751e8, 0xc0f9919b, 0x65b803e5, 0x1148678c, 0xb409f5f2, 0x5e273581, 0xfb66a7ff,
    0x26217bcd, 0x8360e9b3, 0x694e29c0, 0xcc0fbbbe, 0xb8ffdfd7, 0x1dbe4da9, 0xf7908dda, 0x52d11fa4,
    0x1e704508, 0xbb31d776, 0x511f1705, 0xf45e857b, 0x80aee112, 0x25ef736c, 0xcfc1b31f, 0x6a802161,
    0x56830647, 0xf3c29439, 0x19ec544a, 0xbcadc634, 0xc85da25d, 0x6d1c3023, 0x8732f050, 0x2273622e,
    0x6ed23882, 0xcb93aafc, 0x21bd6a8f, 0x84fcf8f1, 0xf00c9c98, 0x554d0ee6, 0xbf63ce95, 0x1a225ceb,
    0x8b277743, 0x2e66e53d, 0xc448254e, 0x6109b730, 0x15f9d359, 0xb0b84127, 0x5a968154, 0xffd7132a,
    0xb3764986, 0x1637dbf8, 0xfc191b8b, 0x595889f5, 0x2da8ed9c, 0x88e97fe2, 0x62c7bf91, 0xc7862def,
    0xfb850ac9, 0x5ec498b7, 0xb4ea58c4, 0x11abcaba, 0x655baed3, 0xc01a3cad, 0x2a34fcde, 0x8f756ea0,
    0xc3d4340c, 0x6695a672, 0x8cbb6601, 0x29faf47f, 0x5d0a9016, 0xf84b0268, 0x1265c21b, 0xb7245065,
    0x6a638c57, 0xcf221e29, 0x250cde5a, 0x804d4c24, 0xf4bd284d, 0x51fcba33, 0xbbd27a40, 0x1e93e83e,
    0x5232b292, 0xf77320ec, 0x1d5de09f, 0xb81c72e1, 0xccec1688, 0x69ad84f6, 0x83834485, 0x26c2d6fb,
    0x1ac1f1dd, 0xbf8063a3, 0x55aea3d0, 0xf0ef31ae, 0x841f55c7, 0x215ec7b9, 0xcb7007ca, 0x6e3195b4,
    0x2290cf18, 0x87d15d66, 0x6dff9d15, 0xc8be0f6b, 0xbc4e6b02, 0x190ff97c, 0xf321390f, 0x5660ab71,
    0x4c42f79a, 0xe90365e4, 0x032da597, 0xa66c37e9, 0xd29c5380, 0x77ddc1fe, 0x9df3018d, 0x38b293f3,
    0x7413c95f, 0xd1525b21, 0x3b7c9b52, 0x9e3d092c, 0xeacd6d45, 0x4f8cff3b, 0xa5a23f48, 0x00e3ad36,
    0x3ce08a10, 0x99a1186e, 0x738fd81d, 0xd6ce4a63, 0xa23e2e0a, 0x077fbc74, 0xed517c07, 0x4810ee79,
    0x04b1b4d5, 0xa1f026ab, 0x4bdee6d8, 0xee9f74a6, 0x9a6f10cf, 0x3f2e82b1, 0xd50042c2, 0x7041d0bc,
    0xad060c8e, 0x08479ef0, 0xe2695e83, 0x4728ccfd, 0x33d8a894, 0x96993aea, 0x7cb7fa99, 0xd9f668e7,
    0x9557324b, 0x3016a035, 0xda386046, 0x7f79f238, 0x0b899651, 0xaec8042f, 0x44e6c45c, 0xe1a75622,
    0xdda47104, 0x78e5e37a, 0x92cb2309, 0x378ab177, 0x437ad51e, 0xe63b4760, 0x0c158713, 0xa954156d,
    0xe5f54fc1, 0x40b4ddbf, 0xaa9a1dcc, 0x0fdb8fb2, 0x7b2bebdb, 0xde6a79a5, 0x3444b9d6, 0x91052ba8],
  [ 0x00000000, 0xdd45aab8, 0xbf672381, 0x62228939, 0x7b2231f3, 0xa6679b4b, 0xc4451272, 0x1900b8ca,
    0xf64463e6, 0x2b01c95e, 0x49234067, 0x9466eadf, 0x8d665215, 0x5023f8ad, 0x32017194, 0xef44db2c,
    0xe964b13d, 0x34211b85, 0x560392bc, 0x8b463804, 0x924680ce, 0x4f032a76, 0x2d21a34f, 0xf06409f7,
    0x1f20d2db, 0xc2657863, 0xa047f15a, 0x7d025be2, 0x6402e328, 0xb9474990, 0xdb65c0a9, 0x06206a11,
    0xd725148b, 0x0a60be33, 0x6842370a, 0xb5079db2, 0xac072578, 0x71428fc0, 0x136006f9, 0xce25ac41,
    0x2161776d, 0xfc24ddd5, 0x9e0654ec, 0x4343fe54, 0x5a43469e, 0x8706ec26, 0xe524651f, 0x3861cfa7,
    0x3e41a5b6, 0xe3040f0e, 0x81268637, 0x5c632c8f, 0x45639445, 0x98263efd, 0xfa04b7c4, 0x27411d7c,
    0xc805c650, 0x15406ce8, 0x7762e5d1, 0xaa274f69, 0xb327f7a3, 0x6e625d1b, 0x0c40d422, 0xd1057e9a,
    0xaba65fe7, 0x76e3f55f, 0x14c17c66, 0xc984d6de, 0xd0846e14, 0x0dc1c4ac, 0x6fe34d95, 0xb2a6e72d,
    0x5de23c01, 0x80a796b9, 0xe2851f80, 0x3fc0b538, 0x26c00df2, 0xfb85a74a, 0x99a72e73, 0x44e284cb,
    0x42c2eeda, 0x9f874462, 0xfda5cd5b, 0x20e067e3, 0x39e0df29, 0xe4a57591, 0x8687fca8, 0x5bc25610,
    0xb4868d3c, 0x69c32784, 0x0be1aebd, 0xd6a40405, 0xcfa4bccf, 0x12e11677, 0x70c39f4e, 0xad8635f6,
    0x7c834b6c, 0xa1c6e1d4, 0xc3e468ed, 0x1ea1c255, 0x07a17a9f, 0xdae4d027, 0xb8c6591e, 0x6583f3a6,
    0x8ac7288a, 0x57828232, 0x35a00b0b, 0xe8e5a1b3, 0xf1e51979, 0x2ca0b3c1, 0x4e823af8, 0x93c79040,
    0x95e7fa51, 0x48a250e9, 0x2a80d9d0, 0xf7c57368, 0xeec5cba2, 0x3380611a, 0x51a2e823, 0x8ce7429b,
    0x63a399b7, 0xbee6330f, 0xdcc4ba36, 0x0181108e, 0x1881a844, 0xc5c402fc, 0xa7e68bc5, 0x7aa3217d,
    0x52a0c93f, 0x8fe56387, 0xedc7eabe, 0x30824006, 0x2982f8cc, 0xf4c75274, 0x96e5db4d, 0x4ba071f5,
    0xa4e4aad9, 0x79a10061, 0x1b838958, 0xc6c623e0, 0xdfc69b2a, 0x02833192, 0x60a1b8ab, 0xbde41213,
    0xbbc47802, 0x6681d2ba, 0x04a35b83, 0xd9e6f13b, 0xc0e649f1, 0x1da3e349, 0x7f816a70, 0xa2c4c0c8,
    0x4d801be4, 0x90c5b15c, 0xf2e73865, 0x2fa292dd, 0x36a22a17, 0xebe780af, 0x89c50996, 0x5480a32e,
    0x8585ddb4, 0x58c0770c, 0x3ae2fe35, 0xe7a7548d, 0xfea7ec47, 0x23e246ff, 0x41c0cfc6, 0x9c85657e,
    0x73c1be52, 0xae8414ea, 0xcca69dd3, 0x11e3376b, 0x08e38fa1, 0xd5a62519, 0xb784ac20, 0x6ac10698,
    0x6ce16c89, 0xb1a4c631, 0xd3864f08, 0x0ec3e5b0, 0x17c35d7a, 0xca86f7c2, 0xa8a47efb, 0x75e1d443,
    0x9aa50f6f, 0x47e0a5d7, 0x25c22cee, 0xf8878656, 0xe1873e9c, 0x3cc29424, 0x5ee01d1d, 0x83a5b7a5,
    0xf90696d8, 0x24433c60, 0x4661b559, 0x9b241fe1, 0x8224a72b, 0x5f610d93, 0x3d4384aa, 0xe0062e12,
    0x0f42f53e, 0xd2075f86, 0xb025d6bf, 0x6d607c07, 0x7460c4cd, 0xa9256e75, 0xcb07e74c, 0x16424df4,
    0x106227e5, 0xcd278d5d, 0xaf050464, 0x7240aedc, 0x6b401616, 0xb605bcae, 0xd4273597, 0x09629f2f,
    0xe6264403, 0x3b63eebb, 0x59416782, 0x8404cd3a, 0x9d0475f0, 0x4041df48, 0x22635671, 0xff26fcc9,
    0x2e238253, 0xf36628eb, 0x9144a1d2, 0x4c010b6a, 0x5501b3a0, 0x88441918, 0xea669021, 0x37233a99,
    0xd867e1b5, 0x05224b0d, 0x6700c234, 0xba45688c, 0xa345d046, 0x7e007afe, 0x1c22f3c7, 0xc167597f,
    0xc747336e, 0x1a0299d6, 0x782010ef, 0xa565ba57, 0xbc65029d, 0x6120a825, 0x0302211c, 0xde478ba4,
    0x31035088, 0xec46fa30, 0x8e647309, 0x5321d9b1, 0x4a21617b, 0x9764cbc3, 0xf54642fa, 0x2803e842]]

/-- The table is what `crc32cLookup` computes. -/
theorem crc32cTable_eq : crc32cTable = (List.range 4).map fun k =>
    (List.range 256).map (crc32cLookup k) := by
  decide +kernel

theorem and_byte (x : Nat) : x &&& 0xFF = x % 2 ^ 8 := Nat.and_two_pow_sub_one_eq_mod x 8

/-- A byte is taken with the first table. -/
theorem crc32cByte_steps (crc0 : Nat) (a : UInt8) :
    crc32cByte crc0 a = steps castagnoli 8 (crc0 ^^^ a.toNat) := by
  have ha : a.toNat < 2 ^ 8 := a.toNat_lt
  have hdiv : (crc0 ^^^ a.toNat) / 2 ^ 8 = crc0 >>> 8 := by
    rw [Nat.xor_div_two_pow, Nat.div_eq_of_lt ha, Nat.xor_zero, Nat.shiftRight_eq_div_pow]
  have hmod : (crc0 ^^^ a.toNat) % 2 ^ 8 = (crc0 &&& 0xFF) ^^^ a.toNat := by
    rw [Nat.xor_mod_two_pow, Nat.mod_eq_of_lt ha, and_byte]
  have hsplit := steps_split castagnoli 8 0 (crc0 ^^^ a.toNat)
  rw [hdiv, hmod, steps] at hsplit
  exact hsplit.symm

/-- A number of 32 bits is divided with the four tables. -/
theorem lookup_slice {x : Nat} (hx : x < 2 ^ 32) :
    crc32cLookup 0 ((x >>> 24) &&& 0xFF) ^^^ crc32cLookup 1 ((x >>> 16) &&& 0xFF) ^^^ crc32cLookup 2
      ((x >>> 8) &&& 0xFF) ^^^ crc32cLookup 3 (x &&& 0xFF) = steps castagnoli 32 x := by
  have h₁ := steps_split castagnoli 8 24 x
  have h₂ := steps_split castagnoli 8 16 (x / 2 ^ 8)
  have h₃ := steps_split castagnoli 8 8 (x / 2 ^ 8 / 2 ^ 8)
  have h24 : (x >>> 24) &&& 0xFF = x / 2 ^ 8 / 2 ^ 8 / 2 ^ 8 := by
    rw [and_byte, Nat.shiftRight_eq_div_pow]
    omega
  have h16 : (x >>> 16) &&& 0xFF = x / 2 ^ 8 / 2 ^ 8 % 2 ^ 8 := by
    rw [and_byte, Nat.shiftRight_eq_div_pow]
    omega
  have h8 : (x >>> 8) &&& 0xFF = x / 2 ^ 8 % 2 ^ 8 := by
    rw [and_byte, Nat.shiftRight_eq_div_pow]
  rw [crc32cLookup_steps, crc32cLookup_steps, crc32cLookup_steps, crc32cLookup_steps, h24, h16, h8,
    and_byte]
  change _ = steps castagnoli (8 + 24) x
  rw [h₁, show (24 : Nat) = 8 + 16 from rfl, h₂, show (16 : Nat) = 8 + 8 from rfl, h₃]

theorem messageBits_cons (a : UInt8) (buf : List UInt8) : messageBits (a :: buf) = bits 8 a.toNat ++
    messageBits buf := rfl

theorem messageBits_append (buf buf' : List UInt8) : messageBits (buf ++ buf') = messageBits buf ++
    messageBits buf' := List.flatMap_append

/-- **Four bytes at once.** -/
theorem crc32cSlice_feed (h : crc0 < 2 ^ 32) (a b c d : UInt8) :
    crc32cSlice crc0 a b c d = feed castagnoli crc0 (messageBits [a, b, c, d]) := by
  have ha : a.toNat < 2 ^ 8 := a.toNat_lt
  have hb : b.toNat < 2 ^ 8 := b.toNat_lt
  have hc : c.toNat < 2 ^ 8 := c.toNat_lt
  have hd : d.toNat < 2 ^ 8 := d.toNat_lt
  generalize hv : a.toNat + 256 * b.toNat + 65536 * c.toNat + 16777216 * d.toNat = v
  have hlt : v < 2 ^ 32 := by omega
  -- the bits of the four bytes are those of the number they make
  have hbits : messageBits [a, b, c, d] = bits 32 v := by
    have h₃ : bits (8 + 8) (c.toNat + 2 ^ 8 * d.toNat) = bits 8 c.toNat ++ bits 8 d.toNat :=
      bits_add hc _
    have h₂ : bits (8 + 16) (b.toNat + 2 ^ 8 * (c.toNat + 2 ^ 8 * d.toNat)) = bits 8 b.toNat ++
        bits (8 + 8) _ := bits_add hb _
    have h₁ : bits (8 + 24) (a.toNat + 2 ^ 8 * (b.toNat + 2 ^ 8 * (c.toNat + 2 ^ 8 * d.toNat))) =
        bits 8 a.toNat ++ bits (8 + 16) _ :=
      bits_add ha _
    have hsum : v = a.toNat + 2 ^ 8 * (b.toNat + 2 ^ 8 * (c.toNat + 2 ^ 8 * d.toNat)) := by omega
    rw [hsum]
    change _ = bits (8 + 24) _
    rw [h₁, h₂, h₃]
    rfl
  rw [hbits, feed_bits _ _ hlt, ← lookup_slice (Nat.xor_lt_two_pow h hlt)]
  unfold crc32cSlice
  rw [hv]

theorem crc32cByte_feed (crc0 : Nat) (a : UInt8) :
    crc32cByte crc0 a = feed castagnoli crc0 (bits 8 a.toNat) := by
  rw [crc32cByte_steps, feed_bits _ _ a.toNat_lt]

theorem foldl_byte (buf : List UInt8) (crc0 : Nat) :
    buf.foldl crc32cByte crc0 = feed castagnoli crc0 (messageBits buf) := by
  induction buf generalizing crc0 with
  | nil => rfl
  | cons a buf ih => rw [List.foldl_cons, ih, crc32cByte_feed, messageBits_cons, feed_append]

/-- **The four-byte slices and the final bytes.** -/
theorem crc32cLoop_feed (h : crc0 < 2 ^ 32) (buf : List UInt8) :
    crc32cLoop crc0 buf = feed castagnoli crc0 (messageBits buf) := by
  induction crc0, buf using crc32cLoop.induct with
  | case1 crc0 a b c d buf ih =>
    have hslice := crc32cSlice_feed h a b c d
    have hlt : crc32cSlice crc0 a b c d < 2 ^ 32 := hslice ▸ feed_lt castagnoli_divisor h _
    rw [crc32cLoop, ih hlt, hslice, ← feed_append, ← messageBits_append]
    rfl
  | case2 crc0 buf hshort =>
    rw [crc32cLoop.eq_2 crc0 buf hshort, foldl_byte]

/-- The unaligned bytes, and the rest. -/
theorem crc32cHead_eq (cbuf crc0 : Nat) (buf : List UInt8) :
    ∃ s, buf = s ++ (crc32cHead cbuf crc0 buf).2 ∧
    (crc32cHead cbuf crc0 buf).1 = feed castagnoli crc0 (messageBits s) := by
  induction buf generalizing cbuf crc0 with
  | nil => exact ⟨[], rfl, rfl⟩
  | cons a buf ih =>
    unfold crc32cHead
    by_cases halign : cbuf % 4 ≠ 0
    · obtain ⟨s, hbuf, hcrc⟩ := ih (cbuf + 1) (crc32cByte crc0 a)
      rw [if_pos halign]
      refine ⟨a :: s, congrArg (a :: ·) hbuf, ?_⟩
      rw [hcrc, crc32cByte_feed, messageBits_cons, feed_append]
    · rw [if_neg halign]
      exact ⟨[], rfl, rfl⟩

/-- **`crc32c` is the plain division.** -/
theorem crc32cAt_eq (cbuf : Nat) {crc : Nat} (h : crc < 2 ^ 32) (buf : List UInt8) :
    crc32cAt cbuf crc buf = feed castagnoli (crc ^^^ 0xFFFFFFFF) (messageBits buf) ^^^
      0xFFFFFFFF := by
  have hcrc : crc ^^^ 0xFFFFFFFF < 2 ^ 32 := Nat.xor_lt_two_pow h (by decide)
  obtain ⟨s, hbuf, hhead⟩ := crc32cHead_eq cbuf (crc ^^^ 0xFFFFFFFF) buf
  unfold crc32cAt
  dsimp only
  rw [crc32cLoop_feed (hhead ▸ feed_lt castagnoli_divisor hcrc _), hhead, ← feed_append,
    ← messageBits_append, ← hbuf]

theorem crc32c_eq (buf : List UInt8) : crc32c buf = feed castagnoli 0xFFFFFFFF (messageBits buf) ^^^
    0xFFFFFFFF := by
  unfold crc32c
  rw [crc32cLoop_feed (by decide)]

/-- **Pieces of a buffer**, wherever they are: the result of one call is handed to the next, and the
last result is the plain division of all the bytes. -/
theorem crc32c_chunks (chunks : List (Nat × List UInt8)) :
    chunks.foldl (fun crc x => crc32cAt x.1 crc x.2) 0 =
    feed castagnoli 0xFFFFFFFF (messageBits (chunks.flatMap Prod.snd)) ^^^ 0xFFFFFFFF := by
  have hrun : ∀ (chunks : List (Nat × List UInt8)) (c : Nat), c < 2 ^ 32 →
      chunks.foldl (fun crc x => crc32cAt x.1 crc x.2) (c ^^^ 0xFFFFFFFF) =
        feed castagnoli c (messageBits (chunks.flatMap Prod.snd)) ^^^ 0xFFFFFFFF := by
    intro chunks
    induction chunks with
    | nil => exact fun c _ => rfl
    | cons x chunks ih =>
      intro c hc
      rw [List.foldl_cons, crc32cAt_eq _ (Nat.xor_lt_two_pow hc (by decide)),
        Nat.xor_xor_cancel_right, ih _ (feed_lt castagnoli_divisor hc _), List.flatMap_cons,
        messageBits_append, feed_append]
  exact hrun chunks 0xFFFFFFFF (by decide)

end Tables

/-! ## Bursts -/

/-- The buffers differ, and only in 32 bits next to each other. -/
structure Burst (buf buf' : List UInt8) : Prop where
  length : buf.length = buf'.length
  ne : buf ≠ buf'
  window : ∃ o, ∀ i, i < o ∨ o + 32 ≤ i → (messageBits buf)[i]? = (messageBits buf')[i]?

section Bursts
variable {buf buf' s s' : List UInt8}

@[simp] theorem length_messageBits (buf : List UInt8) :
    (messageBits buf).length = 8 * buf.length := by
  induction buf with
  | nil => rfl
  | cons a buf ih =>
    rw [messageBits_cons, List.length_append, length_bits, ih, List.length_cons]
    omega

theorem messageBits_inj (hlen : buf.length = buf'.length) (h : messageBits buf = messageBits buf') :
    buf = buf' := by
  induction buf generalizing buf' with
  | nil => exact (List.eq_nil_of_length_eq_zero hlen.symm).symm
  | cons a buf ih =>
    cases buf' with
    | nil => cases hlen
    | cons a' buf' =>
      obtain ⟨hbits, hrest⟩ := List.append_inj h (by rw [length_bits, length_bits])
      have hbyte := congrArg value hbits
      rw [value_bits a.toNat_lt, value_bits a'.toNat_lt] at hbyte
      rw [UInt8.toNat_inj.mp hbyte, ih (Nat.succ.inj hlen) hrest]

/-- Up to four bytes next to each other have been hit. -/
theorem burst_of_bytes {t u v : List UInt8} (hlen : u.length = v.length) (hfour : u.length ≤ 4)
    (hne : u ≠ v) : Burst (s ++ (u ++ t)) (s ++ (v ++ t)) := by
  refine ⟨by rw [List.length_append, List.length_append, List.length_append, List.length_append,
    hlen], fun heq => ?_, 8 * s.length, fun i hi => ?_⟩
  · exact hne (List.append_cancel_right (List.append_cancel_left heq))
  · rw [messageBits_append, messageBits_append, messageBits_append, messageBits_append]
    have hbits : (messageBits u).length = (messageBits v).length := by
      rw [length_messageBits, length_messageBits, hlen]
    have hs := length_messageBits s
    have hu := length_messageBits u
    rcases hi with hi | hi
    · rw [List.getElem?_append_left (by omega), List.getElem?_append_left (by omega)]
    · rw [List.getElem?_append_right (by omega), List.getElem?_append_right (by omega),
        List.getElem?_append_right (by omega), List.getElem?_append_right (by omega), hbits]

/-- **No burst has the same checksum.** -/
theorem Burst.crc32c_ne (h : Burst buf buf') : crc32c buf ≠ crc32c buf' := by
  intro hcrc
  obtain ⟨o, hsame⟩ := h.window
  have hlen : (messageBits buf).length = (messageBits buf').length := by
    rw [length_messageBits, length_messageBits, h.length]
  refine h.ne (messageBits_inj h.length ?_)
  rw [crc32c_eq, crc32c_eq] at hcrc
  have hfeed := Nat.xor_left_inj.mp hcrc
  generalize messageBits buf = l at hsame hlen hfeed ⊢
  generalize messageBits buf' = l' at hsame hlen hfeed ⊢
  -- before the burst, the burst, and after it
  have hcut : ∀ l : List Bool, l = l.take o ++ (l.drop o).take 32 ++ l.drop (o + 32) := by
    intro l
    rw [← List.drop_drop, List.append_assoc, List.take_append_drop, List.take_append_drop]
  have hbefore : l.take o = l'.take o := by
    refine List.ext_getElem? fun i => ?_
    rw [List.getElem?_take, List.getElem?_take]
    split
    · rename_i hi
      exact hsame i (.inl hi)
    · rfl
  have hafter : l.drop (o + 32) = l'.drop (o + 32) := by
    refine List.ext_getElem? fun i => ?_
    rw [List.getElem?_drop, List.getElem?_drop]
    exact hsame _ (.inr (Nat.le_add_right _ _))
  rw [hcut l, hcut l', ← hbefore, ← hafter] at hfeed
  have hburst := feed_burst castagnoli_divisor (by decide)
    (by rw [List.length_take, List.length_take, List.length_drop, List.length_drop, hlen])
    (by rw [List.length_take]; exact Nat.min_le_left 32 _) hfeed
  rw [hcut l, hcut l', hbefore, hafter, hburst]

/-- A burst that reaches the second part of a buffer begins at most four bytes before it. -/
theorem Burst.right (h : Burst (s ++ buf) (s' ++ buf')) (hs : s.length = s'.length)
    (hne : buf ≠ buf') : Burst buf buf' ∧ ∀ k, k + 4 ≤ s.length → s.take k = s'.take k := by
  obtain ⟨o, hsame⟩ := h.window
  have hlen : buf.length = buf'.length := by
    have hall := h.length
    rw [List.length_append, List.length_append] at hall
    omega
  have hbits : (messageBits s).length = (messageBits s').length := by
    rw [length_messageBits, length_messageBits, hs]
  rw [messageBits_append, messageBits_append] at hsame
  have hright : ∀ i, 8 * s.length + i < o ∨ o + 32 ≤ 8 * s.length + i →
      (messageBits buf)[i]? = (messageBits buf')[i]? := by
    intro i hi
    have hi' := hsame (8 * s.length + i) hi
    rw [← length_messageBits, List.getElem?_append_right (Nat.le_add_right _ _), hbits,
      List.getElem?_append_right (Nat.le_add_right _ _)] at hi'
    simpa using hi'
  -- a bit that has changed
  obtain ⟨i, hi⟩ : ∃ i, (messageBits buf)[i]? ≠ (messageBits buf')[i]? := by
    by_contra hno
    refine hne (messageBits_inj hlen (List.ext_getElem? fun i => ?_))
    by_contra hi
    exact hno ⟨i, hi⟩
  have hin := mt (hright i) hi
  refine ⟨⟨hlen, hne, o - 8 * s.length, fun j hj => hright j (by omega)⟩, fun k hk => ?_⟩
  have htake : (s.take k).length = (s'.take k).length := by
    rw [List.length_take, List.length_take, hs]
  refine messageBits_inj htake (List.ext_getElem? fun j => ?_)
  have hcut : ∀ t : List UInt8, k ≤ t.length → j < 8 * k →
      (messageBits t)[j]? = (messageBits (t.take k))[j]? := by
    intro t ht hj
    have hlt : j < (messageBits (t.take k)).length := by
      rw [length_messageBits, List.length_take]
      omega
    rw [← List.getElem?_append_left hlt, ← messageBits_append, List.take_append_drop]
  by_cases hj : j < 8 * k
  · have hj' := hsame j (.inl (by omega))
    rw [List.getElem?_append_left (by rw [length_messageBits]; omega),
      List.getElem?_append_left (by rw [length_messageBits]; omega)] at hj'
    rwa [hcut s (by omega) hj, hcut s' (by omega) hj] at hj'
  · rw [List.getElem?_eq_none (by rw [length_messageBits, List.length_take]; omega),
      List.getElem?_eq_none (by rw [length_messageBits, List.length_take]; omega)]

end Bursts

/-! ## A damaged journal -/

/-- Metablock `bi` and the blocks it refers to have checksums, and these are right. -/
structure Checksummed (m : Mem) (nb bi : Nat) : Prop where
  potential : isPotentialMetablock m bi = true
  checksum : Journal.checksum m bi ≠ nochecksum
  nref : Journal.nref m bi ≤ refSize
  data : ∀ r < Journal.nref m bi, journaled m bi r →
    bchecksum m bi r ≠ nochecksum ∧ bchecksum m bi r = crc32c (block m (dataBlock m nb bi r))

section Damaged
variable {d m : Mem} {nb b bi k r : Nat} {s : Replayer}

/-- What `analyze_block` has seen of a metablock that it adds to the list. -/
theorem analyzeBlock_adds (hsmall : nb + refSize ≤ 2 ^ 32) (hnb : s.nb = nb) (hlt : bi < nb)
    (hnot : bi ∉ s.mr) (hadd : bi ∈ (analyzeBlock s bi).mr) : isPotentialMetablock s.jd bi = true ∧
    nref s.jd bi ≤ refSize ∧
      ∀ r < nref s.jd bi, journaled s.jd bi r →
      badData s.jd bi r (dataBlock s.jd nb bi r) = false := by
  by_cases hpot : isPotentialMetablock s.jd bi = true
  · rcases analyzeBlock_cases s hpot with ⟨-, hx⟩ | ⟨he, -⟩
    · rw [hx, (scan_scanned s bi).mr] at hadd
      exact absurd hadd hnot
    · obtain ⟨-, hcf, -, -, hnref⟩ := scan_clean he
      refine ⟨hpot, hnref, fun r hr hj => ?_⟩
      have hdata := (scan_scanned s bi).data he r hr
      dsimp only at hdata
      rw [hcf] at hdata
      have hsum : (bi + delta s.jd bi r) % 2 ^ 32 = bi + delta s.jd bi r := by
        have := delta_le s.jd bi r
        exact Nat.mod_eq_of_lt (by omega)
      have hbad := hdata hj
      rw [hsum, hnb] at hbad
      exact hbad
  · unfold analyzeBlock at hadd
    rw [if_neg hpot] at hadd
    exact absurd hadd hnot

/-- A metablock of the list has been added when its block was looked at. -/
theorem mem_blocks (hbi : bi ∈ ((List.range k).foldl analyzeBlock (start d nb)).mr) :
    bi < k ∧ bi ∈ (analyzeBlock ((List.range bi).foldl analyzeBlock (start d nb)) bi).mr := by
  induction k with
  | zero => cases hbi
  | succ k ih =>
    rw [List.range_succ, List.foldl_append, List.foldl_cons, List.foldl_nil] at hbi
    by_cases hold : bi ∈ ((List.range k).foldl analyzeBlock (start d nb)).mr
    · obtain ⟨hlt, hadd⟩ := ih hold
      exact ⟨Nat.lt_succ_of_lt hlt, hadd⟩
    · obtain rfl : bi = k := by
        generalize (List.range k).foldl analyzeBlock (start d nb) = s at hbi hold
        by_contra hne
        by_cases hpot : isPotentialMetablock s.jd k = true
        · rcases analyzeBlock_cases s hpot with ⟨-, hx⟩ | ⟨-, hx⟩
          · rw [hx, (scan_scanned s k).mr] at hbi
            exact hold hbi
          · rw [hx] at hbi
            exact (mem_insertMeta.mp hbi).elim hne hold
        · unfold analyzeBlock at hbi
          rw [if_neg hpot] at hbi
          exact hold hbi
      exact ⟨Nat.lt_succ_self bi, hbi⟩

theorem analyze_mr (d : Mem) (nb : Nat) :
    (analyze d nb).1.mr = ((List.range nb).foldl analyzeBlock (start d nb)).mr := by
  have hdef : analyze d nb = analyzeMetas ((List.range nb).foldl analyzeBlock (start d nb)) := rfl
  rw [hdef]
  unfold analyzeMetas
  split
  · rfl
  · rfl
  · split
    · rfl
    · rfl

/-- **The checked part of an accepted metablock has not been hit.** -/
theorem Burst.metablock (hchecked : Checksummed m nb bi) (hpot : isPotentialMetablock d bi = true)
    (hburst : Burst (block m bi) (block d bi)) : slice d (bi * blocksize + 16) (blocksize - 16) =
    slice m (bi * blocksize + 16) (blocksize - 16) := by
  by_contra hne
  have hcut : ∀ x : Mem, block x bi = slice x (bi * blocksize) 16 ++ slice x (bi * blocksize + 16)
      (blocksize - 16) := fun x =>
    slice_add x (bi * blocksize) 16 (blocksize - 16)
  rw [hcut, hcut] at hburst
  obtain ⟨hrest, htake⟩ := hburst.right (by rw [slice_length, slice_length]) (Ne.symm hne)
  -- so the checksum has not been hit
  have hhead : slice d (bi * blocksize) 12 = slice m (bi * blocksize) 12 := by
    have h := htake 12 (by rw [slice_length])
    rw [← slice_take rfl (show 12 ≤ 16 by decide), ← slice_take rfl (show 12 ≤ 16 by decide)] at h
    exact h.symm
  have hsum : checksum d bi = checksum m bi :=
    getLE_congr fun x h₁ h₂ => eq_of_slice_eq hhead (by omega) (by omega)
  have hd := (of_decide_eq_true hpot).2
  have hm := (of_decide_eq_true hchecked.potential).2.resolve_left hchecked.checksum
  rw [hsum] at hd
  exact hrest.crc32c_ne (hm.symm.trans (hd.resolve_left hchecked.checksum))

/-- **Nothing that a replay takes from an accepted metablock has been hit.**  The journal `m` has
been hit by a burst, in block `b`, which does not look like a metablock now if it is not the
metablock itself. -/
theorem analyze_undamaged (hsmall : nb + refSize ≤ 2 ^ 32) (hchecked : Checksummed m nb bi)
    (hsame : ∀ c, c ≠ b → SameBlock d m c) (hburst : Burst (block m b) (block d b))
    (hlook : b ≠ bi → isPotentialMetablock d b = false) (hbi : bi ∈ (analyze d nb).1.mr) :
    slice d (bi * blocksize + 16) (blocksize - 16) = slice m (bi * blocksize + 16)
      (blocksize - 16) ∧ ∀ r < nref m bi, journaled m bi r →
      SameBlock d m (dataBlock m nb bi r) := by
  rw [analyze_mr] at hbi
  obtain ⟨hlt, hadd⟩ := mem_blocks hbi
  have hlooked : Looked d nb bi ((List.range bi).foldl analyzeBlock (start d nb)) :=
    blocks_looked hsmall (Nat.le_of_lt hlt)
  generalize (List.range bi).foldl analyzeBlock (start d nb) = s at hadd hlooked
  have hown : SameBlock s.jd d bi := hlooked.kept bi (.inl (Nat.le_refl bi))
  obtain ⟨hpot, -, hdata⟩ :=
    analyzeBlock_adds hsmall hlooked.length hlt (fun h => Nat.lt_irrefl bi (hlooked.lt bi h)) hadd
  rw [hown.isPotentialMetablock] at hpot
  -- the metablock
  have hmeta : slice d (bi * blocksize + 16) (blocksize - 16) = slice m (bi * blocksize + 16)
      (blocksize - 16) := by
    by_cases hb : b = bi
    · subst hb
      exact hburst.metablock hchecked hpot
    · exact (hsame bi (Ne.symm hb)).slice (by decide)
  refine ⟨hmeta, fun r hr hj => ?_⟩
  have hword : ∀ {o n : Nat}, 16 ≤ o → o + n ≤ blocksize →
      getLE s.jd (bi * blocksize + o) n = getLE m (bi * blocksize + o) n := by
    intro o n h₁ h₂
    rw [hown.getLE h₂]
    exact getLE_congr fun x hx₁ hx₂ =>
      eq_of_slice_eq hmeta (by omega) (by unfold blocksize at *; omega)
  have href : ∀ r < nref m bi, ∀ o n, o + n ≤ 12 →
      getLE s.jd (refAddr bi r + o) n = getLE m (refAddr bi r + o) n := by
    intro r hr o n hon
    have hle := hchecked.nref
    have hplace : refAddr bi r + o = bi * blocksize + (28 + 12 * r + o) := by
      unfold refAddr
      omega
    rw [hplace]
    exact hword (by omega) (by unfold refSize blocksize at *; omega)
  have hnref : nref s.jd bi = nref m bi := hword (by omega) (by decide)
  have hjournaled : ∀ r < nref m bi, journaled s.jd bi r = journaled m bi r := by
    intro r hr
    have hbflags : bflags s.jd bi r = bflags m bi r := href r hr 8 2 (by decide)
    unfold journaled
    rw [hbflags]
  have hdelta : dataBlock s.jd nb bi r = dataBlock m nb bi r := by
    unfold dataBlock
    rw [delta_congr hjournaled (Nat.le_of_lt hr)]
  have hsum : bchecksum s.jd bi r = bchecksum m bi r := href r hr 4 4 (by decide)
  have hbad := hdata r (hnref ▸ hr) ((hjournaled r hr).trans hj)
  rw [hdelta] at hbad
  -- the data block
  by_cases hb : dataBlock m nb bi r = b
  · exfalso
    obtain ⟨hlooks, hcrc⟩ := Bool.or_eq_false_iff.mp hbad
    obtain ⟨hno, hright⟩ := hchecked.data r hr hj
    rw [hb] at hlooks hcrc hright
    have hne : b ≠ bi := by
      rintro rfl
      rw [hown.isPotentialMetablock, hpot] at hlooks
      cases hlooks
    have hkept : SameBlock s.jd d b := hlooked.kept b (.inr (.inl (hlook hne)))
    rw [hsum, hright, hkept.block] at hcrc
    refine hburst.crc32c_ne ?_
    have hne' : (crc32c (block m b) != nochecksum) = true := by
      rw [← hright]
      exact bne_iff_ne.mpr hno
    rw [hne', Bool.true_and] at hcrc
    by_contra hneq
    exact absurd hcrc (by rw [bne_iff_ne.mpr hneq]; decide)
  · exact hsame _ hb

end Damaged

/-! ## A journal of one metablock -/

theorem feed_zeros (n c : Nat) : feed castagnoli c (messageBits (List.replicate n 0)) =
    steps castagnoli (8 * n) c := by
  induction n generalizing c with
  | zero => rfl
  | succ n ih =>
    have hbyte : feed castagnoli c (bits 8 (0 : UInt8).toNat) = steps castagnoli 8 c := by
      rw [feed_bits _ _ (by decide)]
      exact congrArg (steps castagnoli 8) (Nat.xor_zero c)
    rw [List.replicate_succ, messageBits_cons, feed_append, ih, hbyte, ← steps_add, Nat.mul_succ,
      Nat.add_comm]

/-- Bytes that bring the register to zero, and zeros after them. -/
theorem cancelled_crc {s : List UInt8} (h : feed castagnoli 0xFFFFFFFF (messageBits s) = 0)
    (n : Nat) : crc32c (s ++ List.replicate n 0) = 0xFFFFFFFF := by
  have hzero : ∀ k, steps castagnoli k 0 = 0 := fun k => by
    induction k with
    | zero => rfl
    | succ k ih => exact ih
  rw [crc32c_eq, messageBits_append, feed_append, h, feed_zeros, hzero, Nat.zero_xor]

/-- Metablock 0 refers to block 1; both have their checksums, as bytes of theirs bring the register
to zero. -/
def oneMeta : Mem :=
  image [(0, 8, journalmagic), (8, 4, 0xFFFFFFFF), (24, 2, jfMeta), (26, 2, 1), (28, 4, 5),
    (32, 4, 0xFFFFFFFF), (40, 4, 1517191724), (4096, 4, 0xFFFFFFFF)]

/-- The same, with a padding byte of block 0 hit. -/
def oneMetaHit : Mem := putLE oneMeta 12 1 255

theorem oneMeta_zero {x : Nat} (h : 44 ≤ x) (h' : x < 4096 ∨ 4100 ≤ x) : oneMeta x = 0 := by
  refine image_of_not_mem fun f hf => ?_
  simp only [List.mem_cons, List.not_mem_nil, or_false] at hf
  rcases hf with rfl | rfl | rfl | rfl | rfl | rfl | rfl | rfl <;> dsimp only <;> omega

theorem oneMeta_hit_off {x : Nat} (h : x ≠ 12) : oneMetaHit x = oneMeta x :=
  putLE_of_not_mem (by omega)

set_option maxRecDepth 8192 in
/-- The bytes at the start of block 1, and those of the metablock up to its first reference that is
not used. -/
theorem oneMeta_feeds : feed castagnoli 0xFFFFFFFF (messageBits (slice oneMeta 4096 4)) = 0 ∧
    feed castagnoli 0xFFFFFFFF (messageBits (slice oneMeta 16 28)) = 0 := by decide

theorem oneMeta_data_crc : crc32c (block oneMeta 1) = 0xFFFFFFFF := by
  have hzeros : slice oneMeta 4100 4092 = List.replicate 4092 0 :=
    slice_replicate fun x h₁ _ => oneMeta_zero (by omega) (.inr h₁)
  have hsplit : block oneMeta 1 = slice oneMeta 4096 4 ++ slice oneMeta 4100 4092 :=
    slice_add oneMeta 4096 4 4092
  rw [hsplit, hzeros]
  exact cancelled_crc oneMeta_feeds.1 4092

theorem oneMeta_crc : crc32c (slice oneMeta 16 4080) = 0xFFFFFFFF := by
  have hzeros : slice oneMeta 44 4052 = List.replicate 4052 0 :=
    slice_replicate fun x h₁ h₂ => oneMeta_zero h₁ (.inl h₂)
  have hsplit : slice oneMeta 16 4080 = slice oneMeta 16 28 ++ slice oneMeta 44 4052 :=
    slice_add oneMeta 16 28 4052
  rw [hsplit, hzeros]
  exact cancelled_crc oneMeta_feeds.2 4052

/-- The fields of the metablock. -/
theorem oneMeta_fields : magic oneMeta 0 = journalmagic ∧ checksum oneMeta 0 = 0xFFFFFFFF ∧
    nref oneMeta 0 = 1 ∧ bchecksum oneMeta 0 0 = 0xFFFFFFFF ∧ bflags oneMeta 0 0 = 0 := by decide

theorem oneMeta_potential : isPotentialMetablock oneMeta 0 = true := by
  obtain ⟨hmagic, hsum, -⟩ := oneMeta_fields
  refine decide_eq_true ⟨hmagic, .inr ?_⟩
  rw [hsum]
  exact oneMeta_crc.symm

theorem oneMeta_dataBlock {r : Nat} (hr : r < nref oneMeta 0) : r = 0 ∧
    dataBlock oneMeta 2 0 r = 1 := by
  obtain ⟨-, -, hnref, -⟩ := oneMeta_fields
  obtain rfl : r = 0 := by omega
  exact ⟨rfl, rfl⟩

theorem oneMeta_checksummed : Checksummed oneMeta 2 0 := by
  obtain ⟨-, hsum, hnref, hbsum, -⟩ := oneMeta_fields
  refine ⟨oneMeta_potential, ?_, ?_, fun r hr _ => ?_⟩
  · rw [hsum]
    decide
  · rw [hnref]
    decide
  · obtain ⟨rfl, hdata⟩ := oneMeta_dataBlock hr
    rw [hbsum, hdata, oneMeta_data_crc]
    exact ⟨by decide, rfl⟩

/-- The padding is not in the checked part. -/
theorem oneMetaHit_potential : isPotentialMetablock oneMetaHit 0 = true := by
  have hslice : slice oneMetaHit 16 4080 = slice oneMeta 16 4080 :=
    slice_congr fun x h₁ _ => oneMeta_hit_off (by omega)
  have hfields : magic oneMetaHit 0 = journalmagic ∧ checksum oneMetaHit 0 = 0xFFFFFFFF := by decide
  refine decide_eq_true ⟨hfields.1, .inr ?_⟩
  rw [hfields.2]
  change 0xFFFFFFFF = crc32c (slice oneMetaHit 16 4080)
  rw [hslice, oneMeta_crc]

theorem oneMeta_burst : Burst (block oneMeta 0) (block oneMetaHit 0) := by
  have hcut : ∀ m : Mem, block m 0 = slice m 0 12 ++ (slice m 12 4 ++ slice m 16 4080) := by
    intro m
    rw [← slice_add, ← slice_add]
    rfl
  have h₁ : slice oneMetaHit 0 12 = slice oneMeta 0 12 :=
    slice_congr fun x _ h₂ => oneMeta_hit_off (by omega)
  have h₃ : slice oneMetaHit 16 4080 = slice oneMeta 16 4080 :=
    slice_congr fun x h₁ _ => oneMeta_hit_off (by omega)
  have hne : slice oneMeta 12 4 ≠ slice oneMetaHit 12 4 := by decide
  rw [hcut, hcut, h₁, h₃]
  exact burst_of_bytes (by rw [slice_length, slice_length]) (by rw [slice_length]) hne

theorem oneMetaHit_scan : (scan (start oneMetaHit 2) 0).1.jd = oneMetaHit := by
  have hflags : flags oneMetaHit 0 = jfMeta ∧ nref oneMetaHit 0 = 1 ∧ bflags oneMetaHit 0 0 = 0 ∧
    bchecksum oneMetaHit 0 0 = 0xFFFFFFFF ∧ isPotentialMetablock oneMetaHit 1 = false := by decide
  obtain ⟨hfl, hnref, hbflags, hsum, hno⟩ := hflags
  have hcheck : checkFlags oneMetaHit 0 = oneMetaHit := by
    have h₁ : has (flags oneMetaHit 0) (jfError ||| jfCorrupt) = false := by rw [hfl]; rfl
    have h₂ : (!has (flags oneMetaHit 0) jfMeta) = false := by rw [hfl]; rfl
    have h₃ : decide (nref oneMetaHit 0 > refSize) = false := by rw [hnref]; rfl
    unfold checkFlags
    simp only [h₁, h₂, h₃, markErrorIf, Bool.false_eq_true, if_false]
  have hblock : block oneMetaHit 1 = block oneMeta 1 :=
    slice_congr fun x h₁ _ => oneMeta_hit_off (by unfold blocksize at h₁; omega)
  have hbad : badData oneMetaHit 0 0 1 = false := by
    unfold badData
    rw [hno, hsum, hblock, oneMeta_data_crc]
    rfl
  have hj : has (bflags oneMetaHit 0 0) jbfNonjournaled = false := by rw [hbflags]; rfl
  have hstart : (start oneMetaHit 2).jd = oneMetaHit := rfl
  have hone : List.range 1 = [0] := rfl
  unfold scan
  rw [hstart, hcheck, hnref, hone, List.foldl_cons, List.foldl_nil]
  unfold analyzeBlockReference
  dsimp only
  have hdbi : (0 + 1) % 2 ^ 32 % (start oneMetaHit 2).nb = 1 := rfl
  rw [hj, if_neg Bool.false_ne_true, hdbi, hbad]
  rfl

/-- The metablock is still accepted. -/
theorem oneMetaHit_accepted : 0 ∈ (analyze oneMetaHit 2).1.mr := by
  have hno : isPotentialMetablock oneMetaHit 1 = false := by decide
  have hclean : has (flags oneMetaHit 0) jfError = false := by decide
  have htwo : List.range 2 = [0, 1] := rfl
  rw [analyze_mr, htwo, List.foldl_cons, List.foldl_cons, List.foldl_nil]
  rcases analyzeBlock_cases (start oneMetaHit 2) oneMetaHit_potential with ⟨he, -⟩ | ⟨-, hx⟩
  · rw [oneMetaHit_scan, hclean] at he
    cases he
  · have hnot : ¬isPotentialMetablock (analyzeBlock (start oneMetaHit 2) 0).jd 1 = true := by
      rw [hx]
      dsimp only
      rw [oneMetaHit_scan, hno]
      decide
    have hskip : analyzeBlock (analyzeBlock (start oneMetaHit 2) 0) 1 =
        analyzeBlock (start oneMetaHit 2) 0 := if_neg hnot
    rw [hskip, hx]
    exact mem_insertMeta.mpr (.inl rfl)

theorem analyze_undamaged_padding : slice oneMetaHit 16 4080 = slice oneMeta 16 4080 ∧
    SameBlock oneMetaHit oneMeta 1 := by
  obtain ⟨-, -, hnref, -, hbflags⟩ := oneMeta_fields
  have hsame : ∀ c, c ≠ 0 → SameBlock oneMetaHit oneMeta c :=
    fun c hc x h₁ _ => oneMeta_hit_off (by unfold blocksize at h₁; omega)
  obtain ⟨hmeta, hdata⟩ :=
    analyze_undamaged (by decide) oneMeta_checksummed hsame oneMeta_burst (fun h => absurd rfl h)
      oneMetaHit_accepted
  have hj : journaled oneMeta 0 0 = true := by
    unfold journaled
    rw [hbflags]
    rfl
  have hr : 0 < nref oneMeta 0 := by
    rw [hnref]
    exact Nat.one_pos
  have hblock := hdata 0 hr hj
  rw [(oneMeta_dataBlock hr).2] at hblock
  exact ⟨hmeta, hblock⟩

end PugOS.Journal
