import Mathlib

/-!
# git: fingerprints of windows

The tables `T` and `U` of `bin/git/upstream/diff-delta.c`, and the fingerprint that is computed with
them: `create_delta_index` takes it of a window of 16 bytes, byte by byte, `create_delta` moves the
window on by one byte.

* `rabin` — one byte more; there is no value when the table is left.
* `rabinStep_xor`, `rabinStep_low` — the fingerprint is linear, and stays below `2 ^ 31`, so that
  the table is never left.
* `U_eq` — what the first byte of a window adds to the fingerprint.

Main result: `rolling_exact`.
-/

set_option autoImplicit false

namespace Git

/-- `RABIN_SHIFT`. -/
def RABIN_SHIFT : Nat := 23

/-- `RABIN_WINDOW`. -/
def RABIN_WINDOW : Nat := 16

def T : List (BitVec 32) := [
  0x00000000, 0xab59b4d1, 0x56b369a2, 0xfdeadd73, 0x063f6795, 0xad66d344, 0x508c0e37, 0xfbd5bae6,
  0x0c7ecf2a, 0xa7277bfb, 0x5acda688, 0xf1941259, 0x0a41a8bf, 0xa1181c6e, 0x5cf2c11d, 0xf7ab75cc,
  0x18fd9e54, 0xb3a42a85, 0x4e4ef7f6, 0xe5174327, 0x1ec2f9c1, 0xb59b4d10, 0x48719063, 0xe32824b2,
  0x1483517e, 0xbfdae5af, 0x423038dc, 0xe9698c0d, 0x12bc36eb, 0xb9e5823a, 0x440f5f49, 0xef56eb98,
  0x31fb3ca8, 0x9aa28879, 0x6748550a, 0xcc11e1db, 0x37c45b3d, 0x9c9defec, 0x6177329f, 0xca2e864e,
  0x3d85f382, 0x96dc4753, 0x6b369a20, 0xc06f2ef1, 0x3bba9417, 0x90e320c6, 0x6d09fdb5, 0xc6504964,
  0x2906a2fc, 0x825f162d, 0x7fb5cb5e, 0xd4ec7f8f, 0x2f39c569, 0x846071b8, 0x798aaccb, 0xd2d3181a,
  0x25786dd6, 0x8e21d907, 0x73cb0474, 0xd892b0a5, 0x23470a43, 0x881ebe92, 0x75f463e1, 0xdeadd730,
  0x63f67950, 0xc8afcd81, 0x354510f2, 0x9e1ca423, 0x65c91ec5, 0xce90aa14, 0x337a7767, 0x9823c3b6,
  0x6f88b67a, 0xc4d102ab, 0x393bdfd8, 0x92626b09, 0x69b7d1ef, 0xc2ee653e, 0x3f04b84d, 0x945d0c9c,
  0x7b0be704, 0xd05253d5, 0x2db88ea6, 0x86e13a77, 0x7d348091, 0xd66d3440, 0x2b87e933, 0x80de5de2,
  0x7775282e, 0xdc2c9cff, 0x21c6418c, 0x8a9ff55d, 0x714a4fbb, 0xda13fb6a, 0x27f92619, 0x8ca092c8,
  0x520d45f8, 0xf954f129, 0x04be2c5a, 0xafe7988b, 0x5432226d, 0xff6b96bc, 0x02814bcf, 0xa9d8ff1e,
  0x5e738ad2, 0xf52a3e03, 0x08c0e370, 0xa39957a1, 0x584ced47, 0xf3155996, 0x0eff84e5, 0xa5a63034,
  0x4af0dbac, 0xe1a96f7d, 0x1c43b20e, 0xb71a06df, 0x4ccfbc39, 0xe79608e8, 0x1a7cd59b, 0xb125614a,
  0x468e1486, 0xedd7a057, 0x103d7d24, 0xbb64c9f5, 0x40b17313, 0xebe8c7c2, 0x16021ab1, 0xbd5bae60,
  0x6cb54671, 0xc7ecf2a0, 0x3a062fd3, 0x915f9b02, 0x6a8a21e4, 0xc1d39535, 0x3c394846, 0x9760fc97,
  0x60cb895b, 0xcb923d8a, 0x3678e0f9, 0x9d215428, 0x66f4eece, 0xcdad5a1f, 0x3047876c, 0x9b1e33bd,
  0x7448d825, 0xdf116cf4, 0x22fbb187, 0x89a20556, 0x7277bfb0, 0xd92e0b61, 0x24c4d612, 0x8f9d62c3,
  0x7836170f, 0xd36fa3de, 0x2e857ead, 0x85dcca7c, 0x7e09709a, 0xd550c44b, 0x28ba1938, 0x83e3ade9,
  0x5d4e7ad9, 0xf617ce08, 0x0bfd137b, 0xa0a4a7aa, 0x5b711d4c, 0xf028a99d, 0x0dc274ee, 0xa69bc03f,
  0x5130b5f3, 0xfa690122, 0x0783dc51, 0xacda6880, 0x570fd266, 0xfc5666b7, 0x01bcbbc4, 0xaae50f15,
  0x45b3e48d, 0xeeea505c, 0x13008d2f, 0xb85939fe, 0x438c8318, 0xe8d537c9, 0x153feaba, 0xbe665e6b,
  0x49cd2ba7, 0xe2949f76, 0x1f7e4205, 0xb427f6d4, 0x4ff24c32, 0xe4abf8e3, 0x19412590, 0xb2189141,
  0x0f433f21, 0xa41a8bf0, 0x59f05683, 0xf2a9e252, 0x097c58b4, 0xa225ec65, 0x5fcf3116, 0xf49685c7,
  0x033df00b, 0xa86444da, 0x558e99a9, 0xfed72d78, 0x0502979e, 0xae5b234f, 0x53b1fe3c, 0xf8e84aed,
  0x17bea175, 0xbce715a4, 0x410dc8d7, 0xea547c06, 0x1181c6e0, 0xbad87231, 0x4732af42, 0xec6b1b93,
  0x1bc06e5f, 0xb099da8e, 0x4d7307fd, 0xe62ab32c, 0x1dff09ca, 0xb6a6bd1b, 0x4b4c6068, 0xe015d4b9,
  0x3eb80389, 0x95e1b758, 0x680b6a2b, 0xc352defa, 0x3887641c, 0x93ded0cd, 0x6e340dbe, 0xc56db96f,
  0x32c6cca3, 0x999f7872, 0x6475a501, 0xcf2c11d0, 0x34f9ab36, 0x9fa01fe7, 0x624ac294, 0xc9137645,
  0x26459ddd, 0x8d1c290c, 0x70f6f47f, 0xdbaf40ae, 0x207afa48, 0x8b234e99, 0x76c993ea, 0xdd90273b,
  0x2a3b52f7, 0x8162e626, 0x7c883b55, 0xd7d18f84, 0x2c043562, 0x875d81b3, 0x7ab75cc0, 0xd1eee811]

def U : List (BitVec 32) := [
  0x00000000, 0x7eb5200d, 0x5633f4cb, 0x2886d4c6, 0x073e5d47, 0x798b7d4a, 0x510da98c, 0x2fb88981,
  0x0e7cba8e, 0x70c99a83, 0x584f4e45, 0x26fa6e48, 0x0942e7c9, 0x77f7c7c4, 0x5f711302, 0x21c4330f,
  0x1cf9751c, 0x624c5511, 0x4aca81d7, 0x347fa1da, 0x1bc7285b, 0x65720856, 0x4df4dc90, 0x3341fc9d,
  0x1285cf92, 0x6c30ef9f, 0x44b63b59, 0x3a031b54, 0x15bb92d5, 0x6b0eb2d8, 0x4388661e, 0x3d3d4613,
  0x39f2ea38, 0x4747ca35, 0x6fc11ef3, 0x11743efe, 0x3eccb77f, 0x40799772, 0x68ff43b4, 0x164a63b9,
  0x378e50b6, 0x493b70bb, 0x61bda47d, 0x1f088470, 0x30b00df1, 0x4e052dfc, 0x6683f93a, 0x1836d937,
  0x250b9f24, 0x5bbebf29, 0x73386bef, 0x0d8d4be2, 0x2235c263, 0x5c80e26e, 0x740636a8, 0x0ab316a5,
  0x2b7725aa, 0x55c205a7, 0x7d44d161, 0x03f1f16c, 0x2c4978ed, 0x52fc58e0, 0x7a7a8c26, 0x04cfac2b,
  0x73e5d470, 0x0d50f47d, 0x25d620bb, 0x5b6300b6, 0x74db8937, 0x0a6ea93a, 0x22e87dfc, 0x5c5d5df1,
  0x7d996efe, 0x032c4ef3, 0x2baa9a35, 0x551fba38, 0x7aa733b9, 0x041213b4, 0x2c94c772, 0x5221e77f,
  0x6f1ca16c, 0x11a98161, 0x392f55a7, 0x479a75aa, 0x6822fc2b, 0x1697dc26, 0x3e1108e0, 0x40a428ed,
  0x61601be2, 0x1fd53bef, 0x3753ef29, 0x49e6cf24, 0x665e46a5, 0x18eb66a8, 0x306db26e, 0x4ed89263,
  0x4a173e48, 0x34a21e45, 0x1c24ca83, 0x6291ea8e, 0x4d29630f, 0x339c4302, 0x1b1a97c4, 0x65afb7c9,
  0x446b84c6, 0x3adea4cb, 0x1258700d, 0x6ced5000, 0x4355d981, 0x3de0f98c, 0x15662d4a, 0x6bd30d47,
  0x56ee4b54, 0x285b6b59, 0x00ddbf9f, 0x7e689f92, 0x51d01613, 0x2f65361e, 0x07e3e2d8, 0x7956c2d5,
  0x5892f1da, 0x2627d1d7, 0x0ea10511, 0x7014251c, 0x5facac9d, 0x21198c90, 0x099f5856, 0x772a785b,
  0x4c921c31, 0x32273c3c, 0x1aa1e8fa, 0x6414c8f7, 0x4bac4176, 0x3519617b, 0x1d9fb5bd, 0x632a95b0,
  0x42eea6bf, 0x3c5b86b2, 0x14dd5274, 0x6a687279, 0x45d0fbf8, 0x3b65dbf5, 0x13e30f33, 0x6d562f3e,
  0x506b692d, 0x2ede4920, 0x06589de6, 0x78edbdeb, 0x5755346a, 0x29e01467, 0x0166c0a1, 0x7fd3e0ac,
  0x5e17d3a3, 0x20a2f3ae, 0x08242768, 0x76910765, 0x59298ee4, 0x279caee9, 0x0f1a7a2f, 0x71af5a22,
  0x7560f609, 0x0bd5d604, 0x235302c2, 0x5de622cf, 0x725eab4e, 0x0ceb8b43, 0x246d5f85, 0x5ad87f88,
  0x7b1c4c87, 0x05a96c8a, 0x2d2fb84c, 0x539a9841, 0x7c2211c0, 0x029731cd, 0x2a11e50b, 0x54a4c506,
  0x69998315, 0x172ca318, 0x3faa77de, 0x411f57d3, 0x6ea7de52, 0x1012fe5f, 0x38942a99, 0x46210a94,
  0x67e5399b, 0x19501996, 0x31d6cd50, 0x4f63ed5d, 0x60db64dc, 0x1e6e44d1, 0x36e89017, 0x485db01a,
  0x3f77c841, 0x41c2e84c, 0x69443c8a, 0x17f11c87, 0x38499506, 0x46fcb50b, 0x6e7a61cd, 0x10cf41c0,
  0x310b72cf, 0x4fbe52c2, 0x67388604, 0x198da609, 0x36352f88, 0x48800f85, 0x6006db43, 0x1eb3fb4e,
  0x238ebd5d, 0x5d3b9d50, 0x75bd4996, 0x0b08699b, 0x24b0e01a, 0x5a05c017, 0x728314d1, 0x0c3634dc,
  0x2df207d3, 0x534727de, 0x7bc1f318, 0x0574d315, 0x2acc5a94, 0x54797a99, 0x7cffae5f, 0x024a8e52,
  0x06852279, 0x78300274, 0x50b6d6b2, 0x2e03f6bf, 0x01bb7f3e, 0x7f0e5f33, 0x57888bf5, 0x293dabf8,
  0x08f998f7, 0x764cb8fa, 0x5eca6c3c, 0x207f4c31, 0x0fc7c5b0, 0x7172e5bd, 0x59f4317b, 0x27411176,
  0x1a7c5765, 0x64c97768, 0x4c4fa3ae, 0x32fa83a3, 0x1d420a22, 0x63f72a2f, 0x4b71fee9, 0x35c4dee4,
  0x1400edeb, 0x6ab5cde6, 0x42331920, 0x3c86392d, 0x133eb0ac, 0x6d8b90a1, 0x450d4467, 0x3bb8646a]

/-- One step of the fingerprint, with `T` read at `val >> RABIN_SHIFT`. -/
def rabin (val : BitVec 32) (b : UInt8) : Option (BitVec 32) :=
  (T[(val >>> RABIN_SHIFT).toNat]?).map fun t => ((val <<< 8) ||| b.toBitVec.setWidth 32) ^^^ t

/-- The steps for some bytes. -/
def rabinAll (val : BitVec 32) : List UInt8 → Option (BitVec 32)
  | [] => some val
  | b :: bytes => (rabin val b).bind fun val => rabinAll val bytes

/-- Move a window on: `first` is the byte that leaves it, `next` the one that comes. -/
def slide (val : BitVec 32) (first next : UInt8) : Option (BitVec 32) := do
  let u ← U[first.toNat]?
  rabin (val ^^^ u) next

/-! ## The table is linear -/

/-- The sum of a list of words, without carries. -/
def xorSum (l : List (BitVec 32)) : BitVec 32 := l.foldr (· ^^^ ·) 0

/-- What the bits of an index of `T` add up to. -/
def tableSum (i : Nat) : BitVec 32 :=
  xorSum ((List.range 8).map fun k => if i.testBit k then T.getD (2 ^ k) 0 else 0)

theorem xorSum_xor {ι : Type} (f g : ι → BitVec 32) (l : List ι) :
    xorSum (l.map fun k => f k ^^^ g k) = xorSum (l.map f) ^^^ xorSum (l.map g) := by
  induction l with
  | nil => simp [xorSum]
  | cons k l ih =>
    simp only [xorSum, List.map_cons, List.foldr_cons] at ih ⊢
    rw [ih]
    ac_rfl

theorem tableSum_xor (i j : Nat) : tableSum (i ^^^ j) = tableSum i ^^^ tableSum j := by
  unfold tableSum
  rw [← xorSum_xor]
  congr 1
  refine List.map_congr_left fun k _ => ?_
  rw [Nat.testBit_xor]
  cases i.testBit k <;> cases j.testBit k <;> simp

theorem T_eq : ∀ i < 256, T[i]? = some (tableSum i) := by
  decide +kernel

theorem tableSum_high : ∀ i < 256, (tableSum i).getLsbD 31 = i.testBit 0 := by
  decide +kernel

/-- A word that can be an index of `T` after the shift. -/
def Low (val : BitVec 32) : Prop := val.getLsbD 31 = false

theorem Low.index {val : BitVec 32} (h : Low val) : (val >>> RABIN_SHIFT).toNat < 256 := by
  have hmsb : val.msb = false := h
  have hlt := BitVec.toNat_lt_of_msb_false hmsb
  rw [BitVec.toNat_ushiftRight, RABIN_SHIFT, Nat.shiftRight_eq_div_pow]
  omega

/-- One step in a word that is low. -/
def rabinStep (val : BitVec 32) (b : UInt8) : BitVec 32 :=
  (val <<< 8) ^^^ b.toBitVec.setWidth 32 ^^^ tableSum (val >>> RABIN_SHIFT).toNat

theorem shift_or (val : BitVec 32) (b : UInt8) :
    (val <<< 8) ||| b.toBitVec.setWidth 32 = (val <<< 8) ^^^ b.toBitVec.setWidth 32 := by
  ext i hi
  simp only [BitVec.getElem_or, BitVec.getElem_xor, BitVec.getElem_shiftLeft,
    BitVec.getElem_setWidth]
  by_cases h : i < 8
  · simp [h]
  · have : b.toBitVec.getLsbD i = false := BitVec.getLsbD_of_ge _ i (by omega)
    simp [h, this]

theorem rabin_eq {val : BitVec 32} (h : Low val) (b : UInt8) :
    rabin val b = some (rabinStep val b) := by
  rw [rabin, T_eq _ h.index, Option.map_some, shift_or, rabinStep]

theorem rabinStep_low {val : BitVec 32} (h : Low val) (b : UInt8) : Low (rabinStep val b) := by
  unfold Low rabinStep
  have hbyte : (b.toBitVec.setWidth 32).getLsbD 31 = false := by
    simp
  have hbit : (val >>> RABIN_SHIFT).toNat.testBit 0 = val.getLsbD 23 := by
    rw [BitVec.testBit_toNat, BitVec.getLsbD_ushiftRight]
    rfl
  rw [BitVec.getLsbD_xor, BitVec.getLsbD_xor, tableSum_high _ h.index, hbyte, hbit,
    BitVec.getLsbD_shiftLeft]
  simp

theorem rabinStep_xor (val val' : BitVec 32) (b b' : UInt8) :
    rabinStep (val ^^^ val') (b ^^^ b') = rabinStep val b ^^^ rabinStep val' b' := by
  unfold rabinStep
  rw [BitVec.ushiftRight_xor_distrib, BitVec.toNat_xor, tableSum_xor,
    BitVec.shiftLeft_xor_distrib, UInt8.toBitVec_xor, BitVec.setWidth_xor]
  ac_rfl

/-! ## Windows -/

theorem low_zero : Low 0 := rfl

/-- The fingerprint of some bytes, from a low word. -/
def finger (val : BitVec 32) (bytes : List UInt8) : BitVec 32 := bytes.foldl rabinStep val

theorem finger_low {val : BitVec 32} (h : Low val) (bytes : List UInt8) :
    Low (finger val bytes) := by
  induction bytes generalizing val with
  | nil => exact h
  | cons b bytes ih => exact ih (rabinStep_low h b)

/-- The table is never left. -/
theorem rabinAll_eq {val : BitVec 32} (h : Low val) (bytes : List UInt8) :
    rabinAll val bytes = some (finger val bytes) := by
  induction bytes generalizing val with
  | nil => rfl
  | cons b bytes ih =>
    rw [rabinAll, rabin_eq h, Option.bind_some, ih (rabinStep_low h b)]
    rfl

theorem finger_append (val : BitVec 32) (bytes bytes' : List UInt8) :
    finger val (bytes ++ bytes') = finger (finger val bytes) bytes' := List.foldl_append

/-- The start of a word only adds to what the bytes give. -/
theorem finger_xor (val val' : BitVec 32) (bytes : List UInt8) :
    finger (val ^^^ val') bytes =
      finger val (List.replicate bytes.length 0) ^^^ finger val' bytes := by
  induction bytes generalizing val val' with
  | nil => rfl
  | cons b bytes ih =>
    have hstep : rabinStep (val ^^^ val') b = rabinStep val 0 ^^^ rabinStep val' b := by
      rw [← rabinStep_xor]
      simp
    simp only [finger, List.foldl_cons, List.length_cons, List.replicate_succ] at ih ⊢
    rw [hstep, ih]

theorem U_eq : ∀ i < 256, U[i]? = rabinAll 0 (UInt8.ofNat i :: List.replicate 15 0) := by
  decide +kernel

/-- What a first byte adds to the fingerprint of a window. -/
theorem finger_cons (first : UInt8) (mid : List UInt8) :
    finger 0 (first :: mid) =
      finger 0 (first :: List.replicate mid.length 0) ^^^ finger 0 mid := by
  have h := finger_xor (rabinStep 0 first) 0 mid
  rwa [show rabinStep 0 first ^^^ 0 = rabinStep 0 first from BitVec.xor_zero] at h

/-- **The rolling fingerprint.**  For every window, and whatever byte comes after it: neither of the
two tables is left, and moving the fingerprint on gives the fingerprint of the next window. -/
theorem rolling_exact (first : UInt8) (mid : List UInt8) (next : UInt8)
    (hmid : mid.length + 1 = RABIN_WINDOW) :
    ∃ val val', rabinAll 0 (first :: mid) = some val ∧ slide val first next = some val' ∧
      rabinAll 0 (mid ++ [next]) = some val' := by
  have hlen : mid.length = 15 := by
    unfold RABIN_WINDOW at hmid
    omega
  have hu := U_eq first.toNat first.toNat_lt
  rw [UInt8.ofNat_toNat, rabinAll_eq low_zero] at hu
  have hout :
      finger 0 (first :: mid) ^^^ finger 0 (first :: List.replicate 15 0) = finger 0 mid := by
    rw [finger_cons, hlen, BitVec.xor_comm, ← BitVec.xor_assoc, BitVec.xor_self, BitVec.zero_xor]
  refine ⟨_, finger 0 (mid ++ [next]), rabinAll_eq low_zero _, ?_, rabinAll_eq low_zero _⟩
  rw [slide, hu, Option.bind_eq_bind, Option.bind_some, hout, rabin_eq (finger_low low_zero mid),
    finger_append]
  rfl

/-- The window of the bytes 0 … 15, moved on to 1 … 16. -/
theorem rolling_exact_first : ∃ val val',
    rabinAll 0 ((List.range 16).map UInt8.ofNat) = some val ∧ slide val 0 16 = some val' ∧
      rabinAll 0 ((List.range' 1 16).map UInt8.ofNat) = some val' :=
  rolling_exact 0 ((List.range' 1 15).map UInt8.ofNat) 16 (by simp [RABIN_WINDOW])

end Git
