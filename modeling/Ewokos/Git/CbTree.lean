import Ewokos.Lib.CritBit

/-!
# git: the crit-bit tree

`cbtree.c`, on the nodes that its callers allocate: one block is a leaf, for the key that it holds,
and, from the second insertion on, also the inner node that tells this key from the others.

* `cbInsert`, `cbLookup`, `cbEach` — the operations; every read outside a key is `none`.
* `bitAt`, `agree_iff_take` — the bits of a key, and what it is to agree on the first bytes.
* `critical_spec` — the byte and the mask of a new node name the first bit where two keys differ.
-/

set_option autoImplicit false

namespace Git

open CritBit

/-- A `struct cb_node *`, whose lowest bit tells an inner node from a leaf. -/
inductive CbPtr where
  | null
  | leaf (a : Nat)
  | inner (a : Nat)
  deriving DecidableEq, Repr

/-- `struct cb_node`. -/
structure CbNode where
  child : Bool → CbPtr
  byte : Nat
  otherbits : UInt8
  k : List UInt8

/-- `struct cb_tree`, with the nodes at their addresses. -/
structure CbTree where
  nodes : Nat → CbNode
  root : CbPtr

/-- `enum cb_next`. -/
inductive CbNext where
  | cbContinue
  | cbBreak
  deriving DecidableEq, Repr

/-- `(1 + (otherbits | c)) >> 8` -/
def direction (otherbits c : UInt8) : Bool := (1 + (otherbits ||| c).toNat) >>> 8 != 0

/-- `byte < klen ? k[byte] : 0` -/
def keyByte (k : List UInt8) (klen byte : Nat) : Option UInt8 :=
  if byte < klen then k[byte]? else some 0

/-- `cb_internal_best_match` -/
def cbInternalBestMatch (nodes : Nat → CbNode) (k : List UInt8) (klen : Nat) :
    Nat → CbPtr → Option CbPtr
  | 0, _ => none
  | fuel + 1, .inner q => do
    let c ← keyByte k klen (nodes q).byte
    cbInternalBestMatch nodes k klen fuel ((nodes q).child (direction (nodes q).otherbits c))
  | _ + 1, p => some p

/-- The loops over the bytes of two keys, from `i` on: the first differing byte. -/
def differingByte (p k : List UInt8) : Nat → Nat → Option (Option Nat)
  | 0, _ => some none
  | n + 1, i => do
    let x ← p[i]?
    let y ← k[i]?
    if x ≠ y then some (some i) else differingByte p k n (i + 1)

/-- `newotherbits` of two bytes -/
def criticalOtherbits (x y : UInt8) : UInt64 :=
  let n := (x ^^^ y).toUInt64
  let n := n ||| n >>> 1
  let n := n ||| n >>> 2
  let n := n ||| n >>> 4
  (n &&& ~~~(n >>> 1)) ^^^ 255

/-- What `wherep` points to. -/
inductive Where where
  | root
  | child (q : Nat) (dir : Bool)
  deriving DecidableEq, Repr

namespace CbTree

/-- `*wherep` -/
def read (t : CbTree) : Where → CbPtr
  | .root => t.root
  | .child q dir => (t.nodes q).child dir

/-- Node `a` after a store. -/
def setNode (t : CbTree) (a : Nat) (n : CbNode) : CbTree :=
  { t with nodes := Function.update t.nodes a n }

/-- A store to a child of node `a`. -/
def setChild (t : CbTree) (a : Nat) (dir : Bool) (p : CbPtr) : CbTree :=
  t.setNode a { t.nodes a with child := Function.update (t.nodes a).child dir p }

/-- A store to `*wherep`. -/
def write (t : CbTree) (w : Where) (p : CbPtr) : CbTree :=
  match w with
  | .root => { t with root := p }
  | .child q dir => t.setChild q dir p

/-- The loop of `cb_insert` that finds a place for the new node. -/
def place (t : CbTree) (k : List UInt8) (klen newbyte newotherbits : Nat) :
    Nat → Where → Option Where
  | 0, _ => none
  | fuel + 1, w =>
    match t.read w with
    | .inner q =>
      if (t.nodes q).byte > newbyte then some w
      else if (t.nodes q).byte = newbyte ∧ (t.nodes q).otherbits.toNat > newotherbits then some w
      else do
        let c ← keyByte k klen (t.nodes q).byte
        t.place k klen newbyte newotherbits fuel (.child q (direction (t.nodes q).otherbits c))
    | _ => some w

/-- The last two stores of `cb_insert`. -/
def link (t : CbTree) (a : Nat) (newdirection : Bool) (w : Where) : CbTree :=
  (t.setChild a newdirection (t.read w)).write w (.inner a)

end CbTree

/-- `cb_insert` of the node at `a`: the tree after it, and the duplicate it returns. -/
def cbInsert (fuel : Nat) (t : CbTree) (a klen : Nat) : Option (CbTree × Option Nat) :=
  if t.root = .null then some ({ t with root := .leaf a }, none)
  else do
    match ← cbInternalBestMatch t.nodes (t.nodes a).k klen fuel t.root with
    | .leaf p =>
      match ← differingByte (t.nodes p).k (t.nodes a).k klen 0 with
      | none => some (t, some p)
      | some newbyte =>
        let x ← (t.nodes p).k[newbyte]?
        let y ← (t.nodes a).k[newbyte]?
        let newotherbits := criticalOtherbits x y
        let newdirection := (1 + (newotherbits ||| x.toUInt64).toNat) >>> 8 != 0
        let t := t.setNode a { t.nodes a with
          byte := newbyte % 2 ^ 32, otherbits := newotherbits.toUInt8 }
        let t := t.setChild a (!newdirection) (.leaf a)
        let w ← t.place (t.nodes a).k klen newbyte newotherbits.toNat fuel .root
        some (t.link a newdirection w, none)
    | _ => none

/-- `memcmp(a, b, n) == 0`, where both have `n` bytes -/
def memcmpEq (a b : List UInt8) (n : Nat) : Option Bool :=
  if n ≤ a.length ∧ n ≤ b.length then some (a.take n == b.take n) else none

/-- `cb_lookup` -/
def cbLookup (fuel : Nat) (t : CbTree) (k : List UInt8) (klen : Nat) : Option (Option Nat) := do
  match ← cbInternalBestMatch t.nodes k klen fuel t.root with
  | .leaf p => if ← memcmpEq (t.nodes p).k k klen then some (some p) else some none
  | _ => some none

section Each

variable {σ : Type}

/-- `cb_descend`, where the calls of `fn` thread what they keep behind `arg` -/
def cbDescend (nodes : Nat → CbNode) (fn : Nat → σ → Option (CbNext × σ)) :
    Nat → CbPtr → σ → Option (CbNext × σ)
  | 0, _, _ => none
  | fuel + 1, .inner q, arg => do
    let (n, arg) ← cbDescend nodes fn fuel ((nodes q).child false) arg
    if n = .cbBreak then some (n, arg) else cbDescend nodes fn fuel ((nodes q).child true) arg
  | _ + 1, .leaf p, arg => fn p arg
  | _ + 1, .null, _ => none

/-- The walk of `cb_each` that maintains the `top` pointer. -/
def cbEachWalk (nodes : Nat → CbNode) (kpfx : List UInt8) (klen : Nat) :
    Nat → CbPtr → CbPtr → Option (CbPtr × CbPtr)
  | 0, _, _ => none
  | fuel + 1, .inner q, top => do
    let c ← keyByte kpfx klen (nodes q).byte
    let p := (nodes q).child (direction (nodes q).otherbits c)
    cbEachWalk nodes kpfx klen fuel p (if (nodes q).byte < klen then p else top)
  | _ + 1, p, top => some (p, top)

/-- `cb_each` -/
def cbEach (fuel : Nat) (t : CbTree) (kpfx : List UInt8) (klen : Nat)
    (fn : Nat → σ → Option (CbNext × σ)) (arg : σ) : Option σ :=
  if t.root = .null then some arg
  else do
    match ← cbEachWalk t.nodes kpfx klen fuel t.root t.root with
    | (.leaf p, top) =>
      match ← differingByte (t.nodes p).k kpfx klen 0 with
      | some _ => some arg
      | none => do
        let (_, arg) ← cbDescend t.nodes fn fuel top arg
        some arg
    | _ => none

end Each

/-! ## Bits -/

/-- The bits of a key, the highest of each byte first, and zeros behind it. -/
def bitAt (k : List UInt8) (i : Nat) : Bool := (k.getD (i / 8) 0).toNat.testBit (7 - i % 8)

/-- The `otherbits` of the `j`th bit: all the others. -/
def mask (j : Nat) : UInt8 := (255 : UInt8) ^^^ UInt8.ofNat (128 >>> j)

theorem direction_mask {j : Nat} (hj : j < 8) (c : UInt8) :
    direction (mask j) c = c.toNat.testBit (7 - j) := by
  have h : ∀ j : Fin 8, ∀ c : Fin 256,
      direction (mask j) (UInt8.ofNat c) = Nat.testBit c (7 - j) := by decide +kernel
  have := h ⟨j, hj⟩ ⟨c.toNat, c.toNat_lt⟩
  simpa using this

theorem mask_lt {i j : Nat} (hi : i < 8) (hj : j < 8) :
    (mask i).toNat < (mask j).toNat ↔ i < j := by
  have h : ∀ i j : Fin 8, (mask i).toNat < (mask j).toNat ↔ i < j := by decide
  exact h ⟨i, hi⟩ ⟨j, hj⟩

/-- The mask of two bytes is that of their highest differing bit. -/
theorem criticalOtherbits_spec {x y : UInt8} (h : x ≠ y) :
    ∃ j < 8, criticalOtherbits x y = (mask j).toUInt64 ∧
      x.toNat.testBit (7 - j) ≠ y.toNat.testBit (7 - j) ∧
      ∀ i < j, x.toNat.testBit (7 - i) = y.toNat.testBit (7 - i) := by
  have key : ∀ z : Fin 256, z ≠ 0 → ∃ j : Fin 8,
      criticalOtherbits (UInt8.ofNat z) 0 = (mask j).toUInt64 ∧
      Nat.testBit z (7 - j) = true ∧ ∀ i : Fin 8, i < j → Nat.testBit z (7 - i) = false := by
    decide +kernel
  have hz : (⟨(x ^^^ y).toNat, (x ^^^ y).toNat_lt⟩ : Fin 256) ≠ 0 := by
    intro he
    apply h
    have he : (x ^^^ y).toNat = 0 := congrArg Fin.val he
    have : x ^^^ y = 0 := UInt8.toNat_inj.mp he
    simpa using this
  obtain ⟨j, hc, hbit, hlow⟩ := key _ hz
  refine ⟨j, j.isLt, ?_, ?_, ?_⟩
  · rw [← hc]
    simp [criticalOtherbits]
  · simp only [UInt8.toNat_xor, Nat.testBit_xor] at hbit
    simpa using hbit
  · intro i hi
    have := hlow ⟨i, hi.trans j.isLt⟩ hi
    simp only [UInt8.toNat_xor, Nat.testBit_xor] at this
    simpa using this

theorem bitAt_take {k : List UInt8} {n i : Nat} (hi : i < 8 * n) :
    bitAt (k.take n) i = bitAt k i := by
  unfold bitAt
  rw [List.getD_eq_getElem?_getD, List.getD_eq_getElem?_getD, List.getElem?_take_of_lt (by omega)]

theorem bitAt_eq {a b : List UInt8} {i : Nat} (h : a[i / 8]? = b[i / 8]?) :
    bitAt a i = bitAt b i := by
  unfold bitAt
  rw [List.getD_eq_getElem?_getD, List.getD_eq_getElem?_getD, h]

/-- Bytes with the same eight bits are the same. -/
theorem byte_ext {x y : UInt8} (h : ∀ j < 8, x.toNat.testBit (7 - j) = y.toNat.testBit (7 - j)) :
    x = y := by
  apply UInt8.toNat_inj.mp
  apply Nat.eq_of_testBit_eq
  intro i
  by_cases hi : i < 8
  · have := h (7 - i) (by omega)
    rwa [show 7 - (7 - i) = i by omega] at this
  · have hpow : 2 ^ 8 ≤ 2 ^ i := Nat.pow_le_pow_right (by omega) (by omega)
    rw [Nat.testBit_lt_two_pow (x.toNat_lt.trans_le hpow),
      Nat.testBit_lt_two_pow (y.toNat_lt.trans_le hpow)]

/-- Keys agree on the bits of their first bytes if these are the same. -/
theorem agree_iff_take {a b : List UInt8} {n : Nat} (ha : n ≤ a.length) (hb : n ≤ b.length) :
    Agree (bitAt a) (bitAt b) (8 * n) ↔ a.take n = b.take n := by
  constructor
  · intro h
    apply List.ext_getElem (by simp [ha, hb])
    intro i hi _
    have hi : i < n := by
      rw [List.length_take] at hi
      omega
    rw [List.getElem_take, List.getElem_take]
    apply byte_ext
    intro j hj
    have := h (8 * i + j) (by omega)
    unfold bitAt at this
    rw [show (8 * i + j) / 8 = i by omega, show (8 * i + j) % 8 = j by omega] at this
    rwa [List.getD_eq_getElem _ _ (by omega), List.getD_eq_getElem _ _ (by omega)] at this
  · intro h i hi
    rw [← bitAt_take hi, h, bitAt_take hi]

theorem keyByte_eq {k : List UInt8} {klen : Nat} (hk : klen ≤ k.length) (byte : Nat) :
    keyByte k klen byte = some ((k.take klen).getD byte 0) := by
  unfold keyByte
  rw [List.getD_eq_getElem?_getD]
  split
  · rename_i h
    rw [List.getElem?_take_of_lt h, List.getElem?_eq_getElem (by omega)]
    rfl
  · rename_i h
    rw [List.getElem?_eq_none (by rw [List.length_take]; omega)]
    rfl

/-- The side that a node with the mask of a position takes. -/
theorem direction_bitAt (k : List UInt8) (i : Nat) :
    direction (mask (i % 8)) (k.getD (i / 8) 0) = bitAt k i :=
  direction_mask (Nat.mod_lt _ (by omega)) _

theorem differingByte_from {p k : List UInt8} {n i : Nat} (hp : i + n ≤ p.length)
    (hk : i + n ≤ k.length) :
    (differingByte p k n i = some none ∧ ∀ j, i ≤ j → j < i + n → p[j]? = k[j]?) ∨
    ∃ m, differingByte p k n i = some (some m) ∧ m < i + n ∧ p[m]? ≠ k[m]? ∧
      ∀ j, i ≤ j → j < m → p[j]? = k[j]? := by
  induction n generalizing i with
  | zero => exact .inl ⟨rfl, fun j h₁ h₂ => by omega⟩
  | succ n ih =>
    have hpi := List.getElem?_eq_getElem (l := p) (i := i) (by omega)
    have hki := List.getElem?_eq_getElem (l := k) (i := i) (by omega)
    by_cases he : p[i] = k[i]
    · have hstep : differingByte p k (n + 1) i = differingByte p k n (i + 1) := by
        rw [differingByte, hpi, hki]
        simp [he]
      have hsame : ∀ j, j = i → p[j]? = k[j]? := by
        rintro j rfl
        rw [hpi, hki, he]
      rw [hstep]
      obtain ⟨hd, hall⟩ | ⟨m, hd, hm, hne, hall⟩ := ih (i := i + 1) (by omega) (by omega)
      · refine .inl ⟨hd, ?_⟩
        intro j h₁ h₂
        by_cases hj : j = i
        · exact hsame j hj
        · exact hall j (by omega) (by omega)
      · refine .inr ⟨m, hd, by omega, hne, ?_⟩
        intro j h₁ h₂
        by_cases hj : j = i
        · exact hsame j hj
        · exact hall j (by omega) h₂
    · refine .inr ⟨i, ?_, by omega, ?_, fun j h₁ h₂ => by omega⟩
      · rw [differingByte, hpi, hki]
        simp [he]
      · rw [hpi, hki]
        simpa using he

/-- The loops over two keys end behind them if they are the same, or at the first byte that
differs. -/
theorem differingByte_spec {p k : List UInt8} {n : Nat} (hp : n ≤ p.length) (hk : n ≤ k.length) :
    (differingByte p k n 0 = some none ∧ p.take n = k.take n) ∨
    ∃ m < n, differingByte p k n 0 = some (some m) ∧ p[m]? ≠ k[m]? ∧
      ∀ j < m, p[j]? = k[j]? := by
  obtain ⟨hd, hall⟩ | ⟨m, hd, hm, hne, hall⟩ :=
    differingByte_from (p := p) (k := k) (n := n) (i := 0) (by omega) (by omega)
  · refine .inl ⟨hd, ?_⟩
    apply List.ext_getElem?
    intro j
    by_cases hj : j < n
    · rw [List.getElem?_take_of_lt hj, List.getElem?_take_of_lt hj]
      exact hall j (by omega) (by omega)
    · rw [List.getElem?_eq_none (by rw [List.length_take]; omega),
        List.getElem?_eq_none (by rw [List.length_take]; omega)]
  · exact .inr ⟨m, by omega, hd, hne, fun j hj => hall j (by omega) hj⟩

/-- The byte and the mask of a new node name the first bit where two keys differ, and its direction
is that of the old key. -/
theorem critical_spec {p k : List UInt8} {m : Nat} {x y : UInt8} (hx : p[m]? = some x)
    (hy : k[m]? = some y) (hne : x ≠ y) (hall : ∀ j < m, p[j]? = k[j]?) :
    ∃ d, d / 8 = m ∧ criticalOtherbits x y = (mask (d % 8)).toUInt64 ∧
      Agree (bitAt k) (bitAt p) d ∧ bitAt p d = !bitAt k d ∧
      ((1 + (criticalOtherbits x y ||| x.toUInt64).toNat) >>> 8 != 0) = !bitAt k d := by
  obtain ⟨j, hj, hmask, hbit, hlow⟩ := criticalOtherbits_spec hne
  have hdiv : ∀ i < 8, (8 * m + i) / 8 = m := by intro i hi; omega
  have hmod : ∀ i < 8, (8 * m + i) % 8 = i := by intro i hi; omega
  have hp : ∀ i < 8, bitAt p (8 * m + i) = x.toNat.testBit (7 - i) := by
    intro i hi
    unfold bitAt
    rw [hdiv i hi, hmod i hi, List.getD_eq_getElem?_getD, hx]
    rfl
  have hk : ∀ i < 8, bitAt k (8 * m + i) = y.toNat.testBit (7 - i) := by
    intro i hi
    unfold bitAt
    rw [hdiv i hi, hmod i hi, List.getD_eq_getElem?_getD, hy]
    rfl
  have hflip : bitAt p (8 * m + j) = !bitAt k (8 * m + j) := by
    rw [hp j hj, hk j hj]
    exact Bool.eq_not_of_ne hbit
  refine ⟨8 * m + j, hdiv j hj, by rw [hmod j hj, hmask], ?_, hflip, ?_⟩
  · intro i hi
    by_cases hi8 : i / 8 < m
    · exact (bitAt_eq (hall _ hi8)).symm
    · obtain ⟨i, rfl⟩ : ∃ l, i = 8 * m + l := ⟨i - 8 * m, by omega⟩
      rw [hp i (by omega), hk i (by omega)]
      exact (hlow i (by omega)).symm
  · have hdir := direction_mask hj x
    rw [← hp j hj, hflip] at hdir
    rw [hmask, ← hdir]
    unfold direction
    simp

end Git
