import Ewokos.Git.CbShape
import Ewokos.Git.ObjectHash

/-!
# git: the tree of object names

`oidtree.c`: the crit-bit tree over the bytes of `struct object_id`, which abbreviated names are
looked up in.

* `OidTree` — the tree with the blocks of its pool; `insert`, `contains`, `each`.
* `OidTree.Holds` — the tree stands for the names that were inserted; `insert_holds`.
* `contains_eq`, `each_eq` — what a tree that stands for some names answers.

Main results: `oidtree_contains_inserted`, `oidtree_each_visits`.
-/

set_option autoImplicit false

namespace Git

open CritBit

/-! ## The bytes of a name -/

/-- The bytes of an `int`, the lowest first. -/
def algoBytes (algo : Int) : List UInt8 :=
  let n := (algo % 2 ^ 32).toNat
  [UInt8.ofNat n, UInt8.ofNat (n / 2 ^ 8), UInt8.ofNat (n / 2 ^ 16), UInt8.ofNat (n / 2 ^ 24)]

/-- The `int` that has these bytes. -/
def algoOf (bs : List UInt8) : Int :=
  let n : Nat := (bs.getD 0 0).toNat + 2 ^ 8 * (bs.getD 1 0).toNat + 2 ^ 16 * (bs.getD 2 0).toNat +
    2 ^ 24 * (bs.getD 3 0).toNat
  if n < 2 ^ 31 then n else (n : Int) - 2 ^ 32

def GIT_MAX_RAWSZ : Nat := 32
def GIT_MAX_HEXSZ : Nat := 64
def GIT_HASH_UNKNOWN : Int := 0

/-- `sizeof(struct object_id)` -/
def sizeofObjectId : Nat := 36

namespace ObjectId

/-- `hash` is an array of `GIT_MAX_RAWSZ` bytes, and `algo` an `int`. -/
structure Valid (oid : ObjectId) : Prop where
  length : oid.hash.length = GIT_MAX_RAWSZ
  le_algo : -2 ^ 31 ≤ oid.algo
  algo_lt : oid.algo < 2 ^ 31

/-- The bytes of a `struct object_id`. -/
def bytes (oid : ObjectId) : List UInt8 := oid.hash ++ algoBytes oid.algo

/-- The `struct object_id` that has these bytes. -/
def ofBytes (k : List UInt8) : ObjectId := ⟨k.take GIT_MAX_RAWSZ, algoOf (k.drop GIT_MAX_RAWSZ)⟩

end ObjectId

/-! ## Operations -/

/-- `struct oidtree`; the pool has handed out the blocks below `allocated`. -/
structure OidTree where
  tree : CbTree
  allocated : Nat

namespace OidTree

/-- `oidtree_init`, with what is in the memory of the pool. -/
def init (nodes : Nat → CbNode) : OidTree := ⟨⟨nodes, .null⟩, 0⟩

/-- `oidtree_clear` -/
def clear (ot : OidTree) : OidTree := init ot.tree.nodes

/-- `oidtree_insert`; `none` for its `BUG`. -/
def insert (ot : OidTree) (oid : ObjectId) : Option OidTree :=
  if oid.algo = 0 then none
  else do
    let on := ot.allocated
    let tree := ot.tree.setNode on { ot.tree.nodes on with k := oid.bytes }
    let (tree, _) ← cbInsert (on + 1) tree on sizeofObjectId
    some ⟨tree, on + 1⟩

/-- `oidtree_contains` -/
def contains (ot : OidTree) (oid : ObjectId) : Option Bool := do
  let klen := if oid.algo = GIT_HASH_UNKNOWN then sizeofObjectId - 4 else sizeofObjectId
  let found ← cbLookup (ot.allocated + 1) ot.tree oid.bytes klen
  some found.isSome

variable {σ : Type}

/-- `iter`; `last` is `*last_nibble_at` and `last_byte`. -/
def iter (nodes : Nat → CbNode) (algo : Int) (last : Option (Nat × UInt8))
    (fn : ObjectId → σ → CbNext × σ) (n : Nat) (arg : σ) : Option (CbNext × σ) :=
  let k := ObjectId.ofBytes (nodes n).k
  if algo ≠ GIT_HASH_UNKNOWN ∧ algo ≠ k.algo then some (.cbContinue, arg)
  else
    match last with
    | none => some (fn k arg)
    | some (at_, byte) => do
      let b ← k.hash[at_]?
      if (b ^^^ byte) &&& 0xf0 ≠ 0 then some (.cbContinue, arg) else some (fn k arg)

/-- `oidtree_each` -/
def each (ot : OidTree) (oid : ObjectId) (oidhexsz : Nat) (fn : ObjectId → σ → CbNext × σ)
    (arg : σ) : Option σ :=
  let klen := oidhexsz / 2
  if GIT_MAX_HEXSZ < oidhexsz then none
  else if oidhexsz % 2 = 1 then do
    let last_byte ← oid.hash[klen]?
    cbEach (ot.allocated + 1) ot.tree oid.bytes klen
      (iter ot.tree.nodes oid.algo (some (klen, last_byte)) fn) arg
  else
    cbEach (ot.allocated + 1) ot.tree oid.bytes klen (iter ot.tree.nodes oid.algo none fn) arg

end OidTree

/-! ## Names and their bytes -/

theorem algoOf_algoBytes {algo : Int} (h₁ : -2 ^ 31 ≤ algo) (h₂ : algo < 2 ^ 31) :
    algoOf (algoBytes algo) = algo := by
  obtain ⟨n, hn⟩ : ∃ n : Nat, algo % 2 ^ 32 = n := ⟨(algo % 2 ^ 32).toNat, by omega⟩
  unfold algoOf algoBytes
  rw [hn]
  simp only [Int.toNat_natCast, List.getD_cons_zero, List.getD_cons_succ, UInt8.toNat_ofNat']
  split <;> omega

namespace ObjectId

variable {oid o : ObjectId}

@[simp] theorem length_algoBytes (algo : Int) : (algoBytes algo).length = 4 := rfl

theorem Valid.length_bytes (h : oid.Valid) : oid.bytes.length = sizeofObjectId := by
  rw [bytes, List.length_append, h.length, length_algoBytes]
  rfl

theorem Valid.take_bytes (h : oid.Valid) {n : Nat} (hn : n ≤ GIT_MAX_RAWSZ) :
    oid.bytes.take n = oid.hash.take n := by
  rw [bytes, List.take_append_of_le_length (by rw [h.length]; exact hn)]

theorem Valid.ofBytes_bytes (h : oid.Valid) : ofBytes oid.bytes = oid := by
  have hdrop : oid.bytes.drop GIT_MAX_RAWSZ = algoBytes oid.algo := by
    rw [bytes, List.drop_left' h.length]
  unfold ofBytes
  rw [hdrop, h.take_bytes (Nat.le_refl _), List.take_of_length_le h.length.le,
    algoOf_algoBytes h.le_algo h.algo_lt]

theorem Valid.bytes_inj (h : oid.Valid) (ho : o.Valid) (he : o.bytes = oid.bytes) : o = oid := by
  rw [← h.ofBytes_bytes, ← he, ho.ofBytes_bytes]

end ObjectId

/-- Hex digit `i` of some bytes. -/
def hexDigit (l : List UInt8) (i : Nat) : UInt8 :=
  if i % 2 = 0 then l.getD (i / 2) 0 >>> 4 else l.getD (i / 2) 0 &&& 15

theorem byte_of_digits {x y : UInt8} (h₁ : x >>> 4 = y >>> 4) (h₂ : x &&& 15 = y &&& 15) :
    x = y := by
  have h₁ := congrArg UInt8.toNat h₁
  have h₂ := congrArg UInt8.toNat h₂
  simp only [UInt8.toNat_shiftRight, UInt8.toNat_and, UInt8.reduceToNat, Nat.shiftRight_eq_div_pow,
    Nat.reduceMod, Nat.reducePow]
    at h₁ h₂
  rw [show (15 : Nat) = 2 ^ 4 - 1 from rfl, Nat.and_two_pow_sub_one_eq_mod,
    Nat.and_two_pow_sub_one_eq_mod] at h₂
  apply UInt8.toNat_inj.mp
  omega

/-- Bytes that differ in the low four bits only. -/
theorem high_digit {x y : UInt8} : (x ^^^ y) &&& 0xf0 = 0 ↔ x >>> 4 = y >>> 4 := by
  have key : ∀ z : Fin 256, UInt8.ofNat z &&& 0xf0 = 0 ↔ (UInt8.ofNat z) >>> 4 = 0 := by
    decide +kernel
  have hz := key ⟨(x ^^^ y).toNat, (x ^^^ y).toNat_lt⟩
  rw [UInt8.ofNat_toNat] at hz
  have hx : (x ^^^ y) >>> 4 = (x >>> 4) ^^^ (y >>> 4) := by
    apply UInt8.toNat_inj.mp
    simp [Nat.shiftRight_xor_distrib]
  rw [hz, hx, UInt8.xor_eq_zero_iff]

/-- The digits of the first bytes are the same if these are. -/
theorem digits_iff_take {a b : List UInt8} {n : Nat} (ha : n ≤ a.length) (hb : n ≤ b.length) :
    (∀ i < 2 * n, hexDigit a i = hexDigit b i) ↔ a.take n = b.take n := by
  constructor
  · intro h
    apply List.ext_getElem (by simp [ha, hb])
    intro i hi _
    have hi : i < n := by
      rw [List.length_take] at hi
      omega
    have h₁ := h (2 * i) (by omega)
    have h₂ := h (2 * i + 1) (by omega)
    unfold hexDigit at h₁ h₂
    rw [if_pos (by omega), if_pos (by omega), show 2 * i / 2 = i by omega] at h₁
    rw [if_neg (by omega), if_neg (by omega), show (2 * i + 1) / 2 = i by omega] at h₂
    rw [List.getElem_take, List.getElem_take]
    rw [List.getD_eq_getElem _ _ (by omega), List.getD_eq_getElem _ _ (by omega)] at h₁ h₂
    exact byte_of_digits h₁ h₂
  · intro h i hi
    have hget : a.getD (i / 2) 0 = b.getD (i / 2) 0 := by
      rw [List.getD_eq_getElem?_getD, List.getD_eq_getElem?_getD,
        ← List.getElem?_take_of_lt (show i / 2 < n by omega), h,
        List.getElem?_take_of_lt (show i / 2 < n by omega)]
    unfold hexDigit
    rw [hget]

/-- The name begins with the first `oidhexsz` hex digits of `pfx`, and has its algorithm if that is
known. -/
def Matches (pfx : ObjectId) (oidhexsz : Nat) (o : ObjectId) : Prop :=
  (∀ i < oidhexsz, hexDigit o.hash i = hexDigit pfx.hash i) ∧
    (pfx.algo = GIT_HASH_UNKNOWN ∨ pfx.algo = o.algo)

theorem matches_even {pfx o : ObjectId} (hp : pfx.Valid) (ho : o.Valid) {n : Nat}
    (hn : n ≤ GIT_MAX_RAWSZ) :
    Matches pfx (2 * n) o ↔ o.bytes.take n = pfx.bytes.take n ∧
      (pfx.algo = GIT_HASH_UNKNOWN ∨ pfx.algo = o.algo) := by
  rw [Matches, ho.take_bytes hn, hp.take_bytes hn,
    digits_iff_take (by rw [ho.length]; exact hn) (by rw [hp.length]; exact hn)]

theorem matches_odd {pfx o : ObjectId} {n : Nat} :
    Matches pfx (2 * n + 1) o ↔ Matches pfx (2 * n) o ∧
      (o.hash.getD n 0 ^^^ pfx.hash.getD n 0) &&& 0xf0 = 0 := by
  have hdigit : ∀ x : ObjectId, hexDigit x.hash (2 * n) = x.hash.getD n 0 >>> 4 := by
    intro x
    rw [hexDigit, if_pos (by omega), show 2 * n / 2 = n by omega]
  rw [high_digit, ← hdigit, ← hdigit, Matches, Matches]
  constructor
  · rintro ⟨h, ha⟩
    exact ⟨⟨fun i hi => h i (by omega), ha⟩, h _ (by omega)⟩
  · rintro ⟨⟨h, ha⟩, hlast⟩
    refine ⟨?_, ha⟩
    intro i hi
    obtain hi | rfl : i < 2 * n ∨ i = 2 * n := by omega
    · exact h i hi
    · exact hlast

/-! ## Trees that stand for names -/

/-- A store to a block that is not in the tree. -/
theorem Built.setNode {klen a : Nat} {t : CbTree} {T : Trie Nat} {n : CbNode}
    (h : Built klen t T) (ha : a ∉ T.leaves) : Built klen (t.setNode a n) T := by
  have hne : ∀ q ∈ T.leaves, q ≠ a := by
    rintro q hq rfl
    exact ha hq
  refine ⟨h.repr.congr ?_, h.ordered.congr ?_, h.nodup, h.inners, ?_⟩
  · intro q hq
    exact setNode_of_ne (hne q (h.inners q hq))
  · intro q hq
    rw [setNode_of_ne (hne q hq)]
  · intro q hq
    rw [setNode_of_ne (hne q hq)]
    exact h.keys q hq

theorem Built.height_le {klen m : Nat} {t : CbTree} {T : Trie Nat} (h : Built klen t T)
    (hm : ∀ a ∈ T.leaves, a < m) : T.height ≤ m := by
  have hsub : T.inners ⊆ List.range m := by
    intro a ha
    exact List.mem_range.mpr (hm a (h.inners a ha))
  have hlen := (h.nodup.subperm hsub).length_le
  rw [List.length_range] at hlen
  exact (CritBit.height_le T).trans hlen

namespace OidTree

/-- The tree stands for the names in `l`. -/
structure Holds (ot : OidTree) (l : List ObjectId) : Prop where
  valid : ∀ o ∈ l, o.Valid
  known : ∀ o ∈ l, o.algo ≠ GIT_HASH_UNKNOWN
  root : l = [] → ot.tree.root = .null
  built : l ≠ [] → ∃ T, Built sizeofObjectId ot.tree T ∧ (∀ a ∈ T.leaves, a < ot.allocated) ∧
    ∀ k, (∃ a ∈ T.leaves, (ot.tree.nodes a).k = k) ↔ ∃ o ∈ l, o.bytes = k

variable {ot : OidTree} {l : List ObjectId} {oid pfx : ObjectId}

theorem holds_init (nodes : Nat → CbNode) : (init nodes).Holds [] := by
  refine ⟨by simp, by simp, fun _ => rfl, fun h => absurd rfl h⟩

/-- `oidtree_insert` adds the name, unless it is there. -/
theorem insert_holds (h : ot.Holds l) (hv : oid.Valid) (ha : oid.algo ≠ GIT_HASH_UNKNOWN) :
    ∃ ot', ot.insert oid = some ot' ∧ ot'.Holds (oid :: l) := by
  have hvalid : ∀ o ∈ oid :: l, o.Valid := by
    intro o ho
    obtain rfl | ho := List.mem_cons.mp ho
    · exact hv
    · exact h.valid o ho
  have hknown : ∀ o ∈ oid :: l, o.algo ≠ GIT_HASH_UNKNOWN := by
    intro o ho
    obtain rfl | ho := List.mem_cons.mp ho
    · exact ha
    · exact h.known o ho
  let t := ot.tree.setNode ot.allocated { ot.tree.nodes ot.allocated with k := oid.bytes }
  have hk : (t.nodes ot.allocated).k = oid.bytes := by simp [t]
  have hklen : (t.nodes ot.allocated).k.length = sizeofObjectId := by rw [hk, hv.length_bytes]
  have hinsert : ∀ t' r, cbInsert (ot.allocated + 1) t ot.allocated sizeofObjectId = some (t', r) →
      ot.insert oid = some ⟨t', ot.allocated + 1⟩ := by
    intro t' r ht'
    change (if oid.algo = GIT_HASH_UNKNOWN then none else
      (cbInsert (ot.allocated + 1) t ot.allocated sizeofObjectId).bind fun x =>
        some (OidTree.mk x.1 (ot.allocated + 1))) = _
    rw [if_neg ha, ht']
    rfl
  by_cases hl : l = []
  · subst hl
    have hroot : t.root = .null := h.root rfl
    obtain ⟨hins, hb⟩ : cbInsert (ot.allocated + 1) t _ sizeofObjectId = _ ∧ Built _ _ _ :=
      cbInsert_first hroot hklen
    refine ⟨_, hinsert _ _ hins, hvalid, hknown, by simp, fun _ => ⟨_, hb, ?_, ?_⟩⟩
    · intro a ha
      obtain rfl : a = ot.allocated := by simpa [Trie.leaves] using ha
      exact Nat.lt_succ_self _
    · intro k
      simp [Trie.leaves, hk]
  · obtain ⟨T, hb, hlt, hkeys⟩ := h.built hl
    have hfresh : ot.allocated ∉ T.leaves := fun hm => Nat.lt_irrefl _ (hlt _ hm)
    have hold : ∀ a ∈ T.leaves, (t.nodes a).k = (ot.tree.nodes a).k := by
      intro a ha
      have hne : a ≠ ot.allocated := (hlt a ha).ne
      simp only [t, setNode_of_ne hne]
    have hkeys' : ∀ k, (∃ a ∈ T.leaves, (t.nodes a).k = k) ↔ ∃ o ∈ l, o.bytes = k := by
      intro k
      rw [← hkeys]
      constructor
      · rintro ⟨a, ha, rfl⟩
        exact ⟨a, ha, (hold a ha).symm⟩
      · rintro ⟨a, ha, rfl⟩
        exact ⟨a, ha, hold a ha⟩
    have hb' : Built sizeofObjectId t T := hb.setNode hfresh
    have hf : T.height < ot.allocated + 1 := Nat.lt_succ_of_le (hb'.height_le hlt)
    obtain ⟨b, hbm, hbk, hins⟩ | ⟨hnew, t', T', hins, hb'', hperm, hkk⟩ :=
      cbInsert_spec hb' hfresh hklen (by decide) hf
    · refine ⟨_, hinsert _ _ hins, hvalid, hknown, by simp, fun _ => ⟨T, hb', ?_, ?_⟩⟩
      · intro a ha
        exact (hlt a ha).trans (Nat.lt_succ_self _)
      · intro k
        rw [hkeys', List.exists_mem_cons_iff]
        refine ⟨.inr, ?_⟩
        rintro (rfl | ho)
        · exact (hkeys' _).mp ⟨b, hbm, hbk.trans hk⟩
        · exact ho
    · refine ⟨_, hinsert _ _ hins, hvalid, hknown, by simp, fun _ => ⟨T', hb'', ?_, ?_⟩⟩
      · intro a ha
        obtain rfl | ha := List.mem_cons.mp (hperm.subset ha)
        · exact Nat.lt_succ_self _
        · exact (hlt a ha).trans (Nat.lt_succ_self _)
      · intro k
        rw [List.exists_mem_cons_iff, ← hkeys']
        constructor
        · rintro ⟨a, ha, rfl⟩
          obtain rfl | ha := List.mem_cons.mp (hperm.subset ha)
          · exact .inl (by rw [hkk, hk])
          · exact .inr ⟨a, ha, (hkk a).symm⟩
        · rintro (rfl | ⟨a, ha, rfl⟩)
          · exact ⟨_, hperm.symm.subset List.mem_cons_self, by rw [hkk, hk]⟩
          · exact ⟨a, hperm.symm.subset (List.mem_cons_of_mem _ ha), hkk a⟩

/-- `oidtree_contains` finds the names that were inserted; without an algorithm the bytes decide. -/
theorem contains_eq (h : ot.Holds l) (hv : oid.Valid) :
    ot.contains oid = some (l.any fun o =>
      o.hash == oid.hash && (oid.algo == GIT_HASH_UNKNOWN || o.algo == oid.algo)) := by
  by_cases hl : l = []
  · subst hl
    simp only [contains, cbLookup, h.root rfl]
    rfl
  · obtain ⟨T, hb, hlt, hkeys⟩ := h.built hl
    have hf : T.height < ot.allocated + 1 := Nat.lt_succ_of_le (hb.height_le hlt)
    have hcontains : ∀ n ≤ sizeofObjectId,
        ∃ found, cbLookup (ot.allocated + 1) ot.tree oid.bytes n = some found ∧
          (found.isSome = true ↔ ∃ o ∈ l, o.bytes.take n = oid.bytes.take n) := by
      intro n hn
      obtain ⟨found, hfound, hiff⟩ := cbLookup_spec hb hn (by rw [hv.length_bytes]; exact hn) hf
      refine ⟨found, hfound, hiff.trans ?_⟩
      constructor
      · rintro ⟨a, ha, he⟩
        obtain ⟨o, ho, hk⟩ := (hkeys _).mp ⟨a, ha, rfl⟩
        exact ⟨o, ho, by rw [hk, he]⟩
      · rintro ⟨o, ho, he⟩
        obtain ⟨a, ha, hk⟩ := (hkeys _).mpr ⟨o, ho, rfl⟩
        exact ⟨a, ha, by rw [hk, he]⟩
    by_cases halgo : oid.algo = GIT_HASH_UNKNOWN
    · obtain ⟨found, hfound, hiff⟩ := hcontains (sizeofObjectId - 4) (by decide)
      simp only [contains, if_pos halgo, hfound, Option.bind_eq_bind, Option.bind_some,
        Option.some.injEq]
      rw [Bool.eq_iff_iff, hiff, List.any_eq_true]
      refine exists_congr fun o => and_congr_right fun ho => ?_
      have hlen : sizeofObjectId - 4 = GIT_MAX_RAWSZ := rfl
      have hov := h.valid o ho
      rw [hlen, hov.take_bytes (Nat.le_refl _), hv.take_bytes (Nat.le_refl _),
        List.take_of_length_le hov.length.le, List.take_of_length_le hv.length.le]
      simp [halgo]
    · obtain ⟨found, hfound, hiff⟩ := hcontains sizeofObjectId (Nat.le_refl _)
      simp only [contains, if_neg halgo, hfound, Option.bind_eq_bind, Option.bind_some,
        Option.some.injEq]
      rw [Bool.eq_iff_iff, hiff, List.any_eq_true]
      refine exists_congr fun o => and_congr_right fun ho => ?_
      have hov := h.valid o ho
      rw [List.take_of_length_le hov.length_bytes.le, List.take_of_length_le hv.length_bytes.le]
      constructor
      · intro he
        obtain rfl := hv.bytes_inj hov he
        simp
      · intro he
        obtain ⟨hash, algo⟩ := o
        obtain ⟨hash', algo'⟩ := oid
        simp only [Bool.and_eq_true, beq_iff_eq, Bool.or_eq_true] at he halgo
        obtain ⟨rfl, he⟩ := he
        obtain rfl := he.resolve_left halgo
        rfl

/-- The first bit where two keys differ decides between their bytes. -/
theorem lt_of_before {a b : List UInt8} {p : Nat} (hlen : a.length = b.length)
    (hag : Agree (bitAt a) (bitAt b) p) (ha : bitAt a p = false) (hb : bitAt b p = true) :
    a < b := by
  have hpb : p / 8 < b.length := by
    by_contra hge
    rw [bitAt, List.getD_eq_default _ _ (by omega)] at hb
    simp at hb
  have hpa : p / 8 < a.length := by omega
  have htake := (agree_iff_take hpa.le hpb.le).mp (hag.mono (by omega))
  refine List.lt_iff_exists.mpr (.inr ⟨p / 8, hpa, hpb, ?_, ?_⟩)
  · intro j hj
    have h := congrArg (fun l : List UInt8 => l[j]?) htake
    simp only [List.getElem?_take_of_lt hj] at h
    rwa [List.getElem?_eq_getElem, List.getElem?_eq_getElem, Option.some.injEq] at h
  · rw [bitAt, List.getD_eq_getElem _ _ hpa] at ha
    rw [bitAt, List.getD_eq_getElem _ _ hpb] at hb
    apply UInt8.lt_iff_toNat_lt.mpr
    refine Nat.lt_of_testBit _ ha hb ?_
    intro m hm
    by_cases hm8 : m < 8
    · -- a higher bit of this byte comes before position `p`
      have h := hag (8 * (p / 8) + (7 - m)) (by omega)
      rw [bitAt, bitAt, show (8 * (p / 8) + (7 - m)) / 8 = p / 8 by omega,
        show 7 - (8 * (p / 8) + (7 - m)) % 8 = m by omega,
        List.getD_eq_getElem _ _ hpa, List.getD_eq_getElem _ _ hpb] at h
      exact h
    · have hpow : 2 ^ 8 ≤ 2 ^ m := Nat.pow_le_pow_right (by omega) (by omega)
      rw [Nat.testBit_lt_two_pow (a[p / 8].toNat_lt.trans_le hpow),
        Nat.testBit_lt_two_pow (b[p / 8].toNat_lt.trans_le hpow)]

variable {σ : Type}

/-- Is the name one that `iter` passes on? -/
def passes (algo : Int) (last : Option (Nat × UInt8)) (o : ObjectId) : Bool :=
  (algo == GIT_HASH_UNKNOWN || algo == o.algo) &&
    match last with
    | none => true
    | some (at_, byte) => (o.hash.getD at_ 0 ^^^ byte) &&& 0xf0 == 0

/-- `iter` calls `fn` with the names it passes on, and goes on behind the others. -/
theorem iter_eq {nodes : Nat → CbNode} {algo : Int} {last : Option (Nat × UInt8)}
    {fn : ObjectId → σ → CbNext × σ} {a : Nat} {o : ObjectId} (hv : o.Valid)
    (hk : (nodes a).k = o.bytes) (hlast : ∀ x ∈ last, x.1 < GIT_MAX_RAWSZ) (arg : σ) :
    iter nodes algo last fn a arg =
      some (if passes algo last o then fn o arg else (.cbContinue, arg)) := by
  unfold iter passes
  rw [hk, hv.ofBytes_bytes]
  by_cases halgo : algo ≠ GIT_HASH_UNKNOWN ∧ algo ≠ o.algo
  · rw [if_pos halgo, if_neg (by simp [halgo.1, halgo.2])]
  · have hknown : (algo == GIT_HASH_UNKNOWN || algo == o.algo) = true := by
      rw [not_and_or, not_not, not_not] at halgo
      simpa using halgo
    rw [if_neg halgo, hknown, Bool.true_and]
    cases last with
    | none => simp
    | some x =>
      obtain ⟨at_, byte⟩ := x
      have hat : at_ < o.hash.length := by
        rw [hv.length]
        exact hlast _ rfl
      simp only [List.getElem?_eq_getElem hat, List.getD_eq_getElem _ _ hat, Option.bind_eq_bind,
        Option.bind_some, beq_iff_eq]
      split <;> simp_all

/-- `oidtree_each` goes down the tree by whole bytes, and `iter` looks at the last digit of an odd
prefix. -/
theorem each_eq_cbEach (hv : pfx.Valid) {oidhexsz n : Nat} (hx : oidhexsz ≤ GIT_MAX_HEXSZ)
    (hn : oidhexsz / 2 = n) (fn : ObjectId → σ → CbNext × σ) (arg : σ) :
    ∃ last : Option (Nat × UInt8),
      (∀ x ∈ last, x.1 < GIT_MAX_RAWSZ) ∧
      (∀ o : ObjectId, o.Valid → (Matches pfx oidhexsz o ↔
        o.bytes.take n = pfx.bytes.take n ∧ passes pfx.algo last o = true)) ∧
      ot.each pfx oidhexsz fn arg = cbEach (ot.allocated + 1) ot.tree pfx.bytes n
        (iter ot.tree.nodes pfx.algo last fn) arg := by
  have hx' : oidhexsz ≤ 64 := hx
  have hn32 : n ≤ GIT_MAX_RAWSZ := by
    change n ≤ 32
    omega
  have hnot : ¬GIT_MAX_HEXSZ < oidhexsz := by omega
  by_cases hodd : oidhexsz % 2 = 1
  · obtain rfl : oidhexsz = 2 * n + 1 := by omega
    have hlt : n < GIT_MAX_RAWSZ := by
      change n < 32
      omega
    have hlen : n < pfx.hash.length := by rw [hv.length]; exact hlt
    refine ⟨some (n, pfx.hash.getD n 0), by simpa using hlt, ?_, ?_⟩
    · intro o ho
      rw [matches_odd, matches_even hv ho hn32, passes]
      simp only [Bool.and_eq_true, Bool.or_eq_true, beq_iff_eq]
      tauto
    · simp only [each, if_neg hnot, if_pos hodd, hn, List.getElem?_eq_getElem hlen,
        Option.bind_eq_bind, Option.bind_some, List.getD_eq_getElem _ _ hlen]
  · obtain rfl : oidhexsz = 2 * n := by omega
    refine ⟨none, by simp, ?_, ?_⟩
    · intro o ho
      rw [matches_even hv ho hn32, passes]
      simp
    · simp only [each, if_neg hnot, if_neg hodd, hn]

/-- The names that `oidtree_each` visits, in the order of their bytes. -/
theorem each_eq (h : ot.Holds l) (hv : pfx.Valid) {oidhexsz : Nat} (hx : oidhexsz ≤ GIT_MAX_HEXSZ)
    (fn : ObjectId → σ → CbNext × σ) (arg : σ) :
    ∃ found : List ObjectId, found.Pairwise (fun a b => a.bytes < b.bytes) ∧
      (∀ o, o ∈ found ↔ o ∈ l ∧ Matches pfx oidhexsz o) ∧
      ot.each pfx oidhexsz fn arg = some (visit fn found arg).2 := by
  obtain ⟨n, hn⟩ : ∃ n, oidhexsz / 2 = n := ⟨_, rfl⟩
  have hn32 : n ≤ GIT_MAX_RAWSZ := by
    change oidhexsz ≤ 64 at hx
    change n ≤ 32
    omega
  obtain ⟨last, hlast, hmatch, heach⟩ : ∃ last : Option (Nat × UInt8), _ ∧ _ ∧
      ot.each pfx oidhexsz fn arg = _ := each_eq_cbEach hv hx hn fn arg
  rw [heach]
  by_cases hl : l = []
  · subst hl
    refine ⟨[], .nil, by simp, ?_⟩
    rw [cbEach, if_pos (h.root rfl)]
    rfl
  · obtain ⟨T, hb, hlt, hkeys⟩ := h.built hl
    have hf : T.height < ot.allocated + 1 := Nat.lt_succ_of_le (hb.height_le hlt)
    -- what stands at the leaves
    have hleaf : ∀ a ∈ T.leaves, ∃ o ∈ l, (ot.tree.nodes a).k = o.bytes ∧
        ObjectId.ofBytes (ot.tree.nodes a).k = o := by
      intro a ha
      obtain ⟨o, ho, hk⟩ := (hkeys _).mp ⟨a, ha, rfl⟩
      exact ⟨o, ho, hk.symm, by rw [← hk, (h.valid o ho).ofBytes_bytes]⟩
    let name : Nat → ObjectId := fun a => ObjectId.ofBytes (ot.tree.nodes a).k
    let begins : Nat → Bool := fun a => (ot.tree.nodes a).k.take n == pfx.bytes.take n
    have hiter : ∀ a ∈ T.leaves, ∀ arg, iter ot.tree.nodes pfx.algo last fn a arg =
        some (if passes pfx.algo last (name a) then fn (name a) arg else (.cbContinue, arg)) := by
      intro a ha arg
      obtain ⟨o, ho, hk, hname⟩ := hleaf a ha
      rw [iter_eq (h.valid o ho) hk hlast]
      simp only [name, hname]
    have hlen : n ≤ pfx.bytes.length := by
      rw [hv.length_bytes]
      exact hn32.trans (by decide)
    have hspec := cbEach_spec hb (hn32.trans (by decide)) hlen hiter hf arg
    refine ⟨((T.leaves.filter begins).filter fun a => passes pfx.algo last (name a)).map name,
      ?_, ?_, ?_⟩
    · rw [List.pairwise_map]
      refine ((hb.ordered.sorted.filter _).filter _).imp_of_mem ?_
      rintro a b ha hb' ⟨p, hag, h₁, h₂⟩
      obtain ⟨o, ho, hk, hname⟩ := hleaf a (List.mem_of_mem_filter (List.mem_of_mem_filter ha))
      obtain ⟨o', ho', hk', hname'⟩ :=
        hleaf b (List.mem_of_mem_filter (List.mem_of_mem_filter hb'))
      simp only [name, hname, hname', ← hk, ← hk']
      refine lt_of_before ?_ hag h₁ h₂
      rw [hk, hk', (h.valid o ho).length_bytes, (h.valid o' ho').length_bytes]
    · intro o
      simp only [List.mem_map, List.mem_filter, begins, beq_iff_eq]
      constructor
      · rintro ⟨a, ⟨⟨ha, hpre⟩, hpass⟩, rfl⟩
        obtain ⟨o, ho, hk, hname⟩ := hleaf a ha
        simp only [name, hname] at hpass ⊢
        exact ⟨ho, (hmatch o (h.valid o ho)).mpr ⟨hk ▸ hpre, hpass⟩⟩
      · rintro ⟨ho, hm⟩
        obtain ⟨hpre, hpass⟩ := (hmatch o (h.valid o ho)).mp hm
        obtain ⟨a, ha, hk⟩ := (hkeys _).mpr ⟨o, ho, rfl⟩
        have hname : name a = o := by
          simp only [name, hk, (h.valid o ho).ofBytes_bytes]
        exact ⟨a, ⟨⟨ha, by rw [hk, hpre]⟩, by rw [hname]; exact hpass⟩, hname⟩
    · rw [hspec, visit_filter (fun a => passes pfx.algo last (name a)) (fun a => fn (name a)) _ _ _
        (fun _ _ _ => rfl), visit_map]

/-! ## Runs -/

end OidTree

/-- A call that changes the tree. -/
inductive OidCall where
  | insert (oid : ObjectId)
  | clear

namespace OidTree

/-- One call. -/
def step (ot : OidTree) : OidCall → Option OidTree
  | .insert oid => ot.insert oid
  | .clear => some ot.clear

/-- A sequence of calls. -/
def run (ot : OidTree) : List OidCall → Option OidTree
  | [] => some ot
  | c :: calls => do
    let ot ← ot.step c
    ot.run calls

/-- The names inserted since the last `oidtree_clear`, the last one first. -/
def stored (l : List ObjectId) : List OidCall → List ObjectId
  | [] => l
  | .insert oid :: calls => stored (oid :: l) calls
  | .clear :: calls => stored [] calls

/-- After a run without a `BUG` the tree stands for what was inserted. -/
theorem run_holds {ot : OidTree} {l : List ObjectId} (h : ot.Holds l) (calls : List OidCall)
    (hcalls : ∀ oid, .insert oid ∈ calls → oid.Valid ∧ oid.algo ≠ GIT_HASH_UNKNOWN) :
    ∃ ot', ot.run calls = some ot' ∧ ot'.Holds (stored l calls) := by
  induction calls generalizing ot l with
  | nil => exact ⟨ot, rfl, h⟩
  | cons c calls ih =>
    have hrest := fun oid hm => hcalls oid (List.mem_cons_of_mem c hm)
    cases c with
    | insert oid =>
      obtain ⟨hv, ha⟩ := hcalls oid List.mem_cons_self
      obtain ⟨ot₁, hins, h₁⟩ := insert_holds h hv ha
      obtain ⟨ot₂, hrun, h₂⟩ := ih h₁ hrest
      refine ⟨ot₂, ?_, h₂⟩
      rw [run, step, hins]
      exact hrun
    | clear => exact ih (holds_init ot.tree.nodes) hrest

end OidTree

open OidTree

/-- **What was inserted is found.**  After any sequence of `oidtree_insert` and `oidtree_clear`,
`oidtree_contains` finds exactly the names inserted since the last clear, and for a name without an
algorithm those with its bytes. -/
theorem oidtree_contains_inserted (nodes : Nat → CbNode) (calls : List OidCall)
    (hcalls : ∀ oid, .insert oid ∈ calls → oid.Valid ∧ oid.algo ≠ GIT_HASH_UNKNOWN) :
    ∃ ot, (init nodes).run calls = some ot ∧ ∀ oid : ObjectId, oid.Valid →
      ∃ found, ot.contains oid = some found ∧
        (found = true ↔ ∃ o ∈ stored [] calls, o.hash = oid.hash ∧
          (oid.algo = GIT_HASH_UNKNOWN ∨ o.algo = oid.algo)) := by
  obtain ⟨ot, hrun, h⟩ := run_holds (holds_init nodes) calls hcalls
  refine ⟨ot, hrun, ?_⟩
  intro oid hv
  refine ⟨_, contains_eq h hv, ?_⟩
  simp

/-- A name of SHA-1, from its first two bytes. -/
def shortName (x y : UInt8) : ObjectId := ⟨x :: y :: List.replicate 30 0, 1⟩

theorem shortName_valid (x y : UInt8) : (shortName x y).Valid :=
  ⟨by simp [shortName, GIT_MAX_RAWSZ], by simp [shortName], by simp [shortName]⟩

/-- Three names, one of them twice, and a clear between the first and the others. -/
def shortCalls : List OidCall :=
  [.insert (shortName 0x77 0), .clear, .insert (shortName 0x12 0x34), .insert (shortName 0x13 0),
    .insert (shortName 0x12 0x3f), .insert (shortName 0x13 0)]

theorem shortCalls_valid (oid : ObjectId) (h : .insert oid ∈ shortCalls) :
    oid.Valid ∧ oid.algo ≠ GIT_HASH_UNKNOWN := by
  simp only [shortCalls, List.mem_cons, OidCall.insert.injEq, reduceCtorEq, List.not_mem_nil,
    false_or, or_false] at h
  obtain rfl | rfl | rfl | rfl | rfl := h
  all_goals exact ⟨shortName_valid _ _, by simp [shortName, GIT_HASH_UNKNOWN]⟩

theorem oidtree_contains_inserted_short :
    ∃ ot, (init fun _ => ⟨fun _ => .null, 0, 0, []⟩).run shortCalls = some ot ∧
      ot.contains (shortName 0x12 0x3f) = some true ∧
      ot.contains (shortName 0x77 0) = some false := by
  obtain ⟨ot, hrun, h⟩ := oidtree_contains_inserted (fun _ => ⟨fun _ => .null, 0, 0, []⟩)
    shortCalls shortCalls_valid
  refine ⟨ot, hrun, ?_, ?_⟩
  · obtain ⟨found, hfound, hiff⟩ := h _ (shortName_valid 0x12 0x3f)
    rw [hfound, hiff.mpr]
    exact ⟨shortName 0x12 0x3f, by decide, rfl, .inr rfl⟩
  · obtain ⟨found, hfound, hiff⟩ := h _ (shortName_valid 0x77 0)
    have hno : ¬∃ o ∈ stored [] shortCalls, o.hash = (shortName 0x77 0).hash ∧
        ((shortName 0x77 0).algo = GIT_HASH_UNKNOWN ∨ o.algo = (shortName 0x77 0).algo) := by
      decide
    rw [hfound, Bool.eq_false_iff.mpr (mt hiff.mp hno)]

/-- **The names behind an abbreviation.**  After any sequence of `oidtree_insert` and
`oidtree_clear`, `oidtree_each` calls its function with exactly the stored names that begin with the
hex digits and have the algorithm, each one once, in the order of their bytes, until the function
breaks off. -/
theorem oidtree_each_visits {σ : Type} (nodes : Nat → CbNode) (calls : List OidCall)
    (hcalls : ∀ oid, .insert oid ∈ calls → oid.Valid ∧ oid.algo ≠ GIT_HASH_UNKNOWN)
    (pfx : ObjectId) (hpfx : pfx.Valid) (oidhexsz : Nat) (hx : oidhexsz ≤ GIT_MAX_HEXSZ)
    (fn : ObjectId → σ → CbNext × σ) (arg : σ) :
    ∃ ot found, (init nodes).run calls = some ot ∧
      found.Pairwise (fun a b => a.bytes < b.bytes) ∧
      (∀ o, o ∈ found ↔ o ∈ stored [] calls ∧ Matches pfx oidhexsz o) ∧
      ot.each pfx oidhexsz fn arg = some (visit fn found arg).2 := by
  obtain ⟨ot, hrun, h⟩ := run_holds (holds_init nodes) calls hcalls
  obtain ⟨found, hsorted, hmem, heach⟩ := each_eq h hpfx hx fn arg
  exact ⟨ot, found, hrun, hsorted, hmem, heach⟩

/-- Two of the names begin with `123`. -/
theorem oidtree_each_visits_short :
    ∃ ot found, (init fun _ => ⟨fun _ => .null, 0, 0, []⟩).run shortCalls = some ot ∧
      shortName 0x12 0x34 ∈ found ∧ shortName 0x12 0x3f ∈ found ∧ shortName 0x13 0 ∉ found ∧
      ot.each (shortName 0x12 0x30) 3 (fun o os => (.cbContinue, o :: os)) [] =
        some (visit (fun o os => (.cbContinue, o :: os)) found []).2 := by
  obtain ⟨ot, found, hrun, -, hmem, heach⟩ :=
    oidtree_each_visits (fun _ => ⟨fun _ => .null, 0, 0, []⟩) shortCalls shortCalls_valid
      (shortName 0x12 0x30) (shortName_valid _ _) 3 (by decide)
      (fun o os => (.cbContinue, o :: os)) []
  refine ⟨ot, found, hrun, ?_, ?_, ?_, heach⟩
  · exact (hmem _).mpr ⟨by decide, by decide, .inr rfl⟩
  · exact (hmem _).mpr ⟨by decide, by decide, .inr rfl⟩
  · intro h
    have h₂ := ((hmem _).mp h).2.1 2 (by decide)
    revert h₂
    decide

end Git
