import Ewokos.Git.CbTree

/-!
# git: the crit-bit tree at work

What `cb_insert` builds from the nodes it is given, and what is found there.

* `Represents` — a pointer leads to a tree of `CritBit`, with the position of a node in its byte and
  its mask.
* `place_link` — the pointer that `cb_insert` finds, redirected to the new node, makes the tree with
  the new entry.
* `Built` — what `cb_insert` keeps; `cbInsert_spec`.
* `cbLookup_spec`, `cbEach_spec` — what `cb_lookup` finds and what `cb_each` visits.
-/

set_option autoImplicit false

namespace Git

open CritBit

/-! ## Trees in memory -/

/-- The pointer leads to the tree. -/
def Represents (nodes : Nat → CbNode) : Trie Nat → CbPtr → Prop
  | .leaf a, p => p = .leaf a
  | .node a pos l r, p => p = .inner a ∧ (nodes a).byte = pos / 8 ∧
      (nodes a).otherbits = mask (pos % 8) ∧
      Represents nodes l ((nodes a).child false) ∧ Represents nodes r ((nodes a).child true)

/-- The pointer is not a child of one of these nodes. -/
def Where.Outside (w : Where) (as : List Nat) : Prop := ∀ q dir, w = .child q dir → q ∉ as

variable {nodes nodes' : Nat → CbNode} {T : Trie Nat} {p : CbPtr} {t : CbTree} {w : Where}

/-- Only the inner nodes matter. -/
theorem Represents.congr (h : ∀ a ∈ T.inners, nodes' a = nodes a) (hr : Represents nodes T p) :
    Represents nodes' T p := by
  induction T generalizing p with
  | leaf a => exact hr
  | node a pos l r ihl ihr =>
    obtain ⟨hp, hbyte, hother, hl, hr⟩ := hr
    have ha : nodes' a = nodes a := h a (by simp [Trie.inners])
    refine ⟨hp, by rw [ha, hbyte], by rw [ha, hother], ?_, ?_⟩
    · rw [ha]
      exact ihl (fun b hb => h b (by simp [Trie.inners, hb])) hl
    · rw [ha]
      exact ihr (fun b hb => h b (by simp [Trie.inners, hb])) hr

/-- The bits of a search key: those of its first `klen` bytes. -/
def searchBits (k : List UInt8) (klen : Nat) : Nat → Bool := bitAt (k.take klen)

/-- `cb_internal_best_match` follows the bits of the key. -/
theorem cbBestMatch_spec {k : List UInt8} {klen fuel : Nat} (hr : Represents nodes T p)
    (hk : klen ≤ k.length) (hf : T.height < fuel) :
    cbInternalBestMatch nodes k klen fuel p = some (.leaf (T.best (searchBits k klen))) := by
  induction T generalizing p fuel with
  | leaf a =>
    obtain rfl : p = .leaf a := hr
    obtain ⟨fuel, rfl⟩ : ∃ f, fuel = f + 1 := ⟨fuel - 1, by simp [Trie.height] at hf; omega⟩
    rfl
  | node a pos l r ihl ihr =>
    obtain ⟨rfl, hbyte, hother, hl, hr⟩ := hr
    simp only [Trie.height] at hf
    obtain ⟨fuel, rfl⟩ : ∃ f, fuel = f + 1 := ⟨fuel - 1, by omega⟩
    rw [cbInternalBestMatch, keyByte_eq hk, hbyte, hother]
    show cbInternalBestMatch nodes k klen fuel
      ((nodes a).child (direction (mask (pos % 8)) ((k.take klen).getD (pos / 8) 0))) = _
    rw [direction_bitAt, Trie.best]
    cases hb : searchBits k klen pos with
    | false =>
      rw [show bitAt (k.take klen) pos = false from hb]
      simpa using ihl hl (by omega)
    | true =>
      rw [show bitAt (k.take klen) pos = true from hb]
      simpa using ihr hr (by omega)

/-! ## Linking a new node -/

theorem link_nodes_of_ne {a q : Nat} {dir : Bool} (hq : q ≠ a) (hw : w.Outside [q]) :
    (t.link a dir w).nodes q = t.nodes q := by
  unfold CbTree.link
  cases w with
  | root => simp [CbTree.write, CbTree.setChild, CbTree.setNode, Function.update_of_ne hq]
  | child c d =>
    have hc : q ≠ c := by
      rintro rfl
      exact hw q d rfl (by simp)
    simp [CbTree.write, CbTree.setChild, CbTree.setNode, Function.update_of_ne hq,
      Function.update_of_ne hc]

theorem link_nodes_self {a : Nat} {dir : Bool} (hw : w.Outside [a]) :
    (t.link a dir w).nodes a =
      { t.nodes a with child := Function.update (t.nodes a).child dir (t.read w) } := by
  unfold CbTree.link
  cases w with
  | root => simp [CbTree.write, CbTree.setChild, CbTree.setNode]
  | child c d =>
    have hc : a ≠ c := by
      rintro rfl
      exact hw a d rfl (by simp)
    simp [CbTree.write, CbTree.setChild, CbTree.setNode, Function.update_of_ne hc]

theorem read_link {a : Nat} {dir : Bool} : (t.link a dir w).read w = .inner a := by
  unfold CbTree.link
  cases w <;> simp [CbTree.write, CbTree.read, CbTree.setChild, CbTree.setNode]

/-- Another pointer keeps its value. -/
theorem read_link_of_ne {a : Nat} {dir : Bool} {w' : Where} (hw : w' ≠ w)
    (ha : w'.Outside [a]) : (t.link a dir w).read w' = t.read w' := by
  unfold CbTree.link
  cases w' with
  | root =>
    cases w with
    | root => exact absurd rfl hw
    | child c d => simp [CbTree.write, CbTree.read, CbTree.setChild, CbTree.setNode]
  | child c' d' =>
    have hca : c' ≠ a := by
      rintro rfl
      exact ha c' d' rfl (by simp)
    cases w with
    | root =>
      simp [CbTree.write, CbTree.read, CbTree.setChild, CbTree.setNode, Function.update_of_ne hca]
    | child c d =>
      by_cases hc : c' = c
      · subst hc
        have hd : d' ≠ d := by
          rintro rfl
          exact hw rfl
        simp [CbTree.write, CbTree.read, CbTree.setChild, CbTree.setNode,
          Function.update_of_ne hca, Function.update_of_ne hd]
      · simp [CbTree.write, CbTree.read, CbTree.setChild, CbTree.setNode,
          Function.update_of_ne hca, Function.update_of_ne hc]

theorem setChild_fields (t : CbTree) (a : Nat) (dir : Bool) (p : CbPtr) (q : Nat) :
    ∃ child, (t.setChild a dir p).nodes q = { t.nodes q with child := child } := by
  by_cases hq : q = a
  · subst hq
    exact ⟨Function.update (t.nodes q).child dir p, by simp [CbTree.setChild, CbTree.setNode]⟩
  · exact ⟨(t.nodes q).child, by
      simp [CbTree.setChild, CbTree.setNode, Function.update_of_ne hq]⟩

/-- Linking stores to children only. -/
theorem link_fields (t : CbTree) (a : Nat) (dir : Bool) (w : Where) (q : Nat) :
    ∃ child, (t.link a dir w).nodes q = { t.nodes q with child := child } := by
  obtain ⟨child, h⟩ := setChild_fields t a dir (t.read w) q
  cases w with
  | root => exact ⟨child, h⟩
  | child c d =>
    obtain ⟨child', h'⟩ := setChild_fields (t.setChild a dir (t.read (.child c d))) c d (.inner a) q
    exact ⟨child', by rw [CbTree.link, CbTree.write, h', h]⟩

section Place

variable {a d klen fuel : Nat} {k : List UInt8}

/-- The new node: it tests position `d`, and has itself as the child on the side of its own bit. -/
structure Prepared (t : CbTree) (a d : Nat) (k : List UInt8) : Prop where
  byte : (t.nodes a).byte = d / 8
  otherbits : (t.nodes a).otherbits = mask (d % 8)
  child : (t.nodes a).child (bitAt k d) = .leaf a

/-- The new node linked in front of a tree tells this tree from it. -/
theorem link_join (ha : Prepared t a d k) (hr : Represents t.nodes T (t.read w))
    (haT : a ∉ T.inners) (hw : w.Outside (a :: T.inners)) :
    Represents (t.link a (!bitAt k d) w).nodes (Trie.join (bitAt k) a d T)
      ((t.link a (!bitAt k d) w).read w) := by
  have hwa : w.Outside [a] := fun q dir he hm => hw q dir he (by simp at hm; simp [hm])
  have hself : (t.link a (!bitAt k d) w).nodes a = _ := link_nodes_self hwa
  have hframe : Represents (t.link a (!bitAt k d) w).nodes T (t.read w) := by
    refine hr.congr ?_
    intro q hq
    apply link_nodes_of_ne
    · rintro rfl
      exact haT hq
    · intro c dir he hm
      obtain rfl : c = q := by simpa using hm
      exact hw c dir he (by simp [hq])
  unfold Trie.join
  cases hb : bitAt k d with
  | false =>
    rw [hb] at hself hframe
    have hchild := ha.child
    rw [hb] at hchild
    refine ⟨read_link, ?_, ?_, ?_, ?_⟩
    · rw [hself]
      exact ha.byte
    · rw [hself]
      exact ha.otherbits
    · rw [hself]
      simp [hchild, Represents]
    · rw [hself]
      simpa using hframe
  | true =>
    rw [hb] at hself hframe
    have hchild := ha.child
    rw [hb] at hchild
    refine ⟨read_link, ?_, ?_, ?_, ?_⟩
    · rw [hself]
      exact ha.byte
    · rw [hself]
      exact ha.otherbits
    · rw [hself]
      simpa using hframe
    · rw [hself]
      simp [hchild, Represents]

/-- A node is behind the new one if its position is. -/
theorem behind_iff {p d : Nat} :
    (p / 8 > d / 8 ∨ (p / 8 = d / 8 ∧ (mask (p % 8)).toNat > (mask (d % 8)).toNat)) ↔ d < p := by
  rw [gt_iff_lt, gt_iff_lt, mask_lt (Nat.mod_lt _ (by omega)) (Nat.mod_lt _ (by omega))]
  omega

/-- A link somewhere below one side of a node leaves the node and its other side as they are. -/
theorem link_below {b : Nat} {dir x : Bool} {S S' : Trie Nat} {w' : Where}
    (hread : t.read w = .inner b) (hw : w.Outside (a :: b :: S.inners))
    (hw' : w' = .child b dir ∨ ∃ q dir', w' = .child q dir' ∧ q ∈ S.inners)
    (hab : a ≠ b) (hb : b ∉ S.inners) (hS' : ∀ q ∈ S'.inners, q ∉ S.inners ∧ q ≠ a ∧ q ≠ b)
    (hr : Represents t.nodes S' ((t.nodes b).child !dir)) :
    (t.link a x w').read w = .inner b ∧
      ((t.link a x w').nodes b).byte = (t.nodes b).byte ∧
      ((t.link a x w').nodes b).otherbits = (t.nodes b).otherbits ∧
      Represents (t.link a x w').nodes S' (((t.link a x w').nodes b).child !dir) := by
  obtain ⟨c, dir', rfl, hc⟩ : ∃ c dir', w' = .child c dir' ∧
      ((c = b ∧ dir' = dir) ∨ c ∈ S.inners) := by
    obtain rfl | ⟨c, dir', rfl, hc⟩ := hw'
    · exact ⟨b, dir, rfl, .inl ⟨rfl, rfl⟩⟩
    · exact ⟨c, dir', rfl, .inr hc⟩
  have hcmem : c ∈ a :: b :: S.inners := by
    obtain ⟨rfl, -⟩ | hc := hc
    · simp
    · simp [hc]
  obtain ⟨child, hfields⟩ := link_fields t a x (.child c dir') b
  have hsame : (t.link a x (.child c dir')).read (.child b !dir) = t.read (.child b !dir) := by
    apply read_link_of_ne
    · rintro ⟨⟩
      obtain ⟨-, h⟩ | h := hc
      · simp at h
      · exact hb h
    · rintro q dir' ⟨⟩ hm
      simp [hab.symm] at hm
  refine ⟨?_, by rw [hfields], by rw [hfields], ?_⟩
  · rw [read_link_of_ne, hread]
    · rintro rfl
      exact hw c dir' rfl hcmem
    · intro q dir' he hm
      obtain rfl : q = a := by simpa using hm
      exact hw q dir' he (by simp)
  · change Represents _ S' ((t.link a x (.child c dir')).read (.child b !dir))
    rw [hsame]
    refine hr.congr ?_
    intro q hq
    obtain ⟨hqS, hqa, hqb⟩ := hS' q hq
    apply link_nodes_of_ne hqa
    rintro _ _ ⟨⟩ hm
    obtain rfl : c = q := by simpa using hm
    obtain ⟨rfl, -⟩ | h := hc
    · exact hqb rfl
    · exact hqS h

/-- The pointer that `cb_insert` finds, redirected to the new node, makes the tree with the new
entry. -/
theorem place_link (ha : Prepared t a d k) (hr : Represents t.nodes T (t.read w))
    (haT : a ∉ T.inners) (hn : T.inners.Nodup) (hw : w.Outside (a :: T.inners))
    (hk : k.length = klen) (hf : T.height < fuel) :
    ∃ w', t.place k klen (d / 8) (mask (d % 8)).toNat fuel w = some w' ∧
      (w' = w ∨ ∃ q dir, w' = .child q dir ∧ q ∈ T.inners) ∧
      Represents (t.link a (!bitAt k d) w').nodes (T.put (bitAt k) a d)
        ((t.link a (!bitAt k d) w').read w) := by
  induction T generalizing w fuel with
  | leaf b =>
    obtain ⟨fuel, rfl⟩ : ∃ f, fuel = f + 1 := ⟨fuel - 1, by omega⟩
    refine ⟨w, ?_, .inl rfl, link_join ha hr haT hw⟩
    rw [CbTree.place, show t.read w = .leaf b from hr]
  | node b p l r ihl ihr =>
    obtain ⟨fuel, rfl⟩ : ∃ f, fuel = f + 1 := ⟨fuel - 1, by omega⟩
    have hr' := hr
    obtain ⟨hread, hbyte, hother, hl, hr⟩ := hr
    simp only [Trie.inners, List.mem_cons, List.mem_append, not_or] at haT
    simp only [Trie.inners, List.nodup_cons, List.mem_append, not_or] at hn
    simp only [Trie.height] at hf
    obtain ⟨hab, hal, har⟩ := haT
    obtain ⟨⟨hbl, hbr⟩, hlr⟩ := hn
    obtain ⟨hnl, hnr, hdisj⟩ := List.nodup_append.mp hlr
    by_cases hdp : d < p
    · refine ⟨w, ?_, .inl rfl, ?_⟩
      · rw [CbTree.place, hread]
        simp only [hbyte, hother]
        obtain h | h := behind_iff.mpr hdp
        · rw [if_pos h]
        · rw [if_neg (by omega), if_pos h]
      · rw [Trie.put, if_pos hdp]
        exact link_join ha hr' (by simp [Trie.inners, hab, hal, har]) hw
    · have hstep : t.place k klen (d / 8) (mask (d % 8)).toNat (fuel + 1) w =
          t.place k klen (d / 8) (mask (d % 8)).toNat fuel (.child b (bitAt k p)) := by
        rw [CbTree.place, hread]
        simp only [hbyte, hother]
        have hb := mt behind_iff.mp hdp
        rw [not_or] at hb
        rw [if_neg hb.1, if_neg hb.2, keyByte_eq (by omega), ← hk, List.take_length]
        show t.place k k.length _ _ fuel
          (.child b (direction (mask (p % 8)) (k.getD (p / 8) 0))) = _
        rw [direction_bitAt]
      have houtside : ∀ S : Trie Nat, S.inners ⊆ l.inners ++ r.inners →
          w.Outside (a :: b :: S.inners) := by
        intro S hS q dir he hm
        apply hw q dir he
        simp only [List.mem_cons, Trie.inners] at hm ⊢
        obtain rfl | rfl | hm := hm
        · exact .inl rfl
        · exact .inr (.inl rfl)
        · exact .inr (.inr (hS hm))
      have hchild : ∀ (S : Trie Nat) (dir : Bool), b ∉ S.inners →
          (Where.child b dir).Outside (a :: S.inners) := by
        rintro S dir hb q dir' ⟨⟩ hm
        obtain h | h := List.mem_cons.mp hm
        · exact hab h.symm
        · exact hb h
      cases hb : bitAt k p with
      | false =>
        rw [hb] at hstep
        obtain ⟨w', hplace, hw', hput⟩ :=
          ihl (w := .child b false) hl hal hnl (hchild l false hbl) (show _ < fuel by omega)
        have hr₂ : ∀ q ∈ r.inners, q ∉ l.inners ∧ q ≠ a ∧ q ≠ b := by
          intro q hq
          refine ⟨fun h => hdisj q h q hq rfl, ?_, ?_⟩
          · rintro rfl
            exact har hq
          · rintro rfl
            exact hbr hq
        obtain ⟨h₁, h₂, h₃, h₄⟩ := link_below (x := !bitAt k d) hread
          (houtside l (List.subset_append_left _ _)) hw' hab hbl hr₂ hr
        refine ⟨w', by rw [hstep, hplace], .inr ?_, ?_⟩
        · obtain rfl | ⟨q, dir, rfl, hq⟩ := hw'
          · exact ⟨b, false, rfl, by simp [Trie.inners]⟩
          · exact ⟨q, dir, rfl, by simp [Trie.inners, hq]⟩
        · rw [Trie.put, if_neg hdp, if_neg (by simp [hb])]
          exact ⟨h₁, by rw [h₂, hbyte], by rw [h₃, hother], hput, h₄⟩
      | true =>
        rw [hb] at hstep
        obtain ⟨w', hplace, hw', hput⟩ :=
          ihr (w := .child b true) hr har hnr (hchild r true hbr) (show _ < fuel by omega)
        have hl₂ : ∀ q ∈ l.inners, q ∉ r.inners ∧ q ≠ a ∧ q ≠ b := by
          intro q hq
          refine ⟨fun h => hdisj q hq q h rfl, ?_, ?_⟩
          · rintro rfl
            exact hal hq
          · rintro rfl
            exact hbl hq
        obtain ⟨h₁, h₂, h₃, h₄⟩ := link_below (x := !bitAt k d) hread
          (houtside r (List.subset_append_right _ _)) hw' hab hbr hl₂ hl
        refine ⟨w', by rw [hstep, hplace], .inr ?_, ?_⟩
        · obtain rfl | ⟨q, dir, rfl, hq⟩ := hw'
          · exact ⟨b, true, rfl, by simp [Trie.inners]⟩
          · exact ⟨q, dir, rfl, by simp [Trie.inners, hq]⟩
        · rw [Trie.put, if_neg hdp, if_pos hb]
          exact ⟨h₁, by rw [h₂, hbyte], by rw [h₃, hother], h₄, hput⟩

end Place

/-! ## Insertion -/

/-- What `cb_insert` keeps of a tree that is not empty. -/
structure Built (klen : Nat) (t : CbTree) (T : Trie Nat) : Prop where
  repr : Represents t.nodes T t.root
  ordered : Ordered (fun a => bitAt (t.nodes a).k) T
  nodup : T.inners.Nodup
  inners : ∀ a ∈ T.inners, a ∈ T.leaves
  keys : ∀ a ∈ T.leaves, (t.nodes a).k.length = klen

variable {klen fuel : Nat}

theorem Represents.ne_null (hr : Represents nodes T p) : p ≠ .null := by
  cases T with
  | leaf a =>
    obtain rfl : p = .leaf a := hr
    simp
  | node a pos l r =>
    obtain ⟨rfl, -⟩ := hr
    simp

theorem setNode_of_ne {a q : Nat} {n : CbNode} (hq : q ≠ a) :
    (t.setNode a n).nodes q = t.nodes q := Function.update_of_ne hq _ _

@[simp] theorem setNode_self {a : Nat} {n : CbNode} : (t.setNode a n).nodes a = n :=
  Function.update_self _ _ _

/-- The first node of a tree. -/
theorem cbInsert_first {a : Nat} (ht : t.root = .null) (hk : (t.nodes a).k.length = klen) :
    cbInsert fuel t a klen = some ({ t with root := .leaf a }, none) ∧
      Built klen { t with root := .leaf a } (.leaf a) := by
  refine ⟨by rw [cbInsert, if_pos ht], rfl, trivial, by simp [Trie.inners], ?_, ?_⟩
  · simp [Trie.inners]
  · intro b hb
    obtain rfl : b = a := by simpa [Trie.leaves] using hb
    exact hk

/-- The tree when the new node tests position `d` and has itself as one child. -/
def CbTree.prepare (t : CbTree) (a d : Nat) : CbTree :=
  (t.setNode a { t.nodes a with
    byte := d / 8 % 2 ^ 32, otherbits := (mask (d % 8)).toUInt64.toUInt8 }).setChild a
      (bitAt (t.nodes a).k d) (.leaf a)

section Prepare

variable {a d : Nat}

theorem prepare_of_ne {q : Nat} (hq : q ≠ a) : (t.prepare a d).nodes q = t.nodes q := by
  simp only [CbTree.prepare, CbTree.setChild]
  rw [setNode_of_ne hq]
  exact setNode_of_ne hq

theorem prepare_self (hd : d / 8 < 2 ^ 32) : (t.prepare a d).nodes a = { t.nodes a with
    child := Function.update (t.nodes a).child (bitAt (t.nodes a).k d) (.leaf a)
    byte := d / 8, otherbits := mask (d % 8) } := by
  simp only [CbTree.prepare, CbTree.setChild, setNode_self]
  rw [Nat.mod_eq_of_lt hd]
  simp

theorem prepare_k (hd : d / 8 < 2 ^ 32) (q : Nat) :
    ((t.prepare a d).nodes q).k = (t.nodes q).k := by
  by_cases hq : q = a
  · rw [hq, prepare_self hd]
  · rw [prepare_of_ne hq]

theorem prepare_prepared (hd : d / 8 < 2 ^ 32) : Prepared (t.prepare a d) a d (t.nodes a).k := by
  constructor
  · rw [prepare_self hd]
  · rw [prepare_self hd]
  · rw [prepare_self hd]
    simp

theorem link_k (t : CbTree) (a : Nat) (x : Bool) (w : Where) (q : Nat) :
    ((t.link a x w).nodes q).k = (t.nodes q).k := by
  obtain ⟨child, hf⟩ := link_fields t a x w q
  rw [hf]

/-- The prepared node, linked where it belongs, makes a tree with one entry more. -/
theorem Built.put {x : Bool} {w : Where} (h : Built klen t T) (haT : a ∉ T.inners)
    (hk : (t.nodes a).k.length = klen) (hd : d / 8 < 2 ^ 32)
    (hord : Ordered (fun a => bitAt (t.nodes a).k) (T.put (bitAt (t.nodes a).k) a d))
    (hput : Represents ((t.prepare a d).link a x w).nodes (T.put (bitAt (t.nodes a).k) a d)
      ((t.prepare a d).link a x w).root) :
    Built klen ((t.prepare a d).link a x w) (T.put (bitAt (t.nodes a).k) a d) where
  repr := hput
  ordered := hord.congr fun q _ => by simp only [link_k, prepare_k hd]
  nodup := (inners_put _ _ _ _).nodup_iff.mpr (List.nodup_cons.mpr ⟨haT, h.nodup⟩)
  inners q hq := by
    obtain rfl | hq := List.mem_cons.mp ((inners_put _ _ _ _).subset hq)
    · exact (leaves_put _ _ _ _).symm.subset (by simp)
    · exact (leaves_put _ _ _ _).symm.subset (by simp [h.inners q hq])
  keys q hq := by
    rw [link_k, prepare_k hd]
    obtain rfl | hq := List.mem_cons.mp ((leaves_put _ _ _ _).subset hq)
    · exact hk
    · exact h.keys q hq

end Prepare

/-- `cb_insert` returns the node that has the key already, or puts the new one in. -/
theorem cbInsert_spec {a : Nat} (h : Built klen t T) (ha : a ∉ T.leaves)
    (hk : (t.nodes a).k.length = klen) (hlen : klen ≤ 2 ^ 32) (hf : T.height < fuel) :
    (∃ b ∈ T.leaves, (t.nodes b).k = (t.nodes a).k ∧
      cbInsert fuel t a klen = some (t, some b)) ∨
    (∀ b ∈ T.leaves, (t.nodes b).k ≠ (t.nodes a).k) ∧
      ∃ t' T', cbInsert fuel t a klen = some (t', none) ∧ Built klen t' T' ∧
        T'.leaves.Perm (a :: T.leaves) ∧ ∀ q, (t'.nodes q).k = (t.nodes q).k := by
  have hbits : searchBits (t.nodes a).k klen = bitAt (t.nodes a).k := by
    rw [searchBits, ← hk, List.take_length]
  have hbest := cbBestMatch_spec h.repr hk.ge hf
  rw [hbits] at hbest
  have hpm := best_mem (bitAt (t.nodes a).k) T
  have hagrees : ∀ c ∈ T.leaves, ∀ n, Agree (bitAt (t.nodes a).k) (bitAt (t.nodes c).k) n →
      Agree (bitAt (t.nodes a).k) (bitAt (t.nodes (T.best (bitAt (t.nodes a).k))).k) n :=
    fun c hc n => best_agrees h.ordered hc
  generalize hpd : T.best (bitAt (t.nodes a).k) = p at hbest hpm hagrees
  have hpk := h.keys p hpm
  have haT : a ∉ T.inners := fun hm => ha (h.inners a hm)
  obtain ⟨hd, hsame⟩ | ⟨m, hm, hd, hne, hall⟩ :=
    differingByte_spec (p := (t.nodes p).k) (k := (t.nodes a).k) hpk.ge hk.ge
  · refine .inl ⟨p, hpm, ?_, ?_⟩
    · rwa [← hpk, List.take_length, hpk, ← hk, List.take_length] at hsame
    · rw [cbInsert, if_neg h.repr.ne_null, hbest]
      simp [hd]
  · obtain ⟨x, hx⟩ : ∃ x, (t.nodes p).k[m]? = some x :=
      ⟨_, List.getElem?_eq_getElem (by omega)⟩
    obtain ⟨y, hy⟩ : ∃ y, (t.nodes a).k[m]? = some y :=
      ⟨_, List.getElem?_eq_getElem (by omega)⟩
    have hxy : x ≠ y := by
      rintro rfl
      exact hne (hx.trans hy.symm)
    obtain ⟨d, rfl, hmask, hag, hflip, hdir⟩ := critical_spec hx hy hxy hall
    -- no key of the tree agrees with the new one behind its best match
    have hmax : ∀ c ∈ T.leaves, ¬Agree (bitAt (t.nodes a).k) (bitAt (t.nodes c).k) (d + 1) := by
      intro c hc hcon
      have := hagrees c hc (d + 1) hcon d (by omega)
      rw [hflip] at this
      simp at this
    have hd₃₂ : d / 8 < 2 ^ 32 := by omega
    have hrepr : Represents (t.prepare a d).nodes T ((t.prepare a d).read .root) := by
      refine Represents.congr (fun q hq => prepare_of_ne ?_) h.repr
      rintro rfl
      exact haT hq
    obtain ⟨w, hplace, hw, hput⟩ := place_link (prepare_prepared hd₃₂) hrepr haT h.nodup
      (by rintro q dir ⟨⟩) hk hf
    refine .inr ⟨?_, (t.prepare a d).link a (!bitAt (t.nodes a).k d) w,
      T.put (bitAt (t.nodes a).k) a d, ?_, h.put haT hk hd₃₂ (Ordered.put h.ordered hpm hag hmax)
      hput, leaves_put _ _ _ _, ?_⟩
    · intro b hb he
      refine hmax b hb ?_
      rw [he]
      exact fun i _ => rfl
    · rw [cbInsert, if_neg h.repr.ne_null, hbest]
      simp only [Option.bind_eq_bind, Option.bind_some, hd, hx, hy, hdir, Bool.not_not]
      simp only [hmask]
      change ((t.prepare a d).place ((t.prepare a d).nodes a).k klen (d / 8) _ fuel .root).bind _ =
        _
      rw [prepare_k hd₃₂, UInt8.toNat_toUInt64, hplace]
      rfl
    · exact fun q => (link_k _ a _ w q).trans (prepare_k hd₃₂ q)

/-! ## Lookup -/

/-- A key of the tree agrees with the search key if their first bytes are the same. -/
theorem Built.agree_iff {k : List UInt8} {n c : Nat} (h : Built klen t T) (hn : n ≤ klen)
    (hk : n ≤ k.length) (hc : c ∈ T.leaves) :
    Agree (searchBits k n) (bitAt (t.nodes c).k) (8 * n) ↔
      (t.nodes c).k.take n = k.take n := by
  have hck := h.keys c hc
  rw [searchBits, agree_iff_take (by simp [hk]) (by omega), List.take_take, min_self, eq_comm]

/-- The node that is found agrees with the key on `n` bytes; if none is, no key does. -/
theorem cbLookup_spec {k : List UInt8} {n : Nat} (h : Built klen t T) (hn : n ≤ klen)
    (hk : n ≤ k.length) (hf : T.height < fuel) :
    ∃ found, cbLookup fuel t k n = some found ∧
      (found.isSome = true ↔ ∃ a ∈ T.leaves, (t.nodes a).k.take n = k.take n) := by
  have hbest := cbBestMatch_spec h.repr hk hf
  have hpm := best_mem (searchBits k n) T
  have hagrees : ∀ c ∈ T.leaves, Agree (searchBits k n) (bitAt (t.nodes c).k) (8 * n) →
      Agree (searchBits k n) (bitAt (t.nodes (T.best (searchBits k n))).k) (8 * n) :=
    fun c hc => best_agrees h.ordered hc
  generalize T.best (searchBits k n) = p at hbest hpm hagrees
  have hpk := h.keys p hpm
  have hmem : memcmpEq (t.nodes p).k k n = some ((t.nodes p).k.take n == k.take n) := by
    rw [memcmpEq, if_pos ⟨by omega, hk⟩]
  by_cases he : (t.nodes p).k.take n = k.take n
  · refine ⟨some p, ?_, ?_⟩
    · rw [cbLookup, hbest]
      simp [hmem, he]
    · simp only [Option.isSome_some, true_iff]
      exact ⟨p, hpm, he⟩
  · refine ⟨none, ?_, ?_⟩
    · rw [cbLookup, hbest]
      simp [hmem, he]
    · simp only [Option.isSome_none, Bool.false_eq_true, false_iff]
      rintro ⟨c, hc, hce⟩
      exact he ((h.agree_iff hn hk hpm).mp (hagrees c hc ((h.agree_iff hn hk hc).mpr hce)))

/-! ## Visits -/

section Visits

variable {σ α : Type}

/-- Visit the elements in order, until a visit breaks off. -/
def visit (fn : α → σ → CbNext × σ) : List α → σ → CbNext × σ
  | [], arg => (.cbContinue, arg)
  | a :: as, arg =>
    match fn a arg with
    | (.cbBreak, arg) => (.cbBreak, arg)
    | (.cbContinue, arg) => visit fn as arg

theorem visit_append (fn : α → σ → CbNext × σ) (as bs : List α) (arg : σ) :
    visit fn (as ++ bs) arg =
      if (visit fn as arg).1 = .cbBreak then visit fn as arg
      else visit fn bs (visit fn as arg).2 := by
  induction as generalizing arg with
  | nil => simp [visit]
  | cons a as ih =>
    rw [List.cons_append, visit, visit]
    obtain ⟨next, arg'⟩ := fn a arg
    cases next with
    | cbBreak => simp
    | cbContinue => exact ih arg'

/-- Elements that are passed over can be left out. -/
theorem visit_filter (keep : α → Bool) (fn gn : α → σ → CbNext × σ) (as : List α) (arg : σ)
    (h : ∀ a ∈ as, ∀ arg, gn a arg = if keep a then fn a arg else (.cbContinue, arg)) :
    visit gn as arg = visit fn (as.filter keep) arg := by
  induction as generalizing arg with
  | nil => rfl
  | cons a as ih =>
    have ih := fun arg => ih arg fun b hb => h b (List.mem_cons_of_mem _ hb)
    rw [visit, h a List.mem_cons_self]
    cases hk : keep a with
    | false =>
      rw [List.filter_cons_of_neg (by simp [hk])]
      exact ih arg
    | true =>
      rw [List.filter_cons_of_pos hk, visit, if_pos rfl]
      obtain ⟨next, arg'⟩ := fn a arg
      cases next with
      | cbBreak => rfl
      | cbContinue => exact ih arg'

theorem visit_map {β : Type} (f : α → β) (fn : β → σ → CbNext × σ) (as : List α) (arg : σ) :
    visit (fun a => fn (f a)) as arg = visit fn (as.map f) arg := by
  induction as generalizing arg with
  | nil => rfl
  | cons a as ih =>
    rw [List.map_cons, visit, visit]
    obtain ⟨next, arg'⟩ := fn (f a) arg
    cases next with
    | cbBreak => rfl
    | cbContinue => exact ih arg'

variable {fn : Nat → σ → Option (CbNext × σ)} {gn : Nat → σ → CbNext × σ}

theorem cbDescend_spec (hr : Represents nodes T p)
    (hfn : ∀ a ∈ T.leaves, ∀ arg, fn a arg = some (gn a arg)) (hf : T.height < fuel) (arg : σ) :
    cbDescend nodes fn fuel p arg = some (visit gn T.leaves arg) := by
  induction T generalizing p fuel arg with
  | leaf a =>
    obtain rfl : p = .leaf a := hr
    obtain ⟨fuel, rfl⟩ : ∃ f, fuel = f + 1 := ⟨fuel - 1, by simp [Trie.height] at hf; omega⟩
    rw [cbDescend, hfn a (by simp [Trie.leaves]), Trie.leaves, visit]
    obtain ⟨next, arg'⟩ := gn a arg
    cases next <;> rfl
  | node a pos l r ihl ihr =>
    obtain ⟨rfl, -, -, hl, hr⟩ := hr
    simp only [Trie.height] at hf
    obtain ⟨fuel, rfl⟩ : ∃ f, fuel = f + 1 := ⟨fuel - 1, by omega⟩
    have hvl := ihl hl (fun b hb => hfn b (List.mem_append_left _ hb)) (show _ < fuel by omega)
    have hvr := ihr hr (fun b hb => hfn b (List.mem_append_right _ hb)) (show _ < fuel by omega)
    rw [cbDescend, hvl, Trie.leaves, visit_append]
    obtain ⟨next, arg'⟩ := visit gn l.leaves arg
    cases next with
    | cbBreak => rfl
    | cbContinue => exact hvr arg'

/-- The walk of `cb_each` ends at the best match, with a pointer to the last subtree that it entered
at a byte of the prefix. -/
theorem cbEachWalk_spec {kpfx : List UInt8} {n : Nat} {S : Trie Nat} {top : CbPtr}
    (hr : Represents nodes T p) (hS : Represents nodes S top) (hk : n ≤ kpfx.length)
    (hf : T.height < fuel) :
    ∃ top', cbEachWalk nodes kpfx n fuel p top =
        some (.leaf (T.walk (searchBits kpfx n) (8 * n) S).1, top') ∧
      Represents nodes (T.walk (searchBits kpfx n) (8 * n) S).2 top' := by
  induction T generalizing p S top fuel with
  | leaf a =>
    obtain rfl : p = .leaf a := hr
    obtain ⟨fuel, rfl⟩ : ∃ f, fuel = f + 1 := ⟨fuel - 1, by simp [Trie.height] at hf; omega⟩
    exact ⟨top, rfl, hS⟩
  | node a pos l r ihl ihr =>
    obtain ⟨rfl, hbyte, hother, hl, hr⟩ := hr
    simp only [Trie.height] at hf
    obtain ⟨fuel, rfl⟩ : ∃ f, fuel = f + 1 := ⟨fuel - 1, by omega⟩
    have hdir := direction_bitAt (kpfx.take n) pos
    have hlt : pos / 8 < n ↔ pos < 8 * n := by omega
    rw [cbEachWalk, keyByte_eq hk]
    simp only [Option.bind_eq_bind, Option.bind_some, hbyte, hother, hdir, hlt, Trie.walk]
    cases hb : searchBits kpfx n pos with
    | false =>
      rw [show bitAt (kpfx.take n) pos = false from hb]
      refine ihl hl ?_ (by omega)
      split
      · exact hl
      · exact hS
    | true =>
      rw [show bitAt (kpfx.take n) pos = true from hb]
      refine ihr hr ?_ (by omega)
      split
      · exact hr
      · exact hS

/-- `cb_each` visits the nodes whose keys begin with the prefix, from left to right. -/
theorem cbEach_spec {kpfx : List UInt8} {n : Nat} (h : Built klen t T) (hn : n ≤ klen)
    (hk : n ≤ kpfx.length) (hfn : ∀ a ∈ T.leaves, ∀ arg, fn a arg = some (gn a arg))
    (hf : T.height < fuel) (arg : σ) :
    cbEach fuel t kpfx n fn arg =
      some (visit gn (T.leaves.filter fun a => (t.nodes a).k.take n == kpfx.take n) arg).2 := by
  have hfilter : (T.leaves.filter fun a => (t.nodes a).k.take n == kpfx.take n) =
      T.leaves.filter fun a =>
        decide (Agree (searchBits kpfx n) (bitAt (t.nodes a).k) (8 * n)) := by
    apply List.filter_congr
    intro c hc
    rw [Bool.eq_iff_iff, beq_iff_eq, decide_eq_true_iff]
    exact (h.agree_iff hn hk hc).symm
  obtain ⟨top, hwalk, htop⟩ := cbEachWalk_spec (n := n) h.repr h.repr hk hf
  rw [walk_eq h.ordered] at hwalk htop
  have hpm := best_mem (searchBits kpfx n) T
  have hpk := h.keys _ hpm
  rw [cbEach, if_neg h.repr.ne_null, hwalk, hfilter]
  obtain ⟨hd, hsame⟩ | ⟨m, hm, hd, hne, -⟩ :=
    differingByte_spec (p := (t.nodes (T.best (searchBits kpfx n))).k) (k := kpfx) (n := n)
      (by omega) hk
  · have hag := (h.agree_iff hn hk hpm).mpr hsame
    have hleaves := leaves_top h.ordered hag
    have hfn' : ∀ a ∈ (T.top (searchBits kpfx n) (8 * n)).leaves, ∀ arg,
        fn a arg = some (gn a arg) := by
      intro a ha
      rw [hleaves] at ha
      exact hfn a (List.mem_of_mem_filter ha)
    have hdesc := cbDescend_spec htop hfn' ((height_top _ _ _).trans_lt hf) arg
    simp only [Option.bind_eq_bind, Option.bind_some, hd, hdesc, hleaves]
  · have hnot : ¬Agree (searchBits kpfx n) (bitAt (t.nodes (T.best (searchBits kpfx n))).k)
        (8 * n) := by
      intro hag
      have := (h.agree_iff hn hk hpm).mp hag
      apply hne
      rw [← List.getElem?_take_of_lt hm, this, List.getElem?_take_of_lt hm]
    rw [filter_agree_eq_nil h.ordered hnot]
    simp [hd, visit]

end Visits

end Git
