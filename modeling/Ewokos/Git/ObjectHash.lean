import Ewokos.Lib.Probing

/-!
# git: the table of known objects

`hash_obj` … `create_object` and `object_as_type` of `bin/git/upstream/object.c`, with
`lookup_blob`, `lookup_tree`, `lookup_commit`, `lookup_tag` and `lookup_unknown_object`, which
all ask the table first and put a new node into it otherwise.

* An object is an address; its members are in `objects`.
* `lookupObject` moves what it finds to the slot it began at, so a lookup changes the table too.
* `Inv` — what the table holds, where its entries are reached, and how full it is; one lemma for
  each function: `insertObjHash_spec`, `growObjectHash_spec`, `createObject_spec`,
  `lookupObject_spec`.

The table's sizes are `int`; a size or a count that leaves them is no value.
-/

set_option autoImplicit false

namespace Git

open Probing Slots

/-- `INT_MAX`. -/
def INT_MAX : Nat := 2147483647

/-- `enum object_type`, as far as an object can have it. -/
inductive ObjectType where
  | none
  | commit
  | tree
  | blob
  | tag
  deriving DecidableEq, Repr

/-- `struct object_id`: `GIT_MAX_RAWSZ` bytes, and the algorithm they come from. -/
structure ObjectId where
  hash : List UInt8
  algo : Int
  deriving DecidableEq, Repr

/-- `struct object`. -/
structure Object where
  parsed : Bool
  type : ObjectType
  flags : Nat
  oid : ObjectId
  deriving DecidableEq, Repr

/-- The members of `struct parsed_object_pool` that the table is about, with the objects in
memory; `nodes` counts the nodes that were allocated, and is the address of the next one. -/
structure ParsedObjectPool where
  objects : Nat → Object
  nodes : Nat
  objHash : Nat → Option Nat
  nrObjs : Nat
  objHashSize : Nat

/-- `oidhash`: the first four bytes, as they lie in a little endian memory. -/
def oidhash (oid : ObjectId) : Nat :=
  (oid.hash.getD 0 0).toNat + 256 * ((oid.hash.getD 1 0).toNat +
    256 * ((oid.hash.getD 2 0).toNat + 256 * (oid.hash.getD 3 0).toNat))

/-- `oideq`, which compares the bytes and not the algorithm. -/
def oideq (oid1 oid2 : ObjectId) : Bool := oid1.hash == oid2.hash

/-- `hash_obj`. -/
def hashObj (oid : ObjectId) (n : Nat) : Nat := oidhash oid &&& (n - 1)

/-- `insert_obj_hash`; the walk has no end in a table without an empty slot. -/
def insertObjHash (objects : Nat → Object) (obj : Nat) (hash : Nat → Option Nat) (size : Nat) :
    Option (Nat → Option Nat) :=
  (probe size Option.isNone hash size (hashObj (objects obj).oid size)).map fun j =>
    Function.update hash j (some obj)

namespace ParsedObjectPool

variable (r : ParsedObjectPool)

/-- `parsed_object_pool_new`. -/
def new (objects : Nat → Object) : ParsedObjectPool where
  objects := objects
  nodes := 0
  objHash _ := none
  nrObjs := 0
  objHashSize := 0

/-- The test of the walk in `lookup_object`: an empty slot, or an object with this name. -/
def named (oid : ObjectId) (obj : Option Nat) : Bool := obj.all fun a => oideq oid (r.objects a).oid

/-- `lookup_object`. -/
def lookupObject (oid : ObjectId) : Option (Option Nat × ParsedObjectPool) :=
  if r.objHashSize = 0 then some (none, r)
  else do
    let first := hashObj oid r.objHashSize
    let i ← probe r.objHashSize (r.named oid) r.objHash r.objHashSize first
    let obj := r.objHash i
    if obj.isSome && i != first then some (obj, { r with objHash := exchange r.objHash i first })
    else some (obj, r)

/-- The loop of `grow_object_hash` over the slots of the old table. -/
def rehash (newHashSize : Nat) : List Nat → (Nat → Option Nat) → Option (Nat → Option Nat)
  | [], newHash => some newHash
  | i :: slots, newHash =>
    match r.objHash i with
    | none => rehash newHashSize slots newHash
    | some obj => do
      let newHash ← insertObjHash r.objects obj newHash newHashSize
      rehash newHashSize slots newHash

/-- `grow_object_hash`. -/
def growObjectHash : Option ParsedObjectPool := do
  let newHashSize := if r.objHashSize < 32 then 32 else 2 * r.objHashSize
  if newHashSize ≤ INT_MAX then
    let newHash ← r.rehash newHashSize (List.range r.objHashSize) fun _ => none
    some { r with objHash := newHash, objHashSize := newHashSize }
  else none

/-- One store to the members of an object. -/
def setObject (a : Nat) (o : Object) : ParsedObjectPool :=
  { r with objects := Function.update r.objects a o }

/-- `create_object`; the new object has the type its node was allocated with. -/
def createObject (oid : ObjectId) (o : Nat) : Option ParsedObjectPool := do
  let r := r.setObject o { r.objects o with parsed := false, flags := 0, oid := oid }
  if r.nrObjs * 2 ≤ INT_MAX then
    let r ← (if (r.objHashSize : Int) - 1 ≤ r.nrObjs * 2 then r.growObjectHash else some r)
    let hash ← insertObjHash r.objects o r.objHash r.objHashSize
    some { r with objHash := hash, nrObjs := r.nrObjs + 1 }
  else none

/-- `alloc_blob_node` and the like: a node that no other object has, with its type. -/
def allocNode (type : ObjectType) : Nat × ParsedObjectPool :=
  (r.nodes, { r.setObject r.nodes ⟨false, type, 0, ⟨[], 0⟩⟩ with nodes := r.nodes + 1 })

/-- `object_as_type`. -/
def objectAsType (obj : Nat) (type : ObjectType) : Option Nat × ParsedObjectPool :=
  let o := r.objects obj
  if o.type = type then (some obj, r)
  else if o.type = .none then (some obj, r.setObject obj { o with type := type })
  else (none, r)

/-- What `lookup_blob`, `lookup_tree`, `lookup_commit` and `lookup_tag` have in common. -/
def lookupTyped (type : ObjectType) (oid : ObjectId) : Option (Option Nat × ParsedObjectPool) := do
  let (obj, r) ← r.lookupObject oid
  match obj with
  | none =>
    let (o, r) := r.allocNode type
    let r ← r.createObject oid o
    some (some o, r)
  | some obj => some (r.objectAsType obj type)

/-- `lookup_blob`. -/
def lookupBlob (oid : ObjectId) : Option (Option Nat × ParsedObjectPool) := r.lookupTyped .blob oid

/-- `lookup_tree`. -/
def lookupTree (oid : ObjectId) : Option (Option Nat × ParsedObjectPool) := r.lookupTyped .tree oid

/-- `lookup_commit`. -/
def lookupCommit (oid : ObjectId) : Option (Option Nat × ParsedObjectPool) :=
  r.lookupTyped .commit oid

/-- `lookup_tag`. -/
def lookupTag (oid : ObjectId) : Option (Option Nat × ParsedObjectPool) := r.lookupTyped .tag oid

/-- `lookup_unknown_object`. -/
def lookupUnknownObject (oid : ObjectId) : Option (Nat × ParsedObjectPool) := do
  let (obj, r) ← r.lookupObject oid
  match obj with
  | none =>
    let (o, r) := r.allocNode .none
    let r ← r.createObject oid o
    some (o, r)
  | some obj => some (obj, r)

end ParsedObjectPool

/-! ## What each function does -/

theorem hashObj_lt (oid : ObjectId) {n : Nat} (hn : 0 < n) : hashObj oid n < n := by
  have hle : oidhash oid &&& (n - 1) ≤ n - 1 := Nat.and_le_right
  unfold hashObj
  omega

theorem hashObj_congr {oid oid' : ObjectId} (h : oideq oid oid' = true) (n : Nat) :
    hashObj oid n = hashObj oid' n := by
  have hash : oid.hash = oid'.hash := by simpa [oideq] using h
  simp [hashObj, oidhash, hash]

/-- The home slot of an object. -/
def homeSlot (objects : Nat → Object) (size a : Nat) : Nat := hashObj (objects a).oid size

theorem insertObjHash_spec {objects : Nat → Object} (obj : Nat) {size : Nat}
    {hash : Nat → Option Nat}
    (hr : Reachable size (homeSlot objects size) hash)
    (hroom : (entries size hash).length < size) :
    ∃ hash', insertObjHash objects obj hash size = some hash' ∧
      Reachable size (homeSlot objects size) hash' ∧
      (entries size hash').Perm (obj :: entries size hash) := by
  obtain ⟨k, hk, hempty⟩ := exists_empty hroom
  have hhome : homeSlot objects size obj < size := hashObj_lt _ (by omega)
  obtain ⟨j, hj⟩ := Option.isSome_iff_exists.mp
    (probe_isSome Option.isNone (t := hash) hhome hk (by simp [hempty]) le_rfl)
  have hsome := hj
  obtain ⟨n, rfl, hstop, -⟩ := probe_some hhome hj
  refine ⟨_, ?_, hr.insert hhome hsome, ?_⟩
  · unfold insertObjHash
    rw [show hashObj (objects obj).oid size = homeSlot objects size obj from rfl, hsome]
    rfl
  · exact entries_insert (Nat.mod_lt _ (by omega)) (by simpa using hstop)

namespace ParsedObjectPool

variable {r : ParsedObjectPool} {l : List Nat}

/-- The table of the pool holds the objects of `l`, with room for as many again. -/
structure Inv (r : ParsedObjectPool) (l : List Nat) : Prop where
  held : (entries r.objHashSize r.objHash).Perm l
  reached : Reachable r.objHashSize (homeSlot r.objects r.objHashSize) r.objHash
  count : r.nrObjs = l.length
  room : 2 * r.nrObjs ≤ r.objHashSize
  nodes : ∀ a ∈ l, a < r.nodes

theorem new_inv (objects : Nat → Object) : (new objects).Inv [] where
  held := by simp [new, entries_empty]
  reached := reachable_empty
  count := rfl
  room := by simp [new]
  nodes := by simp

theorem Inv.mem (h : r.Inv l) {a : Nat} : a ∈ l ↔ ∃ j < r.objHashSize, r.objHash j = some a := by
  rw [← h.held.mem_iff, mem_entries]

/-- Members of objects may change, the names of the held ones may not. -/
theorem Inv.setObject (h : r.Inv l) {a : Nat} {o : Object}
    (ho : a ∈ l → o.oid = (r.objects a).oid) : (r.setObject a o).Inv l := by
  refine { h with reached := h.reached.congr fun j hj b hb => ?_ }
  by_cases he : b = a
  · subst he
    simp [homeSlot, ParsedObjectPool.setObject, ho (h.mem.mpr ⟨j, hj, hb⟩)]
  · simp [homeSlot, ParsedObjectPool.setObject, he]

theorem lookupObject_spec (h : r.Inv l) (oid : ObjectId) :
    ∃ obj hash, r.lookupObject oid = some (obj, { r with objHash := hash }) ∧
      ({ r with objHash := hash }).Inv l ∧
      (∀ a, obj = some a → a ∈ l ∧ oideq oid (r.objects a).oid) ∧
      (obj = none → ∀ a ∈ l, oideq oid (r.objects a).oid = false) := by
  unfold lookupObject
  by_cases hzero : r.objHashSize = 0
  · refine ⟨none, r.objHash, by rw [if_pos hzero], h, by simp, fun _ a ha => ?_⟩
    obtain ⟨j, hj, -⟩ := h.mem.mp ha
    omega
  rw [if_neg hzero]
  have hpos : 0 < r.objHashSize := by omega
  have hfirst := hashObj_lt oid hpos
  have hlen : (entries r.objHashSize r.objHash).length < r.objHashSize := by
    have hroom := h.room
    rw [h.held.length_eq, ← h.count]
    omega
  obtain ⟨k, hk, hempty⟩ := exists_empty hlen
  obtain ⟨i, hi⟩ := Option.isSome_iff_exists.mp
    (probe_isSome (r.named oid) (t := r.objHash) hfirst hk (by simp [named, hempty]) le_rfl)
  have hhome : ∀ a, oideq oid (r.objects a).oid = true →
      homeSlot r.objects r.objHashSize a = hashObj oid r.objHashSize :=
    fun a ha => (hashObj_congr ha _).symm
  obtain ⟨hfound, hnone⟩ := probe_found h.reached hfirst hhome hi
  obtain ⟨n, rfl, -, hbefore⟩ := probe_some hfirst hi
  have hlt : (hashObj oid r.objHashSize + n) % r.objHashSize < r.objHashSize := Nat.mod_lt _ hpos
  simp only [hi, Option.bind_eq_bind, Option.bind_some]
  cases hobj : r.objHash ((hashObj oid r.objHashSize + n) % r.objHashSize) with
  | none =>
    refine ⟨none, r.objHash, by simp, h, by simp, fun _ a ha => ?_⟩
    obtain ⟨j, hj, hja⟩ := h.mem.mp ha
    exact hnone hobj j hj a hja
  | some a =>
    have ha : a ∈ l := h.mem.mpr ⟨_, hlt, hobj⟩
    have hname := hfound a hobj
    by_cases hsame : (hashObj oid r.objHashSize + n) % r.objHashSize = hashObj oid r.objHashSize
    · refine ⟨some a, r.objHash, by simp [hsame], h, ?_, by simp⟩
      intro b hb
      obtain rfl := Option.some.inj hb
      exact ⟨ha, hname⟩
    · -- what was found is moved to where the walk began
      refine ⟨some a, exchange r.objHash ((hashObj oid r.objHashSize + n) % r.objHashSize)
        (hashObj oid r.objHashSize), by simp [hsame], ?_, ?_, by simp⟩
      · have hocc : Occupied r.objHashSize r.objHash (hashObj oid r.objHashSize) n := by
          intro m hm
          have hstop := hbefore m hm
          cases ho : r.objHash ((hashObj oid r.objHashSize + m) % r.objHashSize) with
          | none => simp [named, ho] at hstop
          | some b => rfl
        rw [← hhome a hname] at hobj hocc hfirst ⊢
        exact { h with
          held := (entries_exchange (Nat.mod_lt _ hpos) hfirst).trans h.held
          reached := h.reached.exchange hfirst hobj hocc }
      · intro b hb
        obtain rfl := Option.some.inj hb
        exact ⟨ha, hname⟩

theorem rehash_spec (size : Nat) {slots : List Nat} {hash : Nat → Option Nat}
    (hr : Reachable size (homeSlot r.objects size) hash)
    (hroom : (slots.filterMap r.objHash).length + (entries size hash).length < size) :
    ∃ hash', r.rehash size slots hash = some hash' ∧
      Reachable size (homeSlot r.objects size) hash' ∧
      (entries size hash').Perm (slots.filterMap r.objHash ++ entries size hash) := by
  induction slots generalizing hash with
  | nil => exact ⟨hash, rfl, hr, by simp⟩
  | cons i slots ih =>
    rw [rehash]
    cases ho : r.objHash i with
    | none =>
      simp only [List.filterMap_cons_none ho] at hroom ⊢
      exact ih hr hroom
    | some obj =>
      simp only [List.filterMap_cons_some ho, List.length_cons] at hroom ⊢
      obtain ⟨hash₁, he₁, hr₁, hp₁⟩ := insertObjHash_spec obj hr (by omega)
      have hlen := hp₁.length_eq
      rw [List.length_cons] at hlen
      obtain ⟨hash₂, he₂, hr₂, hp₂⟩ := ih hr₁ (by omega)
      refine ⟨hash₂, by simp [he₁, he₂], hr₂, hp₂.trans ?_⟩
      refine (List.Perm.append_left _ hp₁).trans ?_
      exact List.perm_middle

theorem growObjectHash_spec (h : r.Inv l) (hsize : r.objHashSize < 1073741824) :
    ∃ hash size, r.growObjectHash = some { r with objHash := hash, objHashSize := size } ∧
      ({ r with objHash := hash, objHashSize := size }).Inv l ∧ 2 * r.nrObjs + 2 ≤ size := by
  unfold growObjectHash
  have hroom := h.room
  have hbound : (if r.objHashSize < 32 then 32 else 2 * r.objHashSize) ≤ INT_MAX := by
    unfold INT_MAX
    split <;> omega
  have hlarge : 2 * r.nrObjs + 2 ≤ if r.objHashSize < 32 then 32 else 2 * r.objHashSize := by
    split <;> omega
  generalize (if r.objHashSize < 32 then 32 else 2 * r.objHashSize) = size at hbound hlarge
  have hentries : ((List.range r.objHashSize).filterMap r.objHash).length = r.nrObjs := by
    rw [h.count]
    exact h.held.length_eq
  obtain ⟨hash, he, hr, hp⟩ := rehash_spec size (r := r)
    reachable_empty
    (by rw [hentries, entries_empty, List.length_nil]; omega)
  rw [entries_empty, List.append_nil] at hp
  refine ⟨hash, size, by simp [hbound, he], ?_, hlarge⟩
  exact { h with held := hp.trans h.held, reached := hr, room := by simp only; omega }

theorem createObject_spec (h : r.Inv l) {oid : ObjectId} {o : Nat} (ho : o ∉ l)
    (hnode : o < r.nodes) (hcount : r.nrObjs < 536870912) :
    ∃ r', r.createObject oid o = some r' ∧ r'.Inv (o :: l) ∧ r'.nodes = r.nodes ∧
      r'.objects = Function.update r.objects o
        { r.objects o with parsed := false, flags := 0, oid := oid } := by
  unfold createObject
  set r₀ := r.setObject o { r.objects o with parsed := false, flags := 0, oid := oid } with hr₀
  have h₀ : r₀.Inv l := h.setObject fun hmem => absurd hmem ho
  have hnr : r₀.nrObjs = r.nrObjs := rfl
  have hgrown : ∃ hash size, (if (r₀.objHashSize : Int) - 1 ≤ r₀.nrObjs * 2 then r₀.growObjectHash
        else some r₀) = some { r₀ with objHash := hash, objHashSize := size } ∧
      ({ r₀ with objHash := hash, objHashSize := size }).Inv l ∧ 2 * r₀.nrObjs + 2 ≤ size := by
    split
    · exact growObjectHash_spec h₀ (by omega)
    · exact ⟨r₀.objHash, r₀.objHashSize, rfl, h₀, by omega⟩
  obtain ⟨hash, size, hgrow, h₁, hsize⟩ := hgrown
  have hlen := h₁.held.length_eq
  have hl : r₀.nrObjs = l.length := h₀.count
  obtain ⟨hash', he, hr', hp⟩ := insertObjHash_spec o h₁.reached
    (by rw [hlen]; simp only; omega)
  have hmax : r₀.nrObjs * 2 ≤ INT_MAX := by
    unfold INT_MAX
    omega
  refine ⟨{ r₀ with objHash := hash', objHashSize := size, nrObjs := r₀.nrObjs + 1 },
    ?_, ?_, rfl, rfl⟩
  · simp only [hmax, if_true, hgrow, Option.bind_eq_bind, Option.bind_some] at he ⊢
    rw [he]
    rfl
  · exact {
      held := hp.trans (h₁.held.cons o)
      reached := hr'
      count := by simp [hl]
      room := by simp only; omega
      nodes := by
        intro a ha
        obtain rfl | ha := List.mem_cons.mp ha
        · exact hnode
        · exact h.nodes a ha }

end ParsedObjectPool

end Git
