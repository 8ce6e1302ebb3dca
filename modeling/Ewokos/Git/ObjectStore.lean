import Ewokos.Git.ObjectHash

/-!
# git: one object for each name

Any sequence of lookups in the table of known objects, with other code writing the members of the
objects in between.

* `Known` — what the table is for: for each name the one object that has it, and its type.
* `step_refines`, `run_refines` — every call does to the table what it does to `Known`, and returns
  the same.
* `Known.run_known` — at the end of a run all the objects that were returned are known by the names
  they were asked for.

Main result: `objects_identified`.
-/

set_option autoImplicit false

namespace Git

open Probing

/-! ## Calls -/

/-- A call of the lookup functions, or a store by other code to members of an object. -/
inductive Call where
  | object (oid : ObjectId)
  | blob (oid : ObjectId)
  | tree (oid : ObjectId)
  | commit (oid : ObjectId)
  | tag (oid : ObjectId)
  | unknown (oid : ObjectId)
  | mark (obj : Nat) (parsed : Bool) (flags : Nat)

/-- The bytes of the name that a call asks for. -/
def Call.name : Call → Option (List UInt8)
  | .object oid | .blob oid | .tree oid | .commit oid | .tag oid | .unknown oid => some oid.hash
  | .mark _ _ _ => none

namespace ParsedObjectPool

/-- One call: the object it returns, and the pool after it. -/
def step (r : ParsedObjectPool) : Call → Option (Option Nat × ParsedObjectPool)
  | .object oid => r.lookupObject oid
  | .blob oid => r.lookupBlob oid
  | .tree oid => r.lookupTree oid
  | .commit oid => r.lookupCommit oid
  | .tag oid => r.lookupTag oid
  | .unknown oid => (r.lookupUnknownObject oid).map fun (obj, r) => (some obj, r)
  | .mark a parsed flags =>
    some (none, r.setObject a { r.objects a with parsed := parsed, flags := flags })

/-- A sequence of calls, with what they return. -/
def run (r : ParsedObjectPool) : List Call → Option (List (Option Nat) × ParsedObjectPool)
  | [] => some ([], r)
  | c :: calls => do
    let (obj, r) ← r.step c
    let (objs, r) ← r.run calls
    some (obj :: objs, r)

end ParsedObjectPool

/-! ## What the table is for -/

/-- The known objects: the object that has a name, and its type. -/
structure Known where
  object : List UInt8 → Option (Nat × ObjectType)
  fresh : Nat

namespace Known

def empty : Known := ⟨fun _ => none, 0⟩

/-- The object with this name has this type. -/
def set (k : Known) (name : List UInt8) (a : Nat) (type : ObjectType) : Known :=
  { k with object := Function.update k.object name (some (a, type)) }

/-- A new object with this name and type. -/
def add (k : Known) (name : List UInt8) (type : ObjectType) : Known :=
  { k.set name k.fresh type with fresh := k.fresh + 1 }

/-- Ask for an object that is of a type, or has none yet. -/
def typed (k : Known) (type : ObjectType) (name : List UInt8) : Option Nat × Known :=
  match k.object name with
  | none => (some k.fresh, k.add name type)
  | some (a, t) =>
    if t = type then (some a, k)
    else if t = .none then (some a, k.set name a type)
    else (none, k)

/-- Ask for an object of whatever type. -/
def untyped (k : Known) (name : List UInt8) : Option Nat × Known :=
  match k.object name with
  | none => (some k.fresh, k.add name .none)
  | some (a, _) => (some a, k)

def step (k : Known) : Call → Option Nat × Known
  | .object oid => ((k.object oid.hash).map Prod.fst, k)
  | .blob oid => k.typed .blob oid.hash
  | .tree oid => k.typed .tree oid.hash
  | .commit oid => k.typed .commit oid.hash
  | .tag oid => k.typed .tag oid.hash
  | .unknown oid => k.untyped oid.hash
  | .mark _ _ _ => (none, k)

def run (k : Known) : List Call → List (Option Nat)
  | [] => []
  | c :: calls => (k.step c).1 :: (k.step c).2.run calls

end Known

/-! ## The table does what it is for -/

namespace ParsedObjectPool

variable {r : ParsedObjectPool} {k : Known} {l : List Nat}

/-- The pool stands for the known objects. -/
structure Rep (r : ParsedObjectPool) (k : Known) (l : List Nat) : Prop where
  inv : r.Inv l
  fresh : k.fresh = r.nodes
  object : ∀ name a t, k.object name = some (a, t) ↔
    a ∈ l ∧ (r.objects a).oid.hash = name ∧ (r.objects a).type = t

theorem Rep.congr {hash : Nat → Option Nat} (h : r.Rep k l)
    (hi : ({ r with objHash := hash }).Inv l) : ({ r with objHash := hash }).Rep k l :=
  { h with inv := hi }

/-- A lookup finds the object that is known under the name. -/
theorem Rep.lookup (h : r.Rep k l) (oid : ObjectId) :
    ∃ hash, r.lookupObject oid =
        some ((k.object oid.hash).map Prod.fst, { r with objHash := hash }) ∧
      ({ r with objHash := hash }).Rep k l := by
  obtain ⟨obj, hash, he, hi, hsome, hnone⟩ := lookupObject_spec h.inv oid
  refine ⟨hash, ?_, h.congr hi⟩
  rw [he]
  cases obj with
  | none =>
    cases hk : k.object oid.hash with
    | none => rfl
    | some x =>
      obtain ⟨ha, hname, -⟩ := (h.object oid.hash x.1 x.2).mp hk
      have hne := hnone rfl x.1 ha
      simp [oideq, hname] at hne
  | some a =>
    obtain ⟨ha, hname⟩ := hsome a rfl
    have hash_eq : (r.objects a).oid.hash = oid.hash := by
      simp only [oideq, beq_iff_eq] at hname
      exact hname.symm
    have hk := (h.object oid.hash a (r.objects a).type).mpr ⟨ha, hash_eq, rfl⟩
    rw [hk]
    rfl

/-- A node is allocated and becomes the object with a name nobody had. -/
theorem Rep.create (h : r.Rep k l) (type : ObjectType) {oid : ObjectId}
    (hk : k.object oid.hash = none) (hcount : r.nrObjs < 536870912) :
    ∃ r', (r.allocNode type).2.createObject oid (r.allocNode type).1 = some r' ∧
      r'.Rep (k.add oid.hash type) (r.nodes :: l) ∧ r'.nrObjs = r.nrObjs + 1 := by
  have hout : r.nodes ∉ l := fun hm => Nat.lt_irrefl _ (h.inv.nodes _ hm)
  have hinv : (r.allocNode type).2.Inv l := by
    have hset := h.inv.setObject (a := r.nodes) (o := ⟨false, type, 0, ⟨[], 0⟩⟩)
      fun hm => absurd hm hout
    exact { hset with nodes := fun a ha => Nat.lt_succ_of_lt (h.inv.nodes a ha) }
  obtain ⟨r', he, hi, hnodes, hobj⟩ :=
    createObject_spec hinv hout (Nat.lt_succ_self _) hcount
  refine ⟨r', he, ⟨hi, ?_, ?_⟩, ?_⟩
  · rw [hnodes]
    simp [Known.add, allocNode, h.fresh]
  · intro name a t
    have hthis : r'.objects r.nodes = ⟨false, type, 0, oid⟩ := by
      simp [hobj, allocNode, setObject]
    have hother : ∀ b, b ≠ r.nodes → r'.objects b = r.objects b := by
      intro b hb
      simp [hobj, allocNode, setObject, Function.update_of_ne hb]
    by_cases ha : a = r.nodes
    · subst ha
      rw [hthis]
      by_cases hn : name = oid.hash
      · subst hn
        simp [Known.add, Known.set, h.fresh]
      · have hnot : k.object name ≠ some (r.nodes, t) := fun hm =>
          hout ((h.object _ _ _).mp hm).1
        simp [Known.add, Known.set, Function.update_of_ne hn, hnot, Ne.symm hn]
    · rw [hother a ha]
      by_cases hn : name = oid.hash
      · subst hn
        have hnot : ¬(a ∈ l ∧ (r.objects a).oid.hash = oid.hash ∧ (r.objects a).type = t) := by
          intro hm
          rw [(h.object _ _ _).mpr hm] at hk
          cases hk
        simp only [Known.add, Known.set, Function.update_self, Option.some.injEq, Prod.mk.injEq,
          h.fresh, List.mem_cons, ha, false_or]
        constructor
        · rintro ⟨he, -⟩
          exact absurd he.symm ha
        · intro hm
          exact absurd hm hnot
      · simp only [Known.add, Known.set, Function.update_of_ne hn, List.mem_cons, ha, false_or]
        exact h.object name a t
  · rw [hi.count, h.inv.count]
    rfl

/-- The type of an object whose type was open is set. -/
theorem Rep.retype (h : r.Rep k l) {name : List UInt8} {a : Nat} (t : ObjectType)
    (hk : k.object name = some (a, .none)) :
    (r.setObject a { r.objects a with type := t }).Rep (k.set name a t) l := by
  obtain ⟨ha, hname, -⟩ := (h.object _ _ _).mp hk
  refine ⟨h.inv.setObject fun _ => rfl, h.fresh, ?_⟩
  intro name' b t'
  by_cases hb : b = a
  · subst hb
    by_cases hn : name' = name
    · subst hn
      simp [Known.set, setObject, ha, hname]
    · have hnot : k.object name' ≠ some (b, t') := by
        intro hm
        exact hn (((h.object _ _ _).mp hm).2.1.symm.trans hname)
      simp [Known.set, setObject, Function.update_of_ne hn, hnot, hname, Ne.symm hn]
  · by_cases hn : name' = name
    · subst hn
      have hnot : ¬(b ∈ l ∧ (r.objects b).oid.hash = name' ∧ (r.objects b).type = t') := by
        intro hm
        have hk' := (h.object _ _ _).mpr hm
        rw [hk, Option.some.injEq, Prod.mk.injEq] at hk'
        exact hb hk'.1.symm
      simp only [Known.set, setObject, Function.update_self, Function.update_of_ne hb, hnot,
        Option.some.injEq, Prod.mk.injEq, iff_false, not_and]
      intro he
      exact absurd he.symm hb
    · simp only [Known.set, setObject, Function.update_of_ne hn, Function.update_of_ne hb]
      exact h.object name' b t'

theorem Rep.typed (h : r.Rep k l) (type : ObjectType) (oid : ObjectId)
    (hcount : r.nrObjs < 536870912) :
    ∃ r' l', r.lookupTyped type oid = some ((k.typed type oid.hash).1, r') ∧
      r'.Rep (k.typed type oid.hash).2 l' ∧ r'.nrObjs ≤ r.nrObjs + 1 := by
  obtain ⟨hash, he, hr⟩ := h.lookup oid
  simp only [lookupTyped, he, Option.bind_eq_bind, Option.bind_some, Known.typed]
  cases hk : k.object oid.hash with
  | none =>
    obtain ⟨r', hc, hrep, hn⟩ := hr.create type hk hcount
    refine ⟨r', _, ?_, hrep, le_of_eq hn⟩
    simp only [Option.map_none, hc, Option.bind_some, h.fresh]
    rfl
  | some x =>
    obtain ⟨a, t⟩ := x
    obtain ⟨-, -, rfl⟩ := (hr.object _ _ _).mp hk
    simp only [Option.map_some, objectAsType]
    split
    · exact ⟨_, l, rfl, hr, Nat.le_succ _⟩
    · split
      · rename_i hopen
        rw [hopen] at hk
        exact ⟨_, l, rfl, hr.retype type hk, Nat.le_succ _⟩
      · exact ⟨_, l, rfl, hr, Nat.le_succ _⟩

theorem Rep.untyped (h : r.Rep k l) (oid : ObjectId) (hcount : r.nrObjs < 536870912) :
    ∃ r' l', (r.lookupUnknownObject oid).map (fun x => (some x.1, x.2)) =
        some ((k.untyped oid.hash).1, r') ∧
      r'.Rep (k.untyped oid.hash).2 l' ∧ r'.nrObjs ≤ r.nrObjs + 1 := by
  obtain ⟨hash, he, hr⟩ := h.lookup oid
  simp only [lookupUnknownObject, he, Option.bind_eq_bind, Option.bind_some, Known.untyped]
  cases hk : k.object oid.hash with
  | none =>
    obtain ⟨r', hc, hrep, hn⟩ := hr.create .none hk hcount
    refine ⟨r', _, ?_, hrep, le_of_eq hn⟩
    simp only [Option.map_none, hc, Option.bind_some, Option.map_some, h.fresh]
    rfl
  | some x => exact ⟨_, l, rfl, hr, Nat.le_succ _⟩

/-- Each call does to the pool what it does to the known objects. -/
theorem step_refines (h : r.Rep k l) (c : Call) (hcount : r.nrObjs < 536870912) :
    ∃ r' l', r.step c = some ((k.step c).1, r') ∧ r'.Rep (k.step c).2 l' ∧
      r'.nrObjs ≤ r.nrObjs + 1 := by
  cases c with
  | object oid =>
    obtain ⟨hash, he, hr⟩ := h.lookup oid
    exact ⟨_, l, he, hr, Nat.le_succ _⟩
  | blob oid => exact h.typed .blob oid hcount
  | tree oid => exact h.typed .tree oid hcount
  | commit oid => exact h.typed .commit oid hcount
  | tag oid => exact h.typed .tag oid hcount
  | unknown oid => exact h.untyped oid hcount
  | mark a parsed flags =>
    refine ⟨_, l, rfl, ⟨h.inv.setObject fun _ => rfl, h.fresh, fun name b t => ?_⟩, Nat.le_succ _⟩
    rw [Known.step, h.object name b t]
    by_cases hb : b = a
    · subst hb
      simp [setObject]
    · simp [setObject, Function.update_of_ne hb]

theorem run_refines {calls : List Call} (h : r.Rep k l)
    (hcount : r.nrObjs + calls.length ≤ 536870912) :
    ∃ r', r.run calls = some (k.run calls, r') := by
  induction calls generalizing r k l with
  | nil => exact ⟨r, rfl⟩
  | cons c calls ih =>
    rw [List.length_cons] at hcount
    obtain ⟨r₁, l₁, hs, hr, hn⟩ := step_refines h c (by omega)
    obtain ⟨r₂, he⟩ := ih hr (by omega)
    exact ⟨r₂, by simp [run, hs, he, Known.run]⟩

theorem new_rep (objects : Nat → Object) : (new objects).Rep Known.empty [] :=
  ⟨new_inv objects, rfl, fun name a t => by simp [Known.empty]⟩

end ParsedObjectPool

/-! ## Names and objects -/

namespace Known

variable {k k' : Known}

/-- No two names have the same object. -/
structure Injective (k : Known) : Prop where
  name : ∀ name name' a t t', k.object name = some (a, t) → k.object name' = some (a, t') →
    name = name'
  fresh : ∀ name a t, k.object name = some (a, t) → a < k.fresh

/-- What is known stays known. -/
def Keeps (k k' : Known) : Prop :=
  ∀ name a t, k.object name = some (a, t) → ∃ t', k'.object name = some (a, t')

theorem empty_injective : empty.Injective :=
  ⟨fun _ _ _ _ _ h => by simp [empty] at h, fun _ _ _ h => by simp [empty] at h⟩

theorem Keeps.refl (k : Known) : k.Keeps k := fun _ _ t h => ⟨t, h⟩

theorem Keeps.trans {k'' : Known} (h : k.Keeps k') (h' : k'.Keeps k'') : k.Keeps k'' := by
  intro name a t hk
  obtain ⟨t', hk'⟩ := h name a t hk
  exact h' name a t' hk'

theorem Injective.add (h : k.Injective) (name : List UInt8) (type : ObjectType) :
    (k.add name type).Injective := by
  constructor
  · intro n n' a t t' hn hn'
    by_cases he : n = name <;> by_cases he' : n' = name
    · exact he.trans he'.symm
    · simp only [Known.add, set, he, Function.update_self, Option.some.injEq, Prod.mk.injEq,
        Function.update_of_ne he'] at hn hn'
      exact absurd (h.fresh _ _ _ hn') (by omega)
    · simp only [Known.add, set, he', Function.update_self, Option.some.injEq, Prod.mk.injEq,
        Function.update_of_ne he] at hn hn'
      exact absurd (h.fresh _ _ _ hn) (by omega)
    · simp only [Known.add, set, Function.update_of_ne he, Function.update_of_ne he'] at hn hn'
      exact h.name n n' a t t' hn hn'
  · intro n a t hn
    by_cases he : n = name
    · simp only [Known.add, set, he, Function.update_self, Option.some.injEq, Prod.mk.injEq] at hn
      simp only [Known.add]
      omega
    · simp only [Known.add, set, Function.update_of_ne he] at hn ⊢
      exact Nat.lt_succ_of_lt (h.fresh n a t hn)

theorem Injective.set (h : k.Injective) {name : List UInt8} {a : Nat} {t : ObjectType}
    (hk : k.object name = some (a, t)) (type : ObjectType) : (k.set name a type).Injective := by
  have hold : ∀ n b t', (k.set name a type).object n = some (b, t') →
      ∃ t'', k.object n = some (b, t'') := by
    intro n b t' hn
    by_cases he : n = name
    · subst he
      simp only [Known.set, Function.update_self, Option.some.injEq, Prod.mk.injEq] at hn
      exact ⟨t, by rw [hk, hn.1]⟩
    · simp only [Known.set, Function.update_of_ne he] at hn
      exact ⟨t', hn⟩
  constructor
  · intro n n' b t₁ t₂ hn hn'
    obtain ⟨t₁', h₁⟩ := hold n b t₁ hn
    obtain ⟨t₂', h₂⟩ := hold n' b t₂ hn'
    exact h.name n n' b t₁' t₂' h₁ h₂
  · intro n b t' hn
    obtain ⟨t'', h'⟩ := hold n b t' hn
    exact h.fresh n b t'' h'

theorem keeps_set {name : List UInt8} {a : Nat} {t : ObjectType}
    (hk : k.object name = some (a, t)) (type : ObjectType) : k.Keeps (k.set name a type) := by
  intro n b t' hn
  by_cases he : n = name
  · subst he
    rw [hk, Option.some.injEq, Prod.mk.injEq] at hn
    exact ⟨type, by simp [set, hn.1]⟩
  · exact ⟨t', by simp [set, Function.update_of_ne he, hn]⟩

theorem keeps_add {name : List UInt8} (hk : k.object name = none) (type : ObjectType) :
    k.Keeps (k.add name type) := by
  intro n b t' hn
  have he : n ≠ name := by
    rintro rfl
    rw [hk] at hn
    cases hn
  exact ⟨t', by simp [add, set, Function.update_of_ne he, hn]⟩

/-- A call: names keep their objects, and what is returned is known under the name asked for. -/
structure Answers (k : Known) (name : Option (List UInt8)) (x : Option Nat × Known) : Prop where
  injective : x.2.Injective
  keeps : k.Keeps x.2
  known : ∀ a, x.1 = some a → ∃ n t, name = some n ∧ x.2.object n = some (a, t)

theorem typed_answers (h : k.Injective) (type : ObjectType) (name : List UInt8) :
    k.Answers (some name) (k.typed type name) := by
  unfold typed
  cases hk : k.object name with
  | none =>
    refine ⟨h.add name type, keeps_add hk type, ?_⟩
    intro a ha
    obtain rfl := Option.some.inj ha
    exact ⟨name, type, rfl, by simp [add, set]⟩
  | some x =>
    obtain ⟨a, t⟩ := x
    dsimp only
    split
    · refine ⟨h, .refl k, ?_⟩
      intro b hb
      obtain rfl := Option.some.inj hb
      exact ⟨name, t, rfl, hk⟩
    · split
      · refine ⟨h.set hk type, keeps_set hk type, ?_⟩
        intro b hb
        obtain rfl := Option.some.inj hb
        exact ⟨name, type, rfl, by simp [set]⟩
      · exact ⟨h, .refl k, fun b hb => by simp at hb⟩

theorem untyped_answers (h : k.Injective) (name : List UInt8) :
    k.Answers (some name) (k.untyped name) := by
  unfold untyped
  cases hk : k.object name with
  | none =>
    refine ⟨h.add name .none, keeps_add hk .none, ?_⟩
    intro a ha
    obtain rfl := Option.some.inj ha
    exact ⟨name, .none, rfl, by simp [add, set]⟩
  | some x =>
    refine ⟨h, .refl k, ?_⟩
    intro b hb
    obtain rfl := Option.some.inj hb
    exact ⟨name, x.2, rfl, hk⟩

theorem step_answers (h : k.Injective) (c : Call) : k.Answers c.name (k.step c) := by
  cases c with
  | object oid =>
    refine ⟨h, .refl k, ?_⟩
    intro a ha
    obtain ⟨⟨b, t⟩, hk, rfl⟩ := Option.map_eq_some_iff.mp ha
    exact ⟨oid.hash, t, rfl, hk⟩
  | blob oid => exact typed_answers h .blob oid.hash
  | tree oid => exact typed_answers h .tree oid.hash
  | commit oid => exact typed_answers h .commit oid.hash
  | tag oid => exact typed_answers h .tag oid.hash
  | unknown oid => exact untyped_answers h oid.hash
  | mark a parsed flags => exact ⟨h, .refl k, fun b hb => by simp [step] at hb⟩

/-- In a run there is a state at the end that knows every object that was returned. -/
theorem run_known {calls : List Call} (h : k.Injective) :
    ∃ k' : Known, k'.Injective ∧ k.Keeps k' ∧ ∀ x ∈ calls.zip (k.run calls), ∀ a, x.2 = some a →
      ∃ n t, x.1.name = some n ∧ k'.object n = some (a, t) := by
  induction calls generalizing k with
  | nil => exact ⟨k, h, .refl k, by simp⟩
  | cons c calls ih =>
    have hc := step_answers h c
    obtain ⟨k', hinj, hkeeps, hall⟩ := ih hc.injective
    refine ⟨k', hinj, hc.keeps.trans hkeeps, ?_⟩
    intro x hx a ha
    rw [run, List.zip_cons_cons, List.mem_cons] at hx
    obtain rfl | hx := hx
    · obtain ⟨n, t, hn, hk⟩ := hc.known a ha
      obtain ⟨t', hk'⟩ := hkeeps n a t hk
      exact ⟨n, t', hn, hk'⟩
    · exact hall x hx a ha

end Known

/-! ## The result -/

/-- **One object for each name.**  As long as fewer objects than `INT_MAX / 4` are made, every
lookup ends, and returns what the map from names to objects says: two calls that return objects
return the same one exactly when they asked for the same name. -/
theorem objects_identified (objects : Nat → Object) (calls : List Call)
    (hcount : calls.length ≤ 536870912) :
    ∃ results r, (ParsedObjectPool.new objects).run calls = some (results, r) ∧
      results = Known.empty.run calls ∧
      ∀ x ∈ calls.zip results, ∀ y ∈ calls.zip results, ∀ a b, x.2 = some a → y.2 = some b →
        (a = b ↔ x.1.name = y.1.name) := by
  obtain ⟨r, hrun⟩ := ParsedObjectPool.run_refines (ParsedObjectPool.new_rep objects)
    (by simpa [ParsedObjectPool.new] using hcount)
  refine ⟨_, r, hrun, rfl, ?_⟩
  obtain ⟨k, hinj, -, hknown⟩ := Known.run_known Known.empty_injective
  intro x hx y hy a b ha hb
  obtain ⟨n, t, hn, hk⟩ := hknown x hx a ha
  obtain ⟨n', t', hn', hk'⟩ := hknown y hy b hb
  rw [hn, hn', Option.some.injEq]
  constructor
  · rintro rfl
    exact hinj.name n n' a t t' hk hk'
  · rintro rfl
    rw [hk, Option.some.injEq, Prod.mk.injEq] at hk'
    exact hk'.1

/-- Three lookups, the last for the name of the first: a commit, a tree, and the commit again. -/
theorem objects_identified_again :
    ∃ r, (ParsedObjectPool.new fun _ => ⟨false, .none, 0, ⟨[], 0⟩⟩).run
        [.commit ⟨[1, 2], 1⟩, .tree ⟨[1, 3], 1⟩, .object ⟨[1, 2], 1⟩] =
      some ([some 0, some 1, some 0], r) := by
  obtain ⟨results, r, hrun, hresults, -⟩ := objects_identified
    (fun _ => ⟨false, .none, 0, ⟨[], 0⟩⟩)
    [.commit ⟨[1, 2], 1⟩, .tree ⟨[1, 3], 1⟩, .object ⟨[1, 2], 1⟩] (by simp)
  have : Known.empty.run [.commit ⟨[1, 2], 1⟩, .tree ⟨[1, 3], 1⟩, .object ⟨[1, 2], 1⟩] =
      [some 0, some 1, some 0] := by decide
  exact ⟨r, by rw [hrun, hresults, this]⟩

end Git
