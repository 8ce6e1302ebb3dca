import Ewokos.Git.OidTree

/-!
# git: the cache of loose objects

`odb_loose_cache` of `object-file.c`, which reads a subdirectory of an object directory when a name
in it is first asked for, and what `quick_has_loose` answers from it.

* `looseName` — the name of the object that a file in a subdirectory holds.
* `Snapshot` — what the cache is for: the objects that were in a subdirectory when it was read.
* `Caches` — an object directory with its bitmap and its tree stands for a snapshot;
  `odbLooseCache_spec`, `quickHasLoose_spec`.

Main result: `loose_cache_refines`.
-/

set_option autoImplicit false

namespace Git

open OidTree

/-! ## Files of loose objects -/

/-- The hash algorithms: `GIT_HASH_SHA1` and `GIT_HASH_SHA256`. -/
inductive HashAlgo where
  | sha1
  | sha256
  deriving DecidableEq, Repr

namespace HashAlgo

/-- `hash_algo_by_ptr` -/
def id : HashAlgo → Int
  | sha1 => 1
  | sha256 => 2

def rawsz : HashAlgo → Nat
  | sha1 => 20
  | sha256 => 32

def hexsz : HashAlgo → Nat
  | sha1 => 40
  | sha256 => 64

end HashAlgo

/-- `hexval`, unsigned -/
def hexval (c : UInt8) : UInt32 :=
  if 0x30 ≤ c ∧ c ≤ 0x39 then c.toUInt32 - 0x30
  else if 0x41 ≤ c ∧ c ≤ 0x46 then c.toUInt32 - 0x41 + 10
  else if 0x61 ≤ c ∧ c ≤ 0x66 then c.toUInt32 - 0x61 + 10
  else 0xffffffff

/-- `hex_to_bytes`; the text ends with a byte that is no digit. -/
def hexToBytes : Nat → List UInt8 → Option (List UInt8)
  | 0, _ => some []
  | len + 1, x :: y :: hex =>
    let val := hexval x <<< 4 ||| hexval y
    if val &&& ~~~0xff ≠ 0 then none else (hexToBytes len hex).map (val.toUInt8 :: ·)
  | _ + 1, _ => none

/-- The object of a file of `for_each_file_in_obj_subdir`, if its name is that of one. -/
def looseName (algo : HashAlgo) (subdir_nr : Nat) (d_name : List UInt8) : Option ObjectId :=
  if d_name.length = algo.hexsz - 2 then
    (hexToBytes (algo.rawsz - 1) d_name).map fun bytes =>
      ⟨UInt8.ofNat subdir_nr :: bytes ++ List.replicate (GIT_MAX_RAWSZ - algo.rawsz) 0, algo.id⟩
  else none

/-- `for_each_file_in_obj_subdir` with `append_loose_object`; the list is what `readdir`
delivers. -/
def appendLooseObjects (algo : HashAlgo) (subdir_nr : Nat) :
    List (List UInt8) → OidTree → Option OidTree
  | [], ot => some ot
  | d_name :: names, ot =>
    match looseName algo subdir_nr d_name with
    | none => appendLooseObjects algo subdir_nr names ot
    | some oid => (ot.insert oid).bind (appendLooseObjects algo subdir_nr names)

/-! ## The cache -/

/-- `struct object_directory`; the words of the bitmap have 32 bits. -/
structure ObjectDirectory where
  looseObjectsSubdirSeen : Nat → Nat
  looseObjectsCache : Option OidTree

/-- No subdirectory has been read. -/
def ObjectDirectory.empty : ObjectDirectory := ⟨fun _ => 0, none⟩

/-- What a subdirectory of an object directory contains. -/
abbrev Subdirs := Nat → List (List UInt8)

section Code

variable (algo : HashAlgo) (memory : Nat → CbNode)

/-- `odb_loose_cache`: the directory after it, and the tree it returns. -/
def odbLooseCache (names : Subdirs) (odb : ObjectDirectory) (oid : ObjectId) :
    Option (ObjectDirectory × OidTree) :=
  let subdir_nr := (oid.hash.getD 0 0).toNat
  let word_index := subdir_nr / 32
  let mask := 1 <<< (subdir_nr % 32)
  if odb.looseObjectsSubdirSeen word_index &&& mask ≠ 0 then
    odb.looseObjectsCache.map (odb, ·)
  else
    let ot := odb.looseObjectsCache.getD (OidTree.init memory)
    (appendLooseObjects algo subdir_nr (names subdir_nr) ot).map fun ot =>
      (⟨Function.update odb.looseObjectsSubdirSeen word_index
        ((odb.looseObjectsSubdirSeen word_index ||| mask) % 2 ^ 32), some ot⟩, ot)

/-- `quick_has_loose` from directory number `i` on. -/
def quickHasLoose (disk : Nat → Subdirs) (oid : ObjectId) :
    Nat → List ObjectDirectory → Option (List ObjectDirectory × Bool)
  | _, [] => some ([], false)
  | i, odb :: odbs => do
    let (odb, ot) ← odbLooseCache algo memory (disk i) odb oid
    let found ← ot.contains oid
    if found then some (odb :: odbs, true)
    else do
      let (odbs, found) ← quickHasLoose disk oid (i + 1) odbs
      some (odb :: odbs, found)

/-- A question, with what is on the disk then, or `reprepare_packed_git`, with the number of
alternates that are new. -/
inductive LooseCall where
  | has (disk : Nat → Subdirs) (oid : ObjectId)
  | reprepare (added : Nat)

/-- One call, and its answer; `reprepare_packed_git` appends the new alternates and calls
`odb_clear_loose_cache` for every directory. -/
def looseStep (odbs : List ObjectDirectory) :
    LooseCall → Option (List ObjectDirectory × Option Bool)
  | .has disk oid => (quickHasLoose algo memory disk oid 0 odbs).map fun (odbs, b) => (odbs, some b)
  | .reprepare added =>
    let odbs := odbs ++ List.replicate added ObjectDirectory.empty
    some (odbs.map fun _ => ObjectDirectory.empty, none)

/-- The answers to a sequence of calls. -/
def looseRun (odbs : List ObjectDirectory) : List LooseCall → Option (List (Option Bool))
  | [] => some []
  | c :: calls => do
    let (odbs, answer) ← looseStep algo memory odbs c
    let answers ← looseRun odbs calls
    some (answer :: answers)

end Code

/-! ## What the cache is for -/

/-- The objects of each subdirectory that was read. -/
abbrev Snapshot := Nat → Option (List ObjectId)

/-- The objects in a subdirectory. -/
def onDisk (algo : HashAlgo) (names : Subdirs) (subdir_nr : Nat) : List ObjectId :=
  (names subdir_nr).filterMap (looseName algo subdir_nr)

namespace Snapshot

/-- A subdirectory is read if it was not. -/
def look (algo : HashAlgo) (names : Subdirs) (s : Snapshot) (n : Nat) : Snapshot :=
  Function.update s n (some ((s n).getD (onDisk algo names n)))

/-- Is the object in the snapshot of its subdirectory? -/
def has (s : Snapshot) (oid : ObjectId) : Bool :=
  ((s (oid.hash.getD 0 0).toNat).getD []).any fun o =>
    o.hash == oid.hash && (oid.algo == GIT_HASH_UNKNOWN || o.algo == oid.algo)

/-- The directories in turn, up to the first that has the object. -/
def ask (algo : HashAlgo) (disk : Nat → Subdirs) (oid : ObjectId) :
    Nat → List Snapshot → List Snapshot × Bool
  | _, [] => ([], false)
  | i, s :: rest =>
    let s := s.look algo (disk i) (oid.hash.getD 0 0).toNat
    if s.has oid then (s :: rest, true)
    else
      let (rest, found) := ask algo disk oid (i + 1) rest
      (s :: rest, found)

/-- The answers to a sequence of calls. -/
def answers (algo : HashAlgo) (snapshots : List Snapshot) : List LooseCall → List (Option Bool)
  | [] => []
  | .has disk oid :: calls =>
    some (ask algo disk oid 0 snapshots).2 ::
      answers algo (ask algo disk oid 0 snapshots).1 calls
  | .reprepare added :: calls =>
    none :: answers algo (List.replicate (snapshots.length + added) fun _ => none) calls

end Snapshot

/-! ## Names -/

variable {algo : HashAlgo} {memory : Nat → CbNode}

theorem length_hexToBytes {len : Nat} {hex bytes : List UInt8}
    (h : hexToBytes len hex = some bytes) : bytes.length = len := by
  induction len generalizing hex bytes with
  | zero =>
    obtain rfl : [] = bytes := by simpa [hexToBytes] using h
    rfl
  | succ len ih =>
    cases hex with
    | nil => simp [hexToBytes] at h
    | cons x hex =>
      cases hex with
      | nil => simp [hexToBytes] at h
      | cons y hex =>
        rw [hexToBytes] at h
        split at h
        · simp at h
        · obtain ⟨rest, hrest, rfl⟩ := Option.map_eq_some_iff.mp h
          rw [List.length_cons, ih hrest]

/-- What is read from a subdirectory is a valid name that belongs there. -/
theorem looseName_spec {n : Nat} {d_name : List UInt8} {o : ObjectId} (hn : n < 256)
    (h : looseName algo n d_name = some o) :
    o.Valid ∧ o.algo ≠ GIT_HASH_UNKNOWN ∧ (o.hash.getD 0 0).toNat = n := by
  unfold looseName at h
  split at h
  · obtain ⟨bytes, hbytes, rfl⟩ := Option.map_eq_some_iff.mp h
    have hlen := length_hexToBytes hbytes
    refine ⟨⟨?_, ?_, ?_⟩, ?_, ?_⟩
    · simp only [List.length_append, List.length_cons, List.length_replicate, hlen, GIT_MAX_RAWSZ]
      cases algo <;> simp [HashAlgo.rawsz]
    · cases algo <;> simp [HashAlgo.id]
    · cases algo <;> simp [HashAlgo.id]
    · cases algo <;> simp [HashAlgo.id, GIT_HASH_UNKNOWN]
    · simpa using Nat.mod_eq_of_lt hn
  · simp at h

/-- The files of a subdirectory are added to what the tree stands for. -/
theorem appendLooseObjects_holds {n : Nat} (hn : n < 256) (names : List (List UInt8))
    {ot : OidTree} {l : List ObjectId} (h : ot.Holds l) :
    ∃ ot' l', appendLooseObjects algo n names ot = some ot' ∧ ot'.Holds l' ∧
      ∀ o, o ∈ l' ↔ o ∈ l ∨ o ∈ names.filterMap (looseName algo n) := by
  induction names generalizing ot l with
  | nil => exact ⟨ot, l, rfl, h, by simp⟩
  | cons d_name names ih =>
    cases hname : looseName algo n d_name with
    | none =>
      obtain ⟨ot', l', heq, h', hmem⟩ := ih h
      refine ⟨ot', l', ?_, h', ?_⟩
      · rw [appendLooseObjects, hname]
        exact heq
      · intro o
        rw [hmem, List.filterMap_cons_none hname]
    | some oid =>
      obtain ⟨hv, ha, -⟩ := looseName_spec hn hname
      obtain ⟨ot₁, hins, h₁⟩ := insert_holds h hv ha
      obtain ⟨ot', l', heq, h', hmem⟩ := ih h₁
      refine ⟨ot', l', ?_, h', ?_⟩
      · rw [appendLooseObjects, hname]
        change (ot.insert oid).bind _ = _
        rw [hins]
        exact heq
      · intro o
        rw [hmem, List.filterMap_cons_some hname, List.mem_cons, List.mem_cons]
        tauto

/-! ## The bitmap -/

theorem and_mask_ne_zero (x i : Nat) : x &&& 1 <<< i ≠ 0 ↔ x.testBit i = true := by
  rw [Nat.one_shiftLeft, Nat.and_two_pow]
  cases x.testBit i <;> simp

/-- Setting the bit of a subdirectory leaves the others. -/
theorem seen_update {seen : Nat → Nat} {n m : Nat} :
    Function.update seen (n / 32) ((seen (n / 32) ||| 1 <<< (n % 32)) % 2 ^ 32) (m / 32) &&&
        1 <<< (m % 32) ≠ 0 ↔ m = n ∨ seen (m / 32) &&& 1 <<< (m % 32) ≠ 0 := by
  rw [and_mask_ne_zero, and_mask_ne_zero]
  have hm : m % 32 < 32 := Nat.mod_lt _ (by omega)
  by_cases hw : m / 32 = n / 32
  · rw [hw, Function.update_self, Nat.testBit_mod_two_pow, Nat.testBit_or, Nat.one_shiftLeft,
      Nat.testBit_two_pow]
    simp only [hm, decide_true, Bool.true_and, Bool.or_eq_true, decide_eq_true_eq]
    constructor
    · rintro (h | h)
      · exact .inr h
      · exact .inl (by omega)
    · rintro (rfl | h)
      · exact .inr rfl
      · exact .inl h
  · rw [Function.update_of_ne hw]
    have hne : m ≠ n := by
      rintro rfl
      exact hw rfl
    simp [hne]

/-! ## Refinement -/

/-- The object directory stands for the snapshot. -/
structure Caches (odb : ObjectDirectory) (s : Snapshot) : Prop where
  seen : ∀ n < 256, odb.looseObjectsSubdirSeen (n / 32) &&& 1 <<< (n % 32) ≠ 0 ↔ (s n).isSome
  subdir : ∀ n l, s n = some l → n < 256 ∧ ∀ o ∈ l, (o.hash.getD 0 0).toNat = n
  made : odb.looseObjectsCache = none → ∀ n, s n = none
  holds : ∀ ot, odb.looseObjectsCache = some ot → ∃ l, ot.Holds l ∧
    ∀ o, o ∈ l ↔ ∃ n ls, s n = some ls ∧ o ∈ ls

theorem caches_empty : Caches ObjectDirectory.empty fun _ => none := by
  refine ⟨?_, ?_, fun _ _ => rfl, ?_⟩
  · intro n _
    simp [ObjectDirectory.empty]
  · intro n l h
    simp at h
  · intro ot h
    simp [ObjectDirectory.empty] at h

/-- `odb_loose_cache` reads a subdirectory once, and returns a tree with all that was read. -/
theorem odbLooseCache_spec {odb : ObjectDirectory} {s : Snapshot} (h : Caches odb s)
    (names : Subdirs) (oid : ObjectId) :
    ∃ odb' ot, odbLooseCache algo memory names odb oid = some (odb', ot) ∧
      Caches odb' (s.look algo names (oid.hash.getD 0 0).toNat) ∧
      odb'.looseObjectsCache = some ot := by
  have hn : (oid.hash.getD 0 0).toNat < 256 := UInt8.toNat_lt _
  unfold odbLooseCache
  generalize (oid.hash.getD 0 0).toNat = n at hn
  dsimp only
  by_cases hseen : odb.looseObjectsSubdirSeen (n / 32) &&& 1 <<< (n % 32) ≠ 0
  · rw [if_pos hseen]
    obtain ⟨l, hl⟩ := Option.isSome_iff_exists.mp ((h.seen n hn).mp hseen)
    have hlook : s.look algo names n = s := by
      rw [Snapshot.look, hl, Option.getD_some, ← hl, Function.update_eq_self]
    cases hcache : odb.looseObjectsCache with
    | none =>
      have := h.made hcache n
      simp [hl] at this
    | some ot =>
      rw [hlook]
      exact ⟨odb, ot, rfl, h, hcache⟩
  · rw [if_neg hseen]
    have hnone : s n = none := by
      cases hs : s n with
      | none => rfl
      | some l => exact absurd ((h.seen n hn).mpr (by simp [hs])) hseen
    obtain ⟨l, hl, hmem⟩ : ∃ l, (odb.looseObjectsCache.getD (OidTree.init memory)).Holds l ∧
        ∀ o, o ∈ l ↔ ∃ n ls, s n = some ls ∧ o ∈ ls := by
      cases hcache : odb.looseObjectsCache with
      | none =>
        refine ⟨[], holds_init memory, ?_⟩
        intro o
        simp [h.made hcache]
      | some ot => exact h.holds ot hcache
    obtain ⟨ot, l', heq, hl', hmem'⟩ : ∃ ot l', appendLooseObjects algo n (names n) _ = some ot ∧
        ot.Holds l' ∧ _ := appendLooseObjects_holds hn (names n) hl
    have hlook : s.look algo names n = Function.update s n (some (onDisk algo names n)) := by
      rw [Snapshot.look, hnone, Option.getD_none]
    rw [heq, hlook]
    refine ⟨_, ot, rfl, ⟨?_, ?_, ?_, ?_⟩, rfl⟩
    · intro m hm
      dsimp only
      rw [seen_update, h.seen m hm]
      by_cases hmn : m = n
      · simp [hmn]
      · simp [hmn]
    · intro m ls hs
      by_cases hmn : m = n
      · subst hmn
        obtain rfl : onDisk algo names m = ls := by simpa using hs
        refine ⟨hn, ?_⟩
        intro o ho
        obtain ⟨d_name, -, hd⟩ := List.mem_filterMap.mp ho
        exact (looseName_spec hn hd).2.2
      · exact h.subdir m ls (by simpa [hmn] using hs)
    · intro hc
      simp at hc
    · intro ot' hot
      obtain rfl : ot = ot' := by simpa using hot
      refine ⟨l', hl', ?_⟩
      intro o
      rw [hmem', hmem]
      constructor
      · rintro (⟨m, ls, hs, ho⟩ | ho)
        · have hmn : m ≠ n := by
            rintro rfl
            simp [hnone] at hs
          exact ⟨m, ls, by simpa [hmn] using hs, ho⟩
        · exact ⟨n, _, Function.update_self .., ho⟩
      · rintro ⟨m, ls, hs, ho⟩
        by_cases hmn : m = n
        · subst hmn
          obtain rfl : onDisk algo names m = ls := by simpa using hs
          exact .inr ho
        · exact .inl ⟨m, ls, by simpa [hmn] using hs, ho⟩

/-- The tree answers for the subdirectory of the object. -/
theorem Caches.contains {odb : ObjectDirectory} {s : Snapshot} {ot : OidTree} {oid : ObjectId}
    (h : Caches odb s) (hot : odb.looseObjectsCache = some ot) (hv : oid.Valid) :
    ot.contains oid = some (s.has oid) := by
  obtain ⟨l, hl, hmem⟩ := h.holds ot hot
  rw [contains_eq hl hv, Snapshot.has, Option.some.injEq, Bool.eq_iff_iff, List.any_eq_true,
    List.any_eq_true]
  constructor
  · rintro ⟨o, ho, hp⟩
    obtain ⟨n, ls, hs, ho⟩ := (hmem o).mp ho
    have hn := (h.subdir n ls hs).2 o ho
    have hhash : o.hash = oid.hash := by
      simp only [Bool.and_eq_true, beq_iff_eq] at hp
      exact hp.1
    refine ⟨o, ?_, hp⟩
    rw [← hhash, hn, hs]
    exact ho
  · rintro ⟨o, ho, hp⟩
    cases hs : s (oid.hash.getD 0 0).toNat with
    | none =>
      rw [hs, Option.getD_none] at ho
      exact absurd ho List.not_mem_nil
    | some ls =>
      rw [hs, Option.getD_some] at ho
      exact ⟨o, (hmem o).mpr ⟨_, ls, hs, ho⟩, hp⟩

/-- The directories stand for the snapshots. -/
abbrev AllCache (odbs : List ObjectDirectory) (snapshots : List Snapshot) : Prop :=
  List.Forall₂ Caches odbs snapshots

theorem quickHasLoose_spec {odbs : List ObjectDirectory} {snapshots : List Snapshot}
    (h : AllCache odbs snapshots) (disk : Nat → Subdirs) {oid : ObjectId} (hv : oid.Valid)
    (i : Nat) :
    ∃ odbs', quickHasLoose algo memory disk oid i odbs =
        some (odbs', (Snapshot.ask algo disk oid i snapshots).2) ∧
      AllCache odbs' (Snapshot.ask algo disk oid i snapshots).1 := by
  induction h generalizing i with
  | nil => exact ⟨[], rfl, .nil⟩
  | @cons odb s odbs snapshots hodb hrest ih =>
    obtain ⟨odb', ot, heq, hcaches, hcache⟩ : ∃ odb' ot,
        odbLooseCache algo memory (disk i) odb oid = some (odb', ot) ∧ _ ∧ _ :=
      odbLooseCache_spec hodb (disk i) oid
    have hfound := hcaches.contains hcache hv
    rw [quickHasLoose, heq]
    simp only [Option.bind_eq_bind, Option.bind_some, hfound, Snapshot.ask]
    cases hb : (Snapshot.look algo (disk i) s (oid.hash.getD 0 0).toNat).has oid with
    | true => exact ⟨odb' :: odbs, rfl, .cons hcaches hrest⟩
    | false =>
      obtain ⟨odbs', heq', hrest'⟩ := ih (i + 1)
      rw [heq']
      exact ⟨odb' :: odbs', rfl, .cons hcaches hrest'⟩

theorem allCache_empty (directories : Nat) :
    AllCache (List.replicate directories ObjectDirectory.empty)
      (List.replicate directories fun _ => none) := by
  induction directories with
  | zero => exact .nil
  | succ n ih => exact .cons caches_empty ih

theorem looseRun_spec (calls : List LooseCall)
    (hcalls : ∀ disk oid, .has disk oid ∈ calls → oid.Valid) {odbs : List ObjectDirectory}
    {snapshots : List Snapshot} (h : AllCache odbs snapshots) :
    looseRun algo memory odbs calls = some (Snapshot.answers algo snapshots calls) := by
  induction calls generalizing odbs snapshots with
  | nil => rfl
  | cons c calls ih =>
    have ih : ∀ odbs snapshots, AllCache odbs snapshots → looseRun algo memory odbs calls =
        some (Snapshot.answers algo snapshots calls) :=
      fun _ _ => ih fun disk oid hm => hcalls disk oid (List.mem_cons_of_mem c hm)
    cases c with
    | has disk oid =>
      obtain ⟨odbs', heq, h'⟩ : ∃ odbs', quickHasLoose algo memory disk oid 0 odbs = _ ∧ _ :=
        quickHasLoose_spec h disk (hcalls disk oid List.mem_cons_self) 0
      simp only [looseRun, looseStep, heq, Option.map_some, Option.bind_eq_bind, Option.bind_some,
        ih _ _ h', Snapshot.answers]
    | reprepare added =>
      have hlength : (odbs ++ List.replicate added ObjectDirectory.empty).length =
          snapshots.length + added := by
        rw [List.length_append, List.length_replicate, h.length_eq]
      simp only [looseRun, looseStep, Option.bind_eq_bind, Option.bind_some, Snapshot.answers,
        List.map_const', hlength, ih _ _ (allCache_empty _)]

/-- **The cache is a snapshot.**  Over any sequence of questions and calls of
`reprepare_packed_git`, with the disk changing in between, `quick_has_loose` answers as if each
object directory remembered the objects of each subdirectory from its first question for a name in
it since the last `reprepare_packed_git`. -/
theorem loose_cache_refines (algo : HashAlgo) (memory : Nat → CbNode) (directories : Nat)
    (calls : List LooseCall) (hcalls : ∀ disk oid, .has disk oid ∈ calls → oid.Valid) :
    looseRun algo memory (List.replicate directories ObjectDirectory.empty) calls =
      some (Snapshot.answers algo (List.replicate directories fun _ => none) calls) :=
  looseRun_spec calls hcalls (allCache_empty directories)

/-- A disk with the one object `12 00 … 00` of SHA-1. -/
def oneLoose : Nat → Subdirs := fun _ n => if n = 0x12 then [List.replicate 38 0x30] else []

/-- An object that appears on the disk is not seen before the next `reprepare_packed_git`, if
another one in its subdirectory has been asked for; that call finds a new alternate as well. -/
theorem loose_cache_refines_stale :
    looseRun .sha1 (fun _ => ⟨fun _ => .null, 0, 0, []⟩) (List.replicate 1 ObjectDirectory.empty)
      [.has (fun _ _ => []) (shortName 0x12 1), .has oneLoose (shortName 0x12 0), .reprepare 1,
        .has oneLoose (shortName 0x12 0)] = some [some false, some false, none, some true] := by
  have hvalid : ∀ disk oid, .has disk oid ∈ [LooseCall.has (fun _ _ => []) (shortName 0x12 1),
      .has oneLoose (shortName 0x12 0), .reprepare 1, .has oneLoose (shortName 0x12 0)] →
      oid.Valid := by
    intro disk oid h
    simp only [List.mem_cons, LooseCall.has.injEq, reduceCtorEq, List.not_mem_nil, false_or,
      or_false] at h
    obtain ⟨-, rfl⟩ | ⟨-, rfl⟩ | ⟨-, rfl⟩ := h
    all_goals exact shortName_valid _ _
  rw [loose_cache_refines .sha1 _ 1 _ hvalid]
  decide +kernel

end Git
