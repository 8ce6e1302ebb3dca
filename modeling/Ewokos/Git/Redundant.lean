import Ewokos.Git.PaintDown

/-!
# Redundant commits

The commits of an array that are behind another one of it, as git's `commit-reach.c` takes them out:
`remove_redundant_no_gen` paints from each commit in turn; `remove_redundant_with_gen` walks from the
parents of all, no deeper than the lowest commit that may still be independent, and stops when one
is left.

* `redundantStep_spec`, `redundantLoop_spec` — the painting from one commit, and from all of them.
* `GenSort` — what the sort by generation promises.
* `descend`, `walkStarts` — the walk from one parent, and from all of them, the highest first.
* `GenInv` — what the marks say during the walk; `GenInv.visit`, `GenInv.mark`, `GenInv.pop` are its
  steps, `descend_spec` and `walkStarts_spec` its runs.
* `GenInv.independent` — the commits without a mark at the end, also when the walk stops early.
* `removeRedundant_spec` — either way the independent commits are left.

Main result: `redundant_with_gen_exact`.
-/

set_option autoImplicit false

namespace Git

open Relation Ancestry

/-! ## The code -/

/-- One turn of the loop of `remove_redundant_no_gen`; `none` in the second place when the walk
fails. -/
def redundantStep (repo : Repo) (fuel : Nat) (array : List Nat) (i : Nat) (flags : Nat → Flags)
    (redundant : Nat → Bool) : Option ((Nat → Flags) × Option (Nat → Bool)) :=
  if redundant i then some (flags, some redundant)
  else do
    let filled_index := (List.range array.length).filter fun j => j ≠ i && !redundant j
    let one := array.getD i 0
    let work := filled_index.map fun j => array.getD j 0
    let minGeneration := work.foldl (fun m c => min (repo.generation c) m) (repo.generation one)
    match ← paintDownToCommon repo fuel flags one work minGeneration false with
    | .bug => none
    | .returns ret flags _ =>
      let redundant' : Nat → Bool := fun j =>
        redundant j || (j = i && (flags one).parent2) ||
          (filled_index.contains j && (flags (array.getD j 0)).parent1)
      let flags ← clearCommitMarksMany repo fuel flags [one]
      let flags ← clearCommitMarksMany repo fuel flags work
      some (flags, if ret ≠ 0 then none else some redundant')

/-- The loop of `remove_redundant_no_gen`. -/
def redundantLoop (repo : Repo) (fuel : Nat) (array : List Nat) :
    List Nat → (Nat → Flags) → (Nat → Bool) → Option ((Nat → Flags) × Option (Nat → Bool))
  | [], flags, redundant => some (flags, some redundant)
  | i :: rest, flags, redundant => do
    match ← redundantStep repo fuel array i flags redundant with
    | (flags, some redundant) => redundantLoop repo fuel array rest flags redundant
    | (flags, none) => some (flags, none)

/-- `remove_redundant_no_gen`: the array that is left, or `none` for an error. -/
def removeRedundantNoGen (repo : Repo) (fuel : Nat) (flags : Nat → Flags) (array : List Nat) :
    Option ((Nat → Flags) × Option (List Nat)) := do
  let (flags, redundant) ←
    redundantLoop repo fuel array (List.range array.length) flags fun _ => false
  some (flags, redundant.map fun redundant =>
    ((List.range array.length).filter fun i => !redundant i).map fun i => array.getD i 0)

/-- `compare_commits_by_gen`. -/
def compareCommitsByGen (repo : Repo) (a b : Nat) : Int :=
  if repo.generation a < repo.generation b then -1
  else if repo.generation b < repo.generation a then 1
  else if repo.date a < repo.date b then -1
  else if repo.date b < repo.date a then 1
  else 0

/-- `QSORT` by `compare_commits_by_gen`, the C library's `qsort`: the order of commits that compare
equal is left to it. -/
structure GenSort (repo : Repo) where
  sort : List Nat → List Nat
  perm : ∀ commits, (sort commits).Perm commits
  sorted : ∀ commits, (sort commits).Pairwise fun a b => compareCommitsByGen repo a b ≤ 0

/-- `parents` after `repo_parse_commit`. -/
def parsedParents (repo : Repo) (c : Nat) : List Nat := if repo.parses c then repo.parents c else []

def setStale (flags : Nat → Flags) (c : Nat) (b : Bool) : Nat → Flags :=
  Function.update flags c { flags c with stale := b }

def setResult (flags : Nat → Flags) (c : Nat) (b : Bool) : Nat → Flags :=
  Function.update flags c { flags c with result := b }

/-- The inner loop that marks the parents of a commit; the second list is `walk_start`. -/
def markParents : List Nat → (Nat → Flags) × List Nat → (Nat → Flags) × List Nat
  | [], st => st
  | p :: parents, (flags, walk_start) =>
    if (flags p).stale then markParents parents (flags, walk_start)
    else markParents parents (setStale flags p true, walk_start ++ [p])

/-- The loop that marks the array and its parents. -/
def markArray (repo : Repo) : List Nat → (Nat → Flags) × List Nat → (Nat → Flags) × List Nat
  | [], st => st
  | c :: array, (flags, walk_start) =>
    markArray repo array (markParents (parsedParents repo c) (setResult flags c true, walk_start))

/-- The variables of `remove_redundant_with_gen` that its walk changes. -/
structure GenWalk where
  flags : Nat → Flags
  countStillIndependent : Nat
  minGenPos : Nat
  minGeneration : Nat

/-- The loop that moves `min_gen_pos`. -/
def skipStale (flags : Nat → Flags) (sorted : List Nat) : Nat → Nat → Nat
  | 0, pos => pos
  | n + 1, pos =>
    if pos + 1 < sorted.length ∧ (flags (sorted.getD pos 0)).stale then
      skipStale flags sorted n (pos + 1)
    else pos

/-- What the walk does at a commit first, and whether it breaks off. -/
def visitCommit (repo : Repo) (sorted : List Nat) (st : GenWalk) (c : Nat) : GenWalk × Bool :=
  if (st.flags c).result then
    let st := { st with
      flags := setResult st.flags c false
      countStillIndependent := st.countStillIndependent - 1 }
    if st.countStillIndependent ≤ 1 then (st, true)
    else if c = sorted.getD st.minGenPos 0 then
      let pos := skipStale st.flags sorted sorted.length st.minGenPos
      ({ st with minGenPos := pos, minGeneration := repo.generation (sorted.getD pos 0) }, false)
    else (st, false)
  else (st, false)

/-- The loop over `stack`. -/
def descend (repo : Repo) (sorted : List Nat) : Nat → GenWalk → List Nat → Option GenWalk
  | 0, _, _ => none
  | _ + 1, st, [] => some st
  | fuel + 1, st, c :: stack =>
    match visitCommit repo sorted st c with
    | (st, true) => some st
    | (st, false) =>
      if repo.generation c < st.minGeneration then descend repo sorted fuel st stack
      else
        match (parsedParents repo c).find? fun p => !(st.flags p).stale with
        | some p =>
          descend repo sorted fuel { st with flags := setStale st.flags p true } (p :: c :: stack)
        | none => descend repo sorted fuel st stack

/-- The loop over `walk_start`, from its end. -/
def walkStarts (repo : Repo) (sorted : List Nat) (fuel : Nat) : GenWalk → List Nat → Option GenWalk
  | st, [] => some st
  | st, c :: starts =>
    if 1 < st.countStillIndependent then do
      let st ← descend repo sorted fuel { st with flags := setStale st.flags c true } [c]
      walkStarts repo sorted fuel st starts
    else some st

/-- `remove_redundant_with_gen`: the flags it leaves, and the first `count_non_stale` commits of the
array.  Only `STALE` is left to be cleared at the end. -/
def removeRedundantWithGen (repo : Repo) (qsort : GenSort repo) (fuel : Nat)
    (flags : Nat → Flags) (array : List Nat) : Option ((Nat → Flags) × List Nat) := do
  let sorted := qsort.sort array
  let (flags, walk_start) := markArray repo array (flags, [])
  let walk_start := qsort.sort walk_start
  let flags := walk_start.foldl (fun flags c => setStale flags c false) flags
  let st ← walkStarts repo sorted fuel
    ⟨flags, array.length, 0, repo.generation (sorted.getD 0 0)⟩ walk_start.reverse
  let flags := array.foldl (fun flags c => setResult flags c false) st.flags
  let left := array.filter fun c => !(flags c).stale
  let flags ← clearCommitMarksMany repo fuel flags walk_start
  some (flags, left)

/-- `remove_redundant`: the array that is left, or `none` for an error. -/
def removeRedundant (repo : Repo) (qsort : GenSort repo) (fuel : Nat) (flags : Nat → Flags)
    (array : List Nat) : Option ((Nat → Flags) × Option (List Nat)) :=
  if repo.generationNumbersEnabled &&
      array.any (fun c => repo.generation c < GENERATION_NUMBER_INFINITY) then do
    let (flags, left) ← removeRedundantWithGen repo qsort fuel flags array
    some (flags, some left)
  else removeRedundantNoGen repo fuel flags array

/-! ## Painting from each commit -/

/-- Some commit of the array is in front of the one at `j`. -/
def Behind (repo : Repo) (array : List Nat) (j : Nat) : Prop :=
  ∃ d ∈ array, TransGen repo.Parent d (array.getD j 0)

variable {repo : Repo} {array : List Nat} {fuel : Nat}

theorem foldl_min_le (work : List Nat) (m : Nat) :
    work.foldl (fun m c => min (repo.generation c) m) m ≤ m := by
  induction work generalizing m with
  | nil => exact Nat.le_refl m
  | cons c work ih => exact (ih _).trans (Nat.min_le_right ..)

theorem getD_mem {i : Nat} (hi : i < array.length) : array.getD i 0 ∈ array := by
  rw [List.getD_eq_getElem _ _ hi]
  exact List.getElem_mem hi

theorem getD_ne {i j : Nat} (hnd : array.Nodup) (hi : i < array.length) (hj : j < array.length)
    (hne : j ≠ i) : array.getD j 0 ≠ array.getD i 0 := by
  rw [List.getD_eq_getElem _ _ hi, List.getD_eq_getElem _ _ hj]
  exact fun h => hne ((List.Nodup.getElem_inj_iff hnd).mp h)

/-- What lies behind another commit lies behind one that is in front of all. -/
theorem Behind.front {j : Nat} (h : Behind repo array j) :
    ∃ k < array.length, TransGen repo.Parent (array.getD k 0) (array.getD j 0) ∧
      ¬Behind repo array k := by
  obtain ⟨d, hd, hdj⟩ := h
  obtain ⟨e, he, hed, hfront⟩ := exists_front (P := (· ∈ array)) repo.acyclic
    (List.finite_toSet array) hd
  obtain ⟨k, hk, rfl⟩ := List.mem_iff_getElem.mp he
  refine ⟨k, hk, ?_, ?_⟩
  · rw [List.getD_eq_getElem _ _ hk]
    exact hdj.trans_right hed
  · rintro ⟨g, hg, hgk⟩
    rw [List.getD_eq_getElem _ _ hk] at hgk
    exact hfront g hg hgk

theorem redundantStep_spec (hparses : ∀ c, repo.parses c = true) (hnd : array.Nodup)
    (harray : ∀ c ∈ array, c < repo.count) (hroom : array.length + 3 * repo.count < CTR_LIMIT)
    (hfuel : 1 + array.length + 3 * repo.count < fuel)
    (hclear : repo.count * (repo.width + 1) < fuel) {i : Nat} (hi : i < array.length)
    {redundant : Nat → Bool}
    (hsound : ∀ j < array.length, redundant j = true → Behind repo array j) :
    ∃ redundant', redundantStep repo fuel array i (fun _ => .none) redundant =
        some (fun _ => .none, some redundant') ∧
      (∀ j < array.length, redundant' j = true → Behind repo array j) ∧
      (∀ j, redundant j = true → redundant' j = true) ∧
      (Behind repo array i → redundant' i = true) := by
  unfold redundantStep
  by_cases hred : redundant i = true
  · rw [if_pos hred]
    exact ⟨redundant, rfl, hsound, fun _ h => h, fun _ => hred⟩
  · rw [if_neg hred]
    set filled := (List.range array.length).filter fun j => j ≠ i && !redundant j with hfilled
    set one := array.getD i 0 with hone
    set work := filled.map fun j => array.getD j 0 with hwork
    have hfill : ∀ j, j ∈ filled ↔ j < array.length ∧ j ≠ i ∧ redundant j = false := by
      intro j
      simp [hfilled]
    have hworklt : ∀ c ∈ work, c < repo.count := by
      intro c hc
      obtain ⟨j, hj, rfl⟩ := List.mem_map.mp hc
      exact harray _ (getD_mem ((hfill j).mp hj).1)
    have hlen : work.length ≤ array.length := by
      rw [hwork, List.length_map, hfilled]
      exact (List.length_filter_le ..).trans (List.length_range).le
    obtain ⟨flags, result, heq, hb, hcov, hs₁, hiff⟩ := paint_ancestors hparses
      (harray one (getD_mem hi)) hworklt (by omega) (show _ < fuel by omega)
      (foldl_min_le work (repo.generation one)) false
    obtain ⟨flags₁, hclear₁, hclear₂⟩ := clear_both hb hcov hclear
    simp only [← hwork, Option.bind_eq_bind]
    rw [heq]
    simp only [hclear₁, hclear₂, Option.bind_some, ne_eq, not_true_eq_false, if_false]
    refine ⟨_, rfl, ?_, ?_, ?_⟩
    · intro j hj hr
      simp only [Bool.or_eq_true, Bool.and_eq_true, decide_eq_true_eq, List.contains_iff_mem] at hr
      obtain (hr | ⟨rfl, hr⟩) | ⟨hmem, hr⟩ := hr
      · exact hsound j hj hr
      · obtain ⟨two, htwo, hreach⟩ := hiff.mp hr
        obtain ⟨k, hk, rfl⟩ := List.mem_map.mp htwo
        obtain ⟨hklt, hkne, -⟩ := (hfill k).mp hk
        exact ⟨_, getD_mem hklt, (reflTransGen_iff_eq_or_transGen.mp hreach).resolve_left
          (getD_ne hnd hj hklt hkne).symm⟩
      · obtain ⟨hjlt, hjne, -⟩ := (hfill j).mp hmem
        exact ⟨one, getD_mem hi, (reflTransGen_iff_eq_or_transGen.mp (hs₁ _ hr)).resolve_left
          (getD_ne hnd hi hjlt hjne)⟩
    · intro j hr
      simp [hr]
    · intro hbehind
      obtain ⟨k, hk, hki, hfront⟩ := hbehind.front
      have hne : k ≠ i := by
        rintro rfl
        exact repo.acyclic _ hki
      have hkred : redundant k = false := by
        by_contra hr
        exact hfront (hsound k hk (by simpa using hr))
      have hmem : array.getD k 0 ∈ work :=
        List.mem_map.mpr ⟨k, (hfill k).mpr ⟨hk, hne, hkred⟩, rfl⟩
      have := hiff.mpr ⟨_, hmem, hki.to_reflTransGen⟩
      simp [this]

theorem redundantLoop_spec (hparses : ∀ c, repo.parses c = true) (hnd : array.Nodup)
    (harray : ∀ c ∈ array, c < repo.count) (hroom : array.length + 3 * repo.count < CTR_LIMIT)
    (hfuel : 1 + array.length + 3 * repo.count < fuel)
    (hclear : repo.count * (repo.width + 1) < fuel) (rest : List Nat)
    (hrest : ∀ i ∈ rest, i < array.length) (redundant : Nat → Bool)
    (hsound : ∀ j < array.length, redundant j = true → Behind repo array j) :
    ∃ redundant', redundantLoop repo fuel array rest (fun _ => .none) redundant =
        some (fun _ => .none, some redundant') ∧
      (∀ j < array.length, redundant' j = true → Behind repo array j) ∧
      (∀ j, redundant j = true → redundant' j = true) ∧
      ∀ i ∈ rest, Behind repo array i → redundant' i = true := by
  induction rest generalizing redundant with
  | nil => exact ⟨redundant, rfl, hsound, fun _ h => h, by simp⟩
  | cons i rest ih =>
    obtain ⟨redundant₁, heq₁, hsound₁, hkeep₁, hdone₁⟩ := redundantStep_spec hparses hnd harray
      hroom hfuel hclear (hrest i (List.mem_cons_self ..)) hsound
    obtain ⟨redundant₂, heq₂, hsound₂, hkeep₂, hdone₂⟩ :=
      ih (fun j hj => hrest j (List.mem_cons_of_mem _ hj)) redundant₁ hsound₁
    refine ⟨redundant₂, by simp [redundantLoop, heq₁, heq₂], hsound₂,
      fun j hj => hkeep₂ j (hkeep₁ j hj), ?_⟩
    intro j hj hb
    rcases List.mem_cons.mp hj with rfl | hj
    · exact hkeep₂ j (hdone₁ hb)
    · exact hdone₂ j hj hb

/-- What is left is what is behind no other commit of the array. -/
theorem redundant_spec (hparses : ∀ c, repo.parses c = true) (hnd : array.Nodup)
    (harray : ∀ c ∈ array, c < repo.count) (hroom : array.length + 3 * repo.count < CTR_LIMIT)
    (hfuel : 1 + array.length + 3 * repo.count < fuel)
    (hclear : repo.count * (repo.width + 1) < fuel) :
    ∃ left, removeRedundantNoGen repo fuel (fun _ => .none) array =
        some (fun _ => .none, some left) ∧ left.Nodup ∧
      ∀ c, c ∈ left ↔ c ∈ array ∧ ∀ d ∈ array, ¬TransGen repo.Parent d c := by
  obtain ⟨redundant, heq, hsound, -, hdone⟩ := redundantLoop_spec hparses hnd harray hroom hfuel
    hclear (List.range array.length) (by simp) (fun _ => false) (by simp)
  refine ⟨((List.range array.length).filter fun i => !redundant i).map fun i => array.getD i 0,
    by simp [removeRedundantNoGen, heq], ?_, ?_⟩
  · refine (List.nodup_range.filter _).map_on ?_
    intro i hi j hj he
    by_contra hne
    have hi' : i < array.length := by
      simpa using (List.mem_filter.mp hi).1
    have hj' : j < array.length := by
      simpa using (List.mem_filter.mp hj).1
    exact getD_ne hnd hj' hi' hne he
  · intro c
    simp only [List.mem_map, List.mem_filter, List.mem_range, Bool.not_eq_true']
    constructor
    · rintro ⟨i, ⟨hi, hr⟩, rfl⟩
      refine ⟨getD_mem hi, ?_⟩
      intro d hd hdi
      have := hdone i (List.mem_range.mpr hi) ⟨d, hd, hdi⟩
      simp [hr] at this
    · rintro ⟨hc, hfront⟩
      obtain ⟨i, hi, rfl⟩ := List.mem_iff_getElem.mp hc
      refine ⟨i, ⟨hi, ?_⟩, List.getD_eq_getElem _ _ hi⟩
      by_contra hr
      obtain ⟨d, hd, hdi⟩ := hsound i hi (by simpa using hr)
      rw [List.getD_eq_getElem _ _ hi] at hdi
      exact hfront d hd hdi

/-! ## Flags -/

variable {flags : Nat → Flags} {sorted starts stack : List Nat} {st : GenWalk} {c p : Nat}

@[simp] theorem setStale_stale {b : Bool} {q : Nat} :
    (setStale flags c b q).stale = if q = c then b else (flags q).stale := by
  unfold setStale
  by_cases h : q = c
  · simp [h]
  · simp [h]

@[simp] theorem setStale_result {b : Bool} {q : Nat} :
    (setStale flags c b q).result = (flags q).result := by
  unfold setStale
  by_cases h : q = c
  · simp [h]
  · simp [h]

@[simp] theorem setResult_stale {b : Bool} {q : Nat} :
    (setResult flags c b q).stale = (flags q).stale := by
  unfold setResult
  by_cases h : q = c
  · simp [h]
  · simp [h]

@[simp] theorem setResult_result {b : Bool} {q : Nat} :
    (setResult flags c b q).result = if q = c then b else (flags q).result := by
  unfold setResult
  by_cases h : q = c
  · simp [h]
  · simp [h]

/-- Neither `PARENT1` nor `PARENT2` is set. -/
def NoParents (flags : Nat → Flags) : Prop :=
  ∀ c, (flags c).parent1 = false ∧ (flags c).parent2 = false

theorem NoParents.setStale {b : Bool} (h : NoParents flags) : NoParents (setStale flags c b) := by
  intro q
  unfold Git.setStale
  by_cases hq : q = c
  · simpa [hq] using h c
  · simpa [hq] using h q

theorem NoParents.setResult {b : Bool} (h : NoParents flags) : NoParents (setResult flags c b) := by
  intro q
  unfold Git.setResult
  by_cases hq : q = c
  · simpa [hq] using h c
  · simpa [hq] using h q

theorem foldl_setStale (flags : Nat → Flags) (l : List Nat) (q : Nat) :
    (l.foldl (fun flags c => setStale flags c false) flags q).stale =
        ((flags q).stale && !l.contains q) ∧
      (l.foldl (fun flags c => setStale flags c false) flags q).result = (flags q).result := by
  induction l generalizing flags with
  | nil => simp
  | cons c l ih =>
    obtain ⟨h₁, h₂⟩ := ih (setStale flags c false)
    refine ⟨?_, ?_⟩
    · rw [List.foldl_cons, h₁, setStale_stale]
      by_cases h : q = c
      · simp [h]
      · simp [h]
    · rw [List.foldl_cons, h₂, setStale_result]

theorem foldl_setStale_parents (l : List Nat) (h : NoParents flags) :
    NoParents (l.foldl (fun flags c => setStale flags c false) flags) := by
  induction l generalizing flags with
  | nil => exact h
  | cons c l ih => exact ih h.setStale

theorem foldl_setResult (flags : Nat → Flags) (l : List Nat) (q : Nat) :
    (l.foldl (fun flags c => setResult flags c false) flags q).stale = (flags q).stale ∧
      (l.foldl (fun flags c => setResult flags c false) flags q).result =
        ((flags q).result && !l.contains q) := by
  induction l generalizing flags with
  | nil => simp
  | cons c l ih =>
    obtain ⟨h₁, h₂⟩ := ih (setResult flags c false)
    refine ⟨?_, ?_⟩
    · rw [List.foldl_cons, h₁, setResult_stale]
    · rw [List.foldl_cons, h₂, setResult_result]
      by_cases h : q = c
      · simp [h]
      · simp [h]

theorem foldl_setResult_parents (l : List Nat) (h : NoParents flags) :
    NoParents (l.foldl (fun flags c => setResult flags c false) flags) := by
  induction l generalizing flags with
  | nil => exact h
  | cons c l ih => exact ih h.setResult

/-! ## Sorting -/

theorem GenSort.generation (qsort : GenSort repo) (l : List Nat) :
    (qsort.sort l).Pairwise fun a b => repo.generation a ≤ repo.generation b := by
  refine (qsort.sorted l).imp ?_
  intro a b hab
  unfold compareCommitsByGen at hab
  split_ifs at hab <;> omega

/-- Insertion sort is one. -/
def insertionByGen (repo : Repo) : GenSort repo where
  sort := List.insertionSort fun a b => compareCommitsByGen repo a b ≤ 0
  perm := List.perm_insertionSort _
  sorted := by
    have htotal : Std.Total fun a b : Nat => compareCommitsByGen repo a b ≤ 0 := by
      constructor
      intro a b
      unfold compareCommitsByGen
      split_ifs <;> omega
    have htrans : IsTrans Nat fun a b => compareCommitsByGen repo a b ≤ 0 := by
      constructor
      intro a b c hab hbc
      unfold compareCommitsByGen at *
      split_ifs at hab hbc ⊢ <;> omega
    exact List.pairwise_insertionSort _

theorem skipStale_spec (flags : Nat → Flags) (sorted : List Nat) (n pos : Nat)
    (hpos : pos < sorted.length) :
    pos ≤ skipStale flags sorted n pos ∧ skipStale flags sorted n pos < sorted.length ∧
      ∀ i, pos ≤ i → i < skipStale flags sorted n pos → (flags (sorted.getD i 0)).stale = true := by
  induction n generalizing pos with
  | zero => exact ⟨Nat.le_refl _, hpos, fun i h₁ h₂ => by simp only [skipStale] at h₂; omega⟩
  | succ n ih =>
    rw [skipStale]
    split
    · rename_i h
      obtain ⟨h₁, h₂, h₃⟩ := ih (pos + 1) h.1
      refine ⟨by omega, h₂, ?_⟩
      intro i hi hlt
      obtain rfl | hi : i = pos ∨ pos + 1 ≤ i := by omega
      · exact h.2
      · exact h₃ i hi hlt
    · exact ⟨Nat.le_refl _, hpos, fun i h₁ h₂ => by omega⟩

/-! ## Marking the start -/

/-- The marks while the array is gone through: `done` are the commits that were. -/
structure Marked (repo : Repo) (done : List Nat) (st : (Nat → Flags) × List Nat) : Prop where
  parents : NoParents st.1
  result : ∀ c, (st.1 c).result = true ↔ c ∈ done
  stale : ∀ c, (st.1 c).stale = true ↔ c ∈ st.2
  starts : ∀ c, c ∈ st.2 → ∃ d ∈ done, repo.Parent d c

theorem markParents_spec {done ps : List Nat} {st : (Nat → Flags) × List Nat}
    (h : Marked repo done st) (hps : ∀ p ∈ ps, ∃ d ∈ done, repo.Parent d p) :
    Marked repo done (markParents ps st) ∧ st.2 ⊆ (markParents ps st).2 ∧
      ps ⊆ (markParents ps st).2 := by
  induction ps generalizing st with
  | nil => exact ⟨h, List.Subset.refl _, by simp⟩
  | cons p ps ih =>
    obtain ⟨flags, walk_start⟩ := st
    have hps' := fun q hq => hps q (List.mem_cons_of_mem p hq)
    rw [markParents]
    split
    · rename_i hs
      obtain ⟨hm, hsub, hmem⟩ := ih h hps'
      refine ⟨hm, hsub, ?_⟩
      intro q hq
      obtain rfl | hq := List.mem_cons.mp hq
      · exact hsub ((h.stale q).mp hs)
      · exact hmem hq
    · rename_i hs
      have h' : Marked repo done (setStale flags p true, walk_start ++ [p]) := by
        refine ⟨h.parents.setStale, ?_, ?_, ?_⟩
        · intro c
          simpa using h.result c
        · intro c
          have hc := h.stale c
          simp only [setStale_stale, List.mem_append, List.mem_singleton]
          by_cases he : c = p
          · simp [he]
          · simpa [he] using hc
        · intro c hc
          simp only [List.mem_append, List.mem_singleton] at hc
          obtain hc | rfl := hc
          · exact h.starts c hc
          · exact hps c List.mem_cons_self
      obtain ⟨hm, hsub, hmem⟩ := ih h' hps'
      refine ⟨hm, fun q hq => hsub (List.mem_append_left _ hq), ?_⟩
      intro q hq
      obtain rfl | hq := List.mem_cons.mp hq
      · exact hsub (by simp)
      · exact hmem hq

theorem parsedParents_eq (hparses : ∀ c, repo.parses c = true) (c : Nat) :
    parsedParents repo c = repo.parents c := if_pos (hparses c)

theorem markArray_spec (hparses : ∀ c, repo.parses c = true) {done rest : List Nat}
    {st : (Nat → Flags) × List Nat} (h : Marked repo done st)
    (hall : ∀ d ∈ done, ∀ c, repo.Parent d c → c ∈ st.2) :
    Marked repo (done ++ rest) (markArray repo rest st) ∧
      ∀ d ∈ done ++ rest, ∀ c, repo.Parent d c → c ∈ (markArray repo rest st).2 := by
  induction rest generalizing done st with
  | nil => simpa [markArray] using And.intro h hall
  | cons c rest ih =>
    obtain ⟨flags, walk_start⟩ := st
    have h' : Marked repo (done ++ [c]) (setResult flags c true, walk_start) := by
      refine ⟨h.parents.setResult, ?_, ?_, ?_⟩
      · intro q
        have hq := h.result q
        simp only [setResult_result, List.mem_append, List.mem_singleton]
        by_cases he : q = c
        · simp [he]
        · simpa [he] using hq
      · intro q
        simpa using h.stale q
      · intro q hq
        obtain ⟨d, hd, hp⟩ := h.starts q hq
        exact ⟨d, List.mem_append_left _ hd, hp⟩
    have hps : ∀ p ∈ parsedParents repo c, ∃ d ∈ done ++ [c], repo.Parent d p := by
      intro p hp
      rw [parsedParents_eq hparses] at hp
      exact ⟨c, by simp, hp⟩
    obtain ⟨hm, hsub, hmem⟩ := markParents_spec h' hps
    have hall' : ∀ d ∈ done ++ [c], ∀ q, repo.Parent d q →
        q ∈ (markParents (parsedParents repo c) (setResult flags c true, walk_start)).2 := by
      intro d hd q hq
      obtain hd | hd := List.mem_append.mp hd
      · exact hsub (hall d hd q hq)
      · obtain rfl : d = c := by simpa using hd
        exact hmem (by rw [parsedParents_eq hparses]; exact hq)
    have := ih hm hall'
    rwa [List.append_assoc, List.singleton_append] at this

/-! ## What the marks say -/

/-- The flags with their `STALE` only. -/
def staleOf (flags : Nat → Flags) (c : Nat) : Flags := ⟨false, false, (flags c).stale, false⟩

@[simp] theorem staleOf_ne : staleOf flags c ≠ .none ↔ (flags c).stale = true := by
  simp [staleOf, Flags.none]

/-- What holds while the commits in `stack` wait. -/
structure GenInv (repo : Repo) (array sorted starts : List Nat) (st : GenWalk)
    (stack : List Nat) : Prop where
  parents : NoParents st.flags
  behind : ∀ c, (st.flags c).stale = true → ∃ d ∈ array, TransGen repo.Parent d c
  result : ∀ c, (st.flags c).result = true → c ∈ array
  seen : ∀ c ∈ array, (st.flags c).result = true ∨ (st.flags c).stale = true
  count : st.countStillIndependent = (array.filter fun c => (st.flags c).result).length
  pos : st.minGenPos < sorted.length
  generation : st.minGeneration = repo.generation (sorted.getD st.minGenPos 0)
  passed : ∀ i < st.minGenPos, (st.flags (sorted.getD i 0)).stale = true
  waiting : ∀ c ∈ stack, (st.flags c).stale = true
  closed : ∀ c, (st.flags c).stale = true → c ∈ stack ∨ repo.generation c < st.minGeneration ∨
    ∀ p, repo.Parent c p → (st.flags p).stale = true
  covered : Covered repo (staleOf st.flags) starts

/-- One more commit is marked and pushed: one to start from, or a parent of a marked one. -/
theorem GenInv.mark (h : GenInv repo array sorted starts st stack)
    (hb : ∃ d ∈ array, TransGen repo.Parent d p)
    (hs : p ∈ starts ∨ ∃ c, (st.flags c).stale = true ∧ repo.Parent c p) :
    GenInv repo array sorted starts { st with flags := setStale st.flags p true } (p :: stack) := by
  have hkeep : ∀ c, (st.flags c).stale = true → (setStale st.flags p true c).stale = true := by
    intro c hc
    simp [hc]
  refine ⟨h.parents.setStale, ?_, ?_, ?_, ?_, h.pos, h.generation, ?_, ?_, ?_, ?_⟩
  · intro c hc
    by_cases he : c = p
    · exact he ▸ hb
    · exact h.behind c (by simpa [he] using hc)
  · intro c hc
    exact h.result c (by simpa using hc)
  · intro c hc
    obtain hr | hr := h.seen c hc
    · exact .inl (by simpa using hr)
    · exact .inr (hkeep c hr)
  · simpa using h.count
  · intro i hi
    exact hkeep _ (h.passed i hi)
  · intro c hc
    obtain rfl | hc := List.mem_cons.mp hc
    · simp
    · exact hkeep c (h.waiting c hc)
  · intro c hc
    by_cases he : c = p
    · exact .inl (by simp [he])
    · obtain hm | hm | hm := h.closed c (by simpa [he] using hc)
      · exact .inl (List.mem_cons_of_mem _ hm)
      · exact .inr (.inl hm)
      · exact .inr (.inr fun q hq => hkeep q (hm q hq))
  · have hmono : ∀ c, staleOf st.flags c ≠ .none →
        staleOf (setStale st.flags p true) c ≠ .none := by
      intro c hc
      exact staleOf_ne.mpr (hkeep c (staleOf_ne.mp hc))
    have hp : staleOf (setStale st.flags p true) p ≠ .none := by simp
    intro m hm
    by_cases he : m = p
    · subst he
      obtain hs | ⟨c, hc, hcm⟩ := hs
      · exact ⟨m, hs, hp, .refl⟩
      · obtain ⟨s, hs, hway⟩ := h.covered c (staleOf_ne.mpr hc)
        exact ⟨s, hs, (hway.mono hmono).1, (hway.mono hmono).2.tail ⟨hcm, hp⟩⟩
    · have hm' : (st.flags m).stale = true := by simpa [he] using staleOf_ne.mp hm
      obtain ⟨s, hs, hway⟩ := h.covered m (staleOf_ne.mpr hm')
      exact ⟨s, hs, hway.mono hmono⟩

/-- A commit is done with. -/
theorem GenInv.pop (h : GenInv repo array sorted starts st (c :: stack))
    (hc : repo.generation c < st.minGeneration ∨
      ∀ p, repo.Parent c p → (st.flags p).stale = true) :
    GenInv repo array sorted starts st stack := by
  refine { h with
    waiting := fun q hq => h.waiting q (List.mem_cons_of_mem _ hq)
    closed := ?_ }
  intro q hq
  obtain hm | hm := h.closed q hq
  · obtain rfl | hm := List.mem_cons.mp hm
    · exact .inr hc
    · exact .inl hm
  · exact .inr hm

/-- One element less passes a test. -/
theorem length_filter_of_mem {l : List Nat} (hl : l.Nodup) {f g : Nat → Bool} (hc : c ∈ l)
    (hf : f c = true) (hg : g c = false) (hfg : ∀ q, q ≠ c → g q = f q) :
    (l.filter g).length = (l.filter f).length - 1 := by
  have herase : l.filter g = (l.filter f).erase c := by
    rw [(hl.filter f).erase_eq_filter, List.filter_filter]
    apply List.filter_congr
    intro q hq
    by_cases he : q = c
    · simp [he, hg]
    · simp [he, hfg q he]
  rw [herase, List.length_erase_of_mem (List.mem_filter.mpr ⟨hc, hf⟩)]

/-- At a commit the walk takes it out of the independent ones, and may go less deep from now on. -/
theorem GenInv.visit (h : GenInv repo array sorted starts st stack) (hnd : array.Nodup)
    (hsorted : sorted.Pairwise fun a b => repo.generation a ≤ repo.generation b)
    (hc : (st.flags c).stale = true) :
    GenInv repo array sorted starts (visitCommit repo sorted st c).1 stack ∧
      (∀ q, ((visitCommit repo sorted st c).1.flags q).stale = (st.flags q).stale) ∧
      ((visitCommit repo sorted st c).2 = true →
        (visitCommit repo sorted st c).1.countStillIndependent ≤ 1) := by
  unfold visitCommit
  by_cases hr : (st.flags c).result = true
  · have hinv : GenInv repo array sorted starts { st with
        flags := setResult st.flags c false
        countStillIndependent := st.countStillIndependent - 1 } stack := by
      have hstale : staleOf (setResult st.flags c false) = staleOf st.flags := by
        funext q
        simp [staleOf]
      refine ⟨h.parents.setResult, ?_, ?_, ?_, ?_, h.pos, h.generation, ?_, ?_, ?_, ?_⟩
      · intro q hq
        exact h.behind q (by simpa using hq)
      · intro q hq
        by_cases he : q = c
        · simp [he] at hq
        · exact h.result q (by simpa [he] using hq)
      · intro q hq
        by_cases he : q = c
        · exact .inr (by simp [he, hc])
        · simpa [he] using h.seen q hq
      · rw [h.count]
        exact (length_filter_of_mem hnd (h.result c hr) hr (by simp) (by simp_all)).symm
      · intro i hi
        simpa using h.passed i hi
      · intro q hq
        simpa using h.waiting q hq
      · intro q hq
        simpa using h.closed q (by simpa using hq)
      · rw [hstale]
        exact h.covered
    rw [if_pos hr]
    dsimp only
    split
    · rename_i hcount
      exact ⟨hinv, fun q => by simp, fun _ => hcount⟩
    · split
      · obtain ⟨hle, hlt, hpassed⟩ := skipStale_spec (setResult st.flags c false) sorted
          sorted.length st.minGenPos h.pos
        have hgen : st.minGeneration ≤ repo.generation
            (sorted.getD (skipStale (setResult st.flags c false) sorted sorted.length
              st.minGenPos) 0) := by
          rw [h.generation, List.getD_eq_getElem _ _ h.pos, List.getD_eq_getElem _ _ hlt]
          obtain he | hlt' := Nat.eq_or_lt_of_le hle
          · simp only [← he]
            exact Nat.le_refl _
          · exact List.pairwise_iff_getElem.mp hsorted _ _ h.pos hlt hlt'
        refine ⟨{ hinv with pos := hlt, generation := rfl, passed := ?_, closed := ?_ },
          fun q => by simp, by simp⟩
        · intro i hi
          by_cases hi' : i < st.minGenPos
          · exact hinv.passed i hi'
          · exact hpassed i (by omega) hi
        · intro q hq
          obtain hm | hm | hm := hinv.closed q hq
          · exact .inl hm
          · exact .inr (.inl (Nat.lt_of_lt_of_le hm hgen))
          · exact .inr (.inr hm)
      · exact ⟨hinv, fun q => by simp, by simp⟩
  · rw [if_neg hr]
    exact ⟨h, fun _ => rfl, by simp⟩

/-! ## The walk -/

/-- The commits without `STALE`. -/
def unmarked (repo : Repo) (flags : Nat → Flags) : Nat :=
  ((Finset.range repo.count).filter fun c => (flags c).stale = false).card

theorem unmarked_le : unmarked repo flags ≤ repo.count :=
  (Finset.card_filter_le ..).trans (Finset.card_range _).le

theorem unmarked_congr {flags' : Nat → Flags} (h : ∀ c, (flags' c).stale = (flags c).stale) :
    unmarked repo flags' = unmarked repo flags := by
  simp only [unmarked, h]

theorem unmarked_mark (hp : p < repo.count) (hs : (flags p).stale = false) :
    unmarked repo (setStale flags p true) + 1 = unmarked repo flags := by
  have heq : ((Finset.range repo.count).filter fun c => (setStale flags p true c).stale = false) =
      ((Finset.range repo.count).filter fun c => (flags c).stale = false).erase p := by
    ext c
    by_cases hc : c = p
    · simp [hc]
    · simp [hc]
  unfold unmarked
  rw [heq, Finset.card_erase_add_one]
  simp [hs, hp]

/-- How a walk ends: one commit may be left, or every mark was followed. -/
def Walked (repo : Repo) (array sorted starts : List Nat) (st : GenWalk) : Prop :=
  (st.countStillIndependent ≤ 1 ∧ ∃ stack, GenInv repo array sorted starts st stack) ∨
    GenInv repo array sorted starts st []

/-- A walk ends, and keeps the marks. -/
theorem descend_spec (hparses : ∀ c, repo.parses c = true) (hnd : array.Nodup)
    (hsorted : sorted.Pairwise fun a b => repo.generation a ≤ repo.generation b) {fuel : Nat}
    (h : GenInv repo array sorted starts st stack)
    (hf : 2 * unmarked repo st.flags + stack.length < fuel) :
    ∃ st', descend repo sorted fuel st stack = some st' ∧ Walked repo array sorted starts st' ∧
      ∀ c, (st.flags c).stale = true → (st'.flags c).stale = true := by
  induction fuel generalizing st stack with
  | zero => omega
  | succ fuel ih =>
    cases stack with
    | nil => exact ⟨st, rfl, .inr h, fun _ hc => hc⟩
    | cons c stack =>
      have hc := h.waiting c List.mem_cons_self
      obtain ⟨hinv, hsame, hstop⟩ := h.visit hnd hsorted hc
      rw [descend]
      generalize visitCommit repo sorted st c = v at hinv hsame hstop
      obtain ⟨st₁, stop⟩ := v
      have hcount : unmarked repo st₁.flags = unmarked repo st.flags := unmarked_congr hsame
      simp only [List.length_cons] at hf
      cases stop with
      | true =>
        exact ⟨st₁, rfl, .inl ⟨hstop rfl, _, hinv⟩, fun q hq => (hsame q).trans hq⟩
      | false =>
        dsimp only at hinv hsame hcount ⊢
        by_cases hgen : repo.generation c < st₁.minGeneration
        · rw [if_pos hgen]
          obtain ⟨st₂, heq, hend, hkeep⟩ := ih (hinv.pop (.inl hgen)) (by omega)
          exact ⟨st₂, heq, hend, fun q hq => hkeep q ((hsame q).trans hq)⟩
        · rw [if_neg hgen, parsedParents_eq hparses]
          cases hfind : (repo.parents c).find? fun p => !(st₁.flags p).stale with
          | none =>
            have hall : ∀ p, repo.Parent c p → (st₁.flags p).stale = true := by
              intro p hp
              simpa using List.find?_eq_none.mp hfind p hp
            obtain ⟨st₂, heq, hend, hkeep⟩ := ih (hinv.pop (.inr hall)) (by omega)
            exact ⟨st₂, heq, hend, fun q hq => hkeep q ((hsame q).trans hq)⟩
          | some p =>
            have hp : repo.Parent c p := List.mem_of_find?_eq_some hfind
            have hs : (st₁.flags p).stale = false := by
              simpa using List.find?_some hfind
            have hc₁ : (st₁.flags c).stale = true := (hsame c).trans hc
            obtain ⟨d, hd, hdc⟩ := hinv.behind c hc₁
            have hmark := hinv.mark ⟨d, hd, hdc.tail hp⟩ (.inr ⟨c, hc₁, hp⟩)
            have hless := unmarked_mark (repo.closed c p hp) hs
            have hroom : 2 * unmarked repo (setStale st₁.flags p true) +
                (p :: c :: stack).length < fuel := by
              simp only [List.length_cons]
              omega
            obtain ⟨st₂, heq, hend, hkeep⟩ := ih hmark hroom
            refine ⟨st₂, heq, hend, ?_⟩
            intro q hq
            apply hkeep
            simp [(hsame q).trans hq]

/-- The walks from all the starts: unless one commit is left, every start is marked. -/
theorem walkStarts_spec (hparses : ∀ c, repo.parses c = true) (hnd : array.Nodup)
    (hsorted : sorted.Pairwise fun a b => repo.generation a ≤ repo.generation b) {fuel : Nat}
    (hf : 2 * repo.count + 1 < fuel) (rest : List Nat) (hrest : rest ⊆ starts)
    (hstarts : ∀ c ∈ starts, ∃ d ∈ array, repo.Parent d c)
    (h : Walked repo array sorted starts st) :
    ∃ st', walkStarts repo sorted fuel st rest = some st' ∧ Walked repo array sorted starts st' ∧
      (∀ c, (st.flags c).stale = true → (st'.flags c).stale = true) ∧
      (st'.countStillIndependent ≤ 1 ∨ ∀ c ∈ rest, (st'.flags c).stale = true) := by
  induction rest generalizing st with
  | nil => exact ⟨st, rfl, h, fun _ hc => hc, .inr (by simp)⟩
  | cons c rest ih =>
    rw [walkStarts]
    by_cases hcount : 1 < st.countStillIndependent
    · rw [if_pos hcount]
      have hinv : GenInv repo array sorted starts st [] :=
        h.resolve_left fun hless => by omega
      have hc := hrest List.mem_cons_self
      obtain ⟨d, hd, hdc⟩ := hstarts c hc
      have hmark := hinv.mark ⟨d, hd, .single hdc⟩ (.inl hc)
      have hroom : 2 * unmarked repo (setStale st.flags c true) + [c].length < fuel := by
        have hle : unmarked repo (setStale st.flags c true) ≤ repo.count := unmarked_le
        rw [List.length_singleton]
        omega
      obtain ⟨st₁, heq₁, hend₁, hkeep₁⟩ := descend_spec hparses hnd hsorted hmark hroom
      obtain ⟨st₂, heq₂, hend₂, hkeep₂, hall⟩ :=
        ih (fun q hq => hrest (List.mem_cons_of_mem _ hq)) hend₁
      refine ⟨st₂, by simp [heq₁, heq₂], hend₂, ?_, ?_⟩
      · intro q hq
        exact hkeep₂ q (hkeep₁ q (by simp [hq]))
      · obtain hall | hall := hall
        · exact .inl hall
        · refine .inr fun q hq => ?_
          obtain rfl | hq := List.mem_cons.mp hq
          · exact hkeep₂ q (hkeep₁ q (by simp))
          · exact hall q hq
    · rw [if_neg hcount]
      exact ⟨st, rfl, h, fun _ hc => hc, .inl (by omega)⟩

/-- Before the walk no commit is stale, and the array is the result. -/
theorem Marked.start {walk_start : List Nat} (h : Marked repo array (flags, walk_start))
    (hperm : starts.Perm walk_start) (hpos : 0 < sorted.length) :
    GenInv repo array sorted starts
      ⟨starts.foldl (fun flags c => setStale flags c false) flags, array.length, 0,
        repo.generation (sorted.getD 0 0)⟩ [] := by
  set flags₁ := starts.foldl (fun flags c => setStale flags c false) flags with hflags₁
  have hstale₁ : ∀ c, (flags₁ c).stale = false := by
    intro c
    rw [hflags₁, (foldl_setStale flags starts c).1]
    cases hs : (flags c).stale with
    | false => rfl
    | true =>
      have : c ∈ starts := hperm.mem_iff.mpr ((h.stale c).mp hs)
      simpa using this
  have hresult₁ : ∀ c, (flags₁ c).result = true ↔ c ∈ array := by
    intro c
    rw [hflags₁, (foldl_setStale flags starts c).2]
    exact h.result c
  refine ⟨foldl_setStale_parents starts h.parents, ?_, ?_, ?_, ?_, hpos, rfl, ?_, ?_, ?_, ?_⟩
  · intro c hc
    simp [hstale₁] at hc
  · intro c hc
    exact (hresult₁ c).mp hc
  · intro c hc
    exact .inl ((hresult₁ c).mpr hc)
  · dsimp only
    rw [List.filter_eq_self.mpr fun c hc => (hresult₁ c).mpr hc]
  · intro i hi
    exact absurd hi (Nat.not_lt_zero _)
  · intro c hc
    simp at hc
  · intro c hc
    simp [hstale₁] at hc
  · intro c hc
    simp [hstale₁] at hc

/-! ## What is left -/

/-- When every mark was followed, everything behind a marked commit is marked, or lies deeper than
the lowest commit that may be independent. -/
theorem GenInv.reach (h : GenInv repo array sorted starts st []) (hc : (st.flags c).stale = true)
    {q : Nat} (hq : repo.Reach c q) :
    (st.flags q).stale = true ∨ repo.generation q < st.minGeneration := by
  induction hq using ReflTransGen.head_induction_on with
  | refl => exact .inl hc
  | @head a b hab hbq ih =>
    obtain hm | hm | hm := h.closed a hc
    · simp at hm
    · have hle : repo.generation q ≤ repo.generation a :=
        Repo.Reach.generation_le (.head hab hbq)
      exact .inr (Nat.lt_of_le_of_lt hle hm)
    · exact ih (hm b hab)

/-- A commit of the array that is behind another one is marked. -/
theorem GenInv.independent (hend : Walked repo array sorted starts st)
    (hperm : sorted.Perm array)
    (hsorted : sorted.Pairwise fun a b => repo.generation a ≤ repo.generation b)
    (hall : ∀ d ∈ array, ∀ p, repo.Parent d p → p ∈ starts)
    (hmarked : st.countStillIndependent ≤ 1 ∨ ∀ p ∈ starts, (st.flags p).stale = true)
    (hc : c ∈ array) :
    (st.flags c).stale = true ↔ ∃ d ∈ array, TransGen repo.Parent d c := by
  have hinv : ∃ stack, GenInv repo array sorted starts st stack := by
    obtain ⟨-, h⟩ | h := hend
    · exact h
    · exact ⟨[], h⟩
  obtain ⟨stack, hinv⟩ := hinv
  refine ⟨hinv.behind c, ?_⟩
  rintro ⟨d, hd, hdc⟩
  by_cases hcount : st.countStillIndependent ≤ 1
  · -- the commits without a mark are no more than one, and a commit in front of all is one
    obtain ⟨e, he, hed, hfront⟩ := exists_front (P := (· ∈ array)) repo.acyclic
      (List.finite_toSet array) hd
    have hene : e ≠ c := by
      rintro rfl
      exact repo.no_cycle hdc hed
    have heu : (st.flags e).stale = false := by
      by_contra hs
      obtain ⟨g, hg, hge⟩ := hinv.behind e (by simpa using hs)
      exact hfront g hg hge
    by_contra hcs
    have hres : ∀ q ∈ array, (st.flags q).stale ≠ true → q ∈ array.filter fun c =>
        (st.flags c).result := by
      intro q hq hs
      exact List.mem_filter.mpr ⟨hq, (hinv.seen q hq).resolve_right hs⟩
    have h₁ := hres e he (by simp [heu])
    have h₂ := hres c hc hcs
    have hlen := hinv.count
    have hsub : [e, c] ⊆ array.filter fun c => (st.flags c).result := by
      intro q hq
      simp only [List.mem_cons, List.not_mem_nil, or_false] at hq
      obtain rfl | rfl := hq
      · exact h₁
      · exact h₂
    have hnd₂ : [e, c].Nodup := by simp [hene]
    have := (hnd₂.subperm hsub).length_le
    simp only [List.length_cons, List.length_nil] at this
    omega
  · have hinv : GenInv repo array sorted starts st [] :=
      hend.resolve_left fun h => hcount h.1
    have hmarked := hmarked.resolve_left hcount
    obtain ⟨p, hdp, hpc⟩ := TransGen.head'_iff.mp hdc
    obtain hs | hlow := hinv.reach (hmarked p (hall d hd p hdp)) hpc
    · exact hs
    · -- it lies deeper than the lowest one that may be independent, so it was passed
      obtain ⟨j, hj, rfl⟩ := List.mem_iff_getElem.mp (hperm.mem_iff.mpr hc)
      have hlt : j < st.minGenPos := by
        by_contra hge
        rw [hinv.generation, List.getD_eq_getElem _ _ hinv.pos] at hlow
        obtain he | hlt := Nat.eq_or_lt_of_le (Nat.le_of_not_lt hge)
        · simp only [← he] at hlow
          exact Nat.lt_irrefl _ hlow
        · have := List.pairwise_iff_getElem.mp hsorted _ _ hinv.pos hj hlt
          omega
      have := hinv.passed j hlt
      rwa [List.getD_eq_getElem _ _ hj] at this

/-- With the array unmarked, only `STALE` is left. -/
theorem GenInv.unmark (h : GenInv repo array sorted starts st stack) :
    array.foldl (fun flags c => setResult flags c false) st.flags = staleOf st.flags := by
  funext c
  obtain ⟨h₁, h₂⟩ := foldl_setResult st.flags array c
  obtain ⟨h₃, h₄⟩ := foldl_setResult_parents array h.parents c
  have h₅ : ((st.flags c).result && !array.contains c) = false := by
    cases hr : (st.flags c).result with
    | false => rfl
    | true =>
      have := h.result c hr
      simpa using this
  rw [h₅] at h₂
  cases hc : array.foldl (fun flags c => setResult flags c false) st.flags c with
  | mk parent1 parent2 stale result =>
    rw [hc] at h₁ h₂ h₃ h₄
    simp only at h₁ h₂ h₃ h₄
    simp [staleOf, h₁, h₂, h₃, h₄]

/-- The last marks are reached from where the walk started. -/
theorem GenInv.clear (h : GenInv repo array sorted starts st stack)
    (harray : ∀ c ∈ array, c < repo.count) {fuel : Nat}
    (hfuel : repo.count * (repo.width + 1) < fuel) :
    clearCommitMarksMany repo fuel (staleOf st.flags) starts = some fun _ => .none := by
  have hbounded : Bounded repo (staleOf st.flags) := by
    intro c hc
    obtain ⟨d, hd, hdc⟩ := h.behind c (staleOf_ne.mp hc)
    exact Repo.Reach.lt_count hdc.to_reflTransGen (harray d hd)
  have hcovered : Covered repo (staleOf st.flags) (starts ++ []) := by
    rw [List.append_nil]
    exact h.covered
  obtain ⟨flags', hclear, -, hcov⟩ := clearCommitMarksMany_spec starts [] hbounded hcovered
    hfuel
  have hnone : flags' = fun _ => .none := by
    funext c
    by_contra hc
    obtain ⟨s, hs, -⟩ := hcov c hc
    simp at hs
  rw [hclear, hnone]

/-- The walk takes every mark off again and leaves, in their order, the commits that are behind no
other one. -/
theorem with_gen_spec (qsort : GenSort repo) (hparses : ∀ c, repo.parses c = true)
    (hne : array ≠ []) (hnd : array.Nodup) (harray : ∀ c ∈ array, c < repo.count)
    (hwalk : 2 * repo.count + 1 < fuel) (hclear : repo.count * (repo.width + 1) < fuel) :
    ∃ left, removeRedundantWithGen repo qsort fuel (fun _ => .none) array =
        some (fun _ => .none, left) ∧ left.Sublist array ∧
      ∀ c, c ∈ left ↔ c ∈ array ∧ ∀ d ∈ array, ¬TransGen repo.Parent d c := by
  have hperm := qsort.perm array
  have hsorted := qsort.generation array
  have hpos : 0 < (qsort.sort array).length := by
    rw [hperm.length_eq]
    exact List.length_pos_iff.mpr hne
  -- the marks before the walk
  have hempty : Marked repo [] ((fun _ => .none, []) : (Nat → Flags) × List Nat) := by
    refine ⟨fun c => ⟨rfl, rfl⟩, ?_, ?_, ?_⟩
    · intro c
      simp [Flags.none]
    · intro c
      simp [Flags.none]
    · intro c hc
      simp at hc
  obtain ⟨hm, hall⟩ : Marked repo ([] ++ array) (markArray repo array (fun _ => .none, [])) ∧ _ :=
    markArray_spec hparses hempty (by simp)
  rw [List.nil_append] at hm hall
  generalize hmark : markArray repo array ((fun _ => .none), []) = marked₀ at hm hall
  obtain ⟨flags₀, walk_start⟩ := marked₀
  have hsperm := qsort.perm walk_start
  set starts := qsort.sort walk_start with hstarts
  have hinv := hm.start hsperm hpos
  have hstart : ∀ c ∈ starts, ∃ d ∈ array, repo.Parent d c :=
    fun c hc => hm.starts c (hsperm.mem_iff.mp hc)
  obtain ⟨st, heq, hend, -, hmarked⟩ := walkStarts_spec hparses hnd hsorted hwalk starts.reverse
    (fun c hc => List.mem_reverse.mp hc) hstart (.inr hinv)
  have hiff : ∀ c ∈ array, (st.flags c).stale = true ↔ ∃ d ∈ array, TransGen repo.Parent d c := by
    intro c hc
    refine GenInv.independent hend hperm hsorted ?_ ?_ hc
    · intro d hd p hp
      exact hsperm.mem_iff.mpr (hall d hd p hp)
    · obtain h | h := hmarked
      · exact .inl h
      · exact .inr fun p hp => h p (List.mem_reverse.mpr hp)
  obtain ⟨stack, hfin⟩ : ∃ stack, GenInv repo array (qsort.sort array) starts st stack := by
    obtain ⟨-, h⟩ | h := hend
    · exact h
    · exact ⟨[], h⟩
  -- the marks that are left are `STALE` only
  set flags₂ := array.foldl (fun flags c => setResult flags c false) st.flags with hflags₂
  have hflags₂' : flags₂ = staleOf st.flags := hfin.unmark
  have hcleared : clearCommitMarksMany repo fuel flags₂ starts = some fun _ => .none := by
    rw [hflags₂']
    exact hfin.clear harray hclear
  refine ⟨array.filter fun c => !(flags₂ c).stale, ?_, List.filter_sublist, ?_⟩
  · simp only [removeRedundantWithGen, hmark, ← hstarts, heq, Option.bind_eq_bind,
      Option.bind_some, ← hflags₂, hcleared]
  · intro c
    rw [List.mem_filter, hflags₂']
    refine and_congr_right fun hc => ?_
    have := hiff c hc
    simp only [staleOf, Bool.not_eq_true', ← Bool.not_eq_true, this]
    simp

/-- Whichever way `remove_redundant` takes, the independent commits are left. -/
theorem removeRedundant_spec (qsort : GenSort repo) (hparses : ∀ c, repo.parses c = true)
    (hne : array ≠ []) (hnd : array.Nodup) (harray : ∀ c ∈ array, c < repo.count)
    (hroom : array.length + 3 * repo.count < CTR_LIMIT)
    (hwalk : 1 + array.length + 3 * repo.count < fuel)
    (hclear : repo.count * (repo.width + 1) < fuel) :
    ∃ left, removeRedundant repo qsort fuel (fun _ => .none) array =
        some (fun _ => .none, some left) ∧ left.Nodup ∧
      ∀ c, c ∈ left ↔ c ∈ array ∧ ∀ d ∈ array, ¬TransGen repo.Parent d c := by
  unfold removeRedundant
  split
  · obtain ⟨left, heq, hsub, hiff⟩ := with_gen_spec qsort hparses hne hnd harray
      (show _ < fuel by omega) hclear
    exact ⟨left, by simp [heq], hsub.nodup hnd, hiff⟩
  · exact redundant_spec hparses hnd harray hroom hwalk hclear

/-- **The walk by generation numbers keeps the independent commits.**  For commits without
duplicates it takes every mark off again and leaves, in their order, exactly those that are behind
no other one: the same commits as `remove_redundant_no_gen`. -/
theorem redundant_with_gen_exact (repo : Repo) (qsort : GenSort repo) (array : List Nat)
    (hparses : ∀ c, repo.parses c = true) (hne : array ≠ []) (hnd : array.Nodup)
    (harray : ∀ c ∈ array, c < repo.count) (hroom : array.length + 3 * repo.count < 1073741824)
    (fuel : Nat) (hfuel : enough repo array < fuel) :
    ∃ left left', removeRedundantWithGen repo qsort fuel (fun _ => .none) array =
        some (fun _ => .none, left) ∧ left.Sublist array ∧
      (∀ c, c ∈ left ↔ c ∈ array ∧ ∀ d ∈ array, ¬TransGen repo.Parent d c) ∧
      removeRedundantNoGen repo fuel (fun _ => .none) array =
        some (fun _ => .none, some left') ∧ left.Perm left' := by
  unfold enough at hfuel
  obtain ⟨left, heq, hsub, hiff⟩ := with_gen_spec qsort hparses hne hnd harray
    (show _ < fuel by omega) (by omega)
  obtain ⟨left', hno, hnd', hiff'⟩ := redundant_spec hparses hnd harray hroom
    (show _ < fuel by omega) (show _ < fuel by omega)
  refine ⟨left, left', heq, hsub, hiff, hno, ?_⟩
  refine (List.perm_ext_iff_of_nodup (hsub.nodup hnd) hnd').mpr ?_
  intro c
  rw [hiff, hiff']

/-- The two merges stay, though commit 2 behind both was the lowest of the three: once it is passed
the walk goes no deeper than the merges.  Of commit 2 and the root one is left, and the walk stops
when it comes to the root. -/
theorem redundant_with_gen_exact_graded :
    (removeRedundantWithGen graded (insertionByGen graded) 99 (fun _ => .none) [4, 3, 2] =
        some (fun _ => .none, [4, 3]) ∧
      removeRedundantNoGen graded 99 (fun _ => .none) [4, 3, 2] =
        some (fun _ => .none, some [4, 3])) ∧
    removeRedundantWithGen graded (insertionByGen graded) 99 (fun _ => .none) [0, 2] =
        some (fun _ => .none, [2]) := by
  obtain ⟨left, left', heq, -, -, hno, -⟩ := redundant_with_gen_exact graded (insertionByGen graded)
    [4, 3, 2] (fun _ => rfl) (by decide) (by decide) (by decide) (by decide) 99 (by decide)
  obtain ⟨least, -, hleast, -⟩ := redundant_with_gen_exact graded (insertionByGen graded)
    [0, 2] (fun _ => rfl) (by decide) (by decide) (by decide) (by decide) 99 (by decide)
  have h : (removeRedundantWithGen graded (insertionByGen graded) 99 (fun _ => .none)
      [4, 3, 2]).map Prod.snd = some [4, 3] := by decide +kernel
  have h' : (removeRedundantNoGen graded 99 (fun _ => .none) [4, 3, 2]).map Prod.snd =
      some (some [4, 3]) := by decide +kernel
  have h₂ : (removeRedundantWithGen graded (insertionByGen graded) 99 (fun _ => .none)
      [0, 2]).map Prod.snd = some [2] := by decide +kernel
  rw [heq] at h ⊢
  rw [hno] at h' ⊢
  rw [hleast] at h₂ ⊢
  obtain rfl : left = [4, 3] := Option.some.inj h
  obtain rfl : left' = [4, 3] := Option.some.inj (Option.some.inj h')
  obtain rfl : least = [2] := Option.some.inj h₂
  exact ⟨⟨rfl, rfl⟩, rfl⟩

end Git
