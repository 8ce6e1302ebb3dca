import Ewokos.Git.Commits

/-!
# git: computing generation numbers

`compute_reachable_generation_numbers` of `commit-graph.c`: a walk with a stack of its own that
numbers the parents of a commit before the commit, for topological levels and for corrected commit
dates.

* `numberLoop`, `computeReachableGenerationNumbers` — the code, with its 32 bits for the maximum.
* `Numbered` — the numbers that are set follow from those of the parents; `Numbered.fits` — they are
  below `2 ^ 32` if the dates leave room.
* `numberLoop_spec` — the walk from one commit.
* `Numbered.generation_parent` — the order that `Repo` asks of its generation numbers.

Main result: `generation_numbers_exact`.
-/

set_option autoImplicit false

namespace Git

open Relation Ancestry

/-! ## The code -/

def GENERATION_NUMBER_V1_MAX : Nat := 0x3FFFFFFF

/-- `generation_version`. -/
inductive GenerationVersion where
  | topologicalLevels
  | correctedCommitDates
  deriving DecidableEq, Repr

/-- `compute_generation_from_max`. -/
def computeGenerationFromMax (repo : Repo) (c max_gen : Nat) : GenerationVersion → Nat
  | .topologicalLevels =>
    (if max_gen > GENERATION_NUMBER_V1_MAX - 1 then GENERATION_NUMBER_V1_MAX - 1 else max_gen) + 1
  | .correctedCommitDates =>
    (if repo.date c ≠ 0 ∧ repo.date c > max_gen then repo.date c - 1 else max_gen) + 1

/-- The loop over the parents: the first one without a number, or `max_gen`, a `uint32_t`. -/
def scanParents (gens : Nat → Nat) : List Nat → Nat → Nat ⊕ Nat
  | [], max_gen => .inr max_gen
  | p :: parents, max_gen =>
    if gens p = 0 then .inl p
    else scanParents gens parents (if gens p > max_gen then gens p % 2 ^ 32 else max_gen)

/-- `set_generation`: the slab of topological levels has 32 bits. -/
def setGeneration (version : GenerationVersion) (gens : Nat → Nat) (c gen : Nat) : Nat → Nat :=
  Function.update gens c (if version = .topologicalLevels then gen % 2 ^ 32 else gen)

/-- The loop over `list`. -/
def numberLoop (repo : Repo) (version : GenerationVersion) :
    Nat → List Nat → (Nat → Nat) → Option (Nat → Nat)
  | 0, _, _ => none
  | _ + 1, [], gens => some gens
  | fuel + 1, current :: list, gens =>
    match scanParents gens (if repo.parses current then repo.parents current else []) 0 with
    | .inl p => numberLoop repo version fuel (p :: current :: list) gens
    | .inr max_gen =>
      numberLoop repo version fuel list
        (setGeneration version gens current
          (computeGenerationFromMax repo current max_gen version))

/-- `compute_reachable_generation_numbers`. -/
def computeReachableGenerationNumbers (repo : Repo) (version : GenerationVersion) (fuel : Nat) :
    List Nat → (Nat → Nat) → Option (Nat → Nat)
  | [], gens => some gens
  | c :: commits, gens =>
    if gens c ≠ 0 ∧ gens c ≠ GENERATION_NUMBER_INFINITY then
      computeReachableGenerationNumbers repo version fuel commits gens
    else do
      let gens ← numberLoop repo version fuel [c] gens
      computeReachableGenerationNumbers repo version fuel commits gens

/-- `commit_graph_generation`. -/
def commitGraphGeneration (gens : Nat → Nat) (c : Nat) : Nat :=
  if gens c ≠ 0 then gens c else GENERATION_NUMBER_INFINITY

/-! ## The numbers -/

/-- The largest number of the parents. -/
def maxOf (gens : Nat → Nat) (parents : List Nat) : Nat :=
  parents.foldr (fun p m => max (gens p) m) 0

/-- The number of a commit: one more than those of its parents, up to a limit; or its date, if that
is later. -/
def generationFrom (repo : Repo) (c m : Nat) : GenerationVersion → Nat
  | .topologicalLevels => min (m + 1) GENERATION_NUMBER_V1_MAX
  | .correctedCommitDates => max (repo.date c) (m + 1)

/-- The numbers that are set follow from those of the parents, which are set. -/
def Numbered (repo : Repo) (version : GenerationVersion) (gens : Nat → Nat) : Prop :=
  ∀ c, gens c ≠ 0 → (∀ p, repo.Parent c p → gens p ≠ 0) ∧
    gens c = generationFrom repo c (maxOf gens (repo.parents c)) version

/-- The dates leave room for one more second for each commit. -/
def DatesFit (repo : Repo) (version : GenerationVersion) : Prop :=
  version = .correctedCommitDates → ∀ c, repo.date c + repo.count + 1 < 2 ^ 32

variable {repo : Repo} {version : GenerationVersion} {gens : Nat → Nat} {c p : Nat}

theorem le_maxOf {parents : List Nat} (hp : p ∈ parents) : gens p ≤ maxOf gens parents := by
  induction parents with
  | nil => simp at hp
  | cons q parents ih =>
    simp only [maxOf, List.foldr_cons]
    obtain rfl | hp := List.mem_cons.mp hp
    · exact Nat.le_max_left ..
    · exact (ih hp).trans (Nat.le_max_right ..)

theorem maxOf_le {parents : List Nat} {m : Nat} (h : ∀ p ∈ parents, gens p ≤ m) :
    maxOf gens parents ≤ m := by
  induction parents with
  | nil => exact Nat.zero_le _
  | cons q parents ih =>
    simp only [maxOf, List.foldr_cons]
    exact Nat.max_le.mpr ⟨h q List.mem_cons_self, ih fun p hp => h p (List.mem_cons_of_mem _ hp)⟩

theorem maxOf_congr {gens' : Nat → Nat} {parents : List Nat} (h : ∀ p ∈ parents, gens' p = gens p) :
    maxOf gens' parents = maxOf gens parents := by
  induction parents with
  | nil => rfl
  | cons q parents ih =>
    have ih := ih fun p hp => h p (List.mem_cons_of_mem _ hp)
    simp only [maxOf, List.foldr_cons] at ih ⊢
    rw [h q List.mem_cons_self, ih]

theorem generationFrom_pos (m : Nat) : generationFrom repo c m version ≠ 0 := by
  cases version with
  | topologicalLevels =>
    simp only [generationFrom, GENERATION_NUMBER_V1_MAX]
    omega
  | correctedCommitDates =>
    simp only [generationFrom]
    omega

/-- A number is larger than those of the parents, but for levels at the limit. -/
theorem lt_generationFrom {m : Nat} :
    m < generationFrom repo c m version ∨
      version = .topologicalLevels ∧
        generationFrom repo c m version = GENERATION_NUMBER_V1_MAX := by
  cases version with
  | topologicalLevels =>
    simp only [generationFrom, true_and]
    omega
  | correctedCommitDates =>
    simp only [generationFrom]
    left
    omega

theorem compute_generation_eq (m : Nat) :
    computeGenerationFromMax repo c m version = generationFrom repo c m version := by
  cases version with
  | topologicalLevels =>
    rw [computeGenerationFromMax, generationFrom, GENERATION_NUMBER_V1_MAX]
    by_cases hm : m > 0x3FFFFFFF - 1
    · rw [if_pos hm]
      omega
    · rw [if_neg hm]
      omega
  | correctedCommitDates =>
    rw [computeGenerationFromMax, generationFrom]
    by_cases hm : repo.date c ≠ 0 ∧ repo.date c > m
    · rw [if_pos hm]
      omega
    · rw [if_neg hm]
      omega

/-- The commits behind a commit. -/
noncomputable def behindCount (repo : Repo) (c : Nat) : Nat :=
  open Classical in ((Finset.range repo.count).filter fun d => TransGen repo.Parent c d).card

theorem behindCount_le (repo : Repo) (c : Nat) : behindCount repo c ≤ repo.count := by
  classical
  exact (Finset.card_filter_le ..).trans (Finset.card_range _).le

theorem behindCount_lt (hp : repo.Parent c p) : behindCount repo p < behindCount repo c := by
  classical
  unfold behindCount
  apply Finset.card_lt_card
  rw [Finset.ssubset_iff_of_subset]
  · refine ⟨p, ?_, ?_⟩
    · simp only [Finset.mem_filter, Finset.mem_range]
      exact ⟨repo.closed c p hp, .single hp⟩
    · simp only [Finset.mem_filter, not_and]
      exact fun _ => repo.acyclic p
  · intro d hd
    simp only [Finset.mem_filter] at hd ⊢
    exact ⟨hd.1, .head hp hd.2⟩

/-- The numbers fit into 32 bits. -/
theorem Numbered.fits (h : Numbered repo version gens) (hdates : DatesFit repo version) (c : Nat) :
    gens c < 2 ^ 32 := by
  cases version with
  | topologicalLevels =>
    by_cases hc : gens c = 0
    · omega
    · rw [(h c hc).2, generationFrom, GENERATION_NUMBER_V1_MAX]
      omega
  | correctedCommitDates =>
    have hdate := hdates rfl
    have key : ∀ n c, behindCount repo c = n → gens c ≤ 2 ^ 32 - 1 - repo.count + n := by
      intro n
      induction n using Nat.strong_induction_on with
      | _ n ih =>
        rintro c rfl
        by_cases hc : gens c = 0
        · omega
        · have hd := hdate c
          have hmax : maxOf gens (repo.parents c) ≤
              2 ^ 32 - 1 - repo.count + behindCount repo c - 1 := by
            apply maxOf_le
            intro p hp
            have hlt := behindCount_lt (show repo.Parent c p from hp)
            have := ih _ hlt p rfl
            omega
          rw [(h c hc).2, generationFrom]
          omega
    have h₁ := key _ c rfl
    have h₂ := behindCount_le repo c
    have h₃ := hdate c
    omega

theorem scanParents_spec (hfits : ∀ c, gens c < 2 ^ 32) (parents : List Nat) (m : Nat) :
    (∃ p ∈ parents, gens p = 0 ∧ scanParents gens parents m = .inl p) ∨
      (∀ p ∈ parents, gens p ≠ 0) ∧
        scanParents gens parents m = .inr (max m (maxOf gens parents)) := by
  induction parents generalizing m with
  | nil => exact .inr ⟨by simp, by simp [scanParents, maxOf]⟩
  | cons q parents ih =>
    rw [scanParents]
    by_cases hq : gens q = 0
    · rw [if_pos hq]
      exact .inl ⟨q, List.mem_cons_self, hq, rfl⟩
    · rw [if_neg hq]
      have hm : (if gens q > m then gens q % 2 ^ 32 else m) = max m (gens q) := by
        rw [Nat.mod_eq_of_lt (hfits q)]
        split <;> omega
      rw [hm]
      obtain ⟨p, hp, hz, heq⟩ | ⟨hall, heq⟩ := ih (max m (gens q))
      · exact .inl ⟨p, List.mem_cons_of_mem _ hp, hz, heq⟩
      · refine .inr ⟨?_, ?_⟩
        · intro p hp
          obtain rfl | hp := List.mem_cons.mp hp
          · exact hq
          · exact hall p hp
        · rw [heq, Nat.max_assoc]
          rfl

/-! ## The walk -/

/-- The commits without a number. -/
def unnumbered (repo : Repo) (gens : Nat → Nat) : Finset Nat :=
  (Finset.range repo.count).filter fun c => gens c = 0

/-- What waits has no number, and lies in front of what was pushed later. -/
structure Waiting (repo : Repo) (gens : Nat → Nat) (list : List Nat) : Prop where
  zero : ∀ c ∈ list, gens c = 0
  lt : ∀ c ∈ list, c < repo.count
  path : list.Pairwise fun a b => TransGen repo.Parent b a

theorem Waiting.length_le {list : List Nat} (h : Waiting repo gens list) :
    list.length ≤ (unnumbered repo gens).card := by
  have hnd : list.Nodup := by
    refine h.path.imp ?_
    rintro a b hab rfl
    exact repo.acyclic a hab
  rw [← List.toFinset_card_of_nodup hnd]
  apply Finset.card_le_card
  intro c hc
  have hc := List.mem_toFinset.mp hc
  simp only [unnumbered, Finset.mem_filter, Finset.mem_range]
  exact ⟨h.lt c hc, h.zero c hc⟩

theorem Waiting.push {list : List Nat} (h : Waiting repo gens (c :: list)) (hp : repo.Parent c p)
    (hz : gens p = 0) : Waiting repo gens (p :: c :: list) := by
  refine ⟨?_, ?_, List.pairwise_cons.mpr ⟨?_, h.path⟩⟩
  · intro q hq
    obtain rfl | hq := List.mem_cons.mp hq
    · exact hz
    · exact h.zero q hq
  · intro q hq
    obtain rfl | hq := List.mem_cons.mp hq
    · exact repo.closed c q hp
    · exact h.lt q hq
  · intro q hq
    obtain rfl | hq := List.mem_cons.mp hq
    · exact .single hp
    · exact .tail ((List.pairwise_cons.mp h.path).1 q hq) hp

theorem Waiting.pop {list : List Nat} (h : Waiting repo gens (c :: list)) (v : Nat) :
    Waiting repo (Function.update gens c v) list := by
  obtain ⟨hfront, hpath⟩ := List.pairwise_cons.mp h.path
  refine ⟨?_, fun d hd => h.lt d (List.mem_cons_of_mem _ hd), hpath⟩
  intro d hd
  rw [Function.update_of_ne]
  · exact h.zero d (List.mem_cons_of_mem _ hd)
  · rintro rfl
    exact repo.acyclic d (hfront d hd)

theorem card_unnumbered_update (hlt : c < repo.count) (hz : gens c = 0) {v : Nat} (hv : v ≠ 0) :
    (unnumbered repo (Function.update gens c v)).card + 1 = (unnumbered repo gens).card := by
  have hmem : c ∈ unnumbered repo gens := by
    simp only [unnumbered, Finset.mem_filter, Finset.mem_range]
    exact ⟨hlt, hz⟩
  have herase : unnumbered repo (Function.update gens c v) = (unnumbered repo gens).erase c := by
    ext d
    simp only [unnumbered, Finset.mem_filter, Finset.mem_erase]
    by_cases hd : d = c
    · subst hd
      simp [hv]
    · simp [hd]
  rw [herase, Finset.card_erase_add_one hmem]

/-- A commit whose parents are numbered gets its number. -/
theorem Numbered.set (h : Numbered repo version gens) (hc : gens c = 0)
    (hall : ∀ p, repo.Parent c p → gens p ≠ 0) :
    Numbered repo version
      (Function.update gens c (generationFrom repo c (maxOf gens (repo.parents c)) version)) := by
  -- no parent of a numbered commit is the new one
  have hsame : ∀ d, (∀ p, repo.Parent d p → gens p ≠ 0) → ∀ v, ∀ p ∈ repo.parents d,
      Function.update gens c v p = gens p := by
    intro d hd v p hp
    apply Function.update_of_ne
    rintro rfl
    exact hd p hp hc
  intro d hd
  by_cases he : d = c
  · subst he
    refine ⟨?_, ?_⟩
    · intro p hp
      rw [hsame d hall _ p hp]
      exact hall p hp
    · rw [Function.update_self, maxOf_congr (hsame d hall _)]
  · rw [Function.update_of_ne he] at hd ⊢
    obtain ⟨hpar, heq⟩ := h d hd
    refine ⟨?_, ?_⟩
    · intro p hp
      rw [hsame d hpar _ p hp]
      exact hpar p hp
    · rw [maxOf_congr (hsame d hpar _)]
      exact heq

/-- The walk ends with numbers for all that waits, and keeps the others. -/
theorem numberLoop_spec (hparses : ∀ c, repo.parses c = true) (hdates : DatesFit repo version)
    {fuel : Nat} {list : List Nat} (h : Numbered repo version gens) (hw : Waiting repo gens list)
    (hf : 2 * (unnumbered repo gens).card < fuel + list.length) :
    ∃ gens', numberLoop repo version fuel list gens = some gens' ∧ Numbered repo version gens' ∧
      (∀ c, gens c ≠ 0 → gens' c = gens c) ∧ ∀ c ∈ list, gens' c ≠ 0 := by
  induction fuel generalizing list gens with
  | zero =>
    have := hw.length_le
    omega
  | succ fuel ih =>
    cases list with
    | nil => exact ⟨gens, rfl, h, fun _ _ => rfl, by simp⟩
    | cons current list =>
      have hzero := hw.zero current List.mem_cons_self
      rw [numberLoop, if_pos (hparses current)]
      simp only [List.length_cons] at hf
      obtain ⟨p, hp, hz, heq⟩ | ⟨hall, heq⟩ :=
        scanParents_spec (h.fits hdates) (repo.parents current) 0
      · rw [heq]
        obtain ⟨gens', heq', h', hkeep, hset⟩ := ih h (hw.push hp hz) (by
          simp only [List.length_cons]
          omega)
        exact ⟨gens', heq', h', hkeep, fun c hc => hset c (List.mem_cons_of_mem _ hc)⟩
      · rw [heq]
        set number := generationFrom repo current (maxOf gens (repo.parents current)) version
        have hnum : Numbered repo version (Function.update gens current number) :=
          h.set hzero hall
        have hpos : number ≠ 0 := generationFrom_pos _
        have hfit : number < 2 ^ 32 := by
          have hfit := hnum.fits hdates current
          rwa [Function.update_self] at hfit
        have hstore : setGeneration version gens current
            (computeGenerationFromMax repo current (max 0 (maxOf gens (repo.parents current)))
              version) = Function.update gens current number := by
          rw [setGeneration, compute_generation_eq, Nat.zero_max, Nat.mod_eq_of_lt hfit, ite_self]
        have hcard := card_unnumbered_update (hw.lt current List.mem_cons_self) hzero hpos
        dsimp only
        rw [hstore]
        obtain ⟨gens', heq', h', hkeep, hset⟩ := ih hnum (hw.pop number) (by omega)
        refine ⟨gens', heq', h', ?_, ?_⟩
        · intro c hc
          have hsame : Function.update gens current number c = gens c := by
            apply Function.update_of_ne
            rintro rfl
            exact hc hzero
          rw [hkeep c (hsame ▸ hc), hsame]
        · intro c hc
          obtain rfl | hc := List.mem_cons.mp hc
          · have hself : Function.update gens c number c ≠ 0 := by
              rwa [Function.update_self]
            rw [hkeep c hself]
            exact hself
          · exact hset c hc

theorem compute_spec (hparses : ∀ c, repo.parses c = true) (hdates : DatesFit repo version)
    {fuel : Nat} (hf : 2 * repo.count < fuel) (commits : List Nat)
    (hcommits : ∀ c ∈ commits, c < repo.count) (h : Numbered repo version gens) :
    ∃ gens', computeReachableGenerationNumbers repo version fuel commits gens = some gens' ∧
      Numbered repo version gens' ∧ (∀ c, gens c ≠ 0 → gens' c = gens c) ∧
      ∀ c ∈ commits, gens' c ≠ 0 := by
  induction commits generalizing gens with
  | nil => exact ⟨gens, rfl, h, fun _ _ => rfl, by simp⟩
  | cons c commits ih =>
    have hrest := fun d hd => hcommits d (List.mem_cons_of_mem c hd)
    rw [computeReachableGenerationNumbers]
    have hinf : gens c ≠ GENERATION_NUMBER_INFINITY := by
      have := h.fits hdates c
      unfold GENERATION_NUMBER_INFINITY
      omega
    by_cases hc : gens c = 0
    · rw [if_neg (by simp [hc])]
      have hw : Waiting repo gens [c] := by
        refine ⟨?_, ?_, List.pairwise_singleton ..⟩
        · intro d hd
          obtain rfl : d = c := by simpa using hd
          exact hc
        · intro d hd
          obtain rfl : d = c := by simpa using hd
          exact hcommits d List.mem_cons_self
      have hcard : (unnumbered repo gens).card ≤ repo.count :=
        (Finset.card_filter_le ..).trans (Finset.card_range _).le
      obtain ⟨gens₁, heq₁, h₁, hkeep₁, hset₁⟩ := numberLoop_spec hparses hdates h hw
        (show _ < fuel + _ by omega)
      obtain ⟨gens₂, heq₂, h₂, hkeep₂, hset₂⟩ := ih hrest h₁
      refine ⟨gens₂, by simp [heq₁, heq₂], h₂, ?_, ?_⟩
      · intro d hd
        have hd₁ := hkeep₁ d hd
        rw [hkeep₂ d (by rw [hd₁]; exact hd), hd₁]
      · intro d hd
        obtain rfl | hd := List.mem_cons.mp hd
        · have hd := hset₁ d (by simp)
          rw [hkeep₂ d hd]
          exact hd
        · exact hset₂ d hd
    · rw [if_pos ⟨hc, hinf⟩]
      obtain ⟨gens₂, heq₂, h₂, hkeep₂, hset₂⟩ := ih hrest h
      refine ⟨gens₂, heq₂, h₂, hkeep₂, ?_⟩
      intro d hd
      obtain rfl | hd := List.mem_cons.mp hd
      · rw [hkeep₂ d hc]
        exact hc
      · exact hset₂ d hd

/-- What lies behind a numbered commit is numbered. -/
theorem Numbered.reach (h : Numbered repo version gens) {d : Nat} (hc : gens c ≠ 0)
    (hd : repo.Reach c d) : gens d ≠ 0 := by
  induction hd with
  | refl => exact hc
  | tail _ hp ih => exact (h _ ih).1 _ hp

theorem Numbered.lt (h : Numbered repo version gens) (hc : gens c ≠ 0) (hp : repo.Parent c p) :
    gens p < gens c ∨ version = .topologicalLevels ∧ gens c = GENERATION_NUMBER_V1_MAX := by
  have hle : gens p ≤ maxOf gens (repo.parents c) := le_maxOf hp
  have hlt : maxOf gens (repo.parents c) < generationFrom repo c _ version ∨ _ :=
    lt_generationFrom
  rw [← (h c hc).2] at hlt
  exact hlt.imp_left hle.trans_lt

/-- The order that the walks by generation rely on. -/
theorem Numbered.generation_parent (h : Numbered repo version gens)
    (hdates : DatesFit repo version) (hp : repo.Parent c p) :
    commitGraphGeneration gens p ≤ commitGraphGeneration gens c := by
  have hfit := h.fits hdates p
  unfold commitGraphGeneration GENERATION_NUMBER_INFINITY
  by_cases hc : gens c = 0
  · rw [if_neg (not_not.mpr hc)]
    split <;> omega
  · have hp₀ : gens p ≠ 0 := (h c hc).1 p hp
    rw [if_pos hc, if_pos hp₀]
    obtain hlt | ⟨rfl, hlim⟩ := h.lt hc hp
    · exact hlt.le
    · rw [hlim, (h p hp₀).2]
      exact Nat.min_le_right ..

/-- **The generation numbers are right.**  From numbers that are right where they are set, the walk
ends with numbers for all that is reachable, neither zero nor infinite, each of which follows from
those of the parents: for levels one more than the largest up to the limit, for corrected dates the
date or one more than the largest, whichever is later.  Each is larger than those of the parents,
except for levels at the limit, and no commit at all is below its parents. -/
theorem generation_numbers_exact (repo : Repo) (version : GenerationVersion) (commits : List Nat)
    (gens : Nat → Nat) (hparses : ∀ c, repo.parses c = true)
    (hcommits : ∀ c ∈ commits, c < repo.count)
    (hdates : version = .correctedCommitDates → ∀ c, repo.date c + repo.count + 1 < 2 ^ 32)
    (hgens : Numbered repo version gens) (fuel : Nat) (hfuel : 2 * repo.count < fuel) :
    ∃ gens', computeReachableGenerationNumbers repo version fuel commits gens = some gens' ∧
      (∀ c, gens c ≠ 0 → gens' c = gens c) ∧
      (∀ c ∈ commits, ∀ d, repo.Reach c d →
        gens' d ≠ 0 ∧ gens' d < GENERATION_NUMBER_INFINITY ∧
        gens' d = generationFrom repo d (maxOf gens' (repo.parents d)) version ∧
        ∀ p, repo.Parent d p → gens' p < gens' d ∨
          version = .topologicalLevels ∧ gens' d = GENERATION_NUMBER_V1_MAX) ∧
      ∀ c p, repo.Parent c p →
        commitGraphGeneration gens' p ≤ commitGraphGeneration gens' c := by
  obtain ⟨gens', heq, h, hkeep, hset⟩ := compute_spec hparses hdates hfuel commits hcommits hgens
  refine ⟨gens', heq, hkeep, ?_, fun c p hp => h.generation_parent hdates hp⟩
  intro c hc d hd
  have hd₀ : gens' d ≠ 0 := h.reach (hset c hc) hd
  have hinf : gens' d < GENERATION_NUMBER_INFINITY := by
    have := h.fits hdates d
    unfold GENERATION_NUMBER_INFINITY
    omega
  exact ⟨hd₀, hinf, (h d hd₀).2, fun p hp => h.lt hd₀ hp⟩

/-- Corrected dates on top of a root whose clock was ahead. -/
theorem generation_numbers_exact_skewed :
    ∃ gens, computeReachableGenerationNumbers
        { skewed with date := fun c => if c = 0 then 9 else 3 } .correctedCommitDates 9 [3, 2]
        (fun _ => 0) = some gens ∧ gens 0 = 9 ∧ gens 1 = 10 ∧ gens 3 = 11 := by
  set repo : Repo := { skewed with date := fun c => if c = 0 then 9 else 3 }
  have hdates : ∀ c, repo.date c + repo.count + 1 < 2 ^ 32 := by
    intro c
    show (if c = 0 then 9 else 3) + 4 + 1 < 2 ^ 32
    split <;> decide
  obtain ⟨gens, heq, -, h, -⟩ := generation_numbers_exact repo .correctedCommitDates [3, 2]
    (fun _ => 0) (fun _ => rfl) (by decide) (fun _ => hdates) (fun c hc => absurd rfl hc) 9
    (by decide)
  have h₃₁ : repo.Parent 3 1 := show 1 ∈ skewed.parents 3 by decide
  have h₁₀ : repo.Parent 1 0 := show 0 ∈ skewed.parents 1 by decide
  have hroot : gens 0 = 9 := (h 3 (by decide) 0 (.tail (.single h₃₁) h₁₀)).2.2.1
  have hone : gens 1 = max 3 (max (gens 0) 0 + 1) := (h 3 (by decide) 1 (.single h₃₁)).2.2.1
  have htop : gens 3 = max 3 (max (gens 1) (max (gens 0) 0) + 1) :=
    (h 3 (by decide) 3 .refl).2.2.1
  exact ⟨gens, heq, by omega, by omega, by omega⟩

end Git
