import Ewokos.Git.Commits

/-!
# The walk over common ancestors

The walk of git's `commit-reach.c` that paints the ancestors of a commit and of some others, by
their dates or by their generation numbers.

* `paintDownToCommon`, `mergeBasesMany`, `repoInMergeBasesMany` — the code.
* `PaintInv` — what the marks say at every moment of the walk; `paintLoop_spec` — where it ends.
* `paint_ancestors`, `mergeBasesMany_spec` — what a walk has found at its end.

Main result: `in_merge_bases_exact`.
-/

set_option autoImplicit false

namespace Git

open Relation Heap Slots Ancestry

/-- `flags & (PARENT1 | PARENT2 | STALE)`. -/
def Flags.painted (f : Flags) : Flags := { f with result := false }

/-- `(p & f) == f`. -/
def Flags.has (p f : Flags) : Bool :=
  (!f.parent1 || p.parent1) && (!f.parent2 || p.parent2) && (!f.stale || p.stale) &&
    (!f.result || p.result)

/-- `p | f`. -/
def Flags.or (p f : Flags) : Flags :=
  ⟨p.parent1 || f.parent1, p.parent2 || f.parent2, p.stale || f.stale, p.result || f.result⟩

/-- The state of `paint_down_to_common`: the flags of the commits, its queue and `*result`. -/
structure Paint where
  flags : Nat → Flags
  queue : PrioQueue Nat
  result : List Nat

/-- How `paint_down_to_common` ends: it returns, with `*result`, or dies of the `BUG`. -/
inductive Painted where
  | returns (ret : Int) (flags : Nat → Flags) (result : List Nat)
  | bug

/-- The list that `*result` is then. -/
def Painted.list : Painted → List Nat
  | .returns _ _ result => result
  | .bug => []

/-- `queue_has_nonstale`. -/
def queueHasNonstale (st : Paint) : Bool :=
  (cells st.queue.nr st.queue.array).any fun e => !(st.flags e.data).stale

/-- A commit of both sides that is not stale: it goes on the result list. -/
def foundCommit (repo : Repo) (commit : Nat) (st : Paint) : Paint :=
  if (st.flags commit).painted = ⟨true, true, false, false⟩ then
    if (st.flags commit).result then st
    else { st with
      flags := Function.update st.flags commit { st.flags commit with result := true }
      result := commitListInsertByDate repo commit st.result }
  else st

/-- The flags for the parents: those of a found merge are stale. -/
def spread (f : Flags) : Flags :=
  if f.painted = ⟨true, true, false, false⟩ then { f.painted with stale := true } else f.painted

/-- The loop over the parents; `false` when one of them is missing. -/
def paintParents (repo : Repo) (flags : Flags) : List Nat → Paint → Paint × Bool
  | [], st => (st, true)
  | p :: parents, st =>
    if (st.flags p).has flags then paintParents repo flags parents st
    else if !repo.parses p then (st, false)
    else paintParents repo flags parents { st with
      flags := Function.update st.flags p ((st.flags p).or flags)
      queue := prioQueuePut st.queue p }

/-- The loop of `paint_down_to_common`. -/
def paintLoop (repo : Repo) (minGeneration : Nat) (ignore_missing_commits : Bool) :
    Nat → Nat → Paint → Option Painted
  | 0, _, _ => none
  | fuel + 1, last_gen, st =>
    if queueHasNonstale st then do
      let (got, queue) := prioQueueGet st.queue
      let commit ← got
      let generation := repo.generation commit
      if minGeneration ≠ 0 ∧ last_gen < generation then some .bug
      else if generation < minGeneration then some (.returns 0 st.flags st.result)
      else
        let st' := foundCommit repo commit { st with queue := queue }
        match paintParents repo (spread (st.flags commit)) (repo.parents commit) st' with
        | (st', true) => paintLoop repo minGeneration ignore_missing_commits fuel generation st'
        | (st', false) => some (.returns (if ignore_missing_commits then 0 else -1) st'.flags [])
    else some (.returns 0 st.flags st.result)

/-- The first puts of `paint_down_to_common`. -/
def paintTwos : List Nat → Paint → Paint
  | [], st => st
  | two :: twos, st => paintTwos twos { st with
      flags := Function.update st.flags two { st.flags two with parent2 := true }
      queue := prioQueuePut st.queue two }

/-- The comparison function of the queue. -/
def paintCompare (repo : Repo) (minGeneration : Nat) : Nat → Nat → Int :=
  if minGeneration = 0 ∧ repo.correctedCommitDates = false then
    compareCommitsByCommitDate repo
  else compareCommitsByGenThenCommitDate repo

/-- `paint_down_to_common`, with an empty `*result`. -/
def paintDownToCommon (repo : Repo) (fuel : Nat) (flags : Nat → Flags) (one : Nat)
    (twos : List Nat) (minGeneration : Nat) (ignore_missing_commits : Bool) : Option Painted :=
  let flags := Function.update flags one { flags one with parent1 := true }
  if twos.isEmpty then some (.returns 0 flags [one])
  else
    let queue : PrioQueue Nat :=
      ⟨some (paintCompare repo minGeneration), 0, fun _ => ⟨0, 0⟩, 0⟩
    let st := paintTwos twos ⟨flags, prioQueuePut queue one, []⟩
    paintLoop repo minGeneration ignore_missing_commits fuel GENERATION_NUMBER_INFINITY st

/-- `merge_bases_many`. -/
def mergeBasesMany (repo : Repo) (fuel : Nat) (flags : Nat → Flags) (one : Nat)
    (twos : List Nat) : Option Painted :=
  if twos.contains one then some (.returns 0 flags [one])
  else if !repo.parses one || twos.any (fun two => !repo.parses two) then
    some (.returns (-1) flags [])
  else do
    match ← paintDownToCommon repo fuel flags one twos 0 false with
    | .bug => some .bug
    | .returns ret flags list =>
      if ret ≠ 0 then some (.returns (-1) flags [])
      else some (.returns 0 flags
        (insertAll repo (list.filter fun c => !(flags c).stale) []))

/-- `repo_in_merge_bases_many`: its value and the flags it leaves. -/
def repoInMergeBasesMany (repo : Repo) (fuel : Nat) (flags : Nat → Flags) (commit : Nat)
    (reference : List Nat) (ignore_missing_commits : Bool) : Option (Int × (Nat → Flags)) :=
  if !repo.parses commit || reference.any (fun c => !repo.parses c) then
    some (if ignore_missing_commits then 0 else -1, flags)
  else
    let max_generation := reference.foldl (fun m c => max (repo.generation c) m) 0
    let generation := repo.generation commit
    if max_generation < generation then some (0, flags)
    else do
      match ← paintDownToCommon repo fuel flags commit reference generation
        ignore_missing_commits with
      | .bug => none
      | .returns ret flags _ =>
        let value : Int := if ret ≠ 0 then -1 else if (flags commit).parent2 then 1 else 0
        let flags ← clearCommitMarksMany repo fuel flags [commit]
        let flags ← clearCommitMarksMany repo fuel flags reference
        some (value, flags)

/-! ## Flags -/

theorem spread_eq (f : Flags) :
    spread f = ⟨f.parent1, f.parent2, f.stale || (f.parent1 && f.parent2), false⟩ := by
  obtain ⟨p₁, p₂, s, r⟩ := f
  cases p₁ <;> cases p₂ <;> cases s <;> rfl

@[simp] theorem Flags.has_iff {p f : Flags} : p.has f = true ↔
    (f.parent1 = true → p.parent1 = true) ∧ (f.parent2 = true → p.parent2 = true) ∧
      (f.stale = true → p.stale = true) ∧ (f.result = true → p.result = true) := by
  obtain ⟨p₁, p₂, s, r⟩ := f
  cases p₁ <;> cases p₂ <;> cases s <;> cases r <;> simp [Flags.has, and_assoc]

theorem Flags.or_has (p f : Flags) : (p.or f).has f = true := by
  rw [Flags.has_iff]
  simp only [Flags.or, Bool.or_eq_true]
  exact ⟨.inr, .inr, .inr, .inr⟩

theorem Flags.or_or (p f : Flags) : (p.or f).or f = p.or f := by simp [Flags.or]

/-- The marks of the walk that a commit does not have. -/
def unset (f : Flags) : Nat :=
  (if f.parent1 then 0 else 1) + (if f.parent2 then 0 else 1) + (if f.stale then 0 else 1)

theorem unset_or_lt {p f : Flags} (hf : f.result = false) (h : ¬p.has f = true) :
    unset (p.or f) < unset p := by
  obtain ⟨p₁, p₂, s, r⟩ := p
  obtain ⟨f₁, f₂, fs, fr⟩ := f
  obtain rfl : fr = false := hf
  cases f₁ <;> cases f₂ <;> cases fs <;> cases p₁ <;> cases p₂ <;> cases s <;>
    simp_all [Flags.or, unset]

/-- The marks of the walk that the commits do not have. -/
def missing (repo : Repo) (flags : Nat → Flags) : Nat :=
  ∑ c ∈ Finset.range repo.count, unset (flags c)

variable {repo : Repo} {flags : Nat → Flags} {one : Nat} {twos : List Nat}

theorem missing_update (flags : Nat → Flags) {p : Nat} (hp : p < repo.count) (f : Flags) :
    missing repo (Function.update flags p f) + unset (flags p) = missing repo flags + unset f := by
  unfold missing
  have hmem := Finset.mem_range.mpr hp
  rw [← Finset.add_sum_erase _ _ hmem, ← Finset.add_sum_erase _ (fun c => unset (flags c)) hmem]
  have hrest : ∑ c ∈ (Finset.range repo.count).erase p, unset (Function.update flags p f c) =
      ∑ c ∈ (Finset.range repo.count).erase p, unset (flags c) := by
    refine Finset.sum_congr rfl ?_
    intro c hc
    rw [Function.update_of_ne (Finset.ne_of_mem_erase hc)]
  rw [hrest, Function.update_self]
  omega

theorem missing_le (repo : Repo) (flags : Nat → Flags) : missing repo flags ≤ 3 * repo.count := by
  unfold missing
  refine (Finset.sum_le_card_nsmul _ _ 3 ?_).trans ?_
  · intro c _
    unfold unset
    split <;> split <;> split <;> omega
  · simp [Nat.mul_comm]

/-! ## The parents -/

/-- The queue holds the list, and has room for a put for every mark that is not set. -/
structure Held (repo : Repo) (cmp : Nat → Nat → Int) (st : Paint) (l : List Nat) : Prop where
  rep : Rep st.queue l
  compare : st.queue.compare = some cmp
  room : st.queue.insertionCtr + missing repo st.flags ≤ CTR_LIMIT

/-- A put for a mark that was not set. -/
theorem Held.put {cmp : Nat → Nat → Int} {st : Paint} {l : List Nat} {p : Nat} {f : Flags}
    (h : Held repo cmp st l) (hc : Comparator (fun _ => True) cmp) (hp : p < repo.count)
    (hless : unset f < unset (st.flags p)) :
    Held repo cmp { st with
      flags := Function.update st.flags p f, queue := prioQueuePut st.queue p } (l ++ [p]) ∧
      missing repo (Function.update st.flags p f) + 1 ≤ missing repo st.flags := by
  have hmiss := missing_update st.flags hp f
  have hroom := h.room
  have hctr : (prioQueuePut st.queue p).insertionCtr ≤ st.queue.insertionCtr + 1 := by
    unfold prioQueuePut
    split <;> exact Nat.mod_le ..
  have hcomp : (prioQueuePut st.queue p).compare = some cmp := by
    rw [← h.compare]
    unfold prioQueuePut
    split <;> rfl
  refine ⟨⟨?_, hcomp, ?_⟩, by omega⟩
  · refine put_refines h.rep ?_ (by omega) p
    intro cmp' hcmp'
    obtain rfl : cmp = cmp' := Option.some.inj (h.compare.symm.trans hcmp')
    exact hc
  · simp only
    omega

theorem paintParents_spec {cmp : Nat → Nat → Int} (hc : Comparator (fun _ => True) cmp)
    (hparses : ∀ c, repo.parses c = true) {f : Flags} (hf : f.result = false) {parents : List Nat}
    (hparents : ∀ p ∈ parents, p < repo.count) {st : Paint} {l : List Nat}
    (hheld : Held repo cmp st l) :
    ∃ st' new, paintParents repo f parents st = (st', true) ∧ Held repo cmp st' (l ++ new) ∧
      st'.result = st.result ∧ new.length + missing repo st'.flags ≤ missing repo st.flags ∧
      (∀ d, d ∉ new → st'.flags d = st.flags d) ∧
      (∀ d ∈ new, d ∈ parents ∧ st'.flags d = (st.flags d).or f) ∧
      ∀ p ∈ parents, (st'.flags p).has f = true := by
  induction parents generalizing st l with
  | nil =>
    exact ⟨st, [], rfl, by simpa using hheld, rfl, by simp, fun _ _ => rfl, by simp, by simp⟩
  | cons p parents ih =>
    have hparents' : ∀ q ∈ parents, q < repo.count :=
      fun q hq => hparents q (List.mem_cons_of_mem _ hq)
    rw [paintParents]
    split
    · rename_i hhas
      obtain ⟨st', new, heq, hheld', hres, hmiss, hsame, hnew, hall⟩ := ih hparents' hheld
      refine ⟨st', new, heq, hheld', hres, hmiss, hsame, ?_, ?_⟩
      · intro d hd
        exact ⟨List.mem_cons_of_mem _ (hnew d hd).1, (hnew d hd).2⟩
      · intro q hq
        rcases List.mem_cons.mp hq with rfl | hq
        · by_cases hmem : q ∈ new
          · rw [(hnew q hmem).2]
            exact Flags.or_has ..
          · rw [hsame q hmem]
            exact hhas
        · exact hall q hq
    · rename_i hhas
      rw [if_neg (by simp [hparses])]
      obtain ⟨hheld₁, hless⟩ := hheld.put hc (hparents p (List.mem_cons_self ..))
        (unset_or_lt hf hhas)
      obtain ⟨st', new, heq, hheld', hres, hmiss, hsame, hnew, hall⟩ := ih hparents' hheld₁
      have hfix : st'.flags p = (st.flags p).or f := by
        by_cases hmem : p ∈ new
        · rw [(hnew p hmem).2]
          simp [Flags.or_or]
        · rw [hsame p hmem]
          simp
      refine ⟨st', p :: new, heq, by simpa using hheld', hres, ?_, ?_, ?_, ?_⟩
      · simp only [List.length_cons]
        simp only at hmiss
        omega
      · intro d hd
        simp only [List.mem_cons, not_or] at hd
        rw [hsame d hd.2]
        simp [hd.1]
      · intro d hd
        by_cases hdp : d = p
        · subst hdp
          exact ⟨List.mem_cons_self .., hfix⟩
        · obtain hd := (List.mem_cons.mp hd).resolve_left hdp
          refine ⟨List.mem_cons_of_mem _ (hnew d hd).1, ?_⟩
          rw [(hnew d hd).2]
          simp [hdp]
      · intro q hq
        rcases List.mem_cons.mp hq with rfl | hq
        · rw [hfix]
          exact Flags.or_has ..
        · exact hall q hq

/-! ## The walk -/

/-- What the marks and the result say while the commits in `l` wait in the queue. -/
structure PaintInv (repo : Repo) (one : Nat) (twos : List Nat) (flags : Nat → Flags)
    (result l : List Nat) : Prop where
  bounded : Bounded repo flags
  covered : Covered repo flags (one :: twos)
  sound1 : ∀ c, (flags c).parent1 = true → repo.Reach one c
  sound2 : ∀ c, (flags c).parent2 = true → ∃ two ∈ twos, repo.Reach two c
  both : ∀ c, (flags c).stale = true → (flags c).parent1 = true ∧ (flags c).parent2 = true
  stale : ∀ c, (flags c).stale = true →
    ∃ d, Common repo.Parent one (· ∈ twos) d ∧ TransGen repo.Parent d c
  one1 : (flags one).parent1 = true
  twos2 : ∀ two ∈ twos, (flags two).parent2 = true
  passed : ∀ c, c ∉ l → ∀ p, repo.Parent c p → (flags p).has (spread (flags c)) = true
  found : ∀ c, c ∉ l → (flags c).parent1 = true → (flags c).parent2 = true →
    (flags c).stale = false → (flags c).result = true
  listed : ∀ c, c ∈ result ↔ (flags c).result = true
  common : ∀ c, (flags c).result = true → (flags c).parent1 = true ∧ (flags c).parent2 = true
  nodup : result.Nodup

variable {result l : List Nat} {c : Nat}

theorem PaintInv.common_of (h : PaintInv repo one twos flags result l)
    (h₁ : (flags c).parent1 = true) (h₂ : (flags c).parent2 = true) :
    Common repo.Parent one (· ∈ twos) c := ⟨h.sound1 c h₁, h.sound2 c h₂⟩

/-- The order of the queue does not matter. -/
theorem PaintInv.congr {l' : List Nat} (h : PaintInv repo one twos flags result l)
    (hl : ∀ c, c ∉ l' → c ∉ l) : PaintInv repo one twos flags result l' :=
  { h with
    passed := fun c hc => h.passed c (hl c hc)
    found := fun c hc => h.found c (hl c hc) }

/-- A commit is found: it is a result from now on. -/
theorem PaintInv.mark (h : PaintInv repo one twos flags result l)
    (h₁ : (flags c).parent1 = true) (h₂ : (flags c).parent2 = true)
    (hnew : (flags c).result = false) :
    PaintInv repo one twos (Function.update flags c { flags c with result := true })
      (commitListInsertByDate repo c result) l := by
  have hsame : ∀ d, Function.update flags c { flags c with result := true } d =
      { flags d with result := (flags d).result || decide (d = c) } := by
    intro d
    by_cases hd : d = c
    · subst hd
      simp
    · simp [hd]
  have hnone : ∀ d, Function.update flags c { flags c with result := true } d ≠ .none ↔
      flags d ≠ .none := by
    intro d
    rw [hsame]
    by_cases hd : d = c
    · subst hd
      constructor
      · intro _ hn
        simp [hn, Flags.none] at h₁
      · intro _ hn
        simp [Flags.none] at hn
    · simp [hd]
  refine ⟨?_, ?_, ?_, ?_, ?_, ?_, ?_, ?_, ?_, ?_, ?_, ?_, ?_⟩
  · intro d hd
    exact h.bounded d ((hnone d).mp hd)
  · intro m hm
    obtain ⟨s, hs, hway⟩ := h.covered m ((hnone m).mp hm)
    exact ⟨s, hs, hway.mono fun d => (hnone d).mpr⟩
  · intro d hd
    rw [hsame] at hd
    exact h.sound1 d hd
  · intro d hd
    rw [hsame] at hd
    exact h.sound2 d hd
  · intro d hd
    rw [hsame] at hd ⊢
    exact h.both d hd
  · intro d hd
    rw [hsame] at hd
    exact h.stale d hd
  · rw [hsame]
    exact h.one1
  · intro two htwo
    rw [hsame]
    exact h.twos2 two htwo
  · intro d hd p hp
    have hpass := h.passed d hd p hp
    rw [hsame, hsame]
    simpa [spread_eq] using hpass
  · intro d hd hd₁ hd₂ hds
    rw [hsame] at hd₁ hd₂ hds ⊢
    simp [h.found d hd hd₁ hd₂ hds]
  · intro d
    rw [hsame, (insert_by_date_perm repo c result).mem_iff, List.mem_cons, h.listed]
    simp [or_comm]
  · intro d hd
    rw [hsame] at hd ⊢
    simp only [Bool.or_eq_true, decide_eq_true_eq] at hd
    obtain hd | rfl := hd
    · exact h.common d hd
    · exact ⟨h₁, h₂⟩
  · rw [(insert_by_date_perm repo c result).nodup_iff, List.nodup_cons]
    refine ⟨?_, h.nodup⟩
    rw [h.listed, hnew]
    simp

/-- The marks before and after `c` hands its own on to the parents in `new`. -/
structure Hands (repo : Repo) (c : Nat) (new : List Nat) (flags flags' : Nat → Flags) : Prop where
  same : ∀ d, d ∉ new → flags' d = flags d
  handed : ∀ d ∈ new, repo.Parent c d ∧ flags' d = (flags d).or (spread (flags c))

namespace Hands

variable {flags' : Nat → Flags} {new : List Nat}

/-- No mark is taken away, and no commit becomes a result. -/
theorem grow (h : Hands repo c new flags flags') (d : Nat) :
    ((flags d).parent1 = true → (flags' d).parent1 = true) ∧
      ((flags d).parent2 = true → (flags' d).parent2 = true) ∧
      ((flags d).stale = true → (flags' d).stale = true) ∧
      (flags' d).result = (flags d).result := by
  by_cases hd : d ∈ new
  · rw [(h.handed d hd).2, spread_eq]
    simp only [Flags.or, Bool.or_eq_true, Bool.or_false]
    exact ⟨.inl, .inl, .inl, trivial⟩
  · rw [h.same d hd]
    exact ⟨id, id, id, rfl⟩

/-- A new mark comes from `c`. -/
theorem origin (h : Hands repo c new flags flags') (d : Nat) :
    ((flags' d).parent1 = true → (flags d).parent1 = true ∨
        repo.Parent c d ∧ (flags c).parent1 = true) ∧
      ((flags' d).parent2 = true → (flags d).parent2 = true ∨
        repo.Parent c d ∧ (flags c).parent2 = true) ∧
      ((flags' d).stale = true → (flags d).stale = true ∨ repo.Parent c d ∧
        ((flags c).stale = true ∨ (flags c).parent1 = true ∧ (flags c).parent2 = true)) := by
  by_cases hd : d ∈ new
  · obtain ⟨hp, he⟩ := h.handed d hd
    rw [he, spread_eq]
    simp only [Flags.or, Bool.or_eq_true, Bool.and_eq_true]
    exact ⟨fun h => h.imp_right fun h => ⟨hp, h⟩, fun h => h.imp_right fun h => ⟨hp, h⟩,
      fun h => h.imp_right fun h => ⟨hp, h⟩⟩
  · rw [h.same d hd]
    exact ⟨.inl, .inl, .inl⟩

theorem ne_none (h : Hands repo c new flags flags') {d : Nat} (hd : flags d ≠ .none) :
    flags' d ≠ .none := by
  intro hn
  refine hd ?_
  have hg := h.grow d
  rw [hn] at hg
  rcases hf : flags d with ⟨p₁, p₂, st, r⟩
  rw [hf] at hg
  simp only [Flags.none, Bool.false_eq_true, imp_false, Bool.not_eq_true] at hg
  obtain ⟨rfl, rfl, rfl, rfl⟩ := hg
  rfl

theorem marked (h : Hands repo c new flags flags') {d : Nat} (hd : flags' d ≠ .none) :
    flags d ≠ .none ∨ repo.Parent c d ∧ flags c ≠ .none := by
  by_cases hn : flags d = .none
  · right
    by_cases hmem : d ∈ new
    · obtain ⟨hp, he⟩ := h.handed d hmem
      refine ⟨hp, fun hc => ?_⟩
      rw [he, hn, hc] at hd
      exact hd rfl
    · exact absurd (h.same d hmem ▸ hn) hd
  · exact .inl hn

theorem bounded (h : Hands repo c new flags flags') (hb : Bounded repo flags) :
    Bounded repo flags' := by
  intro d hd
  obtain hd | ⟨hp, -⟩ := h.marked hd
  · exact hb d hd
  · exact repo.closed c d hp

theorem covered (h : Hands repo c new flags flags') {pending : List Nat}
    (hcov : Covered repo flags pending) : Covered repo flags' pending := by
  intro m hm
  obtain hd | ⟨hp, hc⟩ := h.marked hm
  · obtain ⟨s, hs, hw⟩ := hcov m hd
    exact ⟨s, hs, hw.mono fun _ => h.ne_none⟩
  · obtain ⟨s, hs, hw⟩ := hcov c hc
    obtain ⟨hne, hw⟩ := hw.mono fun _ => h.ne_none
    exact ⟨s, hs, hne, hw.tail ⟨hp, hm⟩⟩

/-- A parent that has all the marks of `d` keeps them. -/
theorem has_spread (h : Hands repo c new flags flags') {d p : Nat}
    (hp : (flags p).has (spread (flags d)) = true) :
    (flags' p).has (spread (flags d)) = true := by
  rw [Flags.has_iff] at hp ⊢
  have hg := h.grow p
  refine ⟨fun hf => hg.1 (hp.1 hf), fun hf => hg.2.1 (hp.2.1 hf),
    fun hf => hg.2.2.1 (hp.2.2.1 hf), fun hf => ?_⟩
  rw [spread_eq] at hf
  simp at hf

end Hands

/-- A commit has handed its marks on to its parents. -/
theorem PaintInv.hands {flags' : Nat → Flags} (rest : List Nat) {new : List Nat}
    (h : PaintInv repo one twos flags result l) (hl : ∀ d, d ≠ c → d ∉ rest → d ∉ l)
    (hfound : (flags c).parent1 = true → (flags c).parent2 = true → (flags c).stale = false →
      (flags c).result = true)
    (hs : Hands repo c new flags flags')
    (hall : ∀ p, repo.Parent c p → (flags' p).has (spread (flags c)) = true) :
    PaintInv repo one twos flags' result (rest ++ new) where
  bounded := hs.bounded h.bounded
  covered := hs.covered h.covered
  sound1 d hd := by
    obtain hd | ⟨hp, hd⟩ := (hs.origin d).1 hd
    · exact h.sound1 d hd
    · exact (h.sound1 c hd).tail hp
  sound2 d hd := by
    obtain hd | ⟨hp, hd⟩ := (hs.origin d).2.1 hd
    · exact h.sound2 d hd
    · obtain ⟨two, htwo, hr⟩ := h.sound2 c hd
      exact ⟨two, htwo, hr.tail hp⟩
  both d hd := by
    obtain hd | ⟨hp, hd⟩ := (hs.origin d).2.2 hd
    · exact ⟨(hs.grow d).1 (h.both d hd).1, (hs.grow d).2.1 (h.both d hd).2⟩
    · have hboth : (flags c).parent1 = true ∧ (flags c).parent2 = true := hd.elim (h.both c) id
      have hhas := hall d hp
      rw [Flags.has_iff, spread_eq] at hhas
      exact ⟨hhas.1 hboth.1, hhas.2.1 hboth.2⟩
  stale d hd := by
    obtain hd | ⟨hp, hd | hd⟩ := (hs.origin d).2.2 hd
    · exact h.stale d hd
    · obtain ⟨e, he, hec⟩ := h.stale c hd
      exact ⟨e, he, hec.tail hp⟩
    · exact ⟨c, h.common_of hd.1 hd.2, .single hp⟩
  one1 := (hs.grow one).1 h.one1
  twos2 two htwo := (hs.grow two).2.1 (h.twos2 two htwo)
  passed d hd p hp := by
    simp only [List.mem_append, not_or] at hd
    rw [hs.same d hd.2]
    by_cases hdc : d = c
    · subst hdc
      exact hall p hp
    · exact hs.has_spread (h.passed d (hl d hdc hd.1) p hp)
  found d hd := by
    simp only [List.mem_append, not_or] at hd
    rw [hs.same d hd.2]
    by_cases hdc : d = c
    · subst hdc
      exact hfound
    · exact h.found d (hl d hdc hd.1)
  listed d := by rw [h.listed, (hs.grow d).2.2.2]
  common d hd := by
    rw [(hs.grow d).2.2.2] at hd
    exact ⟨(hs.grow d).1 (h.common d hd).1, (hs.grow d).2.1 (h.common d hd).2⟩
  nodup := h.nodup

theorem painted_eq_both {f : Flags} : f.painted = ⟨true, true, false, false⟩ ↔
    f.parent1 = true ∧ f.parent2 = true ∧ f.stale = false := by
  obtain ⟨p₁, p₂, s, r⟩ := f
  simp [Flags.painted]

/-- Marking a result is no mark of the walk. -/
theorem missing_result (flags : Nat → Flags) (c : Nat) :
    missing repo (Function.update flags c { flags c with result := true }) =
      missing repo flags := by
  refine Finset.sum_congr rfl ?_
  intro d _
  by_cases hd : d = c
  · subst hd
    simp [unset]
  · simp [hd]

theorem foundCommit_spec (st : Paint) (h : PaintInv repo one twos st.flags st.result l) :
    PaintInv repo one twos (foundCommit repo c st).flags (foundCommit repo c st).result l ∧
      (foundCommit repo c st).queue = st.queue ∧
      missing repo (foundCommit repo c st).flags = missing repo st.flags ∧
      spread ((foundCommit repo c st).flags c) = spread (st.flags c) ∧
      (((foundCommit repo c st).flags c).parent1 = true →
        ((foundCommit repo c st).flags c).parent2 = true →
        ((foundCommit repo c st).flags c).stale = false →
        ((foundCommit repo c st).flags c).result = true) := by
  unfold foundCommit
  split
  · rename_i hboth
    obtain ⟨h₁, h₂, hs⟩ := painted_eq_both.mp hboth
    split
    · rename_i hres
      exact ⟨h, rfl, rfl, rfl, fun _ _ _ => hres⟩
    · rename_i hres
      refine ⟨h.mark h₁ h₂ (by simpa using hres), rfl, missing_result st.flags c, ?_, ?_⟩
      · simp [spread_eq]
      · simp
  · rename_i hboth
    refine ⟨h, rfl, rfl, rfl, ?_⟩
    intro h₁ h₂ hs
    exact absurd (painted_eq_both.mpr ⟨h₁, h₂, hs⟩) hboth

theorem comparator_paint (repo : Repo) (minGeneration : Nat) :
    Comparator (fun _ => True) (paintCompare repo minGeneration) := by
  unfold paintCompare
  split
  · exact comparator_newer repo.date
  · exact comparator_gen_then_date repo

/-- What is taken has the highest generation when generations matter. -/
theorem generation_le_taken {minGeneration a : Nat} {rest : List Nat} (hmin : minGeneration ≠ 0)
    (h : Takes (paintCompare repo minGeneration) l a rest) :
    ∀ c ∈ l, repo.generation c ≤ repo.generation a := by
  obtain ⟨older, newer, rfl, -, holder, hnewer⟩ := h
  unfold paintCompare at holder hnewer
  simp only [hmin, false_and, if_false] at holder hnewer
  intro c hc
  rcases List.mem_append.mp hc with hc | hc
  · have hlt := holder c hc
    have hnonneg := (gen_then_date_nonneg repo c a).mp (by omega)
    omega
  · rcases List.mem_cons.mp hc with rfl | hc
    · exact Nat.le_refl _
    · have hle := (gen_then_date_le repo a c).mp (hnewer c hc)
      omega

theorem hasNonstale_iff {cmp : Nat → Nat → Int} {st : Paint} (h : Held repo cmp st l) :
    queueHasNonstale st = true ↔ ∃ c ∈ l, (st.flags c).stale = false := by
  have hperm := h.rep.held
  unfold queueHasNonstale
  rw [List.any_eq_true]
  constructor
  · rintro ⟨e, he, hs⟩
    exact ⟨e.data, hperm.mem_iff.mp (List.mem_map_of_mem he), by simpa using hs⟩
  · rintro ⟨c, hc, hs⟩
    obtain ⟨e, he, rfl⟩ := List.mem_map.mp (hperm.mem_iff.mpr hc)
    exact ⟨e, he, by simpa using hs⟩

/-- The walk ends when all that waits is stale, or has too small a generation. -/
theorem paintLoop_spec (hparses : ∀ c, repo.parses c = true) {minGeneration : Nat}
    (ignore : Bool) {fuel last_gen : Nat} {st : Paint}
    (hheld : Held repo (paintCompare repo minGeneration) st l)
    (hinv : PaintInv repo one twos st.flags st.result l)
    (hgen : minGeneration ≠ 0 → ∀ c ∈ l, repo.generation c ≤ last_gen)
    (hfuel : l.length + missing repo st.flags < fuel) :
    ∃ flags result l', paintLoop repo minGeneration ignore fuel last_gen st =
        some (.returns 0 flags result) ∧ PaintInv repo one twos flags result l' ∧
      ∀ c ∈ l', (flags c).stale = true ∨ repo.generation c < minGeneration := by
  induction fuel generalizing st l last_gen with
  | zero => omega
  | succ fuel ih =>
    rw [paintLoop]
    split
    · rename_i hnonstale
      have hne : l ≠ [] := by
        rintro rfl
        simp [hasNonstale_iff hheld] at hnonstale
      have hcomp := comparator_paint repo minGeneration
      obtain ⟨queue, c, rest, hqc, hctr, htakes, hget, hrep⟩ := get_least hheld.rep hheld.compare
        hcomp ((Nat.le_add_right ..).trans hheld.room) hne
      have hmost := fun hmin => generation_le_taken hmin htakes
      obtain ⟨older, newer, rfl, rfl, -, -⟩ := htakes
      have hmem : c ∈ older ++ c :: newer := by simp
      simp only [hget, Option.bind_eq_bind, Option.bind_some]
      rw [if_neg (by
        rintro ⟨hmin, hlt⟩
        have := hgen hmin c hmem
        omega)]
      split
      · rename_i hlt
        refine ⟨st.flags, st.result, _, rfl, hinv, ?_⟩
        intro d hd
        have := hmost (by omega) d hd
        exact .inr (by omega)
      · obtain ⟨hfound, hqueue, hmiss, hspread, hresult⟩ :=
          foundCommit_spec (c := c) { st with queue := queue } hinv
        set st₁ := foundCommit repo c { st with queue := queue } with hst₁
        have hheld₁ : Held repo (paintCompare repo minGeneration) st₁ (older ++ newer) := by
          refine ⟨?_, ?_, ?_⟩
          · rw [hqueue]
            exact hrep
          · rw [hqueue]
            exact hqc
          · rw [hqueue, hmiss]
            simp only [hctr]
            exact hheld.room
        obtain ⟨st₂, new, heq, hheld₂, hres, hless, hsame, hnew, hall⟩ :=
          paintParents_spec hcomp hparses (f := spread (st.flags c)) (by rw [spread_eq])
            (fun p hp => repo.closed c p hp) hheld₁
        simp only at hspread
        rw [← hspread] at hnew hall
        have hinv₂ := hfound.hands (c := c) (older ++ newer)
          (by
            intro d hd hr
            simp only [List.mem_append, List.mem_cons, not_or] at hr ⊢
            exact ⟨hr.1, hd, hr.2⟩) hresult ⟨hsame, hnew⟩ hall
        rw [← hres] at hinv₂
        simp only [heq]
        refine ih hheld₂ hinv₂ ?_ ?_
        · intro hmin d hd
          rcases List.mem_append.mp hd with hd | hd
          · refine hmost hmin d ?_
            simp only [List.mem_append, List.mem_cons] at hd ⊢
            tauto
          · exact repo.generation_parent c d (hnew d hd).1
        · simp only [List.length_append, List.length_cons] at hfuel ⊢
          simp only at hmiss
          omega
    · rename_i hstale
      refine ⟨st.flags, st.result, l, rfl, hinv, ?_⟩
      intro c hc
      left
      by_contra hs
      exact hstale ((hasNonstale_iff hheld).mpr ⟨c, hc, by simpa using hs⟩)

/-! ## The start and the end of a walk -/

theorem paintTwos_flags (twos : List Nat) (st : Paint) (c : Nat) :
    (paintTwos twos st).flags c =
      { st.flags c with parent2 := (st.flags c).parent2 || decide (c ∈ twos) } := by
  induction twos generalizing st with
  | nil => simp [paintTwos]
  | cons two twos ih =>
    rw [paintTwos, ih]
    by_cases hc : c = two
    · subst hc
      simp
    · simp [hc]

theorem paintTwos_queue {cmp : Nat → Nat → Int} (hc : Comparator (fun _ => True) cmp)
    (twos : List Nat) (st : Paint) (hrep : Rep st.queue l) (hcomp : st.queue.compare = some cmp)
    (hlim : st.queue.insertionCtr + twos.length ≤ CTR_LIMIT) :
    Rep (paintTwos twos st).queue (l ++ twos) ∧
      (paintTwos twos st).queue.compare = some cmp ∧
      (paintTwos twos st).queue.insertionCtr ≤ st.queue.insertionCtr + twos.length ∧
      (paintTwos twos st).result = st.result := by
  induction twos generalizing st l with
  | nil => simpa [paintTwos] using ⟨hrep, hcomp⟩
  | cons two twos ih =>
    rw [paintTwos]
    simp only [List.length_cons] at hlim
    have hctr : (prioQueuePut st.queue two).insertionCtr ≤ st.queue.insertionCtr + 1 := by
      unfold prioQueuePut
      split <;> exact Nat.mod_le ..
    have hcomp' : (prioQueuePut st.queue two).compare = some cmp := by
      rw [← hcomp]
      unfold prioQueuePut
      split <;> rfl
    have hput : Rep (prioQueuePut st.queue two) (l ++ [two]) := by
      refine put_refines hrep ?_ (by omega) two
      intro cmp' hcmp'
      obtain rfl : cmp = cmp' := Option.some.inj (hcomp.symm.trans hcmp')
      exact hc
    obtain ⟨hrep', hcomp', hctr', hres⟩ := ih
      { flags := Function.update st.flags two { st.flags two with parent2 := true },
        queue := prioQueuePut st.queue two, result := st.result }
      hput hcomp' (by simp only; omega)
    refine ⟨by simpa using hrep', hcomp', ?_, hres⟩
    simp only [List.length_cons] at hctr' ⊢
    omega

/-- The marks with which a walk starts. -/
theorem start_inv (hone : one < repo.count) (htwos : ∀ two ∈ twos, two < repo.count)
    (hflags : ∀ c, flags c = ⟨decide (c = one), decide (c ∈ twos), false, false⟩) :
    PaintInv repo one twos flags [] (one :: twos) := by
  have hmark : ∀ c, flags c ≠ .none → c = one ∨ c ∈ twos := by
    intro c hc
    by_contra hn
    rw [not_or] at hn
    exact hc (by simp [hflags, hn, Flags.none])
  refine ⟨?_, ?_, ?_, ?_, ?_, ?_, ?_, ?_, ?_, ?_, ?_, ?_, List.nodup_nil⟩
  · intro c hc
    obtain rfl | hc := hmark c hc
    · exact hone
    · exact htwos c hc
  · intro c hc
    exact ⟨c, by simpa using hmark c hc, hc, .refl⟩
  · intro c hc
    obtain rfl : c = one := by simpa [hflags] using hc
    exact .refl
  · intro c hc
    exact ⟨c, by simpa [hflags] using hc, .refl⟩
  · intro c hc
    simp [hflags] at hc
  · intro c hc
    simp [hflags] at hc
  · simp [hflags]
  · intro two htwo
    simp [hflags, htwo]
  · intro c hc p _
    simp only [List.mem_cons, not_or] at hc
    simp [spread_eq, hflags, hc]
  · intro c hc h₁
    simp only [List.mem_cons, not_or] at hc
    simp [hflags, hc] at h₁
  · intro c
    simp [hflags]
  · intro c hc
    simp [hflags] at hc

/-- What a walk over clean marks leaves. -/
theorem paint_spec (hparses : ∀ c, repo.parses c = true) (hone : one < repo.count)
    (htwos : ∀ two ∈ twos, two < repo.count) (hne : twos ≠ [])
    (hroom : twos.length + 3 * repo.count < CTR_LIMIT) {fuel : Nat}
    (hfuel : 1 + twos.length + 3 * repo.count < fuel) (minGeneration : Nat) (ignore : Bool) :
    ∃ flags result l, paintDownToCommon repo fuel (fun _ => .none) one twos minGeneration
        ignore = some (.returns 0 flags result) ∧ PaintInv repo one twos flags result l ∧
      ∀ c ∈ l, (flags c).stale = true ∨ repo.generation c < minGeneration := by
  have hcomp := comparator_paint repo minGeneration
  set flags₀ : Nat → Flags :=
    Function.update (fun _ => Flags.none) one { Flags.none with parent1 := true } with hflags₀
  set queue₀ := prioQueuePut
    ⟨some (paintCompare repo minGeneration), 0, fun _ => ⟨0, 0⟩, 0⟩ one with hqueue₀
  have hempty : Rep (⟨some (paintCompare repo minGeneration), 0, fun _ => ⟨0, 0⟩, 0⟩ :
      PrioQueue Nat) [] :=
    .heap (by simp [cells]) .nil (by simp)
      (by intro i _ hi; exact absurd hi (Nat.not_lt_zero i))
  have hrep₀ : Rep queue₀ [one] := by
    refine put_refines hempty ?_ (by simp [CTR_LIMIT]) one
    intro cmp hcmp
    obtain rfl := Option.some.inj hcmp
    exact hcomp
  obtain ⟨hrep, hcompare, hctr, hres⟩ := paintTwos_queue hcomp twos
    ⟨flags₀, queue₀, []⟩ hrep₀ rfl (by
      simp only [hqueue₀, prioQueuePut]
      omega)
  have hflags : ∀ c, (paintTwos twos ⟨flags₀, queue₀, []⟩).flags c =
      ⟨decide (c = one), decide (c ∈ twos), false, false⟩ := by
    intro c
    rw [paintTwos_flags]
    by_cases hc : c = one
    · subst hc
      simp [hflags₀, Flags.none]
    · simp [hflags₀, hc, Flags.none]
  generalize hst : paintTwos twos ⟨flags₀, queue₀, []⟩ = st at *
  have hmiss := missing_le repo st.flags
  have hctr : st.queue.insertionCtr ≤ 1 + twos.length := hctr
  have hheld : Held repo (paintCompare repo minGeneration) st (one :: twos) :=
    ⟨hrep, hcompare, by omega⟩
  have hinv : PaintInv repo one twos st.flags st.result (one :: twos) := by
    rw [hres]
    exact start_inv hone htwos hflags
  obtain ⟨flags, result, l, heq, hend⟩ := paintLoop_spec hparses ignore hheld hinv
    (fun _ c _ => repo.generation_le c)
    (show _ < fuel by simp only [List.length_cons]; omega)
  refine ⟨flags, result, l, ?_, hend⟩
  unfold paintDownToCommon
  rw [if_neg (by simpa using hne), ← heq, ← hst]

/-- The first mark comes down to `c` when nothing on the way waits. -/
theorem PaintInv.reach1 (h : PaintInv repo one twos flags result l) (hc : repo.Reach one c)
    (hway : ∀ d, repo.Reach one d → TransGen repo.Parent d c → d ∉ l) :
    (flags c).parent1 = true := by
  refine painted_of_closed (fun c => (flags c).parent1 = true)
    h.one1 ?_ hc hway
  intro d p hd hstop hp
  have hpass := h.passed d hstop p hp
  rw [Flags.has_iff, spread_eq] at hpass
  exact hpass.1 hd

/-- The second mark comes down to `c` when nothing on the way waits. -/
theorem PaintInv.reach2 (h : PaintInv repo one twos flags result l) {two : Nat}
    (htwo : two ∈ twos) (hc : repo.Reach two c)
    (hway : ∀ d, repo.Reach two d → TransGen repo.Parent d c → d ∉ l) :
    (flags c).parent2 = true := by
  refine painted_of_closed (fun c => (flags c).parent2 = true)
    (h.twos2 two htwo) ?_ hc hway
  intro d p hd hstop hp
  have hpass := h.passed d hstop p hp
  rw [Flags.has_iff, spread_eq] at hpass
  exact hpass.2.1 hd

/-- Every best common ancestor is among the results, and is not stale. -/
theorem PaintInv.best (h : PaintInv repo one twos flags result l)
    (hend : ∀ c ∈ l, (flags c).stale = true) (hc : Best repo.Parent one (· ∈ twos) c) :
    c ∈ result ∧ (flags c).stale = false := by
  obtain ⟨⟨h₁, two, htwo, h₂⟩, hbest⟩ := hc
  have hbehind : ∀ d, TransGen repo.Parent d c → d ∉ l := by
    intro d hd hdl
    obtain ⟨e, he, hed⟩ := h.stale d (hend d hdl)
    exact hbest e he (hed.trans hd)
  have hstale : (flags c).stale = false := by
    by_contra hs
    obtain ⟨e, he, hec⟩ := h.stale c (by simpa using hs)
    exact hbest e he hec
  have hnot : c ∉ l := by
    intro hcl
    simp [hend c hcl] at hstale
  have hp₁ := h.reach1 h₁ fun d _ hd => hbehind d hd
  have hp₂ := h.reach2 htwo h₂ fun d _ hd => hbehind d hd
  exact ⟨(h.listed c).mpr (h.found c hnot hp₁ hp₂ hstale), hstale⟩

/-- What a walk says about ancestors of `twos`, also when there are none. -/
theorem paint_ancestors (hparses : ∀ c, repo.parses c = true) (hone : one < repo.count)
    (htwos : ∀ two ∈ twos, two < repo.count)
    (hroom : twos.length + 3 * repo.count < CTR_LIMIT) {fuel : Nat}
    (hfuel : 1 + twos.length + 3 * repo.count < fuel) {minGeneration : Nat}
    (hmin : minGeneration ≤ repo.generation one) (ignore : Bool) :
    ∃ flags result, paintDownToCommon repo fuel (fun _ => .none) one twos minGeneration
        ignore = some (.returns 0 flags result) ∧
      Bounded repo flags ∧ Covered repo flags (one :: twos) ∧
      (∀ c, (flags c).parent1 = true → repo.Reach one c) ∧
      ((flags one).parent2 = true ↔ ∃ two ∈ twos, repo.Reach two one) := by
  by_cases hne : twos = []
  · subst hne
    refine ⟨_, [one], rfl, ?_, ?_, ?_, by simp [Flags.none]⟩
    · intro c hc
      by_cases hco : c = one
      · exact hco ▸ hone
      · simp [hco] at hc
    · intro c hc
      by_cases hco : c = one
      · exact ⟨one, by simp, hco ▸ hc, hco ▸ .refl⟩
      · simp [hco] at hc
    · intro c hc
      by_cases hco : c = one
      · subst hco
        exact .refl
      · simp [hco, Flags.none] at hc
  · obtain ⟨flags, result, l, heq, hinv, hend⟩ :=
      paint_spec hparses hone htwos hne hroom hfuel minGeneration ignore
    refine ⟨flags, result, heq, hinv.bounded, hinv.covered, hinv.sound1, hinv.sound2 one, ?_⟩
    rintro ⟨two, htwo, hreach⟩
    refine hinv.reach2 htwo hreach ?_
    intro d _ hd hdl
    obtain hs | hlt := hend d hdl
    · obtain ⟨e, he, hed⟩ := hinv.stale d hs
      exact repo.no_cycle (hed.trans hd) he.1
    · have := Repo.Reach.generation_le hd.to_reflTransGen
      omega

/-! ## Common ancestors -/

theorem common_finite (hone : one < repo.count) :
    {c | Common repo.Parent one (· ∈ twos) c}.Finite := by
  refine (Set.finite_lt_nat repo.count).subset ?_
  intro c hc
  exact Repo.Reach.lt_count hc.1 hone

theorem mergeBasesMany_spec (hparses : ∀ c, repo.parses c = true) (hone : one < repo.count)
    (htwos : ∀ two ∈ twos, two < repo.count) (hne : twos ≠ []) (hnot : one ∉ twos)
    (hroom : twos.length + 3 * repo.count < CTR_LIMIT) {fuel : Nat}
    (hfuel : 1 + twos.length + 3 * repo.count < fuel) :
    ∃ flags result, mergeBasesMany repo fuel (fun _ => .none) one twos =
        some (.returns 0 flags result) ∧
      Bounded repo flags ∧ Covered repo flags (one :: twos) ∧ result.Nodup ∧ ByDate repo result ∧
      (∀ c ∈ result, Common repo.Parent one (· ∈ twos) c) ∧
      ∀ c, Best repo.Parent one (· ∈ twos) c → c ∈ result := by
  obtain ⟨flags, result, l, heq, hinv, hend⟩ :=
    paint_spec hparses hone htwos hne hroom hfuel 0 false
  have hperm := insertAll_perm repo (result.filter fun c => !(flags c).stale) []
  rw [List.append_nil] at hperm
  refine ⟨flags, insertAll repo (result.filter fun c => !(flags c).stale) [], ?_, hinv.bounded,
    hinv.covered, ?_, insertAll_sorted List.Pairwise.nil, ?_, ?_⟩
  · unfold mergeBasesMany
    rw [if_neg (by simpa using hnot), if_neg (by simp [hparses]), heq]
    rfl
  · exact hperm.nodup_iff.mpr (hinv.nodup.filter _)
  · intro c hc
    obtain ⟨hc, -⟩ := List.mem_filter.mp (hperm.mem_iff.mp hc)
    obtain ⟨h₁, h₂⟩ := hinv.common c ((hinv.listed c).mp hc)
    exact hinv.common_of h₁ h₂
  · intro c hc
    obtain ⟨hm, hs⟩ := hinv.best (fun c hc => (hend c hc).resolve_right (Nat.not_lt_zero _)) hc
    exact hperm.mem_iff.mpr (List.mem_filter.mpr ⟨hm, by simpa using hs⟩)

/-! ## Ancestors -/

/-- Enough turns for every loop. -/
def enough (repo : Repo) (twos : List Nat) : Nat :=
  twos.length + 4 * repo.count + repo.count * (repo.width + 1) + 1

/-- **Ancestors.**  As long as no commit is missing, `repo_in_merge_bases_many` says whether a
commit is one of the references or an ancestor of one, and takes all its marks off again. -/
theorem in_merge_bases_exact (repo : Repo) (commit : Nat) (reference : List Nat)
    (hparses : ∀ c, repo.parses c = true) (hcommit : commit < repo.count)
    (hreference : ∀ c ∈ reference, c < repo.count)
    (hroom : reference.length + 4 * repo.count < 1073741824) (ignore : Bool) (fuel : Nat)
    (hfuel : enough repo reference < fuel) :
    ∃ value, repoInMergeBasesMany repo fuel (fun _ => .none) commit reference ignore =
        some (value, fun _ => .none) ∧
      (value = 1 ∧ (∃ c ∈ reference, repo.Reach c commit) ∨
        value = 0 ∧ ¬∃ c ∈ reference, repo.Reach c commit) := by
  have hroom' : reference.length + 4 * repo.count < CTR_LIMIT := hroom
  unfold enough at hfuel
  unfold repoInMergeBasesMany
  rw [if_neg (by simp [hparses])]
  have hmax : ∀ (l : List Nat) (m : Nat), m ≤ l.foldl (fun m c => max (repo.generation c) m) m ∧
      ∀ c ∈ l, repo.generation c ≤ l.foldl (fun m c => max (repo.generation c) m) m := by
    intro l
    induction l with
    | nil => simp
    | cons a l ih =>
      intro m
      have h := ih (max (repo.generation a) m)
      refine ⟨(Nat.le_max_right ..).trans h.1, ?_⟩
      intro c hc
      rcases List.mem_cons.mp hc with rfl | hc
      · exact (Nat.le_max_left ..).trans h.1
      · exact h.2 c hc
  dsimp only
  split
  · rename_i hlt
    refine ⟨0, rfl, .inr ⟨rfl, ?_⟩⟩
    rintro ⟨c, hc, hreach⟩
    have := (hmax reference 0).2 c hc
    have := Repo.Reach.generation_le hreach
    omega
  · obtain ⟨flags, result, heq, hb, hcov, -, hiff⟩ := paint_ancestors hparses
      hcommit hreference (by omega) (show _ < fuel by omega) (Nat.le_refl _) ignore
    obtain ⟨flags₁, hclear₁, hclear₂⟩ := clear_both hb hcov (show _ < fuel by omega)
    simp only [heq, hclear₁, hclear₂, Option.bind_eq_bind, Option.bind_some, ne_eq,
      not_true_eq_false, if_false]
    by_cases hp : (flags commit).parent2 = true
    · exact ⟨1, by simp [hp], .inl ⟨rfl, hiff.mp hp⟩⟩
    · exact ⟨0, by simp [hp], .inr ⟨rfl, fun h => hp (hiff.mpr h)⟩⟩

/-- Commit 1 is behind the merge 4; commit 3 is not, and the walk ends at the level of 3. -/
theorem in_merge_bases_exact_graded :
    repoInMergeBasesMany graded 99 (fun _ => .none) 1 [3, 4] false =
        some (1, fun _ => .none) ∧
      repoInMergeBasesMany graded 99 (fun _ => .none) 3 [4] false =
        some (0, fun _ => .none) := by
  obtain ⟨v₁, heq₁, -⟩ := in_merge_bases_exact graded 1 [3, 4] (fun _ => rfl) (by decide)
    (by decide) (by decide) false 99 (by decide)
  obtain ⟨v₃, heq₃, -⟩ := in_merge_bases_exact graded 3 [4] (fun _ => rfl) (by decide)
    (by decide) (by decide) false 99 (by decide)
  have h₁ : (repoInMergeBasesMany graded 99 (fun _ => .none) 1 [3, 4] false).map Prod.fst =
      some 1 := by decide +kernel
  have h₃ : (repoInMergeBasesMany graded 99 (fun _ => .none) 3 [4] false).map Prod.fst =
      some 0 := by decide +kernel
  rw [heq₁] at h₁ ⊢
  rw [heq₃] at h₃ ⊢
  obtain rfl : v₁ = 1 := Option.some.inj h₁
  obtain rfl : v₃ = 0 := Option.some.inj h₃
  exact ⟨rfl, rfl⟩

end Git
