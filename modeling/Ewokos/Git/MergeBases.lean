import Ewokos.Git.Redundant

/-!
# Merge bases

The best common ancestors of commits, as git's `commit-reach.c` finds them: a walk that paints the
ancestors, and the commits behind another one taken out of what it found.

* `getMergeBasesMany0`, `repoGetMergeBasesMany` — the code.

Main result: `merge_bases_exact` — whatever the dates are.
-/

set_option autoImplicit false

namespace Git

open Relation Ancestry

/-- `get_merge_bases_many_0`; `cleanup` takes the marks off. -/
def getMergeBasesMany0 (repo : Repo) (qsort : GenSort repo) (fuel : Nat) (flags : Nat → Flags)
    (one : Nat) (twos : List Nat) (cleanup : Bool) : Option Painted := do
  match ← mergeBasesMany repo fuel flags one twos with
  | .bug => some .bug
  | .returns ret flags result =>
    if ret < 0 then some (.returns (-1) flags result)
    else if twos.contains one then some (.returns 0 flags result)
    else if result.length ≤ 1 then
      if cleanup then
        let flags ← clearCommitMarksMany repo fuel flags [one]
        let flags ← clearCommitMarksMany repo fuel flags twos
        some (.returns 0 flags result)
      else some (.returns 0 flags result)
    else
      let flags ← clearCommitMarksMany repo fuel flags [one]
      let flags ← clearCommitMarksMany repo fuel flags twos
      let (flags, left) ← removeRedundant repo qsort fuel flags result
      match left with
      | some left => some (.returns 0 flags (insertAll repo left []))
      | none => some (.returns (-1) flags [])

/-- `repo_get_merge_bases_many`. -/
def repoGetMergeBasesMany (repo : Repo) (qsort : GenSort repo) (fuel : Nat)
    (flags : Nat → Flags) (one : Nat) (twos : List Nat) : Option Painted :=
  getMergeBasesMany0 repo qsort fuel flags one twos true

/-! ## The result -/

variable {repo : Repo} {array : List Nat} {c : Nat}

theorem nodup_length_le (hnd : array.Nodup) (harray : ∀ c ∈ array, c < repo.count) :
    array.length ≤ repo.count := by
  have hsub : array ⊆ List.range repo.count := fun c hc => List.mem_range.mpr (harray c hc)
  simpa using (hnd.subperm hsub).length_le

theorem eq_of_length_le_one {d : Nat} (h : array.length ≤ 1) (hd : d ∈ array) (hc : c ∈ array) :
    d = c := by
  obtain ⟨i, hi, rfl⟩ := List.mem_iff_getElem.mp hd
  obtain ⟨j, hj, rfl⟩ := List.mem_iff_getElem.mp hc
  obtain rfl : i = j := by omega
  rfl

/-- **Merge bases.**  Whatever the dates of the commits are, with or without generation numbers, and
as long as no commit is missing, `repo_get_merge_bases_many` returns the best common ancestors: each
once, the newest first, and every common ancestor that is behind no other one is there and nothing
else.  It takes all its marks off again. -/
theorem merge_bases_exact (repo : Repo) (qsort : GenSort repo) (one : Nat) (twos : List Nat)
    (hparses : ∀ c, repo.parses c = true) (hone : one < repo.count)
    (htwos : ∀ two ∈ twos, two < repo.count) (hne : twos ≠ [])
    (hroom : twos.length + 4 * repo.count < 1073741824) (fuel : Nat)
    (hfuel : enough repo twos < fuel) :
    ∃ bases, repoGetMergeBasesMany repo qsort fuel (fun _ => .none) one twos =
        some (.returns 0 (fun _ => .none) bases) ∧ bases.Nodup ∧ ByDate repo bases ∧
      ∀ c, c ∈ bases ↔ Best repo.Parent one (· ∈ twos) c := by
  have hroom' : twos.length + 4 * repo.count < CTR_LIMIT := hroom
  unfold enough at hfuel
  unfold repoGetMergeBasesMany getMergeBasesMany0
  by_cases hin : one ∈ twos
  · have hmany : mergeBasesMany repo fuel (fun _ => .none) one twos =
        some (.returns 0 (fun _ => .none) [one]) := by
      unfold mergeBasesMany
      rw [if_pos (by simpa using hin)]
    refine ⟨[one], by simp [hmany, hin], List.nodup_singleton one, List.pairwise_singleton .., ?_⟩
    have hself : Common repo.Parent one (· ∈ twos) one := ⟨.refl, one, hin, .refl⟩
    intro c
    rw [List.mem_singleton]
    constructor
    · rintro rfl
      exact ⟨hself, fun d hd hdc => repo.no_cycle hdc hd.1⟩
    · rintro ⟨⟨hreach, -⟩, hbest⟩
      refine (reflTransGen_iff_eq_or_transGen.mp hreach).resolve_right ?_
      exact hbest one hself
  · obtain ⟨flags, result, hmany, hb, hcov, hnd, hdate, hcommon, hbest⟩ :=
      mergeBasesMany_spec hparses hone htwos hne hin (by omega) (show _ < fuel by omega)
    obtain ⟨flags₁, hclear₁, hclear₂⟩ := clear_both hb hcov (show _ < fuel by omega)
    have hfront : ∀ c, Common repo.Parent one (· ∈ twos) c →
        ∃ d ∈ result, repo.Reach d c ∧ Best repo.Parent one (· ∈ twos) d := by
      intro c hc
      obtain ⟨d, hd, hdc⟩ := exists_best repo.acyclic (common_finite hone) hc
      exact ⟨d, hbest d hd, hdc, hd⟩
    have hnot : twos.contains one = false := by simpa using hin
    by_cases hone' : result.length ≤ 1
    · refine ⟨result, ?_, hnd, hdate, ?_⟩
      · simp [hmany, hin, hone', hclear₁, hclear₂]
      · intro c
        refine ⟨fun hc => ?_, hbest c⟩
        obtain ⟨d, hd, -, hdbest⟩ := hfront c (hcommon c hc)
        obtain rfl : d = c := eq_of_length_le_one hone' hd hc
        exact hdbest
    · have hlt : ∀ c ∈ result, c < repo.count :=
        fun c hc => Repo.Reach.lt_count (hcommon c hc).1 hone
      have hlen := nodup_length_le hnd hlt
      have hne' : result ≠ [] := by
        rintro rfl
        simp at hone'
      obtain ⟨left, hleft, hndl, hmem⟩ := removeRedundant_spec qsort hparses hne' hnd hlt
        (by omega) (show _ < fuel by omega) (by omega)
      have hperm := insertAll_perm repo left []
      rw [List.append_nil] at hperm
      refine ⟨insertAll repo left [], ?_, hperm.nodup_iff.mpr hndl,
        insertAll_sorted List.Pairwise.nil, ?_⟩
      · simp [hmany, hin, hone', hclear₁, hclear₂, hleft]
      · intro c
        rw [hperm.mem_iff, hmem]
        constructor
        · rintro ⟨hc, hfree⟩
          refine ⟨hcommon c hc, ?_⟩
          intro d hd hdc
          obtain ⟨e, he, hed, -⟩ := hfront d hd
          exact hfree e he (hdc.trans_right hed)
        · intro hc
          exact ⟨hbest c hc, fun d hd hdc => hc.2 d (hcommon d hd) hdc⟩

/-- The walk of the merges 3 and 4 ends before it knows that the root is behind commit 2; the walk by
generation numbers takes it out. -/
theorem merge_bases_exact_graded :
    repoGetMergeBasesMany graded (insertionByGen graded) 99 (fun _ => .none) 3 [4] =
        some (.returns 0 (fun _ => .none) [2]) ∧
      (mergeBasesMany graded 99 (fun _ => .none) 3 [4]).map Painted.list = some [0, 2] := by
  obtain ⟨bases, heq, -⟩ := merge_bases_exact graded (insertionByGen graded) 3 [4] (fun _ => rfl)
    (by decide) (by decide) (by decide) (by decide) 99 (by decide)
  have hbases : (repoGetMergeBasesMany graded (insertionByGen graded) 99 (fun _ => .none)
      3 [4]).map Painted.list = some [2] := by decide +kernel
  rw [heq] at hbases ⊢
  obtain rfl : bases = [2] := Option.some.inj hbases
  exact ⟨rfl, by decide +kernel⟩

end Git
