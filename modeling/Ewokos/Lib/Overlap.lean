import Mathlib.Data.List.Infix
import Mathlib.Order.MinMax

/-!
# How far a table follows a word

* `overlap e w` — the length of the longest common prefix of two words.
* `reach T n w` — how many letters of `w` a scan has read that compares `w` with every word of `T`,
  letter by letter up to the first difference, and had read `n` before.
* `length_le_reach_iff` — the whole word has been read exactly if all of it but its last letter
  begins a word of the table.
-/

set_option autoImplicit false

namespace Overlap

variable {α : Type} [DecidableEq α]

/-- The length of the longest common prefix. -/
def overlap : List α → List α → Nat
  | a :: e, b :: w => if a = b then overlap e w + 1 else 0
  | _, _ => 0

theorem le_overlap_iff : ∀ {n : Nat} {e w : List α},
    n ≤ overlap e w ↔ n ≤ w.length ∧ w.take n <+: e
  | 0, e, w => by simp
  | n + 1, [], w => by
    cases w with
    | nil => simp [overlap]
    | cons b w => simp [overlap]
  | n + 1, a :: e, [] => by simp [overlap]
  | n + 1, a :: e, b :: w => by
    rw [overlap, List.take_succ_cons, List.cons_prefix_cons, List.length_cons, Nat.succ_le_succ_iff]
    split
    · rename_i h
      rw [Nat.succ_le_succ_iff, le_overlap_iff]
      simp [h]
    · rename_i h
      refine iff_of_false (by omega) ?_
      rintro ⟨-, rfl, -⟩
      exact h rfl

/-- What has been read of `w` when it has been compared with all words of the table. -/
def reach (T : List (List α)) (n : Nat) (w : List α) : Nat :=
  T.foldl (fun n e => max n (overlap e w + 1)) n

theorem lt_reach_iff {w : List α} {k : Nat} : ∀ {T : List (List α)} {n : Nat},
    k < reach T n w ↔ k < n ∨ ∃ e ∈ T, k ≤ overlap e w
  | [], n => by simp [reach]
  | e :: T, n => by
    have ih := lt_reach_iff (w := w) (k := k) (T := T) (n := max n (overlap e w + 1))
    rw [List.exists_mem_cons_iff]
    refine ih.trans ?_
    rw [lt_max_iff, Nat.lt_succ_iff, or_assoc]

/-- The last letter is read exactly if the others begin a word of the table. -/
theorem length_le_reach_iff {T : List (List α)} {w : List α} (hne : w ≠ []) :
    w.length ≤ reach T 0 w ↔ ∃ e ∈ T, w.dropLast <+: e := by
  have hpos := List.length_pos_of_ne_nil hne
  rw [show w.length ≤ reach T 0 w ↔ w.length - 1 < reach T 0 w by omega, lt_reach_iff,
    List.dropLast_eq_take]
  simp only [Nat.not_lt_zero, false_or, le_overlap_iff]
  constructor
  · rintro ⟨e, he, -, hpre⟩
    exact ⟨e, he, hpre⟩
  · rintro ⟨e, he, hpre⟩
    exact ⟨e, he, Nat.sub_le _ _, hpre⟩

end Overlap
