import Mathlib

/-!
# The runs of a list

A list is cut behind every separator: its runs are the maximal pieces that end with a separator or
with the list.

* `runs_flatten`, `run_shape`, `runs_open` — the runs are the list, each is a separator-free
  piece with at most one separator behind it, and only the last can lack one.
* `runIndex_runs` — the number of the run of an element counts the separators before it.
* `length_runs` — the number of runs counts the separators, and an unterminated rest.
* `runs_terminated`, `runs_of_pieces` — the runs of a list that ends with a separator all end with
  one, and pieces that do are the runs of their concatenation.
-/

set_option autoImplicit false

namespace Runs

variable {α : Type} [DecidableEq α]

/-- The runs of a list. -/
def runs (sep : α) : List α → List (List α)
  | [] => []
  | a :: l =>
    if a = sep then [a] :: runs sep l
    else match runs sep l with
      | [] => [[a]]
      | r :: rs => (a :: r) :: rs

/-- The number, from 1 on, of the piece that holds element `i` of the whole. -/
def runIndex : List (List α) → Nat → Nat
  | [], _ => 0
  | r :: rs, i => if i < r.length then 1 else runIndex rs (i - r.length) + 1

theorem runs_eq_nil {sep : α} {l : List α} : runs sep l = [] ↔ l = [] := by
  cases l with
  | nil => simp [runs]
  | cons a l =>
    unfold runs
    split
    · simp
    · split <;> simp

theorem runs_flatten (sep : α) (l : List α) : (runs sep l).flatten = l := by
  induction l with
  | nil => rfl
  | cons a l ih =>
    unfold runs
    split
    · simp [ih]
    · split
      · rename_i h
        simp [runs_eq_nil.mp h]
      · rename_i h
        rw [h] at ih
        simpa using ih

/-- No separator inside a run. -/
theorem run_shape {sep : α} {l r : List α} (h : r ∈ runs sep l) :
    ∃ pre a, r = pre ++ [a] ∧ sep ∉ pre := by
  induction l generalizing r with
  | nil => simp [runs] at h
  | cons a l ih =>
    unfold runs at h
    split at h
    · rcases List.mem_cons.mp h with rfl | h
      · exact ⟨[], a, rfl, by simp⟩
      · exact ih h
    · rename_i ha
      split at h
      · rw [List.mem_singleton] at h
        exact ⟨[], a, h, by simp⟩
      · rename_i r₁ rs hr
        rcases List.mem_cons.mp h with rfl | h
        · obtain ⟨pre, b, e, hp⟩ := ih (hr ▸ List.mem_cons_self)
          refine ⟨a :: pre, b, by rw [e, List.cons_append], ?_⟩
          intro hm
          rcases List.mem_cons.mp hm with e' | hm
          · exact ha e'.symm
          · exact hp hm
        · exact ih (hr ▸ List.mem_cons_of_mem _ h)

/-- Only the last run can end without a separator. -/
theorem runs_open {sep : α} {l r : List α} {rs rs' : List (List α)}
    (h : runs sep l = rs ++ r :: rs') (hne : rs' ≠ []) : r.getLast? = some sep := by
  induction l generalizing r rs with
  | nil => simp [runs] at h
  | cons a l ih =>
    unfold runs at h
    split at h
    · rename_i ha
      cases rs with
      | nil =>
        obtain ⟨rfl, -⟩ := List.cons.inj h
        simp [ha]
      | cons r₀ rs => exact ih (List.cons.inj h).2
    · split at h
      · cases rs with
        | nil => exact absurd (List.cons.inj h).2.symm hne
        | cons r₀ rs => simpa using (List.cons.inj h).2
      · rename_i r₁ rs₁ hr
        cases rs with
        | nil =>
          obtain ⟨rfl, e⟩ := List.cons.inj h
          have hl : r₁.getLast? = some sep := ih (show runs sep l = [] ++ r₁ :: rs' by rw [hr, e]; rfl)
          obtain ⟨pre, b, rfl, -⟩ := run_shape (hr ▸ List.mem_cons_self : r₁ ∈ runs sep l)
          rw [← List.cons_append, List.getLast?_concat]
          simpa using hl
        | cons r₀ rs =>
          exact ih (show runs sep l = (r₁ :: rs) ++ r :: rs' by rw [hr, (List.cons.inj h).2]; rfl)

theorem runIndex_runs (sep : α) {l : List α} {i : Nat} (h : i < l.length) :
    runIndex (runs sep l) i = (l.take i).count sep + 1 := by
  induction l generalizing i with
  | nil => simp at h
  | cons a l ih =>
    unfold runs
    cases i with
    | zero =>
      split
      · simp [runIndex]
      · split <;> simp [runIndex]
    | succ i =>
      have hi := ih (i := i) (by simpa using h)
      rw [List.take_succ_cons, List.count_cons]
      split
      · rename_i ha
        simp [runIndex, hi, ha]
      · rename_i ha
        split
        · rename_i hr
          rw [runs_eq_nil.mp hr] at h
          simp at h
        · rename_i r rs hr
          rw [hr] at hi
          simp only [runIndex, List.length_cons, beq_iff_eq, ha, if_false] at hi ⊢
          split at hi
          · rw [if_pos (by omega)]
            omega
          · rw [if_neg (by omega), show i + 1 - (r.length + 1) = i - r.length by omega]
            omega

/-- The last element is in the last run. -/
theorem length_runs (sep : α) {l : List α} (h : l ≠ []) :
    (runs sep l).length = (l.take (l.length - 1)).count sep + 1 := by
  induction l with
  | nil => exact absurd rfl h
  | cons a l ih =>
    unfold runs
    by_cases hl : l = []
    · subst hl
      split <;> simp [runs]
    · obtain ⟨n, hn⟩ : ∃ n, l.length = n + 1 :=
        Nat.exists_eq_add_one_of_ne_zero (by simpa using hl)
      have hi := ih hl
      rw [List.length_cons, Nat.add_sub_cancel, hn, List.take_succ_cons, List.count_cons]
      rw [hn, Nat.add_sub_cancel] at hi
      split
      · rename_i ha
        simp [hi, ha]
      · rename_i ha
        split
        · rename_i hr
          exact absurd (runs_eq_nil.mp hr) hl
        · rename_i r rs hr
          rw [hr, List.length_cons] at hi
          simp only [List.length_cons, beq_iff_eq, ha, if_false]
          omega

/-! ## Terminated lists -/

/-- A piece with one separator, behind the rest. -/
def Piece (sep : α) (r : List α) : Prop := ∃ pre, r = pre ++ [sep] ∧ sep ∉ pre

/-- The runs of a terminated list are pieces. -/
theorem runs_terminated {sep : α} {l : List α} (h : l.getLast? = some sep) :
    ∀ r ∈ runs sep l, Piece sep r := by
  intro r hr
  obtain ⟨pre, a, rfl, hpre⟩ := run_shape hr
  refine ⟨pre, ?_, hpre⟩
  obtain ⟨rs, rs', hsplit⟩ := List.append_of_mem hr
  have hlast : (pre ++ [a]).getLast? = some sep := by
    by_cases hne : rs' = []
    · subst hne
      rw [← runs_flatten sep l, hsplit] at h
      simpa using h
    · exact runs_open hsplit hne
  rw [List.getLast?_concat] at hlast
  rw [Option.some.inj hlast]

/-- Pieces are the runs of their concatenation. -/
theorem runs_of_pieces {sep : α} {rs : List (List α)} (h : ∀ r ∈ rs, Piece sep r) :
    runs sep rs.flatten = rs := by
  induction rs with
  | nil => rfl
  | cons r rs ih =>
    have hrs := ih fun r hr => h r (List.mem_cons_of_mem _ hr)
    obtain ⟨pre, rfl, hpre⟩ := h r List.mem_cons_self
    clear h ih
    rw [List.flatten_cons]
    induction pre with
    | nil => simp [runs, hrs]
    | cons a pre ih =>
      have ha : a ≠ sep := fun e => hpre (by simp [e])
      have hp := ih fun hm => hpre (List.mem_cons_of_mem _ hm)
      rw [List.cons_append, List.cons_append]
      unfold runs
      rw [if_neg ha, hp]

/-- As many separators as pieces. -/
theorem count_pieces {sep : α} {rs : List (List α)} (h : ∀ r ∈ rs, Piece sep r) :
    rs.flatten.count sep = rs.length := by
  induction rs with
  | nil => rfl
  | cons r rs ih =>
    obtain ⟨pre, rfl, hpre⟩ := h r List.mem_cons_self
    rw [List.flatten_cons, List.count_append, ih fun r hr => h r (List.mem_cons_of_mem _ hr),
      List.count_append, List.count_eq_zero_of_not_mem hpre, List.count_singleton_self]
    simp [Nat.add_comm]

omit [DecidableEq α] in
/-- Pieces end with a separator. -/
theorem getLast?_pieces {sep : α} {rs : List (List α)} (h : ∀ r ∈ rs, Piece sep r) (hne : rs ≠ []) :
    rs.flatten.getLast? = some sep := by
  obtain ⟨pre, hpre, -⟩ := h _ (List.getLast_mem hne)
  rw [← List.dropLast_append_getLast hne, List.flatten_append, hpre, List.flatten_singleton,
    ← List.append_assoc, List.getLast?_concat]

omit [DecidableEq α] in
/-- Moving a separator over a list shows, unless there are only separators. -/
theorem concat_eq_cons_iff {sep : α} {l : List α} : l ++ [sep] = sep :: l ↔ ∀ x ∈ l, x = sep := by
  induction l with
  | nil => simp
  | cons b l ih =>
    rw [List.cons_append, List.cons.injEq, List.forall_mem_cons]
    refine and_congr_right fun hb => ?_
    rw [hb]
    exact ih

end Runs
