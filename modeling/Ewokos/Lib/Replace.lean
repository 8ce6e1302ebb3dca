import Mathlib

/-!
# Replacing matches in a list

A pattern matches where the list goes on like it, up to a function `fold` (of letters to lower
case, say, or the identity).

* `leftmost` — where the first match starts; `leftmost_spec` says that it is one and the first.
* `replace` — the list with the leftmost match, or with all matches from left to right, replaced,
  and their number.  What was put in is not looked at again.

Principal results: `replace_none` and `replace_some` unfold `replace` at the leftmost match, and
`replace_concat` — an element that the pattern does not have takes no part.
-/

set_option autoImplicit false

namespace Replace

variable {α β : Type} [DecidableEq β] (fold : α → β)

/-- The list starts with the pattern. -/
def starts (pat l : List α) : Bool := (l.take pat.length).map fold == pat.map fold

/-- The position of the leftmost match. -/
def leftmost (pat : List α) : List α → Option Nat
  | [] => none
  | a :: l => if starts fold pat (a :: l) then some 0 else (leftmost pat l).map (· + 1)

/-- Copy a list with `rep` for the leftmost match or, when `all` is set, for every match from left
to right.  The first `skip` elements belong to the match before.  The number counts the matches. -/
def replaceFrom (pat rep : List α) (all : Bool) : Nat → List α → List α × Nat
  | _, [] => ([], 0)
  | skip + 1, _ :: l => replaceFrom pat rep all skip l
  | 0, a :: l =>
    if starts fold pat (a :: l) then
      if all then
        (rep ++ (replaceFrom pat rep all (pat.length - 1) l).1,
          (replaceFrom pat rep all (pat.length - 1) l).2 + 1)
      else (rep ++ l.drop (pat.length - 1), 1)
    else (a :: (replaceFrom pat rep all 0 l).1, (replaceFrom pat rep all 0 l).2)

/-- The list with its matches replaced, and how many there were. -/
def replace (pat rep : List α) (all : Bool) (l : List α) : List α × Nat :=
  replaceFrom fold pat rep all 0 l

variable {fold} {pat rep l : List α} {all : Bool}

/-! ## Matches -/

theorem starts_iff : starts fold pat l = true ↔ (l.take pat.length).map fold = pat.map fold := by
  simp [starts]

theorem length_of_starts (h : starts fold pat l = true) : pat.length ≤ l.length := by
  have hlen := congrArg List.length (starts_iff.mp h)
  simp only [List.length_map, List.length_take] at hlen
  omega

/-- An element that the pattern does not have ends the part that can match. -/
theorem starts_append {x : α} (hx : fold x ∉ pat.map fold) (c post : List α) :
    starts fold pat (c ++ x :: post) = starts fold pat c := by
  rcases Nat.lt_or_ge c.length pat.length with hlt | hle
  · have hno : ¬ starts fold pat c = true := fun h => by
      have := length_of_starts h
      omega
    have hno' : ¬ starts fold pat (c ++ x :: post) = true := by
      intro h
      refine hx ?_
      rw [← starts_iff.mp h]
      refine List.mem_map_of_mem ?_
      obtain ⟨k, hk⟩ : ∃ k, pat.length - c.length = k + 1 :=
        ⟨pat.length - c.length - 1, by omega⟩
      rw [List.take_append, hk, List.take_succ_cons]
      simp
    simp only [Bool.not_eq_true] at hno hno'
    rw [hno, hno']
  · unfold starts
    rw [List.take_append_of_le_length hle]

/-- The leftmost match is one. -/
theorem leftmost_spec : ∀ {l : List α} {j : Nat}, leftmost fold pat l = some j →
    j < l.length ∧ starts fold pat (l.drop j) = true ∧ ∀ k < j, starts fold pat (l.drop k) = false
  | [], j, h => by cases h
  | a :: l, j, h => by
    unfold leftmost at h
    split at h
    · rename_i hyes
      cases h
      exact ⟨by simp, hyes, fun k hk => by omega⟩
    · rename_i hno
      obtain ⟨i, hi, rfl⟩ := Option.map_eq_some_iff.mp h
      obtain ⟨h₁, h₂, h₃⟩ := leftmost_spec hi
      refine ⟨by simpa using h₁, h₂, fun k hk => ?_⟩
      cases k with
      | zero => simpa using hno
      | succ k => exact h₃ k (by omega)

/-! ## Replacing -/

theorem replaceFrom_skip : ∀ (k : Nat) (l : List α),
    replaceFrom fold pat rep all k l = replace fold pat rep all (l.drop k)
  | 0, _ => rfl
  | k + 1, [] => by simp [replace, replaceFrom]
  | k + 1, _ :: l => replaceFrom_skip k l

theorem replace_nil : replace fold pat rep all [] = ([], 0) := rfl

/-- Without a match nothing is replaced. -/
theorem replace_none : ∀ {l : List α}, leftmost fold pat l = none →
    replace fold pat rep all l = (l, 0)
  | [], _ => rfl
  | a :: l, h => by
    unfold leftmost at h
    split at h
    · cases h
    · rename_i hno
      have ih := replace_none (l := l) (Option.map_eq_none_iff.mp h)
      unfold replace at ih ⊢
      unfold replaceFrom
      rw [if_neg hno, ih]

/-- What is behind the leftmost match, replaced if all matches are. -/
def rest (fold : α → β) (pat rep : List α) (all : Bool) (l : List α) : List α × Nat :=
  if all then replace fold pat rep all l else (l, 0)

/-- The leftmost match is replaced, and what is behind it is dealt with on its own. -/
theorem replace_some (hpat : pat ≠ []) : ∀ {l : List α} {j : Nat}, leftmost fold pat l = some j →
    replace fold pat rep all l =
      (l.take j ++ rep ++ (rest fold pat rep all (l.drop (j + pat.length))).1,
        (rest fold pat rep all (l.drop (j + pat.length))).2 + 1)
  | [], j, h => by cases h
  | a :: l, j, h => by
    have hpos := List.length_pos_of_ne_nil hpat
    unfold leftmost at h
    split at h
    · rename_i hyes
      cases h
      have hdrop : (a :: l).drop (0 + pat.length) = l.drop (pat.length - 1) := by
        rw [show 0 + pat.length = pat.length - 1 + 1 by omega, List.drop_succ_cons]
      rw [hdrop]
      unfold replace replaceFrom rest
      rw [if_pos hyes]
      cases all with
      | true => simp only [if_true, replaceFrom_skip, List.take_zero, List.nil_append]
      | false => simp
    · rename_i hno
      obtain ⟨i, hi, rfl⟩ := Option.map_eq_some_iff.mp h
      have ih := replace_some hpat hi
      have hdrop : (a :: l).drop (i + 1 + pat.length) = l.drop (i + pat.length) := by
        rw [show i + 1 + pat.length = i + pat.length + 1 by omega, List.drop_succ_cons]
      rw [hdrop, List.take_succ_cons]
      unfold replace at ih ⊢
      unfold replaceFrom
      rw [if_neg hno, ih]
      rfl

/-- What is in the result was in the list or is put in. -/
theorem mem_replaceFrom {x : α} : ∀ {l : List α} {k : Nat},
    x ∈ (replaceFrom fold pat rep all k l).1 → x ∈ l ∨ x ∈ rep
  | [], k, h => by
    cases k <;> simp [replaceFrom] at h
  | a :: l, k + 1, h => (mem_replaceFrom (l := l) h).imp_left (List.mem_cons_of_mem a)
  | a :: l, 0, h => by
    unfold replaceFrom at h
    split at h
    · split at h
      · rcases List.mem_append.mp h with h | h
        · exact .inr h
        · exact (mem_replaceFrom h).imp_left (List.mem_cons_of_mem a)
      · rcases List.mem_append.mp h with h | h
        · exact .inr h
        · exact .inl (List.mem_cons_of_mem a (List.mem_of_mem_drop h))
    · rcases List.mem_cons.mp h with rfl | h
      · exact .inl List.mem_cons_self
      · exact (mem_replaceFrom h).imp_left (List.mem_cons_of_mem a)

theorem leftmost_concat {x : α} (hx : fold x ∉ pat.map fold) (hpat : pat ≠ []) :
    ∀ c : List α, leftmost fold pat (c ++ [x]) = leftmost fold pat c
  | [] => by
    have hno : starts fold pat [x] = false := by
      have h := starts_append hx [] []
      rw [List.nil_append] at h
      rw [h]
      by_contra hyes
      have := length_of_starts (by simpa using hyes)
      exact hpat (List.length_eq_zero_iff.mp (by simpa using this))
    simp [leftmost, hno]
  | a :: c => by
    have h := starts_append hx (a :: c) []
    have ih := leftmost_concat hx hpat c
    rw [List.cons_append] at h ⊢
    unfold leftmost
    rw [h, ih]

/-- A last element that the pattern does not have is copied. -/
theorem replace_concat {x : α} (hx : fold x ∉ pat.map fold) (hpat : pat ≠ []) (c : List α) :
    replace fold pat rep all (c ++ [x]) =
      ((replace fold pat rep all c).1 ++ [x], (replace fold pat rep all c).2) := by
  induction hn : c.length using Nat.strong_induction_on generalizing c with
  | _ n ih =>
    cases hl : leftmost fold pat c with
    | none =>
      rw [replace_none hl, replace_none ((leftmost_concat hx hpat c).trans hl)]
    | some j =>
      obtain ⟨hj, hyes, -⟩ := leftmost_spec hl
      have hlen := length_of_starts hyes
      rw [List.length_drop] at hlen
      have hpos := List.length_pos_of_ne_nil hpat
      have hrest : rest fold pat rep all (c.drop (j + pat.length) ++ [x]) =
          ((rest fold pat rep all (c.drop (j + pat.length))).1 ++ [x],
            (rest fold pat rep all (c.drop (j + pat.length))).2) := by
        unfold rest
        split
        · exact ih _ (by rw [List.length_drop]; omega) _ rfl
        · rfl
      rw [replace_some hpat hl, replace_some hpat ((leftmost_concat hx hpat c).trans hl),
        List.drop_append_of_le_length (by omega), List.take_append_of_le_length (by omega), hrest]
      simp only [List.append_assoc]

end Replace
