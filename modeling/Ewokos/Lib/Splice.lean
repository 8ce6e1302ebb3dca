import Ewokos.Lib.Runs

/-!
# Pieces put between the runs of a list

Lists are cut behind every separator.  What happens to the pieces when copies of another list are
put between two of them depends on what is closed, that is empty or ended by a separator.

* `runs_append` — behind a closed list the runs start afresh.
* `length_runs_closed` — the number of runs, for any list.
* `texts_between_iff`, `texts_behind_open_iff` — when the pieces of both lists survive.
-/

set_option autoImplicit false

namespace Runs

variable {α : Type} [DecidableEq α] {sep : α} {a b x : List α}

/-- Empty, or ended by a separator. -/
def Closed (sep : α) (l : List α) : Prop := l = [] ∨ l.getLast? = some sep

instance (sep : α) (l : List α) : Decidable (Closed sep l) :=
  inferInstanceAs (Decidable (l = [] ∨ l.getLast? = some sep))

/-- The pieces of a list, without the separators. -/
def texts (sep : α) (l : List α) : List (List α) := (runs sep l).map fun r => r.takeWhile (· ≠ sep)

theorem length_texts (sep : α) (l : List α) : (texts sep l).length = (runs sep l).length := by
  simp [texts]

omit [DecidableEq α] in
theorem Closed.append (ha : Closed sep a) (hb : Closed sep b) : Closed sep (a ++ b) := by
  rcases hb with rfl | hb
  · simpa using ha
  · exact .inr (by rw [List.getLast?_append, hb]; rfl)

omit [DecidableEq α] in
theorem Closed.tail {c : α} (h : Closed sep (c :: a)) : Closed sep a := by
  cases a with
  | nil => exact .inl rfl
  | cons d a =>
    have hlast := h.resolve_left (List.cons_ne_nil _ _)
    rw [List.getLast?_cons_cons] at hlast
    exact .inr hlast

omit [DecidableEq α] in
theorem closed_append_iff (hb : b ≠ []) : Closed sep (a ++ b) ↔ Closed sep b := by
  unfold Closed
  rw [List.getLast?_append_of_ne_nil _ hb]
  simp [hb]

/-- Behind a closed list the runs start afresh. -/
theorem runs_append (ha : Closed sep a) : runs sep (a ++ b) = runs sep a ++ runs sep b := by
  induction a with
  | nil => rfl
  | cons c a ih =>
    have htail := ih ha.tail
    simp only [List.cons_append, runs]
    by_cases hc : c = sep
    · rw [if_pos hc, if_pos hc, htail, List.cons_append]
    · have hne : a ≠ [] := by
        rintro rfl
        exact hc (Option.some.inj (ha.resolve_left (List.cons_ne_nil _ _)))
      rw [if_neg hc, if_neg hc, htail]
      cases hr : runs sep a with
      | nil => exact absurd (runs_eq_nil.mp hr) hne
      | cons r rs => rfl

theorem texts_append (ha : Closed sep a) : texts sep (a ++ b) = texts sep a ++ texts sep b := by
  unfold texts
  rw [runs_append ha, List.map_append]

/-- As many runs as separators, and one more when the list is not closed. -/
theorem length_runs_closed (l : List α) :
    (runs sep l).length = l.count sep + if Closed sep l then 0 else 1 := by
  by_cases hl : l = []
  · subst hl
    rw [if_pos (.inl rfl)]
    rfl
  · obtain ⟨pre, c, rfl⟩ := (List.eq_nil_or_concat' l).resolve_left hl
    rw [length_runs sep hl, List.length_append, List.length_singleton, Nat.add_sub_cancel,
      List.take_left' rfl, List.count_append]
    by_cases hc : c = sep
    · rw [if_pos (.inr (by simp [hc])), hc, List.count_singleton_self]
    · rw [if_neg (by simp [Closed, hc]), List.count_singleton]
      simp [hc]

/-- The pieces in front of a cut behind a separator, and those behind it. -/
theorem texts_split {l : List α} {k : Nat} (h : Closed sep (l.take k)) :
    (texts sep l).take ((l.take k).count sep) = texts sep (l.take k) ∧
      (texts sep l).drop ((l.take k).count sep) = texts sep (l.drop k) := by
  have hlen : (texts sep (l.take k)).length = (l.take k).count sep := by
    rw [length_texts, length_runs_closed, if_pos h, Nat.add_zero]
  have hsplit : texts sep l = texts sep (l.take k) ++ texts sep (l.drop k) := by
    rw [← texts_append h, List.take_append_drop]
  rw [hsplit]
  exact ⟨List.take_left' hlen, List.drop_left' hlen⟩

/-- Copies of a list, one behind the other. -/
def copies (n : Nat) (x : List α) : List α := (List.replicate n x).flatten

omit [DecidableEq α] in
theorem copies_succ (n : Nat) (x : List α) : copies (n + 1) x = x ++ copies n x := by
  simp [copies, List.replicate_succ]

omit [DecidableEq α] in
/-- Copies tell lists apart where one begins the other. -/
theorem copies_inj_of_prefix {x y : List α} (hxy : x <+: y) {n : Nat} (hn : 1 ≤ n)
    (h : copies n x = copies n y) : x = y := by
  have hlen := congrArg List.length h
  unfold copies at hlen
  rw [List.length_flatten, List.length_flatten, List.map_replicate, List.map_replicate,
    List.sum_replicate, List.sum_replicate, smul_eq_mul, smul_eq_mul] at hlen
  exact hxy.eq_of_length (Nat.eq_of_mul_eq_mul_left hn hlen)

theorem count_copies (n : Nat) (x : List α) : (copies n x).count sep = n * x.count sep := by
  induction n with
  | zero => simp [copies]
  | succ n ih => rw [copies_succ, List.count_append, ih, Nat.succ_mul, Nat.add_comm]

omit [DecidableEq α] in
theorem closed_copies (n : Nat) (hx : Closed sep x) : Closed sep (copies n x) := by
  induction n with
  | zero => exact .inl rfl
  | succ n ih =>
    rw [copies_succ]
    exact hx.append ih

omit [DecidableEq α] in
theorem closed_copies_iff {n : Nat} (hn : 1 ≤ n) : Closed sep (copies n x) ↔ Closed sep x := by
  refine ⟨fun h => ?_, closed_copies n⟩
  by_cases hx : x = []
  · exact .inl hx
  · obtain ⟨m, rfl⟩ : ∃ m, n = m + 1 := ⟨n - 1, by omega⟩
    have hswap : copies (m + 1) x = copies m x ++ x := by
      simp [copies, List.replicate_succ']
    rw [hswap, closed_append_iff hx] at h
    exact h

theorem texts_copies (n : Nat) (hx : Closed sep x) :
    texts sep (copies n x) = (List.replicate n (texts sep x)).flatten := by
  induction n with
  | zero => rfl
  | succ n ih =>
    rw [copies_succ, texts_append hx, ih, List.replicate_succ, List.flatten_cons]

/-- The number of pieces when copies of `x` are put between `a` and `b`. -/
theorem length_texts_between (sep : α) (n : Nat) :
    (texts sep (a ++ copies n x ++ b)).length = a.count sep + n * x.count sep + b.count sep +
      if Closed sep (a ++ copies n x ++ b) then 0 else 1 := by
  rw [length_texts, length_runs_closed, List.count_append, List.count_append, count_copies]

theorem length_texts_apart (sep : α) (n : Nat) :
    (texts sep a ++ (List.replicate n (texts sep x)).flatten ++ texts sep b).length =
      (a.count sep + if Closed sep a then 0 else 1) +
        n * (x.count sep + if Closed sep x then 0 else 1) +
        (b.count sep + if Closed sep b then 0 else 1) := by
  have hcopies : (List.replicate n (texts sep x)).flatten.length =
      n * (x.count sep + if Closed sep x then 0 else 1) := by
    rw [List.length_flatten, List.map_replicate, List.sum_replicate, length_texts,
      length_runs_closed, smul_eq_mul]
  rw [List.length_append, List.length_append, hcopies, length_texts, length_texts,
    length_runs_closed, length_runs_closed]

/-- Copies of `x` between two runs keep all pieces apart when `x` is closed, and one copy at the
end does in any case. -/
theorem texts_between_iff {n : Nat} (hn : 1 ≤ n) (ha : Closed sep a) :
    texts sep (a ++ copies n x ++ b) =
        texts sep a ++ (List.replicate n (texts sep x)).flatten ++ texts sep b ↔
      Closed sep x ∨ n = 1 ∧ b = [] := by
  by_cases hx : Closed sep x
  · refine iff_of_true ?_ (.inl hx)
    rw [texts_append (ha.append (closed_copies n hx)), texts_append ha, texts_copies n hx]
  · by_cases hone : n = 1 ∧ b = []
    · refine iff_of_true ?_ (.inr hone)
      obtain ⟨rfl, rfl⟩ := hone
      have hcopy : copies 1 x = x := by simp [copies]
      have hnil : texts sep ([] : List α) = [] := rfl
      rw [hcopy, hnil, List.append_nil, texts_append ha]
      simp
    · refine iff_of_false (fun heq => ?_) (fun h => h.elim hx hone)
      have hlen := congrArg List.length heq
      rw [length_texts_between, length_texts_apart, if_pos ha, if_neg hx, Nat.mul_add] at hlen
      by_cases hb : b = []
      · subst hb
        have hopen : ¬ Closed sep (a ++ copies n x) := by
          intro h
          by_cases hnil : copies n x = []
          · exact hx ((closed_copies_iff hn).mp (.inl hnil))
          · exact hx ((closed_copies_iff hn).mp ((closed_append_iff hnil).mp h))
        rw [List.append_nil, if_neg hopen, if_pos (.inl rfl)] at hlen
        simp only [List.count_nil] at hlen
        exact hone ⟨by omega, rfl⟩
      · simp only [closed_append_iff hb] at hlen
        omega

/-- Behind a list that is not closed, only the empty list leaves the pieces alone. -/
theorem texts_behind_open_iff {n : Nat} (hn : 1 ≤ n) (ha : ¬ Closed sep a) :
    texts sep (a ++ copies n x) = texts sep a ++ (List.replicate n (texts sep x)).flatten ↔
      x = [] := by
  constructor
  · intro heq
    by_contra hx
    have hlen := congrArg List.length heq
    have h₁ := length_texts_between (a := a) (x := x) (b := []) sep n
    have h₂ := length_texts_apart (a := a) (x := x) (b := []) sep n
    have hnil : (texts sep ([] : List α)) = [] := rfl
    have hcopies : copies n x ≠ [] := by
      obtain ⟨m, rfl⟩ : ∃ m, n = m + 1 := ⟨n - 1, by omega⟩
      rw [copies_succ]
      simp [hx]
    simp only [List.append_nil, closed_append_iff hcopies, closed_copies_iff hn] at h₁
    rw [hnil, List.append_nil, if_neg ha, if_pos (show Closed sep ([] : List α) from .inl rfl)] at h₂
    simp only [List.count_nil] at h₁ h₂
    rw [heq, h₂] at h₁
    rw [Nat.mul_add] at h₁
    split at h₁ <;> omega
  · rintro rfl
    have hcopies : copies n ([] : List α) = [] := by simp [copies]
    rw [hcopies]
    simp [texts, runs]

end Runs
