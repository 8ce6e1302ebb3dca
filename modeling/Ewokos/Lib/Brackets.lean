import Mathlib

/-!
# Matching brackets

One kind of brackets in a list: `c` opens a level and `m` closes it, everything else is passed over.

* `closing_eq_some_iff`, `closing_eq_none_iff` — counting levels finds the first prefix in which the
  two are balanced.
* `closing_reverse` — going back from there, with the two exchanged, leads to the start.
-/

set_option autoImplicit false

namespace Brackets

variable {α : Type} [DecidableEq α] {c m : α} {level k : Nat} {l : List α}

/-- The position of the bracket that closes the outermost of `level` open levels. -/
def closing (c m : α) : Nat → List α → Option Nat
  | _, [] => none
  | level, x :: l =>
    let level := if x = c then level + 1 else level
    if x = m then
      if level - 1 = 0 then some 0 else (closing c m (level - 1) l).map (· + 1)
    else (closing c m level l).map (· + 1)

/-- All levels are closed behind `l`. -/
def Balances (c m : α) (level : Nat) (l : List α) : Prop := level + l.count c = l.count m

/-- They are for the first time behind position `k`. -/
structure First (c m : α) (level : Nat) (l : List α) (k : Nat) : Prop where
  lt : k < l.length
  here : Balances c m level (l.take (k + 1))
  before : ∀ j < k, ¬Balances c m level (l.take (j + 1))

theorem balances_cons {x : α} {n : Nat}
    (h : level + (if x = c then 1 else 0) = n + if x = m then 1 else 0) :
    Balances c m level (x :: l) ↔ Balances c m n l := by
  unfold Balances
  rw [List.count_cons, List.count_cons]
  simp only [beq_iff_eq]
  omega

/-- The levels behind a byte that closes none of them for good. -/
theorem first_cons {x : α} {n : Nat} (hn : 0 < n)
    (h : level + (if x = c then 1 else 0) = n + if x = m then 1 else 0) :
    First c m level (x :: l) k ↔ ∃ j, k = j + 1 ∧ First c m n l j := by
  have hopen : ¬Balances c m level [x] := by
    rw [balances_cons h]
    unfold Balances
    rw [List.count_nil, List.count_nil]
    omega
  constructor
  · rintro ⟨hlt, hhere, hbefore⟩
    cases k with
    | zero => exact absurd hhere hopen
    | succ k =>
      refine ⟨k, rfl, Nat.lt_of_succ_lt_succ hlt, (balances_cons h).mp hhere, fun j hj hb => ?_⟩
      exact hbefore (j + 1) (Nat.succ_lt_succ hj) ((balances_cons h).mpr hb)
  · rintro ⟨j, rfl, hlt, hhere, hbefore⟩
    refine ⟨Nat.succ_lt_succ hlt, (balances_cons h).mpr hhere, fun i hi hb => ?_⟩
    cases i with
    | zero => exact hopen hb
    | succ i => exact hbefore i (Nat.lt_of_succ_lt_succ hi) ((balances_cons h).mp hb)

theorem closing_eq_some_iff (hcm : c ≠ m) : ∀ (l : List α) {level k : Nat}, 0 < level →
    (closing c m level l = some k ↔ First c m level l k)
  | [], level, k, _ =>
    iff_of_false (by simp [closing]) fun h => absurd h.lt (Nat.not_lt_zero k)
  | x :: l, level, k, hl => by
    have shift (n : Nat) (hn : 0 < n)
        (h : level + (if x = c then 1 else 0) = n + if x = m then 1 else 0) :
        (closing c m n l).map (· + 1) = some k ↔ First c m level (x :: l) k := by
      rw [first_cons hn h, Option.map_eq_some_iff]
      refine exists_congr fun j => ?_
      rw [closing_eq_some_iff hcm l hn, eq_comm (a := k), and_comm]
    unfold closing
    dsimp only
    by_cases hm : x = m
    · have hc : ¬x = c := fun hc => hcm (hc.symm.trans hm)
      rw [if_pos hm, if_neg hc]
      by_cases hone : level = 1
      · subst hone
        rw [if_pos rfl, Option.some.injEq]
        have hfirst : Balances c m 1 [x] := by
          unfold Balances
          simp [hm, hcm.symm]
        constructor
        · rintro rfl
          exact ⟨Nat.succ_pos _, hfirst, fun j hj => absurd hj (Nat.not_lt_zero j)⟩
        · intro h
          by_contra hne
          exact h.before 0 (by omega) hfirst
      · rw [if_neg (by omega)]
        refine shift (level - 1) (by omega) ?_
        rw [if_pos hm, if_neg hc]
        omega
    · rw [if_neg hm]
      refine shift _ (by split <;> omega) ?_
      rw [if_neg hm]
      split <;> rfl

theorem closing_eq_none_iff (hcm : c ≠ m) (hl : 0 < level) :
    closing c m level l = none ↔ ∀ k < l.length, ¬Balances c m level (l.take (k + 1)) := by
  constructor
  · intro h k hk hb
    classical
    have hex : ∃ j, j < l.length ∧ Balances c m level (l.take (j + 1)) := ⟨k, hk, hb⟩
    obtain ⟨hj, hbj⟩ := Nat.find_spec hex
    have hfirst : First c m level l (Nat.find hex) :=
      ⟨hj, hbj, fun i hi hbi => Nat.find_min hex hi ⟨Nat.lt_trans hi hj, hbi⟩⟩
    rw [(closing_eq_some_iff hcm l hl).mpr hfirst] at h
    cases h
  · intro h
    by_contra hne
    obtain ⟨k, hk⟩ := Option.ne_none_iff_exists'.mp hne
    have hfirst := (closing_eq_some_iff hcm l hl).mp hk
    exact h k hfirst.lt hfirst.here

namespace First

/-- Up to there some level is open. -/
theorem isOpen (h : First c m level l k) (hl : 0 < level) :
    ∀ j ≤ k, (l.take j).count m < level + (l.take j).count c
  | 0, _ => by simpa using hl
  | j + 1, hj => by
    have ih := h.isOpen hl j (by omega)
    have hlt := h.lt
    have hne := h.before j (by omega)
    unfold Balances at hne
    have hm : (l.take (j + 1)).count m ≤ (l.take j).count m + 1 := by
      rw [List.take_succ_eq_append_getElem (by omega), List.count_append]
      have := List.count_le_length (a := m) (l := [l[j]])
      simp only [List.length_singleton] at this
      omega
    have hc : (l.take j).count c ≤ (l.take (j + 1)).count c :=
      (List.take_prefix_take_left (Nat.le_succ j)).sublist.count_le c
    omega

/-- The closing bracket itself, and the balance in front of it. -/
theorem closes (h : First c m 1 l k) (hcm : c ≠ m) :
    l.get ⟨k, h.lt⟩ = m ∧ (l.take k).count m = (l.take k).count c := by
  have hlt := h.lt
  have hhere := h.here
  have hopen := h.isOpen Nat.one_pos k (Nat.le_refl k)
  unfold Balances at hhere
  rw [List.take_succ_eq_append_getElem h.lt, List.count_append, List.count_append,
    List.count_singleton, List.count_singleton] at hhere
  simp only [beq_iff_eq] at hhere
  rw [List.get_eq_getElem]
  by_cases hm : l[k] = m
  · have hc : ¬l[k] = c := fun hc => hcm (hc.symm.trans hm)
    rw [if_pos hm, if_neg hc] at hhere
    exact ⟨hm, by omega⟩
  · rw [if_neg hm] at hhere
    omega

/-- Going back from the closing bracket, the opening one closes. -/
theorem reverse (h : First c m 1 l k) (hcm : c ≠ m) (r : List α) :
    First m c 1 ((l.take k).reverse ++ c :: r) k := by
  obtain ⟨-, hbal⟩ := h.closes hcm
  have hlt := h.lt
  have hlen : (l.take k).reverse.length = k := by
    rw [List.length_reverse, List.length_take]
    omega
  refine ⟨by simp [hlen], ?_, fun j hj hb => ?_⟩
  · rw [List.take_append, hlen, List.take_of_length_le (by omega), show k + 1 - k = 1 by omega]
    unfold Balances
    rw [List.count_append, List.count_append, List.count_reverse, List.count_reverse]
    simp [hcm]
    omega
  · -- what comes after the first `i` bytes would close a level that the first `i` leave open
    obtain ⟨i, hi⟩ : ∃ i, k = i + (j + 1) := ⟨k - (j + 1), by omega⟩
    have hopen := h.isOpen Nat.one_pos i (by omega)
    have hdrop : ((l.take k).reverse ++ c :: r).take (j + 1) = ((l.take k).drop i).reverse := by
      rw [List.take_append_of_le_length (by omega), List.take_reverse, List.length_take]
      congr 2
      omega
    have hsplit (x : α) : (l.take i).count x + ((l.take k).drop i).count x = (l.take k).count x := by
      have htake : l.take i = (l.take k).take i := by
        rw [List.take_take, Nat.min_eq_left (by omega)]
      rw [htake, ← List.count_append, List.take_append_drop]
    have hc := hsplit c
    have hm := hsplit m
    rw [hdrop] at hb
    unfold Balances at hb
    rw [List.count_reverse, List.count_reverse] at hb
    omega

end First

/-- Going back from there leads to the start. -/
theorem closing_reverse (hcm : c ≠ m) (h : closing c m 1 l = some k) (r : List α) :
    closing m c 1 ((l.take k).reverse ++ c :: r) = some k :=
  (closing_eq_some_iff hcm.symm _ Nat.one_pos).mpr
    (((closing_eq_some_iff hcm l Nat.one_pos).mp h).reverse hcm r)

end Brackets
