import Mathlib.Algebra.Order.Ring.Int
import Mathlib.Data.List.Basic
import Mathlib.Logic.Function.Iterate
import Mathlib.Tactic.Linarith
import Ewokos.Lib.Cells

/-!
# Columns behind tabs and spaces

A tab goes to the next multiple of the tab width, a space one column on.

* `iterate_tab` — tabs from column 0 on.
* `tabs_spaces` — as many tabs as fit, and spaces, come to any column.
* `memset_eq_memcpy`, `store_eq_memcpy`, `memcpy_append` — runs of one value written one behind the other.
* `slice_shift` — cells moved one place on, and a value stored in front of them.
-/

set_option autoImplicit false

namespace Columns

/-- The column behind a tab at column `co`. -/
def tab (w co : Int) : Int := co + (w - 1 - co % w) + 1

theorem tab_eq (w co : Int) : tab w co = (co / w + 1) * w := by
  have h := Int.mul_ediv_add_emod co w
  unfold tab
  linarith

theorem lt_tab {w : Int} (hw : 0 < w) (co : Int) : co < tab w co := by
  have h := Int.emod_lt_of_pos co hw
  unfold tab
  omega

theorem iterate_tab {w : Int} (hw : 0 < w) (n : Nat) : (tab w)^[n] 0 = n * w := by
  induction n with
  | zero => simp
  | succ n ih =>
    rw [Function.iterate_succ_apply', ih, tab_eq, Int.mul_ediv_cancel _ (by omega)]
    push_cast
    rfl

/-- The tabs that fit in front of a column, and the spaces behind them. -/
theorem tabs_spaces {w k : Int} (hw : 0 < w) (hk : 0 ≤ k) :
    (tab w)^[(k / w).toNat] 0 + k % w = k := by
  have hdiv := Int.ediv_nonneg hk (by omega : 0 ≤ w)
  rw [iterate_tab hw, Int.toNat_of_nonneg hdiv, Int.mul_comm]
  exact Int.mul_ediv_add_emod k w

end Columns

namespace Cells

variable {α : Type}

theorem memset_eq_memcpy (m : Memory α) (p : Int) (v : α) (n : Int) :
    memset m p v n = memcpy m p (List.replicate n.toNat v) := by
  funext i
  unfold memset memcpy
  by_cases h : p ≤ i ∧ i < p + n
  · rw [if_pos h, if_pos h.1, List.getElem?_replicate_of_lt (by omega)]
    rfl
  · rw [if_neg h]
    split
    · rw [List.getElem?_eq_none (by simp; omega)]
      rfl
    · rfl

theorem memcpy_nil (m : Memory α) (p : Int) : memcpy m p [] = m := by
  funext i
  simp [memcpy]

theorem store_eq_memcpy (m : Memory α) (p : Int) (v : α) : store m p v = memcpy m p [v] := by
  funext i
  by_cases h : i = p
  · subst h
    have hin := memcpy_in m i [v] 0 (by simp)
    rw [Nat.cast_zero, Int.add_zero] at hin
    rw [store_same, hin]
    rfl
  · rw [store_ne m v h, memcpy_out m [v] (by rw [List.length_singleton]; omega)]

theorem memcpy_append (m : Memory α) (p : Int) (a b : List α) :
    memcpy (memcpy m p a) (p + a.length) b = memcpy m p (a ++ b) := by
  funext i
  unfold memcpy
  by_cases h : p + a.length ≤ i
  · rw [if_pos h, if_pos (by omega), if_pos (by omega), List.getElem?_append_right (by omega),
      List.getElem?_eq_none (l := a) (by omega),
      show (i - (p + a.length)).toNat = (i - p).toNat - a.length by omega]
    rfl
  · rw [if_neg h]
    split
    · rw [List.getElem?_append_left (by omega)]
    · rfl

/-- `d` cells moved one place on, and `v` in front of them: the cell behind them is lost. -/
theorem slice_shift (m : Memory α) (p : Int) {a d n : Nat} (h : a + d + 1 ≤ n) (v : α) :
    slice (store (memmove m (p + a + 1) (p + a) d) (p + a) v) p n =
      (slice m p n).take a ++ v :: ((slice m p n).drop a).take d ++
        (slice m p n).drop (a + d + 1) := by
  obtain ⟨r, rfl⟩ : ∃ r, n = a + (1 + (d + r)) := ⟨n - (a + d + 1), by omega⟩
  have hfront : slice (store (memmove m (p + a + 1) (p + a) d) (p + a) v) p a = slice m p a := by
    refine slice_congr fun i hi => ?_
    rw [store_ne _ _ (by omega), memmove_out _ (by omega)]
  have hmoved : slice (store (memmove m (p + a + 1) (p + a) d) (p + a) v) (p + a + 1) d =
      slice m (p + a) d := by
    refine slice_congr fun i hi => ?_
    rw [store_ne _ _ (by omega), memmove_in _ (by omega)]
    congr 1
    omega
  have hbehind : slice (store (memmove m (p + a + 1) (p + a) d) (p + a) v) (p + a + 1 + d) r =
      slice m (p + a + 1 + d) r := by
    refine slice_congr fun i hi => ?_
    rw [store_ne _ _ (by omega), memmove_out _ (by omega)]
  have hplace : p + (a : Int) + ((1 : Nat) : Int) = p + a + 1 := by omega
  have hrest : p + ((a + d + 1 : Nat) : Int) = p + a + 1 + d := by push_cast; omega
  rw [take_slice _ _ (by omega), drop_slice _ _ (by omega), drop_slice _ _ (by omega),
    take_slice _ _ (by omega), slice_add, slice_add, slice_add, hfront, hplace, hmoved, hbehind,
    hrest, show a + (1 + (d + r)) - (a + d + 1) = r by omega, slice_succ, slice_zero, store_same]
  simp

end Cells
