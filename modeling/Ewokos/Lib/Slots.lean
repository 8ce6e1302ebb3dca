import Mathlib

/-!
# Arrays as functions

The first `n` slots of an array, in order.

* `cells` — their contents; `cells_succ`, `cells_congr`, `mem_cells`, `cells_prefix`.
* `cells_snoc`, `cells_update_mid` — a store behind them, and one among them.
* `exchange` — two slots exchanged; `cells_exchange` — the contents are the same up to order.
-/

set_option autoImplicit false

namespace Slots

variable {α : Type} {n : Nat} {t : Nat → α}

/-- The contents of the first `n` slots. -/
def cells (n : Nat) (t : Nat → α) : List α := (List.range n).map t

@[simp] theorem length_cells : (cells n t).length = n := by simp [cells]

theorem cells_succ : cells (n + 1) t = cells n t ++ [t n] := by simp [cells, List.range_succ]

theorem mem_cells {a : α} : a ∈ cells n t ↔ ∃ i < n, t i = a := by simp [cells]

theorem cells_congr {t' : Nat → α} (h : ∀ i < n, t' i = t i) : cells n t' = cells n t := by
  unfold cells
  refine List.map_congr_left ?_
  intro i hi
  exact h i (List.mem_range.mp hi)

/-- Fewer slots hold the front of the contents. -/
theorem cells_prefix {l l' : List α} (h : cells n t = l ++ l') : cells l.length t = l := by
  have hlen : l.length ≤ n := by
    have := congrArg List.length h
    simp at this
    omega
  have := congrArg (List.take l.length) h
  rwa [List.take_left, cells, ← List.map_take, List.take_range, Nat.min_eq_left hlen] at this

theorem cells_snoc (x : α) : cells (n + 1) (Function.update t n x) = cells n t ++ [x] := by
  rw [cells_succ, Function.update_self, cells_congr fun i hi => Function.update_of_ne hi.ne x t]

theorem cells_update_mid {l l' : List α} {x : α} (h : cells n t = l ++ x :: l') (y : α) :
    cells n (Function.update t l.length y) = l ++ y :: l' := by
  have hset : cells n (Function.update t l.length y) = (cells n t).set l.length y := by
    refine List.ext_getElem (by simp) fun i hi hi' => ?_
    simp only [cells, List.getElem_map, List.getElem_range, List.getElem_set,
      Function.update_apply, eq_comm]
  rw [hset, h, List.set_append_right _ _ (le_refl _), Nat.sub_self, List.set_cons_zero]

/-- `SWAP(t[i], t[j])`. -/
def exchange (t : Nat → α) (i j : Nat) : Nat → α :=
  Function.update (Function.update t i (t j)) j (t i)

theorem exchange_eq (t : Nat → α) (i j : Nat) : exchange t i j = t ∘ Equiv.swap i j := by
  funext k
  unfold exchange
  by_cases hj : k = j
  · subst hj
    simp
  · by_cases hi : k = i
    · subst hi
      simp [Function.update_of_ne hj]
    · simp [Function.update_of_ne hj, Function.update_of_ne hi,
        Equiv.swap_apply_of_ne_of_ne hi hj]

theorem exchange_left {i j : Nat} : exchange t i j i = t j := by simp [exchange_eq]

theorem exchange_right {i j : Nat} : exchange t i j j = t i := by simp [exchange_eq]

theorem exchange_of_ne {i j k : Nat} (hi : k ≠ i) (hj : k ≠ j) : exchange t i j k = t k := by
  simp [exchange_eq, Equiv.swap_apply_of_ne_of_ne hi hj]

theorem cells_exchange {i j : Nat} (hi : i < n) (hj : j < n) :
    (cells n (exchange t i j)).Perm (cells n t) := by
  have hlt : ∀ m, m < n → Equiv.swap i j m < n := by
    intro m hm
    rw [Equiv.swap_apply_def]
    split
    · exact hj
    · split
      · exact hi
      · exact hm
  have hperm : ((List.range n).map (Equiv.swap i j)).Perm (List.range n) := by
    refine (List.perm_ext_iff_of_nodup ?_ List.nodup_range).mpr ?_
    · exact List.nodup_range.map (Equiv.swap i j).injective
    · intro k
      constructor
      · intro hk
        obtain ⟨m, hm, rfl⟩ := List.mem_map.mp hk
        exact List.mem_range.mpr (hlt m (List.mem_range.mp hm))
      · intro hk
        exact List.mem_map.mpr ⟨Equiv.swap i j k, by simpa using hlt k (by simpa using hk), by simp⟩
  unfold cells
  rw [exchange_eq, ← List.map_map]
  exact hperm.map t

end Slots
