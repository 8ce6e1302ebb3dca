import Ewokos.Lib.Slots

/-!
# Binary heaps in an array

`n` cells of an array, cell `i` with the children `2 * i + 1` and `2 * i + 2`, kept in the order of
a comparison with a sign, as C comparison functions have it.

* `Comparator S cmp` — what a comparison function must do on the elements of `S`.
* `Ordered` — no cell comes before its parent; `Ordered.least` — so none comes before the first.
* `bubbleUp`, `pushDown` — exchange a cell with its parent, or with its first child, until the
  order is right; `bubbleUp_ordered`, `pushDown_ordered`.
* `bubbleUp_perm`, `pushDown_perm` — both only move the cells.
-/

set_option autoImplicit false

namespace Heap

open Slots

variable {α : Type} {S : α → Prop} {cmp : α → α → Int} {n : Nat} {t : Nat → α}

/-- A comparison function that orders the elements of `S`. -/
structure Comparator (S : α → Prop) (cmp : α → α → Int) : Prop where
  swap : ∀ a b, S a → S b → (cmp a b ≤ 0 ↔ 0 ≤ cmp b a)
  trans : ∀ a b c, S a → S b → S c → cmp a b ≤ 0 → cmp b c ≤ 0 → cmp a c ≤ 0

theorem Comparator.total (h : Comparator S cmp) {a b : α} (ha : S a) (hb : S b)
    (hlt : ¬cmp a b ≤ 0) : cmp b a ≤ 0 :=
  (h.swap b a hb ha).mpr (by omega)

theorem Comparator.refl (h : Comparator S cmp) {a : α} (ha : S a) : cmp a a ≤ 0 := by
  by_contra hlt
  exact hlt (h.total ha ha hlt)

def parent (i : Nat) : Nat := (i - 1) / 2

theorem parent_lt {i : Nat} (h : 0 < i) : parent i < i := by
  unfold parent
  omega

/-- No cell comes before its parent. -/
def Ordered (cmp : α → α → Int) (n : Nat) (t : Nat → α) : Prop :=
  ∀ i, 0 < i → i < n → cmp (t (parent i)) (t i) ≤ 0

/-- The first cell comes before every cell. -/
theorem Ordered.least (hc : Comparator S cmp) (hS : ∀ i < n, S (t i)) (h : Ordered cmp n t)
    {i : Nat} (hi : i < n) : cmp (t 0) (t i) ≤ 0 := by
  induction i using Nat.strong_induction_on with
  | _ i ih =>
    by_cases h0 : i = 0
    · subst h0
      exact hc.refl (hS 0 hi)
    · have hpos : 0 < i := by omega
      have hp := parent_lt hpos
      have hle := ih (parent i) hp (by omega)
      exact hc.trans _ _ _ (hS 0 (by omega)) (hS _ (by omega)) (hS i hi) hle (h i hpos hi)

/-! ## Up -/

/-- Exchange the cell `ix` with its parent as long as it comes before it. -/
def bubbleUp (cmp : α → α → Int) : Nat → Nat → (Nat → α) → (Nat → α)
  | 0, _, t => t
  | fuel + 1, ix, t =>
    if ix = 0 then t
    else if cmp (t (parent ix)) (t ix) ≤ 0 then t
    else bubbleUp cmp fuel (parent ix) (exchange t (parent ix) ix)

theorem bubbleUp_perm {fuel ix : Nat} (h : ix < n) :
    (cells n (bubbleUp cmp fuel ix t)).Perm (cells n t) := by
  induction fuel generalizing ix t with
  | zero => exact .refl _
  | succ fuel ih =>
    rw [bubbleUp]
    split
    · exact .refl _
    · rename_i h0
      split
      · exact .refl _
      · have hp := parent_lt (Nat.pos_of_ne_zero h0)
        exact (ih (by omega)).trans (cells_exchange (by omega) h)

/-- The order is right but for the cell `ix`, which may come before its parent. -/
structure UpTo (cmp : α → α → Int) (n : Nat) (t : Nat → α) (ix : Nat) : Prop where
  others : ∀ i, 0 < i → i < n → i ≠ ix → cmp (t (parent i)) (t i) ≤ 0
  across : 0 < ix → ∀ i, i < n → 0 < i → parent i = ix → cmp (t (parent ix)) (t i) ≤ 0

theorem UpTo.step (hc : Comparator S cmp) (hS : ∀ i < n, S (t i)) {ix : Nat} (h : UpTo cmp n t ix)
    (hix : ix < n) (h0 : 0 < ix) (hlt : ¬cmp (t (parent ix)) (t ix) ≤ 0) :
    UpTo cmp n (exchange t (parent ix) ix) (parent ix) := by
  have hp := parent_lt h0
  have hle := hc.total (hS _ (by omega)) (hS ix hix) hlt
  constructor
  · intro i hi0 hi hne
    have hip := parent_lt hi0
    by_cases hi' : i = ix
    · subst hi'
      rw [exchange_left, exchange_right]
      exact hle
    · rw [exchange_of_ne hne hi']
      by_cases hpi : parent i = ix
      · rw [hpi, exchange_right]
        exact h.across h0 i hi hi0 hpi
      · by_cases hpp : parent i = parent ix
        · rw [hpp, exchange_left]
          have := h.others i hi0 hi hi'
          rw [hpp] at this
          exact hc.trans _ _ _ (hS ix hix) (hS _ (by omega)) (hS i hi) hle this
        · rw [exchange_of_ne hpp hpi]
          exact h.others i hi0 hi hi'
  · intro hp0 i hi hi0 hpar
    have hpp := parent_lt hp0
    rw [exchange_of_ne (show parent (parent ix) ≠ parent ix by omega)
      (show parent (parent ix) ≠ ix by omega)]
    have hup := h.others (parent ix) hp0 (by omega) (by omega)
    by_cases hi' : i = ix
    · subst hi'
      rw [exchange_right]
      exact hup
    · have hne : i ≠ parent ix := by
        have := parent_lt hi0
        omega
      rw [exchange_of_ne hne hi']
      have hstep := h.others i hi0 hi hi'
      rw [hpar] at hstep
      exact hc.trans _ _ _ (hS _ (by omega)) (hS _ (by omega)) (hS i hi) hup hstep

theorem bubbleUp_ordered (hc : Comparator S cmp) {fuel ix : Nat} (hS : ∀ i < n, S (t i))
    (h : UpTo cmp n t ix) (hix : ix < n) (hf : ix ≤ fuel) :
    Ordered cmp n (bubbleUp cmp fuel ix t) := by
  induction fuel generalizing ix t with
  | zero =>
    intro i hi0 hi
    exact h.others i hi0 hi (by omega)
  | succ fuel ih =>
    rw [bubbleUp]
    split
    · intro i hi0 hi
      exact h.others i hi0 hi (by omega)
    · rename_i h0
      have h0 := Nat.pos_of_ne_zero h0
      have hp := parent_lt h0
      split
      · rename_i hle
        intro i hi0 hi
        by_cases hi' : i = ix
        · subst hi'
          exact hle
        · exact h.others i hi0 hi hi'
      · rename_i hlt
        refine ih ?_ (h.step hc hS hix h0 hlt) (by omega) (by omega)
        intro i hi
        obtain ⟨j, hj, he⟩ := mem_cells.mp
          ((cells_exchange (t := t) (show parent ix < n by omega) hix).mem_iff.mp
            (mem_cells.mpr ⟨i, hi, rfl⟩))
        exact he ▸ hS j hj

/-! ## Down -/

/-- The child of `ix` that the loop looks at: the right one if the left one does not come before
it. -/
def child (cmp : α → α → Int) (n ix : Nat) (t : Nat → α) : Nat :=
  if ix * 2 + 2 < n ∧ 0 ≤ cmp (t (ix * 2 + 1)) (t (ix * 2 + 2)) then ix * 2 + 2 else ix * 2 + 1

/-- Exchange the cell `ix` with its child as long as the child comes before it. -/
def pushDown (cmp : α → α → Int) (n : Nat) : Nat → Nat → (Nat → α) → (Nat → α)
  | 0, _, t => t
  | fuel + 1, ix, t =>
    if ix * 2 + 1 < n then
      if cmp (t ix) (t (child cmp n ix t)) ≤ 0 then t
      else pushDown cmp n fuel (child cmp n ix t) (exchange t (child cmp n ix t) ix)
    else t

theorem child_bounds {ix : Nat} (h : ix * 2 + 1 < n) :
    ix < child cmp n ix t ∧ child cmp n ix t < n ∧ parent (child cmp n ix t) = ix := by
  unfold child parent
  split
  · rename_i hc
    omega
  · omega

theorem pushDown_perm (fuel : Nat) {ix : Nat} :
    (cells n (pushDown cmp n fuel ix t)).Perm (cells n t) := by
  induction fuel generalizing ix t with
  | zero => exact .refl _
  | succ fuel ih =>
    rw [pushDown]
    split
    · rename_i h
      split
      · exact .refl _
      · obtain ⟨hlt, hn, -⟩ := child_bounds (t := t) h
        exact ih.trans (cells_exchange hn (by omega))
    · exact .refl _

/-- The order is right but for the children of `ix`, which may come before it. -/
structure DownTo (cmp : α → α → Int) (n : Nat) (t : Nat → α) (ix : Nat) : Prop where
  others : ∀ i, 0 < i → i < n → parent i ≠ ix → cmp (t (parent i)) (t i) ≤ 0
  across : 0 < ix → ∀ i, i < n → 0 < i → parent i = ix → cmp (t (parent ix)) (t i) ≤ 0

/-- The child the loop looks at comes before the other one. -/
theorem child_least (hc : Comparator S cmp) (hS : ∀ i < n, S (t i)) {ix i : Nat} (hi0 : 0 < i)
    (hi : i < n) (hp : parent i = ix) : cmp (t (child cmp n ix t)) (t i) ≤ 0 := by
  have hcases : i = ix * 2 + 1 ∨ i = ix * 2 + 2 := by
    unfold parent at hp
    omega
  unfold child
  split
  · rename_i hr
    obtain rfl | rfl := hcases
    · exact (hc.swap _ _ (hS _ hr.1) (hS _ (by omega))).mpr hr.2
    · exact hc.refl (hS _ hr.1)
  · rename_i hr
    obtain rfl | rfl := hcases
    · exact hc.refl (hS _ hi)
    · have hneg : ¬0 ≤ cmp (t (ix * 2 + 1)) (t (ix * 2 + 2)) := fun h => hr ⟨hi, h⟩
      omega

theorem DownTo.step (hc : Comparator S cmp) (hS : ∀ i < n, S (t i)) {ix : Nat}
    (h : DownTo cmp n t ix) (hix : ix * 2 + 1 < n)
    (hlt : ¬cmp (t ix) (t (child cmp n ix t)) ≤ 0) :
    DownTo cmp n (exchange t (child cmp n ix t) ix) (child cmp n ix t) := by
  obtain ⟨hgt, hn, hpc⟩ := child_bounds (t := t) hix
  have hleast : ∀ i, 0 < i → i < n → parent i = ix → cmp (t (child cmp n ix t)) (t i) ≤ 0 :=
    fun i hi0 hi hp => child_least hc hS hi0 hi hp
  generalize hcd : child cmp n ix t = c at *
  have hle := hc.total (hS ix (by omega)) (hS c hn) hlt
  constructor
  · intro i hi0 hi hne
    have hip := parent_lt hi0
    by_cases hi' : i = c
    · subst hi'
      rw [hpc, exchange_right, exchange_left]
      exact hle
    · by_cases hix' : i = ix
      · subst hix'
        rw [exchange_right, exchange_of_ne (show parent i ≠ c by omega) (by omega)]
        exact h.across hi0 c hn (by omega) hpc
      · rw [exchange_of_ne hi' hix']
        by_cases hpi : parent i = ix
        · rw [hpi, exchange_right]
          exact hleast i hi0 hi hpi
        · rw [exchange_of_ne hne hpi]
          exact h.others i hi0 hi hpi
  · intro _ i hi hi0 hpar
    have hip := parent_lt hi0
    rw [hpc, exchange_right, exchange_of_ne (show i ≠ c by omega) (show i ≠ ix by omega)]
    have hstep := h.others i hi0 hi (by omega)
    rwa [hpar] at hstep

theorem pushDown_ordered (hc : Comparator S cmp) {fuel ix : Nat} (hS : ∀ i < n, S (t i))
    (h : DownTo cmp n t ix) (hf : n ≤ ix + fuel) : Ordered cmp n (pushDown cmp n fuel ix t) := by
  induction fuel generalizing ix t with
  | zero =>
    intro i hi0 hi
    have hip := parent_lt hi0
    exact h.others i hi0 hi (by omega)
  | succ fuel ih =>
    rw [pushDown]
    split
    · rename_i hix
      obtain ⟨hgt, hn, hpc⟩ := child_bounds (t := t) hix
      split
      · rename_i hle
        intro i hi0 hi
        by_cases hpi : parent i = ix
        · rw [hpi]
          exact hc.trans _ _ _ (hS ix (by omega)) (hS _ hn) (hS i hi) hle
            (child_least hc hS hi0 hi hpi)
        · exact h.others i hi0 hi hpi
      · rename_i hlt
        refine ih ?_ (h.step hc hS hix hlt) (by omega)
        intro i hi
        obtain ⟨j, hj, he⟩ := mem_cells.mp
          ((cells_exchange (t := t) hn (show ix < n by omega)).mem_iff.mp
            (mem_cells.mpr ⟨i, hi, rfl⟩))
        exact he ▸ hS j hj
    · rename_i hix
      intro i hi0 hi
      refine h.others i hi0 hi ?_
      unfold parent
      omega

end Heap
