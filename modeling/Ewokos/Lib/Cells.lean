import Mathlib

/-!
# Byte cells: slices of a flat memory

A memory is a function from addresses to values; a buffer is a range of it.

* `slice m p n` — the `n` values from address `p` on, as a list.
* `memmove`, `memset`, `memcpy` — the C block operations, as functions on memories.  A block of
  zero or negative length is empty.
* `memchr`, `memrchr` — first and last occurrence in a range.

Principal results: `slice_openGap`, `slice_closeGap`, `slice_memcpy` and `slice_store` describe
the slice of a buffer after a gap was opened, closed or overwritten, as `take` and `drop` of the
slice before.
-/

set_option autoImplicit false

namespace Cells

variable {α : Type}

/-- A flat memory. -/
abbrev Memory (α : Type) := Int → α

/-- The `n` values stored from address `p` on. -/
def slice (m : Memory α) (p : Int) (n : Nat) : List α :=
  (List.range n).map fun i : Nat => m (p + i)

@[simp] theorem length_slice (m : Memory α) (p : Int) (n : Nat) : (slice m p n).length = n := by
  simp [slice]

@[simp] theorem slice_zero (m : Memory α) (p : Int) : slice m p 0 = [] := rfl

theorem getElem_slice (m : Memory α) (p : Int) (n i : Nat) (h : i < (slice m p n).length) :
    (slice m p n)[i] = m (p + i) := by
  simp [slice]

theorem slice_congr {m m' : Memory α} {p p' : Int} {n : Nat}
    (h : ∀ i : Nat, i < n → m (p + i) = m' (p' + i)) : slice m p n = slice m' p' n := by
  apply List.ext_getElem
  · simp
  · intro i h₁ h₂
    rw [getElem_slice, getElem_slice]
    exact h i (by simpa using h₁)

theorem slice_add (m : Memory α) (p : Int) (a b : Nat) :
    slice m p (a + b) = slice m p a ++ slice m (p + a) b := by
  simp only [slice, List.range_add, List.map_append, List.map_map]
  congr 1
  apply List.map_congr_left
  intro i _
  simp [Int.add_assoc]

theorem slice_succ (m : Memory α) (p : Int) (n : Nat) :
    slice m p (n + 1) = m p :: slice m (p + 1) n := by
  rw [Nat.add_comm, slice_add]
  simp [slice]

theorem take_slice (m : Memory α) (p : Int) {k n : Nat} (h : k ≤ n) :
    (slice m p n).take k = slice m p k := by
  obtain ⟨r, rfl⟩ := Nat.exists_eq_add_of_le h
  rw [slice_add, List.take_append_of_le_length (by simp)]
  simp

theorem drop_slice (m : Memory α) (p : Int) {k n : Nat} (h : k ≤ n) :
    (slice m p n).drop k = slice m (p + k) (n - k) := by
  obtain ⟨r, rfl⟩ := Nat.exists_eq_add_of_le h
  rw [slice_add, List.drop_append_of_le_length (by simp), List.drop_of_length_le (by simp)]
  simp

theorem mem_slice {m : Memory α} {p : Int} {n : Nat} {x : α} :
    x ∈ slice m p n ↔ ∃ i : Nat, i < n ∧ m (p + i) = x := by
  simp [slice]

/-! ## Block operations -/

/-- `memmove(dst, src, n)`. -/
def memmove (m : Memory α) (dst src n : Int) : Memory α :=
  fun i => if dst ≤ i ∧ i < dst + n then m (i - dst + src) else m i

/-- `memset(p, v, n)`. -/
def memset (m : Memory α) (p : Int) (v : α) (n : Int) : Memory α :=
  fun i => if p ≤ i ∧ i < p + n then v else m i

/-- `memcpy(p, l, length of l)`. -/
def memcpy (m : Memory α) (p : Int) (l : List α) : Memory α :=
  fun i => if p ≤ i then (l[(i - p).toNat]?).getD (m i) else m i

/-- One store. -/
def store (m : Memory α) (p : Int) (v : α) : Memory α :=
  fun i => if i = p then v else m i

@[simp] theorem store_same (m : Memory α) (p : Int) (v : α) : store m p v p = v := by
  simp [store]

theorem store_ne (m : Memory α) {p i : Int} (v : α) (h : i ≠ p) : store m p v i = m i := by
  simp [store, h]

theorem memmove_in (m : Memory α) {dst src n i : Int} (h : dst ≤ i ∧ i < dst + n) :
    memmove m dst src n i = m (i - dst + src) := by
  simp [memmove, h]

theorem memmove_out (m : Memory α) {dst src n i : Int} (h : i < dst ∨ dst + n ≤ i) :
    memmove m dst src n i = m i := by
  have : ¬(dst ≤ i ∧ i < dst + n) := by omega
  simp [memmove, this]

theorem memset_in (m : Memory α) {p n i : Int} (v : α) (h : p ≤ i ∧ i < p + n) :
    memset m p v n i = v := by
  simp [memset, h]

theorem memset_out (m : Memory α) {p n i : Int} (v : α) (h : i < p ∨ p + n ≤ i) :
    memset m p v n i = m i := by
  have : ¬(p ≤ i ∧ i < p + n) := by omega
  simp [memset, this]

theorem memcpy_in (m : Memory α) (p : Int) (l : List α) (k : Nat) (h : k < l.length) :
    memcpy m p l (p + k) = l[k] := by
  simp [memcpy, h]

theorem memcpy_out (m : Memory α) {p i : Int} (l : List α) (h : i < p ∨ p + l.length ≤ i) :
    memcpy m p l i = m i := by
  unfold memcpy
  split
  · rw [List.getElem?_eq_none (by omega)]; rfl
  · rfl

/-- Opening a gap of `d` values `v` behind the `k`-th of `n` values. -/
theorem slice_openGap (m : Memory α) (p : Int) {k n : Nat} (d : Nat) (v : α) (h : k ≤ n) :
    slice (memset (memmove m (p + k + d) (p + k) (n - k)) (p + k) v d) p (n + d) =
      (slice m p n).take k ++ List.replicate d v ++ (slice m p n).drop k := by
  rw [take_slice m p h, drop_slice m p h, show n + d = k + d + (n - k) by omega, slice_add,
    slice_add]
  congr 1
  · congr 1
    · apply slice_congr
      intro i hi
      rw [memset_out _ v (by omega), memmove_out m (by omega)]
    · apply List.ext_getElem
      · simp
      · intro i h₁ h₂
        have hi : i < d := by simpa using h₁
        rw [getElem_slice, memset_in _ v (by omega), List.getElem_replicate]
  · apply slice_congr
    intro i hi
    rw [memset_out _ v (by omega), memmove_in m (by omega)]
    congr 1
    omega

/-- Closing a gap: `d` values behind the `k`-th of `n` values are dropped. -/
theorem slice_closeGap (m : Memory α) (p : Int) {k d n : Nat} (h : k + d ≤ n) :
    slice (memmove m (p + k) (p + k + d) (n - k - d)) p (n - d) =
      (slice m p n).take k ++ (slice m p n).drop (k + d) := by
  rw [take_slice m p (by omega), drop_slice m p h, show n - d = k + (n - (k + d)) by omega,
    slice_add]
  congr 1
  · apply slice_congr
    intro i hi
    exact memmove_out m (by omega)
  · apply slice_congr
    intro i hi
    rw [memmove_in m (by omega)]
    congr 1
    omega

/-- Overwriting a block behind the `k`-th of `n` values. -/
theorem slice_memcpy (m : Memory α) (p : Int) {k n : Nat} (l : List α) (h : k + l.length ≤ n) :
    slice (memcpy m (p + k) l) p n =
      (slice m p n).take k ++ l ++ (slice m p n).drop (k + l.length) := by
  rw [take_slice m p (by omega), drop_slice m p h]
  conv_lhs => rw [show n = k + l.length + (n - (k + l.length)) by omega, slice_add, slice_add]
  congr 1
  · congr 1
    · apply slice_congr
      intro i hi
      exact memcpy_out m l (by omega)
    · apply List.ext_getElem
      · simp
      · intro i h₁ h₂
        rw [getElem_slice, memcpy_in m (p + k) l i h₂]
  · apply slice_congr
    intro i hi
    rw [memcpy_out m l (by omega)]

theorem slice_store (m : Memory α) (p : Int) {k n : Nat} (v : α) :
    slice (store m (p + k) v) p n = (slice m p n).set k v := by
  apply List.ext_getElem
  · simp
  · intro i h₁ h₂
    rw [getElem_slice, List.getElem_set]
    split
    · rename_i hi
      rw [hi, store_same]
    · rename_i hi
      rw [store_ne m v (by omega), getElem_slice]

/-! ## Searching a range -/

section Search

variable [DecidableEq α]

/-- `memchr(p, c, n)`: the first of the `n` cells from `p` on that holds `c`. -/
def memchr (m : Memory α) (p : Int) (c : α) : Nat → Option Int
  | 0 => none
  | n + 1 => if m p = c then some p else memchr m (p + 1) c n

/-- `memrchr(p, c, n)`: the last of the `n` cells from `p` on that holds `c`. -/
def memrchr (m : Memory α) (p : Int) (c : α) : Nat → Option Int
  | 0 => none
  | n + 1 => if m (p + n) = c then some (p + n) else memrchr m p c n

theorem memchr_some {m : Memory α} {c : α} {q : Int} :
    ∀ {n : Nat} {p : Int}, memchr m p c n = some q →
      p ≤ q ∧ q < p + n ∧ m q = c ∧ ∀ i, p ≤ i → i < q → m i ≠ c
  | 0, _, h => by cases h
  | n + 1, p, h => by
    unfold memchr at h
    split at h
    · rename_i hp
      cases h
      exact ⟨by omega, by omega, hp, fun i h₁ h₂ => by omega⟩
    · rename_i hp
      obtain ⟨h₁, h₂, h₃, h₄⟩ := memchr_some h
      refine ⟨by omega, by omega, h₃, fun i hi hq => ?_⟩
      by_cases he : i = p
      · rw [he]; exact hp
      · exact h₄ i (by omega) hq

theorem memchr_none {m : Memory α} {c : α} :
    ∀ {n : Nat} {p : Int}, memchr m p c n = none → ∀ i, p ≤ i → i < p + n → m i ≠ c
  | 0, _, _, i, h₁, h₂ => by omega
  | n + 1, p, h, i, h₁, h₂ => by
    unfold memchr at h
    split at h
    · cases h
    · rename_i hp
      by_cases he : i = p
      · rw [he]; exact hp
      · exact memchr_none h i (by omega) (by omega)

theorem memrchr_some {m : Memory α} {c : α} {p q : Int} :
    ∀ {n : Nat}, memrchr m p c n = some q →
      p ≤ q ∧ q < p + n ∧ m q = c ∧ ∀ i, q < i → i < p + n → m i ≠ c
  | 0, h => by cases h
  | n + 1, h => by
    unfold memrchr at h
    split at h
    · rename_i hp
      cases h
      exact ⟨by omega, by omega, hp, fun i h₁ h₂ => by omega⟩
    · rename_i hp
      obtain ⟨h₁, h₂, h₃, h₄⟩ := memrchr_some h
      refine ⟨h₁, by omega, h₃, fun i hi hq => ?_⟩
      by_cases he : i = p + n
      · rw [he]; exact hp
      · exact h₄ i hi (by omega)

theorem memrchr_none {m : Memory α} {c : α} {p : Int} :
    ∀ {n : Nat}, memrchr m p c n = none → ∀ i, p ≤ i → i < p + n → m i ≠ c
  | 0, _, i, h₁, h₂ => by omega
  | n + 1, h, i, h₁, h₂ => by
    unfold memrchr at h
    split at h
    · cases h
    · rename_i hp
      by_cases he : i = p + n
      · rw [he]; exact hp
      · exact memrchr_none h i h₁ (by omega)

end Search

end Cells
