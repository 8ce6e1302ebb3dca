import Ewokos.Evim.Refresh

/-!
# evim: the cells of a selection

The columns that `visual_span_mask` of `bin/evim/vim_term.c` marks, against the cells in which the
selected bytes are drawn, and what `visual_invalidate_span` does to the virtual screen.

* `visualSpanMask_iff` — the mask has exactly the cells of the selected bytes, and the phantom cell
  of a selected newline.
* `visualInvalidateSpan_row` — in each row the columns from the first to the last marked one are
  poisoned.
-/

set_option autoImplicit false

namespace Evim.Ed

open Cells
open CString hiding strchr

/-! ## The mask -/

/-- Column `k` of the line at `tp` shows a byte of `[lo, hi]`: one of its chars, or the cell behind
the line for its newline. -/
def Selected (s : Ed) (lo hi tp : Int) (k : Nat) : Prop :=
  ∃ n : Nat, (∀ i < n, s.mem (tp + i) ≠ NL) ∧ tp + n < s.end_ ∧ lo ≤ tp + n ∧ tp + n ≤ hi ∧
    if s.mem (tp + n) = NL then (k : Int) + s.offset = (s.drawn tp n).length
    else (s.drawn tp n).length ≤ k + s.offset ∧ k + s.offset < (s.drawn tp (n + 1)).length

variable {s : Ed}

/-- `vis_advance` goes as far as `format_line` draws. -/
theorem visAdvance_drawn (ht : 1 ≤ s.tabstop) (tp : Int) (n : Nat) :
    s.visAdvance (s.mem (tp + n)) (s.drawn tp n).length = (s.drawn tp (n + 1)).length := by
  have hmod := Int.emod_lt_of_pos ((s.drawn tp n).length : Int) (show 0 < s.tabstop by omega)
  have htab : ((s.tabstop - 1 - ((s.drawn tp n).length : Int) % s.tabstop).toNat : Int) =
      s.tabstop - 1 - ((s.drawn tp n).length : Int) % s.tabstop := Int.toNat_of_nonneg (by omega)
  rw [drawn, List.length_append, byteCells_length]
  unfold visAdvance nextTabstop
  split
  · push_cast
    rw [htab]
  · split
    · rename_i h
      have hle : 128 ≤ (s.mem (tp + n)).toNat := UInt8.le_iff_toNat_le.mp h.1
      have hn : Narrow (s.mem (tp + n)) := by
        refine ⟨UInt8.le_iff_toNat_le.mpr (Nat.le_trans (by decide) hle), fun e => ?_⟩
        rw [e] at hle
        exact absurd hle (by decide)
      simp [hn]
    · by_cases hn : Narrow (s.mem (tp + n))
      · rw [if_neg (narrow_iff.mp hn), if_pos hn]
        push_cast
        rfl
      · rw [if_pos (not_not.mp fun h => hn (narrow_iff.mpr h)), if_neg hn]
        push_cast
        rfl

/-- The loop from byte `n` of the line on. -/
theorem spanLoop_iff (ht : 1 ≤ s.tabstop) (lo hi tp : Int) {k : Nat} (hk : k < s.columns) :
    ∀ {fuel n : Nat} {sel : Int → Bool}, s.end_ - (tp + n) ≤ fuel →
      (∀ i < n, s.mem (tp + i) ≠ NL) →
      (s.spanLoop lo hi fuel (tp + n) (s.drawn tp n).length sel k = true ↔ sel k = true ∨
        ∃ j : Nat, n ≤ j ∧ (∀ i < j, s.mem (tp + i) ≠ NL) ∧ tp + j < s.end_ ∧ lo ≤ tp + j ∧
          tp + j ≤ hi ∧ if s.mem (tp + j) = NL then (k : Int) + s.offset = (s.drawn tp j).length
            else (s.drawn tp j).length ≤ k + s.offset ∧ k + s.offset < (s.drawn tp (j + 1)).length)
  | 0, n, sel, hfuel, hno => by
    unfold spanLoop
    refine ⟨.inl, ?_⟩
    rintro (h | ⟨j, hj, -, hlt, -⟩)
    · exact h
    · omega
  | fuel + 1, n, sel, hfuel, hno => by
    unfold spanLoop
    split
    · rename_i hlt
      dsimp only
      split
      · -- the newline ends the line
        rename_i hnl
        rw [Bool.or_eq_true]
        apply or_congr_right
        constructor
        · intro h
          simp only [Bool.and_eq_true, decide_eq_true_eq, beq_iff_eq] at h
          obtain ⟨⟨⟨⟨h₁, h₂⟩, h₃⟩, -⟩, -⟩ := h
          refine ⟨n, Nat.le_refl n, hno, hlt, h₁, h₂, ?_⟩
          rw [if_pos hnl]
          omega
        · rintro ⟨j, hj, hno', -, h₁, h₂, h₃⟩
          obtain rfl : j = n := by
            by_contra hne
            exact hno' n (by omega) hnl
          rw [if_pos hnl] at h₃
          simp only [Bool.and_eq_true, decide_eq_true_eq, beq_iff_eq]
          omega
      · rename_i hnl
        have hno' : ∀ i < n + 1, s.mem (tp + i) ≠ NL := by
          intro i hi
          rcases Nat.lt_succ_iff_lt_or_eq.mp hi with hi | rfl
          · exact hno i hi
          · exact hnl
        have hnext : tp + (n : Int) + 1 = tp + (n + 1 : Nat) := by push_cast; omega
        rw [visAdvance_drawn ht, hnext, spanLoop_iff ht lo hi tp hk (by push_cast; omega) hno',
          Bool.or_eq_true, or_assoc]
        apply or_congr_right
        constructor
        · rintro (h | ⟨j, hj, h⟩)
          · simp only [Bool.and_eq_true, decide_eq_true_eq] at h
            refine ⟨n, Nat.le_refl n, hno, hlt, by omega, by omega, ?_⟩
            rw [if_neg hnl]
            omega
          · exact ⟨j, by omega, h⟩
        · rintro ⟨j, hj, hno'', h₁, h₂, h₃, h₄⟩
          rcases Nat.lt_or_eq_of_le hj with hj | rfl
          · exact .inr ⟨j, hj, hno'', h₁, h₂, h₃, h₄⟩
          · left
            rw [if_neg hnl] at h₄
            simp only [Bool.and_eq_true, decide_eq_true_eq]
            omega
    · refine ⟨.inl, ?_⟩
      rintro (h | ⟨j, hj, -, hlt, -⟩)
      · exact h
      · omega

/-- **The mask** has exactly the cells of the selected bytes. -/
theorem visualSpanMask_iff (ht : 1 ≤ s.tabstop) (lo hi tp : Int) {k : Nat} (hk : k < s.columns) :
    s.visualSpanMask tp lo hi k = true ↔ s.Selected lo hi tp k := by
  have h : s.spanLoop lo hi (s.end_ - tp).toNat (tp + (0 : Nat)) (s.drawn tp 0).length
      (fun _ => false) k = true ↔ _ :=
    spanLoop_iff ht lo hi tp hk (by push_cast; omega) fun i hi => absurd hi (Nat.not_lt_zero i)
  rw [Nat.cast_zero, Int.add_zero] at h
  refine h.trans ⟨?_, fun ⟨n, h⟩ => .inr ⟨n, Nat.zero_le n, h⟩⟩
  rintro (h | ⟨n, -, h⟩)
  · cases h
  · exact ⟨n, h⟩

/-! ## `visual_invalidate_span` -/

/-- The first and the last column of a mask. -/
def maskEnds (mask : Int → Bool) (columns : Nat) : Option (Nat × Nat) :=
  (List.range columns).foldl
    (fun (c : Option (Nat × Nat)) (sc : Nat) =>
      if mask sc then some (c.elim sc Prod.fst, sc) else c) none

/-- The loop of `visual_invalidate_span` over the rows from `li` on. -/
def invalidateRows (s : Ed) (a b : Int) : Nat → Nat → Int → Memory UInt8 → Memory UInt8
  | 0, _, _, screen => screen
  | n + 1, li, t, screen =>
    if t < s.end_ then
      invalidateRows s a b n (li + 1) (s.nextLine t) <|
        if b ≥ t ∧ a ≤ s.endLine t then
          match maskEnds (s.visualSpanMask t a b) s.columns with
          | some (c0, c1) => memset screen (li * s.columns + c0) 255 (c1 - c0 + 1)
          | none => screen
        else screen
    else screen

/-- `visual_invalidate_span`. -/
def visualInvalidateSpan (s : Ed) (a b : Int) (screen : Memory UInt8) : Memory UInt8 :=
  if a > b then s.invalidateRows b a (s.rows - 1) 0 s.screenbegin screen
  else s.invalidateRows a b (s.rows - 1) 0 s.screenbegin screen

/-- Column `k` of the line at `t` is between two marked columns of `[a, b]`. -/
def Poisons (s : Ed) (a b t : Int) (k : Nat) : Prop :=
  t < s.end_ ∧ t ≤ b ∧ a ≤ s.endLine t ∧ (∃ i < k + 1, s.visualSpanMask t a b i = true) ∧
    ∃ j < s.columns, k ≤ j ∧ s.visualSpanMask t a b j = true

instance (s : Ed) (a b t : Int) (k : Nat) : Decidable (s.Poisons a b t k) :=
  inferInstanceAs (Decidable (_ ∧ _))

/-- What `maskEnds` finds. -/
theorem maskEnds_spec (mask : Int → Bool) : ∀ columns : Nat,
    match maskEnds mask columns with
    | some (c0, c1) => c0 ≤ c1 ∧ c1 < columns ∧ mask c0 = true ∧ mask c1 = true ∧
        ∀ k : Nat, k < columns → mask k = true → c0 ≤ k ∧ k ≤ c1
    | none => ∀ k : Nat, k < columns → mask k = false
  | 0 => fun k hk => absurd hk (Nat.not_lt_zero k)
  | columns + 1 => by
    have ih := maskEnds_spec mask columns
    have hstep : maskEnds mask (columns + 1) =
        if mask columns then some ((maskEnds mask columns).elim columns Prod.fst, columns)
        else maskEnds mask columns := by
      unfold maskEnds
      rw [List.range_succ, List.foldl_append]
      rfl
    rw [hstep]
    by_cases hm : mask columns = true
    · rw [if_pos hm]
      cases h : maskEnds mask columns with
      | none =>
        rw [h] at ih
        refine ⟨Nat.le_refl _, Nat.lt_succ_self _, hm, hm, fun k hk hmk => ?_⟩
        rcases Nat.lt_succ_iff_lt_or_eq.mp hk with hk | rfl
        · rw [ih k hk] at hmk
          cases hmk
        · exact ⟨Nat.le_refl k, Nat.le_refl k⟩
      | some r =>
        obtain ⟨c0, c1⟩ := r
        rw [h] at ih
        obtain ⟨h₁, h₂, h₃, h₄, h₅⟩ := ih
        refine ⟨show c0 ≤ columns by omega, Nat.lt_succ_self _, h₃, hm, fun k hk hmk => ?_⟩
        rcases Nat.lt_succ_iff_lt_or_eq.mp hk with hk | rfl
        · exact ⟨(h₅ k hk hmk).1, Nat.le_of_lt hk⟩
        · exact ⟨show c0 ≤ k by omega, Nat.le_refl k⟩
    · rw [if_neg hm]
      have hback : ∀ k : Nat, k < columns + 1 → mask k = true → k < columns := by
        intro k hk hmk
        rcases Nat.lt_succ_iff_lt_or_eq.mp hk with hk | rfl
        · exact hk
        · exact absurd hmk hm
      cases h : maskEnds mask columns with
      | none =>
        rw [h] at ih
        intro k hk
        by_contra hmk
        rw [Bool.not_eq_false] at hmk
        rw [ih k (hback k hk hmk)] at hmk
        cases hmk
      | some r =>
        rw [h] at ih
        obtain ⟨h₁, h₂, h₃, h₄, h₅⟩ := ih
        exact ⟨h₁, by omega, h₃, h₄, fun k hk hmk => h₅ k (hback k hk hmk) hmk⟩

/-- One row. -/
theorem invalidateRow {a b t : Int} (hlt : t < s.end_) (screen : Memory UInt8)
    (li : Nat) :
    let screen' := if b ≥ t ∧ a ≤ s.endLine t then
      match maskEnds (s.visualSpanMask t a b) s.columns with
      | some (c0, c1) => memset screen (li * s.columns + c0) 255 (c1 - c0 + 1)
      | none => screen
    else screen
    (∀ k : Nat, k < s.columns → screen' (li * s.columns + k) =
      if s.Poisons a b t k then 255 else screen (li * s.columns + k)) ∧
    ∀ i : Int, i < li * s.columns ∨ ((li : Int) + 1) * s.columns ≤ i → screen' i = screen i := by
  intro screen'
  have hspec := maskEnds_spec (s.visualSpanMask t a b) s.columns
  have hno : (¬(b ≥ t ∧ a ≤ s.endLine t) ∨
      maskEnds (s.visualSpanMask t a b) s.columns = none) → screen' = screen ∧
      ∀ k < s.columns, ¬s.Poisons a b t k := by
    rintro (h | h)
    · exact ⟨if_neg h, fun k _ hp => h ⟨hp.2.1, hp.2.2.1⟩⟩
    · refine ⟨?_, fun k _ hp => ?_⟩
      · show (if _ then _ else _) = _
        rw [h, ite_self]
      · obtain ⟨-, -, -, ⟨i, hi, hsel⟩, j, hj, hkj, hsel'⟩ := hp
        rw [h] at hspec
        cases (hspec j hj).symm.trans hsel'
  by_cases hin : b ≥ t ∧ a ≤ s.endLine t
  · cases he : maskEnds (s.visualSpanMask t a b) s.columns with
    | none =>
      obtain ⟨h₁, h₂⟩ := hno (.inr he)
      rw [h₁]
      exact ⟨fun k hk => (if_neg (h₂ k hk)).symm, fun i _ => rfl⟩
    | some r =>
      obtain ⟨c0, c1⟩ := r
      rw [he] at hspec
      obtain ⟨h₁, h₂, h₃, h₄, h₅⟩ := hspec
      have hs : screen' = memset screen (li * s.columns + c0) 255 (c1 - c0 + 1) := by
        show (if _ then _ else _) = _
        rw [if_pos hin, he]
      have hnext : ((li : Int) + 1) * s.columns = li * s.columns + s.columns := by ring
      rw [hs]
      refine ⟨fun k hk => ?_, fun i hi => memset_out _ _ (by omega)⟩
      by_cases hk' : c0 ≤ k ∧ k ≤ c1
      · rw [memset_in _ _ (by omega), if_pos]
        exact ⟨hlt, hin.1, hin.2, ⟨c0, by omega, h₃⟩, c1, h₂, hk'.2, h₄⟩
      · rw [memset_out _ _ (by omega), if_neg]
        rintro ⟨-, -, -, ⟨i, hi, hsel⟩, j, hj, hkj, hsel'⟩
        have hi' := h₅ i (by omega) hsel
        have hj' := h₅ j hj hsel'
        omega
  · obtain ⟨h₁, h₂⟩ := hno (.inl hin)
    rw [h₁]
    exact ⟨fun k hk => (if_neg (h₂ k hk)).symm, fun i _ => rfl⟩

/-- The rows from `li` on, and those above. -/
theorem invalidateRows_row (a b : Int) :
    ∀ (n li : Nat) (t : Int) (screen : Memory UInt8),
      (∀ j < n, ∀ k : Nat, k < s.columns →
        s.invalidateRows a b n li t screen ((li + j : Nat) * s.columns + k) =
          if s.Poisons a b (s.nextLine^[j] t) k then 255
          else screen ((li + j : Nat) * s.columns + k)) ∧
      ∀ i : Int, i < li * s.columns → s.invalidateRows a b n li t screen i = screen i
  | 0, _, _, _ => ⟨fun j hj => absurd hj (Nat.not_lt_zero j), fun _ _ => rfl⟩
  | n + 1, li, t, screen => by
    unfold invalidateRows
    by_cases hlt : t < s.end_
    · rw [if_pos hlt]
      obtain ⟨h₁, h₂⟩ := invalidateRow (a := a) (b := b) hlt screen li
      generalize (if b ≥ t ∧ a ≤ s.endLine t then
        match maskEnds (s.visualSpanMask t a b) s.columns with
        | some (c0, c1) => memset screen (li * s.columns + c0) 255 (c1 - c0 + 1)
        | none => screen
      else screen) = screen' at h₁ h₂
      obtain ⟨ih₁, ih₂⟩ := invalidateRows_row a b n (li + 1) (s.nextLine t) screen'
      have hnext : (((li + 1 : Nat) : Int)) * s.columns = li * s.columns + s.columns := by
        push_cast
        ring
      refine ⟨fun j hj k hk => ?_, fun i hi => ?_⟩
      · cases j with
        | zero =>
          exact (ih₂ (li * s.columns + k) (by omega)).trans (h₁ k hk)
        | succ j =>
          rw [show li + (j + 1) = li + 1 + j by omega, ih₁ j (by omega) k hk,
            Function.iterate_succ_apply]
          have hrow : ((li : Int) + 1) * s.columns ≤ (li + 1 + j : Nat) * s.columns :=
            Int.mul_le_mul_of_nonneg_right (by push_cast; omega) (by omega)
          rw [h₂ _ (.inr (by omega))]
      · rw [ih₂ _ (by omega), h₂ _ (.inl hi)]
    · rw [if_neg hlt]
      refine ⟨fun j hj k hk => (if_neg fun hp => ?_).symm, fun _ _ => rfl⟩
      have := s.le_iterate_nextLine t j
      have := hp.1
      omega

/-- **The columns from the first to the last cell of the span are poisoned in each row.** -/
theorem visualInvalidateSpan_row {a b : Int} (hab : a ≤ b)
    (screen : Memory UInt8) {li : Nat} (hli : li < s.rows - 1) {k : Nat} (hk : k < s.columns) :
    s.visualInvalidateSpan a b screen (li * s.columns + k) =
      if s.Poisons a b (s.nextLine^[li] s.screenbegin) k then 255
      else screen (li * s.columns + k) := by
  unfold visualInvalidateSpan
  rw [if_neg (by omega)]
  have h := (invalidateRows_row a b (s.rows - 1) 0 s.screenbegin screen).1 li hli k hk
  rw [Nat.zero_add] at h
  exact h

end Evim.Ed
