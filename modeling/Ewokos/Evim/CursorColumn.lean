import Ewokos.Evim.Onscreen

/-!
# evim: the cursor and the text under it

* `cursorColumn_eq` — `sync_cursor` sums `next_column` over the bytes before a byte of one column.
* `drawingAt_short`, `drawingAt_discarded` — how much of a line without tabs the loop of
  `format_line` keeps while it still discards.

Main result: `cursor_column_iff` — the cursor is on the byte exactly when no tab stands before it
on its line, and, for a tabstop of 1, not more control bytes than the screen has columns.
-/

set_option autoImplicit false

namespace Evim.Ed

open Cells
open CString hiding strchr

variable {s : Ed} {p : Int}

/-! ## The column of the cursor -/

theorem columnAt_congr {s' : Ed} (hm : s'.mem = s.mem) (ht : s'.tabstop = s.tabstop) (p : Int) :
    ∀ n, s'.columnAt p n = s.columnAt p n
  | 0 => rfl
  | n + 1 => by
    rw [columnAt, columnAt, columnAt_congr hm ht p n, hm]
    unfold nextColumn nextTabstop
    rw [ht]

/-- The column loop, from byte `n` of the line on. -/
theorem colLoop_narrow (hc : s.cmdMode = .command) {d : Int} (hd : Narrow (s.mem d)) :
    ∀ {k n : Nat}, d = p + n + k → (∀ i, p + n ≤ i → i < d → s.mem i ≠ NL) →
      s.colLoop d (k + 1) (p + n) (s.columnAt p n) = s.columnAt p (n + k)
  | 0, n, he, _ => by
    have he : p + n = d := by omega
    have hnl : s.mem d ≠ NL := by
      intro h
      rw [h] at hd
      exact absurd hd (by decide)
    have htab : s.mem d ≠ 9 := by
      intro h
      rw [h] at hd
      exact absurd hd (by decide)
    rw [colLoop, he, if_neg hnl, nextColumn_eq, if_neg htab, if_pos hd]
    dsimp only
    rw [if_neg fun h => h.1 hc, if_neg (Int.lt_irrefl d)]
    rw [Nat.add_zero]
    omega
  | k + 1, n, he, hline => by
    have ih := colLoop_narrow hc hd (k := k) (n := n + 1) (by push_cast; omega)
      fun i h₁ h₂ => hline i (by push_cast at h₁; omega) h₂
    rw [colLoop, if_neg (hline (p + n) (Int.le_refl _) (by omega))]
    dsimp only
    rw [if_neg fun h => h.1 hc, if_pos (by omega), Int.sub_add_cancel,
      show p + n + 1 = p + (n + 1 : Nat) by push_cast; omega,
      show n + (k + 1) = n + 1 + k by omega]
    exact ih

theorem cursorColumn_eq (hc : s.cmdMode = .command) {d : Int} (hd : Narrow (s.mem d)) :
    s.cursorColumn d = s.columnAt (s.beginLine d) (d - s.beginLine d).toNat := by
  have hle := s.beginLine_le d
  have h := colLoop_narrow (p := s.beginLine d) hc hd (k := (d - s.beginLine d).toNat) (n := 0)
    (by push_cast; omega) fun i h₁ h₂ => s.beginLine_noNL (by push_cast at h₁; omega) h₂
  rw [Nat.cast_zero, Int.add_zero, Nat.zero_add] at h
  exact h

/-! ## Lines without tabs -/

/-- The control bytes among the first `n` from `p` on. -/
def controls (s : Ed) (p : Int) (n : Nat) : Nat :=
  (slice s.mem p n).countP fun c => !decide (Narrow c)

theorem controls_succ (s : Ed) (p : Int) (n : Nat) : s.controls p (n + 1) =
    s.controls p n + if Narrow (s.mem (p + n)) then 0 else 1 := by
  unfold controls
  rw [slice_add, List.countP_append, slice_succ, slice_zero, List.countP_singleton]
  by_cases h : Narrow (s.mem (p + n))
  · rw [if_pos h, if_neg (by simpa using h)]
  · rw [if_neg h, if_pos (by simpa using h)]

theorem controls_mono (s : Ed) (p : Int) {m n : Nat} (h : m ≤ n) :
    s.controls p m ≤ s.controls p n := by
  unfold controls
  obtain ⟨k, rfl⟩ := Nat.exists_eq_add_of_le h
  rw [slice_add, List.countP_append]
  exact Nat.le_add_right _ _

theorem drawn_length_controls : ∀ {n : Nat}, (∀ k < n, s.mem (p + k) ≠ 9) →
    (s.drawn p n).length = n + s.controls p n
  | 0, _ => rfl
  | n + 1, h => by
    have ih := drawn_length_controls (n := n) fun k hk => h k (by omega)
    rw [drawn, List.length_append, byteCells_length, controls_succ, ih,
      if_neg (h n (Nat.lt_succ_self n))]
    split <;> omega

/-- Drawing a byte that is no tab. -/
theorem drawingAt_succ {n : Nat} (h : s.mem (p + n) ≠ 9) :
    s.drawingAt p (n + 1) = s.discard ⟨(s.drawingAt p n).dest ++
      s.byteCells (p + n) (s.drawingAt p n).dest.length, (s.drawingAt p n).ofs⟩ := by
  rw [drawingAt]
  unfold draw
  rw [if_neg h]

/-- While the loop still discards, it keeps less than a tabstop, or with a tabstop of 1 one column
for each control byte. -/
theorem drawingAt_short (ht : 1 ≤ s.tabstop) : ∀ {n : Nat}, (∀ k < n, s.mem (p + k) ≠ 9) →
    (s.drawingAt p n).ofs < s.tabstop ∨ ((s.drawingAt p n).dest.length : Int) ≤
      if s.tabstop = 1 then (s.controls p n : Int) else s.tabstop - 1
  | 0, _ => by
    right
    show (0 : Int) ≤ _
    split <;> omega
  | n + 1, h => by
    have ih := drawingAt_short ht (n := n) fun k hk => h k (by omega)
    have hn := h n (Nat.lt_succ_self n)
    -- the byte takes `w` columns, and counts if that are two
    obtain ⟨w, hw, hcount, hone, htwo⟩ : ∃ w, ((s.drawingAt p n).dest ++
        s.byteCells (p + n) (s.drawingAt p n).dest.length).length =
        (s.drawingAt p n).dest.length + w ∧ s.controls p (n + 1) + 1 = s.controls p n + w ∧
        1 ≤ w ∧ w ≤ 2 := by
      refine ⟨if Narrow (s.mem (p + n)) then 1 else 2, ?_, ?_, ?_, ?_⟩
      · rw [List.length_append, byteCells_length, if_neg hn]
      · rw [controls_succ]
        split <;> omega
      · split <;> omega
      · split <;> omega
    rw [drawingAt_succ hn]
    unfold Ed.discard
    dsimp only
    rw [hw]
    by_cases h₁ : s.tabstop = 1
    · rw [if_pos h₁] at ih ⊢
      split
      · dsimp only
        rw [List.length_drop, hw]
        omega
      · dsimp only
        rw [hw]
        omega
    · rw [if_neg h₁] at ih ⊢
      split
      · dsimp only
        rw [List.length_drop, hw]
        omega
      · dsimp only
        rw [hw]
        omega

/-- At most a tabstop is discarded for each byte. -/
theorem drawingAt_discarded (ht : 1 ≤ s.tabstop) : ∀ {n : Nat}, (∀ k < n, s.mem (p + k) ≠ 9) →
    s.offset - (s.drawingAt p n).ofs ≤ n * s.tabstop
  | 0, _ => by
    show s.offset - s.offset ≤ _
    simp
  | n + 1, h => by
    have ih := drawingAt_discarded ht (n := n) fun k hk => h k (by omega)
    have hmul : ((n + 1 : Nat) : Int) * s.tabstop = n * s.tabstop + s.tabstop := by
      push_cast
      ring
    rw [drawingAt_succ (h n (Nat.lt_succ_self n)), hmul]
    unfold Ed.discard
    split
    · dsimp only
      omega
    · dsimp only
      omega

/-- A line without tabs is drawn up to a byte whose column is shown. -/
theorem draws_of_noTab (ht : 1 ≤ s.tabstop) (ho : 0 ≤ s.offset) {j : Nat}
    (hline : ∀ n ≤ j, p + n < s.end_ ∧ s.mem (p + n) ≠ NL) (htab : ∀ k < j, s.mem (p + k) ≠ 9)
    (hcol : s.columnAt p j < s.offset + s.columns)
    (hcontrols : 2 ≤ s.tabstop ∨ s.controls p j ≤ s.columns) : ∀ n ≤ j, s.Draws p n := by
  intro n hn
  refine ⟨?_, hline n hn⟩
  have hno : ∀ k < n, s.mem (p + k) ≠ 9 := fun k hk => htab k (by omega)
  rcases drawingAt_short ht hno with h | h
  · -- what is left of the line begins behind the offset
    have hlen := (drawingAt_shows ht ho p n).length_dest
    have hle := (s.drawn_prefix p hn).length_le
    have heq := drawn_length_eq htab
    omega
  · have hmono := s.controls_mono p hn
    split at h <;> omega

/-- **The cursor and the text agree.**  In command mode, for a byte of one column, the column
`sync_cursor` finds is where `format_line` draws the byte, exactly when no tab stands before it on
its line and, for a tabstop of 1, at most as many control bytes as the screen has columns. -/
theorem cursor_column_iff {d : Int} (hc : s.cmdMode = .command) (h₀ : s.text ≤ d)
    (h₁ : d < s.end_) (hd : Narrow (s.mem d)) (ht : 1 ≤ s.tabstop) (ho : 0 ≤ s.offset)
    (hr : 2 ≤ s.rows) (hw : 2 ≤ s.columns) (htop : s.text ≤ s.screenbegin) :
    let s' := s.syncCursor d
    let before := slice s.mem (s.beginLine d) (d - s.beginLine d).toNat
    (∃ c, (s'.formatCells (s.beginLine d))[s'.ccol.toNat]? = some ⟨c, some d⟩) ↔
      9 ∉ before ∧ (2 ≤ s.tabstop ∨ before.countP (fun c => !decide (Narrow c)) ≤ s.columns) := by
  intro s' before
  obtain ⟨-, hoffset, hccol⟩ := syncCursor_settled h₀ h₁ hr htop
  have hnotab : s.mem d ≠ 9 := by
    intro h
    rw [h] at hd
    exact absurd hd (by decide)
  rw [if_neg fun h => hnotab h.2, cursorColumn_eq hc hd] at hoffset
  rw [cursorColumn_eq hc hd] at hccol
  obtain ⟨hbuf, htabstop, hcolumns, -⟩ := syncCursor_same s d
  have hmem : s'.mem = s.mem := congrArg Buf.mem hbuf
  have hend : s'.end_ = s.end_ := congrArg Buf.end_ hbuf
  replace htabstop : s'.tabstop = s.tabstop := htabstop
  replace hcolumns : s'.columns = s.columns := hcolumns
  have hlow := s.beginLine_le d
  obtain ⟨j, hj⟩ := Int.eq_ofNat_of_zero_le (show 0 ≤ d - s.beginLine d by omega)
  have hjd : s.beginLine d + j = d := by omega
  have hjn : (d - s.beginLine d).toNat = j := by omega
  rw [hjn, ← columnAt_congr hmem htabstop] at hoffset hccol
  have hbefore : before = slice s'.mem (s.beginLine d) j := by
    show slice s.mem (s.beginLine d) (d - s.beginLine d).toNat = _
    rw [hjn, hmem]
  have hcontrols : before.countP (fun c => !decide (Narrow c)) = s'.controls (s.beginLine d) j := by
    rw [hbefore]
    rfl
  have hline : ∀ n ≤ j, s.beginLine d + n < s'.end_ ∧ s'.mem (s.beginLine d + n) ≠ NL := by
    intro n hn
    rw [hend, hmem]
    refine ⟨by omega, ?_⟩
    rcases Nat.eq_or_lt_of_le hn with rfl | hn
    · rw [hjd]
      intro h
      rw [h] at hd
      exact absurd hd (by decide)
    · exact s.beginLine_noNL (p := d) (by omega) (by omega)
  have hdj : Narrow (s'.mem (s.beginLine d + j)) := by
    rw [hjd, hmem]
    exact hd
  have htab : 9 ∉ before ↔ ∀ k < j, s'.mem (s.beginLine d + k) ≠ 9 := by
    rw [hbefore, mem_slice]
    exact ⟨fun h k hk e => h ⟨k, hk, e⟩, fun h ⟨k, hk, e⟩ => h k hk e⟩
  rw [← htabstop] at ht
  have hnonneg : 0 ≤ s'.columnAt (s.beginLine d) j :=
    Int.le_trans (Int.natCast_nonneg _) (drawn_length_lt ht).1
  obtain ⟨hle, hlt⟩ := shownOffset_shows (s := s) (by omega) (s'.columnAt (s.beginLine d) j)
  have ho' := shownOffset_nonneg ho hnonneg
  rw [← hoffset] at ho' hle hlt
  replace ho' : 0 ≤ s'.offset := ho'
  replace hle : s'.offset ≤ s'.columnAt (s.beginLine d) j := hle
  replace hlt : s'.columnAt (s.beginLine d) j < s'.offset + s.columns := hlt
  replace hccol : s'.ccol = s'.columnAt (s.beginLine d) j - s'.offset := hccol
  obtain ⟨m, hdraws, hstop, hcell⟩ := formatCells_iff ht ho' (s.beginLine d)
  rw [htab, hcontrols, ← htabstop, ← hcolumns]
  constructor
  · rintro ⟨c, hc'⟩
    obtain ⟨j', hj', he, h₂, h₃⟩ := drawn_src ((hcell _ _ _).mp hc')
    obtain rfl : j' = j := by omega
    have hwidth := byteCells_length (s := s') (s.beginLine d + j') (s'.drawn (s.beginLine d) j').length
    have hnt : s'.mem (s.beginLine d + j') ≠ 9 := by
      rw [hjd, hmem]
      exact hnotab
    rw [if_neg hnt, if_pos hdj] at hwidth
    rw [drawn, List.length_append, hwidth] at h₃
    -- the byte is drawn at its column, so no tab came before it
    have hnone : ∀ k < j', s'.mem (s.beginLine d + k) ≠ 9 := by
      intro k hk h
      have := (drawn_length_lt ht).2 ⟨k, hk, h⟩
      omega
    refine ⟨hnone, ?_⟩
    by_contra hn
    have hdisc := drawingAt_discarded ht hnone
    have hlen := (drawingAt_shows ht ho' (s.beginLine d) j').length_dest
    have hcount := drawn_length_controls hnone
    have hgoes := (hdraws j' hj').1
    have hone : s'.tabstop = 1 := by omega
    rw [hone, Int.mul_one] at hdisc
    omega
  · rintro ⟨hnone, hcount⟩
    have hall := draws_of_noTab ht ho' hline hnone (by omega) hcount
    have hjm : j < m := by
      by_contra hn
      exact hstop (hall m (by omega))
    obtain ⟨c, hdrawn⟩ := drawn_narrow hjm hdj
    have hlen := drawn_length_eq hnone
    refine ⟨c, (hcell _ _ _).mpr ?_⟩
    rw [hjd] at hdrawn
    rw [← hdrawn]
    congr 1
    omega

/-- The `b` of `ab` is under the cursor. -/
theorem cursor_column_ab :
    let s' := (showing [97, 98, NL]).syncCursor 1
    ∃ c, (s'.formatCells ((showing [97, 98, NL]).beginLine 1))[s'.ccol.toNat]? =
      some ⟨c, some 1⟩ :=
  (cursor_column_iff (s := showing [97, 98, NL]) (d := 1) rfl (by decide) (by decide) (by decide)
    (by decide) (by decide) (by decide) (by decide) (by decide)).mpr (by decide +kernel)

/-- A tab and an `a`: the cursor for the `a` is in column 8, and the `a` is drawn in column 7. -/
theorem cursor_behind_tab :
    let s' := (showing [9, 97, NL]).syncCursor 1
    s'.ccol = 8 ∧ (s'.formatCells 0)[7]? = some ⟨97, some 1⟩ ∧
      ¬∃ c, (s'.formatCells 0)[8]? = some ⟨c, some 1⟩ := by
  have h : let s' := (showing [9, 97, NL]).syncCursor 1
      s'.ccol = 8 ∧ (s'.formatCells 0)[7]? = some ⟨97, some 1⟩ ∧
        (s'.formatCells 0)[8]? = some ⟨32, none⟩ := by decide +kernel
  obtain ⟨h₁, h₂, h₃⟩ := h
  refine ⟨h₁, h₂, fun ⟨c, hc⟩ => ?_⟩
  cases h₃.symm.trans hc

end Evim.Ed
