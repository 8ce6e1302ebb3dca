import Ewokos.Evim.Refresh

/-!
# evim: `sync_cursor` puts the cursor line on the screen

* `syncCursor_row` — the line of the position is the one in the row.
* `cursorColumn_tab` — a tab at the start of its line is in the last column of the tab.
* `shownOffset_unsigned` — the comparison with `columns`, an `uint32_t`, is one of integers.
* `syncCursor_fixed` — a second call finds nothing to do.

Main result: `syncCursor_shows`.
-/

set_option autoImplicit false

namespace Evim.Ed

open Cells

variable {s : Ed} {d : Int}

/-! ## The row -/

/-- The row loop counts the lines to the one it looks for. -/
theorem rowLoop_counts {b : Int} : ∀ (fuel : Nat) {k : Nat} (ro : Int) {tp : Int}, k ≤ fuel →
    s.nextLine^[k] tp = b →
    ∃ j ≤ k, s.rowLoop b fuel ro tp = (ro + j, b) ∧ s.nextLine^[j] tp = b
  | 0, k, ro, tp, hk, h => by
    obtain rfl := Nat.le_zero.mp hk
    refine ⟨0, Nat.le_refl 0, ?_, h⟩
    rw [rowLoop, Nat.cast_zero, Int.add_zero, ← h]
    rfl
  | fuel + 1, k, ro, tp, hk, h => by
    unfold rowLoop
    by_cases htp : tp = b
    · rw [if_pos htp]
      refine ⟨0, Nat.zero_le k, ?_, htp⟩
      rw [Nat.cast_zero, Int.add_zero, htp]
    · rw [if_neg htp]
      cases k with
      | zero => exact absurd h htp
      | succ k =>
        rw [Function.iterate_succ_apply] at h
        obtain ⟨j, hj, hloop, hreach⟩ :=
          rowLoop_counts fuel (ro + 1) (Nat.le_of_succ_le_succ hk) h
        refine ⟨j + 1, Nat.succ_le_succ hj, ?_, ?_⟩
        · rw [hloop]
          congr 1
          push_cast
          omega
        · rw [Function.iterate_succ_apply]
          exact hreach

theorem rowLoop_congr {s' : Ed} (h : s'.toBuf = s.toBuf) (b : Int) : ∀ (n : Nat) (ro tp : Int),
    s'.rowLoop b n ro tp = s.rowLoop b n ro tp
  | 0, _, _ => rfl
  | n + 1, ro, tp => by
    simp only [rowLoop, rowLoop_congr h b n, h]

/-- The row is found from where the scrolling has left the screen. -/
theorem syncCursor_crow (s : Ed) (d : Int) : (s.syncCursor d).crow =
    (s.rowLoop (s.beginLine d) (s.rows - 1) 0 (s.scrolled d).screenbegin).1 := by
  have hcrow : (s.syncCursor d).crow = ((s.scrolled d).rowLoop (s.beginLine d)
      ((s.scrolled d).rows - 1) 0 (s.scrolled d).screenbegin).1 := rfl
  have hbuf : (s.scrolled d).toBuf = s.toBuf := by rw [scrolled_eq]
  have hrows : (s.scrolled d).rows = s.rows := by rw [scrolled_eq]
  rw [hcrow, rowLoop_congr hbuf, hrows]

/-- In a text that ends with a newline, so does every line. -/
theorem endLine_newline (h₁ : d < s.end_) (hnl : s.mem (s.end_ - 1) = NL) :
    s.mem (s.endLine d) = NL := by
  rcases s.endLine_stop h₁ with e | e
  · exact e
  · rw [e]
    exact hnl

/-- The line of `d` is the one in the row. -/
theorem syncCursor_row (h₀ : s.text ≤ d) (h₁ : d < s.end_) (hr : 2 ≤ s.rows)
    (htop : s.text ≤ s.screenbegin) (hnl : s.mem (s.end_ - 1) = NL) :
    ∃ j : Nat, j ≤ s.rows - 2 ∧ (s.syncCursor d).crow = j ∧
      s.nextLine^[j] (s.syncCursor d).screenbegin = s.beginLine d := by
  have hon := scrolled_onScreen h₀ h₁ hr htop
  rw [if_pos (endLine_newline h₁ hnl)] at hon
  have hb := Buf.LineStart.beginLine s.toBuf h₀
  have hlt : s.beginLine d < s.end_ := Int.lt_of_le_of_lt (s.beginLine_le d) h₁
  have htext := hon.text_le
  have hreach := s.iterate_nextLine_eq hon.le hlt fun h => hb.newline (by omega)
  have hrows := hon.rows
  obtain ⟨j, hj, hloop, hline⟩ := rowLoop_counts (s.rows - 1) 0 (by omega) hreach
  refine ⟨j, by omega, ?_, ?_⟩
  · rw [syncCursor_crow, hloop, Int.zero_add]
  · rw [(syncCursor_settled h₀ h₁ hr htop).1]
    exact hline

/-! ## The column -/

theorem colLoop_ge (ht : 1 ≤ s.tabstop) : ∀ (n : Nat) (tp co : Int), co ≤ s.colLoop d n tp co
  | 0, _, co => Int.le_refl co
  | n + 1, tp, co => by
    have hnext : co ≤ s.nextColumn (s.mem tp) co - 1 := by
      have hmod := Int.emod_lt_of_pos co (show 0 < s.tabstop by omega)
      rw [nextColumn_eq]
      split
      · omega
      · split <;> omega
    unfold colLoop
    dsimp only
    split
    · exact Int.le_refl co
    · split
      · omega
      · split
        · have := colLoop_ge ht n (tp + 1) (s.nextColumn (s.mem tp) co - 1 + 1)
          omega
        · exact hnext

/-- A tab at the start of its line. -/
theorem cursorColumn_tab (hd : d = s.beginLine d) (htab : s.mem d = 9) :
    s.cursorColumn d = s.tabstop - 1 := by
  unfold cursorColumn
  rw [← hd, Int.sub_self]
  have hnl : (9 : UInt8) ≠ NL := by decide
  unfold colLoop
  rw [htab, if_neg hnl, nextColumn_eq, if_pos rfl, Int.zero_emod]
  dsimp only
  rw [if_neg fun h => by omega, if_neg (Int.lt_irrefl d)]
  omega

theorem syncCursor_ccol (h₀ : s.text ≤ d) (h₁ : d < s.end_) (hr : 2 ≤ s.rows)
    (ht : 1 ≤ s.tabstop) (hc : s.tabstop ≤ s.columns) (htop : s.text ≤ s.screenbegin) :
    0 ≤ (s.syncCursor d).ccol ∧ (s.syncCursor d).ccol < s.columns := by
  obtain ⟨-, hoff, hccol⟩ := syncCursor_settled h₀ h₁ hr htop
  rw [hccol, hoff]
  by_cases htab : d = s.beginLine d ∧ s.mem d = 9
  · rw [if_pos htab, cursorColumn_tab htab.1 htab.2]
    omega
  · rw [if_neg htab]
    have := shownOffset_shows (s := s) (by omega) (s.cursorColumn d)
    omega

/-- `shownOffset` with `columns + offset` an `uint32_t`, as C compares. -/
def shownOffset32 (s : Ed) (co : Int) : Int :=
  let offset := if co < s.offset then co else s.offset
  if UInt32.ofInt co ≥ UInt32.ofNat s.columns + UInt32.ofInt offset then co - s.columns + 1
  else offset

/-- Behind the left margin the signs do not matter. -/
theorem shownOffset_unsigned {co : Int} (ho : 0 ≤ s.offset) (hco : 0 ≤ co)
    (h₃₁ : co < 2147483648) (hsum : s.columns + s.offset < 4294967296) :
    s.shownOffset32 co = s.shownOffset co := by
  have hword : ∀ n : Int, 0 ≤ n → n < 4294967296 → ((UInt32.ofInt n).toNat : Int) = n := by
    intro n h₀ h₁
    rw [UInt32.ofInt, UInt32.toNat_ofNat']
    omega
  unfold shownOffset32 shownOffset
  dsimp only
  have hoff : 0 ≤ (if co < s.offset then co else s.offset) ∧
      (if co < s.offset then co else s.offset) ≤ s.offset := by
    split <;> omega
  generalize (if co < s.offset then co else s.offset) = offset at hoff ⊢
  have hcmp : UInt32.ofInt co ≥ UInt32.ofNat s.columns + UInt32.ofInt offset ↔
      co ≥ s.columns + offset := by
    have h₁ := hword co hco (by omega)
    have h₂ := hword offset hoff.1 (by omega)
    rw [ge_iff_le, UInt32.le_iff_toNat_le, UInt32.toNat_add, UInt32.toNat_ofNat']
    omega
  by_cases h : co ≥ s.columns + offset
  · rw [if_pos h, if_pos (hcmp.mpr h)]
  · rw [if_neg h, if_neg (hcmp.not.mpr h)]

/-! ## A second call -/

/-- The screen position that `sync_cursor` leaves is one it leaves as it is. -/
theorem syncCursor_fixed (h₀ : s.text ≤ d) (h₁ : d < s.end_) (hr : 2 ≤ s.rows)
    (hc : 1 ≤ s.columns) (htop : s.text ≤ s.screenbegin) (hnl : s.mem (s.end_ - 1) = NL) :
    (s.syncCursor d).syncCursor d = s.syncCursor d := by
  obtain ⟨hsb, hoff⟩ := syncCursor_again h₀ h₁ hr hc htop hnl (s.syncCursor d).cindex
  change ((s.syncCursor d).syncCursor d).screenbegin = (s.syncCursor d).screenbegin at hsb
  change ((s.syncCursor d).syncCursor d).offset = (s.syncCursor d).offset at hoff
  obtain ⟨hbuf, htab, -, hrows, hmode, -⟩ := syncCursor_same s d
  obtain ⟨hsb₁, -, hccol₁⟩ := syncCursor_settled h₀ h₁ hr htop
  have htop' : s.text ≤ (s.syncCursor d).screenbegin := by
    rw [hsb₁]
    exact (scrolled_onScreen h₀ h₁ hr htop).text_le
  obtain ⟨hsb₂, -, hccol₂⟩ := syncCursor_settled (s := s.syncCursor d) (d := d) (hbuf ▸ h₀)
    (hbuf ▸ h₁) (hrows ▸ hr) (hbuf ▸ htop')
  have hcol : (s.syncCursor d).cursorColumn d = s.cursorColumn d := by
    unfold cursorColumn
    rw [colLoop_congr hbuf htab hmode, hbuf]
  have hcrow : ((s.syncCursor d).syncCursor d).crow = (s.syncCursor d).crow := by
    rw [syncCursor_crow, syncCursor_crow, rowLoop_congr hbuf, hbuf, hrows, ← hsb₂, hsb, hsb₁]
  have hccol : ((s.syncCursor d).syncCursor d).ccol = (s.syncCursor d).ccol := by
    rw [hccol₂, hccol₁, hcol, hoff]
  rw [syncCursor_position (s.syncCursor d) d, hsb, hoff, hcrow, hccol]

/-- **The cursor line is on the screen.**  In a text that ends with a newline, and from wherever the
screen was, `sync_cursor` leaves a row of the screen that is the line of `d` and a column of the
screen, and a second call changes nothing. -/
theorem syncCursor_shows (s : Ed) {d : Int} (h₀ : s.text ≤ d) (h₁ : d < s.end_)
    (hnl : s.mem (s.end_ - 1) = NL) (htop : s.text ≤ s.screenbegin) (hr : 2 ≤ s.rows)
    (ht : 1 ≤ s.tabstop) (hc : s.tabstop ≤ s.columns) :
    let s' := s.syncCursor d
    (0 ≤ s'.crow ∧ s'.crow ≤ s.rows - 2) ∧
      s.nextLine^[s'.crow.toNat] s'.screenbegin = s.beginLine d ∧
      (0 ≤ s'.ccol ∧ s'.ccol < s.columns) ∧ s'.syncCursor d = s' := by
  intro s'
  obtain ⟨j, hj, hcrow, hline⟩ := syncCursor_row h₀ h₁ hr htop hnl
  replace hcrow : s'.crow = j := hcrow
  refine ⟨by rw [hcrow]; omega, ?_, syncCursor_ccol h₀ h₁ hr ht hc htop,
    syncCursor_fixed h₀ h₁ hr (by omega) htop hnl⟩
  rw [hcrow, Int.toNat_natCast]
  exact hline

/-- Two lines, the screen on the second, the cursor on the first. -/
theorem syncCursor_shows_above :
    let s : Ed := { showing [97, NL, 98, NL] with screenbegin := 2 }
    let s' := s.syncCursor 0
    (0 ≤ s'.crow ∧ s'.crow ≤ s.rows - 2) ∧
      s.nextLine^[s'.crow.toNat] s'.screenbegin = s.beginLine 0 ∧
      (0 ≤ s'.ccol ∧ s'.ccol < s.columns) ∧ s'.syncCursor 0 = s' :=
  syncCursor_shows { showing [97, NL, 98, NL] with screenbegin := 2 } (by decide) (by decide)
    (by decide) (by decide) (by decide) (by decide) (by decide)

end Evim.Ed
