import Ewokos.Evim.Selection
import Ewokos.Evim.ScrolledLine

/-!
# evim: the selection mask and the line

The columns that `visual_span_mask` of `bin/evim/vim_term.c` marks, against the line as
`format_line` expands it without an offset.

* `drawn_src_iff` — which byte a cell of the expansion is drawn from.
* `visualSpanMask_expansion` — the mask.
-/

set_option autoImplicit false

namespace Evim.Ed

open Cells
open CString hiding strchr

variable {s : Ed} {p : Int}

/-- The line as `format_line` expands it on a screen of `w` columns with nothing scrolled off. -/
def unscrolled (s : Ed) (w : Nat) (p : Int) : List Cell :=
  { s with offset := 0, columns := w }.formatCells p

/-- What `format_line` draws for a byte depends neither on the offset nor on the width. -/
theorem drawn_unscrolled (s : Ed) (w : Nat) (p : Int) : ∀ n,
    Ed.drawn { s with offset := 0, columns := w } p n = s.drawn p n
  | 0 => rfl
  | n + 1 => by
    rw [drawn, drawn, drawn_unscrolled s w p n]
    rfl

/-- The expansion, as far as the screen goes. -/
theorem unscrolled_iff (ht : 1 ≤ s.tabstop) {w x : Nat} (hx : x < w) (ch : UInt8) (a : Int) :
    (s.unscrolled w p)[x]? = some ⟨ch, some a⟩ ↔
      (s.drawn p (s.lineLength p))[x]? = some ⟨ch, some a⟩ := by
  obtain ⟨m, hdraws, hstop, hcells⟩ :=
    formatCells_iff (s := { s with offset := 0, columns := w }) ht (Int.le_refl 0) p
  have hline : m ≤ s.lineLength p := le_lineLength fun i hi => (hdraws i hi).2
  rw [unscrolled, hcells, drawn_unscrolled]
  change (s.drawn p m)[x]? = _ ↔ _
  rcases Nat.eq_or_lt_of_le hline with rfl | hlt
  · rfl
  · -- the loop stops within the line: it has filled the screen
    have hin := (s.lineLength_spec p).1 m hlt
    have hfull : w ≤ (s.drawn p m).length := by
      have hshows := drawingAt_shows (s := { s with offset := 0, columns := w }) ht
        (Int.le_refl 0) p m
      have hlen := hshows.length_dest
      have hle := hshows.le
      have hnonneg := hshows.nonneg
      rw [drawn_unscrolled] at hlen
      dsimp only at hlen hle
      by_contra hshort
      refine hstop ⟨?_, hin⟩
      change (_ : Int) < w + s.tabstop
      omega
    obtain ⟨t, ht'⟩ := s.drawn_prefix p hline
    rw [← ht', List.getElem?_append_left (by omega)]

/-- Outside the screen nothing is marked. -/
theorem spanLoop_outside {c : Int} (hc : ¬(0 ≤ c ∧ c < s.columns)) (lo hi : Int) :
    ∀ (fuel : Nat) (p co : Int) (sel : Int → Bool), s.spanLoop lo hi fuel p co sel c = sel c
  | 0, _, _, _ => rfl
  | fuel + 1, p, co, sel => by
    have hno (b : Bool) : (b && 0 ≤ c && c < s.columns) = false := by
      rw [Bool.and_assoc, Bool.and_eq_false_iff]
      right
      simpa using hc
    unfold spanLoop
    split
    · dsimp only
      split
      · dsimp only
        rw [hno, Bool.or_false]
      · rw [spanLoop_outside hc lo hi fuel, hno, Bool.or_false]
    · rfl

/-- The cells of byte `j` are those behind the bytes before it. -/
theorem drawn_src_iff {m x : Nat} {a : Int} : (∃ ch, (s.drawn p m)[x]? = some ⟨ch, some a⟩) ↔
    ∃ j < m, a = p + j ∧ (s.drawn p j).length ≤ x ∧ x < (s.drawn p (j + 1)).length := by
  constructor
  · rintro ⟨ch, h⟩
    exact drawn_src h
  · rintro ⟨j, hj, rfl, hlow, hhigh⟩
    obtain ⟨t, ht⟩ := s.drawn_prefix p (show j + 1 ≤ m from hj)
    have hcell := List.getElem?_eq_getElem hhigh
    have hmem : (s.drawn p (j + 1))[x] ∈ s.byteCells (p + j) (s.drawn p j).length := by
      have htail : (s.drawn p (j + 1))[x]? =
          (s.byteCells (p + j) (s.drawn p j).length)[x - (s.drawn p j).length]? := by
        rw [drawn, List.getElem?_append_right hlow]
      exact List.mem_of_getElem? (htail.symm.trans hcell)
    refine ⟨(s.drawn p (j + 1))[x].char, ?_⟩
    rw [← ht, List.getElem?_append_left hhigh, hcell, ← mem_byteCells hmem]

/-- **The mask.**  It has the columns of the screen that show a byte of the selection, and the cell
behind the line if its newline is selected. -/
theorem visualSpanMask_expansion (hts : 1 ≤ s.tabstop ∧ s.tabstop ≤ MAX_TABSTOP) (p lo hi : Int)
    (_ : lo ≤ hi) (c : Int) : s.visualSpanMask p lo hi c = true ↔
      (0 ≤ c ∧ c < s.columns) ∧ ∃ x : Nat, (x : Int) = s.offset + c ∧
        ((∃ ch a, (s.unscrolled (x + 1) p)[x]? = some ⟨ch, some a⟩ ∧ lo ≤ a ∧ a ≤ hi) ∨
          x = (s.drawn p (s.lineLength p)).length ∧ p + s.lineLength p < s.end_ ∧
            lo ≤ p + s.lineLength p ∧ p + s.lineLength p ≤ hi) := by
  by_cases hc : 0 ≤ c ∧ c < s.columns
  · obtain ⟨k, rfl⟩ := Int.eq_ofNat_of_zero_le hc.1
    rw [visualSpanMask_iff hts.1 lo hi p (by omega), and_iff_right hc]
    simp only [unscrolled_iff hts.1 (Nat.lt_succ_self _)]
    obtain ⟨hin, hend⟩ := s.lineLength_spec p
    constructor
    · rintro ⟨n, hline, hlt, hlo, hhi, hcell⟩
      have hn : n ≤ s.lineLength p :=
        le_lineLength fun i hi => ⟨by omega, hline i hi⟩
      by_cases hnl : s.mem (p + n) = NL
      · rw [if_pos hnl] at hcell
        obtain rfl : n = s.lineLength p := by
          by_contra hne
          exact (hin n (by omega)).2 hnl
        exact ⟨_, by omega, .inr ⟨rfl, hlt, hlo, hhi⟩⟩
      · rw [if_neg hnl] at hcell
        obtain ⟨x, hx⟩ := Int.eq_ofNat_of_zero_le (a := s.offset + k) (by omega)
        have hne : n ≠ s.lineLength p := by
          rintro rfl
          exact hend ⟨hlt, hnl⟩
        obtain ⟨ch, hch⟩ : ∃ ch, (s.drawn p (s.lineLength p))[x]? = some ⟨ch, some (p + n)⟩ :=
          drawn_src_iff.mpr ⟨n, by omega, rfl, by omega, by omega⟩
        exact ⟨x, hx.symm, .inl ⟨ch, p + n, hch, hlo, hhi⟩⟩
    · rintro ⟨x, hx, ⟨ch, a, hch, hlo, hhi⟩ | ⟨rfl, hlt, hlo, hhi⟩⟩
      · obtain ⟨j, hj, rfl, hlow, hhigh⟩ := drawn_src_iff.mp ⟨ch, hch⟩
        refine ⟨j, fun i hi => (hin i (by omega)).2, (hin j hj).1, hlo, hhi, ?_⟩
        rw [if_neg (hin j hj).2]
        omega
      · refine ⟨_, fun i hi => (hin i hi).2, hlt, hlo, hhi, ?_⟩
        rw [if_pos (not_not.mp fun hnl => hend ⟨hlt, hnl⟩)]
        omega
  · rw [visualSpanMask, spanLoop_outside hc]
    exact iff_of_false Bool.false_ne_true fun h => hc h.1

/-- A tab in front of a `b`, which alone is selected: the tab is seven columns wide. -/
theorem visualSpanMask_expansion_tab :
    (showing [9, 98, NL]).visualSpanMask 0 1 1 7 = true :=
  (visualSpanMask_expansion (s := showing [9, 98, NL]) ⟨by decide, by decide⟩ 0 1 1 (by decide)
    7).mpr ⟨by decide, 7, by decide, .inl ⟨98, 1, by decide +kernel, by decide, by decide⟩⟩

end Evim.Ed
