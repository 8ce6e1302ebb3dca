import Ewokos.Evim.Rendition
import Ewokos.Evim.ScrolledLine
import Ewokos.Evim.TokenEnds

/-!
# evim: colors of a scrolled line

`syntax_write_slice` of `bin/evim/vim_syntax.c` colors the columns of the screen, not the line: what
is scrolled off to the left or behind the right edge is not seen by the scanners.

* `Seen` — a column that the scanner comes to as it does in the whole line.
* `marks_window` — its mark is the one that it has in the whole line.
* `Unscrolled` — the columns that are colored as in the whole line.

Main result: `scroll_colors`.
-/

set_option autoImplicit false

namespace Evim

open Scan
open Color (Phase lineScanner rdScanner)
open CString hiding strchr

/-! ## Windows -/

/-- `w` shows the line from column `off` on, with spaces behind it. -/
def Window (e : List UInt8) (off : Nat) (w : List UInt8) : Prop :=
  ∀ i < w.length, w.getD i 32 = e.getD (off + i) 32

/-- Column `i` of the window `w` is scanned as in the line `e`: at a column `k`, not behind it, a token
begins in the line and in the window, both times in the phase `ph`; and at the right edge the line
ends, or a token that is not blank is seen to begin behind the column, or the token of the column is
of one kind and holds it however the line goes on. -/
structure Seen (S : Scanner Phase UInt8 Color) (e : List UInt8) (off : Nat) (w : List UInt8)
    (i k : Nat) (ph : Phase) : Prop where
  le : k ≤ i
  line : S.Reaches .start e ph (e.drop (off + k))
  window : S.Reaches .start w ph (w.drop k)
  right : e.length ≤ off + w.length ∨ S.BeginsBehind isblank ph (w.drop k) (i - k) ∨
    S.HeldByFirst ph (w.drop k) (i - k)

/-- The whole line and its window `w` are to be colored alike in column `i`. -/
def Unscrolled (m : SyntaxMode) (e : List UInt8) (off : Nat) (w : List UInt8) (i : Nat) : Prop :=
  m = .none ∨ isFillerLine e = true ∨
    isFillerLine w = false ∧ ∃ k ph, Seen (lineScanner m) e off w i k ph

section Marks

variable {S : Scanner Phase UInt8 Color} {e w : List UInt8} {off : Nat}

theorem Window.take (h : Window e off w) {k : Nat} (hk : k ≤ w.length)
    (hk' : off + k ≤ e.length) : w.take k = (e.drop off).take k := by
  apply List.ext_getElem
  · rw [List.length_take, List.length_take, List.length_drop]
    omega
  · intro i h₁ h₂
    rw [List.length_take] at h₁
    have hi := h i (by omega)
    rw [List.getD_eq_getElem _ _ (by omega), List.getD_eq_getElem _ _ (by omega)] at hi
    rw [List.getElem_take, List.getElem_take, List.getElem_drop]
    exact hi

/-- A line that ends in the window. -/
theorem Window.padded (h : Window e off w) (hoff : off ≤ e.length)
    (hend : e.length ≤ off + w.length) :
    w = e.drop off ++ List.replicate (w.length - (e.length - off)) 32 := by
  have htake := h.take (k := e.length - off) (by omega) (by omega)
  have hall : (e.drop off).take (e.length - off) = e.drop off :=
    List.take_of_length_le (by rw [List.length_drop])
  rw [hall] at htake
  have hrest : w.drop (e.length - off) =
      List.replicate (w.length - (e.length - off)) 32 := by
    apply List.ext_getElem
    · rw [List.length_drop, List.length_replicate]
    · intro i h₁ h₂
      rw [List.length_drop] at h₁
      have hi := h (e.length - off + i) (by omega)
      rw [List.getD_eq_getElem _ _ (by omega), List.getD_eq_default _ _ (by omega)] at hi
      rw [List.getElem_drop, List.getElem_replicate]
      exact hi
  rw [← htake, ← hrest, List.take_append_drop]

theorem Window.drop (h : Window e off w) (k : Nat) : Window e (off + k) (w.drop k) := by
  intro i hi
  rw [List.length_drop] at hi
  have hk := h (k + i) (by omega)
  rw [List.getD_eq_getElem?_getD, List.getElem?_drop, ← List.getD_eq_getElem?_getD, hk,
    Nat.add_assoc]

/-- The mark of a column that is seen as in the line. -/
theorem marks_window (hl : S.Local isblank) (h : Window e off w) {i k : Nat} {ph : Phase}
    (hi : i < w.length) (hi' : off + i < e.length) (hseen : Seen S e off w i k ph) :
    (S.marks .start w)[i]? = (S.marks .start e)[off + i]? := by
  have hle := hseen.le
  have hw := Scanner.getElem?_marks hseen.window (i - k)
  have he := Scanner.getElem?_marks hseen.line (i - k)
  rw [List.length_drop, show w.length - (w.length - k) + (i - k) = i by omega] at hw
  rw [List.length_drop, show e.length - (e.length - (off + k)) + (i - k) = off + i by omega] at he
  rw [← hw, ← he]
  by_cases hend : e.length ≤ off + w.length
  · -- nothing but spaces stands behind the line
    have hin : i - k < (e.drop (off + k)).length := by
      rw [List.length_drop]
      omega
    have hpad := (h.drop k).padded (by omega) (by rw [List.length_drop]; omega)
    generalize (w.drop k).length - (e.length - (off + k)) = n at hpad
    have hspaces : ∀ a ∈ List.replicate n 32, isblank a = true := by
      intro a ha
      rw [List.eq_of_mem_replicate ha]
      decide
    have hmarks := Scanner.marks_padded hl (y := []) (fun a ha => nomatch ha) hspaces ph
      (e.drop (off + k))
    rw [← hpad, List.append_nil] at hmarks
    rw [← List.getElem?_take_of_lt hin, ← hmarks, List.getElem?_take_of_lt hin]
  · have hdecided : S.Decided ph (w.drop k) (i - k) :=
      (hseen.right.resolve_left hend).elim (·.decided hl) (·.decided)
    have htake := (h.drop k).take (k := (w.drop k).length) (Nat.le_refl _) (by
      rw [List.length_drop]
      omega)
    rw [List.take_length] at htake
    have hsplit := List.take_append_drop (w.drop k).length (e.drop (off + k))
    rw [← htake] at hsplit
    rw [← hsplit, hdecided]

end Marks

/-! ## Filler lines -/

theorem filler_tail {l : List UInt8} (h : isFillerLine l = true) {j : Nat} (hj : 0 < j) :
    l.getD j 32 = 32 := by
  cases l with
  | nil => rfl
  | cons c rest =>
    obtain ⟨k, rfl⟩ : ∃ k, j = k + 1 := ⟨j - 1, by omega⟩
    rw [isFillerLine, Bool.and_eq_true, List.all_eq_true] at h
    rw [List.getD_cons_succ]
    by_cases hk : k < rest.length
    · rw [List.getD_eq_getElem _ _ hk]
      exact beq_iff_eq.mp (h.2 _ (List.getElem_mem hk))
    · exact List.getD_eq_default _ _ (Nat.not_lt.mp hk)

/-- A window of a filler line is one, or blank. -/
theorem filler_window {e w : List UInt8} {off : Nat} (h : Window e off w)
    (hfill : isFillerLine e = true) :
    isFillerLine w = true ∨ w = List.replicate w.length 32 := by
  have hblank {i : Nat} (hi : i < w.length) (hpos : 0 < off + i) : w[i] = 32 := by
    rw [← List.getD_eq_getElem w 32 hi, h i hi]
    exact filler_tail hfill hpos
  by_cases hoff : off = 0
  · cases w with
    | nil => exact .inr rfl
    | cons c rest =>
      left
      have hfirst := h 0 (Nat.succ_pos _)
      cases e with
      | nil => cases hfill
      | cons d tail =>
        rw [hoff] at hfirst
        change c = d at hfirst
        rw [isFillerLine, Bool.and_eq_true] at hfill ⊢
        refine ⟨hfirst ▸ hfill.1, List.all_eq_true.mpr fun x hx => ?_⟩
        obtain ⟨k, hk, rfl⟩ := List.getElem_of_mem hx
        exact beq_iff_eq.mpr (hblank (i := k + 1) (Nat.succ_lt_succ hk) (by omega))
  · exact .inr (List.eq_replicate_iff.mpr ⟨rfl, fun x hx => by
      obtain ⟨k, hk, rfl⟩ := List.getElem_of_mem hx
      exact hblank hk (by omega)⟩)

/-! ## The screen -/

theorem lineColor_none {m : SyntaxMode} {l : List UInt8} {n : Nat}
    (h : lineColors m (l.take n) = none) (i : Nat) : lineColor m n l i = .default := by
  rw [lineColor, h]
  rfl

theorem lineColor_blank {m : SyntaxMode} {l : List UInt8} {n k : Nat}
    (h : l.take n = List.replicate k 32) (i : Nat) : lineColor m n l i = .default := by
  rw [lineColor, h]
  rcases lineColors_blank m k with hnone | hsome
  · rw [hnone]
    rfl
  · rw [hsome]
    change (List.replicate k Color.default).getD i .default = .default
    rw [List.getD_eq_getElem?_getD, List.getElem?_getD_replicate_default_eq]

namespace Ed

variable {s : Ed} {p : Int}

/-- What `syntax_write_slice` is given of a line. -/
def shown (s : Ed) (p : Int) : List UInt8 := (s.formatLine p).take s.columns

theorem shown_window (ht : 2 ≤ s.tabstop ∧ s.tabstop ≤ MAX_TABSTOP)
    (hc : s.columns ≤ MAX_SCR_COLS) (ho : 0 ≤ s.offset) (p : Int) :
    (s.shown p).length = s.columns ∧ Window (s.expansion p) s.offset.toNat (s.shown p) := by
  have hlen : (s.shown p).length = s.columns := by
    rw [shown, List.length_take]
    exact Nat.min_eq_left (s.columns_le_formatLine p)
  have hwindowed : s.Windowed p := by
    by_cases hp : p < s.end_
    · exact (fits_windowed ht.1 ht.2 hc ho hp).2
    · exact windowed_past (by omega) ho hp
  refine ⟨hlen, fun i hi => ?_⟩
  rw [← hwindowed i (hlen ▸ hi), shown, List.getD_eq_getElem?_getD, List.getD_eq_getElem?_getD,
    List.getElem?_take, if_pos (hlen ▸ hi)]

end Ed

end Evim
