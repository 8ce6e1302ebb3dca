import Ewokos.Evim.AutoIndent

/-!
# evim: columns and the bytes at them

`move_to_col` of `bin/evim/vim_text.c` against `get_column`, through tabs and control bytes.

* `columnAt_strictMono` — columns grow along a line.
* `moveLoop_spec` — the do-while loop, from any byte of the line on.
* `moveToCol_getColumn` — the two functions together.
-/

set_option autoImplicit false

namespace Evim.Ed

open Cells
open CString hiding strchr

variable {s : Ed} {a p l : Int}

theorem columnAt_strictMono (hts : 1 ≤ s.tabstop) (a : Int) : StrictMono (s.columnAt a) :=
  strictMono_nat_of_lt_succ fun n => lt_nextColumn hts (s.mem (a + n)) (s.columnAt a n)

/-- Where the loop stops on a line of `len` bytes and a newline: on the last byte that does not
begin behind column `l`. -/
theorem moveLoop_spec {len : Nat} (hline : ∀ i < len, s.mem (a + i) ≠ NL)
    (hnl : s.mem (a + len) = NL) (hend : a + len < s.end_) : ∀ (fuel : Nat) {n : Nat}, n ≤ len →
      len < n + fuel → s.columnAt a n ≤ l →
        ∃ m, n ≤ m ∧ m ≤ len ∧ s.moveLoop l fuel (a + n) (s.columnAt a n) = a + m ∧
          s.columnAt a m ≤ l ∧ (m = len ∨ l < s.columnAt a (m + 1))
  | 0, n, hn, hfuel, _ => by omega
  | fuel + 1, n, hn, hfuel, hcol => by
    rw [moveLoop]
    rcases Nat.eq_or_lt_of_le hn with rfl | hlt
    · rw [if_pos hnl]
      exact ⟨n, Nat.le_refl n, Nat.le_refl n, rfl, hcol, .inl rfl⟩
    · rw [if_neg (hline n hlt)]
      change ∃ m, n ≤ m ∧ m ≤ len ∧ (if s.columnAt a (n + 1) ≤ l then _ else _) = _ ∧ _
      by_cases hnext : s.columnAt a (n + 1) ≤ l
      · rw [if_pos hnext, if_pos (by omega)]
        obtain ⟨m, hm, h⟩ := moveLoop_spec hline hnl hend fuel (n := n + 1) hlt (by omega) hnext
        rw [show a + (n : Int) + 1 = a + (n + 1 : Nat) by push_cast; omega]
        exact ⟨m, by omega, h⟩
      · rw [if_neg hnext]
        exact ⟨n, Nat.le_refl n, hn, rfl, hcol, .inr (Int.not_le.mp hnext)⟩

/-- The line of `p`, as a start and a length. -/
theorem line_of (hnl : s.mem (s.end_ - 1) = NL) (h₁ : p < s.end_) :
    ∃ len : Nat, s.endLine p = s.beginLine p + len ∧ s.beginLine p + len < s.end_ ∧
      s.mem (s.beginLine p + len) = NL ∧ ∀ i < len, s.mem (s.beginLine p + i) ≠ NL := by
  have hle := s.beginLine_le p
  have hge := s.le_endLine p
  obtain ⟨len, hlen⟩ := Int.eq_ofNat_of_zero_le (a := s.endLine p - s.beginLine p) (by omega)
  have hlast : s.mem (s.endLine p) = NL := by
    rcases s.endLine_stop h₁ with h | h
    · exact h
    · rw [h]
      exact hnl
  have heq : s.endLine p = s.beginLine p + len := by omega
  refine ⟨len, heq, heq ▸ s.endLine_lt h₁, heq ▸ hlast, fun i hi => ?_⟩
  by_cases hp : s.beginLine p + i < p
  · exact s.beginLine_noNL (by omega) hp
  · exact s.endLine_noNL (p := p) (by omega) (by omega)

/-- **Columns.**  `move_to_col` stays on the line, on the byte that column `l` belongs to, and takes
the column of each byte back to the byte. -/
theorem moveToCol_getColumn (hts : 1 ≤ s.tabstop ∧ s.tabstop ≤ MAX_TABSTOP)
    (hnl : s.mem (s.end_ - 1) = NL) (h₀ : s.text ≤ p) (h₁ : p < s.end_) :
    (∀ l : Int, 0 ≤ l → s.beginLine p ≤ s.moveToCol p l ∧ s.moveToCol p l ≤ s.endLine p ∧
      s.getColumn (s.moveToCol p l) ≤ l ∧ (s.mem (s.moveToCol p l) = NL ∨
        l < s.nextColumn (s.mem (s.moveToCol p l)) (s.getColumn (s.moveToCol p l)))) ∧
    ∀ x : Int, s.beginLine p ≤ x → x ≤ s.endLine p → s.moveToCol p (s.getColumn x) = x := by
  obtain ⟨len, hlen, hend, hlast, hline⟩ := line_of hnl h₁
  have hstart : s.LineStart (s.beginLine p) := Buf.LineStart.beginLine s.toBuf h₀
  have hcol {m : Nat} (hm : m ≤ len) :
      s.getColumn (s.beginLine p + m) = s.columnAt (s.beginLine p) m := by
    refine getColumn_columnAt hstart fun i hi hi' => ?_
    obtain ⟨j, rfl⟩ : ∃ j : Nat, i = s.beginLine p + j := ⟨(i - s.beginLine p).toNat, by omega⟩
    exact hline j (by omega)
  have hmove {l : Int} (hl : 0 ≤ l) : ∃ m ≤ len, s.moveToCol p l = s.beginLine p + m ∧
      s.columnAt (s.beginLine p) m ≤ l ∧ (m = len ∨ l < s.columnAt (s.beginLine p) (m + 1)) := by
    have h := moveLoop_spec hline hlast hend ((s.end_ - s.beginLine p).toNat + 1)
      (n := 0) (l := l) (Nat.zero_le len) (by omega) hl
    rw [Nat.cast_zero, Int.add_zero] at h
    obtain ⟨m, -, hm, h⟩ := h
    exact ⟨m, hm, h⟩
  refine ⟨fun l hl => ?_, fun x hx hx' => ?_⟩
  · obtain ⟨m, hm, heq, hle, hstop⟩ := hmove hl
    rw [heq, hcol hm]
    refine ⟨by omega, by omega, hle, hstop.imp (fun h => ?_) id⟩
    rw [h]
    exact hlast
  · obtain ⟨j, rfl⟩ : ∃ j : Nat, x = s.beginLine p + j := ⟨(x - s.beginLine p).toNat, by omega⟩
    have hj : j ≤ len := by omega
    have hmono := columnAt_strictMono hts.1 (s.beginLine p)
    have hpos : 0 ≤ s.columnAt (s.beginLine p) j := by
      have := columnAt_pos hts.1 (s.beginLine p) j
      omega
    rw [hcol hj]
    obtain ⟨m, hm, heq, hle, hstop⟩ := hmove hpos
    have hmj : m ≤ j := hmono.le_iff_le.mp hle
    have hjm : j ≤ m := by
      rcases hstop with rfl | hlt
      · exact hj
      · exact Nat.lt_succ_iff.mp (hmono.lt_iff_lt.mp hlt)
    rw [heq, Nat.le_antisymm hmj hjm]

/-- The `b` behind a tab is in column 8, and column 7 belongs to the tab. -/
theorem moveToCol_getColumn_tab :
    let s := showing [97, 9, 98, NL]
    s.getColumn (s.moveToCol 0 7) ≤ 7 ∧ s.moveToCol 0 (s.getColumn 2) = 2 := by
  obtain ⟨hcolumn, hbyte⟩ := moveToCol_getColumn (s := showing [97, 9, 98, NL]) (p := 0)
    ⟨by decide, by decide⟩ (by decide) (by decide) (by decide)
  exact ⟨(hcolumn 7 (by decide)).2.2.1, hbyte 2 (by decide) (by decide)⟩

end Evim.Ed
