import Ewokos.Evim.Lines

/-!
# evim: drawing a line

`format_line` of `bin/evim/vim_term.c`.  Every cell carries the address of the byte it is drawn
from, so that the columns of the text can be compared with those of the cursor.

* `formatCells`, `formatLine` — the function; only its first `columns` chars are used.
* `drawn` — the cells of the first bytes of a line, without an offset or a right margin.
* `formatCells_iff` — the cells of `format_line` are those of `drawn` behind the offset, for the
  bytes its loop gets to.
* `drawn_length_lt` — a tab makes the drawn text shorter than the columns of `next_column`.
-/

set_option autoImplicit false

namespace Evim.Ed

open Cells
open CString hiding strchr

/-! ## `format_line` -/

/-- A char of the screen, and the byte it is drawn from. -/
structure Cell where
  char : UInt8
  src : Option Int
  deriving DecidableEq, Repr

/-- The buffer of `format_line`: the cells behind `dest`, and the offset still to discard. -/
structure Drawing where
  dest : List Cell
  ofs : Int

/-- The cells for the byte at `p`, at column `co`. -/
def byteCells (s : Ed) (p : Int) (co : Nat) : List Cell :=
  let c := s.mem p
  let c := if 128 ≤ c ∧ !isAsciionly c.toNat then chr '.' else c
  -- the tab stops one column short of `next_tabstop`
  if c = 9 then List.replicate (s.tabstop - 1 - co % s.tabstop).toNat ⟨32, some p⟩
  else if c < 32 ∨ c = 127 then
    [⟨chr '^', some p⟩, ⟨if c = 127 then chr '?' else c + 64, some p⟩]
  else [⟨c, some p⟩]

/-- Discard the scrolled-off-to-the-left portion, in tabstop-sized pieces. -/
def discard (s : Ed) (d : Drawing) : Drawing :=
  if d.ofs ≥ s.tabstop ∧ (d.dest.length : Int) ≥ s.tabstop then
    ⟨d.dest.drop s.tabstop.toNat, d.ofs - s.tabstop⟩
  else d

/-- Draw the byte at `p`; a tab skips the rest of the loop. -/
def draw (s : Ed) (d : Drawing) (p : Int) : Drawing :=
  let cells := d.dest ++ s.byteCells p d.dest.length
  if s.mem p = 9 then ⟨cells, d.ofs⟩ else s.discard ⟨cells, d.ofs⟩

/-- The loop of `format_line`; `c` is what it draws when there is no byte left. -/
def formatLoop (s : Ed) : Nat → Int → UInt8 → Drawing → Drawing
  | 0, _, _, d => d
  | fuel + 1, src, c, d =>
    if (d.dest.length : Int) ≥ s.columns + s.tabstop then d
    else if src < s.end_ then
      if s.mem src = NL then d
      else if s.mem src = 9 then formatLoop s fuel (src + 1) 32 (s.draw d src)
      else if src + 1 ≥ s.end_ then s.draw d src
      else formatLoop s fuel (src + 1) c (s.draw d src)
    else s.discard ⟨d.dest ++ [⟨c, none⟩], d.ofs⟩

/-- `format_line`. -/
def formatCells (s : Ed) (src : Int) : List Cell :=
  let d := s.formatLoop ((s.end_ - src).toNat + 2) src (chr '~') ⟨[], s.offset⟩
  -- "short line, gigantic offset"
  let ofs : Int := if d.dest.length < d.ofs then d.dest.length else d.ofs
  let dest := d.dest.drop ofs.toNat
  dest ++ List.replicate (s.columns - dest.length) ⟨32, none⟩

/-- The chars of `format_line`. -/
def formatLine (s : Ed) (src : Int) : List UInt8 := (s.formatCells src).map Cell.char

theorem columns_le_formatLine (s : Ed) (src : Int) : s.columns ≤ (s.formatLine src).length := by
  unfold formatLine formatCells
  rw [List.length_map, List.length_append, List.length_replicate]
  omega

/-! ## Without offset and margin -/

/-- The cells of the first `n` bytes from `p` on. -/
def drawn (s : Ed) (p : Int) : Nat → List Cell
  | 0 => []
  | n + 1 => drawn s p n ++ s.byteCells (p + n) (drawn s p n).length

/-- The column behind the first `n` bytes from `p` on. -/
def columnAt (s : Ed) (p : Int) : Nat → Int
  | 0 => 0
  | n + 1 => s.nextColumn (s.mem (p + n)) (columnAt s p n)

/-- The state of the loop when it has drawn `n` bytes from `p` on. -/
def drawingAt (s : Ed) (p : Int) : Nat → Drawing
  | 0 => ⟨[], s.offset⟩
  | n + 1 => s.draw (drawingAt s p n) (p + n)

/-- The loop draws byte `n` from `p` on, if it gets there. -/
def Draws (s : Ed) (p : Int) (n : Nat) : Prop :=
  ((s.drawingAt p n).dest.length : Int) < s.columns + s.tabstop ∧ p + n < s.end_ ∧
    s.mem (p + n) ≠ NL

/-- A byte of one column: neither a tab nor a control byte. -/
def Narrow (c : UInt8) : Prop := 32 ≤ c ∧ c ≠ 127

instance (c : UInt8) : Decidable (Narrow c) := inferInstanceAs (Decidable (_ ∧ _))

variable {s : Ed} {p : Int}

theorem narrow_iff {c : UInt8} : Narrow c ↔ ¬(c < 32 ∨ c = 127) := by
  unfold Narrow
  rw [not_or, UInt8.not_lt]

theorem byteCells_length (p : Int) (co : Nat) : (s.byteCells p co).length =
    if s.mem p = 9 then (s.tabstop - 1 - co % s.tabstop).toNat
    else if Narrow (s.mem p) then 1 else 2 := by
  have hhigh : ∀ c : UInt8, 128 ≤ c → c ≠ 9 ∧ Narrow c := by
    intro c hc
    rw [UInt8.le_iff_toNat_le] at hc
    refine ⟨?_, UInt8.le_iff_toNat_le.mpr (Nat.le_trans (by decide) hc), ?_⟩
    · rintro rfl
      exact absurd hc (by decide)
    · rintro rfl
      exact absurd hc (by decide)
  unfold byteCells
  dsimp only
  split
  · rename_i h
    obtain ⟨h₁, h₂⟩ := hhigh _ h.1
    rw [if_neg (by decide), if_neg (by decide), if_neg h₁, if_pos h₂]
    rfl
  · by_cases h₁ : s.mem p = 9
    · rw [if_pos h₁, if_pos h₁, List.length_replicate]
    · rw [if_neg h₁, if_neg h₁]
      by_cases h₂ : s.mem p < 32 ∨ s.mem p = 127
      · rw [if_pos h₂, if_neg fun h => narrow_iff.mp h h₂]
        rfl
      · rw [if_neg h₂, if_pos (narrow_iff.mpr h₂)]
        rfl

theorem mem_byteCells {x : Cell} {p : Int} {co : Nat} (h : x ∈ s.byteCells p co) :
    x.src = some p := by
  unfold byteCells at h
  dsimp only at h
  generalize (if 128 ≤ s.mem p ∧ !isAsciionly (s.mem p).toNat then chr '.' else s.mem p) = c at h
  split at h
  · rw [List.eq_of_mem_replicate h]
  · split at h
    · rcases List.mem_cons.mp h with rfl | h
      · rfl
      · rw [List.mem_singleton.mp h]
    · rw [List.mem_singleton.mp h]

theorem nextColumn_eq (c : UInt8) (co : Int) : s.nextColumn c co =
    if c = 9 then co + (s.tabstop - 1 - co % s.tabstop) + 1
    else if Narrow c then co + 1 else co + 2 := by
  unfold nextColumn nextTabstop
  by_cases h₁ : c = 9
  · rw [if_pos h₁, if_pos h₁]
  · rw [if_neg h₁, if_neg h₁]
    by_cases h₂ : c < 32 ∨ c = 127
    · rw [if_pos h₂, if_neg fun h => narrow_iff.mp h h₂]
    · rw [if_neg h₂, if_pos (narrow_iff.mpr h₂)]

theorem drawn_prefix (s : Ed) (p : Int) {m n : Nat} (h : m ≤ n) :
    s.drawn p m <+: s.drawn p n := by
  induction n with
  | zero => rw [Nat.le_zero.mp h]
  | succ n ih =>
    rcases Nat.lt_or_ge n m with hlt | hle
    · rw [show m = n + 1 by omega]
    · exact (ih hle).trans (List.prefix_append _ _)

/-- A cell of a byte lies between what is drawn before and behind it. -/
theorem drawn_src : ∀ {m x : Nat} {c : UInt8} {a : Int}, (s.drawn p m)[x]? = some ⟨c, some a⟩ →
    ∃ j < m, a = p + j ∧ (s.drawn p j).length ≤ x ∧ x < (s.drawn p (j + 1)).length
  | 0, _, _, _, h => by cases h
  | m + 1, x, c, a, h => by
    by_cases hx : x < (s.drawn p m).length
    · rw [drawn, List.getElem?_append_left hx] at h
      obtain ⟨j, hj, ha, h₁, h₂⟩ := drawn_src h
      exact ⟨j, by omega, ha, h₁, h₂⟩
    · have hlt := (List.getElem?_eq_some_iff.mp h).1
      rw [drawn, List.getElem?_append_right (by omega)] at h
      exact ⟨m, by omega, Option.some.inj (mem_byteCells (List.mem_of_getElem? h)), by omega, hlt⟩

/-- The cell of a narrow byte. -/
theorem drawn_narrow {j m : Nat} (hj : j < m) (hn : Narrow (s.mem (p + j))) :
    ∃ c, (s.drawn p m)[(s.drawn p j).length]? = some ⟨c, some (p + j)⟩ := by
  have hne : s.mem (p + j) ≠ 9 := by
    intro h
    rw [h] at hn
    exact absurd hn (by decide)
  have hlen := byteCells_length (s := s) (p + j) (s.drawn p j).length
  rw [if_neg hne, if_pos hn] at hlen
  obtain ⟨x, hx⟩ := List.length_eq_one_iff.mp hlen
  have hsrc : x.src = some (p + j) := mem_byteCells (by rw [hx]; exact List.mem_singleton.mpr rfl)
  obtain ⟨t, ht⟩ := s.drawn_prefix p (show j + 1 ≤ m from hj)
  refine ⟨x.char, ?_⟩
  rw [← ht, drawn, hx, List.append_assoc, List.getElem?_append_right (Nat.le_refl _), Nat.sub_self,
    ← hsrc]
  rfl

/-! ## Columns -/

/-- Without a tab the text is drawn where `next_column` says. -/
theorem drawn_length_eq : ∀ {n : Nat}, (∀ k < n, s.mem (p + k) ≠ 9) →
    ((s.drawn p n).length : Int) = s.columnAt p n
  | 0, _ => rfl
  | n + 1, h => by
    have ih := drawn_length_eq (n := n) fun k hk => h k (by omega)
    have hne := h n (Nat.lt_succ_self n)
    rw [drawn, columnAt, List.length_append, byteCells_length, nextColumn_eq, if_neg hne,
      if_neg hne]
    split <;> push_cast <;> omega

/-- The next tab stop of two columns, the second one a column early. -/
theorem tab_lt {t a b : Int} (ht : 1 ≤ t) (h : a ≤ b) :
    a + (t - 1 - a % t) < b + (t - 1 - b % t) + 1 := by
  have ha := Int.mul_ediv_add_emod a t
  have hb := Int.mul_ediv_add_emod b t
  have hq : t * (a / t) ≤ t * (b / t) :=
    Int.mul_le_mul_of_nonneg_left (Int.ediv_le_ediv (by omega) h) (by omega)
  omega

/-- The drawn text is never behind the columns of `next_column`, and before them from the first
tab on. -/
theorem drawn_length_lt (ht : 1 ≤ s.tabstop) : ∀ {n : Nat},
    ((s.drawn p n).length : Int) ≤ s.columnAt p n ∧
      ((∃ k < n, s.mem (p + k) = 9) → ((s.drawn p n).length : Int) < s.columnAt p n)
  | 0 => ⟨Int.le_refl 0, fun ⟨k, hk, _⟩ => absurd hk (Nat.not_lt_zero k)⟩
  | n + 1 => by
    obtain ⟨hle, hlt⟩ := drawn_length_lt ht (n := n)
    rw [drawn, columnAt, List.length_append, byteCells_length, nextColumn_eq]
    by_cases htab : s.mem (p + n) = 9
    · rw [if_pos htab, if_pos htab]
      have h := tab_lt ht hle
      have hmod := Int.emod_lt_of_pos ((s.drawn p n).length : Int) (show 0 < s.tabstop by omega)
      have : ((s.tabstop - 1 - ((s.drawn p n).length : Int) % s.tabstop).toNat : Int) =
          s.tabstop - 1 - ((s.drawn p n).length : Int) % s.tabstop := Int.toNat_of_nonneg (by omega)
      push_cast
      rw [this]
      exact ⟨h.le, fun _ => h⟩
    · rw [if_neg htab, if_neg htab]
      have hback : (∃ k < n + 1, s.mem (p + k) = 9) → ∃ k < n, s.mem (p + k) = 9 := by
        rintro ⟨k, hk, h⟩
        refine ⟨k, ?_, h⟩
        rcases Nat.lt_succ_iff_lt_or_eq.mp hk with hk | rfl
        · exact hk
        · exact absurd h htab
      split
      · refine ⟨by push_cast; omega, fun h => ?_⟩
        have := hlt (hback h)
        push_cast
        omega
      · refine ⟨by push_cast; omega, fun h => ?_⟩
        have := hlt (hback h)
        push_cast
        omega

/-! ## The loop -/

/-- What the loop has drawn is `drawn` without the pieces it has discarded. -/
structure Shows (s : Ed) (cells : List Cell) (d : Drawing) : Prop where
  nonneg : 0 ≤ d.ofs
  le : d.ofs ≤ s.offset
  piece : s.tabstop ∣ s.offset - d.ofs
  length : s.offset - d.ofs ≤ cells.length
  dest : d.dest = cells.drop (s.offset - d.ofs).toNat

theorem Shows.length_dest {cells : List Cell} {d : Drawing} (h : Shows s cells d) :
    (d.dest.length : Int) = cells.length - (s.offset - d.ofs) := by
  have h₁ := h.le
  have h₂ := h.length
  rw [h.dest, List.length_drop]
  omega

theorem Shows.append {cells more : List Cell} {d : Drawing} (h : Shows s cells d) :
    Shows s (cells ++ more) ⟨d.dest ++ more, d.ofs⟩ where
  nonneg := h.nonneg
  le := h.le
  piece := h.piece
  length := by
    have := h.length
    rw [List.length_append]
    push_cast
    omega
  dest := by
    have h₁ := h.le
    have h₂ := h.length
    dsimp only
    rw [List.drop_append_of_le_length (by omega), ← h.dest]

theorem Shows.discard (ht : 1 ≤ s.tabstop) {cells : List Cell} {d : Drawing}
    (h : Shows s cells d) : Shows s cells (s.discard d) := by
  unfold Ed.discard
  split
  · rename_i hd
    have hlen := h.length_dest
    have hle := h.le
    refine ⟨by dsimp only; omega, by dsimp only; omega, ?_, by dsimp only; omega, ?_⟩
    · have := Dvd.dvd.add h.piece (Int.dvd_refl s.tabstop)
      rwa [show s.offset - d.ofs + s.tabstop = s.offset - (d.ofs - s.tabstop) by omega] at this
    · dsimp only
      rw [h.dest, List.drop_drop]
      congr 1
      omega
  · exact h

theorem drawingAt_shows (ht : 1 ≤ s.tabstop) (ho : 0 ≤ s.offset) (p : Int) :
    ∀ n, Shows s (s.drawn p n) (s.drawingAt p n)
  | 0 => ⟨ho, Int.le_refl _, by simp [drawingAt], by simp [drawingAt], by simp [drawingAt, drawn]⟩
  | n + 1 => by
    have ih := drawingAt_shows ht ho p n
    -- the width of a tab depends on the column up to whole tab stops only
    have hcol : s.byteCells (p + n) (s.drawingAt p n).dest.length =
        s.byteCells (p + n) (s.drawn p n).length := by
      have hlen := ih.length_dest
      obtain ⟨q, hq⟩ := ih.piece
      unfold byteCells
      rw [show ((s.drawingAt p n).dest.length : Int) % s.tabstop =
        ((s.drawn p n).length : Int) % s.tabstop by rw [hlen, hq, Int.sub_mul_emod_self_left]]
    rw [drawn, drawingAt]
    unfold draw
    dsimp only
    rw [hcol]
    split
    · exact ih.append
    · exact ih.append.discard ht

/-- What the loop can leave when it goes on from byte `k`: it draws byte after byte as long as it
can, and behind the text one char more. -/
def Ends (s : Ed) (p : Int) (k : Nat) (d : Drawing) : Prop :=
  ∃ m ≥ k, (∀ n, k ≤ n → n < m → s.Draws p n) ∧ ¬s.Draws p m ∧
    (d = s.drawingAt p m ∨ ∃ c,
      d = s.discard ⟨(s.drawingAt p m).dest ++ [⟨c, none⟩], (s.drawingAt p m).ofs⟩)

/-- The same with the reason: the margin, the newline, or the last byte of the text, when it is no
tab.  Behind the text the char is the one the loop is given if it draws no byte, else what a tab
leaves. -/
def Stops (s : Ed) (p : Int) (k : Nat) (c : UInt8) (d : Drawing) : Prop :=
  ∃ m ≥ k, (∀ n, k ≤ n → n < m → s.Draws p n) ∧ ¬s.Draws p m ∧
    (d = s.drawingAt p m ∧ (s.columns + s.tabstop ≤ (s.drawingAt p m).dest.length ∨
        p + m < s.end_ ∨ s.mem (p + m - 1) ≠ 9) ∨
      s.end_ ≤ p + m ∧ (k < m → s.mem (p + m - 1) = 9) ∧
      d = s.discard ⟨(s.drawingAt p m).dest ++ [⟨if m = k then c else 32, none⟩],
        (s.drawingAt p m).ofs⟩)

theorem Stops.stop {k : Nat} {c : UInt8} (h : ¬s.Draws p k)
    (hwhy : s.columns + s.tabstop ≤ (s.drawingAt p k).dest.length ∨ p + k < s.end_ ∨
      s.mem (p + k - 1) ≠ 9) : Stops s p k c (s.drawingAt p k) :=
  ⟨k, Nat.le_refl k, fun _ _ _ => by omega, h, .inl ⟨rfl, hwhy⟩⟩

theorem Stops.step {k : Nat} {c c' : UInt8} {d : Drawing} (h : s.Draws p k)
    (hc : s.mem (p + k) = 9 ∧ c' = 32 ∨ p + k + 1 < s.end_) (hd : Stops s p (k + 1) c' d) :
    Stops s p k c d := by
  obtain ⟨m, hm, hdraws, hn, hr⟩ := hd
  refine ⟨m, by omega, fun n h₁ h₂ => ?_, hn, ?_⟩
  · rcases Nat.eq_or_lt_of_le h₁ with rfl | h₁
    · exact h
    · exact hdraws n h₁ h₂
  · rcases hr with hr | ⟨hend, htab, hr⟩
    · exact .inl hr
    · refine .inr ⟨hend, fun _ => ?_, ?_⟩
      · by_cases hk : m = k + 1
        · have hlast : p + m - 1 = p + k := by omega
          rw [hlast]
          exact (hc.resolve_right (by omega)).1
        · exact htab (by omega)
      · have hchar : (if m = k + 1 then c' else (32 : UInt8)) = 32 := by
          by_cases hk : m = k + 1
          · rw [if_pos hk]
            exact (hc.resolve_right (by omega)).2
          · rw [if_neg hk]
        rw [hr, hchar, if_neg (by omega)]

theorem formatLoop_stops : ∀ {fuel k : Nat} {c : UInt8}, s.end_ - (p + k) < fuel → 1 ≤ fuel →
    Stops s p k c (s.formatLoop fuel (p + k) c (s.drawingAt p k))
  | 0, _, _, _, h => by omega
  | fuel + 1, k, c, hf, _ => by
    rw [formatLoop]
    by_cases hlen : ((s.drawingAt p k).dest.length : Int) < s.columns + s.tabstop
    · rw [if_neg (by omega)]
      by_cases hend : p + k < s.end_
      · rw [if_pos hend]
        by_cases hnl : s.mem (p + k) = NL
        · rw [if_pos hnl]
          exact .stop (fun h => h.2.2 hnl) (.inr (.inl hend))
        · have hnext : s.draw (s.drawingAt p k) (p + k) = s.drawingAt p (k + 1) := rfl
          have hsrc : p + k + 1 = p + (k + 1 : Nat) := by
            push_cast
            omega
          have hdraws : s.Draws p k := ⟨hlen, hend, hnl⟩
          rw [if_neg hnl, hnext]
          by_cases htab : s.mem (p + k) = 9
          · rw [if_pos htab, hsrc]
            exact .step hdraws (.inl ⟨htab, rfl⟩) (formatLoop_stops (by omega) (by omega))
          · rw [if_neg htab]
            by_cases hlast : p + k + 1 ≥ s.end_
            · rw [if_pos hlast]
              have hbyte : p + (k + 1 : Nat) - 1 = p + k := by
                push_cast
                omega
              refine ⟨k + 1, by omega, fun n h₁ h₂ => ?_, fun h => ?_,
                .inl ⟨rfl, .inr (.inr ?_)⟩⟩
              · rwa [show n = k by omega]
              · have := h.2.1
                omega
              · rwa [hbyte]
            · rw [if_neg hlast, hsrc]
              exact .step hdraws (.inr (by omega)) (formatLoop_stops (by omega) (by omega))
      · rw [if_neg hend]
        refine ⟨k, Nat.le_refl k, fun _ _ _ => by omega, fun h => hend h.2.1,
          .inr ⟨by omega, fun h => absurd h (Nat.lt_irrefl k), ?_⟩⟩
        rw [if_pos rfl]
    · rw [if_pos (by omega)]
      exact .stop (fun h => hlen h.1) (.inl (by omega))

theorem formatLoop_ends {fuel k : Nat} {c : UInt8} (hf : s.end_ - (p + k) < fuel)
    (h : 1 ≤ fuel) : Ends s p k (s.formatLoop fuel (p + k) c (s.drawingAt p k)) := by
  obtain ⟨m, hm, hdraws, hn, ⟨hd, -⟩ | ⟨-, -, hd⟩⟩ := formatLoop_stops (c := c) hf h
  · exact ⟨m, hm, hdraws, hn, .inl hd⟩
  · exact ⟨m, hm, hdraws, hn, .inr ⟨_, hd⟩⟩

/-- The place behind the offset, in the buffer and in all cells. -/
theorem Shows.getElem?_drop {cells : List Cell} {d : Drawing} (h : Shows s cells d) {ofs : Int}
    (he : ofs = if (d.dest.length : Int) < d.ofs then (d.dest.length : Int) else d.ofs) (i : Nat) :
    (d.dest.drop ofs.toNat)[i]? = cells[i + s.offset.toNat]? := by
  have hlen := h.length_dest
  have hn := h.nonneg
  have hle := h.le
  have hl := h.length
  rw [h.dest, List.drop_drop, List.getElem?_drop]
  by_cases hs : (d.dest.length : Int) < d.ofs
  · rw [if_pos hs] at he
    rw [List.getElem?_eq_none (by omega), List.getElem?_eq_none (by omega)]
  · rw [if_neg hs] at he
    congr 1
    omega

/-- The cells that are left behind the offset, and the spaces up to the margin. -/
theorem Shows.getElem?_iff {cells : List Cell} {d : Drawing} (h : Shows s cells d) {i : Nat}
    {c : UInt8} {a : Int} {ofs : Int}
    (he : ofs = if (d.dest.length : Int) < d.ofs then (d.dest.length : Int) else d.ofs) (n : Nat) :
    (d.dest.drop ofs.toNat ++ List.replicate n ⟨32, none⟩)[i]? = some ⟨c, some a⟩ ↔
      cells[i + s.offset.toNat]? = some ⟨c, some a⟩ := by
  have hdrop := h.getElem?_drop he i
  by_cases hi : i < (d.dest.drop ofs.toNat).length
  · rw [List.getElem?_append_left hi, hdrop]
  · rw [← hdrop, List.getElem?_eq_none (Nat.le_of_not_lt hi),
      List.getElem?_append_right (Nat.le_of_not_lt hi)]
    constructor
    · intro hr
      have := List.eq_of_mem_replicate (List.mem_of_getElem? hr)
      cases this
    · intro hr
      cases hr

/-- The cells of `format_line`: those drawn behind the offset, for the bytes the loop gets to. -/
theorem formatCells_iff (ht : 1 ≤ s.tabstop) (ho : 0 ≤ s.offset) (p : Int) :
    ∃ m, (∀ n < m, s.Draws p n) ∧ ¬s.Draws p m ∧ ∀ (i : Nat) c a,
      (s.formatCells p)[i]? = some ⟨c, some a⟩ ↔
        (s.drawn p m)[i + s.offset.toNat]? = some ⟨c, some a⟩ := by
  have hends : Ends s p 0 (s.formatLoop ((s.end_ - p).toNat + 2) (p + (0 : Nat)) (chr '~')
      (s.drawingAt p 0)) :=
    formatLoop_ends (by push_cast; omega) (by omega)
  obtain ⟨m, -, hdraws, hstop, hd⟩ := hends
  rw [Nat.cast_zero, Int.add_zero, show s.drawingAt p 0 = ⟨[], s.offset⟩ from rfl] at hd
  have hm := drawingAt_shows ht ho p m
  refine ⟨m, fun n hn => hdraws n (Nat.zero_le n) hn, hstop, fun i c a => ?_⟩
  unfold formatCells
  dsimp only
  rcases hd with hd | ⟨c', hd⟩
  · rw [hd]
    exact hm.getElem?_iff rfl _
  · -- the char behind the text is no byte of it
    have hx : Shows s (s.drawn p m ++ [⟨c', none⟩]) _ := hm.append.discard ht
    rw [hd]
    refine (hx.getElem?_iff rfl _).trans ?_
    by_cases hi : i + s.offset.toNat < (s.drawn p m).length
    · rw [List.getElem?_append_left hi]
    · rw [List.getElem?_append_right (Nat.le_of_not_lt hi),
        List.getElem?_eq_none (Nat.le_of_not_lt hi)]
      constructor
      · intro hr
        have := List.mem_singleton.mp (List.mem_of_getElem? hr)
        cases this
      · intro hr
        cases hr

/-! ## The chars -/

/-- `format_line` draws no byte with the high bit. -/
theorem byteCells_ascii {x : Cell} {p : Int} {co : Nat} (h : x ∈ s.byteCells p co) :
    x.char < 128 := by
  unfold byteCells at h
  dsimp only at h
  have hc : (if 128 ≤ s.mem p ∧ !isAsciionly (s.mem p).toNat then chr '.' else s.mem p) < 128 := by
    split
    · decide
    · rename_i hno
      by_contra hge
      rw [UInt8.not_lt] at hge
      have hle := UInt8.le_iff_toNat_le.mp hge
      apply hno ⟨hge, _⟩
      rw [Bool.not_eq_true', isAsciionly, Bool.and_eq_false_iff]
      right
      rw [decide_eq_false_iff_not]
      have : (128 : UInt8).toNat = 128 := rfl
      omega
  generalize (if 128 ≤ s.mem p ∧ !isAsciionly (s.mem p).toNat then chr '.' else s.mem p) = c at h hc
  split at h
  · rw [List.eq_of_mem_replicate h]
    exact (by decide : (32 : UInt8) < 128)
  · split at h
    · rename_i hctl
      rcases List.mem_cons.mp h with rfl | h
      · exact (by decide : chr '^' < 128)
      · rw [List.mem_singleton.mp h]
        dsimp only
        rcases hctl with hlt | rfl
        · split
          · decide
          · rw [UInt8.lt_iff_toNat_lt] at hlt ⊢
            have : (c + 64).toNat = (c.toNat + 64) % 256 := UInt8.toNat_add c 64
            have : (32 : UInt8).toNat = 32 := rfl
            have : (128 : UInt8).toNat = 128 := rfl
            omega
        · decide
    · rw [List.mem_singleton.mp h]
      exact hc

theorem discard_mem {d : Drawing} {x : Cell} (h : x ∈ (s.discard d).dest) : x ∈ d.dest := by
  unfold discard at h
  split at h
  · exact List.mem_of_mem_drop h
  · exact h

theorem draw_ascii {d : Drawing} (p : Int) (h : ∀ x ∈ d.dest, x.char < 128) :
    ∀ x ∈ (s.draw d p).dest, x.char < 128 := by
  have hcells : ∀ x ∈ d.dest ++ s.byteCells p d.dest.length, x.char < 128 := by
    intro x hx
    rcases List.mem_append.mp hx with hx | hx
    · exact h x hx
    · exact byteCells_ascii hx
  intro x hx
  unfold draw at hx
  dsimp only at hx
  split at hx
  · exact hcells x hx
  · exact hcells x (discard_mem hx)

theorem formatLoop_ascii {c : UInt8} (hc : c < 128) :
    ∀ (fuel : Nat) (src : Int) (d : Drawing), (∀ x ∈ d.dest, x.char < 128) →
      ∀ x ∈ (s.formatLoop fuel src c d).dest, x.char < 128
  | 0, _, _, h => h
  | fuel + 1, src, d, h => by
    unfold formatLoop
    split
    · exact h
    · split
      · split
        · exact h
        · split
          · exact formatLoop_ascii (by decide) fuel _ _ (draw_ascii src h)
          · split
            · exact draw_ascii src h
            · exact formatLoop_ascii hc fuel _ _ (draw_ascii src h)
      · intro x hx
        rcases List.mem_append.mp (discard_mem hx) with hx | hx
        · exact h x hx
        · rw [List.mem_singleton.mp hx]
          exact hc

theorem formatLine_ascii {src : Int} {c : UInt8} (h : c ∈ s.formatLine src) : c < 128 := by
  unfold formatLine at h
  obtain ⟨x, hx, rfl⟩ := List.mem_map.mp h
  rcases List.mem_append.mp hx with hx | hx
  · exact formatLoop_ascii (by decide) _ _ _ (fun x hx => absurd hx List.not_mem_nil) x
      (List.mem_of_mem_drop hx)
  · rw [List.eq_of_mem_replicate hx]
    decide

end Evim.Ed
