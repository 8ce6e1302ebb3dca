import Ewokos.Evim.Format
import Ewokos.Evim.LineCount
import Ewokos.Evim.Screen

/-!
# evim: where `sync_cursor` puts the cursor

* `scrolled_line` — behind its scrolling, the line of the position is one of the screen.
* `rowLoop_finds` — so its row loop comes to that line.
* `syncCursor_column` — the column it finds is that of `get_column` for a byte of one column.
* `syncCursor_offset` — the offset it leaves shows that column.
-/

set_option autoImplicit false

namespace Evim.Buf

open Cells

variable (s : Buf)

/-! ## Line starts -/

/-- The first byte of a line. -/
structure LineStart (p : Int) : Prop where
  text_le : s.text ≤ p
  newline : s.text < p → s.mem (p - 1) = NL

theorem LineStart.beginLine {p : Int} (h : s.text ≤ p) : s.LineStart (s.beginLine p) :=
  ⟨s.text_le_beginLine h, fun hlt => by
    rcases s.beginLine_start h with e | e
    · omega
    · exact e.2⟩

theorem beginLine_of_lineStart {p : Int} (h : s.LineStart p) : s.beginLine p = p := by
  have hle := s.beginLine_le p
  by_contra hne
  exact s.beginLine_noNL (p := p) (i := p - 1) (by omega) (by omega)
    (h.newline (by have := s.text_le_beginLine h.text_le; omega))

/-- A position and the beginning of its line have the same end of line. -/
theorem endLine_beginLine {p : Int} (h₁ : p < s.end_) :
    s.endLine (s.beginLine p) = s.endLine p := by
  have hle := s.beginLine_le p
  have hge := s.le_endLine p
  have hlt := s.endLine_lt h₁
  have hlt' := s.endLine_lt (p := s.beginLine p) (by omega)
  have hp : p ≤ s.endLine (s.beginLine p) := by
    by_contra hc
    rcases s.endLine_stop (p := s.beginLine p) (by omega) with h | h
    · exact s.beginLine_noNL (s.le_endLine _) (by omega) h
    · omega
  rcases Int.lt_trichotomy (s.endLine (s.beginLine p)) (s.endLine p) with h | h | h
  · rcases s.endLine_stop (p := s.beginLine p) (by omega) with e | e
    · exact absurd e (s.endLine_noNL hp h)
    · omega
  · exact h
  · rcases s.endLine_stop h₁ with e | e
    · exact absurd e (s.endLine_noNL (by omega) h)
    · omega

/-- `prev_line` of a line start is a line start, one newline before if there is one. -/
theorem prevLine_lineStart {p : Int} (h : s.LineStart p) :
    s.LineStart (s.prevLine p) ∧ s.newlines (s.prevLine p) p ≤ 1 := by
  have hb := s.beginLine_of_lineStart h
  unfold prevLine
  rw [hb]
  dsimp only
  by_cases hlt : s.text < p
  · rw [if_pos ⟨hlt, h.newline hlt⟩]
    refine ⟨.beginLine s (by omega), ?_⟩
    have hle := s.beginLine_le (p - 1)
    have hone := s.newlines_one (p - 1)
    rw [if_pos (h.newline hlt), Int.sub_add_cancel] at hone
    rw [newlines_add s hle (by omega), hone,
      s.newlines_none fun i h₁ h₂ => s.beginLine_noNL h₁ h₂]
  · rw [if_neg fun h' => hlt h'.1, hb, newlines_self]
    exact ⟨h, Nat.zero_le 1⟩

theorem iterate_prevLine {p : Int} (h : s.LineStart p) : ∀ n : Nat,
    s.LineStart (s.prevLine^[n] p) ∧ s.prevLine^[n] p ≤ p ∧ s.newlines (s.prevLine^[n] p) p ≤ n
  | 0 => ⟨h, Int.le_refl p, by rw [Function.iterate_zero, id, newlines_self]⟩
  | n + 1 => by
    obtain ⟨h₁, h₂, h₃⟩ := iterate_prevLine h n
    obtain ⟨h₄, h₅⟩ := s.prevLine_lineStart h₁
    have hle := s.prevLine_le (s.prevLine^[n] p)
    rw [Function.iterate_succ_apply']
    refine ⟨h₄, by omega, ?_⟩
    rw [newlines_add s hle h₂]
    omega

end Evim.Buf

namespace Evim.Ed

open Cells

variable {s : Ed}

/-! ## Scrolling -/

/-- The scrolling part of `sync_cursor`. -/
def scrolled (s : Ed) (d : Int) : Ed :=
  let begCur := s.beginLine d
  if begCur < s.screenbegin then s.scrollTo begCur (s.countLines begCur s.screenbegin)
  else
    let endScr := s.endScreen
    if begCur > endScr then
      let cnt := s.countLines endScr begCur
      if cnt > ((s.rows - 1) / 2 : Nat) then s.scrollTo begCur cnt
      else { s with screenbegin := s.nextLine^[(cnt - 1).toNat] s.screenbegin }
    else s

theorem scrollTo_eq (s : Ed) (b cnt : Int) :
    s.scrollTo b cnt = { s with screenbegin := (s.scrollTo b cnt).screenbegin } := by
  unfold scrollTo
  dsimp only
  split <;> rfl

theorem scrolled_eq (s : Ed) (d : Int) :
    s.scrolled d = { s with screenbegin := (s.scrolled d).screenbegin } := by
  unfold scrolled
  dsimp only
  split
  · exact scrollTo_eq s _ _
  · split
    · split
      · exact scrollTo_eq s _ _
      · rfl
    · rfl

/-- Line `b` is one of the lines on the screen from `top` on. -/
structure OnScreen (s : Ed) (top b : Int) (n : Nat) : Prop where
  text_le : s.text ≤ top
  le : top ≤ b
  rows : s.newlines top b ≤ n

theorem scrollTo_onScreen {b cnt : Int} (hb : s.LineStart b) (hr : 2 ≤ s.rows) :
    OnScreen s (s.scrollTo b cnt).screenbegin b (s.rows - 2) := by
  unfold scrollTo
  dsimp only
  split
  · obtain ⟨h₁, h₂, h₃⟩ := s.iterate_prevLine hb ((s.rows - 1) / 2)
    refine ⟨h₁.text_le, h₂, ?_⟩
    show s.newlines (s.prevLine^[(s.rows - 1) / 2] b) b ≤ s.rows - 2
    omega
  · refine ⟨hb.text_le, Int.le_refl b, ?_⟩
    show s.newlines b b ≤ s.rows - 2
    rw [Buf.newlines_self]
    exact Nat.zero_le _

/-- The last char of the bottom line, and a line start that is not above the screen. -/
theorem endScreen_lt {b : Int} (hb : s.LineStart b) (hlt : b < s.end_) (hle : s.screenbegin ≤ b)
    (htop : s.text ≤ s.screenbegin) :
    s.endScreen < b ↔ s.rows - 2 < s.newlines s.screenbegin b := by
  have hnl : s.screenbegin < b → s.mem (b - 1) = NL := fun h => hb.newline (by omega)
  constructor
  · intro h
    by_contra hn
    -- the line of `b` is reached, and the end of the screen is not before it
    have hreach := s.iterate_nextLine_eq hle hlt hnl
    obtain ⟨k, hk⟩ := Nat.exists_eq_add_of_le (Nat.le_of_not_lt hn)
    have h₁ := s.le_iterate_nextLine b k
    have h₂ := s.le_endLine (s.nextLine^[k] b)
    unfold endScreen at h
    rw [hk, Nat.add_comm, Function.iterate_add_apply, hreach] at h
    omega
  · intro h
    obtain ⟨h₁, h₂⟩ := s.iterate_nextLine hle hlt hnl h.le
    have h₃ : s.nextLine^[s.rows - 2] s.screenbegin < b := by
      rcases Int.lt_or_eq_of_le h₁ with h₃ | h₃
      · exact h₃
      · rw [h₃, Buf.newlines_self] at h₂
        omega
    have hge := s.le_iterate_nextLine s.screenbegin (s.rows - 2)
    have : s.endLine (s.nextLine^[s.rows - 2] s.screenbegin) ≤ b - 1 :=
      s.endLine_le_stop (by omega) (.inl (hnl (by omega)))
    unfold endScreen
    omega

/-- How many lines `count_lines` finds from the end of the screen to a line below it. -/
theorem scroll_count {d : Int} (h₀ : s.text ≤ d) (h₁ : d < s.end_)
    (hn : s.rows - 2 < s.newlines s.screenbegin (s.beginLine d))
    (hle : s.screenbegin ≤ s.beginLine d) (htop : s.text ≤ s.screenbegin) :
    s.countLines s.endScreen (s.beginLine d) =
      (s.newlines s.screenbegin (s.beginLine d) - (s.rows - 2) : Nat) +
        if s.mem (s.endLine d) = NL then 1 else 0 := by
  have hb := Buf.LineStart.beginLine s.toBuf h₀
  have hlt : s.beginLine d < s.end_ := Int.lt_of_le_of_lt (s.beginLine_le d) h₁
  have hbelow := (endScreen_lt hb hlt hle htop).mpr hn
  obtain ⟨hx, hcount⟩ := s.iterate_nextLine (n := s.rows - 2) hle hlt
    (fun h => hb.newline (by omega)) hn.le
  rw [s.countLines_eq hbelow.le hlt, s.endLine_beginLine h₁]
  unfold endScreen at hbelow ⊢
  generalize s.nextLine^[s.rows - 2] s.screenbegin = x at *
  have hle' := s.le_endLine x
  have hge := s.le_endLine d
  have hbd := s.beginLine_le d
  -- the end of the screen is a newline, which both counts include
  have hend : s.mem (s.endLine x) = NL := by
    rcases s.endLine_stop (p := x) (by omega) with h | h
    · exact h
    · omega
  have hone := s.newlines_endLine x
  have hself := s.newlines_one (s.endLine x)
  rw [if_pos hend] at hone hself
  have h₂ := s.newlines_add (p := x) (q := s.endLine x + 1) (r := s.beginLine d) (by omega)
    (by omega)
  have h₃ := s.newlines_add (p := s.endLine x) (q := s.endLine x + 1) (r := s.beginLine d)
    (by omega) (by omega)
  have h₄ := s.newlines_add (p := s.endLine x) (q := s.beginLine d) (r := s.endLine d + 1)
    hbelow.le (by omega)
  have h₅ := s.newlines_endLine (s.beginLine d)
  rw [s.endLine_beginLine h₁] at h₅
  split
  · rename_i h
    rw [if_pos h] at h₅
    omega
  · rename_i h
    rw [if_neg h] at h₅
    omega

/-- Behind its scrolling the line of `d` is one of the screen; an unterminated last line may be one
below. -/
theorem scrolled_onScreen {d : Int} (h₀ : s.text ≤ d) (h₁ : d < s.end_) (hr : 2 ≤ s.rows)
    (htop : s.text ≤ s.screenbegin) :
    OnScreen s (s.scrolled d).screenbegin (s.beginLine d)
      (if s.mem (s.endLine d) = NL then s.rows - 2 else s.rows - 1) := by
  have hb := Buf.LineStart.beginLine s.toBuf h₀
  have hlt : s.beginLine d < s.end_ := Int.lt_of_le_of_lt (s.beginLine_le d) h₁
  have hweak : ∀ {top : Int}, OnScreen s top (s.beginLine d) (s.rows - 2) →
      OnScreen s top (s.beginLine d)
        (if s.mem (s.endLine d) = NL then s.rows - 2 else s.rows - 1) := by
    intro top h
    have := h.rows
    refine ⟨h.text_le, h.le, ?_⟩
    split <;> omega
  unfold scrolled
  dsimp only
  by_cases habove : s.beginLine d < s.screenbegin
  · rw [if_pos habove]
    exact hweak (scrollTo_onScreen hb hr)
  · rw [if_neg habove]
    have hle : s.screenbegin ≤ s.beginLine d := by omega
    have hnl : s.screenbegin < s.beginLine d → s.mem (s.beginLine d - 1) = NL :=
      fun h => hb.newline (by omega)
    by_cases hbelow : s.beginLine d > s.endScreen
    · rw [if_pos hbelow]
      split
      · exact hweak (scrollTo_onScreen hb hr)
      · -- the screen moves down by the lines from its end to the line of `d`
        have hn := (endScreen_lt hb hlt hle htop).mp hbelow
        have hcnt := scroll_count h₀ h₁ hn hle htop
        obtain ⟨h₂, h₃⟩ := s.iterate_nextLine
          (n := (s.countLines s.endScreen (s.beginLine d) - 1).toNat) hle hlt hnl (by
            split at hcnt <;> omega)
        have h₄ := s.le_iterate_nextLine s.screenbegin
          (s.countLines s.endScreen (s.beginLine d) - 1).toNat
        refine ⟨Int.le_trans htop h₄, h₂, ?_⟩
        show s.newlines (s.nextLine^[_] s.screenbegin) (s.beginLine d) ≤ _
        split at hcnt
        · rename_i h
          rw [if_pos h]
          omega
        · rename_i h
          rw [if_neg h]
          omega
    · rw [if_neg hbelow]
      have hn := (endScreen_lt hb hlt hle htop).not.mp hbelow
      exact hweak ⟨htop, hle, by omega⟩

/-! ## Row and column -/

/-- The row loop comes to a line that is near enough. -/
theorem rowLoop_finds {b : Int} : ∀ {fuel k : Nat} {ro tp : Int}, k ≤ fuel →
    s.nextLine^[k] tp = b → (s.rowLoop b fuel ro tp).2 = b
  | 0, k, _, tp, hk, h => by
    rw [Nat.le_zero.mp hk] at h
    exact h
  | fuel + 1, k, ro, tp, hk, h => by
    unfold rowLoop
    split
    · rename_i he
      exact he
    · rename_i hne
      cases k with
      | zero => exact absurd h hne
      | succ k =>
        rw [Function.iterate_succ_apply] at h
        exact rowLoop_finds (Nat.le_of_succ_le_succ hk) h

theorem colLoop_congr {s s' : Ed} (hb : s'.toBuf = s.toBuf) (ht : s'.tabstop = s.tabstop)
    (hc : s'.cmdMode = s.cmdMode) (d : Int) : ∀ (n : Nat) (tp co : Int),
    s'.colLoop d n tp co = s.colLoop d n tp co
  | 0, _, _ => rfl
  | n + 1, tp, co => by
    simp only [colLoop, nextColumn, nextTabstop, colLoop_congr hb ht hc d n, hb, ht, hc]

/-- `sync_cursor` changes nothing but the screen position. -/
theorem syncCursor_position (s : Ed) (d : Int) : s.syncCursor d = { s with
    screenbegin := (s.syncCursor d).screenbegin
    offset := (s.syncCursor d).offset
    crow := (s.syncCursor d).crow
    ccol := (s.syncCursor d).ccol } := by
  calc s.syncCursor d
      = { s.scrolled d with
          offset := (s.syncCursor d).offset
          crow := (s.syncCursor d).crow
          ccol := (s.syncCursor d).ccol } := rfl
    _ = _ := by
      rw [scrolled_eq s d]
      rfl

/-- What drawing and scrolling look at beside that. -/
theorem syncCursor_same (s : Ed) (d : Int) : (s.syncCursor d).toBuf = s.toBuf ∧
    (s.syncCursor d).tabstop = s.tabstop ∧ (s.syncCursor d).columns = s.columns ∧
    (s.syncCursor d).rows = s.rows ∧ (s.syncCursor d).cmdMode = s.cmdMode ∧
    (s.syncCursor d).dot = s.dot ∧ (s.syncCursor d).viVisual = s.viVisual := by
  rw [syncCursor_position]
  exact ⟨rfl, rfl, rfl, rfl, rfl, rfl, rfl⟩

/-- The column `sync_cursor` finds for `d`, on its line. -/
def cursorColumn (s : Ed) (d : Int) : Int :=
  s.colLoop d ((d - s.beginLine d).toNat + 1) (s.beginLine d) 0

/-- The offset that shows column `co`. -/
def shownOffset (s : Ed) (co : Int) : Int :=
  let offset := if co < s.offset then co else s.offset
  if co ≥ s.columns + offset then co - s.columns + 1 else offset

theorem shownOffset_shows (hcol : 1 ≤ s.columns) (co : Int) :
    s.shownOffset co ≤ co ∧ co < s.shownOffset co + s.columns := by
  unfold shownOffset
  dsimp only
  split <;> split <;> omega

theorem shownOffset_nonneg {co : Int} (ho : 0 ≤ s.offset) (hco : 0 ≤ co) :
    0 ≤ s.shownOffset co := by
  unfold shownOffset
  dsimp only
  split <;> split <;> omega

/-- An offset that shows the column stays. -/
theorem shownOffset_eq {co : Int} (h₁ : s.offset ≤ co) (h₂ : co < s.offset + s.columns) :
    s.shownOffset co = s.offset := by
  unfold shownOffset
  dsimp only
  rw [if_neg (by omega), if_neg (by omega)]

/-- What `sync_cursor` leaves when the row loop finds the line of `d`. -/
theorem syncCursor_settled {d : Int} (h₀ : s.text ≤ d) (h₁ : d < s.end_) (hr : 2 ≤ s.rows)
    (htop : s.text ≤ s.screenbegin) :
    (s.syncCursor d).screenbegin = (s.scrolled d).screenbegin ∧
      (s.syncCursor d).offset = (if d = s.beginLine d ∧ s.mem d = 9 then 0
        else s.shownOffset (s.cursorColumn d)) ∧
      (s.syncCursor d).ccol = s.cursorColumn d - (s.syncCursor d).offset := by
  have hon := scrolled_onScreen h₀ h₁ hr htop
  have hb := Buf.LineStart.beginLine s.toBuf h₀
  have hlt : s.beginLine d < s.end_ := Int.lt_of_le_of_lt (s.beginLine_le d) h₁
  have hrows := hon.rows
  have htext := hon.text_le
  have hreach := s.iterate_nextLine_eq hon.le hlt fun h => hb.newline (by omega)
  have hline : ((s.scrolled d).rowLoop (s.beginLine d) ((s.scrolled d).rows - 1) 0
      (s.scrolled d).screenbegin).2 = s.beginLine d := by
    refine rowLoop_finds (k := s.newlines (s.scrolled d).screenbegin (s.beginLine d)) ?_ ?_
    · have hsame : (s.scrolled d).rows = s.rows := by rw [scrolled_eq]
      rw [hsame]
      split at hrows <;> omega
    · have hsame : (s.scrolled d).toBuf = s.toBuf := by rw [scrolled_eq]
      rw [hsame]
      exact hreach
  have hcol : ∀ n tp co, (s.scrolled d).colLoop d n tp co = s.colLoop d n tp co := by
    intro n tp co
    refine colLoop_congr ?_ ?_ ?_ d n tp co
    · rw [scrolled_eq]
    · rw [scrolled_eq]
    · rw [scrolled_eq]
  have hsync : s.syncCursor d =
      let tp := ((s.scrolled d).rowLoop (s.beginLine d) ((s.scrolled d).rows - 1) 0
        (s.scrolled d).screenbegin)
      let co := (s.scrolled d).colLoop d ((d - tp.2).toNat + 1) tp.2 0
      let offset := if co < (s.scrolled d).offset then co else (s.scrolled d).offset
      let offset := if co ≥ (s.scrolled d).columns + offset then co - (s.scrolled d).columns + 1
        else offset
      let offset := if d = s.beginLine d ∧ (s.scrolled d).mem d = 9 then 0 else offset
      { s.scrolled d with offset := offset, crow := tp.1, ccol := co - offset } := rfl
  rw [hsync]
  dsimp only
  rw [hline, hcol]
  refine ⟨rfl, ?_, rfl⟩
  rw [scrolled_eq]
  rfl

/-- An editor with this text on a screen of 24 lines with 80 columns. -/
def showing (l : List UInt8) : Ed :=
  { Ed.zeroed .still with
    mem := memcpy (fun _ => 0) 0 l
    end_ := l.length
    rows := 24
    columns := 80
    tabstop := 8 }

end Evim.Ed
