import Ewokos.Evim.Terminal
import Ewokos.Evim.Command

/-!
# evim: the colors on the terminal

A run of the editor as the terminal sees it: calls of `refresh(false)` and of `redraw`, with any
editing in between.

* `redraw_again` — a `redraw(true)` shows the same behind a `refresh` as in its place.
* `refresh_agrees_iff` — one call: the cells are those of `redraw(true)` exactly when the colors
  outlive the change of each row.
* `agreesAll_iff` — a whole run.
-/

set_option autoImplicit false

namespace Evim

open Cells Ed
open CString hiding strchr

/-- The text drawn in row `li`, cut to the window. -/
def Ed.rowText (s : Ed) (li : Nat) : List UInt8 := (s.shownLine li).take s.columns

/-- The selection mask of row `li`, if there is a selection. -/
def Ed.shownMask (s : Ed) (li : Nat) : Option (Int → Bool) :=
  let t := s.syncCursor s.dot
  Terminal.selMask t (t.rowStart t.screenbegin li)

/-- The editor with its virtual screen, and the cells of the terminal. -/
structure Display (α : Type) where
  view : View
  cells : Screenful α

/-- A call that draws the editor: `refresh(false)`, or `redraw`. -/
inductive Paint where
  | refresh (s : Ed)
  | redraw (full : Bool) (s : Ed)

/-- The editor that is drawn. -/
def Paint.ed : Paint → Ed
  | .refresh s => s
  | .redraw _ s => s

namespace Display

variable {α : Type} (T : Terminal α) (m : SyntaxMode)

/-- `refresh`. -/
def refresh (full : Bool) (s : Ed) (d : Display α) : Display α :=
  let (view, slices) := { d.view with ed := s }.refresh full
  { view := view
    cells := (slices.foldl (T.writeSlice m s.columns) (d.cells, T.plain)).1 }

/-- What `redraw` starts with: clear to the end of screen, erase the internal screen buffer. -/
def clear (d : Display α) : Display α :=
  { view := { d.view with screen := fun _ => 32 }
    cells := fun _ _ => (32, T.plain) }

/-- `redraw`, up to the status line. -/
def redraw (full : Bool) (s : Ed) (d : Display α) : Display α := (d.clear T).refresh T m full s

def paint (d : Display α) : Paint → Display α
  | .refresh s => d.refresh T m false s
  | .redraw full s => d.redraw T m full s

/-- Every cell of the text rows shows the char and the rendition that `redraw(true)` would leave. -/
def Agrees (d : Display α) (p : Paint) : Prop :=
  ∀ li < p.ed.rows - 1, ∀ k : Nat, k < p.ed.columns →
    (d.paint T m p).cells li k = (d.redraw T m true p.ed).cells li k

/-- The cells of the text rows show the virtual screen in its colors. -/
def Painted (rows columns : Nat) (d : Display α) : Prop :=
  ∀ li < rows - 1, ∀ k : Nat, k < columns → d.cells li k =
    (d.view.screen (li * columns + k),
      T.look (lineColors m (Terminal.chars columns fun k => d.view.screen (li * columns + k))) 0 k)

variable {T m} {s : Ed} {d : Display α}

theorem clear_painted (rows columns : Nat) : (d.clear T).Painted T m rows columns := by
  intro li hli k hk
  have hblank : Terminal.chars columns (fun _ => 32) = List.replicate columns 32 := by
    simp [Terminal.chars]
  show ((32 : UInt8), T.plain) = (32, T.look (lineColors m (Terminal.chars columns fun _ => 32)) 0 k)
  rw [hblank, Terminal.look_blank]

/-- What `refresh` leaves in the cells of a row. -/
theorem refresh_cells {look : List UInt8 → Option (Int → Bool) → Nat → Nat → α}
    (hlook : T.Leaves m s.columns s.viVisual look) (hc : 1 ≤ s.columns) (full : Bool) {li : Nat}
    (hli : li < s.rows - 1) (k : Int) :
    (d.refresh T m full s).cells li k =
      Terminal.rowCells (s.shownLine li) (look (s.shownLine li) (s.shownMask li)) (d.cells li)
        (rowSlice s.columns
          (full || (s.viVisual && some (s.syncCursor s.dot).screenbegin != d.view.visLastScreenbegin))
          ((s.syncCursor s.dot).offset != d.view.refreshOldOffset) (s.shownLine li)
          fun k => d.view.screen (li * s.columns + k)) k := by
  obtain ⟨-, -, hcolumns, hrows, -, -, hvis⟩ := syncCursor_same s s.dot
  rw [← hcolumns, ← hvis] at hlook
  have h := (Terminal.refreshRows_cells hlook (by omega)
    (full || (s.viVisual && some (s.syncCursor s.dot).screenbegin != d.view.visLastScreenbegin))
    ((s.syncCursor s.dot).offset != d.view.refreshOldOffset) ((s.syncCursor s.dot).rows - 1) 0
    (s.syncCursor s.dot).screenbegin d.view.screen d.cells).2 li (by omega) k
  rw [Nat.zero_add] at h
  unfold screenRow at h
  rw [hcolumns] at h
  refine Eq.trans ?_ h
  unfold refresh View.refresh
  dsimp only
  rw [hvis]

/-- Without a selection it is in colors. -/
theorem refresh_colors (hc : 1 ≤ s.columns) (hv : s.viVisual = false) (full : Bool) {li : Nat}
    (hli : li < s.rows - 1) (k : Int) :
    (d.refresh T m full s).cells li k =
      Terminal.rowCells (s.shownLine li) (T.look (lineColors m (s.rowText li))) (d.cells li)
        (rowSlice s.columns full ((s.syncCursor s.dot).offset != d.view.refreshOldOffset)
          (s.shownLine li) fun k => d.view.screen (li * s.columns + k)) k := by
  have hlook : T.Leaves m s.columns s.viVisual _ := hv ▸ Terminal.writeSlice_colors m s.columns
  rw [refresh_cells hlook hc full hli, hv, Bool.false_and, Bool.or_false]
  rfl

/-- What `redraw(true)` leaves: each row in its colors. -/
theorem redraw_cells (hc : 1 ≤ s.columns) (hv : s.viVisual = false) {li : Nat}
    (hli : li < s.rows - 1) {k : Nat} (hk : k < s.columns) :
    (d.redraw T m true s).cells li k =
      ((s.shownLine li).getD k 0, T.look (lineColors m (s.rowText li)) 0 k) := by
  unfold redraw
  rw [refresh_colors hc hv true hli, rowSlice_full]
  unfold Terminal.rowCells
  dsimp only
  rw [if_pos (by omega)]
  rfl

/-- A `redraw(true)` behind a `refresh` shows what it would have shown in its place. -/
theorem redraw_again (h₀ : s.text ≤ s.dot) (h₁ : s.dot < s.end_) (hr : 2 ≤ s.rows)
    (hc : 1 ≤ s.columns) (htop : s.text ≤ s.screenbegin) (hnl : s.mem (s.end_ - 1) = NL)
    (hv : s.viVisual = false) {li : Nat} (hli : li < s.rows - 1) {k : Nat} (hk : k < s.columns)
    (d' : Display α) :
    (d'.redraw T m true s.refresh).cells li k = (d.redraw T m true s).cells li k := by
  obtain ⟨-, -, hcolumns, hrows, -, -, hvis⟩ := syncCursor_same s s.dot
  obtain ⟨index, hindex⟩ := refresh_cindex s
  have hcolumns' : s.refresh.columns = s.columns := by rw [hindex, ← hcolumns]
  have hrows' : s.refresh.rows = s.rows := by rw [hindex, ← hrows]
  have hvis' : s.refresh.viVisual = false := by rw [hindex, ← hv, ← hvis]
  rw [redraw_cells hc hv hli hk, redraw_cells (by omega) hvis' (by omega) (by omega)]
  unfold Ed.rowText
  rw [shownLine_refresh h₀ h₁ hr hc htop hnl, hcolumns']

/-- What a `refresh` leaves in the virtual screen. -/
theorem refresh_chars (hc : 1 ≤ s.columns) (full : Bool) {li : Nat} (hli : li < s.rows - 1)
    {k : Nat} (hk : k < s.columns) :
    (d.refresh T m full s).view.screen (li * s.columns + k) = (s.shownLine li).getD k 0 := by
  obtain ⟨-, -, hcolumns, hrows, -⟩ := syncCursor_same s s.dot
  have h : (s.syncCursor s.dot).screenRow (d.refresh T m full s).view.screen (0 + li) k = _ :=
    refreshRows_exact (s.syncCursor s.dot) (by omega)
      (full || ((s.syncCursor s.dot).viVisual &&
        some (s.syncCursor s.dot).screenbegin != d.view.visLastScreenbegin))
      ((s.syncCursor s.dot).offset != d.view.refreshOldOffset)
      (show li < (s.syncCursor s.dot).rows - 1 by omega) (by omega) (by omega)
  rw [Nat.zero_add] at h
  unfold screenRow at h
  rw [hcolumns] at h
  exact h

theorem columns_le_shownLine (s : Ed) (li : Nat) : s.columns ≤ (s.shownLine li).length := by
  have h := (s.syncCursor s.dot).columns_le_formatLine
    ((s.syncCursor s.dot).rowStart (s.syncCursor s.dot).screenbegin li)
  rw [(syncCursor_same s s.dot).2.2.1] at h
  exact h

theorem refresh_row (hc : 1 ≤ s.columns) (full : Bool) {li : Nat} (hli : li < s.rows - 1) :
    Terminal.chars s.columns (fun k => (d.refresh T m full s).view.screen (li * s.columns + k)) =
      s.rowText li := by
  have hlen := columns_le_shownLine s li
  apply List.ext_getElem
  · simp [Terminal.chars, Ed.rowText, hlen]
  · intro k h₁ h₂
    have hk : k < s.columns := by simpa [Terminal.chars] using h₁
    have h := refresh_chars (T := T) (m := m) (d := d) hc full hli hk
    rw [List.getD_eq_getElem _ _ (Nat.lt_of_lt_of_le hk hlen)] at h
    simpa [Terminal.chars, Ed.rowText] using h

/-- The cells that `redraw(true)` leaves are painted, so those that agree with them are. -/
theorem agrees_painted {p : Paint} (hc : 1 ≤ p.ed.columns) (hv : p.ed.viVisual = false)
    (h : d.Agrees T m p) : (d.paint T m p).Painted T m p.ed.rows p.ed.columns := by
  intro li hli k hk
  have hrow : Terminal.chars p.ed.columns (fun k => (d.paint T m p).view.screen
      (li * p.ed.columns + k)) = p.ed.rowText li := by
    cases p with
    | refresh s => exact refresh_row hc false hli
    | redraw full s => exact refresh_row hc full hli
  have hchar : (p.ed.rowText li).getD k 0 = (d.paint T m p).view.screen (li * p.ed.columns + k) := by
    rw [← hrow]
    exact Terminal.chars_getD hk
  rw [h li hli k hk, redraw_cells hc hv hli hk, hrow, ← hchar]
  simp [Ed.rowText, hk]

/-- **One call.**  Where the cells show the virtual screen in its colors, a `refresh(false)` leaves
what `redraw(true)` would exactly when the colors outlive the change of each row. -/
theorem refresh_agrees_iff (hc : 1 ≤ s.columns) (hv : s.viVisual = false)
    (hd : d.Painted T m s.rows s.columns) :
    (∀ li < s.rows - 1, ∀ k : Nat, k < s.columns →
      (d.refresh T m false s).cells li k = (d.redraw T m true s).cells li k) ↔
    ∀ li < s.rows - 1, T.LooksKept m
      (Terminal.chars s.columns fun k => d.view.screen (li * s.columns + k)) (s.rowText li) := by
  refine forall_congr' fun li => forall_congr' fun hli => ?_
  unfold Ed.rowText
  rw [← Terminal.rowCells_iff m ((s.syncCursor s.dot).offset != d.view.refreshOldOffset)
    (columns_le_shownLine s li) (hd li hli)]
  refine forall_congr' fun k => forall_congr' fun hk => ?_
  rw [refresh_colors hc hv false hli, redraw_cells hc hv hli hk]
  rfl

/-! ## Runs -/

variable (T m)

/-- After each call of the run the terminal shows what `redraw(true)` would show. -/
def AgreesAll : Display α → List Paint → Prop
  | _, [] => True
  | d, p :: run => d.Agrees T m p ∧ AgreesAll (d.paint T m p) run

/-- The colors outlive what is drawn over the rows `old`; those of a cleared screen are blank. -/
def Keeps (old : Nat → List UInt8) : Paint → Prop
  | .refresh s => ∀ li < s.rows - 1, T.LooksKept m (old li) (s.rowText li)
  | .redraw true _ => True
  | .redraw false s => ∀ li < s.rows - 1, T.LooksKept m (List.replicate s.columns 32) (s.rowText li)

/-- The colors outlive each change of a row from one call to the next. -/
def KeepsAll : (Nat → List UInt8) → List Paint → Prop
  | _, [] => True
  | old, p :: run => Keeps T m old p ∧ KeepsAll p.ed.rowText run

instance [DecidableEq α] (old : Nat → List UInt8) : ∀ p, Decidable (Keeps T m old p)
  | .refresh s => inferInstanceAs (Decidable (∀ li < s.rows - 1, _))
  | .redraw true _ => inferInstanceAs (Decidable True)
  | .redraw false s => inferInstanceAs (Decidable (∀ li < s.rows - 1, _))

instance decidableKeepsAll [DecidableEq α] :
    ∀ (old : Nat → List UInt8) (run : List Paint), Decidable (KeepsAll T m old run)
  | _, [] => inferInstanceAs (Decidable True)
  | old, p :: run =>
    let _ := decidableKeepsAll p.ed.rowText run
    inferInstanceAs (Decidable (Keeps T m old p ∧ KeepsAll T m p.ed.rowText run))

variable {T m}

/-- The run from a screen that is painted, with the rows `old` on it. -/
theorem agreesAll_iff_of_painted {rows columns : Nat} (hc : 1 ≤ columns) :
    ∀ (run : List Paint) (d : Display α) (old : Nat → List UInt8),
    (∀ p ∈ run, p.ed.rows = rows ∧ p.ed.columns = columns ∧ p.ed.viVisual = false) →
    d.Painted T m rows columns →
    (∀ li < rows - 1, Terminal.chars columns (fun k => d.view.screen (li * columns + k)) = old li) →
    (AgreesAll T m d run ↔ KeepsAll T m old run)
  | [], _, _, _, _, _ => Iff.rfl
  | p :: run, d, old, hrun, hd, hold => by
    obtain ⟨hrows, hcolumns, hv⟩ := hrun p (List.mem_cons_self ..)
    subst hrows hcolumns
    have hstep : d.Agrees T m p ↔ Keeps T m old p := by
      cases p with
      | refresh s =>
        refine (refresh_agrees_iff hc hv hd).trans (forall_congr' fun li => forall_congr' fun hli => ?_)
        rw [hold li hli]
        rfl
      | redraw full s =>
        cases full with
        | true => exact iff_of_true (fun li hli k hk => rfl) trivial
        | false =>
          have hblank : Terminal.chars s.columns (fun _ => 32) = List.replicate s.columns 32 := by
            simp [Terminal.chars]
          have h := refresh_agrees_iff hc hv (clear_painted (T := T) (m := m) (d := d) s.rows s.columns)
          refine h.trans (forall_congr' fun li => forall_congr' fun hli => ?_)
          show T.LooksKept m (Terminal.chars s.columns fun _ => 32) _ ↔ _
          rw [hblank]
          rfl
    unfold AgreesAll KeepsAll
    rw [← hstep]
    refine and_congr_right fun hagree => ?_
    refine agreesAll_iff_of_painted hc run _ _ (fun q hq => hrun q (List.mem_cons_of_mem _ hq))
      (agrees_painted hc hv hagree) fun li hli => ?_
    cases p with
    | refresh s => exact refresh_row hc false hli
    | redraw full s => exact refresh_row hc full hli

/-- **Runs.**  Along a run of the editor, from its first `redraw` on, the terminal shows after each
call what `redraw(true)` would show exactly when the colors outlive each change of a row. -/
theorem agreesAll_iff (T : Terminal α) (m : SyntaxMode) {rows columns : Nat} (hc : 1 ≤ columns)
    (d : Display α) (full : Bool) (first : Ed) (run : List Paint)
    (hrun : ∀ p ∈ .redraw full first :: run,
      p.ed.rows = rows ∧ p.ed.columns = columns ∧ p.ed.viVisual = false) :
    AgreesAll T m d (.redraw full first :: run) ↔
      KeepsAll T m (fun _ => []) (.redraw full first :: run) := by
  have hblank : ∀ li < rows - 1, Terminal.chars columns
      (fun k => (d.clear T).view.screen (li * columns + k)) = List.replicate columns 32 := by
    intro li hli
    simp [Terminal.chars, clear]
  have h := agreesAll_iff_of_painted (m := m) hc (.redraw full first :: run) (d.clear T) _
    hrun
    (clear_painted rows columns) hblank
  -- the first call looks neither at the cells nor at the rows before it
  cases full with
  | false => exact h
  | true => exact h

end Display

/-! ## An ANSI terminal -/

structure Rendition where
  bold : Bool
  reverse : Bool
  foreground : Option Nat
  deriving DecidableEq, Repr

def Rendition.plain : Rendition := ⟨false, false, none⟩

/-- The rendition behind one parameter of a sequence. -/
def Rendition.set (r : Rendition) : Nat → Rendition
  | 0 => .plain
  | 1 => { r with bold := true }
  | 7 => { r with reverse := true }
  | n => if 30 ≤ n ∧ n ≤ 37 then { r with foreground := some (n - 30) } else r

/-- A terminal that takes bold, reverse video and the eight colors. -/
def ansi : Terminal Rendition where
  plain := .plain
  sgr r b := (((b.drop 2).takeWhile (· ≠ chr 'm')).splitOn (chr ';')).foldl
    (fun r digits => r.set (digits.foldl (fun n c => 10 * n + (c - 48).toNat) 0)) r
  sgr_norm _ := rfl

/-- Text is typed at the end of the first line, in a window of 2 rows and 12 columns. -/
def Ed.typingAfter (l : List UInt8) : Ed :=
  { showing (l ++ [NL]) with
    textSize := 100
    rows := 3
    columns := 12
    dot := l.length
    cmdMode := .insert }

/-- `do_cmd` for the key `c`, behind a `refresh`. -/
def Ed.typed (c : UInt8) (s : Ed) : Ed := (doCmd c.toNat s.refresh).getD s

namespace Display

/-- A display before the first `redraw`. -/
def fresh (s : Ed) : Display Rendition :=
  { view := ⟨s, fun _ => 0, none, 0⟩
    cells := fun _ _ => (0, .plain) }

/-- A digit behind a digit keeps the color of the number. -/
theorem agreesAll_number :
    let s := typingAfter [chr '1']
    AgreesAll ansi .json (fresh s) [.redraw false s, .refresh (s.typed (chr '2'))] := by
  intro s
  have hrun : ∀ p ∈ [Paint.redraw false s, .refresh (s.typed (chr '2'))],
      p.ed.rows = 3 ∧ p.ed.columns = 12 ∧ p.ed.viVisual = false := by decide +kernel
  apply (agreesAll_iff ansi .json (by decide) (fresh s) false s _ hrun).mpr
  decide +kernel

/-- A `:` typed behind a JSON string makes a key of it, and only the `:` is written. -/
theorem key_stays_string :
    let s := typingAfter (str "\"a\"")
    doCmd (chr ':').toNat s.refresh = some (s.typed (chr ':')) ∧
      ¬AgreesAll ansi .json (fresh s) [.redraw false s, .refresh (s.typed (chr ':'))] := by
  intro s
  constructor
  · obtain ⟨s', hs'⟩ := Option.isSome_iff_exists.mp
      (show (doCmd (chr ':').toNat s.refresh).isSome by decide +kernel)
    rw [typed, hs']
    rfl
  · rintro ⟨-, h, -⟩
    have hcell := h 0 (by decide +kernel) 0 (by decide +kernel)
    revert hcell
    decide +kernel

end Display

end Evim
