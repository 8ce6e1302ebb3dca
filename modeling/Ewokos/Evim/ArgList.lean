import Ewokos.Evim.Edits
import Ewokos.Evim.Newline
import Ewokos.Evim.Session

/-!
# evim: the argument list

The loop of `main` over its files, and the commands that move in it.  The loop counts up to the
parameter `argc` of `main`; the commands ask the global `argc`, which nothing sets.

* `Tour` — the runs of the loop, with any editing that leaves the buffer unmodified between moves.
* `visit_placed` — what a move does in a file.

Main result: `tour_lawful_iff`.
-/

set_option autoImplicit false

namespace Evim

open Cells
open CString hiding strchr

/-- Where `main` is: in the loop of `edit_file`, or behind its own. -/
inductive Main where
  | editFile (s : Ed)
  | done (s : Ed)

namespace Ed

/-- The loop condition of `main`, `argc` being the length of `argv`, and the call of `edit_file`. -/
def nextFile (argv : List (Option (List UInt8))) (s : Ed) : Option Main :=
  if s.viOptind < argv.length then (s.editStart (argv.getD s.viOptind.toNat none)).map .editFile
  else some (.done s)

/-- The start of the loop, when there are files. -/
def firstFile (argv : List (Option (List UInt8))) (s : Ed) : Option Main :=
  { s with viOptind := 1 }.nextFile argv

/-- `edit_file` has returned. -/
def fileDone (argv : List (Option (List UInt8))) (s : Ed) : Option Main :=
  { s with viOptind := s.viOptind + 1 }.nextFile argv

end Ed

/-- The commands that move in the argument list. -/
inductive Move where
  | next
  | prev
  | rewind
  | quit
  deriving DecidableEq

/-- What a move does: file `i` is opened, the move is refused, or the editor ends. -/
inductive Reply where
  | opens (i : Int)
  | refused
  | ends
  deriving DecidableEq

/-- A move on file `place`, and the status line behind it. -/
structure Visit where
  place : Int
  move : Move
  reply : Reply
  message : List UInt8

namespace Move

/-- The command lines of a move. -/
def lines : Move → List (List UInt8)
  | next => [str "n", str "ne", str "nex", str "next"]
  | prev => [str "p", str "pr", str "pre", str "prev"]
  | rewind => [str "rew", str "rewi", str "rewin", str "rewind"]
  | quit => [str "q", str "qu", str "qui", str "quit"]

/-- What a move on file `i` of `k` should do. -/
def reply (k i : Int) : Move → Reply
  | next => if i < k then .opens (i + 1) else .refused
  | prev => if 1 < i then .opens (i - 1) else .refused
  | rewind => .opens 1
  | quit => if i < k then .refused else .ends

end Move

/-- The move does what it should, and a refused `:q` says how many files are left. -/
structure Visit.Lawful (k : Int) (v : Visit) : Prop where
  reply : v.reply = v.move.reply k v.place
  message : v.move = .quit → v.place < k →
    (dec (k - v.place) ++ str " more file(s) to edit") <:+: v.message

/-- The move with this command line. -/
def Ed.visit (argv : List (Option (List UInt8))) (m : Move) (line : List UInt8) (s : Ed) :
    Option (Visit × Main) := do
  let t ← s.colon line
  if t.editing > 0 then some (⟨s.viOptind, m, .refused, t.statusBuffer⟩, .editFile t)
  else
    let p ← t.fileDone argv
    let reply := match p with
      | .editFile _ => .opens (t.viOptind + 1)
      | .done _ => .ends
    some (⟨s.viOptind, m, reply, t.statusBuffer⟩, p)

/-- The runs of the loop of `main`, with the moves made so far. -/
inductive Tour (argv : List (Option (List UInt8))) (s₀ : Ed) : List Visit → Main → Prop where
  | start {p : Main} : s₀.firstFile argv = some p → Tour argv s₀ [] p
  | edit {vs : List Visit} {s t : Ed} : Tour argv s₀ vs (.editFile s) → t.argc = s.argc →
      t.viOptind = s.viOptind → t.editing = s.editing → Tour argv s₀ vs (.editFile t)
  | move {vs : List Visit} {s : Ed} {m : Move} {line : List UInt8} {v : Visit} {p : Main} :
      Tour argv s₀ vs (.editFile s) → s.modifiedCount = 0 → line ∈ m.lines →
      s.visit argv m line = some (v, p) → Tour argv s₀ (vs ++ [v]) p

namespace Ed

variable {s t : Ed}

/-! ## Opening a file -/

theorem textHoleMake_files (s : Ed) (p n : Int) : (s.textHoleMake p n).2.toFiles = s.toFiles := by
  rw [textHoleMake_frame]

theorem textHoleDelete_files (s : Ed) (p q : Int) (undo : Undo) :
    (s.textHoleDelete p q undo).2.toFiles = s.toFiles := by
  rcases s.textHoleDelete_cases p q undo with h | ⟨m, e, -, -, h⟩
  · rw [h, undoPushDelete_eq]
  · rw [h, undoPushDelete_eq]

theorem autoIndent_files (s : Ed) (p : Int) (undo : Undo) :
    (s.autoIndent p undo).2.toFiles = s.toFiles := by
  rw [autoIndent_frame]

/-- A newline is inserted. -/
theorem newline_files {p q : Int} {undo : Undo} (h : s.charInsert p NL undo = some (q, t)) :
    t.toFiles = s.toFiles := by
  have hins : (s.undoQueueCommit.stringInsert p [NL] .no).2.toFiles = s.toFiles := by
    rw [stringInsert_frame, undoQueueCommit_eq]
  generalize hr : s.undoQueueCommit.stringInsert p [NL] .no = r at hins
  have he := (charInsert_newline s p undo hr).symm.trans h
  split at he
  · have hi := autoIndent_files r.2 (p + 1 + r.1) undo
    rw [Option.some.inj he] at hi
    exact hi.trans hins
  · cases he
    exact hins

theorem readInto_files (s : Ed) (fn : List UInt8) (p size : Int) (initial : Bool) :
    (s.readInto fn p size initial).2.toFiles = s.toFiles := by
  unfold readInto noFile
  dsimp only [ask]
  split
  · split <;> rfl
  · split
    · exact textHoleDelete_files _ _ _ _
    · split
      · exact textHoleDelete_files _ _ _ _
      · rw [undoPushInsert_eq]

theorem fileInsert_files (s : Ed) (fn : Option (List UInt8)) (p : Int) (initial : Bool) :
    (s.fileInsert fn p initial).2.toFiles = s.toFiles := by
  unfold fileInsert
  cases fn with
  | none => rfl
  | some fn =>
    dsimp only [ask]
    split
    · unfold noFile
      split <;> rfl
    · rw [readInto_files, textHoleMake_files]

/-- `edit_file` up to its loop leaves the argument list alone. -/
theorem editStart_args {fn : Option (List UInt8)} (h : s.editStart fn = some t) :
    t.argc = s.argc ∧ t.viOptind = s.viOptind ∧ t.editing = 1 := by
  obtain ⟨⟨rc, u⟩, hinit, hredraw⟩ := Option.bind_eq_some_iff.mp h
  unfold initTextBuffer at hinit
  have hfile := fileInsert_files ({ s with editing := 1 }.newText.updateFilename fn) fn
    ({ s with editing := 1 }.newText.updateFilename fn).text true
  have hname : ({ s with editing := 1 }.newText.updateFilename fn).argc = s.argc ∧
      ({ s with editing := 1 }.newText.updateFilename fn).viOptind = s.viOptind ∧
      ({ s with editing := 1 }.newText.updateFilename fn).editing = 1 := by
    unfold updateFilename
    split <;> exact ⟨rfl, rfl, rfl⟩
  generalize ({ s with editing := 1 }.newText.updateFilename fn) = w
    at hname hfile hinit
  dsimp only at hinit
  generalize w.fileInsert fn w.text true = r at hfile hinit
  obtain ⟨v, hnl, hlast⟩ := Option.bind_eq_some_iff.mp hinit
  have hv : v.toFiles = w.toFiles := by
    rcases ite_eq_iff.mp hnl with ⟨-, hnl⟩ | ⟨-, hnl⟩
    · obtain ⟨⟨q, x⟩, hchar, e⟩ := Option.map_eq_some_iff.mp hnl
      cases e
      exact (newline_files hchar).trans hfile
    · cases hnl
      exact hfile
  have ht : t.toFiles = w.toFiles := by
    cases hlast
    exact (redraw_looked hredraw).files.trans hv
  exact ⟨(congrArg Files.argc ht).trans hname.1, (congrArg Files.viOptind ht).trans hname.2.1,
    (congrArg Files.editing ht).trans hname.2.2⟩

/-! ## One move -/

/-- What the command of a move does, before `bound_dot`. -/
def moved (s : Ed) (m : Move) (line : List UInt8) : Ed :=
  if m = .rewind then s.colonRewind line false else s.colonQuit line false

theorem colon_move (s : Ed) {m : Move} {line : List UInt8} (h : line ∈ m.lines) :
    s.colon line = (s.moved m line).boundHere := by
  cases m
  all_goals
    simp only [Move.lines, List.mem_cons, List.not_mem_nil, or_false] at h
    rcases h with rfl | rfl | rfl | rfl <;> rfl

/-- A command that leaves `edit_file` for the file behind index `j`. -/
def Leaves (s t : Ed) (j : Int) : Prop := t.toFiles = { s.toFiles with editing := 0, viOptind := j }

/-- What the moves of an unmodified buffer do when the global `argc` is 0. -/
theorem moved_files {m : Move} {line : List UInt8} (hline : line ∈ m.lines) (hargc : s.argc = 0)
    (hmod : s.modifiedCount = 0) (hpos : 1 ≤ s.viOptind) :
    match m with
    | .next => (s.moved m line).toFiles = s.toFiles
    | .prev => if 1 < s.viOptind then s.Leaves (s.moved m line) (s.viOptind - 2)
      else (s.moved m line).toFiles = s.toFiles
    | .rewind => s.Leaves (s.moved m line) 0
    | .quit => s.Leaves (s.moved m line) s.viOptind := by
  have hsaved : ¬s.modifiedCount ≠ 0 := not_not_intro hmod
  have hquit (c : UInt8) (hc : head line = c) : s.colonQuit line false =
      if c = chr 'q' ∧ s.argc - s.viOptind - 1 > 0 then
        s.statusLineBold (dec (s.argc - s.viOptind - 1) ++ str " more file(s) to edit")
      else if c = chr 'n' ∧ s.argc - s.viOptind - 1 ≤ 0 then
        s.statusLineBold (str "No more files to edit")
      else if c = chr 'p' ∧ s.viOptind < 2 then s.statusLineBold (str "No previous files to edit")
      else if c = chr 'p' then { s with viOptind := s.viOptind - 2, editing := 0 }
      else { s with editing := 0 } := by
    unfold colonQuit
    rw [hc, if_neg Bool.false_ne_true, if_neg hsaved]
  have hhead : head line = match m with
      | .next => chr 'n'
      | .prev => chr 'p'
      | .rewind => chr 'r'
      | .quit => chr 'q' := by
    cases m
    all_goals
      simp only [Move.lines, List.mem_cons, List.not_mem_nil, or_false] at hline
      rcases hline with rfl | rfl | rfl | rfl <;> rfl
  cases m with
  | next =>
    dsimp only at hhead ⊢
    have hm : ¬Move.next = .rewind := by decide
    have hq : ¬chr 'n' = chr 'q' := by decide
    rw [moved, if_neg hm, hquit _ hhead, if_neg fun h => hq h.1, if_pos ⟨rfl, by omega⟩]
    rfl
  | prev =>
    dsimp only at hhead ⊢
    have hm : ¬Move.prev = .rewind := by decide
    have hq : ¬chr 'p' = chr 'q' := by decide
    have hn : ¬chr 'p' = chr 'n' := by decide
    have hprev := hquit _ hhead
    rw [if_neg fun h => hq h.1, if_neg fun h => hn h.1] at hprev
    rw [moved, if_neg hm, hprev]
    split
    · rw [if_neg (by omega), if_pos rfl]
      rfl
    · rw [if_pos ⟨rfl, by omega⟩]
      rfl
  | rewind =>
    dsimp only
    rw [moved, if_pos rfl]
    unfold colonRewind
    rw [if_neg fun h => hsaved h.1]
    rfl
  | quit =>
    dsimp only at hhead ⊢
    have hm : ¬Move.quit = .rewind := by decide
    have hn : ¬chr 'q' = chr 'n' := by decide
    have hp : ¬chr 'q' = chr 'p' := by decide
    rw [moved, if_neg hm, hquit _ hhead, if_neg (by omega), if_neg fun h => hn h.1,
      if_neg fun h => hp h.1, if_neg hp]
    rfl

/-- The editor is in a file of the list, and the global `argc` is 0. -/
structure Placed (argv : List (Option (List UInt8))) (s : Ed) : Prop where
  argc : s.argc = 0
  editing : s.editing = 1
  first : 1 ≤ s.viOptind
  last : s.viOptind < argv.length

variable {argv : List (Option (List UInt8))} {p : Main} {v : Visit}

/-- What the loop condition comes to. -/
theorem nextFile_some (h : s.nextFile argv = some p) :
    (s.viOptind < argv.length ∧ ∃ t, p = .editFile t ∧ t.argc = s.argc ∧
      t.viOptind = s.viOptind ∧ t.editing = 1) ∨ (¬s.viOptind < argv.length ∧ p = .done s) := by
  unfold nextFile at h
  split at h
  · rename_i hlt
    obtain ⟨t, ht, rfl⟩ := Option.map_eq_some_iff.mp h
    exact .inl ⟨hlt, t, rfl, editStart_args ht⟩
  · rename_i hge
    cases h
    exact .inr ⟨hge, rfl⟩

/-- A refused move stays in the file. -/
theorem visit_refused {m : Move} {line : List UInt8} {u : Ed} (hcolon : s.colon line = some u)
    (hfiles : u.toFiles = s.toFiles) (hed : s.editing = 1) (h : s.visit argv m line = some (v, p)) :
    v = ⟨s.viOptind, m, .refused, u.statusBuffer⟩ ∧ p = .editFile u := by
  have hgo : u.editing > 0 := by
    rw [congrArg Files.editing hfiles, hed]
    decide
  unfold visit at h
  rw [hcolon, Option.bind_eq_bind, Option.bind_some, if_pos hgo] at h
  cases h
  exact ⟨rfl, rfl⟩

/-- A move that leaves `edit_file` goes to the file behind index `j`, or out of the loop. -/
theorem visit_leaves {m : Move} {line : List UInt8} {u : Ed} {j : Int}
    (hcolon : s.colon line = some u) (hfiles : s.Leaves u j)
    (h : s.visit argv m line = some (v, p)) :
    v.place = s.viOptind ∧ v.move = m ∧
      ((j + 1 < argv.length ∧ v.reply = .opens (j + 1) ∧ ∃ t, p = .editFile t ∧ t.argc = s.argc ∧
        t.viOptind = j + 1 ∧ t.editing = 1) ∨
      (¬j + 1 < argv.length ∧ v.reply = .ends ∧ ∃ t, p = .done t)) := by
  unfold Leaves at hfiles
  have hed : u.editing = 0 := by rw [hfiles]
  have hopt : u.viOptind = j := by rw [hfiles]
  have hargc : u.argc = s.argc := by rw [hfiles]
  unfold visit at h
  rw [hcolon, Option.bind_eq_bind, Option.bind_some, if_neg (by omega)] at h
  obtain ⟨q, hq, e⟩ := Option.bind_eq_some_iff.mp h
  cases e
  rcases nextFile_some hq with ⟨hlt, t, rfl, ht, hi, hgo⟩ | ⟨hge, rfl⟩
  · refine ⟨rfl, rfl, .inl ⟨hopt ▸ hlt, ?_, t, rfl, ht.trans hargc, hi.trans ?_, hgo⟩⟩
    · rw [← hopt]
    · rw [← hopt]
  · exact ⟨rfl, rfl, .inr ⟨hopt ▸ hge, rfl, _, rfl⟩⟩

/-- **One move.**  In a file of the list a move does what it should, unless it is `:n` or `:q` on a
file before the last; and the file that it opens is one of the list. -/
theorem visit_placed {m : Move} {line : List UInt8} (hs : s.Placed argv)
    (hmod : s.modifiedCount = 0) (hline : line ∈ m.lines) (h : s.visit argv m line = some (v, p)) :
    (v.Lawful (argv.length - 1) ↔
      (v.place < argv.length - 1 → v.move ≠ .next ∧ v.move ≠ .quit)) ∧
    ∀ t, p = .editFile t → t.Placed argv := by
  have hfirst := hs.first
  have hlast := hs.last
  obtain ⟨u, hu, -⟩ := Option.bind_eq_some_iff.mp h
  have hbound : (s.moved m line).boundHere = some u := (s.colon_move hline) ▸ hu
  have hfiles : u.toFiles = (s.moved m line).toFiles := (boundHere_looked hbound).files
  have hmoved := s.moved_files hline hs.argc hmod hfirst
  -- a refused move, and one that opens file `j + 1`
  have stays (hf : u.toFiles = s.toFiles) : v = ⟨s.viOptind, m, .refused, u.statusBuffer⟩ ∧
      ∀ t, p = .editFile t → t.Placed argv := by
    obtain ⟨hv, hp⟩ := visit_refused hu hf hs.editing h
    refine ⟨hv, fun t ht => ?_⟩
    cases hp.symm.trans ht
    exact ⟨(congrArg Files.argc hf).trans hs.argc, (congrArg Files.editing hf).trans hs.editing,
      (congrArg Files.viOptind hf).symm ▸ hfirst, (congrArg Files.viOptind hf).symm ▸ hlast⟩
  have opens (j : Int) (hj : 0 ≤ j) (hlt : j + 1 < argv.length) (hf : s.Leaves u j) :
      v.place = s.viOptind ∧ v.move = m ∧ v.reply = .opens (j + 1) ∧
        ∀ t, p = .editFile t → t.Placed argv := by
    obtain ⟨hplace, hm, ⟨-, hr, t, rfl, ht, hi, hgo⟩ | ⟨hge, -⟩⟩ := visit_leaves hu hf h
    · refine ⟨hplace, hm, hr, fun t' e => ?_⟩
      cases e
      exact ⟨ht.trans hs.argc, hgo, by omega, by omega⟩
    · exact absurd hlt hge
  cases m with
  | next =>
    obtain ⟨rfl, hp⟩ := stays (hfiles.trans hmoved)
    refine ⟨⟨fun hl hlt => ?_, fun hc => ⟨?_, fun e => by cases e⟩⟩, hp⟩
    · have hr : Reply.refused = if s.viOptind < argv.length - 1 then .opens (s.viOptind + 1)
          else .refused := hl.reply
      rw [if_pos hlt] at hr
      cases hr
    · have hge : ¬s.viOptind < (argv.length : Int) - 1 := fun hlt => (hc hlt).1 rfl
      exact (if_neg hge).symm
  | prev =>
    have hfree : Move.prev ≠ .next ∧ Move.prev ≠ .quit := ⟨by decide, by decide⟩
    dsimp only at hmoved
    split at hmoved
    · rename_i hback
      obtain ⟨hplace, hm, hr, hp⟩ := opens (s.viOptind - 2) (by omega) (by omega)
        (hfiles.trans hmoved)
      refine ⟨⟨fun _ _ => hm ▸ hfree, fun _ => ⟨?_, fun e => by rw [hm] at e; cases e⟩⟩, hp⟩
      rw [hr, hm, hplace, Move.reply, if_pos hback]
      congr 1
      omega
    · rename_i hback
      obtain ⟨rfl, hp⟩ := stays (hfiles.trans hmoved)
      exact ⟨⟨fun _ _ => hfree, fun _ => ⟨(if_neg hback).symm, fun e => by cases e⟩⟩, hp⟩
  | rewind =>
    have hfree : Move.rewind ≠ .next ∧ Move.rewind ≠ .quit := ⟨by decide, by decide⟩
    obtain ⟨hplace, hm, hr, hp⟩ := opens 0 (Int.le_refl 0) (by omega) (hfiles.trans hmoved)
    refine ⟨⟨fun _ _ => hm ▸ hfree, fun _ => ⟨?_, fun e => by rw [hm] at e; cases e⟩⟩, hp⟩
    rw [hr, hm]
    rfl
  | quit =>
    by_cases hlt : s.viOptind + 1 < argv.length
    · obtain ⟨hplace, hm, hr, hp⟩ := opens s.viOptind (by omega) hlt (hfiles.trans hmoved)
      have hless : s.viOptind < (argv.length : Int) - 1 := by omega
      refine ⟨iff_of_false (fun hl => ?_) fun hc => (hc (hplace ▸ hless)).2 hm, hp⟩
      have hr' := hl.reply
      rw [hr, hm, hplace, Move.reply, if_pos hless] at hr'
      cases hr'
    · obtain ⟨hplace, hm, ⟨hlt', -⟩ | ⟨-, hr, t, rfl⟩⟩ := visit_leaves hu (hfiles.trans hmoved) h
      · exact absurd hlt' hlt
      have hless : ¬s.viOptind < (argv.length : Int) - 1 := by omega
      refine ⟨iff_of_true ⟨?_, fun _ hl => absurd (hplace ▸ hl) hless⟩
        fun hl => absurd (hplace ▸ hl) hless, fun t e => by cases e⟩
      rw [hr, hm, hplace, Move.reply, if_neg hless]

end Ed

/-! ## Runs -/

/-- Wherever a run comes, the editor is in a file of the list, and each move made so far did what it
should or was `:n` or `:q` on a file before the last. -/
theorem Tour.placed {argv : List (Option (List UInt8))} {env : Env} {rows columns : Nat}
    {vs : List Visit} {p : Main} (h : Tour argv (Ed.mainStart env rows columns) vs p) :
    (∀ v ∈ vs, v.Lawful (argv.length - 1) ↔
      (v.place < argv.length - 1 → v.move ≠ .next ∧ v.move ≠ .quit)) ∧
    ∀ t, p = .editFile t → t.Placed argv := by
  induction h with
  | start hstart =>
    refine ⟨fun v hv => absurd hv List.not_mem_nil, fun t ht => ?_⟩
    rcases Ed.nextFile_some hstart with ⟨hlt, u, rfl, hargc, hi, hgo⟩ | ⟨-, rfl⟩
    · cases ht
      have hone : t.viOptind = 1 := hi
      exact ⟨hargc, hgo, by omega, hone ▸ hlt⟩
    · cases ht
  | edit _ hargc hi hed ih =>
    refine ⟨ih.1, fun t ht => ?_⟩
    cases ht
    have hs := ih.2 _ rfl
    exact ⟨hargc.trans hs.argc, hed.trans hs.editing, hi ▸ hs.first, hi ▸ hs.last⟩
  | move _ hmod hline hvisit ih =>
    obtain ⟨hlaw, hplaced⟩ := Ed.visit_placed (ih.2 _ rfl) hmod hline hvisit
    refine ⟨fun v hv => ?_, hplaced⟩
    rcases List.mem_append.mp hv with hv | hv
    · exact ih.1 v hv
    · obtain rfl := List.mem_singleton.mp hv
      exact hlaw

/-- **The argument list.**  In a run of `main` every move does what it should exactly when none of
them is `:n` or `:q` on a file before the last. -/
theorem tour_lawful_iff {argv : List (Option (List UInt8))} {env : Env} {rows columns : Nat}
    {vs : List Visit} {p : Main} (h : Tour argv (Ed.mainStart env rows columns) vs p) :
    (∀ v ∈ vs, v.Lawful (argv.length - 1)) ↔
      ∀ v ∈ vs, v.place < argv.length - 1 → v.move ≠ .next ∧ v.move ≠ .quit :=
  forall₂_congr h.placed.1

/-- `evim a b`. -/
def twoFiles : List (Option (List UInt8)) := [some (str "evim"), some (str "a"), some (str "b")]

/-- `edit_file` is in the first of them. -/
def Ed.inFirst : Option Ed :=
  { mainStart .still 24 80 with viOptind := 1 }.editStart (some (str "a"))

/-- One move from there. -/
theorem Tour.of_first {m : Move} {line : List UInt8} {s : Ed} {v : Visit} {p : Main}
    (hs : Ed.inFirst = some s) (hmod : s.modifiedCount = 0) (hline : line ∈ m.lines)
    (h : s.visit twoFiles m line = some (v, p)) :
    Tour twoFiles (Ed.mainStart .still 24 80) [v] p := by
  have hfirst : (Ed.mainStart .still 24 80).firstFile twoFiles = some (.editFile s) := by
    have hmap : (Ed.mainStart .still 24 80).firstFile twoFiles = Ed.inFirst.map .editFile := rfl
    rw [hmap, hs]
    rfl
  exact .move (.start hfirst) hmod hline h

/-- `:rew` opens the first file again. -/
theorem tour_lawful_iff_rewind : ∃ v p, Tour twoFiles (Ed.mainStart .still 24 80) [v] p ∧
    v.reply = .opens 1 ∧ ((∀ w ∈ [v], w.Lawful (twoFiles.length - 1)) ↔
      ∀ w ∈ [v], w.place < twoFiles.length - 1 → w.move ≠ .next ∧ w.move ≠ .quit) := by
  have hs : Ed.inFirst.isSome := by decide +kernel
  have hv : ∀ s ∈ Ed.inFirst, s.modifiedCount = 0 ∧
      (s.visit twoFiles .rewind (str "rew")).isSome ∧
      ∀ x ∈ s.visit twoFiles .rewind (str "rew"), x.1.reply = .opens 1 := by decide +kernel
  obtain ⟨s, hs⟩ := Option.isSome_iff_exists.mp hs
  obtain ⟨hmod, hsome, hreply⟩ := hv s hs
  obtain ⟨⟨v, p⟩, h⟩ := Option.isSome_iff_exists.mp hsome
  have htour := Tour.of_first hs hmod (by decide) h
  exact ⟨v, p, htour, hreply _ h, tour_lawful_iff htour⟩

/-- `:n` on the first of two files is refused. -/
theorem next_refused : ¬∀ (argv : List (Option (List UInt8))) (env : Env) (rows columns : Nat)
    (vs : List Visit) (p : Main), Tour argv (Ed.mainStart env rows columns) vs p →
    ∀ v ∈ vs, v.Lawful (argv.length - 1) := by
  intro hall
  have hs : Ed.inFirst.isSome := by decide +kernel
  have hv : ∀ s ∈ Ed.inFirst, s.modifiedCount = 0 ∧ (s.visit twoFiles .next (str "n")).isSome ∧
      ∀ x ∈ s.visit twoFiles .next (str "n"),
        x.1.reply ≠ x.1.move.reply (twoFiles.length - 1) x.1.place := by decide +kernel
  obtain ⟨s, hs⟩ := Option.isSome_iff_exists.mp hs
  obtain ⟨hmod, hsome, hreply⟩ := hv s hs
  obtain ⟨⟨v, p⟩, h⟩ := Option.isSome_iff_exists.mp hsome
  have htour := Tour.of_first hs hmod (by decide) h
  exact hreply _ h (hall _ _ _ _ _ _ htour v List.mem_cons_self).reply

end Evim
