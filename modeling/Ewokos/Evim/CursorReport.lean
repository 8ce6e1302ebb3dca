import Ewokos.Lib.CString
import Ewokos.Evim.Keys

/-!
# evim: the cursor-position report

`read_cursor_pos_reply` of `bin/evim/vim_term.c`, the grammar of the input it skips, and
`get_screen_xy`.

* `replyByte`, `readCursorPosReply` — one byte, and the loop.
* `Stale` — input that is skipped: what is no ESC, an ESC and another byte than `[`, and a broken
  report up to the byte that breaks it.
* `Answers` — input in which `R` ends a report early.
* `stale_iff`, `answers_iff` — the machine and the grammar.

Main result: `cursorReport_iff`.
-/

set_option autoImplicit false

namespace Evim.Report

open Keys
open CString (numeral)

/-! ## The machine -/

/-- `WANT_ESC`, `WANT_BRACKET` and `WANT_PARAMS`. -/
inductive Want where
  | esc
  | bracket
  | params
  deriving DecidableEq, Repr

/-- The locals of `read_cursor_pos_reply`. -/
structure Reply where
  state : Want
  row : Nat
  col : Nat
  parsingCol : Bool
  deriving DecidableEq, Repr

/-- The locals at the start. -/
def Reply.start : Reply := ⟨.esc, 0, 0, false⟩

/-- What a byte leads to: a return, with the geometry on success, or another round. -/
inductive Progress where
  | returns (r : Option (Nat × Nat))
  | goesOn (r : Reply)
  deriving DecidableEq, Repr

def isDigit (c : UInt8) : Bool := 48 ≤ c ∧ c ≤ 57

/-- `n * 10 + (c - '0')`, a `uint32_t`. -/
def digit32 (n : Nat) (c : UInt8) : Nat := (n * 10 + (c.toNat - 48)) % 4294967296

/-- The body of the loop of `read_cursor_pos_reply` behind its `read`. -/
def replyByte (r : Reply) (c : UInt8) : Progress :=
  match r.state with
  | .esc => .goesOn (if c = 27 then { r with state := .bracket } else r)
  | .bracket => .goesOn { r with state := if c = 91 then .params else .esc }
  | .params =>
    if isDigit c then
      .goesOn (if r.parsingCol then { r with col := digit32 r.col c }
        else { r with row := digit32 r.row c })
    else if c = 59 then .goesOn { r with parsingCol := true }
    else if c = 82 then
      if r.row > 0 ∧ r.col > 0 then .returns (some (r.row, r.col)) else .returns none
    else
      -- not a cursor-position report; resync on the next ESC
      .goesOn ⟨.esc, 0, 0, false⟩

/-- `VI_SIZE_PROBE_TIMEOUT_MS`. -/
def VI_SIZE_PROBE_TIMEOUT_MS : Int := 200

/-- The loop of `read_cursor_pos_reply`; `none` in the result is `false`. -/
def readCursorPosReply {σ : Type} (poll : Tty σ) :
    Nat → Reply → σ → Option (Option (Nat × Nat) × σ)
  | 0, _, _ => none
  | fuel + 1, r, i =>
    let wait := if r.state = .esc then VI_SIZE_PROBE_TIMEOUT_MS else 100
    match poll wait i with
    | none => none
    | some (none, i) => some (none, i)
    | some (some c, i) =>
      match replyByte r c with
      | .returns res => some (res, i)
      | .goesOn r => readCursorPosReply poll fuel r i

/-- A terminal whose bytes all arrive in time, with silence behind them. -/
def arriving : Tty (List UInt8)
  | _, [] => some (none, [])
  | _, c :: l => some (some c, l)

/-! ## Runs -/

/-- The machine over a series of bytes. -/
def run : Reply → List UInt8 → Progress
  | r, [] => .goesOn r
  | r, c :: l =>
    match replyByte r c with
    | .returns res => .returns res
    | .goesOn r => run r l

/-- What the call returns when the input ends there. -/
def Progress.result : Progress → Option (Nat × Nat)
  | .returns res => res
  | .goesOn _ => none

/-- The loop is the machine. -/
theorem readCursorPosReply_run : ∀ (l : List UInt8) (r : Reply) (fuel : Nat), l.length < fuel →
    ∃ rest, readCursorPosReply arriving fuel r l = some ((run r l).result, rest)
  | [], r, fuel, h => by
    obtain ⟨fuel, rfl⟩ : ∃ k, fuel = k + 1 := Nat.exists_eq_succ_of_ne_zero (by omega)
    exact ⟨[], rfl⟩
  | c :: l, r, fuel, h => by
    obtain ⟨fuel, rfl⟩ : ∃ k, fuel = k + 1 := Nat.exists_eq_succ_of_ne_zero (by omega)
    rw [List.length_cons] at h
    rw [readCursorPosReply, run]
    dsimp only [arriving]
    cases replyByte r c with
    | returns res => exact ⟨l, rfl⟩
    | goesOn r' => exact readCursorPosReply_run l r' fuel (by omega)

theorem run_append : ∀ (l m : List UInt8) (r : Reply), run r (l ++ m) =
    match run r l with
    | .returns res => .returns res
    | .goesOn r => run r m
  | [], _, _ => rfl
  | c :: l, m, r => by
    rw [List.cons_append, run, run]
    cases replyByte r c with
    | returns res => rfl
    | goesOn r' => exact run_append l m r'

/-! ## The grammar -/

/-- A digit or `;`. -/
def IsParameter (c : UInt8) : Prop := isDigit c = true ∨ c = 59

instance (c : UInt8) : Decidable (IsParameter c) := inferInstanceAs (Decidable (_ ∨ _))

/-- Input that is read to its end without an answer, and no report is open there. -/
inductive Stale : List UInt8 → Prop
  | nil : Stale []
  | byte {c : UInt8} {l : List UInt8} : c ≠ 27 → Stale l → Stale (c :: l)
  | esc {c : UInt8} {l : List UInt8} : c ≠ 91 → Stale l → Stale (27 :: c :: l)
  | broken {ps l : List UInt8} {c : UInt8} : (∀ p ∈ ps, IsParameter p) → ¬IsParameter c → c ≠ 82 →
      Stale l → Stale (27 :: 91 :: (ps ++ c :: l))

/-- The row and the column that parameters denote, as `uint32_t`: the digits in front of the first
`;`, and all digits behind it. -/
def geometry (ps : List UInt8) : Nat × Nat :=
  (numeral (ps.takeWhile isDigit) % 4294967296,
    numeral ((ps.dropWhile isDigit).filter isDigit) % 4294967296)

/-- Input in which an `R` behind parameters only ends the call, with the answer `g`. -/
def Answers (l : List UInt8) (g : Nat × Nat) : Prop :=
  ∃ q ps rest, Stale q ∧ (∀ p ∈ ps, IsParameter p) ∧ geometry ps = g ∧ g.1 > 0 ∧ g.2 > 0 ∧
    l = q ++ 27 :: 91 :: (ps ++ 82 :: rest)

/-! ## Parameters -/

theorem digit_not {c : UInt8} (h : isDigit c = true) : c ≠ 59 ∧ c ≠ 82 ∧ c ≠ 27 := by
  refine ⟨?_, ?_, ?_⟩ <;> rintro rfl <;> exact absurd h (by decide)

/-- Digits in 32 bits. -/
theorem foldl_digit32 : ∀ (ds : List UInt8) (n : Nat),
    ds.foldl digit32 (n % 4294967296) =
      ds.foldl (fun n c => n * 10 + (c.toNat - 48)) n % 4294967296
  | [], _ => rfl
  | c :: ds, n => by
    have hstep : digit32 (n % 4294967296) c = (n * 10 + (c.toNat - 48)) % 4294967296 := by
      unfold digit32
      omega
    rw [List.foldl_cons, List.foldl_cons, hstep, foldl_digit32]

theorem foldl_numeral (ds : List UInt8) : ds.foldl digit32 0 = numeral ds % 4294967296 :=
  foldl_digit32 ds 0

/-- The column. -/
theorem run_col : ∀ {ps : List UInt8} (row col : Nat), (∀ p ∈ ps, IsParameter p) →
    run ⟨.params, row, col, true⟩ ps =
      .goesOn ⟨.params, row, (ps.filter isDigit).foldl digit32 col, true⟩
  | [], _, _, _ => rfl
  | c :: ps, row, col, h => by
    have hps : ∀ p ∈ ps, IsParameter p := fun p hp => h p (List.mem_cons_of_mem _ hp)
    rcases h c List.mem_cons_self with hc | rfl
    · have hbyte : replyByte ⟨.params, row, col, true⟩ c =
          .goesOn ⟨.params, row, digit32 col c, true⟩ := by simp [replyByte, hc]
      rw [run, hbyte, List.filter_cons_of_pos hc, List.foldl_cons]
      exact run_col row _ hps
    · have hsemi : run ⟨.params, row, col, true⟩ (59 :: ps) =
          run ⟨.params, row, col, true⟩ ps := rfl
      rw [hsemi, List.filter_cons_of_neg (by decide)]
      exact run_col row col hps

/-- All parameters. -/
theorem run_params : ∀ {ps : List UInt8} (row : Nat), (∀ p ∈ ps, IsParameter p) →
    ∃ b, run ⟨.params, row, 0, false⟩ ps = .goesOn ⟨.params,
      (ps.takeWhile isDigit).foldl digit32 row,
      ((ps.dropWhile isDigit).filter isDigit).foldl digit32 0, b⟩
  | [], _, _ => ⟨false, rfl⟩
  | c :: ps, row, h => by
    have hps : ∀ p ∈ ps, IsParameter p := fun p hp => h p (List.mem_cons_of_mem _ hp)
    rcases h c List.mem_cons_self with hc | rfl
    · have hbyte : replyByte ⟨.params, row, 0, false⟩ c =
          .goesOn ⟨.params, digit32 row c, 0, false⟩ := by simp [replyByte, hc]
      rw [run, hbyte, List.takeWhile_cons_of_pos hc, List.dropWhile_cons_of_pos hc, List.foldl_cons]
      exact run_params _ hps
    · refine ⟨true, ?_⟩
      rw [List.takeWhile_cons_of_neg (by decide), List.dropWhile_cons_of_neg (by decide),
        List.filter_cons_of_neg (by decide)]
      exact run_col row 0 hps

/-- A report from its ESC to its parameters. -/
theorem run_open {ps : List UInt8} (h : ∀ p ∈ ps, IsParameter p) (l : List UInt8) :
    ∃ b, run .start (27 :: 91 :: (ps ++ l)) =
      run ⟨.params, (geometry ps).1, (geometry ps).2, b⟩ l := by
  obtain ⟨b, hrun⟩ := run_params 0 h
  refine ⟨b, ?_⟩
  have hopen : run .start (27 :: 91 :: (ps ++ l)) = run ⟨.params, 0, 0, false⟩ (ps ++ l) := rfl
  rw [hopen, run_append, hrun]
  dsimp only
  rw [foldl_numeral, foldl_numeral]
  rfl

/-- A byte that breaks a report. -/
theorem run_broken {r : Reply} (hr : r.state = .params) {c : UInt8} (hc : ¬IsParameter c)
    (hR : c ≠ 82) (l : List UInt8) : run r (c :: l) = run .start l := by
  have hdigit : ¬isDigit c = true := fun h => hc (.inl h)
  have hsemi : c ≠ 59 := fun h => hc (.inr h)
  rw [run]
  simp only [replyByte, hr, hdigit, hsemi, hR, Bool.false_eq_true, if_false]
  rfl

/-- The `R` of a report. -/
theorem run_R (row col : Nat) (b : Bool) (l : List UInt8) :
    run ⟨.params, row, col, b⟩ (82 :: l) =
      .returns (if row > 0 ∧ col > 0 then some (row, col) else none) := by
  have hbyte : replyByte ⟨.params, row, col, b⟩ 82 =
      if row > 0 ∧ col > 0 then .returns (some (row, col)) else .returns none := rfl
  rw [run, hbyte]
  by_cases h : row > 0 ∧ col > 0
  · rw [if_pos h, if_pos h]
  · rw [if_neg h, if_neg h]

/-! ## The machine and the grammar -/

theorem run_skip {c : UInt8} (hc : c ≠ 27) (l : List UInt8) :
    run .start (c :: l) = run .start l := by
  rw [run]
  simp only [replyByte, Reply.start, hc, if_false]

theorem run_noBracket {c : UInt8} (hc : c ≠ 91) (l : List UInt8) :
    run .start (27 :: c :: l) = run .start l := by
  have hbyte : replyByte ⟨.bracket, 0, 0, false⟩ c = .goesOn .start := by
    simp only [replyByte, hc, if_false]
    rfl
  have hesc : run .start (27 :: c :: l) = run ⟨.bracket, 0, 0, false⟩ (c :: l) := rfl
  rw [hesc, run, hbyte]

theorem Stale.run {q : List UInt8} (h : Stale q) (l : List UInt8) :
    run .start (q ++ l) = run .start l := by
  induction h with
  | nil => rfl
  | byte hc _ ih => rw [List.cons_append, run_skip hc, ih]
  | esc hc _ ih => rw [List.cons_append, List.cons_append, run_noBracket hc, ih]
  | @broken ps q c hps hc hR _ ih =>
    obtain ⟨b, hopen⟩ := run_open hps (c :: (q ++ l))
    rw [List.cons_append, List.cons_append, List.append_assoc, List.cons_append, hopen,
      run_broken rfl hc hR, ih]

/-- Behind `ESC [` there are only parameters, or there is a first byte that is none. -/
theorem params_split : ∀ l : List UInt8, (∀ p ∈ l, IsParameter p) ∨
    ∃ ps c rest, (∀ p ∈ ps, IsParameter p) ∧ ¬IsParameter c ∧ l = ps ++ c :: rest
  | [] => .inl (by simp)
  | c :: l => by
    by_cases hc : IsParameter c
    · rcases params_split l with h | ⟨ps, d, rest, hps, hd, rfl⟩
      · exact .inl (List.forall_mem_cons.mpr ⟨hc, h⟩)
      · exact .inr ⟨c :: ps, d, rest, List.forall_mem_cons.mpr ⟨hc, hps⟩, hd, rfl⟩
    · exact .inr ⟨[], c, l, by simp, hc, rfl⟩

/-- What input can lead to, from the start. -/
inductive Ends (l : List UInt8) : Prop
  | stale (h : Stale l)
  | opened (q : List UInt8) (h : Stale q) (e : l = q ++ [27])
  | inside (q ps : List UInt8) (h : Stale q) (hps : ∀ p ∈ ps, IsParameter p)
      (e : l = q ++ 27 :: 91 :: ps)
  | ended (q ps rest : List UInt8) (h : Stale q) (hps : ∀ p ∈ ps, IsParameter p)
      (e : l = q ++ 27 :: 91 :: (ps ++ 82 :: rest))

/-- Skipped input in front changes nothing. -/
theorem Ends.cons {l m : List UInt8} (h : Ends l) (hm : ∀ q, Stale q → Stale (m ++ q)) :
    Ends (m ++ l) := by
  cases h with
  | stale h => exact .stale (hm l h)
  | opened q h e => exact .opened (m ++ q) (hm q h) (by rw [e, List.append_assoc])
  | inside q ps h hps e => exact .inside (m ++ q) ps (hm q h) hps (by rw [e, List.append_assoc])
  | ended q ps rest h hps e =>
    exact .ended (m ++ q) ps rest (hm q h) hps (by rw [e, List.append_assoc])

theorem ends : ∀ l : List UInt8, Ends l
  | [] => .stale .nil
  | [c] => by
    by_cases hc : c = 27
    · exact .opened [] .nil (by rw [hc]; rfl)
    · exact .stale (.byte hc .nil)
  | c :: d :: l => by
    by_cases hc : c = 27
    · subst hc
      by_cases hd : d = 91
      · subst hd
        rcases params_split l with hps | ⟨ps, x, rest, hps, hx, rfl⟩
        · exact .inside [] l .nil hps rfl
        · by_cases hR : x = 82
          · subst hR
            exact .ended [] ps rest .nil hps rfl
          · have h := (ends rest).cons (m := 27 :: 91 :: (ps ++ [x])) fun q hq => by
              rw [List.cons_append, List.cons_append, List.append_assoc]
              exact .broken hps hx hR hq
            rwa [List.cons_append, List.cons_append, List.append_assoc] at h
      · exact (ends l).cons (m := [27, d]) fun q hq => .esc hd hq
    · exact (ends (d :: l)).cons (m := [c]) fun q hq => .byte hc hq
termination_by l => l.length

theorem run_inside {q ps : List UInt8} (h : Stale q) (hps : ∀ p ∈ ps, IsParameter p)
    (l : List UInt8) : ∃ b, run .start (q ++ 27 :: 91 :: (ps ++ l)) =
      run ⟨.params, (geometry ps).1, (geometry ps).2, b⟩ l := by
  obtain ⟨b, hopen⟩ := run_open hps l
  exact ⟨b, (h.run _).trans hopen⟩

/-- **The skipped input** is that behind which the machine is where it was at the start. -/
theorem stale_iff {l : List UInt8} : run .start l = .goesOn .start ↔ Stale l := by
  constructor
  · intro h
    cases ends l with
    | stale hs => exact hs
    | opened q hq e =>
      rw [e, hq.run] at h
      cases h
    | inside q ps hq hps e =>
      obtain ⟨b, hrun⟩ := run_inside hq hps []
      rw [e, ← List.append_nil ps, hrun] at h
      cases h
    | ended q ps rest hq hps e =>
      obtain ⟨b, hrun⟩ := run_inside hq hps (82 :: rest)
      rw [e, hrun, run_R] at h
      cases h
  · intro h
    have hrun := h.run []
    rw [List.append_nil] at hrun
    exact hrun

/-- The machine answers within the input. -/
theorem answers_iff {l : List UInt8} {g : Nat × Nat} :
    run .start l = .returns (some g) ↔ Answers l g := by
  constructor
  · intro h
    cases ends l with
    | stale hs =>
      rw [stale_iff.mpr hs] at h
      cases h
    | opened q hq e =>
      rw [e, hq.run] at h
      cases h
    | inside q ps hq hps e =>
      obtain ⟨b, hrun⟩ := run_inside hq hps []
      rw [e, ← List.append_nil ps, hrun] at h
      cases h
    | ended q ps rest hq hps e =>
      obtain ⟨b, hrun⟩ := run_inside hq hps (82 :: rest)
      rw [e, hrun, run_R] at h
      by_cases hpos : (geometry ps).1 > 0 ∧ (geometry ps).2 > 0
      · rw [if_pos hpos] at h
        cases h
        exact ⟨q, ps, rest, hq, hps, rfl, hpos.1, hpos.2, e⟩
      · rw [if_neg hpos] at h
        cases h
  · rintro ⟨q, ps, rest, hq, hps, rfl, h₁, h₂, rfl⟩
    obtain ⟨b, hrun⟩ := run_inside hq hps (82 :: rest)
    rw [hrun, run_R, if_pos ⟨h₁, h₂⟩]

/-! ## The report -/

/-- `ESC [ r ; c R`. -/
def report (r c : List UInt8) : List UInt8 := 27 :: 91 :: (r ++ 59 :: c ++ [82])

section Report

variable {r c : List UInt8} (hr : ∀ d ∈ r, isDigit d = true) (hc : ∀ d ∈ c, isDigit d = true)

include hr hc

theorem geometry_report (hr₃₂ : numeral r < 4294967296) (hc₃₂ : numeral c < 4294967296) :
    geometry (r ++ 59 :: c) = (numeral r, numeral c) := by
  have htake : (r ++ 59 :: c).takeWhile isDigit = r := by
    rw [List.takeWhile_append_of_pos hr, List.takeWhile_cons_of_neg (by decide), List.append_nil]
  have hdrop : (r ++ 59 :: c).dropWhile isDigit = 59 :: c := by
    rw [List.dropWhile_append_of_pos hr, List.dropWhile_cons_of_neg (by decide)]
  unfold geometry
  rw [htake, hdrop, List.filter_cons_of_neg (by decide), List.filter_eq_self.mpr hc,
    Nat.mod_eq_of_lt hr₃₂, Nat.mod_eq_of_lt hc₃₂]

theorem params_report : ∀ p ∈ r ++ 59 :: c, IsParameter p := by
  intro p hp
  rcases List.mem_append.mp hp with h | h
  · exact .inl (hr p h)
  · rcases List.mem_cons.mp h with h | h
    · exact .inr h
    · exact .inl (hc p h)

/-- A report whose ESC is swallowed is skipped. -/
theorem stale_tail : Stale (91 :: (r ++ 59 :: c ++ [82])) := by
  have skip : ∀ l : List UInt8, 27 ∉ l → Stale l := by
    intro l hl
    induction l with
    | nil => exact .nil
    | cons x l ih =>
      rw [List.mem_cons, not_or] at hl
      exact .byte (Ne.symm hl.1) (ih hl.2)
  refine skip _ fun h => ?_
  simp only [List.mem_cons, List.mem_append, List.not_mem_nil, or_false] at h
  rcases h with h | (h | h | h) | h
  · exact absurd h (by decide)
  · exact (digit_not (hr 27 h)).2.2 rfl
  · exact absurd h (by decide)
  · exact (digit_not (hc 27 h)).2.2 rfl
  · exact absurd h (by decide)

/-- The machine over a report. -/
theorem run_report (hr₃₂ : numeral r < 4294967296) (hc₃₂ : numeral c < 4294967296)
    (hrow : 0 < numeral r) (hcol : 0 < numeral c) (more : List UInt8) :
    run .start (report r c ++ more) = .returns (some (numeral r, numeral c)) := by
  have hbytes : report r c ++ more = 27 :: 91 :: ((r ++ 59 :: c) ++ 82 :: more) := by
    simp [report]
  obtain ⟨b, hopen⟩ := run_open (params_report hr hc) (82 :: more)
  rw [hbytes, hopen, geometry_report hr hc hr₃₂ hc₃₂, run_R, if_pos ⟨hrow, hcol⟩]

/-- A report behind input that leaves a report open: its ESC is what breaks that one, and the rest
is skipped. -/
theorem run_swallowed {r₀ : Reply} (h : run r₀ [27] = .goesOn .start) :
    run r₀ (report r c) = .goesOn .start := by
  have hsplit : report r c = [27] ++ 91 :: (r ++ 59 :: c ++ [82]) := rfl
  rw [hsplit, run_append, h]
  exact stale_iff.mpr (stale_tail hr hc)

end Report

/-- Whatever follows, a report is found behind skipped input. -/
theorem run_found {p r c : List UInt8} (hp : Stale p) (hr : ∀ d ∈ r, isDigit d = true)
    (hc : ∀ d ∈ c, isDigit d = true) (hrow : 0 < numeral r) (hr₃₂ : numeral r < 4294967296)
    (hcol : 0 < numeral c) (hc₃₂ : numeral c < 4294967296) (more : List UInt8) :
    run .start (p ++ report r c ++ more) = .returns (some (numeral r, numeral c)) := by
  rw [List.append_assoc, hp.run, run_report hr hc hr₃₂ hc₃₂ hrow hcol]

/-- **Stale input in front of a report.** The call returns the geometry of the report exactly when
the input in front of it is skipped and leaves no report open, or answers the same by itself. -/
theorem cursorReport_iff (p : List UInt8) {r c : List UInt8} (hr : ∀ d ∈ r, isDigit d = true)
    (hc : ∀ d ∈ c, isDigit d = true) (hrow : 0 < numeral r) (hr₃₂ : numeral r < 4294967296)
    (hcol : 0 < numeral c) (hc₃₂ : numeral c < 4294967296) {fuel : Nat}
    (hfuel : (p ++ report r c).length < fuel) :
    (∃ rest, readCursorPosReply arriving fuel .start (p ++ report r c) =
      some (some (numeral r, numeral c), rest)) ↔
    Stale p ∨ Answers p (numeral r, numeral c) := by
  obtain ⟨rest, hread⟩ := readCursorPosReply_run (p ++ report r c) .start fuel hfuel
  have hresult : (∃ rest, readCursorPosReply arriving fuel .start (p ++ report r c) =
      some (some (numeral r, numeral c), rest)) ↔
      (run .start (p ++ report r c)).result = some (numeral r, numeral c) := by
    rw [hread]
    constructor
    · rintro ⟨rest', h⟩
      exact congrArg Prod.fst (Option.some.inj h)
    · intro h
      exact ⟨rest, by rw [h]⟩
  rw [hresult]
  have hnone {r₀ : Reply} (h : run r₀ [27] = .goesOn .start) :
      (run r₀ (report r c)).result = none := by
    rw [run_swallowed hr hc h]
    rfl
  constructor
  · intro h
    cases ends p with
    | stale hp => exact .inl hp
    | opened q hq e =>
      -- the ESC of the report stands where its bracket is expected
      have hopened : run .start (p ++ report r c) =
          run ⟨.bracket, 0, 0, false⟩ (report r c) := by
        rw [e, List.append_assoc, hq.run]
        rfl
      rw [hopened, hnone rfl] at h
      cases h
    | inside q ps hq hps e =>
      obtain ⟨b, hrun⟩ := run_inside hq hps (report r c)
      rw [e, List.append_assoc, List.cons_append, List.cons_append, hrun,
        hnone (run_broken rfl (by decide) (by decide) [])] at h
      cases h
    | ended q ps rest hq hps e =>
      have hrun : run .start p = .returns (if (geometry ps).1 > 0 ∧ (geometry ps).2 > 0 then
          some (geometry ps) else none) := by
        obtain ⟨b, hrun⟩ := run_inside hq hps (82 :: rest)
        rw [e, hrun, run_R]
      rw [run_append, hrun] at h
      refine .inr (answers_iff.mp ?_)
      rw [hrun]
      exact congrArg Progress.returns h
  · rintro (hp | hp)
    · have hfound := run_found hp hr hc hrow hr₃₂ hcol hc₃₂ []
      rw [List.append_nil] at hfound
      rw [hfound]
      rfl
    · rw [run_append, answers_iff.mpr hp]
      rfl

/-- Two letters typed ahead of `ESC [ 24 ; 80 R`. -/
theorem cursorReport_iff_typed :
    (∃ rest, readCursorPosReply arriving 20 .start ([106, 107] ++ report [50, 52] [56, 48]) =
      some (some (numeral [50, 52], numeral [56, 48]), rest)) ↔
    Stale [106, 107] ∨ Answers [106, 107] (numeral [50, 52], numeral [56, 48]) :=
  cursorReport_iff [106, 107] (by decide +kernel) (by decide +kernel) (by decide)
    (by decide +kernel) (by decide) (by decide +kernel) (by decide)

/-- An ESC typed ahead takes the ESC of the report for itself. -/
theorem cursorReport_swallowed :
    ¬∀ p r c : List UInt8,
      (¬∃ q ds es rest : List UInt8, (∀ d ∈ ds, isDigit d = true) ∧ (∀ d ∈ es, isDigit d = true) ∧
        p = q ++ report ds es ++ rest) →
      (∀ d ∈ r, isDigit d = true) → (∀ d ∈ c, isDigit d = true) →
      0 < numeral r → numeral r < 4294967296 → 0 < numeral c → numeral c < 4294967296 →
      ∃ fuel rest, readCursorPosReply arriving fuel .start (p ++ report r c) =
        some (some (numeral r, numeral c), rest) := by
  intro h
  have hplain : ¬∃ q ds es rest : List UInt8, (∀ d ∈ ds, isDigit d = true) ∧
      (∀ d ∈ es, isDigit d = true) ∧ [27] = q ++ report ds es ++ rest := by
    rintro ⟨q, ds, es, rest, -, -, e⟩
    have hlen := congrArg List.length e
    simp only [report, List.length_append, List.length_cons, List.length_nil] at hlen
    omega
  obtain ⟨fuel, rest, hread⟩ := h [27] [50, 52] [56, 48] hplain (by decide +kernel)
    (by decide +kernel)
    (by decide) (by decide +kernel) (by decide) (by decide +kernel)
  have hnone : ∀ fuel, readCursorPosReply arriving fuel .start ([27] ++ report [50, 52] [56, 48]) =
      none ∨ readCursorPosReply arriving fuel .start ([27] ++ report [50, 52] [56, 48]) =
        some (none, []) := by
    intro fuel
    by_cases hfuel : fuel < 10
    · interval_cases fuel <;> decide
    · obtain ⟨k, rfl⟩ : ∃ k, fuel = k + 10 := ⟨fuel - 10, by omega⟩
      exact .inr rfl
  rcases hnone fuel with h₁ | h₁ <;>
  · rw [h₁] at hread
    cases hread

/-! ## The geometry -/

/-- `get_screen_xy`: what `TIOCGWINSZ` gives when `isatty(0)`, else what the report gives when both
descriptors are a terminal, kept inside the buffers. -/
def getScreenXy (stdin stdout : Bool) (winsize reply : Option (Nat × Nat)) : Nat × Nat :=
  let size :=
    match winsize with
    | some (rows, cols) => if stdin ∧ 0 < rows ∧ 0 < cols then some (rows, cols) else none
    | none => none
  let size := size.orElse fun _ => if stdin ∧ stdout then reply else none
  let (rows, cols) := size.getD (24, 80)
  (min (max cols 2) MAX_SCR_COLS, min (max rows 2) MAX_SCR_ROWS)

/-- Whatever the terminal reports, the geometry fits the buffers. -/
theorem getScreenXy_bounds (stdin stdout : Bool) (winsize reply : Option (Nat × Nat)) :
    2 ≤ (getScreenXy stdin stdout winsize reply).1 ∧
      (getScreenXy stdin stdout winsize reply).1 ≤ MAX_SCR_COLS ∧
      2 ≤ (getScreenXy stdin stdout winsize reply).2 ∧
      (getScreenXy stdin stdout winsize reply).2 ≤ MAX_SCR_ROWS := by
  have hclamp : ∀ n top : Nat, 2 ≤ top → 2 ≤ min (max n 2) top ∧ min (max n 2) top ≤ top := by
    intro n top h
    omega
  unfold getScreenXy
  dsimp only
  exact ⟨(hclamp _ MAX_SCR_COLS (by decide)).1, (hclamp _ MAX_SCR_COLS (by decide)).2,
    (hclamp _ MAX_SCR_ROWS (by decide)).1, (hclamp _ MAX_SCR_ROWS (by decide)).2⟩

end Evim.Report
