import Mathlib
import Ewokos.Lib.Prefixes
import Ewokos.Calculator.Keypad

/-!
# calculator: what is typed

`hasDecimal` says of the input whether it has a decimal point, except behind two presses: a point
that starts a new entry over a text with one, and a division by a zero with one.

* `WellFormed` — the flag, and the shape of an entry being typed.
* `wellFormed_iff` — which presses keep it.
* `input_iff` — along a run.
-/

set_option autoImplicit false

namespace Calc

/-- Digits with at most one decimal point, at most 12 characters. -/
structure Typed (s : List Char) : Prop where
  chars : ∀ ch ∈ s, ch.isDigit = true ∨ ch = '.'
  point : s.count '.' ≤ 1
  length : s.length ≤ 12

namespace Typed

theorem nil : Typed [] := ⟨nofun, by decide, by decide⟩

theorem zero : Typed ['0'] :=
  ⟨fun _ hmem => .inl (List.mem_singleton.mp hmem ▸ by decide), by decide, by decide⟩

theorem digit {s : List Char} {ch : Char} (h : Typed s) (hch : ch.isDigit = true)
    (hlen : s.length < 12) : Typed (s ++ [ch]) where
  chars := by
    intro ch' hmem
    rcases List.mem_append.mp hmem with hmem | hmem
    · exact h.chars ch' hmem
    · exact .inl (List.mem_singleton.mp hmem ▸ hch)
  point := by
    have hne : ch ≠ '.' := by
      rintro rfl
      exact absurd hch (by decide)
    rw [List.count_append, List.count_singleton, if_neg (by simpa using hne)]
    exact h.point
  length := by
    rw [List.length_append]
    exact hlen

theorem decimal {s : List Char} (h : Typed s) (hno : '.' ∉ s) (hlen : s.length < 12) :
    Typed (s ++ ['.']) where
  chars := by
    intro ch' hmem
    rcases List.mem_append.mp hmem with hmem | hmem
    · exact h.chars ch' hmem
    · exact .inr (List.mem_singleton.mp hmem)
  point := by
    rw [List.count_append, List.count_eq_zero.mpr hno]
    decide
  length := by
    rw [List.length_append]
    exact hlen

theorem dropLast {s : List Char} (h : Typed s) : Typed s.dropLast where
  chars := fun ch hmem => h.chars ch (List.dropLast_subset s hmem)
  point := ((List.dropLast_sublist s).count_le '.').trans h.point
  length := by
    have := h.length
    rw [List.length_dropLast]
    omega

end Typed

namespace Calculator

/-- `hasDecimal` tells of the point, and what is being typed is `Typed`. -/
structure WellFormed (c : Calculator) : Prop where
  decimal : c.hasDecimal = true ↔ '.' ∈ c.currentInput
  typed : c.shouldResetDisplay = false → Typed c.currentInput

/-- What is being typed: nothing where the next character starts anew. -/
def entry (c : Calculator) : List Char := if c.shouldResetDisplay then [] else c.currentInput

/-- The division by zero of `calculate`. -/
def DividesByZero (d : Doubles) (c : Calculator) : Prop :=
  c.previousInput ≠ [] ∧ c.currentInput ≠ [] ∧ c.currentOperator = '/' ∧
    d.eq (d.atof c.currentInput) d.zero = true

theorem new_wellFormed : new.WellFormed := ⟨by decide, fun _ => Typed.nil⟩

theorem updateDisplay_wellFormed {c : Calculator} :
    c.updateDisplay.WellFormed ↔ c.WellFormed := ⟨fun h => ⟨h.1, h.2⟩, fun h => ⟨h.1, h.2⟩⟩

section Handlers

variable {d : Doubles} {c : Calculator}

theorem wellFormed_nil (hinput : c.currentInput = []) (hflag : c.hasDecimal = false) :
    c.WellFormed := by
  refine ⟨?_, fun _ => ?_⟩
  · rw [hinput, hflag]
    decide
  · rw [hinput]
    exact Typed.nil

theorem clear_wellFormed : c.clear.WellFormed := wellFormed_nil rfl rfl

theorem clearEntry_wellFormed : c.clearEntry.WellFormed := wellFormed_nil rfl rfl

theorem backspace_wellFormed (h : c.WellFormed) : c.backspace.WellFormed := by
  unfold backspace
  split
  · rename_i hsome
    obtain ⟨hlen, hreset⟩ := hsome
    have htyped : Typed c.currentInput := h.typed (by simpa using hreset)
    obtain hnil | ⟨s, ch, hinput⟩ := List.eq_nil_or_concat c.currentInput
    · rw [hnil] at hlen
      exact absurd hlen (lt_irrefl 0)
    rw [List.concat_eq_append] at hinput
    have hdrop : c.currentInput.dropLast = s := by rw [hinput, List.dropLast_concat]
    have hmem : '.' ∈ c.currentInput ↔ '.' ∈ s ∨ '.' = ch := by
      rw [hinput, List.mem_append, List.mem_singleton]
    have hshort : Typed s := hdrop ▸ htyped.dropLast
    by_cases hlast : c.currentInput.getLast? = some '.'
    · -- the point itself goes, and there is no other
      rw [if_pos hlast, updateDisplay_wellFormed]
      rw [hinput, List.getLast?_concat, Option.some_inj] at hlast
      have hno : '.' ∉ s := by
        have hpoint := htyped.point
        rw [hinput, hlast, List.count_append, List.count_singleton_self] at hpoint
        exact List.count_eq_zero.mp (by omega)
      dsimp only
      rw [hdrop]
      exact ⟨iff_of_false Bool.false_ne_true hno, fun _ => hshort⟩
    · rw [if_neg hlast, updateDisplay_wellFormed, hdrop]
      rw [hinput, List.getLast?_concat, Option.some_inj] at hlast
      exact ⟨h.decimal.trans (hmem.trans (or_iff_left (Ne.symm hlast))), fun _ => hshort⟩
  · exact h

/-- The entry is continued where it is not full. -/
theorem append_wellFormed (h : c.WellFormed) (htyped : Typed c.currentInput) {ch : Char}
    (hch : ch.isDigit = true) (hlen : c.currentInput.length < 12) :
    { c with currentInput := c.currentInput ++ [ch] }.updateDisplay.WellFormed := by
  have hne : '.' ≠ ch := by
    rintro rfl
    exact absurd hch (by decide)
  refine updateDisplay_wellFormed.mpr ⟨h.decimal.trans ?_, fun _ => htyped.digit hch hlen⟩
  rw [List.mem_append, List.mem_singleton, or_iff_left hne]

theorem appendNumber_wellFormed (h : c.WellFormed) {ch : Char} (hch : ch.isDigit = true) :
    (c.appendNumber [ch]).WellFormed := by
  unfold appendNumber
  by_cases hreset : c.shouldResetDisplay = true
  · rw [if_pos hreset]
    exact append_wellFormed (c := { c with
      currentInput := [], shouldResetDisplay := false, hasDecimal := false })
      (wellFormed_nil rfl rfl) Typed.nil hch (Nat.zero_lt_succ 11)
  · rw [if_neg hreset]
    dsimp only
    split
    · rename_i hlen
      exact append_wellFormed h (h.typed (Bool.eq_false_iff.mpr hreset)) hch hlen
    · exact h

/-- The press adds a point to what is being typed, if the flag does not know of one. -/
theorem appendDecimal_entry (hlen : c.entry.length < 11)
    (hflag : c.hasDecimal = false) : c.appendDecimal = { c with
      currentInput := (if c.entry = [] then ['0'] else c.entry) ++ ['.']
      shouldResetDisplay := false
      hasDecimal := true }.updateDisplay := by
  unfold entry at *
  unfold appendDecimal
  by_cases hreset : c.shouldResetDisplay = true
  · simp only [hreset, if_true, hflag]
    rfl
  · rw [if_neg hreset] at *
    rw [if_pos ⟨by rw [hflag]; rfl, hlen⟩]
    have hreset' : c.shouldResetDisplay = false := Bool.eq_false_iff.mpr hreset
    obtain ⟨display, input, previous, operator, reset, decimal⟩ := c
    dsimp only at *
    subst hreset'
    split
    · rfl
    · rfl

/-- The flag of the text that goes stays. -/
theorem appendDecimal_lost (hreset : c.shouldResetDisplay = true) (hflag : c.hasDecimal = true) :
    c.appendDecimal = { c with currentInput := ['0'], shouldResetDisplay := false } := by
  unfold appendDecimal
  rw [if_pos hreset]
  dsimp only
  rw [if_neg fun hc => absurd hc.1 (by rw [hflag]; decide)]

theorem entry_typed (h : c.WellFormed) : Typed c.entry := by
  unfold entry
  split
  · exact Typed.nil
  · rename_i hreset
    exact h.typed (Bool.eq_false_iff.mpr hreset)

/-- The entry and its point, as `appendDecimal_entry` has them. -/
theorem entry_point {s : List Char} (h : Typed s) (hno : '.' ∉ s) (hlen : s.length < 11) :
    Typed ((if s = [] then ['0'] else s) ++ ['.']) := by
  split
  · exact Typed.zero.decimal (by decide) (by decide)
  · exact h.decimal hno (by omega)

theorem appendDecimal_wellFormed (h : c.WellFormed) :
    c.appendDecimal.WellFormed ↔ ¬(c.shouldResetDisplay = true ∧ '.' ∈ c.currentInput) := by
  rw [← h.decimal]
  by_cases hfull : c.hasDecimal = false ∧ c.entry.length < 11
  · have hno : '.' ∉ c.entry := by
      have hinput : '.' ∉ c.currentInput := fun hmem => by
        rw [h.decimal.mpr hmem] at hfull
        exact absurd hfull.1 (by decide)
      unfold entry
      split
      · exact List.not_mem_nil
      · exact hinput
    refine iff_of_true ?_ fun hbad => ?_
    · rw [appendDecimal_entry hfull.2 hfull.1, updateDisplay_wellFormed]
      exact ⟨iff_of_true rfl (List.mem_append_right _ (List.mem_singleton_self _)),
        fun _ => entry_point (entry_typed h) hno hfull.2⟩
    · rw [hfull.1] at hbad
      exact Bool.false_ne_true hbad.2
  · unfold entry at hfull
    by_cases hreset : c.shouldResetDisplay = true
    · have hflag : c.hasDecimal = true := by simpa [hreset] using hfull
      rw [appendDecimal_lost hreset hflag]
      refine iff_of_false (fun hlost => ?_) fun hno => hno ⟨hreset, hflag⟩
      exact absurd (hlost.decimal.mp hflag) (by decide : '.' ∉ ['0'])
    · rw [if_neg hreset] at hfull
      unfold appendDecimal
      rw [if_neg hreset]
      dsimp only
      rw [if_neg (by simpa using hfull)]
      exact iff_of_true h fun hbad => hreset hbad.1

/-- A text of the calculator's own in place of the input. -/
theorem calculate_cases (d : Doubles) (c : Calculator) :
    (c.previousInput = [] ∨ c.currentInput = []) ∧ c.calculate d = c ∨
    c.DividesByZero d ∧ (c.calculate d).currentInput = ['E', 'r', 'r', 'o', 'r'] ∧
      (c.calculate d).hasDecimal = c.hasDecimal ∧ (c.calculate d).shouldResetDisplay = true ∨
    ¬c.DividesByZero d ∧
      ((c.calculate d).hasDecimal = true ↔ '.' ∈ (c.calculate d).currentInput) ∧
      (c.calculate d).shouldResetDisplay = true := by
  unfold DividesByZero calculate
  by_cases hempty : c.previousInput = [] ∨ c.currentInput = []
  · exact .inl ⟨hempty, if_pos hempty⟩
  · rw [if_neg hempty]
    push Not at hempty
    dsimp only
    by_cases hzero : c.currentOperator = '/' ∧ d.eq (d.atof c.currentInput) d.zero = true
    · rw [if_pos hzero]
      exact .inr (.inl ⟨⟨hempty.1, hempty.2, hzero⟩, rfl, rfl, rfl⟩)
    · rw [if_neg hzero]
      exact .inr (.inr ⟨fun h => hzero h.2.2, decide_eq_true_iff, rfl⟩)

theorem calculate_wellFormed (h : c.WellFormed) :
    (c.calculate d).WellFormed ↔ ¬(c.DividesByZero d ∧ '.' ∈ c.currentInput) := by
  have hreset {P : Prop} (h₁ : (c.calculate d).shouldResetDisplay = true)
      (h₂ : (c.calculate d).shouldResetDisplay = false) : P :=
    absurd (h₁.symm.trans h₂) Bool.noConfusion
  rcases calculate_cases d c with ⟨hempty, hcalc⟩ | ⟨hzero, hinput, hflag, hdone⟩ |
    ⟨hzero, hflag, hdone⟩
  · rw [hcalc]
    refine iff_of_true h fun hbad => ?_
    exact hempty.elim hbad.1.1 hbad.1.2.1
  · have herror : '.' ∉ (c.calculate d).currentInput := by
      rw [hinput]
      decide
    rw [and_iff_right hzero, ← h.decimal, ← hflag]
    exact ⟨fun h' hc => herror (h'.decimal.mp hc),
      fun hno => ⟨iff_of_false hno herror, hreset hdone⟩⟩
  · exact iff_of_true ⟨hflag, hreset hdone⟩ fun hbad => hzero hbad.1

/-- Keeping the input as the first operand changes nothing about it. -/
theorem operand_wellFormed (op : Char) : { c with
    previousInput := c.currentInput, currentOperator := op, shouldResetDisplay := true }.WellFormed ↔
      (c.hasDecimal = true ↔ '.' ∈ c.currentInput) :=
  ⟨fun h => h.decimal, fun h => ⟨h, nofun⟩⟩

theorem setOperator_wellFormed (h : c.WellFormed) (op : Char) :
    (c.setOperator d op).WellFormed ↔
      ¬(c.shouldResetDisplay = false ∧ c.DividesByZero d ∧ '.' ∈ c.currentInput) := by
  unfold setOperator
  by_cases hempty : c.currentInput = []
  · rw [if_pos hempty]
    exact iff_of_true h fun hbad => hbad.2.1.2.1 hempty
  rw [if_neg hempty]
  dsimp only
  rw [operand_wellFormed]
  by_cases hcalc : c.previousInput ≠ [] ∧ (!c.shouldResetDisplay) = true
  · have hreset : c.shouldResetDisplay = false := by simpa using hcalc.2
    rw [if_pos hcalc, and_iff_right hreset, ← calculate_wellFormed h]
    refine ⟨fun hflag => ⟨hflag, ?_⟩, fun h' => h'.decimal⟩
    rcases calculate_cases d c with ⟨hnone, -⟩ | ⟨-, -, -, hdone⟩ | ⟨-, -, hdone⟩
    · exact (hnone.elim hcalc.1 hempty).elim
    · exact fun h₂ => absurd (hdone.symm.trans h₂) Bool.noConfusion
    · exact fun h₂ => absurd (hdone.symm.trans h₂) Bool.noConfusion
  · rw [if_neg hcalc]
    refine iff_of_true h.decimal fun hbad => hcalc ⟨hbad.2.1.1, ?_⟩
    rw [hbad.1]
    rfl

end Handlers

/-- The press starts an entry with a point over a text with one, or divides by a zero with one. -/
def Spoils (d : Doubles) (c : Calculator) (label : List Char) : Prop :=
  '.' ∈ c.currentInput ∧
    (label = ['.'] ∧ c.shouldResetDisplay = true ∨
      label = ['='] ∧ c.DividesByZero d ∨
      label ∈ [['/'], ['*'], ['-'], ['+']] ∧ c.shouldResetDisplay = false ∧ c.DividesByZero d)

/-- The buttons by their handlers. -/
theorem label_cases : ∀ label ∈ buttons, label = ['C'] ∨ label = ['C', 'E'] ∨ label = ['<', '-'] ∨
    (∃ op ∈ ['/', '*', '-', '+'], label = [op]) ∨ label = ['='] ∨ label = ['.'] ∨
      ∃ ch ∈ ['0', '1', '2', '3', '4', '5', '6', '7', '8', '9'], label = [ch] := by
  intro label hlabel
  fin_cases hlabel <;> simp

theorem operator_label : ∀ op ∈ ['/', '*', '-', '+'],
    [op] ∈ [['/'], ['*'], ['-'], ['+']] ∧ [op] ≠ ['.'] ∧ [op] ≠ ['='] := by
  intro op hop
  fin_cases hop <;> simp

theorem digit_label : ∀ ch ∈ ['0', '1', '2', '3', '4', '5', '6', '7', '8', '9'],
    ch.isDigit = true ∧ [ch] ≠ ['.'] ∧ [ch] ≠ ['='] ∧ [ch] ∉ [['/'], ['*'], ['-'], ['+']] := by
  intro ch hch
  fin_cases hch <;> simp

theorem onButtonClick_operator (d : Doubles) (c : Calculator) {op : Char}
    (h : op ∈ ['/', '*', '-', '+']) : c.onButtonClick d [op] = c.setOperator d op := by
  fin_cases h <;> rfl

theorem onButtonClick_digit (d : Doubles) (c : Calculator) {ch : Char}
    (h : ch ∈ ['0', '1', '2', '3', '4', '5', '6', '7', '8', '9']) :
    c.onButtonClick d [ch] = c.appendNumber [ch] := by
  fin_cases h <;> rfl

/-- Each press. -/
theorem wellFormed_iff (d : Doubles) {c : Calculator} (h : c.WellFormed) {label : List Char}
    (hlabel : label ∈ buttons) : (c.onButtonClick d label).WellFormed ↔ ¬c.Spoils d label := by
  have hclean (hdot : label ≠ ['.']) (hequal : label ≠ ['='])
      (hop : label ∉ [['/'], ['*'], ['-'], ['+']]) (h' : (c.onButtonClick d label).WellFormed) :
      (c.onButtonClick d label).WellFormed ↔ ¬c.Spoils d label := by
    refine iff_of_true h' ?_
    rintro ⟨-, hbad | hbad | hbad⟩
    · exact hdot hbad.1
    · exact hequal hbad.1
    · exact hop hbad.1
  rcases label_cases label hlabel with rfl | rfl | rfl | ⟨op, hop, rfl⟩ | rfl | rfl | ⟨ch, hch, rfl⟩
  · exact hclean (by decide) (by decide) (by decide) clear_wellFormed
  · exact hclean (by decide) (by decide) (by decide) clearEntry_wellFormed
  · exact hclean (by decide) (by decide) (by decide) (backspace_wellFormed h)
  · have hmem := operator_label op hop
    rw [onButtonClick_operator d c hop, setOperator_wellFormed h op, Spoils, not_iff_not]
    tauto
  · change (c.calculate d).WellFormed ↔ _
    rw [calculate_wellFormed h, Spoils, not_iff_not]
    simp [and_comm]
  · change c.appendDecimal.WellFormed ↔ _
    rw [appendDecimal_wellFormed h, Spoils, not_iff_not]
    simp [and_comm]
  · have hdigit := digit_label ch hch
    refine hclean hdigit.2.1 hdigit.2.2.1 hdigit.2.2.2 ?_
    rw [onButtonClick_digit d c hch]
    exact appendNumber_wellFormed h hdigit.1

/-! ## Runs -/

/-- A point that is missing, and has room, is added. -/
def AddsPoint (c c' : Calculator) : Prop :=
  '.' ∉ c.entry → c.entry.length < 11 → c'.entry.count '.' = 1

/-- The point that a press adds is the only one. -/
theorem appendDecimal_addsPoint {c : Calculator} (h : c.WellFormed)
    (hkeep : ¬(c.shouldResetDisplay = true ∧ '.' ∈ c.currentInput)) :
    AddsPoint c c.appendDecimal := by
  intro hno hlen
  have hflag : c.hasDecimal = false := by
    rw [← Bool.not_eq_true, h.decimal]
    intro hmem
    unfold entry at hno
    by_cases hreset : c.shouldResetDisplay = true
    · exact hkeep ⟨hreset, hmem⟩
    · rw [if_neg hreset] at hno
      exact hno hmem
  rw [appendDecimal_entry hlen hflag]
  change ((if c.entry = [] then ['0'] else c.entry) ++ ['.']).count '.' = 1
  rw [List.count_append, List.count_singleton_self, Nat.add_eq_right, List.count_eq_zero]
  split
  · decide
  · exact hno

theorem run_concat (d : Doubles) (p : List Label) (label : Label) :
    run d (p ++ [label]) = (run d p).onButtonClick d label :=
  List.foldl_concat ..

/-- The button with the point. -/
def dot : Label := ⟨['.'], by decide⟩

/-- **Input.**  Along a run of presses the flag tells of the point, an entry is digits with at most
one point, and each point that has room is added, exactly when no press spoils it. -/
theorem input_iff (d : Doubles) (presses : List Label) :
    ((∀ p, p <+: presses → (run d p).WellFormed) ∧
      ∀ p, p ++ [dot] <+: presses → AddsPoint (run d p) (run d (p ++ [dot]))) ↔
      ∀ (p : List Label) (label : Label), p ++ [label] <+: presses →
        ¬(run d p).Spoils d label := by
  have hstep (p : List Label) (label : Label) (h : (run d p).WellFormed) :
      (run d (p ++ [label])).WellFormed ↔ ¬(run d p).Spoils d label := by
    rw [run_concat]
    exact wellFormed_iff d h label.property
  have hrun : Prefixes.Along (fun p => (run d p).WellFormed) presses ↔
      Prefixes.Each (fun p label => ¬(run d p).Spoils d label) presses :=
    Prefixes.along_iff new_wellFormed hstep presses
  refine ⟨fun h => hrun.mp h.1, fun h => ⟨hrun.mpr h, fun p hp => ?_⟩⟩
  have hwell := hrun.mpr h p ((List.prefix_append p [dot]).trans hp)
  rw [run_concat]
  exact appendDecimal_addsPoint hwell fun hbad => h p dot hp ⟨hbad.2, .inl ⟨rfl, hbad.1⟩⟩

/-- Numbers without rounding, read from digits with or without a point and printed without their
fraction. -/
def exact : Doubles where
  Double := ℚ
  zero := 0
  add := (· + ·)
  sub := (· - ·)
  mul := (· * ·)
  div := (· / ·)
  eq x y := x = y
  toInt x := if 0 ≤ x then ⌊x⌋ else ⌈x⌉
  ofInt i := i
  atof s :=
    let whole := s.takeWhile Char.isDigit
    let fraction := ((s.dropWhile Char.isDigit).drop 1).takeWhile Char.isDigit
    (Nat.ofDigits 10 ((whole ++ fraction).reverse.map fun ch => ch.toNat - 48) : ℚ) /
      10 ^ fraction.length
  format x := formatInt ⌊x⌋

/-- `1.+.` leaves the flag without a point. -/
theorem point_lost : ¬∀ (d : Doubles) (presses : List Label),
    (∀ p, p <+: presses → (run d p).WellFormed) ∧
      ∀ p, p ++ [dot] <+: presses → AddsPoint (run d p) (run d (p ++ [dot])) := by
  intro hall
  have hlost := ((hall exact [⟨['1'], by decide⟩, dot, ⟨['+'], by decide⟩, dot]).1 _
    (List.prefix_refl _)).decimal
  revert hlost
  decide

end Calculator

end Calc
