import Mathlib

/-!
# calculator: the keypad

`apps/calculator/calculator.cc` without its windows: the two buffers and the flags, what the
display shows, the handler of each button and the function that picks it by the button's label.

A C string is the list of its characters.  The machine's `double` and the C library's conversions
from and to text are a parameter, `Doubles`.
-/

set_option autoImplicit false

namespace Calc

/-- `double`, and what the source does with one. -/
structure Doubles where
  Double : Type
  zero : Double
  add : Double → Double → Double
  sub : Double → Double → Double
  mul : Double → Double → Double
  div : Double → Double → Double
  /-- `==`. -/
  eq : Double → Double → Bool
  /-- `(int)`. -/
  toInt : Double → Int
  /-- An `int` that is compared with a `double`. -/
  ofInt : Int → Double
  atof : List Char → Double
  /-- `%.6g`. -/
  format : Double → List Char

/-- The members of `Calculator`, with the text of its display. -/
structure Calculator where
  displayText : List Char
  currentInput : List Char
  previousInput : List Char
  currentOperator : Char
  shouldResetDisplay : Bool
  hasDecimal : Bool
  deriving DecidableEq, Repr

/-- `%d`. -/
def formatInt (i : Int) : List Char :=
  if i < 0 then '-' :: Nat.toDigits 10 i.natAbs else Nat.toDigits 10 i.natAbs

namespace Calculator

/-- The constructors of the calculator and of its display. -/
def new : Calculator where
  displayText := ['0']
  currentInput := []
  previousInput := []
  currentOperator := '\x00'
  shouldResetDisplay := false
  hasDecimal := false

variable (d : Doubles) (c : Calculator)

/-- `updateDisplay`, with the `setText` of the display. -/
def updateDisplay : Calculator :=
  { c with displayText := if c.currentInput = [] then ['0'] else c.currentInput.take 31 }

/-- `appendNumber`. -/
def appendNumber (num : List Char) : Calculator :=
  let c := if c.shouldResetDisplay then
    { c with currentInput := [], shouldResetDisplay := false, hasDecimal := false } else c
  if c.currentInput.length < 12 then
    { c with currentInput := c.currentInput ++ num }.updateDisplay
  else c

/-- `appendDecimal`. -/
def appendDecimal : Calculator :=
  let c := if c.shouldResetDisplay then
    { c with currentInput := ['0'], shouldResetDisplay := false } else c
  if !c.hasDecimal ∧ c.currentInput.length < 11 then
    let c := if c.currentInput = [] then { c with currentInput := ['0'] } else c
    { c with currentInput := c.currentInput ++ ['.'], hasDecimal := true }.updateDisplay
  else c

/-- The `switch` of `calculate`, behind the check of the divisor. -/
def result (prev curr : d.Double) : d.Double :=
  match c.currentOperator with
  | '+' => d.add prev curr
  | '-' => d.sub prev curr
  | '*' => d.mul prev curr
  | '/' => d.div prev curr
  | _ => d.zero

/-- The two `snprintf` of `calculate`. -/
def resultText (result : d.Double) : List Char :=
  (if d.eq result (d.ofInt (d.toInt result)) then formatInt (d.toInt result)
    else d.format result).take 31

/-- `calculate`. -/
def calculate : Calculator :=
  if c.previousInput = [] ∨ c.currentInput = [] then c
  else
    let prev := d.atof c.previousInput
    let curr := d.atof c.currentInput
    if c.currentOperator = '/' ∧ d.eq curr d.zero then
      { { c with currentInput := ['E', 'r', 'r', 'o', 'r'] }.updateDisplay with
        shouldResetDisplay := true }
    else
      let currentInput := resultText d (c.result d prev curr)
      { c with
        currentInput := currentInput
        previousInput := []
        currentOperator := '\x00'
        shouldResetDisplay := true
        hasDecimal := '.' ∈ currentInput }.updateDisplay

/-- `setOperator`. -/
def setOperator (op : Char) : Calculator :=
  if c.currentInput = [] then c
  else
    let c := if c.previousInput ≠ [] ∧ !c.shouldResetDisplay then c.calculate d else c
    { c with previousInput := c.currentInput, currentOperator := op, shouldResetDisplay := true }

/-- `clear`. -/
def clear : Calculator :=
  { c with
    currentInput := []
    previousInput := []
    currentOperator := '\x00'
    shouldResetDisplay := false
    hasDecimal := false }.updateDisplay

/-- `clearEntry`. -/
def clearEntry : Calculator := { c with currentInput := [], hasDecimal := false }.updateDisplay

/-- `backspace`. -/
def backspace : Calculator :=
  if c.currentInput.length > 0 ∧ !c.shouldResetDisplay then
    let c := if c.currentInput.getLast? = some '.' then { c with hasDecimal := false } else c
    { c with currentInput := c.currentInput.dropLast }.updateDisplay
  else c

/-- `onButtonClick`, for a mouse button that is released. -/
def onButtonClick (label : List Char) : Calculator :=
  if label = ['C'] then c.clear
  else if label = ['C', 'E'] then c.clearEntry
  else if label = ['<', '-'] then c.backspace
  else if label = ['/'] then c.setOperator d '/'
  else if label = ['*'] then c.setOperator d '*'
  else if label = ['-'] then c.setOperator d '-'
  else if label = ['+'] then c.setOperator d '+'
  else if label = ['='] then c.calculate d
  else if label = ['.'] then c.appendDecimal
  else c.appendNumber label

end Calculator

/-- The buttons of the constructor, row by row. -/
def buttons : List (List Char) :=
  [['C'], ['C', 'E'], ['<', '-'], ['/'],
   ['7'], ['8'], ['9'], ['*'],
   ['4'], ['5'], ['6'], ['-'],
   ['1'], ['2'], ['3'], ['+'],
   ['0'], ['.'], ['=']]

/-- The label of a button. -/
abbrev Label := { label : List Char // label ∈ buttons }

/-- The calculator after presses. -/
def run (d : Doubles) (presses : List Label) : Calculator :=
  presses.foldl (fun c label => c.onButtonClick d label.val) .new

end Calc
