import Ewokos.Evim.State

/-!
# evim: the colours of a line

The scanners of `bin/evim/vim_syntax.c`, for `.json`, `.rd`, `.conf`, `.js` and C files.  Each
walks along a formatted screen line `s` of `n` chars and paints its tokens; `lineColors` is the
choice of `syntax_write_slice` among them.

A position is an index into the line, and the loops run at most once for each char of it.
-/

set_option autoImplicit false

namespace Evim

open CString hiding strchr

/-- The color ids. -/
inductive Color where
  | default
  | string
  | key
  | number
  | literal
  | brace
  | comment
  | cmd
  | path
  | oper
  deriving DecidableEq, Repr

/-- `cur_syntax`. -/
inductive SyntaxMode where
  | none
  | json
  | rd
  | conf
  | js
  | c
  deriving DecidableEq, Repr

namespace Color

/-! ## Walking along a line -/

/-- `s[i]`. -/
def char (s : List UInt8) (i : Nat) : UInt8 := s.getD i 0

/-- `paint`: both ends are painted. -/
def paint (col : List Color) (first last : Int) (cl : Color) : List Color :=
  col.mapIdx fun i x => if first ≤ i ∧ i ≤ last then cl else x

/-- `while (j < n && p(s[j])) j++`. -/
def skipWhile (s : List UInt8) (p : UInt8 → Bool) (j : Nat) : Nat :=
  j + ((s.drop j).takeWhile p).length

/-- The loop to the closing quote `q`, over escaped chars. -/
def closeQuote (s : List UInt8) (q : UInt8) : Nat → Nat → Nat
  | 0, j => j
  | fuel + 1, j =>
    if j < s.length ∧ char s j ≠ q then
      let j := if char s j = chr '\\' ∧ j + 1 < s.length then j + 1 else j
      closeQuote s q fuel (j + 1)
    else j

/-- The loop to the end of a block comment. -/
def closeComment (s : List UInt8) : Nat → Nat → Nat
  | 0, j => j
  | fuel + 1, j =>
    if j + 1 < s.length ∧ ¬(char s j = chr '*' ∧ char s (j + 1) = chr '/') then
      closeComment s fuel (j + 1)
    else j

/-- The loop back over white space, down to `i`. -/
def trimBlanks (s : List UInt8) (i : Nat) : Nat → Int → Int
  | 0, e => e
  | fuel + 1, e => if e ≥ i ∧ isblank (char s e.toNat) then trimBlanks s i fuel (e - 1) else e

/-- Closing quote or end of line. -/
def tokenEnd (s : List UInt8) (j : Nat) : Nat := if j < s.length then j else s.length - 1

def isdigitAt (s : List UInt8) (i : Nat) : Bool := isdigit (char s i).toNat

/-- `isxdigit`. -/
def isxdigit (c : UInt8) : Bool :=
  isdigit c.toNat || (65 ≤ c && c ≤ 70) || (97 ≤ c && c ≤ 102)

/-- `word_in`. -/
def wordIn (s : List UInt8) (i j : Nat) (list : List String) : Bool :=
  list.any fun w => str w == (s.drop i).take (j - i)

/-! ## JSON -/

/-- `color_json`, from `i` on. -/
def json (s : List UInt8) : Nat → Nat → List Color → List Color
  | 0, _, col => col
  | fuel + 1, i, col =>
    if i < s.length then
      let c := char s i
      if c = chr '"' then
        let j := closeQuote s (chr '"') s.length (i + 1)
        let e := tokenEnd s j
        -- an object key is a string followed by ':'
        let k := skipWhile s isblank (if j < s.length then j + 1 else s.length)
        let cl := if k < s.length ∧ char s k = chr ':' then key else string
        json s fuel (e + 1) (paint col i e cl)
      else if (str "[]" ++ [123, 125]).contains c then json s fuel (i + 1) (paint col i i brace)
      else if isdigitAt s i ∨ (c = chr '-' ∧ i + 1 < s.length ∧ isdigitAt s (i + 1)) then
        let j := skipWhile s (fun c => isdigit c.toNat || (str ".eE+-").contains c) (i + 1)
        json s fuel j (paint col i (j - 1) number)
      else if isalpha c then
        let j := skipWhile s isalpha i
        json s fuel j
          (if wordIn s i j ["true", "false", "null"] then paint col i (j - 1) literal else col)
      else json s fuel (i + 1) col
    else col

/-! ## `.rd` init scripts -/

/-- The chars that end a plain token of a `.rd` line. -/
def endsToken (c : UInt8) : Bool := isblank c || (str "|><&").contains c

/-- The argument loop of `color_rd`. -/
def rdArgs (s : List UInt8) : Nat → Nat → List Color → List Color
  | 0, _, col => col
  | fuel + 1, i, col =>
    if i < s.length then
      let c := char s i
      if isblank c then rdArgs s fuel (i + 1) col
      else if (str "|><&").contains c then rdArgs s fuel (i + 1) (paint col i i oper)
      else if c = chr '"' then
        let e := tokenEnd s (skipWhile s (· != chr '"') (i + 1))
        rdArgs s fuel (e + 1) (paint col i e string)
      else
        let t := skipWhile s (!endsToken ·) i
        let cl :=
          if c = chr '/' ∨ (c = chr '.' ∧ i + 1 < s.length ∧ char s (i + 1) = chr '/') then path
          else if c = chr '$' then literal
          else if isdigitAt s i then number
          else default
        rdArgs s fuel t (paint col i (t - 1) cl)
    else col

/-- `color_rd`. -/
def rd (s : List UInt8) (col : List Color) : List Color :=
  if 0 < s.length ∧ char s 0 = chr '#' then paint col 0 (s.length - 1) comment
  else
    let (i, col) := if 0 < s.length ∧ char s 0 = chr '@' then (1, paint col 0 0 oper) else (0, col)
    let i := skipWhile s isblank i
    let j := skipWhile s (!isblank ·) i
    rdArgs s s.length j (paint col i (j - 1) cmd)

/-! ## `.conf` files -/

/-- The value of a `.conf` line, from `i` on, and the comment behind it. -/
def confValue (s : List UInt8) (i : Nat) (col : List Color) : List Color :=
  let v := skipWhile s (· != chr '#') i
  let ve := trimBlanks s i s.length (v - 1)
  let value := (s.drop i).take (ve - i + 1).toNat
  let cl := if value.all fun c => isdigit c.toNat || (str ".-+").contains c then number else string
  let col := if ve ≥ i then paint col i ve cl else col
  if v < s.length ∧ char s v = chr '#' then paint col v (s.length - 1) comment else col

/-- `color_conf`. -/
def conf (s : List UInt8) (col : List Color) : List Color :=
  let i := skipWhile s isblank 0
  if i < s.length ∧ char s i = chr '#' then paint col i (s.length - 1) comment
  else
    let j := skipWhile s (fun c => c != chr '=' && c != chr '#') i
    let ke := trimBlanks s i s.length (j - 1)
    let col := if ke ≥ i then paint col i ke key else col
    if j < s.length ∧ char s j = chr '=' then
      confValue s (skipWhile s isblank (j + 1)) (paint col j j oper)
    else if j < s.length ∧ char s j = chr '#' then paint col j (s.length - 1) comment
    else confValue s (skipWhile s isblank j) col

/-! ## JavaScript and C -/

def jsKeywords : List String := [
  "async", "await", "break", "case", "catch", "class", "const", "continue", "debugger", "default",
  "delete", "do", "else", "export", "extends", "finally", "for", "function", "get", "if", "import",
  "in", "instanceof", "let", "new", "of", "return", "set", "static", "super", "switch", "throw",
  "try", "typeof", "var", "void", "while", "with", "yield"]

def jsLiterals : List String := ["true", "false", "null", "undefined", "NaN", "Infinity", "this"]

def cKeywords : List String := [
  "auto", "break", "case", "const", "continue", "default", "do", "else", "enum", "extern", "for",
  "goto", "if", "inline", "register", "restrict", "return", "sizeof", "static", "struct", "switch",
  "typedef", "union", "volatile", "while"]

def cTypes : List String := [
  "bool", "char", "double", "float", "int", "long", "short", "signed", "unsigned", "void", "size_t",
  "ssize_t", "ptrdiff_t", "intptr_t", "uintptr_t", "int8_t", "int16_t", "int32_t", "int64_t",
  "uint8_t", "uint16_t", "uint32_t", "uint64_t", "intptr_t", "FILE"]

def cLiterals : List String := ["NULL", "true", "false", "EOF"]

/-- The end of the number at `i`: decimal, exponent and 0x hex forms. -/
def numberEnd (s : List UInt8) (i : Nat) : Nat :=
  let digits := skipWhile s fun c => isdigit c.toNat
  let j := i + 1
  if char s i = chr '0' ∧ j < s.length ∧ (char s j = chr 'x' ∨ char s j = chr 'X') then
    skipWhile s isxdigit (j + 1)
  else
    let j := skipWhile s (fun c => isdigit c.toNat || c == chr '.') j
    if j < s.length ∧ (char s j = chr 'e' ∨ char s j = chr 'E') then
      let j := j + 1
      digits (if j < s.length ∧ (char s j = chr '+' ∨ char s j = chr '-') then j + 1 else j)
    else j

/-- The end of the block comment at `i`: closing */ or end of line. -/
def commentEnd (s : List UInt8) (i : Nat) : Nat :=
  let j := closeComment s s.length (i + 2)
  if j + 1 < s.length then j + 1 else s.length - 1

/-- The color of a plain identifier that ends at `j`: a call name is followed by '('. -/
def callColor (s : List UInt8) (j : Nat) : Option Color :=
  let k := skipWhile s isblank j
  if k < s.length ∧ char s k = chr '(' then some cmd else Option.none

/-- `paint`, unless the token keeps its color. -/
def paintToken (col : List Color) (first last : Int) : Option Color → List Color
  | some cl => paint col first last cl
  | Option.none => col

def isBrace (c : UInt8) : Bool := (str "[]()" ++ [123, 125]).contains c

def isOper (c : UInt8) : Bool := strchr (str "+-*/%=<>!&|?:~^") c.toNat

/-- `color_js`, from `i` on. -/
def js (s : List UInt8) : Nat → Nat → List Color → List Color
  | 0, _, col => col
  | fuel + 1, i, col =>
    if i < s.length then
      let c := char s i
      if c = chr '/' ∧ i + 1 < s.length ∧ char s (i + 1) = chr '/' then
        paint col i (s.length - 1) comment
      else if c = chr '/' ∧ i + 1 < s.length ∧ char s (i + 1) = chr '*' then
        let e := commentEnd s i
        js s fuel (e + 1) (paint col i e comment)
      else if c = chr '"' ∨ c = chr '\'' ∨ c = 96 then
        let e := tokenEnd s (closeQuote s c s.length (i + 1))
        js s fuel (e + 1) (paint col i e string)
      else if isdigitAt s i then
        let j := numberEnd s i
        js s fuel j (paint col i (j - 1) number)
      else if isalpha c ∨ c = chr '_' ∨ c = chr '$' then
        let j := skipWhile s (fun c => isalnum c || c == chr '_' || c == chr '$') i
        js s fuel j (paintToken col i (j - 1)
          (if wordIn s i j jsLiterals then some literal
          else if wordIn s i j jsKeywords then some key
          else callColor s j))
      else if isBrace c then js s fuel (i + 1) (paint col i i brace)
      else if isOper c then js s fuel (i + 1) (paint col i i oper)
      else js s fuel (i + 1) col
    else col

/-- The token loop of `color_c`, from `i` on. -/
def cTokens (s : List UInt8) : Nat → Nat → List Color → List Color
  | 0, _, col => col
  | fuel + 1, i, col =>
    if i < s.length then
      let c := char s i
      if c = chr '/' ∧ i + 1 < s.length ∧ char s (i + 1) = chr '/' then
        paint col i (s.length - 1) comment
      else if c = chr '/' ∧ i + 1 < s.length ∧ char s (i + 1) = chr '*' then
        let e := commentEnd s i
        cTokens s fuel (e + 1) (paint col i e comment)
      else if c = chr '"' ∨ c = chr '\'' then
        let e := tokenEnd s (closeQuote s c s.length (i + 1))
        cTokens s fuel (e + 1) (paint col i e string)
      else if isdigitAt s i then
        let q := skipWhile s (fun c => strchr (str "uUlLfF") c.toNat) (numberEnd s i)
        cTokens s fuel q (paint col i (q - 1) number)
      else if isalpha c ∨ c = chr '_' then
        let q := skipWhile s (fun c => isalnum c || c == chr '_') i
        cTokens s fuel q (paintToken col i (q - 1)
          (if wordIn s i q cLiterals then some literal
          else if wordIn s i q cKeywords then some key
          else if wordIn s i q cTypes then some path
          else callColor s q))
      else if isBrace c then cTokens s fuel (i + 1) (paint col i i brace)
      else if isOper c then cTokens s fuel (i + 1) (paint col i i oper)
      else cTokens s fuel (i + 1) col
    else col

/-- `color_c`: a preprocessor directive, then the tokens. -/
def c (s : List UInt8) (col : List Color) : List Color :=
  let j := skipWhile s isblank 0
  if j < s.length ∧ char s j = chr '#' then
    let col := paint col j j cmd
    let k := skipWhile s isalpha (j + 1)
    let col := paint col (j + 1) (k - 1) cmd
    let q := skipWhile s isblank k
    if wordIn s (j + 1) k ["include"] ∧ q < s.length ∧ char s q = chr '<' then
      let e := tokenEnd s (skipWhile s (· != chr '>') (q + 1))
      cTokens s s.length (e + 1) (paint col q e string)
    else cTokens s s.length k col
  else cTokens s s.length 0 col

end Color

/-! ## The choice -/

/-- `is_filler_line`: a line past the end of the file. -/
def isFillerLine (s : List UInt8) : Bool :=
  match s with
  | [] => false
  | c :: rest => c == chr '~' && rest.all (· == 32)

/-- The colors of the line `s`, if it is colored. -/
def lineColors (m : SyntaxMode) (s : List UInt8) : Option (List Color) :=
  let col := List.replicate s.length Color.default
  if m = .none ∨ isFillerLine s then none
  else some <| match m with
    | .json => Color.json s s.length 0 col
    | .conf => Color.conf s col
    | .js => Color.js s s.length 0 col
    | .c => Color.c s col
    | _ => Color.rd s col

/-- `sgr_seq`. -/
def sgrSeq (cl : Color) : List UInt8 :=
  27 :: str (match cl with
    | .default => "[m"
    | .string => "[32m"
    | .key => "[1;36m"
    | .number => "[35m"
    | .literal => "[33m"
    | .brace => "[1;37m"
    | .comment => "[1;30m"
    | .cmd => "[1;32m"
    | .path => "[36m"
    | .oper => "[31m")

/-! ## A blank row -/

namespace Color

theorem paint_empty (col : List Color) {first last : Int} (h : last < first) (cl : Color) :
    paint col first last cl = col := by
  unfold paint
  apply List.ext_getElem
  · simp
  · intro i h₁ h₂
    simp only [List.getElem_mapIdx]
    rw [if_neg (by omega)]

variable (n : Nat)

theorem char_blank {i : Nat} (h : i < n) : char (List.replicate n 32) i = 32 := by
  simp [char, h]

theorem skipWhile_blanks {p : UInt8 → Bool} (hp : p 32 = true) {i : Nat} (h : i ≤ n) :
    skipWhile (List.replicate n 32) p i = n := by
  unfold skipWhile
  rw [List.drop_replicate, List.takeWhile_replicate, hp]
  simp
  omega

theorem skipWhile_stays {s : List UInt8} {p : UInt8 → Bool} {i : Nat} (h : s.length ≤ i) :
    skipWhile s p i = i := by
  unfold skipWhile
  rw [List.drop_eq_nil_of_le h]
  rfl

theorem isdigitAt_blank {i : Nat} (h : i < n) : isdigitAt (List.replicate n 32) i = false := by
  rw [isdigitAt, char_blank n h]
  rfl

theorem json_blank : ∀ (fuel i : Nat) (col : List Color),
    json (List.replicate n 32) fuel i col = col
  | 0, _, _ => rfl
  | fuel + 1, i, col => by
    unfold json
    split
    · rename_i h
      rw [List.length_replicate] at h
      simp +decide [char_blank n h, isdigitAt_blank n h, json_blank fuel (i + 1) col]
    · rfl

theorem js_blank : ∀ (fuel i : Nat) (col : List Color),
    js (List.replicate n 32) fuel i col = col
  | 0, _, _ => rfl
  | fuel + 1, i, col => by
    unfold js
    split
    · rename_i h
      rw [List.length_replicate] at h
      simp +decide [char_blank n h, isdigitAt_blank n h, js_blank fuel (i + 1) col]
    · rfl

theorem cTokens_blank : ∀ (fuel i : Nat) (col : List Color),
    cTokens (List.replicate n 32) fuel i col = col
  | 0, _, _ => rfl
  | fuel + 1, i, col => by
    unfold cTokens
    split
    · rename_i h
      rw [List.length_replicate] at h
      simp +decide [char_blank n h, isdigitAt_blank n h, cTokens_blank fuel (i + 1) col]
    · rfl

theorem rd_blank (col : List Color) : rd (List.replicate n 32) col = col := by
  have hc : ∀ c : UInt8, c ≠ 32 → ¬(0 < (List.replicate n 32 : List UInt8).length ∧
      char (List.replicate n 32) 0 = c) := by
    intro c hc h
    rw [List.length_replicate] at h
    rw [char_blank n h.1] at h
    exact hc h.2.symm
  have hend : ∀ fuel col, rdArgs (List.replicate n 32) fuel n col = col := by
    intro fuel col
    cases fuel with
    | zero => rfl
    | succ fuel => simp [rdArgs]
  unfold rd
  dsimp only
  rw [if_neg (hc (chr '#') (by decide)), if_neg (hc (chr '@') (by decide))]
  dsimp only
  rw [skipWhile_blanks n (by decide) (Nat.zero_le n), skipWhile_stays (by simp), hend,
    paint_empty _ (by omega)]

theorem trimBlanks_stays (s : List UInt8) (i : Nat) (fuel : Nat) :
    trimBlanks s i fuel ((i : Int) - 1) = i - 1 := by
  cases fuel with
  | zero => rfl
  | succ fuel => simp [trimBlanks]

theorem conf_blank (col : List Color) : conf (List.replicate n 32) col = col := by
  have hend : ¬ n < (List.replicate n (32 : UInt8)).length := by simp
  have htrim : ¬((n : Int) - 1 ≥ n) := by omega
  unfold conf confValue
  dsimp only
  simp only [skipWhile_blanks n (p := isblank) (by decide) (Nat.zero_le n),
    skipWhile_stays (s := List.replicate n 32) (i := n) (by simp), trimBlanks_stays, hend, htrim,
    if_false, false_and]

theorem c_blank (col : List Color) : c (List.replicate n 32) col = col := by
  unfold c
  dsimp only
  rw [skipWhile_blanks n (by decide) (Nat.zero_le n), if_neg (by simp), cTokens_blank]

end Color

/-- A blank row has the default color. -/
theorem lineColors_blank (m : SyntaxMode) (n : Nat) :
    lineColors m (List.replicate n 32) = none ∨
      lineColors m (List.replicate n 32) = some (List.replicate n .default) := by
  by_cases h : m = .none ∨ isFillerLine (List.replicate n 32)
  · exact .inl (if_pos h)
  · right
    unfold lineColors
    dsimp only
    rw [if_neg h, List.length_replicate]
    congr 1
    cases m with
    | none => exact absurd (.inl rfl) h
    | json => exact Color.json_blank n n 0 _
    | rd => exact Color.rd_blank n _
    | conf => exact Color.conf_blank n _
    | js => exact Color.js_blank n n 0 _
    | c => exact Color.c_blank n _

end Evim
