import Ewokos.Lib.Checked
import Ewokos.Evim.Tokens

/-!
# evim: the scanners stay inside the line

The scanners of `bin/evim/vim_syntax.c` with every access to `s[0..n-1]` and `col[0..n-1]` checked,
and every loop for a number of rounds.  No position is beyond `n + 1`, and `n` is the width of the
screen, so an `int` holds them all.

* `colorJson`, `colorRd`, `colorConf`, `colorJs`, `colorC` — the functions of the source.
* `colorJson_eq` and so on — none of them stops at a fault when a loop may go round more than `n`
  times, and they paint the same as the scanners without checks.
* `scanners_inBounds` — all of them stay inside the line.
-/

set_option autoImplicit false

namespace Evim.VimSyntax

open Checked
open Color (tokenEnd endsToken isxdigit isBrace isOper Lexis)
open CString hiding strchr

/-! ## Walking along a line -/

section Walks

variable (fuel : Nat) (s : List UInt8)

/-- `j < n && p(s[j])`. -/
def test (p : UInt8 → Bool) (j : Nat) : Option Bool :=
  both (decide (j < s.length)) ((read s j).map p)

/-- `while (j < n && p(s[j])) j++`. -/
def scan (p : UInt8 → Bool) (j : Nat) : Option Nat :=
  loop (test s p) (fun j => some (.yield (j + 1))) fuel j

/-- The loop to the closing quote `q`, over escaped chars. -/
def closeQuote (q : UInt8) (j : Nat) : Option Nat :=
  loop (test s (· != q)) (fun j => do
    let c ← read s j
    let j := if c = chr '\\' ∧ j + 1 < s.length then j + 1 else j
    return .yield (j + 1)) fuel j

/-- The loop to the end of a block comment. -/
def closeComment (j : Nat) : Option Nat :=
  loop (fun j => both (decide (j + 1 < s.length)) do
      let c ← read s j
      let closed ← both (c == chr '*') ((read s (j + 1 : Nat)).map (· == chr '/'))
      return !closed)
    (fun j => some (.yield (j + 1))) fuel j

/-- The loop back over white space, down to `i`. -/
def trimBlanks (i : Nat) (e : Int) : Option Int :=
  loop (fun e => both (decide (e ≥ i)) ((read s e).map isblank))
    (fun e => some (.yield (e - 1))) fuel e

/-- `paint`. -/
def paint (col : List Color) (first last : Int) (cl : Color) : Option (List Color) := do
  let (_, col) ← loop (fun (i, _) => some (decide (i ≤ last)))
    (fun (i, col) => do return .yield (i + 1, ← write col i cl)) fuel (first, col)
  return col

/-- `strncmp(s + i, w, strlen(w)) == 0`. -/
def strncmp (i : Nat) : List UInt8 → Option Bool
  | [] => some true
  | c :: w => do
    let d ← read s i
    both (d == c) (strncmp (i + 1) w)

/-- `word_in`. -/
def wordIn (i j : Nat) : List String → Option Bool
  | [] => some false
  | w :: list => do
    if ← both (decide ((str w).length = j - i)) (strncmp s i (str w)) then return true
    else wordIn i j list

/-- The end of the number at `i` that begins with `c`. -/
def numberEnd (c : UInt8) (i : Nat) : Option Nat := do
  let j := i + 1
  if ← both (c == chr '0') (test s (fun c => c == chr 'x' || c == chr 'X') j) then
    scan fuel s isxdigit (j + 1)
  else
    let j ← scan fuel s (fun c => isdigit c.toNat || c == chr '.') j
    if ← test s (fun c => c == chr 'e' || c == chr 'E') j then
      let j := j + 1
      let sign ← test s (fun c => c == chr '+' || c == chr '-') j
      scan fuel s (fun c => isdigit c.toNat) (if sign then j + 1 else j)
    else return j

/-- The end of the block comment at `i`: closing */ or end of line. -/
def commentEnd (i : Nat) : Option Nat := do
  let j ← closeComment fuel s (i + 2)
  return if j + 1 < s.length then j + 1 else s.length - 1

/-- The color of the identifier `s[i..j-1]`: of the list it is in, or that of a call. -/
def wordColor (i j : Nat) : List (List String × Color) → Option (Option Color)
  | [] => do
    let k ← scan fuel s isblank j
    let call ← test s (· == chr '(') k
    return if call then some .cmd else none
  | (list, cl) :: words => do
    if ← wordIn s i j list then return some cl else wordColor i j words

end Walks

/-! ## The scanners -/

/-- `i`, and the colors so far. -/
abbrev Painted := Nat × List Color

section Scanners

variable (fuel : Nat) (s : List UInt8)

/-- `while (i < n)`. -/
def scanner (round : Painted → Option (ForInStep Painted)) (i : Nat) (col : List Color) :
    Option (List Color) := do
  let (_, col) ← loop (fun (i, _) => some (decide (i < s.length))) round fuel (i, col)
  return col

def jsonRound : Painted → Option (ForInStep Painted)
  | (i, col) => do
    let c ← read s i
    if c = chr '"' then
      let j ← closeQuote fuel s (chr '"') (i + 1)
      let e := tokenEnd s j
      -- an object key is a string followed by ':'
      let k ← scan fuel s isblank (if j < s.length then j + 1 else s.length)
      let colon ← test s (· == chr ':') k
      return .yield (e + 1, ← paint fuel col i e (if colon then .key else .string))
    else if (str "[]" ++ [123, 125]).contains c then
      return .yield (i + 1, ← write col i .brace)
    else
      let negative ← both (c == chr '-') (test s (fun c => isdigit c.toNat) (i + 1))
      if isdigit c.toNat || negative then
        let j ← scan fuel s (fun c => isdigit c.toNat || (str ".eE+-").contains c) (i + 1)
        return .yield (j, ← paint fuel col i (j - 1) .number)
      else if isalpha c then
        let j ← scan fuel s isalpha i
        if ← wordIn s i j ["true", "false", "null"] then
          return .yield (j, ← paint fuel col i (j - 1) .literal)
        else return .yield (j, col)
      else return .yield (i + 1, col)

/-- `color_json`. -/
def colorJson (col : List Color) : Option (List Color) := scanner fuel s (jsonRound fuel s) 0 col

def rdRound : Painted → Option (ForInStep Painted)
  | (i, col) => do
    let c ← read s i
    if isblank c then return .yield (i + 1, col)
    else if (str "|><&").contains c then return .yield (i + 1, ← write col i .oper)
    else if c = chr '"' then
      let e := tokenEnd s (← scan fuel s (· != chr '"') (i + 1))
      return .yield (e + 1, ← paint fuel col i e .string)
    else
      let t ← scan fuel s (!endsToken ·) i
      let relative ← both (c == chr '.') (test s (· == chr '/') (i + 1))
      let cl :=
        if c = chr '/' ∨ relative then .path
        else if c = chr '$' then .literal
        else if isdigit c.toNat then .number
        else .default
      return .yield (t, ← paint fuel col i (t - 1) cl)

/-- `color_rd`. -/
def colorRd (col : List Color) : Option (List Color) := do
  if ← test s (· == chr '#') 0 then paint fuel col 0 (s.length - 1) .comment
  else
    let (i, col) ←
      if ← test s (· == chr '@') 0 then (write col 0 .oper).map ((1, ·)) else some (0, col)
    let i ← scan fuel s isblank i
    let j ← scan fuel s (!isblank ·) i
    scanner fuel s (rdRound fuel s) j (← paint fuel col i (j - 1) .cmd)

/-- The color of the value `s[i..ve]`: `for (k = i; k <= ve; k++)`. -/
def valueColor (i : Nat) (ve : Int) : Option Color := do
  let (_, cl) ← loop (fun (k, _) => some (decide (k ≤ ve)))
    (fun (k, cl) => do
      let c ← read s k
      if isdigit c.toNat || (str ".-+").contains c then return .yield (k + 1, cl)
      else return .done (k, .string)) fuel ((i : Int), .number)
  return cl

/-- The value of a `.conf` line, from `i` on, and the comment behind it. -/
def confValue (i : Nat) (col : List Color) : Option (List Color) := do
  let i ← scan fuel s isblank i
  let v ← scan fuel s (· != chr '#') i
  let ve ← trimBlanks fuel s i (v - 1)
  let col ← if ve ≥ i then paint fuel col i ve (← valueColor fuel s i ve) else some col
  if ← test s (· == chr '#') v then paint fuel col v (s.length - 1) .comment else return col

/-- `color_conf`. -/
def colorConf (col : List Color) : Option (List Color) := do
  let i ← scan fuel s isblank 0
  if ← test s (· == chr '#') i then paint fuel col i (s.length - 1) .comment
  else
    let j ← scan fuel s (fun c => c != chr '=' && c != chr '#') i
    let ke ← trimBlanks fuel s i (j - 1)
    let col ← if ke ≥ i then paint fuel col i ke .key else some col
    if ← test s (· == chr '=') j then confValue fuel s (j + 1) (← write col j .oper)
    else if ← test s (· == chr '#') j then paint fuel col j (s.length - 1) .comment
    else confValue fuel s j col

/-- A round of `color_js` and of the token loop of `color_c`.  In JavaScript no char is a suffix. -/
def codeRound (L : Lexis) (words : List (List String × Color)) :
    Painted → Option (ForInStep Painted)
  | (i, col) => do
    let c ← read s i
    if ← both (c == chr '/') (test s (· == chr '/') (i + 1)) then
      return .done (i, ← paint fuel col i (s.length - 1) .comment)
    else if ← both (c == chr '/') (test s (· == chr '*') (i + 1)) then
      let e ← commentEnd fuel s i
      return .yield (e + 1, ← paint fuel col i e .comment)
    else if L.quote c then
      let e := tokenEnd s (← closeQuote fuel s c (i + 1))
      return .yield (e + 1, ← paint fuel col i e .string)
    else if isdigit c.toNat then
      let j ← scan fuel s L.suffix (← numberEnd fuel s c i)
      return .yield (j, ← paint fuel col i (j - 1) .number)
    else if L.first c then
      let j ← scan fuel s L.next i
      match ← wordColor fuel s i j words with
      | some cl => return .yield (j, ← paint fuel col i (j - 1) cl)
      | none => return .yield (j, col)
    else if isBrace c then return .yield (i + 1, ← write col i .brace)
    else if isOper c then return .yield (i + 1, ← write col i .oper)
    else return .yield (i + 1, col)

def jsWords : List (List String × Color) := [(Color.jsLiterals, .literal), (Color.jsKeywords, .key)]

def cWords : List (List String × Color) :=
  [(Color.cLiterals, .literal), (Color.cKeywords, .key), (Color.cTypes, .path)]

/-- `color_js`. -/
def colorJs (col : List Color) : Option (List Color) :=
  scanner fuel s (codeRound fuel s Color.jsLexis jsWords) 0 col

/-- `#include <...>`, behind the directive `s[j..k-1]`: where the tokens begin, or 0. -/
def includeEnd (j k : Nat) (col : List Color) : Option Painted := do
  if ← wordIn s j k ["include"] then
    let q ← scan fuel s isblank k
    if ← test s (· == chr '<') q then
      let e := tokenEnd s (← scan fuel s (· != chr '>') (q + 1))
      return (e + 1, ← paint fuel col q e .string)
    else return (0, col)
  else return (0, col)

/-- `color_c`. -/
def colorC (col : List Color) : Option (List Color) := do
  let j ← scan fuel s isblank 0
  if ← test s (· == chr '#') j then
    let col ← write col j .cmd
    let j := j + 1
    let k ← scan fuel s isalpha j
    let (i, col) ← includeEnd fuel s j k (← paint fuel col j (k - 1) .cmd)
    scanner fuel s (codeRound fuel s Color.cLexis cWords) (if i = 0 then k else i) col
  else scanner fuel s (codeRound fuel s Color.cLexis cWords) 0 col

end Scanners

/-! ## The walks have no fault -/

variable {fuel : Nat} {s : List UInt8}

theorem read_char {i : Nat} (h : i < s.length) : read s i = some (Color.char s i) := read_eq h 0

theorem test_eq (p : UInt8 → Bool) (j : Nat) :
    test s p j = some (decide (j < s.length) && p (Color.char s j)) := by
  unfold test
  by_cases h : j < s.length
  · rw [read_char h, Option.map_some, both_some]
  · rw [decide_eq_false h]
    rfl

/-- `j < n && s[j] == d`. -/
theorem charTest_iff (j : Nat) (d : UInt8) :
    (decide (j < s.length) && Color.char s j == d) = true ↔ j < s.length ∧ Color.char s j = d := by
  simp only [Bool.and_eq_true, beq_iff_eq, decide_eq_true_eq]

/-- `s[i] == c && i + 1 < n && s[i + 1] == d`. -/
theorem pairTest_iff (i : Nat) (c d : UInt8) : (Color.char s i == c &&
    (decide (i + 1 < s.length) && Color.char s (i + 1) == d)) = true ↔
      Color.char s i = c ∧ i + 1 < s.length ∧ Color.char s (i + 1) = d := by
  rw [Bool.and_eq_true, beq_iff_eq, charTest_iff]

theorem skipWhile_stop {p : UInt8 → Bool} {j : Nat}
    (h : ¬(j < s.length ∧ p (Color.char s j) = true)) : Color.skipWhile s p j = j := by
  unfold Color.skipWhile
  by_cases hj : j < s.length
  · rw [Color.drop_char hj, List.takeWhile_cons_of_neg fun hp => h ⟨hj, hp⟩]
    rfl
  · rw [List.drop_eq_nil_of_le (by omega)]
    rfl

variable (hf : s.length < fuel)

include hf

theorem scan_eq (p : UInt8 → Bool) (j : Nat) : scan fuel s p j = some (Color.skipWhile s p j) := by
  refine loop_eq (fun _ => Color.skipWhile s p) (fun _ => True) (s.length - ·) (fun j _ => ?_)
    trivial (Nat.le_refl _) (by omega)
  by_cases h : j < s.length ∧ p (Color.char s j) = true
  · right
    refine ⟨j + 1, ?_, rfl, trivial, by omega, fun _ => Color.skipWhile_succ h.1 h.2⟩
    rw [test_eq, decide_eq_true h.1, h.2, Bool.and_self]
  · left
    refine ⟨?_, fun _ => skipWhile_stop h⟩
    rw [test_eq]
    simpa using h

theorem closeQuote_eq (q : UInt8) (j : Nat) :
    closeQuote fuel s q j = some (Color.closeQuote s q s.length j) := by
  refine loop_eq (Color.closeQuote s q) (fun _ => True) (s.length - ·) (fun j _ => ?_) trivial
    (Nat.sub_le _ _) (by omega)
  by_cases h : j < s.length ∧ Color.char s j ≠ q
  · right
    refine ⟨(if Color.char s j = chr '\\' ∧ j + 1 < s.length then j + 1 else j) + 1, ?_, ?_,
      trivial, ?_, fun k => ?_⟩
    · rw [test_eq, decide_eq_true h.1, bne_iff_ne.mpr h.2, Bool.and_self]
    · rw [read_char h.1]
      rfl
    · split
      · omega
      · omega
    · rw [Color.closeQuote, if_pos h]
  · left
    refine ⟨?_, fun k => ?_⟩
    · rw [test_eq]
      simpa using h
    · cases k with
      | zero => rfl
      | succ k => rw [Color.closeQuote, if_neg h]

theorem closeComment_eq (j : Nat) :
    closeComment fuel s j = some (Color.closeComment s s.length j) := by
  refine loop_eq (Color.closeComment s) (fun _ => True) (s.length - ·) (fun j _ => ?_) trivial
    (Nat.sub_le _ _) (by omega)
  by_cases hj : j + 1 < s.length
  · have htest : (do
        let c ← read s j
        let closed ← both (c == chr '*') ((read s (j + 1 : Nat)).map (· == chr '/'))
        return !closed) =
          some (!(Color.char s j == chr '*' && Color.char s (j + 1) == chr '/')) := by
      rw [read_char (show j < s.length by omega), read_char hj, Option.bind_eq_bind,
        Option.bind_some, Option.map_some, both_some]
      rfl
    rw [htest, both_some, decide_eq_true hj, Bool.true_and]
    by_cases hc : Color.char s j = chr '*' ∧ Color.char s (j + 1) = chr '/'
    · left
      refine ⟨by simp [hc], fun k => ?_⟩
      cases k with
      | zero => rfl
      | succ k => rw [Color.closeComment, if_neg fun h => h.2 hc]
    · right
      refine ⟨j + 1, by simpa [imp_iff_not_or] using hc, rfl, trivial, by omega, fun k => ?_⟩
      rw [Color.closeComment, if_pos ⟨hj, hc⟩]
  · left
    refine ⟨by rw [decide_eq_false hj]; rfl, fun k => ?_⟩
    cases k with
    | zero => rfl
    | succ k => rw [Color.closeComment, if_neg fun h => hj h.1]

theorem trimBlanks_eq (i : Nat) {e : Int} (he : e < s.length) :
    trimBlanks fuel s i e = some (Color.trimBlanks s i s.length e) := by
  refine loop_eq (Color.trimBlanks s i) (· < s.length) (fun e => (e + 1 - i).toNat) (fun e he => ?_)
    he (by omega) (by omega)
  by_cases hi : e ≥ i
  · have hread : read s e = some (Color.char s e.toNat) := by
      rw [← read_char (show e.toNat < s.length by omega), Int.toNat_of_nonneg (by omega)]
    rw [hread, Option.map_some, both_some, decide_eq_true hi, Bool.true_and]
    by_cases hb : isblank (Color.char s e.toNat) = true
    · right
      refine ⟨e - 1, by rw [hb], rfl, by omega, by omega, fun k => ?_⟩
      rw [Color.trimBlanks, if_pos ⟨hi, hb⟩]
    · left
      refine ⟨by rw [Bool.not_eq_true] at hb; rw [hb], fun k => ?_⟩
      cases k with
      | zero => rfl
      | succ k => rw [Color.trimBlanks, if_neg fun h => hb h.2]
  · left
    refine ⟨by rw [decide_eq_false hi]; rfl, fun k => ?_⟩
    cases k with
    | zero => rfl
    | succ k => rw [Color.trimBlanks, if_neg fun h => hi h.1]

theorem numberEnd_eq {i : Nat} :
    numberEnd fuel s (Color.char s i) i = some (Color.numberEnd s i) := by
  unfold numberEnd Color.numberEnd
  simp only [test_eq, both_some, scan_eq hf, Option.bind_eq_bind, Option.bind_some, Option.pure_def,
    Bool.and_eq_true, Bool.or_eq_true, beq_iff_eq, decide_eq_true_eq]
  split
  · rfl
  split
  · rfl
  · rfl

theorem commentEnd_eq (i : Nat) : commentEnd fuel s i = some (Color.commentEnd s i) := by
  rw [commentEnd, closeComment_eq hf]
  rfl

omit hf

theorem strncmp_eq : ∀ (w : List UInt8) {i : Nat}, i + w.length ≤ s.length →
    strncmp s i w = some (w == (s.drop i).take w.length)
  | [], i, _ => rfl
  | c :: w, i, h => by
    rw [List.length_cons] at h
    have hi : i < s.length := by omega
    rw [strncmp, read_char hi, Option.bind_eq_bind, Option.bind_some, strncmp_eq w (by omega),
      both_some, Color.drop_char hi, List.length_cons, List.take_succ_cons, List.cons_beq_cons,
      Bool.beq_comm]

theorem wordIn_eq {i j : Nat} (hi : i ≤ j) (hj : j ≤ s.length) : ∀ (list : List String),
    wordIn s i j list = some (Color.wordIn s i j list)
  | [] => rfl
  | w :: list => by
    have hword : both (decide ((str w).length = j - i)) (strncmp s i (str w)) =
        some (str w == (s.drop i).take (j - i)) := by
      by_cases hw : (str w).length = j - i
      · rw [strncmp_eq _ (by omega), both_some, hw, decide_eq_true rfl, Bool.true_and]
      · rw [decide_eq_false hw]
        symm
        refine congrArg some (beq_eq_false_iff_ne.mpr fun h => hw ?_)
        rw [h, List.length_take, List.length_drop]
        omega
    rw [wordIn, hword, wordIn_eq hi hj list, Option.bind_eq_bind, Option.bind_some]
    unfold Color.wordIn
    rw [List.any_cons]
    cases str w == (s.drop i).take (j - i)
    · rfl
    · rfl

theorem paint_round (col : List Color) {i : Nat} {last : Int} (h : i ≤ last) (cl : Color) :
    Color.paint (col.set i cl) (i + 1) last cl = Color.paint col i last cl := by
  unfold Color.paint
  apply List.ext_getElem
  · simp
  intro k h₁ h₂
  simp only [List.getElem_mapIdx, List.getElem_set]
  by_cases hk : i = k
  · subst hk
    rw [if_neg (by omega), if_pos rfl, if_pos ⟨Int.le_refl _, h⟩]
  · rw [if_neg hk]
    exact if_congr (by omega) rfl rfl

theorem paint_eq {col : List Color} (hcol : col.length < fuel) (first : Nat) {last : Int}
    (hlast : last < col.length) (cl : Color) :
    paint fuel col first last cl = some (Color.paint col first last cl) := by
  let inv (p : Int × List Color) : Prop := 0 ≤ p.1 ∧ p.2.length = col.length ∧
    Color.paint p.2 p.1 last cl = Color.paint col first last cl
  have hround (p : Int × List Color) (hp : inv p) : Round (fun (i, _) => some (decide (i ≤ last)))
      (fun (i, col) => do return .yield (i + 1, ← write col i cl)) inv
      (·.2 = Color.paint col first last cl) (fun p => (last + 1 - p.1).toNat) p := by
    obtain ⟨i, l⟩ := p
    obtain ⟨hi, hl, hpaint⟩ := hp
    dsimp only at hi hl hpaint
    lift i to Nat using hi
    by_cases h : i ≤ last
    · have hi : i < l.length := by omega
      refine .next (i + 1, l.set i cl) (congrArg some (decide_eq_true h)) ?_ ⟨by omega, ?_, ?_⟩ ?_
      · dsimp only
        rw [write_eq hi]
        rfl
      · rw [List.length_set, hl]
      · rw [paint_round l h, hpaint]
      · dsimp only
        omega
    · refine .stop (congrArg some (decide_eq_false h)) ?_
      rw [← hpaint, Color.paint_empty _ (by omega)]
  obtain ⟨y, hy, hpost⟩ := loop_spec inv _ _ hround (x := ((first : Int), col))
    ⟨Int.natCast_nonneg first, rfl, rfl⟩ (show (last + 1 - first).toNat < fuel by omega)
  unfold paint
  rw [hy, Option.bind_eq_bind, Option.bind_some, ← hpost]
  rfl

/-- A token in front of `j`. -/
theorem paint_token (hf : s.length < fuel) {col : List Color} (hcol : col.length = s.length)
    (i : Nat) {j : Nat} (hj : j ≤ s.length) (cl : Color) :
    paint fuel col i ((j : Int) - 1) cl = some (Color.paint col i ((j : Int) - 1) cl) :=
  paint_eq (hcol ▸ hf) i (by omega) cl

theorem write_eq_paint {col : List Color} {i : Nat} (h : i < col.length) (cl : Color) :
    write col i cl = some (Color.paint col i i cl) := by
  rw [write_eq h, ← paint_round col (Int.le_refl _) cl, Color.paint_empty _ (by omega)]

theorem length_paint (col : List Color) (first last : Int) (cl : Color) :
    (Color.paint col first last cl).length = col.length := List.length_mapIdx

theorem length_paintToken (col : List Color) (first last : Int) (mark : Option Color) :
    (Color.paintToken col first last mark).length = col.length := by
  cases mark with
  | none => rfl
  | some cl => exact length_paint col first last cl

/-! ## The rounds of a scanner -/

/-- A round at `i` paints the token `t`: its color, and the position behind it.  The round that
takes the rest of the line may be the last one. -/
def Takes (s : List UInt8) (round : Painted → Option (ForInStep Painted)) (i : Nat)
    (col : List Color) (t : Nat × Option Color) : Prop :=
  round (i, col) = some (.yield (t.1, Color.paintToken col i ((t.1 : Int) - 1) t.2)) ∨
    t.1 = s.length ∧ ∃ j, round (i, col) =
      some (.done (j, Color.paintToken col i ((t.1 : Int) - 1) t.2))

theorem scanner_eq {round : Painted → Option (ForInStep Painted)} {token : Nat → Nat × Option Color}
    {tokens : Nat → Nat → List Color → List Color}
    (hbounds : ∀ {i : Nat}, i < s.length → i < (token i).1 ∧ (token i).1 ≤ s.length)
    (htakes : ∀ {i : Nat} {col : List Color}, i < s.length → col.length = s.length →
      Takes s round i col (token i))
    (hstop : ∀ fuel col, tokens fuel s.length col = col)
    (htokens : ∀ {i : Nat}, i < s.length → ∀ fuel col, tokens (fuel + 1) i col =
      tokens fuel (token i).1 (Color.paintToken col i (((token i).1 : Int) - 1) (token i).2))
    (hf : s.length < fuel) {i : Nat} {col : List Color} (hi : i ≤ s.length)
    (hcol : col.length = s.length) :
    scanner fuel s round i col = some (tokens s.length i col) ∧
      (tokens s.length i col).length = s.length := by
  let inv (p : Painted) : Prop := p.1 ≤ s.length ∧ p.2.length = s.length ∧
    ∃ l, s.length ≤ p.1 + l ∧ tokens l p.1 p.2 = tokens s.length i col
  have hround (p : Painted) (hp : inv p) : Round (fun (i, _) => some (decide (i < s.length))) round
      inv (fun p => p.2.length = s.length ∧ p.2 = tokens s.length i col) (s.length - ·.1) p := by
    obtain ⟨j, c⟩ := p
    obtain ⟨hj, hc, l, hl, heq⟩ := hp
    dsimp only at hj hc hl heq
    by_cases h : j < s.length
    · obtain ⟨l, rfl⟩ : ∃ m, l = m + 1 := ⟨l - 1, by omega⟩
      have htest : (some (decide (j < s.length)) : Option Bool) = some true :=
        congrArg some (decide_eq_true h)
      obtain ⟨hlt, hle⟩ := hbounds h
      rw [htokens h] at heq
      rcases htakes h hc with hnext | ⟨hend, e, hdone⟩
      · refine .next _ htest hnext ⟨hle, by rw [length_paintToken, hc], l, ?_, heq⟩ ?_
        · dsimp only
          omega
        · dsimp only
          omega
      · exact .leave _ htest hdone ⟨by rw [length_paintToken, hc], by rw [← heq, hend, hstop]⟩
    · obtain rfl : j = s.length := by omega
      exact .stop (congrArg some (decide_eq_false h)) ⟨hc, by rw [← heq, hstop]⟩
  obtain ⟨y, hy, hlen, hpost⟩ := loop_spec inv _ _ hround (x := (i, col))
    ⟨hi, hcol, s.length, Nat.le_add_left _ _, rfl⟩ (show s.length - i < fuel by omega)
  unfold scanner
  rw [hy, Option.bind_eq_bind, Option.bind_some, ← hpost]
  exact ⟨rfl, hlen⟩

theorem takes_paint {round : Painted → Option (ForInStep Painted)} {i j : Nat} {col : List Color}
    {cl : Color} (h : round (i, col) = some (.yield (j + 1, Color.paint col i j cl))) :
    Takes s round i col (j + 1, some cl) := by
  left
  rw [h, Color.paintToken_last]

theorem tokenEnd_bounds {i j : Nat} (hi : i < s.length) (hj : i < j) :
    i < tokenEnd s j + 1 ∧ tokenEnd s j + 1 ≤ s.length := by
  unfold tokenEnd
  split
  · omega
  · omega

/-! ## JSON -/

/-- The token of `color_json` at `i`. -/
def jsonTaken (s : List UInt8) (i : Nat) : Nat × Option Color :=
  let c := Color.char s i
  if c = chr '"' then
    let j := Color.closeQuote s (chr '"') s.length (i + 1)
    let k := Color.skipWhile s isblank (if j < s.length then j + 1 else s.length)
    (tokenEnd s j + 1, some (if k < s.length ∧ Color.char s k = chr ':' then .key else .string))
  else if (str "[]" ++ [123, 125]).contains c then (i + 1, some .brace)
  else if Color.isdigitAt s i ∨ (c = chr '-' ∧ i + 1 < s.length ∧ Color.isdigitAt s (i + 1)) then
    (Color.skipWhile s (fun c => isdigit c.toNat || (str ".eE+-").contains c) (i + 1), some .number)
  else if isalpha c then
    let j := Color.skipWhile s isalpha i
    (j, if Color.wordIn s i j ["true", "false", "null"] then some .literal else none)
  else (i + 1, none)

theorem json_round {i : Nat} (h : i < s.length) (l : Nat) (col : List Color) :
    Color.json s (l + 1) i col = Color.json s l (jsonTaken s i).1
      (Color.paintToken col i (((jsonTaken s i).1 : Int) - 1) (jsonTaken s i).2) := by
  unfold jsonTaken
  simp only [Color.json, if_pos h]
  split
  · rw [Color.paintToken_last]
  split
  · rw [Color.paintToken_last]
  split
  · rfl
  split
  · dsimp only
    split
    · rfl
    · rfl
  · rfl

theorem jsonTaken_bounds {i : Nat} (h : i < s.length) :
    i < (jsonTaken s i).1 ∧ (jsonTaken s i).1 ≤ s.length := by
  unfold jsonTaken
  dsimp only
  split
  · exact tokenEnd_bounds h (Color.closeQuote_ge _)
  split
  · exact ⟨Nat.lt_succ_self i, h⟩
  split
  · exact ⟨Color.le_skipWhile _ _ _, Color.skipWhile_le _ h⟩
  split
  · rename_i ha
    rw [Color.skipWhile_succ h ha]
    exact ⟨Color.le_skipWhile _ _ _, Color.skipWhile_le _ h⟩
  · exact ⟨Nat.lt_succ_self i, h⟩

theorem jsonRound_takes (hf : s.length < fuel) {i : Nat} {col : List Color} (h : i < s.length)
    (hcol : col.length = s.length) : Takes s (jsonRound fuel s) i col (jsonTaken s i) := by
  have hread : read s i = some (Color.char s i) := read_char h
  have hfuel : col.length < fuel := hcol ▸ hf
  have hbounds := jsonTaken_bounds h
  unfold jsonTaken at hbounds ⊢
  dsimp only at hbounds ⊢
  split
  · -- a string or a key
    rename_i hq
    rw [if_pos hq] at hbounds
    refine takes_paint ?_
    simp only [jsonRound, hread, hq, Option.bind_eq_bind, Option.bind_some, if_true,
      closeQuote_eq hf, scan_eq hf, test_eq, Option.pure_def, Bool.and_eq_true, decide_eq_true_eq,
      beq_iff_eq]
    rw [paint_eq hfuel i (by dsimp only at hbounds; omega)]
    rfl
  rename_i hq
  split
  · rename_i hbrace
    refine takes_paint ?_
    simp only [jsonRound, hread, Option.bind_eq_bind, Option.bind_some, if_neg hq, if_pos hbrace]
    rw [write_eq_paint (hcol ▸ h)]
    rfl
  rename_i hbrace
  have hnum : (isdigit (Color.char s i).toNat || (Color.char s i == chr '-' &&
      (decide (i + 1 < s.length) && isdigit (Color.char s (i + 1)).toNat))) = true ↔
        Color.isdigitAt s i = true ∨ (Color.char s i = chr '-' ∧ i + 1 < s.length ∧
          Color.isdigitAt s (i + 1)) := by
    simp only [Bool.or_eq_true, Bool.and_eq_true, beq_iff_eq, decide_eq_true_eq]
    rfl
  split
  · rename_i hn
    left
    simp only [jsonRound, hread, Option.bind_eq_bind, Option.bind_some, if_neg hq, if_neg hbrace,
      test_eq, both_some, if_pos (hnum.mpr hn), scan_eq hf]
    rw [paint_token hf hcol i (Color.skipWhile_le _ h)]
    rfl
  rename_i hn
  split
  · rename_i ha
    left
    simp only [jsonRound, hread, Option.bind_eq_bind, Option.bind_some, if_neg hq, if_neg hbrace,
      test_eq, both_some, if_neg (mt hnum.mp hn), if_pos ha, scan_eq hf]
    rw [wordIn_eq (Color.le_skipWhile _ _ _) (Color.skipWhile_le _ (Nat.le_of_lt h)),
      Option.bind_some]
    split
    · rw [paint_token hf hcol i (Color.skipWhile_le _ (Nat.le_of_lt h))]
      rfl
    · rfl
  · rename_i ha
    left
    simp only [jsonRound, hread, Option.bind_eq_bind, Option.bind_some, if_neg hq, if_neg hbrace,
      test_eq, both_some, if_neg (mt hnum.mp hn), if_neg ha]
    rfl

theorem colorJson_eq (hf : s.length < fuel) {col : List Color} (hcol : col.length = s.length) :
    colorJson fuel s col = some (Color.json s s.length 0 col) ∧
      (Color.json s s.length 0 col).length = s.length :=
  scanner_eq jsonTaken_bounds (fun h hcol => jsonRound_takes hf h hcol) (Color.json_paints s .start).stop
    json_round hf (Nat.zero_le _) hcol

/-! ## JavaScript and C -/

theorem code_round {L : Lexis} {tokens : Nat → Nat → List Color → List Color}
    (hpaints : Color.Paints s (Color.codeScanner L) .tokens tokens) {i : Nat} (h : i < s.length)
    (l : Nat) (col : List Color) : tokens (l + 1) i col = tokens l (Color.codeRound L s i).1
      (Color.paintToken col i (((Color.codeRound L s i).1 : Int) - 1)
        (Color.codeRound L s i).2) := by
  obtain ⟨k, mark, htoken, _, hle, hround⟩ := hpaints.round h
  obtain ⟨hcode, _, hle'⟩ := Color.codeToken_drop L h
  rw [Color.drop_char h] at hcode
  have hrest := congrArg (·.rest) htoken
  have hmark := congrArg (·.mark) htoken
  simp only [Color.codeScanner, hcode] at hrest hmark
  have hlen := congrArg List.length hrest
  simp only [List.length_drop] at hlen
  have hk : (Color.codeRound L s i).1 = k := by omega
  rw [hround, hk, hmark]

theorem call_eq (hf : s.length < fuel) (i j : Nat) :
    wordColor fuel s i j [] = some (Color.callColor s j) := by
  simp only [wordColor, scan_eq hf, test_eq, Option.bind_eq_bind, Option.bind_some,
    Option.pure_def, Bool.and_eq_true, decide_eq_true_eq, beq_iff_eq]
  rfl

theorem wordColor_js (hf : s.length < fuel) {i j : Nat} (hi : i ≤ j) (hj : j ≤ s.length) :
    wordColor fuel s i j jsWords =
      some ((Color.jsLexis.word ((s.drop i).take (j - i))).or (Color.callColor s j)) := by
  simp only [jsWords, wordColor.eq_2, wordIn_eq hi hj, call_eq hf, Option.bind_eq_bind,
    Option.bind_some, Color.jsLexis, Color.wordIn]
  split
  · rfl
  split
  · rfl
  · rfl

theorem wordColor_c (hf : s.length < fuel) {i j : Nat} (hi : i ≤ j) (hj : j ≤ s.length) :
    wordColor fuel s i j cWords =
      some ((Color.cLexis.word ((s.drop i).take (j - i))).or (Color.callColor s j)) := by
  simp only [cWords, wordColor.eq_2, wordIn_eq hi hj, call_eq hf, Option.bind_eq_bind,
    Option.bind_some, Color.cLexis, Color.wordIn]
  split
  · rfl
  split
  · rfl
  split
  · rfl
  · rfl

theorem codeRound_takes {L : Lexis} {words : List (List String × Color)}
    (hwords : ∀ {i j : Nat}, i ≤ j → j ≤ s.length → wordColor fuel s i j words =
      some ((L.word ((s.drop i).take (j - i))).or (Color.callColor s j)))
    (hf : s.length < fuel) {i : Nat} {col : List Color} (h : i < s.length)
    (hcol : col.length = s.length) :
    Takes s (codeRound fuel s L words) i col (Color.codeRound L s i) := by
  have hread : read s i = some (Color.char s i) := read_char h
  have hfuel : col.length < fuel := hcol ▸ hf
  have hbounds := (Color.codeToken_drop L h).2
  have hdigit : isdigit (Color.char s i).toNat = Color.isdigitAt s i := rfl
  -- the round behind its test for a comment
  have hround : codeRound fuel s L words (i, col) = ?_ := by
    simp only [codeRound, hread, Option.bind_eq_bind, Option.bind_some, test_eq, both_some,
      pairTest_iff, hdigit]
    rfl
  unfold Color.codeRound at hbounds ⊢
  dsimp only at hbounds ⊢
  split
  · -- the rest of the line
    rename_i hline
    right
    refine ⟨rfl, i, ?_⟩
    rw [hround, if_pos hline, paint_token hf hcol i (Nat.le_refl _)]
    rfl
  rename_i hline
  split
  · rename_i hblock
    rw [if_neg hline, if_pos hblock] at hbounds
    dsimp only at hbounds
    refine takes_paint ?_
    rw [hround, if_neg hline, if_pos hblock, commentEnd_eq hf, Option.bind_some,
      paint_eq hfuel i (by omega)]
    rfl
  rename_i hblock
  split
  · rename_i hq
    rw [if_neg hline, if_neg hblock, if_pos hq] at hbounds
    dsimp only at hbounds
    refine takes_paint ?_
    rw [hround, if_neg hline, if_neg hblock, if_pos hq, closeQuote_eq hf, Option.bind_some,
      paint_eq hfuel i (by omega)]
    rfl
  rename_i hq
  split
  · rename_i hn
    rw [if_neg hline, if_neg hblock, if_neg hq, if_pos hn] at hbounds
    left
    rw [hround, if_neg hline, if_neg hblock, if_neg hq, if_pos hn, numberEnd_eq hf,
      Option.bind_some, scan_eq hf, Option.bind_some, paint_token hf hcol i hbounds.2]
    rfl
  rename_i hn
  split
  · rename_i hfirst
    have hle := Color.skipWhile_le L.next (Nat.le_of_lt h)
    left
    rw [hround, if_neg hline, if_neg hblock, if_neg hq, if_neg hn, if_pos hfirst, scan_eq hf,
      Option.bind_some, hwords (Color.le_skipWhile _ _ _) hle, Option.bind_some]
    cases (L.word ((s.drop i).take (Color.skipWhile s L.next i - i))).or
        (Color.callColor s (Color.skipWhile s L.next i)) with
    | none => rfl
    | some cl =>
      dsimp only
      rw [paint_token hf hcol i hle]
      rfl
  rename_i hfirst
  split
  · rename_i hbrace
    refine takes_paint ?_
    rw [hround, if_neg hline, if_neg hblock, if_neg hq, if_neg hn, if_neg hfirst, if_pos hbrace,
      write_eq_paint (hcol ▸ h)]
    rfl
  rename_i hbrace
  split
  · rename_i hoper
    refine takes_paint ?_
    rw [hround, if_neg hline, if_neg hblock, if_neg hq, if_neg hn, if_neg hfirst, if_neg hbrace,
      if_pos hoper, write_eq_paint (hcol ▸ h)]
    rfl
  · rename_i hoper
    left
    rw [hround, if_neg hline, if_neg hblock, if_neg hq, if_neg hn, if_neg hfirst, if_neg hbrace,
      if_neg hoper]
    rfl

theorem code_eq {L : Lexis} {words : List (List String × Color)}
    {tokens : Nat → Nat → List Color → List Color}
    (hpaints : Color.Paints s (Color.codeScanner L) .tokens tokens)
    (hwords : ∀ {i j : Nat}, i ≤ j → j ≤ s.length → wordColor fuel s i j words =
      some ((L.word ((s.drop i).take (j - i))).or (Color.callColor s j)))
    (hf : s.length < fuel) {i : Nat} {col : List Color} (hi : i ≤ s.length)
    (hcol : col.length = s.length) :
    scanner fuel s (codeRound fuel s L words) i col = some (tokens s.length i col) ∧
      (tokens s.length i col).length = s.length :=
  scanner_eq (fun h => (Color.codeToken_drop L h).2)
    (fun h hcol => codeRound_takes hwords hf h hcol) hpaints.stop (code_round hpaints) hf hi hcol

theorem colorJs_eq (hf : s.length < fuel) {col : List Color} (hcol : col.length = s.length) :
    colorJs fuel s col = some (Color.js s s.length 0 col) ∧
      (Color.js s s.length 0 col).length = s.length :=
  code_eq (Color.js_paints s .tokens) (wordColor_js hf) hf (Nat.zero_le _) hcol

/-! ## Init scripts -/

/-- The token of `color_rd` at `i`. -/
def rdTaken (s : List UInt8) (i : Nat) : Nat × Option Color :=
  let c := Color.char s i
  if isblank c then (i + 1, none)
  else if (str "|><&").contains c then (i + 1, some .oper)
  else if c = chr '"' then
    (tokenEnd s (Color.skipWhile s (· != chr '"') (i + 1)) + 1, some .string)
  else
    (Color.skipWhile s (!endsToken ·) i, some (
      if c = chr '/' ∨ (c = chr '.' ∧ i + 1 < s.length ∧ Color.char s (i + 1) = chr '/') then .path
      else if c = chr '$' then .literal
      else if Color.isdigitAt s i then .number
      else .default))

theorem rd_round {i : Nat} (h : i < s.length) (l : Nat) (col : List Color) :
    Color.rdArgs s (l + 1) i col = Color.rdArgs s l (rdTaken s i).1
      (Color.paintToken col i (((rdTaken s i).1 : Int) - 1) (rdTaken s i).2) := by
  unfold rdTaken
  simp only [Color.rdArgs, if_pos h]
  split
  · rfl
  split
  · rw [Color.paintToken_last]
  split
  · rw [Color.paintToken_last]
  · rfl

theorem rdArgs_stop (l : Nat) (col : List Color) : Color.rdArgs s l s.length col = col := by
  cases l with
  | zero => rfl
  | succ l => rw [Color.rdArgs, if_neg (Nat.lt_irrefl _)]

theorem rdTaken_bounds {i : Nat} (h : i < s.length) :
    i < (rdTaken s i).1 ∧ (rdTaken s i).1 ≤ s.length := by
  unfold rdTaken
  dsimp only
  split
  · exact ⟨Nat.lt_succ_self i, h⟩
  rename_i hblank
  split
  · exact ⟨Nat.lt_succ_self i, h⟩
  rename_i hoper
  split
  · exact tokenEnd_bounds h (Color.le_skipWhile _ _ _)
  · have hplain : (!endsToken (Color.char s i)) = true := by
      rw [endsToken, Bool.not_eq_true', Bool.or_eq_false_iff]
      exact ⟨Bool.eq_false_iff.mpr hblank, Bool.eq_false_iff.mpr hoper⟩
    rw [Color.skipWhile_succ h hplain]
    exact ⟨Color.le_skipWhile _ _ _, Color.skipWhile_le _ h⟩

theorem rdRound_takes (hf : s.length < fuel) {i : Nat} {col : List Color} (h : i < s.length)
    (hcol : col.length = s.length) : Takes s (rdRound fuel s) i col (rdTaken s i) := by
  have hread : read s i = some (Color.char s i) := read_char h
  have hfuel : col.length < fuel := hcol ▸ hf
  have hbounds := rdTaken_bounds h
  unfold rdTaken at hbounds ⊢
  dsimp only at hbounds ⊢
  split
  · rename_i hblank
    left
    simp only [rdRound, hread, Option.bind_eq_bind, Option.bind_some, if_pos hblank]
    rfl
  rename_i hblank
  split
  · rename_i hoper
    refine takes_paint ?_
    simp only [rdRound, hread, Option.bind_eq_bind, Option.bind_some, if_neg hblank, if_pos hoper]
    rw [write_eq_paint (hcol ▸ h)]
    rfl
  rename_i hoper
  split
  · rename_i hq
    rw [if_neg hblank, if_neg hoper, if_pos hq] at hbounds
    dsimp only at hbounds
    refine takes_paint ?_
    simp only [rdRound, hread, Option.bind_eq_bind, Option.bind_some, if_neg hblank, if_neg hoper,
      if_pos hq, scan_eq hf]
    rw [paint_eq hfuel i (by omega)]
    rfl
  · rename_i hq
    have hle := Color.skipWhile_le (!endsToken ·) (Nat.le_of_lt h)
    left
    simp only [rdRound, hread, Option.bind_eq_bind, Option.bind_some, if_neg hblank, if_neg hoper,
      if_neg hq, scan_eq hf, test_eq, both_some, pairTest_iff]
    rw [paint_token hf hcol i hle]
    rfl

theorem colorRd_eq (hf : s.length < fuel) {col : List Color} (hcol : col.length = s.length) :
    colorRd fuel s col = some (Color.rd s col) ∧ (Color.rd s col).length = s.length := by
  have hargs {i : Nat} {col : List Color} (hi : i ≤ s.length) (hcol : col.length = s.length) :
      scanner fuel s (rdRound fuel s) i col = some (Color.rdArgs s s.length i col) ∧
        (Color.rdArgs s s.length i col).length = s.length :=
    scanner_eq rdTaken_bounds (fun h hcol => rdRound_takes hf h hcol) rdArgs_stop rd_round hf hi
      hcol
  let tokens (i : Nat) (col : List Color) : List Color :=
    let i := Color.skipWhile s isblank i
    let j := Color.skipWhile s (!isblank ·) i
    Color.rdArgs s s.length j (Color.paint col i (j - 1) .cmd)
  have hcmd {i : Nat} {col : List Color} (hi : i ≤ s.length) (hcol : col.length = s.length) :
      ((scan fuel s isblank i).bind fun i => (scan fuel s (!isblank ·) i).bind fun j =>
        (paint fuel col i ((j : Int) - 1) .cmd).bind (scanner fuel s (rdRound fuel s) j)) =
          some (tokens i col) ∧ (tokens i col).length = s.length := by
    have hle := Color.skipWhile_le (!isblank ·) (Color.skipWhile_le isblank hi)
    rw [scan_eq hf, Option.bind_some, scan_eq hf, Option.bind_some,
      paint_token hf hcol _ hle, Option.bind_some]
    exact hargs hle (by rw [length_paint, hcol])
  unfold colorRd Color.rd
  simp only [test_eq, Option.bind_eq_bind, Option.bind_some, charTest_iff]
  by_cases hcomment : 0 < s.length ∧ Color.char s 0 = chr '#'
  · rw [if_pos hcomment, if_pos hcomment, length_paint]
    exact ⟨paint_token hf hcol 0 (Nat.le_refl _) .comment, hcol⟩
  rw [if_neg hcomment, if_neg hcomment]
  by_cases hat : 0 < s.length ∧ Color.char s 0 = chr '@'
  · have hwrite : write col 0 .oper = some (Color.paint col 0 0 .oper) :=
      write_eq_paint (hcol ▸ hat.1) .oper
    rw [if_pos hat, if_pos hat, hwrite]
    exact hcmd hat.1 (by rw [length_paint, hcol])
  · rw [if_neg hat, if_neg hat]
    exact hcmd (Nat.zero_le _) hcol

/-! ## Configuration files -/

theorem trimBlanks_le (i : Nat) : ∀ {l : Nat} {e : Int}, Color.trimBlanks s i l e ≤ e
  | 0, e => Int.le_refl e
  | l + 1, e => by
    unfold Color.trimBlanks
    split
    · have hle := @trimBlanks_le i l (e - 1)
      omega
    · exact Int.le_refl e

theorem valueColor_eq (hf : s.length < fuel) (i : Nat) {ve : Int} (hve : ve < s.length) :
    valueColor fuel s i ve = some (if ((s.drop i).take (ve - i + 1).toNat).all
      fun c => isdigit c.toNat || (str ".-+").contains c then .number else .string) := by
  let numeric (k : Int) : Bool := ((s.drop k.toNat).take (ve - k + 1).toNat).all
    fun c => isdigit c.toNat || (str ".-+").contains c
  let inv (p : Int × Color) : Prop := 0 ≤ p.1 ∧ p.2 = .number ∧ numeric p.1 = numeric i
  have hround (p : Int × Color) (hp : inv p) : Round (fun (k, _) => some (decide (k ≤ ve)))
      (fun (k, cl) => do
        let c ← read s k
        if isdigit c.toNat || (str ".-+").contains c then return .yield (k + 1, cl)
        else return .done (k, .string)) inv (·.2 = if numeric i then .number else .string)
      (fun p => (ve + 1 - p.1).toNat) p := by
    obtain ⟨k, cl⟩ := p
    obtain ⟨hk, rfl, hnum⟩ := hp
    dsimp only at hk hnum
    lift k to Nat using hk
    by_cases h : k ≤ ve
    · have hks : k < s.length := by omega
      have htest : (some (decide ((k : Int) ≤ ve)) : Option Bool) = some true :=
        congrArg some (decide_eq_true h)
      have hcons : numeric k = ((isdigit (Color.char s k).toNat ||
          (str ".-+").contains (Color.char s k)) && numeric ((k + 1 : Nat) : Int)) := by
        have hlen : (ve - k + 1).toNat = (ve - ((k + 1 : Nat) : Int) + 1).toNat + 1 := by omega
        simp only [numeric, Int.toNat_natCast, Color.drop_char hks, hlen, List.take_succ_cons,
          List.all_cons]
      by_cases hc : (isdigit (Color.char s k).toNat || (str ".-+").contains (Color.char s k)) = true
      · refine .next ((k + 1 : Nat), .number) htest ?_ ⟨Int.natCast_nonneg _, rfl, ?_⟩ ?_
        · dsimp only
          rw [read_char hks, Option.bind_eq_bind, Option.bind_some, if_pos hc]
          rfl
        · rw [← hnum, hcons, hc, Bool.true_and]
        · dsimp only
          omega
      · refine .leave (k, .string) htest ?_ ?_
        · dsimp only
          rw [read_char hks, Option.bind_eq_bind, Option.bind_some, if_neg hc]
          rfl
        · rw [← hnum, hcons, Bool.eq_false_iff.mpr hc, Bool.false_and, if_neg Bool.false_ne_true]
    · refine .stop (congrArg some (decide_eq_false h)) ?_
      have hnil : (ve - k + 1).toNat = 0 := by omega
      have hall : numeric k = true := by
        simp only [numeric, hnil, List.take_zero, List.all_nil]
      rw [← hnum, hall, if_pos rfl]
  obtain ⟨y, hy, hpost⟩ := loop_spec inv _ _ hround (x := ((i : Int), Color.number))
    ⟨Int.natCast_nonneg i, rfl, rfl⟩ (show (ve + 1 - i).toNat < fuel by omega)
  unfold valueColor
  rw [hy, Option.bind_eq_bind, Option.bind_some]
  exact congrArg some hpost

theorem confValue_eq (hf : s.length < fuel) {i : Nat} (hi : i ≤ s.length) {col : List Color}
    (hcol : col.length = s.length) :
    confValue fuel s i col = some (Color.confValue s (Color.skipWhile s isblank i) col) ∧
      (Color.confValue s (Color.skipWhile s isblank i) col).length = s.length := by
  unfold confValue Color.confValue
  have hle := Color.skipWhile_le isblank hi
  simp only [scan_eq hf, test_eq, charTest_iff, Option.bind_eq_bind, Option.bind_some]
  generalize Color.skipWhile s isblank i = i at hle ⊢
  have hv := Color.skipWhile_le (· != chr '#') hle
  generalize Color.skipWhile s (· != chr '#') i = v at hv ⊢
  have hve := @trimBlanks_le s i s.length ((v : Int) - 1)
  rw [trimBlanks_eq hf i (show (v : Int) - 1 < s.length by omega), Option.bind_some]
  generalize Color.trimBlanks s i s.length ((v : Int) - 1) = ve at hve ⊢
  have htail {col : List Color} (hcol : col.length = s.length) :
      (if v < s.length ∧ Color.char s v = chr '#' then
        paint fuel col v (s.length - 1) .comment else some col) =
          some (if v < s.length ∧ Color.char s v = chr '#' then
            Color.paint col v (s.length - 1) .comment else col) ∧
        (if v < s.length ∧ Color.char s v = chr '#' then
          Color.paint col v (s.length - 1) .comment else col).length = s.length := by
    by_cases hc : v < s.length ∧ Color.char s v = chr '#'
    · rw [if_pos hc, if_pos hc, length_paint]
      exact ⟨paint_token hf hcol v (Nat.le_refl _) .comment, hcol⟩
    · rw [if_neg hc, if_neg hc]
      exact ⟨rfl, hcol⟩
  by_cases hvalue : ve ≥ i
  · rw [if_pos hvalue, if_pos hvalue, valueColor_eq hf i (by omega), Option.bind_some,
      paint_eq (hcol ▸ hf) i (by omega), Option.bind_some]
    exact htail (by rw [length_paint, hcol])
  · rw [if_neg hvalue, if_neg hvalue]
    exact htail hcol

theorem colorConf_eq (hf : s.length < fuel) {col : List Color} (hcol : col.length = s.length) :
    colorConf fuel s col = some (Color.conf s col) ∧ (Color.conf s col).length = s.length := by
  unfold colorConf Color.conf
  simp only [scan_eq hf, test_eq, charTest_iff, Option.bind_eq_bind, Option.bind_some]
  have hi := Color.skipWhile_le isblank (Nat.zero_le s.length)
  generalize Color.skipWhile s isblank 0 = i at hi ⊢
  by_cases hcomment : i < s.length ∧ Color.char s i = chr '#'
  · rw [if_pos hcomment, if_pos hcomment, length_paint]
    exact ⟨paint_token hf hcol _ (Nat.le_refl _) .comment, hcol⟩
  rw [if_neg hcomment, if_neg hcomment]
  have hj := Color.skipWhile_le (fun c => c != chr '=' && c != chr '#') hi
  generalize Color.skipWhile s (fun c => c != chr '=' && c != chr '#') i = j at hj ⊢
  have hke := @trimBlanks_le s i s.length ((j : Int) - 1)
  rw [trimBlanks_eq hf i (show (j : Int) - 1 < s.length by omega), Option.bind_some]
  generalize Color.trimBlanks s i s.length ((j : Int) - 1) = ke at hke ⊢
  let tail (col : List Color) : List Color :=
    if j < s.length ∧ Color.char s j = chr '=' then
      Color.confValue s (Color.skipWhile s isblank (j + 1)) (Color.paint col j j .oper)
    else if j < s.length ∧ Color.char s j = chr '#' then Color.paint col j (s.length - 1) .comment
    else Color.confValue s (Color.skipWhile s isblank j) col
  have htail {col : List Color} (hcol : col.length = s.length) :
      (if j < s.length ∧ Color.char s j = chr '=' then
        (write col j .oper).bind fun col => confValue fuel s (j + 1) col
      else if j < s.length ∧ Color.char s j = chr '#' then
        paint fuel col j (s.length - 1) .comment
      else confValue fuel s j col) = some (tail col) ∧ (tail col).length = s.length := by
    dsimp only [tail]
    by_cases heq : j < s.length ∧ Color.char s j = chr '='
    · rw [if_pos heq, if_pos heq, write_eq_paint (hcol ▸ heq.1), Option.bind_some]
      exact confValue_eq hf heq.1 (by rw [length_paint, hcol])
    rw [if_neg heq, if_neg heq]
    by_cases hc : j < s.length ∧ Color.char s j = chr '#'
    · rw [if_pos hc, if_pos hc, length_paint]
      exact ⟨paint_token hf hcol _ (Nat.le_refl _) .comment, hcol⟩
    · rw [if_neg hc, if_neg hc]
      exact confValue_eq hf hj hcol
  by_cases hkey : ke ≥ i
  · rw [if_pos hkey, if_pos hkey, paint_eq (hcol ▸ hf) i (by omega), Option.bind_some]
    exact htail (by rw [length_paint, hcol])
  · rw [if_neg hkey, if_neg hkey]
    exact htail hcol

/-! ## C -/

theorem includeEnd_eq (hf : s.length < fuel) {j k : Nat} (hj : j ≤ k) (hk : k ≤ s.length)
    {col : List Color} (hcol : col.length = s.length) :
    includeEnd fuel s j k col = some (if Color.wordIn s j k ["include"] ∧
        Color.skipWhile s isblank k < s.length ∧
          Color.char s (Color.skipWhile s isblank k) = chr '<'
      then (tokenEnd s (Color.skipWhile s (· != chr '>') (Color.skipWhile s isblank k + 1)) + 1,
        Color.paint col (Color.skipWhile s isblank k)
          (tokenEnd s (Color.skipWhile s (· != chr '>') (Color.skipWhile s isblank k + 1))) .string)
      else (0, col)) := by
  unfold includeEnd
  rw [wordIn_eq hj hk, Option.bind_eq_bind, Option.bind_some]
  by_cases hword : Color.wordIn s j k ["include"] = true
  · simp only [scan_eq hf, test_eq, charTest_iff, Option.bind_eq_bind, Option.bind_some, hword,
      true_and]
    by_cases hq : Color.skipWhile s isblank k < s.length ∧
        Color.char s (Color.skipWhile s isblank k) = chr '<'
    · have hbounds := tokenEnd_bounds hq.1
        (Color.le_skipWhile s (· != chr '>') (Color.skipWhile s isblank k + 1))
      rw [if_pos hq, if_pos hq, paint_eq (hcol ▸ hf) _ (by omega)]
      rfl
    · rw [if_neg hq, if_neg hq]
      rfl
  · rw [if_neg hword, if_neg fun h => hword h.1]
    rfl

theorem colorC_eq (hf : s.length < fuel) {col : List Color} (hcol : col.length = s.length) :
    colorC fuel s col = some (Color.c s col) ∧ (Color.c s col).length = s.length := by
  have htokens {i : Nat} {col : List Color} (hi : i ≤ s.length) (hcol : col.length = s.length) :=
    code_eq (Color.cTokens_paints s fun _ _ => rfl) (wordColor_c hf) hf hi hcol
  unfold colorC Color.c
  simp only [scan_eq hf, test_eq, charTest_iff, Option.bind_eq_bind, Option.bind_some]
  generalize Color.skipWhile s isblank 0 = j
  by_cases hdirective : j < s.length ∧ Color.char s j = chr '#'
  · have hj := hdirective.1
    have hjk := Color.le_skipWhile s isalpha (j + 1)
    have hk := Color.skipWhile_le isalpha hj
    rw [if_pos hdirective, if_pos hdirective, write_eq_paint (hcol ▸ hj), Option.bind_some]
    generalize Color.skipWhile s isalpha (j + 1) = k at hjk hk ⊢
    have hlen : (Color.paint col j j .cmd).length = s.length := by rw [length_paint, hcol]
    have hlen' : (Color.paint (Color.paint col j j .cmd) (j + 1 : Nat) ((k : Int) - 1)
        .cmd).length = s.length := by rw [length_paint, hlen]
    rw [paint_token hf hlen _ hk, Option.bind_some, includeEnd_eq hf hjk hk hlen',
      Option.bind_some]
    split
    · rename_i hq
      have hbounds := tokenEnd_bounds hq.2.1
        (Color.le_skipWhile s (· != chr '>') (Color.skipWhile s isblank k + 1))
      exact htokens hbounds.2 (by rw [length_paint, hlen'])
    · exact htokens hk hlen'
  · rw [if_neg hdirective, if_neg hdirective]
    exact htokens (Nat.zero_le _) hcol

/-! ## All scanners -/

/-- A scanner comes to its end, and no access is out of bounds. -/
def InBounds (color : Nat → List UInt8 → List Color → Option (List Color)) (fuel : Nat)
    (s : List UInt8) (col : List Color) : Prop :=
  ∃ col', color fuel s col = some col' ∧ col'.length = s.length

/-- Every line keeps every scanner inside, and no loop goes round more often than it has chars. -/
theorem scanners_inBounds (s : List UInt8) (col : List Color) (hcol : col.length = s.length)
    (fuel : Nat) (hf : s.length < fuel) :
    InBounds colorJson fuel s col ∧ InBounds colorRd fuel s col ∧ InBounds colorConf fuel s col ∧
      InBounds colorJs fuel s col ∧ InBounds colorC fuel s col :=
  ⟨⟨_, colorJson_eq hf hcol⟩, ⟨_, colorRd_eq hf hcol⟩, ⟨_, colorConf_eq hf hcol⟩,
    ⟨_, colorJs_eq hf hcol⟩, ⟨_, colorC_eq hf hcol⟩⟩

/-- An unclosed comment for some, an unclosed string that ends with a backslash for others. -/
theorem scanners_inBounds_unclosed :
    InBounds colorJson 7 (str "/* \"a\\") (List.replicate 6 .default) ∧
      InBounds colorRd 7 (str "/* \"a\\") (List.replicate 6 .default) ∧
      InBounds colorConf 7 (str "/* \"a\\") (List.replicate 6 .default) ∧
      InBounds colorJs 7 (str "/* \"a\\") (List.replicate 6 .default) ∧
      InBounds colorC 7 (str "/* \"a\\") (List.replicate 6 .default) :=
  scanners_inBounds (str "/* \"a\\") (List.replicate 6 .default) rfl 7 (by decide)

end Evim.VimSyntax
