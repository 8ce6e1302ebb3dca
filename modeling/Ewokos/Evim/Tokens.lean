import Ewokos.Lib.Scan
import Ewokos.Evim.Syntax

/-!
# evim: the tokens of a line

The loops of `color_json`, `color_js` and `color_c` of `bin/evim/vim_syntax.c` as scanners: a token
is what is left of the line behind it, and its color.

* `jsonToken`, `codeToken` — one token; JavaScript and C differ in their `Lexis` only.
* `Painted` — the marks of a scanner are painted up to a column.
* `Paints.painted` — a loop that paints one token in every round paints the marks of the scanner.
* `json_paints`, `js_paints`, `cTokens_paints` — the loops of the source do.
-/

set_option autoImplicit false

namespace Evim.Color

open Scan
open CString hiding strchr

/-! ## Tokens -/

/-- Where in its line a token stands, as far as that matters to its color. -/
inductive Phase where
  /-- nothing but blanks in front of it -/
  | start
  /-- the rest of a C line -/
  | tokens
  /-- the `<...>` behind `#include` -/
  | path
  /-- the command of a `.rd` line -/
  | command
  /-- its arguments -/
  | args
  /-- behind the key of a `.conf` line -/
  | keyEnd
  /-- behind its `=` -/
  | value
  /-- behind its value -/
  | valueEnd
  deriving DecidableEq, Repr

/-- What is left behind the closing quote `q`, over escaped chars. -/
def quoteRest (q : UInt8) : List UInt8 → Option (List UInt8)
  | [] => none
  | [c] => if c = q then some [] else none
  | c :: d :: l =>
    if c = q then some (d :: l)
    else if c = chr '\\' then quoteRest q l
    else quoteRest q (d :: l)

/-- What is left behind the end of a block comment. -/
def commentRest : List UInt8 → Option (List UInt8)
  | c :: d :: l => if c = chr '*' ∧ d = chr '/' then some l else commentRest (d :: l)
  | _ => none

/-- One char, if it is there. -/
def eat (p : UInt8 → Bool) : List UInt8 → List UInt8
  | c :: l => if p c then l else c :: l
  | [] => []

/-- What is left behind a number that begins with `c`. -/
def numberRest (c : UInt8) (l : List UInt8) : List UInt8 :=
  if c = chr '0' ∧ l.head?.any (fun c => c == chr 'x' || c == chr 'X') then
    (eat (fun c => c == chr 'x' || c == chr 'X') l).dropWhile isxdigit
  else
    let l := l.dropWhile fun c => isdigit c.toNat || c == chr '.'
    if l.head?.any (fun c => c == chr 'e' || c == chr 'E') then
      (eat (fun c => c == chr '+' || c == chr '-')
        (eat (fun c => c == chr 'e' || c == chr 'E') l)).dropWhile fun c => isdigit c.toNat
    else l

/-- The first char that is not blank. -/
def look (l : List UInt8) : Option UInt8 := (l.dropWhile isblank).head?

/-- One round of `color_json`. -/
def jsonToken : List UInt8 → List UInt8 × Option Color
  | [] => ([], none)
  | c :: l =>
    if c = chr '"' then
      match quoteRest c l with
      | some r => (r, some (if look r = some (chr ':') then key else string))
      | none => ([], some string)
    else if (str "[]" ++ [123, 125]).contains c then (l, some brace)
    else if isdigit c.toNat ∨ (c = chr '-' ∧ l.head?.any fun c => isdigit c.toNat) then
      (l.dropWhile fun c => isdigit c.toNat || (str ".eE+-").contains c, some number)
    else if isalpha c then
      (l.dropWhile isalpha,
        if ["true", "false", "null"].any fun w => str w == c :: l.takeWhile isalpha then some literal
        else none)
    else (l, none)

/-- What tells JavaScript from C. -/
structure Lexis where
  quote : UInt8 → Bool
  /-- what may follow a number -/
  suffix : UInt8 → Bool
  /-- the first char of an identifier -/
  first : UInt8 → Bool
  next : UInt8 → Bool
  /-- the color of a word that is not a plain identifier -/
  word : List UInt8 → Option Color
  next_of_first : ∀ c, first c = true → next c = true
  notBlank : ∀ c, isblank c = true → quote c = false ∧ suffix c = false ∧ next c = false

/-- One round of the loops of `color_js` and `color_c`. -/
def codeToken (L : Lexis) : List UInt8 → List UInt8 × Option Color
  | [] => ([], none)
  | c :: l =>
    if c = chr '/' ∧ l.head?.any (· == chr '/') then ([], some comment)
    else if c = chr '/' ∧ l.head?.any (· == chr '*') then
      ((commentRest l.tail).getD [], some comment)
    else if L.quote c then ((quoteRest c l).getD [], some string)
    else if isdigit c.toNat then ((numberRest c l).dropWhile L.suffix, some number)
    else if L.first c then
      (l.dropWhile L.next, (L.word (c :: l.takeWhile L.next)).or
        (if look (l.dropWhile L.next) = some (chr '(') then some cmd else none))
    else if isBrace c then (l, some brace)
    else if isOper c then (l, some oper)
    else (l, none)

/-! ## What is left is behind the token -/

theorem quoteRest_suffix (q : UInt8) : ∀ {l r : List UInt8}, quoteRest q l = some r → r <:+ l
  | [], _, h => nomatch h
  | [c], r, h => by
    unfold quoteRest at h
    split at h
    · cases h
      exact List.nil_suffix
    · cases h
  | c :: d :: l, r, h => by
    unfold quoteRest at h
    split at h
    · cases h
      exact List.suffix_cons c _
    · split at h
      · exact (quoteRest_suffix q h).trans ((List.suffix_cons d l).trans (List.suffix_cons c _))
      · exact (quoteRest_suffix q h).trans (List.suffix_cons c _)

theorem commentRest_suffix : ∀ {l r : List UInt8}, commentRest l = some r → r <:+ l
  | [], _, h => nomatch h
  | [_], _, h => nomatch h
  | c :: d :: l, r, h => by
    unfold commentRest at h
    split at h
    · cases h
      exact (List.suffix_cons d l).trans (List.suffix_cons c _)
    · exact (commentRest_suffix h).trans (List.suffix_cons c _)

theorem getD_suffix {l l' : List UInt8} {o : Option (List UInt8)} (h : ∀ r, o = some r → r <:+ l)
    (hl : l <:+ l') : o.getD [] <:+ l' := by
  cases o with
  | none => exact List.nil_suffix
  | some r => exact (h r rfl).trans hl

theorem eat_suffix (p : UInt8 → Bool) (l : List UInt8) : eat p l <:+ l := by
  cases l with
  | nil => exact List.suffix_refl _
  | cons c l =>
    rw [eat]
    split
    · exact List.suffix_cons c l
    · exact List.suffix_refl _

theorem numberRest_suffix (c : UInt8) (l : List UInt8) : numberRest c l <:+ l := by
  unfold numberRest
  dsimp only
  split
  · exact (List.dropWhile_suffix _).trans (eat_suffix _ l)
  · split
    · exact (List.dropWhile_suffix _).trans ((eat_suffix _ _).trans ((eat_suffix _ _).trans
        (List.dropWhile_suffix _)))
    · exact List.dropWhile_suffix _

def jsonScanner : Scanner Phase UInt8 Color where
  token ph c l := ⟨ph, (jsonToken (c :: l)).1, (jsonToken (c :: l)).2⟩
  advances ph c l := by
    dsimp only
    rw [jsonToken]
    repeat' split
    all_goals first
      | exact List.suffix_refl l
      | exact List.nil_suffix
      | exact List.dropWhile_suffix _
      | exact quoteRest_suffix c (by assumption)

theorem codeToken_suffix (L : Lexis) (c : UInt8) (l : List UInt8) :
    (codeToken L (c :: l)).1 <:+ l := by
  rw [codeToken]
  repeat' split
  all_goals first
    | exact List.suffix_refl l
    | exact List.nil_suffix
    | exact List.dropWhile_suffix _
    | exact getD_suffix (fun r => commentRest_suffix) (List.tail_suffix l)
    | exact getD_suffix (fun r => quoteRest_suffix c) (List.suffix_refl l)
    | exact (List.dropWhile_suffix _).trans (numberRest_suffix c l)

def codeScanner (L : Lexis) : Scanner Phase UInt8 Color where
  token ph c l := ⟨ph, (codeToken L (c :: l)).1, (codeToken L (c :: l)).2⟩
  advances _ := codeToken_suffix L

/-! ## The loops over chars -/

section Positions

variable {s : List UInt8} {i : Nat}

theorem drop_char (h : i < s.length) : s.drop i = char s i :: s.drop (i + 1) := by
  rw [List.drop_eq_getElem_cons h, char, List.getD_eq_getElem _ _ h]

theorem char_head (p : UInt8 → Bool) :
    (s.drop i).head?.any p = true ↔ i < s.length ∧ p (char s i) = true := by
  by_cases h : i < s.length
  · rw [drop_char h]
    exact (and_iff_right h).symm
  · rw [List.drop_eq_nil_of_le (Nat.not_lt.mp h)]
    exact iff_of_false Bool.false_ne_true fun hi => h hi.1

theorem drop_skipWhile (p : UInt8 → Bool) :
    (s.drop i).dropWhile p = s.drop (skipWhile s p i) := by
  have hdrop (l : List UInt8) : l.drop (l.takeWhile p).length = l.dropWhile p := by
    calc l.drop (l.takeWhile p).length
        = (l.takeWhile p ++ l.dropWhile p).drop (l.takeWhile p).length := by
          rw [List.takeWhile_append_dropWhile]
      _ = l.dropWhile p := List.drop_left
  rw [skipWhile, ← List.drop_drop, hdrop]

theorem skipWhile_le (p : UInt8 → Bool) (h : i ≤ s.length) : skipWhile s p i ≤ s.length := by
  have hle := (List.takeWhile_prefix (l := s.drop i) p).length_le
  rw [List.length_drop] at hle
  unfold skipWhile
  omega

/-- The word from `i` on. -/
theorem take_skipWhile (p : UInt8 → Bool) :
    (s.drop i).take (skipWhile s p i - i) = (s.drop i).takeWhile p := by
  rw [skipWhile, Nat.add_sub_cancel_left]
  exact (List.prefix_iff_eq_take.mp (List.takeWhile_prefix p)).symm

theorem skipWhile_succ {p : UInt8 → Bool} (h : i < s.length) (hp : p (char s i) = true) :
    skipWhile s p i = skipWhile s p (i + 1) := by
  unfold skipWhile
  rw [drop_char h, List.takeWhile_cons, hp, if_pos rfl, List.length_cons]
  omega

theorem eat_drop (p : UInt8 → Bool) :
    eat p (s.drop i) = s.drop (if i < s.length ∧ p (char s i) = true then i + 1 else i) := by
  by_cases h : i < s.length
  · rw [drop_char h, eat]
    by_cases hp : p (char s i) = true
    · rw [if_pos hp, if_pos ⟨h, hp⟩]
    · rw [if_neg hp, if_neg fun hi => hp hi.2, drop_char h]
  · rw [if_neg fun hi => h hi.1, List.drop_eq_nil_of_le (Nat.not_lt.mp h), eat]

theorem quoteRest_cons (q c : UInt8) (l : List UInt8) : quoteRest q (c :: l) =
    if c = q then some l else if c = chr '\\' then quoteRest q l.tail else quoteRest q l := by
  cases l with
  | nil => simp [quoteRest]
  | cons d l => rw [quoteRest, List.tail_cons]

theorem closeQuote_spec (q : UInt8) : ∀ {fuel j : Nat}, j ≤ s.length → s.length ≤ j + fuel →
    (closeQuote s q fuel j < s.length ∧
        quoteRest q (s.drop j) = some (s.drop (closeQuote s q fuel j + 1))) ∨
      (s.length ≤ closeQuote s q fuel j ∧ quoteRest q (s.drop j) = none)
  | 0, j, hj, hf => by
    right
    rw [List.drop_eq_nil_of_le (by omega)]
    exact ⟨hf, rfl⟩
  | fuel + 1, j, hj, hf => by
    unfold closeQuote
    by_cases h : j < s.length
    · rw [drop_char h, quoteRest_cons]
      by_cases hq : char s j = q
      · rw [if_neg fun hc => hc.2 hq, if_pos hq]
        exact .inl ⟨h, rfl⟩
      · rw [if_pos ⟨h, hq⟩, if_neg hq]
        dsimp only
        by_cases hb : char s j = chr '\\'
        · rw [if_pos hb, List.tail_drop]
          by_cases hlast : j + 1 < s.length
          · rw [if_pos ⟨hb, hlast⟩]
            exact closeQuote_spec q (by omega) (by omega)
          · -- a backslash at the end of the line
            rw [if_neg fun hc => hlast hc.2, List.drop_eq_nil_of_le (by omega)]
            have hrest := @closeQuote_spec q fuel (j + 1) (by omega) (by omega)
            rw [List.drop_eq_nil_of_le (by omega)] at hrest
            exact hrest.elim (fun h => nomatch h.2) .inr
        · rw [if_neg hb, if_neg fun hc => hb hc.1]
          exact closeQuote_spec q (by omega) (by omega)
    · rw [if_neg fun hc => h hc.1, List.drop_eq_nil_of_le (by omega)]
      exact .inr ⟨by omega, rfl⟩

/-- A string token, closed or not. -/
theorem quoteRest_getD {q : UInt8} (h : i < s.length) :
    (quoteRest q (s.drop (i + 1))).getD [] =
      s.drop (tokenEnd s (closeQuote s q s.length (i + 1)) + 1) := by
  unfold tokenEnd
  rcases @closeQuote_spec s q s.length (i + 1) (by omega) (by omega) with
    ⟨hlt, hr⟩ | ⟨hle, hr⟩
  · rw [if_pos hlt, hr]
    rfl
  · rw [if_neg (by omega), hr, List.drop_eq_nil_of_le (by omega)]
    rfl

theorem closeQuote_ge (q : UInt8) : ∀ {fuel j : Nat}, j ≤ closeQuote s q fuel j
  | 0, j => Nat.le_refl j
  | fuel + 1, j => by
    unfold closeQuote
    split
    · have hrec (k : Nat) := @closeQuote_ge q fuel k
      dsimp only
      split
      · exact Nat.le_trans (by omega) (hrec _)
      · exact Nat.le_trans (by omega) (hrec _)
    · exact Nat.le_refl j

theorem closeComment_spec : ∀ {fuel j : Nat}, s.length ≤ j + fuel →
    j ≤ closeComment s fuel j ∧
      ((closeComment s fuel j + 1 < s.length ∧
          commentRest (s.drop j) = some (s.drop (closeComment s fuel j + 2))) ∨
        (s.length ≤ closeComment s fuel j + 1 ∧ commentRest (s.drop j) = none))
  | 0, j, hf => by
    rw [closeComment, List.drop_eq_nil_of_le (by omega)]
    exact ⟨Nat.le_refl j, .inr ⟨by omega, rfl⟩⟩
  | fuel + 1, j, hf => by
    unfold closeComment
    by_cases h : j + 1 < s.length
    · rw [drop_char (by omega), drop_char h, commentRest]
      by_cases hend : char s j = chr '*' ∧ char s (j + 1) = chr '/'
      · rw [if_neg fun hc => hc.2 hend, if_pos hend]
        exact ⟨Nat.le_refl j, .inl ⟨h, rfl⟩⟩
      · rw [if_pos ⟨h, hend⟩, if_neg hend, ← drop_char h]
        obtain ⟨hle, hrest⟩ := @closeComment_spec fuel (j + 1) (by omega)
        exact ⟨by omega, hrest⟩
    · rw [if_neg fun hc => h hc.1]
      refine ⟨Nat.le_refl j, .inr ⟨by omega, ?_⟩⟩
      by_cases hlast : j < s.length
      · rw [drop_char hlast, List.drop_eq_nil_of_le (by omega), commentRest]
        intro c d l h
        cases h
      · rw [List.drop_eq_nil_of_le (by omega)]
        rfl

/-- A block comment, closed or not. -/
theorem commentRest_getD (h : i + 1 < s.length) :
    (commentRest (s.drop (i + 1)).tail).getD [] = s.drop (commentEnd s i + 1) ∧
      i < commentEnd s i ∧ commentEnd s i < s.length := by
  unfold commentEnd
  dsimp only
  obtain ⟨hge, hspec⟩ := @closeComment_spec s s.length (i + 2) (by omega)
  rw [List.tail_drop]
  rcases hspec with ⟨hlt, hr⟩ | ⟨hle, hr⟩
  · rw [if_pos hlt, hr]
    exact ⟨rfl, by omega, hlt⟩
  · rw [if_neg (by omega), hr, List.drop_eq_nil_of_le (by omega)]
    exact ⟨rfl, by omega, by omega⟩

theorem drop_numberEnd (s : List UInt8) (i : Nat) :
    numberRest (char s i) (s.drop (i + 1)) = s.drop (numberEnd s i) := by
  have hx (c : UInt8) : (c == chr 'x' || c == chr 'X') = true ↔ c = chr 'x' ∨ c = chr 'X' := by
    rw [Bool.or_eq_true, beq_iff_eq, beq_iff_eq]
  have he (c : UInt8) : (c == chr 'e' || c == chr 'E') = true ↔ c = chr 'e' ∨ c = chr 'E' := by
    rw [Bool.or_eq_true, beq_iff_eq, beq_iff_eq]
  have hsign (c : UInt8) : (c == chr '+' || c == chr '-') = true ↔ c = chr '+' ∨ c = chr '-' := by
    rw [Bool.or_eq_true, beq_iff_eq, beq_iff_eq]
  unfold numberRest numberEnd
  dsimp only
  simp only [drop_skipWhile, char_head, eat_drop, hx, he, hsign]
  by_cases h₁ : char s i = chr '0' ∧ i + 1 < s.length ∧
      (char s (i + 1) = chr 'x' ∨ char s (i + 1) = chr 'X')
  · rw [if_pos h₁, if_pos h₁, if_pos h₁.2]
  · rw [if_neg h₁, if_neg h₁]
    generalize skipWhile s (fun c => isdigit c.toNat || c == chr '.') (i + 1) = j
    by_cases h₂ : j < s.length ∧ (char s j = chr 'e' ∨ char s j = chr 'E')
    · rw [if_pos h₂, if_pos h₂, if_pos h₂]
    · rw [if_neg h₂, if_neg h₂]

theorem le_skipWhile (s : List UInt8) (p : UInt8 → Bool) (i : Nat) : i ≤ skipWhile s p i :=
  Nat.le_add_right _ _

theorem numberEnd_bounds (h : i < s.length) : i < numberEnd s i ∧ numberEnd s i ≤ s.length := by
  unfold numberEnd
  dsimp only
  split
  · rename_i hx
    have hge := le_skipWhile s isxdigit (i + 1 + 1)
    exact ⟨by omega, skipWhile_le _ hx.2.1⟩
  · have hge := le_skipWhile s (fun c => isdigit c.toNat || c == chr '.') (i + 1)
    have hle := skipWhile_le (fun c => isdigit c.toNat || c == chr '.') (Nat.succ_le_of_lt h)
    generalize skipWhile s (fun c => isdigit c.toNat || c == chr '.') (i + 1) = j at *
    split
    · split
      · rename_i hsign
        have hge' := le_skipWhile s (fun c => isdigit c.toNat) (j + 1 + 1)
        exact ⟨by omega, skipWhile_le _ hsign.1⟩
      · have hge' := le_skipWhile s (fun c => isdigit c.toNat) (j + 1)
        exact ⟨by omega, skipWhile_le _ (by omega)⟩
    · exact ⟨by omega, hle⟩

theorem look_drop (c : UInt8) : look (s.drop i) = some c ↔
    skipWhile s isblank i < s.length ∧ char s (skipWhile s isblank i) = c := by
  have hhead := char_head (s := s) (i := skipWhile s isblank i) (· == c)
  rw [← drop_skipWhile, Option.any_eq_true] at hhead
  simp only [beq_iff_eq] at hhead
  rw [← hhead]
  constructor
  · exact fun h => ⟨c, h, rfl⟩
  · rintro ⟨d, h, rfl⟩
    exact h

end Positions

/-! ## Painting -/

theorem paint_append (done : List Color) {k n : Nat} (h : done.length ≤ k)
    (hk : k ≤ done.length + n) (cl : Color) :
    paint (done ++ List.replicate n default) done.length ((k : Int) - 1) cl =
      (done ++ List.replicate (k - done.length) cl) ++
        List.replicate (done.length + n - k) default := by
  unfold paint
  apply List.ext_getElem
  · simp only [List.length_mapIdx, List.length_append, List.length_replicate]
    omega
  · intro i h₁ h₂
    rw [List.getElem_mapIdx]
    by_cases hi : i < done.length
    · rw [if_neg (by omega), List.getElem_append_left hi, List.getElem_append_left (by
        rw [List.length_append]
        omega), List.getElem_append_left hi]
    · rw [List.getElem_append_right (by omega), List.getElem_replicate]
      by_cases hik : i < k
      · rw [if_pos (by omega), List.getElem_append_left (by
          rw [List.length_append, List.length_replicate]
          omega), List.getElem_append_right (by omega), List.getElem_replicate]
      · rw [if_neg (by omega), List.getElem_append_right (by
          rw [List.length_append, List.length_replicate]
          omega), List.getElem_replicate]
/-- A token painted behind what is painted. -/
theorem paintToken_append (done : List Color) {k n : Nat} (h : done.length ≤ k)
    (hk : k ≤ done.length + n) (mark : Option Color) :
    paintToken (done ++ List.replicate n default) done.length ((k : Int) - 1) mark =
      (done ++ List.replicate (k - done.length) (mark.getD default)) ++
        List.replicate (done.length + n - k) default := by
  cases mark with
  | none =>
    rw [paintToken, Option.getD_none, List.append_assoc, List.replicate_append_replicate]
    congr 2
    omega
  | some cl => exact paint_append done h hk cl

section Painted

variable {S : Scanner Phase UInt8 Color} {s : List UInt8} {col : List Color} {ph q : Phase}
  {i : Nat}

/-- The columns in front of `i` are painted; from there on the scanner is in the phase `ph`. -/
structure Painted (S : Scanner Phase UInt8 Color) (s : List UInt8) (col : List Color) (ph : Phase)
    (i : Nat) : Prop where
  le : i ≤ s.length
  front : ∃ done : List Color, done.length = i ∧
    col = done ++ List.replicate (s.length - i) default ∧
    (S.marks .start s).map (·.getD default) = done ++ (S.marks ph (s.drop i)).map (·.getD default)

theorem Painted.zero (S : Scanner Phase UInt8 Color) (s : List UInt8) :
    Painted S s (List.replicate s.length default) .start 0 :=
  ⟨Nat.zero_le _, [], rfl, rfl, rfl⟩

theorem Painted.stop (h : Painted S s col ph s.length) :
    col = (S.marks .start s).map (·.getD default) := by
  obtain ⟨done, -, rfl, hmarks⟩ := h.front
  rw [hmarks, List.drop_length, Scanner.marks_nil, Nat.sub_self]
  rfl

/-- At the end the phase does not matter. -/
theorem Painted.last (h : Painted S s col ph s.length) : Painted S s col q s.length := by
  obtain ⟨done, hlen, hcol, hmarks⟩ := h.front
  rw [List.drop_length, Scanner.marks_nil] at hmarks
  exact ⟨h.le, done, hlen, hcol, by rw [List.drop_length, Scanner.marks_nil, hmarks]⟩

/-- One more token. -/
theorem Painted.token (h : Painted S s col ph i) (hlt : i < s.length) {k : Nat}
    {m : Option Color} (ht : S.token ph (char s i) (s.drop (i + 1)) = ⟨q, s.drop k, m⟩)
    (hik : i < k) (hk : k ≤ s.length) :
    Painted S s (paintToken col i ((k : Int) - 1) m) q k := by
  obtain ⟨done, rfl, rfl, hmarks⟩ := h.front
  have hpaint := paintToken_append done (Nat.le_of_lt hik) (n := s.length - done.length) (by omega)
    m
  rw [show done.length + (s.length - done.length) - k = s.length - k by omega] at hpaint
  have htoken : S.marks ph (s.drop done.length) =
      List.replicate (k - done.length) m ++ S.marks q (s.drop k) := by
    rw [drop_char hlt, Scanner.marks_cons, ht]
    dsimp only
    rw [← drop_char hlt, List.length_drop, List.length_drop]
    congr 2
    omega
  refine ⟨hk, _, ?_, hpaint, ?_⟩
  · rw [List.length_append, List.length_replicate]
    omega
  · rw [hmarks, htoken, List.map_append, List.map_replicate, List.append_assoc]

/-- Blanks that the phase passes over. -/
theorem Painted.blanks (hb : ∀ c l, isblank c = true → S.token ph c l = ⟨ph, l, none⟩) :
    ∀ {i : Nat}, Painted S s col ph i → Painted S s col ph (skipWhile s isblank i)
  | i, h => by
    by_cases hlt : i < s.length ∧ isblank (char s i) = true
    · rw [skipWhile_succ hlt.1 hlt.2]
      exact Painted.blanks hb (h.token hlt.1 (hb _ _ hlt.2) (Nat.lt_succ_self i) hlt.1)
    · have hstay : skipWhile s isblank i = i := by
        by_cases hle : i < s.length
        · unfold skipWhile
          rw [drop_char hle, List.takeWhile_cons, if_neg fun hc => hlt ⟨hle, hc⟩]
          rfl
        · exact skipWhile_stays (Nat.not_lt.mp hle)
      rw [hstay]
      exact h
termination_by i => s.length - i
decreasing_by omega

/-- A loop over `s` that paints one token in every round, without leaving its phase. -/
structure Paints (s : List UInt8) (S : Scanner Phase UInt8 Color) (ph : Phase)
    (loop : Nat → Nat → List Color → List Color) : Prop where
  stop : ∀ fuel col, loop fuel s.length col = col
  round : ∀ {i : Nat}, i < s.length → ∃ k mark,
    S.token ph (char s i) (s.drop (i + 1)) = ⟨ph, s.drop k, mark⟩ ∧ i < k ∧ k ≤ s.length ∧
      ∀ fuel col, loop (fuel + 1) i col = loop fuel k (paintToken col i ((k : Int) - 1) mark)

/-- Its colors are the marks of the scanner. -/
theorem Paints.painted {loop : Nat → Nat → List Color → List Color} (h : Paints s S ph loop) :
    ∀ {fuel i : Nat} {col : List Color}, Painted S s col ph i → s.length ≤ i + fuel →
      loop fuel i col = (S.marks .start s).map (·.getD default)
  | fuel, i, col, hp, hf => by
    by_cases hlt : i < s.length
    · obtain ⟨fuel, rfl⟩ : ∃ n, fuel = n + 1 := ⟨fuel - 1, by omega⟩
      obtain ⟨k, mark, htoken, hik, hk, hround⟩ := h.round hlt
      rw [hround]
      exact h.painted (hp.token hlt htoken hik hk) (by omega)
    · obtain rfl : i = s.length := Nat.le_antisymm hp.le (Nat.not_lt.mp hlt)
      rw [h.stop, hp.stop]
termination_by fuel => fuel

end Painted

/-! ## The loops of the source -/

/-- The word at `i`. -/
theorem wordIn_eq {s : List UInt8} {i : Nat} {p : UInt8 → Bool} (h : i < s.length)
    (hp : p (char s i) = true) (list : List String) : wordIn s i (skipWhile s p (i + 1)) list =
      list.any fun w => str w == char s i :: (s.drop (i + 1)).takeWhile p := by
  have hword : (s.drop i).take (skipWhile s p (i + 1) - i) =
      char s i :: (s.drop (i + 1)).takeWhile p := by
    rw [← skipWhile_succ h hp, take_skipWhile, drop_char h, List.takeWhile_cons, hp, if_pos rfl]
  rw [wordIn, hword]

/-- A token up to `j`. -/
theorem paintToken_last (col : List Color) (i j : Nat) (cl : Color) :
    paintToken col i (((j + 1 : Nat) : Int) - 1) (some cl) = paint col i j cl := by
  rw [paintToken, Nat.cast_add, Nat.cast_one, Int.add_sub_cancel]

theorem json_paints (s : List UInt8) (ph : Phase) : Paints s jsonScanner ph (json s) where
  stop fuel col := by
    cases fuel with
    | zero => rfl
    | succ fuel => rw [json, if_neg (Nat.lt_irrefl _)]
  round {i} h := by
    unfold jsonScanner
    dsimp only
    rw [jsonToken]
    simp only [json, if_pos h]
    by_cases hq : char s i = chr '"'
    · -- a string or a key
      simp only [if_pos hq]
      have hclose := @closeQuote_spec s (chr '"') s.length (i + 1) (by omega) (by omega)
      have hge := @closeQuote_ge s (chr '"') s.length (i + 1)
      rw [hq]
      unfold tokenEnd
      generalize closeQuote s (chr '"') s.length (i + 1) = j at *
      rcases hclose with ⟨hlt, hr⟩ | ⟨hle, hr⟩
      · simp only [if_pos hlt, hr, look_drop]
        exact ⟨j + 1, _, rfl, by omega, by omega, fun fuel col => by rw [paintToken_last]⟩
      · have hk : ¬(skipWhile s isblank s.length < s.length ∧
            char s (skipWhile s isblank s.length) = chr ':') := fun hc =>
          Nat.lt_irrefl _ (Nat.lt_of_le_of_lt (le_skipWhile s isblank s.length) hc.1)
        simp only [if_neg (Nat.not_lt.mpr hle), hr, if_neg hk]
        refine ⟨s.length, some string, ?_, h, Nat.le_refl _, fun fuel col => ?_⟩
        · rw [List.drop_length]
        · rw [show s.length - 1 + 1 = s.length by omega, paintToken]
          congr
          omega
    · simp only [if_neg hq]
      by_cases hbrace : (str "[]" ++ [123, 125]).contains (char s i) = true
      · simp only [if_pos hbrace]
        exact ⟨i + 1, some brace, rfl, by omega, by omega, fun fuel col => by
          rw [paintToken_last]⟩
      · simp only [if_neg hbrace]
        have hnum : (isdigitAt s i = true ∨ (char s i = chr '-' ∧ i + 1 < s.length ∧
            isdigitAt s (i + 1) = true)) ↔ (isdigit (char s i).toNat = true ∨
              (char s i = chr '-' ∧ (s.drop (i + 1)).head?.any (fun c => isdigit c.toNat) = true)) := by
          rw [char_head]
          rfl
        simp only [hnum]
        by_cases hn : isdigit (char s i).toNat = true ∨ (char s i = chr '-' ∧
            (s.drop (i + 1)).head?.any (fun c => isdigit c.toNat) = true)
        · simp only [if_pos hn, drop_skipWhile]
          have hle := le_skipWhile s (fun c => isdigit c.toNat || (str ".eE+-").contains c) (i + 1)
          exact ⟨_, some number, rfl, by omega, skipWhile_le _ h, fun fuel col => rfl⟩
        · simp only [if_neg hn]
          by_cases ha : isalpha (char s i) = true
          · simp only [if_pos ha, drop_skipWhile]
            have hle := le_skipWhile s isalpha (i + 1)
            refine ⟨_, _, rfl, by omega, skipWhile_le _ h, fun fuel col => ?_⟩
            rw [skipWhile_succ h ha, wordIn_eq h ha]
            split
            · rfl
            · rfl
          · simp only [if_neg ha]
            exact ⟨i + 1, none, rfl, by omega, by omega, fun fuel col => rfl⟩

theorem isblank_cases {c : UInt8} (h : isblank c = true) : c = 32 ∨ c = 9 := by
  rwa [isblank, Bool.or_eq_true, beq_iff_eq, beq_iff_eq] at h

/-- `color_js` among the scanners. -/
def jsLexis : Lexis where
  quote c := c == chr '"' || c == chr '\'' || c == 96
  suffix _ := false
  first c := isalpha c || c == chr '_' || c == chr '$'
  next c := isalnum c || c == chr '_' || c == chr '$'
  word w :=
    if jsLiterals.any fun v => str v == w then some literal
    else if jsKeywords.any fun v => str v == w then some key
    else none
  next_of_first c h := by
    rw [Bool.or_eq_true, Bool.or_eq_true] at h ⊢
    exact h.imp_left (Or.imp_left fun h => by rw [isalnum, h, Bool.true_or])
  notBlank c h := by rcases isblank_cases h with rfl | rfl <;> decide

/-- `color_c` among the scanners. -/
def cLexis : Lexis where
  quote c := c == chr '"' || c == chr '\''
  suffix c := strchr (str "uUlLfF") c.toNat
  first c := isalpha c || c == chr '_'
  next c := isalnum c || c == chr '_'
  word w :=
    if cLiterals.any fun v => str v == w then some literal
    else if cKeywords.any fun v => str v == w then some key
    else if cTypes.any fun v => str v == w then some path
    else none
  next_of_first c h := by
    rw [Bool.or_eq_true] at h ⊢
    exact h.imp_left fun h => by rw [isalnum, h, Bool.true_or]
  notBlank c h := by rcases isblank_cases h with rfl | rfl <;> decide

/-- One round of the loops of `color_js` and `color_c` from `i` on. -/
def codeRound (L : Lexis) (s : List UInt8) (i : Nat) : Nat × Option Color :=
  let c := char s i
  if c = chr '/' ∧ i + 1 < s.length ∧ char s (i + 1) = chr '/' then (s.length, some comment)
  else if c = chr '/' ∧ i + 1 < s.length ∧ char s (i + 1) = chr '*' then
    (commentEnd s i + 1, some comment)
  else if L.quote c then (tokenEnd s (closeQuote s c s.length (i + 1)) + 1, some string)
  else if isdigitAt s i then (skipWhile s L.suffix (numberEnd s i), some number)
  else if L.first c then
    let j := skipWhile s L.next i
    (j, (L.word ((s.drop i).take (j - i))).or (callColor s j))
  else if isBrace c then (i + 1, some brace)
  else if isOper c then (i + 1, some oper)
  else (i + 1, none)

theorem callColor_eq (s : List UInt8) (j : Nat) : callColor s j =
    if look (s.drop j) = some (chr '(') then some cmd else none := by
  simp only [look_drop]
  rfl

theorem codeToken_drop (L : Lexis) {s : List UInt8} {i : Nat} (h : i < s.length) :
    codeToken L (s.drop i) = (s.drop (codeRound L s i).1, (codeRound L s i).2) ∧
      i < (codeRound L s i).1 ∧ (codeRound L s i).1 ≤ s.length := by
  have hnext (d : UInt8) : (s.drop (i + 1)).head?.any (· == d) = true ↔
      i + 1 < s.length ∧ char s (i + 1) = d := by
    rw [char_head, beq_iff_eq]
  have hdigit : isdigit (char s i).toNat = isdigitAt s i := rfl
  rw [drop_char h, codeToken]
  unfold codeRound
  simp only [hnext, hdigit]
  by_cases hline : char s i = chr '/' ∧ i + 1 < s.length ∧ char s (i + 1) = chr '/'
  · simp only [if_pos hline, List.drop_length]
    exact ⟨trivial, h, Nat.le_refl _⟩
  simp only [if_neg hline]
  by_cases hblock : char s i = chr '/' ∧ i + 1 < s.length ∧ char s (i + 1) = chr '*'
  · obtain ⟨heq, hlt, hle⟩ := commentRest_getD hblock.2.1
    simp only [if_pos hblock, heq]
    exact ⟨trivial, by omega, hle⟩
  simp only [if_neg hblock]
  by_cases hq : L.quote (char s i) = true
  · have hge := @closeQuote_ge s (char s i) s.length (i + 1)
    simp only [if_pos hq, quoteRest_getD h]
    unfold tokenEnd
    split
    · exact ⟨trivial, by omega, by omega⟩
    · exact ⟨trivial, by omega, by omega⟩
  simp only [if_neg hq]
  by_cases hn : isdigitAt s i = true
  · obtain ⟨hlt, hle⟩ := numberEnd_bounds h
    have hge := le_skipWhile s L.suffix (numberEnd s i)
    simp only [if_pos hn, drop_numberEnd, drop_skipWhile]
    exact ⟨trivial, by omega, skipWhile_le _ hle⟩
  simp only [if_neg hn]
  by_cases hf : L.first (char s i) = true
  · have hp := L.next_of_first _ hf
    have hge := le_skipWhile s L.next (i + 1)
    have hle := skipWhile_le L.next h
    rw [← skipWhile_succ h hp] at hge hle
    have hword : char s i :: (s.drop (i + 1)).takeWhile L.next = (s.drop i).takeWhile L.next := by
      rw [drop_char h, List.takeWhile_cons, hp, if_pos rfl]
    simp only [if_pos hf, drop_skipWhile, hword, ← callColor_eq, ← skipWhile_succ h hp,
      take_skipWhile]
    exact ⟨trivial, by omega, hle⟩
  simp only [if_neg hf]
  split
  · exact ⟨rfl, by omega, h⟩
  · split
    · exact ⟨rfl, by omega, h⟩
    · exact ⟨rfl, by omega, h⟩

/-- A loop that goes round so. -/
theorem paints_code {S : Scanner Phase UInt8 Color} {ph : Phase} {L : Lexis} {s : List UInt8}
    {loop : Nat → Nat → List Color → List Color}
    (htoken : ∀ c l, S.token ph c l = ⟨ph, (codeToken L (c :: l)).1, (codeToken L (c :: l)).2⟩)
    (stop : ∀ fuel col, loop fuel s.length col = col)
    (round : ∀ {i : Nat}, i < s.length → ∀ fuel col, loop (fuel + 1) i col =
      loop fuel (codeRound L s i).1
        (paintToken col i (((codeRound L s i).1 : Int) - 1) (codeRound L s i).2)) :
    Paints s S ph loop where
  stop := stop
  round {i} h := by
    obtain ⟨hcode, hlt, hle⟩ := codeToken_drop L h
    refine ⟨_, _, ?_, hlt, hle, round h⟩
    rw [htoken, ← drop_char h, hcode]

theorem skipWhile_none (s : List UInt8) (i : Nat) : skipWhile s (fun _ => false) i = i := by
  unfold skipWhile
  cases s.drop i with
  | nil => rfl
  | cons c l => rfl

theorem js_paints (s : List UInt8) (ph : Phase) : Paints s (codeScanner jsLexis) ph (js s) := by
  have hstop (fuel : Nat) (col : List Color) : js s fuel s.length col = col := by
    cases fuel with
    | zero => rfl
    | succ fuel => rw [js, if_neg (Nat.lt_irrefl _)]
  refine paints_code (fun c l => rfl) hstop fun {i} h fuel col => ?_
  have hquote (c : UInt8) : jsLexis.quote c = true ↔ c = chr '"' ∨ c = chr '\'' ∨ c = 96 := by
    simp only [jsLexis, Bool.or_eq_true, beq_iff_eq, or_assoc]
  have hfirst (c : UInt8) : jsLexis.first c = true ↔ isalpha c = true ∨ c = chr '_' ∨ c = chr '$' := by
    simp only [jsLexis, Bool.or_eq_true, beq_iff_eq, or_assoc]
  have hword (w : List UInt8) (call : Option Color) : (jsLexis.word w).or call =
      if jsLiterals.any fun v => str v == w then some literal
      else if jsKeywords.any fun v => str v == w then some key
      else call := by
    unfold jsLexis
    dsimp only
    split
    · rfl
    split
    · rfl
    · rfl
  unfold codeRound
  simp only [js, if_pos h, hquote, hfirst]
  split
  · rw [hstop]
    rfl
  split
  · rw [paintToken_last]
  split
  · rw [paintToken_last]
  split
  · rw [show jsLexis.suffix = fun _ => false from rfl, skipWhile_none]
    rfl
  split
  · rw [hword]
    rfl
  split
  · rw [paintToken_last]
  split
  · rw [paintToken_last]
  · rfl

theorem cTokens_paints {S : Scanner Phase UInt8 Color} {ph : Phase} (s : List UInt8)
    (htoken : ∀ c l, S.token ph c l =
      ⟨ph, (codeToken cLexis (c :: l)).1, (codeToken cLexis (c :: l)).2⟩) :
    Paints s S ph (cTokens s) := by
  have hstop (fuel : Nat) (col : List Color) : cTokens s fuel s.length col = col := by
    cases fuel with
    | zero => rfl
    | succ fuel => rw [cTokens, if_neg (Nat.lt_irrefl _)]
  refine paints_code htoken hstop fun {i} h fuel col => ?_
  have hquote (c : UInt8) : cLexis.quote c = true ↔ c = chr '"' ∨ c = chr '\'' := by
    simp only [cLexis, Bool.or_eq_true, beq_iff_eq]
  have hfirst (c : UInt8) : cLexis.first c = true ↔ isalpha c = true ∨ c = chr '_' := by
    simp only [cLexis, Bool.or_eq_true, beq_iff_eq]
  have hword (w : List UInt8) (call : Option Color) : (cLexis.word w).or call =
      if cLiterals.any fun v => str v == w then some literal
      else if cKeywords.any fun v => str v == w then some key
      else if cTypes.any fun v => str v == w then some path
      else call := by
    unfold cLexis
    dsimp only
    split
    · rfl
    split
    · rfl
    split
    · rfl
    · rfl
  unfold codeRound
  simp only [cTokens, if_pos h, hquote, hfirst]
  split
  · rw [hstop]
    rfl
  split
  · rw [paintToken_last]
  split
  · rw [paintToken_last]
  split
  · rfl
  split
  · rw [hword]
    rfl
  split
  · rw [paintToken_last]
  split
  · rw [paintToken_last]
  · rfl

end Evim.Color
