import Mathlib.Data.List.DropRight
import Ewokos.Evim.Tokens

/-!
# evim: lines as tokens

The lines whose first token counts: `color_rd`, `color_conf` and the preprocessor directives of
`color_c` in `bin/evim/vim_syntax.c`.

* `cToken`, `rdToken`, `confToken` — one token, in each phase of a line.
* `trimBlanks_eq` — the loop that goes back over white space.
* `lineScanner` — the scanner of a mode.

Main result: `lineColors_marks`.
-/

set_option autoImplicit false

namespace Evim

open Scan
open CString hiding strchr

namespace Color

/-! ## Tokens -/

/-- What is left behind the first `q`. -/
def closeRest (q : UInt8) : List UInt8 → Option (List UInt8)
  | [] => none
  | c :: l => if c = q then some l else closeRest q l

/-- A run of chars, without the blanks at its end. -/
def trimmed (p : UInt8 → Bool) (l : List UInt8) : List UInt8 := (l.takeWhile p).rdropWhile isblank

/-- What is left behind it. -/
def trimRest (p : UInt8 → Bool) (l : List UInt8) : List UInt8 := l.drop (trimmed p l).length

/-- One token of `color_c`; a directive begins a line. -/
def cToken : Phase → UInt8 → List UInt8 → Token Phase UInt8 Color
  | .start, c, l =>
    if isblank c then ⟨.start, l, none⟩
    else if c = chr '#' then
      ⟨if l.takeWhile isalpha = str "include" ∧ look (l.dropWhile isalpha) = some (chr '<') then .path
        else .tokens, l.dropWhile isalpha, some cmd⟩
    else ⟨.tokens, (codeToken cLexis (c :: l)).1, (codeToken cLexis (c :: l)).2⟩
  | .path, c, l =>
    if isblank c then ⟨.path, l, none⟩
    else ⟨.tokens, (closeRest (chr '>') l).getD [], some string⟩
  | _, c, l => ⟨.tokens, (codeToken cLexis (c :: l)).1, (codeToken cLexis (c :: l)).2⟩

/-- The command of a `.rd` line. -/
def rdCommand (c : UInt8) (l : List UInt8) : Token Phase UInt8 Color :=
  if isblank c then ⟨.command, l, none⟩
  else ⟨.args, l.dropWhile (!isblank ·), some cmd⟩

/-- The color of a plain argument. -/
def rdPlain (c : UInt8) (l : List UInt8) : Color :=
  if c = chr '/' ∨ (c = chr '.' ∧ l.head?.any (· == chr '/')) then path
  else if c = chr '$' then literal
  else if isdigit c.toNat then number
  else default

/-- One round of the argument loop of `color_rd`. -/
def rdArg (c : UInt8) (l : List UInt8) : Token Phase UInt8 Color :=
  if isblank c then ⟨.args, l, none⟩
  else if (str "|><&").contains c then ⟨.args, l, some oper⟩
  else if c = chr '"' then ⟨.args, (closeRest c l).getD [], some string⟩
  else ⟨.args, l.dropWhile (!endsToken ·), some (rdPlain c l)⟩

/-- One token of `color_rd`. -/
def rdToken : Phase → UInt8 → List UInt8 → Token Phase UInt8 Color
  | .start, c, l =>
    if c = chr '#' then ⟨.args, [], some comment⟩
    else if c = chr '@' then ⟨.command, l, some oper⟩
    else rdCommand c l
  | .command, c, l => rdCommand c l
  | _, c, l => rdArg c l

/-- The chars of a `.conf` key. -/
def keyChar (c : UInt8) : Bool := c != chr '=' && c != chr '#'

/-- The color of a `.conf` value. -/
def confValueColor (value : List UInt8) : Color :=
  if value.all fun c => isdigit c.toNat || (str ".-+").contains c then number else string

/-- One token of `color_conf`. -/
def confToken : Phase → UInt8 → List UInt8 → Token Phase UInt8 Color
  | .start, c, l =>
    if isblank c then ⟨.start, l, none⟩
    else if c = chr '#' then ⟨.valueEnd, [], some comment⟩
    else if c = chr '=' then ⟨.value, l, some oper⟩
    else ⟨.keyEnd, trimRest keyChar l, some key⟩
  | .keyEnd, c, l =>
    if c = chr '=' then ⟨.value, l, some oper⟩
    else if c = chr '#' then ⟨.valueEnd, [], some comment⟩
    else ⟨.keyEnd, l, none⟩
  | .value, c, l =>
    if isblank c then ⟨.value, l, none⟩
    else if c = chr '#' then ⟨.valueEnd, [], some comment⟩
    else ⟨.valueEnd, trimRest (· != chr '#') l,
      some (confValueColor (c :: trimmed (· != chr '#') l))⟩
  | _, c, l =>
    if c = chr '#' then ⟨.valueEnd, [], some comment⟩ else ⟨.valueEnd, l, none⟩

/-! ## What is left is behind the token -/

theorem closeRest_suffix (q : UInt8) : ∀ {l r : List UInt8}, closeRest q l = some r → r <:+ l
  | [], _, h => nomatch h
  | c :: l, r, h => by
    unfold closeRest at h
    split at h
    · cases h
      exact List.suffix_cons c _
    · exact (closeRest_suffix q h).trans (List.suffix_cons c l)

theorem trimRest_suffix (p : UInt8 → Bool) (l : List UInt8) : trimRest p l <:+ l :=
  List.drop_suffix _ l

def cScanner : Scanner Phase UInt8 Color where
  token := cToken
  advances ph c l := by
    cases ph <;> dsimp only [cToken]
    all_goals repeat' split
    all_goals first
      | exact List.suffix_refl l
      | exact List.dropWhile_suffix _
      | exact codeToken_suffix cLexis c l
      | exact getD_suffix (fun r => closeRest_suffix _) (List.suffix_refl l)

def rdScanner : Scanner Phase UInt8 Color where
  token := rdToken
  advances ph c l := by
    cases ph <;> dsimp only [rdToken, rdCommand, rdArg]
    all_goals repeat' split
    all_goals first
      | exact List.suffix_refl l
      | exact List.nil_suffix
      | exact List.dropWhile_suffix _
      | exact getD_suffix (fun r => closeRest_suffix _) (List.suffix_refl l)

def confScanner : Scanner Phase UInt8 Color where
  token := confToken
  advances ph c l := by
    cases ph <;> dsimp only [confToken]
    all_goals repeat' split
    all_goals first
      | exact List.suffix_refl l
      | exact List.nil_suffix
      | exact trimRest_suffix _ l

/-! ## `.rd` lines -/

section Positions

variable {s : List UInt8} {i : Nat}

/-- Where a run of blanks stops. -/
theorem blank_skipWhile (s : List UInt8) (i : Nat) (h : skipWhile s isblank i < s.length) :
    isblank (char s (skipWhile s isblank i)) = false := by
  have hhead := List.head?_dropWhile_not isblank (s.drop i)
  rw [drop_skipWhile, drop_char h] at hhead
  simpa using hhead

theorem closeRest_tail (q : UInt8) : ∀ l : List UInt8,
    (closeRest q l).getD [] = (l.dropWhile (· != q)).tail
  | [] => rfl
  | c :: l => by
    rw [closeRest, List.dropWhile_cons]
    by_cases hc : c = q
    · rw [if_pos hc, if_neg (by rw [hc, bne_self_eq_false]; exact Bool.false_ne_true)]
      rfl
    · rw [if_neg hc, if_pos (bne_iff_ne.mpr hc)]
      exact closeRest_tail q l

/-- A token up to `q`, or to the end of the line. -/
theorem closeRest_getD (q : UInt8) (h : i < s.length) :
    (closeRest q (s.drop (i + 1))).getD [] =
        s.drop (tokenEnd s (skipWhile s (· != q) (i + 1)) + 1) ∧
      i < tokenEnd s (skipWhile s (· != q) (i + 1)) + 1 ∧
      tokenEnd s (skipWhile s (· != q) (i + 1)) < s.length := by
  have hge := le_skipWhile s (· != q) (i + 1)
  have hle := skipWhile_le (· != q) (Nat.succ_le_of_lt h)
  rw [closeRest_tail, drop_skipWhile, List.tail_drop]
  generalize skipWhile s (· != q) (i + 1) = k at *
  unfold tokenEnd
  split
  · exact ⟨rfl, by omega, by omega⟩
  · refine ⟨?_, by omega, by omega⟩
    rw [List.drop_eq_nil_of_le (by omega), List.drop_eq_nil_of_le (by omega)]

end Positions

theorem rdArgs_paints (s : List UInt8) : Paints s rdScanner .args (rdArgs s) where
  stop fuel col := by
    cases fuel with
    | zero => rfl
    | succ fuel => rw [rdArgs, if_neg (Nat.lt_irrefl _)]
  round {i} h := by
    change ∃ k mark, rdArg (char s i) (s.drop (i + 1)) = ⟨.args, s.drop k, mark⟩ ∧ _
    unfold rdArg rdPlain
    simp only [rdArgs, if_pos h]
    by_cases hb : isblank (char s i) = true
    · simp only [if_pos hb]
      exact ⟨i + 1, none, rfl, by omega, by omega, fun fuel col => rfl⟩
    simp only [if_neg hb]
    by_cases ho : (str "|><&").contains (char s i) = true
    · simp only [if_pos ho]
      exact ⟨i + 1, some oper, rfl, by omega, by omega, fun fuel col => by
        rw [paintToken_last]⟩
    simp only [if_neg ho]
    by_cases hq : char s i = chr '"'
    · obtain ⟨hrest, hlt, hle⟩ := closeRest_getD (chr '"') h
      simp only [if_pos hq]
      rw [hq]
      exact ⟨_, some string, by rw [hrest], hlt, hle, fun fuel col => by rw [paintToken_last]⟩
    · have hp : (!endsToken (char s i)) = true := by
        rw [endsToken, Bool.not_eq_true', Bool.or_eq_false_iff]
        exact ⟨Bool.eq_false_iff.mpr hb, Bool.eq_false_iff.mpr ho⟩
      have hslash : (s.drop (i + 1)).head?.any (· == chr '/') = true ↔
          i + 1 < s.length ∧ char s (i + 1) = chr '/' := by
        rw [char_head, beq_iff_eq]
      have hge := le_skipWhile s (!endsToken ·) (i + 1)
      simp only [if_neg hq, hslash]
      rw [drop_skipWhile, ← skipWhile_succ h hp]
      rw [← skipWhile_succ h hp] at hge
      exact ⟨_, _, rfl, by omega, skipWhile_le _ (Nat.le_of_lt h), fun fuel col => rfl⟩

/-- Nothing but a comment is left. -/
theorem paint_rest {S : Scanner Phase UInt8 Color} {s : List UInt8} {col : List Color}
    {ph q : Phase} {i : Nat} (hp : Painted S s col ph i) (h : i < s.length)
    (ht : S.token ph (char s i) (s.drop (i + 1)) = ⟨q, [], some comment⟩) :
    paint col i (s.length - 1) comment = (S.marks .start s).map (·.getD default) := by
  have hend := hp.token (k := s.length) h (by rw [ht, List.drop_length]) h (Nat.le_refl _)
  exact hend.stop

/-- The command and its arguments. -/
theorem rd_command {s : List UInt8} {col : List Color} {i : Nat}
    (hp : Painted rdScanner s col .command i) :
    rdArgs s s.length (skipWhile s (!isblank ·) (skipWhile s isblank i))
        (paint col (skipWhile s isblank i)
          ((skipWhile s (!isblank ·) (skipWhile s isblank i) : Nat) - 1) cmd) =
      (rdScanner.marks .start s).map (·.getD default) := by
  have hblanks := hp.blanks fun c l hc => by
    change rdCommand c l = _
    rw [rdCommand, if_pos hc]
  have hstop := blank_skipWhile s i
  generalize skipWhile s isblank i = k at *
  by_cases hk : k < s.length
  · have hge := le_skipWhile s (!isblank ·) (k + 1)
    have hword := skipWhile_succ (p := (!isblank ·)) hk (by rw [hstop hk]; rfl)
    rw [← hword] at hge
    have htoken := hblanks.token (k := skipWhile s (!isblank ·) k) (q := .args) (m := some cmd)
      hk (by
        change rdCommand _ _ = _
        rw [rdCommand, if_neg (Bool.eq_false_iff.mp (hstop hk)), drop_skipWhile, hword])
      (by omega) (skipWhile_le _ (Nat.le_of_lt hk))
    exact (rdArgs_paints s).painted htoken (by omega)
  · obtain rfl : k = s.length := Nat.le_antisymm hblanks.le (Nat.not_lt.mp hk)
    rw [skipWhile_stays (Nat.le_refl _), (rdArgs_paints s).stop, paint_empty _ (by omega)]
    exact hblanks.stop

theorem rd_marks (s : List UInt8) : rd s (List.replicate s.length default) =
    (rdScanner.marks .start s).map (·.getD default) := by
  have hstart := Painted.zero rdScanner s
  unfold rd
  dsimp only
  by_cases hc : 0 < s.length ∧ char s 0 = chr '#'
  · rw [if_pos hc]
    refine paint_rest hstart hc.1 (q := .args) ?_
    change rdToken .start _ _ = _
    rw [rdToken, if_pos hc.2]
  rw [if_neg hc]
  by_cases hat : 0 < s.length ∧ char s 0 = chr '@'
  · rw [if_pos hat]
    have htoken := hstart.token (k := 1) (q := .command) (m := some oper) hat.1 (by
      change rdToken .start _ _ = _
      rw [rdToken, if_neg (by rw [hat.2]; decide), if_pos hat.2]) Nat.one_pos hat.1
    exact rd_command htoken
  · rw [if_neg hat]
    -- the line begins with the command
    have hsame : rdScanner.marks .start s = rdScanner.marks .command s := by
      cases s with
      | nil => rw [Scanner.marks_nil, Scanner.marks_nil]
      | cons c l =>
        have htoken : rdScanner.token .start c l = rdScanner.token .command c l := by
          change rdToken .start c l = rdToken .command c l
          have hc' : c ≠ chr '#' := fun h => hc ⟨Nat.succ_pos _, h⟩
          have hat' : c ≠ chr '@' := fun h => hat ⟨Nat.succ_pos _, h⟩
          rw [rdToken, rdToken, if_neg hc', if_neg hat']
        rw [Scanner.marks_cons, Scanner.marks_cons, htoken]
    exact rd_command ⟨Nat.zero_le _, [], rfl, rfl, by rw [hsame]; rfl⟩

/-! ## `.conf` lines -/

/-- Going back over white space stops behind what is not blank. -/
theorem trimBlanks_eq (s : List UInt8) (i : Nat) : ∀ {n f : Nat}, i + n ≤ s.length → n ≤ f →
    trimBlanks s i f ((i + n : Nat) - 1) =
      i + (((s.drop i).take n).rdropWhile isblank).length - 1
  | 0, fuel, _, _ => by
    rw [Nat.add_zero, trimBlanks_stays, List.take_zero]
    simp
  | n + 1, 0, _, hf => by omega
  | n + 1, fuel + 1, hle, hf => by
    have htake : (s.drop i).take (n + 1) = (s.drop i).take n ++ [char s (i + n)] := by
      rw [List.take_add_one, List.getElem?_drop, List.getElem?_eq_getElem (by omega), char,
        List.getD_eq_getElem _ _ (by omega)]
      rfl
    have hat : (((i + (n + 1) : Nat) : Int) - 1).toNat = i + n := by omega
    unfold trimBlanks
    rw [htake, List.rdropWhile_concat, hat]
    by_cases hb : isblank (char s (i + n)) = true
    · rw [if_pos ⟨by omega, hb⟩, if_pos hb,
        show (((i + (n + 1) : Nat) : Int) - 1 - 1) = ((i + n : Nat) : Int) - 1 by omega]
      exact trimBlanks_eq s i (by omega) (by omega)
    · rw [if_neg fun h => hb h.2, if_neg hb, List.length_append, List.length_take, List.length_drop]
      simp only [List.length_cons, List.length_nil]
      omega

theorem rdropWhile_cons {c : UInt8} (hc : isblank c = false) (l : List UInt8) :
    (c :: l).rdropWhile isblank = c :: l.rdropWhile isblank := by
  induction l using List.reverseRecOn with
  | nil => rw [List.rdropWhile_singleton, hc, List.rdropWhile_nil, if_neg Bool.false_ne_true]
  | append_singleton l d ih =>
    rw [← List.cons_append, List.rdropWhile_concat, List.rdropWhile_concat, ih]
    split
    · rfl
    · rfl

/-- A run of chars from `i` on, that begins with one that is not blank: its trimmed end, and the
blanks behind that. -/
theorem trim_run {s : List UInt8} {i : Nat} {p : UInt8 → Bool} (h : i < s.length)
    (hp : p (char s i) = true) (hb : isblank (char s i) = false)
    (hstop : ∀ {j : Nat}, j < s.length → p (char s j) = false → isblank (char s j) = false) :
    ∃ k : Nat, trimBlanks s i s.length ((skipWhile s p i : Nat) - 1) = (k : Int) - 1 ∧ i < k ∧
      k ≤ s.length ∧ trimRest p (s.drop (i + 1)) = s.drop k ∧
      char s i :: trimmed p (s.drop (i + 1)) = (s.drop i).take (k - i) ∧
      skipWhile s isblank k = skipWhile s p i := by
  have hge := le_skipWhile s p i
  have hle := skipWhile_le p (Nat.le_of_lt h)
  have hrun : (s.drop i).take (skipWhile s p i - i) =
      char s i :: (s.drop (i + 1)).takeWhile p := by
    rw [take_skipWhile, drop_char h, List.takeWhile_cons, if_pos hp]
  have hcore : ((s.drop i).take (skipWhile s p i - i)).rdropWhile isblank =
      char s i :: trimmed p (s.drop (i + 1)) := by
    rw [hrun, rdropWhile_cons hb]
    rfl
  have hprefix : char s i :: trimmed p (s.drop (i + 1)) <+: s.drop i := by
    rw [← hcore]
    exact (List.rdropWhile_prefix _ _).trans (List.take_prefix _ _)
  have hlen := hprefix.length_le
  rw [List.length_cons, List.length_drop] at hlen
  refine ⟨i + 1 + (trimmed p (s.drop (i + 1))).length, ?_, by omega, by omega, ?_, ?_, ?_⟩
  · have htrim := trimBlanks_eq s i (n := skipWhile s p i - i) (f := s.length) (by omega)
      (by omega)
    rw [hcore, List.length_cons, show i + (skipWhile s p i - i) = skipWhile s p i by omega] at htrim
    rw [htrim]
    omega
  · rw [trimRest, List.drop_drop]
  · rw [List.prefix_iff_eq_take.mp hprefix, List.length_cons]
    congr 1
    omega
  · -- the blanks of the run, and none behind it
    have hsplit : s.drop (i + 1) = trimmed p (s.drop (i + 1)) ++
        (((s.drop (i + 1)).takeWhile p).rtakeWhile isblank ++ s.drop (skipWhile s p i)) := by
      rw [← List.append_assoc, trimmed, List.rdropWhile_append_rtakeWhile, skipWhile_succ h hp,
        ← drop_skipWhile, List.takeWhile_append_dropWhile]
    have hdrop : s.drop (i + 1 + (trimmed p (s.drop (i + 1))).length) =
        ((s.drop (i + 1)).takeWhile p).rtakeWhile isblank ++ s.drop (skipWhile s p i) := by
      have hleft := congrArg (List.drop (trimmed p (s.drop (i + 1))).length) hsplit
      rwa [List.drop_left, List.drop_drop] at hleft
    have hnone : (s.drop (skipWhile s p i)).takeWhile isblank = [] := by
      by_cases hj : skipWhile s p i < s.length
      · have hhead := List.head?_dropWhile_not p (s.drop i)
        rw [drop_skipWhile, drop_char hj] at hhead
        rw [drop_char hj, List.takeWhile_cons, hstop hj (by simpa using hhead),
          if_neg Bool.false_ne_true]
      · rw [List.drop_eq_nil_of_le (Nat.not_lt.mp hj), List.takeWhile_nil]
    have hlength := congrArg List.length hdrop
    rw [List.length_append, List.length_drop, List.length_drop] at hlength
    rw [skipWhile, hdrop, List.takeWhile_append_of_pos fun a ha => List.mem_rtakeWhile_imp ha, hnone,
      List.append_nil]
    omega

theorem conf_token {s : List UInt8} {col : List Color} {ph : Phase} {i : Nat}
    (hp : Painted confScanner s col ph i) (h : i < s.length) (hc : char s i = chr '#') :
    paint col i (s.length - 1) comment = (confScanner.marks .start s).map (·.getD default) := by
  refine paint_rest hp h (q := .valueEnd) ?_
  change confToken ph _ _ = _
  rw [hc]
  cases ph <;> rfl

/-- A run that may be empty. -/
theorem skipWhile_none_of {s : List UInt8} {p : UInt8 → Bool} {i : Nat} (h : i < s.length)
    (hp : p (char s i) = false) : skipWhile s p i = i := by
  unfold skipWhile
  rw [drop_char h, List.takeWhile_cons, hp, if_neg Bool.false_ne_true]
  rfl

/-- A comment, or the end of the line. -/
theorem conf_rest {s : List UInt8} {col : List Color} {ph : Phase} {i : Nat}
    (hp : Painted confScanner s col ph i) (hend : i < s.length → char s i = chr '#') :
    (if i < s.length ∧ char s i = chr '#' then paint col i (s.length - 1) comment else col) =
      (confScanner.marks .start s).map (·.getD default) := by
  by_cases hi : i < s.length
  · rw [if_pos ⟨hi, hend hi⟩]
    exact conf_token hp hi (hend hi)
  · rw [if_neg fun h => hi h.1]
    obtain rfl : i = s.length := Nat.le_antisymm hp.le (Nat.not_lt.mp hi)
    exact hp.stop

/-- Where the value ends. -/
theorem hash_of_stop {s : List UInt8} {i : Nat} (h : skipWhile s (· != chr '#') i < s.length) :
    char s (skipWhile s (· != chr '#') i) = chr '#' := by
  have hhead := List.head?_dropWhile_not (· != chr '#') (s.drop i)
  rw [drop_skipWhile, drop_char h] at hhead
  simpa using hhead

/-- The value of a line and the comment behind it. -/
theorem conf_value {s : List UInt8} {col : List Color} {i : Nat}
    (hp : Painted confScanner s col .value i) :
    confValue s (skipWhile s isblank i) col =
      (confScanner.marks .start s).map (·.getD default) := by
  have hblanks := hp.blanks fun c l hc => by
    change confToken .value c l = _
    rw [confToken, if_pos hc]
  have hstop := blank_skipWhile s i
  generalize skipWhile s isblank i = k at *
  have hhash := hash_of_stop (s := s) (i := k)
  unfold confValue
  dsimp only
  by_cases hempty : skipWhile s (· != chr '#') k = k
  · -- no value
    rw [hempty] at hhash
    rw [hempty, trimBlanks_stays, if_neg (Int.not_le.mpr (Int.sub_one_lt_of_le (Int.le_refl _)))]
    exact conf_rest hblanks hhash
  · have hk : k < s.length := by
      by_contra hk
      exact hempty (skipWhile_stays (Nat.not_lt.mp hk))
    have hc : (char s k != chr '#') = true := by
      rw [← Bool.not_eq_false]
      exact fun hc => hempty (skipWhile_none_of hk hc)
    obtain ⟨e, htrim, hke, hle, hrest, hvalue, hend⟩ :=
      trim_run (p := (· != chr '#')) hk hc (hstop hk) fun hj hhash => by
        rw [bne_eq_false_iff_eq.mp hhash]
        decide
    have htoken := hblanks.token (k := e) (q := .valueEnd)
      (m := some (confValueColor ((s.drop k).take (e - k)))) hk (by
        change confToken .value _ _ = _
        rw [confToken, if_neg (Bool.eq_false_iff.mp (hstop hk)), if_neg (bne_iff_ne.mp hc), hrest,
          hvalue]) hke hle
    have hbehind := htoken.blanks fun c l hb => by
      change confToken .valueEnd c l = _
      have hnot : c ≠ chr '#' := by
        rintro rfl
        exact absurd hb (by decide)
      cases l <;> exact if_neg hnot
    rw [hend] at hbehind
    rw [htrim, show ((e : Int) - 1 - k + 1).toNat = e - k by omega,
      if_pos (show (e : Int) - 1 ≥ k by omega)]
    exact conf_rest hbehind hhash

/-- What stands behind the key of a line, if there is one. -/
theorem conf_behind {s : List UInt8} {col : List Color} {ph : Phase} {j : Nat}
    (hph : ph = .start ∨ ph = .keyEnd) (hp : Painted confScanner s col ph j)
    (hend : j < s.length → keyChar (char s j) = false) :
    (if j < s.length ∧ char s j = chr '=' then
        confValue s (skipWhile s isblank (j + 1)) (paint col j j oper)
      else if j < s.length ∧ char s j = chr '#' then paint col j (s.length - 1) comment
      else confValue s (skipWhile s isblank j) col) =
      (confScanner.marks .start s).map (·.getD default) := by
  by_cases heq : j < s.length ∧ char s j = chr '='
  · rw [if_pos heq]
    have htoken := hp.token (k := j + 1) (q := .value) (m := some oper) heq.1 (by
      change confToken ph _ _ = _
      rw [heq.2]
      rcases hph with rfl | rfl <;> rfl) (Nat.lt_succ_self j) heq.1
    rw [paintToken_last] at htoken
    exact conf_value htoken
  rw [if_neg heq]
  by_cases hhash : j < s.length ∧ char s j = chr '#'
  · rw [if_pos hhash]
    exact conf_token hp hhash.1 hhash.2
  · -- nothing
    rw [if_neg hhash]
    have hlast : j = s.length := by
      refine Nat.le_antisymm hp.le (Nat.not_lt.mp fun hj => ?_)
      have hkey := hend hj
      rw [keyChar, Bool.and_eq_false_iff, bne_eq_false_iff_eq, bne_eq_false_iff_eq] at hkey
      exact hkey.elim (fun h => heq ⟨hj, h⟩) fun h => hhash ⟨hj, h⟩
    subst hlast
    exact conf_value hp.last

theorem conf_marks (s : List UInt8) : conf s (List.replicate s.length default) =
    (confScanner.marks .start s).map (·.getD default) := by
  have hstart := (Painted.zero confScanner s).blanks fun c l hc => by
    change confToken .start c l = _
    rw [confToken, if_pos hc]
  have hstop := blank_skipWhile s 0
  unfold conf
  dsimp only
  generalize skipWhile s isblank 0 = i at *
  generalize List.replicate s.length default = col at *
  by_cases hc : i < s.length ∧ char s i = chr '#'
  · rw [if_pos hc]
    exact conf_token hstart hc.1 hc.2
  rw [if_neg hc]
  have hend : skipWhile s keyChar i < s.length → keyChar (char s (skipWhile s keyChar i)) = false := by
    intro h
    have hhead := List.head?_dropWhile_not keyChar (s.drop i)
    rw [drop_skipWhile, drop_char h] at hhead
    simpa using hhead
  rw [show (fun c : UInt8 => c != chr '=' && c != chr '#') = keyChar from rfl]
  by_cases hempty : skipWhile s keyChar i = i
  · -- no key
    rw [hempty] at hend
    rw [hempty, trimBlanks_stays, if_neg (Int.not_le.mpr (Int.sub_one_lt_of_le (Int.le_refl _)))]
    exact conf_behind (.inl rfl) hstart hend
  · have hi : i < s.length := by
      by_contra hi
      exact hempty (skipWhile_stays (Nat.not_lt.mp hi))
    have hkey : keyChar (char s i) = true := by
      rw [← Bool.not_eq_false]
      exact fun h => hempty (skipWhile_none_of hi h)
    obtain ⟨hequal, hhash⟩ : char s i ≠ chr '=' ∧ char s i ≠ chr '#' := by
      rwa [keyChar, Bool.and_eq_true, bne_iff_ne, bne_iff_ne] at hkey
    obtain ⟨e, htrim, hie, hle, hrest, -, hblank⟩ := trim_run hi hkey (hstop hi) fun hj hstopped => by
      rw [keyChar, Bool.and_eq_false_iff, bne_eq_false_iff_eq, bne_eq_false_iff_eq] at hstopped
      rcases hstopped with h | h <;> rw [h] <;> decide
    have htoken := hstart.token (k := e) (q := .keyEnd) (m := some key) hi (by
      change confToken .start _ _ = _
      rw [confToken, if_neg (Bool.eq_false_iff.mp (hstop hi)), if_neg hhash, if_neg hequal, hrest])
      hie hle
    have hbehind := htoken.blanks fun c l hb => by
      change confToken .keyEnd c l = _
      rw [confToken, if_neg, if_neg]
      all_goals
        rintro rfl
        exact absurd hb (by decide)
    rw [hblank] at hbehind
    rw [htrim, if_pos (show (e : Int) - 1 ≥ i by omega)]
    exact conf_behind (.inr rfl) hbehind hend

/-! ## C lines -/

/-- The rest of a line. -/
theorem c_rest {s : List UInt8} {col : List Color} {i : Nat}
    (hp : Painted cScanner s col .tokens i) :
    cTokens s s.length i col = (cScanner.marks .start s).map (·.getD default) :=
  (cTokens_paints s fun c l => rfl).painted hp (by omega)

/-- A directive is painted as one token. -/
theorem paint_paint (col : List Color) {i j : Nat} (h : i + 1 ≤ j) (cl : Color) :
    paint (paint col i i cl) ((i : Int) + 1) ((j : Int) - 1) cl =
      paint col i ((j : Int) - 1) cl := by
  unfold paint
  rw [List.mapIdx_mapIdx]
  congr 1
  funext k x
  simp only [Function.comp_apply]
  split_ifs <;> first | rfl | omega

/-- A line that is no directive. -/
theorem c_plain : ∀ {l : List UInt8}, look l ≠ some (chr '#') →
    cScanner.marks .start l = cScanner.marks .tokens l
  | [], _ => by rw [Scanner.marks_nil, Scanner.marks_nil]
  | a :: l, h => by
    have htokens : cScanner.token .tokens a l =
        ⟨.tokens, (codeToken cLexis (a :: l)).1, (codeToken cLexis (a :: l)).2⟩ := rfl
    by_cases hb : isblank a = true
    · have hstart : cScanner.token .start a l = ⟨.start, l, none⟩ := by
        change cToken .start a l = _
        rw [cToken, if_pos hb]
      have hcode : codeToken cLexis (a :: l) = (l, none) := by
        rcases isblank_cases hb with rfl | rfl <;> rfl
      have hlook : look l ≠ some (chr '#') := by
        rwa [look, List.dropWhile_cons, if_pos hb] at h
      rw [Scanner.marks_cons, Scanner.marks_cons, hstart, htokens, hcode, c_plain hlook]
    · have hhash : a ≠ chr '#' := by
        rintro rfl
        exact h rfl
      have hstart : cScanner.token .start a l = cScanner.token .tokens a l := by
        change cToken .start a l = _
        rw [cToken, if_neg hb, if_neg hhash, htokens]
      rw [Scanner.marks_cons, Scanner.marks_cons, hstart]

theorem look_zero (s : List UInt8) (c : UInt8) : look s = some c ↔
    skipWhile s isblank 0 < s.length ∧ char s (skipWhile s isblank 0) = c := by
  have hdrop := look_drop (s := s) (i := 0) c
  rwa [List.drop_zero] at hdrop

/-- The word of a directive. -/
theorem wordIn_include (s : List UInt8) (i : Nat) :
    wordIn s i (skipWhile s isalpha i) ["include"] = true ↔
      (s.drop i).takeWhile isalpha = str "include" := by
  rw [wordIn, take_skipWhile, List.any_cons, List.any_nil, Bool.or_false, beq_iff_eq]
  exact eq_comm

theorem c_marks (s : List UInt8) : c s (List.replicate s.length default) =
    (cScanner.marks .start s).map (·.getD default) := by
  have hzero := Painted.zero cScanner s
  have hstart := hzero.blanks fun c l hc => by
    change cToken .start c l = _
    rw [cToken, if_pos hc]
  have hlook := look_zero s (chr '#')
  unfold c
  dsimp only
  by_cases hc : skipWhile s isblank 0 < s.length ∧ char s (skipWhile s isblank 0) = chr '#'
  · rw [if_pos hc]
    clear hlook hzero
    generalize skipWhile s isblank 0 = i at *
    have hge := le_skipWhile s isalpha (i + 1)
    have htoken := hstart.token (k := skipWhile s isalpha (i + 1)) (m := some cmd) hc.1 (by
      change cToken .start _ _ = _
      rw [cToken, hc.2, if_neg (by decide), if_pos rfl, drop_skipWhile]) (by omega)
      (skipWhile_le _ hc.1)
    rw [paintToken, ← paint_paint _ (by omega)] at htoken
    simp only [wordIn_include, ← look_drop (chr '<')]
    by_cases hpath : (s.drop (i + 1)).takeWhile isalpha = str "include" ∧
        look (s.drop (skipWhile s isalpha (i + 1))) = some (chr '<')
    · rw [if_pos hpath] at htoken ⊢
      have hblanks := htoken.blanks fun c l hc => by
        change cToken .path c l = _
        rw [cToken, if_pos hc]
      obtain ⟨hq, hopen⟩ := (look_drop (chr '<')).mp hpath.2
      obtain ⟨hrest, hlt, hle⟩ := closeRest_getD (chr '>') hq
      have hstring := hblanks.token (m := some string) hq (by
        change cToken .path _ _ = _
        rw [cToken, hopen, if_neg (by decide), hrest]) hlt hle
      rw [paintToken_last] at hstring
      exact c_rest hstring
    · rw [if_neg hpath] at htoken ⊢
      exact c_rest htoken
  · rw [if_neg hc]
    have hplain := c_plain fun h => hc (hlook.mp h)
    exact c_rest ⟨Nat.zero_le _, [], rfl, rfl, by rw [hplain]; rfl⟩

/-- The scanner of a mode; without highlighting there is nothing to mark. -/
def lineScanner : SyntaxMode → Scanner Phase UInt8 Color
  | .none => ⟨fun ph _ l => ⟨ph, l, Option.none⟩, fun _ _ l => List.suffix_refl l⟩
  | .json => jsonScanner
  | .rd => rdScanner
  | .conf => confScanner
  | .js => codeScanner jsLexis
  | .c => cScanner

end Color

/-- The colors of a line are the marks of its tokens. -/
theorem lineColors_marks {m : SyntaxMode} (hm : m ≠ .none) {l : List UInt8}
    (hfill : isFillerLine l = false) : lineColors m l =
      some (((Color.lineScanner m).marks .start l).map (·.getD .default)) := by
  unfold lineColors
  rw [if_neg (by rw [hfill]; exact fun h => h.elim hm fun h => nomatch h)]
  congr 1
  have hzero (S : Scanner Color.Phase UInt8 Color) := Color.Painted.zero S l
  cases m with
  | none => exact absurd rfl hm
  | json => exact (Color.json_paints l .start).painted (hzero _) (Nat.le_add_left _ _)
  | rd => exact Color.rd_marks l
  | conf => exact Color.conf_marks l
  | js => exact (Color.js_paints l .start).painted (hzero _) (Nat.le_add_left _ _)
  | c => exact Color.c_marks l

end Evim
