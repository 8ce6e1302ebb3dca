import Mathlib

/-!
# C strings

The bytes before the terminator, as a list without zero bytes, and the parts of `<string.h>` and
`<strings.h>` over them.  A position is an offset, `none` stands for `NULL`.

* `strchr_take` — the part before the first `c` is the longest prefix free of `c`.
* `lower_takeWhile` — case folding commutes with cutting at bytes it does not touch.
-/

set_option autoImplicit false

namespace CString

/-- A C string. -/
abbrev CStr := List UInt8

/-- The bytes of a string literal. -/
def str (t : String) : CStr := t.toList.map fun c => UInt8.ofNat c.toNat

/-- `%d`. -/
def dec (n : Int) : CStr :=
  if n < 0 then 45 :: str (String.ofList (Nat.toDigits 10 n.natAbs))
  else str (String.ofList (Nat.toDigits 10 n.natAbs))

/-- The number that digits denote. -/
def numeral (ds : CStr) : Nat := ds.foldl (fun n c => n * 10 + (c.toNat - 48)) 0

/-- A character literal. -/
abbrev chr (c : Char) : UInt8 := UInt8.ofNat c.toNat

def toupper (c : UInt8) : UInt8 := if 97 ≤ c && c ≤ 122 then c - 32 else c
def tolower (c : UInt8) : UInt8 := if 65 ≤ c && c ≤ 90 then c + 32 else c

/-- A string with its letters in lower case. -/
def lower (s : CStr) : CStr := s.map tolower

/-- `strchr`. -/
def strchr (s : CStr) (c : UInt8) : Option Nat := s.findIdx? (· == c)

/-- `strpbrk`. -/
def strpbrk (s accept : CStr) : Option Nat := s.findIdx? fun c => accept.contains c

/-- `strstr`. -/
def strstr : CStr → CStr → Option Nat
  | [], pat => if pat.isEmpty then some 0 else none
  | c :: s, pat => if pat.isPrefixOf (c :: s) then some 0 else (strstr s pat).map (· + 1)

/-- `strncasecmp(a, b, n) == 0`. -/
def strncasecmp (a b : CStr) (n : Nat) : Bool := lower (a.take n) == lower (b.take n)

/-- `strcasecmp(a, b) == 0`. -/
def strcasecmp (a b : CStr) : Bool := lower a == lower b

/-! ## Facts -/

theorem strcasecmp_iff {a b : CStr} : strcasecmp a b = true ↔ lower a = lower b := by
  simp [strcasecmp]

theorem length_lower (s : CStr) : (lower s).length = s.length := by simp [lower]

theorem strncasecmp_iff {a b : CStr} {n : Nat} :
    strncasecmp a b n = true ↔ lower (a.take n) = lower (b.take n) := by
  simp [strncasecmp]

/-- Everything before the first `c`, or the whole string. -/
theorem strchr_take (s : CStr) (c : UInt8) :
    s.take ((strchr s c).getD s.length) = s.takeWhile (· != c) := by
  induction s with
  | nil => rfl
  | cons a s ih =>
    by_cases h : a = c
    · subst h
      simp [strchr, List.findIdx?_cons]
    · have hne : (a == c) = false := by simp [h]
      unfold strchr at ih ⊢
      rw [List.findIdx?_cons, if_neg (by simp [h]), List.takeWhile_cons_of_pos (by simp [h]), ← ih]
      cases s.findIdx? (· == c) <;> simp

/-- Where `strchr` points. -/
theorem strchr_some {s : CStr} {c : UInt8} {n : Nat} (h : strchr s c = some n) :
    n < s.length ∧ s[n]? = some c := by
  obtain ⟨hn, hc, -⟩ := List.findIdx?_eq_some_iff_getElem.mp h
  exact ⟨hn, by rw [List.getElem?_eq_getElem hn]; simpa using hc⟩

/-- Folding case maps no other byte to a byte that is no letter. -/
theorem tolower_eq_iff {a c : UInt8} (h : ¬(97 ≤ c ∧ c ≤ 122)) (h' : ¬(65 ≤ c ∧ c ≤ 90)) :
    tolower a = c ↔ a = c := by
  unfold tolower
  split
  · rename_i ha
    simp only [Bool.and_eq_true, decide_eq_true_eq, UInt8.le_iff_toNat_le] at ha h h'
    have h₁ := UInt8.toNat_add a 32
    constructor
    · rintro rfl
      simp at *
      omega
    · rintro rfl
      simp at *
      omega
  · rfl

/-- Cutting a string at bytes that are no letters, before or after folding case. -/
theorem lower_takeWhile (s : CStr) {cut : CStr}
    (h : ∀ c ∈ cut, ¬(97 ≤ c ∧ c ≤ 122) ∧ ¬(65 ≤ c ∧ c ≤ 90)) :
    lower (s.takeWhile fun c => !cut.contains c) = (lower s).takeWhile fun c => !cut.contains c := by
  induction s with
  | nil => rfl
  | cons a s ih =>
    have ha : cut.contains (tolower a) = cut.contains a := by
      rw [Bool.eq_iff_iff, List.contains_iff_mem, List.contains_iff_mem]
      constructor
      · intro hm
        have he : a = tolower a := (tolower_eq_iff (h _ hm).1 (h _ hm).2).mp rfl
        rw [he]
        exact hm
      · intro hm
        have he : tolower a = a := (tolower_eq_iff (h _ hm).1 (h _ hm).2).mpr rfl
        rw [he]
        exact hm
    simp only [lower, List.map_cons, List.takeWhile_cons, ha]
    split
    · simp only [List.map_cons]
      exact congrArg _ ih
    · rfl

/-- A string without letters is the only one that folds to it. -/
theorem eq_of_lower {l l' : CStr} (h : ∀ c ∈ l', ¬(97 ≤ c ∧ c ≤ 122) ∧ ¬(65 ≤ c ∧ c ≤ 90))
    (he : lower l = l') : l = l' := by
  subst he
  induction l with
  | nil => rfl
  | cons a l ih =>
    have ha : tolower a ∈ lower (a :: l) := by simp [lower]
    have e : a = tolower a := (tolower_eq_iff (h _ ha).1 (h _ ha).2).mp rfl
    simp only [lower, List.map_cons]
    rw [← e]
    exact congrArg _ (ih fun c hc => h c (List.mem_cons_of_mem _ hc))

/-- A string is found where it stands. -/
theorem strstr_isSome (pre pat rest : CStr) : (strstr (pre ++ (pat ++ rest)) pat).isSome := by
  induction pre with
  | nil =>
    cases pat with
    | nil => cases rest <;> rfl
    | cons c pat =>
      have hp : (c :: pat).isPrefixOf (c :: (pat ++ rest)) = true := by
        rw [List.isPrefixOf_iff_prefix]
        exact ⟨rest, rfl⟩
      simp only [List.nil_append, List.cons_append, strstr, hp]
      rfl
  | cons c pre ih =>
    simp only [List.cons_append, strstr]
    split
    · rfl
    · simpa using ih

/-- The first occurrence, when the text before it lacks the first byte of the pattern. -/
theorem strstr_append {pre rest : CStr} {c : UInt8} {pat : CStr} (h : c ∉ pre) :
    strstr (pre ++ (c :: pat ++ rest)) (c :: pat) = some pre.length := by
  induction pre with
  | nil =>
    have hp : (c :: pat).isPrefixOf (c :: (pat ++ rest)) = true := by
      rw [List.isPrefixOf_iff_prefix]
      exact ⟨rest, rfl⟩
    simp only [List.nil_append, List.cons_append, strstr, hp]
    rfl
  | cons a pre ih =>
    obtain ⟨hne, hmem⟩ := not_or.mp (mt List.mem_cons.mpr h)
    have hp : (c :: pat).isPrefixOf (a :: (pre ++ (c :: pat ++ rest))) = false := by
      simp [List.isPrefixOf, hne]
    simp only [List.cons_append, strstr] at ih ⊢
    simp only [List.cons_append] at hp
    rw [hp, if_neg (by decide), ih hmem]
    rfl

/-- What stands where `strstr` points. -/
theorem strstr_some {s pat : CStr} {n : Nat} (h : strstr s pat = some n) :
    ∃ rest, s = s.take n ++ (pat ++ rest) := by
  induction s generalizing n with
  | nil =>
    unfold strstr at h
    split at h
    · rename_i hp
      rw [List.isEmpty_iff.mp hp]
      exact ⟨[], by simp⟩
    · cases h
  | cons a s ih =>
    unfold strstr at h
    split at h
    · rename_i hp
      obtain rfl := Option.some.inj h
      obtain ⟨rest, hrest⟩ := List.isPrefixOf_iff_prefix.mp hp
      exact ⟨rest, hrest.symm⟩
    · obtain ⟨m, hm, rfl⟩ := Option.map_eq_some_iff.mp h
      obtain ⟨rest, hrest⟩ := ih hm
      refine ⟨rest, ?_⟩
      rw [List.take_succ_cons, List.cons_append, ← hrest]

end CString
