import Mathlib.Data.List.Basic
import Mathlib.Data.List.TakeWhile
import Mathlib.Tactic.Common

/-!
# Scanners

A scanner takes one token after the other off the front of a list, in a phase that the tokens in
front have left it in, and marks the elements of each.

* `Scanner` — one token: the phase and what is left behind it, and its mark.
* `marks` — the marks of all elements; `Reaches` — whole tokens lead from one list to another.
* `marks_of_reaches` — the marks behind a token do not depend on what is in front of it.
* `Cut` — two lists that differ only in what follows; `Within` — the ends that may follow.
* `Closing` — a look at the end of a token.
* `Scanner.Local` — a token that ends in front of the ends depends on no more than the first
  element that is not blank.
* `Decided` — the mark of an element whatever follows; `BeginsBehind`, `HeldByFirst` — why it is.

Main results: `marks_padded`, `marks_inside`, `BeginsBehind.decided`.
-/

set_option autoImplicit false

variable {φ α κ : Type}

/-- A token: the phase and the list behind it, and the mark of its elements. -/
structure Scan.Token (φ α κ : Type) where
  phase : φ
  rest : List α
  mark : Option κ

/-- A scanner: the first token of a nonempty list. -/
structure Scanner (φ α κ : Type) where
  token : φ → α → List α → Scan.Token φ α κ
  advances : ∀ ph a l, (token ph a l).rest <:+ l

namespace Scanner

variable (S : Scanner φ α κ)

theorem length_token (ph : φ) (a : α) (l : List α) : (S.token ph a l).rest.length ≤ l.length :=
  (S.advances ph a l).length_le

/-- The mark of every element. -/
def marks : φ → List α → List (Option κ)
  | _, [] => []
  | ph, a :: l =>
    List.replicate ((a :: l).length - (S.token ph a l).rest.length) (S.token ph a l).mark ++
      marks (S.token ph a l).phase (S.token ph a l).rest
termination_by _ l => l.length
decreasing_by exact Nat.lt_succ_of_le (S.length_token ph a l)

@[simp] theorem marks_nil (ph : φ) : S.marks ph [] = [] := by rw [marks]

theorem marks_cons (ph : φ) (a : α) (l : List α) : S.marks ph (a :: l) =
    List.replicate ((a :: l).length - (S.token ph a l).rest.length) (S.token ph a l).mark ++
      S.marks (S.token ph a l).phase (S.token ph a l).rest := by rw [marks]

@[simp] theorem length_marks (ph : φ) (l : List α) : (S.marks ph l).length = l.length := by
  match l with
  | [] => simp
  | a :: l =>
    have hle := S.length_token ph a l
    rw [marks_cons, List.length_append, List.length_replicate, length_marks, List.length_cons]
    omega
termination_by l.length
decreasing_by exact Nat.lt_succ_of_le (S.length_token ph a l)

/-- Whole tokens lead from `l` to `r`. -/
inductive Reaches : φ → List α → φ → List α → Prop where
  | refl (ph : φ) (l : List α) : Reaches ph l ph l
  | step {ph ph' : φ} {a : α} {l r : List α}
      (rest : Reaches (S.token ph a l).phase (S.token ph a l).rest ph' r) :
      Reaches ph (a :: l) ph' r

variable {S} {ph ph' : φ}

theorem Reaches.rest {a : α} {l r : List α} (h : S.Reaches ph (a :: l) ph' r)
    (hle : r.length ≤ l.length) :
    S.Reaches (S.token ph a l).phase (S.token ph a l).rest ph' r := by
  cases h with
  | refl =>
    rw [List.length_cons] at hle
    omega
  | step rest => exact rest

theorem Reaches.suffix {l r : List α} (h : S.Reaches ph l ph' r) : r <:+ l := by
  induction h with
  | refl ph l => exact List.suffix_refl l
  | @step ph ph' a l r _ ih => exact (ih.trans (S.advances ph a l)).trans (List.suffix_cons a l)

/-- The marks behind a token are those of the list behind it. -/
theorem marks_of_reaches {l r : List α} (h : S.Reaches ph l ph' r) :
    S.marks ph' r = (S.marks ph l).drop (l.length - r.length) := by
  induction h with
  | refl ph l => rw [Nat.sub_self, List.drop_zero]
  | @step ph ph' a l r hrest ih =>
    have hle := S.length_token ph a l
    have hr := hrest.suffix.length_le
    have hfront : (List.replicate ((a :: l).length - (S.token ph a l).rest.length)
        (S.token ph a l).mark).drop ((a :: l).length - r.length) = [] := by
      apply List.drop_eq_nil_of_le
      rw [List.length_replicate]
      omega
    rw [ih, marks_cons, List.drop_append, hfront, List.nil_append, List.length_replicate]
    congr 1
    rw [List.length_cons]
    omega

/-- The mark of an element behind whole tokens. -/
theorem getElem?_marks {l r : List α} (h : S.Reaches ph l ph' r) (i : Nat) :
    (S.marks ph' r)[i]? = (S.marks ph l)[l.length - r.length + i]? := by
  rw [marks_of_reaches h, List.getElem?_drop]

end Scanner

/-! ## Ends -/

namespace Scan

variable {y y' r r' : List α}

/-- `r` and `r'` are the same in front of `y` and `y'`. -/
def Cut (y y' r r' : List α) : Prop := ∃ x, r = x ++ y ∧ r' = x ++ y'

theorem Cut.cons (h : Cut y y' r r') (a : α) : Cut y y' (a :: r) (a :: r') := by
  obtain ⟨x, rfl, rfl⟩ := h
  exact ⟨a :: x, rfl, rfl⟩

/-- The first element, when more than the end is left behind it. -/
theorem Cut.tail {a : α} (h : Cut y y' (a :: r) r') (hlen : y.length ≤ r.length) :
    ∃ r₁, r' = a :: r₁ ∧ Cut y y' r r₁ := by
  obtain ⟨x, hr, rfl⟩ := h
  match x, hr with
  | [], hr =>
    rw [List.nil_append] at hr
    rw [← hr, List.length_cons] at hlen
    omega
  | b :: x, hr =>
    obtain ⟨rfl, rfl⟩ := List.cons.inj hr
    exact ⟨x ++ y', rfl, x, rfl, rfl⟩

variable (blank : α → Bool)

/-- Both ends are blank; or they begin with the same element that is not, and no more than them is
left of `n` elements. -/
inductive Within (y y' : List α) (n : Nat) : Prop where
  | padded (left : ∀ a ∈ y, blank a = true) (right : ∀ a ∈ y', blank a = true)
  | inside {a : α} {t t' : List α} (ha : blank a = false) (left : y = a :: t) (right : y' = a :: t')
      (le : y.length ≤ n)

variable {blank}

theorem Within.mono {n m : Nat} (h : Within blank y y' n) (hle : n ≤ m) : Within blank y y' m := by
  cases h with
  | padded left right => exact .padded left right
  | inside ha left right le => exact .inside ha left right (Nat.le_trans le hle)

variable {p : α → Bool} (hp : ∀ a, blank a = true → p a = false)

include hp

theorem takeWhile_blank {l : List α} (h : ∀ a ∈ l, blank a = true) : l.takeWhile p = [] := by
  cases l with
  | nil => rfl
  | cons a l => rw [List.takeWhile_cons, hp a (h a List.mem_cons_self), if_neg (by decide)]

/-- A run of elements that are not blank, in front of the ends. -/
theorem Cut.takeWhile (h : Cut y y' r r')
    (hw : Within blank y y' (r.dropWhile p).length) :
    r.takeWhile p = r'.takeWhile p ∧ Cut y y' (r.dropWhile p) (r'.dropWhile p) := by
  obtain ⟨x, rfl, rfl⟩ := h
  induction x with
  | nil =>
    simp only [List.nil_append] at hw ⊢
    have hstop : y.takeWhile p = [] ∧ y'.takeWhile p = [] := by
      cases hw with
      | padded left right => exact ⟨takeWhile_blank hp left, takeWhile_blank hp right⟩
      | @inside a t t' ha left right le =>
        subst left right
        cases hpa : p a with
        | false => simp [hpa]
        | true =>
          have hlen := (List.dropWhile_suffix (p := p) (l := t)).length_le
          rw [List.dropWhile_cons, hpa, if_pos rfl, List.length_cons] at le
          omega
    have hdrop (l : List α) (hl : l.takeWhile p = []) : l.dropWhile p = l := by
      have := List.takeWhile_append_dropWhile (p := p) (l := l)
      rwa [hl, List.nil_append] at this
    rw [hstop.1, hstop.2, hdrop y hstop.1, hdrop y' hstop.2]
    exact ⟨rfl, [], rfl, rfl⟩
  | cons b x ih =>
    rw [List.cons_append, List.cons_append, List.takeWhile_cons, List.takeWhile_cons,
      List.dropWhile_cons, List.dropWhile_cons]
    cases hb : p b with
    | true =>
      rw [if_pos rfl, if_pos rfl, if_pos rfl, if_pos rfl]
      rw [List.cons_append, List.dropWhile_cons, hb, if_pos rfl] at hw
      obtain ⟨htake, hcut⟩ := ih hw
      exact ⟨by rw [htake], hcut⟩
    | false =>
      rw [if_neg Bool.false_ne_true, if_neg Bool.false_ne_true, if_neg Bool.false_ne_true,
        if_neg Bool.false_ne_true]
      exact ⟨rfl, b :: x, rfl, rfl⟩

/-- A look at the first element. -/
theorem Cut.head {n : Nat} (h : Cut y y' r r') (hw : Within blank y y' n) :
    r.head?.any p = r'.head?.any p := by
  obtain ⟨x, rfl, rfl⟩ := h
  cases x with
  | cons b x => rfl
  | nil =>
    simp only [List.nil_append]
    cases hw with
    | @inside a t t' ha left right le =>
      subst left right
      rfl
    | padded left right =>
      have hnone (l : List α) (hl : ∀ a ∈ l, blank a = true) : l.head?.any p = false := by
        cases l with
        | nil => rfl
        | cons a l => exact hp a (hl a List.mem_cons_self)
      rw [hnone y left, hnone y' right]

omit hp in
/-- A look at the first element that is not blank. -/
theorem Cut.look {n : Nat} (h : Cut y y' r r') (hw : Within blank y y' n) :
    (r.dropWhile blank).head? = (r'.dropWhile blank).head? := by
  obtain ⟨x, rfl, rfl⟩ := h
  induction x with
  | cons b x ih =>
    rw [List.cons_append, List.cons_append, List.dropWhile_cons, List.dropWhile_cons]
    split
    · exact ih
    · rfl
  | nil =>
    simp only [List.nil_append]
    cases hw with
    | @inside a t t' ha left right le =>
      subst left right
      rw [List.dropWhile_cons, List.dropWhile_cons, ha]
      rfl
    | padded left right =>
      rw [List.dropWhile_eq_nil_iff.mpr left, List.dropWhile_eq_nil_iff.mpr right]

/-- A look at the end of a token: it is not among blanks. -/
structure Closing (blank : α → Bool) (f : List α → Option (List α)) : Prop where
  cut : ∀ {y y' l l' r : List α}, Cut y y' l l' → f l = some r → y.length ≤ r.length →
    ∃ r', f l' = some r' ∧ Cut y y' r r'
  notBlank : ∀ {x y r : List α}, (∀ a ∈ y, blank a = true) → f (x ++ y) = some r →
    y.length ≤ r.length

omit hp in
/-- It is found in front of both ends, or not at all. -/
theorem Closing.within {f : List α → Option (List α)} (hf : Closing blank f) (h : Cut y y' r r')
    (hw : Within blank y y' ((f r).getD []).length) :
    (∃ t t', f r = some t ∧ f r' = some t' ∧ Cut y y' t t') ∨
      f r = none ∧ f r' = none ∧ ∀ a ∈ y, blank a = true := by
  cases hr : f r with
  | some t =>
    have hle : y.length ≤ t.length := by
      cases hw with
      | padded left right =>
        obtain ⟨x, rfl, rfl⟩ := h
        exact hf.notBlank left hr
      | inside ha left right le => rwa [hr, Option.getD_some] at le
    obtain ⟨t', hr', hcut⟩ := hf.cut h hr hle
    exact .inl ⟨t, t', rfl, hr', hcut⟩
  | none =>
    cases hw with
    | @inside a u u' ha left right le =>
      rw [hr, left] at le
      exact absurd le (Nat.not_succ_le_zero _)
    | padded left right =>
      cases hr' : f r' with
      | none => exact .inr ⟨rfl, rfl, left⟩
      | some t' =>
        obtain ⟨x, rfl, rfl⟩ := h
        obtain ⟨t, ht, -⟩ := hf.cut ⟨x, rfl, rfl⟩ hr' (hf.notBlank right hr')
        rw [hr] at ht
        cases ht

end Scan

/-! ## Local scanners -/

namespace Scanner

open Scan

/-- A token has the same mark in front of both ends; with blank ends it may also go beyond what is
in front of them. -/
def Local (S : Scanner φ α κ) (blank : α → Bool) : Prop :=
  ∀ {ph : φ} {a : α} {l l' y y' : List α}, Cut y y' l l' →
    Within blank y y' (S.token ph a l).rest.length →
    (S.token ph a l).mark = (S.token ph a l').mark ∧
      ((S.token ph a l).phase = (S.token ph a l').phase ∧
          Cut y y' (S.token ph a l).rest (S.token ph a l').rest ∨
        (∀ b ∈ y, blank b = true) ∧ (S.token ph a l).rest.length ≤ y.length ∧
          (S.token ph a l').rest.length ≤ y'.length)

variable {S : Scanner φ α κ} {blank : α → Bool}

/-- A token with the same rest: the marks in front of it are the same, too. -/
theorem marks_cut {ph : φ} {a : α} {x y y' : List α}
    (hmark : (S.token ph a (x ++ y)).mark = (S.token ph a (x ++ y')).mark)
    (hphase : (S.token ph a (x ++ y)).phase = (S.token ph a (x ++ y')).phase)
    (hcut : Cut y y' (S.token ph a (x ++ y)).rest (S.token ph a (x ++ y')).rest)
    (hrest : ∀ x' : List α, x'.length ≤ x.length → (S.token ph a (x ++ y)).rest = x' ++ y →
      (S.marks (S.token ph a (x ++ y)).phase (x' ++ y)).take x'.length =
        (S.marks (S.token ph a (x ++ y)).phase (x' ++ y')).take x'.length) :
    (S.marks ph (a :: x ++ y)).take (a :: x).length =
      (S.marks ph (a :: x ++ y')).take (a :: x).length := by
  obtain ⟨x', hx, hx'⟩ := hcut
  have hle := S.length_token ph a (x ++ y)
  rw [hx, List.length_append, List.length_append] at hle
  have hx'len : x'.length ≤ x.length := by omega
  have hlen (z : List α) : (a :: (x ++ z)).length - (x' ++ z).length =
      (a :: x).length - x'.length := by
    simp only [List.length_cons, List.length_append]
    omega
  have hIH := hrest x' hx'len hx
  rw [List.cons_append, List.cons_append, marks_cons, marks_cons, hx, hx', hlen, hlen, ← hmark,
    ← hphase, List.take_append, List.take_append, List.length_replicate,
    show (a :: x).length - ((a :: x).length - x'.length) = x'.length by
      rw [List.length_cons]
      omega, hIH]

/-- With blank ends the marks in front of them are the same. -/
theorem marks_padded (hl : S.Local blank) {y y' : List α} (hy : ∀ a ∈ y, blank a = true)
    (hy' : ∀ a ∈ y', blank a = true) : ∀ (ph : φ) (x : List α),
    (S.marks ph (x ++ y)).take x.length = (S.marks ph (x ++ y')).take x.length
  | _, [] => rfl
  | ph, a :: x => by
    have hcut : Cut y y' (x ++ y) (x ++ y') := ⟨x, rfl, rfl⟩
    obtain ⟨hmark, ⟨hphase, hcut⟩ | ⟨-, hle, hle'⟩⟩ := hl (a := a) hcut (.padded hy hy')
    · exact marks_cut hmark hphase hcut fun x' hx' _ => marks_padded hl hy hy' _ x'
    · -- the token has all of them
      rw [List.cons_append, List.cons_append, marks_cons, marks_cons, ← hmark, List.take_append,
        List.take_append, List.take_replicate, List.take_replicate, List.length_replicate,
        List.length_replicate]
      simp only [List.length_cons, List.length_append]
      rw [Nat.min_eq_left (by omega), Nat.min_eq_left (by omega), Nat.sub_eq_zero_of_le (by omega),
        Nat.sub_eq_zero_of_le (by omega)]
      rfl
termination_by _ x => x.length
decreasing_by exact Nat.lt_succ_of_le hx'

/-- Where a token begins that is not blank, the marks in front of it do not depend on what follows
its first element. -/
theorem marks_inside (hl : S.Local blank) {b : α} (hb : blank b = false) {t r : List α} :
    ∀ (ph ph' : φ) (x : List α), S.Reaches ph (x ++ b :: t) ph' (b :: t) →
      (S.marks ph (x ++ b :: t)).take x.length = (S.marks ph (x ++ b :: r)).take x.length
  | _, _, [], _ => rfl
  | ph, ph', a :: x, h => by
    have hrest : S.Reaches (S.token ph a (x ++ b :: t)).phase (S.token ph a (x ++ b :: t)).rest
        ph' (b :: t) :=
      h.rest (List.suffix_append x (b :: t)).length_le
    have hle := hrest.suffix.length_le
    have hcut : Cut (b :: t) (b :: r) (x ++ b :: t) (x ++ b :: r) := ⟨x, rfl, rfl⟩
    obtain ⟨hmark, ⟨hphase, hcut⟩ | ⟨hblank, -, -⟩⟩ := hl (a := a) hcut (.inside hb rfl rfl hle)
    · refine marks_cut hmark hphase hcut fun x' hx' heq => marks_inside hl hb _ ph' x' ?_
      rwa [heq] at hrest
    · -- the first element behind it is not blank
      rw [hblank b List.mem_cons_self] at hb
      cases hb
termination_by _ _ x => x.length
decreasing_by exact Nat.lt_succ_of_le hx'

/-- The element `i` has the same mark whatever follows. -/
def Decided (S : Scanner φ α κ) (ph : φ) (l : List α) (i : Nat) : Prop :=
  ∀ t, (S.marks ph (l ++ t))[i]? = (S.marks ph l)[i]?

/-- A token that is not blank begins behind the element `i`. -/
def BeginsBehind (S : Scanner φ α κ) (blank : α → Bool) (ph : φ) (l : List α) (i : Nat) : Prop :=
  ∃ ph' x b t, l = x ++ b :: t ∧ i < x.length ∧ blank b = false ∧ S.Reaches ph l ph' (b :: t)

/-- The first token is of one kind and holds the element `i`, however the list goes on. -/
def HeldByFirst (S : Scanner φ α κ) (ph : φ) (l : List α) (i : Nat) : Prop :=
  ∃ a x m, l = a :: x ∧ ∀ t, (S.token ph a (x ++ t)).mark = m ∧
    i + (S.token ph a (x ++ t)).rest.length ≤ (x ++ t).length

theorem BeginsBehind.decided (hl : S.Local blank) {ph : φ} {l : List α} {i : Nat}
    (h : S.BeginsBehind blank ph l i) : Decided S ph l i := by
  obtain ⟨ph', x, b, t, rfl, hi, hb, hreach⟩ := h
  intro r
  have hinside := marks_inside hl hb (r := t ++ r) ph ph' x hreach
  rw [List.append_assoc, List.cons_append, ← List.getElem?_take_of_lt hi, ← hinside,
    List.getElem?_take_of_lt hi]

theorem HeldByFirst.decided {ph : φ} {l : List α} {i : Nat} (h : S.HeldByFirst ph l i) :
    Decided S ph l i := by
  obtain ⟨a, x, m, rfl, htoken⟩ := h
  have hmark (t : List α) : (S.marks ph (a :: (x ++ t)))[i]? = some m := by
    obtain ⟨hm, hlen⟩ := htoken t
    rw [marks_cons, hm, List.getElem?_append_left, List.getElem?_replicate, if_pos]
    all_goals
      simp only [List.length_replicate, List.length_cons]
      omega
  intro t
  have hnone := hmark []
  rw [List.append_nil] at hnone
  rw [List.cons_append, hmark t, hnone]

end Scanner
