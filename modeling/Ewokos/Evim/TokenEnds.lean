import Ewokos.Evim.LineTokens

/-!
# evim: tokens that are cut

What the colors of a token depend on when the line is cut behind it.

* `quoteRest_closing`, `commentRest_closing` — the closing quote and the end of a comment.
* `json_cut`, `code_cut`, `trim_cut` — no token in front of the ends is told from another by what
  follows the first char behind it that is not blank.

Main result: `lineScanner_local`.
-/

set_option autoImplicit false

namespace Evim.Color

open Scan
open CString hiding strchr

variable {y y' l l' r : List UInt8}

/-! ## The ends of strings and comments -/

theorem commentRest_cons (c : UInt8) (l : List UInt8) : commentRest (c :: l) =
    if c = chr '*' ∧ l.head? = some (chr '/') then some l.tail else commentRest l := by
  cases l with
  | nil => simp [commentRest]
  | cons d l => simp only [commentRest, List.head?_cons, Option.some.injEq, List.tail_cons]

theorem quoteRest_cut (q : UInt8) : ∀ {l l' : List UInt8}, Cut y y' l l' →
    quoteRest q l = some r → y.length ≤ r.length → ∃ r', quoteRest q l' = some r' ∧ Cut y y' r r'
  | [], _, _, h, _ => nomatch h
  | c :: l, l', hc, h, hle => by
    rw [quoteRest_cons] at h
    by_cases hq : c = q
    · rw [if_pos hq] at h
      cases h
      obtain ⟨l₁, rfl, hcut⟩ := hc.tail hle
      exact ⟨l₁, by rw [quoteRest_cons, if_pos hq], hcut⟩
    rw [if_neg hq] at h
    by_cases hb : c = chr '\\'
    · rw [if_pos hb] at h
      have hr := (quoteRest_suffix q h).length_le
      match l, h, hr with
      | d :: l, h, hr =>
        rw [List.tail_cons] at h hr
        obtain ⟨l₁, rfl, hcut⟩ := hc.tail (by rw [List.length_cons]; omega)
        obtain ⟨l₂, rfl, hcut₂⟩ := hcut.tail (by omega)
        obtain ⟨r', hr', hrest⟩ := quoteRest_cut q hcut₂ h hle
        exact ⟨r', by rw [quoteRest_cons, if_neg hq, if_pos hb, List.tail_cons, hr'], hrest⟩
    · rw [if_neg hb] at h
      have hr := (quoteRest_suffix q h).length_le
      obtain ⟨l₁, rfl, hcut⟩ := hc.tail (by omega)
      obtain ⟨r', hr', hrest⟩ := quoteRest_cut q hcut h hle
      exact ⟨r', by rw [quoteRest_cons, if_neg hq, if_neg hb, hr'], hrest⟩

theorem commentRest_length {c d : UInt8} (h : commentRest (c :: d :: l) = some r) :
    r.length ≤ l.length := by
  rw [commentRest] at h
  split at h
  · cases h
    exact Nat.le_refl _
  · cases l with
    | nil => cases h
    | cons e l =>
      rw [commentRest] at h
      split at h
      · cases h
        exact Nat.le_succ _
      · exact (commentRest_suffix h).length_le

theorem commentRest_cut : ∀ {l l' : List UInt8}, Cut y y' l l' → commentRest l = some r →
    y.length ≤ r.length → ∃ r', commentRest l' = some r' ∧ Cut y y' r r'
  | [], _, _, h, _ => nomatch h
  | [_], _, _, h, _ => nomatch h
  | c :: d :: l, l', hc, h, hle => by
    have hlen := commentRest_length h
    rw [commentRest] at h
    obtain ⟨l₁, rfl, hcut⟩ := hc.tail (by rw [List.length_cons]; omega)
    obtain ⟨l₂, rfl, hcut₂⟩ := hcut.tail (by omega)
    rw [commentRest]
    split at h
    · rename_i hend
      cases h
      exact ⟨l₂, if_pos hend, hcut₂⟩
    · rename_i hend
      rw [if_neg hend]
      exact commentRest_cut hcut h hle

theorem quoteRest_blank {q : UInt8} (hq : isblank q = false) : ∀ {l : List UInt8},
    (∀ a ∈ l, isblank a = true) → quoteRest q l = none
  | [], _ => rfl
  | c :: l, h => by
    have hc := h c List.mem_cons_self
    have hrest := quoteRest_blank hq fun a ha => h a (List.mem_cons_of_mem c ha)
    rw [quoteRest_cons, if_neg, if_neg, hrest]
    · rintro rfl
      exact absurd hc (by decide)
    · rintro rfl
      rw [hq] at hc
      cases hc

theorem commentRest_blank : ∀ {l : List UInt8}, (∀ a ∈ l, isblank a = true) →
    commentRest l = none
  | [], _ => rfl
  | c :: l, h => by
    have hc := h c List.mem_cons_self
    have hrest := commentRest_blank fun a ha => h a (List.mem_cons_of_mem c ha)
    rw [commentRest_cons, if_neg, hrest]
    rintro ⟨rfl, -⟩
    exact absurd hc (by decide)

theorem quoteRest_notBlank {q : UInt8} (hq : isblank q = false)
    (hy : ∀ a ∈ y, isblank a = true) : ∀ {x : List UInt8}, quoteRest q (x ++ y) = some r →
      y.length ≤ r.length
  | [], h => by
    rw [List.nil_append, quoteRest_blank hq hy] at h
    cases h
  | c :: x, h => by
    rw [List.cons_append, quoteRest_cons] at h
    split at h
    · cases h
      exact (List.suffix_append x y).length_le
    split at h
    · -- an escaped char may be the first of the blanks
      match x, h with
      | [], h =>
        rw [List.nil_append, quoteRest_blank hq fun a ha => hy a (List.mem_of_mem_tail ha)] at h
        cases h
      | d :: x, h => exact quoteRest_notBlank hq hy h
    · exact quoteRest_notBlank hq hy h

theorem commentRest_notBlank (hy : ∀ a ∈ y, isblank a = true) : ∀ {x : List UInt8},
    commentRest (x ++ y) = some r → y.length ≤ r.length
  | [], h => by
    rw [List.nil_append, commentRest_blank hy] at h
    cases h
  | c :: x, h => by
    rw [List.cons_append, commentRest_cons] at h
    split at h
    · rename_i hend
      cases h
      match x with
      | [] =>
        have hslash := hy _ (List.mem_of_mem_head? hend.2)
        exact absurd hslash (by decide)
      | d :: x => exact (List.suffix_append x y).length_le
    · exact commentRest_notBlank hy h

theorem quoteRest_closing {q : UInt8} (hq : isblank q = false) :
    Closing isblank (quoteRest q) where
  cut := quoteRest_cut q
  notBlank hy h := quoteRest_notBlank hq hy h

theorem commentRest_closing : Closing isblank commentRest where
  cut := commentRest_cut
  notBlank hy h := commentRest_notBlank hy h

/-! ## Numbers -/

/-- Blanks belong to no class of chars of a token. -/
theorem notBlank_of {p : UInt8 → Bool} (h₁ : p 32 = false) (h₂ : p 9 = false) (c : UInt8)
    (hc : isblank c = true) : p c = false := by
  rcases isblank_cases hc with rfl | rfl
  · exact h₁
  · exact h₂

theorem eat_cut {p : UInt8 → Bool} (hp : ∀ c, isblank c = true → p c = false)
    (h : Cut y y' l l') (hw : Within isblank y y' (eat p l).length) :
    Cut y y' (eat p l) (eat p l') := by
  obtain ⟨x, rfl, rfl⟩ := h
  cases x with
  | cons c x =>
    rw [List.cons_append, List.cons_append, eat, eat]
    split
    · exact ⟨x, rfl, rfl⟩
    · exact ⟨c :: x, rfl, rfl⟩
  | nil =>
    rw [List.nil_append, List.nil_append] at *
    cases hw with
    | padded left right =>
      have hstay (l : List UInt8) (hl : ∀ a ∈ l, isblank a = true) : eat p l = l := by
        cases l with
        | nil => rfl
        | cons c l => rw [eat, hp c (hl c List.mem_cons_self), if_neg Bool.false_ne_true]
      rw [hstay y left, hstay y' right]
      exact ⟨[], rfl, rfl⟩
    | @inside a t t' ha left right le =>
      subst left right
      rw [eat] at le
      split at le
      · rw [List.length_cons] at le
        omega
      · rename_i hpa
        rw [eat, eat, if_neg hpa, if_neg hpa]
        exact ⟨[], rfl, rfl⟩

theorem numberRest_cut (c : UInt8) (h : Cut y y' l l')
    (hw : Within isblank y y' (numberRest c l).length) :
    Cut y y' (numberRest c l) (numberRest c l') := by
  have hx : ∀ c, isblank c = true → (c == chr 'x' || c == chr 'X') = false :=
    notBlank_of (by decide) (by decide)
  have he : ∀ c, isblank c = true → (c == chr 'e' || c == chr 'E') = false :=
    notBlank_of (by decide) (by decide)
  have hsign : ∀ c, isblank c = true → (c == chr '+' || c == chr '-') = false :=
    notBlank_of (by decide) (by decide)
  have hdot : ∀ c : UInt8, isblank c = true → (isdigit c.toNat || c == chr '.') = false :=
    notBlank_of (by decide) (by decide)
  have hdigit : ∀ c : UInt8, isblank c = true → isdigit c.toNat = false :=
    notBlank_of (by decide) (by decide)
  have hxdigit : ∀ c, isblank c = true → isxdigit c = false := notBlank_of (by decide) (by decide)
  have hrun {l : List UInt8} (p : UInt8 → Bool) : (l.dropWhile p).length ≤ l.length :=
    (List.dropWhile_suffix p).length_le
  have heat {l : List UInt8} (p : UInt8 → Bool) : (eat p l).length ≤ l.length :=
    (eat_suffix p l).length_le
  unfold numberRest at hw ⊢
  dsimp only at hw ⊢
  rw [← h.head hx hw]
  by_cases h₁ : c = chr '0' ∧ l.head?.any (fun c => c == chr 'x' || c == chr 'X') = true
  · rw [if_pos h₁] at hw
    rw [if_pos h₁, if_pos h₁]
    exact ((eat_cut hx h (hw.mono (hrun _))).takeWhile hxdigit hw).2
  · rw [if_neg h₁] at hw
    rw [if_neg h₁, if_neg h₁]
    by_cases h₂ : (l.dropWhile fun c => isdigit c.toNat || c == chr '.').head?.any
        (fun c => c == chr 'e' || c == chr 'E') = true
    · rw [if_pos h₂] at hw
      have hw₃ := hw.mono (hrun _)
      have hw₂ := hw₃.mono (heat _)
      have hw₁ := hw₂.mono (heat _)
      have hcut := (h.takeWhile hdot hw₁).2
      have h₂' := (hcut.head he hw).symm.trans h₂
      rw [if_pos h₂, if_pos h₂']
      exact ((eat_cut hsign (eat_cut he hcut hw₂) hw₃).takeWhile hdigit hw).2
    · rw [if_neg h₂] at hw
      have hcut := (h.takeWhile hdot hw).2
      rw [if_neg h₂, if_neg fun h₂' => h₂ ((hcut.head he hw).trans h₂')]
      exact hcut

/-! ## Tokens -/

theorem look_cut {n : Nat} (h : Cut y y' l l') (hw : Within isblank y y' n) : look l = look l' :=
  h.look hw

/-- A token of a scanner without phases. -/
def PlainLocal (token : UInt8 → List UInt8 → List UInt8 × Option Color) : Prop :=
  ∀ {a : UInt8} {l l' y y' : List UInt8}, Cut y y' l l' →
    Within isblank y y' (token a l).1.length →
    (token a l).2 = (token a l').2 ∧
      (Cut y y' (token a l).1 (token a l').1 ∨ (∀ b ∈ y, isblank b = true) ∧
        (token a l).1.length ≤ y.length ∧ (token a l').1.length ≤ y'.length)

theorem json_cut : PlainLocal fun a l => jsonToken (a :: l) := by
  intro a l l' y y' h hw
  dsimp only at hw ⊢
  have hdigit : ∀ c : UInt8, isblank c = true → isdigit c.toNat = false :=
    notBlank_of (by decide) (by decide)
  have hnumber : ∀ c : UInt8, isblank c = true →
      (isdigit c.toNat || (str ".eE+-").contains c) = false :=
    notBlank_of (by decide) (by decide)
  have halpha : ∀ c, isblank c = true → isalpha c = false := notBlank_of (by decide) (by decide)
  rw [jsonToken] at hw
  rw [jsonToken, jsonToken]
  by_cases hq : a = chr '"'
  · simp only [if_pos hq] at hw ⊢
    replace hw : Within isblank y y' ((quoteRest a l).getD []).length := by
      revert hw
      cases quoteRest a l <;> exact id
    have hclosing : Closing isblank (quoteRest a) := quoteRest_closing (by rw [hq]; decide)
    rcases hclosing.within h hw with ⟨t, t', ht, ht', hcut⟩ | ⟨ht, ht', hblank⟩
    · rw [ht, ht']
      dsimp only
      rw [ht, Option.getD_some] at hw
      rw [look_cut hcut hw]
      exact ⟨rfl, .inl hcut⟩
    · rw [ht, ht']
      exact ⟨rfl, .inr ⟨hblank, Nat.zero_le _, Nat.zero_le _⟩⟩
  simp only [if_neg hq] at hw ⊢
  by_cases hbrace : (str "[]" ++ [123, 125]).contains a = true
  · simp only [if_pos hbrace]
    exact ⟨trivial, .inl h⟩
  simp only [if_neg hbrace] at hw ⊢
  simp only [← h.head hdigit hw]
  by_cases hn : isdigit a.toNat = true ∨
      (a = chr '-' ∧ l.head?.any (fun c => isdigit c.toNat) = true)
  · simp only [if_pos hn] at hw ⊢
    exact ⟨trivial, .inl (h.takeWhile hnumber hw).2⟩
  simp only [if_neg hn] at hw ⊢
  by_cases ha : isalpha a = true
  · simp only [if_pos ha] at hw ⊢
    obtain ⟨htake, hcut⟩ := h.takeWhile halpha hw
    rw [htake]
    exact ⟨rfl, .inl hcut⟩
  · simp only [if_neg ha]
    exact ⟨trivial, .inl h⟩

/-- The star that opens a comment is in front of the ends. -/
theorem star_cut (h : Cut y y' l l') (hw : Within isblank y y' ((commentRest l.tail).getD []).length)
    (hstar : l.head?.any (· == chr '*') = true) : Cut y y' l.tail l'.tail := by
  match l, hstar with
  | c :: l, hstar =>
    rw [List.head?_cons, Option.any_some, beq_iff_eq] at hstar
    subst hstar
    have hlen : y.length ≤ l.length := by
      cases hw with
      | inside ha left right le =>
        exact Nat.le_trans le (getD_suffix (fun r => commentRest_suffix) List.suffix_rfl).length_le
      | padded left right =>
        obtain ⟨x, hx, -⟩ := h
        match x, hx with
        | [], hx =>
          have hblank := left (chr '*') (by rw [← List.nil_append y, ← hx]; exact List.mem_cons_self)
          exact absurd hblank (by decide)
        | d :: x, hx =>
          rw [(List.cons.inj hx).2]
          exact (List.suffix_append x y).length_le
    obtain ⟨l₁, rfl, hcut⟩ := h.tail hlen
    exact hcut

theorem code_cut (L : Lexis) : PlainLocal fun a l => codeToken L (a :: l) := by
  intro a l l' y y' h hw
  dsimp only at hw ⊢
  have hslash : ∀ c : UInt8, isblank c = true → (c == chr '/') = false :=
    notBlank_of (by decide) (by decide)
  have hstar : ∀ c : UInt8, isblank c = true → (c == chr '*') = false :=
    notBlank_of (by decide) (by decide)
  rw [codeToken] at hw
  rw [codeToken, codeToken]
  simp only [← h.head hslash hw, ← h.head hstar hw]
  by_cases hline : a = chr '/' ∧ l.head?.any (· == chr '/') = true
  · -- the comment has all of the line
    simp only [if_pos hline] at hw ⊢
    cases hw with
    | padded left right => exact ⟨trivial, .inr ⟨left, Nat.zero_le _, Nat.zero_le _⟩⟩
    | inside ha left right le =>
      rw [left] at le
      exact absurd le (Nat.not_succ_le_zero _)
  simp only [if_neg hline] at hw ⊢
  by_cases hblock : a = chr '/' ∧ l.head?.any (· == chr '*') = true
  · simp only [if_pos hblock] at hw ⊢
    have hcut := star_cut h hw hblock.2
    rcases commentRest_closing.within hcut hw with ⟨t, t', ht, ht', hrest⟩ | ⟨ht, ht', hblank⟩
    · rw [ht, ht']
      exact ⟨trivial, .inl hrest⟩
    · rw [ht, ht']
      exact ⟨trivial, .inr ⟨hblank, Nat.zero_le _, Nat.zero_le _⟩⟩
  simp only [if_neg hblock] at hw ⊢
  by_cases hq : L.quote a = true
  · simp only [if_pos hq] at hw ⊢
    have hclosing : Closing isblank (quoteRest a) := quoteRest_closing (by
      by_contra hblank
      rw [Bool.not_eq_false] at hblank
      rw [(L.notBlank a hblank).1] at hq
      cases hq)
    rcases hclosing.within h hw with ⟨t, t', ht, ht', hcut⟩ | ⟨ht, ht', hblank⟩
    · rw [ht, ht']
      exact ⟨trivial, .inl hcut⟩
    · rw [ht, ht']
      exact ⟨trivial, .inr ⟨hblank, Nat.zero_le _, Nat.zero_le _⟩⟩
  simp only [if_neg hq] at hw ⊢
  by_cases hn : isdigit a.toNat = true
  · simp only [if_pos hn] at hw ⊢
    have hle := (List.dropWhile_suffix (l := numberRest a l) L.suffix).length_le
    have hcut := numberRest_cut a h (hw.mono hle)
    exact ⟨trivial, .inl (hcut.takeWhile (fun c hc => (L.notBlank c hc).2.1) hw).2⟩
  simp only [if_neg hn] at hw ⊢
  by_cases hf : L.first a = true
  · simp only [if_pos hf] at hw ⊢
    obtain ⟨htake, hcut⟩ := h.takeWhile (fun c hc => (L.notBlank c hc).2.2) hw
    rw [htake, look_cut hcut hw]
    exact ⟨rfl, .inl hcut⟩
  simp only [if_neg hf] at hw ⊢
  split
  · exact ⟨rfl, .inl h⟩
  · split
    · exact ⟨rfl, .inl h⟩
    · exact ⟨rfl, .inl h⟩

/-! ## Lines -/

theorem closeRest_cut (q : UInt8) : ∀ {l l' : List UInt8}, Cut y y' l l' →
    closeRest q l = some r → y.length ≤ r.length → ∃ r', closeRest q l' = some r' ∧ Cut y y' r r'
  | [], _, _, h, _ => nomatch h
  | c :: l, l', hc, h, hle => by
    rw [closeRest] at h
    by_cases hq : c = q
    · rw [if_pos hq] at h
      cases h
      obtain ⟨l₁, rfl, hcut⟩ := hc.tail hle
      exact ⟨l₁, by rw [closeRest, if_pos hq], hcut⟩
    · rw [if_neg hq] at h
      have hr := (closeRest_suffix q h).length_le
      obtain ⟨l₁, rfl, hcut⟩ := hc.tail (by omega)
      obtain ⟨r', hr', hrest⟩ := closeRest_cut q hcut h hle
      exact ⟨r', by rw [closeRest, if_neg hq, hr'], hrest⟩

theorem closeRest_notBlank {q : UInt8} (hq : isblank q = false)
    (hy : ∀ a ∈ y, isblank a = true) : ∀ {x : List UInt8}, closeRest q (x ++ y) = some r →
      y.length ≤ r.length
  | [], h => by
    have hnone : ∀ {l : List UInt8}, (∀ a ∈ l, isblank a = true) → closeRest q l = none := by
      intro l hl
      induction l with
      | nil => rfl
      | cons c l ih =>
        rw [closeRest, if_neg, ih fun a ha => hl a (List.mem_cons_of_mem c ha)]
        rintro rfl
        rw [hl c List.mem_cons_self] at hq
        cases hq
    rw [List.nil_append, hnone hy] at h
    cases h
  | c :: x, h => by
    rw [List.cons_append, closeRest] at h
    split at h
    · cases h
      exact (List.suffix_append x y).length_le
    · exact closeRest_notBlank hq hy h

theorem closeRest_closing {q : UInt8} (hq : isblank q = false) :
    Closing isblank (closeRest q) where
  cut := closeRest_cut q
  notBlank hy h := closeRest_notBlank hq hy h

/-- A token up to a closing char. -/
theorem closeRest_getD_cut {q : UInt8} (hq : isblank q = false) (h : Cut y y' l l')
    (hw : Within isblank y y' ((closeRest q l).getD []).length) :
    Cut y y' ((closeRest q l).getD []) ((closeRest q l').getD []) ∨
      (∀ b ∈ y, isblank b = true) ∧ ((closeRest q l).getD []).length ≤ y.length ∧
        ((closeRest q l').getD []).length ≤ y'.length := by
  rcases (closeRest_closing hq).within h hw with ⟨t, t', ht, ht', hcut⟩ | ⟨ht, ht', hblank⟩
  · rw [ht, ht']
    exact .inl hcut
  · rw [ht, ht']
    exact .inr ⟨hblank, Nat.zero_le _, Nat.zero_le _⟩

/-- A comment has all of the line. -/
theorem nothing_left (hw : Within isblank y y' ([] : List UInt8).length) :
    (∀ b ∈ y, isblank b = true) ∧ ([] : List UInt8).length ≤ y.length ∧
      ([] : List UInt8).length ≤ y'.length := by
  cases hw with
  | padded left right => exact ⟨left, Nat.zero_le _, Nat.zero_le _⟩
  | inside ha left right le =>
    rw [left] at le
    exact absurd le (Nat.not_succ_le_zero _)

/-- A run that stops in `x`, or has only blanks behind it. -/
theorem trimmed_append {p : UInt8 → Bool} (x z : List UInt8)
    (h : (∀ a ∈ x, p a = true) → ∀ a ∈ z.takeWhile p, isblank a = true) :
    trimmed p (x ++ z) = trimmed p x := by
  unfold trimmed
  by_cases hx : ∀ a ∈ x, p a = true
  · rw [List.takeWhile_append_of_pos hx, List.takeWhile_eq_self_iff.mpr hx, List.rdropWhile,
      List.rdropWhile, List.reverse_append, List.dropWhile_append_of_pos]
    exact fun a ha => h hx a (List.mem_reverse.mp ha)
  · rw [List.takeWhile_append, if_neg]
    intro hlen
    refine hx (List.takeWhile_eq_self_iff.mp ?_)
    exact (List.takeWhile_prefix p).eq_of_length hlen

/-- A char that is not blank stays, and what is in front of it. -/
theorem prefix_rdropWhile {b : UInt8} (hb : isblank b = false) (x u : List UInt8) :
    x ++ [b] <+: (x ++ [b] ++ u).rdropWhile isblank := by
  induction u using List.reverseRecOn with
  | nil =>
    rw [List.append_nil, List.rdropWhile_concat_neg _ _ _ (Bool.eq_false_iff.mp hb)]
  | append_singleton u d ih =>
    rw [← List.append_assoc, List.rdropWhile_concat]
    split
    · exact ih
    · rw [List.append_assoc]
      exact List.prefix_append _ _

theorem length_trimmed_le (p : UInt8 → Bool) (x : List UInt8) :
    (trimmed p x).length ≤ x.length :=
  ((List.rdropWhile_prefix _ _).trans (List.takeWhile_prefix p)).length_le

/-- A run without the blanks at its end. -/
theorem trim_cut {p : UInt8 → Bool} (h : Cut y y' l l')
    (hw : Within isblank y y' (trimRest p l).length) :
    trimmed p l = trimmed p l' ∧ Cut y y' (trimRest p l) (trimRest p l') := by
  obtain ⟨x, rfl, rfl⟩ := h
  have hboth : trimmed p (x ++ y) = trimmed p x ∧ trimmed p (x ++ y') = trimmed p x := by
    cases hw with
    | padded left right =>
      have hblank {z : List UInt8} (hz : ∀ a ∈ z, isblank a = true) :
          ∀ a ∈ z.takeWhile p, isblank a = true :=
        fun a ha => hz a ((List.takeWhile_prefix p).subset ha)
      exact ⟨trimmed_append x y fun _ => hblank left, trimmed_append x y' fun _ => hblank right⟩
    | @inside b t t' hb left right le =>
      subst left right
      have hstop : (∀ a ∈ x, p a = true) → p b = false := by
        intro hx
        by_contra hpb
        rw [Bool.not_eq_false] at hpb
        -- the first char behind it would belong to the run
        have hlong : x.length + 1 ≤ (trimmed p (x ++ b :: t)).length := by
          have hrun : (x ++ b :: t).takeWhile p = (x ++ [b]) ++ t.takeWhile p := by
            rw [List.takeWhile_append_of_pos hx, List.takeWhile_cons, if_pos hpb,
              List.append_assoc]
            rfl
          have hle := (prefix_rdropWhile hb x (t.takeWhile p)).length_le
          rw [List.length_append, List.length_singleton] at hle
          rwa [trimmed, hrun]
        rw [trimRest, List.length_drop, List.length_append, List.length_cons] at le
        omega
      have hnone (z : List UInt8) (hx : ∀ a ∈ x, p a = true) :
          ∀ a ∈ (b :: z).takeWhile p, isblank a = true := by
        rw [List.takeWhile_cons, hstop hx, if_neg Bool.false_ne_true]
        exact fun a ha => absurd ha List.not_mem_nil
      exact ⟨trimmed_append x _ (hnone t), trimmed_append x _ (hnone t')⟩
  refine ⟨hboth.1.trans hboth.2.symm, x.drop (trimmed p x).length, ?_, ?_⟩
  · rw [trimRest, hboth.1, List.drop_append_of_le_length (length_trimmed_le p x)]
  · rw [trimRest, hboth.2, List.drop_append_of_le_length (length_trimmed_le p x)]

theorem c_local : cScanner.Local isblank := by
  intro ph a l l' y y' h hw
  have halpha : ∀ c, isblank c = true → isalpha c = false := notBlank_of (by decide) (by decide)
  dsimp only [cScanner] at hw ⊢
  cases ph with
  | start =>
    rw [cToken] at hw
    rw [cToken, cToken]
    by_cases hb : isblank a = true
    · simp only [if_pos hb]
      exact ⟨trivial, .inl ⟨trivial, h⟩⟩
    simp only [if_neg hb] at hw ⊢
    by_cases hhash : a = chr '#'
    · simp only [if_pos hhash] at hw ⊢
      obtain ⟨hword, hcut⟩ := h.takeWhile halpha hw
      rw [hword, look_cut hcut hw]
      exact ⟨trivial, .inl ⟨rfl, hcut⟩⟩
    · simp only [if_neg hhash] at hw ⊢
      exact (code_cut cLexis h hw).imp_right fun hc => hc.imp_left fun hc => ⟨trivial, hc⟩
  | path =>
    rw [cToken] at hw
    rw [cToken, cToken]
    by_cases hb : isblank a = true
    · simp only [if_pos hb]
      exact ⟨trivial, .inl ⟨trivial, h⟩⟩
    · simp only [if_neg hb] at hw ⊢
      exact ⟨trivial, (closeRest_getD_cut (by decide) h hw).imp_left fun hc => ⟨trivial, hc⟩⟩
  | tokens | command | args | keyEnd | value | valueEnd =>
    exact (code_cut cLexis h hw).imp_right fun hc => hc.imp_left fun hc => ⟨rfl, hc⟩

theorem rdCommand_cut {a : UInt8} (h : Cut y y' l l')
    (hw : Within isblank y y' (rdCommand a l).rest.length) :
    (rdCommand a l).mark = (rdCommand a l').mark ∧
      (rdCommand a l).phase = (rdCommand a l').phase ∧
        Cut y y' (rdCommand a l).rest (rdCommand a l').rest := by
  have hword : ∀ c, isblank c = true → (!isblank c) = false := fun c hc => by rw [hc]; rfl
  unfold rdCommand at hw ⊢
  by_cases hb : isblank a = true
  · simp only [if_pos hb]
    exact ⟨trivial, trivial, h⟩
  · simp only [if_neg hb] at hw ⊢
    exact ⟨trivial, trivial, (h.takeWhile hword hw).2⟩

theorem rdArg_cut {a : UInt8} (h : Cut y y' l l')
    (hw : Within isblank y y' (rdArg a l).rest.length) :
    (rdArg a l).mark = (rdArg a l').mark ∧
      ((rdArg a l).phase = (rdArg a l').phase ∧ Cut y y' (rdArg a l).rest (rdArg a l').rest ∨
        (∀ b ∈ y, isblank b = true) ∧ (rdArg a l).rest.length ≤ y.length ∧
          (rdArg a l').rest.length ≤ y'.length) := by
  have hslash : ∀ c : UInt8, isblank c = true → (c == chr '/') = false :=
    notBlank_of (by decide) (by decide)
  have hplain : ∀ c, isblank c = true → (!endsToken c) = false := notBlank_of (by decide) (by decide)
  unfold rdArg at hw ⊢
  by_cases hb : isblank a = true
  · simp only [if_pos hb]
    exact ⟨trivial, .inl ⟨trivial, h⟩⟩
  simp only [if_neg hb] at hw ⊢
  by_cases ho : (str "|><&").contains a = true
  · simp only [if_pos ho]
    exact ⟨trivial, .inl ⟨trivial, h⟩⟩
  simp only [if_neg ho] at hw ⊢
  by_cases hq : a = chr '"'
  · simp only [if_pos hq] at hw ⊢
    exact ⟨trivial, (closeRest_getD_cut (by rw [hq]; decide) h hw).imp_left fun hc =>
      ⟨trivial, hc⟩⟩
  · simp only [if_neg hq] at hw ⊢
    have hcolor : rdPlain a l = rdPlain a l' := by
      unfold rdPlain
      rw [h.head hslash hw]
    rw [hcolor]
    exact ⟨rfl, .inl ⟨trivial, (h.takeWhile hplain hw).2⟩⟩

theorem rd_local : rdScanner.Local isblank := by
  intro ph a l l' y y' h hw
  dsimp only [rdScanner] at hw ⊢
  cases ph with
  | start =>
    rw [rdToken] at hw
    rw [rdToken, rdToken]
    by_cases hhash : a = chr '#'
    · simp only [if_pos hhash] at hw ⊢
      exact ⟨trivial, .inr (nothing_left hw)⟩
    simp only [if_neg hhash] at hw ⊢
    by_cases hat : a = chr '@'
    · simp only [if_pos hat]
      exact ⟨trivial, .inl ⟨trivial, h⟩⟩
    · simp only [if_neg hat] at hw ⊢
      exact (rdCommand_cut h hw).imp_right .inl
  | command => exact (rdCommand_cut h hw).imp_right .inl
  | tokens | path | args | keyEnd | value | valueEnd => exact rdArg_cut h hw

theorem conf_local : confScanner.Local isblank := by
  intro ph a l l' y y' h hw
  dsimp only [confScanner] at hw ⊢
  by_cases hhash : a = chr '#'
  · -- a comment in every phase
    have htoken (l : List UInt8) : confToken ph a l = ⟨.valueEnd, [], some comment⟩ := by
      rw [hhash]
      cases ph <;> rfl
    rw [htoken] at hw
    rw [htoken, htoken]
    exact ⟨rfl, .inr (nothing_left hw)⟩
  cases ph with
  | start =>
    simp only [confToken, if_neg hhash] at hw ⊢
    by_cases hb : isblank a = true
    · simp only [if_pos hb]
      exact ⟨trivial, .inl ⟨trivial, h⟩⟩
    simp only [if_neg hb] at hw ⊢
    by_cases heq : a = chr '='
    · simp only [if_pos heq]
      exact ⟨trivial, .inl ⟨trivial, h⟩⟩
    · simp only [if_neg heq] at hw ⊢
      exact ⟨trivial, .inl ⟨trivial, (trim_cut h hw).2⟩⟩
  | keyEnd =>
    simp only [confToken, if_neg hhash]
    by_cases heq : a = chr '='
    · simp only [if_pos heq]
      exact ⟨trivial, .inl ⟨trivial, h⟩⟩
    · simp only [if_neg heq]
      exact ⟨trivial, .inl ⟨trivial, h⟩⟩
  | value =>
    simp only [confToken, if_neg hhash] at hw ⊢
    by_cases hb : isblank a = true
    · simp only [if_pos hb]
      exact ⟨trivial, .inl ⟨trivial, h⟩⟩
    · simp only [if_neg hb] at hw ⊢
      obtain ⟨hvalue, hcut⟩ := trim_cut h hw
      rw [hvalue]
      exact ⟨rfl, .inl ⟨trivial, hcut⟩⟩
  | tokens | path | command | args | valueEnd =>
    simp only [confToken, if_neg hhash]
    exact ⟨trivial, .inl ⟨trivial, h⟩⟩

theorem lineScanner_local (m : SyntaxMode) : (lineScanner m).Local isblank := by
  cases m with
  | none =>
    intro ph a l l' y y' h hw
    exact ⟨rfl, .inl ⟨rfl, h⟩⟩
  | json =>
    intro ph a l l' y y' h hw
    exact (json_cut h hw).imp_right fun hc => hc.imp_left fun hc => ⟨rfl, hc⟩
  | rd => exact rd_local
  | conf => exact conf_local
  | js =>
    intro ph a l l' y y' h hw
    exact (code_cut jsLexis h hw).imp_right fun hc => hc.imp_left fun hc => ⟨rfl, hc⟩
  | c => exact c_local

end Evim.Color
