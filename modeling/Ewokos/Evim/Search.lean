import Ewokos.Lib.Neighbour
import Ewokos.Evim.AutoIndent
import Ewokos.Evim.Substitution

/-!
# evim: searching on and back

One step of `n` and `N` over the set of places where the last pattern occurs.

* `charSearch_forward`, `charSearch_back` — the two loops of `char_search` find the first and the
  last occurrence of their range.
* `searchRound_dot` — a step is a search from the cursor, then one through the whole text.
* `search_neighbour_iff` — when a step goes to the neighbouring occurrence.
-/

set_option autoImplicit false

namespace Evim.Ed

open Cells Neighbour
open CString hiding strchr

variable {s : Ed} {pat : List UInt8} {p q : Int} {n : Nat}

/-! ## Occurrences -/

/-- The bytes from `p` on are the pattern, up to the case with `ignorecase`. -/
def Occurs (s : Ed) (pat : List UInt8) (p : Int) : Prop :=
  s.text ≤ p ∧ p + pat.length ≤ s.end_ ∧
    ((s.bytes.drop (p - s.text).toNat).take pat.length).map s.foldCase = pat.map s.foldCase

/-- Where the pattern occurs. -/
def occurrences (s : Ed) (pat : List UInt8) : Set Int := {p | s.Occurs pat p}

theorem slice_between (h₀ : s.text ≤ p) (h₁ : p + n ≤ s.end_) :
    slice s.mem p n = (s.bytes.drop (p - s.text).toNat).take n := by
  have hlen := s.length_bytes
  rw [← slice_bytes s.toBuf (by omega)]
  congr 1
  omega

/-- A match does not reach over the newline at the end. -/
theorem mycmp_short (hlast : s.mem (s.end_ - 1) = NL) (hnl : NL ∉ pat) (h₁ : p < s.end_)
    (h : s.mycmp p pat = true) : p + pat.length < s.end_ := by
  by_contra hlong
  obtain ⟨k, hk⟩ : ∃ k : Nat, s.end_ - 1 = p + k := ⟨(s.end_ - 1 - p).toNat, by omega⟩
  rw [mycmp_slice, beq_iff_eq] at h
  refine s.foldCase_newline hnl ?_
  rw [← h]
  refine List.mem_map_of_mem ?_
  rw [mem_slice]
  exact ⟨k, by omega, by rw [← hk, hlast]⟩

theorem mycmp_iff (hlast : s.mem (s.end_ - 1) = NL) (hnl : NL ∉ pat) (h₀ : s.text ≤ p)
    (h₁ : p < s.end_) : s.mycmp p pat = true ↔ s.Occurs pat p := by
  constructor
  · intro h
    have hshort := mycmp_short hlast hnl h₁ h
    rw [mycmp_slice, slice_between h₀ (by omega), beq_iff_eq] at h
    exact ⟨h₀, by omega, h⟩
  · rintro ⟨-, hfit, h⟩
    rw [mycmp_slice, slice_between h₀ hfit, beq_iff_eq]
    exact h

/-- An occurrence ends in front of the last newline. -/
theorem Occurs.short (hlast : s.mem (s.end_ - 1) = NL) (hnl : NL ∉ pat) (hpat : pat ≠ [])
    (h : s.Occurs pat p) : p + pat.length ≤ s.end_ - 1 := by
  have hpos := List.length_pos_of_ne_nil hpat
  have hfit := h.2.1
  have := mycmp_short hlast hnl (by omega) ((mycmp_iff hlast hnl h.1 (by omega)).mpr h)
  omega

/-! ## The two loops -/

theorem searchForward_found (s : Ed) (pat : List UInt8) : ∀ (n : Nat) (p : Int),
    Found lowerBounds {i | p ≤ i ∧ i < p + n ∧ s.mycmp i pat = true} (s.searchForward pat n p)
  | 0, p => Set.eq_empty_of_forall_notMem fun i hi => by
    obtain ⟨h₁, h₂, -⟩ := hi
    omega
  | n + 1, p => by
    unfold searchForward
    split
    · rename_i hcmp
      exact ⟨⟨Int.le_refl p, by omega, hcmp⟩, fun i hi => hi.1⟩
    · rename_i hcmp
      have ih := searchForward_found s pat n (p + 1)
      have hsame : {i | p ≤ i ∧ i < p + (n + 1 : Nat) ∧ s.mycmp i pat = true} =
          {i | p + 1 ≤ i ∧ i < p + 1 + n ∧ s.mycmp i pat = true} := by
        ext i
        constructor
        · rintro ⟨h₁, h₂, h₃⟩
          have hne : p ≠ i := by
            rintro rfl
            exact hcmp h₃
          exact ⟨by omega, by omega, h₃⟩
        · rintro ⟨h₁, h₂, h₃⟩
          exact ⟨by omega, by omega, h₃⟩
      rwa [hsame]

theorem searchBack_found (s : Ed) (pat : List UInt8) : ∀ (n : Nat) (p : Int),
    Found upperBounds {i | p - n < i ∧ i ≤ p ∧ s.mycmp i pat = true} (s.searchBack pat n p)
  | 0, p => Set.eq_empty_of_forall_notMem fun i hi => by
    obtain ⟨h₁, h₂, -⟩ := hi
    omega
  | n + 1, p => by
    unfold searchBack
    split
    · rename_i hcmp
      exact ⟨⟨by omega, Int.le_refl p, hcmp⟩, fun i hi => hi.2.1⟩
    · rename_i hcmp
      have ih := searchBack_found s pat n (p - 1)
      have hsame : {i | p - (n + 1 : Nat) < i ∧ i ≤ p ∧ s.mycmp i pat = true} =
          {i | p - 1 - n < i ∧ i ≤ p - 1 ∧ s.mycmp i pat = true} := by
        ext i
        constructor
        · rintro ⟨h₁, h₂, h₃⟩
          have hne : i ≠ p := by
            rintro rfl
            exact hcmp h₃
          exact ⟨by omega, by omega, h₃⟩
        · rintro ⟨h₁, h₂, h₃⟩
          exact ⟨by omega, by omega, h₃⟩
      rwa [hsame]

/-- Forward from `p`, the first occurrence. -/
theorem charSearch_forward (hlast : s.mem (s.end_ - 1) = NL) (hnl : NL ∉ pat) (hpat : pat ≠ [])
    (h₀ : s.text ≤ p) :
    Found lowerBounds {i ∈ s.occurrences pat | p ≤ i} (s.charSearch p pat true true) := by
  have hfound := s.searchForward_found pat (s.end_ - 1 - p).toNat p
  have hsame : {i ∈ s.occurrences pat | p ≤ i} =
      {i | p ≤ i ∧ i < p + (s.end_ - 1 - p).toNat ∧ s.mycmp i pat = true} := by
    have hpos := List.length_pos_of_ne_nil hpat
    ext i
    constructor
    · rintro ⟨hi, hpi⟩
      have hshort := Occurs.short hlast hnl hpat hi
      exact ⟨hpi, by omega, (mycmp_iff hlast hnl hi.1 (by omega)).mpr hi⟩
    · rintro ⟨hpi, hlt, hcmp⟩
      exact ⟨(mycmp_iff hlast hnl (by omega) (by omega)).mp hcmp, hpi⟩
  rwa [hsame]

/-- Backward from `p`, the last occurrence that ends in front of `p`. -/
theorem charSearch_back (hlast : s.mem (s.end_ - 1) = NL) (hnl : NL ∉ pat) (hpat : pat ≠ [])
    (h₁ : p < s.end_) :
    Found upperBounds {i ∈ s.occurrences pat | i ≤ p - pat.length}
      (s.charSearch p pat false true) := by
  have hfound := s.searchBack_found pat (p - pat.length - s.text + 1).toNat (p - pat.length)
  have hsame : {i ∈ s.occurrences pat | i ≤ p - pat.length} =
      {i | p - pat.length - (p - pat.length - s.text + 1).toNat < i ∧ i ≤ p - pat.length ∧
        s.mycmp i pat = true} := by
    have hpos := List.length_pos_of_ne_nil hpat
    ext i
    constructor
    · rintro ⟨hi, hip⟩
      have h₀ := hi.1
      exact ⟨by omega, hip, (mycmp_iff hlast hnl h₀ (by omega)).mpr hi⟩
    · rintro ⟨hlt, hip, hcmp⟩
      exact ⟨(mycmp_iff hlast hnl (by omega) (by omega)).mp hcmp, hip⟩
  rwa [hsame]

/-! ## One step -/

/-- Where a step goes. -/
theorem searchRound_dot (s : Ed) (forward : Bool) {pat : List UInt8}
    (hp : s.lastSearchPattern.drop 1 = pat) :
    (searchRound forward s).dot =
      ((s.charSearch (if forward then s.dot + 1 else s.dot - 1) pat forward true).or
        (s.charSearch (if forward then s.text else s.end_ - 1) pat forward true)).getD s.dot := by
  unfold searchRound
  rw [hp]
  dsimp only
  split
  · rename_i q hq
    rw [hq]
    rfl
  · rename_i hq
    rw [hq, Option.none_or]
    split
    · rename_i r hr
      rw [hr]
      rfl
    · rename_i hr
      rw [hr]
      rfl

/-- `r` is where a step from `d` is to go. -/
def Neighbour (s : Ed) (forward : Bool) (r : Int) : Prop :=
  if forward then Next (s.occurrences (s.lastSearchPattern.drop 1)) s.dot r
  else Prev (s.occurrences (s.lastSearchPattern.drop 1)) s.dot r

/-- A forward step always goes to the next occurrence.  A backward step goes to the previous one
exactly when none starts within a pattern's length before the cursor, or when all of them do. -/
theorem search_neighbour_iff (forward : Bool) (hnl : s.bytes.getLast? = some NL)
    (hpat : s.lastSearchPattern.drop 1 ≠ []) (hline : NL ∉ s.lastSearchPattern.drop 1)
    (h₀ : s.text ≤ s.dot) (h₁ : s.dot < s.end_) :
    (s.Neighbour forward (searchRound forward s).dot ↔
      forward = true ∨
      (∀ p ∈ s.occurrences (s.lastSearchPattern.drop 1), p < s.dot →
        p < s.dot - (s.lastSearchPattern.drop 1).length) ∨
      (∀ p ∈ s.occurrences (s.lastSearchPattern.drop 1),
        s.dot - (s.lastSearchPattern.drop 1).length ≤ p ∧ p < s.dot)) ∧
      (s.cmdcnt ≤ 1 → ∃ t, s.searchIn forward = some t ∧ t.dot = (searchRound forward s).dot) := by
  have hlast := Buf.mem_last hnl
  refine ⟨?_, fun hcnt => ?_⟩
  · rw [searchRound_dot s forward rfl]
    unfold Neighbour
    generalize s.lastSearchPattern.drop 1 = pat at hpat hline
    cases forward with
    | true =>
      refine iff_of_true ?_ (.inl rfl)
      have hahead := charSearch_forward hlast hline hpat (show s.text ≤ s.dot + 1 by omega)
      have hall := charSearch_forward hlast hline hpat (Int.le_refl s.text)
      refine next_of_found hahead ?_
      have hevery : {i ∈ s.occurrences pat | s.text ≤ i} = s.occurrences pat :=
        Set.sep_eq_self_iff_mem_true.mpr fun i hi => hi.1
      rwa [hevery] at hall
    | false =>
      have hbefore := charSearch_back hlast hline hpat (show s.dot - 1 < s.end_ by omega)
      have hall := charSearch_back hlast hline hpat (show s.end_ - 1 < s.end_ by omega)
      have hevery : {i ∈ s.occurrences pat | i ≤ s.end_ - 1 - pat.length} = s.occurrences pat :=
        Set.sep_eq_self_iff_mem_true.mpr fun i hi => by
          have := Occurs.short hlast hline hpat hi
          omega
      have hskip : {i ∈ s.occurrences pat | i ≤ s.dot - 1 - pat.length} =
          {i ∈ s.occurrences pat | i < s.dot - pat.length} := by
        ext i
        exact and_congr_right fun _ => ⟨fun h => by omega, fun h => by omega⟩
      rw [hskip] at hbefore
      rw [hevery] at hall
      rw [if_neg Bool.false_ne_true, if_neg Bool.false_ne_true, if_neg Bool.false_ne_true,
        prev_iff_of_found (by omega) hbefore hall]
      simp
  · have hrounds : s.rounds = 1 := by
      unfold rounds
      split <;> omega
    unfold searchIn times
    rw [if_neg hpat, hrounds]
    simp only [cmdLoop, Option.bind_eq_bind, Option.bind_some, Bool.not_true, Bool.false_eq_true,
      if_false, ite_self, Option.map_some]
    exact ⟨_, rfl, rfl⟩

/-- A text of one line, the last pattern `/ab`, and the cursor. -/
def searchingAt (line : List UInt8) (d : Int) : Ed :=
  { EditOp.holding line with
    rows := 24
    columns := 80
    tabstop := 8
    lastSearchPattern := str "/ab"
    dot := d }

/-- Back over a byte that is not of the pattern. -/
theorem search_neighbour_back :
    (searchingAt (str "ab.ab" ++ [NL]) 4099).Neighbour false
      (searchRound false (searchingAt (str "ab.ab" ++ [NL]) 4099)).dot := by
  refine (search_neighbour_iff false (by decide) (by decide) (by decide) (by decide)
    (by decide)).1.mpr (.inr (.inl ?_))
  rintro p ⟨hp, -, hocc⟩ hlt
  change p < 4099 at hlt
  change p < 4099 - 2
  by_contra hge
  have hat : p = 4097 ∨ p = 4098 := by omega
  rcases hat with rfl | rfl <;> exact absurd hocc (by decide +kernel)

/-- Of two adjacent occurrences, the first one is skipped. -/
theorem search_neighbour_adjacent :
    ¬ ∀ (s t : Ed), s.bytes.getLast? = some NL → s.lastSearchPattern.drop 1 ≠ [] →
      NL ∉ s.lastSearchPattern.drop 1 → s.text ≤ s.dot → s.dot < s.end_ → s.cmdcnt ≤ 1 →
      s.searchIn false = some t → s.Neighbour false t.dot := by
  intro h
  have hstay : ((searchingAt (str "abab" ++ [NL]) 4098).searchIn false).map Ed.dot = some 4098 := by
    decide +kernel
  obtain ⟨t, ht, hdot⟩ := Option.map_eq_some_iff.mp hstay
  have hbad := h _ t (by decide) (by decide) (by decide) (by decide) (by decide) (by decide) ht
  have hfirst : (4096 : Int) ∈ (searchingAt (str "abab" ++ [NL]) 4098).occurrences (str "ab") :=
    ⟨by decide, by decide, by decide +kernel⟩
  have hgreatest := hbad.before ⟨4096, hfirst, by decide⟩
  have hlt := hgreatest.1.2
  rw [hdot] at hlt
  exact absurd hlt (by decide)

end Evim.Ed
