import Mathlib.Order.Bounds.Basic

/-!
# The neighbour of a point in a set, going round at the ends

* `Next`, `Prev` — the element of a set next to a point; behind the last one comes the first.
* `Found` — the outcome of a search for one end of a set.
* `next_of_found` — a search behind the point, then one through the whole set, gives the next one.
* `prev_iff_of_found` — a backward search that starts too early, before `e`, gives the previous one
  exactly when nothing lies between `e` and the point, or everything does.
-/

set_option autoImplicit false

namespace Neighbour

section Found

variable {α : Type*} {S : Set α} {bounds : Set α → Set α} {o : Option α}

/-- An element of `S` that bounds `S`, if `S` has elements. -/
def Found (bounds : Set α → Set α) (S : Set α) : Option α → Prop
  | some q => q ∈ S ∧ q ∈ bounds S
  | none => S = ∅

theorem Found.eq_none (h : Found bounds S o) (he : S = ∅) : o = none := by
  cases o with
  | some q => exact absurd he (Set.Nonempty.ne_empty ⟨q, h.1⟩)
  | none => rfl

theorem Found.eq_some (h : Found bounds S o) (hne : S.Nonempty) :
    ∃ q, o = some q ∧ q ∈ S ∧ q ∈ bounds S := by
  cases o with
  | some q => exact ⟨q, rfl, h⟩
  | none => exact absurd h hne.ne_empty

end Found

variable {α : Type*} [LinearOrder α] {M : Set α} {d e r : α} {o₁ o₂ : Option α}

/-- `r` is the next element of `M` behind `d`, or the first one of all. -/
structure Next (M : Set α) (d r : α) : Prop where
  behind : (∃ p ∈ M, d < p) → IsLeast {p ∈ M | d < p} r
  round : (¬ ∃ p ∈ M, d < p) → M.Nonempty → IsLeast M r
  stay : M = ∅ → r = d

/-- `r` is the last element of `M` before `d`, or the last one of all. -/
structure Prev (M : Set α) (d r : α) : Prop where
  before : (∃ p ∈ M, p < d) → IsGreatest {p ∈ M | p < d} r
  round : (¬ ∃ p ∈ M, p < d) → M.Nonempty → IsGreatest M r
  stay : M = ∅ → r = d

theorem next_of_found (h₁ : Found lowerBounds {p ∈ M | d < p} o₁) (h₂ : Found lowerBounds M o₂) :
    Next M d ((o₁.or o₂).getD d) := by
  refine ⟨fun ⟨p, hp⟩ => ?_, fun hno hne => ?_, fun he => ?_⟩
  · obtain ⟨q, rfl, hq⟩ := h₁.eq_some ⟨p, hp⟩
    exact hq
  · rw [h₁.eq_none (Set.eq_empty_of_forall_notMem fun p hp => hno ⟨p, hp⟩)]
    obtain ⟨q, rfl, hq⟩ := h₂.eq_some hne
    exact hq
  · subst he
    rw [h₁.eq_none (Set.sep_empty _), h₂.eq_none rfl]
    rfl

theorem prev_of_found (h₁ : Found upperBounds {p ∈ M | p < d} o₁) (h₂ : Found upperBounds M o₂) :
    Prev M d ((o₁.or o₂).getD d) := by
  refine ⟨fun ⟨p, hp⟩ => ?_, fun hno hne => ?_, fun he => ?_⟩
  · obtain ⟨q, rfl, hq⟩ := h₁.eq_some ⟨p, hp⟩
    exact hq
  · rw [h₁.eq_none (Set.eq_empty_of_forall_notMem fun p hp => hno ⟨p, hp⟩)]
    obtain ⟨q, rfl, hq⟩ := h₂.eq_some hne
    exact hq
  · subst he
    rw [h₁.eq_none (Set.sep_empty _), h₂.eq_none rfl]
    rfl

/-- A search that skips what lies from `e` on. -/
theorem prev_iff_of_found (hed : e ≤ d) (h₁ : Found upperBounds {p ∈ M | p < e} o₁)
    (h₂ : Found upperBounds M o₂) :
    Prev M d ((o₁.or o₂).getD d) ↔
      (∀ p ∈ M, p < d → p < e) ∨ (∀ p ∈ M, e ≤ p ∧ p < d) := by
  constructor
  · intro hprev
    by_contra hno
    simp only [not_or, not_forall] at hno
    obtain ⟨⟨p, hp, hpd, hpe⟩, q, hq, hout⟩ := hno
    have hr := hprev.before ⟨p, hp, hpd⟩
    have hpr := hr.2 ⟨hp, hpd⟩
    -- what was found is not from before `e`
    have hnone : o₁ = none := by
      cases o₁ with
      | none => rfl
      | some x => exact absurd (lt_of_le_of_lt hpr h₁.1.2) hpe
    obtain ⟨x, rfl, hx⟩ := h₂.eq_some ⟨p, hp⟩
    rw [hnone] at hr h₁
    have hempty : {p ∈ M | p < e} = ∅ := h₁
    refine hout ⟨le_of_not_gt fun hqe => ?_, lt_of_le_of_lt (hx.2 hq) hr.1.2⟩
    exact Set.eq_empty_iff_forall_notMem.mp hempty q ⟨hq, hqe⟩
  · rintro (hskip | hall)
    · refine prev_of_found ?_ h₂
      have hsame : {p ∈ M | p < d} = {p ∈ M | p < e} :=
        Set.ext fun p => ⟨fun h => ⟨h.1, hskip p h.1 h.2⟩, fun h => ⟨h.1, lt_of_lt_of_le h.2 hed⟩⟩
      rwa [hsame]
    · have hnone := h₁.eq_none
        (Set.eq_empty_of_forall_notMem fun p hp => not_lt.mpr (hall p hp.1).1 hp.2)
      have hsame : {p ∈ M | p < d} = M := by
        ext p
        exact ⟨And.left, fun h => ⟨h, (hall p h).2⟩⟩
      rw [hnone]
      have hbefore : Found upperBounds {p ∈ M | p < d} o₂ := by rwa [hsame]
      have hprev := prev_of_found hbefore h₂
      rwa [Option.or_self] at hprev

end Neighbour
