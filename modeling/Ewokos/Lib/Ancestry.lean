import Mathlib

/-!
# Ancestry

A relation from an element to its parents, without cycles.

* `Common`, `Best` — the common ancestors of an element and some others, and those below no other
  one; `exists_best` — every common ancestor is below a best one.
* `painted_of_closed` — a set that passes to parents except at some places holds every ancestor
  that is not behind one of them.
-/

set_option autoImplicit false

namespace Ancestry

open Relation

variable {α : Type} {parent : α → α → Prop} {one : α} {twos : α → Prop} {c d : α}

/-- `c` is an ancestor of `one`, or `one` itself, and one of some of `twos`. -/
def Common (parent : α → α → Prop) (one : α) (twos : α → Prop) (c : α) : Prop :=
  ReflTransGen parent one c ∧ ∃ two, twos two ∧ ReflTransGen parent two c

/-- A common ancestor that is not behind another one. -/
def Best (parent : α → α → Prop) (one : α) (twos : α → Prop) (c : α) : Prop :=
  Common parent one twos c ∧ ∀ d, Common parent one twos d → ¬TransGen parent d c

theorem Common.behind (h : Common parent one twos d) (hd : ReflTransGen parent d c) :
    Common parent one twos c := by
  obtain ⟨h₁, two, htwo, h₂⟩ := h
  exact ⟨h₁.trans hd, two, htwo, h₂.trans hd⟩

/-- Parents of a smaller rank make no cycle. -/
theorem acyclic_of_rank (rank : α → Nat) (h : ∀ c p, parent c p → rank p < rank c) (c : α) :
    ¬TransGen parent c c := by
  have hlt : ∀ a b, TransGen parent a b → rank b < rank a := by
    intro a b hab
    induction hab with
    | single hp => exact h _ _ hp
    | tail _ hp ih => exact (h _ _ hp).trans ih
  intro hc
  exact Nat.lt_irrefl _ (hlt c c hc)

/-- In a finite history without cycles, what has a property is behind something that has it and is
behind nothing else that has it. -/
theorem exists_front (acyclic : ∀ c, ¬TransGen parent c c) {P : α → Prop}
    (hfin : {c | P c}.Finite) (hc : P c) :
    ∃ d, P d ∧ ReflTransGen parent d c ∧ ∀ e, P e → ¬TransGen parent e d := by
  have : Finite {c | P c} := hfin
  have hwf : WellFounded fun x y : {c | P c} => TransGen parent x.1 y.1 := by
    have htrans : IsTrans {c | P c} fun x y => TransGen parent x.1 y.1 :=
      ⟨fun _ _ _ h h' => h.trans h'⟩
    have hirr : Std.Irrefl fun x y : {c | P c} => TransGen parent x.1 y.1 :=
      ⟨fun x => acyclic x.1⟩
    exact Finite.wellFounded_of_trans_of_irrefl _
  obtain ⟨⟨d, hd⟩, hdc, hmin⟩ := hwf.has_min {d | ReflTransGen parent d.1 c} ⟨⟨c, hc⟩, .refl⟩
  refine ⟨d, hd, hdc, ?_⟩
  intro e he hed
  exact hmin ⟨e, he⟩ (hed.to_reflTransGen.trans hdc) hed

theorem exists_best (acyclic : ∀ c, ¬TransGen parent c c)
    (hfin : {c | Common parent one twos c}.Finite) (hc : Common parent one twos c) :
    ∃ d, Best parent one twos d ∧ ReflTransGen parent d c := by
  obtain ⟨d, hd, hdc, hfront⟩ := exists_front acyclic hfin hc
  exact ⟨d, ⟨hd, hfront⟩, hdc⟩

/-- Paint runs down from `one` and stops at the places `stop` only. -/
theorem painted_of_closed (paint : α → Prop) {stop : α → Prop} (hone : paint one)
    (hstep : ∀ c p, paint c → ¬stop c → parent c p → paint p) (hc : ReflTransGen parent one c)
    (hway : ∀ d, ReflTransGen parent one d → TransGen parent d c → ¬stop d) : paint c := by
  induction hc with
  | refl => exact hone
  | @tail d p hd hp ih =>
    have hpaint := ih fun e he hed => hway e he (hed.tail hp)
    exact hstep d p hpaint (hway d hd (.single hp)) hp

end Ancestry
