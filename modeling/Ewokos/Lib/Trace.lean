import Mathlib

/-!
# Runs that leave a trace

A system takes steps that show, each with an event, and silent steps in between.

* `Trace step silent s es t` — a run from `s` to `t` whose events are `es`, in order.
* `Trace.append`, `Trace.split` — runs one after the other, and a run cut between two events.
* `Trace.keeps` — what every step keeps, relative to the events so far, a run keeps.
-/

set_option autoImplicit false

variable {σ ε : Type} {step : σ → ε → σ → Prop} {silent : σ → σ → Prop}

/-- The runs, with their events. -/
inductive Trace (step : σ → ε → σ → Prop) (silent : σ → σ → Prop) : σ → List ε → σ → Prop where
  | refl (s : σ) : Trace step silent s [] s
  | quiet {s t u : σ} {es : List ε} : Trace step silent s es t → silent t u →
    Trace step silent s es u
  | next {s t u : σ} {es : List ε} {e : ε} : Trace step silent s es t → step t e u →
    Trace step silent s (es ++ [e]) u

namespace Trace

theorem one {s t : σ} {e : ε} (h : step s e t) : Trace step silent s [e] t := (refl s).next h

theorem append {s t u : σ} {es fs : List ε} (h₁ : Trace step silent s es t)
    (h₂ : Trace step silent t fs u) : Trace step silent s (es ++ fs) u := by
  induction h₂ with
  | refl => rwa [List.append_nil]
  | quiet _ hq ih => exact ih.quiet hq
  | next _ hn ih =>
    rw [← List.append_assoc]
    exact ih.next hn

/-- The state between two parts of a run. -/
theorem split {s u : σ} {es fs : List ε} (h : Trace step silent s (es ++ fs) u) :
    ∃ t, Trace step silent s es t ∧ Trace step silent t fs u := by
  generalize hl : es ++ fs = l at h
  induction h generalizing fs with
  | refl =>
    obtain ⟨rfl, rfl⟩ := List.append_eq_nil_iff.mp hl
    exact ⟨_, .refl _, .refl _⟩
  | quiet _ hq ih =>
    obtain ⟨t, h₁, h₂⟩ := ih hl
    exact ⟨t, h₁, h₂.quiet hq⟩
  | next h hn ih =>
    rcases List.eq_nil_or_concat fs with rfl | ⟨fs', e', rfl⟩
    · rw [List.append_nil] at hl
      subst hl
      exact ⟨_, h.next hn, .refl _⟩
    · rw [List.concat_eq_append, ← List.append_assoc] at hl
      obtain ⟨he, hs⟩ := List.append_inj' hl rfl
      obtain ⟨t, h₁, h₂⟩ := ih he
      obtain rfl := List.singleton_inj.mp hs
      rw [List.concat_eq_append]
      exact ⟨t, h₁, h₂.next hn⟩

/-- The step of the first event, and the silent steps before it. -/
theorem uncons {s u : σ} {e : ε} {es : List ε} (h : Trace step silent s (e :: es) u) :
    ∃ t t', Trace step silent s [] t ∧ step t e t' ∧ Trace step silent t' es u := by
  obtain ⟨m, h₁, h₂⟩ := split (show Trace step silent s ([e] ++ es) u from h)
  have hone : ∃ t t', Trace step silent s [] t ∧ step t e t' ∧ Trace step silent t' [] m := by
    clear h h₂
    generalize hl : [e] = l at h₁
    induction h₁ with
    | refl => cases hl
    | quiet _ hq ih =>
      obtain ⟨t, t', h₃, h₄, h₅⟩ := ih hl
      exact ⟨t, t', h₃, h₄, h₅.quiet hq⟩
    | next h₃ hn =>
      obtain ⟨rfl, he⟩ := List.append_eq_singleton_iff.mp hl.symm |>.resolve_right (by simp)
      obtain rfl := List.singleton_inj.mp he
      exact ⟨_, _, h₃, hn, .refl _⟩
  obtain ⟨t, t', h₃, h₄, h₅⟩ := hone
  exact ⟨t, t', h₃, h₄, h₅.append h₂⟩

/-- What every step keeps, relative to the events so far, a run keeps. -/
theorem keeps {P : List ε → σ → Prop} (hquiet : ∀ {es t u}, P es t → silent t u → P es u)
    (hnext : ∀ {es t e u}, P es t → step t e u → P (es ++ [e]) u) {s t : σ} {es : List ε}
    (h : Trace step silent s es t) (hs : P [] s) : P es t := by
  induction h with
  | refl => exact hs
  | quiet _ hq ih => exact hquiet ih hq
  | next _ hn ih => exact hnext ih hn

end Trace
