import Mathlib.Logic.Basic

/-!
# A snapshot that is taken again when a key changes

A run has a point from which the present thing has been the same one, and the value the thing had
there (`Since`).  A program that cannot compare things compares a key of them, and takes its snapshot
again when the key changes (`Cached`).

* `Since.cached` — both are the same value along a run whose steps change the key exactly when they
  lead to another thing, or lead to a thing with the value that is due.
* `Cached.keeps` — a program that holds the snapshot holds it along the run.
-/

set_option autoImplicit false

namespace Snapshot

variable {α V K : Type} {step : V → α → α → Prop} {same : α → α → Prop} {key : α → K}
  {value : α → V} {a₀ a : α} {v : V}

/-- `v` is the value that the thing of `a` had when the run came to it.  A step may depend on it. -/
inductive Since (step : V → α → α → Prop) (same : α → α → Prop) (value : α → V) (a₀ : α) :
    α → V → Prop where
  | first : Since step same value a₀ a₀ (value a₀)
  | stays {a b : α} {v : V} : Since step same value a₀ a v → step v a b → same a b →
      Since step same value a₀ b v
  | enters {a b : α} {v : V} : Since step same value a₀ a v → step v a b → ¬same a b →
      Since step same value a₀ b (value b)

/-- `v` is the value at the last change of the key. -/
inductive Cached (step : V → α → α → Prop) (key : α → K) (value : α → V) (a₀ : α) :
    α → V → Prop where
  | first : Cached step key value a₀ a₀ (value a₀)
  | hit {a b : α} {v : V} : Cached step key value a₀ a v → step v a b → key b = key a →
      Cached step key value a₀ b v
  | miss {a b : α} {v : V} : Cached step key value a₀ a v → step v a b → key b ≠ key a →
      Cached step key value a₀ b (value b)

/-- **The key tells the things apart**, as far as their values differ. -/
theorem Since.cached (h : Since step same value a₀ a v)
    (agree : ∀ {v a b}, step v a b → (key b = key a ↔ same a b) ∨ value b = v) :
    Cached step key value a₀ a v := by
  induction h with
  | first => exact .first
  | @stays a b v _ hstep hsame ih =>
    by_cases hkey : key b = key a
    · exact .hit ih hstep hkey
    · have hv : value b = v := (agree hstep).resolve_left fun h => hkey (h.mpr hsame)
      have hmiss := Cached.miss ih hstep hkey
      rwa [hv] at hmiss
  | @enters a b v _ hstep hother ih =>
    by_cases hkey : key b = key a
    · have hv : value b = v := (agree hstep).resolve_left fun h => hother (h.mp hkey)
      rw [hv]
      exact .hit ih hstep hkey
    · exact .miss ih hstep hkey

/-- What holds of the first snapshot, stays with the old one and comes with each new one. -/
theorem Cached.keeps {P : α → V → Prop} (h : Cached step key value a₀ a v)
    (first : P a₀ (value a₀)) (hit : ∀ {v a b}, P a v → step v a b → key b = key a → P b v)
    (miss : ∀ {v a b}, P a v → step v a b → key b ≠ key a → P b (value b)) : P a v := by
  induction h with
  | first => exact first
  | hit _ hstep hkey ih => exact hit ih hstep hkey
  | miss _ hstep hkey ih => exact miss ih hstep hkey

end Snapshot
