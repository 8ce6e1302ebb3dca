import Mathlib

/-!
# What holds along a run

A run is the list of its events; what has been done so far is a prefix of it.

* `Along good events` — `good` holds after every prefix.
* `along_iff` — `good` holds along a run where every event keeps it.
-/

set_option autoImplicit false

namespace Prefixes

variable {ε : Type*}

/-- `good` holds at the beginning and after every event. -/
def Along (good : List ε → Prop) (events : List ε) : Prop := ∀ p, p <+: events → good p

/-- Every event is fine where it happens. -/
def Each (fine : List ε → ε → Prop) (events : List ε) : Prop :=
  ∀ p e, p ++ [e] <+: events → fine p e

variable {good : List ε → Prop} {fine : List ε → ε → Prop}

theorem Each.initial {p events : List ε} (h : Each fine events) (hp : p <+: events) :
    Each fine p := fun _ _ hq => h _ _ (hq.trans hp)

theorem each_iff_get {events : List ε} :
    Each fine events ↔ ∀ i : Fin events.length, fine (events.take i) (events.get i) := by
  constructor
  · intro h i
    have hsplit := List.take_append_getElem i.isLt
    exact h _ _ (hsplit ▸ List.take_prefix (i + 1) events)
  · rintro h p e ⟨rest, rfl⟩
    have hfine := h ⟨p.length, by simp⟩
    simpa using hfine

instance [∀ p e, Decidable (fine p e)] (events : List ε) : Decidable (Each fine events) :=
  decidable_of_iff' _ each_iff_get

/-- One step of `good` gives the whole run. -/
theorem Each.holds (hnil : good []) (hstep : ∀ p e, good p → fine p e → good (p ++ [e]))
    {events : List ε} (h : Each fine events) : good events := by
  induction events using List.reverseRecOn with
  | nil => exact hnil
  | append_singleton p e ih =>
    exact hstep p e (ih (h.initial (List.prefix_append p [e]))) (h p e (List.prefix_refl _))

theorem along_iff (hnil : good []) (hstep : ∀ p e, good p → (good (p ++ [e]) ↔ fine p e))
    (events : List ε) : Along good events ↔ Each fine events := by
  constructor
  · intro h p e hp
    exact (hstep p e (h p ((List.prefix_append p [e]).trans hp))).mp (h _ hp)
  · intro h p hp
    exact (h.initial hp).holds hnil fun p e hgood hfine => (hstep p e hgood).mpr hfine

end Prefixes
