import Mathlib

/-!
# Intrusive linked lists

Cells of any type `ι`, each with one link; a list is reached from a head.

* `Chain next head l` — following `next` from `head` visits exactly `l`, then ends.
* `walk` — the visiting loop, with fuel; `walk_eq` — on a chain it returns the list.
* `Chain.congr`, `Chain.cons`, `Chain.unlink`, `Chain.concat` — links off the list do not matter,
  a cell put in front, a cell taken out behind its predecessor, a cell put at the end.
* `Chain.nodup` — a chain that ends visits no cell twice.
-/

set_option autoImplicit false

namespace Intrusive

variable {ι : Type} {next : ι → Option ι}

/-- Following `next` from `head` visits the cells of `l` and ends. -/
def Chain (next : ι → Option ι) : Option ι → List ι → Prop
  | head, [] => head = none
  | head, a :: l => head = some a ∧ Chain next (next a) l

/-- The cells visited from `head` on; `none` when the fuel runs out. -/
def walk (next : ι → Option ι) : Nat → Option ι → Option (List ι)
  | _, none => some []
  | 0, some _ => none
  | fuel + 1, some a => (walk next fuel (next a)).map (a :: ·)

theorem walk_eq {head : Option ι} {l : List ι} (h : Chain next head l) {fuel : Nat}
    (hf : l.length ≤ fuel) : walk next fuel head = some l := by
  induction l generalizing head fuel with
  | nil =>
    obtain rfl : head = none := h
    cases fuel <;> rfl
  | cons a l ih =>
    obtain ⟨rfl, h⟩ := h
    cases fuel with
    | zero => simp at hf
    | succ fuel => simp [walk, ih h (by simpa using hf)]

/-- A head has one list. -/
theorem Chain.unique {head : Option ι} {l l' : List ι} (h : Chain next head l)
    (h' : Chain next head l') : l = l' := by
  have h₁ := walk_eq h (Nat.le_max_left l.length l'.length)
  have h₂ := walk_eq h' (Nat.le_max_right l.length l'.length)
  exact Option.some.inj (h₁.symm.trans h₂)

/-- The rest of a chain is the chain of its first cell. -/
theorem Chain.suffix {head : Option ι} {pre l : List ι} {a : ι} (h : Chain next head (pre ++ a :: l)) :
    Chain next (next a) l := by
  induction pre generalizing head with
  | nil => exact h.2
  | cons b pre ih => exact ih h.2

theorem Chain.nodup {head : Option ι} {l : List ι} (h : Chain next head l) : l.Nodup := by
  induction l generalizing head with
  | nil => exact List.nodup_nil
  | cons a l ih =>
    refine List.nodup_cons.mpr ⟨?_, ih h.2⟩
    intro ha
    -- a second visit of `a` would be followed by the same cells again
    obtain ⟨pre, post, rfl⟩ := List.append_of_mem ha
    have hlen := congrArg List.length (h.2.unique (Chain.suffix h.2))
    simp at hlen
    omega

/-- Only the links of the visited cells matter. -/
theorem Chain.congr {next' : ι → Option ι} {head : Option ι} {l : List ι}
    (h : Chain next head l) (hn : ∀ a ∈ l, next' a = next a) : Chain next' head l := by
  induction l generalizing head with
  | nil => exact h
  | cons a l ih =>
    refine ⟨h.1, ?_⟩
    rw [hn a (by simp)]
    exact ih h.2 fun b hb => hn b (by simp [hb])

section Update

variable [DecidableEq ι]

/-- A new cell in front. -/
theorem Chain.cons {head : Option ι} {l : List ι} (h : Chain next head l) {a : ι} (ha : a ∉ l) :
    Chain (Function.update next a head) (some a) (a :: l) := by
  refine ⟨rfl, ?_⟩
  rw [Function.update_self]
  exact h.congr fun b hb => Function.update_of_ne (fun e : b = a => ha (e ▸ hb)) _ _

/-- A cell behind another one is taken out by passing its link on. -/
theorem Chain.unlink {head : Option ι} {pre post : List ι} {p a : ι}
    (h : Chain next head (pre ++ p :: a :: post)) :
    Chain (Function.update next p (next a)) head (pre ++ p :: post) := by
  have hnd := h.nodup
  induction pre generalizing head with
  | nil =>
    obtain ⟨rfl, -, h⟩ := h
    refine ⟨rfl, ?_⟩
    rw [Function.update_self]
    refine h.congr fun b hb => Function.update_of_ne ?_ _ _
    rintro rfl
    simp [hb] at hnd
  | cons b pre ih =>
    obtain ⟨rfl, h⟩ := h
    refine ⟨rfl, ?_⟩
    have hb : b ≠ p := by
      rintro rfl
      simp at hnd
    rw [Function.update_of_ne hb]
    exact ih h (List.nodup_cons.mp hnd).2

/-- A new last cell behind the old one. -/
theorem Chain.concat {head : Option ι} {l : List ι} {t a : ι} (h : Chain next head (l ++ [t]))
    (ha : a ∉ l ++ [t]) (hn : next a = none) :
    Chain (Function.update next t (some a)) head (l ++ [t] ++ [a]) := by
  have hnd := h.nodup
  induction l generalizing head with
  | nil =>
    obtain ⟨rfl, -⟩ := h
    have hne : a ≠ t := by simpa using ha
    exact ⟨rfl, by rw [Function.update_self], by rw [Function.update_of_ne hne]; exact hn⟩
  | cons b l ih =>
    obtain ⟨rfl, h⟩ := h
    refine ⟨rfl, ?_⟩
    have hb : b ≠ t := by
      rintro rfl
      simp at hnd
    rw [Function.update_of_ne hb]
    exact ih h (fun h => ha (by simp at h ⊢; exact Or.inr h)) (List.nodup_cons.mp hnd).2

end Update

end Intrusive
