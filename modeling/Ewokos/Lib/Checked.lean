import Mathlib

/-!
# Computations that stop at a fault

A computation in `Option` has no value when it goes wrong: an array is accessed outside its bounds,
unsigned arithmetic wraps around, or a loop is not done when its rounds are used up.

* `read`, `write`, `memcpy`, `add`, `sub`, `mul` — an access, and an operation, with its check.
* `loop` — `while` with a test and a body that may leave it, for a number of rounds.
* `loop_spec` — a loop whose rounds keep an invariant and decrease a rank has a value, whatever
  larger number of rounds it is given.
* `loop_eq` — and the value is that of a function with the same rounds.
-/

set_option autoImplicit false

namespace Checked

variable {α σ : Type*}

/-! ## Arrays -/

/-- `s[i]`. -/
def read (s : List α) (i : Int) : Option α := if 0 ≤ i then s[i.toNat]? else none

/-- `s[i] = x`. -/
def write (s : List α) (i : Int) (x : α) : Option (List α) :=
  if 0 ≤ i ∧ i < s.length then some (s.set i.toNat x) else none

/-- `memcpy(s + i, l, n)`, with `n` the length of `l`. -/
def memcpy (s : List α) (i : Nat) (l : List α) : Option (List α) :=
  if i + l.length ≤ s.length then some (s.take i ++ l ++ s.drop (i + l.length)) else none

theorem read_eq {s : List α} {i : Nat} (h : i < s.length) (d : α) :
    read s i = some (s.getD i d) := by
  rw [read, if_pos (Int.natCast_nonneg i), Int.toNat_natCast, List.getElem?_eq_getElem h,
    List.getD_eq_getElem _ _ h]

theorem write_eq {s : List α} {i : Nat} (h : i < s.length) (x : α) :
    write s i x = some (s.set i x) :=
  if_pos ⟨Int.natCast_nonneg i, Int.ofNat_lt.mpr h⟩

theorem memcpy_eq {s l : List α} {i : Nat} (h : i + l.length ≤ s.length) :
    ∃ t, memcpy s i l = some t ∧ t.length = s.length ∧
      t.take (i + l.length) = s.take i ++ l := by
  have hlen : (s.take i ++ l).length = i + l.length := by
    rw [List.length_append, List.length_take, Nat.min_eq_left (by omega)]
  refine ⟨_, if_pos h, ?_, ?_⟩
  · rw [List.length_append, hlen, List.length_drop]
    omega
  · rw [← hlen, List.take_left]

/-- `a && b`: the second operand is not evaluated when the first is false. -/
def both (a : Bool) (b : Option Bool) : Option Bool := if a then b else some false

theorem both_some (a b : Bool) : both a (some b) = some (a && b) := by
  cases a
  · rfl
  · rfl

/-! ## Unsigned numbers up to `top` -/

variable (top : Nat)

def add (a b : Nat) : Option Nat := if a + b ≤ top then some (a + b) else none

def sub (a b : Nat) : Option Nat := if b ≤ a then some (a - b) else none

def mul (a b : Nat) : Option Nat := if a * b ≤ top then some (a * b) else none

/-! ## Loops -/

/-- `while`: a round yields the next state, or leaves the loop. -/
def loop (test : σ → Option Bool) (body : σ → Option (ForInStep σ)) : Nat → σ → Option σ
  | 0, _ => none
  | fuel + 1, x =>
    (test x).bind fun go =>
      if go then
        (body x).bind fun
          | .yield y => loop test body fuel y
          | .done y => some y
      else some x

variable {test : σ → Option Bool} {body : σ → Option (ForInStep σ)}

/-- What a round does in the state `x`: it keeps `inv` and decreases `rank`, or the loop ends
with `post`. -/
inductive Round (test : σ → Option Bool) (body : σ → Option (ForInStep σ)) (inv post : σ → Prop)
    (rank : σ → Nat) (x : σ) : Prop where
  | stop (htest : test x = some false) (hpost : post x)
  | leave (y : σ) (htest : test x = some true) (hbody : body x = some (.done y)) (hpost : post y)
  | next (y : σ) (htest : test x = some true) (hbody : body x = some (.yield y)) (hinv : inv y)
      (hrank : rank y < rank x)

theorem loop_spec (inv post : σ → Prop) (rank : σ → Nat)
    (h : ∀ x, inv x → Round test body inv post rank x) :
    ∀ {fuel : Nat} {x : σ}, inv x → rank x < fuel → ∃ y, loop test body fuel x = some y ∧ post y
  | 0, _, _, hf => absurd hf (Nat.not_lt_zero _)
  | fuel + 1, x, hx, hf => by
    cases h x hx with
    | stop htest hpost =>
      exact ⟨x, by rw [loop, htest, Option.bind_some, if_neg Bool.false_ne_true], hpost⟩
    | leave y htest hbody hpost =>
      exact ⟨y, by rw [loop, htest, Option.bind_some, if_pos rfl, hbody, Option.bind_some], hpost⟩
    | next y htest hbody hinv hrank =>
      obtain ⟨z, hz, hpost⟩ := loop_spec inv post rank h hinv (show rank y < fuel by omega)
      refine ⟨z, ?_, hpost⟩
      rw [loop, htest, Option.bind_some, if_pos rfl, hbody, Option.bind_some]
      exact hz

/-- A loop that is not left has the value of a function with a number of rounds of its own, when
each round of the two is the same. -/
theorem loop_eq (f : Nat → σ → σ) (inv : σ → Prop) (rank : σ → Nat)
    (h : ∀ x, inv x → (test x = some false ∧ ∀ k, f k x = x) ∨
      ∃ y, test x = some true ∧ body x = some (.yield y) ∧ inv y ∧ rank y < rank x ∧
        ∀ k, f (k + 1) x = f k y)
    {k fuel : Nat} {x : σ} (hx : inv x) (hk : rank x ≤ k) (hf : rank x < fuel) :
    loop test body fuel x = some (f k x) := by
  have hround (z : σ) (hz : inv z ∧ ∃ l, rank z ≤ l ∧ f l z = f k x) :
      Round test body (fun z => inv z ∧ ∃ l, rank z ≤ l ∧ f l z = f k x) (· = f k x) rank z := by
    obtain ⟨hinv, l, hl, hfz⟩ := hz
    rcases h z hinv with ⟨htest, hstop⟩ | ⟨y, htest, hbody, hy, hrank, hstep⟩
    · exact .stop htest (by rw [← hstop l, hfz])
    · obtain ⟨l, rfl⟩ : ∃ m, l = m + 1 := ⟨l - 1, by omega⟩
      exact .next y htest hbody ⟨hy, l, by omega, by rw [← hstep l, hfz]⟩ hrank
  obtain ⟨y, hy, rfl⟩ := loop_spec _ _ rank hround ⟨hx, k, hk, rfl⟩ hf
  exact hy

end Checked
