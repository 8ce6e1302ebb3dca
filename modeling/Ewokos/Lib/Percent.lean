import Mathlib.Data.List.Basic
import Mathlib.Tactic.Common

/-!
# Percent-encoding

Byte strings in which some bytes are kept and the others are written as `%` and two hexadecimal
digits.

* `encode keep` — the encoder, for a choice of the bytes that are kept.
* `decode` — reads triples with digits of either case, and every other byte as itself.
* `Encoded keep` — nothing but kept bytes and well-formed triples.

Main results: `decode_encode`, `encode_injective`, `encode_encoded`.
-/

set_option autoImplicit false

namespace Percent

/-- `%`. -/
def percent : UInt8 := 37

/-- The hexadecimal digit of a value. -/
def digit (v : Nat) : UInt8 := if v < 10 then UInt8.ofNat (48 + v) else UInt8.ofNat (55 + v)

/-- The value of a hexadecimal digit. -/
def value (c : UInt8) : Option Nat :=
  if 48 ≤ c ∧ c ≤ 57 then some (c.toNat - 48)
  else if 65 ≤ c ∧ c ≤ 70 then some (c.toNat - 55)
  else if 97 ≤ c ∧ c ≤ 102 then some (c.toNat - 87)
  else none

/-- One byte. -/
def encodeByte (keep : UInt8 → Bool) (c : UInt8) : List UInt8 :=
  if keep c then [c] else [percent, digit (c.toNat / 16), digit (c.toNat % 16)]

def encode (keep : UInt8 → Bool) (l : List UInt8) : List UInt8 := l.flatMap (encodeByte keep)

/-- A `%` without two digits behind it is not read. -/
def decode : List UInt8 → Option (List UInt8)
  | [] => some []
  | c :: l =>
    if c = percent then
      match l with
      | h :: l :: rest => do
        let h ← value h
        let l ← value l
        let rest ← decode rest
        some (UInt8.ofNat (h * 16 + l) :: rest)
      | _ => none
    else (decode l).map (c :: ·)

/-- Kept bytes and triples. -/
inductive Encoded (keep : UInt8 → Bool) : List UInt8 → Prop where
  | nil : Encoded keep []
  | kept {c : UInt8} {l : List UInt8} (hc : keep c = true) (rest : Encoded keep l) :
      Encoded keep (c :: l)
  | triple {h l : UInt8} {r : List UInt8} (high : (value h).isSome) (low : (value l).isSome)
      (rest : Encoded keep r) : Encoded keep (percent :: h :: l :: r)

/-! ## Digits -/

theorem value_digit {v : Nat} (h : v < 16) : value (digit v) = some v := by
  have hall : ∀ v : Fin 16, value (digit v) = some v.val := by decide
  exact hall ⟨v, h⟩

theorem byte_of_digits (c : UInt8) : UInt8.ofNat (c.toNat / 16 * 16 + c.toNat % 16) = c := by
  rw [Nat.div_add_mod', UInt8.ofNat_toNat]

variable {keep : UInt8 → Bool}

@[simp] theorem encode_nil : encode keep [] = [] := rfl

theorem encode_cons (c : UInt8) (l : List UInt8) :
    encode keep (c :: l) = encodeByte keep c ++ encode keep l := List.flatMap_cons

theorem length_encodeByte_le (c : UInt8) : (encodeByte keep c).length ≤ 3 := by
  unfold encodeByte
  split
  · exact Nat.le_add_left 1 2
  · exact Nat.le_refl 3

theorem length_encode_le (l : List UInt8) : (encode keep l).length ≤ 3 * l.length := by
  induction l with
  | nil => exact Nat.le_refl 0
  | cons c l ih =>
    have hc : (encodeByte keep c).length ≤ 3 := length_encodeByte_le c
    rw [encode_cons, List.length_append, List.length_cons]
    omega

/-! ## There and back -/

theorem decode_cons {c : UInt8} (h : c ≠ percent) (l : List UInt8) :
    decode (c :: l) = (decode l).map (c :: ·) := by
  match l with
  | [] => simp [decode, h]
  | [d] => simp [decode, h]
  | d :: e :: l => rw [decode, if_neg h]

section Decode

variable (hkeep : keep percent = false)

include hkeep

theorem decode_encodeByte (c : UInt8) (l : List UInt8) :
    decode (encodeByte keep c ++ l) = (decode l).map (c :: ·) := by
  have hc := c.toNat_lt
  unfold encodeByte
  split
  · rename_i hkept
    have hne : c ≠ percent := by
      rintro rfl
      rw [hkeep] at hkept
      cases hkept
    exact decode_cons hne l
  · change decode (percent :: digit (c.toNat / 16) :: digit (c.toNat % 16) :: l) = _
    rw [decode, if_pos rfl]
    simp only [value_digit (show c.toNat / 16 < 16 by omega),
      value_digit (show c.toNat % 16 < 16 by omega), Option.bind_eq_bind, Option.bind_some,
      byte_of_digits]
    cases decode l <;> rfl

theorem decode_encode (l : List UInt8) : decode (encode keep l) = some l := by
  induction l with
  | nil => rfl
  | cons c l ih => rw [encode_cons, decode_encodeByte hkeep, ih, Option.map_some]

theorem encode_injective {l l' : List UInt8} (h : encode keep l = encode keep l') : l = l' := by
  have hl := decode_encode hkeep l
  rw [h, decode_encode hkeep] at hl
  exact (Option.some.inj hl).symm

end Decode

/-! ## What an encoding is made of -/

theorem encodeByte_encoded (c : UInt8) {l : List UInt8} (h : Encoded keep l) :
    Encoded keep (encodeByte keep c ++ l) := by
  have hc := c.toNat_lt
  have hdigit {v : Nat} (hv : v < 16) : (value (digit v)).isSome := by
    rw [value_digit hv]
    rfl
  unfold encodeByte
  split
  · rename_i hkept
    exact .kept hkept h
  · exact .triple (hdigit (by omega)) (hdigit (by omega)) h

theorem encode_encoded (l : List UInt8) : Encoded keep (encode keep l) := by
  induction l with
  | nil => exact .nil
  | cons c l ih =>
    rw [encode_cons]
    exact encodeByte_encoded c ih

/-- No byte outside of the kept ones, the digits and `%`. -/
theorem Encoded.mem {l : List UInt8} (h : Encoded keep l) {c : UInt8} (hc : c ∈ l) :
    keep c = true ∨ c = percent ∨ (value c).isSome := by
  induction h with
  | nil => cases hc
  | kept hkept _ ih =>
    rcases List.mem_cons.mp hc with rfl | hc
    · exact .inl hkept
    · exact ih hc
  | triple high low _ ih =>
    simp only [List.mem_cons] at hc
    rcases hc with rfl | rfl | rfl | hc
    · exact .inr (.inl rfl)
    · exact .inr (.inr high)
    · exact .inr (.inr low)
    · exact ih hc

end Percent
