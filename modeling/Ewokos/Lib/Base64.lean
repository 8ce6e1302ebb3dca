import Mathlib.Data.List.Basic
import Mathlib.Tactic.Common

/-!
# Base64

Byte strings in the digits `A`–`Z`, `a`–`z`, `0`–`9`, `+` and `/`, padded with `=` to whole groups
of four.

* `encode` — three bytes are four digits of six bits each.
* `decode` — the strict inverse: only digits and whole groups, padding only at the end, and no
  bit set that belongs to no byte.

Main results: `decode_encode`, `encode_padded`.
-/

set_option autoImplicit false

namespace Base64

/-- The digit for six bits. -/
def digit (v : Nat) : UInt8 :=
  if v < 26 then UInt8.ofNat (65 + v)
  else if v < 52 then UInt8.ofNat (97 + (v - 26))
  else if v < 62 then UInt8.ofNat (48 + (v - 52))
  else if v = 62 then 43
  else 47

/-- The six bits of a digit. -/
def value (c : UInt8) : Option Nat :=
  if 65 ≤ c ∧ c ≤ 90 then some (c.toNat - 65)
  else if 97 ≤ c ∧ c ≤ 122 then some (c.toNat - 97 + 26)
  else if 48 ≤ c ∧ c ≤ 57 then some (c.toNat - 48 + 52)
  else if c = 43 then some 62
  else if c = 47 then some 63
  else none

/-- `=`. -/
def pad : UInt8 := 61

def encode : List UInt8 → List UInt8
  | [] => []
  | [a] => [digit (a.toNat / 4), digit (a.toNat % 4 * 16), pad, pad]
  | [a, b] =>
    [digit (a.toNat / 4), digit (a.toNat % 4 * 16 + b.toNat / 16), digit (b.toNat % 16 * 4), pad]
  | a :: b :: c :: l =>
    digit (a.toNat / 4) :: digit (a.toNat % 4 * 16 + b.toNat / 16) ::
      digit (b.toNat % 16 * 4 + c.toNat / 64) :: digit (c.toNat % 64) :: encode l

/-- The first byte of a group, the second and the third. -/
def first (p q : Nat) : UInt8 := UInt8.ofNat (p * 4 + q / 16)
def second (q r : Nat) : UInt8 := UInt8.ofNat (q % 16 * 16 + r / 4)
def third (r s : Nat) : UInt8 := UInt8.ofNat (r % 4 * 64 + s)

/-- The last group, when it is padded. -/
def decodeLast (p q : Nat) (y : UInt8) : Option (List UInt8) :=
  if y = pad then if q % 16 = 0 then some [first p q] else none
  else do
    let r ← value y
    if r % 4 = 0 then some [first p q, second q r] else none

def decode : List UInt8 → Option (List UInt8)
  | [] => some []
  | w :: x :: y :: z :: l => do
    let p ← value w
    let q ← value x
    if z = pad ∧ l = [] then decodeLast p q y
    else do
      let r ← value y
      let s ← value z
      let rest ← decode l
      some (first p q :: second q r :: third r s :: rest)
  | _ => none

/-! ## Digits -/

theorem value_digit {v : Nat} (h : v < 64) : value (digit v) = some v := by
  have hall : ∀ v : Fin 64, value (digit v) = some v.val := by decide +kernel
  exact hall ⟨v, h⟩

theorem digit_ne_pad {v : Nat} (h : v < 64) : digit v ≠ pad := by
  have hall : ∀ v : Fin 64, digit v ≠ pad := by decide +kernel
  exact hall ⟨v, h⟩

/-! ## Bytes -/

section Bytes

variable (a b c : UInt8)

/-- The six bits of each digit fit. -/
theorem bits_lt : a.toNat / 4 < 64 ∧ a.toNat % 4 * 16 < 64 ∧ a.toNat % 4 * 16 + b.toNat / 16 < 64 ∧
    b.toNat % 16 * 4 < 64 ∧ b.toNat % 16 * 4 + c.toNat / 64 < 64 ∧ c.toNat % 64 < 64 := by
  have ha := a.toNat_lt
  have hb := b.toNat_lt
  have hc := c.toNat_lt
  omega

theorem first_eq {n : Nat} (h : n < 16) : first (a.toNat / 4) (a.toNat % 4 * 16 + n) = a := by
  have hn : a.toNat / 4 * 4 + (a.toNat % 4 * 16 + n) / 16 = a.toNat := by omega
  rw [first, hn, UInt8.ofNat_toNat]

theorem second_eq {n m : Nat} (h : m < 4) :
    second (n * 16 + b.toNat / 16) (b.toNat % 16 * 4 + m) = b := by
  have hb := b.toNat_lt
  have hn : (n * 16 + b.toNat / 16) % 16 * 16 + (b.toNat % 16 * 4 + m) / 4 = b.toNat := by omega
  rw [second, hn, UInt8.ofNat_toNat]

theorem third_eq {n : Nat} : third (n * 4 + c.toNat / 64) (c.toNat % 64) = c := by
  have hc := c.toNat_lt
  have hn : (n * 4 + c.toNat / 64) % 4 * 64 + c.toNat % 64 = c.toNat := by omega
  rw [third, hn, UInt8.ofNat_toNat]

end Bytes

/-! ## The results -/

/-- Decoding gives back what was encoded. -/
theorem decode_encode : ∀ l : List UInt8, decode (encode l) = some l
  | [] => rfl
  | [a] => by
    obtain ⟨hp, hq, -⟩ := bits_lt a 0 0
    have hfirst := first_eq a (n := 0) (by decide)
    rw [Nat.add_zero] at hfirst
    unfold encode decode decodeLast
    rw [value_digit hp, value_digit hq, Option.bind_eq_bind, Option.bind_some, Option.bind_eq_bind,
      Option.bind_some, if_pos ⟨rfl, rfl⟩, if_pos rfl, if_pos (by omega), hfirst]
  | [a, b] => by
    obtain ⟨hp, -, hq, hr, -⟩ := bits_lt a b 0
    have hb := b.toNat_lt
    have hsecond := second_eq b (n := a.toNat % 4) (m := 0) (by decide)
    rw [Nat.add_zero] at hsecond
    unfold encode decode decodeLast
    rw [value_digit hp, value_digit hq, Option.bind_eq_bind, Option.bind_some, Option.bind_eq_bind,
      Option.bind_some, if_pos ⟨rfl, rfl⟩, if_neg (digit_ne_pad hr), value_digit hr,
      Option.bind_some, if_pos (by omega), first_eq a (by omega), hsecond]
  | a :: b :: c :: l => by
    obtain ⟨hp, -, hq, -, hr, hs⟩ := bits_lt a b c
    have hb := b.toNat_lt
    have hc := c.toNat_lt
    unfold encode decode
    rw [value_digit hp, value_digit hq, value_digit hr, value_digit hs, Option.bind_eq_bind,
      Option.bind_some, Option.bind_eq_bind, Option.bind_some,
      if_neg fun h => digit_ne_pad hs h.1, Option.bind_some, Option.bind_some, decode_encode l,
      Option.bind_some, first_eq a (by omega), second_eq b (by omega), third_eq]

theorem length_encode : ∀ l : List UInt8, (encode l).length = 4 * ((l.length + 2) / 3)
  | [] => rfl
  | [_] => by simp [encode]
  | [_, _] => by simp [encode]
  | a :: b :: c :: l => by
    simp only [encode, List.length_cons, length_encode l]
    omega

/-- The first group, and the rest. -/
theorem encode_take_append_drop : ∀ l : List UInt8,
    encode (l.take 3) ++ encode (l.drop 3) = encode l
  | [] => rfl
  | [a] => by
    rw [List.take_of_length_le (by simp), List.drop_eq_nil_of_le (by simp), encode.eq_1,
      List.append_nil]
  | [a, b] => by
    rw [List.take_of_length_le (by simp), List.drop_eq_nil_of_le (by simp), encode.eq_1,
      List.append_nil]
  | a :: b :: c :: l => by
    change encode [a, b, c] ++ encode l = _
    simp only [encode, List.cons_append, List.nil_append]

/-- Digits, and as much padding as the last group lacks bytes. -/
theorem encode_padded : ∀ l : List UInt8, ∃ digits : List UInt8,
    encode l = digits ++ List.replicate ((3 - l.length % 3) % 3) pad ∧
      ∀ c ∈ digits, (value c).isSome
  | [] => ⟨[], rfl, by simp⟩
  | [a] => by
    obtain ⟨hp, hq, -⟩ := bits_lt a 0 0
    refine ⟨[_, _], rfl, fun c hc => ?_⟩
    simp only [List.mem_cons, List.not_mem_nil, or_false] at hc
    rcases hc with rfl | rfl
    · rw [value_digit hp]
      rfl
    · rw [value_digit hq]
      rfl
  | [a, b] => by
    obtain ⟨hp, -, hq, hr, -⟩ := bits_lt a b 0
    refine ⟨[_, _, _], rfl, fun c hc => ?_⟩
    simp only [List.mem_cons, List.not_mem_nil, or_false] at hc
    rcases hc with rfl | rfl | rfl
    · rw [value_digit hp]
      rfl
    · rw [value_digit hq]
      rfl
    · rw [value_digit hr]
      rfl
  | a :: b :: c :: l => by
    obtain ⟨hp, -, hq, -, hr, hs⟩ := bits_lt a b c
    obtain ⟨digits, hl, hall⟩ := encode_padded l
    have hlen : (3 - (a :: b :: c :: l).length % 3) % 3 = (3 - l.length % 3) % 3 := by
      simp only [List.length_cons]
      omega
    refine ⟨_ :: _ :: _ :: _ :: digits, by rw [hlen, encode, hl]; rfl, fun d hd => ?_⟩
    simp only [List.mem_cons] at hd
    rcases hd with rfl | rfl | rfl | rfl | hd
    · rw [value_digit hp]
      rfl
    · rw [value_digit hq]
      rfl
    · rw [value_digit hr]
      rfl
    · rw [value_digit hs]
      rfl
    · exact hall d hd

end Base64
