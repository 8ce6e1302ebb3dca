import Ewokos.Lib.Base64
import Ewokos.Lib.Columns
import Ewokos.Curl.Request

/-!
# curl: basic authentication

`curl_basic_auth` down to the bytes of its buffer.

* `authBuffer` — the loop of the source with its indices `i` and `o`, 32-bit packing and stores.
* `encodeLoop_spec`, `b64Encode_eq` — what it stores, and what `basicAuth` returns, is the base64
  encoding.

Main result: `basicAuth_roundtrip`.
-/

set_option autoImplicit false

namespace Curl

open Cells CString

/-! ## The buffer -/

/-- `combined[i]` as an `unsigned char`. -/
def byteAt (combined : CStr) (i : Nat) : UInt32 := ((combined[i]?).getD 0).toUInt32

/-- `b64_table[(value >> shift) & 63]`. -/
def sextet (value shift : UInt32) : UInt8 := (b64Table[(value >>> shift &&& 63).toNat]?).getD 0

/-- The encoding loop: bytes from `i` on are stored from `o` on; at the end, `o` and the buffer. -/
def encodeLoop (combined : CStr) : Nat → Nat → Int → Memory UInt8 → Int × Memory UInt8
  | 0, _, o, out => (o, out)
  | fuel + 1, i, o, out =>
    if i < combined.length then
      let remaining := combined.length - i
      let a := byteAt combined i
      let i := i + 1
      let b := if remaining > 1 then byteAt combined i else 0
      let i := if remaining > 1 then i + 1 else i
      let c := if remaining > 2 then byteAt combined i else 0
      let i := if remaining > 2 then i + 1 else i
      let value := a <<< 16 ||| b <<< 8 ||| c
      let out := store out o (sextet value 18)
      let out := store out (o + 1) (sextet value 12)
      let out := store out (o + 2) (if remaining > 1 then sextet value 6 else chr '=')
      let out := store out (o + 3) (if remaining > 2 then sextet value 0 else chr '=')
      encodeLoop combined fuel i (o + 4) out
    else (o, out)

/-- `out_len`. -/
def outLen (combined : CStr) : Nat := (combined.length + 2) / 3 * 4

/-- The buffer that `curl_basic_auth` returns, allocated with the contents `out`. -/
def authBuffer (combined : CStr) (out : Memory UInt8) : Memory UInt8 :=
  let out := memcpy out 0 (str "Basic ")
  let (o, out) := encodeLoop combined combined.length 0 6 out
  store out o 0

/-- What `curl_basic_auth` encodes. -/
def login (h : Handle) : Option CStr :=
  match h.username with
  | none => h.userpwd
  | some user => some (user ++ str ":" ++ h.password.getD [])

/-! ## Packing -/

theorem b64Table_getD {v : Nat} (h : v < 64) : (b64Table[v]?).getD 0 = Base64.digit v := by
  have hall : ∀ v : Fin 64, (b64Table[v.val]?).getD 0 = Base64.digit v.val := by decide +kernel
  exact hall ⟨v, h⟩

theorem pack_eq {a b c : Nat} (hb : b < 256) (hc : c < 256) :
    a <<< 16 ||| b <<< 8 ||| c = a * 65536 + b * 256 + c := by
  have hlow : b <<< 8 ||| c = b * 256 + c := by
    rw [← Nat.shiftLeft_add_eq_or_of_lt (by omega), Nat.shiftLeft_eq]
  rw [Nat.or_assoc, hlow, ← Nat.shiftLeft_add_eq_or_of_lt (by omega), Nat.shiftLeft_eq]
  omega

/-- Three bytes in 24 bits. -/
theorem pack_toNat (a b c : UInt8) :
    (a.toUInt32 <<< 16 ||| b.toUInt32 <<< 8 ||| c.toUInt32).toNat =
      a.toNat * 65536 + b.toNat * 256 + c.toNat := by
  have ha := a.toNat_lt
  have hb := b.toNat_lt
  have hc := c.toNat_lt
  have hshift : ∀ (x : UInt8) (n : UInt32), n.toNat < 17 →
      (x.toUInt32 <<< n).toNat = x.toNat <<< n.toNat := by
    intro x n hn
    have hx := x.toNat_lt
    rw [UInt32.toNat_shiftLeft, UInt8.toNat_toUInt32, Nat.mod_eq_of_lt (a := n.toNat) (by omega)]
    refine Nat.mod_eq_of_lt ?_
    rw [Nat.shiftLeft_eq]
    have hpow : 2 ^ n.toNat ≤ 2 ^ 16 := Nat.pow_le_pow_right (by decide) (by omega)
    have := Nat.mul_lt_mul_of_lt_of_le hx hpow (by decide)
    omega
  rw [UInt32.toNat_or, UInt32.toNat_or, hshift a 16 (by decide), hshift b 8 (by decide),
    UInt8.toNat_toUInt32]
  exact pack_eq hb hc

/-- The 24 bits of three bytes, six at a time. -/
theorem group_digits {a b c : Nat} (ha : a < 256) (hb : b < 256) (hc : c < 256) :
    (a * 65536 + b * 256 + c) / 2 ^ 18 % 64 = a / 4 ∧
      (a * 65536 + b * 256 + c) / 2 ^ 12 % 64 = a % 4 * 16 + b / 16 ∧
      (a * 65536 + b * 256 + c) / 2 ^ 6 % 64 = b % 16 * 4 + c / 64 ∧
      (a * 65536 + b * 256 + c) / 2 ^ 0 % 64 = c % 64 := by
  refine ⟨?_, ?_, ?_, ?_⟩ <;> omega

/-- The four digits of three bytes. -/
theorem sextet_pack (a b c : UInt8) :
    sextet (a.toUInt32 <<< 16 ||| b.toUInt32 <<< 8 ||| c.toUInt32) 18 =
        Base64.digit (a.toNat / 4) ∧
      sextet (a.toUInt32 <<< 16 ||| b.toUInt32 <<< 8 ||| c.toUInt32) 12 =
        Base64.digit (a.toNat % 4 * 16 + b.toNat / 16) ∧
      sextet (a.toUInt32 <<< 16 ||| b.toUInt32 <<< 8 ||| c.toUInt32) 6 =
        Base64.digit (b.toNat % 16 * 4 + c.toNat / 64) ∧
      sextet (a.toUInt32 <<< 16 ||| b.toUInt32 <<< 8 ||| c.toUInt32) 0 =
        Base64.digit (c.toNat % 64) := by
  have ha := a.toNat_lt
  have hb := b.toNat_lt
  have hc := c.toNat_lt
  have hpack := pack_toNat a b c
  generalize a.toUInt32 <<< 16 ||| b.toUInt32 <<< 8 ||| c.toUInt32 = v at hpack ⊢
  have hdigit : ∀ n : UInt32, n.toNat < 32 →
      sextet v n = Base64.digit (v.toNat / 2 ^ n.toNat % 64) := by
    intro n hn
    unfold sextet
    rw [UInt32.toNat_and, UInt32.toNat_shiftRight, Nat.mod_eq_of_lt (a := n.toNat) hn,
      show (63 : UInt32).toNat = 2 ^ 6 - 1 from rfl, Nat.and_two_pow_sub_one_eq_mod,
      Nat.shiftRight_eq_div_pow]
    exact b64Table_getD (Nat.mod_lt _ (by decide))
  obtain ⟨h18, h12, h6, h0⟩ := group_digits a.toNat_lt b.toNat_lt c.toNat_lt
  rw [hdigit 18 (by decide), hdigit 12 (by decide), hdigit 6 (by decide), hdigit 0 (by decide),
    hpack]
  exact ⟨congrArg Base64.digit h18, congrArg Base64.digit h12, congrArg Base64.digit h6,
    congrArg Base64.digit h0⟩

/-! ## The loop -/

variable {combined : CStr} {fuel i : Nat} {o : Int} {out : Memory UInt8}

theorem byteAt_drop (pre : CStr) {l : CStr} {x : UInt8} (h : combined.drop i = pre ++ x :: l) :
    byteAt combined (i + pre.length) = x.toUInt32 := by
  have hx : combined[i + pre.length]? = some x := by
    rw [← List.getElem?_drop, h, List.getElem?_append_right (le_refl _), Nat.sub_self]
    rfl
  rw [byteAt, hx]
  rfl

/-- Four stores in a row. -/
theorem stores_eq (m : Memory UInt8) (p : Int) (a b c d : UInt8) :
    store (store (store (store m p a) (p + 1) b) (p + 2) c) (p + 3) d = memcpy m p [a, b, c, d] := by
  have h₁ := memcpy_append m p [a] [b]
  have h₂ := memcpy_append m p [a, b] [c]
  have h₃ := memcpy_append m p [a, b, c] [d]
  rw [store_eq_memcpy, store_eq_memcpy, store_eq_memcpy, store_eq_memcpy]
  exact ((congrArg (fun m => memcpy (memcpy m _ [c]) _ [d]) h₁).trans
    (congrArg (fun m => memcpy m _ [d]) h₂)).trans h₃

/-- One round stores the digits of the next group. -/
theorem encodeLoop_group (hlt : i < combined.length) :
    encodeLoop combined (fuel + 1) i o out =
      encodeLoop combined fuel (i + min 3 (combined.length - i)) (o + 4)
        (memcpy out o (Base64.encode ((combined.drop i).take 3))) := by
  have hlen : (combined.drop i).length = combined.length - i := List.length_drop
  conv_lhs => unfold encodeLoop
  rw [if_pos hlt]
  dsimp only
  rw [stores_eq]
  match hd : combined.drop i with
  | [] =>
    rw [hd, List.length_nil] at hlen
    omega
  | [a] =>
    obtain ⟨h18, h12, -⟩ := sextet_pack a 0 0
    have ha : byteAt combined i = a.toUInt32 := byteAt_drop [] hd
    have hrem : combined.length - i = 1 := by rw [← hlen, hd, List.length_singleton]
    have h₁ : ¬combined.length - i > 1 := by omega
    have h₂ : ¬combined.length - i > 2 := by omega
    simp only [if_neg h₁, if_neg h₂]
    rw [hrem, ha, ← show UInt8.toUInt32 0 = 0 from rfl, h18, h12]
    rfl
  | [a, b] =>
    obtain ⟨h18, h12, h6, -⟩ := sextet_pack a b 0
    have ha : byteAt combined i = a.toUInt32 := byteAt_drop [] hd
    have hb : byteAt combined (i + 1) = b.toUInt32 := byteAt_drop [a] hd
    have hrem : combined.length - i = 2 := by rw [← hlen, hd]; rfl
    have h₁ : combined.length - i > 1 := by omega
    have h₂ : ¬combined.length - i > 2 := by omega
    simp only [if_pos h₁, if_neg h₂]
    rw [hrem, ha, hb, ← show UInt8.toUInt32 0 = 0 from rfl, h18, h12, h6]
    rfl
  | a :: b :: c :: l =>
    obtain ⟨h18, h12, h6, h0⟩ := sextet_pack a b c
    have ha : byteAt combined i = a.toUInt32 := byteAt_drop [] hd
    have hb : byteAt combined (i + 1) = b.toUInt32 := byteAt_drop [a] hd
    have hc : byteAt combined (i + 1 + 1) = c.toUInt32 := byteAt_drop [a, b] hd
    have hrem : 3 ≤ combined.length - i := by
      rw [← hlen, hd, List.length_cons, List.length_cons, List.length_cons]
      omega
    have h₁ : combined.length - i > 1 := by omega
    have h₂ : combined.length - i > 2 := by omega
    simp only [if_pos h₁, if_pos h₂]
    rw [Nat.min_eq_left hrem, ha, hb, hc, h18, h12, h6, h0]
    rfl

theorem encodeLoop_spec : ∀ {fuel i : Nat} {o : Int} {out : Memory UInt8},
    combined.length ≤ i + fuel → encodeLoop combined fuel i o out =
      (o + (Base64.encode (combined.drop i)).length,
        memcpy out o (Base64.encode (combined.drop i)))
  | fuel, i, o, out, h => by
    by_cases hlt : i < combined.length
    · obtain ⟨fuel, rfl⟩ : ∃ n, fuel = n + 1 := ⟨fuel - 1, by omega⟩
      have hgroup : (Base64.encode ((combined.drop i).take 3)).length = 4 := by
        rw [Base64.length_encode, List.length_take, List.length_drop]
        omega
      have hdrop : combined.drop (i + min 3 (combined.length - i)) =
          (combined.drop i).drop 3 := by
        rw [List.drop_drop]
        rcases Nat.le_total 3 (combined.length - i) with hle | hle
        · rw [Nat.min_eq_left hle]
        · rw [List.drop_eq_nil_of_le (by omega), List.drop_eq_nil_of_le (by omega)]
      have happ := memcpy_append out o (Base64.encode ((combined.drop i).take 3))
        (Base64.encode ((combined.drop i).drop 3))
      rw [hgroup, Base64.encode_take_append_drop] at happ
      rw [encodeLoop_group hlt, encodeLoop_spec (by omega), hdrop]
      refine Prod.ext ?_ happ
      rw [← Base64.encode_take_append_drop (combined.drop i), List.length_append, hgroup]
      push_cast
      omega
    · rw [List.drop_eq_nil_of_le (by omega), Base64.encode, memcpy_nil, List.length_nil,
        Nat.cast_zero, Int.add_zero]
      cases fuel with
      | zero => rfl
      | succ fuel =>
        unfold encodeLoop
        rw [if_neg hlt]
termination_by fuel => fuel

/-- A digit of `b64Encode`. -/
theorem b64Table_shift (v n : Nat) :
    (b64Table[(v >>> n) % 64]?).getD 0 = Base64.digit (v / 2 ^ n % 64) := by
  rw [b64Table_getD (Nat.mod_lt _ (by decide)), Nat.shiftRight_eq_div_pow]

theorem b64Encode_eq : ∀ l : CStr, b64Encode l = Base64.encode l
  | [] => rfl
  | [a] => by
    obtain ⟨h18, h12, -⟩ := group_digits a.toNat_lt (b := 0) (c := 0) (by decide) (by decide)
    unfold b64Encode Base64.encode
    dsimp only
    rw [b64Table_shift, b64Table_shift, Nat.shiftLeft_eq,
      show a.toNat * 2 ^ 16 = a.toNat * 65536 + 0 * 256 + 0 by omega, h18, h12]
    rfl
  | [a, b] => by
    have hpack := pack_eq (a := a.toNat) b.toNat_lt (c := 0) (by decide)
    rw [Nat.or_zero] at hpack
    obtain ⟨h18, h12, h6, -⟩ := group_digits a.toNat_lt b.toNat_lt (c := 0) (by decide)
    unfold b64Encode Base64.encode
    dsimp only
    rw [b64Table_shift, b64Table_shift, b64Table_shift, hpack, h18, h12, h6]
    rfl
  | a :: b :: c :: l => by
    obtain ⟨h18, h12, h6, h0⟩ := group_digits a.toNat_lt b.toNat_lt c.toNat_lt
    unfold b64Encode Base64.encode
    dsimp only
    rw [b64Table_shift, b64Table_shift, b64Table_shift, b64Table_shift,
      pack_eq b.toNat_lt c.toNat_lt, h18, h12, h6, h0, b64Encode_eq l]

/-! ## The buffer as a whole -/

/-- It holds the header value with its terminator, and nothing else of it is written. -/
theorem authBuffer_eq (combined : CStr) (out : Memory UInt8) :
    authBuffer combined out = memcpy out 0 (str "Basic " ++ Base64.encode combined ++ [0]) := by
  have hlen : (str "Basic ").length = 6 := by decide
  have hbasic := memcpy_append out 0 (str "Basic ") (Base64.encode combined)
  have hend := memcpy_append out 0 (str "Basic " ++ Base64.encode combined) [0]
  rw [List.length_append, hlen, Nat.cast_add, ← Int.add_assoc] at hend
  rw [hlen] at hbasic
  unfold authBuffer
  dsimp only
  rw [show (6 : Int) = 0 + ((6 : Nat) : Int) from rfl, encodeLoop_spec (by omega), List.drop_zero,
    hbasic, store_eq_memcpy]
  exact hend

/-- **Basic authentication.**  With its memory, `curl_basic_auth` returns `Basic ` and base64 text
that decodes to the login; all it writes is that string and its terminator, inside of
`out_len + 16` bytes. -/
theorem basicAuth_roundtrip (h : Handle) {combined : CStr} (hlogin : login h = some combined) :
    ∃ text, basicAuth h true = some (str "Basic " ++ text) ∧
      Base64.decode text = some combined ∧
      text.length = 4 * ((combined.length + 2) / 3) ∧
      (∃ digits, text = digits ++ List.replicate ((3 - combined.length % 3) % 3) (chr '=') ∧
        ∀ c ∈ digits, (Base64.value c).isSome) ∧
      ∀ out : Memory UInt8,
        slice (authBuffer combined out) 0 (6 + text.length + 1) = str "Basic " ++ text ++ [0] ∧
          6 + text.length + 1 ≤ outLen combined + 16 ∧
          ∀ p : Int, p < 0 ∨ ((6 + text.length + 1 : Nat) : Int) ≤ p →
            authBuffer combined out p = out p := by
  have hauth : basicAuth h true = (login h).map fun c => str "Basic " ++ b64Encode c := by
    unfold basicAuth login
    cases h.username with
    | none => rfl
    | some user => rfl
  have hlen := Base64.length_encode combined
  have htotal : (str "Basic " ++ Base64.encode combined ++ [0]).length =
      6 + (Base64.encode combined).length + 1 := by
    rw [List.length_append, List.length_append]
    rfl
  refine ⟨Base64.encode combined, ?_, Base64.decode_encode combined, hlen,
    Base64.encode_padded combined, fun out => ⟨?_, ?_, fun p hp => ?_⟩⟩
  · rw [hauth, hlogin, Option.map_some, b64Encode_eq]
  · have hslice := slice_memcpy out 0 (k := 0) (str "Basic " ++ Base64.encode combined ++ [0])
      (n := 6 + (Base64.encode combined).length + 1) (by omega)
    rw [authBuffer_eq]
    rw [Nat.cast_zero, Int.add_zero, List.take_zero, List.nil_append, Nat.zero_add, htotal,
      List.drop_eq_nil_of_le (by rw [length_slice]), List.append_nil] at hslice
    exact hslice
  · unfold outLen
    omega
  · rw [authBuffer_eq, memcpy_out out _ (by rw [htotal, Int.zero_add]; exact hp)]

/-- A handle with the login `user:pass`. -/
def withLogin : Handle :=
  { easyInit with username := some (str "user"), password := some (str "pass") }

/-- Its header value decodes to the login. -/
theorem basicAuth_roundtrip_user : ∃ text, basicAuth withLogin true = some (str "Basic " ++ text) ∧
    Base64.decode text = some (str "user:pass") := by
  have hlogin : login withLogin = some (str "user:pass") := by decide +kernel
  obtain ⟨text, htext, hdecode, -⟩ := basicAuth_roundtrip withLogin hlogin
  exact ⟨text, htext, hdecode⟩

end Curl
