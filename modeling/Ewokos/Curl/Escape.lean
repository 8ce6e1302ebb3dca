import Ewokos.Lib.Percent
import Ewokos.Lib.Columns
import Ewokos.Curl.Request

/-!
# curl: URL escaping

`curl_easy_escape` down to the bytes of its buffer.

* `escapeLoop`, `curlEasyEscape` — the source with its index `out` and its stores.
* `escapeLoop_eq` — what is stored is the percent-encoding.

Main result: `easyEscape_roundtrip`.
-/

set_option autoImplicit false

namespace Curl

open Cells CString

/-! ## The buffer -/

/-- `isalnum` in the C locale. -/
def isalnum (c : UInt8) : Bool :=
  (48 ≤ c && c ≤ 57) || (65 ≤ c && c ≤ 90) || (97 ≤ c && c ≤ 122)

/-- The chars that are not escaped. -/
def unreserved (c : UInt8) : Bool :=
  isalnum c || c == chr '-' || c == chr '_' || c == chr '.' || c == chr '~'

/-- `hex`. -/
def hex : CStr := str "0123456789ABCDEF"

/-- `hex[v]`. -/
def hexAt (v : UInt8) : UInt8 := (hex[v.toNat]?).getD 0

/-- The loop of `curl_easy_escape`, `n` chars from `i` on; at the end, `out` and the buffer. -/
def escapeLoop (string : List UInt8) : Nat → Nat → Int → Memory UInt8 → Int × Memory UInt8
  | 0, _, out, result => (out, result)
  | n + 1, i, out, result =>
    let c := string.getD i 0
    if unreserved c then escapeLoop string n (i + 1) (out + 1) (store result out c)
    else
      let result := store result out (chr '%')
      let result := store result (out + 1) (hexAt (c >>> 4))
      let result := store result (out + 2) (hexAt (c &&& 15))
      escapeLoop string n (i + 1) (out + 3) result

/-- `strlen`. -/
def strlen (string : List UInt8) : Nat := (string.takeWhile (· != 0)).length

/-- `(size_t)length * 3 + 1`. -/
def escapeSize (length : Int) : Nat := ((length % (SIZE_MAX + 1)).toNat * 3 + 1) % (SIZE_MAX + 1)

/-- `curl_easy_escape`, for the bytes behind its pointer; `malloc` hands out a buffer of a size. -/
def curlEasyEscape (malloc : Nat → Option (Memory UInt8)) (string : Option (List UInt8))
    (length : Int) : Option (Memory UInt8) := do
  let string ← string
  let length := if length = 0 then (strlen string : Int) else length
  let result ← malloc (escapeSize length)
  let (out, result) := escapeLoop string length.toNat 0 0 result
  some (store result out 0)

/-- The string in a buffer. -/
def cstring (result : Memory UInt8) (size : Nat) : CStr :=
  (slice result 0 size).takeWhile (· != 0)

/-! ## What is stored -/

theorem hexAt_digit (c : UInt8) : hexAt (c >>> 4) = Percent.digit (c.toNat / 16) ∧
    hexAt (c &&& 15) = Percent.digit (c.toNat % 16) := by
  have hall : ∀ n : Fin 256, hexAt (UInt8.ofNat n >>> 4) = Percent.digit (n / 16) ∧
      hexAt (UInt8.ofNat n &&& 15) = Percent.digit (n % 16) := by decide +kernel
  have hc := hall ⟨c.toNat, c.toNat_lt⟩
  rwa [UInt8.ofNat_toNat] at hc

/-- The string of one char. -/
theorem escapeLoop_succ (string : List UInt8) (n i : Nat) (out : Int) (result : Memory UInt8) :
    escapeLoop string (n + 1) i out result =
      escapeLoop string n (i + 1)
        (out + (Percent.encodeByte unreserved (string.getD i 0)).length)
        (memcpy result out (Percent.encodeByte unreserved (string.getD i 0))) := by
  rw [escapeLoop]
  generalize string.getD i 0 = c
  obtain ⟨hhigh, hlow⟩ := hexAt_digit c
  unfold Percent.encodeByte
  by_cases h : unreserved c = true
  · simp only [if_pos h]
    rw [store_eq_memcpy]
    rfl
  · have h₁ := memcpy_append result out [chr '%'] [hexAt (c >>> 4)]
    have h₂ := memcpy_append result out [chr '%', hexAt (c >>> 4)] [hexAt (c &&& 15)]
    simp only [if_neg h]
    rw [store_eq_memcpy, store_eq_memcpy, store_eq_memcpy]
    change memcpy (memcpy result out [chr '%']) (out + 1) [hexAt (c >>> 4)] = _ at h₁
    change memcpy (memcpy result out [chr '%', hexAt (c >>> 4)]) (out + 2) [hexAt (c &&& 15)] = _
      at h₂
    rw [h₁, List.singleton_append, h₂, hhigh, hlow]
    rfl

theorem escapeLoop_eq (string : List UInt8) : ∀ {n i : Nat} {out : Int} {result : Memory UInt8},
    i + n = string.length → escapeLoop string n i out result =
      (out + (Percent.encode unreserved (string.drop i)).length,
        memcpy result out (Percent.encode unreserved (string.drop i)))
  | 0, i, out, result, h => by
    rw [List.drop_eq_nil_of_le (by omega), Percent.encode_nil, memcpy_nil, escapeLoop,
      List.length_nil, Nat.cast_zero, Int.add_zero]
  | n + 1, i, out, result, h => by
    have hchar : string.drop i = string.getD i 0 :: string.drop (i + 1) := by
      rw [List.drop_eq_getElem_cons (by omega), List.getD_eq_getElem _ _ (by omega)]
    rw [escapeLoop_succ, escapeLoop_eq string (by omega), hchar, Percent.encode_cons,
      List.length_append, memcpy_append, Nat.cast_add, Int.add_assoc]

/-! ## The result -/

theorem encode_no_nul (l : List UInt8) : ∀ c ∈ Percent.encode unreserved l, c ≠ 0 := by
  rintro c hc rfl
  rcases (Percent.encode_encoded l).mem hc with h | h | h
  · exact absurd h (by decide)
  · exact absurd h (by decide)
  · exact absurd h (by decide)

theorem escapeSize_eq {n : Nat} (h : n < 2 ^ 31) : escapeSize n = 3 * n + 1 := by
  have hmax : SIZE_MAX = 18446744073709551615 := rfl
  unfold escapeSize
  rw [hmax]
  omega

theorem curlEasyEscape_null {malloc : Nat → Option (Memory UInt8)} {s : List UInt8} (hs : s ≠ [])
    (hmax : s.length < 2 ^ 31) (hmalloc : malloc (3 * s.length + 1) = none) :
    curlEasyEscape malloc (some s) s.length = none := by
  have hlen : (s.length : Int) ≠ 0 := fun h =>
    hs (List.length_eq_zero_iff.mp (Int.natCast_eq_zero.mp h))
  unfold curlEasyEscape
  simp only [Option.bind_eq_bind, Option.bind_some]
  rw [if_neg hlen, escapeSize_eq hmax, hmalloc, Option.bind_none]

/-- The buffer for a string that is passed with its length. -/
theorem curlEasyEscape_eq {malloc : Nat → Option (Memory UInt8)} {s : List UInt8}
    {out : Memory UInt8} (hs : s ≠ []) (hmax : s.length < 2 ^ 31)
    (hmalloc : malloc (3 * s.length + 1) = some out) :
    curlEasyEscape malloc (some s) s.length =
      some (memcpy out 0 (Percent.encode unreserved s ++ [0])) := by
  have hlen : (s.length : Int) ≠ 0 := fun h =>
    hs (List.length_eq_zero_iff.mp (Int.natCast_eq_zero.mp h))
  have hend := memcpy_append out 0 (Percent.encode unreserved s) [0]
  unfold curlEasyEscape
  simp only [Option.bind_eq_bind, Option.bind_some]
  rw [if_neg hlen, escapeSize_eq hmax, hmalloc, Option.bind_some, Int.toNat_natCast,
    escapeLoop_eq s (Nat.zero_add _), List.drop_zero, store_eq_memcpy]
  dsimp only
  rw [hend]

theorem cstring_escape (out : Memory UInt8) (s : List UInt8) :
    cstring (memcpy out 0 (Percent.encode unreserved s ++ [0])) (3 * s.length + 1) =
      Percent.encode unreserved s := by
  have hlen : (Percent.encode unreserved s).length ≤ 3 * s.length := Percent.length_encode_le s
  have hslice := slice_memcpy out 0 (k := 0) (Percent.encode unreserved s ++ [0])
    (n := 3 * s.length + 1) (by rw [List.length_append, List.length_singleton]; omega)
  rw [Nat.cast_zero, Int.add_zero, List.take_zero, List.nil_append, List.append_assoc] at hslice
  have hstop (l : List UInt8) : ([0] ++ l).takeWhile (· != 0) = [] := rfl
  unfold cstring
  rw [hslice, List.takeWhile_append_of_pos fun c hc => bne_iff_ne.mpr (encode_no_nul s c hc), hstop,
    List.append_nil]

/-- **URL escaping is reversible.**  A string that is passed with its length is escaped to
unreserved chars and triples that decode to it, other strings to another result, and nothing outside
of the `3 * n + 1` bytes of the buffer is written. -/
theorem easyEscape_roundtrip {malloc : Nat → Option (Memory UInt8)} {s : List UInt8}
    {out : Memory UInt8} (hs : s ≠ []) (hmax : s.length < 2 ^ 31)
    (hmalloc : malloc (3 * s.length + 1) = some out) :
    ∃ result, curlEasyEscape malloc (some s) s.length = some result ∧
      Percent.decode (cstring result (3 * s.length + 1)) = some s ∧
      Percent.Encoded unreserved (cstring result (3 * s.length + 1)) ∧
      (∀ p : Int, p < 0 ∨ ((3 * s.length + 1 : Nat) : Int) ≤ p → result p = out p) ∧
      ∀ (malloc' : Nat → Option (Memory UInt8)) (s' : List UInt8) (result' : Memory UInt8),
        s' ≠ [] → s'.length < 2 ^ 31 →
          curlEasyEscape malloc' (some s') s'.length = some result' →
          cstring result' (3 * s'.length + 1) = cstring result (3 * s.length + 1) → s' = s := by
  have hlen : (Percent.encode unreserved s).length ≤ 3 * s.length := Percent.length_encode_le s
  refine ⟨_, curlEasyEscape_eq hs hmax hmalloc, ?_, ?_, fun p hp => ?_, ?_⟩
  · rw [cstring_escape]
    exact Percent.decode_encode (by decide) s
  · rw [cstring_escape]
    exact Percent.encode_encoded s
  · refine memcpy_out out _ ?_
    rw [List.length_append, List.length_singleton]
    omega
  · intro malloc' s' result' hs' hmax' hresult' heq
    cases hmalloc' : malloc' (3 * s'.length + 1) with
    | none =>
      rw [curlEasyEscape_null hs' hmax' hmalloc'] at hresult'
      cases hresult'
    | some out' =>
      rw [curlEasyEscape_eq hs' hmax' hmalloc'] at hresult'
      rw [← Option.some.inj hresult', cstring_escape, cstring_escape] at heq
      exact Percent.encode_injective (by decide) heq

/-- Two chars, one of them NUL. -/
theorem easyEscape_roundtrip_nul : ∃ result,
    curlEasyEscape (fun _ => some fun _ => 1) (some [0, 97]) 2 = some result ∧
      Percent.decode (cstring result 7) = some [0, 97] :=
  have ⟨result, hresult, hdecode, _⟩ := @easyEscape_roundtrip (fun _ => some fun _ => 1) [0, 97]
    (fun _ => 1) (by decide) (by decide) rfl
  ⟨result, hresult, hdecode⟩

end Curl
