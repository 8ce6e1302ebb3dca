import Ewokos.Curl.Delivery

/-!
# curl: the body of an upload

`curl_collect_request_body` with a read callback.

* `Round`, `Rounds` — the callback is asked for some bytes, supplies them, and the buffer takes them.
* `readLoop_rounds` — the loop is where its rounds have led it; `readLoop_ok` — how it ends well.

Main result: `uploads_iff`.
-/

set_option autoImplicit false

namespace Curl

open CString

/-! ## Rounds -/

/-- The callback supplies `got`, no more than it is asked for, and the buffer takes it. -/
structure Round (h : Handle) (alloc : Bool) (body : Buffer) (got : List UInt8) (body' : Buffer) :
    Prop where
  nonempty : got ≠ []
  asked : ∃ want, wanted h body.size = some want ∧ (got.length : Int) ≤ want
  kept : body.append got alloc = some body'

/-- Rounds from number `i` on. -/
inductive Rounds (h : Handle) (alloc : Nat → Bool) :
    Nat → Buffer → List (List UInt8) → Buffer → Prop where
  | nil (i : Nat) (body : Buffer) : Rounds h alloc i body [] body
  | cons {i : Nat} {body body' body'' : Buffer} {got : List UInt8} {rest : List (List UInt8)}
      (round : Round h (alloc i) body got body')
      (rounds : Rounds h alloc (i + 1) body' rest body'') :
      Rounds h alloc i body (got :: rest) body''

/-! ## The specification -/

/-- After some rounds the callback reports the end, with fewer than `infile_size` bytes supplied. -/
def EndsEarly (h : Handle) (alloc : Nat → Bool) (reads : List (List UInt8)) : Prop :=
  ∃ fed rest body, reads = fed ++ rest ∧ Rounds h alloc 0 .empty fed body ∧
    rest.headD [] = [] ∧ (body.size : Int) < h.infileSize

/-- After some rounds it supplies more than it is asked for. -/
def Oversupplies (h : Handle) (alloc : Nat → Bool) (reads : List (List UInt8)) : Prop :=
  ∃ fed got rest body want, reads = fed ++ got :: rest ∧ Rounds h alloc 0 .empty fed body ∧
    wanted h body.size = some want ∧ want < (got.length : Int)

/-- The body is what was supplied, and all of it; a callback that supplies too little or too much
is an error. -/
structure Uploads (h : Handle) (alloc : Nat → Bool) (reads : List (List UInt8)) (code : Code)
    (body : Buffer) : Prop where
  supplied : code = .ok → ∃ fed rest, reads = fed ++ rest ∧ Rounds h alloc 0 .empty fed body ∧
    body.bytes = fed.flatten
  complete : code = .ok → 0 ≤ h.infileSize → (body.size : Int) = h.infileSize
  early : EndsEarly h alloc reads → code ≠ .ok
  oversupply : Oversupplies h alloc reads → code ≠ .ok

/-! ## The loop -/

variable {h : Handle} {alloc : Nat → Bool} {i : Nat} {body body' : Buffer}
  {fed rest : List (List UInt8)} {got : List UInt8}

theorem Buffer.length_bytes (b : Buffer) : b.bytes.length = b.size := Cells.length_slice _ _ _

theorem Round.size {alloc : Bool} (hr : Round h alloc body got body') :
    body'.size = body.size + got.length := by
  have hbytes := congrArg List.length (Buffer.append_bytes hr.kept)
  rwa [List.length_append, Buffer.length_bytes, Buffer.length_bytes] at hbytes

/-- No round goes beyond `infile_size`. -/
theorem Round.size_le {alloc : Bool} (hr : Round h alloc body got body') (hi : 0 ≤ h.infileSize) :
    (body'.size : Int) ≤ h.infileSize := by
  obtain ⟨want, hw, hle⟩ := hr.asked
  have hsize := hr.size
  unfold wanted at hw
  rw [if_pos hi] at hw
  split at hw
  · cases hw
  · obtain rfl := Option.some.inj hw
    omega

theorem Rounds.bytes (hr : Rounds h alloc i body fed body') :
    body'.bytes = body.bytes ++ fed.flatten := by
  induction hr with
  | nil i body => rw [List.flatten_nil, List.append_nil]
  | cons round _ ih => rw [ih, Buffer.append_bytes round.kept, List.flatten_cons, List.append_assoc]

theorem Rounds.size_le (hr : Rounds h alloc i body fed body') (hi : 0 ≤ h.infileSize)
    (hb : (body.size : Int) ≤ h.infileSize) : (body'.size : Int) ≤ h.infileSize := by
  induction hr with
  | nil i body => exact hb
  | cons round _ ih => exact ih (round.size_le hi)

/-- What the loop returns, and the buffer it leaves. -/
def collected (h : Handle) (alloc : Nat → Bool) (reads : List (List UInt8)) (i : Nat)
    (body : Buffer) : Code × Buffer :=
  ((readLoop h alloc reads i body).1, (readLoop h alloc reads i body).2.2.1)

theorem collected_round (hr : Round h (alloc i) body got body') :
    collected h alloc (got :: rest) i body = collected h alloc rest (i + 1) body' := by
  obtain ⟨want, hw, hle⟩ := hr.asked
  obtain ⟨b, l, rfl⟩ := List.exists_cons_of_ne_nil hr.nonempty
  unfold collected
  conv_lhs => unfold readLoop
  rw [hw]
  dsimp only
  rw [if_neg (by omega), hr.kept]

/-- The loop is where its rounds have led it. -/
theorem readLoop_rounds (hr : Rounds h alloc i body fed body') :
    collected h alloc (fed ++ rest) i body = collected h alloc rest (i + fed.length) body' := by
  induction hr with
  | nil i body => rfl
  | cons round _ ih =>
    rw [List.cons_append, collected_round round, ih, List.length_cons, Nat.add_assoc,
      Nat.add_comm 1]

/-- It ends well when it has all bytes, and when the callback reports the end. -/
theorem readLoop_ok : ∀ {reads : List (List UInt8)} {i : Nat} {body : Buffer},
    (collected h alloc reads i body).1 = .ok → ∃ fed rest, reads = fed ++ rest ∧
      Rounds h alloc i body fed (collected h alloc reads i body).2 ∧
      (rest.headD [] = [] ∨ wanted h (collected h alloc reads i body).2.size = none)
  | [], i, body, _ => ⟨[], [], rfl, .nil i body, .inl rfl⟩
  | [] :: rest, i, body, _ => ⟨[], [] :: rest, rfl, .nil i body, .inl rfl⟩
  | (b :: l) :: rest, i, body, hok => by
    cases hw : wanted h body.size with
    | none =>
      have hstop : collected h alloc ((b :: l) :: rest) i body = (.ok, body) := by
        unfold collected readLoop
        rw [hw]
      rw [hstop]
      exact ⟨[], (b :: l) :: rest, rfl, .nil i body, .inr hw⟩
    | some want =>
      have hround : ∃ body', Round h (alloc i) body (b :: l) body' := by
        unfold collected readLoop at hok
        rw [hw] at hok
        dsimp only at hok
        split at hok
        · cases hok
        · rename_i body' hkept
          rcases ite_eq_iff.mp hkept with ⟨-, hkept⟩ | ⟨hle, hkept⟩
          · cases hkept
          · exact ⟨body', List.cons_ne_nil b l, ⟨want, hw, not_lt.mp hle⟩, hkept⟩
      obtain ⟨body', hround⟩ := hround
      rw [collected_round hround] at hok ⊢
      obtain ⟨fed, rest', rfl, hrounds, hend⟩ := readLoop_ok hok
      exact ⟨(b :: l) :: fed, rest', rfl, .cons hround hrounds, hend⟩

/-- When the callback ends early the loop ends well all the same. -/
theorem EndsEarly.collected {reads : List (List UInt8)} (hearly : EndsEarly h alloc reads) :
    (collected h alloc reads 0 .empty).1 = .ok ∧
      ((collected h alloc reads 0 .empty).2.size : Int) < h.infileSize := by
  obtain ⟨fed, rest, body, rfl, hrounds, hend, hlt⟩ := hearly
  rw [readLoop_rounds hrounds]
  match rest, hend with
  | [], _ => exact ⟨rfl, hlt⟩
  | [] :: _, _ => exact ⟨rfl, hlt⟩

theorem wanted_pos {size : Nat} {want : Int} (hw : wanted h size = some want) : 0 < want := by
  unfold wanted at hw
  split at hw
  · split at hw
    · cases hw
    · obtain rfl := Option.some.inj hw
      omega
  · obtain rfl := Option.some.inj hw
    decide

/-- More than it was asked for ends the loop with an error. -/
theorem Oversupplies.collected {reads : List (List UInt8)} (hover : Oversupplies h alloc reads) :
    (collected h alloc reads 0 .empty).1 = .readError := by
  obtain ⟨fed, got, rest, body, want, rfl, hrounds, hw, hlt⟩ := hover
  have hpos := wanted_pos hw
  rw [readLoop_rounds hrounds]
  match got, hlt with
  | [], hlt =>
    rw [List.length_nil, Nat.cast_zero] at hlt
    omega
  | b :: l, hlt =>
    unfold Curl.collected readLoop
    rw [hw]
    dsimp only
    rw [if_pos hlt]

theorem collectRequestBody_collected {w : World} (hfields : h.postFields = none)
    (hread : h.readCallback = true) :
    (collectRequestBody h w).1 = (collected h w.allocBody w.reads 0 .empty).1 ∧
      (collectRequestBody h w).2.2.1 = (collected h w.allocBody w.reads 0 .empty).2 := by
  unfold collectRequestBody
  rw [hfields]
  dsimp only
  rw [if_pos hread]
  exact ⟨rfl, rfl⟩

/-! ## The result -/

/-- **Uploads are complete or fail.**  What `curl_collect_request_body` gets from a read callback is
what the callback supplied, complete or with an error, if and only if the callback does not end
early. -/
theorem uploads_iff (w : World) (h : Handle) (hfields : h.postFields = none)
    (hread : h.readCallback = true) :
    Uploads h w.allocBody w.reads (collectRequestBody h w).1 (collectRequestBody h w).2.2.1 ↔
      ¬EndsEarly h w.allocBody w.reads := by
  obtain ⟨hcode, hbody⟩ := collectRequestBody_collected hfields hread
  rw [hcode, hbody]
  constructor
  · intro hup hearly
    exact hup.early hearly hearly.collected.1
  · intro hearly
    refine ⟨fun hok => ?_, fun hok hi => ?_, fun h => absurd h hearly, fun hover => ?_⟩
    · obtain ⟨fed, rest, heq, hrounds, -⟩ := readLoop_ok hok
      refine ⟨fed, rest, heq, hrounds, ?_⟩
      rw [hrounds.bytes]
      rfl
    · obtain ⟨fed, rest, heq, hrounds, hend⟩ := readLoop_ok hok
      have hle := hrounds.size_le hi hi
      by_contra hne
      have hlt : ((collected h w.allocBody w.reads 0 .empty).2.size : Int) < h.infileSize := by
        omega
      -- the loop has ended, and not for having all bytes
      rcases hend with hend | hfull
      · exact hearly ⟨fed, rest, _, heq, hrounds, hend, hlt⟩
      · unfold wanted at hfull
        rw [if_pos hi, if_neg (by omega)] at hfull
        cases hfull
    · rw [hover.collected]
      exact Code.noConfusion

/-- A handle that uploads `n` bytes from a read callback. -/
def uploading (n : Int) : Handle := { easyInit with readCallback := true, infileSize := n }

/-- Three bytes in two parts. -/
theorem uploads_three : Uploads (uploading 3) (fun _ => true) [[1, 2], [3]]
    (collectRequestBody (uploading 3) { twoChunks with reads := [[1, 2], [3]] }).1
    (collectRequestBody (uploading 3) { twoChunks with reads := [[1, 2], [3]] }).2.2.1 := by
  refine (uploads_iff { twoChunks with reads := [[1, 2], [3]] } (uploading 3) rfl rfl).mpr ?_
  intro hearly
  exact absurd hearly.collected.2 (by decide +kernel)

/-- A callback that ends after one byte of three: the code is `CURLE_OK`. -/
theorem upload_ends_early : ¬∀ (w : World) (h : Handle), h.postFields = none →
    h.readCallback = true →
    Uploads h w.allocBody w.reads (collectRequestBody h w).1 (collectRequestBody h w).2.2.1 := by
  intro hall
  have hup := hall { twoChunks with reads := [[1]] } (uploading 3) rfl rfl
  exact absurd (hup.complete (by decide +kernel) (by decide)) (by decide +kernel)

end Curl
