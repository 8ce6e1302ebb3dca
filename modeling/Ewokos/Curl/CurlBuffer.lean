import Ewokos.Lib.Checked
import Ewokos.Curl.Request

/-!
# curl: the growing buffer

`CurlBuffer` and `curl_buffer_append` of `bin/git/port/ewokos/curl_compat.c`, with the allocated
block, and with every `size_t` operation and every access to the block checked.

* `Valid` — the block has `capacity` bytes, and `size` of them are in use.
* `append_fails`, `append_succeeds` — what one call does, and when.
* `append_refines` — in terms of `Buffer.append`, which leaves the block out.
* `append_run` — what holds after any number of calls.
-/

set_option autoImplicit false

namespace Curl

/-- `CurlBuffer`; the block is empty for `NULL`. -/
structure CurlBuffer where
  data : List UInt8
  size : Nat
  capacity : Nat
  deriving DecidableEq, Repr

/-- The arguments of a call, and the answer of `realloc`: `NULL`, or a block with these bytes behind
the old ones. -/
structure AppendCall where
  data : List UInt8
  block : Option (Nat → UInt8)
  /-- `size` is a `size_t` -/
  fits : data.length ≤ SIZE_MAX

namespace CurlBuffer

/-- `{0}`. -/
def empty : CurlBuffer := ⟨[], 0, 0⟩

/-- The bytes in use. -/
def bytes (b : CurlBuffer) : List UInt8 := b.data.take b.size

/-- `realloc`: the old bytes stay, as many as there is room for. -/
def realloc (data : List UInt8) (capacity : Nat) (block : Option (Nat → UInt8)) :
    Option (List UInt8) :=
  block.map fun fresh => (List.range capacity).map fun i => data.getD i (fresh i)

/-- `while (capacity < needed)`. -/
def grow (fuel needed capacity : Nat) : Option Nat :=
  Checked.loop (fun capacity => some (decide (capacity < needed))) (fun capacity => do
    if capacity > SIZE_MAX / 2 then return .done needed
    else return .yield (← Checked.mul SIZE_MAX capacity 2)) fuel capacity

/-- The end of `curl_buffer_append`. -/
def store (b : CurlBuffer) (data : List UInt8) (needed : Nat) : Option (Int × CurlBuffer) := do
  let block ← Checked.memcpy b.data b.size data
  return (0, { b with data := block, size := needed })

/-- `curl_buffer_append`: its result, and the buffer it leaves. -/
def append (fuel : Nat) (b : CurlBuffer) (call : AppendCall) : Option (Int × CurlBuffer) := do
  let size := call.data.length
  if size = 0 then return (0, b)
  else if size > (← Checked.sub SIZE_MAX b.size) then return (-1, b)
  else
    let needed ← Checked.add SIZE_MAX b.size size
    if needed > b.capacity then
      let capacity ← grow fuel needed (if b.capacity ≠ 0 then b.capacity else 16384)
      match realloc b.data capacity call.block with
      | none => return (-1, b)
      | some new_data => store { b with data := new_data, capacity := capacity } call.data needed
    else store b call.data needed

/-- Some calls, one after the other: their results, and the buffer at the end. -/
def run (fuel : Nat) : CurlBuffer → List AppendCall → Option (List Int × CurlBuffer)
  | b, [] => some ([], b)
  | b, call :: calls => do
    let (r, b) ← append fuel b call
    let (results, b) ← run fuel b calls
    return (r :: results, b)

/-- The data of the calls that succeeded. -/
def appended : List AppendCall → List Int → List UInt8
  | call :: calls, r :: results => (if r = 0 then call.data else []) ++ appended calls results
  | _, _ => []

/-! ## The capacity -/

theorem grow_spec {fuel : Nat} (hf : 64 < fuel) {needed capacity : Nat} (hn : needed ≤ SIZE_MAX)
    (hpos : 1 ≤ capacity) (hc : capacity ≤ SIZE_MAX) :
    grow fuel needed capacity = some (growCapacity needed 64 capacity) ∧
      needed ≤ growCapacity needed 64 capacity ∧ growCapacity needed 64 capacity ≤ SIZE_MAX := by
  have hlog {c : Nat} (h : c ≤ SIZE_MAX) : Nat.log 2 c < 64 :=
    Nat.log_lt_of_lt_pow' (by decide) (Nat.lt_succ_of_le h)
  let inv (c : Nat) : Prop := 1 ≤ c ∧ c ≤ SIZE_MAX ∧
    ∃ k, 64 ≤ Nat.log 2 c + k ∧ growCapacity needed k c = growCapacity needed 64 capacity
  let post (c : Nat) : Prop :=
    c = growCapacity needed 64 capacity ∧ needed ≤ c ∧ c ≤ SIZE_MAX
  have hround (c : Nat) (hinv : inv c) :
      Checked.Round (fun capacity => some (decide (capacity < needed))) (fun capacity => do
        if capacity > SIZE_MAX / 2 then return .done needed
        else return .yield (← Checked.mul SIZE_MAX capacity 2)) inv post (64 - Nat.log 2 ·) c := by
    obtain ⟨hpos, hc, k, hk, heq⟩ := hinv
    by_cases h : c < needed
    · have htest : (some (decide (c < needed)) : Option Bool) = some true :=
        congrArg some (decide_eq_true h)
      have hlt := hlog hc
      obtain ⟨k, rfl⟩ : ∃ m, k = m + 1 := ⟨k - 1, by omega⟩
      rw [growCapacity, if_pos h] at heq
      by_cases hhalf : c > SIZE_MAX / 2
      · -- doubling would wrap around
        rw [if_pos hhalf] at heq
        refine .leave needed htest ?_ ⟨heq, Nat.le_refl _, hn⟩
        rw [if_pos hhalf]
        rfl
      · have hmul : c * 2 ≤ SIZE_MAX := by omega
        have hdouble : Nat.log 2 (c * 2) = Nat.log 2 c + 1 :=
          Nat.log_mul_base (by decide) (by omega)
        rw [if_neg hhalf] at heq
        refine .next (c * 2) htest ?_ ⟨by omega, hmul, k, by omega, heq⟩ (by omega)
        rw [if_neg hhalf, Checked.mul, if_pos hmul]
        rfl
    · refine .stop (congrArg some (decide_eq_false h)) ⟨?_, by omega, hc⟩
      rw [← heq]
      cases k with
      | zero => rfl
      | succ k => rw [growCapacity, if_neg h]
  obtain ⟨c, hc, hpost⟩ := Checked.loop_spec inv post _ hround
    ⟨hpos, hc, 64, Nat.le_add_left _ _, rfl⟩ (show 64 - Nat.log 2 capacity < fuel by omega)
  exact ⟨hpost.1 ▸ hc, hpost.1 ▸ hpost.2⟩

/-! ## One call -/

structure Valid (b : CurlBuffer) : Prop where
  block : b.data.length = b.capacity
  size_le : b.size ≤ b.capacity
  capacity_le : b.capacity ≤ SIZE_MAX

theorem empty_valid : empty.Valid := ⟨rfl, Nat.le_refl 0, Nat.zero_le _⟩

/-- The new size is no `size_t`, or it takes a new block and there is none. -/
def Fails (b : CurlBuffer) (call : AppendCall) : Prop :=
  call.data ≠ [] ∧ (SIZE_MAX < b.size + call.data.length ∨
    (b.capacity < b.size + call.data.length ∧ call.block = none))

/-- The capacity for a new size. -/
def capacityFor (b : CurlBuffer) (needed : Nat) : Nat :=
  if needed > b.capacity then
    growCapacity needed 64 (if b.capacity ≠ 0 then b.capacity else 16384)
  else b.capacity

/-- `b'` is `b` with `l` put behind its bytes. -/
structure Appended (b : CurlBuffer) (l : List UInt8) (b' : CurlBuffer) : Prop where
  valid : b'.Valid
  size : b'.size = b.size + l.length
  capacity : b'.capacity = b.capacityFor (b.size + l.length)
  bytes : b'.bytes = b.bytes ++ l

variable {fuel : Nat} {b : CurlBuffer} {call : AppendCall}

theorem realloc_some {data : List UInt8} {capacity : Nat} {block : Option (Nat → UInt8)}
    (hblock : block ≠ none) : ∃ new_data, realloc data capacity block = some new_data ∧
      new_data.length = capacity ∧ ∀ n, n ≤ data.length → n ≤ capacity →
        new_data.take n = data.take n := by
  obtain ⟨fresh, rfl⟩ := Option.ne_none_iff_exists'.mp hblock
  refine ⟨_, rfl, by simp, fun n hn hc => ?_⟩
  apply List.ext_getElem
  · simp only [List.length_take, List.length_map, List.length_range]
    omega
  · intro i h₁ h₂
    have hi : i < data.length := by
      rw [List.length_take] at h₂
      omega
    simp only [List.getElem_take, List.getElem_map, List.getElem_range]
    exact List.getD_eq_getElem _ _ hi

theorem store_spec {data l : List UInt8} {size capacity : Nat} (hlen : data.length = capacity)
    (hroom : size + l.length ≤ capacity) (hc : capacity ≤ SIZE_MAX) :
    ∃ b', store ⟨data, size, capacity⟩ l (size + l.length) = some (0, b') ∧ b'.Valid ∧
      b'.size = size + l.length ∧ b'.capacity = capacity ∧ b'.bytes = data.take size ++ l := by
  obtain ⟨block, hblock, hkept, hbytes⟩ := Checked.memcpy_eq (hlen ▸ hroom)
  refine ⟨⟨block, size + l.length, capacity⟩, ?_, ⟨by rw [hkept, hlen], hroom, hc⟩, rfl, rfl,
    hbytes⟩
  rw [store, hblock]
  rfl

theorem start_bounds (hb : b.Valid) : 1 ≤ (if b.capacity ≠ 0 then b.capacity else 16384) ∧
    (if b.capacity ≠ 0 then b.capacity else 16384) ≤ SIZE_MAX := by
  split
  · rename_i h
    exact ⟨Nat.pos_of_ne_zero h, hb.capacity_le⟩
  · exact ⟨by decide, by decide⟩

theorem append_fails (hb : b.Valid) (hf : 64 < fuel) (h : Fails b call) :
    append fuel b call = some (-1, b) := by
  obtain ⟨hne, hcase⟩ := h
  have hsize := hb.size_le
  have hcap := hb.capacity_le
  have hsub : Checked.sub SIZE_MAX b.size = some (SIZE_MAX - b.size) := if_pos (by omega)
  unfold append
  dsimp only
  rw [if_neg fun h => hne (List.eq_nil_of_length_eq_zero h), hsub, Option.bind_eq_bind,
    Option.bind_some]
  by_cases hwrap : call.data.length > SIZE_MAX - b.size
  · rw [if_pos hwrap]
    rfl
  · have hneeded : b.size + call.data.length ≤ SIZE_MAX := by omega
    obtain ⟨hmore, hnull⟩ := hcase.resolve_left (by omega)
    have hgrow := grow_spec hf hneeded (start_bounds hb).1 (start_bounds hb).2
    rw [if_neg hwrap, Checked.add, if_pos hneeded, Option.bind_some, if_pos hmore, hgrow.1,
      Option.bind_some, hnull]
    rfl

theorem append_succeeds (hb : b.Valid) (hf : 64 < fuel) (h : ¬Fails b call) :
    ∃ b', append fuel b call = some (0, b') ∧ Appended b call.data b' := by
  have hsize := hb.size_le
  have hcap := hb.capacity_le
  by_cases hnil : call.data = []
  · -- nothing to do
    have hkeep : b.capacityFor (b.size + 0) = b.capacity := if_neg (by omega)
    refine ⟨b, ?_, hb, ?_, ?_, ?_⟩
    · rw [append, hnil]
      rfl
    · rw [hnil]
      rfl
    · rw [hnil]
      exact hkeep.symm
    · rw [hnil, List.append_nil]
  have hfits : b.size + call.data.length ≤ SIZE_MAX := by
    by_contra hc
    exact h ⟨hnil, .inl (by omega)⟩
  have hsub : Checked.sub SIZE_MAX b.size = some (SIZE_MAX - b.size) := if_pos (by omega)
  unfold append
  dsimp only
  rw [if_neg fun h => hnil (List.eq_nil_of_length_eq_zero h), hsub, Option.bind_eq_bind,
    Option.bind_some, if_neg (by omega), Checked.add, if_pos hfits, Option.bind_some]
  by_cases hmore : b.size + call.data.length > b.capacity
  · have hblock : call.block ≠ none := fun hc => h ⟨hnil, .inr ⟨hmore, hc⟩⟩
    obtain ⟨hgrow, hroom, hmax⟩ := grow_spec hf hfits (start_bounds hb).1 (start_bounds hb).2
    have hfor : b.capacityFor (b.size + call.data.length) = growCapacity (b.size + call.data.length)
        64 (if b.capacity ≠ 0 then b.capacity else 16384) := if_pos hmore
    rw [← hfor] at hgrow hroom hmax
    obtain ⟨new_data, hrealloc, hlen, hkept⟩ := @realloc_some b.data
      (b.capacityFor (b.size + call.data.length)) call.block hblock
    obtain ⟨b', hb', hvalid, hsize', hcap', hbytes⟩ := store_spec hlen hroom hmax
    rw [if_pos hmore, hgrow, Option.bind_some, hrealloc]
    exact ⟨b', hb', hvalid, hsize', hcap',
      by rw [hbytes, hkept _ (by rw [hb.block]; exact hsize) (by omega), bytes]⟩
  · have hfor : b.capacityFor (b.size + call.data.length) = b.capacity := if_neg hmore
    obtain ⟨b', hb', hvalid, hsize', hcap', hbytes⟩ := store_spec hb.block
      (show b.size + call.data.length ≤ b.capacity by omega) hcap
    rw [if_neg hmore]
    exact ⟨b', hb', hvalid, hsize', hcap'.trans hfor.symm, hbytes⟩

/-! ## Without the block -/

/-- `B` is what the program can see of `b`. -/
structure Represents (b : CurlBuffer) (B : Buffer) : Prop where
  size : B.size = b.size
  capacity : B.capacity = b.capacity
  bytes : B.bytes = b.bytes

theorem fails_iff {B : Buffer} (hb : b.Valid) (hB : Represents b B) :
    B.append call.data call.block.isSome = none ↔ Fails b call := by
  have hsize := hb.size_le
  have hcap := hb.capacity_le
  have hnil : call.data.length = 0 ↔ call.data = [] := List.length_eq_zero_iff
  unfold Buffer.append Fails
  dsimp only
  rw [hB.size, hB.capacity]
  split
  · rename_i h
    exact iff_of_false (Option.some_ne_none _) fun hf => hf.1 (hnil.mp h)
  rename_i h
  have hne : call.data ≠ [] := mt hnil.mpr h
  split
  · exact iff_of_true rfl ⟨hne, .inl (by omega)⟩
  split
  · rename_i hmore
    cases call.block with
    | none => exact iff_of_true rfl ⟨hne, .inr ⟨hmore, rfl⟩⟩
    | some fresh =>
      refine iff_of_false (Option.some_ne_none _) fun hf => ?_
      rcases hf.2 with hwrap | hnull
      · omega
      · exact Option.some_ne_none _ hnull.2
  · refine iff_of_false (Option.some_ne_none _) fun hf => ?_
    rcases hf.2 with hwrap | hnull
    · omega
    · omega

theorem size_append {B B' : Buffer} {l : List UInt8} {alloc : Bool}
    (h : B.append l alloc = some B') : B'.size = B.size + l.length ∧
      (B.size ≤ B.capacity → B'.capacity = if B.size + l.length > B.capacity then
        growCapacity (B.size + l.length) 64 (if B.capacity = 0 then 16384 else B.capacity)
      else B.capacity) := by
  unfold Buffer.append at h
  dsimp only at h
  split at h
  · rename_i hl
    obtain rfl := Option.some.inj h
    exact ⟨by omega, fun hsize => (if_neg (by omega)).symm⟩
  split at h
  · cases h
  split at h
  · rename_i hmore
    split at h
    · obtain rfl := Option.some.inj h
      exact ⟨rfl, fun _ => (if_pos hmore).symm⟩
    · cases h
  · rename_i hmore
    obtain rfl := Option.some.inj h
    exact ⟨rfl, fun _ => (if_neg hmore).symm⟩

theorem append_refines (hb : b.Valid) (hf : 64 < fuel) {B : Buffer} (hB : Represents b B) :
    (∃ b' B', append fuel b call = some (0, b') ∧
        B.append call.data call.block.isSome = some B' ∧ Represents b' B') ∨
      (append fuel b call = some (-1, b) ∧ B.append call.data call.block.isSome = none) := by
  by_cases h : Fails b call
  · exact .inr ⟨append_fails hb hf h, (fails_iff hb hB).mpr h⟩
  · obtain ⟨b', hb', happended⟩ := append_succeeds hb hf h
    obtain ⟨B', hB'⟩ := Option.ne_none_iff_exists'.mp (mt (fails_iff hb hB).mp h)
    obtain ⟨hsize, hcapacity⟩ := size_append hB'
    refine .inl ⟨b', B', hb', hB', ?_, ?_, ?_⟩
    · rw [hsize, happended.size, hB.size]
    · rw [hcapacity (by rw [hB.size, hB.capacity]; exact hb.size_le), happended.capacity, hB.size,
        hB.capacity, capacityFor, ite_not]
    · rw [Buffer.append_bytes hB', happended.bytes, hB.bytes]

/-! ## Any number of calls -/

theorem append_step (hb : b.Valid) (hf : 64 < fuel) (call : AppendCall) :
    ∃ r b', append fuel b call = some (r, b') ∧ b'.Valid ∧
      b'.bytes = b.bytes ++ (if r = 0 then call.data else []) ∧
      (r = 0 ∧ ¬Fails b call ∨ r = -1 ∧ Fails b call ∧ b' = b) := by
  by_cases h : Fails b call
  · exact ⟨-1, b, append_fails hb hf h, hb, (List.append_nil _).symm, .inr ⟨rfl, h, rfl⟩⟩
  · obtain ⟨b', hb', happended⟩ := append_succeeds hb hf h
    exact ⟨0, b', hb', happended.valid, happended.bytes, .inl ⟨rfl, h⟩⟩

theorem run_spec (hf : 64 < fuel) : ∀ (calls : List AppendCall) {b : CurlBuffer}, b.Valid →
    ∃ results b', run fuel b calls = some (results, b') ∧ results.length = calls.length ∧
      b'.Valid ∧ b'.bytes = b.bytes ++ appended calls results
  | [], b, hb => ⟨[], b, rfl, rfl, hb, (List.append_nil _).symm⟩
  | call :: calls, b, hb => by
    obtain ⟨r, b₁, hstep, hb₁, hbytes, _⟩ := append_step hb hf call
    obtain ⟨results, b₂, hrun, hlen, hb₂, hrest⟩ := run_spec hf calls hb₁
    refine ⟨r :: results, b₂, ?_, by rw [List.length_cons, List.length_cons, hlen], hb₂, ?_⟩
    · rw [run, hstep, Option.bind_eq_bind, Option.bind_some]
      dsimp only
      rw [hrun]
      rfl
    · rw [hrest, hbytes, List.append_assoc, appended]

/-- Whatever is appended and whatever `realloc` answers, nothing wraps around and the loop ends;
what is in use fits the block and is the data appended; the next call that fails changes nothing. -/
theorem append_run (calls : List AppendCall) (fuel : Nat) (hf : 64 < fuel) :
    ∃ results b, run fuel empty calls = some (results, b) ∧ results.length = calls.length ∧
      b.size ≤ b.capacity ∧ b.capacity ≤ SIZE_MAX ∧ b.data.length = b.capacity ∧
      b.bytes = appended calls results ∧
      ∀ call, ∃ r b', append fuel b call = some (r, b') ∧
        (r = 0 ∧ ¬Fails b call ∨ r = -1 ∧ Fails b call ∧ b' = b) := by
  obtain ⟨results, b, hrun, hlen, hb, hbytes⟩ := run_spec hf calls empty_valid
  refine ⟨results, b, hrun, hlen, hb.size_le, hb.capacity_le, hb.block, hbytes, fun call => ?_⟩
  obtain ⟨r, b', hstep, _, _, hr⟩ := append_step hb hf call
  exact ⟨r, b', hstep, hr⟩

theorem append_run_twice : ∃ results b,
    run 65 empty [⟨[1, 2], some fun _ => 0, by decide⟩, ⟨[3], none, by decide⟩] =
        some (results, b) ∧
      results.length = 2 ∧ b.size ≤ b.capacity ∧ b.capacity ≤ SIZE_MAX ∧
      b.data.length = b.capacity ∧
      b.bytes = appended [⟨[1, 2], some fun _ => 0, by decide⟩, ⟨[3], none, by decide⟩] results ∧
      ∀ call, ∃ r b', append 65 b call = some (r, b') ∧
        (r = 0 ∧ ¬Fails b call ∨ r = -1 ∧ Fails b call ∧ b' = b) :=
  append_run [⟨[1, 2], some fun _ => 0, by decide⟩, ⟨[3], none, by decide⟩] 65 (by decide)

end CurlBuffer

end Curl
