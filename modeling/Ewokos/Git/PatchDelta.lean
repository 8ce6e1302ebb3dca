import Mathlib

/-!
# git: replaying a delta

`get_delta_hdr_size` of `bin/git/upstream/delta.h` and `patch_delta` of
`bin/git/upstream/patch-delta.c`.

* Memory is a list of bytes.  A read or a copy that leaves its buffer, and a shift by the width of a
  word or more, is the fault `wild`; `die` ends the program.
* `Instr` — what a delta is for: pieces of the source and literal bytes, one after the other.
* `replay_sound` — whatever the bytes are, what is replayed is a list of instructions.
* `replay_copy`, `replay_insert` — how one instruction is replayed.

Main result: `patch_delta_safe`.
-/

set_option autoImplicit false

namespace Git

/-- How a run goes wrong. -/
inductive Fault where
  | die
  | wild
  deriving DecidableEq, Repr

/-- `DELTA_SIZE_MIN`. -/
def DELTA_SIZE_MIN : Nat := 4

/-- `SIZE_MAX`, which is also the largest `unsigned long`. -/
def SIZE_MAX : Nat := 2 ^ 64 - 1

/-- `st_left_shift`. -/
def stLeftShift (a shift : Nat) : Except Fault Nat :=
  if shift < 64 then
    if SIZE_MAX >>> shift < a then .error .die else .ok (a <<< shift)
  else .error .wild

/-- `get_delta_hdr_size`, with what is left of the data. -/
def getDeltaHdrSize (size i : Nat) : List UInt8 → Except Fault (Nat × List UInt8)
  | [] => .error .wild
  | cmd :: data => do
    let bits ← stLeftShift (cmd.toNat &&& 0x7f) i
    let size := size ||| bits
    if cmd.toNat &&& 0x80 ≠ 0 ∧ data ≠ [] then getDeltaHdrSize size (i + 7) data
    else .ok (size, data)

/-- `PARSE_CP_PARAM`; there is no value at the end of the data. -/
def parseCpParam (cmd bit shift : Nat) (var : Nat) (data : List UInt8) :
    Option (Nat × List UInt8) :=
  if cmd &&& bit ≠ 0 then
    match data with
    | [] => none
    | b :: data => some (var ||| b.toNat <<< shift, data)
  else some (var, data)

/-- The seven parameters of a copy. -/
def parseCp (cmd : Nat) (data : List UInt8) : Option (Nat × Nat × List UInt8) := do
  let (cp_off, data) ← parseCpParam cmd 0x01 0 0 data
  let (cp_off, data) ← parseCpParam cmd 0x02 8 cp_off data
  let (cp_off, data) ← parseCpParam cmd 0x04 16 cp_off data
  let (cp_off, data) ← parseCpParam cmd 0x08 24 cp_off data
  let (cp_size, data) ← parseCpParam cmd 0x10 0 0 data
  let (cp_size, data) ← parseCpParam cmd 0x20 8 cp_size data
  let (cp_size, data) ← parseCpParam cmd 0x40 16 cp_size data
  some (cp_off, cp_size, data)

/-- `memcpy` of `n` bytes at `start` to the end of what was written, in a buffer with `room` bytes
left. -/
def copyBytes (mem : List UInt8) (start n room : Nat) (out : List UInt8) :
    Except Fault (List UInt8) :=
  if start + n ≤ mem.length ∧ n ≤ room then .ok (out ++ (mem.drop start).take n)
  else .error .wild

/-- The loop of `patch_delta`: what `NULL` stands for is `none`.  `size` is how much of the buffer
is still to be written. -/
def replay (src : List UInt8) : Nat → List UInt8 → Nat → List UInt8 →
    Except Fault (Option (List UInt8))
  | 0, _, _, _ => .error .wild
  | _ + 1, [], size, out => .ok (if size ≠ 0 then none else some out)
  | fuel + 1, b :: data, size, out =>
    let cmd := b.toNat
    if cmd &&& 0x80 ≠ 0 then
      match parseCp cmd data with
      | none => .ok none
      | some (cp_off, cp_size, data) =>
        let cp_size := if cp_size = 0 then 0x10000 else cp_size
        if SIZE_MAX < cp_off + cp_size ∨ src.length < cp_off + cp_size ∨ size < cp_size then
          .ok none
        else do
          let out ← copyBytes src cp_off cp_size size out
          replay src fuel data (size - cp_size) out
    else if cmd ≠ 0 then
      if size < cmd ∨ data.length < cmd then .ok none
      else do
        let out ← copyBytes data 0 cmd size out
        replay src fuel (data.drop cmd) (size - cmd) out
    else .ok none

/-- `xmallocz`; `alloc n` tells whether `malloc` gives `n` bytes, within the limit set for it. -/
def xmallocz (alloc : Nat → Bool) (size : Nat) : Except Fault Unit :=
  -- unsigned_add_overflows(size, 1)
  if SIZE_MAX - size < 1 then .error .die
  else if alloc (size + 1) then .ok () else .error .die

/-- `patch_delta`. -/
def patchDelta (alloc : Nat → Bool) (src delta : List UInt8) :
    Except Fault (Option (List UInt8)) :=
  if delta.length < DELTA_SIZE_MIN then .ok none
  else do
    let (size, data) ← getDeltaHdrSize 0 0 delta
    if size ≠ src.length then .ok none
    else
      let (size, data) ← getDeltaHdrSize 0 0 data
      xmallocz alloc size
      replay src (data.length + 1) data size []

/-! ## What a delta is for -/

/-- A piece of the source, or literal bytes. -/
inductive Instr where
  | copy (off size : Nat)
  | insert (bytes : List UInt8)
  deriving DecidableEq, Repr

/-- The bytes an instruction stands for. -/
def Instr.play (src : List UInt8) : Instr → List UInt8
  | .copy off size => (src.drop off).take size
  | .insert bytes => bytes

/-- The instruction names a piece of the source, or at most 127 bytes of the data. -/
def Instr.Fits (src data : List UInt8) : Instr → Prop
  | .copy off size => 0 < size ∧ off + size ≤ src.length
  | .insert bytes => bytes ≠ [] ∧ bytes.length ≤ 127 ∧ bytes <:+: data

/-- The bytes that instructions stand for. -/
def playAll (src : List UInt8) (instrs : List Instr) : List UInt8 :=
  (instrs.map (Instr.play src)).flatten

section Replay

variable {src data data' out dst : List UInt8} {cmd var size : Nat}

@[simp] theorem playAll_nil : playAll src [] = [] := rfl

@[simp] theorem playAll_cons (instr : Instr) (instrs : List Instr) :
    playAll src (instr :: instrs) = instr.play src ++ playAll src instrs := rfl

@[simp] theorem playAll_append (instrs instrs' : List Instr) :
    playAll src (instrs ++ instrs') = playAll src instrs ++ playAll src instrs' := by
  simp [playAll]

theorem Instr.Fits.mono {instr : Instr} (h : instr.Fits src data) (hs : data <:+: data') :
    instr.Fits src data' := by
  cases instr with
  | copy off size => exact h
  | insert bytes => exact ⟨h.1, h.2.1, h.2.2.trans hs⟩

/-! ## Whatever the bytes are -/

theorem top_bit_clear (b : UInt8) : b.toNat &&& 0x80 = 0 ↔ b.toNat < 128 := by
  have hbytes : ∀ n < 256, n &&& 0x80 = 0 ↔ n < 128 := by decide +kernel
  exact hbytes b.toNat b.toNat_lt

theorem low_bits (n : Nat) : n &&& 0x7f = n % 128 := Nat.and_two_pow_sub_one_eq_mod n 7

theorem parseCpParam_suffix {bit shift var' : Nat}
    (h : parseCpParam cmd bit shift var data = some (var', data')) : data' <:+ data := by
  unfold parseCpParam at h
  split at h
  · cases data with
    | nil => simp at h
    | cons b rest =>
      simp only [Option.some.injEq, Prod.mk.injEq] at h
      exact h.2 ▸ List.suffix_cons b rest
  · simp only [Option.some.injEq, Prod.mk.injEq] at h
    exact h.2 ▸ List.suffix_refl _

theorem parseCp_suffix {cp_off cp_size : Nat}
    (h : parseCp cmd data = some (cp_off, cp_size, data')) : data' <:+ data := by
  simp only [parseCp, Option.bind_eq_bind, Option.bind_eq_some_iff, Prod.exists,
    Option.some.injEq, Prod.mk.injEq] at h
  obtain ⟨_, _, h₁, _, _, h₂, _, _, h₃, _, _, h₄, _, _, h₅, _, _, h₆, _, _, h₇, -, -, rfl⟩ := h
  exact (parseCpParam_suffix h₇).trans <| (parseCpParam_suffix h₆).trans <|
    (parseCpParam_suffix h₅).trans <| (parseCpParam_suffix h₄).trans <|
    (parseCpParam_suffix h₃).trans <| (parseCpParam_suffix h₂).trans (parseCpParam_suffix h₁)

theorem copyBytes_eq {mem : List UInt8} {start n room : Nat} (hm : start + n ≤ mem.length)
    (hn : n ≤ room) : copyBytes mem start n room out = .ok (out ++ (mem.drop start).take n) :=
  if_pos ⟨hm, hn⟩

/-- What the loop returns is what it has with the bytes of some instructions after it. -/
def Replays (src data : List UInt8) (size : Nat) (out : List UInt8)
    (r : Except Fault (Option (List UInt8))) : Prop :=
  ∃ res, r = .ok res ∧ ∀ dst, res = some dst → ∃ instrs : List Instr,
    (∀ instr ∈ instrs, instr.Fits src data) ∧ dst = out ++ playAll src instrs ∧
      (playAll src instrs).length = size

theorem Replays.null : Replays src data size out (.ok none) := ⟨none, rfl, by simp⟩

theorem Replays.cons (instr : Instr) {r : Except Fault (Option (List UInt8))}
    (hr : Replays src data' (size - (instr.play src).length) (out ++ instr.play src) r)
    (hfit : instr.Fits src data) (hlen : (instr.play src).length ≤ size)
    (hdata : data' <:+: data) : Replays src data size out r := by
  obtain ⟨res, rfl, hall⟩ := hr
  refine ⟨res, rfl, ?_⟩
  intro dst hdst
  obtain ⟨instrs, hfits, heq, hsize⟩ := hall dst hdst
  refine ⟨instr :: instrs, ?_, ?_, ?_⟩
  · intro i hi
    obtain rfl | hi := List.mem_cons.mp hi
    · exact hfit
    · exact (hfits i hi).mono hdata
  · simp [heq]
  · rw [playAll_cons, List.length_append, hsize]
    omega

/-- As long as there is fuel for all of the data, the loop stays in its buffers. -/
theorem replay_sound {fuel : Nat} (hf : data.length < fuel) :
    Replays src data size out (replay src fuel data size out) := by
  induction fuel generalizing data size out with
  | zero => omega
  | succ fuel ih =>
    cases data with
    | nil =>
      simp only [replay]
      split
      · exact .null
      · exact ⟨some out, rfl, fun dst h => ⟨[], by simp_all⟩⟩
    | cons b data =>
      simp only [replay]
      rw [List.length_cons] at hf
      split
      · cases hp : parseCp b.toNat data with
        | none => exact .null
        | some p =>
          obtain ⟨cp_off, cp_size, rest⟩ := p
          have hsuf := parseCp_suffix hp
          have hlen := hsuf.length_le
          simp only
          generalize hn : (if cp_size = 0 then 0x10000 else cp_size) = n
          have hpos : 0 < n := by
            split at hn <;> omega
          split
          · exact .null
          · rename_i hfits
            rw [copyBytes_eq (by omega) (by omega)]
            have hplay : (Instr.play src (.copy cp_off n)).length = n := by
              simp only [Instr.play, List.length_take, List.length_drop]
              omega
            refine Replays.cons (.copy cp_off n) ?_ ⟨hpos, by omega⟩ (by omega)
              (hsuf.isInfix.trans (List.suffix_cons b data).isInfix)
            rw [hplay]
            exact ih (by omega)
      · split
        · split
          · exact .null
          · rename_i hcopy hcmd hfits
            have hcmd' := (top_bit_clear b).mp (not_not.mp hcopy)
            rw [copyBytes_eq (by omega) (by omega)]
            have hplay : (Instr.play src (.insert ((data.drop 0).take b.toNat))).length =
                b.toNat := by
              simp only [Instr.play, List.length_take, List.length_drop]
              omega
            have hpre : (data.drop 0).take b.toNat <:+: b :: data :=
              (List.take_prefix _ _).isInfix.trans (List.suffix_cons b data).isInfix
            refine Replays.cons (.insert ((data.drop 0).take b.toNat)) ?_ ⟨?_, ?_, hpre⟩ (by omega)
              ((List.drop_suffix b.toNat _).isInfix.trans (List.suffix_cons b data).isInfix)
            · rw [hplay]
              exact ih (by rw [List.length_drop]; omega)
            · intro hnil
              rw [Instr.play, hnil, List.length_nil] at hplay
              omega
            · rw [Instr.play] at hplay
              omega
        · exact .null

end Replay

/-! ## Sizes in the header -/

/-- The bytes of a size, the low bits first; all but the last have the top bit set. -/
def sizeBytes : Nat → Nat → List UInt8
  | 0, l => [UInt8.ofNat l]
  | more + 1, l =>
    if 0x80 ≤ l then UInt8.ofNat (l ||| 0x80) :: sizeBytes more (l >>> 7) else [UInt8.ofNat l]

theorem or_top_bit (l : Nat) : (UInt8.ofNat (l ||| 0x80)).toNat = l % 128 + 128 := by
  have hbytes : ∀ n < 256, n ||| 0x80 = n % 128 + 128 := by decide +kernel
  have hl := hbytes (l % 256) (Nat.mod_lt _ (by omega))
  rw [Nat.mod_mod_of_dvd l (by omega)] at hl
  simpa using hl

theorem stLeftShift_eq {a shift : Nat} (hs : shift < 64) (ha : a <<< shift < 2 ^ 64) :
    stLeftShift a shift = .ok (a <<< shift) := by
  have hle : a ≤ SIZE_MAX >>> shift := by
    rw [Nat.shiftRight_eq_div_pow, Nat.le_div_iff_mul_le (Nat.two_pow_pos shift),
      ← Nat.shiftLeft_eq]
    exact Nat.le_pred_of_lt ha
  rw [stLeftShift, if_pos hs, if_neg (by omega)]

theorem sizeBytes_ne_nil (more l : Nat) : sizeBytes more l ≠ [] := by
  cases more with
  | zero => simp [sizeBytes]
  | succ more =>
    rw [sizeBytes]
    split <;> simp

/-- The last byte of a size. -/
theorem hdr_last {l size i : Nat} {rest : List UInt8} (hl : l < 128) (hfits : l <<< i < 2 ^ 64)
    (hi : i < 64) (hsize : size < 2 ^ i) :
    getDeltaHdrSize size i (UInt8.ofNat l :: rest) = .ok (size + l <<< i, rest) := by
  have hb : (UInt8.ofNat l).toNat = l := by
    rw [UInt8.toNat_ofNat']
    omega
  have htop : (UInt8.ofNat l).toNat &&& 0x80 = 0 := (top_bit_clear _).mpr (by omega)
  have hor : size ||| l <<< i = size + l <<< i := by
    rw [Nat.or_comm, ← Nat.shiftLeft_add_eq_or_of_lt hsize, Nat.add_comm]
  rw [getDeltaHdrSize, htop, hb, low_bits, Nat.mod_eq_of_lt hl, stLeftShift_eq hi hfits]
  simp [Bind.bind, Except.bind, hor]

/-- A size that was put in the header is read back from it. -/
theorem hdr_size (more size i : Nat) {l : Nat} {rest : List UInt8}
    (hmore : l < 2 ^ (7 * more + 7)) (hfits : l <<< i < 2 ^ 64) (hi : i < 64)
    (hsize : size < 2 ^ i) :
    getDeltaHdrSize size i (sizeBytes more l ++ rest) = .ok (size + l <<< i, rest) := by
  induction more generalizing l size i with
  | zero => exact hdr_last hmore hfits hi hsize
  | succ more ih =>
    rw [sizeBytes]
    split
    · rename_i hge
      have hdiv : l >>> 7 = l / 128 := Nat.shiftRight_eq_div_pow l 7
      have hpow : 2 ^ (i + 7) = 2 ^ i * 128 := Nat.pow_add 2 i 7
      have hsplit : (l % 128) * 2 ^ i + l / 128 * (2 ^ i * 128) = l * 2 ^ i := by
        have := Nat.mod_add_div l 128
        calc (l % 128) * 2 ^ i + l / 128 * (2 ^ i * 128)
            = (l % 128 + 128 * (l / 128)) * 2 ^ i := by ring
          _ = l * 2 ^ i := by rw [this]
      have hlow : (l % 128) * 2 ^ i ≤ 127 * 2 ^ i := Nat.mul_le_mul_right _ (by omega)
      rw [Nat.shiftLeft_eq] at hfits
      have hhigh : 2 ^ i * 128 ≤ l / 128 * (2 ^ i * 128) :=
        Nat.le_mul_of_pos_left _ (by omega)
      have hi' : i + 7 < 64 := by
        have : 2 ^ (i + 7) < 2 ^ 64 := by omega
        exact (Nat.pow_lt_pow_iff_right (by omega)).mp this
      have hor : size ||| (l % 128) <<< i = size + (l % 128) <<< i := by
        rw [Nat.or_comm, ← Nat.shiftLeft_add_eq_or_of_lt hsize, Nat.add_comm]
      have htop : (UInt8.ofNat (l ||| 0x80)).toNat &&& 0x80 ≠ 0 := by
        rw [ne_eq, top_bit_clear, or_top_bit]
        omega
      have hbits : (UInt8.ofNat (l ||| 0x80)).toNat &&& 0x7f = l % 128 := by
        rw [or_top_bit, low_bits]
        omega
      have hmore' : l >>> 7 < 2 ^ (7 * more + 7) := by
        rw [hdiv]
        refine Nat.div_lt_of_lt_mul ?_
        calc l < 2 ^ (7 * (more + 1) + 7) := hmore
          _ = 128 * 2 ^ (7 * more + 7) := by rw [Nat.pow_add 2 (7 * (more + 1)), Nat.pow_add]; ring
      have hrest := ih (size + (l % 128) <<< i) (i + 7) hmore'
        (by rw [hdiv, Nat.shiftLeft_eq, hpow]; omega) hi'
        (by rw [Nat.shiftLeft_eq, hpow]; omega)
      have hsum : size + (l % 128) <<< i + (l >>> 7) <<< (i + 7) = size + l <<< i := by
        rw [hdiv, Nat.shiftLeft_eq, Nat.shiftLeft_eq, Nat.shiftLeft_eq, hpow, Nat.add_assoc, hsplit]
      rw [List.cons_append, getDeltaHdrSize, hbits,
        stLeftShift_eq hi (by rw [Nat.shiftLeft_eq]; omega)]
      simp only [Bind.bind, Except.bind, hor]
      rw [if_pos ⟨htop, by simp [sizeBytes_ne_nil]⟩, hrest, hsum]
    · exact hdr_last (by omega) hfits hi hsize

/-! ## Instructions -/

/-- The byte of a value under a mask, when there is one. -/
def fieldBytes (v mask shift : Nat) : List UInt8 :=
  if v &&& mask ≠ 0 then [UInt8.ofNat (v >>> shift)] else []

/-- The bit of the command that announces the byte. -/
def fieldBit (v mask bit : Nat) : Nat := if v &&& mask ≠ 0 then bit else 0

/-- The command of a copy. -/
def copyCommand (off size : Nat) : Nat :=
  0x80 ||| fieldBit off 0xff 0x01 ||| fieldBit off 0xff00 0x02 ||| fieldBit off 0xff0000 0x04 |||
    fieldBit off 0xff000000 0x08 ||| fieldBit size 0xff 0x10 ||| fieldBit size 0xff00 0x20

/-- The bytes that follow the command of a copy. -/
def copyFields (off size : Nat) : List UInt8 :=
  fieldBytes off 0xff 0 ++ fieldBytes off 0xff00 8 ++ fieldBytes off 0xff0000 16 ++
    fieldBytes off 0xff000000 24 ++ fieldBytes size 0xff 0 ++ fieldBytes size 0xff00 8

/-- The command and the bytes of a copy. -/
def copyBytesOf (off size : Nat) : List UInt8 :=
  UInt8.ofNat (copyCommand off size) :: copyFields off size

/-- The bytes of an instruction. -/
def Instr.bytes : Instr → List UInt8
  | .copy off size => copyBytesOf off size
  | .insert bytes => UInt8.ofNat bytes.length :: bytes

/-- The instruction has an encoding. -/
def Instr.Coded (src : List UInt8) : Instr → Prop
  | .copy off size => 0 < size ∧ size ≤ 0x10000 ∧ off < 2 ^ 32 ∧ off + size ≤ src.length
  | .insert bytes => bytes ≠ [] ∧ bytes.length ≤ 127

section Coded

variable {src rest out : List UInt8} {cmd var size : Nat}

theorem parse_field (shift : Nat) {v bit : Nat}
    (hbit : cmd &&& bit ≠ 0 ↔ v &&& 0xff <<< shift ≠ 0) :
    parseCpParam cmd bit shift var (fieldBytes v (0xff <<< shift) shift ++ rest) =
      some (var ||| v &&& 0xff <<< shift, rest) := by
  unfold parseCpParam fieldBytes
  by_cases hv : v &&& 0xff <<< shift = 0
  · have hc : cmd &&& bit = 0 := by
      by_contra hc
      exact hbit.mp hc hv
    simp [hv, hc]
  · rw [if_pos (hbit.mpr hv), if_pos hv]
    have hbyte : (UInt8.ofNat (v >>> shift)).toNat <<< shift = v &&& 0xff <<< shift := by
      rw [UInt8.toNat_ofNat', show (0xff : Nat) = 2 ^ 8 - 1 from rfl]
      refine Nat.eq_of_testBit_eq fun i => ?_
      simp only [Nat.testBit_shiftLeft, Nat.testBit_and, Nat.testBit_mod_two_pow,
        Nat.testBit_shiftRight, Nat.testBit_two_pow_sub_one]
      by_cases hi : shift ≤ i
      · rw [show shift + (i - shift) = i by omega]
        cases v.testBit i <;> simp [hi]
      · simp [hi]
    simp only [List.singleton_append, hbyte]

/-- Six choices of bits, and what each of the tests of the command finds. -/
theorem cmd_bits (b₁ b₂ b₃ b₄ b₅ b₆ : Bool) :
    let cmd := 0x80 ||| (bif b₁ then 0x01 else 0) ||| (bif b₂ then 0x02 else 0) |||
      (bif b₃ then 0x04 else 0) ||| (bif b₄ then 0x08 else 0) ||| (bif b₅ then 0x10 else 0) |||
      (bif b₆ then 0x20 else 0)
    cmd < 256 ∧ cmd &&& 0x80 ≠ 0 ∧ (cmd &&& 0x01 ≠ 0 ↔ b₁ = true) ∧ (cmd &&& 0x02 ≠ 0 ↔ b₂ = true) ∧
      (cmd &&& 0x04 ≠ 0 ↔ b₃ = true) ∧ (cmd &&& 0x08 ≠ 0 ↔ b₄ = true) ∧
      (cmd &&& 0x10 ≠ 0 ↔ b₅ = true) ∧ (cmd &&& 0x20 ≠ 0 ↔ b₆ = true) ∧ cmd &&& 0x40 = 0 := by
  revert b₁ b₂ b₃ b₄ b₅ b₆
  decide

theorem fieldBit_eq (v mask bit : Nat) :
    fieldBit v mask bit = bif decide (v &&& mask ≠ 0) then bit else 0 := by
  unfold fieldBit
  by_cases h : v &&& mask = 0 <;> simp [h]

theorem masks_off {off : Nat} (h : off < 2 ^ 32) :
    0 ||| off &&& 0xff ||| off &&& 0xff00 ||| off &&& 0xff0000 ||| off &&& 0xff000000 = off := by
  rw [Nat.zero_or, ← Nat.and_or_distrib_left, ← Nat.and_or_distrib_left,
    ← Nat.and_or_distrib_left]
  exact (Nat.and_two_pow_sub_one_eq_mod off 32).trans (Nat.mod_eq_of_lt h)

theorem masks_size (size : Nat) :
    0 ||| size &&& 0xff ||| size &&& 0xff00 = size % 0x10000 := by
  rw [Nat.zero_or, ← Nat.and_or_distrib_left]
  exact Nat.and_two_pow_sub_one_eq_mod size 16

/-- What a copy is written as is parsed as this copy; a size of `0x10000` is written as 0. -/
theorem parse_copy {off : Nat} (n : Nat) (hoff : off < 2 ^ 32) (rest : List UInt8) :
    ∃ b fields, copyBytesOf off n = b :: fields ∧ b.toNat &&& 0x80 ≠ 0 ∧
      parseCp b.toNat (fields ++ rest) = some (off, n % 0x10000, rest) := by
  refine ⟨_, _, rfl, ?_⟩
  simp only [copyCommand, fieldBit_eq, UInt8.toNat_ofNat']
  obtain ⟨hlt, htop, h₁, h₂, h₃, h₄, h₅, h₆, h₇⟩ := cmd_bits (decide (off &&& 0xff ≠ 0))
    (decide (off &&& 0xff00 ≠ 0)) (decide (off &&& 0xff0000 ≠ 0))
    (decide (off &&& 0xff000000 ≠ 0)) (decide (n &&& 0xff ≠ 0)) (decide (n &&& 0xff00 ≠ 0))
  rw [Nat.mod_eq_of_lt hlt]
  refine ⟨htop, ?_⟩
  simp only [decide_eq_true_eq] at h₁ h₂ h₃ h₄ h₅ h₆
  have p₁ : ∀ rest, parseCpParam _ 0x01 0 0 (fieldBytes off 0xff 0 ++ rest) = some (_, rest) :=
    fun rest => parse_field 0 h₁
  have p₂ : ∀ var rest, parseCpParam _ 0x02 8 var (fieldBytes off 0xff00 8 ++ rest) =
      some (_, rest) := fun var rest => parse_field 8 h₂
  have p₃ : ∀ var rest, parseCpParam _ 0x04 16 var (fieldBytes off 0xff0000 16 ++ rest) =
      some (_, rest) := fun var rest => parse_field 16 h₃
  have p₄ : ∀ var rest, parseCpParam _ 0x08 24 var (fieldBytes off 0xff000000 24 ++ rest) =
      some (_, rest) := fun var rest => parse_field 24 h₄
  have p₅ : ∀ rest, parseCpParam _ 0x10 0 0 (fieldBytes n 0xff 0 ++ rest) = some (_, rest) :=
    fun rest => parse_field 0 h₅
  have p₆ : ∀ var rest, parseCpParam _ 0x20 8 var (fieldBytes n 0xff00 8 ++ rest) =
      some (_, rest) := fun var rest => parse_field 8 h₆
  have p₇ : ∀ var, parseCpParam _ 0x40 16 var rest = some (var, rest) := fun var =>
    if_neg (not_not.mpr h₇)
  simp only [copyFields, List.append_assoc, parseCp, Option.bind_eq_bind, p₁, p₂, p₃, p₄, p₅, p₆,
    p₇, Option.bind_some]
  have hoff' := masks_off hoff
  have hn := masks_size n
  rw [show (255 : Nat) <<< 0 = 0xff from rfl]
  simp only [Option.some.injEq, Prod.mk.injEq]
  exact ⟨hoff', hn, trivial⟩

theorem replay_copy {fuel off n : Nat} (h : (Instr.copy off n).Coded src) (hn : n ≤ size)
    (hsrc : src.length < 2 ^ 64) :
    replay src (fuel + 1) (copyBytesOf off n ++ rest) size out =
      replay src fuel rest (size - n) (out ++ (src.drop off).take n) := by
  obtain ⟨hpos, hmax, hoff, hfit⟩ := h
  obtain ⟨b, fields, hcopy, htop, hparse⟩ := parse_copy n hoff rest
  have hsize : (if n % 0x10000 = 0 then 0x10000 else n % 0x10000) = n := by
    split <;> omega
  have hmemory : ¬(SIZE_MAX < off + n ∨ src.length < off + n ∨ size < n) := by
    unfold SIZE_MAX
    omega
  rw [hcopy, List.cons_append, replay]
  simp only [htop, ne_eq, not_false_eq_true, if_true, hparse, hsize, hmemory, if_false]
  rw [copyBytes_eq hfit hn]
  rfl

theorem replay_insert {fuel : Nat} {bytes : List UInt8} (h : (Instr.insert bytes).Coded src)
    (hn : bytes.length ≤ size) :
    replay src (fuel + 1) (UInt8.ofNat bytes.length :: bytes ++ rest) size out =
      replay src fuel rest (size - bytes.length) (out ++ bytes) := by
  obtain ⟨hne, hmax⟩ := h
  have hpos := List.length_pos_iff.mpr hne
  have hb : (UInt8.ofNat bytes.length).toNat = bytes.length := by
    rw [UInt8.toNat_ofNat']
    omega
  have htop := (top_bit_clear (UInt8.ofNat bytes.length)).mpr (by omega)
  have hfits : ¬(size < bytes.length ∨ (bytes ++ rest).length < bytes.length) := by
    rw [List.length_append]
    omega
  rw [hb] at htop
  rw [List.cons_append, replay]
  simp only [hb, htop, ne_eq, not_true_eq_false, if_false, hfits]
  rw [if_pos (by omega), copyBytes_eq (by rw [List.length_append]; omega) hn]
  simp only [Bind.bind, Except.bind, List.drop_zero, List.take_left, List.drop_left]

/-- Instructions that were written are replayed one after the other. -/
theorem replay_all {instrs : List Instr} {fuel : Nat} (hcoded : ∀ i ∈ instrs, i.Coded src)
    (hsrc : src.length < 2 ^ 64) (hsize : (playAll src instrs).length = size)
    (hfuel : instrs.length < fuel) :
    replay src fuel (instrs.map Instr.bytes).flatten size out =
      .ok (some (out ++ playAll src instrs)) := by
  induction instrs generalizing fuel size out with
  | nil =>
    obtain ⟨fuel, rfl⟩ : ∃ f, fuel = f + 1 := ⟨fuel - 1, by simp at hfuel; omega⟩
    obtain rfl : size = 0 := by simpa using hsize.symm
    simp [replay]
  | cons instr instrs ih =>
    obtain ⟨fuel, rfl⟩ : ∃ f, fuel = f + 1 := ⟨fuel - 1, by simp at hfuel; omega⟩
    rw [List.length_cons] at hfuel
    rw [playAll_cons, List.length_append] at hsize
    have hrest : ∀ out, replay src fuel (instrs.map Instr.bytes).flatten
        (size - (instr.play src).length) out = .ok (some (out ++ playAll src instrs)) := fun out =>
      ih (fun i hi => hcoded i (List.mem_cons_of_mem _ hi)) (by omega) (by omega)
    have hinstr := hcoded instr (List.mem_cons_self ..)
    rw [List.map_cons, List.flatten_cons, playAll_cons, ← List.append_assoc, ← hrest]
    cases instr with
    | copy off n =>
      have hplay : (Instr.play src (.copy off n)).length = n := by
        obtain ⟨-, -, -, hfit⟩ := hinstr
        simp only [Instr.play, List.length_take, List.length_drop]
        omega
      rw [hplay] at hsize ⊢
      exact replay_copy hinstr (by omega) hsrc
    | insert bytes => exact replay_insert hinstr (by rw [Instr.play] at hsize; omega)

end Coded

theorem length_le_flatten {instrs : List Instr} :
    instrs.length ≤ (instrs.map Instr.bytes).flatten.length := by
  induction instrs with
  | nil => simp
  | cons instr instrs ih =>
    have : 1 ≤ instr.bytes.length := by
      cases instr <;> simp [Instr.bytes, copyBytesOf]
    simp only [List.map_cons, List.flatten_cons, List.length_append, List.length_cons]
    omega

/-- The delta that consists of these instructions. -/
def deltaBytes (src trg : List UInt8) (instrs : List Instr) : List UInt8 :=
  sizeBytes 9 src.length ++ sizeBytes 9 trg.length ++ (instrs.map Instr.bytes).flatten

theorem patchDelta_coded (alloc : Nat → Bool) {src trg : List UInt8} {instrs : List Instr}
    (hcoded : ∀ i ∈ instrs, i.Coded src) (hsrc : src.length < 2 ^ 64)
    (htrg : trg.length < 2 ^ 64 - 1) (hplay : playAll src instrs = trg)
    (hmin : DELTA_SIZE_MIN ≤ (deltaBytes src trg instrs).length) :
    patchDelta alloc src (deltaBytes src trg instrs) =
      if alloc (trg.length + 1) then .ok (some trg) else .error .die := by
  have h₁ : getDeltaHdrSize 0 0 (sizeBytes 9 src.length ++
      (sizeBytes 9 trg.length ++ (instrs.map Instr.bytes).flatten)) = .ok (_, _) :=
    hdr_size 9 0 0 (by omega) (by simpa using hsrc) (by omega) (by omega)
  have h₂ : getDeltaHdrSize 0 0 (sizeBytes 9 trg.length ++ (instrs.map Instr.bytes).flatten) =
      .ok (_, _) := hdr_size 9 0 0 (by omega) (by simp; omega) (by omega) (by omega)
  have hreplay : replay src ((instrs.map Instr.bytes).flatten.length + 1)
      (instrs.map Instr.bytes).flatten trg.length [] = .ok (some ([] ++ playAll src instrs)) :=
    replay_all hcoded hsrc (congrArg List.length hplay) (Nat.lt_succ_of_le length_le_flatten)
  have halloc : xmallocz alloc trg.length =
      if alloc (trg.length + 1) then .ok () else .error .die := by
    rw [xmallocz, SIZE_MAX, if_neg (by omega)]
  rw [patchDelta, if_neg (by omega), deltaBytes, List.append_assoc, h₁]
  simp only [Bind.bind, Except.bind, Nat.shiftLeft_zero, Nat.zero_add, ne_eq, not_true_eq_false,
    if_false, h₂, halloc]
  by_cases h : alloc (trg.length + 1)
  · simp only [h, if_true, hreplay, List.nil_append, hplay]
  · simp [h]

/-- **No delta leads out of the buffers.**  Whatever the bytes of a delta are, `patch_delta` faults
only while it reads one of the two sizes, or it dies for want of memory for a result of the size
that is named.  When it returns a buffer, the delta names the size of the source and that of the
result, and the result consists of pieces of the source and of bytes of the delta. -/
theorem patch_delta_safe (alloc : Nat → Bool) (src delta : List UInt8) :
    (∀ fault, patchDelta alloc src delta = .error fault →
      getDeltaHdrSize 0 0 delta = .error fault ∨
        ∃ data, getDeltaHdrSize 0 0 delta = .ok (src.length, data) ∧
          (getDeltaHdrSize 0 0 data = .error fault ∨
            ∃ size rest, getDeltaHdrSize 0 0 data = .ok (size, rest) ∧ fault = .die ∧
              (SIZE_MAX ≤ size ∨ alloc (size + 1) = false))) ∧
      ∀ dst, patchDelta alloc src delta = .ok (some dst) →
        ∃ data rest instrs, getDeltaHdrSize 0 0 delta = .ok (src.length, data) ∧
          getDeltaHdrSize 0 0 data = .ok (dst.length, rest) ∧
          (∀ instr ∈ instrs, Instr.Fits src rest instr) ∧ dst = playAll src instrs := by
  unfold patchDelta
  by_cases hmin : delta.length < DELTA_SIZE_MIN
  · simp [hmin]
  rw [if_neg hmin]
  cases h₁ : getDeltaHdrSize 0 0 delta with
  | error fault => simp [Bind.bind, Except.bind]
  | ok p =>
    obtain ⟨size, data⟩ := p
    simp only [Bind.bind, Except.bind]
    by_cases hsrc : size = src.length
    · subst hsrc
      cases h₂ : getDeltaHdrSize 0 0 data with
      | error fault => simp [h₂]
      | ok p =>
        obtain ⟨size, rest⟩ := p
        have hsound : Replays src rest size [] (replay src (rest.length + 1) rest size []) :=
          replay_sound (Nat.lt_succ_self rest.length)
        obtain ⟨res, hres, hall⟩ := hsound
        simp only [ne_eq, not_true_eq_false, if_false]
        cases hm : xmallocz alloc size with
        | error fault =>
          refine ⟨?_, by simp⟩
          rintro fault' hfault
          obtain rfl := Except.error.inj hfault
          refine .inr ⟨data, rfl, .inr ⟨size, rest, h₂, ?_⟩⟩
          unfold xmallocz at hm
          split at hm
          · exact ⟨(Except.error.inj hm).symm, .inl (by omega)⟩
          · split at hm
            · cases hm
            · rename_i halloc
              exact ⟨(Except.error.inj hm).symm, .inr (Bool.eq_false_iff.mpr halloc)⟩
        | ok u =>
          simp only [hres]
          refine ⟨by simp, ?_⟩
          intro dst hdst
          obtain ⟨instrs, hfits, hplay, hlen⟩ := hall dst (Except.ok.inj hdst)
          rw [List.nil_append] at hplay
          exact ⟨data, rest, instrs, rfl, by rw [h₂, hplay, hlen], hfits, hplay⟩
    · simp [hsrc]

end Git
