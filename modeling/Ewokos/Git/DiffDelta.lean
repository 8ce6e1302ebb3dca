import Ewokos.Git.DeltaIndex
import Ewokos.Git.PatchDelta
import Ewokos.Lib.Slots

/-!
# git: making a delta

`create_delta` of `bin/git/upstream/diff-delta.c` and `diff_delta` of `bin/git/upstream/delta.h`.

* `DeltaState` — the variables of `create_delta`.  `out` is memory with whatever was in it before;
  a store from `outsize` on, a read outside one of the two buffers or the tables, and a run that
  does not end have no value.
* `Written` — what is in the buffer: the sizes, the instructions that are complete, and the bytes
  that are inserted next behind the slot of their count.
* `Matched` — the match that is at hand is one.
* `findMatch_spec`, `insertByte_spec`, `copyMatch_spec`, `deltaLoop_spec` — one lemma for each part.

Main result: `delta_round_trip`.
-/

set_option autoImplicit false

namespace Git

open Slots

/-- `MAX_OP_SIZE`. -/
def MAX_OP_SIZE : Nat := 5 + 5 + 1 + RABIN_WINDOW + 7

/-- The variables of `create_delta`; `data` is an offset into the target. -/
structure DeltaState where
  out : Nat → UInt8
  outpos : Nat
  outsize : Nat
  data : Nat
  val : BitVec 32
  inscnt : Nat
  moff : Nat
  msize : Nat

namespace DeltaState

/-- `out[i] = b`. -/
def store (s : DeltaState) (i b : Nat) : Option DeltaState :=
  if i < s.outsize then some { s with out := Function.update s.out i (UInt8.ofNat b) } else none

/-- `out[outpos++] = b`. -/
def put (s : DeltaState) (b : Nat) : Option DeltaState := do
  let s ← s.store s.outpos b
  some { s with outpos := s.outpos + 1 }

/-- The loop that stores a size. -/
def putSize : Nat → Nat → DeltaState → Option DeltaState
  | 0, _, _ => none
  | fuel + 1, l, s =>
    if 0x80 ≤ l then do
      let s ← s.put (l ||| 0x80)
      putSize fuel (l >>> 7) s
    else s.put l

/-- The bytes of the first window are inserted as they are. -/
def firstWindow (trg : List UInt8) : Nat → DeltaState → Option DeltaState
  | 0, s => some s
  | n + 1, s =>
    match trg[s.data]? with
    | none => some s
    | some b => do
      let s ← s.put b.toNat
      let val ← rabin s.val b
      firstWindow trg n { s with data := s.data + 1, val := val, inscnt := s.inscnt + 1 }

/-- `out[outpos - inscnt - 1] = inscnt`, and no bytes to insert any more. -/
def closeInsert (s : DeltaState) : Option DeltaState := do
  let s ← s.store (s.outpos - s.inscnt - 1) s.inscnt
  some { s with inscnt := 0 }

/-- One byte that is inserted. -/
def insertByte (trg : List UInt8) (s : DeltaState) : Option DeltaState := do
  let b ← trg[s.data]?
  let s := if s.inscnt = 0 then { s with outpos := s.outpos + 1 } else s
  let s ← s.put b.toNat
  let s := { s with data := s.data + 1, inscnt := s.inscnt + 1 }
  let s ← (if s.inscnt = 0x7f then s.closeInsert else some s)
  some { s with msize := 0 }

/-- Match backwards, over bytes that were to be inserted.  When none of them is left the slot of the
count goes too; `inscnt` is -1 then, and the store of the count is one behind the slot. -/
def matchBack (src trg : List UInt8) : Nat → DeltaState → Option DeltaState
  | 0, s => do
    let s := { s with outpos := s.outpos - 1 }
    let s ← s.store s.outpos 0xff
    some { s with inscnt := 0 }
  | n + 1, s =>
    if s.moff = 0 then s.closeInsert
    else do
      let ref ← src[s.moff - 1]?
      let byte ← trg[s.data - 1]?
      if ref = byte then
        matchBack src trg n { s with
          msize := s.msize + 1, moff := s.moff - 1, data := s.data - 1, outpos := s.outpos - 1
          inscnt := n }
      else s.closeInsert

/-- Store the byte of `v` under a mask, and set its bit in the command, when it is not 0. -/
def putField (v mask shift bit : Nat) (op : DeltaState × Nat) : Option (DeltaState × Nat) :=
  if v &&& mask ≠ 0 then do
    let s ← op.1.put (v >>> shift)
    some (s, op.2 ||| bit)
  else some op

/-- The command of a copy. -/
def putCopy (s : DeltaState) : Option DeltaState := do
  let op := s.outpos
  let i ← putField s.moff 0x000000ff 0 0x01 ({ s with outpos := s.outpos + 1 }, 0x80)
  let i ← putField s.moff 0x0000ff00 8 0x02 i
  let i ← putField s.moff 0x00ff0000 16 0x04 i
  let i ← putField s.moff 0xff000000 24 0x08 i
  let i ← putField s.msize 0x00ff 0 0x10 i
  let (s, i) ← putField s.msize 0xff00 8 0x20 i
  s.store op i

/-- Copy the match that was found, as much of it as one command can. -/
def copyMatch (src trg : List UInt8) (s : DeltaState) : Option DeltaState := do
  let s ← (if s.inscnt = 0 then some s else matchBack src trg s.inscnt s)
  let left := if s.msize < 0x10000 then 0 else (s.msize - 0x10000) % 2 ^ 32
  let s := { s with msize := s.msize - left }
  let s ← s.putCopy
  let s := { s with data := s.data + s.msize, moff := s.moff + s.msize, msize := left }
  let s := if 0xffffffff < s.moff then { s with msize := 0 } else s
  if s.msize < 4096 then do
    let val ← (if RABIN_WINDOW ≤ s.data then window trg (s.data - RABIN_WINDOW) else none)
    some { s with val := val }
  else some s

/-- Make room; there is no state when the delta is too large already. -/
def grow (max_size : Nat) (s : DeltaState) : Option DeltaState :=
  if s.outsize - MAX_OP_SIZE ≤ s.outpos then
    let outsize := s.outsize * 3 / 2
    let outsize := if max_size ≠ 0 ∧ max_size ≤ outsize then max_size + MAX_OP_SIZE + 1 else outsize
    if max_size ≠ 0 ∧ max_size < s.outpos then none else some { s with outsize := outsize }
  else some s

end DeltaState

/-- The number of equal bytes at two places, at most `n`. -/
def equalBytes (src trg : List UInt8) : Nat → Nat → Nat → Option Nat
  | 0, _, _ => some 0
  | n + 1, ref, data => do
    let a ← src[ref]?
    let b ← trg[data]?
    if b = a then (equalBytes src trg n (ref + 1) (data + 1)).map (· + 1) else some 0

/-- The loop over a bucket: the size and the place of the best match. -/
def bestMatch (src trg : List UInt8) (data : Nat) (val : BitVec 32) :
    List IndexEntry → Nat → Nat → Option (Nat × Nat)
  | [], msize, moff => some (msize, moff)
  | entry :: entries, msize, moff =>
    let ref_size := (src.length - entry.ptr) % 2 ^ 32
    if entry.val ≠ val then bestMatch src trg data val entries msize moff
    else
      let ref_size := if trg.length - data < ref_size then trg.length - data else ref_size
      if ref_size ≤ msize then some (msize, moff)
      else do
        let n ← equalBytes src trg ref_size entry.ptr data
        if msize < n then
          if 4096 ≤ n then some (n, entry.ptr)
          else bestMatch src trg data val entries n entry.ptr
        else bestMatch src trg data val entries msize moff

/-- Look for a match at `data`, unless the one at hand is long. -/
def findMatch (index : DeltaIndex) (trg : List UInt8) (s : DeltaState) : Option DeltaState :=
  if s.msize < 4096 then do
    let first ← (if RABIN_WINDOW ≤ s.data then trg[s.data - RABIN_WINDOW]? else none)
    let next ← trg[s.data]?
    let val ← slide s.val first next
    let bucket ← index.hash[(val &&& index.hashMask).toNat]?
    let (msize, moff) ← bestMatch index.srcBuf trg s.data val bucket s.msize s.moff
    some { s with val := val, msize := msize, moff := moff }
  else some s

/-- One pass of the loop of `create_delta`, up to the growing of the buffer. -/
def deltaPass (index : DeltaIndex) (trg : List UInt8) (s : DeltaState) : Option DeltaState := do
  let s ← findMatch index trg s
  if s.msize < 4 then s.insertByte trg else s.copyMatch index.srcBuf trg

/-- The loop of `create_delta`. -/
def deltaLoop (index : DeltaIndex) (trg : List UInt8) (max_size : Nat) :
    Nat → DeltaState → Option DeltaState
  | 0, _ => none
  | fuel + 1, s =>
    if s.data < trg.length then do
      let s ← deltaPass index trg s
      (s.grow max_size).elim (some s) fun s => deltaLoop index trg max_size fuel s
    else some s

/-- `create_delta` when its `malloc` and `realloc` succeed.  Its `NULL` is `some none`; `out` is what
the allocated memory holds. -/
def createDelta (index : DeltaIndex) (trg : List UInt8) (max_size : Nat) (out : Nat → UInt8) :
    Option (Option (List UInt8)) :=
  if trg.length = 0 then some none
  else do
    let outsize := if max_size ≠ 0 ∧ max_size ≤ 8192 then max_size + MAX_OP_SIZE + 1 else 8192
    let s : DeltaState := ⟨out, 0, outsize, 0, 0, 0, 0, 0⟩
    let s ← s.putSize 10 index.srcBuf.length
    let s ← s.putSize 10 trg.length
    let s ← DeltaState.firstWindow trg RABIN_WINDOW { s with outpos := s.outpos + 1 }
    let s ← deltaLoop index trg max_size (trg.length + 1) s
    let s ← (if s.inscnt = 0 then some s else s.closeInsert)
    if max_size ≠ 0 ∧ max_size < s.outpos then some none else some (some (cells s.outpos s.out))

/-- `diff_delta`. -/
def diffDelta (src trg : List UInt8) (max_size : Nat) (out : Nat → UInt8) :
    Option (Option (List UInt8)) := do
  match ← createDeltaIndex src with
  | none => some none
  | some index => createDelta index trg max_size out

/-! ## Stores at the end of the buffer -/

/-- From `s` to `s'` these bytes were stored at the end, and nothing else was done. -/
def Wrote (s s' : DeltaState) (bytes : List UInt8) : Prop :=
  ∃ out, s' = { s with out := out, outpos := s.outpos + bytes.length } ∧
    cells (s.outpos + bytes.length) out = cells s.outpos s.out ++ bytes

section Stores

variable {s s' s'' : DeltaState} {added added' : List UInt8}

theorem Wrote.trans (h : Wrote s s' added) (h' : Wrote s' s'' added') :
    Wrote s s'' (added ++ added') := by
  obtain ⟨out, rfl, hout⟩ := h
  obtain ⟨out', rfl, hout'⟩ := h'
  refine ⟨out', by simp [Nat.add_assoc], ?_⟩
  rw [List.length_append, ← Nat.add_assoc, hout', hout, List.append_assoc]

theorem Wrote.cells_eq (h : Wrote s s' added) :
    cells s'.outpos s'.out = cells s.outpos s.out ++ added := by
  obtain ⟨out, rfl, hout⟩ := h
  exact hout

theorem Wrote.outpos (h : Wrote s s' added) : s'.outpos = s.outpos + added.length := by
  obtain ⟨out, rfl, -⟩ := h
  rfl

/-- What a store leaves as it is. -/
theorem Wrote.frame (h : Wrote s s' added) :
    s'.outsize = s.outsize ∧ s'.data = s.data ∧ s'.val = s.val ∧ s'.inscnt = s.inscnt ∧
      s'.moff = s.moff ∧ s'.msize = s.msize := by
  obtain ⟨out, rfl, -⟩ := h
  simp

/-- A later store to the first of the slots. -/
theorem Wrote.patch {x : UInt8} (h : Wrote s s' (x :: added)) (b : Nat)
    (hfits : s.outpos < s'.outsize) :
    ∃ s'', s'.store s.outpos b = some s'' ∧ Wrote s s'' (UInt8.ofNat b :: added) := by
  obtain ⟨out, rfl, hout⟩ := h
  have hmid := cells_update_mid hout (UInt8.ofNat b)
  rw [length_cells] at hmid
  exact ⟨_, if_pos hfits, _, rfl, hmid⟩

theorem put_spec (b : Nat) (h : s.outpos < s.outsize) :
    ∃ s', s.put b = some s' ∧ Wrote s s' [UInt8.ofNat b] := by
  have hput : s.put b = some { s with
      out := Function.update s.out s.outpos (UInt8.ofNat b)
      outpos := s.outpos + 1 } := by
    simp only [DeltaState.put, DeltaState.store, if_pos h, Option.bind_eq_bind, Option.bind_some]
  exact ⟨_, hput, _, rfl, cells_snoc _⟩

theorem putSize_spec (more : Nat) {l : Nat} (hl : l < 2 ^ (7 * more + 7))
    (h : s.outpos + (sizeBytes more l).length ≤ s.outsize) :
    ∃ s', s.putSize (more + 1) l = some s' ∧ Wrote s s' (sizeBytes more l) := by
  induction more generalizing s l with
  | zero =>
    have hlt : ¬0x80 ≤ l := by omega
    rw [DeltaState.putSize, if_neg hlt]
    exact put_spec l (by simpa [sizeBytes] using h)
  | succ more ih =>
    rw [DeltaState.putSize]
    rw [sizeBytes] at h ⊢
    by_cases hge : 0x80 ≤ l
    · rw [if_pos hge] at h ⊢
      rw [if_pos hge]
      rw [List.length_cons] at h
      obtain ⟨s₁, hput, hw⟩ := put_spec (s := s) (l ||| 0x80) (by omega)
      have hdiv : l >>> 7 < 2 ^ (7 * more + 7) := by
        rw [Nat.shiftRight_eq_div_pow]
        refine Nat.div_lt_of_lt_mul ?_
        rw [← Nat.pow_add]
        exact hl.trans_eq (by congr 1; omega)
      have hpos := hw.outpos
      have hsize := hw.frame.1
      rw [List.length_singleton] at hpos
      obtain ⟨s₂, hrest, hw₂⟩ := ih (s := s₁) hdiv (by omega)
      exact ⟨s₂, by simp [hput, hrest], hw.trans hw₂⟩
    · rw [if_neg hge] at h ⊢
      rw [if_neg hge]
      exact put_spec l (by simpa using h)

theorem length_fieldBytes (v mask shift : Nat) : (fieldBytes v mask shift).length ≤ 1 := by
  unfold fieldBytes
  split <;> simp

theorem length_copyBytesOf (off size : Nat) : (copyBytesOf off size).length ≤ 7 := by
  have h₁ := length_fieldBytes off 0xff 0
  have h₂ := length_fieldBytes off 0xff00 8
  have h₃ := length_fieldBytes off 0xff0000 16
  have h₄ := length_fieldBytes off 0xff000000 24
  have h₅ := length_fieldBytes size 0xff 0
  have h₆ := length_fieldBytes size 0xff00 8
  simp only [copyBytesOf, copyFields, List.length_cons, List.length_append]
  omega

theorem putField_spec (v mask shift bit room : Nat) (h : s.outpos + (room + 1) ≤ s.outsize) :
    ∃ s', (∀ i, DeltaState.putField v mask shift bit (s, i) =
        some (s', i ||| fieldBit v mask bit)) ∧
      Wrote s s' (fieldBytes v mask shift) ∧ s'.outpos + room ≤ s'.outsize ∧
      s'.moff = s.moff ∧ s'.msize = s.msize := by
  have hlen := length_fieldBytes v mask shift
  unfold DeltaState.putField fieldBit
  by_cases hv : v &&& mask = 0
  · have hnil : fieldBytes v mask shift = [] := if_neg (not_not.mpr hv)
    simp only [hv, ne_eq, not_true_eq_false, if_false, Nat.or_zero]
    exact ⟨s, fun _ => rfl, ⟨s.out, by simp [hnil], by simp [hnil]⟩, by omega, rfl, rfl⟩
  · have hone : fieldBytes v mask shift = [UInt8.ofNat (v >>> shift)] := if_pos hv
    obtain ⟨s', hput, hw⟩ := put_spec (s := s) (v >>> shift) (by omega)
    have hpos := hw.outpos
    obtain ⟨hsize, -, -, -, hoff, hmsize⟩ := hw.frame
    rw [List.length_singleton] at hpos
    simp only [hv, ne_eq, not_false_eq_true, if_true, hput, Option.bind_eq_bind, Option.bind_some]
    exact ⟨s', fun _ => rfl, hone ▸ hw, by omega, hoff, hmsize⟩

/-- What is stored for a copy; the command is stored last, in the slot that was left for it. -/
theorem putCopy_spec (h : s.outpos + 7 ≤ s.outsize) :
    ∃ s', s.putCopy = some s' ∧ Wrote s s' (copyBytesOf s.moff s.msize) := by
  have w₀ : Wrote s { s with outpos := s.outpos + 1 } [s.out s.outpos] := ⟨s.out, rfl, cells_succ⟩
  generalize hs₀ : ({ s with outpos := s.outpos + 1 } : DeltaState) = s₀ at w₀
  have r₀ : s₀.outpos + (5 + 1) ≤ s₀.outsize := by
    rw [← hs₀]
    simp only
    omega
  obtain ⟨s₁, e₁, w₁, r₁, m₁, n₁⟩ := putField_spec s₀.moff 0xff 0 0x01 5 r₀
  obtain ⟨s₂, e₂, w₂, r₂, m₂, n₂⟩ := putField_spec s₁.moff 0xff00 8 0x02 4 r₁
  obtain ⟨s₃, e₃, w₃, r₃, m₃, n₃⟩ := putField_spec s₂.moff 0xff0000 16 0x04 3 r₂
  obtain ⟨s₄, e₄, w₄, r₄, m₄, n₄⟩ := putField_spec s₃.moff 0xff000000 24 0x08 2 r₃
  obtain ⟨s₅, e₅, w₅, r₅, m₅, n₅⟩ := putField_spec s₄.msize 0xff 0 0x10 1 r₄
  obtain ⟨s₆, e₆, w₆, r₆, -, -⟩ := putField_spec s₅.msize 0xff00 8 0x20 0 r₅
  obtain ⟨-, -, -, -, m₀, n₀⟩ := w₀.frame
  rw [m₀] at e₁ w₁ m₁
  rw [m₁] at e₂ w₂ m₂
  rw [m₂] at e₃ w₃ m₃
  rw [m₃] at e₄ w₄
  rw [n₄, n₃, n₂, n₁, n₀] at e₅ w₅ n₅
  rw [n₅] at e₆ w₆
  have w := (((((w₀.trans w₁).trans w₂).trans w₃).trans w₄).trans w₅).trans w₆
  simp only [List.append_assoc, List.singleton_append] at w
  have hput : s.putCopy = s₆.store s.outpos (copyCommand s.moff s.msize) := by
    simp only [DeltaState.putCopy, hs₀, e₁, e₂, e₃, e₄, e₅, e₆, Option.bind_eq_bind,
      Option.bind_some, copyCommand]
  have hfits : s.outpos < s₆.outsize := by
    have := w.frame.1
    omega
  obtain ⟨s', hstore, hw⟩ := w.patch (copyCommand s.moff s.msize) hfits
  refine ⟨s', hput.trans hstore, ?_⟩
  simpa only [copyBytesOf, copyFields, List.append_assoc, List.append_eq] using hw

end Stores

/-! ## What is in the buffer -/

/-- The bytes that are inserted next, behind the slot of their count. -/
def Pending (pending lits : List UInt8) : Prop :=
  pending = [] ∧ lits = [] ∨ lits ≠ [] ∧ ∃ slot, pending = slot :: lits

/-- The sizes, the instructions, and what is pending stand in the buffer, and stand for the target
up to `data`. -/
structure Written (src trg : List UInt8) (s : DeltaState) (instrs : List Instr)
    (lits : List UInt8) : Prop where
  coded : ∀ i ∈ instrs, i.Coded src
  count : s.inscnt = lits.length
  few : lits.length < 127
  data_le : s.data ≤ trg.length
  play : playAll src instrs ++ lits = trg.take s.data
  bytes : ∃ pending, Pending pending lits ∧
    cells s.outpos s.out = deltaBytes src trg instrs ++ pending

section Instructions

variable {src trg lits : List UInt8} {s s' : DeltaState} {instrs : List Instr}

theorem deltaBytes_append (instr : Instr) :
    deltaBytes src trg (instrs ++ [instr]) = deltaBytes src trg instrs ++ instr.bytes := by
  simp [deltaBytes]

theorem cells_outpos {n : Nat} {out : Nat → UInt8} {l : List UInt8} (h : cells n out = l) :
    n = l.length := by
  rw [← h, length_cells]

/-- The count is stored in its slot, and the bytes behind it are an instruction. -/
theorem closeInsert_spec {base : List UInt8} {slot : UInt8} (hcount : s.inscnt = lits.length)
    (hbytes : cells s.outpos s.out = base ++ slot :: lits) (hfits : s.outpos ≤ s.outsize) :
    ∃ out, s.closeInsert = some { s with out := out, inscnt := 0 } ∧
      cells s.outpos out = base ++ Instr.bytes (.insert lits) := by
  have hpos := cells_outpos hbytes
  rw [List.length_append, List.length_cons] at hpos
  have hslot : s.outpos - lits.length - 1 = base.length := by omega
  refine ⟨_, ?_, cells_update_mid hbytes (UInt8.ofNat lits.length)⟩
  simp only [DeltaState.closeInsert, DeltaState.store, hcount, hslot, Option.bind_eq_bind]
  rw [if_pos (by omega), Option.bind_some]

/-- When the slot of the count is not there yet, it is left free. -/
theorem Written.slot (h : Written src trg s instrs lits) :
    ∃ slot s', (if s.inscnt = 0 then { s with outpos := s.outpos + 1 } else s) = s' ∧
      cells s'.outpos s'.out = deltaBytes src trg instrs ++ slot :: lits ∧
      s.outpos ≤ s'.outpos ∧ s'.outpos ≤ s.outpos + 1 ∧
      s' = { s with outpos := s'.outpos } := by
  obtain ⟨pending, hpending, hbytes⟩ := h.bytes
  have hcount := h.count
  obtain ⟨rfl, rfl⟩ | ⟨hlits, slot, rfl⟩ := hpending
  · rw [List.length_nil] at hcount
    refine ⟨s.out s.outpos, _, if_pos hcount, ?_, by simp, by simp, rfl⟩
    rw [cells_succ, hbytes, List.append_nil]
  · have := List.length_pos_iff.mpr hlits
    exact ⟨slot, s, if_neg (by omega), hbytes, le_rfl, Nat.le_succ _, rfl⟩

/-- One byte that is inserted. -/
theorem insertByte_spec (h : Written src trg s instrs lits) (hdata : s.data < trg.length)
    (hroom : s.outpos + 2 ≤ s.outsize) :
    ∃ s' instrs' lits', s.insertByte trg = some s' ∧ Written src trg s' instrs' lits' ∧
      s'.data = s.data + 1 ∧ s'.msize = 0 ∧ s'.val = s.val ∧ s'.outsize = s.outsize ∧
      s'.outpos ≤ s.outpos + 2 := by
  obtain ⟨slot, s₁, hs₁, hbytes, hge, hle, heq⟩ := h.slot
  have hfew := h.few
  have hsize : s₁.outsize = s.outsize := by rw [heq]
  have hcount : s₁.inscnt = lits.length := by rw [heq]; exact h.count
  have hdata₁ : s₁.data = s.data := by rw [heq]
  have hval : s₁.val = s.val := by rw [heq]
  have hget : trg[s.data]? = some trg[s.data] := List.getElem?_eq_getElem hdata
  obtain ⟨s₂, hput, hw⟩ := put_spec (s := s₁) trg[s.data].toNat (by omega)
  have hpos := hw.outpos
  have hcells := hw.cells_eq
  obtain ⟨hsize₂, hdata₂, hval₂, hcount₂, -, -⟩ := hw.frame
  rw [UInt8.ofNat_toNat] at hcells hpos
  rw [List.length_singleton] at hpos
  rw [hbytes, List.append_assoc, List.cons_append] at hcells
  have hplay : playAll src instrs ++ (lits ++ [trg[s.data]]) = trg.take (s.data + 1) := by
    rw [← List.append_assoc, h.play, List.take_succ_eq_append_getElem hdata]
  have hlen : (lits ++ [trg[s.data]]).length = lits.length + 1 := by simp
  simp only [DeltaState.insertByte, hget, Option.bind_eq_bind, Option.bind_some, hs₁, hput]
  rw [hcount₂, hcount, hdata₂, hdata₁]
  by_cases hfull : lits.length + 1 = 0x7f
  · obtain ⟨out, hclose, hout⟩ := closeInsert_spec
      (s := { s₂ with data := s.data + 1, inscnt := lits.length + 1 }) hlen.symm hcells
      (by simp only; omega)
    rw [if_pos hfull, hclose]
    refine ⟨_, instrs ++ [.insert (lits ++ [trg[s.data]])], [], rfl, ?_, rfl, rfl, ?_, ?_, ?_⟩
    · refine ⟨?_, rfl, by simp, hdata, ?_, [], .inl ⟨rfl, rfl⟩, ?_⟩
      · intro i hi
        obtain hi | hi := List.mem_append.mp hi
        · exact h.coded i hi
        · obtain rfl := List.mem_singleton.mp hi
          exact ⟨by simp, by omega⟩
      · simpa [Instr.play] using hplay
      · rw [deltaBytes_append, List.append_nil]
        exact hout
    · exact hval₂.trans hval
    · exact hsize₂.trans hsize
    · simp only
      omega
  · rw [if_neg hfull]
    refine ⟨_, instrs, lits ++ [trg[s.data]], rfl, ?_, rfl, rfl, ?_, ?_, ?_⟩
    · refine ⟨h.coded, hlen.symm, by omega, hdata, hplay, _, .inr ⟨by simp, slot, rfl⟩, ?_⟩
      exact hcells
    · exact hval₂.trans hval
    · exact hsize₂.trans hsize
    · simp only
      omega

end Instructions

/-! ## Matches -/

/-- The two places have `msize` bytes in common, and a copy can name the first. -/
structure Matched (src trg : List UInt8) (data moff msize : Nat) : Prop where
  moff_lt : moff < 2 ^ 32
  src_le : moff + msize ≤ src.length
  trg_le : data + msize ≤ trg.length
  same : (src.drop moff).take msize = (trg.drop data).take msize

section Matches

variable {src trg lits : List UInt8} {s s' : DeltaState} {instrs : List Instr}
  {data moff msize : Nat}

theorem Matched.back (h : Matched src trg data moff msize) (hm : moff ≠ 0) (hd : data ≠ 0)
    {b : UInt8} (hs : src[moff - 1]? = some b) (ht : trg[data - 1]? = some b) :
    Matched src trg (data - 1) (moff - 1) (msize + 1) := by
  have hsrc := h.src_le
  have htrg := h.trg_le
  have hlt := h.moff_lt
  have hone : ∀ (l : List UInt8) (i : Nat), i ≠ 0 → l[i - 1]? = some b →
      (l.drop (i - 1)).take (msize + 1) = b :: (l.drop i).take msize := by
    intro l i hi hb
    obtain ⟨hlt, rfl⟩ := List.getElem?_eq_some_iff.mp hb
    rw [List.drop_eq_getElem_cons hlt, List.take_succ_cons, Nat.sub_add_cancel (by omega)]
  refine ⟨by omega, by omega, by omega, ?_⟩
  rw [hone src moff hm hs, hone trg data hd ht, h.same]

theorem Matched.front (h : Matched src trg data moff msize) {k : Nat} (hk : k ≤ msize) :
    Matched src trg data moff k := by
  have hsrc := h.src_le
  have htrg := h.trg_le
  refine ⟨h.moff_lt, by omega, by omega, ?_⟩
  have := congrArg (List.take k) h.same
  rwa [List.take_take, List.take_take, Nat.min_eq_left hk] at this

theorem Matched.rest (h : Matched src trg data moff msize) {k : Nat} (hk : k ≤ msize)
    (hlt : moff + k < 2 ^ 32) : Matched src trg (data + k) (moff + k) (msize - k) := by
  have hsrc := h.src_le
  have htrg := h.trg_le
  refine ⟨hlt, by omega, by omega, ?_⟩
  have := congrArg (List.drop k) h.same
  rwa [List.drop_take, List.drop_take, List.drop_drop, List.drop_drop] at this

/-- Where the literal bytes end with the byte before `data`. -/
theorem last_literal {played : List UInt8} {b : UInt8}
    (h : played ++ (lits ++ [b]) = trg.take data) (hd : data ≤ trg.length) :
    data ≠ 0 ∧ trg[data - 1]? = some b ∧ played ++ lits = trg.take (data - 1) := by
  have hlen := congrArg List.length h
  simp only [List.length_append, List.length_singleton, List.length_take,
    Nat.min_eq_left hd] at hlen
  rw [← List.append_assoc] at h
  refine ⟨by omega, ?_, ?_⟩
  · have hb : (trg.take data)[data - 1]? = some b := by
      rw [← h, List.getElem?_append_right (by simp; omega)]
      simp only [List.length_append]
      rw [show data - 1 - (played.length + lits.length) = 0 by omega]
      rfl
    rwa [List.getElem?_take_of_lt (by omega)] at hb
  · have := congrArg (List.take (data - 1)) h
    rwa [List.take_take, Nat.min_eq_left (by omega), List.take_left' (by simp; omega)] at this

/-- What matching backwards over at most `n` literal bytes leads to, where `played` and `base` are
the target and the buffer before these bytes. -/
structure Back (src trg played base : List UInt8) (n : Nat) (s s' : DeltaState)
    (lits : List UInt8) : Prop where
  count : s'.inscnt = 0
  outsize : s'.outsize = s.outsize
  outpos : s'.outpos ≤ s.outpos
  matched : Matched src trg s'.data s'.moff s'.msize
  sum : s'.data + s'.msize = s.data + s.msize
  longer : s.msize ≤ s'.msize
  bound : s'.msize ≤ s.msize + n
  few : lits.length ≤ n
  play : played ++ lits = trg.take s'.data
  bytes : cells s'.outpos s'.out = base ++ (if lits = [] then [] else Instr.bytes (.insert lits))

/-- Where matching backwards ends, the bytes that are left are an instruction. -/
theorem back_close {played base : List UInt8} {slot : UInt8} {n : Nat}
    (hlits : lits.length = n + 1) (hcount : s.inscnt = n + 1)
    (hbytes : cells s.outpos s.out = base ++ slot :: lits)
    (hplay : played ++ lits = trg.take s.data)
    (hmatch : Matched src trg s.data s.moff s.msize) (hfits : s.outpos ≤ s.outsize) :
    ∃ s', s.closeInsert = some s' ∧ Back src trg played base (n + 1) s s' lits := by
  have hne : lits ≠ [] := List.ne_nil_of_length_eq_add_one hlits
  obtain ⟨out, hclose, hout⟩ := closeInsert_spec (hcount.trans hlits.symm) hbytes hfits
  refine ⟨_, hclose, rfl, rfl, le_rfl, hmatch, rfl, le_rfl, Nat.le_add_right _ _, hlits.le,
    hplay, ?_⟩
  rw [if_neg hne]
  exact hout

/-- Matching backwards keeps the match. -/
theorem matchBack_spec {played base : List UInt8} {slot : UInt8} (n : Nat)
    (hlits : lits.length = n) (hcount : s.inscnt = n)
    (hbytes : cells s.outpos s.out = base ++ slot :: lits)
    (hplay : played ++ lits = trg.take s.data) (hdata : s.data ≤ trg.length)
    (hmatch : Matched src trg s.data s.moff s.msize) (hfits : s.outpos ≤ s.outsize) :
    ∃ s' lits', s.matchBack src trg n = some s' ∧ Back src trg played base n s s' lits' := by
  induction n generalizing s lits with
  | zero =>
    obtain rfl := List.length_eq_zero_iff.mp hlits
    have hpos := cells_outpos hbytes
    rw [List.length_append, List.length_singleton] at hpos
    have hbase : cells (s.outpos - 1) s.out = base := by
      rw [show s.outpos - 1 = base.length by omega]
      exact cells_prefix hbytes
    have hstore : s.matchBack src trg 0 = some { s with
        outpos := s.outpos - 1
        out := Function.update s.out (s.outpos - 1) (UInt8.ofNat 0xff)
        inscnt := 0 } := by
      simp only [DeltaState.matchBack, DeltaState.store, Option.bind_eq_bind]
      rw [if_pos (by omega), Option.bind_some]
    refine ⟨_, [], hstore, rfl, rfl, Nat.sub_le _ _, hmatch, rfl, le_rfl, le_rfl, le_rfl, hplay, ?_⟩
    simp only [if_true, List.append_nil]
    rw [cells_congr fun i hi => Function.update_of_ne hi.ne _ _, hbase]
  | succ n ih =>
    obtain ⟨s₀, hclose, hback₀⟩ := back_close hlits hcount hbytes hplay hmatch hfits
    rw [DeltaState.matchBack]
    by_cases hm : s.moff = 0
    · exact ⟨s₀, lits, by rw [if_pos hm, hclose], hback₀⟩
    obtain ⟨front, b, rfl⟩ : ∃ front b, lits = front ++ [b] :=
      (List.eq_nil_or_concat' lits).resolve_left (List.ne_nil_of_length_eq_add_one hlits)
    obtain ⟨hd, hbyte, hplay'⟩ := last_literal hplay hdata
    have hsrc := hmatch.src_le
    have href : src[s.moff - 1]? = some src[s.moff - 1] := List.getElem?_eq_getElem (by omega)
    simp only [if_neg hm, href, hbyte, Option.bind_eq_bind, Option.bind_some]
    by_cases heq : src[s.moff - 1] = b
    · rw [if_pos heq]
      rw [List.length_append, List.length_singleton] at hlits
      have hbytes' : cells s.outpos s.out = (base ++ slot :: front) ++ [b] := by simp [hbytes]
      have hpos := cells_outpos hbytes'
      rw [List.length_append, List.length_singleton] at hpos
      have hfront : cells (s.outpos - 1) s.out = base ++ slot :: front := by
        rw [show s.outpos - 1 = (base ++ slot :: front).length by omega]
        exact cells_prefix hbytes'
      obtain ⟨s', lits', hrun, hback⟩ := ih (s := { s with
          msize := s.msize + 1, moff := s.moff - 1, data := s.data - 1, outpos := s.outpos - 1
          inscnt := n }) (by omega) rfl hfront hplay' (by simp only; omega)
        (hmatch.back hm hd (heq ▸ href) hbyte) (by simp only; omega)
      refine ⟨s', lits', hrun, hback.count, hback.outsize, ?_, hback.matched, ?_, ?_, ?_, ?_,
        hback.play, hback.bytes⟩
      · exact hback.outpos.trans (Nat.sub_le _ _)
      · have := hback.sum
        simp only at this
        omega
      · have := hback.longer
        simp only at this
        omega
      · have := hback.bound
        simp only at this
        omega
      · exact hback.few.trans (Nat.le_succ n)
    · exact ⟨s₀, _, by rw [if_neg heq, hclose], hback₀⟩

/-- Matching backwards from a state of the loop; without literal bytes nothing is done. -/
theorem Written.matchBack (h : Written src trg s instrs lits)
    (hmatch : Matched src trg s.data s.moff s.msize) (hfits : s.outpos ≤ s.outsize) :
    ∃ s' lits', (if s.inscnt = 0 then some s else s.matchBack src trg s.inscnt) = some s' ∧
      Back src trg (playAll src instrs) (deltaBytes src trg instrs) lits.length s s' lits' := by
  obtain ⟨pending, hpending, hbytes⟩ := h.bytes
  have hcount := h.count
  obtain ⟨rfl, rfl⟩ | ⟨hlits, slot, rfl⟩ := hpending
  · refine ⟨s, [], if_pos hcount, hcount, rfl, le_rfl, hmatch, rfl, le_rfl, le_rfl, le_rfl,
      h.play, ?_⟩
    simpa using hbytes
  · have := List.length_pos_iff.mpr hlits
    rw [if_neg (by omega), hcount]
    exact matchBack_spec lits.length rfl hcount hbytes h.play h.data_le hmatch hfits

/-- The instructions up to the copy, when some literal bytes are left before it. -/
theorem Back.written {lits' : List UInt8}
    (hback : Back src trg (playAll src instrs) (deltaBytes src trg instrs) lits.length s s' lits')
    (h : Written src trg s instrs lits) :
    ∃ instrs', (∀ i ∈ instrs', i.Coded src) ∧ playAll src instrs' = trg.take s'.data ∧
      cells s'.outpos s'.out = deltaBytes src trg instrs' := by
  have hplay := hback.play
  have hbytes := hback.bytes
  have hfew := h.few
  by_cases hnil : lits' = []
  · subst hnil
    rw [List.append_nil] at hplay
    rw [if_pos rfl, List.append_nil] at hbytes
    exact ⟨instrs, h.coded, hplay, hbytes⟩
  · rw [if_neg hnil] at hbytes
    refine ⟨instrs ++ [.insert lits'], ?_, ?_, by rw [deltaBytes_append, hbytes]⟩
    · intro i hi
      obtain hi | hi := List.mem_append.mp hi
      · exact h.coded i hi
      · obtain rfl := List.mem_singleton.mp hi
        exact ⟨hnil, by have := hback.few; omega⟩
    · simpa [Instr.play] using hplay

/-- One copy. -/
theorem copyMatch_spec (h : Written src trg s instrs lits)
    (hmatch : Matched src trg s.data s.moff s.msize) (hlong : 4 ≤ s.msize)
    (hsmall : s.msize < 2 ^ 32) (hdata : RABIN_WINDOW ≤ s.data)
    (hroom : s.outpos + 7 ≤ s.outsize) :
    ∃ s' instrs', s.copyMatch src trg = some s' ∧ Written src trg s' instrs' [] ∧ s.data < s'.data ∧
      (0 < s'.msize → Matched src trg s'.data s'.moff s'.msize) ∧ s'.msize < 2 ^ 32 ∧
      (s'.msize < 4096 → window trg (s'.data - RABIN_WINDOW) = some s'.val) ∧
      s'.outsize = s.outsize ∧ s'.outpos ≤ s.outpos + 7 := by
  obtain ⟨s₁, lits₁, hrun, hback⟩ := h.matchBack hmatch (by omega)
  obtain ⟨instrs₁, hcoded, hplay, hbytes⟩ := hback.written h
  have hfew := h.few
  have hsum := hback.sum
  have hlonger := hback.longer
  have hbound := hback.bound
  have hpos := hback.outpos
  have hsize := hback.outsize
  have hsrc := hback.matched.src_le
  have htrg := hback.matched.trg_le
  have hlt := hback.matched.moff_lt
  generalize hleft : (if s₁.msize < 0x10000 then 0 else (s₁.msize - 0x10000) % 2 ^ 32) = left
  generalize hn : s₁.msize - left = n
  have hcopy : 0 < n ∧ n ≤ 0x10000 ∧ n + left = s₁.msize ∧ (n = s₁.msize ∨ n = 0x10000) := by
    split at hleft <;> omega
  obtain ⟨hn0, hn1, hn2, hn3⟩ := hcopy
  obtain ⟨s₂, hput, hw⟩ := putCopy_spec (s := { s₁ with msize := n }) (by simp only; omega)
  have hlen := length_copyBytesOf s₁.moff n
  have hpos₂ := hw.outpos
  have hcells := hw.cells_eq
  obtain ⟨hsize₂, hdata₂, -, hcount₂, hmoff₂, hmsize₂⟩ := hw.frame
  simp only at hpos₂ hcells hsize₂ hdata₂ hcount₂ hmoff₂ hmsize₂
  have hfront := hback.matched.front (show n ≤ s₁.msize by omega)
  have hcoded' : ∀ i ∈ instrs₁ ++ [.copy s₁.moff n], i.Coded src := by
    intro i hi
    obtain hi | hi := List.mem_append.mp hi
    · exact hcoded i hi
    · obtain rfl := List.mem_singleton.mp hi
      exact ⟨hn0, hn1, hlt, hfront.src_le⟩
  have hplay' : playAll src (instrs₁ ++ [.copy s₁.moff n]) ++ [] = trg.take (s₁.data + n) := by
    rw [playAll_append, hplay, List.take_add]
    simp [Instr.play, hfront.same]
  have hbytes' : cells s₂.outpos s₂.out =
      deltaBytes src trg (instrs₁ ++ [.copy s₁.moff n]) ++ [] := by
    rw [List.append_nil, deltaBytes_append, ← hbytes]
    exact hcells
  have hwin : window trg (s₁.data + n - RABIN_WINDOW) = some _ :=
    window_eq (by omega)
  have hnext : ∃ m, (if 0xffffffff < s₁.moff + n
        then ({ s₂ with data := s₁.data + n, moff := s₁.moff + n, msize := 0 } : DeltaState)
        else { s₂ with data := s₁.data + n, moff := s₁.moff + n, msize := left }) =
          { s₂ with data := s₁.data + n, moff := s₁.moff + n, msize := m } ∧
        (0 < m → Matched src trg (s₁.data + n) (s₁.moff + n) m) ∧ m ≤ left := by
    by_cases hfar : 0xffffffff < s₁.moff + n
    · exact ⟨0, if_pos hfar, by simp, Nat.zero_le _⟩
    · refine ⟨left, if_neg hfar, fun _ => ?_, le_rfl⟩
      have := hback.matched.rest (show n ≤ s₁.msize by omega) (by omega)
      rwa [show s₁.msize - n = left by omega] at this
  obtain ⟨m, hnext, hmatched, hle⟩ := hnext
  unfold DeltaState.copyMatch
  rw [hrun]
  simp only [Option.bind_eq_bind, Option.bind_some, hleft, hn, hput, hdata₂, hmoff₂, hmsize₂,
    hnext]
  have hheld : ∀ val, Written src trg { s₂ with
      data := s₁.data + n, moff := s₁.moff + n, msize := m, val := val }
      (instrs₁ ++ [.copy s₁.moff n]) [] := fun val =>
    ⟨hcoded', hcount₂.trans hback.count, by simp, hfront.trg_le, hplay', [],
      .inl ⟨rfl, rfl⟩, hbytes'⟩
  have hdata' : s.data < s₁.data + n := by omega
  by_cases hshort : m < 4096
  · rw [if_pos hshort, if_pos (by omega), hwin, Option.bind_some]
    exact ⟨_, _, rfl, hheld _, hdata', hmatched, by simp only; omega, fun _ => hwin,
      hsize₂.trans hsize, by simp only; omega⟩
  · rw [if_neg hshort]
    exact ⟨_, _, rfl, hheld s₂.val, hdata', hmatched, by simp only; omega,
      fun h => absurd h hshort, hsize₂.trans hsize, by simp only; omega⟩

end Matches

/-! ## The search -/

section Search

variable {src trg : List UInt8} {s : DeltaState} {data : Nat}

theorem equalBytes_spec {n ref : Nat} (hr : ref + n ≤ src.length) (hd : data + n ≤ trg.length) :
    ∃ k ≤ n, equalBytes src trg n ref data = some k ∧
      (src.drop ref).take k = (trg.drop data).take k := by
  induction n generalizing ref data with
  | zero => exact ⟨0, le_rfl, rfl, by simp⟩
  | succ n ih =>
    have ha : src[ref]? = some src[ref] := List.getElem?_eq_getElem (by omega)
    have hb : trg[data]? = some trg[data] := List.getElem?_eq_getElem (by omega)
    simp only [equalBytes, ha, hb, Option.bind_eq_bind, Option.bind_some]
    by_cases heq : trg[data] = src[ref]
    · obtain ⟨k, hk, hrun, hsame⟩ := ih
        (show ref + 1 + n ≤ src.length by omega) (show data + 1 + n ≤ trg.length by omega)
      rw [if_pos heq, hrun]
      refine ⟨k + 1, by omega, rfl, ?_⟩
      rw [List.drop_eq_getElem_cons (by omega : ref < src.length),
        List.drop_eq_getElem_cons (by omega : data < trg.length), List.take_succ_cons,
        List.take_succ_cons, hsame, heq]
    · exact ⟨0, by omega, by rw [if_neg heq], by simp⟩

/-- What can be looked for in an index: every bucket is there, and its entries point into the
source. -/
structure DeltaIndex.Fits (index : DeltaIndex) (src : List UInt8) : Prop where
  srcBuf : index.srcBuf = src
  bucket : ∀ val, ∃ bucket, index.hash[(val &&& index.hashMask).toNat]? = some bucket ∧
    ∀ e ∈ bucket, e.ptr < src.length ∧ e.ptr < 2 ^ 32

/-- The search keeps a match, or finds another one. -/
theorem bestMatch_spec (val : BitVec 32) {entries : List IndexEntry} {msize moff : Nat}
    (hentries : ∀ e ∈ entries, e.ptr < src.length ∧ e.ptr < 2 ^ 32) (hdata : data ≤ trg.length)
    (hmatch : 0 < msize → Matched src trg data moff msize) (hsmall : msize < 2 ^ 32) :
    ∃ msize' moff', bestMatch src trg data val entries msize moff = some (msize', moff') ∧
      (0 < msize' → Matched src trg data moff' msize') ∧ msize' < 2 ^ 32 := by
  induction entries generalizing msize moff with
  | nil => exact ⟨msize, moff, rfl, hmatch, hsmall⟩
  | cons e entries ih =>
    obtain ⟨hptr, hlt⟩ := hentries e (List.mem_cons_self ..)
    have hrest : ∀ e ∈ entries, e.ptr < src.length ∧ e.ptr < 2 ^ 32 :=
      fun e he => hentries e (List.mem_cons_of_mem _ he)
    simp only [bestMatch]
    by_cases hval : e.val ≠ val
    · rw [if_pos hval]
      exact ih hrest hmatch hsmall
    rw [if_neg hval]
    generalize hn : (if trg.length - data < (src.length - e.ptr) % 2 ^ 32 then trg.length - data
      else (src.length - e.ptr) % 2 ^ 32) = n
    have hbound : n < 2 ^ 32 ∧ e.ptr + n ≤ src.length ∧ data + n ≤ trg.length := by
      have := Nat.mod_le (src.length - e.ptr) (2 ^ 32)
      split at hn <;> omega
    obtain ⟨hn₁, hn₂, hn₃⟩ := hbound
    by_cases hle : n ≤ msize
    · exact ⟨msize, moff, by rw [if_pos hle], hmatch, hsmall⟩
    obtain ⟨k, hk, hrun, hsame⟩ := equalBytes_spec hn₂ hn₃
    have hfound : 0 < k → Matched src trg data e.ptr k :=
      fun _ => ⟨hlt, by omega, by omega, hsame⟩
    simp only [if_neg hle, hrun, Option.bind_eq_bind, Option.bind_some]
    by_cases hbetter : msize < k
    · rw [if_pos hbetter]
      by_cases hgood : 4096 ≤ k
      · exact ⟨k, e.ptr, by rw [if_pos hgood], hfound, by omega⟩
      · rw [if_neg hgood]
        exact ih hrest hfound (by omega)
    · rw [if_neg hbetter]
      exact ih hrest hmatch hsmall

/-- The fingerprint is moved on to the window that ends with the byte at `data`. -/
theorem slide_window {val : BitVec 32} (hge : RABIN_WINDOW ≤ data) (hlt : data < trg.length)
    (hval : window trg (data - RABIN_WINDOW) = some val) :
    ∃ first next val', trg[data - RABIN_WINDOW]? = some first ∧ trg[data]? = some next ∧
      slide val first next = some val' ∧ window trg (data + 1 - RABIN_WINDOW) = some val' := by
  unfold RABIN_WINDOW at hge
  refine ⟨trg[data - 16], trg[data], ?_⟩
  generalize hmid : (trg.drop (data - 15)).take 15 = mid
  have hlen : mid.length + 1 = RABIN_WINDOW := by
    rw [← hmid, List.length_take, List.length_drop, RABIN_WINDOW]
    omega
  have hold : (trg.drop (data - RABIN_WINDOW)).take RABIN_WINDOW = trg[data - 16] :: mid := by
    rw [← hmid, RABIN_WINDOW, List.drop_eq_getElem_cons (by omega : data - 16 < trg.length),
      List.take_succ_cons, show data - 16 + 1 = data - 15 by omega]
  have hnew : (trg.drop (data + 1 - RABIN_WINDOW)).take RABIN_WINDOW = mid ++ [trg[data]] := by
    rw [← hmid, RABIN_WINDOW, show data + 1 - 16 = data - 15 by omega,
      List.take_succ_eq_append_getElem (by rw [List.length_drop]; omega), List.getElem_drop]
    simp only [show data - 15 + 15 = data by omega]
  obtain ⟨val₁, val', h₁, hslide, h₂⟩ := rolling_exact trg[data - 16] mid trg[data] hlen
  have hval₁ : val = val₁ := by
    rw [window, if_pos (by unfold RABIN_WINDOW; omega), hold, h₁] at hval
    exact (Option.some.inj hval).symm
  subst hval₁
  refine ⟨val', List.getElem?_eq_getElem _, List.getElem?_eq_getElem _, hslide, ?_⟩
  rw [window, if_pos (by unfold RABIN_WINDOW; omega), hnew, h₂]

/-- What the search leaves behind. -/
theorem findMatch_spec {index : DeltaIndex} (hindex : index.Fits src) (hlt : s.data < trg.length)
    (hge : RABIN_WINDOW ≤ s.data)
    (hval : s.msize < 4096 → window trg (s.data - RABIN_WINDOW) = some s.val)
    (hmatch : 0 < s.msize → Matched src trg s.data s.moff s.msize) (hsmall : s.msize < 2 ^ 32) :
    ∃ val msize moff, findMatch index trg s =
        some { s with val := val, msize := msize, moff := moff } ∧
      (0 < msize → Matched src trg s.data moff msize) ∧ msize < 2 ^ 32 ∧
      (msize < 4 → window trg (s.data + 1 - RABIN_WINDOW) = some val) := by
  unfold findMatch
  by_cases hlong : s.msize < 4096
  · obtain ⟨first, next, val, hfirst, hnext, hslide, hwin⟩ := slide_window hge hlt (hval hlong)
    obtain ⟨bucket, hbucket, hentries⟩ := hindex.bucket val
    obtain ⟨msize, moff, hbest, hmatch', hsmall'⟩ :=
      bestMatch_spec val hentries hlt.le hmatch hsmall
    refine ⟨val, msize, moff, ?_, hmatch', hsmall', fun _ => hwin⟩
    simp only [if_pos hlong, if_pos hge, hfirst, hnext, hslide, hbucket, hindex.srcBuf, hbest,
      Option.bind_eq_bind, Option.bind_some]
  · exact ⟨s.val, s.msize, s.moff, if_neg hlong, hmatch, hsmall, fun h => by omega⟩

end Search

/-! ## The loop -/

section Loop

variable {src trg lits : List UInt8} {s : DeltaState} {instrs : List Instr} {max_size : Nat}

/-- What holds at the head of the loop, except that there may be no room yet. -/
structure Ready (src trg : List UInt8) (s : DeltaState) (instrs : List Instr) (lits : List UInt8) :
    Prop where
  held : Written src trg s instrs lits
  matched : 0 < s.msize → Matched src trg s.data s.moff s.msize
  small : s.msize < 2 ^ 32
  window : s.data < trg.length → RABIN_WINDOW ≤ s.data ∧
    (s.msize < 4096 → window trg (s.data - RABIN_WINDOW) = some s.val)

theorem pass_spec {index : DeltaIndex} (hindex : index.Fits src) (h : Ready src trg s instrs lits)
    (hlt : s.data < trg.length) (hroom : s.outpos + 7 ≤ s.outsize) :
    ∃ s' instrs' lits', deltaPass index trg s = some s' ∧
      Ready src trg s' instrs' lits' ∧ s.data < s'.data ∧ s'.outsize = s.outsize ∧
      s'.outpos ≤ s'.outsize := by
  obtain ⟨hge, hval⟩ := h.window hlt
  obtain ⟨val, msize, moff, hfind, hmatch, hsmall, hwin⟩ :=
    findMatch_spec hindex hlt hge hval h.matched h.small
  have hheld : Written src trg { s with val := val, msize := msize, moff := moff } instrs lits :=
    ⟨h.held.coded, h.held.count, h.held.few, h.held.data_le, h.held.play, h.held.bytes⟩
  simp only [deltaPass, hfind, Option.bind_eq_bind, Option.bind_some]
  by_cases hshort : msize < 4
  · obtain ⟨s', instrs', lits', hrun, hheld', hdata, hmsize, hval', hsize, hpos⟩ :=
      insertByte_spec hheld hlt (by simp only; omega)
    simp only at hdata hval' hsize hpos
    refine ⟨s', instrs', lits', by rw [if_pos hshort, hrun], ?_, by omega, hsize, by omega⟩
    refine ⟨hheld', by simp [hmsize], by simp [hmsize], fun _ => ⟨by omega, fun _ => ?_⟩⟩
    rw [hdata, hval']
    exact hwin hshort
  · obtain ⟨s', instrs', hrun, hheld', hdata, hmatch', hsmall', hwin', hsize, hpos⟩ :=
      copyMatch_spec hheld (hmatch (by omega)) (by simp only; omega) hsmall hge
        (by simp only; omega)
    simp only at hdata hsize hpos
    refine ⟨s', instrs', [], ?_, ⟨hheld', hmatch', hsmall', fun _ => ⟨by omega, hwin'⟩⟩, hdata,
      hsize, by omega⟩
    rw [if_neg hshort, hindex.srcBuf, hrun]

/-- After growing there is room for one pass, or the delta is too large. -/
theorem grow_spec (max_size : Nat) (hpos : s.outpos ≤ s.outsize) (hsize : 36 ≤ s.outsize) :
    match s.grow max_size with
    | none => max_size ≠ 0 ∧ max_size < s.outpos
    | some s' => ∃ outsize, s' = { s with outsize := outsize } ∧ s.outpos + 7 ≤ outsize ∧
        36 ≤ outsize := by
  have hmax : MAX_OP_SIZE = 34 := rfl
  unfold DeltaState.grow
  by_cases hfull : s.outsize - MAX_OP_SIZE ≤ s.outpos
  · simp only [if_pos hfull]
    by_cases hlarge : max_size ≠ 0 ∧ max_size < s.outpos
    · rw [if_pos hlarge]
      exact hlarge
    · rw [if_neg hlarge]
      refine ⟨_, rfl, ?_⟩
      split <;> omega
  · rw [if_neg hfull]
    exact ⟨s.outsize, rfl, by omega, hsize⟩

/-- The loop ends at the end of the target, or when the delta is too large. -/
theorem deltaLoop_spec (max_size : Nat) {index : DeltaIndex} (hindex : index.Fits src)
    {fuel : Nat} (h : Ready src trg s instrs lits) (hfuel : trg.length < s.data + fuel)
    (hroom : s.outpos + 7 ≤ s.outsize) (hsize : 36 ≤ s.outsize) :
    ∃ s' instrs' lits', deltaLoop index trg max_size fuel s = some s' ∧
      Written src trg s' instrs' lits' ∧ s'.outpos ≤ s'.outsize ∧
      (s'.data = trg.length ∨ max_size ≠ 0 ∧ max_size < s'.outpos) := by
  induction fuel generalizing s instrs lits with
  | zero =>
    have := h.held.data_le
    omega
  | succ fuel ih =>
    rw [deltaLoop]
    by_cases hlt : s.data < trg.length
    · obtain ⟨s₁, instrs₁, lits₁, hpass, h₁, hdata, hsize₁, hpos₁⟩ := pass_spec hindex h hlt hroom
      have hgrow := grow_spec max_size hpos₁ (hsize₁ ▸ hsize)
      simp only [if_pos hlt, hpass, Option.bind_eq_bind, Option.bind_some]
      cases hg : s₁.grow max_size with
      | none =>
        rw [hg] at hgrow
        exact ⟨s₁, instrs₁, lits₁, rfl, h₁.held, hpos₁, .inr hgrow⟩
      | some s₂ =>
        rw [hg] at hgrow
        obtain ⟨outsize, rfl, hroom₂, hsize₂⟩ := hgrow
        have hheld : Written src trg { s₁ with outsize := outsize } instrs₁ lits₁ :=
          ⟨h₁.held.coded, h₁.held.count, h₁.held.few, h₁.held.data_le, h₁.held.play, h₁.held.bytes⟩
        exact ih ⟨hheld, h₁.matched, h₁.small, h₁.window⟩ (by simp only; omega) hroom₂ hsize₂
    · have := h.held.data_le
      exact ⟨s, instrs, lits, if_neg hlt, h.held, by omega, .inl (by omega)⟩

/-- The bytes of the first window. -/
theorem firstWindow_spec {base : List UInt8} {slot : UInt8} (n : Nat) (hval : Low s.val)
    (hbytes : cells s.outpos s.out = base ++ slot :: lits) (hlits : lits = trg.take s.data)
    (hcount : s.inscnt = s.data) (hdata : s.data ≤ trg.length)
    (hroom : s.outpos + n ≤ s.outsize) :
    ∃ s', s.firstWindow trg n = some s' ∧ s'.inscnt = s'.data ∧
      s'.data = min (s.data + n) trg.length ∧
      cells s'.outpos s'.out = base ++ slot :: trg.take s'.data ∧
      s'.val = finger s.val ((trg.take s'.data).drop s.data) ∧ s'.outsize = s.outsize ∧
      s'.outpos ≤ s.outpos + n ∧ s'.moff = s.moff ∧ s'.msize = s.msize := by
  induction n generalizing s lits with
  | zero =>
    refine ⟨s, rfl, hcount, by omega, hlits ▸ hbytes, ?_, rfl, le_rfl, rfl, rfl⟩
    rw [List.drop_eq_nil_of_le (by simp)]
    rfl
  | succ n ih =>
    rw [DeltaState.firstWindow]
    by_cases hend : s.data = trg.length
    · rw [List.getElem?_eq_none (by omega)]
      refine ⟨s, rfl, hcount, by omega, hlits ▸ hbytes, ?_, rfl, by omega, rfl, rfl⟩
      rw [List.drop_eq_nil_of_le (by simp)]
      rfl
    · have hlt : s.data < trg.length := by omega
      rw [List.getElem?_eq_getElem hlt]
      obtain ⟨s₁, hput, hw⟩ := put_spec (s := s) trg[s.data].toNat (by omega)
      have hpos := hw.outpos
      have hcells := hw.cells_eq
      obtain ⟨hsize, hdata₁, hval₁, hcount₁, hmoff, hmsize⟩ := hw.frame
      rw [UInt8.ofNat_toNat] at hcells hpos
      rw [List.length_singleton] at hpos
      rw [hbytes, List.append_assoc, List.cons_append] at hcells
      have hlits' : lits ++ [trg[s.data]] = trg.take (s.data + 1) := by
        rw [hlits, List.take_succ_eq_append_getElem hlt]
      obtain ⟨s', hrun, hcount', hdata', hbytes', hval', hsize', hpos', hmoff', hmsize'⟩ :=
        ih (s := { s₁ with
          data := s.data + 1, val := rabinStep s.val trg[s.data], inscnt := s.data + 1 })
          (rabinStep_low hval _) hcells hlits' rfl hlt (by simp only; omega)
      simp only [hput, hval₁, rabin_eq hval, Option.bind_eq_bind, Option.bind_some, hdata₁,
        hcount₁, hcount]
      refine ⟨s', hrun, hcount', ?_, hbytes', ?_, hsize'.trans hsize, ?_, hmoff'.trans hmoff,
        hmsize'.trans hmsize⟩
      · simp only at hdata'
        omega
      · simp only at hval' hdata'
        have hge : s.data < (trg.take s'.data).length := by
          rw [List.length_take]
          omega
        rw [hval', List.drop_eq_getElem_cons hge, List.getElem_take]
        rfl
      · simp only at hpos'
        omega

end Loop

/-! ## The result -/

theorem length_sizeBytes (more : Nat) {l k : Nat} (h : l < 2 ^ (7 * k + 7)) :
    (sizeBytes more l).length ≤ k + 1 := by
  induction more generalizing l k with
  | zero => simp [sizeBytes]
  | succ more ih =>
    rw [sizeBytes]
    by_cases hge : 0x80 ≤ l
    · cases k with
      | zero => omega
      | succ k =>
        have hdiv : l >>> 7 < 2 ^ (7 * k + 7) := by
          rw [Nat.shiftRight_eq_div_pow]
          refine Nat.div_lt_of_lt_mul ?_
          rw [← Nat.pow_add]
          exact h.trans_eq (by congr 1; omega)
        rw [if_pos hge, List.length_cons]
        exact Nat.succ_le_succ (ih hdiv)
    · simp [if_neg hge]

theorem sizeBytes_pos (more l : Nat) : 1 ≤ (sizeBytes more l).length :=
  List.length_pos_iff.mpr (sizeBytes_ne_nil more l)

theorem sizeBytes_large {l : Nat} (h : 0x4000 ≤ l) : 3 ≤ (sizeBytes 9 l).length := by
  have hdiv : l >>> 7 = l / 128 := Nat.shiftRight_eq_div_pow l 7
  have := sizeBytes_pos 7 (l >>> 7 >>> 7)
  rw [sizeBytes, if_pos (by omega), sizeBytes, if_pos (by omega)]
  simp only [List.length_cons]
  omega

/-- A size that is not `0x10000` is written. -/
theorem length_copyFields (off : Nat) {n : Nat} (hpos : 0 < n) (hlt : n < 0x10000) :
    1 ≤ (copyFields off n).length := by
  have hmask := masks_size n
  rw [Nat.mod_eq_of_lt hlt, Nat.zero_or] at hmask
  have hfield : 1 ≤ (fieldBytes n 0xff 0).length + (fieldBytes n 0xff00 8).length := by
    by_cases hlow : n &&& 0xff = 0
    · by_cases hhigh : n &&& 0xff00 = 0
      · rw [hlow, hhigh] at hmask
        exact absurd hmask (by simp; omega)
      · simp [fieldBytes, hhigh]
    · simp [fieldBytes, hlow]
  simp only [copyFields, List.length_append]
  omega

theorem index_fits (src : List UInt8) (hne : src ≠ []) :
    ∃ index, createDeltaIndex src = some (some index) ∧ index.Fits src := by
  obtain ⟨index, bits, s, hindex, hsrc, hlen, hmask, -, hs, hbuckets⟩ :=
    createDeltaIndex_spec src hne
  refine ⟨index, hindex, hsrc, ?_⟩
  intro val
  have hlt := hmask val
  rw [← hlen] at hlt
  have hget := List.getElem?_eq_getElem hlt
  refine ⟨_, hget, ?_⟩
  intro e he
  obtain ⟨-, j, -, hj, hptr, -⟩ := hs.entry _ e ((hbuckets _ _ hget).1.subset he)
  have hroom := (blockCount_room (List.length_pos_iff.mpr hne)).1
  have hle : (j + 1) * RABIN_WINDOW ≤ blockCount src.length * RABIN_WINDOW :=
    Nat.mul_le_mul_right _ hj
  have hword : blockCount src.length * RABIN_WINDOW < 2 ^ 32 := by
    unfold blockCount RABIN_WINDOW
    split <;> omega
  omega

/-- A delta that was made has at least 4 bytes. -/
theorem delta_min {src trg : List UInt8} {instrs : List Instr} (hcoded : ∀ i ∈ instrs, i.Coded src)
    (hplay : playAll src instrs = trg) (htrg : trg ≠ []) :
    DELTA_SIZE_MIN ≤ (deltaBytes src trg instrs).length := by
  have h₁ := sizeBytes_pos 9 src.length
  have h₂ := sizeBytes_pos 9 trg.length
  unfold DELTA_SIZE_MIN
  cases instrs with
  | nil => exact absurd hplay.symm htrg
  | cons i instrs =>
    simp only [deltaBytes, List.map_cons, List.flatten_cons, List.length_append]
    have hi := hcoded i (List.mem_cons_self ..)
    cases i with
    | insert bytes =>
      have := List.length_pos_iff.mpr hi.1
      simp only [Instr.bytes, List.length_cons]
      omega
    | copy off n =>
      obtain ⟨hpos, hmax, -, hfit⟩ := hi
      by_cases hlarge : n = 0x10000
      · have hlen : n ≤ trg.length := by
          rw [← hplay, playAll_cons, List.length_append, Instr.play, List.length_take,
            List.length_drop]
          omega
        have hs := sizeBytes_large (l := src.length) (by omega)
        have ht := sizeBytes_large (l := trg.length) (by omega)
        omega
      · have hfield := length_copyFields off hpos (by omega)
        simp only [Instr.bytes, copyBytesOf, List.length_cons]
        omega

/-- The sizes and the first window are stored, and the loop can begin. -/
theorem start_spec {src trg : List UInt8} {outsize : Nat} (out : Nat → UInt8) (ht : trg ≠ [])
    (hsrc : src.length < 2 ^ 42) (htrg : trg.length < 2 ^ 42) (hsize : 36 ≤ outsize) :
    ∃ s₁ s₂ s₃ lits,
      (⟨out, 0, outsize, 0, 0, 0, 0, 0⟩ : DeltaState).putSize 10 src.length = some s₁ ∧
      s₁.putSize 10 trg.length = some s₂ ∧
      DeltaState.firstWindow trg RABIN_WINDOW { s₂ with outpos := s₂.outpos + 1 } = some s₃ ∧
      Ready src trg s₃ [] lits ∧ s₃.outpos + 7 ≤ s₃.outsize ∧ s₃.outsize = outsize := by
  have htpos := List.length_pos_iff.mpr ht
  have hl₁ := length_sizeBytes 9 (k := 5) hsrc
  have hl₂ := length_sizeBytes 9 (k := 5) htrg
  obtain ⟨s₁, hput₁, hw₁⟩ := putSize_spec 9 (l := src.length)
    (s := ⟨out, 0, outsize, 0, 0, 0, 0, 0⟩) (by omega) (by simp only; omega)
  have hpos₁ := hw₁.outpos
  have hframe₁ := hw₁.frame
  simp only at hpos₁ hframe₁
  obtain ⟨s₂, hput₂, hw₂⟩ := putSize_spec 9 (l := trg.length) (s := s₁) (by omega) (by omega)
  have hpos₂ := hw₂.outpos
  obtain ⟨hz₂, hd₂, hv₂, hi₂, ho₂, hm₂⟩ := hw₂.frame
  have hcells : cells s₂.outpos s₂.out = deltaBytes src trg [] := by
    rw [(hw₁.trans hw₂).cells_eq]
    simp [cells, deltaBytes]
  have hlow : Low s₂.val := by
    rw [hv₂, hframe₁.2.2.1]
    exact low_zero
  have hslot : cells (s₂.outpos + 1) s₂.out = deltaBytes src trg [] ++ s₂.out s₂.outpos :: [] := by
    rw [cells_succ, hcells]
  have hnone : [] = trg.take s₂.data := by
    rw [hd₂, hframe₁.2.1, List.take_zero]
  obtain ⟨s₃, hrun, hcount, hdata, hbytes, hval, hsize₃, hpos₃, hmoff, hmsize⟩ :=
    firstWindow_spec (s := { s₂ with outpos := s₂.outpos + 1 }) RABIN_WINDOW hlow hslot hnone
      (by simp only; omega) (by simp only; omega) (by simp only [RABIN_WINDOW]; omega)
  simp only [RABIN_WINDOW] at hdata hval hsize₃ hpos₃ hmsize
  have hzero : s₃.msize = 0 := by omega
  refine ⟨s₁, s₂, s₃, trg.take s₃.data, hput₁, hput₂, hrun, ?_, by omega, by omega⟩
  have hlen : (trg.take s₃.data).length = s₃.data := by
    rw [List.length_take]
    omega
  refine ⟨⟨by simp, by omega, by omega, by omega, by simp, _, .inr ⟨?_, _, rfl⟩, hbytes⟩, by omega,
    by omega, ?_⟩
  · rw [← List.length_pos_iff]
    omega
  · intro hlt
    have h16 : s₃.data = 16 := by omega
    refine ⟨by rw [h16, RABIN_WINDOW], fun _ => ?_⟩
    rw [h16, RABIN_WINDOW, window_eq (by rw [RABIN_WINDOW]; omega), hval, hd₂, hframe₁.2.1, hv₂,
      hframe₁.2.2.1, h16]
    rfl

/-- What is still to be inserted is an instruction at the end. -/
theorem finish_spec {src trg lits : List UInt8} {s : DeltaState} {instrs : List Instr}
    (h : Written src trg s instrs lits) (hfits : s.outpos ≤ s.outsize) :
    ∃ s' instrs', (if s.inscnt = 0 then some s else s.closeInsert) = some s' ∧
      Written src trg s' instrs' [] ∧ s'.outpos = s.outpos ∧ s'.data = s.data := by
  obtain ⟨pending, hpending, hbytes⟩ := h.bytes
  have hcount := h.count
  obtain ⟨rfl, rfl⟩ | ⟨hlits, slot, rfl⟩ := hpending
  · exact ⟨s, instrs, if_pos hcount, h, rfl, rfl⟩
  · have hpos := List.length_pos_iff.mpr hlits
    obtain ⟨out, hclose, hout⟩ := closeInsert_spec hcount hbytes hfits
    rw [if_neg (by omega), hclose]
    refine ⟨_, instrs ++ [.insert lits], rfl,
      ⟨?_, rfl, by simp, h.data_le, ?_, [], .inl ⟨rfl, rfl⟩, ?_⟩, rfl, rfl⟩
    · intro i hi
      obtain hi | hi := List.mem_append.mp hi
      · exact h.coded i hi
      · obtain rfl := List.mem_singleton.mp hi
        exact ⟨hlits, by have := h.few; omega⟩
    · simpa [Instr.play] using h.play
    · rw [deltaBytes_append, List.append_nil]
      exact hout

/-- **Deltas round trip.**  For all buffers below 4 TiB, whatever is in the memory that is
allocated: `diff_delta` stays within its buffers and tables and ends; a delta that it returns is no
larger than was asked for, and `patch_delta` makes the target of it again, if it gets the memory for
it.  Without a limit there is a delta of all buffers that are not empty. -/
theorem delta_round_trip (src trg : List UInt8) (max_size : Nat) (out : Nat → UInt8)
    (alloc : Nat → Bool) (hsrc : src.length < 2 ^ 42) (htrg : trg.length < 2 ^ 42) :
    ∃ r, diffDelta src trg max_size out = some r ∧
      (∀ delta, r = some delta →
        (patchDelta alloc src delta =
          if alloc (trg.length + 1) then .ok (some trg) else .error .die) ∧
        (max_size ≠ 0 → delta.length ≤ max_size)) ∧
      (r = none → src = [] ∨ trg = [] ∨ max_size ≠ 0) := by
  unfold diffDelta
  by_cases hs : src = []
  · subst hs
    exact ⟨none, rfl, by simp, by simp⟩
  obtain ⟨index, hindex, hfits⟩ := index_fits src hs
  simp only [hindex, Option.bind_eq_bind, Option.bind_some]
  by_cases ht : trg = []
  · subst ht
    exact ⟨none, rfl, by simp, by simp⟩
  have htpos := List.length_pos_iff.mpr ht
  unfold createDelta
  rw [if_neg (by omega)]
  generalize hz : (if max_size ≠ 0 ∧ max_size ≤ 8192 then max_size + MAX_OP_SIZE + 1 else 8192) =
    outsize
  have hsize : 36 ≤ outsize := by
    have hmax : MAX_OP_SIZE = 34 := rfl
    split at hz <;> omega
  obtain ⟨s₁, s₂, s₃, lits, hput₁, hput₂, hfirst, hready, hroom, rfl⟩ :=
    start_spec out ht hsrc htrg hsize
  obtain ⟨s₄, instrs₄, lits₄, hloop, hheld₄, hfits₄, hend⟩ :=
    deltaLoop_spec max_size hfits hready (show trg.length < s₃.data + (trg.length + 1) by omega)
      hroom hsize
  obtain ⟨s₅, instrs₅, hfinish, hheld₅, hpos₅, hdata₅⟩ := finish_spec hheld₄ hfits₄
  simp only [hfits.srcBuf, hput₁, hput₂, hfirst, hloop, hfinish, Option.bind_eq_bind,
    Option.bind_some]
  by_cases hlarge : max_size ≠ 0 ∧ max_size < s₅.outpos
  · exact ⟨none, by rw [if_pos hlarge], by simp, fun _ => .inr (.inr hlarge.1)⟩
  rw [if_neg hlarge]
  refine ⟨_, rfl, ?_, by simp⟩
  rintro delta hdelta
  obtain rfl := Option.some.inj hdelta
  obtain ⟨pending, hpending, hbytes⟩ := hheld₅.bytes
  have hnil : pending = [] := by
    obtain ⟨hnil, -⟩ | ⟨hne, -⟩ := hpending
    · exact hnil
    · exact absurd rfl hne
  have hplay : playAll src instrs₅ = trg := by
    have := hheld₅.play
    have hdata : s₅.data = trg.length := by
      rw [hdata₅]
      refine hend.resolve_right ?_
      rwa [← hpos₅]
    rwa [hdata, List.take_length, List.append_nil] at this
  rw [hnil, List.append_nil] at hbytes
  constructor
  · rw [hbytes]
    exact patchDelta_coded alloc hheld₅.coded (by omega) (by omega) hplay
      (delta_min hheld₅.coded hplay ht)
  · intro hmax
    rw [length_cells]
    omega

/-- A target that has most of the source in it, moved. -/
theorem delta_round_trip_moved : ∃ delta,
    diffDelta ((List.range 40).map UInt8.ofNat) ([7, 7] ++ (List.range 40).map UInt8.ofNat) 0
        (fun _ => 0) = some (some delta) ∧
      patchDelta (· ≤ 64) ((List.range 40).map UInt8.ofNat) delta =
        .ok (some ([7, 7] ++ (List.range 40).map UInt8.ofNat)) := by
  obtain ⟨r, hrun, hsome, hnone⟩ := delta_round_trip ((List.range 40).map UInt8.ofNat)
    ([7, 7] ++ (List.range 40).map UInt8.ofNat) 0 (fun _ => 0) (· ≤ 64) (by simp) (by simp)
  cases r with
  | none => simp at hnone
  | some delta => exact ⟨delta, hrun, (hsome delta rfl).1⟩

end Git
