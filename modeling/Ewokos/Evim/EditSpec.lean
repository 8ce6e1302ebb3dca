import Ewokos.Evim.Undo

/-!
# evim: what the edit primitives do to the bytes

One specification for each primitive of `Evim.Undo`, over the list of bytes of the buffer:

* `textHoleMake_bytes`, `textHoleDelete_bytes`, `stringInsert_bytes` — the new bytes as `take`
  and `drop` of the old ones;
* `undoPush_eq`, `undoQueueCommit_eq` — recording touches the undo state only;
* `Buf.Fits` — the allocation is larger than the text, kept by every primitive.
-/

set_option autoImplicit false

namespace Evim

open Cells

/-- The text lies inside the allocated block, with room for one more byte. -/
structure Buf.Fits (b : Buf) : Prop where
  text_le_end : b.text ≤ b.end_
  lt_size : b.end_ - b.text < b.textSize

namespace Ed

variable (s : Ed)

/-! ## Recording touches the undo state only -/

theorem undoQueueCommit_eq : s.undoQueueCommit = { s with toUndos := s.undoQueueCommit.toUndos } := by
  unfold undoQueueCommit
  split <;> rfl

variable {s} in
theorem undoQueueCommit_of_empty (h : s.undoQ = 0) : s.undoQueueCommit = s := by
  unfold undoQueueCommit
  rw [if_neg (by omega)]

theorem queueDeleted_eq (src : Int) :
    s.queueDeleted src = { s with toUndos := (s.queueDeleted src).toUndos } := by
  unfold queueDeleted
  dsimp only
  split
  · rw [undoQueueCommit_eq]
  · rfl

theorem queueCount_eq (n : Nat) : queueCount n s = { s with toUndos := (queueCount n s).toUndos } := by
  induction n generalizing s with
  | zero => rfl
  | succ n ih =>
    unfold queueCount
    dsimp only
    split
    · rw [ih, undoQueueCommit_eq]
    · rw [ih]

theorem queueInserted_eq (src : Int) (length : Nat) :
    s.queueInserted src length = { s with toUndos := (s.queueInserted src length).toUndos } := by
  unfold queueInserted
  dsimp only
  split <;> rw [queueCount_eq]

theorem undoPush_eq (src : Int) (length : Nat) (t : UndoType) :
    s.undoPush src length t = { s with toUndos := (s.undoPush src length t).toUndos } := by
  unfold undoPush
  split
  · rfl
  · split
    · rfl
    · split
      · exact s.queueDeleted_eq src
      · exact s.queueDeleted_eq src
      · rw [queueDeleted_eq, undoQueueCommit_eq]
  · split
    · rfl
    · split
      · exact s.queueInserted_eq src length
      · exact s.queueInserted_eq src length
      · rw [queueInserted_eq, undoQueueCommit_eq]
  · rfl

theorem undoPushInsert_eq (p : Int) (len : Nat) (undo : Undo) :
    s.undoPushInsert p len undo = { s with toUndos := (s.undoPushInsert p len undo).toUndos } := by
  cases undo with
  | no => rfl
  | allow => exact s.undoPush_eq p len .ins
  | chain => exact s.undoPush_eq p len .insChain
  | queued => exact s.undoPush_eq p len .insQueued

theorem undoPushDelete_eq (p : Int) (len : Nat) (undo : Undo) :
    s.undoPushDelete p len undo = { s with toUndos := (s.undoPushDelete p len undo).toUndos } := by
  cases undo with
  | no => rfl
  | allow => exact s.undoPush_eq p len .del
  | chain => exact s.undoPush_eq p len .delChain
  | queued => exact s.undoPush_eq p len .delQueued

/-! ## Opening a hole -/

/-- The moved block holds the old text. -/
theorem growText_mem {i : Int} (h₀ : 0 ≤ i) (h₁ : i < s.textSize) :
    s.growText.2.mem (s.growText.2.text + i) = s.mem (s.text + i) := by
  simp only [growText]
  rw [if_pos (by omega)]
  congr 1
  omega

theorem textHoleMake_toUndos (p size : Int) : (s.textHoleMake p size).2.toUndos = s.toUndos := by
  unfold textHoleMake
  split
  · rfl
  · dsimp only
    split <;> rfl

theorem textHoleMake_text (p size : Int) :
    (s.textHoleMake p size).2.text = s.text + (s.textHoleMake p size).1 := by
  unfold textHoleMake
  split
  · simp
  · dsimp only
    split
    · rfl
    · simp

theorem textHoleMake_end (p : Int) (n : Nat) :
    (s.textHoleMake p n).2.end_ = s.end_ + n + (s.textHoleMake p n).1 := by
  unfold textHoleMake
  split
  · rename_i h
    simp only
    omega
  · dsimp only
    split
    · rfl
    · simp

theorem textHoleMake_fits (h : s.Fits) (p : Int) (n : Nat) : (s.textHoleMake p n).2.Fits := by
  have h₁ := h.text_le_end
  have h₂ := h.lt_size
  unfold textHoleMake
  split
  · exact h
  · dsimp only
    split
    · constructor <;> simp only [growText] <;> omega
    · constructor <;> simp only <;> omega

/-- Opening a hole inserts blanks, wherever the block ends up. -/
theorem textHoleMake_bytes (h : s.Fits) {p : Int} (h₀ : s.text ≤ p) (h₁ : p ≤ s.end_) (n : Nat) :
    (s.textHoleMake p n).2.bytes =
      s.bytes.take (p - s.text).toNat ++ List.replicate n 32 ++
        s.bytes.drop (p - s.text).toNat := by
  have hf := h.lt_size
  obtain ⟨k, hk⟩ : ∃ k : Nat, p = s.text + k := ⟨(p - s.text).toNat, by omega⟩
  obtain ⟨l, hl⟩ : ∃ l : Nat, s.end_ = s.text + l := ⟨(s.end_ - s.text).toNat, by omega⟩
  have hkl : k ≤ l := by omega
  have hold : s.bytes = slice s.mem s.text l := by
    unfold Buf.bytes
    congr 1
    omega
  -- a block that holds the old text receives the gap at the same offset
  have gap : ∀ (m : Memory UInt8) (t : Int), slice m t l = slice s.mem s.text l →
      slice (memset (memmove m (t + k + n) (t + k) (l - k)) (t + k) 32 n) t (l + n) =
        s.bytes.take k ++ List.replicate n 32 ++ s.bytes.drop k := by
    intro m t hm
    rw [slice_openGap m t n 32 hkl, hm, hold]
  have hsub : (p - s.text).toNat = k := by omega
  rw [hsub]
  unfold textHoleMake
  split
  · have hn : n = 0 := by omega
    simp [hn]
  · dsimp only
    split
    · rename_i hgrow
      have hm := gap ({ s with end_ := s.end_ + n } : Ed).growText.2.mem
        ({ s with end_ := s.end_ + n } : Ed).growText.2.text
        (slice_congr fun i hi => growText_mem _ (by omega) (by simp only; omega))
      rw [← hm]
      simp only [Buf.bytes]
      congr 1
      · simp only [growText, hk, hl]
        congr 1
        · congr 1 <;> omega
        · omega
      · simp only [growText]
        omega
    · rw [← gap s.mem s.text rfl]
      simp only [Buf.bytes]
      congr 1
      · simp only [hk, hl]
        congr 1
        · congr 1 <;> omega
        · omega
      · omega

/-- No growth below the allocation. -/
theorem textHoleMake_noGrow {p : Int} {n : Nat} (h : s.end_ + n < s.text + s.textSize) :
    (s.textHoleMake p n).1 = 0 ∧ (s.textHoleMake p n).2.text = s.text ∧
      (s.textHoleMake p n).2.textSize = s.textSize ∧ (s.textHoleMake p n).2.env = s.env := by
  unfold textHoleMake
  split
  · exact ⟨rfl, rfl, rfl, rfl⟩
  · dsimp only
    rw [if_neg (by omega)]
    exact ⟨rfl, rfl, rfl, rfl⟩

/-! ## Closing a hole -/

/-- What a deletion can do, for any two positions: push, and either leave the text alone or
close a gap. -/
theorem textHoleDelete_cases (s : Ed) (p q : Int) (undo : Undo) :
    (s.textHoleDelete p q undo).2 =
        { s.undoPushDelete p (q - p + 1).toNat undo with
          modifiedCount := (s.undoPushDelete p (q - p + 1).toNat undo).modifiedCount - 1 } ∨
      ∃ m e, s.text ≤ e ∧ (e = s.text ∨ e = s.end_ - (q - p + 1)) ∧ (s.textHoleDelete p q undo).2 =
        { s.undoPushDelete p (q - p + 1).toNat undo with mem := m, end_ := e } := by
  obtain ⟨u, hu⟩ : ∃ u, s.undoPushDelete p (q - p + 1).toNat undo = { s with toUndos := u } :=
    ⟨_, s.undoPushDelete_eq p _ undo⟩
  obtain ⟨src, dest, hd⟩ : ∃ src dest, (if q < p then (p + 1, q) else (q + 1, p)) = (src, dest) :=
    ⟨_, _, rfl⟩
  simp only [textHoleDelete, hu, hd]
  by_cases h₁ : src < s.text ∨ src > s.end_
  · rw [if_pos h₁]
    exact Or.inl rfl
  · rw [if_neg h₁]
    by_cases h₂ : dest < s.text ∨ dest ≥ s.end_
    · rw [if_pos h₂]
      exact Or.inl rfl
    · rw [if_neg h₂, Int.sub_add_cancel]
      refine Or.inr ?_
      by_cases h₃ : src ≥ s.end_
      · rw [if_pos h₃]
        by_cases h₄ : s.end_ - (q - p + 1) ≤ s.text
        · rw [if_pos h₄]
          exact ⟨_, _, Int.le_refl _, .inl rfl, rfl⟩
        · rw [if_neg h₄]
          exact ⟨_, s.end_ - (q - p + 1), by omega, .inr rfl, rfl⟩
      · rw [if_neg h₃]
        by_cases h₄ : s.end_ - (q - p + 1) ≤ s.text
        · rw [if_pos h₄]
          exact ⟨_, _, Int.le_refl _, .inl rfl, rfl⟩
        · rw [if_neg h₄]
          exact ⟨_, s.end_ - (q - p + 1), by omega, .inr rfl, rfl⟩

/-- Nothing is deleted behind the end. -/
theorem textHoleDelete_fits_of_le (hf : s.Fits) {p q : Int} (h : p ≤ q + 1) (undo : Undo) :
    (s.textHoleDelete p q undo).2.Fits := by
  have h₁ := hf.text_le_end
  have h₂ := hf.lt_size
  obtain ⟨u, hu⟩ : ∃ u, s.undoPushDelete p (q - p + 1).toNat undo = { s with toUndos := u } :=
    ⟨_, s.undoPushDelete_eq p _ undo⟩
  rcases s.textHoleDelete_cases p q undo with e | ⟨m, e, hle, he, e'⟩
  · rw [e, hu]
    exact ⟨h₁, h₂⟩
  · have hlt : e - s.text < s.textSize := by omega
    rw [e', hu]
    exact ⟨hle, hlt⟩

section Delete

variable {p q : Int}

/-- A deletion inside the buffer: what is recorded, and the gap closed. -/
theorem textHoleDelete_state (h₀ : s.text ≤ p) (h₁ : p ≤ q) (h₂ : q < s.end_) (undo : Undo) :
    (s.textHoleDelete p q undo).2 =
      { s with
        toUndos := (s.undoPushDelete p (q - p + 1).toNat undo).toUndos
        mem := if q + 1 ≥ s.end_ then s.mem else memmove s.mem p (q + 1) (s.end_ - (q + 1))
        end_ := s.end_ - (q - p + 1) } := by
  obtain ⟨u, hu⟩ : ∃ u, s.undoPushDelete p (q - p + 1).toNat undo = { s with toUndos := u } :=
    ⟨_, s.undoPushDelete_eq p _ undo⟩
  have hqp : ¬q < p := by omega
  simp only [textHoleDelete, hqp, if_false, hu]
  rw [if_neg (by omega), if_neg (by omega), Int.sub_add_cancel]
  by_cases hq : q + 1 ≥ s.end_
  · rw [if_pos hq, if_pos hq]
    by_cases he : s.end_ - (q - p + 1) ≤ s.text
    · have : s.text = s.end_ - (q - p + 1) := by omega
      rw [if_pos he]
      simp only [← this]
    · rw [if_neg he]
  · rw [if_neg hq, if_neg hq, if_neg (by simp only; omega)]

/-- Where a deletion inside the buffer leaves its caller. -/
theorem textHoleDelete_dest (h₀ : s.text ≤ p) (h₁ : p ≤ q) (h₂ : q < s.end_) (undo : Undo) :
    (s.textHoleDelete p q undo).1 =
      if s.end_ - (q - p + 1) ≤ s.text then s.text
      else if p ≥ s.end_ - (q - p + 1) then s.end_ - (q - p + 1) - 1 else p := by
  obtain ⟨u, hu⟩ : ∃ u, s.undoPushDelete p (q - p + 1).toNat undo = { s with toUndos := u } :=
    ⟨_, s.undoPushDelete_eq p _ undo⟩
  have hqp : ¬q < p := by omega
  simp only [textHoleDelete, hqp, if_false, hu]
  rw [if_neg (by omega), if_neg (by omega)]
  by_cases hq : q + 1 ≥ s.end_
  · rw [if_pos hq]
    split <;> rfl
  · rw [if_neg hq]
    dsimp only
    split <;> rfl

/-- A deletion inside the buffer drops exactly the bytes `p` through `q`. -/
theorem textHoleDelete_bytes (h₀ : s.text ≤ p) (h₁ : p ≤ q) (h₂ : q < s.end_) (undo : Undo) :
    (s.textHoleDelete p q undo).2.bytes =
      s.bytes.take (p - s.text).toNat ++ s.bytes.drop (q + 1 - s.text).toNat := by
  obtain ⟨k, hk⟩ : ∃ k : Nat, p = s.text + k := ⟨(p - s.text).toNat, by omega⟩
  obtain ⟨d, hd⟩ : ∃ d : Nat, q + 1 = s.text + k + d := ⟨(q + 1 - p).toNat, by omega⟩
  obtain ⟨l, hl⟩ : ∃ l : Nat, s.end_ = s.text + l := ⟨(s.end_ - s.text).toNat, by omega⟩
  rw [textHoleDelete_state s h₀ h₁ h₂]
  have hold : s.bytes = slice s.mem s.text l := by
    unfold Buf.bytes
    congr 1
    omega
  rw [show (p - s.text).toNat = k by omega, show (q + 1 - s.text).toNat = k + d by omega, hold,
    ← slice_closeGap s.mem s.text (by omega)]
  unfold Buf.bytes
  simp only
  rw [show (s.end_ - (q - p + 1) - s.text).toNat = l - d by omega]
  split
  · -- nothing behind the gap to move
    apply slice_congr
    intro i hi
    rw [memmove_out _ (by omega)]
  · congr 1
    rw [hk, hd, hl]
    congr 1
    omega

theorem textHoleDelete_fits (hf : s.Fits) (h₀ : s.text ≤ p) (h₁ : p ≤ q) (h₂ : q < s.end_)
    (undo : Undo) : (s.textHoleDelete p q undo).2.Fits := by
  have := hf.lt_size
  rw [textHoleDelete_state s h₀ h₁ h₂]
  constructor <;> simp only <;> omega

/-- One byte is deleted. -/
theorem textHoleDelete_byte {pre post : List UInt8} {c : UInt8} (hf : s.Fits)
    (h : s.bytes = pre ++ c :: post) (undo : Undo) :
    (s.textHoleDelete (s.text + pre.length) (s.text + pre.length) undo).2.Fits ∧
      (s.textHoleDelete (s.text + pre.length) (s.text + pre.length) undo).2.bytes =
        pre ++ post := by
  have hlen := s.length_bytes
  rw [h, List.length_append, List.length_cons] at hlen
  have h₀ : s.text ≤ s.text + (pre.length : Int) := by omega
  have h₁ : s.text + (pre.length : Int) < s.end_ := by omega
  refine ⟨textHoleDelete_fits s hf h₀ (Int.le_refl _) h₁ undo, ?_⟩
  rw [textHoleDelete_bytes s h₀ (Int.le_refl _) h₁, h, List.take_left' (by omega),
    ← List.singleton_append, ← List.append_assoc, List.drop_left']
  rw [List.length_append, List.length_singleton]
  omega

end Delete

/-! ## Inserting a string -/

theorem stringInsert_toUndos (p : Int) (str : List UInt8) (undo : Undo) :
    (s.stringInsert p str undo).2.toUndos = (s.undoPushInsert p str.length undo).toUndos := by
  unfold stringInsert
  exact textHoleMake_toUndos _ _ _

theorem stringInsert_fits (h : s.Fits) (p : Int) (str : List UInt8) (undo : Undo) :
    (s.stringInsert p str undo).2.Fits := by
  have := textHoleMake_fits (s.undoPushInsert p str.length undo)
    (by rw [undoPushInsert_eq]; exact h) p str.length
  exact ⟨this.text_le_end, this.lt_size⟩

theorem stringInsert_text (p : Int) (str : List UInt8) (undo : Undo) :
    (s.stringInsert p str undo).2.text = s.text + (s.stringInsert p str undo).1 := by
  unfold stringInsert
  dsimp only
  rw [textHoleMake_text, undoPushInsert_eq]

theorem stringInsert_end (p : Int) (str : List UInt8) (undo : Undo) :
    (s.stringInsert p str undo).2.end_ =
      s.end_ + str.length + (s.stringInsert p str undo).1 := by
  unfold stringInsert
  dsimp only
  rw [textHoleMake_end, undoPushInsert_eq]

/-- The allocation never shrinks. -/
theorem textHoleMake_size (p size : Int) : s.textSize ≤ (s.textHoleMake p size).2.textSize := by
  unfold textHoleMake
  split
  · exact Int.le_refl _
  · dsimp only
    split
    · simp only [growText]
      omega
    · exact Int.le_refl _

theorem stringInsert_size (p : Int) (str : List UInt8) (undo : Undo) :
    s.textSize ≤ (s.stringInsert p str undo).2.textSize := by
  have := textHoleMake_size (s.undoPushInsert p str.length undo) p str.length
  rw [undoPushInsert_eq] at this
  unfold stringInsert
  dsimp only
  rw [undoPushInsert_eq]
  exact this

/-- Writing over the blanks of a fresh hole. -/
theorem fillHole {l str : List UInt8} {k : Nat} (h : k ≤ l.length) :
    (l.take k ++ List.replicate str.length 32 ++ l.drop k).take k ++ str ++
      (l.take k ++ List.replicate str.length 32 ++ l.drop k).drop (k + str.length) =
      l.take k ++ str ++ l.drop k := by
  have ht : (l.take k).length = k := by simp [h]
  rw [List.drop_left' (by simp [h]), List.append_assoc (l.take k), List.take_left' ht]

/-- `string_insert` inserts exactly the string. -/
theorem stringInsert_bytes (hf : s.Fits) {p : Int} (h₀ : s.text ≤ p) (h₁ : p ≤ s.end_)
    (str : List UInt8) (undo : Undo) :
    (s.stringInsert p str undo).2.bytes =
      s.bytes.take (p - s.text).toNat ++ str ++ s.bytes.drop (p - s.text).toNat := by
  obtain ⟨u, hu⟩ : ∃ u, s.undoPushInsert p str.length undo = { s with toUndos := u } :=
    ⟨_, s.undoPushInsert_eq p str.length undo⟩
  have hb := textHoleMake_bytes ({ s with toUndos := u } : Ed) hf h₀ h₁ str.length
  have ht := textHoleMake_text ({ s with toUndos := u } : Ed) p str.length
  have he := textHoleMake_end ({ s with toUndos := u } : Ed) p str.length
  unfold stringInsert
  dsimp only
  rw [hu]
  obtain ⟨k, hk⟩ : ∃ k : Nat, p = s.text + k := ⟨(p - s.text).toNat, by omega⟩
  have hkl : k ≤ s.bytes.length := by rw [Buf.length_bytes]; omega
  rw [show (p - s.text).toNat = k by omega] at hb ⊢
  generalize textHoleMake ({ s with toUndos := u } : Ed) p str.length = r at hb ht he
  simp only at ht he
  rw [← fillHole hkl, ← hb]
  unfold Buf.bytes
  simp only
  rw [show p + r.1 = r.2.text + k by omega]
  exact slice_memcpy r.2.mem r.2.text str (by omega)

end Ed

end Evim
