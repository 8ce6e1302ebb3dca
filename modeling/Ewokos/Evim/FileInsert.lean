import Ewokos.Evim.UndoExact
import Ewokos.Evim.Edits
import Ewokos.Lib.Columns

/-!
# evim: a file that cannot be read

`file_insert` opens a hole of `st_size` blanks before it opens the file, and closes it again when
`read` fails.

* `textHoleDelete_back` — closing an empty hole: at either end of the text only `modified_count` is
  wrong afterwards, and inside the text every byte from the one before on is replaced by the one two
  further on.
* `fileInsert_failed_iff` — when a failed insertion leaves the text and its history alone.
-/

set_option autoImplicit false

namespace Evim

open Cells

/-- The text, the undo stack and the modification counter are as before; the block may be another. -/
structure SameText (s t : Ed) : Prop where
  bytes : t.bytes = s.bytes
  end_ : t.end_ - t.text = s.end_ - s.text
  undoStack : t.undoStack = s.undoStack
  modifiedCount : t.modifiedCount = s.modifiedCount

theorem SameText.refl (s : Ed) : SameText s s := ⟨rfl, rfl, rfl, rfl⟩

namespace Ed

/-- Where `file_insert` inserts. -/
def insertionPoint (s : Ed) (p : Int) : Int :=
  let p := if p < s.text then s.text else p
  if p > s.end_ then s.end_ else p

/-- The size of the hole for a file of `stSize` bytes. -/
def holeSize (stSize : Nat) : Int := if stSize < 0x7fffffff then stSize else 0x7fffffff

/-- The state in which `file_insert` opens a file of `stSize` bytes. -/
def atOpen (s : Ed) (p : Int) (stSize : Nat) : Ed :=
  ((s.ask (·.stat)).2.textHoleMake (s.insertionPoint p) (holeSize stSize)).2

/-- Closing an empty hole at `p` changes nothing: `p` is inside the text, and from the byte before
it on every byte is equal to the one two further on. -/
def EvenFrom (s : Ed) (p : Int) : Prop :=
  s.text < p ∧ p < s.end_ ∧ ∀ i, p - 1 ≤ i → i + 2 < s.end_ → s.mem (i + 2) = s.mem i

/-- The failures that are undone: the file is not found; an empty file cannot be opened; a file is
opened but not read, and either is not empty or `EvenFrom` holds where it was to go. -/
def FailsCleanly (s : Ed) (fn : Option (List UInt8)) (p : Int) : Prop :=
  ∀ name stSize, fn = some name → s.env.stat s.env.tick = some stSize →
    if (s.atOpen p stSize).env.opened (s.atOpen p stSize).env.tick then
      0 < stSize ∨ s.EvenFrom (s.insertionPoint p)
    else stSize = 0

theorem insertionPoint_mem {s : Ed} (h : s.Fits) (p : Int) :
    s.text ≤ s.insertionPoint p ∧ s.insertionPoint p ≤ s.end_ := by
  have := h.text_le_end
  simp only [insertionPoint]
  split <;> split <;> omega

theorem holeSize_pos {stSize : Nat} : 0 < holeSize stSize ↔ 0 < stSize := by
  unfold holeSize
  split <;> omega

/-! ## Closing an empty hole -/

/-- The text after an empty hole was closed at `p`. -/
theorem textHoleDelete_back (s : Ed) (h : s.text ≤ s.end_) (p : Int) :
    (s.textHoleDelete p (p - 1) .no).2 =
      if s.text < p ∧ p < s.end_ then
        { s with mem := memmove s.mem (p - 1) (p + 1) (s.end_ - (p + 1)) }
      else { s with modifiedCount := s.modifiedCount - 1 } := by
  have hback : p - 1 < p := by omega
  have hsize : s.end_ - (p - 1 - p + 1) = s.end_ := by omega
  simp only [textHoleDelete, undoPushDelete, hback, if_true]
  by_cases hin : s.text < p ∧ p < s.end_
  · rw [if_neg (by omega), if_neg (by omega), if_pos hin]
    have hnone : memmove s.mem (p - 1) (p + 1) 0 = s.mem := by
      funext i
      rw [memmove_out _ (by omega)]
    split
    · rename_i hlast
      have hcnt : s.end_ - (p + 1) = 0 := by omega
      dsimp only
      rw [hsize, if_neg (by omega), hcnt, hnone, Int.sub_add_cancel]
    · dsimp only
      rw [hsize, if_neg (by omega), Int.sub_add_cancel]
  · rw [if_neg hin]
    split
    · rfl
    · rename_i h₁
      rw [if_pos (by omega)]

/-- Closing an empty hole at either end of the text leaves the bytes alone; inside the text it
does where `EvenFrom` says. -/
theorem textHoleDelete_back_bytes {s : Ed} (h : s.text ≤ s.end_) (p : Int) :
    (s.textHoleDelete p (p - 1) .no).2.bytes = s.bytes ↔
      (s.text < p → p < s.end_ → s.EvenFrom p) := by
  rw [textHoleDelete_back s h]
  by_cases hin : s.text < p ∧ p < s.end_
  · rw [if_pos hin]
    constructor
    · intro hb _ _
      refine ⟨hin.1, hin.2, fun i hi₁ hi₂ => ?_⟩
      have hi : (i - s.text).toNat < s.bytes.length := by
        rw [Buf.length_bytes]
        omega
      have hget := congrArg (fun l => l[(i - s.text).toNat]?) hb
      simp only [Buf.bytes, slice, List.getElem?_map] at hget
      rw [List.getElem?_range (by omega)] at hget
      simp only [Option.map_some, Option.some.injEq] at hget
      rw [show s.text + ((i - s.text).toNat : Int) = i by omega, memmove_in _ (by omega)] at hget
      rw [← hget]
      congr 1
      omega
    · intro heven
      obtain ⟨-, -, heven⟩ := heven hin.1 hin.2
      refine slice_congr fun i hi => ?_
      by_cases hmoved : p - 1 ≤ s.text + i ∧ s.text + i < p - 1 + (s.end_ - (p + 1))
      · simp only
        rw [memmove_in _ hmoved, ← heven (s.text + i) hmoved.1 (by omega)]
        congr 1
        omega
      · simp only
        rw [memmove_out _ (by omega)]
  · rw [if_neg hin]
    exact iff_of_true rfl fun h₁ h₂ => absurd ⟨h₁, h₂⟩ hin

/-- An empty hole is closed without a trace exactly where `EvenFrom` says. -/
theorem textHoleDelete_back_iff {s : Ed} (h : s.text ≤ s.end_) (p : Int) :
    SameText s (s.textHoleDelete p (p - 1) .no).2 ↔ s.EvenFrom p := by
  have hback := textHoleDelete_back s h p
  have hbytes := textHoleDelete_back_bytes h p
  by_cases hin : s.text < p ∧ p < s.end_
  · rw [if_pos hin] at hback
    constructor
    · intro hs
      exact hbytes.mp hs.bytes hin.1 hin.2
    · intro he
      have hb := hbytes.mpr fun _ _ => he
      rw [hback] at hb ⊢
      exact ⟨hb, rfl, rfl, rfl⟩
  · rw [if_neg hin] at hback
    constructor
    · intro hs
      have hcount := hs.modifiedCount
      rw [hback] at hcount
      simp only at hcount
      omega
    · intro he
      exact absurd ⟨he.1, he.2.1⟩ hin

/-! ## The three failures -/

/-- A message leaves the text alone. -/
theorem SameText.noFile {s t : Ed} (h : SameText s t) (fn : List UInt8) (initial : Bool) :
    SameText s (t.noFile fn initial).2 := by
  unfold Ed.noFile
  split
  · exact h
  · exact ⟨h.bytes, h.end_, h.undoStack, h.modifiedCount⟩

/-- A hole that is opened and closed again leaves no trace. -/
theorem openClose_sameText {s : Ed} (h : s.Fits) {p : Int} (h₀ : s.text ≤ p) (h₁ : p ≤ s.end_)
    {n : Nat} (hn : 0 < n) {t : Ed} (hbuf : t.toBuf = (s.textHoleMake p n).2.toBuf)
    (hundo : t.toUndos = s.toUndos) :
    SameText s (t.textHoleDelete (p + (s.textHoleMake p n).1)
      (p + (s.textHoleMake p n).1 + n - 1) .no).2 := by
  have htext := textHoleMake_text s p n
  have hend := textHoleMake_end s p n
  have hbytes := textHoleMake_bytes s h h₀ h₁ n
  have hlen := Buf.length_bytes s.toBuf
  generalize s.textHoleMake p n = r at hbuf htext hend hbytes ⊢
  have ht : t.text = s.text + r.1 := by rw [hbuf, htext]
  have he : t.end_ = s.end_ + n + r.1 := by rw [hbuf, hend]
  have a₀ : t.text ≤ p + r.1 := by omega
  have a₁ : p + r.1 ≤ p + r.1 + n - 1 := by omega
  have a₂ : p + r.1 + n - 1 < t.end_ := by omega
  have hst := textHoleDelete_state t a₀ a₁ a₂ .no
  refine ⟨?_, ?_, ?_, ?_⟩
  · rw [textHoleDelete_bytes t a₀ a₁ a₂, show t.bytes = r.2.bytes by rw [hbuf], hbytes]
    have hk : (p - s.text).toNat ≤ s.bytes.length := by omega
    rw [show (p + r.1 - t.text).toNat = (p - s.text).toNat by omega,
      show (p + r.1 + n - 1 + 1 - t.text).toNat = (p - s.text).toNat + n by omega,
      List.append_assoc, List.take_left' (by simp [hk]), ← List.append_assoc,
      List.drop_left' (by simp [hk]), List.take_append_drop]
  · rw [hst]
    simp only
    omega
  · rw [hst]
    exact congrArg Undos.undoStack hundo
  · rw [hst]
    exact congrArg Undos.modifiedCount hundo

/-- The file is there but cannot be opened. -/
theorem openFails_iff (s : Ed) (p : Int) (n : Nat) {t : Ed}
    (hbuf : t.toBuf = (s.textHoleMake p n).2.toBuf) (hundo : t.toUndos = s.toUndos)
    (fn : List UInt8) (initial : Bool) : SameText s (t.noFile fn initial).2 ↔ n = 0 := by
  constructor
  · intro hs
    have hend := hs.end_
    have htext := textHoleMake_text s p n
    have hmade := textHoleMake_end s p n
    have hb : (t.noFile fn initial).2.toBuf = t.toBuf := by
      unfold noFile
      split <;> rfl
    rw [hb, hbuf] at hend
    omega
  · rintro rfl
    refine SameText.noFile ?_ fn initial
    have hnone : (s.textHoleMake p (0 : Nat)).2 = s := rfl
    rw [hnone] at hbuf
    exact ⟨by rw [hbuf], by rw [hbuf], congrArg Undos.undoStack hundo,
      congrArg Undos.modifiedCount hundo⟩

/-- The file is opened but not read. -/
theorem readFails_iff {s : Ed} (h : s.Fits) {p : Int} (h₀ : s.text ≤ p) (h₁ : p ≤ s.end_) (n : Nat)
    {t : Ed} (hbuf : t.toBuf = (s.textHoleMake p n).2.toBuf) (hundo : t.toUndos = s.toUndos) :
    SameText s (t.textHoleDelete (p + (s.textHoleMake p n).1)
      (p + (s.textHoleMake p n).1 + n - 1) .no).2 ↔ 0 < n ∨ s.EvenFrom p := by
  by_cases hn : 0 < n
  · exact iff_of_true (openClose_sameText h h₀ h₁ hn hbuf hundo) (Or.inl hn)
  · obtain rfl : n = 0 := by omega
    have hnone : s.textHoleMake p (0 : Nat) = (0, s) := rfl
    rw [hnone] at hbuf ⊢
    have hback := textHoleDelete_back_iff (s := t) (by rw [hbuf]; exact h.text_le_end) p
    have heven : t.EvenFrom p ↔ s.EvenFrom p := by
      unfold EvenFrom
      rw [hbuf]
    have hsame : ∀ u, SameText s u ↔ SameText t u := fun u =>
      ⟨fun hu => ⟨by rw [hu.bytes, hbuf], by rw [hu.end_, hbuf],
        hu.undoStack.trans (congrArg Undos.undoStack hundo.symm),
        hu.modifiedCount.trans (congrArg Undos.modifiedCount hundo.symm)⟩,
      fun hu => ⟨by rw [hu.bytes, hbuf], by rw [hu.end_, hbuf],
        hu.undoStack.trans (congrArg Undos.undoStack hundo),
        hu.modifiedCount.trans (congrArg Undos.modifiedCount hundo)⟩⟩
    rw [show p + (0 : Int) + (0 : Nat) - 1 = p - 1 by omega, Int.add_zero, hsame, hback, heven]
    simp

/-- The second half of `file_insert`. -/
theorem readInto_failed_iff {s : Ed} (h : s.Fits) {p : Int} (h₀ : s.text ≤ p) (h₁ : p ≤ s.end_)
    (n : Nat) (fn : List UInt8) (initial : Bool)
    (hfail : ((s.textHoleMake p n).2.readInto fn (p + (s.textHoleMake p n).1) n initial).1 < 0) :
    SameText s ((s.textHoleMake p n).2.readInto fn (p + (s.textHoleMake p n).1) n initial).2 ↔
      if (s.textHoleMake p n).2.env.opened (s.textHoleMake p n).2.env.tick then
        0 < n ∨ s.EvenFrom p
      else n = 0 := by
  have hundo := textHoleMake_toUndos s p n
  unfold readInto at hfail ⊢
  dsimp only [ask] at hfail ⊢
  cases hopen : (s.textHoleMake p n).2.env.opened (s.textHoleMake p n).2.env.tick with
  | false =>
    simp only [Bool.not_false, if_true, Bool.false_eq_true, if_false]
    refine openFails_iff s p n ?_ ?_ fn initial
    · rfl
    · exact hundo
  | true =>
    rw [hopen] at hfail
    simp only [Bool.not_true, Bool.false_eq_true, if_false, if_true] at hfail ⊢
    generalize hc : min ((s.textHoleMake p n).2.env.count ((s.textHoleMake p n).2.env.tick + 1))
      (n : Int) = cnt at hfail ⊢
    have hneg : cnt < 0 := by
      by_contra hge
      rw [if_neg hge] at hfail
      split at hfail <;> exact hge hfail
    have hnil : cnt.toNat = 0 := by omega
    rw [if_pos hneg]
    simp only [hnil, List.range_zero, List.map_nil, memcpy_nil]
    exact readFails_iff h h₀ h₁ n rfl hundo

/-- `file_insert` of a file that is there. -/
theorem fileInsert_found {s : Ed} (name : List UInt8) {stSize : Nat} (p : Int) (initial : Bool)
    (hstat : s.env.stat s.env.tick = some stSize) {r : Int × Ed}
    (hr : (s.ask (·.stat)).2.textHoleMake (s.insertionPoint p) ((holeSize stSize).toNat : Nat) = r) :
    s.fileInsert (some name) p initial =
      r.2.readInto name (s.insertionPoint p + r.1) ((holeSize stSize).toNat : Nat) initial := by
  have hsize : ((holeSize stSize).toNat : Int) = holeSize stSize := by
    unfold holeSize
    split <;> omega
  rw [hsize] at hr ⊢
  subst hr
  simp only [fileInsert, ask, hstat]
  rfl

/-- **When a failed insertion leaves no trace.** -/
theorem fileInsert_failed_iff {s : Ed} (h : s.Fits) (fn : Option (List UInt8)) (p : Int)
    (initial : Bool) (hfail : (s.fileInsert fn p initial).1 < 0) :
    SameText s (s.fileInsert fn p initial).2 ↔ s.FailsCleanly fn p := by
  obtain ⟨h₀, h₁⟩ := insertionPoint_mem h p
  cases fn with
  | none => exact iff_of_true (SameText.refl s) fun _ _ hn => by cases hn
  | some name =>
    cases hstat : s.env.stat s.env.tick with
    | none =>
      refine iff_of_true ?_ fun _ _ _ hs => by rw [hstat] at hs; cases hs
      simp only [fileInsert, ask, hstat]
      refine SameText.noFile ?_ name initial
      exact ⟨rfl, rfl, rfl, rfl⟩
    | some stSize =>
      have hsome : s.FailsCleanly (some name) p ↔
          if (s.atOpen p stSize).env.opened (s.atOpen p stSize).env.tick then
            0 < stSize ∨ s.EvenFrom (s.insertionPoint p)
          else stSize = 0 := by
        unfold FailsCleanly
        constructor
        · intro hall
          exact hall name stSize rfl hstat
        · intro hone name' stSize' _ hs
          rw [hstat] at hs
          cases hs
          exact hone
      have hsize : holeSize stSize = ((holeSize stSize).toNat : Int) := by
        unfold holeSize
        split <;> omega
      have hcode := fileInsert_found name p initial hstat rfl
      have hpos : 0 < stSize ↔ 0 < (holeSize stSize).toNat := by
        rw [← holeSize_pos]
        omega
      have hzero : stSize = 0 ↔ (holeSize stSize).toNat = 0 := by omega
      rw [hsome, hpos, hzero]
      rw [hcode] at hfail ⊢
      unfold atOpen
      rw [hsize]
      rw [Int.toNat_natCast]
      have hread := readInto_failed_iff (s := (s.ask (·.stat)).2) ⟨h.1, h.2⟩ h₀ h₁
        (holeSize stSize).toNat name initial hfail
      constructor
      · intro hs
        exact hread.mp ⟨hs.1, hs.2, hs.3, hs.4⟩
      · intro hs
        have hs := hread.mpr hs
        exact ⟨hs.1, hs.2, hs.3, hs.4⟩

/-- A file of three bytes that is there but cannot be opened, or that cannot be read. -/
def Env.failing (opened : Bool) : Env :=
  { Env.still with stat := fun _ => some 3, opened := fun _ => opened }

/-- The hole for a file that could not be opened stays in the text. -/
theorem fileInsert_leaves_hole :
    ¬ ∀ (s : Ed) (fn : Option (List UInt8)) (p : Int) (initial : Bool), s.Fits →
      (s.fileInsert fn p initial).1 < 0 → SameText s (s.fileInsert fn p initial).2 := by
  intro h
  have hbad := (h { EditOp.holding [97, 10] with env := Env.failing false } (some [102]) 4096 false
    ⟨by decide, by decide⟩ (by decide)).bytes
  revert hbad
  decide +kernel

/-- A file that is opened but not read. -/
theorem fileInsert_failed_read :
    SameText { EditOp.holding [97, 10] with env := Env.failing true }
      (fileInsert { EditOp.holding [97, 10] with env := Env.failing true } (some [102]) 4097
        false).2 := by
  refine (fileInsert_failed_iff ⟨by decide, by decide⟩ (some [102]) 4097 false (by decide)).mpr ?_
  intro name stSize _ hs
  have hs : some 3 = some stSize := hs
  cases hs
  rw [if_pos (by decide)]
  exact Or.inl (by decide)

end Ed

end Evim
