import Ewokos.Evim.FileInsert
import Ewokos.Evim.Substitution

/-!
# evim: reading a file into the text

`file_insert` when `read` delivers something, and `:r` over it.

* `fileInsert_read` — the bytes read stand at the insertion point, and only a full read is recorded.
* `fileInsert_undone_iff` — when one `undo_pop` takes the insertion back: a full read, which for an
  empty file has to survive `text_hole_delete(p, p - 1)`.
-/

set_option autoImplicit false

namespace Evim

open Cells UndoLog

namespace Ed

/-- What `read` returns when `file_insert` opens a file of `stSize` bytes at `p`. -/
def readCount (s : Ed) (p : Int) (stSize : Nat) : Int :=
  min ((s.atOpen p stSize).env.count ((s.atOpen p stSize).env.tick + 1)) (holeSize stSize)

/-- The bytes that this `read` delivers. -/
def bytesRead (s : Ed) (p : Int) (stSize : Nat) : List UInt8 :=
  (List.range (s.readCount p stSize).toNat).map
    ((s.atOpen p stSize).env.content ((s.atOpen p stSize).env.tick + 1))

/-- `t` is `s` with `read` at offset `k`; the insertion is recorded if it fills the hole of `n`
bytes that was opened for it. -/
structure FileRead (s : Ed) (k n : Nat) (read : List UInt8) (t : Ed) : Prop where
  bytes : t.bytes = s.bytes.take k ++ read ++ s.bytes.drop k
  fits : t.Fits
  size : s.textSize ≤ t.textSize
  queue : t.undoQ = s.undoQ
  stack : t.undoStack = if read.length = n then ⟨k, n, .ins, []⟩ :: s.undoStack else s.undoStack
  empty : n = 0 → t.toBuf = s.toBuf

/-! ## A file that is read -/

/-- Writing over the front of a fresh hole. -/
theorem fillFront {l str : List UInt8} {k n : Nat} (hk : k ≤ l.length) (hn : str.length ≤ n) :
    (l.take k ++ List.replicate n 32 ++ l.drop k).take k ++ str ++
      (l.take k ++ List.replicate n 32 ++ l.drop k).drop (k + str.length) =
      l.take k ++ str ++ List.replicate (n - str.length) 32 ++ l.drop k := by
  have ht : (l.take k).length = k := by simp [hk]
  rw [List.append_assoc (l.take k), List.take_left' ht, ← List.drop_drop, List.drop_left' ht,
    List.drop_append_of_le_length (by simp [hn]), List.drop_replicate]
  simp only [List.append_assoc]

section Hole

variable {s : Ed} {p : Int} {n : Nat} {read : List UInt8}

/-- The bytes read, copied over the front of the hole. -/
theorem readHole_bytes (h : s.Fits) (h₀ : s.text ≤ p) (h₁ : p ≤ s.end_) (hlen : read.length ≤ n) :
    Buf.bytes { (s.textHoleMake p n).2 with
      mem := memcpy (s.textHoleMake p n).2.mem (p + (s.textHoleMake p n).1) read } =
      s.bytes.take (p - s.text).toNat ++ read ++ List.replicate (n - read.length) 32 ++
        s.bytes.drop (p - s.text).toNat := by
  have hbytes := textHoleMake_bytes s h h₀ h₁ n
  have htext := textHoleMake_text s p n
  have hend := textHoleMake_end s p n
  have hold := Buf.length_bytes s.toBuf
  generalize s.textHoleMake p n = r at hbytes htext hend ⊢
  have hcopy := slice_memcpy r.2.mem r.2.text (k := (p - s.text).toNat)
    (n := (r.2.end_ - r.2.text).toNat) read (by omega)
  rw [show r.2.text + ((p - s.text).toNat : Int) = p + r.1 by omega] at hcopy
  rw [← fillFront (by omega) hlen, ← hbytes]
  exact hcopy

/-- Closing what is left of the hole behind a short read. -/
theorem shortRead_bytes (h : s.Fits) (h₀ : s.text ≤ p) (h₁ : p ≤ s.end_) (hlen : read.length < n)
    {t : Ed} (ht : t.toBuf = { (s.textHoleMake p n).2.toBuf with
      mem := memcpy (s.textHoleMake p n).2.mem (p + (s.textHoleMake p n).1) read }) :
    (t.textHoleDelete (p + (s.textHoleMake p n).1 + read.length)
        (p + (s.textHoleMake p n).1 + n - 1) .no).2.bytes =
        s.bytes.take (p - s.text).toNat ++ read ++ s.bytes.drop (p - s.text).toNat ∧
      (t.textHoleDelete (p + (s.textHoleMake p n).1 + read.length)
        (p + (s.textHoleMake p n).1 + n - 1) .no).2.Fits ∧
      (t.textHoleDelete (p + (s.textHoleMake p n).1 + read.length)
        (p + (s.textHoleMake p n).1 + n - 1) .no).2.toUndos = t.toUndos ∧
      (t.textHoleDelete (p + (s.textHoleMake p n).1 + read.length)
        (p + (s.textHoleMake p n).1 + n - 1) .no).2.textSize = t.textSize := by
  have hbytes := readHole_bytes h h₀ h₁ (Nat.le_of_lt hlen)
  have htext := textHoleMake_text s p n
  have hend := textHoleMake_end s p n
  have hfits := textHoleMake_fits s h p n
  have hold := Buf.length_bytes s.toBuf
  rw [← ht] at hbytes
  have htt : t.text = s.text + (s.textHoleMake p n).1 := by rw [ht]; exact htext
  have hte : t.end_ = s.end_ + n + (s.textHoleMake p n).1 := by rw [ht]; exact hend
  have htf : t.Fits := by
    rw [ht]
    exact ⟨hfits.1, hfits.2⟩
  generalize s.textHoleMake p n = r at htt hte ⊢
  have a₀ : t.text ≤ p + r.1 + read.length := by omega
  have a₁ : p + r.1 + read.length ≤ p + r.1 + n - 1 := by omega
  have a₂ : p + r.1 + n - 1 < t.end_ := by omega
  have hst := textHoleDelete_state t a₀ a₁ a₂ .no
  refine ⟨?_, textHoleDelete_fits t htf a₀ a₁ a₂ .no, by rw [hst]; rfl, by rw [hst]⟩
  have hk : (s.bytes.take (p - s.text).toNat ++ read).length = (p - s.text).toNat + read.length := by
    rw [List.length_append, List.length_take]
    omega
  rw [textHoleDelete_bytes t a₀ a₁ a₂, hbytes,
    show (p + r.1 + read.length - t.text).toNat = (p - s.text).toNat + read.length by omega,
    show (p + r.1 + n - 1 + 1 - t.text).toNat =
      (p - s.text).toNat + read.length + (n - read.length) by omega, List.append_assoc,
    List.take_left' hk, ← List.append_assoc, List.drop_left' (by
      rw [List.length_append, hk, List.length_replicate])]

end Hole

/-- The object of a recorded insertion. -/
theorem undoPushInsert_allow (s : Ed) (p : Int) (len : Nat) :
    s.undoPushInsert p len .allow =
      { s with
        undoStack := ⟨p - s.text, len, .ins, []⟩ :: s.undoStack
        modifiedCount := s.modifiedCount + 1 } := by
  simp [undoPushInsert, undoPush, pushObject]

/-- The second half of `file_insert`, when something is read. -/
theorem readInto_read {s : Ed} (h : s.Fits) {p : Int} (h₀ : s.text ≤ p) (h₁ : p ≤ s.end_) (n : Nat)
    (fn : List UInt8) (initial : Bool) {r : Int × Ed} (hr : s.textHoleMake p n = r)
    (hopen : r.2.env.opened r.2.env.tick = true) {cnt : Nat}
    (hcnt : min (r.2.env.count (r.2.env.tick + 1)) n = cnt) {read : List UInt8}
    (hread : (List.range cnt).map (r.2.env.content (r.2.env.tick + 1)) = read) :
    (r.2.readInto fn (p + r.1) n initial).1 = cnt ∧
      FileRead s (p - s.text).toNat n read (r.2.readInto fn (p + r.1) n initial).2 := by
  have hlen : read.length = cnt := by
    rw [← hread]
    simp
  have hundos := textHoleMake_toUndos s p n
  have htext := textHoleMake_text s p n
  have hsize := textHoleMake_size s p n
  unfold readInto
  dsimp only [ask]
  rw [hopen, hcnt]
  simp only [Bool.not_true, Bool.false_eq_true, if_false, Int.toNat_natCast, hread]
  rw [if_neg (by omega)]
  by_cases hshort : cnt < n
  · rw [if_pos (by omega)]
    refine ⟨rfl, ?_⟩
    subst hr
    obtain ⟨b₁, b₂, b₃, b₄⟩ := shortRead_bytes h h₀ h₁ (by omega : read.length < n) (t :=
      { (s.textHoleMake p n).2 with
        env := { (s.textHoleMake p n).2.env with tick := (s.textHoleMake p n).2.env.tick + 1 + 1 }
        mem := memcpy (s.textHoleMake p n).2.mem (p + (s.textHoleMake p n).1) read }) rfl
    rw [hlen] at b₁ b₂ b₃ b₄
    refine ⟨b₁, ⟨b₂.1, b₂.2⟩, ?_, ?_, ?_, by omega⟩
    · exact hsize.trans (le_of_eq b₄.symm)
    · exact (congrArg Undos.undoQ b₃).trans (congrArg Undos.undoQ hundos)
    · rw [if_neg (by omega)]
      exact (congrArg Undos.undoStack b₃).trans (congrArg Undos.undoStack hundos)
  · have hfull : cnt = n := by omega
    rw [if_neg (by omega)]
    refine ⟨rfl, ?_⟩
    subst hr
    have hbytes := readHole_bytes h h₀ h₁ (by omega : read.length ≤ n)
    rw [show n - read.length = 0 by omega, List.replicate_zero, List.append_nil] at hbytes
    have hfits := textHoleMake_fits s h p n
    rw [undoPushInsert_allow]
    refine ⟨hbytes, ⟨hfits.1, hfits.2⟩, hsize, (congrArg Undos.undoQ hundos : _), ?_, ?_⟩
    · rw [if_pos (by omega)]
      simp only [htext, congrArg Undos.undoStack hundos]
      congr 2
      omega
    · intro hn
      have hnil : read = [] := List.eq_nil_of_length_eq_zero (by omega)
      rw [hnil, memcpy_nil, hn]
      rfl

section Read

variable {s : Ed} {name : List UInt8} {p : Int} {stSize : Nat} {r : Int × Ed}

theorem atOpen_eq (hr : (s.ask (·.stat)).2.textHoleMake (s.insertionPoint p)
    ((holeSize stSize).toNat : Nat) = r) :
    s.atOpen p stSize = r.2 ∧ s.readCount p stSize =
      min (r.2.env.count (r.2.env.tick + 1)) ((holeSize stSize).toNat : Nat) := by
  have hsize : ((holeSize stSize).toNat : Int) = holeSize stSize := by
    unfold holeSize
    split <;> omega
  have hopened : s.atOpen p stSize = r.2 := by
    rw [← hr, hsize]
    rfl
  exact ⟨hopened, by rw [hsize, ← hopened]; rfl⟩

/-- The file is opened and read when `file_insert` returns no error. -/
theorem fileInsert_nonneg {initial : Bool} (hstat : s.env.stat s.env.tick = some stSize)
    (hread : 0 ≤ (s.fileInsert (some name) p initial).1) :
    (s.atOpen p stSize).env.opened (s.atOpen p stSize).env.tick = true ∧
      0 ≤ s.readCount p stSize := by
  obtain ⟨r, hr⟩ : ∃ r, (s.ask (·.stat)).2.textHoleMake (s.insertionPoint p)
    ((holeSize stSize).toNat : Nat) = r := ⟨_, rfl⟩
  obtain ⟨hopened, hcount⟩ := atOpen_eq hr
  rw [fileInsert_found name p initial hstat hr] at hread
  rw [hopened, hcount]
  cases hopen : r.2.env.opened r.2.env.tick with
  | false => simp [readInto, ask, hopen, noFile] at hread
  | true =>
    refine ⟨rfl, ?_⟩
    by_contra hneg
    simp only [readInto, ask, hopen, Bool.not_true, Bool.false_eq_true, if_false] at hread
    rw [if_pos (by omega)] at hread
    exact hneg hread

/-- What `file_insert` does with a file that is opened and read. -/
theorem fileInsert_read (h : s.Fits) (name : List UInt8) (p : Int) (initial : Bool)
    (hstat : s.env.stat s.env.tick = some stSize)
    (hopen : (s.atOpen p stSize).env.opened (s.atOpen p stSize).env.tick = true)
    (hread : 0 ≤ s.readCount p stSize) :
    (s.fileInsert (some name) p initial).1 = s.readCount p stSize ∧
      FileRead s (s.insertionPoint p - s.text).toNat (holeSize stSize).toNat (s.bytesRead p stSize)
        (s.fileInsert (some name) p initial).2 := by
  obtain ⟨h₀, h₁⟩ := insertionPoint_mem h p
  obtain ⟨r, hr⟩ : ∃ r, (s.ask (·.stat)).2.textHoleMake (s.insertionPoint p)
    ((holeSize stSize).toNat : Nat) = r := ⟨_, rfl⟩
  obtain ⟨hopened, hcount⟩ := atOpen_eq hr
  obtain ⟨cnt, hcnt⟩ := Int.eq_ofNat_of_zero_le hread
  have hbytes : (List.range cnt).map (r.2.env.content (r.2.env.tick + 1)) =
      s.bytesRead p stSize := by
    unfold bytesRead
    rw [hcnt, hopened]
    rfl
  rw [hopened] at hopen
  rw [fileInsert_found name p initial hstat hr]
  obtain ⟨hrc, hfile⟩ := readInto_read (s := (s.ask (·.stat)).2) ⟨h.1, h.2⟩ h₀ h₁
    (holeSize stSize).toNat name initial hr hopen (hcount.symm.trans hcnt) hbytes
  exact ⟨hrc.trans hcnt.symm, hfile.1, hfile.2, hfile.3, hfile.4, hfile.5, hfile.6⟩

/-- Only a `realloc` is asked for. -/
theorem textHoleMake_env (s : Ed) (p n : Int) : (s.textHoleMake p n).2.env =
    if 0 < n ∧ s.text + s.textSize ≤ s.end_ + n then { s.env with tick := s.env.tick + 1 }
    else s.env := by
  unfold textHoleMake
  by_cases hn : n ≤ 0
  · rw [if_pos hn, if_neg (by omega)]
  · rw [if_neg hn]
    by_cases hgrow : s.text + s.textSize ≤ s.end_ + n
    · rw [if_pos ⟨by omega, hgrow⟩]
      dsimp only
      rw [if_pos hgrow]
      rfl
    · rw [if_neg fun h => hgrow h.2]
      dsimp only
      rw [if_neg hgrow]

/-- The history plays no part in reading. -/
theorem atOpen_history (st : List UndoObject) :
    (({ s with undoStack := st } : Ed).atOpen p stSize).env = (s.atOpen p stSize).env := by
  unfold atOpen
  rw [textHoleMake_env, textHoleMake_env]
  rfl

/-- `file_insert` puts what it reads at the insertion point, and one `undo_pop` restores the text. -/
def ReadUndone (s : Ed) (name : List UInt8) (p : Int) (stSize : Nat) : Prop :=
  (s.fileInsert (some name) p false).2.bytes =
      s.bytes.take (s.insertionPoint p - s.text).toNat ++ s.bytesRead p stSize ++
        s.bytes.drop (s.insertionPoint p - s.text).toNat ∧
    (s.fileInsert (some name) p false).2.undoPop.bytes = s.bytes

theorem length_bytesRead : (s.bytesRead p stSize).length = (s.readCount p stSize).toNat := by
  simp [bytesRead]

/-- Popping the object of an empty insertion closes an empty hole. -/
theorem undoPop_emptyInsert {t : Ed} {k : Nat} {rest : List UndoObject} (hf : t.Fits)
    (hq : t.undoQ = 0) (hst : t.undoStack = ⟨k, 0, .ins, []⟩ :: rest) :
    t.undoPop.bytes = t.bytes ↔
      (t.text < t.text + k → t.text + k < t.end_ → t.EvenFrom (t.text + k)) := by
  have hpop : t.undoPop.toBuf =
      (t.textHoleDelete (k + t.text) (k + t.text - 1 + (0 : Nat)) .no).2.toBuf := by
    rw [undoPop_single hq hst rfl, popObject_buf]
    unfold undoApply undoStatus
    dsimp only
    generalize t.textHoleDelete _ _ _ = r
    rfl
  rw [hpop, show (k : Int) + t.text - 1 + (0 : Nat) = t.text + k - 1 by omega, Int.add_comm (k : Int)]
  exact textHoleDelete_back_bytes hf.text_le_end _

/-- Popping the object of a deletion makes the text longer. -/
theorem undoPop_longer {t : Ed} {rest : List UndoObject} (hf : t.Fits) (hq : t.undoQ = 0)
    (hst : t.undoStack = ⟨0, 1, .del, [97]⟩ :: rest) :
    t.undoPop.bytes.length = t.bytes.length + 1 := by
  have htext := textHoleMake_text t (t.text + 0) (1 : Nat)
  have hend := textHoleMake_end t (t.text + 0) (1 : Nat)
  have hle := hf.text_le_end
  have hpop : t.undoPop.text = (t.textHoleMake (t.text + 0) (1 : Nat)).2.text ∧
      t.undoPop.end_ = (t.textHoleMake (t.text + 0) (1 : Nat)).2.end_ := by
    rw [undoPop_single hq hst rfl, popObject_buf]
    exact ⟨rfl, rfl⟩
  rw [Buf.length_bytes, Buf.length_bytes, hpop.1, hpop.2, htext]
  omega

theorem bytesRead_history (p : Int) (stSize : Nat) (st : List UndoObject) :
    ({ s with undoStack := st } : Ed).readCount p stSize = s.readCount p stSize ∧
      ({ s with undoStack := st } : Ed).bytesRead p stSize = s.bytesRead p stSize := by
  unfold bytesRead readCount
  rw [atOpen_history st]
  exact ⟨rfl, rfl⟩

/-- What a read leaves, for every history below it. -/
theorem fileRead_history (h : s.Fits) (hstat : s.env.stat s.env.tick = some stSize)
    (hread : 0 ≤ (s.fileInsert (some name) p false).1) (st : List UndoObject) :
    FileRead { s with undoStack := st } (s.insertionPoint p - s.text).toNat
      (holeSize stSize).toNat (s.bytesRead p stSize)
      (({ s with undoStack := st } : Ed).fileInsert (some name) p false).2 := by
  obtain ⟨hopen, hcount⟩ := fileInsert_nonneg hstat hread
  obtain ⟨hsame, hbytes⟩ := bytesRead_history (s := s) p stSize st
  rw [← hbytes]
  rw [← atOpen_history st] at hopen
  exact (fileInsert_read (s := { s with undoStack := st }) ⟨h.1, h.2⟩ name p false hstat hopen
    (by rw [hsame]; exact hcount)).2

/-- A full read of a file that is not empty is recorded as the insertion it is. -/
theorem FileRead.recorded {s t : Ed} {k n : Nat} {read : List UInt8} (h : FileRead s k n read t)
    (hk : k ≤ s.bytes.length) (hn : read.length = n) (hpos : 0 < n) :
    EditOp.Recorded s (.insert k read false) ⟨k, n, .ins, []⟩ t := by
  have hlen : k + n ≤ t.bytes.length := by
    rw [h.bytes]
    simp only [List.length_append, List.length_take, List.length_drop]
    omega
  refine ⟨?_, rfl, ⟨Int.natCast_nonneg k, hpos, hlen⟩, ?_, h.fits, h.size, h.queue⟩
  · rw [h.stack, if_pos hn]
  · rw [h.bytes, ← hn]
    exact revert_ins s.bytes read hk

/-- **When a file that was read can be taken back**, whatever was recorded before: all of it was
read, and it is not empty or closing an empty hole where it was to go does no harm. -/
theorem fileInsert_undone_iff (h : s.Fits) (hq : s.undoQ = 0)
    (hstat : s.env.stat s.env.tick = some stSize)
    (hread : 0 ≤ (s.fileInsert (some name) p false).1) :
    (∀ st, ReadUndone { s with undoStack := st } name p stSize) ↔
      s.readCount p stSize = holeSize stSize ∧
        (0 < stSize ∨ (s.text < s.insertionPoint p → s.insertionPoint p < s.end_ →
          s.EvenFrom (s.insertionPoint p))) := by
  obtain ⟨h₀, h₁⟩ := insertionPoint_mem h p
  obtain ⟨hopen, hcount⟩ := fileInsert_nonneg hstat hread
  have hfile := fileRead_history h hstat hread
  have hlen : ((s.bytesRead p stSize).length : Int) = s.readCount p stSize := by
    rw [length_bytesRead]
    omega
  have hsize : ((holeSize stSize).toNat : Int) = holeSize stSize := by
    unfold holeSize
    split <;> omega
  have hpos : 0 < stSize ↔ 0 < (holeSize stSize).toNat := by
    rw [← holeSize_pos]
    omega
  have hk : s.text + ((s.insertionPoint p - s.text).toNat : Int) = s.insertionPoint p := by omega
  -- the bytes are right for every history, so all is about the undo
  have hundone : ∀ st, ReadUndone { s with undoStack := st } name p stSize ↔
      (({ s with undoStack := st } : Ed).fileInsert (some name) p false).2.undoPop.bytes =
        s.bytes := by
    intro st
    refine ⟨fun hboth => hboth.2, fun hundo => ⟨?_, hundo⟩⟩
    rw [(bytesRead_history _ _ st).2]
    exact (hfile st).bytes
  simp only [hundone]
  generalize hks : (s.insertionPoint p - s.text).toNat = k at hfile hk
  by_cases hfull : s.readCount p stSize = holeSize stSize
  · by_cases hempty : 0 < stSize
    · refine iff_of_true (fun st => ?_) ⟨hfull, .inl hempty⟩
      have hlength := Buf.length_bytes s.toBuf
      have hle : k ≤ s.bytes.length := by omega
      have hrec := (hfile st).recorded hle (by omega) (by omega)
      exact undoPop_recorded (s := { s with undoStack := st }) hrec ⟨h.1, h.2⟩ hq rfl
    · have hn : (holeSize stSize).toNat = 0 := by omega
      have hpop : ∀ st,
          (({ s with undoStack := st } : Ed).fileInsert (some name) p false).2.undoPop.bytes =
              s.bytes ↔
            (s.text < s.text + k → s.text + k < s.end_ → s.EvenFrom (s.text + k)) := by
        intro st
        have hf := hfile st
        have hst := hf.stack
        rw [if_pos (by omega), hn] at hst
        have hback := undoPop_emptyInsert hf.fits (hf.queue.trans hq) hst
        have hbuf := hf.empty hn
        unfold EvenFrom at hback ⊢
        rw [hbuf] at hback
        exact hback
      simp only [hpop, hk, forall_const]
      refine ⟨fun heven => ⟨hfull, .inr heven⟩, fun hcond => ?_⟩
      exact hcond.2.resolve_left hempty
  · refine iff_of_false (fun hall => ?_) (fun hcond => hfull hcond.1)
    have hf := hfile [⟨0, 1, .del, [97]⟩]
    have hst := hf.stack
    rw [if_neg (by omega)] at hst
    have hlonger := undoPop_longer hf.fits (hf.queue.trans hq) hst
    rw [hall, hf.bytes] at hlonger
    simp only [List.length_append, List.length_take, List.length_drop] at hlonger
    omega

end Read

/-- A file of `n` bytes of which `read` delivers `cnt`, all of them `c`. -/
def Env.reading (n cnt : Nat) (c : UInt8) : Env :=
  { Env.still with
    stat := fun _ => some n
    opened := fun _ => true
    count := fun _ => cnt
    content := fun _ _ => c }

/-- A text of one line, and a file to read. -/
def readingOne (n cnt : Nat) : Ed :=
  { EditOp.holding [97, NL] with env := Env.reading n cnt 98 }

/-- A file of two bytes. -/
theorem fileInsert_undone_two : ReadUndone (readingOne 2 2) [102] 4097 2 := by
  have hundone : (∀ st, ReadUndone { readingOne 2 2 with undoStack := st } [102] 4097 2) ↔ _ :=
    fileInsert_undone_iff ⟨by decide, by decide⟩ rfl rfl (by decide)
  exact hundone.mpr ⟨by decide, .inl (by decide)⟩ []

/-- An empty file between two lines: the undo deletes in front of where it was to go. -/
theorem fileInsert_undo_shifts :
    ¬ ∀ (s : Ed) (name : List UInt8) (p : Int) (stSize : Nat), s.Fits → s.undoQ = 0 →
      s.undoStack = [] → s.env.stat s.env.tick = some stSize →
      0 ≤ (s.fileInsert (some name) p false).1 → ReadUndone s name p stSize := by
  intro h
  have hbad := (h { EditOp.holding [97, 98, NL, 99, 100, NL] with env := Env.reading 0 0 0 } [102]
    4099 0 ⟨by decide, by decide⟩ rfl rfl rfl (by decide)).2
  revert hbad
  decide +kernel

end Ed

end Evim
