import Ewokos.Evim.RangeDelete
import Ewokos.Lib.Replace

/-!
# evim: substituting in a range of lines

* `charSearch_leftmost` — the search on a line finds the leftmost match.
* `Grouped` — the objects pushed since a state are one group for `u`, and lead back to its bytes.
* `Replacing` — one line while its matches are replaced; `Replacing.hit` is one replacement,
  `substLoop_line` the loop on a line, `substLines_lines` the loop over the lines.

Main result: `substitute_replaced`.
-/

set_option autoImplicit false

namespace Evim

open Cells UndoLog Runs Replace
open CString hiding strchr

/-! ## Lines inside the text -/

namespace Buf

variable {s : Buf} {pre mid post : List UInt8}

/-- A part of the text, by its address. -/
theorem slice_of_bytes (h : s.bytes = pre ++ mid ++ post) :
    slice s.mem (s.text + pre.length) mid.length = mid := by
  have hlen := s.length_bytes
  rw [h] at hlen
  simp only [List.length_append] at hlen
  have hdrop : slice s.mem (s.text + pre.length) (mid.length + post.length) = mid ++ post := by
    have hall : slice s.mem s.text (s.end_ - s.text).toNat = pre ++ (mid ++ post) := by
      rw [← List.append_assoc]
      exact h
    have := drop_slice s.mem s.text (k := pre.length) (n := (s.end_ - s.text).toNat) (by omega)
    rw [hall, List.drop_left' rfl] at this
    rw [this]
    congr 1
    omega
  have htake := take_slice s.mem (s.text + pre.length) (k := mid.length)
    (n := mid.length + post.length) (by omega)
  rw [hdrop, List.take_left' rfl] at htake
  exact htake.symm

theorem newline_of_bytes (h : s.bytes = pre ++ mid ++ NL :: post) :
    s.mem (s.text + pre.length + mid.length) = NL := by
  have hone := s.slice_of_bytes (show s.bytes = pre ++ mid ++ [NL] ++ post by rw [h]; simp)
  rw [List.length_append, List.length_singleton, slice_succ, slice_zero] at hone
  rw [Int.add_assoc, ← Int.natCast_add]
  exact (List.cons.inj hone).1

/-- The line ends at its newline. -/
theorem endLine_of_bytes (h : s.bytes = pre ++ mid ++ NL :: post) (hmid : NL ∉ mid) :
    s.endLine (s.text + pre.length) = s.text + pre.length + mid.length := by
  have hlen := s.length_bytes
  rw [h] at hlen
  simp only [List.length_append, List.length_cons] at hlen
  have hline := s.slice_of_bytes h
  have hnl := s.newline_of_bytes h
  have hle : s.endLine (s.text + pre.length) ≤ s.text + pre.length + mid.length :=
    s.endLine_le_stop (by omega) (.inl hnl)
  have hge := s.le_endLine (s.text + pre.length)
  by_contra hne
  have hstop := s.endLine_stop (p := s.text + pre.length) (by omega)
  rcases hstop with hstop | hstop
  · refine hmid ?_
    rw [← hline, mem_slice]
    exact ⟨(s.endLine (s.text + pre.length) - (s.text + pre.length)).toNat, by omega, by
      rw [← hstop]
      congr 1
      omega⟩
  · omega

/-- The next line starts behind it, if there is one. -/
theorem nextLine_of_bytes (h : s.bytes = pre ++ mid ++ NL :: post) (hmid : NL ∉ mid) :
    s.nextLine (s.text + pre.length) =
      s.text + pre.length + mid.length + if post = [] then 0 else 1 := by
  have hend := s.endLine_of_bytes h hmid
  have hlen := s.length_bytes
  rw [h] at hlen
  simp only [List.length_append, List.length_cons] at hlen
  have hnl := s.newline_of_bytes h
  unfold nextLine
  dsimp only
  rw [hend]
  by_cases hpost : post = []
  · subst hpost
    simp only [List.length_nil] at hlen
    rw [if_neg (by omega), if_pos rfl, Int.add_zero]
  · have hpos := List.length_pos_of_ne_nil hpost
    rw [if_pos ⟨by omega, hnl⟩, if_neg hpost]

end Buf

namespace Ed

/-! ## The search on a line -/

/-- How `mycmp` compares bytes. -/
def foldCase (s : Ed) (c : UInt8) : UInt8 := if s.ignorecase then tolower c else c

theorem tolower_newline {c : UInt8} (h : tolower c = NL) : c = NL := by
  unfold tolower at h
  split at h
  · rename_i hup
    simp only [Bool.and_eq_true, decide_eq_true_eq, UInt8.le_iff_toNat_le] at hup
    have hsum : (c + 32).toNat = 10 := by
      rw [h]
      rfl
    rw [UInt8.toNat_add] at hsum
    have h₁ : 65 ≤ c.toNat := hup.1
    have h₂ : c.toNat ≤ 90 := hup.2
    have h₃ : (32 : UInt8).toNat = 32 := rfl
    omega
  · exact h

theorem foldCase_newline (s : Ed) {pat : List UInt8} (hnl : NL ∉ pat) :
    s.foldCase NL ∉ pat.map s.foldCase := by
  have hself : s.foldCase NL = NL := by
    unfold foldCase
    split <;> rfl
  rw [hself]
  intro h
  obtain ⟨c, hc, hfold⟩ := List.mem_map.mp h
  unfold foldCase at hfold
  split at hfold
  · rw [tolower_newline hfold] at hc
    exact hnl hc
  · rw [hfold] at hc
    exact hnl hc

theorem mycmp_slice (s : Ed) (p : Int) (pat : List UInt8) :
    s.mycmp p pat = ((slice s.mem p pat.length).map s.foldCase == pat.map s.foldCase) := by
  unfold mycmp
  dsimp only
  cases hic : s.ignorecase with
  | true =>
    have hfold : s.foldCase = tolower := by
      funext c
      simp [foldCase, hic]
    rw [hfold]
    rfl
  | false =>
    have hfold : s.foldCase = id := by
      funext c
      simp [foldCase, hic]
    rw [hfold, List.map_id, List.map_id]
    simp

/-- In front of a newline `mycmp` sees the line only. -/
theorem mycmp_line {s : Ed} {p : Int} {pat c : List UInt8} (hnl : NL ∉ pat)
    (hline : slice s.mem p (c.length + 1) = c ++ [NL]) :
    s.mycmp p pat = starts s.foldCase pat c := by
  have hmore : slice s.mem p (c.length + 1 + pat.length) =
      c ++ NL :: slice s.mem (p + (c.length + 1 : Nat)) pat.length := by
    rw [slice_add, hline, List.append_assoc]
    rfl
  have htake := take_slice s.mem p (k := pat.length) (n := c.length + 1 + pat.length) (by omega)
  rw [hmore] at htake
  rw [mycmp_slice, ← htake]
  exact starts_append (s.foldCase_newline hnl) c _

/-- The forward loop over a line, with or without its newline. -/
theorem searchForward_leftmost {s : Ed} {pat : List UInt8} (hnl : NL ∉ pat) (hpat : pat ≠ []) :
    ∀ (c : List UInt8) {p : Int} {n : Nat}, slice s.mem p (c.length + 1) = c ++ [NL] →
      c.length ≤ n → n ≤ c.length + 1 →
      s.searchForward pat n p = (leftmost s.foldCase pat c).map fun j : Nat => p + j
  | [], p, n, hline, _, hn => by
    have hno : s.mycmp p pat = false := by
      rw [mycmp_line hnl hline]
      by_contra hyes
      have := length_of_starts (by simpa using hyes)
      exact hpat (List.length_eq_zero_iff.mp (by simpa using this))
    have hcases : n = 0 ∨ n = 1 := by simp at hn; omega
    rcases hcases with rfl | rfl
    · rfl
    · simp [searchForward, hno, leftmost]
  | a :: c, p, n, hline, hlo, hhi => by
    obtain ⟨m, rfl⟩ : ∃ m, n = m + 1 := ⟨n - 1, by simp at hlo; omega⟩
    have hcmp := mycmp_line hnl hline
    have htail : slice s.mem (p + 1) (c.length + 1) = c ++ [NL] := by
      rw [List.length_cons, slice_succ, List.cons_append] at hline
      exact (List.cons.inj hline).2
    have ih := searchForward_leftmost hnl hpat c (p := p + 1) (n := m) htail
      (by simpa using hlo) (by simpa using hhi)
    unfold searchForward leftmost
    rw [hcmp, ih]
    split
    · simp
    · rw [Option.map_map]
      congr 1
      funext j
      simp only [Function.comp_apply]
      push_cast
      omega

/-- **The search of `:s`**: from `q` to the end of the line, for the leftmost match. -/
theorem charSearch_leftmost {s : Ed} {pat pre c post : List UInt8} (hnl : NL ∉ pat) (hpat : pat ≠ [])
    (h : s.bytes = pre ++ c ++ NL :: post) (hc : NL ∉ c) :
    s.charSearch (s.text + pre.length) pat true false =
      (leftmost s.foldCase pat c).map fun j : Nat => s.text + pre.length + j := by
  have hline := Buf.slice_of_bytes (show s.bytes = pre ++ (c ++ [NL]) ++ post by rw [h]; simp)
  have hnext := Buf.nextLine_of_bytes h hc
  rw [List.length_append, List.length_singleton] at hline
  unfold charSearch
  dsimp only
  rw [if_pos rfl, if_neg (by decide), hnext]
  refine searchForward_leftmost hnl hpat c hline ?_ ?_
  · split <;> omega
  · split <;> omega

/-! ## One group of changes -/

/-- The objects `es` have been pushed since `s` past the queue; they are one group and lead back to
the bytes of `s`. -/
structure Grouped (s : Ed) (es : List UndoObject) (t : Ed) : Prop where
  fits : t.Fits
  queue : t.undoQ = s.undoQ
  stack : t.undoStack = es ++ s.undoStack
  group : es = [] ∨ IsGroup UndoObject.entry es
  ok : StackOk t.textSize es t.bytes
  back : unwind UndoObject.entry es t.bytes = s.bytes

theorem Grouped.start {s : Ed} (hf : s.Fits) : Grouped s [] s := ⟨hf, rfl, rfl, .inl rfl, trivial, rfl⟩

/-- One more change, chained unless it is the first. -/
theorem Grouped.record {s t u : Ed} {es : List UndoObject} {op : EditOp} {e : UndoObject}
    (h : Grouped s es t) (hr : EditOp.Recorded t op e u) (hop : op.chained = true ↔ es ≠ []) :
    Grouped s (e :: es) u := by
  have hlen := t.length_bytes
  have hlt := h.fits.lt_size
  have hle := h.fits.text_le_end
  have hsize := hr.size
  refine ⟨hr.fits, hr.queue.trans h.queue, ?_, .inr ?_, ⟨hr.sound, ?_, ?_⟩, ?_⟩
  · rw [hr.stack, h.stack]
    rfl
  · cases es with
    | nil =>
      have hno : op.chained = false := by simpa using hop
      exact hr.chained.trans hno
    | cons e' es =>
      have hyes : op.chained = true := hop.mpr (by simp)
      exact ⟨hr.chained.trans hyes, h.group.resolve_left (by simp)⟩
  · rw [hr.revert]
    omega
  · rw [hr.revert]
    exact h.ok.mono hsize
  · change unwind UndoObject.entry es (e.entry.change.revert u.bytes) = s.bytes
    rw [hr.revert]
    exact h.back

theorem Grouped.dot {s t : Ed} {es : List UndoObject} (h : Grouped s es t) (d : Int) :
    Grouped s es { t with dot := d } := ⟨⟨h.fits.1, h.fits.2⟩, h.queue, h.stack, h.group, h.ok, h.back⟩

theorem Grouped.looked {s t u : Ed} {es : List UndoObject} (h : Grouped s es t) (hq : s.undoQ = 0)
    (hl : Glanced t u) : Grouped s es u := by
  have hu := hl.toUndos_eq (h.queue.trans hq)
  refine ⟨by rw [hl.buf]; exact h.fits, (congrArg Undos.undoQ hu).trans h.queue,
    (congrArg Undos.undoStack hu).trans h.stack, h.group, ?_, ?_⟩
  · rw [hl.buf]
    exact h.ok
  · rw [hl.bytes]
    exact h.back

/-- `undo_pop` takes a whole group back. -/
theorem undoPopFrom_group : ∀ (es : List UndoObject) {fuel : Nat} {t : Ed} {rest : List UndoObject},
    t.Fits → t.undoQ = 0 → t.undoStack = es ++ rest → IsGroup UndoObject.entry es →
    StackOk t.textSize es t.bytes → es.length ≤ fuel →
    (undoPopFrom fuel t).bytes = unwind UndoObject.entry es t.bytes
  | [], _, _, _, _, _, _, hg, _, _ => hg.elim
  | e :: es, fuel, t, rest, hf, hq, hst, hg, ⟨hsnd, hsize, hok⟩, hfuel => by
    obtain ⟨fuel, rfl⟩ : ∃ n, fuel = n + 1 := ⟨fuel - 1, by simp at hfuel; omega⟩
    have hr := undoApply_reverted hf hsnd hsize
    have hbuf := popObject_buf t e (es ++ rest)
    have hbytes : (t.popObject e (es ++ rest)).bytes = e.entry.change.revert t.bytes := by
      rw [hbuf, hr.bytes]
    rw [undoPopFrom_cons hq hst]
    cases es with
    | nil =>
      rw [if_neg (by rw [show e.entry.chained = false from hg]; decide)]
      exact hbytes
    | cons e' es =>
      obtain ⟨hch, hg⟩ := hg
      have hts : (t.popObject e (e' :: es ++ rest)).textSize = t.textSize := by
        rw [hbuf, hr.textSize]
      rw [if_pos hch]
      have hst' : (t.popObject e (e' :: es ++ rest)).undoStack = e' :: es ++ rest := rfl
      have hfuel' : (e' :: es).length ≤ fuel := by simpa using hfuel
      have ih := undoPopFrom_group (e' :: es) (by rw [hbuf]; exact hr.fits)
        ((t.popObject_sameQueue e (e' :: es ++ rest)).count.trans hq) hst' hg
        (by rw [hts, hbytes]; exact hok) hfuel'
      rw [hbytes] at ih
      exact ih

theorem Grouped.popped {s t : Ed} {es : List UndoObject} (h : Grouped s es t) (hq : s.undoQ = 0)
    (hne : es ≠ []) : t.undoPop.bytes = s.bytes := by
  have hfuel : es.length ≤ t.undoStack.length + 2 := by
    rw [h.stack, List.length_append]
    omega
  have hpop := undoPopFrom_group es h.fits (h.queue.trans hq) h.stack (h.group.resolve_left hne) h.ok
    hfuel
  exact hpop.trans h.back

/-- One `u` behind a group. -/
theorem Grouped.undone {s t u : Ed} {es : List UndoObject} (h : Grouped s es t) (hq : s.undoQ = 0)
    (hes : es ≠ []) (hne : s.bytes ≠ []) (hm : t.cmdMode = .command) (hu : doCmd (key 'u') t = some u) :
    u.bytes = s.bytes := by
  refine doCmd_undo_bytes hm hne (fun v hl => ?_) hu
  exact (h.looked hq hl).popped hq hes

/-! ## One replacement -/

theorem stringInsert_settings (s : Ed) (p : Int) (str : List UInt8) (undo : Undo) :
    (s.stringInsert p str undo).2.cmdMode = s.cmdMode ∧
      (s.stringInsert p str undo).2.toOptions = s.toOptions := by
  unfold stringInsert textHoleMake
  rw [undoPushInsert_eq]
  dsimp only
  split
  · exact ⟨rfl, rfl⟩
  · split <;> exact ⟨rfl, rfl⟩

/-- What a round of `substLoop` does with the match it found. -/
def substHit (s : Ed) (pat rep : List UInt8) (i : Int) (l : Subs) (found : Int) : Int × Subs × Ed :=
  let undo := if l.subs = 0 then Undo.allow else Undo.chain
  let (_, s) := s.textHoleDelete found (found + pat.length - 1) undo
  let (bias, s) := if rep = [] then (0, s) else s.stringInsert found rep .chain
  (found + bias,
    { subs := l.subs + 1
      lastLine := i
      lines := if l.lastLine ≠ i then l.lines + 1 else l.lines
      ls := l.ls + bias },
    { s with dot := l.ls + bias })

theorem substLoop_hit {s : Ed} {pat rep : List UInt8} {global : Bool} {i q found : Int} {l : Subs}
    (n : Nat) (h : s.charSearch q pat true false = some found) :
    substLoop pat rep global i (n + 1) q l s =
      if global = true ∧ (s.substHit pat rep i l found).1 + rep.length <
          (s.substHit pat rep i l found).2.2.endLine (s.substHit pat rep i l found).2.1.ls then
        substLoop pat rep global i n ((s.substHit pat rep i l found).1 + rep.length)
          (s.substHit pat rep i l found).2.1 (s.substHit pat rep i l found).2.2
      else (s.substHit pat rep i l found).2 := by
  rw [substLoop, h]
  rfl

/-- The text is `bs` in the course of a substitution from `s₀` on, and `es` are the objects pushed. -/
structure Substituting (s₀ : Ed) (es : List UndoObject) (l : Subs) (bs : List UInt8) (s : Ed) :
    Prop where
  grouped : Grouped s₀ es s
  bytes : s.bytes = bs
  first : l.subs = 0 ↔ es = []
  nonneg : 0 ≤ l.subs
  cmdMode : s.cmdMode = s₀.cmdMode
  options : s.toOptions = s₀.toOptions

/-- It is at a line between `pre` and `post`. -/
structure Replacing (s₀ : Ed) (es : List UndoObject) (l : Subs) (pre line post : List UInt8)
    (s : Ed) : Prop extends Substituting s₀ es l (pre ++ line ++ NL :: post) s where
  clean : NL ∉ line
  ls : l.ls = s.text + pre.length

variable {s₀ s : Ed} {es : List UndoObject} {l : Subs} {pre post a m c pat rep : List UInt8}

/-- The deletion of a match. -/
theorem Replacing.delete {t : Ed} (h : Replacing s₀ es l pre (a ++ m ++ c) post s) (hm : m ≠ [])
    (ht : (s.textHoleDelete (s.text + (pre ++ a).length)
      (s.text + (pre ++ a).length + m.length - 1) (if l.subs = 0 then .allow else .chain)).2 = t) :
    t.text = s.text ∧ t.cmdMode = s₀.cmdMode ∧ t.toOptions = s₀.toOptions ∧
      t.bytes = pre ++ (a ++ c) ++ NL :: post ∧ ∃ e, Grouped s₀ (e :: es) t := by
  have hpos := List.length_pos_of_ne_nil hm
  have hsplit : s.bytes = (pre ++ a) ++ (m ++ (c ++ NL :: post)) := by
    rw [h.bytes]
    simp
  have hlen := s.length_bytes
  have hsize : s.bytes.length = (pre ++ a).length + (m.length + (c.length + (post.length + 1))) := by
    rw [hsplit]
    simp only [List.length_append, List.length_cons]
  generalize hk : (pre ++ a).length = k at *
  have h₀ : s.text ≤ s.text + k := by omega
  have h₁ : s.text + k ≤ s.text + k + m.length - 1 := by omega
  have h₂ : s.text + k + m.length - 1 < s.end_ := by omega
  have hflag : EditOp.flag (!decide (l.subs = 0)) = if l.subs = 0 then .allow else .chain := by
    by_cases hs : l.subs = 0 <;> simp [EditOp.flag, hs]
  have hin : EditOp.InRange s (.delete k (k + m.length - 1) (!decide (l.subs = 0))) :=
    ⟨by omega, by omega, by omega⟩
  obtain ⟨e, hr⟩ := EditOp.delete_recorded h.grouped.fits hin
  have happly : EditOp.apply s (.delete k (k + m.length - 1) (!decide (l.subs = 0))) = t := by
    rw [← ht, ← hflag,
      show s.text + k + m.length - 1 = s.text + ((k + m.length - 1 : Nat) : Int) by omega]
    rfl
  have hst := textHoleDelete_state s h₀ h₁ h₂ (if l.subs = 0 then .allow else .chain)
  have hby := textHoleDelete_bytes s h₀ h₁ h₂ (if l.subs = 0 then .allow else .chain)
  rw [show (s.text + (k : Int) - s.text).toNat = k by omega,
    show (s.text + (k : Int) + m.length - 1 + 1 - s.text).toNat = k + m.length by omega, hsplit,
    List.take_left' hk, ← List.drop_drop, List.drop_left' hk, List.drop_left' rfl] at hby
  rw [happly] at hr
  rw [ht] at hst hby
  refine ⟨by rw [hst], by rw [hst]; exact h.cmdMode, by rw [hst]; exact h.options, ?_, e,
    h.grouped.record hr ?_⟩
  · rw [hby]
    simp
  · change (!decide (l.subs = 0)) = true ↔ _
    rw [← not_iff_not]
    simpa using h.first

/-- The insertion of the replacement. -/
theorem Grouped.insert {t u : Ed} {e : UndoObject} (hg : Grouped s₀ (e :: es) t)
    (hbytes : t.bytes = pre ++ (a ++ c) ++ NL :: post) (hrep : rep ≠ [])
    (hu : (t.stringInsert (t.text + (pre ++ a).length) rep .chain).2 = u) :
    u.bytes = pre ++ (a ++ rep ++ c) ++ NL :: post ∧ ∃ e', Grouped s₀ (e' :: e :: es) u := by
  have hsplit : t.bytes = (pre ++ a) ++ (c ++ NL :: post) := by
    rw [hbytes]
    simp
  have hlen := t.length_bytes
  have hsize := congrArg List.length hsplit
  have hle := hg.fits.text_le_end
  rw [List.length_append] at hsize
  generalize hk : (pre ++ a).length = k at *
  have hin : EditOp.InRange t (.insert k rep true) := ⟨by omega, hrep⟩
  obtain ⟨e', hr⟩ := EditOp.insert_recorded hg.fits hin
  have happly : EditOp.apply t (.insert k rep true) = u := hu
  have hby := stringInsert_bytes t hg.fits (p := t.text + k) (by omega) (by omega) rep .chain
  rw [show (t.text + (k : Int) - t.text).toNat = k by omega, hsplit, List.take_left' hk,
    List.drop_left' hk, hu] at hby
  rw [happly] at hr
  refine ⟨?_, e', hg.record hr ?_⟩
  · rw [hby]
    simp
  · simp [EditOp.chained]

/-- **Step lemma**: one match is replaced, and nothing else. -/
theorem Replacing.hit (h : Replacing s₀ es l pre (a ++ m ++ c) post s) (hm : m ≠ [])
    (hlen : m.length = pat.length) (hrep : NL ∉ rep) (i : Int) :
    (s.substHit pat rep i l (s.text + (pre ++ a).length)).1 =
        (s.substHit pat rep i l (s.text + (pre ++ a).length)).2.2.text + (pre ++ a).length ∧
      (s.substHit pat rep i l (s.text + (pre ++ a).length)).2.1.subs = l.subs + 1 ∧
      ∃ es', Replacing s₀ es' (s.substHit pat rep i l (s.text + (pre ++ a).length)).2.1 pre
        (a ++ rep ++ c) post (s.substHit pat rep i l (s.text + (pre ++ a).length)).2.2 := by
  have hclean : NL ∉ a ++ rep ++ c := by
    have := h.clean
    simp only [List.mem_append, not_or] at this ⊢
    exact ⟨⟨this.1.1, hrep⟩, this.2⟩
  have hnonneg := h.nonneg
  have hls := h.ls
  unfold substHit
  rw [← hlen]
  obtain ⟨t, ht⟩ : ∃ t, (s.textHoleDelete (s.text + (pre ++ a).length)
    (s.text + (pre ++ a).length + m.length - 1) (if l.subs = 0 then .allow else .chain)).2 = t :=
    ⟨_, rfl⟩
  obtain ⟨htext, hmode, hopts, hbytes, e, hg⟩ := h.delete hm ht
  dsimp only
  rw [ht]
  by_cases hnone : rep = []
  · subst hnone
    rw [if_pos rfl]
    dsimp only
    refine ⟨by rw [htext]; omega, rfl, e :: es, ?_⟩
    refine ⟨⟨hg.dot _, ?_, ?_, ?_, hmode, hopts⟩, hclean, ?_⟩
    · rw [List.append_nil]
      exact hbytes
    · exact iff_of_false (by dsimp only; omega) (by simp)
    · dsimp only
      omega
    · change l.ls + 0 = t.text + _
      omega
  · rw [if_neg hnone]
    obtain ⟨u, hu⟩ : ∃ u, (t.stringInsert (s.text + (pre ++ a).length) rep .chain).2 = u := ⟨_, rfl⟩
    have htext' := stringInsert_text t (s.text + (pre ++ a).length) rep .chain
    have hset := stringInsert_settings t (s.text + (pre ++ a).length) rep .chain
    have hu' := hu
    rw [← htext] at hu'
    obtain ⟨hbytes', e', hg'⟩ := hg.insert hbytes hnone hu'
    rw [hu] at htext' hset ⊢
    generalize (t.stringInsert (s.text + (pre ++ a).length) rep .chain).1 = bias at htext' ⊢
    refine ⟨?_, rfl, e' :: e :: es, ?_⟩
    · omega
    · refine ⟨⟨hg'.dot _, hbytes', ?_, ?_, hset.1.trans hmode,
        hset.2.trans hopts⟩, hclean, ?_⟩
      · exact iff_of_false (by dsimp only; omega) (by simp)
      · dsimp only
        omega
      · change l.ls + bias = u.text + _
        omega

/-! ## One line -/

theorem foldCase_congr (h : s.toOptions = s₀.toOptions) : s.foldCase = s₀.foldCase := by
  funext x
  unfold foldCase
  rw [h]

/-- **The loop on a line**, `a` being dealt with and `c` to come. -/
theorem substLoop_line (all : Bool) (hpat : pat ≠ []) (hnl : NL ∉ pat) (hrep : NL ∉ rep) (i : Int) :
    ∀ (n : Nat) {s : Ed} {es : List UndoObject} {l : Subs} {a c : List UInt8}, c.length < n →
      Replacing s₀ es l pre (a ++ c) post s →
      (substLoop pat rep all i n (s.text + (pre ++ a).length) l s).1.subs =
          l.subs + (replace s₀.foldCase pat rep all c).2 ∧
        ∃ es', Replacing s₀ es' (substLoop pat rep all i n (s.text + (pre ++ a).length) l s).1 pre
          (a ++ (replace s₀.foldCase pat rep all c).1) post
          (substLoop pat rep all i n (s.text + (pre ++ a).length) l s).2
  | 0, _, _, _, _, _, hn, _ => by omega
  | n + 1, s, es, l, a, c, hn, h => by
    have hpos := List.length_pos_of_ne_nil hpat
    have hc : NL ∉ c := fun hm => h.clean (List.mem_append_right _ hm)
    have hsearch := charSearch_leftmost hnl hpat
      (show s.bytes = (pre ++ a) ++ c ++ NL :: post by rw [h.bytes]; simp) hc
    rw [foldCase_congr h.options] at hsearch
    cases hl : leftmost s₀.foldCase pat c with
    | none =>
      rw [hl, Option.map_none] at hsearch
      have hstop : substLoop pat rep all i (n + 1) (s.text + (pre ++ a).length) l s = (l, s) := by
        rw [substLoop, hsearch]
      rw [hstop, replace_none hl]
      exact ⟨by simp, es, h⟩
    | some j =>
      obtain ⟨hj, hyes, -⟩ := leftmost_spec hl
      have hmatch := length_of_starts hyes
      rw [List.length_drop] at hmatch
      rw [hl, Option.map_some] at hsearch
      obtain ⟨m, hm⟩ : ∃ m, (c.drop j).take pat.length = m := ⟨_, rfl⟩
      obtain ⟨r, hr⟩ : ∃ r, c.drop (j + pat.length) = r := ⟨_, rfl⟩
      have hmlen : m.length = pat.length := by
        rw [← hm, List.length_take, List.length_drop]
        omega
      have hsplit : c = c.take j ++ m ++ r := by
        rw [← hm, ← hr, ← List.drop_drop, List.append_assoc, List.take_append_drop,
          List.take_append_drop]
      have hrlen : r.length < n := by
        have := congrArg List.length hsplit
        simp only [List.length_append] at this
        omega
      have hfound : s.text + ((pre ++ a).length : Int) + j =
          s.text + (pre ++ (a ++ c.take j)).length := by
        simp only [List.length_append, List.length_take]
        omega
      have hline : Replacing s₀ es l pre ((a ++ c.take j) ++ m ++ r) post s := by
        have := h
        rw [hsplit] at this
        rw [← List.append_assoc, ← List.append_assoc] at this
        exact this
      rw [hfound] at hsearch
      obtain ⟨hx, hsubs, es', hhit⟩ := hline.hit (List.ne_nil_of_length_pos (by omega)) hmlen hrep i
      rw [substLoop_hit n hsearch, replace_some hpat hl, hr]
      generalize s.substHit pat rep i l (s.text + (pre ++ (a ++ c.take j)).length) = x
        at hx hsubs hhit ⊢
      have hend := Buf.endLine_of_bytes hhit.bytes hhit.clean
      have hgo : x.1 + rep.length < x.2.2.endLine x.2.1.ls ↔ r ≠ [] := by
        rw [hhit.ls, hend, hx, ← List.length_pos_iff]
        simp only [List.length_append]
        omega
      by_cases hmore : all = true ∧ r ≠ []
      · have hgoes := And.intro hmore.1 (hgo.mpr hmore.2)
        have hq : x.1 + rep.length = x.2.2.text + (pre ++ (a ++ c.take j ++ rep)).length := by
          rw [hx]
          simp only [List.length_append]
          omega
        obtain ⟨h₁, es'', h₂⟩ := substLoop_line all hpat hnl hrep i n hrlen hhit
        rw [if_pos hgoes, hq]
        unfold rest
        rw [if_pos hmore.1]
        refine ⟨?_, es'', ?_⟩
        · rw [h₁, hsubs]
          push_cast
          omega
        · simpa using h₂
      · have hrest : rest s₀.foldCase pat rep all r = (r, 0) := by
          unfold rest
          split
          · rename_i hall
            have hnil : r = [] := by
              by_contra hne
              exact hmore ⟨hall, hne⟩
            rw [hnil, replace_nil]
          · rfl
        rw [if_neg fun hgoes => hmore ⟨hgoes.1, hgo.mp hgoes.2⟩, hrest]
        refine ⟨?_, es', ?_⟩
        · rw [hsubs]
          simp
        · simpa using hhit

/-! ## All lines -/

/-- **The loop over the lines** `ls`, behind `pre` and in front of `post`. -/
theorem substLines_lines (all : Bool) (hpat : pat ≠ []) (hnl : NL ∉ pat) (hrep : NL ∉ rep) :
    ∀ (ls : List (List UInt8)) {s : Ed} {es : List UndoObject} {l : Subs} {i q : Int}
      {pre : List UInt8}, (∀ r ∈ ls, Piece NL r) →
      Substituting s₀ es l (pre ++ ls.flatten ++ post) s → (ls ≠ [] → q = s.text + pre.length) →
      (substLines pat rep all ls.length i q l s).1.subs =
          l.subs + ((ls.map fun c => (replace s₀.foldCase pat rep all c).2).sum : Nat) ∧
        ∃ es', Substituting s₀ es' (substLines pat rep all ls.length i q l s).1
          (pre ++ (ls.map fun c => (replace s₀.foldCase pat rep all c).1).flatten ++ post)
          (substLines pat rep all ls.length i q l s).2
  | [], s, es, l, i, q, pre, _, h, _ => ⟨by simp [substLines], es, h⟩
  | r :: ls, s, es, l, i, q, pre, hpieces, h, hq => by
    obtain ⟨c, rfl, hc⟩ := hpieces r List.mem_cons_self
    obtain rfl := hq (by simp)
    have hbytes : s.bytes = pre ++ ([] ++ c) ++ NL :: (ls.flatten ++ post) := by
      rw [h.bytes]
      simp
    have hlen := s.length_bytes
    have hsize := congrArg List.length hbytes
    simp only [List.length_append, List.length_cons, List.length_nil] at hsize
    have hline : Replacing s₀ es { l with ls := s.text + pre.length } pre ([] ++ c)
        (ls.flatten ++ post) s :=
      ⟨⟨h.grouped, hbytes, h.first, h.nonneg, h.cmdMode, h.options⟩, hc, rfl⟩
    have hloop := substLoop_line all hpat hnl hrep i
      ((s.end_ - (s.text + pre.length)).toNat + 1) (by omega) hline
    rw [List.append_nil, List.nil_append] at hloop
    have hstep : substLines pat rep all ((c ++ [NL]) :: ls).length i (s.text + pre.length) l s =
        substLines pat rep all ls.length (i + 1)
          ((substLoop pat rep all i ((s.end_ - (s.text + pre.length)).toNat + 1)
            (s.text + pre.length) { l with ls := s.text + pre.length } s).2.nextLine
              (substLoop pat rep all i ((s.end_ - (s.text + pre.length)).toNat + 1)
                (s.text + pre.length) { l with ls := s.text + pre.length } s).1.ls)
          (substLoop pat rep all i ((s.end_ - (s.text + pre.length)).toNat + 1)
            (s.text + pre.length) { l with ls := s.text + pre.length } s).1
          (substLoop pat rep all i ((s.end_ - (s.text + pre.length)).toNat + 1)
            (s.text + pre.length) { l with ls := s.text + pre.length } s).2 := rfl
    rw [hstep]
    generalize substLoop pat rep all i ((s.end_ - (s.text + pre.length)).toNat + 1)
      (s.text + pre.length) { l with ls := s.text + pre.length } s = x at hloop ⊢
    obtain ⟨hsubs, es', hx⟩ := hloop
    have hnext := Buf.nextLine_of_bytes hx.bytes hx.clean
    have hrest : Substituting s₀ es' x.1 (pre ++ ((replace s₀.foldCase pat rep all c).1 ++ [NL]) ++
        ls.flatten ++ post) x.2 := by
      refine ⟨hx.grouped, ?_, hx.first, hx.nonneg, hx.cmdMode, hx.options⟩
      rw [hx.bytes]
      simp
    have ih := substLines_lines all hpat hnl hrep ls (i := i + 1)
      (q := x.2.nextLine x.1.ls) (fun r hr => hpieces r (List.mem_cons_of_mem _ hr)) hrest
      fun hne => by
        have hpost : ls.flatten ++ post ≠ [] := by
          obtain ⟨r, ls', rfl⟩ := List.exists_cons_of_ne_nil hne
          obtain ⟨d, rfl, -⟩ := hpieces r (by simp)
          simp
        rw [hx.ls, hnext, if_neg hpost]
        simp only [List.length_append, List.length_singleton]
        push_cast
        omega
    have hpiece : replace s₀.foldCase pat rep all (c ++ [NL]) =
        ((replace s₀.foldCase pat rep all c).1 ++ [NL], (replace s₀.foldCase pat rep all c).2) :=
      replace_concat (s₀.foldCase_newline hnl) hpat c
    obtain ⟨h₁, es'', h₂⟩ := ih
    simp only [List.map_cons, List.sum_cons, List.flatten_cons, hpiece]
    refine ⟨?_, es'', ?_⟩
    · rw [h₁, hsubs]
      push_cast
      omega
    · simpa using h₂

/-! ## The command -/

/-- The text of the command behind its addresses. -/
def substText (pat rep : List UInt8) (all : Bool) : List UInt8 :=
  chr 's' :: chr '/' :: (pat ++ chr '/' :: (rep ++ chr '/' :: if all then [chr 'g'] else []))

theorem takeWhile_delimiter {f rest : List UInt8} (h : chr '/' ∉ f) :
    (f ++ chr '/' :: rest).takeWhile (· != chr '/') = f := by
  rw [List.takeWhile_append_of_pos, List.takeWhile_cons_of_neg (by decide), List.append_nil]
  intro x hx
  rw [bne_iff_ne]
  rintro rfl
  exact h hx

/-- The fields are cut out as they were written. -/
theorem substFields_text {all : Bool} (hpat : chr '/' ∉ pat) (hrep : chr '/' ∉ rep) :
    substFields (substText pat rep all) = some (pat, rep, all) := by
  have hskip : ∀ f rest : List UInt8, (f ++ chr '/' :: rest).drop (f.length + 1) = rest := by
    intro f rest
    rw [← List.drop_drop, List.drop_left' rfl, List.drop_one, List.tail_cons]
  have hcut : ∀ rest : List UInt8, substFields (chr 's' :: chr '/' :: rest) =
      if (rest.takeWhile (· != chr '/')).length = rest.length then none
      else
        let rest' := rest.drop ((rest.takeWhile (· != chr '/')).length + 1)
        let rep' := rest'.takeWhile (· != chr '/')
        some (rest.takeWhile (· != chr '/'), rep',
          decide ((rest'.drop (rep'.length + 1)).headD 0 = chr 'g')) :=
    fun _ => rfl
  unfold substText
  rw [hcut, takeWhile_delimiter hpat, if_neg (by simp), hskip]
  dsimp only
  rw [takeWhile_delimiter hrep, hskip]
  cases all <;> rfl

/-- The command word is none of the words, and starts with an `s`. -/
theorem colonCommand_subst (s : Ed) (rest : List UInt8) (t : Target) :
    s.colonCommand (chr 's' :: chr '/' :: rest) t =
      some (s.colonSubst (chr 's' :: chr '/' :: rest) t) := by
  obtain ⟨w, args, useforce, hsplit⟩ : ∃ w args useforce,
      splitCmd (chr 's' :: chr '/' :: rest) = (chr 's' :: chr '/' :: w, args, useforce) := by
    unfold splitCmd
    dsimp only
    rw [List.takeWhile_cons_of_pos (by decide), List.takeWhile_cons_of_pos (by decide)]
    generalize rest.takeWhile (fun c => !isspace c) = w
    split
    · rename_i hlast
      cases w with
      | nil => exact absurd hlast (by decide)
      | cons c w => exact ⟨_, _, _, rfl⟩
    · exact ⟨_, _, _, rfl⟩
  unfold colonCommand
  rw [hsplit]
  rfl

/-- The loops of `:b,es/pat/rep/`. -/
def substRun (s : Ed) (b e : Nat) (pat rep : List UInt8) (all : Bool) : Subs × Ed :=
  substLines pat rep all (e + 1 - b) b (s.text + s.lineOffset (b - 1))
    ⟨0, 0, 0, s.text + s.lineOffset (b - 1)⟩ { s with lastSearchPattern := chr '/' :: pat }

/-- What `:s` does on a range. -/
theorem colonSubst_range {b e : Nat} (all : Bool) {r : Int} (hpat : chr '/' ∉ pat)
    (hrep : chr '/' ∉ rep) (hne : pat ≠ []) :
    ∃ v, s.colonSubst (substText pat rep all) ⟨⟨b, e, 3⟩, s.text + s.lineOffset (b - 1), r⟩ =
        (true, v) ∧ Glanced (s.substRun b e pat rep all).2 v := by
  have hrounds : ((e : Int) - b + 1).toNat = e + 1 - b := by omega
  unfold colonSubst
  rw [substFields_text hpat hrep]
  dsimp only
  rw [if_neg fun h => hne h.1, if_pos hne]
  simp only [Target.gotAddress, Target.gotRange, Nat.reduceMod, beq_self_eq_true, Bool.not_true,
    Bool.false_eq_true, if_false, List.drop_succ_cons, List.drop_zero, hrounds]
  change ∃ v, (if (s.substRun b e pat rep all).1.subs = 0 then _ else _) = _ ∧ _
  split
  · exact ⟨_, rfl, statusLineBold_looked _ _⟩
  · split
    · exact ⟨_, rfl, (dotSkipOverWs_looked _).trans (statusLine_looked _ _)⟩
    · exact ⟨_, rfl, dotSkipOverWs_looked _⟩

/-- How many replacements there are to make in the lines `b` to `e`. -/
def replacements (s : Ed) (b e : Nat) (pat rep : List UInt8) (all : Bool) : Nat :=
  (((s.lines.take e).drop (b - 1)).map fun l => (replace s.foldCase pat rep all l).2).sum

/-- The lines when they are made. -/
def replacedLines (s : Ed) (b e : Nat) (pat rep : List UInt8) (all : Bool) : List (List UInt8) :=
  s.lines.take (b - 1) ++
    ((s.lines.take e).drop (b - 1)).map (fun l => (replace s.foldCase pat rep all l).1) ++
    s.lines.drop e

/-- The loops on a range. -/
theorem substRun_lines {s : Ed} (hf : s.Fits) (hnl : s.bytes.getLast? = some NL)
    {b e : Nat} (hbe : b ≤ e) (hb : 1 ≤ b) (he : e ≤ s.lines.length) (all : Bool) (hne : pat ≠ [])
    (hpat : NL ∉ pat) (hrep : NL ∉ rep) :
    (s.substRun b e pat rep all).1.subs = s.replacements b e pat rep all ∧
      ∃ es, Substituting { s with lastSearchPattern := chr '/' :: pat } es
        (s.substRun b e pat rep all).1 (s.replacedLines b e pat rep all).flatten
        (s.substRun b e pat rep all).2 := by
  obtain ⟨s', hs'⟩ : ∃ s' : Ed, { s with lastSearchPattern := chr '/' :: pat } = s' := ⟨_, rfl⟩
  have hbuf : s'.toBuf = s.toBuf := by rw [← hs']
  have hfold : s'.foldCase = s.foldCase := foldCase_congr (by rw [← hs'])
  have hsplit : s.bytes = (s.lines.take (b - 1)).flatten ++
      ((s.lines.take e).drop (b - 1)).flatten ++ (s.lines.drop e).flatten := by
    have htake : s.lines.take (b - 1) = (s.lines.take e).take (b - 1) := by
      rw [List.take_take, Nat.min_eq_left (by omega)]
    rw [htake, ← List.flatten_append, List.take_append_drop]
    exact s.bytes_lines e
  have hlen : ((s.lines.take e).drop (b - 1)).length = e + 1 - b := by
    rw [List.length_drop, List.length_take]
    omega
  have hstart : Substituting s' [] ⟨0, 0, 0, s.text + s.lineOffset (b - 1)⟩ s'.bytes s' := by
    refine ⟨Grouped.start ?_, rfl, by simp, le_refl 0, rfl, rfl⟩
    rw [hbuf]
    exact hf
  rw [show s'.bytes = s.bytes from congrArg Buf.bytes hbuf, hsplit] at hstart
  have hrun := substLines_lines all hne hpat hrep ((s.lines.take e).drop (b - 1)) (i := b)
    (q := s.text + s.lineOffset (b - 1))
    (fun r hr => Buf.lines_pieces hnl r (List.mem_of_mem_take (List.mem_of_mem_drop hr))) hstart
    fun _ => by
      rw [show s'.text = s.text from congrArg Buf.text hbuf]
      rfl
  rw [hlen, hfold, Int.zero_add] at hrun
  have heq : s.substRun b e pat rep all = substLines pat rep all (e + 1 - b) b
      (s.text + s.lineOffset (b - 1)) ⟨0, 0, 0, s.text + s.lineOffset (b - 1)⟩ s' := by
    rw [← hs']
    rfl
  rw [heq, hs']
  unfold replacements replacedLines
  rw [List.flatten_append, List.flatten_append]
  exact hrun

/-- The replaced lines are lines. -/
theorem replacedLines_pieces {s : Ed} (hnl : s.bytes.getLast? = some NL) {b e : Nat} (all : Bool)
    (hne : pat ≠ []) (hpat : NL ∉ pat) (hrep : NL ∉ rep) :
    ∀ r ∈ s.replacedLines b e pat rep all, Piece NL r := by
  have hpieces := Buf.lines_pieces hnl
  intro r hr
  unfold replacedLines at hr
  rcases List.mem_append.mp hr with hr | hr
  · rcases List.mem_append.mp hr with hr | hr
    · exact hpieces r (List.mem_of_mem_take hr)
    · obtain ⟨l, hl, rfl⟩ := List.mem_map.mp hr
      obtain ⟨c, rfl, hc⟩ := hpieces l (List.mem_of_mem_take (List.mem_of_mem_drop hl))
      rw [replace_concat (s.foldCase_newline hpat) hne]
      refine ⟨_, rfl, fun hmem => ?_⟩
      rcases mem_replaceFrom hmem with h | h
      · exact hc h
      · exact hrep h
  · exact hpieces r (List.mem_of_mem_drop hr)

/-- What the command `:b,es/pat/rep/` and one `u` behind it do. -/
structure Substituted (s : Ed) (b e : Nat) (pat rep : List UInt8) (all : Bool) (t : Ed) : Prop where
  lines : t.lines = s.replacedLines b e pat rep all
  /-- `subs` at the end of the loops that `colon` runs -/
  subs : ∃ s₁ v, Looked s s₁ ∧
    s₁.colon (str ":" ++ dec b ++ str "," ++ dec e ++ substText pat rep all) = some v ∧
    Looked (s₁.substRun b e pat rep all).2 v ∧ Looked v t ∧
    (s₁.substRun b e pat rep all).1.subs = s.replacements b e pat rep all
  undone : s.replacements b e pat rep all ≠ 0 → ∀ u, doCmd (key 'u') t = some u → u.bytes = s.bytes

/-- **Substituting in a range of lines.**  `:b,es/pat/rep/` replaces the leftmost match in each line,
with a `g` all of them; nothing else changes, and one `u` takes it back unless something was queued
before. -/
theorem substitute_replaced {s t : Ed} {b e : Nat} {pat rep : List UInt8} {all : Bool} (hf : s.Fits)
    (hsize : s.textSize ≤ 2147483647) (hnl : s.bytes.getLast? = some NL)
    (hq : s.undoQ = 0 ∨ s.replacements b e pat rep all = 0)
    (hm : s.cmdMode = .command) (hb : 1 ≤ b) (hbe : b ≤ e) (he : e ≤ s.lines.length) (hne : pat ≠ [])
    (hpat : NL ∉ pat ∧ chr '/' ∉ pat) (hrep : NL ∉ rep ∧ chr '/' ∉ rep)
    (typed : s.TypesLine (str ":" ++ dec b ++ str "," ++ dec e ++ substText pat rep all))
    (run : doCmd (key ':') s = some t) : Substituted s b e pat rep all t := by
  have hlen := s.length_bytes
  have hlt := hf.lt_size
  obtain ⟨s₁, v, w, o, hl, -, hcolon, hstatus, ht⟩ := doCmd_colon hm typed run
  have hbuf := hl.buf
  have hbytes := hl.bytes
  have hlines : s₁.lines = s.lines := by rw [hbuf]
  have hfold : s₁.foldCase = s.foldCase := foldCase_congr hl.options
  have hrepl : s₁.replacedLines b e pat rep all = s.replacedLines b e pat rep all := by
    unfold replacedLines
    rw [hlines, hfold]
  have hcount : s₁.replacements b e pat rep all = s.replacements b e pat rep all := by
    unfold replacements
    rw [hlines, hfold]
  have hcmd : StartsCommand (head (substText pat rep all)) :=
    show StartsCommand (chr 's') from
      ⟨⟨by decide, by decide, by decide, by decide⟩, by decide, by decide⟩
  obtain ⟨hsubs, es, hrun⟩ := substRun_lines (s := s₁) (by rw [hbuf]; exact hf)
    (by rw [hbytes]; exact hnl) hbe hb (by rw [hlines]; exact he) all hne hpat.1 hrep.1
  rw [hrepl] at hrun
  rw [hcount] at hsubs
  have hcolon' := hcolon
  rw [colon_addressed (by rw [hbytes]; exact hnl) (by rw [hbytes]; omega) hb hbe
    (by rw [hlines]; exact he) hcmd] at hcolon'
  obtain ⟨x, hx, hlx⟩ := s₁.colonSubst_range (b := b) (e := e) all
    (r := s₁.text + s₁.lineOffset e - 1) hpat.2 hrep.2 hne
  have hsubst : ∀ T : Target, s₁.colonCommand (substText pat rep all) T =
      some (s₁.colonSubst (substText pat rep all) T) := s₁.colonCommand_subst _
  rw [hsubst, hx, Option.bind_some, if_pos rfl] at hcolon'
  have hlv := hlx.trans (boundHere_looked hcolon')
  have hpieces := replacedLines_pieces hnl (b := b) (e := e) all hne hpat.1 hrep.1
  have hsome : s.replacedLines b e pat rep all ≠ [] := List.ne_nil_of_length_pos (by
    unfold replacedLines
    simp only [List.length_append, List.length_map, List.length_drop, List.length_take]
    omega)
  have hlw := hlv.trans (showStatusLine_looked hstatus)
  obtain ⟨hwlines, hne'⟩ := Buf.lines_of_pieces (hlw.bytes.trans hrun.bytes) hpieces hsome
  have hlt := epilogue_looked hne' ht
  have hlook := hlw.trans hlt
  refine ⟨?_, ⟨s₁, v, hl.toLooked, hcolon, hlv.toLooked,
    ((showStatusLine_looked hstatus).trans hlt).toLooked, hsubs⟩, ?_⟩
  · rw [hlt.buf]
    exact hwlines
  · intro hcount' u hu
    have hes : es ≠ [] := fun h => hcount' (by
      have := hrun.first.mpr h
      omega)
    have hbytes' : ({ s₁ with lastSearchPattern := chr '/' :: pat } : Ed).bytes = s.bytes := hbytes
    have hmode : t.cmdMode = .command :=
      hlook.cmdMode.trans (hrun.cmdMode.trans (hl.cmdMode.trans hm))
    have hq₀ := hq.resolve_right hcount'
    have hq₁ : s₁.undoQ = 0 := (congrArg Undos.undoQ (hl.toUndos_eq hq₀)).trans hq₀
    exact ((hrun.grouped.looked hq₁ hlook).undone hq₁ hes 
      (by rw [hbytes']; exact Buf.ne_nil_of_newline hnl) hmode hu).trans hbytes'

/-- Two lines, with `:1,2s/a/ba/g` to come. -/
def twoMatches : Ed :=
  { EditOp.holding [97, 97, NL, 98, NL] with
    rows := 24
    columns := 80
    tabstop := 8
    env := { Env.still with
      keys := ['1', ',', '2', 's', '/', 'a', '/', 'b', 'a', '/', 'g', '\n'].map fun c =>
        ⟨key c, false⟩ } }

/-- `:1,2s/a/ba/g` on a line with two matches and a line without one. -/
theorem substitute_replaced_all : ∃ t, doCmd (key ':') twoMatches = some t ∧
    Substituted twoMatches 1 2 [97] [98, 97] true t := by
  have hrun : (doCmd (key ':') twoMatches).isSome := by decide +kernel
  obtain ⟨t, ht⟩ := Option.isSome_iff_exists.mp hrun
  refine ⟨t, ht, substitute_replaced ⟨by decide, by decide⟩ (by decide) (by decide) (.inl rfl) rfl
    (Nat.le_refl 1) (by decide) (by decide +kernel) (by decide) (by decide) (by decide) (.of_map ?_) ht⟩
  decide +kernel

/-- Behind `o` and ESC on a line with a tab the removed tab is still queued: `u` puts it back and
leaves the replacement. -/
theorem substitute_queued :
    ¬ ∀ (r s t : Ed) (b e : Nat) (pat rep : List UInt8) (all : Bool), r.Loaded →
      (doCmd (key 'o') r).bind (doCmd 27) = some s → s.Fits → s.textSize ≤ 2147483647 →
      s.bytes.getLast? = some NL → s.cmdMode = .command → 1 ≤ b → b ≤ e → e ≤ s.lines.length →
      pat ≠ [] → NL ∉ pat ∧ chr '/' ∉ pat → NL ∉ rep ∧ chr '/' ∉ rep → 0 ∉ pat → 0 ∉ rep →
      s.TypesLine (str ":" ++ dec b ++ str "," ++ dec e ++ substText pat rep all) →
      doCmd (key ':') s = some t → Substituted s b e pat rep all t := by
  intro h
  obtain ⟨r, hr⟩ : ∃ r, tabLine ['1', ',', '1', 's', '/', 'a', '/', 'b', '/', '\n'] = r := ⟨_, rfl⟩
  have h₁ : ((doCmd (key 'o') r).bind (doCmd 27)).isSome := by
    rw [← hr]
    decide +kernel
  have h₂ : ∀ s ∈ (doCmd (key 'o') r).bind (doCmd 27), (s.text ≤ s.end_ ∧ s.end_ - s.text < s.textSize ∧
      s.textSize ≤ 2147483647 ∧ s.bytes = [9, 97, NL, NL] ∧ s.cmdMode = .command ∧
      s.lines.length = 2 ∧ s.replacements 1 1 [97] [98] false = 1) ∧
      (s.statusOff.bind fun s₀ =>
        ({ s₀ with viVisual := false } : Ed).getInputLine (str ":")).map Prod.fst =
          some (str ":1,1s/a/b/") ∧
      (doCmd (key ':') s).isSome ∧ ∀ t ∈ doCmd (key ':') s, (doCmd (key 'u') t).isSome ∧
        ∀ u ∈ doCmd (key 'u') t, u.bytes = [9, 98, NL, 9, NL] := by
    rw [← hr]
    decide +kernel
  obtain ⟨s, hs⟩ := Option.isSome_iff_exists.mp h₁
  obtain ⟨⟨hle, hlt, hsize, hbytes, hmode, hlines, hcount⟩, hline, hrun, h₃⟩ := h₂ s hs
  obtain ⟨t, ht⟩ := Option.isSome_iff_exists.mp hrun
  obtain ⟨hundo, hbad⟩ := h₃ t ht
  obtain ⟨u, hu⟩ := Option.isSome_iff_exists.mp hundo
  have hloaded : r.Loaded := by
    rw [← hr]
    exact tabLine_loaded _
  have hgood := h r s t 1 1 [97] [98] false hloaded hs ⟨hle, hlt⟩ hsize (by rw [hbytes]; rfl) hmode
    (Nat.le_refl 1) (Nat.le_refl 1) (by omega) (by decide) (by decide) (by decide) (by decide)
    (by decide) (.of_map hline) ht
  have := hgood.undone (by rw [hcount]; decide) u hu
  rw [hbad u hu, hbytes] at this
  exact absurd this (by decide)

end Ed

end Evim
