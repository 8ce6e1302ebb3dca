import Ewokos.Evim.FileRead

/-!
# evim: where `:r` puts a file

`:Nr file` looks for the start of line `N + 1` with `next_line` and takes a result of `end - 1` for
"line `N` is the last one".  An empty last line starts at `end - 1` too.

Main result: `colonRead_after_iff`.
-/

set_option autoImplicit false

namespace Evim

open Cells Runs
open CString hiding strchr

/-- `stat`, `open` and `read` find the bytes of `file`. -/
structure Env.Holds (e : Env) (file : List UInt8) : Prop where
  stat : ∀ t, e.stat t = some file.length
  opened : ∀ t, e.opened t = true
  count : ∀ t, e.count t = file.length
  content : ∀ t i (h : i < file.length), e.content t i = file[i]
  size : file.length < 0x7fffffff

namespace Ed

variable {s : Ed} {file name : List UInt8}

/-! ## Reading all of a file -/

theorem bytesRead_holds (h : s.env.Holds file) (p : Int) :
    s.readCount p file.length = file.length ∧ s.bytesRead p file.length = file := by
  obtain ⟨k, hk⟩ : ∃ k, (s.atOpen p file.length).env = { s.env with tick := k } := by
    unfold atOpen
    rw [textHoleMake_env]
    split
    · exact ⟨_, rfl⟩
    · exact ⟨_, rfl⟩
  have hcount : s.readCount p file.length = file.length := by
    unfold readCount holeSize
    rw [hk, if_pos (by have := h.size; omega)]
    simp only [h.count, Int.min_self]
  refine ⟨hcount, ?_⟩
  unfold bytesRead
  rw [hcount, hk, Int.toNat_natCast]
  refine List.ext_getElem (by simp) fun i h₁ h₂ => ?_
  simp only [List.getElem_map, List.getElem_range]
  exact h.content _ i h₂

theorem fileInsert_holds (hf : s.Fits) (h : s.env.Holds file) (name : List UInt8) (p : Int)
    (initial : Bool) :
    (s.fileInsert (some name) p initial).1 = file.length ∧
      (s.fileInsert (some name) p initial).2.bytes =
        s.bytes.take (s.insertionPoint p - s.text).toNat ++ file ++
          s.bytes.drop (s.insertionPoint p - s.text).toNat := by
  obtain ⟨hcount, hbytes⟩ := bytesRead_holds h p
  obtain ⟨k, hk⟩ : ∃ k, (s.atOpen p file.length).env = { s.env with tick := k } := by
    unfold atOpen
    rw [textHoleMake_env]
    split
    · exact ⟨_, rfl⟩
    · exact ⟨_, rfl⟩
  have hopen : (s.atOpen p file.length).env.opened (s.atOpen p file.length).env.tick = true := by
    rw [hk]
    exact h.opened _
  obtain ⟨hrc, hfile⟩ := fileInsert_read hf name p initial
    (h.stat s.env.tick) hopen (by omega)
  rw [hcount] at hrc
  have hb := hfile.bytes
  rw [hbytes] at hb
  exact ⟨hrc, hb⟩

/-! ## The command line -/

/-- One address in front of a command. -/
theorem getAddress_one (s : Ed) {n : Nat} (hn : n ≤ 2147483647) {cmd : List UInt8}
    (hcmd : StartsCommand (head cmd)) :
    s.getAddress (dec n ++ cmd) = (some (⟨-1, n, 1⟩, cmd), s) := by
  obtain ⟨fuel, hfuel⟩ : ∃ fuel, 2 * (dec n ++ cmd).length + 2 = fuel + 2 := ⟨_, rfl⟩
  have h₁ := rangeLoop_dec s hn hcmd.toEndsAddress (fuel + 1) ⟨-1, -1, 0⟩
  have h₂ : rangeLoop (fuel + 1) true ⟨-1, n, 1⟩ cmd s = (some (⟨-1, n, 1⟩, cmd), s) := by
    rw [rangeLoop]
    simp only [hcmd.blank, Bool.false_eq_true, if_false, Bool.not_true, false_and, hcmd.comma,
      hcmd.semicolon, or_self]
  unfold getAddress
  dsimp only
  rw [hfuel, h₁.trans h₂]

/-- What is in front of the command on a line that starts with a number. -/
theorem colon_number {n : Nat} (cmd : List UInt8) :
    ((str ":" ++ dec n ++ cmd).dropWhile (· == chr ':')).dropWhile isblank = dec n ++ cmd ∧
      ¬ (dec n ++ cmd = [] ∨ head (dec n ++ cmd) = chr '"') := by
  obtain ⟨c, l, hdec, hc⟩ := dec_cons n
  have hcolon : (c == chr ':') = false := by simpa using digit_ne hc (by decide)
  rw [show str ":" ++ dec n ++ cmd = chr ':' :: (dec n ++ cmd) by
    simp only [show str ":" = [chr ':'] from rfl, List.nil_append, List.cons_append]]
  constructor
  · rw [List.dropWhile_cons_of_pos (by decide), hdec, List.cons_append,
      List.dropWhile_cons_of_neg (by rw [hcolon]; decide),
      List.dropWhile_cons_of_neg (by rw [digit_not_blank hc]; decide)]
  · rw [hdec]
    rintro (h | h)
    · cases h
    · exact digit_ne hc (by decide) h

/-- The command word of `:r file`. -/
theorem colonCommand_read (s : Ed) {fn : List UInt8} (hfn : isblank (head fn) = false) (t : Target) :
    s.colonCommand (str "r " ++ fn) t = some (true, s.colonRead fn t) := by
  have hsplit : splitCmd (str "r " ++ fn) = ([chr 'r'], fn, false) := by
    have hword : (str "r " ++ fn).takeWhile (fun c => !isspace c) = [chr 'r'] := by
      rw [show str "r " ++ fn = chr 'r' :: 32 :: fn from rfl, List.takeWhile_cons_of_pos (by decide),
        List.takeWhile_cons_of_neg (by decide)]
    have hargs : (32 :: fn : List UInt8).dropWhile isblank = fn := by
      rw [List.dropWhile_cons_of_pos (by decide)]
      cases fn with
      | nil => rfl
      | cons c l =>
        have hc : isblank c = false := hfn
        exact List.dropWhile_cons_of_neg (by simp [hc])
    unfold splitCmd
    rw [hword]
    dsimp only
    rw [show (str "r " ++ fn).drop [chr 'r'].length = 32 :: fn from rfl, hargs]
    rfl
  unfold colonCommand
  rw [hsplit]
  rfl

/-- `:Nr file` up to its end. -/
theorem colon_readLine {n : Nat} (hnl : s.bytes.getLast? = some NL)
    (hsize : s.bytes.length ≤ 2147483647) (hn : n ≤ s.lines.length)
    (hname : isblank (head name) = false) :
    s.colon (str ":" ++ dec n ++ (str "r " ++ name)) =
      (s.colonRead name ⟨⟨-1, n, 1⟩, s.findLine n, s.endLine (s.findLine n)⟩).boundHere := by
  have hlines := Buf.le_lineOffset hnl hn
  have hle := s.lineOffset_le n
  have hall := Buf.countLines_all hnl
  obtain ⟨hbuf, hhead⟩ := colon_number (n := n) (str "r " ++ name)
  have hcmd : StartsCommand (head (str "r " ++ name)) :=
    show StartsCommand (chr 'r') from
      ⟨⟨by decide, by decide, by decide, by decide⟩, by decide, by decide⟩
  have hresolve : s.resolve ⟨-1, n, 1⟩ =
      some ⟨⟨-1, n, 1⟩, s.findLine n, s.endLine (s.findLine n)⟩ := by
    unfold resolve
    dsimp only
    rw [if_neg (by decide), if_neg (by omega), if_pos (by decide)]
  unfold colon
  rw [hbuf, if_neg hhead]
  simp only [getAddress_one s (show n ≤ 2147483647 by omega) hcmd, hresolve,
    colonCommand_read s hname, Option.bind_eq_bind, Option.bind_some, if_true]

/-! ## The place -/

/-- The position `:Nr` computes. -/
def readPlace (s : Ed) (n : Nat) : Int :=
  if n = 0 then s.text
  else if s.nextLine (s.findLine n) = s.end_ - 1 then s.end_ else s.nextLine (s.findLine n)

theorem colonRead_bytes (hf : s.Fits) (hfile : s.env.Holds file) (hname : name ≠ []) {n : Nat}
    (hlo : s.text ≤ s.readPlace n) (hhi : s.readPlace n ≤ s.end_) (q r : Int) :
    (s.colonRead name ⟨⟨-1, n, 1⟩, q, r⟩).bytes =
      s.bytes.take (s.readPlace n - s.text).toNat ++ file ++
        s.bytes.drop (s.readPlace n - s.text).toNat := by
  obtain ⟨u, hu⟩ : ∃ u, s.initFilename name = u := ⟨_, rfl⟩
  have hsame : u.toBuf = s.toBuf ∧ u.env = s.env := by
    rw [← hu]
    unfold initFilename
    split <;> exact ⟨rfl, rfl⟩
  have hplace : (if (n : Int) = 0 then u.text else
      if u.nextLine (u.findLine n) = u.end_ - 1 then u.nextLine (u.findLine n) + 1
      else u.nextLine (u.findLine n)) = s.readPlace n := by
    unfold readPlace
    rw [hsame.1]
    by_cases hn : n = 0
    · rw [if_pos hn, if_pos (by omega)]
    · rw [if_neg hn, if_neg (by omega)]
      split <;> omega
  have hpoint : u.insertionPoint (s.readPlace n) = s.readPlace n := by
    unfold insertionPoint
    rw [hsame.1, if_neg (by omega), if_neg (by omega)]
  obtain ⟨hrc, hbytes⟩ := fileInsert_holds (s := u) (by rw [hsame.1]; exact hf)
    (by rw [hsame.2]; exact hfile) name (s.readPlace n) false
  rw [hpoint, hsame.1] at hbytes
  unfold colonRead
  rw [if_pos hname]
  dsimp only
  rw [if_pos hname, hu]
  simp only [Target.gotAddress, Nat.one_mod, BEq.rfl, if_true, hplace]
  rw [if_neg (by omega)]
  exact hbytes

/-- Where `next_line` goes from the start of line `n`, counted from 1. -/
theorem nextLine_offset {s : Buf} (hnl : s.bytes.getLast? = some NL) {n : Nat} (h₁ : 1 ≤ n)
    (hn : n ≤ s.lines.length) :
    s.nextLine (s.text + s.lineOffset (n - 1)) =
      if n = s.lines.length then s.end_ - 1 else s.text + s.lineOffset n := by
  have hlen := s.length_bytes
  have hall := s.lineOffset_all
  have hpos := List.length_pos_of_ne_nil (Buf.ne_nil_of_newline hnl)
  have hendl := Buf.endLine_offset hnl (k := n - 1) (by omega)
  have hmem := Buf.mem_before_line hnl (k := n - 1) (by omega)
  rw [show n - 1 + 1 = n by omega] at hendl hmem
  unfold Buf.nextLine
  rw [hendl]
  by_cases hlast : n = s.lines.length
  · rw [hlast, hall, if_neg (by omega), if_pos rfl]
    omega
  · have hlt := Buf.lineOffset_lt hnl (show n < s.lines.length by omega) (Nat.le_refl _)
    rw [if_pos ⟨by omega, hmem⟩, if_neg hlast]
    omega

/-- The next line starts at the last byte just when it is the last line and empty. -/
theorem lineOffset_last {s : Buf} (hnl : s.bytes.getLast? = some NL) {n : Nat}
    (hn : n < s.lines.length) :
    s.lineOffset n + 1 = s.bytes.length ↔
      n + 1 = s.lines.length ∧ s.lines.getLast? = some [NL] := by
  have hadd := Buf.lineOffset_add hn
  obtain ⟨pre, hpre, -⟩ := Buf.lines_pieces hnl _ (List.getElem_mem hn)
  have hlength := congrArg List.length hpre
  rw [List.length_append, List.length_singleton] at hlength
  rw [← s.lineOffset_all]
  by_cases hlast : n + 1 = s.lines.length
  · rw [← hlast, hadd, List.getLast?_eq_getElem?, ← hlast, Nat.add_sub_cancel,
      List.getElem?_eq_getElem hn, hpre]
    cases pre <;> simp
  · have hlt := Buf.lineOffset_lt hnl (show n + 1 < s.lines.length by omega) (Nat.le_refl _)
    exact iff_of_false (by omega) fun h => hlast h.1

/-- It is the start of the next line, except in front of an empty last line. -/
theorem readPlace_offset (hnl : s.bytes.getLast? = some NL) {n : Nat} (hn : n ≤ s.lines.length) :
    s.readPlace n = s.text +
      if 1 ≤ n ∧ n + 1 = s.lines.length ∧ s.lines.getLast? = some [NL] then (s.bytes.length : Int)
      else s.lineOffset n := by
  have hlen := s.length_bytes
  have hall := s.lineOffset_all
  have hpos := List.length_pos_of_ne_nil (Buf.ne_nil_of_newline hnl)
  unfold readPlace
  by_cases h₀ : n = 0
  · rw [if_pos h₀, if_neg (by omega), h₀]
    simp [Buf.lineOffset]
  · have hfind := Buf.findLine_offset hnl (k := n - 1) (by omega)
    have hnext := nextLine_offset hnl (n := n) (by omega) hn
    rw [show n - 1 + 1 = n by omega] at hfind
    rw [if_neg h₀, hfind, hnext]
    by_cases hlast : n = s.lines.length
    · rw [if_pos hlast, if_pos rfl, if_neg (by omega), hlast, hall]
      omega
    · have hempty := lineOffset_last hnl (show n < s.lines.length by omega)
      rw [if_neg hlast]
      by_cases h : n + 1 = s.lines.length ∧ s.lines.getLast? = some [NL]
      · have := hempty.mpr h
        rw [if_pos (by omega), if_pos ⟨by omega, h⟩]
        omega
      · have : s.lineOffset n + 1 ≠ s.bytes.length := fun he => h (hempty.mp he)
        rw [if_neg (by omega), if_neg fun hand => h hand.2]

/-! ## The result -/

theorem insertLine_iff (hnl : s.bytes.getLast? = some NL) {n : Nat} (hn : n ≤ s.lines.length)
    {k : Nat} (hk : s.readPlace n = s.text + k) :
    s.bytes.take k ++ file ++ s.bytes.drop k =
        (s.lines.take n).flatten ++ file ++ (s.lines.drop n).flatten ↔
      ¬(1 ≤ n ∧ n + 1 = s.lines.length ∧ s.lines.getLast? = some [NL]) ∨ ∀ c ∈ file, c = NL := by
  have hplace := readPlace_offset hnl hn
  rw [hk] at hplace
  by_cases hbad : 1 ≤ n ∧ n + 1 = s.lines.length ∧ s.lines.getLast? = some [NL]
  · rw [if_pos hbad] at hplace
    obtain ⟨h₁, h₂, h₃⟩ := hbad
    have hdrop : s.lines.drop n = [[NL]] := by
      rw [List.getLast?_eq_getElem?, ← h₂, Nat.add_sub_cancel] at h₃
      obtain ⟨hlt, hget⟩ := List.getElem?_eq_some_iff.mp h₃
      rw [List.drop_eq_getElem_cons hlt, hget, List.drop_eq_nil_of_le (by omega)]
    have hbytes := s.bytes_lines n
    rw [hdrop, List.flatten_singleton] at hbytes ⊢
    rw [show k = s.bytes.length by omega, List.take_length, List.drop_length, List.append_nil,
      hbytes, List.append_assoc, List.append_assoc, List.append_cancel_left_eq, List.singleton_append,
      eq_comm, concat_eq_cons_iff]
    simp [h₁, h₂, h₃]
  · rw [if_neg hbad] at hplace
    rw [show k = s.lineOffset n by omega, s.take_lineOffset, s.drop_lineOffset]
    simp [hbad]

/-- **Where `:Nr file` puts the file**: behind line `N`, unless the only line behind it is empty
and the file is not all newlines. -/
theorem colonRead_after_iff {t : Ed} {n : Nat} (hf : s.Fits) (hsize : s.textSize ≤ 2147483647)
    (hnl : s.bytes.getLast? = some NL) (hm : s.cmdMode = .command) (hn : n ≤ s.lines.length)
    (hname : name ≠ [] ∧ isblank (head name) = false) (hfile : s.env.Holds file)
    (typed : s.TypesLine (str ":" ++ dec n ++ (str "r " ++ name)))
    (run : doCmd (key ':') s = some t) :
    t.bytes = (s.lines.take n).flatten ++ file ++ (s.lines.drop n).flatten ↔
      ¬(1 ≤ n ∧ n + 1 = s.lines.length ∧ s.lines.getLast? = some [NL]) ∨ ∀ c ∈ file, c = NL := by
  have hlen := s.length_bytes
  have hlt := hf.lt_size
  have hend := hf.text_le_end
  have hle := s.lineOffset_le n
  obtain ⟨s₁, v, w, o, hl, ⟨-, henv⟩, hcolon, hstatus, ht⟩ := doCmd_colon hm typed run
  have hbuf := hl.buf
  have hplace := readPlace_offset (s := s₁) (n := n) (by rw [hbuf]; exact hnl) (by rw [hbuf]; exact hn)
  obtain ⟨k, hk, hkle⟩ : ∃ k : Nat, s₁.readPlace n = s₁.text + k ∧ k ≤ s₁.bytes.length := by
    rw [hbuf] at hplace ⊢
    split at hplace
    · exact ⟨s.bytes.length, hplace, Nat.le_refl _⟩
    · exact ⟨s.lineOffset n, hplace, hle⟩
  rw [hbuf] at hkle
  rw [colon_readLine (by rw [hbuf]; exact hnl) (by rw [hbuf]; omega) (by rw [hbuf]; exact hn)
    hname.2] at hcolon
  have hread := colonRead_bytes (s := s₁) (n := n)
    (by rw [hbuf]; exact hf) (by rw [henv]; exact ⟨hfile.1, hfile.2, hfile.3, hfile.4, hfile.5⟩)
    hname.1 (by omega) (by rw [hk, hbuf]; omega) (s₁.findLine n) (s₁.endLine (s₁.findLine n))
  rw [hk, show (s₁.text + (k : Int) - s₁.text).toNat = k by omega, hbuf] at hread
  have hlook := (boundHere_looked hcolon).trans (showStatusLine_looked hstatus)
  have hw : w.bytes = s.bytes.take k ++ file ++ s.bytes.drop k := by
    rw [hlook.bytes, hbuf]
    exact hread
  have hne : w.bytes ≠ [] := by
    intro hnil
    have hlength := congrArg List.length (hw.symm.trans hnil)
    have hpos := List.length_pos_of_ne_nil (Buf.ne_nil_of_newline hnl)
    simp only [List.length_append, List.length_take, List.length_drop, List.length_nil] at hlength
    omega
  rw [(epilogue_looked (Buf.text_ne_end hne) ht).bytes, hw]
  refine insertLine_iff hnl hn ?_
  unfold readPlace at hk ⊢
  rw [hbuf] at hk
  exact hk

/-- Lines, a file, and the keys of a command line behind its `:`. -/
def readingLine (lines file : List UInt8) (line : List Char) : Ed :=
  { EditOp.holding lines with
    rows := 24
    columns := 80
    tabstop := 8
    env := { Env.still with
      keys := line.map fun c => ⟨key c, false⟩
      stat := fun _ => some file.length
      opened := fun _ => true
      count := fun _ => file.length
      content := fun _ i => file.getD i 0 } }

theorem readingLine_holds (lines : List UInt8) {file : List UInt8} (line : List Char)
    (h : file.length < 0x7fffffff) : (readingLine lines file line).env.Holds file :=
  ⟨fun _ => rfl, fun _ => rfl, fun _ => rfl, fun _ i hi => by simp [readingLine, hi], h⟩

/-- `:1r f` on two lines. -/
theorem colonRead_after_first :
    ∃ t, doCmd (key ':') (readingLine [97, NL, 98, NL] [99, NL] ['1', 'r', ' ', 'f', '\n']) = some t ∧
      t.bytes = [97, NL, 99, NL, 98, NL] := by
  have hrun : (doCmd (key ':')
      (readingLine [97, NL, 98, NL] [99, NL] ['1', 'r', ' ', 'f', '\n'])).isSome := by decide +kernel
  obtain ⟨t, ht⟩ := Option.isSome_iff_exists.mp hrun
  have hname : str "f" ≠ [] ∧ isblank (head (str "f")) = false := ⟨by decide, by decide⟩
  have typed : (readingLine [97, NL, 98, NL] [99, NL] ['1', 'r', ' ', 'f', '\n']).TypesLine
      (str ":" ++ dec (1 : Nat) ++ (str "r " ++ str "f")) := .of_map (by decide +kernel)
  have hafter := (colonRead_after_iff ⟨by decide, by decide⟩ (by decide) (by decide) rfl
    (by decide +kernel) hname (readingLine_holds _ _ (by decide)) typed ht).mpr
    (.inl (by decide +kernel))
  refine ⟨t, ht, hafter.trans ?_⟩
  decide +kernel

/-- `:1r f` in front of an empty last line: the file goes behind that. -/
theorem colonRead_skips_line :
    ¬ ∀ (s t : Ed) (n : Nat) (file name : List UInt8), s.Fits → s.textSize ≤ 2147483647 →
      s.bytes.getLast? = some NL → s.cmdMode = .command → n ≤ s.lines.length →
      name ≠ [] ∧ isblank (head name) = false → s.env.Holds file → file.getLast? = some NL →
      s.TypesLine (str ":" ++ dec n ++ (str "r " ++ name)) → doCmd (key ':') s = some t →
      t.bytes = (s.lines.take n).flatten ++ file ++ (s.lines.drop n).flatten := by
  intro h
  have hrun : (doCmd (key ':')
      (readingLine [97, NL, NL] [99, NL] ['1', 'r', ' ', 'f', '\n'])).isSome := by decide +kernel
  obtain ⟨t, ht⟩ := Option.isSome_iff_exists.mp hrun
  have hbad := h _ t 1 [99, NL] (str "f") ⟨by decide, by decide⟩ (by decide) (by decide) rfl
    (by decide +kernel) ⟨by decide, by decide⟩ (readingLine_holds _ _ (by decide)) (by decide)
    (.of_map (by decide +kernel)) ht
  have hrest : (doCmd (key ':')
      (readingLine [97, NL, NL] [99, NL] ['1', 'r', ' ', 'f', '\n'])).map (·.bytes) =
        some [97, NL, NL, 99, NL] := by decide +kernel
  rw [ht, Option.map_some, Option.some.injEq, hbad] at hrest
  revert hrest
  decide +kernel

end Ed

end Evim
