import Ewokos.Evim.CursorReport
import Ewokos.Evim.Format

/-!
# evim: a drawn line is a window

`format_line` of `bin/evim/vim_term.c` over `scr_out_buf`, and the line it draws without an offset.

* `putByte`, `scrLoop`, `formatLineBuf` — the function with every write checked against the buffer.
* `scrLoop_eq`, `formatLineBuf_chars` — inside the buffer it is `format_line` over lists of cells.
* `expansion` — the whole line, as wide as it is.
* `keepsUp` — from a tab stop of two columns on, the discards keep up with the offset.
* `oneColumn` — with a tab stop of one column they fall behind with every control byte.

Main result: `formatLine_window_iff`.
-/

set_option autoImplicit false

namespace Evim.Ed

open Cells
open CString hiding strchr

/-! ## `scr_out_buf` -/

/-- `sizeof(scr_out_buf)`. -/
def SCR_OUT_LEN : Nat := MAX_SCR_COLS + MAX_TABSTOP.toNat * 2

/-- `scr_out_buf`, what lies behind it, and `co`. -/
structure ScrOut where
  buf : Nat → UInt8
  co : Nat

/-- `dest[co++] = c`; `none` is a write outside the buffer. -/
def ScrOut.put (o : ScrOut) (c : UInt8) : Option ScrOut :=
  if o.co < SCR_OUT_LEN then some ⟨Function.update o.buf o.co c, o.co + 1⟩ else none

/-- `while ((co % tabstop) != (tabstop - 1)) dest[co++] = c`. -/
def fillTab (s : Ed) : Nat → ScrOut → Option ScrOut
  | 0, _ => none
  | fuel + 1, o =>
    if (o.co : Int) % s.tabstop ≠ s.tabstop - 1 then (o.put 32).bind (fillTab s fuel) else some o

/-- The chars for the byte at `p`. -/
def putByte (s : Ed) (o : ScrOut) (p : Int) : Option ScrOut :=
  let c := s.mem p
  let c := if 128 ≤ c ∧ !isAsciionly c.toNat then chr '.' else c
  if c < 32 ∨ c = 127 then
    if c = 9 then s.fillTab s.tabstop.toNat o
    else (o.put (chr '^')).bind fun o => o.put (if c = 127 then chr '?' else c + 64)
  else o.put c

/-- `memmove(dest, dest + tabstop, co)` when a piece is scrolled off. -/
def discardBuf (s : Ed) (o : ScrOut) (ofs : Int) : Option (ScrOut × Int) :=
  if ofs ≥ s.tabstop ∧ (o.co : Int) ≥ s.tabstop then
    if o.co ≤ SCR_OUT_LEN then
      some (⟨fun i => if i < o.co then o.buf (i + s.tabstop.toNat) else o.buf i,
        o.co - s.tabstop.toNat⟩, ofs - s.tabstop)
    else none
  else some (o, ofs)

/-- The loop of `format_line`. -/
def scrLoop (s : Ed) : Nat → Int → UInt8 → ScrOut → Int → Option (ScrOut × Int)
  | 0, _, _, _, _ => none
  | fuel + 1, src, c, o, ofs =>
    if (o.co : Int) ≥ s.columns + s.tabstop then some (o, ofs)
    else if src < s.end_ then
      if s.mem src = NL then some (o, ofs)
      else (s.putByte o src).bind fun o =>
        if s.mem src = 9 then scrLoop s fuel (src + 1) 32 o ofs
        else (s.discardBuf o ofs).bind fun (o, ofs) =>
          if src + 1 ≥ s.end_ then some (o, ofs) else scrLoop s fuel (src + 1) c o ofs
    else (o.put c).bind fun o => s.discardBuf o ofs

/-- `format_line`: where `dest` points to in the buffer, and the buffer. -/
def formatLineBuf (s : Ed) (src : Int) (b : Nat → UInt8) : Option (Nat × (Nat → UInt8)) :=
  (s.scrLoop ((s.end_ - src).toNat + 2) src (chr '~') ⟨b, 0⟩ s.offset).bind fun (o, ofs) =>
    let ofs : Int := if o.co < ofs then o.co else ofs
    let co := o.co - ofs.toNat
    let dest := ofs.toNat
    if co < s.columns then
      if dest + s.columns ≤ SCR_OUT_LEN then
        some (dest, fun i => if dest + co ≤ i ∧ i < dest + s.columns then 32 else o.buf i)
      else none
    else some (dest, o.buf)

/-! ## The buffer and the cells -/

/-- The chars in front of `co`. -/
def ScrOut.chars (o : ScrOut) : List UInt8 := (List.range o.co).map o.buf

theorem ScrOut.length_chars (o : ScrOut) : o.chars.length = o.co := by
  rw [chars, List.length_map, List.length_range]

theorem ScrOut.put_chars {o : ScrOut} (c : UInt8) (h : o.co < SCR_OUT_LEN) :
    ∃ o', o.put c = some o' ∧ o'.co = o.co + 1 ∧ o'.chars = o.chars ++ [c] := by
  refine ⟨⟨Function.update o.buf o.co c, o.co + 1⟩, if_pos h, rfl, ?_⟩
  unfold chars
  dsimp only
  rw [List.range_succ, List.map_append, List.map_singleton, Function.update_self]
  congr 1
  refine List.map_congr_left fun i hi => Function.update_of_ne ?_ _ _
  have := List.mem_range.mp hi
  omega

variable {s : Ed} {p : Int}

/-- A tab. -/
theorem fillTab_chars (ht : 1 ≤ s.tabstop) : ∀ (n fuel : Nat) (o : ScrOut),
    (n : Int) = s.tabstop - 1 - o.co % s.tabstop → n < fuel → o.co + n ≤ SCR_OUT_LEN →
    ∃ o', s.fillTab fuel o = some o' ∧ o'.chars = o.chars ++ List.replicate n 32
  | _, 0, _, _, h, _ => by omega
  | 0, fuel + 1, o, hn, _, _ => by
    refine ⟨o, ?_, (List.append_nil _).symm⟩
    rw [fillTab, if_neg (by omega)]
  | n + 1, fuel + 1, o, hn, hf, hlen => by
    obtain ⟨o₁, hput, hco, hchars⟩ := o.put_chars 32 (by omega)
    have hmod₀ := Int.emod_nonneg (o.co : Int) (show s.tabstop ≠ 0 by omega)
    have hmod : (o₁.co : Int) % s.tabstop = o.co % s.tabstop + 1 := by
      rw [hco, Nat.cast_add, Nat.cast_one, Int.add_emod]
      have h1 : (1 : Int) % s.tabstop = 1 := Int.emod_eq_of_lt (by omega) (by omega)
      rw [h1]
      exact Int.emod_eq_of_lt (by omega) (by omega)
    obtain ⟨o', hfill, hchars'⟩ := fillTab_chars ht n fuel o₁ (by omega) (by omega) (by omega)
    refine ⟨o', ?_, ?_⟩
    · rw [fillTab, if_pos (by omega), hput]
      exact hfill
    · rw [hchars', hchars, List.append_assoc, List.replicate_succ]
      rfl

/-- What is drawn for a byte, in the buffer. -/
theorem putByte_chars (ht : 1 ≤ s.tabstop) {o : ScrOut} (p : Int)
    (h : (o.co : Int) + s.tabstop + 1 ≤ SCR_OUT_LEN) :
    ∃ o', s.putByte o p = some o' ∧
      o'.chars = o.chars ++ (s.byteCells p o.co).map Cell.char := by
  unfold putByte byteCells
  dsimp only
  generalize (if 128 ≤ s.mem p ∧ !isAsciionly (s.mem p).toNat then chr '.' else s.mem p) = c
  by_cases htab : c = 9
  · have hmod := Int.emod_lt_of_pos (o.co : Int) (show 0 < s.tabstop by omega)
    have hmod₀ := Int.emod_nonneg (o.co : Int) (show s.tabstop ≠ 0 by omega)
    obtain ⟨o', hfill, hchars⟩ := fillTab_chars ht (s.tabstop - 1 - o.co % s.tabstop).toNat
      s.tabstop.toNat o (by omega) (by omega) (by omega)
    subst htab
    rw [if_pos (by decide), if_pos rfl, if_pos rfl]
    exact ⟨o', hfill, by rw [hchars, List.map_replicate]⟩
  · rw [if_neg htab, if_neg htab]
    by_cases hctl : c < 32 ∨ c = 127
    · obtain ⟨o₁, h₁, hco₁, hchars₁⟩ := o.put_chars (chr '^') (by omega)
      obtain ⟨o₂, h₂, -, hchars₂⟩ :=
        o₁.put_chars (if c = 127 then chr '?' else c + 64) (by omega)
      rw [if_pos hctl, if_pos hctl, h₁]
      exact ⟨o₂, h₂, by rw [hchars₂, hchars₁, List.append_assoc]; rfl⟩
    · obtain ⟨o₁, h₁, -, hchars₁⟩ := o.put_chars c (by omega)
      rw [if_neg hctl, if_neg hctl]
      exact ⟨o₁, h₁, by rw [hchars₁]; rfl⟩

/-- The discard, in the buffer. -/
theorem discardBuf_chars (ht : 1 ≤ s.tabstop) {o : ScrOut} {d : Drawing}
    (ho : o.chars = d.dest.map Cell.char) (h : o.co ≤ SCR_OUT_LEN) :
    ∃ o', s.discardBuf o d.ofs = some (o', (s.discard d).ofs) ∧
      o'.chars = (s.discard d).dest.map Cell.char := by
  have hlen : o.co = d.dest.length := by
    rw [← o.length_chars, ho, List.length_map]
  unfold discardBuf discard
  rw [hlen]
  by_cases hd : d.ofs ≥ s.tabstop ∧ (d.dest.length : Int) ≥ s.tabstop
  · rw [if_pos hd, if_pos hd, if_pos (by omega)]
    refine ⟨_, rfl, ?_⟩
    dsimp only
    rw [List.map_drop, ← ho]
    unfold ScrOut.chars
    apply List.ext_getElem
    · simp only [List.length_map, List.length_range, List.length_drop]
      omega
    · intro i h₁ h₂
      simp only [List.length_map, List.length_range] at h₁
      simp only [List.getElem_map, List.getElem_range, List.getElem_drop]
      rw [if_pos (by omega), Nat.add_comm]
  · rw [if_neg hd, if_neg hd]
    exact ⟨o, rfl, ho⟩

/-- Inside the buffer the loop is that over cells. -/
theorem scrLoop_eq (ht : 1 ≤ s.tabstop)
    (hbuf : (s.columns : Int) + 2 * s.tabstop ≤ SCR_OUT_LEN) :
    ∀ {fuel : Nat} {src : Int} (c : UInt8) {o : ScrOut} {d : Drawing},
      o.chars = d.dest.map Cell.char → s.end_ - src < fuel → 1 ≤ fuel →
      ∃ o', s.scrLoop fuel src c o d.ofs = some (o', (s.formatLoop fuel src c d).ofs) ∧
        o'.chars = (s.formatLoop fuel src c d).dest.map Cell.char
  | 0, _, _, _, _, _, _, h => by omega
  | fuel + 1, src, c, o, d, ho, hf, _ => by
    have hlen : o.co = d.dest.length := by
      rw [← o.length_chars, ho, List.length_map]
    rw [scrLoop, formatLoop, hlen]
    by_cases hwide : (d.dest.length : Int) ≥ s.columns + s.tabstop
    · rw [if_pos hwide, if_pos hwide]
      exact ⟨o, rfl, ho⟩
    · rw [if_neg hwide, if_neg hwide]
      by_cases hend : src < s.end_
      · rw [if_pos hend, if_pos hend]
        by_cases hnl : s.mem src = NL
        · rw [if_pos hnl, if_pos hnl]
          exact ⟨o, rfl, ho⟩
        · obtain ⟨o₁, hput, hchars⟩ := putByte_chars ht src (show (o.co : Int) + _ + 1 ≤ _ by omega)
          rw [ho, hlen, ← List.map_append] at hchars
          have hlen₁ : o₁.co = (d.dest ++ s.byteCells src d.dest.length).length := by
            rw [← o₁.length_chars, hchars, List.length_map]
          have hbytes : ((s.byteCells src d.dest.length).length : Int) ≤ s.tabstop + 1 := by
            have := Int.emod_nonneg (d.dest.length : Int) (show s.tabstop ≠ 0 by omega)
            rw [byteCells_length]
            split
            · omega
            · split <;> omega
          rw [List.length_append] at hlen₁
          rw [if_neg hnl, if_neg hnl, hput]
          dsimp only [Option.bind_some]
          by_cases htab : s.mem src = 9
          · have hdraw : s.draw d src = ⟨d.dest ++ s.byteCells src d.dest.length, d.ofs⟩ :=
              if_pos htab
            rw [if_pos htab, if_pos htab, hdraw]
            exact scrLoop_eq ht hbuf 32 (d := ⟨_, d.ofs⟩) hchars (by omega) (by omega)
          · have hdraw : s.draw d src =
                s.discard ⟨d.dest ++ s.byteCells src d.dest.length, d.ofs⟩ := if_neg htab
            obtain ⟨o₂, hdiscard, hchars₂⟩ :=
              discardBuf_chars ht (d := ⟨_, d.ofs⟩) hchars (by omega)
            rw [if_neg htab, if_neg htab, hdraw, hdiscard]
            dsimp only [Option.bind_some]
            by_cases hlast : src + 1 ≥ s.end_
            · rw [if_pos hlast, if_pos hlast]
              exact ⟨o₂, rfl, hchars₂⟩
            · rw [if_neg hlast, if_neg hlast]
              exact scrLoop_eq ht hbuf c hchars₂ (by omega) (by omega)
      · obtain ⟨o₁, hput, hco, hchars⟩ := o.put_chars c (by omega)
        rw [ho] at hchars
        rw [if_neg hend, if_neg hend, hput]
        exact discardBuf_chars ht (d := ⟨d.dest ++ [⟨c, none⟩], d.ofs⟩)
          (by rw [hchars, List.map_append]; rfl) (by omega)

/-! ## The result -/

/-- What `format_line` has drawn behind its loop. -/
def final (s : Ed) (p : Int) : Drawing :=
  s.formatLoop ((s.end_ - p).toNat + 2) p (chr '~') ⟨[], s.offset⟩

/-- "short line, gigantic offset": what is discarded last. -/
def Drawing.left (d : Drawing) : Int :=
  if (d.dest.length : Int) < d.ofs then d.dest.length else d.ofs

/-- The spaces behind the line stay in the buffer. -/
def FitsScreen (s : Ed) (d : Drawing) : Prop :=
  d.dest.length - d.left.toNat < s.columns → d.left.toNat + s.columns ≤ SCR_OUT_LEN

theorem formatCells_final (s : Ed) (p : Int) : s.formatCells p =
    (s.final p).dest.drop (s.final p).left.toNat ++ List.replicate
      (s.columns - ((s.final p).dest.drop (s.final p).left.toNat).length) ⟨32, none⟩ := rfl

theorem ScrOut.buf_eq {o : ScrOut} {l : List UInt8} (h : o.chars = l) {i : Nat}
    (hi : i < l.length) :
    o.buf i = l.getD i 32 := by
  subst h
  rw [List.getD_eq_getElem _ _ hi]
  simp [chars]

theorem getD_append_space (l : List UInt8) (n i : Nat) :
    (l ++ List.replicate n 32).getD i 32 = l.getD i 32 := by
  by_cases hi : i < l.length
  · rw [List.getD_append _ _ _ _ hi]
  · rw [List.getD_append_right _ _ _ _ (by omega), List.getD_eq_getElem?_getD,
      List.getElem?_getD_replicate_default_eq, List.getD_eq_default _ _ (by omega)]

/-- What is returned: the chars of `format_line`, if they fit. -/
theorem formatLineBuf_iff (ht : 1 ≤ s.tabstop)
    (hbuf : (s.columns : Int) + 2 * s.tabstop ≤ SCR_OUT_LEN) (b : Nat → UInt8) (w : Nat → UInt8) :
    (∃ dest buf, s.formatLineBuf p b = some (dest, buf) ∧ ∀ i < s.columns, buf (dest + i) = w i) ↔
      s.FitsScreen (s.final p) ∧ ∀ i < s.columns, (s.formatLine p).getD i 32 = w i := by
  obtain ⟨o, hloop, hchars⟩ : ∃ o, s.scrLoop ((s.end_ - p).toNat + 2) p (chr '~') ⟨b, 0⟩ s.offset =
      some (o, (s.final p).ofs) ∧ o.chars = (s.final p).dest.map Cell.char :=
    scrLoop_eq ht hbuf (chr '~') (d := ⟨[], s.offset⟩) rfl (by omega) (by omega)
  have hco : o.co = (s.final p).dest.length := by
    rw [← o.length_chars, hchars, List.length_map]
  have hline : ∀ i, (s.formatLine p).getD i 32 =
      ((s.final p).dest.map Cell.char).getD ((s.final p).left.toNat + i) 32 := by
    intro i
    rw [formatLine, formatCells_final, List.map_append, List.map_replicate, getD_append_space,
      List.map_drop, List.getD_eq_getElem?_getD, List.getElem?_drop, ← List.getD_eq_getElem?_getD]
  have hleft : (s.final p).left.toNat ≤ (s.final p).dest.length := by
    unfold Drawing.left
    split <;> omega
  have hbytes : ∀ i, i < (s.final p).dest.length →
      o.buf i = ((s.final p).dest.map Cell.char).getD i 32 := fun i hi =>
    o.buf_eq hchars (by rwa [List.length_map])
  have hblank : ∀ i, (s.final p).dest.length ≤ i →
      ((s.final p).dest.map Cell.char).getD i 32 = 32 := fun i hi =>
    List.getD_eq_default _ _ (by rwa [List.length_map])
  unfold formatLineBuf FitsScreen
  rw [hloop]
  dsimp only [Option.bind_some]
  rw [hco]
  change (∃ dest buf, (if (s.final p).dest.length - (s.final p).left.toNat < s.columns then
    if (s.final p).left.toNat + s.columns ≤ SCR_OUT_LEN then
      some ((s.final p).left.toNat, fun i =>
        if (s.final p).left.toNat + ((s.final p).dest.length - (s.final p).left.toNat) ≤ i ∧
          i < (s.final p).left.toNat + s.columns then 32 else o.buf i)
    else none else some ((s.final p).left.toNat, o.buf)) = some (dest, buf) ∧ _) ↔ _
  generalize (s.final p).left.toNat = r at *
  simp only [hline]
  generalize (s.final p).dest.map Cell.char = l at *
  generalize (s.final p).dest.length = n at *
  by_cases hshort : n - r < s.columns
  · rw [if_pos hshort]
    by_cases hfit : r + s.columns ≤ SCR_OUT_LEN
    · rw [if_pos hfit]
      have hrow : ∀ i < s.columns,
          (if r + (n - r) ≤ r + i ∧ r + i < r + s.columns then 32 else o.buf (r + i)) =
            l.getD (r + i) 32 := by
        intro i hi
        by_cases hn : n ≤ r + i
        · rw [if_pos (by omega), hblank _ hn]
        · rw [if_neg (by omega), hbytes _ (by omega)]
      constructor
      · rintro ⟨dest, buf, h, hw⟩
        obtain ⟨rfl, rfl⟩ := Prod.mk.inj (Option.some.inj h)
        exact ⟨fun _ => hfit, fun i hi => (hrow i hi).symm.trans (hw i hi)⟩
      · rintro ⟨-, hw⟩
        exact ⟨_, _, rfl, fun i hi => (hrow i hi).trans (hw i hi)⟩
    · rw [if_neg hfit]
      constructor
      · rintro ⟨_, _, h, -⟩
        cases h
      · rintro ⟨h, -⟩
        exact absurd (h hshort) hfit
  · rw [if_neg hshort]
    have hrow : ∀ i < s.columns, o.buf (r + i) = l.getD (r + i) 32 := fun i hi =>
      hbytes _ (by omega)
    constructor
    · rintro ⟨dest, buf, h, hw⟩
      obtain ⟨rfl, rfl⟩ := Prod.mk.inj (Option.some.inj h)
      exact ⟨fun h => absurd h hshort, fun i hi => (hrow i hi).symm.trans (hw i hi)⟩
    · rintro ⟨-, hw⟩
      exact ⟨_, _, rfl, fun i hi => (hrow i hi).trans (hw i hi)⟩

/-! ## The line without an offset -/

/-- Byte `n` from `p` on is in the line. -/
def InLine (s : Ed) (p : Int) (n : Nat) : Prop := p + n < s.end_ ∧ s.mem (p + n) ≠ NL

instance (s : Ed) (p : Int) (n : Nat) : Decidable (s.InLine p n) :=
  inferInstanceAs (Decidable (_ ∧ _))

/-- The bytes from byte `k` on up to the end of the line or of the text. -/
def countLine (s : Ed) (p : Int) : Nat → Nat → Nat
  | 0, k => k
  | fuel + 1, k => if s.InLine p k then countLine s p fuel (k + 1) else k

/-- The bytes of the line at `p`. -/
def lineLength (s : Ed) (p : Int) : Nat := s.countLine p (s.end_ - p).toNat 0

/-- The line as `format_line` draws it without an offset and on a screen of any width; `~` behind
the text. -/
def expansion (s : Ed) (p : Int) : List UInt8 :=
  if p < s.end_ then (s.drawn p (s.lineLength p)).map Cell.char else [chr '~']

theorem countLine_eq {m : Nat} (hn : ¬s.InLine p m) : ∀ {fuel k : Nat},
    (∀ i, k ≤ i → i < m → s.InLine p i) → k ≤ m → m ≤ k + fuel → s.countLine p fuel k = m
  | 0, k, _, h₁, h₂ => by
    rw [countLine]
    omega
  | fuel + 1, k, h, h₁, h₂ => by
    rw [countLine]
    rcases Nat.eq_or_lt_of_le h₁ with rfl | hlt
    · rw [if_neg hn]
    · rw [if_pos (h k (Nat.le_refl k) hlt)]
      exact countLine_eq hn (fun i h₁ h₂ => h i (by omega) h₂) (by omega) (by omega)

theorem lineLength_eq {m : Nat} (h : ∀ i < m, s.InLine p i) (hn : ¬s.InLine p m) :
    s.lineLength p = m := by
  refine countLine_eq hn (fun i _ hi => h i hi) (Nat.zero_le m) ?_
  cases m with
  | zero => exact Nat.zero_le _
  | succ m =>
    have := (h m (Nat.lt_succ_self m)).1
    omega

theorem lineLength_spec (s : Ed) (p : Int) :
    (∀ i < s.lineLength p, s.InLine p i) ∧ ¬s.InLine p (s.lineLength p) := by
  have hex : ∃ n, ¬s.InLine p n := ⟨(s.end_ - p).toNat, fun h => by have := h.1; omega⟩
  have hbefore : ∀ i < Nat.find hex, s.InLine p i := fun i hi => not_not.mp (Nat.find_min hex hi)
  rw [lineLength_eq hbefore (Nat.find_spec hex)]
  exact ⟨hbefore, Nat.find_spec hex⟩

/-- The first bytes of the line are all in it. -/
theorem le_lineLength {m : Nat} (h : ∀ i < m, s.InLine p i) : m ≤ s.lineLength p := by
  by_contra hlt
  exact (s.lineLength_spec p).2 (h _ (by omega))

theorem Draws.inLine {n : Nat} (h : s.Draws p n) : s.InLine p n := h.2

/-! ## What the loop leaves -/

/-- What `format_line` leaves for a byte string `l`, of which `cells` are drawn. -/
theorem Shows.getD {cells : List Cell} {d : Drawing} (h : Shows s cells d) (i : Nat) :
    (((d.dest.drop d.left.toNat).map Cell.char)).getD i 32 =
      (cells.map Cell.char).getD (s.offset.toNat + i) 32 := by
  rw [List.getD_eq_getElem?_getD, List.getD_eq_getElem?_getD, List.getElem?_map, List.getElem?_map,
    h.getElem?_drop (show d.left = _ from rfl), Nat.add_comm]

theorem formatLine_getD {cells : List Cell} (h : Shows s cells (s.final p)) (i : Nat) :
    (s.formatLine p).getD i 32 = (cells.map Cell.char).getD (s.offset.toNat + i) 32 := by
  rw [formatLine, formatCells_final, List.map_append, List.map_replicate, getD_append_space, h.getD]

/-- The loop has drawn one char more when the text ends with a tab. -/
def Spare (s : Ed) (p : Int) (m : Nat) : Drawing :=
  s.discard ⟨(s.drawingAt p m).dest ++ [⟨32, none⟩], (s.drawingAt p m).ofs⟩

theorem final_cases (hp : p < s.end_) : ∃ m, (∀ n < m, s.Draws p n) ∧ ¬s.Draws p m ∧
    (s.final p = s.drawingAt p m ∧ (s.columns + s.tabstop ≤ (s.drawingAt p m).dest.length ∨
        p + m < s.end_ ∨ s.mem (p + m - 1) ≠ 9) ∨
      s.end_ ≤ p + m ∧ s.mem (p + m - 1) = 9 ∧ s.final p = s.Spare p m) := by
  have hstops : s.Stops p 0 (chr '~') (s.formatLoop ((s.end_ - p).toNat + 2) (p + (0 : Nat))
      (chr '~') (s.drawingAt p 0)) := formatLoop_stops (by push_cast; omega) (by omega)
  obtain ⟨m, -, hdraws, hn, hd⟩ := hstops
  rw [Nat.cast_zero, Int.add_zero] at hd
  refine ⟨m, fun n => hdraws n (Nat.zero_le n), hn, hd.imp id fun ⟨hend, htab, hd⟩ =>
    ⟨hend, htab (by omega), ?_⟩⟩
  rw [if_neg (by omega)] at hd
  exact hd

/-- Behind the text. -/
theorem final_past (ht : 1 ≤ s.tabstop) (hp : ¬p < s.end_) :
    s.final p = s.discard ⟨[⟨chr '~', none⟩], s.offset⟩ := by
  unfold final
  rw [formatLoop, if_neg (by rw [List.length_nil]; omega), if_neg hp]
  rfl

theorem past_shows (ht : 1 ≤ s.tabstop) (ho : 0 ≤ s.offset) (hp : ¬p < s.end_) :
    Shows s [⟨chr '~', none⟩] (s.final p) := by
  rw [final_past ht hp]
  have happend : Shows s ([] ++ [⟨chr '~', none⟩]) ⟨[] ++ [⟨chr '~', none⟩], s.offset⟩ :=
    (drawingAt_shows ht ho p 0).append
  exact happend.discard ht

theorem spare_shows (ht : 1 ≤ s.tabstop) (ho : 0 ≤ s.offset) (p : Int) (m : Nat) :
    Shows s (s.drawn p m ++ [⟨32, none⟩]) (s.Spare p m) :=
  (drawingAt_shows ht ho p m).append.discard ht

/-! ## The window -/

/-- What the first bytes of the line are drawn as. -/
theorem expansion_getD (hp : p < s.end_) {m : Nat} (hm : m ≤ s.lineLength p) (j : Nat) :
    ((s.drawn p m).map Cell.char).getD j 32 =
      if j < (s.drawn p m).length then (s.expansion p).getD j 32 else 32 := by
  obtain ⟨t, ht⟩ := s.drawn_prefix p hm
  by_cases hj : j < (s.drawn p m).length
  · rw [if_pos hj, expansion, if_pos hp, ← ht, List.map_append, List.getD_append]
    rwa [List.length_map]
  · rw [if_neg hj, List.getD_eq_default _ _ (by rw [List.length_map]; omega)]

/-- Behind the line there are only spaces. -/
theorem expansion_behind (hp : p < s.end_) {m : Nat} (hm : ∀ i < m, s.InLine p i)
    (hn : ¬s.InLine p m) {j : Nat} (hj : (s.drawn p m).length ≤ j) :
    (s.expansion p).getD j 32 = 32 := by
  rw [expansion, if_pos hp, lineLength_eq hm hn, List.getD_eq_default]
  rwa [List.length_map]

/-- The columns of `format_line` are those of the line behind the offset. -/
def Windowed (s : Ed) (p : Int) : Prop :=
  ∀ i < s.columns, (s.formatLine p).getD i 32 = (s.expansion p).getD (s.offset.toNat + i) 32

theorem windowed_past (ht : 1 ≤ s.tabstop) (ho : 0 ≤ s.offset) (hp : ¬p < s.end_) :
    s.Windowed p := by
  intro i _
  rw [formatLine_getD (past_shows ht ho hp), expansion, if_neg hp]
  rfl

section InText

variable (ht : 1 ≤ s.tabstop) (ho : 0 ≤ s.offset) (hp : p < s.end_) {m : Nat}
  (hdraws : ∀ n < m, s.Draws p n)

include ht ho hp hdraws

/-- Only what is not drawn can be missing. -/
theorem windowed_iff (hd : s.final p = s.drawingAt p m) : s.Windowed p ↔
    ∀ i < s.columns, (s.drawn p m).length ≤ s.offset.toNat + i →
      (s.expansion p).getD (s.offset.toNat + i) 32 = 32 := by
  have hshows : Shows s (s.drawn p m) (s.final p) := hd ▸ drawingAt_shows ht ho p m
  have hm := le_lineLength fun i hi => (hdraws i hi).inLine
  unfold Windowed
  refine forall₂_congr fun i _ => ?_
  rw [formatLine_getD hshows, expansion_getD hp hm]
  by_cases hj : s.offset.toNat + i < (s.drawn p m).length
  · rw [if_pos hj]
    exact ⟨fun _ h => absurd hj (by omega), fun _ => rfl⟩
  · rw [if_neg hj]
    exact ⟨fun h _ => h.symm, fun h => (h (by omega)).symm⟩

/-- Nothing is missing if the margin is reached behind the offset. -/
theorem windowed_of_margin (hd : s.final p = s.drawingAt p m)
    (hmargin : s.InLine p m → (s.final p).ofs + s.columns ≤ (s.final p).dest.length) :
    s.Windowed p := by
  have hshows : Shows s (s.drawn p m) (s.final p) := hd ▸ drawingAt_shows ht ho p m
  refine (windowed_iff ht ho hp hdraws hd).mpr fun i hi hj => ?_
  by_cases hin : s.InLine p m
  · have := hshows.length_dest
    have := hmargin hin
    omega
  · exact expansion_behind hp (fun n hn => (hdraws n hn).inLine) hin hj

theorem windowed_spare (hend : s.end_ ≤ p + m) (hd : s.final p = s.Spare p m) :
    s.Windowed p := by
  have hshows : Shows s (s.drawn p m ++ [⟨32, none⟩]) (s.final p) :=
    hd ▸ spare_shows ht ho p m
  have hin : ¬s.InLine p m := fun h => by
    have := h.1
    omega
  intro i _
  have hspace : [Cell.char ⟨32, none⟩] = List.replicate 1 32 := rfl
  rw [formatLine_getD hshows, List.map_append, List.map_singleton, hspace, getD_append_space,
    expansion, if_pos hp, lineLength_eq (fun n hn => (hdraws n hn).inLine) hin]

end InText

/-! ## Tab stops of two columns and more -/

/-- The drawing is not a piece long while there is a piece to discard. -/
def Tight (s : Ed) (d : Drawing) : Prop := s.tabstop ≤ d.ofs → (d.dest.length : Int) < s.tabstop

theorem discard_tight (h₂ : 2 ≤ s.tabstop) {d : Drawing}
    (h : s.tabstop ≤ d.ofs → (d.dest.length : Int) ≤ s.tabstop + 1) : s.Tight (s.discard d) := by
  unfold discard Tight
  split
  · rename_i hd
    dsimp only
    rw [List.length_drop]
    intro hofs
    have := h hd.1
    omega
  · rename_i hd
    intro hofs
    by_contra hlen
    exact hd ⟨hofs, by omega⟩

/-- **The discards keep up.**  A tab goes up to the last column of a piece, any other byte draws two
cells at most and discards a piece. -/
theorem keepsUp (h₂ : 2 ≤ s.tabstop) (p : Int) : ∀ n, s.Tight (s.drawingAt p n)
  | 0 => fun _ => by
    rw [drawingAt, List.length_nil]
    omega
  | n + 1 => by
    have ih := keepsUp h₂ p n
    have hlen := byteCells_length (s := s) (p + n) (s.drawingAt p n).dest.length
    rw [drawingAt]
    unfold draw
    dsimp only
    by_cases htab : s.mem (p + n) = 9
    · rw [if_pos htab] at hlen ⊢
      intro hofs
      have hbefore := ih hofs
      have hmod : ((s.drawingAt p n).dest.length : Int) % s.tabstop =
          (s.drawingAt p n).dest.length :=
        Int.emod_eq_of_lt (by omega) hbefore
      dsimp only
      rw [List.length_append, hlen, hmod]
      omega
    · rw [if_neg htab] at hlen ⊢
      refine discard_tight h₂ fun hofs => ?_
      have hbefore := ih hofs
      dsimp only
      rw [List.length_append, hlen]
      split <;> omega

theorem Tight.left_lt {d : Drawing} (h : s.Tight d) : d.left < s.tabstop := by
  unfold Drawing.left
  by_cases hofs : s.tabstop ≤ d.ofs
  · have := h hofs
    split <;> omega
  · split <;> omega

theorem fits_of_left (hc : s.columns ≤ MAX_SCR_COLS) {d : Drawing} (h : d.left ≤ 64) :
    s.FitsScreen d := by
  have hlen : SCR_OUT_LEN = MAX_SCR_COLS + 64 := rfl
  intro _
  omega

/-! ## Tab stops of one column -/

/-- The bytes that are no tabs, of the first `n`. -/
def nonTabs (s : Ed) (p : Int) (n : Nat) : Nat :=
  (List.range n).countP fun i : Nat => s.mem (p + i) ≠ 9

/-- The control bytes other than tabs, of the first `n`: they are drawn as two chars. -/
def wides (s : Ed) (p : Int) (n : Nat) : Nat :=
  (List.range n).countP fun i : Nat => s.mem (p + i) ≠ 9 ∧ ¬Narrow (s.mem (p + i))

theorem nonTabs_succ (n : Nat) :
    s.nonTabs p (n + 1) = s.nonTabs p n + if s.mem (p + n) = 9 then 0 else 1 := by
  unfold nonTabs
  rw [List.range_succ, List.countP_append, List.countP_singleton]
  by_cases h : s.mem (p + n) = 9 <;> simp [h]

theorem wides_succ (n : Nat) : s.wides p (n + 1) = s.wides p n +
    if s.mem (p + n) = 9 then 0 else if Narrow (s.mem (p + n)) then 0 else 1 := by
  unfold wides
  rw [List.range_succ, List.countP_append, List.countP_singleton]
  by_cases h : s.mem (p + n) = 9
  · simp [h]
  · by_cases hn : Narrow (s.mem (p + n)) <;> simp [h, hn]

theorem nonTabs_mono {m n : Nat} (h : m ≤ n) : s.nonTabs p m ≤ s.nonTabs p n := by
  induction n with
  | zero => rw [Nat.le_zero.mp h]
  | succ n ih =>
    rcases Nat.eq_or_lt_of_le h with rfl | hlt
    · exact Nat.le_refl _
    · rw [nonTabs_succ]
      exact (ih (by omega)).trans (Nat.le_add_right _ _)

section OneColumn

variable (h₁ : s.tabstop = 1) (ho : 0 ≤ s.offset)

include h₁

/-- One char more, behind a drawing of which `w` cells are left. -/
theorem discard_one {d : Drawing} (hlen : 1 ≤ d.dest.length) :
    (s.discard d).ofs = max (d.ofs - 1) (min d.ofs 0) ∧
      (1 ≤ d.ofs → (s.discard d).dest.length + 1 = d.dest.length) := by
  unfold discard
  rw [h₁]
  by_cases hofs : 1 ≤ d.ofs
  · rw [if_pos ⟨hofs, by omega⟩]
    refine ⟨by dsimp only; omega, fun _ => ?_⟩
    rw [List.length_drop]
    have : (1 : Int).toNat = 1 := rfl
    omega
  · rw [if_neg fun h => hofs h.1]
    exact ⟨by omega, fun h => absurd h hofs⟩

include ho

/-- **The discards fall behind**, by one column with every control byte. -/
theorem oneColumn (p : Int) : ∀ n, (s.drawingAt p n).ofs = max (s.offset - s.nonTabs p n) 0 ∧
    ((s.nonTabs p n : Int) ≤ s.offset → (s.drawingAt p n).dest.length = s.wides p n)
  | 0 => ⟨by simp [drawingAt, nonTabs, ho], fun _ => rfl⟩
  | n + 1 => by
    obtain ⟨ihofs, ihlen⟩ := oneColumn p n
    have hlen := byteCells_length (s := s) (p + n) (s.drawingAt p n).dest.length
    rw [drawingAt, nonTabs_succ, wides_succ]
    unfold draw
    dsimp only
    by_cases htab : s.mem (p + n) = 9
    · rw [if_pos htab, h₁, Int.emod_one] at hlen
      rw [if_pos htab, if_pos htab, if_pos htab]
      refine ⟨ihofs, fun h => ?_⟩
      rw [List.length_append, hlen, ihlen h]
      rfl
    · rw [if_neg htab] at hlen
      rw [if_neg htab, if_neg htab, if_neg htab]
      obtain ⟨hofs, hleft⟩ := discard_one h₁
        (d := ⟨(s.drawingAt p n).dest ++ s.byteCells (p + n) (s.drawingAt p n).dest.length,
          (s.drawingAt p n).ofs⟩) (by
          rw [List.length_append, hlen]
          split <;> omega)
      dsimp only at hofs hleft
      refine ⟨by rw [hofs, ihofs]; omega, fun h => ?_⟩
      have hw := hleft (by omega)
      have hsum : ((s.drawingAt p n).dest ++
          s.byteCells (p + n) (s.drawingAt p n).dest.length).length =
          s.wides p n + if Narrow (s.mem (p + n)) then 1 else 2 := by
        rw [List.length_append, hlen, ihlen (by omega)]
      by_cases hn : Narrow (s.mem (p + n))
      · rw [if_pos hn] at hsum ⊢
        omega
      · rw [if_neg hn] at hsum ⊢
        omega

end OneColumn

/-- The loop goes on at byte `n`, with a tab stop of one column. -/
def GoesOn (s : Ed) (p : Int) (n : Nat) : Prop := s.InLine p n ∧ s.wides p n ≤ s.columns

/-- The first `n` bytes of the line: all of it, or up to the control byte with which there are more
of these than columns. -/
def Walked (s : Ed) (p : Int) (n : Nat) : Prop := (∀ i < n, s.GoesOn p i) ∧ ¬s.GoesOn p n

/-- The chars that discard a column: the bytes that are no tabs, and what is drawn behind a tab at
the end of the text. -/
def singles (s : Ed) (p : Int) (n : Nat) : Nat :=
  s.nonTabs p n + if s.end_ ≤ p + n ∧ s.mem (p + n - 1) = 9 then 1 else 0

/-- What `format_line` leaves out behind the first `n` bytes is blank, and its spaces fit. -/
def Blank (s : Ed) (p : Int) (n : Nat) : Prop :=
  min (s.offset.toNat - s.singles p n) (s.wides p n) + s.columns ≤ SCR_OUT_LEN ∧
    ∀ i < s.columns, s.singles p n + s.wides p n ≤ s.offset.toNat + i →
      (s.expansion p).getD (s.offset.toNat + i) 32 = 32

section OneColumn

variable (h₁ : s.tabstop = 1) (ho : 0 ≤ s.offset)

include h₁ ho

theorem draws_iff {n : Nat} (hn : (s.nonTabs p n : Int) ≤ s.offset) :
    s.Draws p n ↔ s.GoesOn p n := by
  have hlen := (oneColumn h₁ ho p n).2 hn
  unfold Draws GoesOn InLine
  rw [hlen, h₁]
  constructor
  · rintro ⟨h, h'⟩
    exact ⟨h', by omega⟩
  · rintro ⟨h, h'⟩
    exact ⟨by omega, h⟩

/-- Where the loop stops while there is an offset left. -/
theorem looked_iff {n : Nat} (hn : (s.nonTabs p n : Int) ≤ s.offset) :
    s.Walked p n ↔ (∀ i < n, s.Draws p i) ∧ ¬s.Draws p n := by
  have hbefore : ∀ i ≤ n, (s.Draws p i ↔ s.GoesOn p i) := fun i hi =>
    draws_iff h₁ ho (by have := nonTabs_mono (s := s) (p := p) hi; omega)
  unfold Walked
  rw [hbefore n (Nat.le_refl n)]
  refine and_congr_left fun _ => forall₂_congr fun i hi => (hbefore i (by omega)).symm

/-- What is left of the offset and of the drawing. -/
theorem final_one (hp : p < s.end_) : ∃ m, (∀ n < m, s.Draws p n) ∧ ¬s.Draws p m ∧
    (s.final p).ofs = max (s.offset - s.singles p m) 0 ∧
    ((s.singles p m : Int) ≤ s.offset → (s.final p).dest.length = s.wides p m) ∧
    (s.final p = s.drawingAt p m ∨ s.end_ ≤ p + m ∧ s.final p = s.Spare p m) := by
  obtain ⟨m, hdraws, hstop, hd⟩ := final_cases hp
  obtain ⟨hofs, hlen⟩ := oneColumn h₁ ho p m
  refine ⟨m, hdraws, hstop, ?_⟩
  rcases hd with ⟨hd, hwhy⟩ | ⟨hend, htab, hd⟩
  · -- the loop has not stopped behind a tab at the end of the text
    have hsingles : (s.nonTabs p m : Int) ≤ s.offset → s.singles p m = s.nonTabs p m := by
      intro hn
      have hno : ¬(s.end_ ≤ p + m ∧ s.mem (p + m - 1) = 9) := ?_
      · unfold singles
        rw [if_neg hno, Nat.add_zero]
      rintro ⟨hend, htab⟩
      have hfull := (hwhy.resolve_right fun h => h.elim (by omega) fun h => h htab)
      rw [hlen hn, h₁] at hfull
      obtain _ | m := m
      · have : s.wides p 0 = 0 := rfl
        omega
      · have hbyte : p + (m + 1 : Nat) - 1 = p + m := by
          push_cast
          omega
        rw [hbyte] at htab
        have hmono := nonTabs_mono (s := s) (p := p) (Nat.le_add_right m 1)
        have := ((draws_iff h₁ ho (by omega)).mp (hdraws m (Nat.lt_succ_self m))).2
        rw [wides_succ, if_pos htab] at hfull
        omega
    have hle : s.nonTabs p m ≤ s.singles p m := Nat.le_add_right _ _
    rw [hd]
    refine ⟨?_, fun h => hlen (by omega), .inl rfl⟩
    by_cases hn : (s.nonTabs p m : Int) ≤ s.offset
    · rw [hofs, hsingles hn]
    · rw [hofs]
      omega
  · have hsingles : s.singles p m = s.nonTabs p m + 1 := by
      unfold singles
      rw [if_pos ⟨hend, htab⟩]
    obtain ⟨hofs', hleft⟩ := discard_one h₁
      (d := ⟨(s.drawingAt p m).dest ++ [⟨32, none⟩], (s.drawingAt p m).ofs⟩) (by simp)
    dsimp only at hofs' hleft
    rw [hd, hsingles]
    refine ⟨?_, fun h => ?_, .inr ⟨hend, rfl⟩⟩
    · unfold Spare
      rw [hofs', hofs]
      push_cast
      omega
    · have hw := hleft (by push_cast at h; omega)
      rw [List.length_append, List.length_singleton, hlen (by push_cast at h; omega)] at hw
      unfold Spare
      omega

end OneColumn

/-- Behind the text there is one char. -/
theorem fits_past (ht : 1 ≤ s.tabstop) (hc : s.columns ≤ MAX_SCR_COLS) (hp : ¬p < s.end_) :
    s.FitsScreen (s.final p) := by
  refine fits_of_left hc ?_
  have hlen : (s.final p).dest.length ≤ 1 := by
    rw [final_past ht hp]
    unfold discard
    split
    · dsimp only
      rw [List.length_drop, List.length_singleton]
      omega
    · rw [List.length_singleton]
  unfold Drawing.left
  split <;> omega

theorem blank_past (hc : s.columns ≤ MAX_SCR_COLS) (hp : ¬p < s.end_) {n : Nat}
    (hn : s.Walked p n) (hlt : (s.singles p n : Int) + 1 < s.offset) : s.Blank p n := by
  have hmax : SCR_OUT_LEN = MAX_SCR_COLS + 64 := rfl
  obtain _ | n := n
  · have hwides : s.wides p 0 = 0 := rfl
    refine ⟨by rw [hwides]; omega, fun i _ _ => ?_⟩
    rw [expansion, if_neg hp, List.getD_eq_default]
    rw [List.length_singleton]
    omega
  · have := (hn.1 0 (Nat.succ_pos n)).1.1
    omega

/-- With tab stops of two columns and more. -/
theorem fits_windowed (h₂ : 2 ≤ s.tabstop) (ht₃₂ : s.tabstop ≤ MAX_TABSTOP)
    (hc : s.columns ≤ MAX_SCR_COLS) (ho : 0 ≤ s.offset) (hp : p < s.end_) :
    s.FitsScreen (s.final p) ∧ s.Windowed p := by
  have hmax : MAX_TABSTOP = 32 := rfl
  obtain ⟨m, hdraws, hstop, ⟨hd, -⟩ | ⟨hend, -, hd⟩⟩ := final_cases hp
  · have htight : s.Tight (s.final p) := hd ▸ keepsUp h₂ p m
    refine ⟨fits_of_left hc (by have := htight.left_lt; omega),
      windowed_of_margin (by omega) ho hp hdraws hd fun hin => ?_⟩
    have hfull : s.columns + s.tabstop ≤ ((s.final p).dest.length : Int) := by
      by_contra h
      exact hstop ⟨by rw [← hd]; omega, hin⟩
    by_contra hofs
    have := htight (by omega)
    omega
  · have htight : s.Tight (s.final p) := by
      rw [hd]
      refine discard_tight h₂ fun hofs => ?_
      have := keepsUp h₂ p m hofs
      rw [List.length_append, List.length_singleton]
      omega
    exact ⟨fits_of_left hc (by have := htight.left_lt; omega),
      windowed_spare (by omega) ho hp hdraws hend hd⟩

theorem wides_looked {m : Nat} (h : s.Walked p m) : s.wides p m ≤ s.columns + 1 := by
  obtain _ | m := m
  · exact Nat.zero_le _
  · have := (h.1 m (Nat.lt_succ_self m)).2
    rw [wides_succ]
    split
    · omega
    · split <;> omega

section OneColumn

variable (h₁ : s.tabstop = 1) (ho : 0 ≤ s.offset) (hp : p < s.end_) {m : Nat}
  (hdraws : ∀ n < m, s.Draws p n) (hc : s.columns ≤ MAX_SCR_COLS)
  (hofs : (s.final p).ofs = max (s.offset - s.singles p m) 0)
  (hd : s.final p = s.drawingAt p m ∨ s.end_ ≤ p + m ∧ s.final p = s.Spare p m)

include h₁ ho hp hdraws hc hofs hd

/-- The offset is used up. -/
theorem fits_windowed_one (hstop : ¬s.Draws p m) (hleft : ¬(s.singles p m : Int) + 1 < s.offset) :
    s.FitsScreen (s.final p) ∧ s.Windowed p := by
  refine ⟨fits_of_left hc ?_, ?_⟩
  · unfold Drawing.left
    split <;> omega
  · rcases hd with hd | ⟨hend, hd⟩
    · refine windowed_of_margin (by omega) ho hp hdraws hd fun hin => ?_
      have hfull : s.columns + s.tabstop ≤ ((s.final p).dest.length : Int) := by
        by_contra h
        exact hstop ⟨by rw [← hd]; omega, hin⟩
      omega
    · exact windowed_spare (by omega) ho hp hdraws hend hd

/-- There is more than a column of the offset left. -/
theorem blank_iff (hlooked : s.Walked p m) (hleft : (s.singles p m : Int) + 1 < s.offset)
    (hlen : (s.final p).dest.length = s.wides p m) :
    s.FitsScreen (s.final p) ∧ s.Windowed p ↔ s.Blank p m := by
  have hmax : SCR_OUT_LEN = MAX_SCR_COLS + 64 := rfl
  have hwides := wides_looked hlooked
  have hfits : s.FitsScreen (s.final p) ↔
      min (s.offset.toNat - s.singles p m) (s.wides p m) + s.columns ≤ SCR_OUT_LEN := by
    unfold FitsScreen Drawing.left
    rw [hlen, hofs]
    split <;> omega
  refine and_congr hfits ?_
  rcases hd with hd | ⟨hend, hd⟩
  · have hcells := (drawingAt_shows (s := s) (by omega) ho p m).length_dest
    have hdrawn : (s.drawn p m).length = s.singles p m + s.wides p m := by
      rw [← hd, hlen, hofs] at hcells
      omega
    rw [windowed_iff (by omega) ho hp hdraws hd, hdrawn]
  · have hin : ¬s.InLine p m := fun h => by
      have := h.1
      omega
    have hcells := (spare_shows (s := s) (by omega) ho p m).length_dest
    refine iff_of_true (windowed_spare (by omega) ho hp hdraws hend hd) fun i _ hj =>
      expansion_behind hp (fun n hn => (hdraws n hn).inLine) hin ?_
    rw [← hd, hlen, hofs, List.length_append] at hcells
    push_cast at hcells
    omega

end OneColumn

/-- **A drawn line is a window** of the line drawn without an offset, and `format_line` writes only
inside its buffer, exactly when the tab stop is not one column, or the part of the line that is left
out behind more control bytes than columns is blank. -/
theorem formatLine_window_iff (s : Ed) (p : Int) (b : Nat → UInt8) (hc : s.columns ≤ MAX_SCR_COLS)
    (ht : 1 ≤ s.tabstop) (ht₃₂ : s.tabstop ≤ MAX_TABSTOP) (ho : 0 ≤ s.offset) :
    (∃ dest buf, s.formatLineBuf p b = some (dest, buf) ∧
      ∀ i < s.columns, buf (dest + i) = (s.expansion p).getD (s.offset.toNat + i) 32) ↔
    (s.tabstop = 1 → ∀ n, s.Walked p n → (s.singles p n : Int) + 1 < s.offset → s.Blank p n) := by
  have hmax : SCR_OUT_LEN = MAX_SCR_COLS + 64 := rfl
  have htab : MAX_TABSTOP = 32 := rfl
  rw [formatLineBuf_iff ht (by omega)]
  change s.FitsScreen (s.final p) ∧ s.Windowed p ↔ _
  by_cases hp : p < s.end_
  · by_cases h₁ : s.tabstop = 1
    · obtain ⟨m, hdraws, hstop, hofs, hlen, hd⟩ := final_one h₁ ho hp
      have hunique : ∀ n, s.Walked p n → (s.singles p n : Int) + 1 < s.offset → n = m := by
        intro n hn hlt
        have hle : s.nonTabs p n ≤ s.singles p n := Nat.le_add_right _ _
        obtain ⟨hbefore, hend⟩ := (looked_iff h₁ ho (by omega)).mp hn
        by_contra hne
        rcases Nat.lt_or_gt_of_ne hne with hlt | hgt
        · exact hend (hdraws n hlt)
        · exact hstop (hbefore m hgt)
      by_cases hleft : (s.singles p m : Int) + 1 < s.offset
      · have hle : s.nonTabs p m ≤ s.singles p m := Nat.le_add_right _ _
        have hlooked : s.Walked p m := (looked_iff h₁ ho (by omega)).mpr ⟨hdraws, hstop⟩
        rw [blank_iff h₁ ho hp hdraws hc hofs hd hlooked hleft (hlen (by omega))]
        constructor
        · rintro h - n hn hlt
          rwa [hunique n hn hlt]
        · exact fun h => h h₁ m hlooked hleft
      · refine iff_of_true (fits_windowed_one h₁ ho hp hdraws hc hofs hd hstop hleft)
          fun _ n hn hlt => ?_
        rw [hunique n hn hlt] at hlt
        exact absurd hlt hleft
    · exact iff_of_true (fits_windowed (by omega) ht₃₂ hc ho hp) fun h => absurd h h₁
  · exact iff_of_true ⟨fits_past ht hc hp, windowed_past ht ho hp⟩ fun _ _ hn hlt =>
      blank_past hc hp hn hlt

/-- A text on a screen of `columns`, scrolled by `offset`. -/
def scrolledText (l : List UInt8) (columns : Nat) (tabstop offset : Int) : Ed :=
  { Ed.zeroed .still with
    mem := memcpy (fun _ => 0) 4096 l
    text := 4096
    end_ := 4096 + l.length
    tabstop := tabstop
    columns := columns
    offset := offset }

/-- The columns of a window that is wider than the buffers. -/
def widest : Nat := (Report.getScreenXy true true (some (50, 5000)) none).1

/-- A tab and a control byte behind it, scrolled by nine columns in the widest window. -/
theorem formatLine_window_iff_tab :
    ∃ dest buf, (scrolledText [9, 1, 97, 98, 10] widest 8 9).formatLineBuf 4096 (fun _ => 0) =
        some (dest, buf) ∧ ∀ i < widest, buf (dest + i) =
          ((scrolledText [9, 1, 97, 98, 10] widest 8 9).expansion 4096).getD (9 + i) 32 := by
  have hcolumns : (scrolledText [9, 1, 97, 98, 10] widest 8 9).columns ≤ MAX_SCR_COLS :=
    (Report.getScreenXy_bounds true true (some (50, 5000)) none).2.1
  refine (formatLine_window_iff _ 4096 (fun _ => 0) hcolumns (by decide) (by decide)
    (by decide)).mpr fun h => ?_
  have htabstop : (8 : Int) = 1 := h
  exact absurd htabstop (by decide)

/-- Six control bytes with a tab stop of one column: the fourth is drawn as two spaces. -/
theorem formatLine_lags :
    ¬∀ (s : Ed) (p : Int) (b : Nat → UInt8), 2 ≤ s.columns → s.columns ≤ MAX_SCR_COLS →
      1 ≤ s.tabstop → s.tabstop ≤ MAX_TABSTOP → 0 ≤ s.offset →
      ∃ dest buf, s.formatLineBuf p b = some (dest, buf) ∧
        ∀ i < s.columns, buf (dest + i) = (s.expansion p).getD (s.offset.toNat + i) 32 := by
  intro h
  obtain ⟨dest, buf, hbuf, hrow⟩ := h (scrolledText [1, 1, 1, 1, 1, 1, 10] 2 1 6) 4096 (fun _ => 0)
    (by decide) (by decide) (by decide) (by decide) (by decide)
  have hspace : ((scrolledText [1, 1, 1, 1, 1, 1, 10] 2 1 6).formatLineBuf 4096 (fun _ => 0)).map
      (fun r => r.2 r.1) = some 32 := by decide +kernel
  have hcaret : ((scrolledText [1, 1, 1, 1, 1, 1, 10] 2 1 6).expansion 4096).getD 6 32 =
      chr '^' := by
    decide +kernel
  rw [hbuf] at hspace
  have hdraw : buf dest = 32 := Option.some.inj hspace
  have hwant : buf dest = chr '^' := (hrow 0 (by decide)).trans hcaret
  rw [hdraw] at hwant
  exact absurd hwant (by decide)

end Evim.Ed
