import Ewokos.Evim.KeyGroups
import Ewokos.Lib.Overlap

/-!
# evim: unknown CSI sequences

* `encode` — the layout of `esccmds`.
* `scanTable_reach` — a unit that is no sequence of the table, and no part of one, is read as far as
  some sequence goes along with it, and one byte further.
* `Ignored` — a call of `read_key` goes on behind the unit as if it had not been there.

Main result: `csi_ignored_iff`.
-/

set_option autoImplicit false

namespace Evim.Keys

open Overlap

/-! ## The layout of the table -/

/-- One sequence and its keycode, the last char marked. -/
def encodeSeq : List UInt8 → UInt8 → List UInt8
  | [], _ => []
  | [c], code => [c ||| 0x80, code]
  | c :: d :: e, code => c :: encodeSeq (d :: e) code

/-- A table: the sequences, and a 0. -/
def encode (T : List (List UInt8 × UInt8)) : List UInt8 :=
  T.flatMap (fun e => encodeSeq e.1 e.2) ++ [0]

/-- The sequences of `esccmds`, with their keycodes as bytes. -/
def sequences : List (List UInt8 × UInt8) :=
  (entries [] esccmds).map fun e => (e.1, UInt8.ofInt e.2)

theorem encode_sequences : encode sequences = esccmds := by decide +kernel

/-- The sequences a table can hold. -/
structure Storable (e : List UInt8) : Prop where
  nonempty : e ≠ []
  fits : e.length ≤ KEYCODE_BUFFER_SIZE - 1
  ascii : ∀ c ∈ e, 0 < c ∧ c < 128

instance (e : List UInt8) : Decidable (Storable e) :=
  decidable_of_iff (e ≠ [] ∧ e.length ≤ KEYCODE_BUFFER_SIZE - 1 ∧ ∀ c ∈ e, 0 < c ∧ c < 128)
    ⟨fun h => ⟨h.1, h.2.1, h.2.2⟩, fun h => ⟨h.nonempty, h.fits, h.ascii⟩⟩

theorem storable : ∀ e ∈ sequences, Storable e.1 := by decide +kernel

/-- A char of a sequence, and the last one. -/
theorem marks_of_lt : ∀ n < 128, UInt8.ofNat n &&& 0x80 = 0 ∧ UInt8.ofNat n &&& 0x7f = UInt8.ofNat n ∧
    (UInt8.ofNat n ||| 0x80) &&& 0x80 ≠ 0 ∧ (UInt8.ofNat n ||| 0x80) &&& 0x7f = UInt8.ofNat n ∧
    UInt8.ofNat n ||| 0x80 ≠ 0 := by
  decide +kernel

theorem marks {c : UInt8} (h : c < 128) : c &&& 0x80 = 0 ∧ c &&& 0x7f = c ∧
    (c ||| 0x80) &&& 0x80 ≠ 0 ∧ (c ||| 0x80) &&& 0x7f = c ∧ c ||| 0x80 ≠ 0 := by
  have hm := marks_of_lt c.toNat (UInt8.lt_iff_toNat_lt.mp h)
  rw [UInt8.ofNat_toNat] at hm
  exact hm

/-- Over a sequence to the next one. -/
theorem skipSeq_encode (code : UInt8) (tail : List UInt8) : ∀ {e : List UInt8}, e ≠ [] →
    (∀ c ∈ e, c < 128) → skipSeq (encodeSeq e code ++ tail) = tail
  | [], h, _ => absurd rfl h
  | [c], _, h => by
    obtain ⟨-, -, hm, -, -⟩ := marks (h c List.mem_cons_self)
    rw [encodeSeq, List.cons_append, List.cons_append, skipSeq, if_neg hm]
    rfl
  | c :: d :: e, _, h => by
    obtain ⟨hm, -⟩ := marks (h c List.mem_cons_self)
    rw [encodeSeq, List.cons_append, skipSeq, if_pos hm]
    exact skipSeq_encode code tail (by simp) fun d hd => h d (List.mem_cons_of_mem _ hd)

/-! ## The scan of a unit -/

/-- `n` bytes of the unit `w` have been read into the buffer. -/
structure Holds (w : List UInt8) (n : Nat) (buffer : List UInt8)
    (i : Stdin (List (List UInt8))) : Prop where
  le : n ≤ w.length
  size : buffer.length = KEYCODE_BUFFER_SIZE - 1
  bytes : ∀ k < n, buffer.getD k 0 = w.getD k 0
  tty : i.tty = [w.drop n]

section Scan

variable {w : List UInt8} {n k : Nat} {buffer : List UInt8} {i : Stdin (List (List UInt8))}

/-- Position `k` is compared with the byte of the unit. -/
theorem scanSeq_read (h : Holds w n buffer i) (hk : k ≤ n) (hw : k < w.length)
    (hsize : k < KEYCODE_BUFFER_SIZE - 1) (c : UInt8) (seq : List UInt8) :
    ∃ buffer' i', Holds w (max n (k + 1)) buffer' i' ∧ scanSeq paused (c :: seq) k n buffer i =
      if w.getD k 0 ≠ c &&& 0x7f then
        some (.mismatch (skipSeq (c :: seq)) (max n (k + 1)) buffer' i')
      else if c &&& 0x80 ≠ 0 then some (.matched (signedChar (seq.headD 0)) buffer' i')
      else scanSeq paused seq (k + 1) (max n (k + 1)) buffer' i' := by
  by_cases hn : n ≤ k
  · obtain rfl : n = k := Nat.le_antisymm hn hk
    have hdrop : w.drop n = w.getD n 0 :: w.drop (n + 1) := by
      rw [List.drop_eq_getElem_cons hw, List.getD_eq_getElem _ _ hw]
    have hpoll : safePoll paused ESC_SEQ_TIMEOUT_MS i =
        some (some (w.getD n 0), ⟨[w.drop (n + 1)], i.got + 1⟩) := by
      have hp : paused ESC_SEQ_TIMEOUT_MS i.tty = some (some (w.getD n 0), [w.drop (n + 1)]) := by
        rw [h.tty, hdrop]
        rfl
      rw [safePoll, hp]
      rfl
    have hset : Holds w (n + 1) (buffer.set n (w.getD n 0)) ⟨[w.drop (n + 1)], i.got + 1⟩ := by
      have hlt : n < buffer.length := by
        rw [h.size]
        exact hsize
      refine ⟨hw, ?_, fun j hj => ?_, rfl⟩
      · rw [List.length_set]
        exact h.size
      · by_cases hjn : j = n
        · subst hjn
          rw [List.getD_eq_getElem?_getD, List.getElem?_set_self hlt]
          rfl
        · rw [List.getD_eq_getElem?_getD, List.getElem?_set_ne (Ne.symm hjn),
            ← List.getD_eq_getElem?_getD]
          exact h.bytes j (by omega)
    have hmax : max n (n + 1) = n + 1 := by omega
    refine ⟨_, _, hmax ▸ hset, ?_⟩
    conv_lhs => unfold scanSeq
    dsimp only
    rw [if_pos (Nat.le_refl n), hpoll, hmax]
    dsimp only
    rw [hset.bytes n (Nat.lt_succ_self n)]
  · have hmax : max n (k + 1) = n := by omega
    rw [hmax]
    refine ⟨buffer, i, h, ?_⟩
    conv_lhs => unfold scanSeq
    dsimp only
    rw [if_neg hn, h.bytes k (by omega)]

/-- The unit goes on at `k`. -/
theorem drop_eq_cons (h : w.drop k ≠ []) :
    k < w.length ∧ w.drop k = w.getD k 0 :: w.drop (k + 1) := by
  have hlt : k < w.length := by
    by_contra hle
    exact h (List.drop_eq_nil_of_le (not_lt.mp hle))
  exact ⟨hlt, by rw [List.drop_eq_getElem_cons hlt, List.getD_eq_getElem _ _ hlt]⟩

/-- One sequence: the scan follows it along the unit, and reads one byte more. -/
theorem scanSeq_overlap (code : UInt8) (tail : List UInt8) : ∀ {e : List UInt8} {k n : Nat}
    {buffer : List UInt8} {i : Stdin (List (List UInt8))}, e ≠ [] → (∀ c ∈ e, c < 128) →
    k + e.length ≤ KEYCODE_BUFFER_SIZE - 1 → Holds w n buffer i → k ≤ n → ¬e <+: w.drop k →
    ¬w.drop k <+: e →
    ∃ buffer' i', Holds w (max n (k + overlap e (w.drop k) + 1)) buffer' i' ∧
      scanSeq paused (encodeSeq e code ++ tail) k n buffer i =
        some (.mismatch tail (max n (k + overlap e (w.drop k) + 1)) buffer' i')
  | [], _, _, _, _, hne, _, _, _, _, _, _ => absurd rfl hne
  | [c], k, n, buffer, i, hne, hascii, hlen, h, hk, hnot, hnot' => by
    obtain ⟨-, -, -, hm, -⟩ := marks (hascii c List.mem_cons_self)
    obtain ⟨hlt, hdrop⟩ := drop_eq_cons (w := w) (k := k) fun hnil => hnot' (hnil ▸ List.nil_prefix)
    have hdiff : w.getD k 0 ≠ c := by
      rintro rfl
      exact hnot ⟨w.drop (k + 1), hdrop.symm⟩
    have hzero : overlap [c] (w.drop k) = 0 := by
      rw [hdrop, overlap, if_neg (Ne.symm hdiff)]
    have hskip : skipSeq ((c ||| 0x80) :: code :: tail) = tail := skipSeq_encode code tail hne hascii
    obtain ⟨buffer', i', hholds, hscan⟩ := scanSeq_read h hk hlt (by
      rw [List.length_singleton] at hlen
      omega) (c ||| 0x80) (code :: tail)
    rw [hm, if_pos hdiff, hskip] at hscan
    rw [hzero, Nat.add_zero]
    exact ⟨buffer', i', hholds, hscan⟩
  | c :: d :: e, k, n, buffer, i, hne, hascii, hlen, h, hk, hnot, hnot' => by
    obtain ⟨hm₁, hm₂, -⟩ := marks (hascii c List.mem_cons_self)
    obtain ⟨hlt, hdrop⟩ := drop_eq_cons (w := w) (k := k) fun hnil => hnot' (hnil ▸ List.nil_prefix)
    have hskip := skipSeq_encode code tail hne hascii
    rw [List.length_cons] at hlen
    obtain ⟨buffer', i', hholds, hscan⟩ := scanSeq_read h hk hlt (by omega) c
      (encodeSeq (d :: e) code ++ tail)
    rw [hm₁, hm₂] at hscan
    by_cases hsame : w.getD k 0 = c
    · have hgoes : ∀ l, (c :: l <+: w.drop k ↔ l <+: w.drop (k + 1)) ∧
          (w.drop k <+: c :: l ↔ w.drop (k + 1) <+: l) := by
        intro l
        rw [hdrop, hsame, List.cons_prefix_cons, List.cons_prefix_cons]
        simp
      have hone : overlap (c :: d :: e) (w.drop k) = overlap (d :: e) (w.drop (k + 1)) + 1 := by
        rw [hdrop, overlap, if_pos hsame.symm]
      obtain ⟨buffer'', i'', hholds', hscan'⟩ := scanSeq_overlap code tail
        (e := d :: e) (k := k + 1) (by simp) (fun x hx => hascii x (List.mem_cons_of_mem _ hx))
        (by omega) hholds (by omega) (fun h => hnot ((hgoes _).1.mpr h))
        fun h => hnot' ((hgoes _).2.mpr h)
      rw [if_neg (not_not.mpr hsame), if_neg (not_not.mpr rfl), hscan'] at hscan
      have hmax : max (max n (k + 1)) (k + 1 + overlap (d :: e) (w.drop (k + 1)) + 1) =
          max n (k + overlap (c :: d :: e) (w.drop k) + 1) := by
        rw [hone]
        omega
      rw [hmax] at hholds' hscan
      exact ⟨buffer'', i'', hholds', hscan⟩
    · have hzero : overlap (c :: d :: e) (w.drop k) = 0 := by
        rw [hdrop, overlap, if_neg (Ne.symm hsame)]
      rw [encodeSeq, List.cons_append] at hskip
      rw [if_pos hsame, hskip] at hscan
      rw [hzero, Nat.add_zero]
      exact ⟨buffer', i', hholds, hscan⟩

/-- **A unit that no sequence of the table matches, and that is not the beginning of one,** is read
as far as the table follows it. -/
theorem scanTable_reach : ∀ {T : List (List UInt8 × UInt8)} (fuel : Nat) {n : Nat} {buffer : List UInt8}
    {i : Stdin (List (List UInt8))}, T.length < fuel → (∀ e ∈ T, Storable e.1) → Holds w n buffer i →
    (∀ e ∈ T, ¬e.1 <+: w ∧ ¬w <+: e.1) →
    ∃ buffer' i', Holds w (reach (T.map Prod.fst) n w) buffer' i' ∧
      scanTable paused fuel (encode T) n buffer i =
        some (.mismatch [] (reach (T.map Prod.fst) n w) buffer' i')
  | [], fuel, _, buffer, i, hfuel, _, h, _ => by
    obtain ⟨fuel, rfl⟩ : ∃ k, fuel = k + 1 := Nat.exists_eq_succ_of_ne_zero (by omega)
    refine ⟨buffer, i, h, ?_⟩
    rw [scanTable]
    exact if_pos rfl
  | (e, code) :: T, fuel, n, buffer, i, hfuel, hstore, h, hnot => by
    obtain ⟨fuel, rfl⟩ : ∃ k, fuel = k + 1 := Nat.exists_eq_succ_of_ne_zero (by omega)
    obtain ⟨hsto, hstore⟩ := List.forall_mem_cons.mp hstore
    obtain ⟨⟨hnot₁, hnot₂⟩, hnot⟩ := List.forall_mem_cons.mp hnot
    rw [List.length_cons] at hfuel
    have hflat : encode ((e, code) :: T) = encodeSeq e code ++ encode T := by
      unfold encode
      rw [List.flatMap_cons, List.append_assoc]
    obtain ⟨buffer', i', hholds, hscan⟩ := scanSeq_overlap code (encode T)
      (k := 0) hsto.nonempty (fun c hc => (hsto.ascii c hc).2) (by rw [Nat.zero_add]; exact hsto.fits)
      h (Nat.zero_le n) (by rw [List.drop_zero]; exact hnot₁) (by rw [List.drop_zero]; exact hnot₂)
    rw [List.drop_zero, Nat.zero_add] at hholds hscan
    obtain ⟨buffer'', i'', hholds', hscan'⟩ := scanTable_reach fuel (by omega) hstore hholds hnot
    have hhead : (encodeSeq e code ++ encode T).headD 0 ≠ 0 := by
      match e, hsto with
      | [], hsto => exact absurd rfl hsto.nonempty
      | [c], hsto => exact (marks (hsto.ascii c List.mem_cons_self).2).2.2.2.2
      | c :: d :: e, hsto => exact Ne.symm (UInt8.ne_of_lt (hsto.ascii c List.mem_cons_self).1)
    refine ⟨buffer'', i'', hholds', ?_⟩
    rw [hflat, scanTable, if_neg hhead, hscan]
    exact hscan'

end Scan

/-! ## CSI sequences -/

/-- A parameter byte: a digit or `;`. -/
def IsParam (c : UInt8) : Prop := (48 ≤ c ∧ c ≤ 57) ∨ c = 59

/-- A final byte. -/
def IsFinal (c : UInt8) : Prop := 64 ≤ c ∧ c ≤ 126

instance (c : UInt8) : Decidable (IsParam c) := inferInstanceAs (Decidable (_ ∨ _))

instance (c : UInt8) : Decidable (IsFinal c) := inferInstanceAs (Decidable (_ ∧ _))

/-- No sequence of the table is `[` and parameters only. -/
theorem sequence_ends : ∀ e ∈ sequences, ∃ c ∈ e.1, c ≠ 91 ∧ ¬IsParam c := by decide +kernel

/-- No sequence of the table goes on behind a final byte. -/
theorem sequence_inner : ∀ e ∈ sequences, ∀ c ∈ e.1.dropLast.drop 1, ¬IsFinal c := by decide +kernel

section Csi

variable {ps : List UInt8} {f : UInt8} (hps : ∀ c ∈ ps, IsParam c) (hf : IsFinal f)
  (hnew : ∀ e ∈ sequences, e.1 ≠ 91 :: (ps ++ [f]))

include hps hf hnew

theorem csi_unknown : ∀ e ∈ sequences, ¬e.1 <+: 91 :: (ps ++ [f]) ∧ ¬91 :: (ps ++ [f]) <+: e.1 := by
  intro e he
  constructor
  · rintro ⟨r, hr⟩
    rcases List.eq_nil_or_concat r with rfl | ⟨r, x, rfl⟩
    · rw [List.append_nil] at hr
      exact hnew e he hr
    · rw [List.concat_eq_append, ← List.append_assoc, ← List.cons_append] at hr
      obtain ⟨hpre, -⟩ := List.append_inj' hr rfl
      obtain ⟨c, hc, hc₁, hc₂⟩ := sequence_ends e he
      have hmem : c ∈ 91 :: ps := by
        rw [← hpre]
        exact List.mem_append_left r hc
      rcases List.mem_cons.mp hmem with h | h
      · exact hc₁ h
      · exact hc₂ (hps c h)
  · rintro ⟨r, hr⟩
    cases r with
    | nil =>
      rw [List.append_nil] at hr
      exact hnew e he hr.symm
    | cons x r =>
      refine sequence_inner e he f ?_ hf
      rw [← hr, List.dropLast_append_of_ne_nil (by simp), List.cons_append, List.drop_succ_cons,
        List.drop_zero]
      simp

/-- The scan of the sequence. -/
theorem csi_scan : ∃ b i, 2 ≤ reach (sequences.map Prod.fst) 0 (91 :: (ps ++ [f])) ∧
    Holds (91 :: (ps ++ [f])) (reach (sequences.map Prod.fst) 0 (91 :: (ps ++ [f]))) b i ∧
    unitScan (91 :: (ps ++ [f])) =
      some (.mismatch [] (reach (sequences.map Prod.fst) 0 (91 :: (ps ++ [f]))) b i) := by
  have hstart : Holds (91 :: (ps ++ [f])) 0 ReadBuffer.zeroed.buffer ⟨[91 :: (ps ++ [f])], 0⟩ :=
    ⟨Nat.zero_le _, by decide, fun k hk => absurd hk (Nat.not_lt_zero k), rfl⟩
  have hlen : sequences.length < esccmds.length := by decide +kernel
  obtain ⟨b, i, hholds, hscan⟩ :=
    scanTable_reach esccmds.length hlen storable hstart (csi_unknown hps hf hnew)
  rw [encode_sequences] at hscan
  refine ⟨b, i, ?_, hholds, hscan⟩
  have hbracket : [91, 65] ∈ sequences.map Prod.fst := by decide +kernel
  refine lt_reach_iff.mpr (.inr ⟨_, hbracket, le_overlap_iff.mpr ⟨?_, ?_⟩⟩)
  · rw [List.length_cons]
    omega
  · rw [List.take_succ_cons, List.take_zero]
    exact ⟨[65], rfl⟩

end Csi

/-- The call goes on behind the unit `ESC w` as if it had not been there. -/
def Ignored (w : List UInt8) : Prop :=
  ∀ (rest : List (List UInt8)) (rb : ReadBuffer) (i : Stdin (List (List UInt8))) (fuel : Nat),
    Between ((27 :: w) :: rest) rb i → ∃ rb' i', Between rest rb' i' ∧
      readKey paused (-1) (fuel + 1) rb i = readKey paused (-1) fuel rb' i'

/-- The call for the sequence goes on with what the scan has left of it. -/
theorem readKey_csi {ps : List UInt8} {f : UInt8} (hps : ∀ c ∈ ps, IsParam c) (hf : IsFinal f)
    (hnew : ∀ e ∈ sequences, e.1 ≠ 91 :: (ps ++ [f])) {rest : List (List UInt8)} {rb : ReadBuffer}
    {i : Stdin (List (List UInt8))} (hb : Between ((27 :: 91 :: (ps ++ [f])) :: rest) rb i) :
    ∃ rb' i', Between
        ((91 :: (ps ++ [f])).drop (reach (sequences.map Prod.fst) 0 (91 :: (ps ++ [f]))) :: rest)
        rb' i' ∧
      ∀ fuel, readKey paused (-1) (fuel + 1) rb i = readKey paused (-1) fuel rb' i' := by
  obtain ⟨b, j, htwo, hholds, hscan⟩ := csi_scan hps hf hnew
  obtain ⟨r, r', h₁, hlike, hread⟩ := readKey_escape hb
  obtain rfl := Option.some.inj (hscan.symm.trans h₁)
  cases r' with
  | silence => exact hlike.elim
  | matched => exact hlike.elim
  | mismatch s n b' i' =>
    obtain ⟨rfl, rfl, ⟨hlen, -⟩, -, htty⟩ := hlike
    refine ⟨⟨0, b'⟩, i', ⟨rfl, hlen ▸ hholds.size, ?_⟩, fun fuel => ?_⟩
    · rw [htty, hholds.tty]
      rfl
    · rw [hread]
      dsimp only
      rw [if_neg (by omega)]

/-- **An unknown CSI sequence is ignored** exactly if all of it but the final byte begins a sequence
that `esccmds` has. -/
theorem csi_ignored_iff {ps : List UInt8} {f : UInt8} (hps : ∀ c ∈ ps, IsParam c) (hf : IsFinal f)
    (hnew : ∀ e ∈ sequences, e.1 ≠ 91 :: (ps ++ [f])) :
    Ignored (91 :: (ps ++ [f])) ↔ ∃ e ∈ sequences, 91 :: ps <+: e.1 := by
  have hlast : (∃ e ∈ sequences, 91 :: ps <+: e.1) ↔
      (91 :: (ps ++ [f])).length ≤ reach (sequences.map Prod.fst) 0 (91 :: (ps ++ [f])) := by
    rw [length_le_reach_iff (by simp), ← List.cons_append, List.dropLast_concat]
    simp
  rw [hlast]
  constructor
  · intro h
    by_contra hleft
    have hstart : Between [27 :: 91 :: (ps ++ [f])] .zeroed ⟨[27 :: 91 :: (ps ++ [f])], 0⟩ :=
      ⟨rfl, by decide, rfl⟩
    obtain ⟨rb', i', hb', hread⟩ := readKey_csi hps hf hnew hstart
    obtain ⟨rb'', i'', hb'', hread'⟩ := h [] .zeroed _ 1 hstart
    have hne : (91 :: (ps ++ [f])).drop (reach (sequences.map Prod.fst) 0 (91 :: (ps ++ [f]))) ≠ [] :=
      fun hnil => hleft (List.drop_eq_nil_iff.mp hnil)
    obtain ⟨x, l, hx⟩ := List.exists_cons_of_ne_nil hne
    have hesc : x ≠ 27 := by
      have hmem : x ∈ 91 :: (ps ++ [f]) := List.mem_of_mem_drop (hx ▸ List.mem_cons_self)
      simp only [List.mem_cons, List.mem_append, List.not_mem_nil, or_false] at hmem
      rintro rfl
      rcases hmem with h | h | h
      · exact absurd h (by decide)
      · exact absurd (hps 27 h) (by decide)
      · exact absurd (h ▸ hf) (by decide)
    rw [hx] at hb'
    rw [hread, readKey_plain hb' hesc, readKey_blocks hb''] at hread'
    cases hread'
  · intro hall rest rb i fuel hb
    obtain ⟨rb', i', hb', hread⟩ := readKey_csi hps hf hnew hb
    rw [List.drop_of_length_le hall] at hb'
    exact ⟨rb', i', ⟨hb'.count, hb'.size, hb'.units⟩, hread fuel⟩

/-- Shift-Tab, ESC `[` `Z`. -/
theorem csi_ignored_iff_tab : Ignored (91 :: ([] ++ [90])) :=
  (csi_ignored_iff (by simp) (by decide) (by decide +kernel)).mpr (by decide +kernel)

/-- F9, ESC `[` `2` `0` `~`, comes out as `~`. -/
theorem csi_reported :
    (∀ e ∈ sequences, e.1 ≠ 91 :: ([50, 48] ++ [126])) ∧
      results 1 .zeroed ⟨[27 :: 91 :: ([50, 48] ++ [126])], 0⟩ = [126] ∧
      ¬Ignored (91 :: ([50, 48] ++ [126])) := by
  refine ⟨by decide +kernel, by decide +kernel, fun h => ?_⟩
  obtain ⟨rb, i, hb, hread⟩ := h [] .zeroed ⟨[27 :: 91 :: ([50, 48] ++ [126])], 0⟩ 1
    ⟨rfl, by decide, rfl⟩
  rw [readKey_blocks hb] at hread
  have hsome : (readKey paused (-1) 2 .zeroed
      ⟨[27 :: 91 :: ([50, 48] ++ [126])], 0⟩).isSome := by decide +kernel
  rw [hread] at hsome
  cases hsome

end Evim.Keys
