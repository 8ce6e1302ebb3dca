import Ewokos.Evim.KeyCount

/-!
# evim: key presses with pauses

Key presses that arrive as a unit, each followed by more silence than `ESC_SEQ_TIMEOUT_MS`.

* `paused` — the terminal: a bounded poll gets what is left of the current unit, a blocking read
  goes on to the next one.
* `Press` — the groups of bytes a press can send, with the keys it should give.
* `press_reads` — what the calls for one press report.

Main result: `keys_of_presses_iff` — the successive results are the keys of the presses exactly
when none of them is ESC `O` or ESC `[`.
-/

set_option autoImplicit false

namespace Evim.Keys

/-- A terminal on which units of bytes arrive, with silence behind each. -/
def paused : Tty (List (List UInt8))
  | timeout, units =>
    if timeout < 0 then
      match units.dropWhile (· == []) with
      | (b :: unit) :: units => some (some b, unit :: units)
      | _ => none
    else
      match units with
      | (b :: unit) :: units => some (some b, unit :: units)
      | units => some (none, units)

/-- The sequences of a table, each with its keycode; `pre` is what was read of the first. -/
def entries (pre : List UInt8) : List UInt8 → List (List UInt8 × Int)
  | c :: d :: seq =>
    if c = 0 then []
    else if c &&& 0x80 ≠ 0 then (pre ++ [c &&& 0x7f], signedChar d) :: entries [] seq
    else entries (pre ++ [c]) (d :: seq)
  | _ => []

/-- A press: one byte other than ESC, a lone ESC, ESC and a byte, or ESC and a sequence. -/
inductive Press where
  | byte (b : UInt8)
  | esc
  | alt (x : UInt8)
  | sequence (e : List UInt8 × Int)
  deriving DecidableEq

namespace Press

/-- The presses that can be told apart. -/
def Valid : Press → Prop
  | byte b => b ≠ 27
  | esc => True
  | alt x => x ≠ 27 ∧ ∀ e ∈ entries [] esccmds, e.1 ≠ [x]
  | sequence e => e ∈ entries [] esccmds

/-- What a press sends. -/
def bytes : Press → List UInt8
  | byte b => [b]
  | esc => [27]
  | alt x => [27, x]
  | sequence e => 27 :: e.1

/-- The keys it should give. -/
def keys : Press → List Int
  | byte b => [b.toNat]
  | esc => [27]
  | alt x => [27, x.toNat]
  | sequence e => [e.2]

/-- ESC and a byte with which longer sequences begin. -/
def opensSequence (p : Press) : Prop := p = .alt 79 ∨ p = .alt 91

end Press

instance (p : Press) : Decidable p.Valid := by
  unfold Press.Valid
  split <;> infer_instance

instance (p : Press) : Decidable p.opensSequence :=
  inferInstanceAs (Decidable (_ ∨ _))

/-- What the calls for a press report: two bytes of an unfinished sequence are given up. -/
def Press.reported (p : Press) : List Int := if p.opensSequence then [-1] else p.keys

/-- The results of the next `n` calls, as far as they return.  A jump to `start_over` has read
bytes, so the bytes to come bound the fuel. -/
def results : Nat → ReadBuffer → Stdin (List (List UInt8)) → List Int
  | 0, _, _ => []
  | n + 1, rb, i =>
    match readKey paused (-1) (i.tty.flatten.length + 1) rb i with
    | none => []
    | some (c, rb, i) => c :: results n rb i

/-! ## Scanning a unit -/

/-- Two buffers of one size with the same `n` bytes. -/
def Agree (n : Nat) (b b' : List UInt8) : Prop :=
  b.length = b'.length ∧ ∀ k < n, b.getD k 0 = b'.getD k 0

theorem Agree.set {n : Nat} {b b' : List UInt8} (h : Agree n b b') (c : UInt8) :
    Agree (n + 1) (b.set n c) (b'.set n c) := by
  refine ⟨by simpa using h.1, fun k hk => ?_⟩
  have hl := h.1
  by_cases hkn : k = n
  · subst hkn
    simp only [List.getD_eq_getElem?_getD, List.getElem?_set_self']
    by_cases hlt : k < b'.length
    · simp [hlt, hl]
    · simp [hlt, hl]
  · have := h.2 k (by omega)
    simp only [List.getD_eq_getElem?_getD] at this ⊢
    rw [List.getElem?_set_ne (by omega), List.getElem?_set_ne (by omega)]
    exact this

/-- The same report, with further units behind. -/
def Scan.Like (rest : List (List UInt8)) :
    Scan (List (List UInt8)) → Scan (List (List UInt8)) → Prop
  | .silence n b i, .silence n' b' i' =>
    n = n' ∧ Agree n b b' ∧ i.tty ≠ [] ∧ i'.tty = i.tty ++ rest
  | .matched c b i, .matched c' b' i' =>
    c = c' ∧ b.length = b'.length ∧ i.tty ≠ [] ∧ i'.tty = i.tty ++ rest
  | .mismatch s n b i, .mismatch s' n' b' i' =>
    s = s' ∧ n = n' ∧ Agree n b b' ∧ i.tty ≠ [] ∧ i'.tty = i.tty ++ rest
  | _, _ => False

/-- A bounded poll looks at the current unit only. -/
theorem paused_like {i i' : Stdin (List (List UInt8))} {rest : List (List UInt8)}
    (hne : i.tty ≠ []) (h : i'.tty = i.tty ++ rest) :
    ∃ b j j', safePoll paused ESC_SEQ_TIMEOUT_MS i = some (b, j) ∧
      safePoll paused ESC_SEQ_TIMEOUT_MS i' = some (b, j') ∧ j.tty ≠ [] ∧
      j'.tty = j.tty ++ rest := by
  obtain ⟨units, g⟩ := i
  obtain ⟨units', g'⟩ := i'
  dsimp only at h hne
  subst h
  match units with
  | [] => exact absurd rfl hne
  | [] :: units => exact ⟨none, _, _, rfl, rfl, by simp, rfl⟩
  | (b :: unit) :: units => exact ⟨some b, _, _, rfl, rfl, by simp, rfl⟩

theorem scanSeq_like {rest : List (List UInt8)} :
    ∀ (seq : List UInt8) (k : Nat) {n : Nat} {b b' : List UInt8}
      {i i' : Stdin (List (List UInt8))}, k ≤ n → Agree n b b' → i.tty ≠ [] →
      i'.tty = i.tty ++ rest →
      ∃ r r', scanSeq paused seq k n b i = some r ∧ scanSeq paused seq k n b' i' = some r' ∧
        Scan.Like rest r r'
  | [], k, n, b, b', i, i', _, hb, hne, hi => ⟨_, _, rfl, rfl, rfl, rfl, hb, hne, hi⟩
  | c :: seq, k, n, b, b', i, i', hk, hb, hne, hi => by
    have compare : ∀ {m : Nat} {b b' : List UInt8} {i i' : Stdin (List (List UInt8))}, k < m →
        Agree m b b' → i.tty ≠ [] → i'.tty = i.tty ++ rest → ∃ r r',
        (if b.getD k 0 ≠ c &&& 0x7f then some (.mismatch (skipSeq (c :: seq)) m b i)
          else if c &&& 0x80 ≠ 0 then some (.matched (signedChar (seq.headD 0)) b i)
          else scanSeq paused seq (k + 1) m b i) = some r ∧
        (if b'.getD k 0 ≠ c &&& 0x7f then some (.mismatch (skipSeq (c :: seq)) m b' i')
          else if c &&& 0x80 ≠ 0 then some (.matched (signedChar (seq.headD 0)) b' i')
          else scanSeq paused seq (k + 1) m b' i') = some r' ∧ Scan.Like rest r r' := by
      intro m b b' i i' hkm hb hne hi
      rw [hb.2 k hkm]
      by_cases h₁ : b'.getD k 0 ≠ c &&& 0x7f
      · rw [if_pos h₁, if_pos h₁]
        exact ⟨_, _, rfl, rfl, rfl, rfl, hb, hne, hi⟩
      · rw [if_neg h₁, if_neg h₁]
        by_cases h₂ : c &&& 0x80 ≠ 0
        · rw [if_pos h₂, if_pos h₂]
          exact ⟨_, _, rfl, rfl, rfl, hb.1, hne, hi⟩
        · rw [if_neg h₂, if_neg h₂]
          exact scanSeq_like seq (k + 1) hkm hb hne hi
    unfold scanSeq
    dsimp only
    by_cases hn : n ≤ k
    · rw [if_pos hn, if_pos hn]
      obtain ⟨x, j, j', h₁, h₂, h₃, h₄⟩ := paused_like hne hi
      rw [h₁, h₂]
      cases x with
      | none => exact ⟨_, _, rfl, rfl, rfl, hb, h₃, h₄⟩
      | some x => exact compare (by omega) (hb.set x) h₃ h₄
    · rw [if_neg hn, if_neg hn]
      exact compare (by omega) hb hne hi

theorem scanTable_like {rest : List (List UInt8)} :
    ∀ (fuel : Nat) (seq : List UInt8) {n : Nat} {b b' : List UInt8}
      {i i' : Stdin (List (List UInt8))}, Agree n b b' → i.tty ≠ [] → i'.tty = i.tty ++ rest →
      ∃ r r', scanTable paused fuel seq n b i = some r ∧
        scanTable paused fuel seq n b' i' = some r' ∧ Scan.Like rest r r'
  | 0, _, _, _, _, _, _, hb, hne, hi => ⟨_, _, rfl, rfl, rfl, rfl, hb, hne, hi⟩
  | fuel + 1, seq, n, b, b', i, i', hb, hne, hi => by
    unfold scanTable
    by_cases h₀ : seq.headD 0 = 0
    · rw [if_pos h₀, if_pos h₀]
      exact ⟨_, _, rfl, rfl, rfl, rfl, hb, hne, hi⟩
    · rw [if_neg h₀, if_neg h₀]
      obtain ⟨r, r', h₁, h₂, hl⟩ := scanSeq_like seq 0 (Nat.zero_le n) hb hne hi
      rw [h₁, h₂]
      cases r with
      | silence =>
        cases r' with
        | silence => exact ⟨_, _, rfl, rfl, hl⟩
        | matched => exact hl.elim
        | mismatch => exact hl.elim
      | matched =>
        cases r' with
        | silence => exact hl.elim
        | matched => exact ⟨_, _, rfl, rfl, hl⟩
        | mismatch => exact hl.elim
      | mismatch =>
        cases r' with
        | silence => exact hl.elim
        | matched => exact hl.elim
        | mismatch =>
          obtain ⟨rfl, rfl, hb, hne, hi⟩ := hl
          exact scanTable_like fuel _ hb hne hi

/-! ## The scan of one press -/

/-- The scan of a unit behind its ESC, on its own. -/
def unitScan (unit : List UInt8) : Option (Scan (List (List UInt8))) :=
  scanTable paused esccmds.length esccmds 0 ReadBuffer.zeroed.buffer ⟨[unit], 0⟩

/-- A byte that begins no sequence is read and kept. -/
def Keeps (x : UInt8) : Prop :=
  match unitScan [x] with
  | some (.mismatch _ n b i) => n = 1 ∧ b.getD 0 0 = x ∧ i.tty = [[]]
  | _ => False

instance (x : UInt8) : Decidable (Keeps x) := by
  unfold Keeps
  split <;> infer_instance

/-- A sequence of the table is recognised. -/
def Recognised (e : List UInt8 × Int) : Prop :=
  match unitScan e.1 with
  | some (.matched c _ i) => c = e.2 ∧ i.tty = [[]]
  | _ => False

instance (e : List UInt8 × Int) : Decidable (Recognised e) := by
  unfold Recognised
  split <;> infer_instance

/-- A byte with which longer sequences begin runs out of time. -/
def GivenUp (x : UInt8) : Prop :=
  match unitScan [x] with
  | some (.silence n _ i) => n = 1 ∧ i.tty = [[]]
  | _ => False

instance (x : UInt8) : Decidable (GivenUp x) := by
  unfold GivenUp
  split <;> infer_instance

theorem keeps_of_lt : ∀ n < 256, n = 27 ∨ n = 79 ∨ n = 91 ∨
    (∃ e ∈ entries [] esccmds, e.1 = [UInt8.ofNat n]) ∨ Keeps (UInt8.ofNat n) := by
  decide +kernel

theorem keeps (x : UInt8) (h₁ : x ≠ 27) (h₂ : ∀ e ∈ entries [] esccmds, e.1 ≠ [x]) (h₃ : x ≠ 79)
    (h₄ : x ≠ 91) : Keeps x := by
  have h := keeps_of_lt x.toNat (UInt8.toNat_lt x)
  rw [UInt8.ofNat_toNat] at h
  rcases h with h | h | h | ⟨e, he, h⟩ | h
  · exact absurd (UInt8.toNat_inj.mp h) h₁
  · exact absurd (UInt8.toNat_inj.mp h) h₃
  · exact absurd (UInt8.toNat_inj.mp h) h₄
  · exact absurd h (h₂ e he)
  · exact h

theorem recognised : ∀ e ∈ entries [] esccmds, Recognised e := by decide +kernel

theorem givenUp : GivenUp 79 ∧ GivenUp 91 := by decide +kernel

/-! ## The calls for one press -/

theorem results_cons {n : Nat} {rb rb' : ReadBuffer} {i i' : Stdin (List (List UInt8))} {c : Int}
    (h : readKey paused (-1) (i.tty.flatten.length + 1) rb i = some (c, rb', i')) :
    results (n + 1) rb i = c :: results n rb' i' := by
  rw [results, h]

/-- A scan keeps the size of the buffer. -/
def Scan.size {σ : Type} : Scan σ → Nat
  | .silence _ b _ => b.length
  | .matched _ b _ => b.length
  | .mismatch _ _ b _ => b.length

theorem scanSeq_size {σ : Type} {poll : Tty σ} : ∀ {seq : List UInt8} {k n : Nat}
    {buffer : List UInt8} {i : Stdin σ} {r : Scan σ},
    scanSeq poll seq k n buffer i = some r → r.size = buffer.length
  | [], _, _, _, _, _, h => by
    cases h
    rfl
  | c :: seq, k, n, buffer, i, r, h => by
    have compare : ∀ {m : Nat} {b : List UInt8} {j : Stdin σ},
        (if b.getD k 0 ≠ c &&& 0x7f then some (.mismatch (skipSeq (c :: seq)) m b j)
          else if c &&& 0x80 ≠ 0 then some (.matched (signedChar (seq.headD 0)) b j)
          else scanSeq poll seq (k + 1) m b j) = some r → r.size = b.length := by
      intro m b j h
      rcases ite_eq_iff.mp h with ⟨-, h⟩ | ⟨-, h⟩
      · cases h
        rfl
      · rcases ite_eq_iff.mp h with ⟨-, h⟩ | ⟨-, h⟩
        · cases h
          rfl
        · exact scanSeq_size h
    unfold scanSeq at h
    dsimp only at h
    split at h
    · split at h
      · cases h
      · cases h
        rfl
      · rw [compare h, List.length_set]
    · exact compare h

theorem scanTable_size {σ : Type} {poll : Tty σ} : ∀ {fuel : Nat} {seq : List UInt8} {n : Nat}
    {buffer : List UInt8} {i : Stdin σ} {r : Scan σ},
    scanTable poll fuel seq n buffer i = some r → r.size = buffer.length
  | 0, _, _, _, _, _, h => by
    cases h
    rfl
  | fuel + 1, seq, n, buffer, i, r, h => by
    unfold scanTable at h
    split at h
    · cases h
      rfl
    · split at h
      · rename_i hs
        rw [scanTable_size h]
        exact scanSeq_size hs
      · exact scanSeq_size h

theorem unitScan_size {unit : List UInt8} {r : Scan (List (List UInt8))}
    (h : unitScan unit = some r) : r.size = KEYCODE_BUFFER_SIZE - 1 :=
  (scanTable_size h).trans (by decide)

/-- A state between two presses: nothing saved, and the units from the next press on to come. -/
structure Between (units : List (List UInt8)) (rb : ReadBuffer) (i : Stdin (List (List UInt8))) :
    Prop where
  count : rb.count = 0
  size : rb.buffer.length = KEYCODE_BUFFER_SIZE - 1
  units : i.tty.dropWhile (· == []) = units.dropWhile (· == [])

/-- A blocking read takes the first byte of the next unit. -/
theorem safePoll_paused {i : Stdin (List (List UInt8))} {c : UInt8} {unit : List UInt8}
    {rest : List (List UInt8)} (h : i.tty.dropWhile (· == []) = (c :: unit) :: rest) :
    safePoll paused (-1) i = some (some c, ⟨unit :: rest, i.got + 1⟩) := by
  have hp : paused (-1) i.tty = some (some c, unit :: rest) := by
    unfold paused
    dsimp only
    rw [if_pos (by decide), h]
  rw [safePoll, hp]
  rfl

/-- A call that starts with a byte other than ESC. -/
theorem readKey_plain {rb : ReadBuffer} {i : Stdin (List (List UInt8))} {c : UInt8}
    {unit : List UInt8} {rest : List (List UInt8)} (hb : Between ((c :: unit) :: rest) rb i)
    (hc : c ≠ 27) (fuel : Nat) :
    readKey paused (-1) (fuel + 1) rb i =
      some ((c.toNat : Int), ⟨0, rb.buffer.set 0 c⟩, ⟨unit :: rest, i.got + 1⟩) := by
  have hlen := hb.size
  have hget : (rb.buffer.set 0 c).getD 0 0 = c := by
    rw [List.getD_eq_getElem?_getD, List.getElem?_set_self (by rw [hlen]; decide)]
    rfl
  rw [readKey]
  dsimp only
  rw [if_pos hb.count, safePoll_paused (hb.units.trans rfl)]
  dsimp only [Option.map_some]
  rw [if_pos rfl, hget, if_pos hc]

/-- A call that finds a byte other than ESC saved. -/
theorem readKey_saved {b : List UInt8} {i : Stdin (List (List UInt8))} {x : UInt8}
    (hx : b.getD 0 0 = x) (hne : x ≠ 27) (fuel : Nat) :
    readKey paused (-1) (fuel + 1) ⟨1, b⟩ i = some ((x.toNat : Int), ⟨0, b⟩, i) := by
  rw [readKey]
  dsimp only
  rw [if_neg (by decide)]
  dsimp only
  rw [if_pos rfl, hx, if_pos hne]

/-- A call that starts with an ESC: what the scan of its unit makes of it. -/
theorem readKey_escape {rb : ReadBuffer} {i : Stdin (List (List UInt8))} {unit : List UInt8}
    {rest : List (List UInt8)} (hb : Between ((27 :: unit) :: rest) rb i) :
    ∃ r r', unitScan unit = some r ∧ Scan.Like rest r r' ∧
      ∀ fuel, readKey paused (-1) (fuel + 1) rb i =
        match r' with
        | .silence n b i => some (if n = 0 then 27 else -1, ⟨rb.count, b⟩, i)
        | .matched code b i => some (code, ⟨0, b⟩, i)
        | .mismatch _ n b i =>
          if n ≤ 1 then some (27, ⟨n, b⟩, i) else readKey paused (-1) fuel ⟨0, b⟩ i := by
  have hlen := hb.size
  have hget : (rb.buffer.set 0 27).getD 0 0 = 27 := by
    rw [List.getD_eq_getElem?_getD, List.getElem?_set_self (by rw [hlen]; decide)]
    rfl
  have hagree : Agree 0 ReadBuffer.zeroed.buffer (rb.buffer.set 0 27) :=
    ⟨by rw [List.length_set, hlen]; rfl, fun k hk => absurd hk (Nat.not_lt_zero k)⟩
  have hne : (⟨[unit], 0⟩ : Stdin (List (List UInt8))).tty ≠ [] := by simp
  have htty : (⟨unit :: rest, i.got + 1⟩ : Stdin (List (List UInt8))).tty = [unit] ++ rest := rfl
  obtain ⟨r, r', h₁, h₂, hl⟩ := scanTable_like esccmds.length esccmds hagree hne htty
  refine ⟨r, r', h₁, hl, fun fuel => ?_⟩
  rw [readKey]
  dsimp only
  rw [if_pos hb.count, safePoll_paused (hb.units.trans rfl)]
  dsimp only [Option.map_some]
  rw [if_pos rfl, hget, if_neg (by decide), h₂]
  cases r' <;> rfl

/-- The state behind a call that used up its unit. -/
theorem between_rest {rest : List (List UInt8)} {b : List UInt8}
    {i : Stdin (List (List UInt8))} (hb : b.length = KEYCODE_BUFFER_SIZE - 1)
    (hi : i.tty = [] :: rest) : Between rest ⟨0, b⟩ i := by
  refine ⟨rfl, hb, ?_⟩
  rw [hi, List.dropWhile_cons]
  rfl

/-- **The calls for one press** report what `reported` says and use up its unit. -/
theorem press_results {p : Press} (hp : p.Valid) {rest : List (List UInt8)} {rb : ReadBuffer}
    {i : Stdin (List (List UInt8))} (hb : Between (p.bytes :: rest) rb i) :
    ∃ rb' i', Between rest rb' i' ∧
      ∀ n, results (p.reported.length + n) rb i = p.reported ++ results n rb' i' := by
  have hsize : ReadBuffer.zeroed.buffer.length = KEYCODE_BUFFER_SIZE - 1 := by decide
  -- one call that uses up the unit
  have one : ∀ {c : Int} {b : List UInt8} {j : Stdin (List (List UInt8))},
      p.reported = [c] → b.length = KEYCODE_BUFFER_SIZE - 1 → j.tty = [] :: rest →
      (∀ fuel, readKey paused (-1) (fuel + 1) rb i = some (c, ⟨0, b⟩, j)) →
      ∃ rb' i', Between rest rb' i' ∧
        ∀ n, results (p.reported.length + n) rb i = p.reported ++ results n rb' i' := by
    intro c b j hr hl hj hk
    refine ⟨⟨0, b⟩, j, between_rest hl hj, fun n => ?_⟩
    rw [hr, List.length_singleton, Nat.add_comm 1 n, results_cons (hk _)]
    rfl
  cases p with
  | byte x =>
    refine one (c := x.toNat) (b := rb.buffer.set 0 x) (j := ⟨[] :: rest, i.got + 1⟩) rfl ?_ rfl ?_
    · rw [List.length_set]
      exact hb.size
    · exact fun fuel => readKey_plain hb hp fuel
  | esc =>
    have hs : unitScan [] = some (.silence 0 ReadBuffer.zeroed.buffer ⟨[[]], 0⟩) :=
      scanTable_silent (by decide) rfl
    obtain ⟨r, r', h₁, hl, hk⟩ := readKey_escape hb
    obtain rfl := Option.some.inj (hs.symm.trans h₁)
    cases r' with
    | silence n b j =>
      obtain ⟨rfl, ⟨hlen, -⟩, -, hj⟩ := hl
      refine one (c := 27) (b := b) (j := j) rfl (hlen.symm.trans hsize) hj fun fuel => ?_
      rw [hk, hb.count]
      rfl
    | matched => exact hl.elim
    | mismatch => exact hl.elim
  | alt x =>
    obtain ⟨r, r', h₁, hl, hk⟩ := readKey_escape hb
    by_cases hx : (Press.alt x).opensSequence
    · -- the two bytes are given up
      have hr : (Press.alt x).reported = [-1] := if_pos hx
      have hg : GivenUp x := by
        rcases hx with hx | hx
        · cases hx
          exact givenUp.1
        · cases hx
          exact givenUp.2
      unfold GivenUp at hg
      rw [h₁] at hg
      cases r with
      | silence n b i₀ =>
        obtain ⟨rfl, htty⟩ := hg
        cases r' with
        | silence n' b' j =>
          obtain ⟨rfl, ⟨hlen, -⟩, -, hj⟩ := hl
          rw [htty] at hj
          have hb₀ := unitScan_size h₁
          refine one (c := -1) (b := b') (j := j) hr (hlen.symm.trans hb₀) hj fun fuel => ?_
          rw [hk, hb.count]
          rfl
        | matched => exact hl.elim
        | mismatch => exact hl.elim
      | matched => exact hg.elim
      | mismatch => exact hg.elim
    · -- ESC, and the byte is kept for the next call
      have hr : (Press.alt x).reported = [27, (x.toNat : Int)] := if_neg hx
      have hkeep : Keeps x := keeps x hp.1 hp.2 (fun e => hx (.inl (by rw [e])))
        (fun e => hx (.inr (by rw [e])))
      unfold Keeps at hkeep
      rw [h₁] at hkeep
      cases r with
      | silence => exact hkeep.elim
      | matched => exact hkeep.elim
      | mismatch s n b i₀ =>
        obtain ⟨rfl, hb₀, htty⟩ := hkeep
        cases r' with
        | silence => exact hl.elim
        | matched => exact hl.elim
        | mismatch s' n' b' j =>
          obtain ⟨rfl, rfl, ⟨hlen, hbytes⟩, -, hj⟩ := hl
          rw [htty] at hj
          have hx' : b'.getD 0 0 = x := by rw [← hbytes 0 Nat.zero_lt_one, hb₀]
          refine ⟨⟨0, b'⟩, j, between_rest (hlen.symm.trans (unitScan_size h₁)) hj, fun n => ?_⟩
          rw [hr, show [27, (x.toNat : Int)].length + n = n + 1 + 1 from Nat.add_comm 2 n,
            results_cons (hk _), results_cons (readKey_saved hx' hp.1 _)]
          rfl
  | sequence e =>
    have hs := recognised e hp
    obtain ⟨r, r', h₁, hl, hk⟩ := readKey_escape hb
    unfold Recognised at hs
    rw [h₁] at hs
    cases r with
    | silence => exact hs.elim
    | matched code b i₀ =>
      obtain ⟨rfl, htty⟩ := hs
      cases r' with
      | silence => exact hl.elim
      | matched code' b' j =>
        obtain ⟨rfl, hlen, -, hj⟩ := hl
        rw [htty] at hj
        have hb₀ := unitScan_size h₁
        have hr : (Press.sequence e).reported = [e.2] := if_neg fun h => by
          rcases h with h | h <;> cases h
        exact one (c := e.2) (b := b') (j := j) hr (hlen.symm.trans hb₀) hj hk
      | mismatch => exact hl.elim
    | mismatch => exact hs.elim

/-! ## The calls for a series of presses -/

/-- Fewer calls report the first results only. -/
theorem results_take (m : Nat) : ∀ (n : Nat) (rb : ReadBuffer) (i : Stdin (List (List UInt8))),
    results n rb i = (results (n + m) rb i).take n
  | 0, _, _ => rfl
  | n + 1, rb, i => by
    rw [Nat.add_right_comm, results, results]
    cases readKey paused (-1) (i.tty.flatten.length + 1) rb i with
    | none => rfl
    | some r =>
      show r.1 :: results n r.2.1 r.2.2 = (r.1 :: results (n + m) r.2.1 r.2.2).take (n + 1)
      rw [List.take_succ_cons, ← results_take m n]

/-- Without a byte to come, a call does not return. -/
theorem readKey_blocks {rb : ReadBuffer} {i : Stdin (List (List UInt8))} (hb : Between [] rb i)
    (fuel : Nat) : readKey paused (-1) (fuel + 1) rb i = none := by
  have hp : paused (-1) i.tty = none := by
    unfold paused
    dsimp only
    rw [if_pos (by decide), hb.units]
    rfl
  rw [readKey]
  dsimp only
  rw [if_pos hb.count, safePoll, hp]
  rfl

theorem results_nil {rb : ReadBuffer} {i : Stdin (List (List UInt8))} (hb : Between [] rb i) :
    ∀ n, results n rb i = []
  | 0 => rfl
  | n + 1 => by rw [results, readKey_blocks hb]

/-- The successive results are what the presses report, one press after the other. -/
theorem presses_results : ∀ {ps : List Press}, (∀ p ∈ ps, p.Valid) → ∀ {rb : ReadBuffer}
    {i : Stdin (List (List UInt8))}, Between (ps.map Press.bytes) rb i →
    ∀ n, results n rb i = (ps.flatMap Press.reported).take n
  | [], _, rb, i, hb, n => by
    rw [results_nil hb, List.flatMap_nil, List.take_nil]
  | p :: ps, hps, rb, i, hb, n => by
    obtain ⟨hp, hps⟩ := List.forall_mem_cons.mp hps
    obtain ⟨rb', i', hb', h⟩ := press_results hp hb
    have ih := presses_results hps hb' n
    calc results n rb i
        = (results (n + p.reported.length) rb i).take n := results_take _ n rb i
      _ = (p.reported ++ (ps.flatMap Press.reported).take n).take n := by
        rw [Nat.add_comm, h, ih]
      _ = (p.reported ++ ps.flatMap Press.reported).take n := by
        rw [List.take_append, List.take_append, List.take_take, Nat.min_eq_left (Nat.sub_le _ _)]
      _ = ((p :: ps).flatMap Press.reported).take n := by rw [List.flatMap_cons]

theorem reported_length_le (p : Press) : p.reported.length ≤ p.keys.length := by
  unfold Press.reported
  split
  · rename_i h
    rcases h with rfl | rfl <;> exact Nat.le_succ 1
  · exact Nat.le_refl _

theorem reported_length_lt {p : Press} (h : p.opensSequence) :
    p.reported.length < p.keys.length := by
  have hr : p.reported = [-1] := if_pos h
  rw [hr]
  rcases h with rfl | rfl <;> exact Nat.lt_succ_self 1

theorem flatMap_reported_length_le : ∀ ps : List Press,
    (ps.flatMap Press.reported).length ≤ (ps.flatMap Press.keys).length
  | [] => Nat.le_refl 0
  | p :: ps => by
    rw [List.flatMap_cons, List.flatMap_cons, List.length_append, List.length_append]
    exact Nat.add_le_add (reported_length_le p) (flatMap_reported_length_le ps)

theorem flatMap_reported_length_lt {ps : List Press} {p : Press} (hp : p ∈ ps)
    (h : p.opensSequence) :
    (ps.flatMap Press.reported).length < (ps.flatMap Press.keys).length := by
  obtain ⟨l, r, rfl⟩ := List.append_of_mem hp
  have hl := flatMap_reported_length_le l
  have hr := flatMap_reported_length_le r
  have hlt := reported_length_lt h
  simp only [List.flatMap_append, List.flatMap_cons, List.length_append]
  omega

/-- **Separated presses give their keys** exactly when none of them is ESC and a byte with which
longer sequences begin. -/
theorem keys_of_presses_iff (ps : List Press) (hps : ∀ p ∈ ps, p.Valid) :
    (∀ n, results n .zeroed ⟨ps.map Press.bytes, 0⟩ = (ps.flatMap Press.keys).take n) ↔
      ∀ p ∈ ps, ¬p.opensSequence := by
  have hstart : Between (ps.map Press.bytes) .zeroed ⟨ps.map Press.bytes, 0⟩ :=
    ⟨rfl, by decide, rfl⟩
  constructor
  · -- the two bytes that are given up leave too few results
    intro h p hp hopen
    have hlt := flatMap_reported_length_lt hp hopen
    have hn := h (ps.flatMap Press.keys).length
    rw [presses_results hps hstart, List.take_of_length_le hlt.le, List.take_length] at hn
    rw [hn] at hlt
    exact Nat.lt_irrefl _ hlt
  · intro h n
    rw [presses_results hps hstart]
    congr 1
    exact List.flatMap_congr fun p hp => if_neg (h p hp)

/-- `i`, an arrow key, ESC, and Alt-z. -/
theorem keys_of_presses_typed :
    results 5 .zeroed ⟨[[105], [27, 91, 65], [27], [27, 122]], 0⟩ = [105, -2, 27, 27, 122] :=
  (keys_of_presses_iff [.byte 105, .sequence ([91, 65], -2), .esc, .alt 122] (by decide)).mpr
    (by decide) 5

/-- ESC `[` and then silence: neither of the two bytes is reported. -/
theorem escape_bracket_dropped :
    (∀ p ∈ [Press.alt 91], p.Valid) ∧ results 2 .zeroed ⟨[[27, 91]], 0⟩ = [-1] ∧
      [Press.alt 91].flatMap Press.keys = [27, 91] := by
  decide +kernel

end Evim.Keys
