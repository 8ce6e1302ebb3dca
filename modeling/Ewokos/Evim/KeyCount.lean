import Ewokos.Evim.Keys

/-!
# evim: keys and bytes

Every key that `read_key` reports uses up a byte, except when the char it saved is an ESC: when
nothing follows such an ESC in time, it is reported and saved again.

* `scanTable_counts` — the table scan reads as many bytes as it says.
* `readKey_counts` — what one call adds to the keys and to the bytes.
* `Reads` — the runs of calls that share one `readbuffer`.

Main result: `keys_le_bytes` — in a run without such a call there are never more keys than bytes;
and each such call is a key for nothing, and the next one finds the same state.
-/

set_option autoImplicit false

namespace Evim.Keys

variable {σ : Type} {poll : Tty σ}

/-- What a scan that began with `n₀` bytes can report: the bytes it read are counted, and it runs
out of time without a byte only on its first poll. -/
def Scan.Counts (poll : Tty σ) (n₀ : Nat) (i₀ : Stdin σ) : Scan σ → Prop
  | .silence n _ i => n₀ ≤ n ∧ i.got + n₀ = i₀.got + n ∧
      (n = 0 → ∃ i', safePoll poll ESC_SEQ_TIMEOUT_MS i₀ = some (none, i'))
  | .matched _ _ i => i₀.got ≤ i.got ∧ i₀.got + 1 ≤ i.got + n₀
  | .mismatch _ n _ i => n₀ ≤ n ∧ i.got + n₀ = i₀.got + n

theorem safePoll_got {t : Int} {i i' : Stdin σ} {b : Option UInt8}
    (h : safePoll poll t i = some (b, i')) :
    i'.got = if b.isSome then i.got + 1 else i.got := by
  obtain ⟨r, -, e⟩ := Option.map_eq_some_iff.mp h
  cases e
  rfl

/-- One sequence, from position `k` on, with the `k` bytes before it at hand. -/
theorem scanSeq_counts : ∀ {seq : List UInt8} {k n : Nat} {buffer : List UInt8} {i : Stdin σ}
    {r : Scan σ}, k ≤ n → scanSeq poll seq k n buffer i = some r →
    r.Counts poll n i ∧ ∀ seq' n' b' i', r = .mismatch seq' n' b' i' → seq ≠ [] → k < n'
  | [], _, _, _, _, r, _, h => by
    cases h
    exact ⟨⟨Nat.le_refl _, rfl⟩, fun _ _ _ _ _ hne => absurd rfl hne⟩
  | c :: seq, k, n, buffer, i, r, hk, h => by
    -- the comparison, with more than `k` bytes at hand
    have compare : ∀ {m : Nat} {b : List UInt8} {j : Stdin σ}, k < m → n ≤ m →
        j.got + n = i.got + m →
        (if b.getD k 0 ≠ c &&& 0x7f then some (.mismatch (skipSeq (c :: seq)) m b j)
          else if c &&& 0x80 ≠ 0 then some (.matched (signedChar (seq.headD 0)) b j)
          else scanSeq poll seq (k + 1) m b j) = some r →
        r.Counts poll n i ∧ ∀ seq' n' b' i', r = .mismatch seq' n' b' i' → c :: seq ≠ [] → k < n' := by
      intro m b j hk hn hg h
      rcases ite_eq_iff.mp h with ⟨-, h⟩ | ⟨-, h⟩
      · cases h
        refine ⟨⟨hn, hg⟩, fun _ n' _ _ e _ => ?_⟩
        cases e
        exact hk
      · rcases ite_eq_iff.mp h with ⟨-, h⟩ | ⟨-, h⟩
        · cases h
          refine ⟨⟨by omega, by omega⟩, fun _ _ _ _ e _ => ?_⟩
          cases e
        · obtain ⟨ih, -⟩ := scanSeq_counts hk h
          cases r with
          | silence n' b' i' =>
            obtain ⟨h₁, h₂, -⟩ := ih
            exact ⟨⟨by omega, by omega, by omega⟩, fun _ _ _ _ e _ => by cases e⟩
          | matched code b' i' =>
            obtain ⟨h₁, h₂⟩ := ih
            exact ⟨⟨by omega, by omega⟩, fun _ _ _ _ e _ => by cases e⟩
          | mismatch seq' n' b' i' =>
            obtain ⟨h₁, h₂⟩ := ih
            refine ⟨⟨by omega, by omega⟩, fun _ n₂ _ _ e _ => ?_⟩
            cases e
            omega
    unfold scanSeq at h
    dsimp only at h
    split at h
    · split at h
      · cases h
      · rename_i i' hp
        cases h
        have hg := safePoll_got hp
        simp only [Option.isSome_none, Bool.false_eq_true, if_false] at hg
        exact ⟨⟨Nat.le_refl _, by omega, fun _ => ⟨i', hp⟩⟩, fun _ _ _ _ e _ => by cases e⟩
      · rename_i b i' hp
        have hg := safePoll_got hp
        simp only [Option.isSome_some, if_true] at hg
        exact compare (by omega) (by omega) (by omega) h
    · exact compare (by omega) (Nat.le_refl _) rfl h

/-- The whole table. -/
theorem scanTable_counts : ∀ {fuel : Nat} {seq : List UInt8} {n : Nat} {buffer : List UInt8}
    {i : Stdin σ} {r : Scan σ}, scanTable poll fuel seq n buffer i = some r → r.Counts poll n i
  | 0, _, _, _, _, r, h => by
    cases h
    exact ⟨Nat.le_refl _, rfl⟩
  | fuel + 1, seq, n, buffer, i, r, h => by
    unfold scanTable at h
    split at h
    · cases h
      exact ⟨Nat.le_refl _, rfl⟩
    · rename_i hne
      split at h
      · rename_i seq' n' b' i' hs
        obtain ⟨⟨h₁, h₂⟩, h₃⟩ := scanSeq_counts (Nat.zero_le n) hs
        have hn' := h₃ _ _ _ _ rfl (by rintro rfl; exact hne rfl)
        have ih := scanTable_counts h
        cases r with
        | silence n₂ b₂ i₂ =>
          obtain ⟨h₄, h₅, -⟩ := ih
          exact ⟨by omega, by omega, by omega⟩
        | matched code b₂ i₂ =>
          obtain ⟨h₄, h₅⟩ := ih
          exact ⟨by omega, by omega⟩
        | mismatch seq₂ n₂ b₂ i₂ =>
          obtain ⟨h₄, h₅⟩ := ih
          exact ⟨by omega, by omega⟩
      · exact (scanSeq_counts (Nat.zero_le n) h).1

/-! ## One call -/

/-- An ESC is saved, and nothing follows it in time. -/
def Stuck (poll : Tty σ) (rb : ReadBuffer) (i : Stdin σ) : Prop :=
  rb.count = 1 ∧ rb.buffer.getD 0 0 = 27 ∧
    ∃ i', safePoll poll ESC_SEQ_TIMEOUT_MS i = some (none, i')

/-- Whether a result of `read_key` is a key. -/
def isKey (c : Int) : Nat := if c = -1 then 0 else 1

theorem isKey_le (c : Int) : isKey c ≤ 1 := by
  unfold isKey
  split <;> omega

/-- What a call does behind the first byte, of which it has read `m`. -/
theorem readKey_rest {timeout c : Int} {fuel m : Nat} {rb rb' : ReadBuffer} {i i' j : Stdin σ}
    {buffer : List UInt8} (hs : ¬Stuck poll rb i)
    (again : ∀ {b : List UInt8} {k : Stdin σ}, readKey poll timeout fuel ⟨0, b⟩ k = some (c, rb', i') →
      isKey c + rb'.count + k.got ≤ i'.got ∧ rb'.count ≤ 1)
    (hm : m + rb.count = 1) (hj : j.got = i.got + m)
    (hsaved : rb.count = 1 → j = i ∧ buffer = rb.buffer)
    (h : (if buffer.getD 0 0 ≠ 27 then some (((buffer.getD 0 0).toNat : Int), ReadBuffer.mk 0 buffer, j)
      else match scanTable poll esccmds.length esccmds 0 buffer j with
        | none => none
        | some (.silence n b i) => some (if n = 0 then 27 else -1, ⟨rb.count, b⟩, i)
        | some (.matched code b i) => some (code, ⟨0, b⟩, i)
        | some (.mismatch _ n b i) =>
          if n ≤ 1 then some (27, ⟨n, b⟩, i)
          else readKey poll timeout fuel ⟨0, b⟩ i) = some (c, rb', i')) :
    isKey c + rb'.count + i.got ≤ rb.count + i'.got ∧ rb'.count ≤ 1 := by
  have hk := isKey_le c
  split at h
  · cases h
    dsimp only
    omega
  · rename_i hesc
    have hesc : buffer.getD 0 0 = 27 := by simpa using hesc
    split at h
    · cases h
    · rename_i n b i₂ ht
      obtain ⟨h₁, h₂, h₃⟩ := scanTable_counts ht
      cases h
      dsimp only
      by_cases hn : n = 0
      · -- only a fresh ESC may be given up without a byte
        have hfresh : rb.count = 0 := by
          by_contra hne
          obtain ⟨rfl, rfl⟩ := hsaved (by omega)
          exact hs ⟨by omega, hesc, h₃ hn⟩
        omega
      · rw [if_neg hn]
        have : isKey (-1) = 0 := rfl
        omega
    · rename_i code b i₂ ht
      obtain ⟨h₁, h₂⟩ := scanTable_counts ht
      cases h
      dsimp only
      omega
    · rename_i seq n b i₂ ht
      obtain ⟨h₁, h₂⟩ := scanTable_counts ht
      split at h
      · cases h
        dsimp only
        omega
      · obtain ⟨h₃, h₄⟩ := again h
        omega

/-- A call that is not stuck reports no key it did not read, the saved char included. -/
theorem readKey_counts {timeout c : Int} : ∀ {fuel : Nat} {rb rb' : ReadBuffer} {i i' : Stdin σ},
    rb.count ≤ 1 → ¬Stuck poll rb i → readKey poll timeout fuel rb i = some (c, rb', i') →
    isKey c + rb'.count + i.got ≤ rb.count + i'.got ∧ rb'.count ≤ 1
  | 0, _, _, _, _, _, _, h => by cases h
  | fuel + 1, rb, rb', i, i', hc, hs, h => by
    have again : ∀ {b : List UInt8} {k : Stdin σ},
        readKey poll timeout fuel ⟨0, b⟩ k = some (c, rb', i') →
        isKey c + rb'.count + k.got ≤ i'.got ∧ rb'.count ≤ 1 := by
      intro b k h
      have hst : ¬Stuck poll ⟨0, b⟩ k := fun hst => by simpa using hst.1
      simpa using readKey_counts (Nat.zero_le 1) hst h
    unfold readKey at h
    dsimp only at h
    by_cases hcount : rb.count = 0
    · rw [if_pos hcount] at h
      cases hp : safePoll poll timeout i with
      | none =>
        rw [hp] at h
        cases h
      | some r =>
        obtain ⟨b, j⟩ := r
        rw [hp] at h
        have hg := safePoll_got hp
        cases b with
        | none =>
          cases h
          simp only [Option.isSome_none, Bool.false_eq_true, if_false] at hg
          have : isKey (-1) = 0 := rfl
          dsimp only
          omega
        | some b =>
          simp only [Option.isSome_some, if_true] at hg
          exact readKey_rest (m := 1) hs again (by omega) (by omega) (by omega) h
    · rw [if_neg hcount] at h
      have hone : rb.count = 1 := by omega
      rw [hone] at h
      refine readKey_rest (m := 0) hs again (by omega) rfl (fun _ => ⟨rfl, rfl⟩) ?_
      rw [hone]
      exact h

/-- With nothing at hand and nothing to come, the scan ends on its first poll. -/
theorem scanTable_silent {n : Nat} {c : UInt8} {seq buffer : List UInt8} {i i' : Stdin σ}
    (hc : c ≠ 0) (h : safePoll poll ESC_SEQ_TIMEOUT_MS i = some (none, i')) :
    scanTable poll (n + 1) (c :: seq) 0 buffer i = some (.silence 0 buffer i') := by
  unfold scanTable
  rw [List.headD_cons, if_neg hc]
  unfold scanSeq
  rw [if_pos (Nat.zero_le 0), h]

/-- A stuck call reports an ESC, reads nothing and leaves the buffer as it was. -/
theorem readKey_stuck {rb : ReadBuffer} {i : Stdin σ} (h : Stuck poll rb i) (timeout : Int)
    (fuel : Nat) : ∃ i', readKey poll timeout (fuel + 1) rb i = some (27, rb, i') ∧
      i'.got = i.got := by
  obtain ⟨h₁, h₂, i', h₃⟩ := h
  have hg := safePoll_got h₃
  refine ⟨i', ?_, hg⟩
  have ht : scanTable poll esccmds.length esccmds 0 rb.buffer i = some (.silence 0 rb.buffer i') :=
    scanTable_silent (by decide) h₃
  unfold readKey
  dsimp only
  rw [if_neg (by omega)]
  dsimp only
  rw [h₁, if_pos rfl, if_neg (by simpa using h₂), ht, ← h₁]
  rfl

/-! ## Runs -/

/-- A run of calls that share one `readbuffer`, each in a state that is `ok`, after `k` keys. -/
inductive Reads (poll : Tty σ) (ok : ReadBuffer → Stdin σ → Prop) :
    ReadBuffer → Stdin σ → Nat → Prop where
  | start (tty : σ) : Reads poll ok .zeroed ⟨tty, 0⟩ 0
  | call {rb rb' : ReadBuffer} {i i' : Stdin σ} {k fuel : Nat} {timeout c : Int} :
    Reads poll ok rb i k → ok rb i → readKey poll timeout fuel rb i = some (c, rb', i') →
    Reads poll ok rb' i' (k + isKey c)

/-- **Never more keys than bytes**, in a run without a stuck call; and a stuck call is a key
without a byte, after which the buffer is as it was. -/
theorem keys_le_bytes (poll : Tty σ) :
    (∀ rb i k, Reads poll (fun rb i => ¬Stuck poll rb i) rb i k → k ≤ i.got) ∧
    ∀ rb i timeout fuel, Stuck poll rb i →
      ∃ i', readKey poll timeout (fuel + 1) rb i = some (27, rb, i') ∧ i'.got = i.got := by
  refine ⟨fun rb i k h => ?_, fun rb i timeout fuel h => readKey_stuck h timeout fuel⟩
  have hinv : k + rb.count ≤ i.got ∧ rb.count ≤ 1 := by
    induction h with
    | start tty => exact ⟨Nat.le_refl 0, Nat.zero_le 1⟩
    | call _ hok hr ih =>
      have := readKey_counts ih.2 hok hr
      omega
  omega

/-- A terminal that delivers these bytes and then stays silent. -/
def typed : Tty (List UInt8)
  | timeout, [] => if timeout < 0 then none else some (none, [])
  | _, b :: l => some (some b, l)

/-- A cursor key, a letter and the ESC key: three keys of five bytes. -/
theorem keys_le_bytes_typed :
    ∃ rb i, Reads typed (fun rb i => ¬Stuck typed rb i) rb i 3 ∧ 3 ≤ i.got := by
  have hs (b : List UInt8) (i : Stdin (List UInt8)) : ¬Stuck typed ⟨0, b⟩ i := fun h => by cases h.1
  have h : ∀ k b i, Reads typed (fun rb i => ¬Stuck typed rb i) ⟨0, b⟩ i k →
      ∀ r ∈ readKey typed (-1) 1 ⟨0, b⟩ i,
        Reads typed (fun rb i => ¬Stuck typed rb i) r.2.1 r.2.2 (k + isKey r.1) :=
    fun k b i hr r h => hr.call (hs b i) h
  have h₁ := h 0 _ _ (Reads.start [27, 91, 65, 97, 27])
  have h₂ := h 1 _ _ (h₁ (-2, ⟨0, [91, 65] ++ List.replicate 13 0⟩, ⟨[97, 27], 3⟩) (by decide))
  have h₃ := h 2 _ _ (h₂ (97, ⟨0, [97, 65] ++ List.replicate 13 0⟩, ⟨[27], 4⟩) (by decide))
  have h₄ := h₃ (27, ⟨0, [27, 65] ++ List.replicate 13 0⟩, ⟨[], 5⟩) (by decide)
  exact ⟨_, _, h₄, (keys_le_bytes typed).1 _ _ _ h₄⟩

/-- ESC ESC and then silence: three calls report three keys for the two bytes. -/
theorem two_escapes_three_keys :
    ∃ rb i, Reads typed (fun _ _ => True) rb i 3 ∧ i.got = 2 := by
  have h : ∀ k rb i, Reads typed (fun _ _ => True) rb i k →
      ∀ r ∈ readKey typed (-1) 1 rb i, Reads typed (fun _ _ => True) r.2.1 r.2.2 (k + isKey r.1) :=
    fun k rb i hr r h => hr.call trivial h
  have h₁ := h 0 _ _ (Reads.start [27, 27])
  have h₂ := h 1 _ _ (h₁ (27, ⟨1, 27 :: List.replicate 14 0⟩, ⟨[], 2⟩) (by decide))
  have h₃ := h 2 _ _ (h₂ (27, ⟨1, 27 :: List.replicate 14 0⟩, ⟨[], 2⟩) (by decide))
  exact ⟨_, _, h₃ (27, ⟨1, 27 :: List.replicate 14 0⟩, ⟨[], 2⟩) (by decide), rfl⟩

end Evim.Keys
