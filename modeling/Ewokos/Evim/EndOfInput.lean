import Ewokos.Evim.Keys
import Ewokos.Evim.Newline
import Ewokos.Evim.QueueSpan

/-!
# evim: the end of stdin

* `closing` — the terminal: any bytes, with any silences between them, and then end of file.
* `readKey_closing` — each call of `read_key` uses up some of that, or it has come to the end: it
  reports -1, or an ESC that it cannot give up, and so does every later call.
* `Ended.editStep` — a round of the loop that starts there ends there, and the editor goes on.
* `Ended.hitLoop`, `Ended.inputLoop` — the loops inside of a round never come back from there.
* `editStep_spends` — any other round uses up keys, or what the `.` queue holds.

Main result: `editFile_returns_iff`.
-/

set_option autoImplicit false

namespace Evim

open Cells
open CString hiding strchr

namespace Keys

/-! ## `read_key` at the end of stdin -/

/-- A terminal on which bytes arrive, `none` being a silence longer than a time limit; then it is at
end of file. -/
def closing : Tty (List (Option UInt8))
  | _, [] => some (none, [])
  | timeout, none :: rest => if timeout < 0 then closing timeout rest else some (none, rest)
  | _, some b :: rest => some (some b, rest)

/-- A poll uses up some of the input, or there is none. -/
theorem closing_reads (timeout : Int) : ∀ tty, ∃ b rest, closing timeout tty = some (b, rest) ∧
    (rest.length < tty.length ∨ (tty = [] ∧ b = none ∧ rest = []))
  | [] => ⟨none, [], rfl, .inr ⟨rfl, rfl, rfl⟩⟩
  | some b :: rest => ⟨some b, rest, rfl, .inl (Nat.lt_succ_self _)⟩
  | none :: rest => by
    by_cases ht : timeout < 0
    · obtain ⟨b, rest', he, hr⟩ := closing_reads timeout rest
      refine ⟨b, rest', ?_, .inl ?_⟩
      · rw [closing, if_pos ht]
        exact he
      · rw [List.length_cons]
        rcases hr with hlt | ⟨hnil, -, rfl⟩
        · omega
        · exact Nat.succ_pos _
    · refine ⟨none, rest, ?_, .inl (Nat.lt_succ_self _)⟩
      rw [closing, if_neg ht]

variable {i j : Stdin (List (Option UInt8))} {n : Nat} {buffer : List UInt8}

theorem safePoll_closing (timeout : Int) (i : Stdin (List (Option UInt8))) :
    ∃ b j, safePoll closing timeout i = some (b, j) ∧
      (j.tty.length < i.tty.length ∨ (i.tty = [] ∧ b = none ∧ j = i)) := by
  obtain ⟨b, rest, he, hr⟩ := closing_reads timeout i.tty
  refine ⟨b, ⟨rest, if b.isSome then i.got + 1 else i.got⟩, ?_, ?_⟩
  · rw [safePoll, he]
    rfl
  · rcases hr with hlt | ⟨hnil, rfl, rfl⟩
    · exact .inl hlt
    · refine .inr ⟨hnil, rfl, ?_⟩
      rw [← hnil]
      rfl

/-- What a scan has read from `i` on, when it started with `n` bytes: each byte is in the buffer. -/
def Scan.Reads (n : Nat) (buffer : List UInt8) (i : Stdin (List (Option UInt8))) :
    Scan (List (Option UInt8)) → Prop
  | .silence n' buffer' i' =>
    i'.tty.length < i.tty.length ∨ (i.tty = [] ∧ n' = n ∧ buffer' = buffer ∧ i' = i)
  | .matched _ _ i' => i'.tty.length ≤ i.tty.length
  | .mismatch _ n' buffer' i' => (n' = n ∧ buffer' = buffer ∧ i' = i) ∨
    (i'.tty.length < i.tty.length ∧ i'.tty.length + n' ≤ i.tty.length + n)

/-- Bytes read before. -/
theorem Scan.Reads.behind {n' : Nat} {buffer' : List UInt8} {r : Scan (List (Option UInt8))}
    (h : r.Reads n' buffer' j) (hlt : j.tty.length < i.tty.length)
    (hn : j.tty.length + n' ≤ i.tty.length + n) : r.Reads n buffer i := by
  cases r with
  | silence n₁ buffer₁ i₁ =>
    rcases h with h | ⟨-, -, -, rfl⟩
    · exact .inl (by omega)
    · exact .inl hlt
  | matched code buffer₁ i₁ =>
    have h' : i₁.tty.length ≤ j.tty.length := h
    show i₁.tty.length ≤ i.tty.length
    omega
  | mismatch seq n₁ buffer₁ i₁ =>
    rcases h with ⟨rfl, -, rfl⟩ | ⟨h₁, h₂⟩
    · exact .inr ⟨hlt, hn⟩
    · exact .inr ⟨by omega, by omega⟩

theorem scanSeq_reads : ∀ (seq : List UInt8) (k n : Nat) (buffer : List UInt8)
    (i : Stdin (List (Option UInt8))),
    ∃ r, scanSeq closing seq k n buffer i = some r ∧ r.Reads n buffer i
  | [], _, _, _, _ => ⟨_, rfl, .inl ⟨rfl, rfl, rfl⟩⟩
  | c :: seq, k, n, buffer, i => by
    have compare : ∀ (n : Nat) (buffer : List UInt8) (i : Stdin (List (Option UInt8))), ∃ r,
        (if buffer.getD k 0 ≠ c &&& 0x7f then some (.mismatch (skipSeq (c :: seq)) n buffer i)
          else if c &&& 0x80 ≠ 0 then some (.matched (signedChar (seq.headD 0)) buffer i)
          else scanSeq closing seq (k + 1) n buffer i) = some r ∧ r.Reads n buffer i := by
      intro n buffer i
      split
      · exact ⟨_, rfl, .inl ⟨rfl, rfl, rfl⟩⟩
      · split
        · exact ⟨_, rfl, Nat.le_refl _⟩
        · exact scanSeq_reads seq (k + 1) n buffer i
    unfold scanSeq
    dsimp only
    split
    · obtain ⟨b, j, he, hr⟩ := safePoll_closing ESC_SEQ_TIMEOUT_MS i
      rw [he]
      cases b with
      | none =>
        refine ⟨_, rfl, ?_⟩
        rcases hr with hlt | ⟨hnil, -, rfl⟩
        · exact .inl hlt
        · exact .inr ⟨hnil, rfl, rfl, rfl⟩
      | some b =>
        have hlt : j.tty.length < i.tty.length := hr.resolve_right (by simp)
        obtain ⟨r, h₁, h₂⟩ := compare (n + 1) (buffer.set n b) j
        exact ⟨r, h₁, h₂.behind hlt (by omega)⟩
    · exact compare n buffer i

theorem scanTable_reads : ∀ (fuel : Nat) (seq : List UInt8) (n : Nat) (buffer : List UInt8)
    (i : Stdin (List (Option UInt8))),
    ∃ r, scanTable closing fuel seq n buffer i = some r ∧ r.Reads n buffer i
  | 0, _, _, _, _ => ⟨_, rfl, .inl ⟨rfl, rfl, rfl⟩⟩
  | fuel + 1, seq, n, buffer, i => by
    unfold scanTable
    split
    · exact ⟨_, rfl, .inl ⟨rfl, rfl, rfl⟩⟩
    · obtain ⟨r, he, hr⟩ := scanSeq_reads seq 0 n buffer i
      rw [he]
      cases r with
      | silence n₁ buffer₁ i₁ => exact ⟨_, rfl, hr⟩
      | matched code buffer₁ i₁ => exact ⟨_, rfl, hr⟩
      | mismatch seq₁ n₁ buffer₁ i₁ =>
        obtain ⟨r', he', hr'⟩ := scanTable_reads fuel seq₁ n₁ buffer₁ i₁
        refine ⟨r', he', ?_⟩
        rcases hr with ⟨rfl, rfl, rfl⟩ | ⟨hlt, hn⟩
        · exact hr'
        · exact hr'.behind hlt hn

/-- What a call of `read_key` has left: less than before, or it has found the end, and leaves all as
it was. -/
def Spends (c : Int) (rb rb' : ReadBuffer) (i i' : Stdin (List (Option UInt8))) : Prop :=
  i'.tty.length + rb'.count < i.tty.length + rb.count ∨
    (rb' = rb ∧ i' = i ∧ (c = -1 ∨ c = 27))

/-- The first char of a call: a saved one or one from stdin, unless that is at its end. -/
theorem firstChar_closing (timeout : Int) {count : Nat} (hc : count ≤ 1) (buffer : List UInt8)
    (i : Stdin (List (Option UInt8))) : ∃ r j, (if count = 0 then
        (safePoll closing timeout i).map fun r => (r.1.map fun b => (1, buffer.set 0 b), r.2)
      else some (some (count, buffer), i)) = some (r, j) ∧
    (r = none ∧ (j = i ∨ j.tty.length < i.tty.length) ∨
      ∃ buffer', r = some (1, buffer') ∧
        (count = 1 ∧ buffer' = buffer ∧ j = i ∨ j.tty.length < i.tty.length)) := by
  by_cases h0 : count = 0
  · obtain ⟨b, j, he, hr⟩ := safePoll_closing timeout i
    rw [if_pos h0, he]
    refine ⟨_, _, rfl, ?_⟩
    cases b with
    | none =>
      refine .inl ⟨rfl, ?_⟩
      rcases hr with hlt | ⟨-, -, rfl⟩
      · exact .inr hlt
      · exact .inl rfl
    | some b => exact .inr ⟨_, rfl, .inr (hr.resolve_right (by simp))⟩
  · obtain rfl : count = 1 := by omega
    rw [if_neg h0]
    exact ⟨_, _, rfl, .inr ⟨_, rfl, .inl ⟨rfl, rfl, rfl⟩⟩⟩

/-- A call from `start_over` on returns, with at most one char saved. -/
theorem readKey_closing (timeout : Int) : ∀ (fuel : Nat) (rb : ReadBuffer)
    (i : Stdin (List (Option UInt8))), rb.count ≤ 1 → i.tty.length < fuel →
    ∃ c rb' i', readKey closing timeout fuel rb i = some (c, rb', i') ∧ rb'.count ≤ 1 ∧
      Spends c rb rb' i i'
  | 0, _, _, _, h => absurd h (Nat.not_lt_zero _)
  | fuel + 1, ⟨count, buffer⟩, i, hc, hf => by
    obtain ⟨first, j, hfirst, hj⟩ := firstChar_closing timeout hc buffer i
    unfold readKey
    dsimp only
    rw [hfirst]
    rcases hj with ⟨rfl, hj⟩ | ⟨buffer', rfl, hj⟩
    · refine ⟨_, _, _, rfl, hc, ?_⟩
      rcases hj with rfl | hlt
      · exact .inr ⟨rfl, rfl, .inl rfl⟩
      · exact .inl (Nat.add_lt_add_right hlt count)
    have hless : j.tty.length < i.tty.length + count := by
      rcases hj with ⟨rfl, -, rfl⟩ | hlt
      · exact Nat.lt_succ_self _
      · omega
    simp only [Nat.sub_self, if_true]
    split
    · exact ⟨_, _, _, rfl, Nat.zero_le 1, .inl hless⟩
    · obtain ⟨r, he, hr⟩ := scanTable_reads esccmds.length esccmds 0 buffer' j
      rw [he]
      cases r with
      | silence n b i' =>
        refine ⟨_, _, _, rfl, hc, ?_⟩
        rcases hj with ⟨rfl, rfl, rfl⟩ | hlt
        · rcases hr with hlt' | ⟨-, rfl, rfl, rfl⟩
          · exact .inl (Nat.add_lt_add_right hlt' 1)
          -- a saved ESC stays saved
          · exact .inr ⟨rfl, rfl, .inr rfl⟩
        · have hle : i'.tty.length ≤ j.tty.length := by
            rcases hr with hlt' | ⟨-, -, -, rfl⟩
            · exact Nat.le_of_lt hlt'
            · exact Nat.le_refl _
          exact .inl (Nat.add_lt_add_right (Nat.lt_of_le_of_lt hle hlt) count)
      | matched code b i' =>
        exact ⟨_, _, _, rfl, Nat.zero_le 1, .inl (Nat.lt_of_le_of_lt hr hless)⟩
      | mismatch seq n b i' =>
        have hread : i'.tty.length + n ≤ j.tty.length := by
          rcases hr with ⟨rfl, -, rfl⟩ | ⟨-, h⟩
          · exact Nat.le_refl _
          · exact h
        dsimp only
        split
        · rename_i hn
          exact ⟨_, _, _, rfl, hn, .inl (Nat.lt_of_le_of_lt hread hless)⟩
        · have hle : j.tty.length ≤ i.tty.length := by
            rcases hj with ⟨-, -, rfl⟩ | hlt
            · exact Nat.le_refl _
            · exact Nat.le_of_lt hlt
          obtain ⟨c, rb', i₁, hk, hc', hs⟩ :=
            readKey_closing timeout fuel ⟨0, b⟩ i' (Nat.zero_le 1) (by omega)
          refine ⟨c, rb', i₁, hk, hc', .inl ?_⟩
          have hle' : i₁.tty.length + rb'.count ≤ i'.tty.length := by
            rcases hs with h | ⟨rfl, rfl, -⟩
            · exact Nat.le_of_lt h
            · exact Nat.le_refl _
          show i₁.tty.length + rb'.count < i.tty.length + count
          omega

/-! ## The keys that stdin gives -/

/-- `readbuffer` and stdin between two calls of `read_key`. -/
structure Reader where
  rb : ReadBuffer
  stdin : Stdin (List (Option UInt8))
  saved : rb.count ≤ 1

namespace Reader

/-- Nothing has been read of the input. -/
def start (input : List (Option UInt8)) : Reader := ⟨.zeroed, ⟨input, 0⟩, Nat.zero_le 1⟩

variable (r : Reader)

/-- The call of `readit`: the key, `readbuffer` and what is left on stdin. -/
def readit : Option (Int × ReadBuffer × Stdin (List (Option UInt8))) :=
  readKey closing (-1) (r.stdin.tty.length + 1) r.rb r.stdin

theorem readit_isSome : r.readit.isSome := by
  obtain ⟨c, rb', i', h, -⟩ := readKey_closing (-1) _ r.rb r.stdin r.saved (Nat.lt_succ_self _)
  rw [readit, h]
  rfl

def result : Int × ReadBuffer × Stdin (List (Option UInt8)) := r.readit.get r.readit_isSome

theorem result_spends : r.result.2.1.count ≤ 1 ∧
    Spends r.result.1 r.rb r.result.2.1 r.stdin r.result.2.2 := by
  obtain ⟨c, rb', i', h, hc, hs⟩ :=
    readKey_closing (-1) _ r.rb r.stdin r.saved (Nat.lt_succ_self _)
  have hr : r.result = (c, rb', i') := Option.get_of_eq_some _ h
  rw [hr]
  exact ⟨hc, hs⟩

/-- The key of the next call. -/
def key : Key := ⟨r.result.1, r.result.2.1.count != 0⟩

/-- Behind the next call. -/
def next : Reader := ⟨r.result.2.1, r.result.2.2, r.result_spends.1⟩

/-- The keys of the next calls. -/
def keys : Nat → Reader → List Key
  | 0, _ => []
  | n + 1, r => r.key :: keys n r.next

/-- A bound on the calls that find something. -/
def left : Nat := r.stdin.tty.length + r.rb.count

/-- The key that is reported at the end of stdin. -/
def last : Key := (next^[r.left] r).key

theorem next_spends : r.next.left < r.left ∨
    (r.next = r ∧ (r.key.code = -1 ∨ r.key.code = 27)) := by
  rcases r.result_spends.2 with h | ⟨hrb, hi, hc⟩
  · exact .inl h
  · refine .inr ⟨?_, hc⟩
    obtain ⟨rb, stdin, saved⟩ := r
    unfold next
    congr

variable {r}

/-- Behind that many calls every further one leaves all as it is. -/
theorem next_iterate : ∀ {n : Nat} {r : Reader}, r.left ≤ n → (next^[n] r).next = next^[n] r
  | 0, r, h => (r.next_spends.resolve_left (by omega)).1
  | n + 1, r, h => by
    rcases r.next_spends with hlt | ⟨hfix, -⟩
    · exact next_iterate (n := n) (r := r.next) (by omega)
    · rw [Function.iterate_fixed hfix]
      exact hfix

theorem last_code (r : Reader) : r.last.code = -1 ∨ r.last.code = 27 := by
  rcases (next^[r.left] r).next_spends with hlt | ⟨-, hc⟩
  · rw [next_iterate (Nat.le_refl _)] at hlt
    exact absurd hlt (Nat.lt_irrefl _)
  · exact hc

theorem keys_add : ∀ (m n : Nat) (r : Reader),
    keys (m + n) r = keys m r ++ keys n (next^[m] r)
  | 0, n, r => by rw [Nat.zero_add]; rfl
  | m + 1, n, r => by
    rw [Nat.add_right_comm, keys, keys_add m n r.next]
    rfl

/-- Behind them only the last key is reported. -/
theorem keys_last (r : Reader) : ∀ n, keys n (next^[r.left] r) = List.replicate n r.last
  | 0 => rfl
  | n + 1 => by
    rw [keys, next_iterate (Nat.le_refl _), keys_last r n]
    rfl

end Reader

end Keys

/-! ## Commands at the end of stdin -/

/-- The editor goes on as it did, and no keys are recorded for `.` that were not recorded before. -/
structure Drains (s t : Ed) : Prop where
  editing : t.editing = s.editing
  recorded : t.adding2q = true → s.adding2q = true ∧
    s.lastModifyingCmd.length ≤ t.lastModifyingCmd.length

namespace Drains

variable {s t u : Ed}

theorem of_fields (he : t.editing = s.editing) (ha : t.adding2q = s.adding2q)
    (hl : t.lastModifyingCmd = s.lastModifyingCmd) : Drains s t :=
  ⟨he, fun h => ⟨ha ▸ h, by rw [hl]⟩⟩

theorem refl (s : Ed) : Drains s s := .of_fields rfl rfl rfl

theorem trans (h₁ : Drains s t) (h₂ : Drains t u) : Drains s u := by
  refine ⟨h₂.editing.trans h₁.editing, fun h => ?_⟩
  obtain ⟨hadd, hle⟩ := h₂.recorded h
  exact ⟨(h₁.recorded hadd).1, (h₁.recorded hadd).2.trans hle⟩

theorem ite {p : Prop} [Decidable p] (h₁ : Drains s t) (h₂ : Drains s u) :
    Drains s (if p then t else u) := by
  split
  · exact h₁
  · exact h₂

end Drains

namespace Ed

variable {s s' : Ed}

theorem readit_drains {c : Int} (h : s.readit = some (c, s')) : Drains s s' := by
  unfold readit at h
  split at h
  · cases h
  · cases h
    exact .of_fields rfl rfl rfl

theorem getOneChar_drains {c : Int} (h : s.getOneChar = some (c, s')) : Drains s s' := by
  unfold getOneChar at h
  split at h
  · obtain ⟨⟨c₁, s₁⟩, h₁, h₂⟩ := Option.bind_eq_some_iff.mp h
    refine (readit_drains h₁).trans ?_
    dsimp only at h₂
    split at h₂
    · cases h₂
      exact ⟨rfl, nofun⟩
    · cases h₂
      exact ⟨rfl, fun h => ⟨h, by simp⟩⟩
  · split at h
    · cases h
      exact .of_fields rfl rfl rfl
    · have h₀ : Drains s { s with ioq := none } := .of_fields rfl rfl rfl
      exact h₀.trans (readit_drains h)
    · exact readit_drains h

theorem refresh_drains (s : Ed) : Drains s s.refresh := by
  rw [s.refresh_eq]
  exact .of_fields rfl rfl rfl

theorem hitLoop_drains : ∀ {n : Nat} {s s' : Ed}, hitLoop n s = some s' → Drains s s'
  | 0, _, _, h => by cases h
  | n + 1, s, s', h => by
    obtain ⟨⟨c, s₁⟩, h₁, h₂⟩ := Option.bind_eq_some_iff.mp h
    refine (getOneChar_drains h₁).trans ?_
    dsimp only at h₂
    split at h₂
    · cases h₂
      exact .refl _
    · exact hitLoop_drains h₂

theorem showStatusLine_drains (h : s.showStatusLine = some s') : Drains s s' := by
  have h₀ : Drains s { s with haveStatusMsg := 0 } := .of_fields rfl rfl rfl
  unfold showStatusLine at h
  split at h
  · cases h
    exact .refl _
  · split at h
    · obtain ⟨s₁, h₁, h₂⟩ := Option.bind_eq_some_iff.mp h
      cases h₂
      exact (h₀.trans (hitLoop_drains h₁)).trans (refresh_drains s₁)
    · cases h
      exact h₀

theorem redraw_drains (h : s.redraw = some s') : Drains s s' :=
  (refresh_drains s).trans (showStatusLine_drains h)

theorem indicateError_drains (h : s.indicateError = some s') : Drains s s' := by
  have h₀ : Drains s { s with cmdError := true } := .of_fields rfl rfl rfl
  unfold indicateError at h
  dsimp only at h
  split at h
  · obtain ⟨s₁, h₁, h₂⟩ := Option.bind_eq_some_iff.mp h
    exact h₀.trans ((redraw_drains h₁).trans (redraw_drains h₂))
  · cases h
    exact h₀

theorem errorAt_drains {p q : Int} (h : s.errorAt p = some (q, s')) : Drains s s' := by
  obtain ⟨s₁, h₁, e⟩ := Option.map_eq_some_iff.mp h
  cases e
  exact indicateError_drains h₁

theorem boundHere_drains (h : s.boundHere = some s') : Drains s s' := by
  obtain ⟨⟨d, t⟩, hd, e⟩ := Option.bind_eq_some_iff.mp h
  cases e
  obtain ⟨⟨q, u⟩, hq, hd⟩ := Option.bind_eq_some_iff.mp hd
  have hu : Drains s u := by
    split at hq
    · exact errorAt_drains hq
    · cases hq
      exact .refl s
  have ht : Drains u t := by
    dsimp only at hd
    split at hd
    · exact errorAt_drains hd
    · cases hd
      exact .refl _
  exact (hu.trans ht).trans (.of_fields rfl rfl rfl)

theorem commit_drains (s : Ed) : Drains s s.undoQueueCommit := by
  rw [undoQueueCommit_eq]
  exact .of_fields rfl rfl rfl

theorem textHoleMake_drains (s : Ed) (p n : Int) : Drains s (s.textHoleMake p n).2 := by
  rw [textHoleMake_frame]
  exact .of_fields rfl rfl rfl

theorem undoPushInsert_drains (s : Ed) (p : Int) (len : Nat) (undo : Undo) :
    Drains s (s.undoPushInsert p len undo) := by
  rw [undoPushInsert_eq]
  exact .of_fields rfl rfl rfl

theorem textHoleDelete_drains (s : Ed) (p q : Int) (undo : Undo) :
    Drains s (s.textHoleDelete p q undo).2 := by
  have hpush : Drains s (s.undoPushDelete p (q - p + 1).toNat undo) := by
    rw [undoPushDelete_eq]
    exact .of_fields rfl rfl rfl
  rcases s.textHoleDelete_cases p q undo with h | ⟨m, e, -, -, h⟩
  · rw [h]
    exact hpush.trans (.of_fields rfl rfl rfl)
  · rw [h]
    exact hpush.trans (.of_fields rfl rfl rfl)

/-- The recording for `.` ends. -/
theorem endCmdQ_drains (s : Ed) : Drains s s.endCmdQ := ⟨rfl, fun h => by cases h⟩

/-- ESC leaves the insert and replace modes. -/
theorem stopInsert_drains (s : Ed) (bol p : Int) (undo : Undo) :
    Drains s (s.stopInsert bol p undo).2 := by
  have hmode : Drains s { s with cmdMode := .command } := .of_fields rfl rfl rfl
  have hcnt (t : Ed) : Drains t { t with cmdcnt := 0 } := .of_fields rfl rfl rfl
  have h := ((hmode.trans (commit_drains _)).trans (hcnt _)).trans (endCmdQ_drains _)
  unfold stopInsert
  dsimp only
  generalize Ed.endCmdQ { Ed.undoQueueCommit { s with cmdMode := .command } with cmdcnt := 0 } = t
    at h
  split
  · exact h.trans (textHoleDelete_drains _ _ _ _)
  · exact h

theorem escape_drains {c : Int} {undo : Undo} (hc : c = 27)
    (h : s.charInsertDot c undo = some s') : Drains s s' := by
  obtain ⟨⟨q, t⟩, h₁, h₂⟩ := Option.bind_eq_some_iff.mp h
  subst hc
  have hesc : s.charInsert s.dot (UInt8.ofInt 27) undo =
      some (leaveIndent (s.stopInsert (s.beginLine s.dot) s.dot undo)) := rfl
  cases h₂
  cases hesc.symm.trans h₁
  exact (stopInsert_drains s _ _ _).trans (.of_fields rfl rfl rfl)

theorem autoIndent_drains (s : Ed) (p : Int) (undo : Undo) : Drains s (s.autoIndent p undo).2 := by
  unfold autoIndent
  generalize (if s.indentcol < 0 then p else s.prevLine p) = bol
  dsimp only
  split
  · exact .of_fields rfl rfl rfl
  · split
    · have h₀ : Drains s { s with indentcol := s.getColumn (bol + s.indentLen bol) } :=
        .of_fields rfl rfl rfl
      unfold indentWith
      exact (h₀.trans ((textHoleMake_drains _ _ _).trans (undoPushInsert_drains _ _ _ _))).trans
        (.of_fields rfl rfl rfl)
    · exact .of_fields rfl rfl rfl

/-- A newline. -/
theorem newline_drains {p q : Int} {undo : Undo} (h : s.charInsert p NL undo = some (q, s')) :
    Drains s s' := by
  have hins : Drains s (s.undoQueueCommit.stringInsert p [NL] .no).2 :=
    (commit_drains s).trans ((textHoleMake_drains _ p 1).trans (.of_fields rfl rfl rfl))
  generalize hr : s.undoQueueCommit.stringInsert p [NL] .no = r at hins
  have he := (charInsert_newline s p undo hr).symm.trans h
  split at he
  · have hi := autoIndent_drains r.2 (p + 1 + r.1) undo
    rw [Option.some.inj he] at hi
    exact hins.trans hi
  · cases he
    exact hins.trans (.of_fields rfl rfl rfl)

theorem refill_drains (h : s.refill = some s') : Drains s s' := by
  unfold refill at h
  split at h
  · obtain ⟨⟨q, t⟩, h₁, e⟩ := Option.map_eq_some_iff.mp h
    cases e
    exact (newline_drains h₁).trans (.of_fields rfl rfl rfl)
  · cases h
    exact .refl s

theorem settle_drains (s : Ed) (c o : Int) : Drains s (s.settle c o) := by
  unfold settle checkContext
  dsimp only
  split <;> split <;> try split
  all_goals exact .of_fields rfl rfl rfl

/-- The end of `do_cmd`, for any key. -/
theorem epilogue_drains {c o : Int} (h : s.epilogue c o = some s') : Drains s s' := by
  obtain ⟨v, hv, hrest⟩ := Option.bind_eq_some_iff.mp h
  obtain ⟨w, hw, hlast⟩ := Option.bind_eq_some_iff.mp hrest
  have hvw : Drains v w := by
    split at hw
    · exact boundHere_drains hw
    · cases hw
      exact .refl v
  cases hlast
  have hoff : Drains (w.settle c o) (w.settle c o).offNewline :=
    .ite (.of_fields rfl rfl rfl) (.refl _)
  exact (((refill_drains hv).trans hvw).trans (settle_drains w c o)).trans hoff

section

variable {c : Int} (hc : c = -1 ∨ c = 27)

include hc

theorem insertKey_ended (h : s.insertKey c = some s') : Drains s s' := by
  unfold insertKey at h
  rcases hc with rfl | rfl
  · cases h
    exact .refl s
  · exact escape_drains rfl h

theorem replaceKey_ended (h : s.replaceKey c = some s') : Drains s s' := by
  unfold replaceKey at h
  rcases hc with rfl | rfl
  · cases h
    exact .refl s
  · exact escape_drains rfl h

/-- The `switch`: the key is unknown, or it is ESC. -/
theorem switch_ended {motion : Int → Ed → Option Ed} {o o' : Int}
    (h : s.switch motion c o = some (o', s')) : Drains s s' := by
  unfold switch at h
  rcases hc with rfl | rfl
  · have hcase : caseOf (-1) = .unknown := by decide +kernel
    rw [hcase] at h
    cases h
    have hmsg (l : List UInt8) : Drains s (s.notImplemented l) := .of_fields rfl rfl rfl
    exact (hmsg _).trans (endCmdQ_drains _)
  · have hcase : caseOf 27 = .escape := by decide +kernel
    rw [hcase] at h
    obtain ⟨t, h₁, e⟩ := Option.map_eq_some_iff.mp h
    cases e
    obtain ⟨u, h₂, e⟩ := Option.bind_eq_some_iff.mp h₁
    cases e
    have hu : Drains s u := by
      split at h₂
      · exact indicateError_drains h₂
      · cases h₂
        exact .refl s
    have hmode : Drains u { u with cmdMode := .command } := .of_fields rfl rfl rfl
    exact (hu.trans (hmode.trans (commit_drains _))).trans (endCmdQ_drains _)

theorem keyCommand_ended {motion : Int → Ed → Option Ed} {o o' : Int}
    (h : s.keyCommand motion c o = some (o', s')) : Drains s s' := by
  have hvis : Drains s { s with viVisual := false } := .of_fields rfl rfl rfl
  have hops : ¬(c = KEYCODE_DELETE ∨ (c > 0 ∧ strchr (str "yYdDxXcC><") c = true)) := by
    rcases hc with rfl | rfl <;> decide
  unfold keyCommand at h
  split at h
  · split at h
    · cases h
      exact hvis.trans (endCmdQ_drains _)
    · split at h
      · exact hvis.trans (switch_ended hc h)
      · exact switch_ended hc h
  · exact switch_ended hc h

theorem dispatch_ended {motion : Int → Ed → Option Ed} {o o' : Int}
    (h : s.dispatch motion c o = some (o', s')) : Drains s s' := by
  have hcursor : ¬isCursorKey c = true := by rcases hc with rfl | rfl <;> decide
  have hins : c ≠ KEYCODE_INSERT := by rcases hc with rfl | rfl <;> decide
  have hinsert : Drains s { s with cmdMode := .insert } := .of_fields rfl rfl rfl
  have hmode : Drains s s.startInsert := hinsert.trans (commit_drains _)
  unfold dispatch at h
  rw [if_neg hcursor] at h
  split at h
  · rw [if_neg hins] at h
    split at h
    · obtain ⟨t, h₁, e⟩ := Option.map_eq_some_iff.mp h
      cases e
      exact hmode.trans (insertKey_ended hc h₁)
    · obtain ⟨t, h₁, e⟩ := Option.map_eq_some_iff.mp h
      cases e
      exact replaceKey_ended hc h₁
  · obtain ⟨t, h₁, e⟩ := Option.map_eq_some_iff.mp h
    cases e
    exact insertKey_ended hc h₁
  · exact keyCommand_ended hc h

theorem doCmd_ended (h : doCmd c s = some s') : Drains s s' := by
  obtain ⟨s₀, o, u, hoff, hdispatch, hend⟩ := doCmdWith_parts h
  have h₀ : Drains s { s with keepIndex := false, cmdError := false } := .of_fields rfl rfl rfl
  exact ((h₀.trans (showStatusLine_drains hoff)).trans (dispatch_ended hc hdispatch)).trans
    (epilogue_drains hend)

end

/-! ## Rounds at the end -/

theorem saveLine_keysKept (s : Ed) : KeysKept s s.saveLine := by
  unfold saveLine
  dsimp only
  split <;> exact .same rfl rfl

/-- Only the key `last` is to come, and the `.` queue is used up. -/
structure Ended (last : Key) (s : Ed) : Prop where
  keys : ∀ k ∈ s.env.keys, k = last
  queue : s.ioq.getD [] = []

section

variable {last : Key}

theorem Ended.kept (h : Ended last s) (hk : KeysKept s s') : Ended last s' := by
  refine ⟨fun k hmem => h.keys k (hk.keys.subset hmem), ?_⟩
  have hq := hk.queue
  rw [h.queue] at hq
  exact List.suffix_nil.mp hq

/-- Where stdin gives only `last`, so does `readit`. -/
theorem readit_last {c : Int} (hkeys : ∀ k ∈ s.env.keys, k = last)
    (hrun : s.readit = some (c, s')) : c = last.code := by
  unfold readit at hrun
  split at hrun
  · cases hrun
  · rename_i k ks hk
    cases hrun
    rw [hkeys k (hk ▸ List.mem_cons_self)]

/-- While keys are recorded for `.`, the queue is not read. -/
theorem getOneChar_last {c : Int} (hkeys : ∀ k ∈ s.env.keys, k = last)
    (hq : s.adding2q = true ∨ s.ioq.getD [] = []) (hrun : s.getOneChar = some (c, s')) :
    c = last.code := by
  unfold getOneChar at hrun
  split at hrun
  · obtain ⟨⟨c₁, s₁⟩, h₁, h₂⟩ := Option.bind_eq_some_iff.mp hrun
    have hc := readit_last hkeys h₁
    dsimp only at h₂
    split at h₂ <;> cases h₂ <;> exact hc
  · rename_i hadd
    have hnil := hq.resolve_left hadd
    split at hrun
    · rename_i c₁ rest hioq
      rw [hioq] at hnil
      cases hnil
    · exact readit_last (s := { s with ioq := none }) hkeys hrun
    · exact readit_last hkeys hrun

variable (hlast : last.code = -1 ∨ last.code = 27)

include hlast

/-- A round that begins with the key `last`. -/
theorem editStep_last (hkeys : ∀ k ∈ s.env.keys, k = last)
    (hq : s.adding2q = true ∨ s.ioq.getD [] = []) (hrun : s.editStep = some s') :
    KeysKept s s' ∧ ∃ c u, s.getOneChar = some (c, u) ∧ Drains u s' := by
  obtain ⟨c, u, hkey, hserved⟩ := editStep_served hrun
  have hc : c = -1 ∨ c = 27 := by rwa [getOneChar_last hkeys hq hkey]
  have hdot : c ≠ key '.' := by rcases hc with rfl | rfl <;> decide
  refine ⟨?_, c, u, hkey, ?_⟩
  · exact (getOneChar_looked hkey).keysKept.trans
      (u.saveLine_keysKept.trans (hserved.keysKept hdot))
  · obtain ⟨t, hcall, hshow⟩ := Option.bind_eq_some_iff.mp hrun
    obtain ⟨⟨c₁, u₁⟩, hkey₁, hcmd⟩ := Option.bind_eq_some_iff.mp hcall
    obtain ⟨rfl, rfl⟩ := Prod.mk.inj (Option.some.inj (hkey.symm.trans hkey₁))
    have hsave : Drains u u.saveLine := .ite (.of_fields rfl rfl rfl) (.refl u)
    have hidle : u.saveLine.rememberCmd c = u.saveLine := by
      unfold rememberCmd
      refine if_neg ?_
      rcases hc with rfl | rfl <;> simp +decide
    dsimp only at hcmd
    rw [hidle] at hcmd
    refine (hsave.trans (doCmd_ended hc hcmd)).trans ?_
    rcases ite_eq_iff.mp hshow with ⟨-, ht⟩ | ⟨-, ht⟩
    · exact (refresh_drains t).trans (showStatusLine_drains ht)
    · cases ht
      exact .refl _

/-- A round that begins at the end of stdin ends there, and the editor goes on. -/
theorem Ended.editStep (h : Ended last s) (he : s.editing > 0) (hrun : s.editStep = some s') :
    Ended last s' ∧ s'.editing > 0 := by
  obtain ⟨hkept, c, u, hkey, hdrains⟩ := editStep_last hlast h.keys (.inr h.queue) hrun
  refine ⟨h.kept hkept, ?_⟩
  rw [hdrains.editing, (getOneChar_drains hkey).editing]
  exact he

end

/-! ## Loops inside a command -/

/-- `Hit_Return` never comes back at the end of stdin. -/
theorem Ended.hitLoop {last : Key} (hlast : last.code = -1 ∨ last.code = 27) :
    ∀ {n : Nat} {s : Ed}, Ended last s → hitLoop n s = none
  | 0, _, _ => rfl
  | n + 1, s, h => by
    refine Option.eq_none_iff_forall_ne_some.mpr fun t ht => ?_
    obtain ⟨⟨c, u⟩, hkey, hrest⟩ := Option.bind_eq_some_iff.mp ht
    have hc : ¬(c = 10 ∨ c = 13) := by
      rw [getOneChar_last h.keys (.inr h.queue) hkey]
      rcases hlast with hl | hl <;> rw [hl] <;> decide
    have hnone := Ended.hitLoop hlast (n := n) (h.kept (getOneChar_looked hkey).keysKept)
    dsimp only at hrest
    rw [if_neg hc, hnone] at hrest
    cases hrest

/-- Nor does `get_input_line`, where the end is reported as -1. -/
theorem Ended.inputLoop {last : Key} (hlast : last.code = -1) {buf : List UInt8}
    (hbuf : buf.length < MAX_INPUT_LEN - 1) :
    ∀ {n : Nat} {s : Ed}, Ended last s → inputLoop n buf s = none
  | 0, _, _ => rfl
  | n + 1, s, h => by
    refine Option.eq_none_iff_forall_ne_some.mpr fun t ht => ?_
    unfold Ed.inputLoop at ht
    rw [if_pos hbuf] at ht
    obtain ⟨⟨c, u⟩, hkey, hrest⟩ := Option.bind_eq_some_iff.mp ht
    have hnone := Ended.inputLoop hlast hbuf (n := n) (h.kept (getOneChar_looked hkey).keysKept)
    obtain rfl : c = -1 := (getOneChar_last h.keys (.inr h.queue) hkey).trans hlast
    dsimp only at hrest
    rw [if_neg (by decide), if_neg (by decide), if_neg (by decide), hnone] at hrest
    cases hrest

/-- A colon command that is still to be typed. -/
theorem Ended.colon {last : Key} (hlast : last.code = -1) (hm : s.cmdMode = .command)
    (h : Ended last s) : doCmd (key ':') s = none := by
  refine Option.eq_none_iff_forall_ne_some.mpr fun t ht => ?_
  obtain ⟨s₀, o, u, hoff, hd, -⟩ := doCmdWith_parts ht
  have hl := statusOff_looked hoff
  have hend : Ended last { s₀ with viVisual := false } :=
    ⟨(h.kept hl.keysKept).keys, (h.kept hl.keysKept).queue⟩
  rw [dispatch_cleared (hl.cmdMode.trans hm) (by decide) (by decide) (by decide) (by decide),
    switch_colon, getInputLine, Ended.inputLoop hlast (by decide) hend] at hd
  cases hd

/-! ## What a round uses up -/

/-- stdin reports its end `n` more times. -/
def supplied (s : Ed) (last : Key) (n : Nat) : Ed :=
  { s with env := { s.env with keys := s.env.keys ++ List.replicate n last } }

/-- The keys that come before the end of stdin. -/
def ahead (last : Key) (s : Ed) : Nat := (s.env.keys.rdropWhile (· = last)).length

/-- A bound on the keys that are still recorded for `.`. -/
def recording (s : Ed) : Nat :=
  if s.adding2q then MAX_INPUT_LEN - s.lastModifyingCmd.length + 1 else 0

/-- What can still come before the end is reached. -/
def budget (last : Key) (s : Ed) : Nat ×ₗ Nat ×ₗ Nat :=
  toLex (s.ahead last, toLex ((s.ioq.getD []).length, s.recording))

/-- `get_one_char` takes a `.` out of the `.` queue; its command then fills the queue again. -/
def TakesDot (s : Ed) : Prop := s.adding2q = false ∧ (s.ioq.getD []).head? = some (chr '.')

section

variable {last : Key} {s t u : Ed}

theorem ended_iff : Ended last s ↔ s.ahead last = 0 ∧ s.ioq.getD [] = [] := by
  have hkeys : s.ahead last = 0 ↔ ∀ k ∈ s.env.keys, k = last := by
    simp only [ahead, List.length_eq_zero_iff, List.rdropWhile_eq_nil_iff, decide_eq_true_eq]
  exact ⟨fun h => ⟨hkeys.mpr h.keys, h.queue⟩, fun h => ⟨hkeys.mp h.1, h.2⟩⟩

/-- A key more, which is not part of the end when others come behind it. -/
theorem rdropWhile_cons (p : Key → Bool) (k : Key) (ks : List Key) :
    (k :: ks).rdropWhile p = if ∀ x ∈ k :: ks, p x = true then [] else k :: ks.rdropWhile p := by
  induction ks using List.reverseRecOn with
  | nil =>
    rw [List.rdropWhile_singleton, List.rdropWhile_nil]
    simp
  | append_singleton ks x ih =>
    rw [← List.cons_append]
    by_cases hx : p x = true
    · rw [List.rdropWhile_concat_pos _ _ _ hx, List.rdropWhile_concat_pos _ _ _ hx, ih]
      congr 1
      simp [hx, or_imp, forall_and]
    · rw [List.rdropWhile_concat_neg _ _ _ hx, List.rdropWhile_concat_neg _ _ _ hx,
        if_neg fun h => hx (h x (by simp))]
      rfl

theorem rdropWhile_length_le {p : Key → Bool} {l l' : List Key} (h : l' <:+ l) :
    (l'.rdropWhile p).length ≤ (l.rdropWhile p).length := by
  obtain ⟨pre, rfl⟩ := h
  induction pre with
  | nil => exact Nat.le_refl _
  | cons k pre ih =>
    refine ih.trans ?_
    rw [List.cons_append, rdropWhile_cons]
    split
    · rename_i hall
      rw [List.rdropWhile_eq_nil_iff.mpr fun x hx => hall x (List.mem_cons_of_mem _ hx)]
    · exact Nat.le_succ _

theorem ahead_le (h : t.env.keys <:+ s.env.keys) : t.ahead last ≤ s.ahead last :=
  rdropWhile_length_le h

theorem ahead_supplied (s : Ed) (n : Nat) : (s.supplied last n).ahead last = s.ahead last := by
  unfold ahead supplied
  congr 1
  induction n with
  | zero => rw [List.replicate_zero, List.append_nil]
  | succ n ih =>
    rw [List.replicate_succ', ← List.append_assoc, List.rdropWhile_concat_pos _ _ _ (by simp), ih]

theorem budget_supplied (s : Ed) (n : Nat) : (s.supplied last n).budget last = s.budget last := by
  unfold budget
  rw [ahead_supplied]
  rfl

theorem ended_supplied (n : Nat) : Ended last (s.supplied last n) ↔ Ended last s := by
  rw [ended_iff, ended_iff, ahead_supplied]
  rfl

theorem budget_lt (h : t.ahead last < s.ahead last ∨ t.ahead last ≤ s.ahead last ∧
    ((t.ioq.getD []).length < (s.ioq.getD []).length ∨
      (t.ioq.getD []).length ≤ (s.ioq.getD []).length ∧ t.recording < s.recording)) :
    t.budget last < s.budget last := by
  unfold budget
  rw [Prod.Lex.toLex_lt_toLex, Prod.Lex.toLex_lt_toLex]
  dsimp only
  omega

/-- A key from stdin, before its end. -/
theorem readit_ahead {c : Int} (h : s.readit = some (c, t)) (hs : s.ahead last ≠ 0) :
    t.ahead last < s.ahead last := by
  unfold readit at h
  split at h
  · cases h
  · rename_i k ks hk
    cases h
    unfold ahead at hs ⊢
    rw [hk, rdropWhile_cons] at hs ⊢
    split at hs
    · exact absurd rfl hs
    · rename_i hall
      rw [if_neg hall]
      exact Nat.lt_succ_self _

/-- A key is one from stdin before its end, or one of the queue, or else it is recorded. -/
theorem getOneChar_spends {c : Int} (hend : ¬Ended last s) (hdot : ¬s.TakesDot)
    (h : s.getOneChar = some (c, t)) : t.ahead last < s.ahead last ∨
      (c ≠ key '.' ∧ (t.ioq.getD []).length < (s.ioq.getD []).length) ∨
      (s.ahead last = 0 ∧ s.adding2q = true ∧ t.recording < s.recording) := by
  by_cases hadd : s.adding2q = true
  · unfold getOneChar at h
    rw [if_pos hadd] at h
    obtain ⟨⟨c₁, s₁⟩, h₁, h₂⟩ := Option.bind_eq_some_iff.mp h
    dsimp only at h₂
    by_cases hs : s.ahead last = 0
    · refine .inr (.inr ⟨hs, hadd, ?_⟩)
      have hsame : s₁.lastModifyingCmd = s.lastModifyingCmd := by
        unfold readit at h₁
        split at h₁ <;> cases h₁
        rfl
      unfold recording
      rw [if_pos hadd]
      split at h₂
      · cases h₂
        exact Nat.succ_pos _
      · rename_i hlen
        cases h₂
        dsimp only
        split
        · rw [List.length_append, List.length_singleton, hsame] at *
          omega
        · exact Nat.succ_pos _
    · left
      have hlt := readit_ahead h₁ hs
      split at h₂ <;> cases h₂ <;> exact hlt
  · unfold getOneChar at h
    rw [if_neg hadd] at h
    have hs (hq : s.ioq.getD [] = []) : s.ahead last ≠ 0 := fun h₀ =>
      hend (ended_iff.mpr ⟨h₀, hq⟩)
    split at h
    · rename_i b rest hq
      cases h
      refine .inr (.inl ⟨fun hc => hdot ⟨by simpa using hadd, ?_⟩, ?_⟩)
      · have hb : (b.toNat : Int) = 46 := hc
        rw [hq, show b = chr '.' from UInt8.toNat_inj.mp (Int.ofNat_inj.mp hb)]
        rfl
      · rw [hq]
        exact Nat.lt_succ_self _
    · rename_i hq
      have hlt : t.ahead last < s.ahead last :=
        readit_ahead h (s := { s with ioq := none }) (hs (by rw [hq]; rfl))
      exact .inl hlt
    · rename_i hq
      exact .inl (readit_ahead h (hs (by rw [hq]; rfl)))

/-- **A round of the loop.**  It uses up some of what can come, unless it begins at the end of
stdin, or with a `.` of the queue. -/
theorem editStep_spends (hlast : last.code = -1 ∨ last.code = 27) (hend : ¬Ended last s)
    (hdot : ¬s.TakesDot) (h : s.editStep = some t) : t.budget last < s.budget last := by
  obtain ⟨c, u, hkey, hserved⟩ := editStep_served h
  have hkept := (getOneChar_looked hkey).keysKept
  have hsave := u.saveLine_keysKept
  have hu : t.ahead last ≤ u.ahead last := ahead_le (hserved.keys.trans hsave.keys)
  refine budget_lt ?_
  rcases getOneChar_spends hend hdot hkey with hlt | ⟨hc, hlt⟩ | ⟨hs, hadd, hlt⟩
  · exact .inl (Nat.lt_of_le_of_lt hu hlt)
  · have hq := ((hserved.keysKept hc).queue.trans hsave.queue).length_le
    exact .inr ⟨hu.trans (ahead_le hkept.keys), .inl (Nat.lt_of_le_of_lt hq hlt)⟩
  · have hkeys : ∀ k ∈ s.env.keys, k = last := by
      simpa only [ahead, List.length_eq_zero_iff, List.rdropWhile_eq_nil_iff,
        decide_eq_true_eq] using hs
    obtain ⟨hst, c₁, u₁, hkey₁, hdrains⟩ := editStep_last hlast hkeys (.inl hadd) h
    obtain ⟨rfl, rfl⟩ := Prod.mk.inj (Option.some.inj (hkey.symm.trans hkey₁))
    have hrec : t.recording ≤ u.recording := by
      unfold recording
      split
      · rename_i ht
        obtain ⟨hadd', hle⟩ := hdrains.recorded ht
        rw [if_pos hadd']
        omega
      · exact Nat.zero_le _
    exact .inr ⟨ahead_le hst.keys, .inr ⟨hst.queue.length_le, Nat.lt_of_le_of_lt hrec hlt⟩⟩

end

/-! ## `edit_file` -/

open Keys (Reader)

/-- The globals, with the keys that stdin gives before its end. -/
def fed (g : Ed) (r : Reader) : Ed := { g with env := { g.env with keys := r.keys r.left } }

/-- These and its end are what stdin gives. -/
theorem fed_supplied (g : Ed) (r : Reader) (n : Nat) :
    ((g.fed r).supplied r.last n).env.keys = r.keys (r.left + n) := by
  rw [Reader.keys_add, Reader.keys_last]
  rfl

/-- The state in which a round of `edit_file` begins, the first being round 0.  In front of round
`i` stdin reports its end `ends i` more times. -/
def atRound (g : Ed) (fn : Option (List UInt8)) (r : Reader) (ends : Nat → Nat) : Nat → Option Ed
  | 0 => ((g.fed r).supplied r.last (ends 0)).editStart fn
  | i + 1 => (atRound g fn r ends i).bind fun s =>
      if s.editing > 0 then (s.supplied r.last (ends (i + 1))).editStep else none

/-- `edit_file` returns after finitely many rounds of its loop. -/
def Returns (g : Ed) (fn : Option (List UInt8)) (r : Reader) : Prop :=
  ∃ ends i s, g.atRound fn r ends i = some s ∧ s.editing ≤ 0

/-- What the rounds of a loop have to do that is not to wait for ever. -/
structure Proceeds (g : Ed) (fn : Option (List UInt8)) (r : Reader) (ends : Nat → Nat) : Prop where
  start : (g.atRound fn r ends 0).isSome
  /-- no round begins at the end of stdin -/
  awake : ∀ i s, g.atRound fn r ends i = some s → s.editing > 0 → ¬Ended r.last s
  /-- no loop inside of a round goes on for ever -/
  back : ∀ i s, g.atRound fn r ends i = some s → s.editing > 0 → (g.atRound fn r ends (i + 1)).isSome
  /-- the `.` queue does not fill itself for ever -/
  dots : ∃ n, ∀ i ≥ n, ∀ s, g.atRound fn r ends i = some s → ¬s.TakesDot

section

variable {g : Ed} {fn : Option (List UInt8)} {r : Reader} {ends : Nat → Nat} {i j : Nat} {s t : Ed}

theorem atRound_next (h : g.atRound fn r ends i = some s) (he : s.editing > 0) :
    g.atRound fn r ends (i + 1) = (s.supplied r.last (ends (i + 1))).editStep := by
  rw [atRound, h, Option.bind_some, if_pos he]

/-- There is no round behind the one that leaves the loop. -/
theorem atRound_left (h : g.atRound fn r ends i = some s) (he : s.editing ≤ 0) :
    ∀ k, g.atRound fn r ends (i + 1 + k) = none
  | 0 => by
    rw [Nat.add_zero, atRound, h, Option.bind_some, if_neg (by omega)]
  | k + 1 => by
    rw [← Nat.add_assoc, atRound, atRound_left h he k]
    rfl

theorem atRound_isSome (h : (g.atRound fn r ends i).isSome) (hj : j ≤ i) :
    (g.atRound fn r ends j).isSome := by
  induction hj with
  | refl => exact h
  | @step i _ ih =>
    obtain ⟨s, hs⟩ := Option.isSome_iff_exists.mp h
    obtain ⟨t, ht, -⟩ := Option.bind_eq_some_iff.mp hs
    exact ih (Option.isSome_iff_exists.mpr ⟨t, ht⟩)

/-- From a round that begins at the end of stdin on, all do. -/
theorem atRound_ended (h : g.atRound fn r ends i = some s) (hend : Ended r.last s)
    (he : s.editing > 0) : ∀ k t, g.atRound fn r ends (i + k) = some t →
      Ended r.last t ∧ t.editing > 0
  | 0, t, ht => by
    cases h.symm.trans ht
    exact ⟨hend, he⟩
  | k + 1, t, ht => by
    obtain ⟨u, hu, hstep⟩ := Option.bind_eq_some_iff.mp ht
    obtain ⟨hend', he'⟩ := atRound_ended h hend he k u hu
    rw [if_pos he'] at hstep
    exact Ended.editStep r.last_code ((ended_supplied _).mpr hend') he' hstep

/-- A loop that is left proceeds in every round. -/
theorem atRound_proceeds (h : g.atRound fn r ends i = some s) (he : s.editing ≤ 0) :
    g.Proceeds fn r ends := by
  have hsome : (g.atRound fn r ends i).isSome := Option.isSome_iff_exists.mpr ⟨s, h⟩
  have hle {j : Nat} {t : Ed} (ht : g.atRound fn r ends j = some t) : j ≤ i := by
    by_contra hlt
    have hnone := atRound_left h he (j - (i + 1))
    rw [show i + 1 + (j - (i + 1)) = j by omega, ht] at hnone
    cases hnone
  refine ⟨atRound_isSome hsome (Nat.zero_le i), fun j t ht hgo hend => ?_, fun j t ht hgo => ?_,
    i + 1, fun j hj t ht => absurd (hle ht) (by omega)⟩
  · have hlast := atRound_ended ht hend hgo (i - j) s (by
      rw [show j + (i - j) = i from Nat.add_sub_of_le (hle ht)]
      exact h)
    omega
  · have hne : j ≠ i := by
      rintro rfl
      cases h.symm.trans ht
      omega
    exact atRound_isSome hsome (Nat.lt_of_le_of_ne (hle ht) hne)

/-- Behind the last `.` of the queue every round uses up some of what can come. -/
theorem Proceeds.leaves (h : g.Proceeds fn r ends) {n : Nat}
    (hn : ∀ i ≥ n, ∀ s, g.atRound fn r ends i = some s → ¬s.TakesDot) {i : Nat} (hi : n ≤ i)
    {s : Ed} (hs : g.atRound fn r ends i = some s) :
    ∃ j t, g.atRound fn r ends j = some t ∧ t.editing ≤ 0 := by
  by_cases he : s.editing > 0
  · obtain ⟨t, ht⟩ := Option.isSome_iff_exists.mp (h.back i s hs he)
    have hstep := ht
    rw [atRound_next hs he] at hstep
    have hlt : t.budget r.last < s.budget r.last := by
      rw [← budget_supplied s (ends (i + 1))]
      exact editStep_spends r.last_code (mt (ended_supplied _).mp (h.awake i s hs he))
        (hn i hi s hs) hstep
    exact Proceeds.leaves h hn (Nat.le_succ_of_le hi) ht
  · exact ⟨i, s, hs, Int.not_lt.mp he⟩
termination_by s.budget r.last
decreasing_by exact hlt

/-- Before that there is a round too, or the loop has been left. -/
theorem Proceeds.reaches (h : g.Proceeds fn r ends) : ∀ n,
    (∃ s, g.atRound fn r ends n = some s) ∨ ∃ j t, g.atRound fn r ends j = some t ∧ t.editing ≤ 0
  | 0 => .inl (Option.isSome_iff_exists.mp h.start)
  | n + 1 => by
    rcases h.reaches n with ⟨s, hs⟩ | hleft
    · by_cases he : s.editing > 0
      · exact .inl (Option.isSome_iff_exists.mp (h.back n s hs he))
      · exact .inr ⟨n, s, hs, Int.not_lt.mp he⟩
    · exact .inr hleft

end

/-- `:q` and a carriage return lead out of it. -/
example : (mainStart .still 24 80).Returns none (.start [some 58, some 113, some 13]) := by
  have h₀ : ((mainStart .still 24 80).atRound none (.start [some 58, some 113, some 13])
      (fun _ => 0) 0).isSome := by decide +kernel
  have hq : ∀ s₀ ∈ (mainStart .still 24 80).atRound none (.start [some 58, some 113, some 13])
      (fun _ => 0) 0, s₀.editing > 0 ∧ s₀.editStep.isSome ∧ ∀ s ∈ s₀.editStep, s.editing ≤ 0 := by
    decide +kernel
  obtain ⟨s₀, h₀⟩ := Option.isSome_iff_exists.mp h₀
  obtain ⟨hgo, hstep, hend⟩ := hq s₀ h₀
  obtain ⟨s, hs⟩ := Option.isSome_iff_exists.mp hstep
  refine ⟨fun _ => 0, 1, s, ?_, hend s hs⟩
  rw [atRound_next h₀ hgo, supplied, List.replicate_zero, List.append_nil]
  exact hs

/-- Starting without a file reads no key but for messages. -/
theorem editStart_none {s₀ : Ed} (h : s.editStart none = some s₀) :
    KeysKept { s with ioq := none } s₀ ∧ s₀.editing = 1 := by
  obtain ⟨⟨rc, t⟩, hinit, hredraw⟩ := Option.bind_eq_some_iff.mp h
  obtain ⟨u, hnl, hlast⟩ := Option.bind_eq_some_iff.mp hinit
  obtain ⟨⟨q, v⟩, hchar, e⟩ := Option.map_eq_some_iff.mp hnl
  cases e
  cases hlast
  have hins := (charInsert_edits hchar).keysKept
  have hstart := (redraw_looked hredraw).keysKept
  refine ⟨⟨hstart.keys.trans hins.keys, hstart.queue⟩, ?_⟩
  exact (redraw_drains hredraw).editing.trans (newline_drains hchar).editing

end Ed

end Evim
