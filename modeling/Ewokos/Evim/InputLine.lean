import Ewokos.Evim.Address

/-!
# evim: the command line as it is typed

`get_input_line` reads keys until Enter or ESC, until the prompt is erased, or until its buffer is
full.

* `Delivers` — the next keys of `get_one_char`, from wherever they come.
* `lineAfter` — the text that keys and backspaces leave.
* `inputLoop_typed`, `inputLoop_full` — the two ways the loop can go.

Main result: `inputLine_iff`.
-/

set_option autoImplicit false

namespace Evim

open CString hiding strchr

namespace Ed

variable {s s' t : Ed}

/-! ## Keys -/

/-- The next keys that `get_one_char` returns, and the state behind them. -/
inductive Delivers : Ed → List Int → Ed → Prop
  | nil (s : Ed) : Delivers s [] s
  | cons {s s₁ s' : Ed} {c : Int} {ks : List Int} : s.getOneChar = some (c, s₁) →
      Delivers s₁ ks s' → Delivers s (c :: ks) s'

theorem readit_left {c : Int} (h : s.readit = some (c, t)) :
    t.env.keys.length + 1 = s.env.keys.length ∧ t.ioq = s.ioq := by
  unfold readit at h
  cases hk : s.env.keys with
  | nil =>
    rw [hk] at h
    cases h
  | cons k ks =>
    rw [hk] at h
    cases h
    exact ⟨rfl, rfl⟩

/-- Every call takes one key. -/
theorem getOneChar_left {c : Int} (h : s.getOneChar = some (c, t)) :
    t.inputLeft + 1 = s.inputLeft := by
  unfold inputLeft
  unfold getOneChar at h
  split at h
  · obtain ⟨⟨c₁, s₁⟩, h₁, h₂⟩ := Option.bind_eq_some_iff.mp h
    obtain ⟨hkeys, hq⟩ := readit_left h₁
    dsimp only at h₂
    rw [← hq]
    split at h₂ <;> cases h₂ <;> dsimp only <;> omega
  · split at h
    · rename_i c₁ rest hq
      cases h
      rw [hq]
      simp only [Option.getD_some, List.length_cons]
      omega
    · rename_i hq
      obtain ⟨hkeys, hq'⟩ := readit_left h
      rw [hq, hq']
      simp only [Option.getD_some, Option.getD_none, List.length_nil]
      exact hkeys
    · rename_i hq
      obtain ⟨hkeys, hq'⟩ := readit_left h
      rw [hq', hq]
      simp only [Option.getD_none, List.length_nil]
      exact hkeys

theorem Delivers.left {ks : List Int} (h : Delivers s ks t) :
    t.inputLeft + ks.length = s.inputLeft := by
  induction h with
  | nil s => rfl
  | cons hkey _ ih =>
    have := getOneChar_left hkey
    rw [List.length_cons]
    omega

/-- Outside a repetition and its recording the keys are those of stdin. -/
theorem delivers_stdin : ∀ (l : List Key) (s : Ed), s.adding2q = false → s.ioq = none →
    s.env.keys = l → ∃ s', Delivers s (l.map Key.code) s'
  | [], s, _, _, _ => ⟨s, .nil s⟩
  | k :: l, s, hadd, hq, hkeys => by
    have hkey : s.getOneChar =
        some (k.code, { s with readbuffer := k.pending, env := { s.env with keys := l } }) := by
      unfold getOneChar readit
      rw [if_neg (by rw [hadd]; decide), hq, hkeys]
    obtain ⟨s', h⟩ := delivers_stdin l
      { s with readbuffer := k.pending, env := { s.env with keys := l } } hadd hq rfl
    exact ⟨s', .cons hkey h⟩

/-! ## The line -/

/-- A key that goes into the line or takes a byte out of it. -/
structure LineKey (c : Int) : Prop where
  pos : 0 < c
  byte : c < 256
  newline : c ≠ 10
  enter : c ≠ 13
  esc : c ≠ 27

/-- What one key does to the line; without its prompt a line has been left. -/
def lineKey (buf : List UInt8) (c : Int) : List UInt8 :=
  if buf = [] then [] else if c = 8 ∨ c = 127 then buf.dropLast else buf ++ [UInt8.ofInt c]

/-- The line that keys leave. -/
def lineAfter (buf : List UInt8) (ks : List Int) : List UInt8 := ks.foldl lineKey buf

theorem lineAfter_nil : ∀ ks : List Int, lineAfter [] ks = []
  | [] => rfl
  | _ :: ks => lineAfter_nil ks

/-- One round of the loop. -/
theorem inputLoop_key {n : Nat} {buf : List UInt8} {c : Int} (hne : buf ≠ [])
    (hlen : buf.length < MAX_INPUT_LEN - 1) (hkey : s.getOneChar = some (c, t)) (hc : LineKey c) :
    inputLoop (n + 1) buf s =
      if lineKey buf c = [] then some ([], t) else inputLoop n (lineKey buf c) t := by
  have hend : ¬(c = 10 ∨ c = 13 ∨ c = 27) := by
    rintro (h | h | h)
    · exact hc.newline h
    · exact hc.enter h
    · exact hc.esc h
  rw [inputLoop, if_pos hlen, hkey, Option.bind_eq_bind, Option.bind_some]
  dsimp only
  rw [if_neg hend]
  unfold lineKey
  rw [if_neg hne]
  by_cases herase : c = 8 ∨ c = 127
  · rw [if_pos herase, if_pos herase]
    by_cases hnil : buf.dropLast = []
    · rw [if_pos hnil, if_pos hnil, hnil]
    · rw [if_neg hnil, if_neg hnil]
  · rw [if_neg herase, if_neg herase, if_pos ⟨hc.pos, hc.byte⟩, if_neg (by simp)]

/-- No key makes the line full: the loop takes them all, unless the prompt is erased, and the line
is what they leave. -/
theorem inputLoop_typed {enter : Int} (henter : enter = 10 ∨ enter = 13) :
    ∀ (ks : List Int) (buf : List UInt8) (s : Ed) (n : Nat), Delivers s (ks ++ [enter]) s' →
      (∀ c ∈ ks, LineKey c) → buf ≠ [] → s.inputLeft < n →
      (∀ j ≤ ks.length, (lineAfter buf (ks.take j)).length < MAX_INPUT_LEN - 1) →
      ∃ t, inputLoop n buf s = some (lineAfter buf ks, t) ∧ (lineAfter buf ks = [] ∨ t = s')
  | [], buf, s, n, hd, _, hne, hn, hlen => by
    obtain ⟨n, rfl⟩ : ∃ k, n = k + 1 := Nat.exists_eq_succ_of_ne_zero (by omega)
    cases hd with
    | cons hkey hd =>
      cases hd
      refine ⟨s', ?_, .inr rfl⟩
      have hend : enter = 10 ∨ enter = 13 ∨ enter = 27 := henter.imp_right .inl
      have hroom : buf.length < MAX_INPUT_LEN - 1 := hlen 0 (Nat.le_refl _)
      rw [inputLoop, if_pos hroom, hkey, Option.bind_eq_bind, Option.bind_some]
      dsimp only
      rw [if_pos hend]
      rfl
  | c :: ks, buf, s, n, hd, hk, hne, hn, hlen => by
    obtain ⟨n, rfl⟩ : ∃ k, n = k + 1 := Nat.exists_eq_succ_of_ne_zero (by omega)
    cases hd with
    | @cons _ s₁ _ _ _ hkey hd =>
      have hleft := getOneChar_left hkey
      have hstep := inputLoop_key (n := n) hne (hlen 0 (Nat.zero_le _)) hkey (hk c List.mem_cons_self)
      by_cases hnil : lineKey buf c = []
      · refine ⟨s₁, ?_, .inl ?_⟩
        · rw [hstep, if_pos hnil]
          exact congrArg (fun l => some (l, s₁)) (show [] = lineAfter (lineKey buf c) ks by
            rw [hnil, lineAfter_nil])
        · exact (congrArg (lineAfter · ks) hnil).trans (lineAfter_nil ks)
      · rw [hstep, if_neg hnil]
        refine inputLoop_typed henter ks (lineKey buf c) s₁ n hd
          (fun d hd => hk d (List.mem_cons_of_mem _ hd)) hnil (by omega) fun j hj => ?_
        exact hlen (j + 1) (by rw [List.length_cons]; omega)

/-- A key makes the line full: the loop ends there, with keys left over. -/
theorem inputLoop_full {enter : Int} :
    ∀ (ks : List Int) (buf : List UInt8) (s : Ed) (n : Nat), Delivers s (ks ++ [enter]) s' →
      (∀ c ∈ ks, LineKey c) → buf ≠ [] → s.inputLeft < n →
      (∃ j ≤ ks.length, ¬(lineAfter buf (ks.take j)).length < MAX_INPUT_LEN - 1) →
      ∃ line t, inputLoop n buf s = some (line, t) ∧ line ≠ [] ∧ s'.inputLeft < t.inputLeft := by
  intro ks
  induction ks with
  | nil =>
    rintro buf s n hd - hne hn ⟨j, hj, hfull⟩
    obtain ⟨n, rfl⟩ : ∃ k, n = k + 1 := Nat.exists_eq_succ_of_ne_zero (by omega)
    have hleft := hd.left
    rw [List.take_nil] at hfull
    refine ⟨buf, s, ?_, hne, ?_⟩
    · rw [inputLoop]
      exact if_neg hfull
    · simp only [List.nil_append, List.length_singleton] at hleft
      omega
  | cons c ks ih =>
    rintro buf s n hd hk hne hn ⟨j, hj, hfull⟩
    obtain ⟨n, rfl⟩ : ∃ k, n = k + 1 := Nat.exists_eq_succ_of_ne_zero (by omega)
    by_cases hroom : buf.length < MAX_INPUT_LEN - 1
    · obtain ⟨j, rfl⟩ : ∃ k, j = k + 1 := Nat.exists_eq_succ_of_ne_zero (by
        rintro rfl
        exact hfull hroom)
      cases hd with
      | @cons _ s₁ _ _ _ hkey hd =>
        have hleft := getOneChar_left hkey
        have hfull : ¬(lineAfter (lineKey buf c) (ks.take j)).length < MAX_INPUT_LEN - 1 := hfull
        have hnil : lineKey buf c ≠ [] := by
          intro hnil
          rw [hnil, lineAfter_nil] at hfull
          exact hfull (by decide)
        rw [inputLoop_key (n := n) hne hroom hkey (hk c List.mem_cons_self), if_neg hnil]
        exact ih (lineKey buf c) s₁ n hd (fun d hd => hk d (List.mem_cons_of_mem _ hd)) hnil (by omega)
          ⟨j, Nat.le_of_succ_le_succ hj, hfull⟩
    · have hleft := hd.left
      refine ⟨buf, s, ?_, hne, ?_⟩
      · rw [inputLoop]
        exact if_neg hroom
      · simp only [List.cons_append, List.length_cons, List.length_append] at hleft
        omega

/-- `case ':'` of `do_cmd` reads `line`, and calls `colon` with it in the state `t`. -/
structure CallsColon (s : Ed) (line : List UInt8) (t : Ed) : Prop where
  input : s.getInputLine (str ":") = some (line, t)
  call : ∀ (motion : Int → Ed → Option Ed) (o : Int), s.switch motion (key ':') o =
    ((t.colon line).bind fun u => u.showStatusLine).map fun u => (o, u)

theorem callsColon_of_input {line : List UInt8} (h : s.getInputLine (str ":") = some (line, t)) :
    s.CallsColon line t := by
  refine ⟨h, fun motion o => ?_⟩
  rw [switch_colon, h]
  rfl

/-- **A command line is run as it was typed**, with all its keys read, unless the prompt has been
erased and nothing is run, exactly if no key makes the line full. -/
theorem inputLine_iff {ks : List Int} {enter : Int} (henter : enter = 10 ∨ enter = 13)
    (hk : ∀ c ∈ ks, LineKey c) (typed : Delivers s (ks ++ [enter]) s') :
    ∃ line t, s.CallsColon line t ∧
      (line = lineAfter (str ":") ks ∧ (line = [] ∨ t = s'.refresh) ↔
        ∀ j ≤ ks.length, (lineAfter (str ":") (ks.take j)).length < MAX_INPUT_LEN - 1) := by
  by_cases hroom : ∀ j ≤ ks.length, (lineAfter (str ":") (ks.take j)).length < MAX_INPUT_LEN - 1
  · obtain ⟨u, hloop, hu⟩ := inputLoop_typed henter ks (str ":") s _ typed hk (by decide)
      (Nat.lt_succ_self _) hroom
    refine ⟨_, u.refresh, callsColon_of_input ?_,
      iff_of_true ⟨rfl, hu.imp_right (congrArg refresh)⟩ hroom⟩
    unfold getInputLine
    rw [hloop]
    rfl
  · obtain ⟨line, u, hloop, hne, hleft⟩ := inputLoop_full ks (str ":") s _ typed hk (by decide)
      (Nat.lt_succ_self _) (by simpa using hroom)
    refine ⟨line, u.refresh, callsColon_of_input ?_, iff_of_false ?_ hroom⟩
    · unfold getInputLine
      rw [hloop]
      rfl
    · rintro ⟨-, h | h⟩
      · exact hne h
      · have hsame := congrArg inputLeft h
        rw [u.refresh_eq, s'.refresh_eq] at hsame
        exact absurd hsame.symm (Nat.ne_of_lt hleft)

/-- A buffer with this file, and these keys to come. -/
def typedLine (keys : List Int) : Ed :=
  { twoLines with env := { Env.still with keys := keys.map fun c => ⟨c, false⟩ } }

/-- `:1,3`, a backspace and `1d`. -/
theorem inputLine_iff_range :
    ∃ line t, (typedLine [key '1', key ',', key '3', 8, key '1', key 'd', 10]).CallsColon line t ∧
      line = str ":1,1d" := by
  obtain ⟨s', typed⟩ := delivers_stdin
    (typedLine [key '1', key ',', key '3', 8, key '1', key 'd', 10]).env.keys _ rfl rfl rfl
  have hkeys : (typedLine [key '1', key ',', key '3', 8, key '1', key 'd', 10]).env.keys.map
      Key.code = [key '1', key ',', key '3', 8, key '1', key 'd'] ++ [10] := by decide
  have hk : ∀ c ∈ [key '1', key ',', key '3', 8, key '1', key 'd'], LineKey c := by
    intro c hc
    simp only [List.mem_cons, List.not_mem_nil, or_false] at hc
    rcases hc with rfl | rfl | rfl | rfl | rfl | rfl <;> constructor <;> decide
  rw [hkeys] at typed
  obtain ⟨line, t, hcall, hiff⟩ := inputLine_iff (.inl rfl) hk typed
  exact ⟨line, t, hcall, (hiff.mpr (by decide)).1.trans (by decide)⟩

/-- Behind 126 blanks the line is run, and the `x` and Enter are commands. -/
theorem inputLine_truncated :
    ∃ s' line t, Delivers (typedLine (List.replicate 126 32 ++ [key 'x'] ++ [10]))
        (List.replicate 126 32 ++ [key 'x'] ++ [10]) s' ∧
      (∀ c ∈ List.replicate 126 32 ++ [key 'x'], LineKey c) ∧
      (typedLine (List.replicate 126 32 ++ [key 'x'] ++ [10])).CallsColon line t ∧ line ≠ [] ∧
      line ≠ lineAfter (str ":") (List.replicate 126 32 ++ [key 'x']) ∧
      t.env.keys.map Key.code = [key 'x', 10] := by
  obtain ⟨ks, hks⟩ : ∃ ks, List.replicate 126 32 ++ [key 'x'] = ks := ⟨_, rfl⟩
  have hrun : ∃ x, (typedLine (ks ++ [10])).getInputLine (str ":") = some x ∧ x.1 ≠ [] ∧
      x.1 ≠ lineAfter (str ":") ks ∧ x.2.env.keys.map Key.code = [key 'x', 10] := by
    have hsome : ((typedLine (ks ++ [10])).getInputLine (str ":")).isSome := by
      rw [← hks]
      decide +kernel
    have hall : ∀ x ∈ (typedLine (ks ++ [10])).getInputLine (str ":"), x.1 ≠ [] ∧
        x.1 ≠ lineAfter (str ":") ks ∧ x.2.env.keys.map Key.code = [key 'x', 10] := by
      rw [← hks]
      decide +kernel
    obtain ⟨x, hx⟩ := Option.isSome_iff_exists.mp hsome
    exact ⟨x, hx, hall x hx⟩
  rw [hks]
  obtain ⟨⟨line, t⟩, hinput, hne, hother, hleft⟩ := hrun
  obtain ⟨s', typed⟩ := delivers_stdin _ (typedLine (ks ++ [10])) rfl rfl rfl
  have hcodes : (typedLine (ks ++ [10])).env.keys.map Key.code = ks ++ [10] := by
    unfold typedLine
    dsimp only
    rw [List.map_map]
    exact List.map_id _
  rw [hcodes] at typed
  refine ⟨s', line, t, typed, ?_, callsColon_of_input hinput, hne, hother, hleft⟩
  intro c hc
  rw [← hks] at hc
  rcases List.mem_append.mp hc with hc | hc
  · obtain rfl := List.eq_of_mem_replicate hc
    constructor <;> decide
  · obtain rfl := List.mem_singleton.mp hc
    constructor <;> decide

end Ed

end Evim
