import Ewokos.Evim.Session
import Ewokos.Lib.Trace

/-!
# evim: what `.` feeds back

The globals of the `.` command are written by four functions only: `get_one_char`,
`start_new_cmd_q`, `end_cmd_q` and the case `.` of `do_cmd`.  `Calls` are the runs of the editor
seen from them: one event for each call, and steps in between that leave the queue and stdin
alone.

`Feeds v l`: the next calls of `get_one_char` return the keys of `l` from the queue, whatever the
editor does in between.  The queue is a string of bytes, so a recorded key comes back only when
it is a byte other than 0: `repeat_feeds_iff`.  The cursor and function keys are negative.
-/

set_option autoImplicit false

namespace Evim

open Cells
open CString hiding strchr

/-- A call of one of the four functions. -/
inductive Call where
  /-- `get_one_char` returned `c` -/
  | got (c : Int)
  /-- `start_new_cmd_q(c)`, with the count of the command -/
  | started (c count : Int)
  /-- `end_cmd_q` -/
  | ended
  /-- the case `.`, with the count typed before it, or 0 -/
  | repeated (count : Int)
  deriving DecidableEq, Repr

/-- What each call does.  The guard of `started` is the one of `edit_file`. -/
def CallStep (s : Ed) : Call → Ed → Prop
  | .got c, t => s.getOneChar = some (c, t)
  | .started c count, t =>
    (s.adding2q = false ∧ s.ioq = none ∧ 0 < c ∧ c < 127) ∧
      count = (if s.cmdcnt = 0 then 1 else s.cmdcnt) ∧ t = s.startNewCmdQ c
  | .ended, t => t = s.endCmdQ
  | .repeated count, t => count = s.cmdcnt ∧ t = s.repeatLast

/-- Everything else the editor does. -/
def Aside (s t : Ed) : Prop := t.toCmdQueue = s.toCmdQueue ∧ t.env.keys = s.env.keys

/-- The runs of the editor, with their calls. -/
abbrev Calls : Ed → List Call → Ed → Prop := Trace CallStep Aside

/-- The keys that were read. -/
def keysOf : List Call → List Int
  | [] => []
  | .got c :: es => c :: keysOf es
  | _ :: es => keysOf es

/-- The count that `.` uses after the count `n`: the last one typed before a `.`. -/
def lastCount (n : Int) : List Call → Int
  | [] => n
  | .repeated count :: es => lastCount (if count ≠ 0 then count else n) es
  | _ :: es => lastCount n es

/-- The bytes of a string as `get_one_char` returns them. -/
def keysIn (str : List UInt8) : List Int := str.map fun b => (b.toNat : Int)

/-- The digits of `%u`. -/
def countKeys (n : Int) : List Int := keysIn (dec (n % 4294967296))

/-- Up to the next `.`, the calls of `get_one_char` return the keys of `l`, and none of them
reads from stdin. -/
def Feeds (v : Ed) (l : List Int) : Prop :=
  ∀ es w, Calls v es w → (∀ n, .repeated n ∉ es) → ∀ k, l[(keysOf es).length]? = some k →
    ∃ w', w.getOneChar = some (k, w') ∧ w'.env.keys = w.env.keys

/-! ## Traces -/

theorem keysOf_append (es fs : List Call) : keysOf (es ++ fs) = keysOf es ++ keysOf fs := by
  induction es with
  | nil => rfl
  | cons e es ih => cases e <;> simp [keysOf, ih]

theorem lastCount_append (n : Int) (es fs : List Call) :
    lastCount n (es ++ fs) = lastCount (lastCount n es) fs := by
  induction es generalizing n with
  | nil => rfl
  | cons e es ih => cases e <;> simp [lastCount, ih]

/-! ## Reading from the queue -/

variable {s t v w : Ed}

/-- Without a recording, `get_one_char` takes the next byte of the queue. -/
theorem getOneChar_queue {b : UInt8} {rest : List UInt8} (ha : s.adding2q = false)
    (hq : s.ioq = some (b :: rest)) :
    s.getOneChar = some ((b.toNat : Int), { s with ioq := some rest }) := by
  unfold Ed.getOneChar
  rw [ha, hq]
  rfl

/-- `readit` takes a key from stdin. -/
theorem readit_keys {c : Int} (h : s.readit = some (c, t)) : t.env.keys ≠ s.env.keys := by
  unfold Ed.readit at h
  split at h
  · cases h
  · rename_i k ks hk
    cases h
    rw [hk]
    exact fun he => absurd (congrArg List.length he) (by simp)

/-- Behind the end of the queue, so does `get_one_char`. -/
theorem getOneChar_stdin {c : Int} (ha : s.adding2q = false) (hq : s.ioq = some [])
    (h : s.getOneChar = some (c, t)) : t.env.keys ≠ s.env.keys := by
  unfold Ed.getOneChar at h
  rw [if_neg (by rw [ha]; decide), hq] at h
  exact readit_keys (s := { s with ioq := none }) h

/-- The queue of the string `str` after the calls `es`: what they did not read is left, and the
queue is not recorded. -/
def Serving (str : List UInt8) (es : List Call) (w : Ed) : Prop :=
  (∀ n, .repeated n ∉ es) → (keysOf es).length ≤ str.length →
    w.adding2q = false ∧ w.ioq = some (str.drop (keysOf es).length)

theorem Serving.next {str : List UInt8} {es : List Call} {e : Call} (hs : Serving str es s)
    (h : CallStep s e t) : Serving str (es ++ [e]) t := by
  intro hes hl
  have hes' : ∀ n, .repeated n ∉ es := fun n he => hes n (List.mem_append_left _ he)
  rw [keysOf_append] at hl ⊢
  cases e with
  | got c =>
    simp only [keysOf, List.length_append, List.length_cons, List.length_nil] at hl ⊢
    obtain ⟨h₁, h₂⟩ := hs hes' (by omega)
    have hlt : (keysOf es).length < str.length := by omega
    rw [List.drop_eq_getElem_cons hlt] at h₂
    have hgot := (getOneChar_queue h₁ h₂).symm.trans h
    cases hgot
    exact ⟨h₁, rfl⟩
  | started c count =>
    -- a recording is not started while the queue is read
    obtain ⟨⟨_, hn, _⟩, _⟩ := h
    simp only [keysOf, List.append_nil] at hl
    rw [(hs hes' hl).2] at hn
    cases hn
  | ended =>
    obtain rfl : t = s.endCmdQ := h
    simp only [keysOf, List.append_nil] at hl ⊢
    exact ⟨rfl, (hs hes' hl).2⟩
  | repeated n => exact absurd (List.mem_append_right _ (List.mem_singleton_self _)) (hes n)

theorem serving {str : List UInt8} (ha : v.adding2q = false) (hq : v.ioq = some str)
    {es : List Call} (h : Calls v es w) : Serving str es w := by
  refine h.keeps (P := Serving str) ?_ Serving.next fun _ _ => ⟨ha, hq⟩
  intro es t u ht hu hes hl
  obtain ⟨h₁, h₂⟩ := ht hes hl
  exact ⟨(congrArg CmdQueue.adding2q hu.1).trans h₁, (congrArg CmdQueue.ioq hu.1).trans h₂⟩

/-- The queue feeds the keys it begins with. -/
theorem feeds_iff {str : List UInt8} (ha : v.adding2q = false) (hq : v.ioq = some str)
    (l : List Int) : Feeds v l ↔ l <+: keysIn str := by
  constructor
  · intro hf
    -- after `i` of the keys, `i` bytes of the queue have been read
    have hread : ∀ i ≤ l.length, i ≤ str.length ∧ (keysIn str).take i = l.take i ∧
        ∃ es w, Calls v es w ∧ (∀ n, .repeated n ∉ es) ∧ (keysOf es).length = i := by
      intro i
      induction i with
      | zero => exact fun _ => ⟨Nat.zero_le _, rfl, [], v, .refl v, by simp, rfl⟩
      | succ i ih =>
        intro hi
        obtain ⟨hle, htake, es, w, hr, hes, hlen⟩ := ih (by omega)
        obtain ⟨w', hgot, hkeys⟩ := hf es w hr hes _ (List.getElem?_eq_getElem (by omega))
        obtain ⟨h₁, h₂⟩ := serving ha hq hr hes (by omega)
        rw [hlen] at h₂
        have hlt : i < str.length := by
          by_contra hge
          rw [List.drop_eq_nil_of_le (by omega)] at h₂
          exact getOneChar_stdin h₁ h₂ hgot hkeys
        rw [List.drop_eq_getElem_cons hlt] at h₂
        have hsame := Option.some.inj ((getOneChar_queue h₁ h₂).symm.trans hgot)
        have hstep : CallStep w (.got l[(keysOf es).length]) w' := hgot
        refine ⟨hlt, ?_, es ++ [.got _], w', hr.next hstep, ?_, ?_⟩
        · have hlt' : i < (keysIn str).length := by simpa [keysIn] using hlt
          rw [List.take_succ_eq_append_getElem hlt', List.take_succ_eq_append_getElem hi, htake]
          have hk := congrArg Prod.fst hsame
          simp only [hlen] at hk
          simp [keysIn, hk]
        · simpa using hes
        · simp [keysOf_append, keysOf, hlen]
    have hall := (hread l.length le_rfl).2.1
    rw [List.take_length] at hall
    rw [← hall]
    exact List.take_prefix _ _
  · rintro ⟨rest, hrest⟩ es w hr hes k hk
    have hlen : (keysOf es).length < str.length := by
      have h₁ := (List.getElem?_eq_some_iff.mp hk).1
      have h₂ := congrArg List.length hrest
      simp only [keysIn, List.length_append, List.length_map] at h₂
      omega
    obtain ⟨h₁, h₂⟩ := serving ha hq hr hes hlen.le
    rw [List.drop_eq_getElem_cons hlen] at h₂
    have hkey : k = (str[(keysOf es).length].toNat : Int) := by
      have h₃ : (keysIn str)[(keysOf es).length]? = some k := by
        rw [← hrest]
        rw [List.getElem?_append_left (List.getElem?_eq_some_iff.mp hk).1]
        exact hk
      rw [keysIn, List.getElem?_map, List.getElem?_eq_getElem hlen] at h₃
      exact (Option.some.inj h₃).symm
    subst hkey
    exact ⟨_, getOneChar_queue h₁ h₂, rfl⟩

/-! ## The recording -/

theorem keysIn_append (a b : List UInt8) : keysIn (a ++ b) = keysIn a ++ keysIn b :=
  List.map_append

/-- A key comes back from a byte of the string. -/
theorem keysIn_recorded (l : List Int) :
    l <+: keysIn ((l.map UInt8.ofInt).takeWhile (· != 0)) ↔ ∀ k ∈ l, 0 < k ∧ k < 256 := by
  induction l with
  | nil => simp [keysIn]
  | cons k l ih =>
    have hb : ((UInt8.ofInt k).toNat : Int) = k % 256 := by
      rw [UInt8.ofInt, UInt8.toNat_ofNat']
      omega
    rw [List.map_cons, List.forall_mem_cons, ← ih]
    by_cases h0 : UInt8.ofInt k = 0
    · -- the string ends here
      rw [List.takeWhile_cons_of_neg (by simpa using h0)]
      rw [h0] at hb
      constructor
      · intro h
        cases List.prefix_nil.mp h
      · intro h
        have : k % 256 = 0 := hb.symm
        omega
    · rw [List.takeWhile_cons_of_pos (by simpa using h0)]
      have h1 : k % 256 ≠ 0 := by
        intro h
        refine h0 (UInt8.toNat_inj.mp ?_)
        show (UInt8.ofInt k).toNat = 0
        omega
      rw [keysIn, List.map_cons, List.cons_prefix_cons, hb]
      refine and_congr ?_ Iff.rfl
      omega

/-- `readit` leaves the recording alone. -/
theorem readit_recording {c : Int} (h : s.readit = some (c, t)) :
    t.adding2q = s.adding2q ∧ t.lastModifyingCmd = s.lastModifyingCmd ∧ t.dotcnt = s.dotcnt := by
  unfold Ed.readit at h
  split at h
  · cases h
  · cases h
    exact ⟨rfl, rfl, rfl⟩

/-- A key is recorded as a byte, if there is room. -/
theorem getOneChar_adding {c : Int} (ha : s.adding2q = true)
    (hl : s.lastModifyingCmd.length < MAX_INPUT_LEN - 2) (h : s.getOneChar = some (c, t)) :
    t.adding2q = true ∧ t.lastModifyingCmd = s.lastModifyingCmd ++ [UInt8.ofInt c] ∧
      t.dotcnt = s.dotcnt := by
  unfold Ed.getOneChar at h
  rw [if_pos ha] at h
  obtain ⟨⟨c', s'⟩, hr, h⟩ := Option.bind_eq_some_iff.mp h
  obtain ⟨h₁, h₂, h₃⟩ := readit_recording hr
  dsimp only at h
  rw [if_neg (by rw [h₂]; omega)] at h
  cases h
  exact ⟨h₁.trans ha, congrArg (· ++ _) h₂, h₃⟩

/-- Without a recording, nothing is recorded. -/
theorem getOneChar_idle {c : Int} (ha : s.adding2q = false) (h : s.getOneChar = some (c, t)) :
    t.adding2q = false ∧ t.lastModifyingCmd = s.lastModifyingCmd ∧ t.dotcnt = s.dotcnt := by
  unfold Ed.getOneChar at h
  rw [if_neg (by rw [ha]; decide)] at h
  split at h
  · cases h
    exact ⟨ha, rfl, rfl⟩
  · obtain ⟨h₁, h₂, h₃⟩ := readit_recording h
    exact ⟨h₁.trans ha, h₂, h₃⟩
  · obtain ⟨h₁, h₂, h₃⟩ := readit_recording h
    exact ⟨h₁.trans ha, h₂, h₃⟩

/-- The string of `.`, with the count typed before it. -/
theorem repeatLast_eq (hl : s.lastModifyingCmd ≠ []) :
    s.repeatLast.adding2q = s.adding2q ∧
      s.repeatLast.lastModifyingCmd = s.lastModifyingCmd ∧
      s.repeatLast.dotcnt = lastCount s.dotcnt [.repeated s.cmdcnt] ∧
      s.repeatLast.ioq = some (dec (lastCount s.dotcnt [.repeated s.cmdcnt] % 4294967296) ++
        s.lastModifyingCmd.takeWhile (· != 0)) := by
  unfold Ed.repeatLast
  rw [if_neg hl]
  simp only [lastCount]
  split <;> exact ⟨rfl, rfl, rfl, rfl⟩

/-- The recording of the command `c` with the count `n`, behind the calls `es`; `on` while it
goes on. -/
structure Recorded (on : Bool) (c n : Int) (ks : List Int) (s : Ed) : Prop where
  adding2q : s.adding2q = on
  cmd : s.lastModifyingCmd = (c :: ks).map UInt8.ofInt
  dotcnt : s.dotcnt = n

theorem Recorded.aside {on : Bool} {c n : Int} {ks : List Int} (hs : Recorded on c n ks s)
    (h : Aside s t) : Recorded on c n ks t :=
  ⟨(congrArg CmdQueue.adding2q h.1).trans hs.adding2q,
    (congrArg CmdQueue.lastModifyingCmd h.1).trans hs.cmd,
    (congrArg CmdQueue.dotcnt h.1).trans hs.dotcnt⟩

/-- `.` reads the recording only. -/
theorem Recorded.repeatLast {on : Bool} {c n : Int} {ks : List Int} (hs : Recorded on c n ks s) :
    Recorded on c (lastCount n [.repeated s.cmdcnt]) ks s.repeatLast ∧
      s.repeatLast.ioq = some (dec (lastCount n [.repeated s.cmdcnt] % 4294967296) ++
        ((c :: ks).map UInt8.ofInt).takeWhile (· != 0)) := by
  obtain ⟨h₁, h₂, h₃, h₄⟩ := repeatLast_eq (s := s) (by rw [hs.cmd]; exact List.cons_ne_nil _ _)
  rw [hs.dotcnt] at h₃ h₄
  rw [hs.cmd] at h₂ h₄
  exact ⟨⟨h₁.trans hs.adding2q, h₂, h₃⟩, h₄⟩

/-- A recording goes on until `end_cmd_q`, as long as there is room. -/
theorem recorded_on {c n : Int} {es : List Call} (h : Calls s es t) (hs : Recorded true c n [] s) :
    .ended ∉ es → (keysOf es).length + 1 ≤ MAX_INPUT_LEN - 2 →
      Recorded true c (lastCount n es) (keysOf es) t := by
  refine h.keeps (P := fun es t => .ended ∉ es → (keysOf es).length + 1 ≤ MAX_INPUT_LEN - 2 →
    Recorded true c (lastCount n es) (keysOf es) t) ?_ ?_ fun _ _ => hs
  · exact fun ht hu hes hl => (ht hes hl).aside hu
  · intro es t e u ht hstep hes hl
    have hes' : .ended ∉ es := fun he => hes (List.mem_append_left _ he)
    rw [keysOf_append, List.length_append] at hl
    have hr := ht hes' (by omega)
    rw [keysOf_append, lastCount_append]
    cases e with
    | got k =>
      have hlen : t.lastModifyingCmd.length < MAX_INPUT_LEN - 2 := by
        simp only [hr.cmd, keysOf, List.length_map, List.length_cons, List.length_nil] at hl ⊢
        omega
      obtain ⟨h₁, h₂, h₃⟩ := getOneChar_adding hr.adding2q hlen hstep
      refine ⟨h₁, ?_, h₃.trans hr.dotcnt⟩
      rw [h₂, hr.cmd]
      simp [keysOf]
    | started k m =>
      obtain ⟨⟨ha, _⟩, _⟩ := hstep
      rw [hr.adding2q] at ha
      cases ha
    | ended => exact absurd (List.mem_append_right _ (List.mem_singleton_self _)) hes
    | repeated m =>
      obtain ⟨rfl, rfl⟩ := hstep
      simpa [keysOf] using hr.repeatLast.1

/-- Afterwards it stays until another one is started. -/
theorem recorded_off {c n : Int} {ks : List Int} {es : List Call} (h : Calls s es t)
    (hs : Recorded false c n ks s) :
    (∀ k m, .started k m ∉ es) → Recorded false c (lastCount n es) ks t := by
  refine h.keeps (P := fun es t => (∀ k m, .started k m ∉ es) →
    Recorded false c (lastCount n es) ks t) ?_ ?_ fun _ => hs
  · exact fun ht hu hes => (ht hes).aside hu
  · intro es t e u ht hstep hes
    have hr := ht fun k m he => hes k m (List.mem_append_left _ he)
    rw [lastCount_append]
    cases e with
    | got k =>
      obtain ⟨h₁, h₂, h₃⟩ := getOneChar_idle hr.adding2q hstep
      exact ⟨h₁, h₂.trans hr.cmd, h₃.trans hr.dotcnt⟩
    | started k m =>
      exact absurd (List.mem_append_right _ (List.mem_singleton_self _)) (hes k m)
    | ended =>
      obtain rfl : u = t.endCmdQ := hstep
      exact ⟨rfl, hr.cmd, hr.dotcnt⟩
    | repeated m =>
      obtain ⟨rfl, rfl⟩ := hstep
      exact hr.repeatLast.1

/-- `.` feeds the count and the keys of the command recorded last, as long as each of these keys
is a byte other than 0. -/
theorem repeat_feeds_iff {pre es ls : List Call} {c n m : Int}
    (h : Calls s (pre ++ .started c n :: (es ++ .ended :: (ls ++ [.repeated m]))) v)
    (hes : .ended ∉ es) (hlen : (keysOf es).length + 1 ≤ MAX_INPUT_LEN - 2)
    (hls : ∀ k p, .started k p ∉ ls) :
    Feeds v (countKeys (lastCount n (es ++ (ls ++ [.repeated m]))) ++ c :: keysOf es) ↔
      ∀ k ∈ keysOf es, 0 < k ∧ k < 256 := by
  obtain ⟨s₀, -, h⟩ := h.split
  obtain ⟨s₁, s₂, -, ⟨⟨-, -, hc₀, hc₁⟩, rfl, rfl⟩, h⟩ := h.uncons
  obtain ⟨s₃, hrec, h⟩ := h.split
  obtain ⟨s₄, s₅, hq₄, rfl, h⟩ := h.uncons
  obtain ⟨s₆, hidle, h⟩ := h.split
  obtain ⟨s₇, s₈, hq₇, ⟨rfl, rfl⟩, hq⟩ := h.uncons
  have hrec := hrec.append hq₄
  have hidle := hidle.append hq₇
  rw [List.append_nil] at hrec hidle
  -- recorded until `end_cmd_q`, kept until `.`
  have h₂ : Recorded true c (if s₁.cmdcnt = 0 then 1 else s₁.cmdcnt) [] (s₁.startNewCmdQ c) :=
    ⟨rfl, rfl, rfl⟩
  have h₄ := recorded_on hrec h₂ hes hlen
  have h₅ : Recorded false c _ (keysOf es) s₄.endCmdQ := ⟨rfl, h₄.cmd, h₄.dotcnt⟩
  have h₇ := recorded_off hidle h₅ hls
  obtain ⟨h₈, hioq⟩ := h₇.repeatLast
  obtain ⟨ha, hv⟩ := serving h₈.adding2q hioq hq (by simp) (Nat.zero_le _)
  rw [← lastCount_append, ← lastCount_append] at hv
  rw [feeds_iff ha hv, countKeys, keysOf, List.length_nil, List.drop_zero, keysIn_append,
    List.prefix_append_right_inj, keysIn_recorded, List.forall_mem_cons]
  exact and_iff_right ⟨hc₀, by omega⟩

/-- Keys that wait on stdin. -/
def typing (ks : List Int) : Env := { Env.still with keys := ks.map (⟨·, false⟩) }

/-- The text typed after `i` comes back. -/
theorem repeat_feeds_text : ∃ v, Feeds v (countKeys 1 ++ key 'i' :: [key 'x', 27]) := by
  obtain ⟨t, u, hx, hesc, hu⟩ : ∃ t u,
      ((Ed.zeroed (typing [key 'x', 27])).startNewCmdQ (key 'i')).getOneChar = some (key 'x', t) ∧
        t.getOneChar = some (27, u) ∧ u.cmdcnt = 0 := ⟨_, _, rfl, rfl, rfl⟩
  have h₁ : CallStep (Ed.zeroed (typing [key 'x', 27])) (.started (key 'i') 1) _ :=
    ⟨⟨rfl, rfl, by decide, by decide⟩, rfl, rfl⟩
  have h₂ : CallStep _ (.got (key 'x')) t := hx
  have h₃ : CallStep t (.got 27) u := hesc
  have h₄ : CallStep u .ended u.endCmdQ := rfl
  have h₅ : CallStep u.endCmdQ (.repeated 0) _ := ⟨hu.symm, rfl⟩
  have h : Calls (Ed.zeroed (typing [key 'x', 27])) ([] ++ .started (key 'i') 1 ::
      ([.got (key 'x'), .got 27] ++ .ended :: ([] ++ [.repeated 0]))) u.endCmdQ.repeatLast :=
    ((((Trace.one h₁).next h₂).next h₃).next h₄).next h₅
  exact ⟨_, (repeat_feeds_iff h (by simp) (by decide) (by simp)).mpr (by decide)⟩

/-- A cursor key typed in an insert session comes back as another key: `i`, up and ESC are
repeated as `i`, 254 and ESC. -/
theorem cursor_key_not_fed :
    ∃ v, (Ed.editStart (Ed.mainStart (typing [key 'i', KEYCODE_UP, 27, key '.']) 24 80) none).bind
        (Ed.editLoop 4) = some v ∧
      ¬Feeds v (countKeys 1 ++ key 'i' :: [KEYCODE_UP, 27]) := by
  have hrun : ∃ v, (Ed.editStart (Ed.mainStart (typing [key 'i', KEYCODE_UP, 27, key '.']) 24 80)
      none).bind (Ed.editLoop 4) = some v := by
    rw [← Option.isSome_iff_exists]
    decide +kernel
  obtain ⟨v, hv⟩ := hrun
  have hq : ∀ v ∈ (Ed.editStart (Ed.mainStart (typing [key 'i', KEYCODE_UP, 27, key '.']) 24 80)
      none).bind (Ed.editLoop 4), v.adding2q = false ∧ v.ioq = some [49, 105, 254, 27] := by
    decide +kernel
  obtain ⟨ha, hioq⟩ := hq v hv
  exact ⟨v, hv, fun hf => absurd ((feeds_iff ha hioq _).mp hf) (by decide)⟩

end Evim
