import Ewokos.Evim.Newline
import Ewokos.Evim.RangeDelete

/-!
# evim: line addresses past the end

The addresses of a colon command are read digit by digit into an `int` and compared with the number
of lines only then.

* `Round`, `Reads` — the rounds of the loop of `get_address`, each with the text that is left.
* `Uses` — a command line that uses a number as one of its last two addresses.
* `number_numeral` — what the digits come to, modulo 2^32.
* `colon_uses` — what `colon` makes of the addresses.
* `colonCommand_unrefused` — no command says `Invalid range` of its own.

Main result: `address_refused_iff`.
-/

set_option autoImplicit false

namespace Evim

open Cells Word
open CString hiding strchr

namespace Ed

variable {s s' t : Ed}

/-! ## The digits -/

/-- One digit more, in an `int`. -/
theorem i32_digit (n : Nat) {c : UInt8} (hc : isdigit c.toNat = true) :
    i32 (i32 n * 10 + c.toNat - 48) = i32 ((n * 10 + (c.toNat - 48) : Nat) : Int) := by
  have hlo : 48 ≤ c.toNat := by
    simp only [isdigit, Bool.and_eq_true, decide_eq_true_eq] at hc
    omega
  rw [show ((n * 10 + (c.toNat - 48) : Nat) : Int) = (n : Int) * 10 + c.toNat - 48 by omega]
  unfold i32
  rw [Int.bmod_def, Int.bmod_def, Int.bmod_def]
  omega

/-- The digits come to their number, modulo 2^32. -/
theorem number_foldl {rest : List UInt8} (hrest : isdigit (head rest).toNat = false) :
    ∀ (ds : List UInt8) (n : Nat), (∀ c ∈ ds, isdigit c.toNat = true) →
      number (ds ++ rest) (i32 n) =
        (i32 (ds.foldl (fun n c => n * 10 + (c.toNat - 48)) n : Nat), rest)
  | [], n, _ => by
    cases rest with
    | nil => rfl
    | cons c rest =>
      change isdigit c.toNat = false at hrest
      rw [List.nil_append, number, if_neg (by rw [hrest]; decide)]
      rfl
  | c :: ds, n, hds => by
    have hc := hds c List.mem_cons_self
    rw [List.cons_append, number, if_pos hc, i32_digit n hc, List.foldl_cons]
    exact number_foldl hrest ds _ fun d hd => hds d (List.mem_cons_of_mem _ hd)

theorem number_numeral {ds rest : List UInt8} (hds : ∀ c ∈ ds, isdigit c.toNat = true)
    (hrest : isdigit (head rest).toNat = false) :
    number (ds ++ rest) 0 = (i32 (numeral ds), rest) :=
  number_foldl hrest ds 0 hds

/-- Blanks behind an address. -/
theorem addressLoop_blanks (s : Ed) (n : Int) {rest : List UInt8} (hrest : EndsAddress (head rest)) :
    ∀ (bs : List UInt8) (fuel : Nat), (∀ c ∈ bs, isblank c = true) →
      addressLoop (fuel + bs.length + 1) ⟨i32 n, 0, true⟩ (bs ++ rest) s =
        (some (⟨i32 n, 0, true⟩, rest), s)
  | [], fuel, _ => by
    rw [List.nil_append, addressLoop]
    simp only [hrest.blank, hrest.digit, hrest.minus, hrest.plus, Bool.false_eq_true, if_false,
      Bool.not_true, false_and, or_self, Int.add_zero, i32_i32]
  | c :: bs, fuel, hbs => by
    have ih := addressLoop_blanks s n hrest bs fuel fun d hd => hbs d (List.mem_cons_of_mem _ hd)
    rw [List.length_cons, show fuel + (bs.length + 1) + 1 = fuel + bs.length + 1 + 1 from rfl,
      addressLoop]
    simp only [List.cons_append, List.headD_cons, hbs c List.mem_cons_self, if_true, Int.add_zero,
      i32_i32, List.drop_succ_cons, List.drop_zero, ih]

/-- `get_one_address` of digits, blanks behind them. -/
theorem getOneAddress_digits (s : Ed) {ds bs rest : List UInt8} (hne : ds ≠ [])
    (hds : ∀ c ∈ ds, isdigit c.toNat = true) (hbs : ∀ c ∈ bs, isblank c = true)
    (hrest : EndsAddress (head rest)) :
    s.getOneAddress (ds ++ (bs ++ rest)) = (some (i32 (numeral ds), true, rest), s) := by
  obtain ⟨c, l, rfl⟩ := List.exists_cons_of_ne_nil hne
  have hc := hds c List.mem_cons_self
  have hdigit : isdigit (head (bs ++ rest)).toNat = false := by
    cases bs with
    | nil => exact hrest.digit
    | cons b bs =>
      have hb := hbs b List.mem_cons_self
      simp only [isblank, Bool.or_eq_true, beq_iff_eq] at hb
      rcases hb with rfl | rfl <;> rfl
  have hnum := number_numeral hds hdigit
  obtain ⟨fuel, hfuel⟩ : ∃ fuel, ((c :: l) ++ (bs ++ rest)).length = fuel + bs.length + 1 :=
    ⟨l.length + rest.length, by simp only [List.length_append, List.length_cons]; omega⟩
  have hhead : head ((c :: l) ++ (bs ++ rest)) = c := rfl
  have hloop : ∀ a : Addr, a.gotAddr = false →
      addressLoop (fuel + bs.length + 1 + 1) a ((c :: l) ++ (bs ++ rest)) s =
        (some (⟨i32 (numeral (c :: l)), 0, true⟩, rest), s) := by
    intro a ha
    rw [addressLoop]
    simp only [hhead, digit_not_blank hc, ha, Bool.false_eq_true, if_false, Bool.not_false, true_and,
      digit_ne (d := chr '.') hc (by decide), digit_ne (d := chr '$') hc (by decide),
      digit_ne (d := chr '\'') hc (by decide), digit_ne (d := chr '/') hc (by decide),
      digit_ne (d := chr '?') hc (by decide), or_self, hc, if_true, hnum,
      addressLoop_blanks s _ hrest bs fuel hbs]
  unfold getOneAddress
  dsimp only
  rw [hfuel, hloop ⟨_, 0, false⟩ rfl]
  generalize i32 (numeral (c :: l)) = n
  rfl

/-! ## What reading an address does -/

/-- Reading addresses changes nothing but the cursor and the pattern. -/
def Scanned (s t : Ed) : Prop :=
  t = { s with dot := t.dot, lastSearchPattern := t.lastSearchPattern }

theorem Scanned.refl (s : Ed) : Scanned s s := rfl

theorem Scanned.trans {u : Ed} (h₁ : Scanned s t) (h₂ : Scanned t u) : Scanned s u := by
  unfold Scanned at h₁ h₂ ⊢
  rw [h₂, h₁]

theorem number_length : ∀ (p : List UInt8) (n : Int), (number p n).2.length ≤ p.length
  | [], _ => Nat.le_refl _
  | c :: p, n => by
    unfold number
    split
    · exact (number_length p _).trans (Nat.le_succ _)
    · exact Nat.le_refl _

theorem patternAddress_scanned {p q : List UInt8} {a : Int}
    (h : s.patternAddress p = (some (a, q), t)) : Scanned s t ∧ q.length ≤ p.length := by
  unfold patternAddress at h
  dsimp only at h
  split at h
  · cases h
  · obtain ⟨h₁, rfl⟩ := Prod.mk.inj h
    obtain ⟨-, rfl⟩ := Prod.mk.inj (Option.some.inj h₁)
    refine ⟨?_, ?_⟩
    · split <;> rfl
    · split
      · simp only [List.length_drop]
        omega
      · simp only [List.length_drop]
        omega

theorem addressLoop_scanned : ∀ (fuel : Nat) (a a' : Addr) (p q : List UInt8) (s t : Ed),
    addressLoop fuel a p s = (some (a', q), t) → Scanned s t ∧ q.length ≤ p.length
  | 0, _, _, _, _, _, _, h => by
    cases h
    exact ⟨rfl, Nat.le_refl _⟩
  | fuel + 1, a, a', p, q, s, t, h => by
    have next : ∀ (b : Addr) (r : List UInt8) (v : Ed), Scanned s v → r.length ≤ p.length →
        addressLoop fuel b r v = (some (a', q), t) → Scanned s t ∧ q.length ≤ p.length := by
      intro b r v hv hr hloop
      obtain ⟨ht, hq⟩ := addressLoop_scanned fuel b a' r q v t hloop
      exact ⟨hv.trans ht, hq.trans hr⟩
    have hdrop : (p.drop 1).length ≤ p.length := by
      rw [List.length_drop]
      omega
    rw [addressLoop] at h
    split at h
    · exact next _ _ s rfl hdrop h
    · split at h
      · exact next _ _ s rfl hdrop h
      · split at h
        · exact next _ _ s rfl hdrop h
        · split at h
          · split at h
            · cases h
            · rename_i m hm
              unfold markAddress at hm
              obtain ⟨x, -, hx⟩ := Option.map_eq_some_iff.mp hm
              obtain ⟨-, rfl⟩ := Prod.mk.inj hx
              refine next _ _ s rfl ?_ h
              simp only [List.length_drop]
              omega
          · split at h
            · split at h
              · cases h
              · rename_i hm
                obtain ⟨hv, hr⟩ := patternAddress_scanned hm
                exact next _ _ _ hv hr h
            · split at h
              · exact next _ _ s rfl (number_length p 0) h
              · split at h
                · exact next _ _ s rfl hdrop h
                · obtain ⟨h₁, rfl⟩ := Prod.mk.inj h
                  obtain ⟨-, rfl⟩ := Prod.mk.inj (Option.some.inj h₁)
                  exact ⟨rfl, Nat.le_refl _⟩

theorem getOneAddress_scanned {p q : List UInt8} {a : Int} {valid : Bool}
    (h : s.getOneAddress p = (some (a, valid, q), t)) : Scanned s t ∧ q.length ≤ p.length := by
  unfold getOneAddress at h
  dsimp only at h
  obtain ⟨h₁, rfl⟩ := Prod.mk.inj h
  obtain ⟨⟨a', q'⟩, hloop, h₂⟩ := Option.map_eq_some_iff.mp h₁
  obtain ⟨-, h₃⟩ := Prod.mk.inj h₂
  obtain ⟨-, rfl⟩ := Prod.mk.inj h₃
  exact addressLoop_scanned _ _ _ _ _ _ _ (Prod.ext hloop rfl)

/-! ## The rounds of `get_address` -/

/-- Where the loop of `get_address` is: its state, the addresses so far, the text that is left. -/
structure Reading where
  sep : Bool
  range : Range
  left : List UInt8
  ed : Ed

namespace Reading

/-- One round of the loop of `get_address` that does not end it. -/
inductive Next : Reading → Reading → Prop
  | blank {sep : Bool} {g : Range} {p : List UInt8} {s : Ed} : isblank (head p) = true →
      Next ⟨sep, g, p, s⟩ ⟨sep, g, p.drop 1, s⟩
  | all {g : Range} {p : List UInt8} {s : Ed} : head p = chr '%' →
      Next ⟨false, g, p, s⟩ ⟨true, ⟨1, s.countLines s.text (s.end_ - 1), 3⟩, p.drop 1, s⟩
  | address {g : Range} {p q : List UInt8} {s t : Ed} {a : Int} {valid : Bool} :
      isblank (head p) = false → head p ≠ chr '%' → s.getOneAddress p = (some (a, valid, q), t) →
      (valid || head q == chr ',' || head q == chr ';' || g.got % 2 == 1) = true →
      Next ⟨false, g, p, s⟩ ⟨true, ⟨g.e, a, g.got * 2 + 1⟩, q, t⟩
  | comma {g : Range} {p : List UInt8} {s : Ed} : head p = chr ',' →
      Next ⟨true, g, p, s⟩ ⟨false, g, p.drop 1, s⟩
  | semicolon {g : Range} {p : List UInt8} {s : Ed} : head p = chr ';' →
      Next ⟨true, g, p, s⟩ ⟨false, g, p.drop 1, { s with dot := s.findLine g.e }⟩

/-- The loop with this much fuel, from here on. -/
def loop (r : Reading) (fuel : Nat) : Option (Range × List UInt8) × Ed :=
  rangeLoop fuel r.sep r.range r.left r.ed

/-- The rounds that are left at most. -/
def rounds (r : Reading) : Nat := 2 * r.left.length + if r.sep then 1 else 2

variable {a b : Reading}

theorem head_ne_nil {p : List UInt8} {c : UInt8} (h : head p = c) (hc : c ≠ 0) : 0 < p.length := by
  cases p with
  | nil => exact absurd h.symm hc
  | cons c p => exact Nat.succ_pos _

/-- Every round is one of the loop, and leaves less to do. -/
theorem Next.loop (h : Next a b) :
    b.rounds < a.rounds ∧ ∀ fuel, a.loop (fuel + 1) = b.loop fuel := by
  cases h with
  | @blank sep g p s hb =>
    have hpos : 0 < p.length := by
      cases p with
      | nil => exact absurd hb (by decide)
      | cons c p => exact Nat.succ_pos _
    refine ⟨?_, fun fuel => ?_⟩
    · simp only [rounds, List.length_drop]
      split <;> omega
    · unfold Reading.loop
      rw [rangeLoop, if_pos hb]
  | @all g p s hp =>
    have hpos := head_ne_nil hp (by decide)
    refine ⟨?_, fun fuel => ?_⟩
    · simp only [rounds, List.length_drop, if_true, Bool.false_eq_true, if_false]
      omega
    · unfold Reading.loop
      rw [rangeLoop]
      simp only [hp, show isblank (chr '%') = false by decide, Bool.false_eq_true, if_false,
        Bool.not_false, true_and, if_true]
  | @address g p q s t a valid hb hp hread hgo =>
    have hlen := (getOneAddress_scanned hread).2
    refine ⟨?_, fun fuel => ?_⟩
    · simp only [rounds, if_true, Bool.false_eq_true, if_false]
      omega
    · unfold Reading.loop
      rw [rangeLoop]
      simp only [hb, Bool.false_eq_true, if_false, Bool.not_false, true_and, hp, if_true, hread, hgo,
        Bool.not_true]
  | @comma g p s hp =>
    have hpos := head_ne_nil hp (by decide)
    refine ⟨?_, fun fuel => ?_⟩
    · simp only [rounds, List.length_drop, if_true, Bool.false_eq_true, if_false]
      omega
    · unfold Reading.loop
      rw [rangeLoop]
      simp only [hp, show isblank (chr ',') = false by decide, Bool.false_eq_true, if_false,
        Bool.not_true, false_and, true_or, if_true, show chr ',' ≠ chr ';' by decide]
  | @semicolon g p s hp =>
    have hpos := head_ne_nil hp (by decide)
    refine ⟨?_, fun fuel => ?_⟩
    · simp only [rounds, List.length_drop, if_true, Bool.false_eq_true, if_false]
      omega
    · unfold Reading.loop
      rw [rangeLoop]
      simp only [hp, show isblank (chr ';') = false by decide, Bool.false_eq_true, if_false,
        Bool.not_true, false_and, or_true, if_true]

theorem Next.scanned (h : Next a b) : Scanned a.ed b.ed := by
  cases h with
  | address _ _ hread _ => exact (getOneAddress_scanned hread).1
  | _ => exact rfl

end Reading

/-- The loop of `get_address` comes from the one place to the other. -/
abbrev Reads : Reading → Reading → Prop := Relation.ReflTransGen Reading.Next

theorem Reads.loop {a b : Reading} (h : Reads a b) :
    ∀ fuel, a.rounds ≤ fuel → ∃ fuel', b.rounds ≤ fuel' ∧ a.loop fuel = b.loop fuel' := by
  induction h using Relation.ReflTransGen.head_induction_on with
  | refl => exact fun fuel hle => ⟨fuel, hle, rfl⟩
  | head hnext _ ih =>
    intro fuel hle
    obtain ⟨hlt, hloop⟩ := hnext.loop
    obtain ⟨fuel, rfl⟩ : ∃ k, fuel = k + 1 := Nat.exists_eq_succ_of_ne_zero (by omega)
    obtain ⟨fuel', hle', heq⟩ := ih fuel (by omega)
    exact ⟨fuel', hle', (hloop fuel).trans heq⟩

theorem Reads.scanned {a b : Reading} (h : Reads a b) : Scanned a.ed b.ed := by
  induction h with
  | refl => exact rfl
  | tail _ hnext ih => exact ih.trans hnext.scanned

/-- `get_address` returns where the command starts. -/
theorem getAddress_reads {p cmd : List UInt8} {g : Range}
    (h : Reads ⟨false, ⟨-1, -1, 0⟩, p, s⟩ ⟨true, g, cmd, t⟩) (hcmd : StartsCommand (head cmd)) :
    s.getAddress p = (some (g, cmd), { t with dot := s.dot }) := by
  obtain ⟨fuel, hle, hloop⟩ := h.loop (2 * p.length + 2) (Nat.le_refl _)
  obtain ⟨fuel, rfl⟩ : ∃ k, fuel = k + 1 := Nat.exists_eq_succ_of_ne_zero (by
    simp only [Reading.rounds, if_true] at hle
    omega)
  have hend : rangeLoop (2 * p.length + 2) false ⟨-1, -1, 0⟩ p s = (some (g, cmd), t) := by
    refine hloop.trans ?_
    unfold Reading.loop
    rw [rangeLoop]
    simp only [hcmd.blank, Bool.false_eq_true, if_false, Bool.not_true, false_and, hcmd.comma,
      hcmd.semicolon, or_self]
  unfold getAddress
  dsimp only
  rw [hend]

/-! ## The command line -/

/-- The command line `p` uses the number as its last address, or as the one before it: behind the
addresses `g` stands `cmd`. -/
inductive Uses (s : Ed) (ds p : List UInt8) : Range → List UInt8 → Ed → Prop
  | last {g : Range} {bs cmd : List UInt8} {s' : Ed} :
      Reads ⟨false, ⟨-1, -1, 0⟩, p, s⟩ ⟨false, g, ds ++ (bs ++ cmd), s'⟩ →
      (∀ c ∈ bs, isblank c = true) → StartsCommand (head cmd) →
      Uses s ds p ⟨g.e, i32 (numeral ds), g.got * 2 + 1⟩ cmd s'
  | start {g : Range} {bs q cmd : List UInt8} {a : Int} {s₁ s' : Ed} :
      Reads ⟨false, ⟨-1, -1, 0⟩, p, s⟩ ⟨false, g, ds ++ (bs ++ q), s₁⟩ →
      (∀ c ∈ bs, isblank c = true) → EndsAddress (head q) →
      Reads ⟨true, ⟨g.e, i32 (numeral ds), g.got * 2 + 1⟩, q, s₁⟩
        ⟨true, ⟨i32 (numeral ds), a, (g.got * 2 + 1) * 2 + 1⟩, cmd, s'⟩ →
      StartsCommand (head cmd) →
      Uses s ds p ⟨i32 (numeral ds), a, (g.got * 2 + 1) * 2 + 1⟩ cmd s'

theorem next_number {g : Range} {ds bs q : List UInt8} (hne : ds ≠ [])
    (hds : ∀ c ∈ ds, isdigit c.toNat = true) (hbs : ∀ c ∈ bs, isblank c = true)
    (hq : EndsAddress (head q)) :
    Reading.Next ⟨false, g, ds ++ (bs ++ q), s⟩
      ⟨true, ⟨g.e, i32 (numeral ds), g.got * 2 + 1⟩, q, s⟩ := by
  have hread := getOneAddress_digits s hne hds hbs hq
  obtain ⟨c, l, rfl⟩ := List.exists_cons_of_ne_nil hne
  have hc := hds c List.mem_cons_self
  exact .address (digit_not_blank hc) (digit_ne hc (by decide)) hread rfl

section Uses

variable {ds p cmd : List UInt8} {g : Range}

theorem Uses.reads (h : Uses s ds p g cmd s') (hne : ds ≠ [])
    (hds : ∀ c ∈ ds, isdigit c.toNat = true) :
    Reads ⟨false, ⟨-1, -1, 0⟩, p, s⟩ ⟨true, g, cmd, s'⟩ ∧ StartsCommand (head cmd) ∧
      g.got % 2 = 1 := by
  cases h with
  | last hread hbs hcmd =>
    refine ⟨hread.tail (next_number hne hds hbs hcmd.toEndsAddress), hcmd, ?_⟩
    dsimp only
    omega
  | start hread hbs hq hrest hcmd =>
    refine ⟨(hread.tail (next_number hne hds hbs hq)).trans hrest, hcmd, ?_⟩
    dsimp only
    omega

/-- No address starts with a double quote, or at the end. -/
theorem no_next (hp : head p = 0 ∨ head p = chr '"') (r : Reading) :
    ¬Reading.Next ⟨false, ⟨-1, -1, 0⟩, p, s⟩ r := by
  have hbyte : isblank (head p) = false ∧ head p ≠ chr '%' ∧ head p ≠ chr '.' ∧
      head p ≠ chr '$' ∧ head p ≠ chr '\'' ∧ head p ≠ chr '/' ∧ head p ≠ chr '?' ∧
      isdigit (head p).toNat = false ∧ head p ≠ chr '-' ∧ head p ≠ chr '+' ∧ head p ≠ chr ',' ∧
      head p ≠ chr ';' := by
    rcases hp with h | h <;> rw [h] <;> decide
  obtain ⟨h₁, h₂, h₃, h₄, h₅, h₆, h₇, h₈, h₉, h₁₀, h₁₁, h₁₂⟩ := hbyte
  intro h
  cases h with
  | blank hb => rw [h₁] at hb; cases hb
  | all hp => exact h₂ hp
  | address _ _ hread hgo =>
    have hloop : ∀ a : Addr, addressLoop (p.length + 1) a p s =
        (some ({ a with addr := i32 (a.addr + a.sign) }, p), s) := by
      intro a
      rw [addressLoop]
      simp only [h₁, h₃, h₄, h₅, h₆, h₇, h₈, h₉, h₁₀, Bool.false_eq_true, if_false, and_false, or_self]
    unfold getOneAddress at hread
    dsimp only at hread
    rw [hloop] at hread
    obtain ⟨hr, -⟩ := Prod.mk.inj hread
    obtain ⟨-, hr⟩ := Prod.mk.inj (Option.some.inj hr)
    obtain ⟨rfl, rfl⟩ := Prod.mk.inj hr
    rw [beq_eq_false_iff_ne.mpr h₁₁, beq_eq_false_iff_ne.mpr h₁₂] at hgo
    cases hgo

/-- A line that uses a number is no comment. -/
theorem Uses.line (h : Uses s ds p g cmd s') (hne : ds ≠ [])
    (hds : ∀ c ∈ ds, isdigit c.toNat = true) : ¬(p = [] ∨ head p = chr '"') := by
  intro hp
  have hhead : head p = 0 ∨ head p = chr '"' := hp.imp_left fun h => by rw [h]; rfl
  obtain ⟨hread, -, -⟩ := h.reads hne hds
  rcases Relation.ReflTransGen.cases_head hread with h | ⟨r, hnext, -⟩
  · cases h
  · exact no_next hhead r hnext

/-- `colon` up to its label `ret`; the `Bool` is `false` if the label is skipped. -/
def colonBody (s : Ed) (buf : List UInt8) : Option (Bool × Ed) :=
  let buf := (buf.dropWhile (· == chr ':')).dropWhile isblank
  if buf = [] ∨ head buf = chr '"' then some (true, s)
  else
    match s.getAddress buf with
    | (none, s) => some (true, s)
    | (some (g, buf), s) =>
      match s.resolve g with
      | none => some (true, s.statusLineBold (str "Invalid range"))
      | some t => s.colonCommand buf t

/-- At the label is `bound_dot`. -/
theorem colon_body (s : Ed) (buf : List UInt8) :
    s.colon buf = (s.colonBody buf).bind fun x => if x.1 then x.2.boundHere else some x.2 := by
  unfold colon colonBody
  dsimp only
  split
  · rfl
  · obtain ⟨r, u⟩ := s.getAddress ((buf.dropWhile (· == chr ':')).dropWhile isblank)
    cases r with
    | none => rfl
    | some r =>
      dsimp only
      cases u.resolve r.1 with
      | none => rfl
      | some T => rfl

/-- The range check. -/
theorem resolve_none_iff (hg : g.got % 2 = 1) :
    s.resolve g = none ↔ g.e < 0 ∨ s.countLines s.text (s.end_ - 1) < g.e ∨
      (g.got % 4 = 3 ∧ (g.b < 0 ∨ s.countLines s.text (s.end_ - 1) < g.b ∨ g.e < g.b)) := by
  unfold resolve
  dsimp only
  rw [if_neg (not_not.mpr hg)]
  by_cases h₁ : g.e < 0 ∨ g.e > s.countLines s.text (s.end_ - 1)
  · rw [if_pos h₁]
    exact iff_of_true rfl (h₁.elim .inl fun h => .inr (.inl h))
  · rw [if_neg h₁]
    obtain ⟨h₁, h₂⟩ := not_or.mp h₁
    by_cases h₃ : g.got % 4 ≠ 3
    · rw [if_pos h₃]
      refine iff_of_false nofun ?_
      rintro (h | h | h)
      · exact h₁ h
      · exact h₂ h
      · exact h₃ h.1
    · rw [if_neg h₃]
      have h₃ := not_not.mp h₃
      by_cases h₄ : g.b < 0 ∨ g.b > s.countLines s.text (s.end_ - 1) ∨ g.b > g.e
      · rw [if_pos h₄]
        exact iff_of_true rfl (.inr (.inr ⟨h₃, h₄⟩))
      · rw [if_neg h₄]
        refine iff_of_false nofun ?_
        rintro (h | h | h)
        · exact h₁ h
        · exact h₂ h
        · exact h₄ h.2

/-- What `colon` does with the addresses. -/
theorem colonBody_uses {buf : List UInt8} (hne : ds ≠ []) (hds : ∀ c ∈ ds, isdigit c.toNat = true)
    (h : Uses s ds ((buf.dropWhile (· == chr ':')).dropWhile isblank) g cmd s') :
    ∃ u, Scanned s u ∧ s.colonBody buf =
      (u.resolve g).elim (some (true, u.statusLineBold (str "Invalid range")))
        (u.colonCommand cmd) := by
  obtain ⟨hread, hcmd, -⟩ := h.reads hne hds
  refine ⟨{ s' with dot := s.dot }, hread.scanned.trans rfl, ?_⟩
  unfold colonBody
  dsimp only
  rw [if_neg (h.line hne hds), getAddress_reads hread hcmd]
  dsimp only
  cases resolve { s' with dot := s.dot } g with
  | none => rfl
  | some T => rfl

end Uses

/-! ## What the commands say -/

/-- `status_line_bold("Invalid range")` waits to be shown. -/
def SaysInvalid (s : Ed) : Prop :=
  s.haveStatusMsg ≠ 0 ∧ s.statusBuffer = [27, 91, 55, 109] ++ str "Invalid range" ++ [27, 91, 109]

theorem says_invalid (s : Ed) : SaysInvalid (s.statusLineBold (str "Invalid range")) :=
  ⟨(by decide : 8 ≠ 0), rfl⟩

theorem not_says_line {c : UInt8} {l : List UInt8} (h : c ≠ 27) :
    ¬SaysInvalid (s.statusLine (c :: l)) := by
  rintro ⟨-, hmsg⟩
  exact h (List.cons.inj hmsg).1

theorem not_says_bold {c : UInt8} {l : List UInt8} (h : c ≠ 73) :
    ¬SaysInvalid (s.statusLineBold (c :: l)) := by
  rintro ⟨-, hmsg⟩
  injection hmsg with _ hmsg
  injection hmsg with _ hmsg
  injection hmsg with _ hmsg
  injection hmsg with _ hmsg
  exact h (List.cons.inj hmsg).1

theorem dec_first (n : Int) : ∃ c l, dec n = c :: l ∧ c ≠ 27 ∧ c ≠ 73 := by
  by_cases hn : n < 0
  · refine ⟨45, str (String.ofList (Nat.toDigits 10 n.natAbs)), ?_, by decide, by decide⟩
    unfold dec
    rw [if_pos hn]
  · obtain ⟨c, l, hdec, hc⟩ := dec_cons n.toNat
    rw [Int.toNat_of_nonneg (by omega)] at hdec
    exact ⟨c, l, hdec, digit_ne hc (by decide), digit_ne hc (by decide)⟩

theorem not_says_dec (n : Int) (l : List UInt8) :
    ¬SaysInvalid (s.statusLine (dec n ++ l)) ∧ ¬SaysInvalid (s.statusLineBold (dec n ++ l)) := by
  obtain ⟨c, l', hdec, h₁, h₂⟩ := dec_first n
  rw [hdec]
  exact ⟨not_says_line h₁, not_says_bold h₂⟩

theorem not_says_errno (fn : List UInt8) : ¬SaysInvalid (s.statusLineBoldErrno fn) :=
  not_says_bold (by decide)

theorem not_says_status (fn : List UInt8) (note : String) (li n : Int) :
    ¬SaysInvalid (s.fileStatus fn note li n) :=
  not_says_line (by decide)

theorem not_says_noWrite (cmd : List UInt8) : ¬SaysInvalid (s.noWrite cmd) :=
  not_says_bold (by decide)

section Unsaid

variable (h : ¬SaysInvalid s)

include h

theorem not_says_delete (p q : Int) (undo : Undo) : ¬SaysInvalid (s.textHoleDelete p q undo).2 := by
  obtain ⟨u, hu⟩ : ∃ u, s.undoPushDelete p (q - p + 1).toNat undo = { s with toUndos := u } :=
    ⟨_, s.undoPushDelete_eq p _ undo⟩
  rcases s.textHoleDelete_cases p q undo with e | ⟨m, e, -, -, e'⟩
  · rw [e, hu]
    exact h
  · rw [e', hu]
    exact h

theorem not_says_insert (p : Int) (str : List UInt8) (undo : Undo) :
    ¬SaysInvalid (s.stringInsert p str undo).2 := by
  rw [stringInsert_frame]
  exact h

theorem not_says_yankDelete (p q : Int) (buftype : BufType) :
    ¬SaysInvalid (s.yankDeleteDot p q buftype true .allow) := by
  unfold yankDeleteDot yankDelete
  generalize (if p > q then (q, p) else (p, q)) = r
  obtain ⟨start, stop⟩ := r
  by_cases hnl : buftype = .part ∧ s.mem start = NL
  · simp only [hnl, and_self, if_true]
    exact h
  · simp only [hnl, if_false, if_true]
    exact not_says_delete (s := s.textYank start stop s.ydreg buftype) h start stop .allow

theorem not_says_readInto (fn : List UInt8) (p size : Int) :
    ¬SaysInvalid (s.readInto fn p size false).2 := by
  unfold readInto
  dsimp only
  split
  · exact not_says_errno fn
  · split
    · exact not_says_delete (not_says_errno fn) _ _ _
    · split
      · exact not_says_bold (by decide : chr 'c' ≠ 73)
      · rw [undoPushInsert_eq]
        exact h

theorem not_says_fileInsert (fn : Option (List UInt8)) (p : Int) :
    ¬SaysInvalid (s.fileInsert fn p false).2 := by
  cases fn with
  | none => exact h
  | some fn =>
    unfold fileInsert
    dsimp only
    generalize (if (if p < s.text then s.text else p) > s.end_ then s.end_ else
      (if p < s.text then s.text else p)) = p
    obtain ⟨st, u, hst, hu⟩ : ∃ st u, s.ask (·.stat) = (st, u) ∧ ¬SaysInvalid u := ⟨_, _, rfl, h⟩
    rw [hst]
    cases st with
    | none => exact not_says_errno fn
    | some size =>
      refine not_says_readInto ?_ fn _ _
      rw [textHoleMake_frame]
      exact hu

end Unsaid

theorem not_says_substLoop (pat rep : List UInt8) (global : Bool) (i : Int) :
    ∀ (fuel : Nat) (q : Int) (l : Subs) (s : Ed), ¬SaysInvalid s →
      ¬SaysInvalid (substLoop pat rep global i fuel q l s).2
  | 0, _, _, _, h => h
  | fuel + 1, q, l, s, h => by
    rw [substLoop]
    cases s.charSearch q pat true false with
    | none => exact h
    | some found =>
      dsimp only
      obtain ⟨s₁, hs₁, h₁⟩ : ∃ s₁, (s.textHoleDelete found (found + pat.length - 1)
          (if l.subs = 0 then Undo.allow else Undo.chain)).2 = s₁ ∧ ¬SaysInvalid s₁ :=
        ⟨_, rfl, not_says_delete h _ _ _⟩
      rw [hs₁]
      obtain ⟨r, hr, h₂⟩ : ∃ r : Int × Ed, (if rep = [] then (0, s₁)
          else s₁.stringInsert found rep .chain) = r ∧ ¬SaysInvalid r.2 := by
        refine ⟨_, rfl, ?_⟩
        split
        · exact h₁
        · exact not_says_insert h₁ found rep .chain
      rw [hr]
      split
      · exact not_says_substLoop pat rep global i fuel _ _ _ h₂
      · exact h₂

theorem not_says_substLines (pat rep : List UInt8) (global : Bool) :
    ∀ (n : Nat) (i q : Int) (l : Subs) (s : Ed), ¬SaysInvalid s →
      ¬SaysInvalid (substLines pat rep global n i q l s).2
  | 0, _, _, _, _, h => h
  | n + 1, i, q, l, s, h => by
    have h₁ := not_says_substLoop pat rep global i ((s.end_ - q).toNat + 1) q { l with ls := q } s h
    exact not_says_substLines pat rep global n _ _ _ _ h₁

section Commands

variable (h : ¬SaysInvalid s) (T : Target) (cmd args : List UInt8) (useforce : Bool)

include h

theorem not_says_subst (buf : List UInt8) : ¬SaysInvalid (s.colonSubst buf T).2 := by
  unfold colonSubst
  cases substFields buf with
  | none => exact not_says_line (by decide : chr ':' ≠ 27)
  | some f =>
    obtain ⟨pat, rep, global⟩ := f
    by_cases hpat : pat = [] ∧ s.lastSearchPattern.drop 1 = []
    · simp only [hpat, and_self, if_true]
      exact not_says_bold (by decide : chr 'N' ≠ 73)
    · simp only [hpat, if_false]
      obtain ⟨s₁, hs₁, h₁⟩ : ∃ s₁ : Ed, (if pat ≠ [] then
          { s with lastSearchPattern := chr '/' :: pat } else s) = s₁ ∧ ¬SaysInvalid s₁ := by
        refine ⟨_, rfl, ?_⟩
        split
        · exact h
        · exact h
      rw [hs₁]
      obtain ⟨r, hr⟩ : ∃ r : Int × Int × Int, (if !T.gotAddress then
          (s₁.beginLine s₁.dot, s₁.countLines s₁.text (s₁.beginLine s₁.dot),
            s₁.countLines s₁.text (s₁.beginLine s₁.dot))
          else if !T.gotRange then (T.q, T.range.e, T.range.e)
          else (T.q, T.range.b, T.range.e)) = r := ⟨_, rfl⟩
      rw [hr]
      split
      · exact not_says_bold (by decide : chr 'N' ≠ 73)
      · split
        · rw [List.append_assoc, List.append_assoc]
          exact (not_says_dec _ _).1
        · exact not_says_substLines _ _ _ _ _ _ _ s₁ h₁

omit h in
theorem not_says_edit (hrun : s.colonEdit cmd args useforce = some t) : ¬SaysInvalid t := by
  unfold colonEdit at hrun
  split at hrun
  · cases hrun
    exact not_says_noWrite cmd
  · split at hrun
    · cases hrun
      exact not_says_bold (by decide : chr 'N' ≠ 73)
    · obtain ⟨⟨size, s₁⟩, -, hrun⟩ := Option.bind_eq_some_iff.mp hrun
      cases hrun
      exact not_says_status _ _ _ _

theorem not_says_file : ¬SaysInvalid (s.colonFile args T) := by
  unfold colonFile
  split
  · exact not_says_bold (by decide : chr 'N' ≠ 73)
  · split
    · exact h
    · exact h

theorem not_says_quit : ¬SaysInvalid (s.colonQuit cmd useforce) := by
  unfold colonQuit
  dsimp only
  split
  · exact h
  · split
    · exact not_says_noWrite cmd
    · split
      · exact (not_says_dec _ _).2
      · split
        · exact not_says_bold (by decide : chr 'N' ≠ 73)
        · split
          · exact not_says_bold (by decide : chr 'N' ≠ 73)
          · split
            · exact h
            · exact h

theorem not_says_read : ¬SaysInvalid (s.colonRead args T) := by
  unfold colonRead
  split
  · exact not_says_bold (by decide : chr 'N' ≠ 73)
  · rename_i fn _
    obtain ⟨s₁, hs₁, h₁⟩ : ∃ s₁ : Ed, (if args ≠ [] then s.initFilename fn else s) = s₁ ∧
        ¬SaysInvalid s₁ := by
      refine ⟨_, rfl, ?_⟩
      split
      · unfold initFilename
        split
        · exact h
        · exact h
      · exact h
    rw [hs₁]
    dsimp only
    generalize (if T.range.e = 0 then s₁.text else
      if s₁.nextLine (if T.gotAddress = true then s₁.findLine T.range.e else s₁.dot) = s₁.end_ - 1
      then s₁.nextLine (if T.gotAddress = true then s₁.findLine T.range.e else s₁.dot) + 1
      else s₁.nextLine (if T.gotAddress = true then s₁.findLine T.range.e else s₁.dot)) = q
    by_cases hsize : (s₁.fileInsert (some fn) q false).1 < 0
    · rw [if_pos hsize]
      exact not_says_fileInsert h₁ _ _
    · rw [if_neg hsize]
      exact not_says_status _ _ _ _

theorem not_says_rewind : ¬SaysInvalid (s.colonRewind cmd useforce) := by
  unfold colonRewind
  split
  · exact not_says_noWrite cmd
  · exact h

theorem not_says_leaveWrite : ¬SaysInvalid (s.leaveWrite cmd useforce) := by
  unfold leaveWrite
  dsimp only
  split
  · exact h
  · split
    · split
      · split
        · exact h
        · exact (not_says_dec _ _).2
      · exact h
    · exact h

theorem not_says_writeRange (fn : Option (List UInt8)) (q r : Int) :
    ¬SaysInvalid (s.writeRange cmd fn q r useforce) := by
  have hwrite : ¬SaysInvalid (s.fileWrite fn q r).2 := by
    unfold fileWrite
    cases fn with
    | none => exact not_says_bold (by decide : chr 'N' ≠ 73)
    | some fn =>
      dsimp only
      split
      · exact h
      · exact h
  unfold writeRange
  obtain ⟨x, hx, h₁⟩ : ∃ x : Int × Ed, (if s.modifiedCount ≠ 0 ∨ head cmd ≠ chr 'x' then
      s.fileWrite fn q r else (0, s)) = x ∧ ¬SaysInvalid x.2 := by
    refine ⟨_, rfl, ?_⟩
    split
    · exact hwrite
    · exact h
  simp only [hx]
  by_cases hneg : x.1 < 0
  · rw [if_pos hneg]
    split
    · exact not_says_errno _
    · exact h₁
  · rw [if_neg hneg]
    generalize (if s.modifiedCount ≠ 0 ∨ head cmd ≠ chr 'x' then r - q + 1 else 0) = size
    split
    · refine not_says_leaveWrite ?_ cmd useforce
      split
      · exact not_says_status _ _ _ _
      · exact not_says_status _ _ _ _
    · exact not_says_status _ _ _ _

theorem not_says_write : ¬SaysInvalid (s.colonWrite cmd args T useforce) := by
  unfold colonWrite
  split
  · obtain ⟨x, hx, h₁⟩ : ∃ x : Option Nat × Ed, (if !useforce ∧ s.currentFilename ≠ some args then
        s.ask (·.stat) else (none, s)) = x ∧ ¬SaysInvalid x.2 := by
      refine ⟨_, rfl, ?_⟩
      split
      · exact h
      · exact h
    rw [hx]
    dsimp only
    split
    · exact not_says_bold (by decide : chr 'F' ≠ 73)
    · refine not_says_writeRange ?_ cmd useforce _ _ _
      unfold initFilename
      split
      · exact h₁
      · exact h₁
  · exact not_says_writeRange h cmd useforce _ _ _

theorem not_says_setops (word : List UInt8) (n : Nat) : ¬SaysInvalid (s.setops word n) := by
  have hflag : ∀ (o : Opt) (v : Bool), ¬SaysInvalid (s.setFlag o v) := by
    intro o v
    cases o <;> exact h
  have hbad : ¬SaysInvalid (s.statusLineBold (str "bad option: " ++ word)) :=
    not_says_bold (by decide : chr 'b' ≠ 73)
  unfold setops
  dsimp only
  split
  · exact hbad
  · split
    · exact hbad
    · split
      · exact hbad
      · exact h
  · split
    · exact hbad
    · exact hflag _ _

end Commands

theorem not_says_setLoop : ∀ (fuel : Nat) (argp : List UInt8) (s : Ed), ¬SaysInvalid s →
    ¬SaysInvalid (setLoop fuel argp s)
  | 0, _, _, h => h
  | fuel + 1, argp, s, h => by
    rw [setLoop]
    split
    · exact h
    · exact not_says_setLoop fuel _ _ (not_says_setops h _ _)

theorem not_says_set (h : ¬SaysInvalid s) (args : List UInt8) : ¬SaysInvalid (s.colonSet args) := by
  unfold colonSet
  split
  · cases s.autoindent
    · exact not_says_bold (by decide : chr 'n' ≠ 73)
    · exact not_says_bold (by decide : chr 'a' ≠ 73)
  · exact not_says_setLoop _ _ s h

theorem readit_screen {c : Int} (h : s.readit = some (c, t)) : t.toScreen = s.toScreen := by
  unfold readit at h
  split at h
  · cases h
  · cases h
    rfl

theorem getOneChar_screen {c : Int} (h : s.getOneChar = some (c, t)) :
    t.toScreen = s.toScreen := by
  unfold getOneChar at h
  split at h
  · obtain ⟨⟨c₁, s₁⟩, h₁, h₂⟩ := Option.bind_eq_some_iff.mp h
    rw [← readit_screen h₁]
    dsimp only at h₂
    split at h₂ <;> cases h₂ <;> rfl
  · split at h
    · cases h
      rfl
    · have hscreen := readit_screen h
      exact hscreen
    · exact readit_screen h

theorem hitLoop_screen : ∀ {n : Nat} {s t : Ed}, hitLoop n s = some t → t.toScreen = s.toScreen
  | 0, _, _, h => by cases h
  | n + 1, s, t, h => by
    obtain ⟨⟨c, s₁⟩, h₁, h₂⟩ := Option.bind_eq_some_iff.mp h
    rw [← getOneChar_screen h₁]
    dsimp only at h₂
    split at h₂
    · cases h₂
      rfl
    · exact hitLoop_screen h₂

theorem scrollTo_message (s : Ed) (d e : Int) : (s.scrollTo d e).haveStatusMsg = s.haveStatusMsg := by
  unfold scrollTo
  dsimp only
  split <;> rfl

theorem refresh_message (s : Ed) : s.refresh.haveStatusMsg = s.haveStatusMsg := by
  have hsync : ∀ d, (s.syncCursor d).haveStatusMsg = s.haveStatusMsg := by
    intro d
    unfold syncCursor
    dsimp only
    split
    · exact s.scrollTo_message _ _
    · split
      · split
        · exact s.scrollTo_message _ _
        · rfl
      · rfl
  unfold refresh
  dsimp only
  split
  · exact hsync _
  · exact hsync _

/-- A message that has been shown is gone. -/
theorem showStatusLine_quiet (h : s.showStatusLine = some t) : t.haveStatusMsg = 0 := by
  unfold showStatusLine at h
  split at h
  · rename_i h₀
    cases h
    exact h₀
  · split at h
    · obtain ⟨u, hu, h⟩ := Option.bind_eq_some_iff.mp h
      cases h
      have hscreen := hitLoop_screen hu
      rw [refresh_message, hscreen]
    · cases h
      rfl

theorem inputLoop_screen : ∀ {n : Nat} {buf buf' : List UInt8} {s t : Ed},
    inputLoop n buf s = some (buf', t) → t.toScreen = s.toScreen
  | 0, _, _, _, _, h => by cases h
  | n + 1, buf, buf', s, t, h => by
    unfold inputLoop at h
    split at h
    · obtain ⟨⟨c, s₁⟩, h₁, h₂⟩ := Option.bind_eq_some_iff.mp h
      rw [← getOneChar_screen h₁]
      dsimp only at h₂
      split at h₂
      · cases h₂
        rfl
      · split at h₂
        · split at h₂
          · cases h₂
            rfl
          · exact inputLoop_screen h₂
        · split at h₂
          · exact inputLoop_screen h₂
          · exact inputLoop_screen h₂
    · cases h
      rfl

/-- `do_cmd` calls `colon` when no message is left. -/
theorem called_quiet {s₀ s₁ : Ed} {buf : List UInt8} (h₀ : s.statusOff = some s₀)
    (h : ({ s₀ with viVisual := false } : Ed).getInputLine (str ":") = some (buf, s₁)) :
    s₁.haveStatusMsg = 0 := by
  obtain ⟨⟨b, u⟩, hu, h⟩ := Option.bind_eq_some_iff.mp h
  cases h
  have hscreen := inputLoop_screen hu
  have hquiet : s₀.haveStatusMsg = 0 := showStatusLine_quiet h₀
  rw [refresh_message, hscreen]
  exact hquiet

/-- **No command says `Invalid range` of its own.** -/
theorem colonCommand_unrefused {cmd : List UInt8} {T : Target} {x : Bool × Ed}
    (h : ¬SaysInvalid s) (hrun : s.colonCommand cmd T = some x) : ¬SaysInvalid x.2 := by
  refine colonCommand_rule hrun ?_ (fun n => ?_) ?_ (fun _ _ _ _ hedit => not_says_edit _ _ _ hedit)
    (not_says_file h T) (fun u hlist => ?_) (not_says_quit h) (not_says_read h T) (not_says_rewind h)
    (not_says_set h) (not_says_subst h T cmd) (not_says_line (by decide : chr 'v' ≠ 27))
    (not_says_write h T) (not_says_line (by decide : chr 'Y' ≠ 27))
    fun _ => not_says_bold (by decide : chr '\'' ≠ 73)
  · unfold colonGoto
    split
    · exact h
    · exact h
  · rw [← List.append_nil (dec n)]
    exact (not_says_dec n []).1
  · exact not_says_yankDelete h _ _ .whole
  · obtain ⟨v, -, hv⟩ := Option.bind_eq_some_iff.mp hlist
    exact fun hsays => hsays.1 (showStatusLine_quiet hv)

/-! ## Past the end -/

/-- `colon` comes to its end with `Invalid range` on the status line and the text as it was. -/
def Refused (s : Ed) (buf : List UInt8) (t : Ed) : Prop :=
  ∃ u, s.colonBody buf = some (true, u) ∧ SaysInvalid u ∧ u.boundHere = some t ∧ t.bytes = s.bytes

/-- **When a number is refused.**  No message being left, a command line that uses the number as an
address is refused exactly if the last address, or of two addresses the first, is negative or past
the last line, or they are the wrong way round: the number as an `int`. -/
theorem address_refused_iff {ds buf cmd : List UInt8} {g : Range} (hmsg : s.haveStatusMsg = 0)
    (hne : ds ≠ []) (hds : ∀ c ∈ ds, isdigit c.toNat = true)
    (huses : Uses s ds ((buf.dropWhile (· == chr ':')).dropWhile isblank) g cmd s')
    (run : s.colon buf = some t) :
    Refused s buf t ↔ g.e < 0 ∨ s.countLines s.text (s.end_ - 1) < g.e ∨
      (g.got % 4 = 3 ∧ (g.b < 0 ∨ s.countLines s.text (s.end_ - 1) < g.b ∨ g.e < g.b)) := by
  obtain ⟨-, -, hodd⟩ := huses.reads hne hds
  obtain ⟨u, hu, hbody⟩ := colonBody_uses hne hds huses
  have hbuf : u.toBuf = s.toBuf := by
    unfold Scanned at hu
    rw [hu]
  have hquiet : ¬SaysInvalid u := by
    unfold Scanned at hu
    rw [hu]
    exact fun h => h.1 hmsg
  rw [← hbuf, ← resolve_none_iff (s := u) hodd]
  constructor
  · rintro ⟨v, hv, hsays, -⟩
    by_contra hsome
    obtain ⟨T, hT⟩ := Option.ne_none_iff_exists'.mp hsome
    rw [hbody, hT] at hv
    exact colonCommand_unrefused hquiet hv hsays
  · intro hnone
    rw [hnone] at hbody
    rw [colon_body, hbody] at run
    refine ⟨_, hbody, says_invalid u, run, ?_⟩
    exact (boundHere_looked run).bytes.trans (congrArg Buf.bytes hbuf)

/-- The keys `3`, `d` and Enter behind the `:`. -/
def thirdTyped : Ed :=
  { twoLines with
    env := { Env.still with keys := [⟨key '3', false⟩, ⟨key 'd', false⟩, ⟨10, false⟩] } }

/-- `:3d`, typed on two lines. -/
theorem address_refused_iff_third :
    ∃ s₀ s t, thirdTyped.statusOff = some s₀ ∧
      ({ s₀ with viVisual := false } : Ed).getInputLine (str ":") = some (str ":3d", s) ∧
      s.colon (str ":3d") = some t ∧ Refused s (str ":3d") t := by
  have hsome : thirdTyped.statusOff.isSome := by decide +kernel
  obtain ⟨s₀, h₀⟩ := Option.isSome_iff_exists.mp hsome
  have hinput : ∀ u ∈ thirdTyped.statusOff,
      (({ u with viVisual := false } : Ed).getInputLine (str ":")).isSome := by decide +kernel
  have hline : ∀ u ∈ thirdTyped.statusOff,
      ∀ x ∈ ({ u with viVisual := false } : Ed).getInputLine (str ":"), x.1 = str ":3d" ∧
        (x.2.colon (str ":3d")).isSome ∧
        x.2.countLines x.2.text (x.2.end_ - 1) < i32 (numeral (str "3")) := by decide +kernel
  obtain ⟨⟨buf, s⟩, h₁⟩ := Option.isSome_iff_exists.mp (hinput s₀ h₀)
  obtain ⟨rfl, hrun, hpast⟩ := hline s₀ h₀ _ h₁
  obtain ⟨t, ht⟩ := Option.isSome_iff_exists.mp hrun
  refine ⟨s₀, s, t, h₀, h₁, ht, ?_⟩
  have hcmd : StartsCommand (head (str "d")) :=
    ⟨⟨by decide, by decide, by decide, by decide⟩, by decide, by decide⟩
  have hreads : Reads ⟨false, ⟨-1, -1, 0⟩, str "3d", s⟩
      ⟨false, ⟨-1, -1, 0⟩, str "3" ++ ([] ++ str "d"), s⟩ := .refl
  have hskip : ((str ":3d").dropWhile (· == chr ':')).dropWhile isblank = str "3d" := by
    decide +kernel
  have huses := Uses.last hreads (fun c hc => absurd hc List.not_mem_nil) hcmd
  rw [← hskip] at huses
  have hdigits : str "3" ≠ [] ∧ ∀ c ∈ str "3", isdigit c.toNat = true := by decide +kernel
  have hiff := address_refused_iff (called_quiet h₀ h₁) hdigits.1 hdigits.2 huses ht
  dsimp only at hiff
  exact hiff.mpr (.inr (.inl hpast))

/-- `:4294967297d` deletes the first of two lines. -/
theorem address_wrapped :
    ∃ t, twoLines.lines.length < numeral (str "4294967297") ∧
      twoLines.colon (str ":4294967297d") = some t ∧ t.bytes = [98, NL] ∧
      ¬Refused twoLines (str ":4294967297d") t := by
  have hrun : (twoLines.colon (str ":4294967297d")).isSome := by decide +kernel
  have hbytes : ∀ t ∈ twoLines.colon (str ":4294967297d"), t.bytes = [98, NL] ∧
      t.bytes ≠ twoLines.bytes := by decide +kernel
  obtain ⟨t, ht⟩ := Option.isSome_iff_exists.mp hrun
  obtain ⟨hleft, hother⟩ := hbytes t ht
  have hnum : numeral (str "4294967297") = 4294967297 := by decide +kernel
  have hlines : twoLines.lines.length = 2 := by decide +kernel
  refine ⟨t, by omega, ht, hleft, ?_⟩
  rintro ⟨-, -, -, -, hsame⟩
  exact hother hsame

end Ed

end Evim
