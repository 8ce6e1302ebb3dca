import Ewokos.Evim.OpenPut
import Ewokos.Evim.VisualLines

/-!
# evim: a span in a register

`text_yank` copies a span as a C string, and `p` and `P` insert what that string holds.

Main result: `put_yanked_iff`.
-/

set_option autoImplicit false

namespace Evim

open Cells Runs
open CString hiding strchr

namespace Ed

/-- The bytes `p` through `q`. -/
def spanned (s : Ed) (p q : Int) : List UInt8 := slice s.mem p (q - p + 1).toNat

/-- The text `u` with `n` copies of `x` where `p` and `P` put them. -/
def withCopies (u : Ed) (after : Bool) (n : Nat) (x : List UInt8) : List UInt8 :=
  u.bytes.take (u.putSpot after - u.text).toNat ++ copies n x ++
    u.bytes.drop (u.putSpot after - u.text).toNat

variable {s u : Ed} {p q : Int}

/-- The register is cut at the first NUL. -/
theorem yanked_eq_iff : s.yanked p q = s.spanned p q ↔ 0 ∉ s.spanned p q := by
  unfold yanked spanned
  rw [List.takeWhile_eq_self_iff]
  constructor
  · intro h hnul
    simpa using h 0 hnul
  · intro h c hc
    have hne : c ≠ 0 := by
      rintro rfl
      exact h hc
    simpa using hne

/-- `p` and `P` return, whatever the register holds. -/
theorem put_isSome (u : Ed) (after : Bool) : (u.put after).isSome := by
  have hloop : ∀ (x : List UInt8) (n : Nat) (undo : Undo) (v : Ed),
      (cmdLoop (putRound x) n undo v).isSome := by
    intro x n
    induction n with
    | zero => exact fun undo v => rfl
    | succ n ih =>
      intro undo v
      have hround : putRound x undo v = some (true, .chain, (v.stringInsert v.dot x undo).2) := rfl
      unfold cmdLoop
      rw [hround, Option.bind_eq_bind, Option.bind_some]
      dsimp only
      rw [if_neg (by simp)]
      split
      · exact ih _ _
      · rfl
  unfold put
  split
  · rfl
  · rename_i b hb
    dsimp only
    obtain ⟨⟨go, undo, w⟩, hw⟩ := Option.isSome_iff_exists.mp
      (hloop b.body (u.putPlace after b.body).2.rounds .allow (u.putPlace after b.body).2)
    rw [hw]
    rfl

/-- The rounds of a count. -/
theorem rounds_of_count {n : Nat} (hn : 1 ≤ n) (hcnt : u.cmdcnt = n) : u.rounds = n := by
  unfold rounds
  rw [if_pos (by omega), hcnt, Int.toNat_natCast]

/-- **A span in a register.**  After `text_yank` of a span, and any editing that leaves the register
as it is, putting it `n` times inserts `n` copies of the span exactly when that holds no NUL. -/
theorem put_yanked_iff (hpq : p ≤ q) (r : Nat) (bt : BufType) (hyd : u.ydreg = r)
    (hreg : u.reg r = (s.textYank p q r bt).reg r) (hf : u.Fits) (h₀ : u.text ≤ u.dot)
    (h₁ : u.dot < u.end_) {n : Nat} (hn : 1 ≤ n) (hcnt : u.cmdcnt = n) (after : Bool) :
    ∃ t, u.put after = some t ∧
      (t.bytes = u.withCopies after n (s.spanned p q) ↔ 0 ∉ s.spanned p q) := by
  obtain ⟨t, ht⟩ := Option.isSome_iff_exists.mp (u.put_isSome after)
  obtain ⟨b, hb, hbody⟩ := Option.map_eq_some_iff.mp (s.textYank_reg hpq r bt).1
  have hbytes := putReg_bytes hf h₀ h₁ (by rw [hyd, hreg]; exact hb) ht
  rw [hbody, rounds_of_count hn hcnt] at hbytes
  refine ⟨t, ht, ?_⟩
  rw [hbytes, ← yanked_eq_iff]
  unfold withCopies
  constructor
  · intro h
    have hcopies := List.append_cancel_left (List.append_cancel_right h)
    exact copies_inj_of_prefix (List.takeWhile_prefix _) hn hcopies
  · intro h
    rw [h]

/-- `abc`, its second byte in register `a`, and the count 2. -/
def secondYanked : Ed :=
  { (holdingLines [97, 98, 99, NL] [] 0).textYank 4097 4097 0 .part with ydreg := 0, cmdcnt := 2 }

/-- `2p` puts it behind the first. -/
theorem put_yanked_iff_letter :
    ∃ t, secondYanked.put true = some t ∧
      (t.bytes = secondYanked.withCopies true 2
          ((holdingLines [97, 98, 99, NL] [] 0).spanned 4097 4097) ↔
        0 ∉ (holdingLines [97, 98, 99, NL] [] 0).spanned 4097 4097) :=
  put_yanked_iff (s := holdingLines [97, 98, 99, NL] [] 0) (u := secondYanked) (by decide) 0 .part
    rfl rfl ⟨by decide, by decide⟩ (by decide) (by decide) (by decide) rfl true

/-- A NUL cuts the register short. -/
theorem put_loses_nul : ¬∀ (s : Ed) (p q : Int), s.Fits → s.text ≤ p → p ≤ q → q < s.end_ →
    s.text ≤ s.dot → s.dot < s.end_ → ∀ (r : Nat) (bt : BufType) (n : Nat), 1 ≤ n →
    ∀ (after : Bool) (t : Ed),
    { s.textYank p q r bt with ydreg := r, cmdcnt := n }.put after = some t →
    t.bytes = { s.textYank p q r bt with ydreg := r, cmdcnt := n }.withCopies after n
      (s.spanned p q) := by
  intro h
  have hrun : ({ (holdingLines [97, 0, 98, NL] [] 0).textYank 4096 4098 0 .part with
      ydreg := 0, cmdcnt := (1 : Nat) } : Ed).put false |>.isSome := put_isSome _ _
  obtain ⟨t, ht⟩ := Option.isSome_iff_exists.mp hrun
  have hbytes := h (holdingLines [97, 0, 98, NL] [] 0) 4096 4098 ⟨by decide, by decide⟩
    (by decide) (by decide) (by decide) (by decide) (by decide) 0 .part 1 (by decide) false t ht
  have hall : ∀ t ∈ ({ (holdingLines [97, 0, 98, NL] [] 0).textYank 4096 4098 0 .part with
      ydreg := 0, cmdcnt := (1 : Nat) } : Ed).put false,
      t.bytes = [97, 97, 0, 98, NL] := by decide +kernel
  rw [hall t ht] at hbytes
  revert hbytes
  decide +kernel

end Ed

end Evim
