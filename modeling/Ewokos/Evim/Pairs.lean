import Ewokos.Evim.Edit
import Ewokos.Evim.UndoExact
import Ewokos.Lib.Brackets

/-!
# evim: matching brackets

`find_pair` against the text between two brackets.

* `findPair_closing` — the search is that of `Brackets.closing` in the bytes that it passes.
* `nearest_iff` — the counts in those bytes are the counts in the text.

Main result: `findPair_correct`.
-/

set_option autoImplicit false

namespace Evim

open Cells Brackets
open CString hiding strchr

/-! ## The specification -/

/-- `()[]{}`. -/
def brackets : List UInt8 := str "()[]" ++ [123, 125]

/-- The other bracket of its kind. -/
def partner (c : UInt8) : UInt8 :=
  if c = chr '(' then chr ')'
  else if c = chr ')' then chr '('
  else if c = chr '[' then chr ']'
  else if c = chr ']' then chr '['
  else if c = 123 then 125
  else 123

/-- Where the other one is looked for. -/
def direction (c : UInt8) : Int := if c = chr '(' ∨ c = chr '[' ∨ c = 123 then 1 else -1

namespace Buf

/-- The text from `p` to `q`, whichever comes first, both included. -/
def between (s : Buf) (p q : Int) : List UInt8 :=
  slice s.mem (min p q) (max p q - min p q + 1).toNat

/-- From `p` to `q` there are as many `c` as there are of the other bracket. -/
def Even (s : Buf) (c : UInt8) (p q : Int) : Prop :=
  (s.between p q).count c = (s.between p q).count (partner c)

/-- `q` is the nearest such position in the direction of `c`. -/
structure Nearest (s : Buf) (c : UInt8) (p q : Int) : Prop where
  text : s.text ≤ q
  end_ : q < s.end_
  ahead : 0 < direction c * (q - p)
  even : s.Even c p q
  first : ∀ r, 0 < direction c * (r - p) → 0 < direction c * (q - r) → ¬s.Even c p r

end Buf

theorem partner_spec {c : UInt8} (hc : c ∈ brackets) : partner c ∈ brackets ∧ partner c ≠ c ∧
    partner (partner c) = c ∧ direction (partner c) = -direction c ∧
    (direction c = 1 ∨ direction c = -1) := by
  revert c
  decide +kernel

/-! ## The loop -/

/-- The `n` bytes behind `p` in direction `dir`. -/
def along (mem : Memory UInt8) (p dir : Int) (n : Nat) : List UInt8 :=
  (List.range n).map fun i : Nat => mem (p + dir * (i + 1))

variable {mem : Memory UInt8} {p q dir : Int} {n k : Nat} {c : UInt8}

theorem length_along : (along mem p dir n).length = n := by
  rw [along, List.length_map, List.length_range]

theorem getElem_along {i : Nat} (h : i < (along mem p dir n).length) :
    (along mem p dir n)[i] = mem (p + dir * (i + 1)) := by
  simp [along]

theorem along_succ : along mem p dir (n + 1) = mem (p + dir) :: along mem (p + dir) dir n := by
  apply List.ext_getElem
  · simp [length_along]
  · intro i h₁ h₂
    rw [getElem_along]
    cases i with
    | zero => simp
    | succ i =>
      rw [List.getElem_cons_succ, getElem_along]
      congr 1
      push_cast
      ring

theorem take_along (h : k ≤ n) : (along mem p dir n).take k = along mem p dir k := by
  rw [along, ← List.map_take, List.take_range, Nat.min_eq_left h, along]

theorem along_add (a b : Nat) :
    along mem p dir (a + b) = along mem p dir a ++ along mem (p + dir * a) dir b := by
  apply List.ext_getElem
  · simp [length_along]
  · intro i h₁ h₂
    rw [List.getElem_append, getElem_along]
    split
    · rw [getElem_along]
    · rename_i hi
      rw [length_along] at hi
      rw [getElem_along]
      congr 1
      rw [length_along]
      push_cast [Nat.not_lt.mp hi]
      ring

/-- Going back over the bytes. -/
theorem along_back : along mem (p + dir * (n + 1)) (-dir) n = (along mem p dir n).reverse := by
  apply List.ext_getElem
  · simp [length_along]
  · intro i h₁ h₂
    rw [length_along] at h₁
    rw [List.getElem_reverse, getElem_along, getElem_along]
    congr 1
    rw [length_along]
    have hi : ((n - 1 - i : Nat) : Int) = n - 1 - i := by omega
    rw [hi]
    ring

namespace Ed

variable {s : Ed}

/-- `n` bytes lie behind `p` in direction `dir`. -/
structure Room (s : Buf) (p dir : Int) (n : Nat) : Prop where
  inside : ∀ i < n, s.text ≤ p + dir * (i + 1) ∧ p + dir * (i + 1) < s.end_
  outside : p + dir * (n + 1) < s.text ∨ p + dir * (n + 1) ≥ s.end_

theorem pairLoop_closing {m : UInt8} : ∀ {n : Nat} {p : Int} {level : Nat}, Room s.toBuf p dir n →
    s.pairLoop c m dir (n + 1) p level =
      (closing c m level (along s.mem p dir n)).map fun k : Nat => p + dir * (k + 1)
  | 0, p, level, h => by
    have hout := h.outside
    rw [show p + dir * (((0 : Nat) : Int) + 1) = p + dir by simp] at hout
    unfold pairLoop
    dsimp only
    rw [if_pos hout]
    rfl
  | n + 1, p, level, h => by
    have hin := h.inside 0 (Nat.succ_pos n)
    rw [show p + dir * (((0 : Nat) : Int) + 1) = p + dir by simp] at hin
    have hnext : Room s.toBuf (p + dir) dir n := by
      refine ⟨fun i hi => ?_, ?_⟩
      · have := h.inside (i + 1) (by omega)
        push_cast at this
        rwa [show p + dir * ((i : Int) + 1 + 1) = p + dir + dir * (i + 1) by ring] at this
      · have := h.outside
        push_cast at this
        rwa [show p + dir * ((n : Int) + 1 + 1) = p + dir + dir * (n + 1) by ring] at this
    have hshift (level : Nat) : s.pairLoop c m dir (n + 1) (p + dir) level =
        ((closing c m level (along s.mem (p + dir) dir n)).map (· + 1)).map
          fun k : Nat => p + dir * ((k : Int) + 1) := by
      rw [pairLoop_closing hnext, Option.map_map]
      congr 1
      funext k
      simp only [Function.comp_apply]
      push_cast
      ring
    unfold pairLoop
    dsimp only
    rw [if_neg (by omega), along_succ, closing, hshift, hshift]
    by_cases hm : s.mem (p + dir) = m
    · rw [if_pos hm, if_pos hm]
      by_cases hzero : (if s.mem (p + dir) = c then level + 1 else level) - 1 = 0
      · rw [if_pos hzero, if_pos hzero, Option.map_some]
        simp
      · rw [if_neg hzero, if_neg hzero]
    · rw [if_neg hm, if_neg hm]

/-- The number of bytes behind `p` in direction `dir`. -/
def room (s : Buf) (p dir : Int) : Nat := (if dir = 1 then s.end_ - p - 1 else p - s.text).toNat

theorem room_spec (h₀ : s.text ≤ p) (h₁ : p < s.end_) (hdir : dir = 1 ∨ dir = -1) :
    Room s.toBuf p dir (room s.toBuf p dir) := by
  unfold room
  rcases hdir with rfl | rfl
  · rw [if_pos rfl]
    exact ⟨fun i hi => by omega, by omega⟩
  · rw [if_neg (by decide)]
    exact ⟨fun i hi => by omega, by omega⟩

/-- The positions ahead of `p` are numbered. -/
theorem exists_number {r : Int} (hdir : dir = 1 ∨ dir = -1) (hr : 0 < dir * (r - p)) :
    ∃ k : Nat, r = p + dir * (k + 1) := by
  refine ⟨(dir * (r - p) - 1).toNat, ?_⟩
  rw [Int.toNat_of_nonneg (by omega)]
  rcases hdir with rfl | rfl <;> ring

theorem number_ahead (hdir : dir = 1 ∨ dir = -1) (k : Nat) :
    0 < dir * (p + dir * (k + 1) - p) := by
  rcases hdir with rfl | rfl <;> omega

theorem number_lt_room (hdir : dir = 1 ∨ dir = -1) (h₀ : s.text ≤ p + dir * (k + 1))
    (h₁ : p + dir * (k + 1) < s.end_) : k < room s.toBuf p dir := by
  unfold room
  rcases hdir with rfl | rfl
  · rw [if_pos rfl]
    omega
  · rw [if_neg (by decide)]
    omega

/-- What `find_pair` looks through. -/
theorem findPair_closing (h₀ : s.text ≤ p) (h₁ : p < s.end_) (hc : c ∈ brackets) :
    s.findPair p c =
      (closing c (partner c) 1 (along s.mem p (direction c) (room s.toBuf p (direction c)))).map
        fun k : Nat => p + direction c * (k + 1) := by
  have hcases : c = chr '(' ∨ c = chr ')' ∨ c = chr '[' ∨ c = chr ']' ∨ c = 123 ∨ c = 125 := by
    revert c
    decide +kernel
  have hloop : s.findPair p c = s.pairLoop c (partner c) (direction c)
      (if direction c = 1 then s.end_ - p else p - s.text + 1).toNat p 1 := by
    rcases hcases with rfl | rfl | rfl | rfl | rfl | rfl <;> rfl
  obtain ⟨-, -, -, -, hdir⟩ := partner_spec hc
  have hfuel : (if direction c = 1 then s.end_ - p else p - s.text + 1).toNat =
      room s.toBuf p (direction c) + 1 := by
    unfold room
    split <;> omega
  rw [hloop, hfuel, pairLoop_closing (room_spec h₀ h₁ hdir)]

/-! ## The counts -/

/-- The text up to a byte ahead, in the order in which it is passed or the other way round. -/
theorem between_perm (s : Buf) (hdir : dir = 1 ∨ dir = -1) (k : Nat) :
    (s.between p (p + dir * (k + 1))).Perm (s.mem p :: along s.mem p dir (k + 1)) := by
  unfold Buf.between
  rcases hdir with rfl | rfl
  · apply List.Perm.of_eq
    rw [show min p (p + 1 * ((k : Int) + 1)) = p by omega,
      show (max p (p + 1 * ((k : Int) + 1)) - p + 1).toNat = k + 2 by omega]
    apply List.ext_getElem
    · simp [length_along]
    · intro i h₁ h₂
      rw [getElem_slice]
      cases i with
      | zero => simp
      | succ i =>
        rw [List.getElem_cons_succ, getElem_along]
        congr 1
        push_cast
        ring
  · refine List.Perm.trans (List.Perm.of_eq ?_) (List.reverse_perm _)
    rw [show min p (p + -1 * ((k : Int) + 1)) = p - (k + 1) by omega,
      show (max p (p + -1 * ((k : Int) + 1)) - (p - (k + 1)) + 1).toNat = k + 2 by omega]
    apply List.ext_getElem
    · simp [length_along]
    · intro i h₁ h₂
      rw [length_slice] at h₁
      rw [getElem_slice, List.getElem_reverse]
      simp only [List.length_cons, length_along]
      by_cases hi : i = k + 1
      · subst hi
        simp
      · obtain ⟨j, hj⟩ : ∃ j, k + 1 + 1 - 1 - i = j + 1 := ⟨k - i, by omega⟩
        simp only [hj, List.getElem_cons_succ]
        rw [getElem_along]
        congr 1
        omega

/-- One bracket at `p` is open. -/
theorem even_iff (hc : c ∈ brackets) (hp : s.mem p = c) {n k : Nat} (hk : k < n) :
    s.Even c p (p + direction c * (k + 1)) ↔
      Balances c (partner c) 1 ((along s.mem p (direction c) n).take (k + 1)) := by
  obtain ⟨-, hne, -, -, hdir⟩ := partner_spec hc
  have hperm := between_perm s.toBuf (p := p) hdir k
  unfold Buf.Even Balances
  rw [hperm.count_eq, hperm.count_eq, take_along (by omega), hp, List.count_cons_self,
    List.count_cons_of_ne hne.symm, Nat.add_comm]

theorem nearest_iff (h₀ : s.text ≤ p) (h₁ : p < s.end_) (hc : c ∈ brackets) (hp : s.mem p = c) :
    s.Nearest c p q ↔ ∃ k : Nat, q = p + direction c * (k + 1) ∧
      First c (partner c) 1 (along s.mem p (direction c) (room s.toBuf p (direction c))) k := by
  obtain ⟨-, -, -, -, hdir⟩ := partner_spec hc
  have hroom := room_spec h₀ h₁ hdir
  have hsub (k j : Nat) : direction c * (p + direction c * ((k : Int) + 1) -
      (p + direction c * (j + 1))) = k - j := by
    rcases hdir with h | h <;> rw [h] <;> ring
  constructor
  · rintro ⟨htext, hend, hahead, heven, hfirst⟩
    obtain ⟨k, rfl⟩ := exists_number hdir hahead
    have hk := number_lt_room hdir htext hend
    refine ⟨k, rfl, by rwa [length_along], (even_iff hc hp hk).mp heven, fun j hj hb => ?_⟩
    refine hfirst (p + direction c * (j + 1)) (number_ahead hdir j) ?_
      ((even_iff hc hp (by omega)).mpr hb)
    rw [hsub]
    omega
  · rintro ⟨k, rfl, hlt, hhere, hbefore⟩
    rw [length_along] at hlt
    obtain ⟨htext, hend⟩ := hroom.inside k hlt
    refine ⟨htext, hend, number_ahead hdir k, (even_iff hc hp hlt).mpr hhere,
      fun r hr hrq heven => ?_⟩
    obtain ⟨j, rfl⟩ := exists_number hdir hr
    rw [hsub] at hrq
    exact hbefore j (by omega) ((even_iff hc hp (by omega)).mp heven)

/-! ## The results -/

/-- `find_pair` finds the nearest balance. -/
theorem findPair_some_iff (h₀ : s.text ≤ p) (h₁ : p < s.end_) (hc : c ∈ brackets)
    (hp : s.mem p = c) : s.findPair p c = some q ↔ s.Nearest c p q := by
  obtain ⟨-, hne, -⟩ := partner_spec hc
  rw [nearest_iff h₀ h₁ hc hp, findPair_closing h₀ h₁ hc, Option.map_eq_some_iff]
  refine exists_congr fun k => ?_
  rw [closing_eq_some_iff hne.symm _ Nat.one_pos, and_comm, eq_comm]

/-- It finds none when no position ahead is even. -/
theorem findPair_none_iff (h₀ : s.text ≤ p) (h₁ : p < s.end_) (hc : c ∈ brackets)
    (hp : s.mem p = c) : s.findPair p c = none ↔
      ∀ q, s.text ≤ q → q < s.end_ → 0 < direction c * (q - p) → ¬s.Even c p q := by
  obtain ⟨-, hne, -, -, hdir⟩ := partner_spec hc
  rw [findPair_closing h₀ h₁ hc, Option.map_eq_none_iff, closing_eq_none_iff hne.symm Nat.one_pos,
    length_along]
  constructor
  · intro h q htext hend hahead heven
    obtain ⟨k, rfl⟩ := exists_number hdir hahead
    have hk := number_lt_room hdir htext hend
    exact h k hk ((even_iff hc hp hk).mp heven)
  · intro h k hk hb
    obtain ⟨htext, hend⟩ := (room_spec h₀ h₁ hdir).inside k hk
    exact h _ htext hend (number_ahead hdir k) ((even_iff hc hp hk).mpr hb)

/-- From the other bracket it comes back. -/
theorem findPair_back (h₀ : s.text ≤ p) (h₁ : p < s.end_) (hc : c ∈ brackets) (hp : s.mem p = c)
    (h : s.findPair p c = some q) : s.findPair q (s.mem q) = some p := by
  obtain ⟨hmem, hne, hback, hrev, hdir⟩ := partner_spec hc
  have hq := (findPair_some_iff h₀ h₁ hc hp).mp h
  rw [findPair_closing h₀ h₁ hc, Option.map_eq_some_iff] at h
  obtain ⟨k, hk, rfl⟩ := h
  have hfirst := (closing_eq_some_iff hne.symm _ Nat.one_pos).mp hk
  have hlt := hfirst.lt
  rw [length_along] at hlt
  have hclose := (hfirst.closes hne.symm).1
  rw [List.get_eq_getElem, getElem_along] at hclose
  obtain ⟨rest, hrest⟩ : ∃ rest, along s.mem (p + direction c * (k + 1)) (-direction c)
      (room s.toBuf (p + direction c * (k + 1)) (-direction c)) =
      ((along s.mem p (direction c) (room s.toBuf p (direction c))).take k).reverse ++
        c :: rest := by
    obtain ⟨b, hb⟩ : ∃ b, room s.toBuf (p + direction c * (k + 1)) (-direction c) = k + (b + 1) := by
      refine ⟨room s.toBuf (p + direction c * (k + 1)) (-direction c) - (k + 1), ?_⟩
      unfold room
      rcases hdir with h | h <;> rw [h] <;> simp <;> omega
    have hstart : p + direction c * ((k : Int) + 1) + -direction c * k + -direction c = p := by ring
    rw [hb, along_add, along_back, along_succ, hstart, hp, take_along (by omega)]
    exact ⟨_, rfl⟩
  rw [hclose, findPair_closing hq.text hq.end_ hmem, hback, hrev, hrest,
    closing_reverse hne.symm hk rest, Option.map_some]
  congr 1
  ring

/-- **Matching brackets.**  From a bracket `find_pair` goes to the nearest position in its direction
where it and its partner are balanced, returns `NULL` when there is none, and from the bracket that
it finds comes back. -/
theorem findPair_correct (h₀ : s.text ≤ p) (h₁ : p < s.end_) (hc : c ∈ brackets)
    (hp : s.mem p = c) :
    (∀ q, s.findPair p c = some q ↔ s.Nearest c p q) ∧
    (s.findPair p c = none ↔ ∀ q, s.text ≤ q → q < s.end_ → 0 < direction c * (q - p) →
      ¬s.Even c p q) ∧
    ∀ q, s.findPair p c = some q → s.findPair q (s.mem q) = some p := by
  exact ⟨fun q => findPair_some_iff h₀ h₁ hc hp, findPair_none_iff h₀ h₁ hc hp,
    fun q => findPair_back h₀ h₁ hc hp⟩

/-- From the first bracket of `((a)]b)` to the last. -/
theorem findPair_correct_nested :
    (EditOp.holding (str "((a)]b)")).Nearest (chr '(') 4096 4102 ∧
      (EditOp.holding (str "((a)]b)")).findPair 4102 (chr ')') = some 4096 := by
  obtain ⟨hsome, -, hback⟩ := findPair_correct (s := EditOp.holding (str "((a)]b)")) (p := 4096)
    (c := chr '(') (by decide) (by decide) (by decide) rfl
  have hfound : (EditOp.holding (str "((a)]b)")).findPair 4096 (chr '(') = some 4102 := by
    decide +kernel
  exact ⟨(hsome 4102).mp hfound, hback 4102 hfound⟩

end Ed

end Evim
