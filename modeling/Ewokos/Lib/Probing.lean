import Ewokos.Lib.Slots

/-!
# Open addressing with linear probing

A table of `size` slots that is walked round and round from a key's home slot.

* `next` — the slot after a slot; `next_iterate` — the slot after `n` steps.
* `probe` — the walk to the first slot that passes a test, with fuel; `probe_some`, `probe_isSome`.
* `Reachable` — every entry is reached from its home over occupied slots; `probe_found` — a walk
  from a key's home ends at an entry with the key, or there is none.
* `Reachable.insert`, `Reachable.exchange` — an entry put where a walk from its home ended, and an
  entry found by a walk exchanged with the one the walk began at.
* `entries` — what the table holds, up to order: `entries_insert`, `entries_exchange`.
-/

set_option autoImplicit false

namespace Probing

open Slots

variable {α κ : Type} {size : Nat}

/-- The slot after `i`. -/
def next (size i : Nat) : Nat := if i + 1 < size then i + 1 else 0

theorem next_eq {i : Nat} (h : i < size) : next size i = (i + 1) % size := by
  unfold next
  split
  · rename_i h'
    rw [Nat.mod_eq_of_lt h']
  · rename_i h'
    have he : i + 1 = size := by omega
    rw [he, Nat.mod_self]

/-- The first slot, from `i` on, that passes the test; `none` when the fuel runs out. -/
def probe (size : Nat) (stop : Option α → Bool) (t : Nat → Option α) : Nat → Nat → Option Nat
  | 0, _ => none
  | fuel + 1, i => if stop (t i) then some i else probe size stop t fuel (next size i)

/-- The slots of a walk from `i`, `n` steps long, are occupied. -/
def Occupied (size : Nat) (t : Nat → Option α) (i n : Nat) : Prop :=
  ∀ m < n, (t ((i + m) % size)).isSome = true

variable {stop : Option α → Bool} {t : Nat → Option α}

theorem probe_some {fuel i j : Nat} (hi : i < size) (h : probe size stop t fuel i = some j) :
    ∃ n, j = (i + n) % size ∧ stop (t j) = true ∧
      ∀ m < n, stop (t ((i + m) % size)) = false := by
  induction fuel generalizing i with
  | zero => simp [probe] at h
  | succ fuel ih =>
    rw [probe] at h
    split at h
    · rename_i hs
      obtain rfl := Option.some.inj h
      exact ⟨0, by simp [Nat.mod_eq_of_lt hi], hs, by simp⟩
    · rename_i hs
      have hpos : 0 < size := by omega
      have hn : next size i < size := by rw [next_eq hi]; exact Nat.mod_lt _ hpos
      obtain ⟨n, hj, hstop, hbefore⟩ := ih hn h
      have hshift : ∀ m, (next size i + m) % size = (i + (m + 1)) % size := by
        intro m
        rw [next_eq hi, Nat.mod_add_mod]
        congr 1
        omega
      refine ⟨n + 1, by rw [hj, hshift], hstop, ?_⟩
      intro m hm
      cases m with
      | zero => simpa [Nat.mod_eq_of_lt hi] using hs
      | succ m => rw [← hshift]; exact hbefore m (by omega)

/-- A walk long enough to see every slot ends if some slot passes. -/
theorem probe_isSome (stop : Option α → Bool) {fuel i j : Nat} (hi : i < size) (hj : j < size)
    (hs : stop (t j) = true) (hf : size ≤ fuel) : (probe size stop t fuel i).isSome = true := by
  have key : ∀ (fuel i n : Nat), i < size → (i + n) % size = j → n < fuel →
      (probe size stop t fuel i).isSome = true := by
    intro fuel
    induction fuel with
    | zero => intro i n _ _ hn; omega
    | succ fuel ih =>
      intro i n hi hn hlt
      rw [probe]
      split
      · rfl
      · rename_i hstop
        cases n with
        | zero =>
          rw [Nat.add_zero, Nat.mod_eq_of_lt hi] at hn
          exact absurd (hn ▸ hs) hstop
        | succ n =>
          have hpos : 0 < size := by omega
          refine ih (next size i) n ?_ ?_ (by omega)
          · rw [next_eq hi]
            exact Nat.mod_lt _ hpos
          · rw [next_eq hi, Nat.mod_add_mod, ← hn]
            congr 1
            omega
  by_cases hle : i ≤ j
  · refine key fuel i (j - i) hi ?_ (by omega)
    rw [show i + (j - i) = j by omega, Nat.mod_eq_of_lt hj]
  · refine key fuel i (size - i + j) hi ?_ (by omega)
    rw [show i + (size - i + j) = j + size by omega, Nat.add_mod_right, Nat.mod_eq_of_lt hj]

/-! ## Entries reached from their homes -/

/-- Every entry is reached from its home over occupied slots. -/
def Reachable (size : Nat) (home : α → Nat) (t : Nat → Option α) : Prop :=
  ∀ j < size, ∀ a, t j = some a → ∃ n, (home a + n) % size = j ∧ Occupied size t (home a) n

variable {home : α → Nat}

theorem reachable_empty : Reachable size home (fun _ => none : Nat → Option α) := by
  intro j _ a h
  simp at h

/-- Only the homes of the entries matter. -/
theorem Reachable.congr {home' : α → Nat} (hr : Reachable size home t)
    (h : ∀ j < size, ∀ a, t j = some a → home' a = home a) : Reachable size home' t := by
  intro j hj a ha
  rw [h j hj a ha]
  exact hr j hj a ha

/-- A walk over occupied slots stays one when more slots are filled. -/
theorem Occupied.mono {t' : Nat → Option α} {i n : Nat} (h : Occupied size t i n)
    (hmono : ∀ j, (t j).isSome = true → (t' j).isSome = true) : Occupied size t' i n :=
  fun m hm => hmono _ (h m hm)

theorem Occupied.append {i n k : Nat} (h : Occupied size t i n)
    (h' : Occupied size t ((i + n) % size) k) : Occupied size t i (n + k) := by
  intro m hm
  by_cases hlt : m < n
  · exact h m hlt
  · have hk := h' (m - n) (by omega)
    rw [Nat.mod_add_mod] at hk
    rwa [show i + n + (m - n) = i + m by omega] at hk

/-- The walk from a key's home stops at an entry that matches, or no entry matches. -/
theorem probe_found {p : α → Bool} {fuel i j : Nat} (hr : Reachable size home t) (hi : i < size)
    (hp : ∀ a, p a = true → home a = i)
    (h : probe size (fun o => o.all p) t fuel i = some j) :
    (∀ a, t j = some a → p a = true) ∧
      (t j = none → ∀ k < size, ∀ a, t k = some a → p a = false) := by
  obtain ⟨n, rfl, hs, hbefore⟩ := probe_some hi h
  refine ⟨fun a ha => by simpa [ha] using hs, ?_⟩
  intro hnone k hk a ha
  by_contra hpa
  have hpa : p a = true := by simpa using hpa
  obtain ⟨m, rfl, hocc⟩ := hr k hk a ha
  rw [hp a hpa] at hocc ha
  obtain hlt | rfl | hgt := lt_trichotomy m n
  · have hstop := hbefore m hlt
    rw [ha] at hstop
    simp [hpa] at hstop
  · rw [ha] at hnone
    cases hnone
  · have hsome := hocc n hgt
    rw [hnone] at hsome
    cases hsome

/-- An entry is put into the empty slot that the walk from its home ended at. -/
theorem Reachable.insert {a : α} {fuel j : Nat} (hr : Reachable size home t) (hi : home a < size)
    (h : probe size Option.isNone t fuel (home a) = some j) :
    Reachable size home (Function.update t j (some a)) := by
  obtain ⟨n, rfl, hs, hbefore⟩ := probe_some hi h
  have hmono : ∀ k, (t k).isSome = true →
      (Function.update t ((home a + n) % size) (some a) k).isSome = true := by
    intro k hk
    by_cases he : k = (home a + n) % size
    · simp [he]
    · simpa [Function.update_of_ne he] using hk
  intro k hk b hb
  by_cases he : k = (home a + n) % size
  · subst he
    rw [Function.update_self] at hb
    obtain rfl := Option.some.inj hb
    refine ⟨n, rfl, Occupied.mono ?_ hmono⟩
    intro m hm
    simpa [Option.isSome_iff_ne_none] using hbefore m hm
  · rw [Function.update_of_ne he] at hb
    obtain ⟨m, hm, hocc⟩ := hr k hk b hb
    exact ⟨m, hm, hocc.mono hmono⟩

/-! ## Exchanging two slots -/

theorem exchange_isSome {i j k : Nat} (hi : (t i).isSome = true) (hj : (t j).isSome = true) :
    (exchange t i j k).isSome = (t k).isSome := by
  by_cases hkj : k = j
  · subst hkj
    rw [exchange_right, hi, hj]
  · by_cases hki : k = i
    · subst hki
      rw [exchange_left, hi, hj]
    · rw [exchange_of_ne hki hkj]

/-- The entry a walk from its home found is exchanged with the one at its home. -/
theorem Reachable.exchange {a : α} {n : Nat} (hr : Reachable size home t) (hi : home a < size)
    (ha : t ((home a + n) % size) = some a) (hocc : Occupied size t (home a) n) :
    Reachable size home (exchange t ((home a + n) % size) (home a)) := by
  have hfound : (t ((home a + n) % size)).isSome = true := by simp [ha]
  have hfirst : (t (home a)).isSome = true := by
    cases n with
    | zero => simpa [Nat.mod_eq_of_lt hi] using hfound
    | succ n => simpa [Nat.mod_eq_of_lt hi] using hocc 0 (by omega)
  have hsome : ∀ k, (t k).isSome = true →
      (Slots.exchange t ((home a + n) % size) (home a) k).isSome = true := by
    intro k hk
    rwa [exchange_isSome hfound hfirst]
  intro k hk b hb
  rw [exchange_eq, Function.comp_apply] at hb
  by_cases hkj : k = home a
  · -- the entry that was found is now at its home
    subst hkj
    rw [Equiv.swap_apply_right, ha] at hb
    obtain rfl := Option.some.inj hb
    exact ⟨0, by simp [Nat.mod_eq_of_lt hi], fun m hm => by omega⟩
  · by_cases hki : k = (home a + n) % size
    · -- the entry that was there is moved on along the walk
      subst hki
      rw [Equiv.swap_apply_left] at hb
      obtain ⟨m, hm, hocc'⟩ := hr (home a) hi b hb
      have hlong := hocc'.append (by rw [hm]; exact hocc)
      refine ⟨m + n, ?_, hlong.mono hsome⟩
      rw [← Nat.add_assoc, ← Nat.mod_add_mod, hm]
    · rw [Equiv.swap_apply_of_ne_of_ne hki hkj] at hb
      obtain ⟨m, hm, hocc'⟩ := hr k hk b hb
      exact ⟨m, hm, hocc'.mono hsome⟩

/-! ## What the table holds -/

/-- The entries, slot by slot. -/
def entries (size : Nat) (t : Nat → Option α) : List α := (List.range size).filterMap t

@[simp] theorem mem_entries {a : α} : a ∈ entries size t ↔ ∃ j < size, t j = some a := by
  simp [entries]

theorem entries_empty : entries size (fun _ => none : Nat → Option α) = [] := by
  simp [entries]

/-- While there are fewer entries than slots, some slot is empty. -/
theorem exists_empty (h : (entries size t).length < size) : ∃ j < size, t j = none := by
  by_contra hno
  push Not at hno
  have hall : ∀ j ∈ List.range size, (t j).isSome = true := by
    intro j hj
    exact Option.isSome_iff_ne_none.mpr (hno j (List.mem_range.mp hj))
  have hlen : (entries size t).length = size := by
    unfold entries
    rw [List.length_filterMap_eq_countP, List.countP_eq_length.mpr hall, List.length_range]
  omega

theorem entries_insert {a : α} {j : Nat} (hj : j < size) (h : t j = none) :
    (entries size (Function.update t j (some a))).Perm (a :: entries size t) := by
  obtain ⟨pre, post, hsplit⟩ := List.append_of_mem (List.mem_range.mpr hj)
  have hnodup : (pre ++ j :: post).Nodup := hsplit ▸ List.nodup_range
  have hpre : ∀ k ∈ pre, Function.update t j (some a) k = t k := by
    intro k hk
    refine Function.update_of_ne ?_ _ _
    rintro rfl
    exact (List.nodup_append.mp hnodup).2.2 k hk k (by simp) rfl
  have hpost : ∀ k ∈ post, Function.update t j (some a) k = t k := by
    intro k hk
    refine Function.update_of_ne ?_ _ _
    rintro rfl
    exact (List.nodup_cons.mp (List.nodup_append.mp hnodup).2.1).1 hk
  unfold entries
  rw [hsplit, List.filterMap_append, List.filterMap_append,
    List.filterMap_cons_some (b := a) (by simp), List.filterMap_cons_none h,
    List.filterMap_congr hpre, List.filterMap_congr hpost]
  exact List.perm_middle

theorem entries_exchange {i j : Nat} (hi : i < size) (hj : j < size) :
    (entries size (exchange t i j)).Perm (entries size t) := by
  have hcells : ∀ u : Nat → Option α, entries size u = (cells size u).filterMap id := by
    intro u
    simp [entries, cells, List.filterMap_map]
  rw [hcells, hcells]
  exact (cells_exchange hi hj).filterMap id

end Probing
