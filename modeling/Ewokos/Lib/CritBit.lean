import Mathlib

/-!
# Crit-bit trees

Binary trees whose leaves are entries with bits, and whose inner nodes test one position each.

* `Ordered` — below an inner node the entries agree before its position, and its children are told
  apart by the bit there.
* `best_agrees` — the leaf that a key's bits lead to agrees with the key as far as any leaf does.
* `Ordered.put` — an entry put in at the first position where it differs from its best match.
* `Ordered.sorted` — the leaves from left to right are in the order of their bits.
* `leaves_top`, `walk_eq` — the leaves that agree with a key on its first positions are those of one
  subtree, and the walk that looks for the best match passes it.
-/

set_option autoImplicit false

namespace CritBit

variable {α : Type}

/-- A leaf is an entry; an inner node has a position, and the entry that it came with. -/
inductive Trie (α : Type) where
  | leaf (a : α)
  | node (a : α) (pos : Nat) (l r : Trie α)

namespace Trie

def leaves : Trie α → List α
  | leaf a => [a]
  | node _ _ l r => l.leaves ++ r.leaves

def inners : Trie α → List α
  | leaf _ => []
  | node a _ l r => a :: (l.inners ++ r.inners)

/-- The child on the side of a bit. -/
def side (l r : Trie α) (b : Bool) : Trie α := if b then r else l

/-- The leaf that the bits of a key lead to. -/
def best (key : Nat → Bool) : Trie α → α
  | leaf a => a
  | node _ p l r => if key p then r.best key else l.best key

/-- The subtree behind the last tested position before `n`. -/
def top (key : Nat → Bool) (n : Nat) : Trie α → Trie α
  | leaf a => leaf a
  | node a p l r =>
    if p < n then if key p then r.top key n else l.top key n else node a p l r

/-- The walk to the best match, with the last subtree that it entered at a position before `n`. -/
def walk (key : Nat → Bool) (n : Nat) : Trie α → Trie α → α × Trie α
  | leaf a, t => (a, t)
  | node _ p l r, t =>
    if key p then r.walk key n (if p < n then r else t) else l.walk key n (if p < n then l else t)

/-- A node that tells an entry from a tree at a position. -/
def join (bits : Nat → Bool) (a : α) (d : Nat) (t : Trie α) : Trie α :=
  if bits d then node a d t (leaf a) else node a d (leaf a) t

/-- An entry put in at a position. -/
def put (bits : Nat → Bool) (a : α) (d : Nat) : Trie α → Trie α
  | leaf b => join bits a d (leaf b)
  | node b p l r =>
    if d < p then join bits a d (node b p l r)
    else if bits p then node b p l (r.put bits a d) else node b p (l.put bits a d) r

def height : Trie α → Nat
  | leaf _ => 0
  | node _ _ l r => max l.height r.height + 1

end Trie

open Trie

variable {bit : α → Nat → Bool} {key : Nat → Bool} {t : Trie α} {a : α} {n d : Nat}

/-! ## Leaves and inner nodes -/

theorem best_mem (key : Nat → Bool) (t : Trie α) : t.best key ∈ t.leaves := by
  induction t with
  | leaf a => simp [best, leaves]
  | node a p l r ihl ihr =>
    rw [best]
    split
    · exact List.mem_append_right _ ihr
    · exact List.mem_append_left _ ihl

theorem height_le (t : Trie α) : t.height ≤ t.inners.length := by
  induction t with
  | leaf a => simp [height]
  | node a p l r ihl ihr =>
    simp only [height, inners, List.length_cons, List.length_append]
    omega

theorem height_top (key : Nat → Bool) (n : Nat) (t : Trie α) : (t.top key n).height ≤ t.height := by
  induction t with
  | leaf a => exact Nat.le_refl _
  | node a p l r ihl ihr =>
    rw [top]
    split
    · simp only [height]
      split <;> omega
    · exact Nat.le_refl _

theorem leaves_join (bits : Nat → Bool) (a : α) (d : Nat) (t : Trie α) :
    (join bits a d t).leaves.Perm (a :: t.leaves) := by
  unfold join
  split
  · simp [leaves, List.perm_append_singleton]
  · simp [leaves]

theorem inners_join (bits : Nat → Bool) (a : α) (d : Nat) (t : Trie α) :
    (join bits a d t).inners = a :: t.inners := by
  unfold join
  split <;> simp [inners]

theorem leaves_put (bits : Nat → Bool) (a : α) (d : Nat) (t : Trie α) :
    (t.put bits a d).leaves.Perm (a :: t.leaves) := by
  induction t with
  | leaf b => exact leaves_join bits a d _
  | node b p l r ihl ihr =>
    rw [put]
    split
    · exact leaves_join bits a d _
    · split
      · simp only [leaves]
        exact (ihr.append_left l.leaves).trans List.perm_middle
      · simp only [leaves]
        exact ihl.append_right r.leaves

theorem inners_put (bits : Nat → Bool) (a : α) (d : Nat) (t : Trie α) :
    (t.put bits a d).inners.Perm (a :: t.inners) := by
  induction t with
  | leaf b => rw [put, inners_join]
  | node b p l r ihl ihr =>
    rw [put]
    split
    · rw [inners_join]
    · split
      · simp only [inners]
        exact (((ihr.append_left l.inners).trans List.perm_middle).cons b).trans (.swap ..)
      · simp only [inners]
        exact ((ihl.append_right r.inners).cons b).trans (.swap ..)

/-! ## Order -/

/-- The two agree on the first `n` positions. -/
def Agree (f g : Nat → Bool) (n : Nat) : Prop := ∀ i < n, f i = g i

instance (f g : Nat → Bool) (n : Nat) : Decidable (Agree f g n) :=
  inferInstanceAs (Decidable (∀ i < n, f i = g i))

namespace Agree

variable {f g h : Nat → Bool}

theorem symm (hf : Agree f g n) : Agree g f n := fun i hi => (hf i hi).symm

theorem trans (hf : Agree f g n) (hg : Agree g h n) : Agree f h n :=
  fun i hi => (hf i hi).trans (hg i hi)

theorem mono {m : Nat} (hf : Agree f g n) (hm : m ≤ n) : Agree f g m :=
  fun i hi => hf i (hi.trans_le hm)

theorem succ (hf : Agree f g n) (hn : f n = g n) : Agree f g (n + 1) := by
  intro i hi
  obtain h' | rfl : i < n ∨ i = n := by omega
  · exact hf i h'
  · exact hn

end Agree

/-- Below an inner node the entries agree before its position, and its children are told apart by
the bit there. -/
def Ordered (bit : α → Nat → Bool) : Trie α → Prop
  | leaf _ => True
  | node _ p l r =>
    (∀ a ∈ l.leaves ++ r.leaves, ∀ b ∈ l.leaves ++ r.leaves, Agree (bit a) (bit b) p) ∧
    (∀ a ∈ l.leaves, bit a p = false) ∧ (∀ a ∈ r.leaves, bit a p = true) ∧
    Ordered bit l ∧ Ordered bit r

theorem Ordered.congr {bit' : α → Nat → Bool} (h : ∀ a ∈ t.leaves, bit' a = bit a)
    (ht : Ordered bit t) : Ordered bit' t := by
  induction t with
  | leaf a => trivial
  | node a p l r ihl ihr =>
    obtain ⟨hag, hl, hr, hol, hor⟩ := ht
    have hlm : ∀ a ∈ l.leaves, bit' a = bit a := fun a ha => h a (List.mem_append_left _ ha)
    have hrm : ∀ a ∈ r.leaves, bit' a = bit a := fun a ha => h a (List.mem_append_right _ ha)
    refine ⟨?_, ?_, ?_, ihl hlm hol, ihr hrm hor⟩
    · intro a ha b hb
      rw [h a ha, h b hb]
      exact hag a ha b hb
    · intro a ha
      rw [hlm a ha]
      exact hl a ha
    · intro a ha
      rw [hrm a ha]
      exact hr a ha

/-- The leaf that a key's bits lead to agrees with the key as far as any leaf does. -/
theorem best_agrees (ht : Ordered bit t) (ha : a ∈ t.leaves) (hk : Agree key (bit a) n) :
    Agree key (bit (t.best key)) n := by
  induction t with
  | leaf b =>
    obtain rfl : a = b := by simpa [leaves] using ha
    exact hk
  | node b p l r ihl ihr =>
    obtain ⟨hag, hl, hr, hol, hor⟩ := ht
    by_cases hn : n ≤ p
    · exact hk.trans ((hag a ha _ (best_mem key _)).mono hn)
    · have hp : key p = bit a p := hk p (by omega)
      rw [best]
      obtain hal | har := List.mem_append.mp ha
      · rw [if_neg (by rw [hp, hl a hal]; simp)]
        exact ihl hol hal
      · rw [if_pos (by rw [hp, hr a har])]
        exact ihr hor har

/-- Positions grow downwards. -/
theorem Ordered.lt_pos {b c : α} {p q : Nat} {l r u v : Trie α}
    (ht : Ordered bit (node b p l r)) (hs : node c q u v = l ∨ node c q u v = r) : p < q := by
  obtain ⟨hag, hl, hr, hol, hor⟩ := ht
  have hu := best_mem (fun _ => false) u
  have hv := best_mem (fun _ => false) v
  have key : ∀ s, node c q u v = s → Ordered bit s → (∀ x ∈ s.leaves, x ∈ l.leaves ++ r.leaves) →
      (∃ b, ∀ x ∈ s.leaves, bit x p = b) → p < q := by
    rintro s rfl ⟨_, hl', hr', _, _⟩ hsub ⟨b, hb⟩
    have hmu := List.mem_append_left v.leaves hu
    have hmv := List.mem_append_right u.leaves hv
    have hdiff : bit (u.best fun _ => false) q ≠ bit (v.best fun _ => false) q := by
      rw [hl' _ hu, hr' _ hv]
      simp
    by_contra hlt
    obtain h' | rfl : q < p ∨ q = p := by omega
    · exact hdiff (hag _ (hsub _ hmu) _ (hsub _ hmv) q h')
    · exact hdiff ((hb _ hmu).trans (hb _ hmv).symm)
  obtain h' | h' := hs
  · exact key l h' hol (fun x hx => List.mem_append_left _ hx) ⟨false, hl⟩
  · exact key r h' hor (fun x hx => List.mem_append_right _ hx) ⟨true, hr⟩

/-- The order of the bits: the first position where two differ tells. -/
def Before (bit : α → Nat → Bool) (a b : α) : Prop :=
  ∃ p, Agree (bit a) (bit b) p ∧ bit a p = false ∧ bit b p = true

theorem Ordered.sorted (ht : Ordered bit t) : t.leaves.Pairwise (Before bit) := by
  induction t with
  | leaf a => simp [leaves]
  | node a p l r ihl ihr =>
    obtain ⟨hag, hl, hr, hol, hor⟩ := ht
    refine List.pairwise_append.mpr ⟨ihl hol, ihr hor, ?_⟩
    intro x hx y hy
    exact ⟨p, hag x (List.mem_append_left _ hx) y (List.mem_append_right _ hy), hl x hx, hr y hy⟩

/-! ## Insertion -/

/-- What agrees with one entry agrees with each other. -/
theorem agree_of_root {l : List α} (h : ∀ x ∈ l, Agree (bit a) (bit x) d) :
    ∀ x ∈ a :: l, ∀ y ∈ a :: l, Agree (bit x) (bit y) d := by
  have hroot : ∀ x ∈ a :: l, Agree (bit a) (bit x) d := by
    intro x hx
    obtain rfl | hx := List.mem_cons.mp hx
    · exact fun i _ => rfl
    · exact h x hx
  intro x hx y hy
  exact (hroot x hx).symm.trans (hroot y hy)

theorem mem_leaves_put {key : Nat → Bool} {x : α} (hx : x ∈ (t.put key a d).leaves) :
    x = a ∨ x ∈ t.leaves :=
  List.mem_cons.mp ((leaves_put key a d t).subset hx)

/-- Every entry of the tree agrees with the new one before `d`, and differs there. -/
theorem Ordered.join (ht : Ordered bit t)
    (hd : ∀ b ∈ t.leaves, Agree (bit a) (bit b) d ∧ bit b d ≠ bit a d) :
    Ordered bit (join (bit a) a d t) := by
  have hag : ∀ x ∈ a :: t.leaves, ∀ y ∈ a :: t.leaves, Agree (bit x) (bit y) d :=
    agree_of_root fun x hx => (hd x hx).1
  unfold Trie.join
  split
  · rename_i hb
    refine ⟨?_, ?_, ?_, ht, trivial⟩
    · intro x hx y hy
      simp only [leaves, List.mem_append, List.mem_singleton] at hx hy
      exact hag x (by simpa using hx.symm) y (by simpa using hy.symm)
    · intro x hx
      simpa [hb] using (hd x hx).2
    · intro x hx
      obtain rfl : x = a := by simpa [leaves] using hx
      exact hb
  · rename_i hb
    refine ⟨?_, ?_, ?_, trivial, ht⟩
    · intro x hx y hy
      simp only [leaves, List.mem_append, List.mem_singleton] at hx hy
      exact hag x (by simpa using hx) y (by simpa using hy)
    · intro x hx
      obtain rfl : x = a := by simpa [leaves] using hx
      simpa using hb
    · intro x hx
      simpa [hb] using (hd x hx).2

/-- An entry put in at the first position where it differs from a best match. -/
theorem Ordered.put {b : α} (ht : Ordered bit t) (hb : b ∈ t.leaves)
    (hag : Agree (bit a) (bit b) d)
    (hmax : ∀ c ∈ t.leaves, ¬Agree (bit a) (bit c) (d + 1)) :
    Ordered bit (t.put (bit a) a d) := by
  have hjoin : ∀ s : Trie α, Ordered bit s → (∀ c ∈ s.leaves, ¬Agree (bit a) (bit c) (d + 1)) →
      (∀ c ∈ s.leaves, Agree (bit a) (bit c) d) → Ordered bit (Trie.join (bit a) a d s) := by
    intro s hs hm hag
    apply hs.join
    intro c hc
    refine ⟨hag c hc, ?_⟩
    intro he
    exact hm c hc ((hag c hc).succ he.symm)
  induction t with
  | leaf c =>
    apply hjoin _ ht hmax
    intro c' hc
    obtain rfl : b = c := by simpa [leaves] using hb
    obtain rfl : c' = b := by simpa [leaves] using hc
    exact hag
  | node c p l r ihl ihr =>
    have ht' := ht
    obtain ⟨hnode, hl, hr, hol, hor⟩ := ht
    rw [Trie.put]
    split
    · rename_i hlt
      apply hjoin _ ht' hmax
      intro c' hc
      exact hag.trans ((hnode b hb c' hc).mono hlt.le)
    · rename_i hle
      have hmaxl : ∀ c ∈ l.leaves, ¬Agree (bit a) (bit c) (d + 1) :=
        fun c hc => hmax c (List.mem_append_left _ hc)
      have hmaxr : ∀ c ∈ r.leaves, ¬Agree (bit a) (bit c) (d + 1) :=
        fun c hc => hmax c (List.mem_append_right _ hc)
      -- every leaf of the node agrees with the new entry before its position
      have hall : ∀ c ∈ l.leaves ++ r.leaves, Agree (bit a) (bit c) p :=
        fun c hc => (hag.mono (by omega)).trans (hnode b hb c hc)
      -- at `d` itself the side of the new entry would have a closer match
      have hne : p ≠ d := by
        rintro rfl
        cases hap : bit a p with
        | false =>
          have hm := best_mem (bit a) l
          exact hmaxl _ hm ((hall _ (List.mem_append_left _ hm)).succ (hap.trans (hl _ hm).symm))
        | true =>
          have hm := best_mem (bit a) r
          exact hmaxr _ hm ((hall _ (List.mem_append_right _ hm)).succ (hap.trans (hr _ hm).symm))
      have hbit : bit a p = bit b p := hag p (by omega)
      have hbits : ∀ x ∈ a :: (l.leaves ++ r.leaves), ∀ y ∈ a :: (l.leaves ++ r.leaves),
          Agree (bit x) (bit y) p := agree_of_root hall
      split
      · rename_i hap
        have hbr : b ∈ r.leaves := by
          refine (List.mem_append.mp hb).resolve_left ?_
          intro hbl
          rw [hbit, hl b hbl] at hap
          simp at hap
        have hsub : ∀ x ∈ (r.put (bit a) a d).leaves, x = a ∨ x ∈ r.leaves :=
          fun x hx => mem_leaves_put hx
        refine ⟨?_, hl, ?_, hol, ihr hor hbr hmaxr⟩
        · intro x hx y hy
          refine hbits x ?_ y ?_
          · have := hsub x
            simp only [List.mem_append, List.mem_cons] at hx ⊢
            tauto
          · have := hsub y
            simp only [List.mem_append, List.mem_cons] at hy ⊢
            tauto
        · intro x hx
          obtain rfl | hx := hsub x hx
          · exact hap
          · exact hr x hx
      · rename_i hap
        have hap : bit a p = false := by simpa using hap
        have hbl : b ∈ l.leaves := by
          refine (List.mem_append.mp hb).resolve_right ?_
          intro hbr
          rw [hbit, hr b hbr] at hap
          simp at hap
        have hsub : ∀ x ∈ (l.put (bit a) a d).leaves, x = a ∨ x ∈ l.leaves :=
          fun x hx => mem_leaves_put hx
        refine ⟨?_, ?_, hr, ihl hol hbl hmaxl, hor⟩
        · intro x hx y hy
          refine hbits x ?_ y ?_
          · have := hsub x
            simp only [List.mem_append, List.mem_cons] at hx ⊢
            tauto
          · have := hsub y
            simp only [List.mem_append, List.mem_cons] at hy ⊢
            tauto
        · intro x hx
          obtain rfl | hx := hsub x hx
          · exact hap
          · exact hl x hx

/-! ## Leaves that agree with a key -/

/-- No leaf agrees further than the best match. -/
theorem filter_agree_eq_nil (ht : Ordered bit t) (hk : ¬Agree key (bit (t.best key)) n) :
    t.leaves.filter (fun a => decide (Agree key (bit a) n)) = [] := by
  refine List.filter_eq_nil_iff.mpr ?_
  intro a ha hag
  exact hk (best_agrees ht ha (by simpa using hag))

/-- The leaves that agree with a key on its first positions are those of one subtree. -/
theorem leaves_top (ht : Ordered bit t) (hk : Agree key (bit (t.best key)) n) :
    (t.top key n).leaves = t.leaves.filter fun a => decide (Agree key (bit a) n) := by
  induction t with
  | leaf a =>
    have hk : Agree key (bit a) n := hk
    simp [top, leaves, hk]
  | node a p l r ihl ihr =>
    obtain ⟨hag, hl, hr, hol, hor⟩ := ht
    rw [top]
    split
    · rename_i hp
      rw [leaves, List.filter_append]
      rw [best] at hk
      split
      · rename_i hkp
        rw [if_pos hkp] at hk
        have hnone : l.leaves.filter (fun a => decide (Agree key (bit a) n)) = [] := by
          refine List.filter_eq_nil_iff.mpr ?_
          intro x hx hax
          have := (of_decide_eq_true hax) p hp
          rw [hkp, hl x hx] at this
          simp at this
        rw [hnone, List.nil_append]
        exact ihr hor hk
      · rename_i hkp
        rw [if_neg hkp] at hk
        have hnone : r.leaves.filter (fun a => decide (Agree key (bit a) n)) = [] := by
          refine List.filter_eq_nil_iff.mpr ?_
          intro x hx hax
          exact hkp (((of_decide_eq_true hax) p hp).trans (hr x hx))
        rw [hnone, List.append_nil]
        exact ihl hol hk
    · rename_i hp
      refine (List.filter_eq_self.mpr ?_).symm
      intro x hx
      exact decide_eq_true (hk.trans ((hag _ (best_mem key _) x hx).mono (by omega)))

/-- Behind a position that is not before `n` there are only such. -/
theorem walk_of_le (ht : Ordered bit t) (hn : ∀ a p l r, t = node a p l r → n ≤ p) (s : Trie α) :
    t.walk key n s = (t.best key, s) := by
  induction t with
  | leaf a => rfl
  | node a p l r ihl ihr =>
    have hle : n ≤ p := hn a p l r rfl
    have ht' := ht
    obtain ⟨_, _, _, hol, hor⟩ := ht
    have hp : ¬p < n := by omega
    rw [walk, best, if_neg hp, if_neg hp]
    split
    · refine ihr hor ?_
      intro c q u v he
      have := ht'.lt_pos (.inr he.symm)
      omega
    · refine ihl hol ?_
      intro c q u v he
      have := ht'.lt_pos (.inl he.symm)
      omega

/-- The walk to the best match passes the subtree of the leaves that agree with the key. -/
theorem walk_eq (ht : Ordered bit t) : t.walk key n t = (t.best key, t.top key n) := by
  induction t with
  | leaf a => rfl
  | node a p l r ihl ihr =>
    have ht' := ht
    obtain ⟨_, _, _, hol, hor⟩ := ht
    by_cases hp : p < n
    · rw [walk, best, top, if_pos hp, if_pos hp, if_pos hp]
      split
      · exact ihr hor
      · exact ihl hol
    · rw [walk_of_le ht' (by rintro _ _ _ _ ⟨⟩; omega), top, if_neg hp]

end CritBit
