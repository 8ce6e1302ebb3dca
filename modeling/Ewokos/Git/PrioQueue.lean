import Ewokos.Lib.Heap
import Ewokos.Lib.Word

/-!
# The priority queue

The queue of git's `prio-queue.c`: an array of entries, a binary heap when there is a comparison
function and a stack when there is none. Equal elements are told apart by a counter.

* `PrioQueue`, `prioQueuePut`, `prioQueueGet`, `prioQueuePeek`, `prioQueueReverse`,
  `clearPrioQueue` — the code.
* `takeLeast` — a list in the order of insertion gives the oldest of its least elements.
* `Rep` — the array holds the list; `step_refines` — one call.

Main result: `served_in_order` — over any calls a queue hands out what the list hands out.
-/

set_option autoImplicit false

namespace Git

open Slots Heap

variable {α : Type}

/-- `struct prio_queue_entry`; `ctr` is unsigned. -/
structure Entry (α : Type) where
  ctr : Nat
  data : α

/-- `struct prio_queue`; the comparison function carries its `cb_data`. -/
structure PrioQueue (α : Type) where
  compare : Option (α → α → Int)
  insertionCtr : Nat
  array : Nat → Entry α
  nr : Nat

/-- `compare`: the difference of the counters is stored in an `int`. -/
def compareEntries (cmp : α → α → Int) (a b : Entry α) : Int :=
  if cmp a.data b.data = 0 then Word.i32 ((a.ctr : Int) - b.ctr) else cmp a.data b.data

/-- `prio_queue_put`. -/
def prioQueuePut (queue : PrioQueue α) (thing : α) : PrioQueue α :=
  let appended := Function.update queue.array queue.nr ⟨queue.insertionCtr, thing⟩
  let queue' := { queue with insertionCtr := (queue.insertionCtr + 1) % 4294967296,
                             nr := queue.nr + 1 }
  match queue.compare with
  | none => { queue' with array := appended }
  | some cmp =>
    { queue' with array := bubbleUp (compareEntries cmp) queue.nr queue.nr appended }

/-- `prio_queue_get`. -/
def prioQueueGet (queue : PrioQueue α) : Option α × PrioQueue α :=
  if queue.nr = 0 then (none, queue)
  else
    match queue.compare with
    | none => (some (queue.array (queue.nr - 1)).data, { queue with nr := queue.nr - 1 })
    | some cmp =>
      let result := (queue.array 0).data
      let queue' := { queue with nr := queue.nr - 1 }
      if queue'.nr = 0 then (some result, queue')
      else
        let array := Function.update queue.array 0 (queue.array queue'.nr)
        (some result,
          { queue' with array := pushDown (compareEntries cmp) queue'.nr queue'.nr 0 array })

/-- `prio_queue_peek`. -/
def prioQueuePeek (queue : PrioQueue α) : Option α :=
  if queue.nr = 0 then none
  else
    match queue.compare with
    | none => some (queue.array (queue.nr - 1)).data
    | some _ => some (queue.array 0).data

/-- The loop of `prio_queue_reverse` from `i` on. -/
def reverseFrom (nr : Nat) : Nat → Nat → (Nat → Entry α) → (Nat → Entry α)
  | 0, _, array => array
  | fuel + 1, i, array =>
    if (i : Int) < (nr : Int) - 1 - i then
      reverseFrom nr fuel (i + 1) (exchange array i (nr - 1 - i))
    else array

/-- `prio_queue_reverse`; `none` is `BUG`. -/
def prioQueueReverse (queue : PrioQueue α) : Option (PrioQueue α) :=
  if queue.compare.isSome then none
  else some { queue with array := reverseFrom queue.nr queue.nr 0 queue.array }

/-- `clear_prio_queue`. -/
def clearPrioQueue (queue : PrioQueue α) : PrioQueue α :=
  { queue with nr := 0, insertionCtr := 0 }

/-- A call on a queue. -/
inductive QueueCall (α : Type) where
  | put (thing : α)
  | get
  | peek
  | reverse
  | clear

/-- One call and what it returns; `none` when git ends with `BUG`. -/
def QueueCall.apply (queue : PrioQueue α) : QueueCall α → Option (Option α × PrioQueue α)
  | .put thing => some (none, prioQueuePut queue thing)
  | .get => some (prioQueueGet queue)
  | .peek => some (prioQueuePeek queue, queue)
  | .reverse => (prioQueueReverse queue).map fun queue' => (none, queue')
  | .clear => some (none, clearPrioQueue queue)

/-- The results of the calls, up to the first `BUG`. -/
def runQueue : PrioQueue α → List (QueueCall α) → List (Option α)
  | _, [] => []
  | queue, call :: calls =>
    match call.apply queue with
    | none => []
    | some (result, queue') => result :: runQueue queue' calls

/-! ## What the queue is for -/

/-- The oldest of the elements that come before all others, and the rest: `l` is in the order of
insertion. -/
def takeLeast (cmp : α → α → Int) : List α → Option (α × List α)
  | [] => none
  | a :: l =>
    match takeLeast cmp l with
    | none => some (a, l)
    | some (b, rest) => if cmp a b ≤ 0 then some (a, l) else some (b, a :: rest)

/-- The element taken when there is no comparison function: the newest. -/
def takeNewest (l : List α) : Option (α × List α) :=
  l.getLast?.map fun a => (a, l.dropLast)

def take (compare : Option (α → α → Int)) (l : List α) : Option (α × List α) :=
  match compare with
  | none => takeNewest l
  | some cmp => takeLeast cmp l

/-- One call on the list of the elements in the order of insertion. -/
def QueueCall.onList (compare : Option (α → α → Int)) (l : List α) :
    QueueCall α → Option (Option α × List α)
  | .put thing => some (none, l ++ [thing])
  | .get =>
    match take compare l with
    | none => some (none, l)
    | some (a, rest) => some (some a, rest)
  | .peek => some ((take compare l).map Prod.fst, l)
  | .reverse => if compare.isSome then none else some (none, l.reverse)
  | .clear => some (none, [])

def runList (compare : Option (α → α → Int)) : List α → List (QueueCall α) → List (Option α)
  | _, [] => []
  | l, call :: calls =>
    match call.onList compare l with
    | none => []
    | some (result, l') => result :: runList compare l' calls

/-- What `takeLeast` takes, said of the whole list. -/
def Takes (cmp : α → α → Int) (l : List α) (a : α) (rest : List α) : Prop :=
  ∃ older newer, l = older ++ a :: newer ∧ rest = older ++ newer ∧
    (∀ x ∈ older, 0 < cmp x a) ∧ ∀ x ∈ newer, cmp a x ≤ 0

theorem mem_of_takeLeast {cmp : α → α → Int} {l rest : List α} {a : α}
    (h : takeLeast cmp l = some (a, rest)) : a ∈ l := by
  induction l generalizing a rest with
  | nil => simp [takeLeast] at h
  | cons x l ih =>
    rw [takeLeast] at h
    split at h
    · simp_all
    · rename_i b rest' hl
      split at h
      · simp_all
      · simp only [Option.some.injEq, Prod.mk.injEq] at h
        obtain ⟨rfl, -⟩ := h
        exact List.mem_cons_of_mem _ (ih hl)

theorem takeLeast_of_takes {cmp : α → α → Int} {l rest : List α} {a : α}
    (h : Takes cmp l a rest) : takeLeast cmp l = some (a, rest) := by
  obtain ⟨older, newer, rfl, rfl, ho, hn⟩ := h
  induction older with
  | nil =>
    simp only [List.nil_append, takeLeast]
    split
    · rfl
    · rename_i b rest hb
      rw [if_pos (hn b (mem_of_takeLeast hb))]
  | cons x older ih =>
    have hx := ho x (List.mem_cons_self ..)
    simp only [List.cons_append, takeLeast]
    rw [ih fun y hy => ho y (List.mem_cons_of_mem _ hy)]
    simp only
    rw [if_neg (by omega)]

theorem takeLeast_perm {cmp : α → α → Int} {l rest : List α} {a : α}
    (h : takeLeast cmp l = some (a, rest)) : l.Perm (a :: rest) := by
  induction l generalizing a rest with
  | nil => simp [takeLeast] at h
  | cons x l ih =>
    rw [takeLeast] at h
    split at h
    · obtain ⟨rfl, rfl⟩ := Prod.mk.inj (Option.some.inj h)
      exact .refl _
    · rename_i b rest' hl
      split at h
      · obtain ⟨rfl, rfl⟩ := Prod.mk.inj (Option.some.inj h)
        exact .refl _
      · obtain ⟨rfl, rfl⟩ := Prod.mk.inj (Option.some.inj h)
        exact ((ih hl).cons x).trans (.swap b x rest')

/-- Taking moves one element out of the list. -/
theorem take_perm {compare : Option (α → α → Int)} {l rest : List α} {a : α}
    (h : take compare l = some (a, rest)) : l.Perm (a :: rest) := by
  cases compare with
  | some cmp => exact takeLeast_perm h
  | none =>
    obtain ⟨b, hb, he⟩ := Option.map_eq_some_iff.mp h
    obtain ⟨rfl, rfl⟩ := Prod.mk.inj he
    have hl := List.dropLast_append_getLast? b hb
    refine List.Perm.trans (.of_eq hl.symm) ?_
    exact List.perm_append_singleton ..

theorem take_eq_none {compare : Option (α → α → Int)} {l : List α} (h : take compare l = none) :
    l = [] := by
  cases l with
  | nil => rfl
  | cons x l =>
    cases compare with
    | none => simp [take, takeNewest] at h
    | some cmp =>
      simp only [take, takeLeast] at h
      split at h
      · simp at h
      · split at h <;> simp at h

/-! ## The entries -/

/-- Within this many puts the counters do not wrap, and `ix * 2 + 1` stays an `int`. -/
def CTR_LIMIT : Nat := 1073741824

theorem i32_of_counters {i j : Nat} (hi : i < CTR_LIMIT) (hj : j < CTR_LIMIT) :
    Word.i32 ((i : Int) - j) = (i : Int) - j := by
  unfold CTR_LIMIT at hi hj
  exact Word.i32_sub (by omega) (by omega)

theorem compareEntries_le {cmp : α → α → Int} {a b : Entry α} (ha : a.ctr < CTR_LIMIT)
    (hb : b.ctr < CTR_LIMIT) : compareEntries cmp a b ≤ 0 ↔
      cmp a.data b.data < 0 ∨ cmp a.data b.data = 0 ∧ a.ctr ≤ b.ctr := by
  unfold compareEntries
  split
  · rename_i h
    rw [i32_of_counters ha hb]
    omega
  · omega

theorem compareEntries_nonneg {cmp : α → α → Int} {a b : Entry α} (ha : a.ctr < CTR_LIMIT)
    (hb : b.ctr < CTR_LIMIT) : 0 ≤ compareEntries cmp a b ↔
      0 < cmp a.data b.data ∨ cmp a.data b.data = 0 ∧ b.ctr ≤ a.ctr := by
  unfold compareEntries
  split
  · rename_i h
    rw [i32_of_counters ha hb]
    omega
  · omega

/-- The counters make a comparison function of the data one of the entries. -/
theorem comparator_entries {cmp : α → α → Int} (hc : Comparator (fun _ => True) cmp) :
    Comparator (fun e : Entry α => e.ctr < CTR_LIMIT) (compareEntries cmp) := by
  constructor
  · intro a b ha hb
    rw [compareEntries_le ha hb, compareEntries_nonneg hb ha]
    have h₁ := hc.swap a.data b.data trivial trivial
    have h₂ := hc.swap b.data a.data trivial trivial
    omega
  · intro a b c ha hb hcc hab hbc
    rw [compareEntries_le ha hb] at hab
    rw [compareEntries_le hb hcc] at hbc
    rw [compareEntries_le ha hcc]
    have h₁ := hc.trans a.data b.data c.data trivial trivial trivial (by omega) (by omega)
    by_cases h0 : cmp a.data c.data = 0
    · have h₂ := hc.swap c.data a.data trivial trivial
      have h₃ := hc.trans c.data a.data b.data trivial trivial trivial (by omega) (by omega)
      have h₄ := hc.swap c.data b.data trivial trivial
      have h₅ := hc.trans b.data c.data a.data trivial trivial trivial (by omega) (by omega)
      have h₆ := hc.swap b.data a.data trivial trivial
      omega
    · omega

/-! ## The array and the list -/

/-- The queue holds the elements of the list, which is in the order of insertion. -/
inductive Rep : PrioQueue α → List α → Prop where
  | stack {ctr nr : Nat} {array : Nat → Entry α} :
    Rep ⟨none, ctr, array, nr⟩ ((cells nr array).map Entry.data)
  | heap {cmp : α → α → Int} {ctr nr : Nat} {array : Nat → Entry α} {entries : List (Entry α)}
    (held : (cells nr array).Perm entries)
    (sorted : entries.Pairwise fun a b => a.ctr < b.ctr)
    (recent : ∀ e ∈ entries, e.ctr < ctr)
    (ordered : Ordered (compareEntries cmp) nr array) :
    Rep ⟨some cmp, ctr, array, nr⟩ (entries.map Entry.data)

/-- The last entry moved over the first one. -/
theorem cells_remove {n : Nat} {array : Nat → Entry α} :
    (array 0 :: cells n (Function.update array 0 (array n))).Perm (cells (n + 1) array) := by
  have hmoved : cells n (Function.update array 0 (array n)) = cells n (exchange array 0 n) := by
    refine cells_congr ?_
    intro i hi
    unfold exchange
    rw [Function.update_of_ne (show i ≠ n by omega)]
  have hlast : cells (n + 1) (exchange array 0 n) = cells n (exchange array 0 n) ++ [array 0] := by
    rw [cells_succ, exchange_right]
  rw [hmoved]
  refine List.Perm.trans ?_ (cells_exchange (Nat.succ_pos n) (Nat.lt_succ_self n))
  rw [hlast]
  exact List.perm_append_singleton _ _ |>.symm

section heap

variable {cmp : α → α → Int} {ctr nr : Nat} {array : Nat → Entry α} {entries : List (Entry α)}

theorem ctr_lt (held : (cells nr array).Perm entries) (recent : ∀ e ∈ entries, e.ctr < ctr)
    (hlim : ctr ≤ CTR_LIMIT) : ∀ i < nr, (array i).ctr < CTR_LIMIT := by
  intro i hi
  have := recent _ (held.mem_iff.mp (mem_cells.mpr ⟨i, hi, rfl⟩))
  omega

/-- The first entry is the oldest of the least ones. -/
theorem root_taken (hc : Comparator (fun _ => True) cmp)
    (held : (cells (nr + 1) array).Perm entries)
    (sorted : entries.Pairwise fun a b => a.ctr < b.ctr) (recent : ∀ e ∈ entries, e.ctr < ctr)
    (ordered : Ordered (compareEntries cmp) (nr + 1) array) (hlim : ctr ≤ CTR_LIMIT) :
    ∃ older newer, entries = older ++ array 0 :: newer ∧
      Takes cmp (entries.map Entry.data) (array 0).data ((older ++ newer).map Entry.data) := by
  have hroot : array 0 ∈ entries := held.mem_iff.mp (mem_cells.mpr ⟨0, Nat.succ_pos nr, rfl⟩)
  have hS := ctr_lt held recent hlim
  have hleast : ∀ e ∈ entries, compareEntries cmp (array 0) e ≤ 0 := by
    intro e he
    obtain ⟨i, hi, rfl⟩ := mem_cells.mp (held.mem_iff.mpr he)
    exact ordered.least (comparator_entries hc) hS hi
  have hbound : ∀ e ∈ entries, e.ctr < CTR_LIMIT := by
    intro e he
    have := recent e he
    omega
  obtain ⟨older, newer, rfl⟩ := List.append_of_mem hroot
  refine ⟨older, newer, rfl, older.map Entry.data, newer.map Entry.data, by simp, by simp, ?_, ?_⟩
  · intro x hx
    obtain ⟨e, he, rfl⟩ := List.mem_map.mp hx
    have hle := hleast e (by simp [he])
    have holder : e.ctr < (array 0).ctr :=
      (List.pairwise_append.mp sorted).2.2 e he (array 0) (by simp)
    rw [compareEntries_le (hbound _ hroot) (hbound e (by simp [he]))] at hle
    have := hc.swap e.data (array 0).data trivial trivial
    omega
  · intro x hx
    obtain ⟨e, he, rfl⟩ := List.mem_map.mp hx
    have hle := hleast e (by simp [he])
    rw [compareEntries_le (hbound _ hroot) (hbound e (by simp [he]))] at hle
    omega

theorem put_heap (hc : Comparator (fun _ => True) cmp) (held : (cells nr array).Perm entries)
    (sorted : entries.Pairwise fun a b => a.ctr < b.ctr) (recent : ∀ e ∈ entries, e.ctr < ctr)
    (ordered : Ordered (compareEntries cmp) nr array) (hlim : ctr < CTR_LIMIT) (thing : α) :
    Rep (prioQueuePut ⟨some cmp, ctr, array, nr⟩ thing) (entries.map Entry.data ++ [thing]) := by
  set new : Entry α := ⟨ctr, thing⟩ with hnew
  have hctr : (ctr + 1) % 4294967296 = ctr + 1 := by
    unfold CTR_LIMIT at hlim
    omega
  have happended : (cells (nr + 1) (Function.update array nr new)).Perm (entries ++ [new]) := by
    rw [cells_succ, Function.update_self]
    refine List.Perm.append ?_ (List.Perm.refl _)
    rw [cells_congr (t := array)]
    · exact held
    · intro i hi
      exact Function.update_of_ne (by omega) ..
  have hrecent : ∀ e ∈ entries ++ [new], e.ctr < ctr + 1 := by
    intro e he
    rcases List.mem_append.mp he with he | he
    · have := recent e he
      omega
    · rw [List.mem_singleton.mp he, hnew]
      exact Nat.lt_succ_self ctr
  have hsorted : (entries ++ [new]).Pairwise fun a b => a.ctr < b.ctr := by
    refine List.pairwise_append.mpr ⟨sorted, List.pairwise_singleton .., ?_⟩
    intro a ha b hb
    rw [List.mem_singleton.mp hb]
    exact recent a ha
  have hup : UpTo (compareEntries cmp) (nr + 1) (Function.update array nr new) nr := by
    constructor
    · intro i hi0 hi hne
      have hp := parent_lt hi0
      rw [Function.update_of_ne hne, Function.update_of_ne (show parent i ≠ nr by omega)]
      exact ordered i hi0 (by omega)
    · intro _ i hi hi0 hp
      have := parent_lt hi0
      omega
  have hS := ctr_lt happended hrecent hlim
  have hrep := Rep.heap
    ((bubbleUp_perm (Nat.lt_succ_self nr)).trans happended)
    hsorted hrecent
    (bubbleUp_ordered (comparator_entries hc) hS hup (Nat.lt_succ_self nr) (Nat.le_refl nr))
  simpa [prioQueuePut, hctr, hnew] using hrep

/-- `get` takes the oldest of the least elements. -/
theorem get_takes (hc : Comparator (fun _ => True) cmp)
    (held : (cells (nr + 1) array).Perm entries)
    (sorted : entries.Pairwise fun a b => a.ctr < b.ctr) (recent : ∀ e ∈ entries, e.ctr < ctr)
    (ordered : Ordered (compareEntries cmp) (nr + 1) array) (hlim : ctr ≤ CTR_LIMIT) :
    ∃ (queue' : PrioQueue α) (a : α) (rest : List α), queue'.compare = some cmp ∧
      queue'.insertionCtr = ctr ∧ Takes cmp (entries.map Entry.data) a rest ∧
      prioQueueGet ⟨some cmp, ctr, array, nr + 1⟩ = (some a, queue') ∧ Rep queue' rest := by
  obtain ⟨older, newer, he, htakes⟩ := root_taken hc held sorted recent ordered hlim
  set moved := Function.update array 0 (array nr) with hmoved
  have hrest : (cells nr moved).Perm (older ++ newer) := by
    refine List.Perm.cons_inv (a := array 0) ?_
    refine (cells_remove.trans held).trans ?_
    rw [he]
    exact List.perm_middle
  have hsub : (older ++ newer).Sublist entries := by
    rw [he]
    exact List.Sublist.append (List.Sublist.refl _) (List.sublist_cons_self ..)
  have hrecent : ∀ e ∈ older ++ newer, e.ctr < ctr := fun e he => recent e (hsub.subset he)
  have hdown : DownTo (compareEntries cmp) nr moved 0 := by
    constructor
    · intro i hi0 hi hne
      rw [hmoved, Function.update_of_ne hne, Function.update_of_ne (by omega)]
      exact ordered i hi0 (by omega)
    · intro h
      omega
  have hS := ctr_lt hrest hrecent hlim
  have hrep := Rep.heap
    ((pushDown_perm nr).trans hrest)
    (sorted.sublist hsub) hrecent
    (pushDown_ordered (comparator_entries hc) hS hdown (by omega))
  by_cases hn : nr = 0
  · subst hn
    have hempty : older ++ newer = [] := List.Perm.eq_nil (by simpa [cells] using hrest.symm)
    refine ⟨⟨some cmp, ctr, array, 0⟩, _, _, rfl, rfl, htakes, by simp [prioQueueGet], ?_⟩
    rw [hempty]
    exact .heap (by simp [cells]) .nil (by simp) (by intro i _ hi; omega)
  · exact ⟨_, _, _, rfl, rfl, htakes, by simp [prioQueueGet, hn, hmoved], hrep⟩

theorem get_heap (hc : Comparator (fun _ => True) cmp) (held : (cells nr array).Perm entries)
    (sorted : entries.Pairwise fun a b => a.ctr < b.ctr) (recent : ∀ e ∈ entries, e.ctr < ctr)
    (ordered : Ordered (compareEntries cmp) nr array) (hlim : ctr ≤ CTR_LIMIT) :
    ∃ queue' : PrioQueue α, queue'.compare = some cmp ∧ queue'.insertionCtr = ctr ∧
      match takeLeast cmp (entries.map Entry.data) with
      | none => prioQueueGet ⟨some cmp, ctr, array, nr⟩ = (none, queue') ∧
          Rep queue' (entries.map Entry.data)
      | some (a, rest) => prioQueueGet ⟨some cmp, ctr, array, nr⟩ = (some a, queue') ∧
          Rep queue' rest := by
  cases nr with
  | zero =>
    obtain rfl : entries = [] := List.Perm.eq_nil held.symm
    exact ⟨⟨some cmp, ctr, array, 0⟩, rfl, rfl, rfl, .heap held sorted recent ordered⟩
  | succ n =>
    obtain ⟨queue', a, rest, hcomp, hctr, htakes, hget, hrep⟩ :=
      get_takes hc held sorted recent ordered hlim
    rw [takeLeast_of_takes htakes]
    exact ⟨queue', hcomp, hctr, hget, hrep⟩

end heap

/-! ## The stack -/

theorem reverseFrom_at {nr fuel i : Nat} {array : Nat → Entry α} (hf : nr ≤ i + fuel) {k : Nat}
    (hk : k < nr) : reverseFrom nr fuel i array k =
      if i ≤ k ∧ k + i < nr then array (nr - 1 - k) else array k := by
  induction fuel generalizing i array with
  | zero =>
    rw [reverseFrom, if_neg (by omega)]
  | succ fuel ih =>
    rw [reverseFrom]
    split
    · rename_i hlt
      rw [ih (by omega)]
      by_cases hk0 : k = i
      · subst hk0
        rw [if_neg (by omega), if_pos (by omega), exchange_left]
      · by_cases hk1 : k = nr - 1 - i
        · rw [if_neg (by omega), if_pos (by omega)]
          subst hk1
          rw [exchange_right]
          congr 1
          omega
        · by_cases hin : i ≤ k ∧ k + i < nr
          · rw [if_pos (by omega), if_pos hin, exchange_of_ne (by omega) (by omega)]
          · rw [if_neg (by omega), if_neg hin, exchange_of_ne hk0 hk1]
    · rename_i hge
      split
      · congr 1
        omega
      · rfl

theorem cells_reverseFrom {nr : Nat} {array : Nat → Entry α} :
    cells nr (reverseFrom nr nr 0 array) = (cells nr array).reverse := by
  refine List.ext_getElem (by simp) ?_
  intro k hk hk'
  have hlt : k < nr := by simpa using hk
  simp only [cells, List.getElem_map, List.getElem_range, List.getElem_reverse, List.length_map,
    List.length_range]
  rw [reverseFrom_at (by omega) hlt, if_pos ⟨Nat.zero_le k, hlt⟩]

theorem get_stack (ctr nr : Nat) (array : Nat → Entry α) :
    match takeNewest ((cells nr array).map Entry.data) with
    | none => prioQueueGet ⟨none, ctr, array, nr⟩ = (none, ⟨none, ctr, array, nr⟩)
    | some (a, rest) => prioQueueGet ⟨none, ctr, array, nr⟩ = (some a, ⟨none, ctr, array, nr - 1⟩)
        ∧ rest = (cells (nr - 1) array).map Entry.data := by
  cases nr with
  | zero => simp [takeNewest, cells, prioQueueGet]
  | succ n => simp [takeNewest, cells_succ, prioQueueGet]

/-! ## Every call -/

variable {queue : PrioQueue α} {l : List α}

/-- `peek` shows what `get` returns. -/
theorem peek_eq_get (queue : PrioQueue α) : prioQueuePeek queue = (prioQueueGet queue).1 := by
  unfold prioQueuePeek prioQueueGet
  split
  · rfl
  · split
    · rfl
    · simp only
      split <;> rfl

theorem get_refines (hrep : Rep queue l)
    (hc : ∀ cmp, queue.compare = some cmp → Comparator (fun _ => True) cmp)
    (hlim : queue.insertionCtr ≤ CTR_LIMIT) :
    ∃ queue' : PrioQueue α, queue'.compare = queue.compare ∧
      queue'.insertionCtr = queue.insertionCtr ∧
      match take queue.compare l with
      | none => prioQueueGet queue = (none, queue') ∧ Rep queue' l
      | some (a, rest) => prioQueueGet queue = (some a, queue') ∧ Rep queue' rest := by
  cases hrep with
  | @stack ctr nr array =>
    have hget := get_stack ctr nr array
    simp only [take]
    split
    · rename_i hn
      rw [hn] at hget
      exact ⟨_, rfl, rfl, hget, .stack⟩
    · rename_i a rest hs
      rw [hs] at hget
      obtain ⟨hget, rfl⟩ := hget
      exact ⟨⟨none, ctr, array, nr - 1⟩, rfl, rfl, hget, .stack⟩
  | heap held sorted recent ordered =>
    exact get_heap (hc _ rfl) held sorted recent ordered hlim

theorem put_refines (hrep : Rep queue l)
    (hc : ∀ cmp, queue.compare = some cmp → Comparator (fun _ => True) cmp)
    (hlim : queue.insertionCtr < CTR_LIMIT) (thing : α) :
    Rep (prioQueuePut queue thing) (l ++ [thing]) := by
  cases hrep with
  | @stack ctr nr array =>
    have hcells : (cells (nr + 1) (Function.update array nr ⟨ctr, thing⟩)).map Entry.data =
        (cells nr array).map Entry.data ++ [thing] := by
      rw [cells_succ, Function.update_self, cells_congr (t := array)]
      · simp
      · intro i hi
        exact Function.update_of_ne (by omega) ..
    rw [← hcells]
    exact .stack
  | heap held sorted recent ordered =>
    exact put_heap (hc _ rfl) held sorted recent ordered hlim thing

/-- The array holds the elements of the list. -/
theorem Rep.held (hrep : Rep queue l) :
    ((cells queue.nr queue.array).map Entry.data).Perm l := by
  cases hrep with
  | stack => exact .refl _
  | heap held sorted recent ordered => exact held.map _

theorem get_least {cmp : α → α → Int} (hrep : Rep queue l) (hcomp : queue.compare = some cmp)
    (hc : Comparator (fun _ => True) cmp) (hlim : queue.insertionCtr ≤ CTR_LIMIT) (hne : l ≠ []) :
    ∃ (queue' : PrioQueue α) (a : α) (rest : List α), queue'.compare = some cmp ∧
      queue'.insertionCtr = queue.insertionCtr ∧ Takes cmp l a rest ∧
      prioQueueGet queue = (some a, queue') ∧ Rep queue' rest := by
  cases hrep with
  | stack => simp at hcomp
  | @heap cmp' ctr nr array entries held sorted recent ordered =>
    obtain rfl : cmp' = cmp := Option.some.inj hcomp
    cases nr with
    | zero =>
      obtain rfl : entries = [] := List.Perm.eq_nil held.symm
      simp at hne
    | succ n => exact get_takes hc held sorted recent ordered hlim

/-- Is this call a `put`? -/
def QueueCall.puts : QueueCall α → Nat
  | .put _ => 1
  | _ => 0

/-- A call does to the array what it does to the list. -/
theorem step_refines_queue (hrep : Rep queue l)
    (hc : ∀ cmp, queue.compare = some cmp → Comparator (fun _ => True) cmp) (call : QueueCall α)
    (hlim : queue.insertionCtr + call.puts ≤ CTR_LIMIT) :
    call.apply queue = none ∧ call.onList queue.compare l = none ∨
      ∃ result queue' l', call.apply queue = some (result, queue') ∧
        call.onList queue.compare l = some (result, l') ∧ Rep queue' l' ∧
        queue'.compare = queue.compare ∧
        queue'.insertionCtr ≤ queue.insertionCtr + call.puts := by
  cases call with
  | put thing =>
    refine .inr ⟨none, _, _, rfl, rfl, put_refines hrep hc hlim thing, ?_, ?_⟩
    · cases hrep <;> rfl
    · cases hrep <;> exact Nat.mod_le ..
  | get =>
    obtain ⟨queue', hcomp, hctr, hget⟩ := get_refines hrep hc hlim
    refine .inr ?_
    cases htake : take queue.compare l with
    | none =>
      rw [htake] at hget
      exact ⟨none, queue', l, by simp [QueueCall.apply, hget.1],
        by simp [QueueCall.onList, htake], hget.2, hcomp, hctr.le⟩
    | some taken =>
      obtain ⟨a, rest⟩ := taken
      rw [htake] at hget
      exact ⟨some a, queue', rest, by simp [QueueCall.apply, hget.1],
        by simp [QueueCall.onList, htake], hget.2, hcomp, hctr.le⟩
  | peek =>
    obtain ⟨queue', hcomp, hctr, hget⟩ := get_refines hrep hc hlim
    refine .inr ⟨prioQueuePeek queue, queue, l, rfl, ?_, hrep, rfl, Nat.le_add_right ..⟩
    rw [peek_eq_get]
    cases htake : take queue.compare l with
    | none =>
      rw [htake] at hget
      simp [QueueCall.onList, htake, hget.1]
    | some taken =>
      rw [htake] at hget
      simp [QueueCall.onList, htake, hget.1]
  | reverse =>
    cases hrep with
    | @stack ctr nr array =>
      refine .inr ⟨none, ⟨none, ctr, reverseFrom nr nr 0 array, nr⟩, _, rfl, rfl, ?_, rfl,
        Nat.le_add_right ..⟩
      rw [← List.map_reverse, ← cells_reverseFrom]
      exact .stack
    | heap held sorted recent ordered => exact .inl ⟨rfl, rfl⟩
  | clear =>
    refine .inr ⟨none, clearPrioQueue queue, [], rfl, rfl, ?_, rfl, Nat.zero_le _⟩
    cases hrep with
    | stack => exact .stack
    | heap held sorted recent ordered =>
      exact .heap (by simp [cells]) .nil (by simp)
        (by intro i _ hi; exact absurd hi (Nat.not_lt_zero i))

theorem run_refines_queue (hrep : Rep queue l)
    (hc : ∀ cmp, queue.compare = some cmp → Comparator (fun _ => True) cmp)
    (calls : List (QueueCall α))
    (hlim : queue.insertionCtr + (calls.map QueueCall.puts).sum ≤ CTR_LIMIT) :
    runQueue queue calls = runList queue.compare l calls := by
  induction calls generalizing queue l with
  | nil => rfl
  | cons call calls ih =>
    simp only [List.map_cons, List.sum_cons] at hlim
    obtain ⟨h, h'⟩ | ⟨result, queue', l', h, h', hrep', hcomp, hctr⟩ :=
      step_refines_queue hrep hc call (by omega)
    · simp [runQueue, runList, h, h']
    · simp only [runQueue, runList, h, h']
      rw [ih hrep' (by rwa [hcomp]) (by omega), hcomp]

/-- Over any calls with at most `2 ^ 30` puts a new queue hands out what a list in the order of
insertion hands out: the oldest of its least elements, or its newest element when there is no
comparison function. -/
theorem served_in_order (compare : Option (α → α → Int)) (array : Nat → Entry α)
    (hc : ∀ cmp, compare = some cmp → Comparator (fun _ => True) cmp) (calls : List (QueueCall α))
    (hputs : (calls.map QueueCall.puts).sum ≤ 1073741824) :
    runQueue ⟨compare, 0, array, 0⟩ calls = runList compare [] calls := by
  refine run_refines_queue ?_ hc calls (by simpa [CTR_LIMIT] using hputs)
  cases compare with
  | none => exact .stack
  | some cmp =>
    exact .heap (by simp [cells]) .nil (by simp)
      (by intro i _ hi; exact absurd hi (Nat.not_lt_zero i))

/-- Pairs by their first component: the equal ones come out in the order they went in. -/
theorem served_in_order_ties :
    runQueue ⟨some fun a b : Int × Nat => a.1 - b.1, 0, fun _ => ⟨0, 0, 0⟩, 0⟩
      [.put (5, 0), .put (3, 1), .put (5, 2), .put (3, 3), .get, .get, .peek, .get, .get, .get] =
      [none, none, none, none, some (3, 1), some (3, 3), some (5, 0), some (5, 0), some (5, 2),
        none] := by
  rw [served_in_order _ _ _ _ (by decide)]
  · rfl
  · intro cmp hcmp
    obtain rfl := Option.some.inj hcmp
    constructor
    · intro a b _ _
      omega
    · intro a b c _ _ _ hab hbc
      omega

end Git
