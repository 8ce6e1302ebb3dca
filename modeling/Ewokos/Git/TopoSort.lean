import Ewokos.Git.Commits

/-!
# Topological order

`sort_in_topological_order` of git's `commit.c`: no commit is shown before all its children in the
list are.

* `sortInTopologicalOrder` — the code, over the priority queue.
* `edges` — the children of a commit among some commits, counted once for each time they name it.
* `TopoInv` — the indegree of a commit that is still to come is one more than its children to come.

Main result: `sorted_topologically`.
-/

set_option autoImplicit false

namespace Git

open Relation Heap Slots Ancestry

/-- `enum rev_sort_order`. -/
inductive SortOrder where
  | graphOrder
  | byCommitDate
  | byAuthorDate
  deriving DecidableEq

/-- The comparison function of the queue; `author_date` is what `record_author_date` found. -/
def SortOrder.compare (repo : Repo) (author_date : Nat → Nat) :
    SortOrder → Option (Nat → Nat → Int)
  | .graphOrder => none
  | .byCommitDate => some (compareCommitsByCommitDate repo)
  | .byAuthorDate => some (compareCommitsByAuthorDate author_date)

/-- The first loop: mark the commits of the list. -/
def markAll (list : List Nat) : Nat → Nat :=
  list.foldl (fun indegree c => Function.update indegree c 1) fun _ => 0

/-- The inner loop of the second one: count a child for each of its parents that is marked. -/
def countParents (parents : List Nat) (indegree : Nat → Nat) : Nat → Nat :=
  parents.foldl (fun indegree p =>
    if indegree p = 0 then indegree else Function.update indegree p (indegree p + 1)) indegree

/-- The second loop: update the indegree. -/
def countAll (repo : Repo) (list : List Nat) (indegree : Nat → Nat) : Nat → Nat :=
  list.foldl (fun indegree c => countParents (repo.parents c) indegree) indegree

/-- The third loop: the tips go into the queue. -/
def putTips (indegree : Nat → Nat) (list : List Nat) (queue : PrioQueue Nat) : PrioQueue Nat :=
  list.foldl (fun queue c => if indegree c = 1 then prioQueuePut queue c else queue) queue

/-- The inner loop of the last one: a parent all of whose children are shown goes into the queue. -/
def showParents : List Nat → (Nat → Nat) × PrioQueue Nat → (Nat → Nat) × PrioQueue Nat
  | [], st => st
  | p :: parents, (indegree, queue) =>
    if indegree p = 0 then showParents parents (indegree, queue)
    else
      showParents parents (Function.update indegree p (indegree p - 1),
        if indegree p - 1 = 1 then prioQueuePut queue p else queue)

/-- The last loop. -/
def showAll (repo : Repo) : Nat → (Nat → Nat) → PrioQueue Nat → List Nat → Option (List Nat)
  | 0, _, _, _ => none
  | fuel + 1, indegree, queue, list =>
    match prioQueueGet queue with
    | (none, _) => some list
    | (some commit, queue) =>
      let (indegree, queue) := showParents (repo.parents commit) (indegree, queue)
      showAll repo fuel (Function.update indegree commit 0) queue (list ++ [commit])

/-- `sort_in_topological_order`; `none` when the turns run out or the queue reports a bug. -/
def sortInTopologicalOrder (repo : Repo) (author_date : Nat → Nat) (fuel : Nat)
    (sort_order : SortOrder) (orig : List Nat) : Option (List Nat) :=
  if orig.isEmpty then some []
  else do
    let queue : PrioQueue Nat := ⟨sort_order.compare repo author_date, 0, fun _ => ⟨0, 0⟩, 0⟩
    let indegree := countAll repo orig (markAll orig)
    let queue := putTips indegree orig queue
    let queue ← (if sort_order = .graphOrder then prioQueueReverse queue else some queue)
    showAll repo fuel indegree queue []

/-! ## Counting -/

variable {repo : Repo} {orig l out : List Nat} {indegree : Nat → Nat} {queue : PrioQueue Nat}

/-- How often the commits of `list` name `c` as a parent. -/
def edges (repo : Repo) (list : List Nat) (c : Nat) : Nat :=
  (list.map fun x => (repo.parents x).count c).sum

theorem markAll_at (list : List Nat) (c : Nat) : markAll list c = if c ∈ list then 1 else 0 := by
  unfold markAll
  induction list using List.reverseRecOn with
  | nil => simp
  | append_singleton list x ih =>
    rw [List.foldl_append, List.foldl_cons, List.foldl_nil, Function.update_apply, ih]
    by_cases hc : c = x
    · simp [hc]
    · simp [hc]

theorem countParents_at (parents : List Nat) (c : Nat) : countParents parents indegree c =
    if indegree c = 0 then 0 else indegree c + parents.count c := by
  unfold countParents
  induction parents generalizing indegree with
  | nil =>
    simp only [List.foldl_nil, List.count_nil, Nat.add_zero]
    split <;> omega
  | cons p parents ih =>
    rw [List.foldl_cons, ih, List.count_cons]
    by_cases hp : indegree p = 0
    · rw [if_pos hp]
      by_cases hc : p = c
      · subst hc
        simp [hp]
      · simp [hc]
    · rw [if_neg hp]
      by_cases hc : p = c
      · subst hc
        simp [hp]
        omega
      · simp [hc, Ne.symm hc]

theorem countAll_at (list : List Nat) (c : Nat) : countAll repo list indegree c =
    if indegree c = 0 then 0 else indegree c + edges repo list c := by
  unfold countAll edges
  induction list generalizing indegree with
  | nil =>
    simp only [List.foldl_nil, List.map_nil, List.sum_nil, Nat.add_zero]
    split <;> omega
  | cons x list ih =>
    rw [List.foldl_cons, ih, countParents_at, List.map_cons, List.sum_cons]
    by_cases hc : indegree c = 0
    · simp [hc]
    · simp [hc]
      omega

theorem edges_pos {list : List Nat} {c : Nat} :
    0 < edges repo list c ↔ ∃ x ∈ list, repo.Parent x c := by
  unfold edges
  induction list with
  | nil => simp
  | cons x list ih =>
    rw [List.map_cons, List.sum_cons, List.exists_mem_cons_iff, ← ih, Repo.Parent,
      ← List.count_pos_iff]
    omega

/-- The commits of the list that are still to come. -/
def toCome (orig out : List Nat) : List Nat := orig.filter fun c => decide (c ∉ out)

theorem mem_toCome {c : Nat} : c ∈ toCome orig out ↔ c ∈ orig ∧ c ∉ out := by simp [toCome]

/-- Showing one commit. -/
theorem toCome_perm (hnd : orig.Nodup) {c : Nat} (hc : c ∈ toCome orig out) :
    (toCome orig out).Perm (c :: toCome orig (out ++ [c])) := by
  have herase : (toCome orig out).erase c = toCome orig (out ++ [c]) := by
    unfold toCome
    rw [(hnd.filter _).erase_eq_filter, List.filter_filter]
    refine List.filter_congr ?_
    intro x _
    by_cases hx : x = c
    · simp [hx]
    · simp [hx]
  rw [← herase]
  exact List.perm_cons_erase hc

theorem edges_toCome (repo : Repo) (hnd : orig.Nodup) {c : Nat} (hc : c ∈ toCome orig out)
    (q : Nat) : edges repo (toCome orig out) q =
      (repo.parents c).count q + edges repo (toCome orig (out ++ [c])) q := by
  unfold edges
  rw [((toCome_perm hnd hc).map _).sum_eq, List.map_cons, List.sum_cons]

/-! ## The queue -/

/-- The commits that go into the queue are put there. -/
structure Waits (compare : Option (Nat → Nat → Int)) (queue : PrioQueue Nat) (l : List Nat) : Prop
    where
  rep : Rep queue l
  compare : queue.compare = compare

/-- A comparison function, if there is one, orders all commits. -/
def Sorts (compare : Option (Nat → Nat → Int)) : Prop :=
  ∀ cmp, compare = some cmp → Comparator (fun _ => True) cmp

variable {compare : Option (Nat → Nat → Int)}

theorem Waits.put (h : Waits compare queue l) (hs : Sorts compare)
    (hlim : queue.insertionCtr < CTR_LIMIT) (c : Nat) :
    Waits compare (prioQueuePut queue c) (l ++ [c]) ∧
      (prioQueuePut queue c).insertionCtr ≤ queue.insertionCtr + 1 := by
  refine ⟨⟨put_refines h.rep (by rw [h.compare]; exact hs) hlim c, ?_⟩, ?_⟩
  · rw [← h.compare]
    unfold prioQueuePut
    split <;> rfl
  · unfold prioQueuePut
    split <;> exact Nat.mod_le ..

theorem Waits.get (h : Waits compare queue l) (hs : Sorts compare)
    (hlim : queue.insertionCtr ≤ CTR_LIMIT) :
    l = [] ∧ (prioQueueGet queue).1 = none ∨
      ∃ c rest queue', prioQueueGet queue = (some c, queue') ∧ l.Perm (c :: rest) ∧
        Waits compare queue' rest ∧ queue'.insertionCtr = queue.insertionCtr := by
  obtain ⟨queue', hcomp, hctr, hget⟩ := get_refines h.rep (by rw [h.compare]; exact hs) hlim
  cases htake : take queue.compare l with
  | none =>
    rw [htake] at hget
    exact .inl ⟨take_eq_none htake, by rw [hget.1]⟩
  | some taken =>
    rw [htake] at hget
    exact .inr ⟨taken.1, taken.2, queue', hget.1, take_perm htake, ⟨hget.2, hcomp.trans h.compare⟩,
      hctr⟩

theorem Waits.reverse (h : Waits none queue l) :
    ∃ queue', prioQueueReverse queue = some queue' ∧ Waits none queue' l.reverse ∧
      queue'.insertionCtr = queue.insertionCtr := by
  obtain ⟨hrep, hcomp⟩ := h
  cases hrep with
  | @stack ctr nr array =>
    refine ⟨⟨none, ctr, reverseFrom nr nr 0 array, nr⟩, rfl, ⟨?_, rfl⟩, rfl⟩
    rw [← List.map_reverse, ← cells_reverseFrom]
    exact .stack
  | heap held sorted recent ordered => cases hcomp

theorem putTips_spec (indegree : Nat → Nat) (hs : Sorts compare) (list : List Nat)
    (h : Waits compare queue l) (hlim : queue.insertionCtr + list.length ≤ CTR_LIMIT) :
    Waits compare (putTips indegree list queue)
        (l ++ list.filter fun c => decide (indegree c = 1)) ∧
      (putTips indegree list queue).insertionCtr ≤ queue.insertionCtr + list.length := by
  unfold putTips
  induction list generalizing queue l with
  | nil => simpa using h
  | cons c list ih =>
    simp only [List.length_cons] at hlim
    rw [List.foldl_cons, List.filter_cons]
    by_cases hc : indegree c = 1
    · obtain ⟨hput, hctr⟩ := h.put hs (by omega) c
      obtain ⟨hw, hctr'⟩ := ih hput (by omega)
      simp only [hc, decide_true, if_true, List.length_cons]
      exact ⟨by simpa using hw, by omega⟩
    · obtain ⟨hw, hctr'⟩ := ih h (by omega)
      simp only [hc, decide_false, if_false, Bool.false_eq_true, List.length_cons]
      exact ⟨hw, by omega⟩

theorem showParents_spec (hs : Sorts compare) {parents : List Nat} (h : Waits compare queue l)
    (hlim : queue.insertionCtr + parents.length ≤ CTR_LIMIT)
    (hdeg : ∀ c, indegree c = 0 ∨ parents.count c < indegree c) :
    ∃ indegree' queue' new, showParents parents (indegree, queue) = (indegree', queue') ∧
      Waits compare queue' (l ++ new) ∧
      queue'.insertionCtr ≤ queue.insertionCtr + parents.length ∧
      (∀ c, indegree' c = indegree c - parents.count c) ∧ new.Nodup ∧
      ∀ c, c ∈ new ↔ indegree c ≠ 1 ∧ indegree' c = 1 := by
  induction parents generalizing indegree queue l with
  | nil =>
    refine ⟨indegree, queue, [], rfl, by simpa using h, by simp, by simp, List.nodup_nil, ?_⟩
    intro c
    simp
  | cons p parents ih =>
    simp only [List.length_cons] at hlim
    rw [showParents]
    by_cases hp : indegree p = 0
    · rw [if_pos hp]
      have hdeg' : ∀ c, indegree c = 0 ∨ parents.count c < indegree c := by
        intro c
        have := hdeg c
        rw [List.count_cons] at this
        omega
      obtain ⟨indegree', queue', new, heq, hw, hctr, hat, hnd, hnew⟩ := ih h (by omega) hdeg'
      refine ⟨indegree', queue', new, heq, hw, ?_, ?_, hnd, hnew⟩
      · simp only [List.length_cons]
        omega
      · intro c
        rw [hat, List.count_cons]
        by_cases hc : p = c
        · subst hc
          omega
        · simp [hc]
    · rw [if_neg hp]
      have hone : 1 < indegree p := by
        have := hdeg p
        simp only [List.count_cons_self] at this
        omega
      have hdeg' : ∀ c, Function.update indegree p (indegree p - 1) c = 0 ∨
          parents.count c < Function.update indegree p (indegree p - 1) c := by
        intro c
        have := hdeg c
        rw [List.count_cons] at this
        by_cases hc : p = c
        · subst hc
          simp only [Function.update_self]
          simp at this
          omega
        · rw [Function.update_of_ne (Ne.symm hc)]
          simpa [hc] using this
      have hstep : ∃ q more, (if indegree p - 1 = 1 then prioQueuePut queue p else queue) = q ∧
          Waits compare q (l ++ more) ∧ q.insertionCtr ≤ queue.insertionCtr + 1 ∧
          (more = [p] ∧ indegree p = 2 ∨ more = [] ∧ indegree p ≠ 2) := by
        by_cases h2 : indegree p - 1 = 1
        · rw [if_pos h2]
          obtain ⟨hput, hctr⟩ := h.put hs (by omega) p
          exact ⟨_, [p], rfl, hput, hctr, .inl ⟨rfl, by omega⟩⟩
        · rw [if_neg h2]
          exact ⟨_, [], rfl, by simpa using h, by omega, .inr ⟨rfl, by omega⟩⟩
      obtain ⟨q, more, hq, hwq, hctrq, hmore⟩ := hstep
      rw [hq]
      obtain ⟨indegree', queue', new, heq, hw, hctr, hat, hnd, hnew⟩ := ih hwq (by omega) hdeg'
      refine ⟨indegree', queue', more ++ new, heq, by simpa using hw, ?_, ?_, ?_, ?_⟩
      · simp only [List.length_cons]
        omega
      · intro c
        rw [hat, List.count_cons]
        by_cases hc : p = c
        · subst hc
          simp
          omega
        · rw [Function.update_of_ne (Ne.symm hc)]
          simp [hc]
      · obtain ⟨rfl, h2⟩ | ⟨rfl, -⟩ := hmore
        · refine List.nodup_cons.mpr ⟨?_, hnd⟩
          show p ∉ new
          rw [hnew]
          simp [h2]
        · exact hnd
      · intro c
        rw [List.mem_append, hnew]
        by_cases hc : c = p
        · subst hc
          have hatc := hat c
          simp only [Function.update_self] at hatc ⊢
          obtain ⟨rfl, h2⟩ | ⟨rfl, h2⟩ := hmore
          · have := hdeg c
            simp only [List.count_cons_self] at this
            simp
            omega
          · simp
            omega
        · rw [Function.update_of_ne hc]
          obtain ⟨rfl, -⟩ | ⟨rfl, -⟩ := hmore
          · simp [hc]
          · simp

/-! ## The walk -/

/-- What holds when the commits in `out` are shown and those in `l` wait. -/
structure TopoInv (repo : Repo) (orig : List Nat) (indegree : Nat → Nat) (l out : List Nat) :
    Prop where
  nodup : out.Nodup
  sub : ∀ c ∈ out, c ∈ orig
  degree : ∀ c, indegree c = if c ∈ toCome orig out then 1 + edges repo (toCome orig out) c else 0
  waiting : l.Nodup
  ready : ∀ c, c ∈ l ↔ indegree c = 1
  order : out.Pairwise fun a b => ¬repo.Parent b a
  shown : ∀ c ∈ out, ∀ x ∈ toCome orig out, ¬repo.Parent x c

/-- A commit that waits is still to come, and none of its children is. -/
theorem TopoInv.tip (h : TopoInv repo orig indegree l out) {c : Nat} (hc : c ∈ l) :
    c ∈ toCome orig out ∧ ∀ x ∈ toCome orig out, ¬repo.Parent x c := by
  have hone := (h.ready c).mp hc
  rw [h.degree] at hone
  split at hone
  · rename_i hmem
    refine ⟨hmem, ?_⟩
    intro x hx hp
    have := edges_pos.mpr ⟨x, hx, hp⟩
    omega
  · omega

/-- Showing a commit that waits. -/
theorem TopoInv.step (h : TopoInv repo orig indegree l out) (hnd : orig.Nodup) {c : Nat}
    {rest new : List Nat} (hl : l.Perm (c :: rest)) {indegree' : Nat → Nat}
    (hat : ∀ q, indegree' q = indegree q - (repo.parents c).count q) (hnew : new.Nodup)
    (hmem : ∀ q, q ∈ new ↔ indegree q ≠ 1 ∧ indegree' q = 1) :
    TopoInv repo orig (Function.update indegree' c 0) (rest ++ new) (out ++ [c]) := by
  obtain ⟨hcome, htip⟩ := h.tip (hl.mem_iff.mpr (List.mem_cons_self ..))
  obtain ⟨hcorig, hcout⟩ := mem_toCome.mp hcome
  have hperm := toCome_perm hnd hcome
  have hself : (repo.parents c).count c = 0 := by
    rw [List.count_eq_zero]
    exact htip c hcome
  have hcome' : ∀ q, q ∈ toCome orig (out ++ [c]) ↔ q ∈ toCome orig out ∧ q ≠ c := by
    intro q
    simp only [mem_toCome, List.mem_append, List.mem_singleton, not_or]
    tauto
  have hwait := hl.nodup_iff.mp h.waiting
  rw [List.nodup_cons] at hwait
  have hone : ∀ q ∈ l, indegree' q = 1 := by
    intro q hq
    rw [hat, (h.ready q).mp hq]
    have : (repo.parents c).count q = 0 := by
      rw [List.count_eq_zero]
      exact (h.tip hq).2 c hcome
    omega
  refine ⟨?_, ?_, ?_, ?_, ?_, ?_, ?_⟩
  · refine List.nodup_append.mpr ⟨h.nodup, List.nodup_singleton c, ?_⟩
    intro a ha b hb
    rw [List.mem_singleton.mp hb]
    rintro rfl
    exact hcout ha
  · intro q hq
    rcases List.mem_append.mp hq with hq | hq
    · exact h.sub q hq
    · exact List.mem_singleton.mp hq ▸ hcorig
  · intro q
    by_cases hq : q = c
    · subst hq
      simp [hcome']
    · rw [Function.update_of_ne hq, hat, h.degree]
      have hedges := edges_toCome repo hnd hcome q
      by_cases hqc : q ∈ toCome orig out
      · rw [if_pos hqc, if_pos ((hcome' q).mpr ⟨hqc, hq⟩)]
        omega
      · rw [if_neg hqc, if_neg (fun hn => hqc ((hcome' q).mp hn).1), Nat.zero_sub]
  · refine List.nodup_append.mpr ⟨hwait.2, hnew, ?_⟩
    rintro a ha b hb rfl
    exact ((hmem a).mp hb).1 ((h.ready a).mp (hl.mem_iff.mpr (List.mem_cons_of_mem _ ha)))
  · intro q
    rw [List.mem_append, hmem]
    by_cases hq : q = c
    · subst hq
      have h1 := (h.ready q).mp (hl.mem_iff.mpr (List.mem_cons_self ..))
      simp [hwait.1, h1]
    · rw [Function.update_of_ne hq]
      constructor
      · rintro (hr | hr)
        · exact hone q (hl.mem_iff.mpr (List.mem_cons_of_mem _ hr))
        · exact hr.2
      · intro h1
        by_cases hq1 : indegree q = 1
        · left
          have := hl.mem_iff.mp ((h.ready q).mpr hq1)
          exact (List.mem_cons.mp this).resolve_left hq
        · exact .inr ⟨hq1, h1⟩
  · refine List.pairwise_append.mpr ⟨h.order, List.pairwise_singleton .., ?_⟩
    intro a ha b hb
    rw [List.mem_singleton.mp hb]
    exact h.shown a ha c hcome
  · intro a ha x hx
    obtain ⟨hx, hxc⟩ := (hcome' x).mp hx
    rcases List.mem_append.mp ha with ha | ha
    · exact h.shown a ha x hx
    · rw [List.mem_singleton.mp ha]
      exact htip x hx

/-- When nothing waits everything is shown. -/
theorem TopoInv.complete (h : TopoInv repo orig indegree [] out) : toCome orig out = [] := by
  rw [List.eq_nil_iff_forall_not_mem]
  intro c hc
  obtain ⟨d, hd, -, hfront⟩ := exists_front (P := (· ∈ toCome orig out)) repo.acyclic
    (List.finite_toSet _) hc
  have hnone : edges repo (toCome orig out) d = 0 := by
    by_contra hne
    obtain ⟨x, hx, hp⟩ := edges_pos.mp (Nat.pos_of_ne_zero hne)
    exact hfront x hx (.single hp)
  have hone : indegree d = 1 := by
    rw [h.degree, if_pos hd, hnone]
  simpa using (h.ready d).mpr hone

/-- The parents named by the commits that are to come. -/
def named (repo : Repo) (list : List Nat) : Nat := (list.map fun c => (repo.parents c).length).sum

theorem showAll_spec (hs : Sorts compare) (hnd : orig.Nodup) {fuel : Nat}
    (hinv : TopoInv repo orig indegree l out) (hw : Waits compare queue l)
    (hlim : queue.insertionCtr + named repo (toCome orig out) ≤ CTR_LIMIT)
    (hfuel : (toCome orig out).length < fuel) :
    ∃ list, showAll repo fuel indegree queue out = some list ∧ list.Perm orig ∧
      list.Pairwise fun a b => ¬repo.Parent b a := by
  induction fuel generalizing indegree queue l out with
  | zero => omega
  | succ fuel ih =>
    rw [showAll]
    obtain ⟨rfl, hget⟩ | ⟨c, rest, queue', hget, hl, hw', hctr⟩ := hw.get hs (by omega)
    · refine ⟨out, ?_, ?_, hinv.order⟩
      · rcases hg : prioQueueGet queue with ⟨got, queue'⟩
        rw [hg] at hget
        obtain rfl : got = none := hget
        rfl
      · refine (List.perm_ext_iff_of_nodup hinv.nodup hnd).mpr ?_
        intro a
        refine ⟨hinv.sub a, fun ha => ?_⟩
        by_contra hn
        have := mem_toCome.mpr ⟨ha, hn⟩
        simp [hinv.complete] at this
    · have hc := (hinv.tip (hl.mem_iff.mpr (List.mem_cons_self ..))).1
      have hperm := toCome_perm hnd hc
      have hnamed : named repo (toCome orig out) =
          (repo.parents c).length + named repo (toCome orig (out ++ [c])) := by
        unfold named
        rw [(hperm.map _).sum_eq, List.map_cons, List.sum_cons]
      have hlen := hperm.length_eq
      simp only [List.length_cons] at hlen
      have hdeg : ∀ q, indegree q = 0 ∨ (repo.parents c).count q < indegree q := by
        intro q
        have hedges := edges_toCome repo hnd hc q
        rw [hinv.degree]
        split <;> omega
      obtain ⟨indegree', queue₂, new, heq, hw₂, hctr₂, hat, hnew, hmem⟩ :=
        showParents_spec hs hw' (by omega) hdeg
      simp only [hget, heq]
      exact ih (hinv.step hnd hl hat hnew hmem) hw₂ (by omega) (by omega)

/-- The state in which the last loop starts. -/
theorem topo_start (hnd : orig.Nodup) :
    TopoInv repo orig (countAll repo orig (markAll orig))
      (orig.filter fun c => decide (countAll repo orig (markAll orig) c = 1)) [] := by
  have hdeg : ∀ c, countAll repo orig (markAll orig) c =
      if c ∈ orig then 1 + edges repo orig c else 0 := by
    intro c
    rw [countAll_at, markAll_at]
    by_cases hc : c ∈ orig <;> simp [hc]
  have hcome : toCome orig [] = orig := by simp [toCome]
  refine ⟨List.nodup_nil, by simp, ?_, hnd.filter _, ?_, List.Pairwise.nil, by simp⟩
  · rw [hcome]
    exact hdeg
  · intro c
    simp only [List.mem_filter, decide_eq_true_eq, and_iff_right_iff_imp]
    intro hone
    rw [hdeg] at hone
    by_contra hn
    simp [hn] at hone

theorem TopoInv.congr {l' : List Nat} (h : TopoInv repo orig indegree l out) (hl : l.Perm l') :
    TopoInv repo orig indegree l' out :=
  { h with
    waiting := hl.nodup_iff.mp h.waiting
    ready := fun c => hl.mem_iff.symm.trans (h.ready c) }

/-- **Topological order.**  In every order it offers, `sort_in_topological_order` shows each commit
of the list once, and none before a child of it. -/
theorem sorted_topologically (repo : Repo) (author_date : Nat → Nat) (sort_order : SortOrder)
    (orig : List Nat) (hnd : orig.Nodup)
    (hlim : orig.length + named repo orig ≤ 1073741824) (fuel : Nat) (hfuel : orig.length < fuel) :
    ∃ list, sortInTopologicalOrder repo author_date fuel sort_order orig = some list ∧
      list.Perm orig ∧ list.Pairwise fun a b => ¬repo.Parent b a := by
  have hlim' : orig.length + named repo orig ≤ CTR_LIMIT := hlim
  unfold sortInTopologicalOrder
  by_cases hempty : orig = []
  · subst hempty
    exact ⟨[], rfl, .refl _, .nil⟩
  · rw [if_neg (by simpa using hempty)]
    have hs : Sorts (sort_order.compare repo author_date) := by
      intro cmp hcmp
      cases sort_order with
      | graphOrder => cases hcmp
      | byCommitDate =>
        obtain rfl := Option.some.inj hcmp
        exact comparator_newer _
      | byAuthorDate =>
        obtain rfl := Option.some.inj hcmp
        exact comparator_newer _
    have hcome : toCome orig [] = orig := by simp [toCome]
    have hwempty : Waits (sort_order.compare repo author_date)
        ⟨sort_order.compare repo author_date, 0, fun _ => ⟨0, 0⟩, 0⟩ [] := by
      refine ⟨?_, rfl⟩
      cases sort_order.compare repo author_date with
      | none => exact .stack
      | some cmp =>
        exact .heap (by simp [cells]) .nil (by simp)
          (by intro i _ hi; exact absurd hi (Nat.not_lt_zero i))
    obtain ⟨hw, hctr⟩ := putTips_spec (countAll repo orig (markAll orig)) hs
      orig hwempty (by simp only; omega)
    simp only [Nat.zero_add, List.nil_append] at hctr hw
    by_cases hgraph : sort_order = .graphOrder
    · subst hgraph
      obtain ⟨queue', hrev, hw', hctr'⟩ := Waits.reverse hw
      simp only [if_true, hrev, Option.bind_eq_bind, Option.bind_some]
      exact showAll_spec hs hnd ((topo_start hnd).congr (List.reverse_perm _).symm) hw'
        (by rw [hcome]; omega) (by rw [hcome]; omega)
    · simp only [hgraph, if_false, Option.bind_eq_bind, Option.bind_some]
      exact showAll_spec hs hnd (topo_start hnd) hw (by rw [hcome]; omega) (by rw [hcome]; omega)

theorem sorted_topologically_skewed :
    ∃ list, sortInTopologicalOrder skewed (fun _ => 0) 9 .byCommitDate [0, 1, 2, 3] = some list ∧
      list.Perm [0, 1, 2, 3] ∧ list.Pairwise fun a b => ¬skewed.Parent b a :=
  sorted_topologically skewed (fun _ => 0) .byCommitDate [0, 1, 2, 3] (by decide) (by decide) 9
    (by decide)

end Git
