import Ewokos.Git.PrioQueue
import Ewokos.Lib.Ancestry

/-!
# Commits

The commits of a repository as git's `commit.c` and `commit-reach.c` see them.

* `Repo` — parents, dates and generation numbers; `Repo.Parent`, `Reach`.
* `compareCommitsByCommitDate`, `compareCommitsByGenThenCommitDate`,
  `commitListInsertByDate`.
* `Flags` — the marks of `commit-reach.c`; `clearCommitMarksMany` takes them off again,
  `clear_both`.
-/

set_option autoImplicit false

namespace Git

open Relation Heap Ancestry

def GENERATION_NUMBER_INFINITY : Nat := 9223372036854775807

/-- The commits `0 … count - 1`.  History has no cycles, and generation numbers do not grow towards
the parents.  `parses` answers `repo_parse_commit`. -/
structure Repo where
  count : Nat
  parents : Nat → List Nat
  date : Nat → Nat
  generation : Nat → Nat
  parses : Nat → Bool
  correctedCommitDates : Bool
  generationNumbersEnabled : Bool
  closed : ∀ c, ∀ p ∈ parents c, p < count
  acyclic : ∀ c, ¬TransGen (fun c p => p ∈ parents c) c c
  generation_le : ∀ c, generation c ≤ GENERATION_NUMBER_INFINITY
  generation_parent : ∀ c, ∀ p ∈ parents c, generation p ≤ generation c

namespace Repo

variable {repo : Repo} {c d : Nat}

def Parent (repo : Repo) (c p : Nat) : Prop := p ∈ repo.parents c

/-- `c` is an ancestor of `d`, or `d` itself. -/
def Reach (repo : Repo) (d c : Nat) : Prop := ReflTransGen repo.Parent d c

theorem Reach.generation_le (h : repo.Reach d c) : repo.generation c ≤ repo.generation d := by
  induction h with
  | refl => exact Nat.le_refl _
  | tail _ hp ih => exact (repo.generation_parent _ _ hp).trans ih

theorem Reach.lt_count (h : repo.Reach d c) (hd : d < repo.count) : c < repo.count := by
  induction h with
  | refl => exact hd
  | tail _ hp _ => exact repo.closed _ _ hp

theorem no_cycle (h : TransGen repo.Parent c d) (h' : repo.Reach d c) : False :=
  repo.acyclic c (h.trans_left h')

end Repo

/-- Two commits on top of commit 1, and one of them on top of the root 0 as well, whose clock was
ahead of all. -/
def skewed : Repo where
  count := 4
  parents := fun c => if c = 1 then [0] else if c = 2 then [1] else if c = 3 then [1, 0] else []
  date := fun c => if c = 0 then 9 else c
  generation := fun _ => GENERATION_NUMBER_INFINITY
  parses := fun _ => true
  correctedCommitDates := false
  generationNumbersEnabled := false
  closed := by
    intro c p hp
    split_ifs at hp <;> simp at hp <;> omega
  acyclic := by
    refine acyclic_of_rank id ?_
    intro c p hp
    split_ifs at hp <;> simp at hp <;> simp only [id] <;> omega
  generation_le := fun _ => Nat.le_refl _
  generation_parent := fun _ _ _ => Nat.le_refl _

/-- Two merges of commit 2 and the root 0, with topological levels; 2 lies two steps on top of the
root, whose clock was ahead of all. -/
def graded : Repo where
  count := 5
  parents := fun c => if c = 1 then [0] else if c = 2 then [1] else
    if c = 3 ∨ c = 4 then [2, 0] else []
  date := fun c => if c = 0 then 9 else c
  generation := fun c => if c ≤ 2 then c + 1 else 4
  parses := fun _ => true
  correctedCommitDates := false
  generationNumbersEnabled := true
  closed := by
    intro c p hp
    split_ifs at hp <;> simp at hp <;> omega
  acyclic := by
    refine acyclic_of_rank id ?_
    intro c p hp
    split_ifs at hp <;> simp at hp <;> simp only [id] <;> omega
  generation_le := by
    intro c
    unfold GENERATION_NUMBER_INFINITY
    split_ifs <;> omega
  generation_parent := by
    intro c p hp
    split_ifs at hp <;> simp at hp
    · simp [*]
    · simp [*]
    · obtain rfl | rfl := hp <;> split_ifs <;> omega

/-! ## Order -/

/-- Newer commits come first. -/
def newerFirst (date : Nat → Nat) (a b : Nat) : Int :=
  if date a < date b then 1
  else if date b < date a then -1
  else 0

/-- `compare_commits_by_commit_date`. -/
def compareCommitsByCommitDate (repo : Repo) : Nat → Nat → Int := newerFirst repo.date

/-- `compare_commits_by_author_date`; `author_date` is the slab. -/
def compareCommitsByAuthorDate (author_date : Nat → Nat) : Nat → Nat → Int :=
  newerFirst author_date

/-- `compare_commits_by_gen_then_commit_date`. -/
def compareCommitsByGenThenCommitDate (repo : Repo) (a b : Nat) : Int :=
  if repo.generation a < repo.generation b then 1
  else if repo.generation b < repo.generation a then -1
  else compareCommitsByCommitDate repo a b

theorem comparator_newer (date : Nat → Nat) : Comparator (fun _ => True) (newerFirst date) := by
  constructor
  · intro a b _ _
    unfold newerFirst
    split_ifs <;> omega
  · intro a b c _ _ _ hab hbc
    unfold newerFirst at *
    split_ifs at hab hbc ⊢ <;> omega

theorem gen_then_date_le (repo : Repo) (a b : Nat) :
    compareCommitsByGenThenCommitDate repo a b ≤ 0 ↔
      repo.generation b < repo.generation a ∨
        repo.generation b = repo.generation a ∧ repo.date b ≤ repo.date a := by
  unfold compareCommitsByGenThenCommitDate compareCommitsByCommitDate newerFirst
  split_ifs <;> omega

theorem gen_then_date_nonneg (repo : Repo) (a b : Nat) :
    0 ≤ compareCommitsByGenThenCommitDate repo a b ↔
      repo.generation a < repo.generation b ∨
        repo.generation b = repo.generation a ∧ repo.date a ≤ repo.date b := by
  unfold compareCommitsByGenThenCommitDate compareCommitsByCommitDate newerFirst
  split_ifs <;> omega

theorem comparator_gen_then_date (repo : Repo) :
    Comparator (fun _ => True) (compareCommitsByGenThenCommitDate repo) := by
  constructor
  · intro a b _ _
    rw [gen_then_date_le, gen_then_date_nonneg]
    omega
  · intro a b c _ _ _ hab hbc
    rw [gen_then_date_le] at *
    omega

/-- `commit_list_insert_by_date`. -/
def commitListInsertByDate (repo : Repo) (item : Nat) : List Nat → List Nat
  | [] => [item]
  | p :: list =>
    if repo.date p < repo.date item then item :: p :: list
    else p :: commitListInsertByDate repo item list

theorem insert_by_date_perm (repo : Repo) (item : Nat) (list : List Nat) :
    (commitListInsertByDate repo item list).Perm (item :: list) := by
  induction list with
  | nil => exact .refl _
  | cons p list ih =>
    rw [commitListInsertByDate]
    split
    · exact .refl _
    · exact (ih.cons p).trans (.swap item p list)

/-- The newest commits come first. -/
def ByDate (repo : Repo) (list : List Nat) : Prop :=
  list.Pairwise fun a b => repo.date b ≤ repo.date a

theorem insert_by_date_sorted {repo : Repo} {item : Nat} {list : List Nat} (h : ByDate repo list) :
    ByDate repo (commitListInsertByDate repo item list) := by
  induction list with
  | nil => exact List.pairwise_singleton ..
  | cons p list ih =>
    obtain ⟨hp, hlist⟩ := List.pairwise_cons.mp h
    rw [commitListInsertByDate]
    split
    · rename_i hlt
      refine List.pairwise_cons.mpr ⟨?_, h⟩
      intro q hq
      rcases List.mem_cons.mp hq with rfl | hq
      · omega
      · have := hp q hq
        omega
    · rename_i hge
      refine List.pairwise_cons.mpr ⟨?_, ih hlist⟩
      intro q hq
      rcases List.mem_cons.mp ((insert_by_date_perm repo item list).mem_iff.mp hq) with rfl | hq
      · omega
      · exact hp q hq

/-- `commit_list_insert_by_date` of one commit after the other. -/
def insertAll (repo : Repo) (items list : List Nat) : List Nat :=
  items.foldl (fun list item => commitListInsertByDate repo item list) list

theorem insertAll_perm (repo : Repo) (items list : List Nat) :
    (insertAll repo items list).Perm (items ++ list) := by
  unfold insertAll
  induction items generalizing list with
  | nil => exact .refl _
  | cons item items ih =>
    refine (ih _).trans ?_
    refine ((insert_by_date_perm repo item list).append_left items).trans ?_
    exact List.perm_middle

theorem insertAll_sorted {repo : Repo} {items list : List Nat} (h : ByDate repo list) :
    ByDate repo (insertAll repo items list) := by
  unfold insertAll
  induction items generalizing list with
  | nil => exact h
  | cons item items ih => exact ih (insert_by_date_sorted h)

/-! ## Marks -/

/-- `PARENT1`, `PARENT2`, `STALE` and `RESULT` of a commit's flags. -/
structure Flags where
  parent1 : Bool
  parent2 : Bool
  stale : Bool
  result : Bool
  deriving DecidableEq, Repr

/-- No mark. -/
def Flags.none : Flags := ⟨false, false, false, false⟩

variable {repo : Repo}

/-- `clear_commit_marks_1` with all marks, and `*plist`. -/
def clearCommitMarks1 (repo : Repo) :
    Nat → (Nat → Flags) → List Nat → Nat → Option ((Nat → Flags) × List Nat)
  | 0, _, _, _ => none
  | fuel + 1, flags, plist, commit =>
    if flags commit = .none then some (flags, plist)
    else
      let flags := Function.update flags commit .none
      match repo.parents commit with
      | [] => some (flags, plist)
      | first :: rest =>
        let plist := rest.foldl (fun plist p => if flags p = .none then plist else p :: plist) plist
        clearCommitMarks1 repo fuel flags plist first

/-- The first loop of `clear_commit_marks_many`. -/
def clearEach (repo : Repo) (fuel : Nat) :
    (Nat → Flags) → List Nat → List Nat → Option ((Nat → Flags) × List Nat)
  | flags, plist, [] => some (flags, plist)
  | flags, plist, commit :: commits => do
    let (flags, plist) ← clearCommitMarks1 repo fuel flags plist commit
    clearEach repo fuel flags plist commits

/-- The second loop of `clear_commit_marks_many`. -/
def clearList (repo : Repo) : Nat → (Nat → Flags) → List Nat → Option (Nat → Flags)
  | 0, _, _ => none
  | _ + 1, flags, [] => some flags
  | fuel + 1, flags, commit :: plist => do
    let (flags, plist) ← clearCommitMarks1 repo fuel flags plist commit
    clearList repo fuel flags plist

/-- `clear_commit_marks_many`. -/
def clearCommitMarksMany (repo : Repo) (fuel : Nat) (flags : Nat → Flags)
    (commits : List Nat) : Option (Nat → Flags) := do
  let (flags, list) ← clearEach repo fuel flags [] commits
  clearList repo fuel flags list

/-! ## Taking the marks off -/

/-- The number of marked commits. -/
def marked (repo : Repo) (flags : Nat → Flags) : Nat :=
  ((Finset.range repo.count).filter fun c => flags c ≠ .none).card

/-- The most parents a commit has. -/
def Repo.width (repo : Repo) : Nat :=
  (Finset.range repo.count).sup fun c => (repo.parents c).length

/-- Only commits of the repository are marked. -/
def Bounded (repo : Repo) (flags : Nat → Flags) : Prop := ∀ c, flags c ≠ .none → c < repo.count

/-- There is a way down from `s` to `m` over marked commits. -/
def Way (repo : Repo) (flags : Nat → Flags) (s m : Nat) : Prop :=
  flags s ≠ .none ∧ ReflTransGen (fun a b => repo.Parent a b ∧ flags b ≠ .none) s m

/-- There is a way to every marked commit. -/
def Covered (repo : Repo) (flags : Nat → Flags) (pending : List Nat) : Prop :=
  ∀ m, flags m ≠ .none → ∃ s ∈ pending, Way repo flags s m

variable {flags : Nat → Flags} {commit : Nat}

theorem marked_clear (h : flags commit ≠ .none) (hlt : commit < repo.count) :
    marked repo (Function.update flags commit .none) + 1 = marked repo flags := by
  have heq : ((Finset.range repo.count).filter fun c =>
      Function.update flags commit .none c ≠ .none) =
      ((Finset.range repo.count).filter fun c => flags c ≠ .none).erase commit := by
    ext c
    by_cases hc : c = commit
    · simp [hc]
    · simp [hc]
  unfold marked
  rw [heq, Finset.card_erase_add_one]
  simp [h, hlt]

theorem marked_le : marked repo flags ≤ repo.count :=
  (Finset.card_filter_le ..).trans (Finset.card_range _).le

theorem Bounded.clear (h : Bounded repo flags) :
    Bounded repo (Function.update flags commit .none) := by
  intro c hc
  by_cases he : c = commit
  · simp [he] at hc
  · exact h c (by simpa [he] using hc)

theorem length_parents_le (hlt : commit < repo.count) :
    (repo.parents commit).length ≤ repo.width :=
  Finset.le_sup (f := fun c => (repo.parents c).length) (Finset.mem_range.mpr hlt)

/-- More marks do not block a way. -/
theorem Way.mono {flags' : Nat → Flags} {s m : Nat} (h : Way repo flags s m)
    (hmarks : ∀ c, flags c ≠ .none → flags' c ≠ .none) : Way repo flags' s m :=
  ⟨hmarks s h.1, ReflTransGen.mono (fun _ b hab => ⟨hab.1, hmarks b hab.2⟩) s m h.2⟩

/-- A way avoids a commit, or goes on from one of its parents. -/
theorem Way.avoid {s m : Nat} (h : Way repo flags s m) (hm : m ≠ commit) :
    Way repo (Function.update flags commit .none) s m ∨
      ∃ p, repo.Parent commit p ∧ Way repo (Function.update flags commit .none) p m := by
  obtain ⟨hs, hway⟩ := h
  have hkeep : ∀ c, c ≠ commit → flags c ≠ .none →
      Function.update flags commit .none c ≠ .none := by
    intro c hc hne
    simpa [hc] using hne
  induction hway using ReflTransGen.head_induction_on with
  | refl => exact .inl ⟨hkeep m hm hs, .refl⟩
  | @head a b hab _ ih =>
    obtain hb | hp := ih hab.2
    · by_cases ha : a = commit
      · exact .inr ⟨b, ha ▸ hab.1, hb⟩
      · exact .inl ⟨hkeep a ha hs, .head ⟨hab.1, hb.1⟩ hb.2⟩
    · exact .inr hp

/-- Clearing a commit leaves its marked parents to be done. -/
theorem Covered.clear {pending pending' : List Nat} (h : Covered repo flags (commit :: pending))
    (hold : ∀ c ∈ pending, c ∈ pending')
    (hnew : ∀ p, repo.Parent commit p → Function.update flags commit .none p ≠ .none →
      p ∈ pending') : Covered repo (Function.update flags commit .none) pending' := by
  intro m hm
  have hne : m ≠ commit := by
    rintro rfl
    simp at hm
  obtain ⟨s, hs, hway⟩ := h m (by simpa [hne] using hm)
  obtain hway | ⟨p, hp, hway⟩ := hway.avoid hne
  · rcases List.mem_cons.mp hs with rfl | hs
    · exact absurd hway.1 (by simp)
    · exact ⟨s, hold s hs, hway⟩
  · exact ⟨p, hnew p hp hway.1, hway⟩

theorem Covered.drop {pending : List Nat} (h : Covered repo flags (commit :: pending))
    (hc : flags commit = .none) : Covered repo flags pending := by
  intro m hm
  obtain ⟨s, hs, hway⟩ := h m hm
  rcases List.mem_cons.mp hs with rfl | hs
  · exact absurd hc hway.1
  · exact ⟨s, hs, hway⟩

/-- The parents that are put on the list. -/
theorem mem_pushed (rest plist : List Nat) :
    ∀ c, c ∈ rest.foldl (fun plist p => if flags p = .none then plist else p :: plist) plist ↔
      c ∈ plist ∨ c ∈ rest ∧ flags c ≠ .none := by
  induction rest generalizing plist with
  | nil => simp
  | cons p rest ih =>
    intro c
    rw [List.foldl_cons, ih]
    by_cases hp : flags p = .none
    · rw [if_pos hp]
      constructor
      · rintro (h | h)
        · exact .inl h
        · exact .inr ⟨List.mem_cons_of_mem _ h.1, h.2⟩
      · rintro (h | ⟨h, hc⟩)
        · exact .inl h
        · rcases List.mem_cons.mp h with rfl | h
          · exact absurd hp hc
          · exact .inr ⟨h, hc⟩
    · rw [if_neg hp, List.mem_cons, List.mem_cons]
      constructor
      · rintro ((rfl | h) | h)
        · exact .inr ⟨.inl rfl, hp⟩
        · exact .inl h
        · exact .inr ⟨.inr h.1, h.2⟩
      · rintro (h | ⟨rfl | h, hc⟩)
        · exact .inl (.inr h)
        · exact .inl (.inl rfl)
        · exact .inr ⟨h, hc⟩

theorem length_pushed (rest plist : List Nat) :
    (rest.foldl (fun plist p => if flags p = .none then plist else p :: plist) plist).length ≤
      plist.length + rest.length := by
  induction rest generalizing plist with
  | nil => simp
  | cons p rest ih =>
    refine (ih _).trans ?_
    dsimp only
    split
    · simp only [List.length_cons]
      omega
    · simp only [List.length_cons]
      omega

/-- What is left to do. -/
def toClear (repo : Repo) (flags : Nat → Flags) (plist : List Nat) : Nat :=
  marked repo flags * (repo.width + 1) + plist.length

theorem clearCommitMarks1_spec {fuel : Nat} {plist others : List Nat}
    (hb : Bounded repo flags) (hcov : Covered repo flags (commit :: (plist ++ others)))
    (hf : marked repo flags < fuel) :
    ∃ flags' plist', clearCommitMarks1 repo fuel flags plist commit = some (flags', plist') ∧
      Bounded repo flags' ∧ Covered repo flags' (plist' ++ others) ∧
      toClear repo flags' plist' ≤ toClear repo flags plist := by
  induction fuel generalizing flags plist commit with
  | zero => omega
  | succ fuel ih =>
    rw [clearCommitMarks1]
    by_cases hc : flags commit = .none
    · rw [if_pos hc]
      exact ⟨flags, plist, rfl, hb, hcov.drop hc, Nat.le_refl _⟩
    · rw [if_neg hc]
      have hlt := hb commit hc
      have hlen := length_parents_le hlt
      set flags' := Function.update flags commit Flags.none with hflags'
      have hmarked : marked repo flags' + 1 = marked repo flags := marked_clear hc hlt
      have hless : toClear repo flags' plist + (repo.width + 1) = toClear repo flags plist := by
        unfold toClear
        rw [← hmarked]
        ring
      cases hpar : repo.parents commit with
      | nil =>
        refine ⟨flags', plist, rfl, hb.clear, ?_, by omega⟩
        exact hcov.clear (fun c hc => hc) (by simp [Repo.Parent, hpar])
      | cons first rest =>
        simp only
        set plist' := rest.foldl (fun plist p => if flags' p = .none then plist else p :: plist)
          plist with hplist'
        have hgrow : plist'.length ≤ plist.length + rest.length := length_pushed rest plist
        have hcov' : Covered repo flags' (first :: (plist' ++ others)) := by
          refine hcov.clear ?_ ?_
          · intro c hc
            rcases List.mem_append.mp hc with hc | hc
            · exact List.mem_cons_of_mem _ (List.mem_append_left _
                ((mem_pushed rest plist c).mpr (.inl hc)))
            · exact List.mem_cons_of_mem _ (List.mem_append_right _ hc)
          · intro p hp hne
            rw [Repo.Parent, hpar] at hp
            rcases List.mem_cons.mp hp with rfl | hp
            · exact List.mem_cons_self ..
            · exact List.mem_cons_of_mem _ (List.mem_append_left _
                ((mem_pushed rest plist p).mpr (.inr ⟨hp, hne⟩)))
        obtain ⟨flags₂, plist₂, heq, hb₂, hcov₂, hle⟩ :=
          ih (show Bounded repo flags' from hb.clear) hcov' (by omega)
        refine ⟨flags₂, plist₂, heq, hb₂, hcov₂, hle.trans ?_⟩
        have hlen' : rest.length + 1 ≤ repo.width := by simpa [hpar] using hlen
        unfold toClear at *
        omega

theorem clearEach_spec {fuel : Nat} (plist : List Nat) {commits others : List Nat}
    (hb : Bounded repo flags) (hcov : Covered repo flags (plist ++ (commits ++ others)))
    (hf : repo.count < fuel) :
    ∃ flags' plist', clearEach repo fuel flags plist commits = some (flags', plist') ∧
      Bounded repo flags' ∧ Covered repo flags' (plist' ++ others) ∧
      toClear repo flags' plist' ≤ toClear repo flags plist := by
  induction commits generalizing flags plist with
  | nil => exact ⟨flags, plist, rfl, hb, hcov, Nat.le_refl _⟩
  | cons commit commits ih =>
    have hcov' : Covered repo flags (commit :: (plist ++ (commits ++ others))) := by
      intro m hm
      obtain ⟨s, hs, hway⟩ := hcov m hm
      exact ⟨s, List.perm_middle.mem_iff.mp hs, hway⟩
    obtain ⟨flags₁, plist₁, heq, hb₁, hcov₁, hle₁⟩ := clearCommitMarks1_spec hb hcov'
      (Nat.lt_of_le_of_lt marked_le hf)
    obtain ⟨flags₂, plist₂, heq₂, hb₂, hcov₂, hle₂⟩ := ih plist₁ hb₁ hcov₁
    exact ⟨flags₂, plist₂, by simp [clearEach, heq, heq₂], hb₂, hcov₂, hle₂.trans hle₁⟩

theorem clearList_spec {fuel : Nat} {plist others : List Nat} (hb : Bounded repo flags)
    (hcov : Covered repo flags (plist ++ others)) (hf : toClear repo flags plist < fuel) :
    ∃ flags', clearList repo fuel flags plist = some flags' ∧ Bounded repo flags' ∧
      Covered repo flags' others := by
  induction fuel generalizing flags plist with
  | zero => omega
  | succ fuel ih =>
    cases plist with
    | nil => exact ⟨flags, rfl, hb, hcov⟩
    | cons commit plist =>
      have hpop : toClear repo flags plist + 1 = toClear repo flags (commit :: plist) := by
        simp [toClear, Nat.add_assoc]
      have hmarked : marked repo flags ≤ toClear repo flags plist := by
        unfold toClear
        have := Nat.le_mul_of_pos_right (marked repo flags) (show 0 < repo.width + 1 by omega)
        omega
      obtain ⟨flags₁, plist₁, heq, hb₁, hcov₁, hle⟩ := clearCommitMarks1_spec
        hb hcov (show _ < fuel by omega)
      obtain ⟨flags', heq', hb', hcov'⟩ := ih hb₁ hcov₁ (by omega)
      exact ⟨flags', by simp [clearList, heq, heq'], hb', hcov'⟩

/-- Clearing the marks from some commits on leaves the marks there is a way to from the others. -/
theorem clearCommitMarksMany_spec {fuel : Nat} (commits others : List Nat)
    (hb : Bounded repo flags) (hcov : Covered repo flags (commits ++ others))
    (hf : repo.count * (repo.width + 1) < fuel) :
    ∃ flags', clearCommitMarksMany repo fuel flags commits = some flags' ∧
      Bounded repo flags' ∧ Covered repo flags' others := by
  have hcount : repo.count < fuel := by
    have := Nat.le_mul_of_pos_right repo.count (show 0 < repo.width + 1 by omega)
    omega
  obtain ⟨flags₁, plist, heq, hb₁, hcov₁, hle⟩ :=
    clearEach_spec [] hb hcov hcount
  have hstart : toClear repo flags [] ≤ repo.count * (repo.width + 1) := by
    simp only [toClear, List.length_nil, Nat.add_zero]
    exact Nat.mul_le_mul_right _ marked_le
  obtain ⟨flags', heq', hb', hcov'⟩ := clearList_spec hb₁ hcov₁ (show _ < fuel by omega)
  exact ⟨flags', by simp [clearCommitMarksMany, heq, heq'], hb', hcov'⟩

theorem Covered.clean (h : Covered repo flags []) : flags = fun _ => .none := by
  funext c
  by_contra hc
  obtain ⟨s, hs, -⟩ := h c hc
  simp at hs

/-- When there is a way from `one` or one of `twos` to every marked commit, all marks go. -/
theorem clear_both {fuel one : Nat} {twos : List Nat} (hb : Bounded repo flags)
    (hcov : Covered repo flags (one :: twos)) (hf : repo.count * (repo.width + 1) < fuel) :
    ∃ flags₁, clearCommitMarksMany repo fuel flags [one] = some flags₁ ∧
      clearCommitMarksMany repo fuel flags₁ twos = some fun _ => .none := by
  obtain ⟨flags₁, heq, hb₁, hcov₁⟩ := clearCommitMarksMany_spec [one] twos hb hcov hf
  obtain ⟨flags₂, heq₂, -, hcov₂⟩ :=
    clearCommitMarksMany_spec twos [] hb₁ (by simpa using hcov₁) hf
  exact ⟨flags₁, heq, by rw [heq₂, hcov₂.clean]⟩

end Git
