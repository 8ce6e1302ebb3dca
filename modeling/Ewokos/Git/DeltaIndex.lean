import Ewokos.Git.Rabin

/-!
# git: the index of a delta source

`create_delta_index` of `bin/git/upstream/diff-delta.c`.

* A bucket is the list of its entries, the newest first; the chain of `next` pointers and the packed
  array hold them in this order.  An entry points into the buffer by an offset.
* `cull_spec` — the loop that thins a bucket out leaves 64 entries and never follows `NULL`.
* `Indexed` — what is in the buckets while the blocks are taken in, from the last to the first.

Main result: `index_culled`.
-/

set_option autoImplicit false

namespace Git

/-- `HASH_LIMIT`. -/
def HASH_LIMIT : Nat := 64

/-- `struct index_entry`. -/
structure IndexEntry where
  ptr : Nat
  val : BitVec 32
  deriving DecidableEq, Repr

/-- `struct delta_index`; `hash` holds the buckets. -/
structure DeltaIndex where
  srcBuf : List UInt8
  hashMask : BitVec 32
  hash : List (List IndexEntry)
  deriving DecidableEq, Repr

/-- The fingerprint of the `RABIN_WINDOW` bytes from `start` on. -/
def window (mem : List UInt8) (start : Nat) : Option (BitVec 32) :=
  if start + RABIN_WINDOW ≤ mem.length then rabinAll 0 ((mem.drop start).take RABIN_WINDOW)
  else none

/-- The loop that finds the size of the table. -/
def tableBits (hsize : Nat) : Nat → Nat → Nat
  | 0, i => i
  | fuel + 1, i => if 2 ^ i < hsize then tableBits hsize fuel (i + 1) else i

/-- The variables of the loop over the blocks. -/
structure Building where
  hash : Nat → List IndexEntry
  hashCount : Nat → Nat
  entries : Nat
  prevVal : BitVec 32

/-- One block; `entry[-1]` is the newest entry of its bucket, and the newest of all. -/
def indexBlock (buffer : List UInt8) (hmask : BitVec 32) (data : Nat) (s : Building) :
    Option Building := do
  let val ← window buffer (data + 1)
  let i := (val &&& hmask).toNat
  if val = s.prevVal then
    match s.hash i with
    | [] => none
    | last :: older =>
      some { s with
        hash := Function.update s.hash i ({ last with ptr := data + RABIN_WINDOW } :: older)
        entries := s.entries - 1 }
  else
    some { s with
      hash := Function.update s.hash i (⟨data + RABIN_WINDOW, val⟩ :: s.hash i)
      hashCount := Function.update s.hashCount i (s.hashCount i + 1)
      prevVal := val }

/-- The blocks from number `k - 1` down to the first. -/
def indexBlocks (buffer : List UInt8) (hmask : BitVec 32) : Nat → Building → Option Building
  | 0, s => some s
  | k + 1, s => do
    let s ← indexBlock buffer hmask (k * RABIN_WINDOW) s
    indexBlocks buffer hmask k s

/-- The inner loop of the culling: what follows the entry it stops at. -/
def skip : List IndexEntry → Int → Option (List IndexEntry × Int)
  | [], _ => none
  | _ :: next, acc =>
    let acc := acc - HASH_LIMIT
    if 0 < acc then skip next acc else some (next, acc)

/-- The outer loop of the culling, from an entry that is not `NULL`. -/
def cull (count : Nat) : Nat → Int → List IndexEntry → Option (List IndexEntry)
  | fuel + 1, acc, keep :: next => do
    let acc := acc + (count - HASH_LIMIT)
    let (next, acc) ← (if 0 < acc then skip next acc else some (next, acc))
    match next with
    | [] => some [keep]
    | entry :: next => (cull count fuel acc (entry :: next)).map (keep :: ·)
  | _, _, _ => none

/-- The culling of the buckets with these numbers. -/
def cullBuckets (hashCount : Nat → Nat) : List Nat → (Nat → List IndexEntry) → Nat →
    Option ((Nat → List IndexEntry) × Nat)
  | [], hash, entries => some (hash, entries)
  | i :: buckets, hash, entries =>
    if hashCount i ≤ HASH_LIMIT then cullBuckets hashCount buckets hash entries
    else do
      let bucket ← cull (hashCount i) (hashCount i) 0 (hash i)
      cullBuckets hashCount buckets (Function.update hash i bucket)
        (entries - (hashCount i - HASH_LIMIT))

/-- The number of blocks that are taken into the index. -/
def blockCount (bufsize : Nat) : Nat :=
  if 0xffffffff ≤ bufsize then 0xfffffffe / RABIN_WINDOW else (bufsize - 1) / RABIN_WINDOW

/-- `create_delta_index` when its allocations succeed.  Its `NULL` is `some none`.  There is no value
when memory is read outside the buffer or through `NULL`, or when the assertion at the end fails. -/
def createDeltaIndex (buffer : List UInt8) : Option (Option DeltaIndex) :=
  if buffer.length = 0 then some none
  else do
    let entries := blockCount buffer.length
    let bits := tableBits (entries / 4) 32 4
    let hsize := 2 ^ bits
    let hmask : BitVec 32 := BitVec.ofNat 32 (hsize - 1)
    let s ← indexBlocks buffer hmask entries ⟨fun _ => [], fun _ => 0, entries, ~~~0⟩
    let (hash, entries) ← cullBuckets s.hashCount (List.range hsize) s.hash s.entries
    let packed := (List.range hsize).map hash
    if packed.flatten.length = entries then some (some ⟨buffer, hmask, packed⟩) else none

/-! ## Culling -/

theorem hash_limit : (HASH_LIMIT : Int) = 64 := rfl

/-- The inner loop drops an entry for every 64 of `acc`, and one for what is left of it. -/
theorem skip_spec {next : List IndexEntry} {acc : Int} (hpos : 0 < acc)
    (hle : acc ≤ 64 * next.length) :
    ∃ rest acc', skip next acc = some (rest, acc') ∧ rest <:+ next ∧
      64 * (rest.length : Int) - acc' = 64 * next.length - acc ∧ -64 < acc' ∧ acc' ≤ 0 := by
  induction next generalizing acc with
  | nil => simp at hle; omega
  | cons e next ih =>
    rw [List.length_cons] at hle ⊢
    have hlim := hash_limit
    rw [skip]
    by_cases hpos' : 0 < acc - (HASH_LIMIT : Int)
    · rw [if_pos hpos']
      obtain ⟨rest, acc', heq, hsuf, hsum, hgt, hle'⟩ := ih hpos' (by push_cast at hle ⊢; omega)
      exact ⟨rest, acc', heq, hsuf.trans (List.suffix_cons e next),
        by push_cast at hsum ⊢; omega, hgt, hle'⟩
    · rw [if_neg hpos']
      exact ⟨next, _, rfl, List.suffix_cons e next, by push_cast; omega, by omega, by omega⟩

/-- When `r` entries are still to be kept, that many are kept of the rest. -/
theorem cull_spec {count fuel r : Nat} {acc : Int} {l : List IndexEntry} (hcount : 64 < count)
    (hl : l ≠ []) (hfuel : l.length ≤ fuel) (hgt : -64 < acc) (hle : acc ≤ 0)
    (hinv : 64 * (l.length : Int) = r * count + acc) :
    ∃ l', cull count fuel acc l = some l' ∧ l'.Sublist l ∧ l'.length = r := by
  induction fuel generalizing r acc l with
  | zero => exact absurd (List.length_eq_zero_iff.mp (by omega)) hl
  | succ fuel ih =>
    cases l with
    | nil => exact absurd rfl hl
    | cons keep next =>
      rw [List.length_cons] at hfuel hinv
      obtain ⟨r, rfl⟩ : ∃ r', r = r' + 1 := by
        cases r with
        | zero => simp at hinv; omega
        | succ r => exact ⟨r, rfl⟩
      have hmul : ((r + 1 : Nat) : Int) * count = r * count + count := by push_cast; ring
      have hpos : 0 ≤ (r : Int) * count := by positivity
      rw [hmul] at hinv
      -- After the step the account is even again, up to less than one entry.
      have hstep : ∃ rest acc',
          (if 0 < acc + (count - HASH_LIMIT) then skip next (acc + (count - HASH_LIMIT))
            else some (next, acc + (count - HASH_LIMIT))) = some (rest, acc') ∧
          rest <:+ next ∧ 64 * (rest.length : Int) = r * count + acc' ∧ -64 < acc' ∧ acc' ≤ 0 := by
        have hlim := hash_limit
        by_cases hacc : 0 < acc + ((count : Int) - HASH_LIMIT)
        · rw [if_pos hacc]
          have hleft : acc + ((count : Int) - HASH_LIMIT) ≤ 64 * next.length := by
            push_cast at hinv ⊢
            omega
          obtain ⟨rest, acc', heq, hsuf, hsum, hgt', hle'⟩ := skip_spec hacc hleft
          exact ⟨rest, acc', heq, hsuf, by push_cast at hinv hsum; omega, hgt', hle'⟩
        · rw [if_neg hacc]
          exact ⟨next, _, rfl, List.suffix_refl _, by push_cast at hinv ⊢; omega,
            by omega, by omega⟩
      obtain ⟨rest, acc', heq, hsuf, hrest, hgt', hle'⟩ := hstep
      have hlen := hsuf.length_le
      rw [cull, heq]
      simp only [Option.bind_eq_bind, Option.bind_some]
      cases rest with
      | nil =>
        have hr : r = 0 := by
          by_contra hr
          have : (count : Int) ≤ r * count := by
            exact le_mul_of_one_le_left (by positivity) (by exact_mod_cast Nat.pos_of_ne_zero hr)
          simp at hrest
          omega
        exact ⟨[keep], rfl, by simp, by simp [hr]⟩
      | cons e rest =>
        obtain ⟨l', hcull, hsub, hlen'⟩ := ih (List.cons_ne_nil e rest) (by omega) hgt' hle' hrest
        exact ⟨keep :: l', by simp [hcull], (hsub.trans hsuf.sublist).cons_cons keep,
          by simp [hlen']⟩

/-! ## Numbers of entries -/

section Total

variable {hash : Nat → List IndexEntry} {n : Nat}

/-- The number of entries in the first buckets. -/
def total (n : Nat) (hash : Nat → List IndexEntry) : Nat := ∑ i ∈ Finset.range n, (hash i).length

theorem total_update (hash : Nat → List IndexEntry) {i : Nat} (hi : i < n) (l : List IndexEntry) :
    total n (Function.update hash i l) + (hash i).length = total n hash + l.length := by
  unfold total
  have hmem := Finset.mem_range.mpr hi
  rw [← Finset.add_sum_erase _ _ hmem, ← Finset.add_sum_erase _ (fun i => (hash i).length) hmem]
  have hsame : ∑ j ∈ (Finset.range n).erase i, (Function.update hash i l j).length =
      ∑ j ∈ (Finset.range n).erase i, (hash j).length :=
    Finset.sum_congr rfl fun j hj => by
      rw [Function.update_of_ne (Finset.ne_of_mem_erase hj)]
  rw [hsame, Function.update_self]
  omega

theorem length_le_total (hash : Nat → List IndexEntry) {i : Nat} (hi : i < n) :
    (hash i).length ≤ total n hash := by
  have := total_update hash hi []
  rw [List.length_nil] at this
  omega

theorem length_packed : (((List.range n).map hash).flatten).length = total n hash := by
  rw [List.length_flatten, List.map_map]
  rfl

/-- What the culling makes of the buckets: those that are too long lose entries until 64 are
left. -/
theorem cullBuckets_spec {hashCount : Nat → Nat} {buckets : List Nat} {entries : Nat}
    (hnd : buckets.Nodup) (hlt : ∀ i ∈ buckets, i < n)
    (hcount : ∀ i ∈ buckets, hashCount i = (hash i).length) (htotal : entries = total n hash) :
    ∃ hash', cullBuckets hashCount buckets hash entries = some (hash', total n hash') ∧
      (∀ i, (hash' i).Sublist (hash i)) ∧ (∀ i ∉ buckets, hash' i = hash i) ∧
      ∀ i ∈ buckets, (hash' i).length ≤ 64 ∧ ((hash' i).length = 64 ∨ hash' i = hash i) := by
  induction buckets generalizing hash entries with
  | nil => exact ⟨hash, by simp [cullBuckets, htotal], fun _ => List.Sublist.refl _, by simp⟩
  | cons i buckets ih =>
    obtain ⟨hi, hnd⟩ := List.nodup_cons.mp hnd
    have hlti := hlt i (List.mem_cons_self ..)
    have hcounti := hcount i (List.mem_cons_self ..)
    rw [cullBuckets]
    by_cases hshort : hashCount i ≤ HASH_LIMIT
    · obtain ⟨hash', heq, hsub, hout, hin⟩ := ih hnd
        (fun j hj => hlt j (List.mem_cons_of_mem i hj))
        (fun j hj => hcount j (List.mem_cons_of_mem i hj)) htotal
      rw [if_pos hshort]
      refine ⟨hash', heq, hsub, ?_, ?_⟩
      · exact fun j hj => hout j fun hmem => hj (List.mem_cons_of_mem i hmem)
      · intro j hj
        obtain rfl | hj := List.mem_cons.mp hj
        · rw [hout j hi, ← hcounti]
          exact ⟨hshort, .inr rfl⟩
        · exact hin j hj
    · rw [if_neg hshort]
      unfold HASH_LIMIT at hshort ⊢
      have hne : hash i ≠ [] := by
        rw [← List.length_pos_iff]
        omega
      have hstart : 64 * ((hash i).length : Int) = (64 : Nat) * hashCount i + 0 := by
        rw [hcounti]
        simp
      obtain ⟨bucket, hcull, hsub₀, hlen⟩ :=
        cull_spec (by omega) hne hcounti.ge (by omega) le_rfl hstart
      have hle := length_le_total hash hlti
      have hupdate := total_update hash hlti bucket
      have htotal' : entries - (hashCount i - 64) = total n (Function.update hash i bucket) := by
        omega
      obtain ⟨hash', heq, hsub, hout, hin⟩ := ih hnd
        (fun j hj => hlt j (List.mem_cons_of_mem i hj))
        (by
          intro j hj
          have hji : j ≠ i := fun h => hi (h ▸ hj)
          rw [Function.update_of_ne hji]
          exact hcount j (List.mem_cons_of_mem i hj))
        htotal'
      refine ⟨hash', by simp [hcull, heq], ?_, ?_, ?_⟩
      · intro j
        refine (hsub j).trans ?_
        by_cases hj : j = i
        · subst hj
          rw [Function.update_self]
          exact hsub₀
        · rw [Function.update_of_ne hj]
      · intro j hj
        rw [List.mem_cons, not_or] at hj
        rw [hout j hj.2, Function.update_of_ne hj.1]
      · intro j hj
        obtain rfl | hj := List.mem_cons.mp hj
        · rw [hout j hi, Function.update_self]
          exact ⟨hlen.le, .inl hlen⟩
        · have hji : j ≠ i := fun h => hi (h ▸ hj)
          have := hin j hj
          rwa [Function.update_of_ne hji] at this

end Total

/-! ## Taking the blocks in -/

theorem window_eq {mem : List UInt8} {start : Nat} (h : start + RABIN_WINDOW ≤ mem.length) :
    window mem start = some (finger 0 ((mem.drop start).take RABIN_WINDOW)) := by
  rw [window, if_pos h, rabinAll_eq low_zero]

theorem window_low {mem : List UInt8} {start : Nat} {val : BitVec 32}
    (h : window mem start = some val) : Low val := by
  unfold window at h
  split at h
  · rw [rabinAll_eq low_zero, Option.some.injEq] at h
    exact h ▸ finger_low low_zero _
  · simp at h

/-- The entry points behind the first byte after the window of block `j`. -/
def EntryOf (buffer : List UInt8) (j : Nat) (e : IndexEntry) : Prop :=
  e.ptr = (j + 1) * RABIN_WINDOW ∧ window buffer (j * RABIN_WINDOW + 1) = some e.val

/-- What is in the buckets when the blocks from number `k` on were taken in. -/
structure Indexed (buffer : List UInt8) (hmask : BitVec 32) (hsize n k : Nat) (s : Building) :
    Prop where
  count : ∀ i, s.hashCount i = (s.hash i).length
  entries : s.entries = k + total hsize s.hash
  entry : ∀ i, ∀ e ∈ s.hash i, (e.val &&& hmask).toNat = i ∧ ∃ j, k ≤ j ∧ j < n ∧ EntryOf buffer j e
  covered : ∀ j val, k ≤ j → j < n → window buffer (j * RABIN_WINDOW + 1) = some val →
    ∃ e ∈ s.hash (val &&& hmask).toNat, e.val = val ∧ e.ptr ≤ (j + 1) * RABIN_WINDOW
  sorted : ∀ i, (s.hash i).Pairwise fun e e' => e.ptr < e'.ptr
  newest : k < n → ∃ last older, s.hash (s.prevVal &&& hmask).toNat = last :: older ∧
    last.val = s.prevVal
  first : k = n → s.prevVal = ~~~0

variable {buffer : List UInt8} {hmask : BitVec 32} {hsize n k : Nat} {s : Building}

theorem Indexed.ptr_ge (h : Indexed buffer hmask hsize n k s) {i : Nat} {e : IndexEntry}
    (he : e ∈ s.hash i) : (k + 1) * RABIN_WINDOW ≤ e.ptr := by
  obtain ⟨-, j, hj, -, hptr, -⟩ := h.entry i e he
  rw [hptr]
  exact Nat.mul_le_mul_right _ (by omega)

/-- A block with the fingerprint of the block after it moves the entry of that one down. -/
theorem Indexed.same (h : Indexed buffer hmask hsize n (k + 1) s) (hk : k + 1 < n)
    (hlt : ∀ val, (val &&& hmask).toNat < hsize)
    (hval : window buffer (k * RABIN_WINDOW + 1) = some s.prevVal) :
    ∃ s', indexBlock buffer hmask (k * RABIN_WINDOW) s = some s' ∧
      Indexed buffer hmask hsize n k s' := by
  obtain ⟨last, older, hhash, hlast⟩ := h.newest hk
  generalize hi : (s.prevVal &&& hmask).toNat = i at hhash
  have hin : last ∈ s.hash i := hhash ▸ List.mem_cons_self ..
  have hptr : k * RABIN_WINDOW + RABIN_WINDOW = (k + 1) * RABIN_WINDOW := by ring
  have hbelow : (k + 1) * RABIN_WINDOW < last.ptr := by
    have := h.ptr_ge hin
    unfold RABIN_WINDOW at *
    omega
  have htotal := total_update s.hash (hi ▸ hlt s.prevVal)
    ({ last with ptr := k * RABIN_WINDOW + RABIN_WINDOW } :: older)
  rw [hhash, List.length_cons, List.length_cons] at htotal
  have hentries := h.entries
  have hblock : indexBlock buffer hmask (k * RABIN_WINDOW) s = some { s with
      hash := Function.update s.hash i
        ({ last with ptr := k * RABIN_WINDOW + RABIN_WINDOW } :: older)
      entries := s.entries - 1 } := by
    simp only [indexBlock, hval, Option.bind_eq_bind, Option.bind_some, if_true, hi, hhash]
  refine ⟨_, hblock, ?_⟩
  -- Every entry is the moved one or an old one.
  have hmem : ∀ j e, e ∈ Function.update s.hash i
      ({ last with ptr := k * RABIN_WINDOW + RABIN_WINDOW } :: older) j →
      (j = i ∧ e = { last with ptr := k * RABIN_WINDOW + RABIN_WINDOW }) ∨ e ∈ s.hash j := by
    intro j e he
    by_cases hj : j = i
    · subst hj
      rw [Function.update_self] at he
      obtain rfl | he := List.mem_cons.mp he
      · exact .inl ⟨rfl, rfl⟩
      · exact .inr (hhash ▸ List.mem_cons_of_mem last he)
    · rw [Function.update_of_ne hj] at he
      exact .inr he
  constructor
  · intro j
    by_cases hj : j = i
    · subst hj
      simp [h.count, hhash]
    · simp [h.count, Function.update_of_ne hj]
  · simp only
    omega
  · intro j e he
    obtain ⟨rfl, rfl⟩ | he := hmem j e he
    · exact ⟨hlast ▸ hi, k, le_rfl, by omega, hptr, hlast ▸ hval⟩
    · obtain ⟨hj, b, hb, hbn, hof⟩ := h.entry j e he
      exact ⟨hj, b, by omega, hbn, hof⟩
  · intro j val hj hjn hwin
    by_cases hjk : j = k
    · subst hjk
      obtain rfl := Option.some.inj (hval.symm.trans hwin)
      refine ⟨{ last with ptr := j * RABIN_WINDOW + RABIN_WINDOW }, ?_, hlast, hptr.le⟩
      simp only
      rw [hi, Function.update_self]
      exact List.mem_cons_self ..
    · obtain ⟨e, he, hev, hep⟩ := h.covered j val (by omega) hjn hwin
      by_cases hb : (val &&& hmask).toNat = i
      · simp only [hb, Function.update_self]
        rw [hb, hhash] at he
        obtain rfl | he := List.mem_cons.mp he
        · exact ⟨_, List.mem_cons_self .., hev, by simp only; omega⟩
        · exact ⟨e, List.mem_cons_of_mem _ he, hev, hep⟩
      · simp only [Function.update_of_ne hb]
        exact ⟨e, he, hev, hep⟩
  · intro j
    by_cases hj : j = i
    · subst hj
      have hs := h.sorted j
      rw [hhash, List.pairwise_cons] at hs
      simp only [Function.update_self, List.pairwise_cons]
      refine ⟨fun e he => ?_, hs.2⟩
      have := hs.1 e he
      omega
    · simp only [Function.update_of_ne hj]
      exact h.sorted j
  · intro _
    refine ⟨{ last with ptr := k * RABIN_WINDOW + RABIN_WINDOW }, older, ?_, hlast⟩
    simp only
    rw [hi, Function.update_self]
  · intro hkn
    omega

/-- A block with another fingerprint has an entry of its own. -/
theorem Indexed.push (h : Indexed buffer hmask hsize n (k + 1) s) (hk : k < n)
    (hlt : ∀ val, (val &&& hmask).toNat < hsize) {val : BitVec 32}
    (hval : window buffer (k * RABIN_WINDOW + 1) = some val) (hne : val ≠ s.prevVal) :
    ∃ s', indexBlock buffer hmask (k * RABIN_WINDOW) s = some s' ∧
      Indexed buffer hmask hsize n k s' := by
  generalize hi : (val &&& hmask).toNat = i
  have hptr : k * RABIN_WINDOW + RABIN_WINDOW = (k + 1) * RABIN_WINDOW := by ring
  have htotal := total_update s.hash (hi ▸ hlt val)
    (⟨k * RABIN_WINDOW + RABIN_WINDOW, val⟩ :: s.hash i)
  rw [List.length_cons] at htotal
  have hentries := h.entries
  have hblock : indexBlock buffer hmask (k * RABIN_WINDOW) s = some { s with
      hash := Function.update s.hash i (⟨k * RABIN_WINDOW + RABIN_WINDOW, val⟩ :: s.hash i)
      hashCount := Function.update s.hashCount i (s.hashCount i + 1)
      prevVal := val } := by
    simp only [indexBlock, hval, Option.bind_eq_bind, Option.bind_some, hne, if_false, hi]
  refine ⟨_, hblock, ?_⟩
  constructor
  · intro j
    by_cases hj : j = i
    · subst hj
      simp [h.count]
    · simp [h.count, Function.update_of_ne hj]
  · simp only
    omega
  · intro j e he
    have he : e ∈ Function.update s.hash i
      (⟨k * RABIN_WINDOW + RABIN_WINDOW, val⟩ :: s.hash i) j := he
    have hold : e ∈ s.hash j → (e.val &&& hmask).toNat = j ∧
        ∃ b, k ≤ b ∧ b < n ∧ EntryOf buffer b e := by
      intro he
      obtain ⟨hj, b, hb, hbn, hof⟩ := h.entry j e he
      exact ⟨hj, b, by omega, hbn, hof⟩
    by_cases hj : j = i
    · subst hj
      rw [Function.update_self] at he
      obtain rfl | he := List.mem_cons.mp he
      · exact ⟨hi, k, le_rfl, hk, hptr, hval⟩
      · exact hold he
    · rw [Function.update_of_ne hj] at he
      exact hold he
  · intro j val' hj hjn hwin
    by_cases hjk : j = k
    · subst hjk
      obtain rfl := Option.some.inj (hval.symm.trans hwin)
      refine ⟨⟨j * RABIN_WINDOW + RABIN_WINDOW, val⟩, ?_, rfl, hptr.le⟩
      simp only
      rw [hi, Function.update_self]
      exact List.mem_cons_self ..
    · obtain ⟨e, he, hev, hep⟩ := h.covered j val' (by omega) hjn hwin
      refine ⟨e, ?_, hev, hep⟩
      by_cases hb : (val' &&& hmask).toNat = i
      · simp only [hb, Function.update_self]
        exact List.mem_cons_of_mem _ (hb ▸ he)
      · simp only [Function.update_of_ne hb]
        exact he
  · intro j
    by_cases hj : j = i
    · subst hj
      simp only [Function.update_self, List.pairwise_cons]
      refine ⟨fun e he => ?_, h.sorted j⟩
      have := h.ptr_ge he
      unfold RABIN_WINDOW at *
      omega
    · simp only [Function.update_of_ne hj]
      exact h.sorted j
  · intro _
    refine ⟨⟨k * RABIN_WINDOW + RABIN_WINDOW, val⟩, s.hash i, ?_, rfl⟩
    simp only
    rw [hi, Function.update_self]
  · intro hkn
    omega

theorem indexBlock_spec (h : Indexed buffer hmask hsize n (k + 1) s) (hk : k < n)
    (hroom : n * RABIN_WINDOW < buffer.length) (hlt : ∀ val, (val &&& hmask).toNat < hsize) :
    ∃ s', indexBlock buffer hmask (k * RABIN_WINDOW) s = some s' ∧
      Indexed buffer hmask hsize n k s' := by
  have hfits : k * RABIN_WINDOW + 1 + RABIN_WINDOW ≤ buffer.length := by
    have : (k + 1) * RABIN_WINDOW ≤ n * RABIN_WINDOW := Nat.mul_le_mul_right _ hk
    rw [Nat.succ_mul] at this
    omega
  have hval := window_eq hfits
  generalize finger 0 ((buffer.drop (k * RABIN_WINDOW + 1)).take RABIN_WINDOW) = val at hval
  by_cases hsame : val = s.prevVal
  · refine h.same ?_ hlt (hsame ▸ hval)
    by_contra hlast
    have hfirst := h.first (by omega)
    have hlow : Low val := window_low hval
    rw [hsame, hfirst] at hlow
    simp [Low] at hlow
  · exact h.push hk hlt hval hsame

theorem indexBlocks_spec (h : Indexed buffer hmask hsize n k s) (hk : k ≤ n)
    (hroom : n * RABIN_WINDOW < buffer.length) (hlt : ∀ val, (val &&& hmask).toNat < hsize) :
    ∃ s', indexBlocks buffer hmask k s = some s' ∧ Indexed buffer hmask hsize n 0 s' := by
  induction k generalizing s with
  | zero => exact ⟨s, rfl, h⟩
  | succ k ih =>
    obtain ⟨s₁, heq, h₁⟩ := indexBlock_spec h hk hroom hlt
    obtain ⟨s₂, heq₂, h₂⟩ := ih h₁ (by omega)
    exact ⟨s₂, by simp [indexBlocks, heq, heq₂], h₂⟩

/-! ## The result -/

theorem tableBits_le {hsize : Nat} (hsize_le : hsize ≤ 2 ^ 26) (fuel : Nat) {i : Nat}
    (hi : i ≤ 26) : tableBits hsize fuel i ≤ 26 := by
  induction fuel generalizing i with
  | zero => exact hi
  | succ fuel ih =>
    rw [tableBits]
    split
    · rename_i hlt
      refine ih ?_
      exact (Nat.pow_lt_pow_iff_right (by omega : 1 < 2)).mp (hlt.trans_le hsize_le)
    · exact hi

theorem and_mask {bits : Nat} (hbits : bits ≤ 26) (val : BitVec 32) :
    (val &&& BitVec.ofNat 32 (2 ^ bits - 1)).toNat = val.toNat % 2 ^ bits := by
  have hpow : 2 ^ bits ≤ 2 ^ 26 := Nat.pow_le_pow_right (by omega) hbits
  rw [BitVec.toNat_and, BitVec.toNat_ofNat, Nat.mod_eq_of_lt (by omega),
    Nat.and_two_pow_sub_one_eq_mod]

theorem blockCount_room {bufsize : Nat} (h : 0 < bufsize) :
    blockCount bufsize * RABIN_WINDOW < bufsize ∧ blockCount bufsize ≤ 2 ^ 28 := by
  unfold blockCount RABIN_WINDOW
  split <;> omega

/-- The variables of the loop over the blocks when it ends. -/
def built (buffer : List UInt8) (hmask : BitVec 32) : Option Building :=
  indexBlocks buffer hmask (blockCount buffer.length)
    ⟨fun _ => [], fun _ => 0, blockCount buffer.length, ~~~0⟩

/-- The buckets that the loop builds, and what the culling leaves of them. -/
theorem createDeltaIndex_spec (buffer : List UInt8) (hne : buffer ≠ []) :
    ∃ index bits s, createDeltaIndex buffer = some (some index) ∧ index.srcBuf = buffer ∧
      index.hash.length = 2 ^ bits ∧ (∀ val, (val &&& index.hashMask).toNat < 2 ^ bits) ∧
      built buffer index.hashMask = some s ∧
      Indexed buffer index.hashMask (2 ^ bits) (blockCount buffer.length) 0 s ∧
      ∀ i bucket, index.hash[i]? = some bucket →
        bucket.Sublist (s.hash i) ∧ bucket.length = min (s.hashCount i) 64 := by
  have hpos := List.length_pos_iff.mpr hne
  obtain ⟨hroom, hblocks⟩ := blockCount_room hpos
  generalize hn : blockCount buffer.length = n at hroom hblocks
  generalize hb : tableBits (n / 4) 32 4 = bits
  have hbits : bits ≤ 26 := hb ▸ tableBits_le (by omega) 32 (by omega)
  have hmask := and_mask hbits
  generalize hm : BitVec.ofNat 32 (2 ^ bits - 1) = mask at hmask
  have hlt : ∀ val, (val &&& mask).toNat < 2 ^ bits := by
    intro val
    rw [hmask]
    exact Nat.mod_lt _ (Nat.two_pow_pos bits)
  have hstart : Indexed buffer mask (2 ^ bits) n n ⟨fun _ => [], fun _ => 0, n, ~~~0⟩ := by
    refine ⟨by simp, by simp [total], by simp, ?_, by simp, ?_, fun _ => rfl⟩
    · intro j val hj hjn
      omega
    · intro hlt
      omega
  obtain ⟨s, hbuild, hs⟩ := indexBlocks_spec hstart le_rfl hroom hlt
  obtain ⟨hash, hcull, hsub, -, hin⟩ := cullBuckets_spec (n := 2 ^ bits) List.nodup_range
    (fun i hi => List.mem_range.mp hi) (fun i _ => hs.count i)
    (hs.entries.trans (Nat.zero_add _))
  refine ⟨⟨buffer, mask, (List.range (2 ^ bits)).map hash⟩, bits, s, ?_, rfl, by simp, hlt, ?_,
    hs, ?_⟩
  · simp only [createDeltaIndex, hn, hb, hm, hbuild, hcull, Option.bind_eq_bind,
      Option.bind_some, length_packed, if_true]
    rw [if_neg (by omega)]
  · rw [built, hn]
    exact hbuild
  · intro i bucket hbucket
    obtain ⟨j, hj, rfl⟩ : ∃ j, (List.range (2 ^ bits))[i]? = some j ∧ hash j = bucket := by
      simpa using hbucket
    obtain ⟨hi, hji⟩ := List.getElem?_eq_some_iff.mp hj
    obtain rfl : i = j := by simpa using hji
    rw [List.length_range] at hi
    refine ⟨hsub i, ?_⟩
    obtain ⟨hlen, hfull⟩ := hin i (List.mem_range.mpr hi)
    have hle := (hsub i).length_le
    rw [hs.count i]
    obtain h64 | hkept := hfull
    · omega
    · rw [hkept] at hlen ⊢
      omega

/-- **The index of a source.**  For every source that is not empty the index is made, within memory,
and its assertion holds.  The loop over the blocks fills the buckets in the order of the source;
each entry points behind the window of a block and has its fingerprint, and each block has an entry
of its fingerprint that points to it or to an earlier one.  The culling leaves a bucket of up to 64
entries as it is, and 64 entries of a longer one, in their order. -/
theorem index_culled (buffer : List UInt8) (hne : buffer ≠ []) :
    ∃ index bits s, createDeltaIndex buffer = some (some index) ∧ index.srcBuf = buffer ∧
      index.hash.length = 2 ^ bits ∧ (∀ val, (val &&& index.hashMask).toNat < 2 ^ bits) ∧
      built buffer index.hashMask = some s ∧
      ∀ i < 2 ^ bits, s.hashCount i = (s.hash i).length ∧
        ((s.hash i).Pairwise fun e e' => e.ptr < e'.ptr) ∧
        (∀ e ∈ s.hash i, (e.val &&& index.hashMask).toNat = i ∧
          ∃ j < blockCount buffer.length, EntryOf buffer j e) ∧
        (∀ j < blockCount buffer.length, ∀ val,
          window buffer (j * RABIN_WINDOW + 1) = some val →
            (val &&& index.hashMask).toNat = i →
              ∃ e ∈ s.hash i, e.val = val ∧ e.ptr ≤ (j + 1) * RABIN_WINDOW) ∧
        ∃ bucket, index.hash[i]? = some bucket ∧
          (s.hashCount i ≤ HASH_LIMIT → bucket = s.hash i) ∧
          (HASH_LIMIT < s.hashCount i →
            bucket.Sublist (s.hash i) ∧ bucket.length = HASH_LIMIT) := by
  obtain ⟨index, bits, s, hindex, hsrc, hlen, hlt, hbuilt, hs, hbuckets⟩ :=
    createDeltaIndex_spec buffer hne
  refine ⟨index, bits, s, hindex, hsrc, hlen, hlt, hbuilt, ?_⟩
  intro i hi
  refine ⟨hs.count i, hs.sorted i, ?_, ?_, ?_⟩
  · intro e he
    obtain ⟨hei, j, -, hj, hof⟩ := hs.entry i e he
    exact ⟨hei, j, hj, hof⟩
  · intro j hj val hwin hval
    rw [← hval]
    exact hs.covered j val (Nat.zero_le j) hj hwin
  · have hin : i < index.hash.length := by rwa [hlen]
    have hbucket : index.hash[i]? = some index.hash[i] := List.getElem?_eq_getElem hin
    obtain ⟨hsub, hcount⟩ := hbuckets i _ hbucket
    refine ⟨_, hbucket, ?_, ?_⟩
    · intro hshort
      unfold HASH_LIMIT at hshort
      refine hsub.eq_of_length ?_
      rw [← hs.count i]
      omega
    · intro hlong
      unfold HASH_LIMIT at hlong ⊢
      exact ⟨hsub, by omega⟩

/-- A source with two blocks of the same bytes. -/
theorem index_culled_repeated : ∃ index s,
    createDeltaIndex (List.replicate 40 7) = some (some index) ∧
      built (List.replicate 40 7) index.hashMask = some s ∧
      ∀ i < index.hash.length, ∃ bucket, index.hash[i]? = some bucket ∧
        (s.hashCount i ≤ HASH_LIMIT → bucket = s.hash i) ∧
        (HASH_LIMIT < s.hashCount i →
          bucket.Sublist (s.hash i) ∧ bucket.length = HASH_LIMIT) := by
  obtain ⟨index, bits, s, hindex, -, hlen, -, hbuilt, hbuckets⟩ :=
    index_culled (List.replicate 40 7) (by simp)
  refine ⟨index, s, hindex, hbuilt, ?_⟩
  intro i hi
  exact (hbuckets i (hlen ▸ hi)).2.2.2.2

end Git
