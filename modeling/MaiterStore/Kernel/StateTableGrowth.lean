/-
# Growing a state table

The constructor of `StateTable` says that the table "will be expanded as necessary".
`put` compares `entries_ > size_`, so the table that is exactly full is not expanded:
the probe loop comes back to its home bucket and the new entry overwrites the one there.
`resize` puts the old entries into the new buckets one by one, and loses some of them
in the same way when the new size is below their number. From `2 ^ 31` buckets on, the `int`
index of `clear()` overflows.

A run of puts and resizes keeps every entry exactly when none of the three happens.
-/

import MaiterStore.Kernel.StateTable

namespace MaiterStore

open CS.FiniteMap CS.LinearProbing CS.Run

namespace StateTable

variable {K V D : Type*}

/-- A call that may grow or shrink the table. -/
inductive Growth (K V D : Type*)
  | put (k : K) (v1 v2 : V) (v3 : D)
  | resize (size : ℕ) (hsize : 0 < size)
  deriving DecidableEq, Repr

def Growth.toOp : Growth K V D → Op K V D
  | .put k v1 v2 v3 => .put k v1 v2 v3
  | .resize size _ => .resize size

variable [DecidableEq K]

/-- The records of the latest put of every key, after one more call. -/
def Growth.latest (m : Finmap fun _ : K => V × V × D) :
    Growth K V D → Finmap fun _ : K => V × V × D
  | .put k v1 v2 v3 => m.insert k (v1, v2, v3)
  | .resize _ _ => m

/-- The table holds the records of `m` and no others, and `size()` is the number of
buckets in use and the number of keys. -/
structure Keeps (hash : K → ℕ) (t : StateTable K V D) (m : Finmap fun _ : K => V × V × D) :
    Prop where
  contains_eq : ∀ k, t.contains hash k = decide (k ∈ m)
  get_eq : ∀ k, t.get hash k = ((m.lookup k).map fun r => (k, r)).elim (.error (.noEntry k)) .ok
  size_eq_occupied : t.size = occupied t.buckets
  size_eq_card : t.size = m.keys.card

variable (hash : K → ℕ) (kern : IterateKernel K V D)

/-- Every call succeeds, and in every state of the run the table holds the latest put of
every key. -/
def LosesNothing (fuel : ℕ) : StateTable K V D → (Finmap fun _ : K => V × V × D) →
    List (Growth K V D) → Prop
  | t, m, [] => Keeps hash t m
  | t, m, call :: calls =>
    Keeps hash t m ∧ ∃ t', step hash kern fuel t call.toOp = .ok t' ∧
      LosesNothing fuel t' (call.latest m) calls

/-- A put is of a key that is there or comes while fewer keys than `size` are there; a
resize is to at least the number of keys and to a size that `int` can hold. -/
def Growth.Room (keys : Finset K) (size : ℕ) : Growth K V D → Prop
  | .put k _ _ _ => k ∈ keys ∨ keys.card < size
  | .resize n _ => keys.card ≤ n ∧ n < 2 ^ 31

/-- The size last set, after one more call. -/
def Growth.size (size : ℕ) : Growth K V D → ℕ
  | .put .. => size
  | .resize n _ => n

/-- Every call of the run has room. -/
def Roomy : (Finmap fun _ : K => V × V × D) → ℕ → List (Growth K V D) → Prop
  | _, _, [] => True
  | m, size, call :: calls =>
    call.Room m.keys size ∧ Roomy (call.latest m) (call.size size) calls

variable {hash} {kern} {t : StateTable K V D} {s : Spec K V D} {k : K} {n : ℕ}

theorem Refines.keeps (href : Refines hash t s) : Keeps hash t s.map where
  contains_eq _ := href.contains_eq
  get_eq k := read_of_represents href.represents fun r => (k, r)
  size_eq_occupied := href.entries_eq.trans href.represents.occupied_eq.symm
  size_eq_card := href.entries_eq

/-! ## Where entries are lost -/

/-- A put of a fresh key into a full table overwrites a bucket in use. -/
theorem put_of_full (kern : IterateKernel K V D) (fuel : ℕ) (v1 v2 : V) (v3 : D)
    (href : Refines hash t s) (hk : k ∉ s.map) (hfull : s.map.keys.card = s.size) :
    ∃ t', put hash kern (fuel + 1) k v1 v2 v3 t = .ok t' ∧
      Valid hash Bucket.k t'.buckets ∧ occupied t'.buckets = s.map.keys.card := by
  have hvalid := href.represents.valid
  have hle : t.entries ≤ t.size_ := by rw [href.entries_eq, href.size_eq, hfull]
  -- all buckets are in use, so the probe loop comes back to the home bucket
  have hocc : occupied t.buckets = t.buckets.length := by
    rw [href.represents.occupied_eq, hfull, ← href.size_eq, size_]
  refine ⟨_, put_of_le fuel v1 v2 v3 (mt href.find_eq_true_iff.mp hk) hle, hvalid.store _, ?_⟩
  rw [← href.represents.occupied_eq]
  exact hvalid.occupied_store_of_full hocc

/-- The search is exact, and `int` can hold the size. -/
structure Intact (hash : K → ℕ) (t : StateTable K V D) : Prop where
  valid : Valid hash Bucket.k t.buckets
  size_lt : t.size_ < 2 ^ 31

/-- A put takes at most one more bucket into use. The nested resize is to a size that all entries
fit in, so the recursion is never deeper than two; it stops where that size does not fit into
`int`. -/
theorem put_ends (kern : IterateKernel K V D) (fuel : ℕ) (k : K) (v1 v2 : V) (v3 : D)
    (hvalid : Valid hash Bucket.k t.buckets) :
    EndsIn (fun e => e = (.checkSize, t))
      (fun t' => Valid hash Bucket.k t'.buckets ∧ occupied t'.buckets ≤ occupied t.buckets + 1 ∧
        (t'.size_ = t.size_ ∨ t'.size_ < 2 ^ 31))
      (put hash kern (fuel + 2) k v1 v2 v3 t) := by
  have hlt := find_lt hash Bucket.k k hvalid.length_pos
  by_cases hfind : (find hash Bucket.k t.buckets k).1 = true
  · exact .of_ok (put_of_found (fuel + 1) v1 v2 v3 hfind)
      ⟨hvalid.store _, occupied_store_le hlt, .inl length_store⟩
  by_cases hle : t.entries ≤ t.size_
  · exact .of_ok (put_of_le (fuel + 1) v1 v2 v3 hfind hle)
      ⟨hvalid.store _, occupied_store_le hlt, .inl length_store⟩
  rw [put_of_gt (fuel + 1) v1 v2 v3 hfind (Nat.lt_of_not_le hle)]
  by_cases hint : 1 + t.size_ * 2 < 2 ^ 31
  · -- the growing branch: whatever is in the table fits in the longer row
    obtain ⟨m, hrep⟩ := exists_represents Bucket.fields hvalid
    have hcard : m.keys.card ≤ t.size_ := hrep.occupied_eq ▸ occupied_le_length t.buckets
    obtain ⟨t₁, hok₁, href₁⟩ := resize_represents (n := 1 + t.size_ * 2) kern fuel hrep (by omega)
      (by omega) hint (by omega)
    have hroom : m.keys.card < 1 + t.size_ * 2 := by omega
    obtain ⟨t₂, hok₂, href₂⟩ := put_refines kern fuel k v1 v2 v3 href₁ (.inr hroom)
    rw [IndexType.grown, if_pos (IndexType.holds_int.mpr hint), hok₁, ok_bind, hok₂]
    refine ⟨href₂.represents.valid, ?_, .inr (href₂.size_eq.trans_lt hint)⟩
    rw [href₂.represents.occupied_eq, hrep.occupied_eq]
    exact card_keys_insert_le
  · rw [IndexType.grown, if_neg (mt IndexType.holds_int.mp hint), resize_zero]
    exact rfl

theorem put_intact (kern : IterateKernel K V D) (fuel : ℕ) (k : K) (v1 v2 : V) (v3 : D)
    (ht : Intact hash t) :
    EndsIn (fun e => Intact hash e.2) (Intact hash) (put hash kern (fuel + 2) k v1 v2 v3 t) := by
  apply (put_ends kern fuel k v1 v2 v3 ht.valid).mono
  · rintro e rfl
    exact ht
  · rintro t' ⟨hvalid, -, hsize⟩
    exact ⟨hvalid, hsize.elim (fun h => h.trans_lt ht.size_lt) id⟩

omit [DecidableEq K] in
theorem intact_cleared (hash : K → ℕ) (hn : n ≠ 0) (hint : n < 2 ^ 31) (updates : ℕ) :
    Intact hash (cleared n updates : StateTable K V D) :=
  ⟨valid_replicate hash Bucket.k (Nat.pos_of_ne_zero hn), List.length_replicate.trans_lt hint⟩

/-- A resize to another size, also one that the entries do not fit in. -/
theorem resize_ends (kern : IterateKernel K V D) (fuel n : ℕ) (ht : Intact hash t) :
    EndsIn (fun e => Intact hash e.2) (Intact hash) (resize hash kern (fuel + 2) n t) := by
  by_cases hn : n = 0
  · exact .of_error (hn ▸ resize_zero hash kern (fuel + 2) t) ht
  by_cases hsize : t.size_ = n
  · exact .of_ok (resize_of_size hash kern (fuel + 2) hn hsize) ht
  by_cases hint : n < 2 ^ 31
  · rw [resize_of_ne hash kern (fuel + 2) hn hsize hint, reinsert_eq_forEach]
    apply endsIn_forEach (I := fun _ => Intact hash) _ ?_ (intact_cleared hash hn hint _)
    intro _ c _ _ t' ht'
    exact put_intact kern fuel c.k c.v1 c.v2 c.v3 ht'
  · rw [resize, resizeWith, if_neg hn, if_neg hsize, if_pos (mt IndexType.holds_int.mp hint)]
    exact ht

/-- A resize below the number of keys does not return a table that has all of them. -/
theorem resize_of_lt (kern : IterateKernel K V D) (fuel : ℕ) (href : Refines hash t s)
    (hn : n ≠ 0) (hint : n < 2 ^ 31) (hlt : n < s.map.keys.card) :
    EndsIn (fun _ => True) (fun t' => occupied t'.buckets < s.map.keys.card)
      (resize hash kern (fuel + 2) n t) := by
  have hsize : t.size_ ≠ n := by
    have hcard := href.represents.occupied_eq ▸ occupied_le_length t.buckets
    rw [size_]
    omega
  -- up to `n` entries the new table refines what has been put, from then on it lacks one
  let Q : StateTable K V D → (Finmap fun _ : K => V × V × D) → Prop := fun t' m =>
    Valid hash Bucket.k t'.buckets ∧
      (m.keys.card ≤ n → Refines hash t' ⟨m, n, t.totalUpdates⟩) ∧
      (n < m.keys.card → occupied t'.buckets < m.keys.card)
  have hput : ∀ t' m (c : Bucket K V D), Q t' m → c.k ∉ m → m.keys.card < s.map.keys.card →
      EndsIn (fun _ => True) (fun t'' => Q t'' (m.insert c.k c.fields))
        (put hash kern (fuel + 2) c.k c.v1 c.v2 c.v3 t') := by
    rintro t' m c ⟨hvalid, hfit, hlack⟩ hc -
    have hcard : (m.insert c.k c.fields).keys.card = m.keys.card + 1 :=
      card_keys_insert_of_notMem hc
    -- below `n` keys a free bucket, at `n` the overwriting put, beyond it one more bucket at most
    rcases Nat.lt_trichotomy m.keys.card n with hroom | hfull | hover
    · obtain ⟨t'', hok, href''⟩ :=
        put_refines kern (fuel + 1) c.k c.v1 c.v2 c.v3 (hfit hroom.le) (.inr hroom)
      exact .of_ok hok ⟨href''.represents.valid, fun _ => href'', fun _ => by omega⟩
    · obtain ⟨t'', hok, hvalid'', hocc⟩ :=
        put_of_full kern (fuel + 1) c.v1 c.v2 c.v3 (hfit hfull.le) hc hfull
      change occupied t''.buckets = m.keys.card at hocc
      exact .of_ok hok ⟨hvalid'', fun _ => by omega, fun _ => by omega⟩
    · have := hlack hover
      apply (put_ends kern fuel c.k c.v1 c.v2 c.v3 hvalid).mono fun _ _ => trivial
      rintro t'' ⟨hvalid'', hocc, -⟩
      exact ⟨hvalid'', fun _ => by omega, fun _ => by omega⟩
  have hempty : Q (cleared n t.totalUpdates) ∅ := by
    have href₀ := refines_cleared (V := V) (D := D) hash (Nat.pos_of_ne_zero hn) t.totalUpdates
    exact ⟨href₀.represents.valid, fun _ => href₀, fun h => by simp at h⟩
  rw [resize_of_ne hash kern (fuel + 2) hn hsize hint]
  exact (href.represents.reinsert_ends Q hput hempty).imp fun t' h => h.2.2 hlt

/-! ## The search stays exact

Also where entries are lost, what is left in the table is found. -/

theorem write_intact (ht : Intact hash t) {change : Bucket K V D → Bucket K V D}
    (hkey : ∀ b, (change b).k = b.k) : Intact hash (write hash k change t).table := by
  cases hlook : lookup Bucket.k t.buckets k with
  | none =>
    rw [write, checkedBucket_of_none ht.valid hlook]
    exact ht
  | some c =>
    rw [write_of_lookup ht.valid hlook hkey]
    exact ⟨ht.valid.store (change c), length_store.trans_lt ht.size_lt⟩

theorem step_intact (kern : IterateKernel K V D) (fuel : ℕ) (ht : Intact hash t) (op : Op K V D) :
    Intact hash (step hash kern (fuel + 2) t op).table := by
  cases hop : op.target with
  | some k =>
    obtain ⟨change, d, hkey, hstep⟩ := step_of_target hash kern (fuel + 2) t hop
    have hw := write_intact (k := k) ht hkey
    rw [hstep]
    -- the counter of updates does not touch the buckets
    cases hwrite : write hash k change t <;> rw [hwrite] at hw <;> exact ⟨hw.valid, hw.size_lt⟩
  | none =>
    cases op with
    | put k v1 v2 v3 => exact Outcome.of_endsIn (put_intact kern fuel k v1 v2 v3 ht)
    | clear => exact intact_cleared hash ht.valid.length_pos.ne' ht.size_lt t.totalUpdates
    | resize size => exact Outcome.of_endsIn (resize_ends kern fuel size ht)
    | updateF1 | updateF2 | updateF3 | accumulateF1 | accumulateF2 => simp [Op.target] at hop

theorem exec_intact (kern : IterateKernel K V D) (fuel : ℕ) (ht : Intact hash t)
    (ops : List (Op K V D)) : Intact hash (exec hash kern (fuel + 2) t ops).2 := by
  induction ops generalizing t with
  | nil => exact ht
  | cons op ops ih =>
    have hstep := step_intact kern fuel ht op
    rw [exec]
    cases hr : step hash kern (fuel + 2) t op with
    | ok t' => rw [hr] at hstep; exact ih hstep
    | error e => rw [hr] at hstep; exact ih hstep

/-! ## What keeps every entry -/

theorem not_keeps_of_occupied_lt {m : Finmap fun _ : K => V × V × D}
    (hlt : occupied t.buckets < m.keys.card) : ¬ Keeps hash t m := by
  intro hkeeps
  have := hkeeps.size_eq_occupied.symm.trans hkeeps.size_eq_card
  omega

theorem step_of_room (kern : IterateKernel K V D) (fuel : ℕ) (href : Refines hash t s)
    {call : Growth K V D} (hroom : call.Room s.map.keys s.size) :
    ∃ t', step hash kern (fuel + 2) t call.toOp = .ok t' ∧
      Refines hash t' ⟨call.latest s.map, call.size s.size, s.updates⟩ := by
  cases call with
  | put k v1 v2 v3 =>
    exact put_refines kern (fuel + 1) k v1 v2 v3 href
      (by simpa only [Growth.Room, Finmap.mem_keys] using hroom)
  | resize n hn => exact resize_refines kern (fuel + 1) href hn.ne' hroom.2 hroom.1

/-- A call without room does not return a table that has all entries. -/
theorem step_of_not_room (kern : IterateKernel K V D) (fuel : ℕ) (href : Refines hash t s)
    (hsize : s.size < 2 ^ 31) {call : Growth K V D} (hroom : ¬ call.Room s.map.keys s.size) :
    EndsIn (fun _ => True) (fun t' => occupied t'.buckets < (call.latest s.map).keys.card)
      (step hash kern (fuel + 2) t call.toOp) := by
  cases call with
  | put k v1 v2 v3 =>
    simp only [Growth.Room, Finmap.mem_keys, not_or, not_lt] at hroom
    have hle : s.map.keys.card ≤ s.size := by
      rw [← href.represents.occupied_eq, ← href.size_eq]
      exact occupied_le_length t.buckets
    obtain ⟨t', hok, -, hocc⟩ := put_of_full kern (fuel + 1) v1 v2 v3 href hroom.1
      (hle.antisymm hroom.2)
    refine .of_ok hok ?_
    rw [hocc, Growth.latest, card_keys_insert_of_notMem hroom.1]
    exact Nat.lt_succ_self _
  | resize n hn =>
    rcases Nat.lt_or_ge n (2 ^ 31) with hint | hge
    · exact resize_of_lt kern fuel href hn.ne' hint (not_le.mp fun hle => hroom ⟨hle, hint⟩)
    · exact .of_error (resize_of_ge hash kern (fuel + 2) (href.size_eq ▸ hsize) hge) trivial

omit [DecidableEq K] in
/-- A call with room leaves a size that `int` can hold. -/
theorem Growth.size_lt {size : ℕ} (hsize : size < 2 ^ 31) {keys : Finset K} {call : Growth K V D}
    (hroom : call.Room keys size) : call.size size < 2 ^ 31 := by
  cases call with
  | put => exact hsize
  | resize => exact hroom.2

/-- The first state of a run, whatever the calls that follow. -/
theorem LosesNothing.keeps {fuel : ℕ} {m : Finmap fun _ : K => V × V × D}
    {calls : List (Growth K V D)} (hrun : LosesNothing hash kern fuel t m calls) :
    Keeps hash t m := by
  cases calls with
  | nil => exact hrun
  | cons call calls => exact hrun.1

theorem losesNothing_iff_roomy (kern : IterateKernel K V D) (fuel : ℕ) (href : Refines hash t s)
    (hsize : s.size < 2 ^ 31) (calls : List (Growth K V D)) :
    LosesNothing hash kern (fuel + 2) t s.map calls ↔ Roomy s.map s.size calls := by
  induction calls generalizing t s with
  | nil => exact ⟨fun _ => trivial, fun _ => href.keeps⟩
  | cons call calls ih =>
    by_cases hroom : call.Room s.map.keys s.size
    · obtain ⟨t', hok, href'⟩ := step_of_room kern fuel href hroom
      have hrest := ih href' (Growth.size_lt hsize hroom)
      constructor
      · rintro ⟨-, t'', hok'', hrun⟩
        obtain rfl : t' = t'' := Except.ok.inj (hok.symm.trans hok'')
        exact ⟨hroom, hrest.mp hrun⟩
      · intro hroomy
        exact ⟨href.keeps, t', hok, hrest.mpr hroomy.2⟩
    · -- the call stops, or the entry is gone in the very next state
      constructor
      · rintro ⟨-, t', hok, hrun⟩
        have hlt := (step_of_not_room kern fuel href hsize hroom).ok_imp hok
        exact absurd hrun.keeps (not_keeps_of_occupied_lt hlt)
      · intro hroomy
        exact absurd hroomy.1 hroom

/-- **A state table that is grown by puts and resizes loses nothing exactly when it has
room.** From the constructor on, every call of a run succeeds and every state holds the latest put
of every key and no other key, and counts its keys and buckets in use, if and only if every put of
a fresh key comes while a bucket is free and every resize is to at least the number of keys and to
a size that `int` can hold. -/
theorem growth_loses_nothing_iff (hash : K → ℕ) (kern : IterateKernel K V D) (fuel size : ℕ)
    (hsize : 0 < size) (hint : size < 2 ^ 31) (calls : List (Growth K V D)) :
    ∃ t, new hash kern (fuel + 2) size = .ok t ∧
      (LosesNothing hash kern (fuel + 2) t ∅ calls ↔ Roomy ∅ size calls) :=
  ⟨cleared size 0, new_eq hash kern (fuel + 2) hsize.ne' hint,
    losesNothing_iff_roomy kern fuel (refines_cleared hash hsize 0) hint calls⟩

theorem growth_loses_nothing_iff_two_keys :
    (0 < 2 ∧ 2 < 2 ^ 31) ∧ ∃ t, new (fun k : ℕ => k) walkKernel 2 2 = .ok t ∧
      LosesNothing (fun k => k) walkKernel 2 t ∅
        [.put 0 5 0 [], .put 2 6 0 [], .resize 3 (by decide), .put 4 7 0 []] := by
  obtain ⟨t, hnew, hiff⟩ := growth_loses_nothing_iff (fun k : ℕ => k) walkKernel 0 2 Nat.two_pos
    (by decide) [.put 0 5 0 [], .put 2 6 0 [], .resize 3 (by decide), .put 4 7 0 []]
  refine ⟨⟨Nat.two_pos, by decide⟩, t, hnew, hiff.mpr ?_⟩
  simp only [Roomy, Growth.Room]
  decide

/-- The second put into a table of one bucket overwrites the first: `size()` is `2`, one
bucket is in use, and the first key is gone. -/
theorem put_into_full_table_loses_entry :
    ∃ t t', new (fun k : ℕ => k) walkKernel 2 1 = .ok t ∧
      exec (fun k : ℕ => k) walkKernel 2 t [.put 0 5 0 [], .put 1 6 0 []] = ([none, none], t') ∧
      t'.contains (fun k : ℕ => k) 0 = false ∧ t'.size = 2 ∧ occupied t'.buckets = 1 ∧
      ¬ LosesNothing (fun k : ℕ => k) walkKernel 2 t ∅ [.put 0 5 0 [], .put 1 6 0 []] := by
  refine ⟨cleared 1 0, ⟨[some ⟨1, 6, 0, [], 6⟩], 2, 0⟩, by decide, by decide, by decide, by decide,
    by decide, ?_⟩
  rintro ⟨-, t₁, hok₁, -, t₂, hok₂, hkeeps⟩
  obtain rfl : ⟨[some ⟨0, 5, 0, [], 5⟩], 1, 0⟩ = t₁ := Except.ok.inj hok₁
  obtain rfl : ⟨[some ⟨1, 6, 0, [], 6⟩], 2, 0⟩ = t₂ := Except.ok.inj hok₂
  exact absurd hkeeps.size_eq_occupied (by decide)

end StateTable

end MaiterStore
