/-
# Linear probing in a closed hash table

A closed hash table is a row of cells, each empty or holding one entry. A key is
looked for from its home cell on, one cell after the other with wrap-around,
until the key, an empty cell or the home cell itself is met again.

Two facts make the search exact. No key sits in two cells, and no empty cell lies
between the home cell of a stored key and the cell it sits in. Both survive
storing an entry in the cell the search stopped at, also when the row is full and
the entry there is overwritten. The search is exact in a full row as well.

Nothing is assumed of the hash function, and an entry is an arbitrary type with a
key.
-/

import Mathlib.Data.List.ReduceOption
import Mathlib.Data.Finset.Card
import Mathlib.Data.Int.ModEq
import Mathlib.Data.List.Nodup
import Mathlib.Logic.Function.Basic
import MaiterStore.CS.Run

namespace CS.LinearProbing

variable {K B A ε T : Type*}

/-- The entry in cell `i`, if there is one. -/
def cellAt (cells : List (Option B)) (i : ℕ) : Option B := cells[i]?.join

/-- The `i`-th cell on the way of a key with hash value `h` in a row of `n`. -/
def slot (h n i : ℕ) : ℕ := (h + i) % n

section Slot

variable {h n i j p : ℕ}

theorem slot_lt (hn : 0 < n) : slot h n i < n := Nat.mod_lt _ hn

/-- The step of the probe loop. -/
theorem slot_succ : (slot h n i + 1) % n = slot h n (i + 1) := by
  simp only [slot, Nat.mod_add_mod, Nat.add_assoc]

theorem slot_inj (hi : i < n) (hj : j < n) (hslot : slot h n i = slot h n j) : i = j := by
  have hmod : i ≡ j [MOD n] := Nat.ModEq.add_left_cancel' h hslot
  rwa [Nat.ModEq, Nat.mod_eq_of_lt hi, Nat.mod_eq_of_lt hj] at hmod

/-- The way of a key comes back to its home cell after exactly `n` steps. -/
theorem slot_succ_eq_slot_zero_iff (hi : i < n) : slot h n (i + 1) = slot h n 0 ↔ i + 1 = n := by
  constructor
  · intro hslot
    rcases Nat.lt_or_ge (i + 1) n with hlt | hge
    · exact absurd (slot_inj hlt (by omega) hslot) (by omega)
    · omega
  · rintro rfl
    simp [slot]

theorem exists_slot_eq (hp : p < n) : ∃ i < n, slot h n i = p := by
  -- the distance from the home cell to `p`, around the end of the row
  refine ⟨(p + (n - h % n)) % n, Nat.mod_lt _ (by omega), ?_⟩
  have hle : h % n ≤ n := (Nat.mod_lt _ (by omega)).le
  calc slot h n ((p + (n - h % n)) % n)
      = (h % n + (p + (n - h % n))) % n := by simp only [slot, Nat.add_mod_mod, Nat.mod_add_mod]
    _ = (p + n) % n := by congr 1; omega
    _ = p := by rw [Nat.add_mod_right, Nat.mod_eq_of_lt hp]

end Slot

section Cells

variable {cells : List (Option B)} {c d : B} {i j p : ℕ}

theorem cellAt_eq_some_iff : cellAt cells i = some c ↔ cells[i]? = some (some c) := by
  simp [cellAt, Option.join_eq_some_iff]

theorem lt_length_of_cellAt (hc : cellAt cells i = some c) : i < cells.length := by
  rw [cellAt_eq_some_iff] at hc
  exact (List.getElem?_eq_some_iff.mp hc).1

theorem cellAt_set_self (hp : p < cells.length) : cellAt (cells.set p (some c)) p = some c := by
  simp [cellAt, hp]

theorem cellAt_set_of_ne (hip : i ≠ p) : cellAt (cells.set p (some c)) i = cellAt cells i := by
  simp [cellAt, List.getElem?_set_ne hip.symm]

theorem cellAt_replicate (n : ℕ) : cellAt (List.replicate n (none : Option B)) i = none := by
  simp only [cellAt, List.getElem?_replicate]
  split <;> rfl

theorem mem_reduceOption_iff_cellAt :
    c ∈ cells.reduceOption ↔ ∃ i, cellAt cells i = some c := by
  rw [List.reduceOption_mem_iff, List.mem_iff_getElem?]
  simp only [cellAt_eq_some_iff]

/-- The number of cells in use. -/
def occupied (cells : List (Option B)) : ℕ := cells.reduceOption.length

theorem occupied_le_length (cells : List (Option B)) : occupied cells ≤ cells.length :=
  List.reduceOption_length_le cells

/-- A row with an empty cell is not fully in use. -/
theorem occupied_lt_length (hp : p < cells.length) (hnone : cellAt cells p = none) :
    occupied cells < cells.length := by
  have hcell : cells[p]? = some none := by
    rw [List.getElem?_eq_getElem hp]
    rw [cellAt, List.getElem?_eq_getElem hp] at hnone
    exact congrArg some hnone
  exact List.reduceOption_length_lt_iff.mpr (List.mem_of_getElem? hcell)

/-- A row whose cells are all in use counts them all. -/
theorem occupied_eq_length (hall : ∀ p < cells.length, (cellAt cells p).isSome) :
    occupied cells = cells.length := by
  refine List.reduceOption_length_eq_iff.mpr fun x hx => ?_
  obtain ⟨i, hi, rfl⟩ := List.mem_iff_getElem.mp hx
  simpa [cellAt, List.getElem?_eq_getElem hi] using hall i hi

theorem occupied_set_of_none (hp : p < cells.length) (hnone : cellAt cells p = none) :
    occupied (cells.set p (some c)) = occupied cells + 1 := by
  induction cells generalizing p with
  | nil => simp at hp
  | cons x cells ih =>
    cases p with
    | zero =>
      obtain rfl : x = none := by simpa [cellAt] using hnone
      simp [occupied]
    -- the written cell is further on, and the first one counts as before
    | succ p =>
      have htail := ih (p := p) (by simpa using hp) (by simpa [cellAt] using hnone)
      cases x <;> simp_all [occupied]

theorem occupied_set_of_some (hd : cellAt cells p = some d) :
    occupied (cells.set p (some c)) = occupied cells := by
  induction cells generalizing p with
  | nil => simp [cellAt] at hd
  | cons x cells ih =>
    cases p with
    | zero =>
      obtain rfl : x = some d := by simpa [cellAt] using hd
      simp [occupied]
    | succ p =>
      have htail := ih (p := p) (by simpa [cellAt] using hd)
      cases x <;> simp_all [occupied]

end Cells

variable [DecidableEq K]

/-! ## The search -/

/-- The probe loop from cell `b` for a key whose home cell is `start`: whether the
key was found, and the cell the loop stopped at. -/
def probe (key : B → K) (cells : List (Option B)) (k : K) (start : ℕ) : ℕ → ℕ → Bool × ℕ
  | 0, b => (false, b)
  | fuel + 1, b =>
    match cellAt cells b with
    | none => (false, b)
    | some c =>
      if key c = k then (true, b)
      else if (b + 1) % cells.length = start then (false, (b + 1) % cells.length)
      else probe key cells k start fuel ((b + 1) % cells.length)

/-- The whole probe loop for `k`. A row of `n` cells is left after at most `n`
iterations. -/
def find (hash : K → ℕ) (key : B → K) (cells : List (Option B)) (k : K) : Bool × ℕ :=
  probe key cells k (hash k % cells.length) cells.length (hash k % cells.length)

/-- The entry with key `k`, wherever it sits. -/
def lookup (key : B → K) (cells : List (Option B)) (k : K) : Option B :=
  cells.reduceOption.find? fun c => key c = k

/-- Store an entry in the cell the search for its key stops at. -/
def store (hash : K → ℕ) (key : B → K) (cells : List (Option B)) (c : B) : List (Option B) :=
  cells.set (find hash key cells (key c)).2 (some c)

/-- What makes the search exact: the row has a cell, no key sits in two cells, and
every cell on the way from the home of a stored key to its cell is in use. -/
structure Valid (hash : K → ℕ) (key : B → K) (cells : List (Option B)) : Prop where
  length_pos : 0 < cells.length
  unique : ∀ {i j : ℕ} {c d : B}, cellAt cells i = some c → cellAt cells j = some d →
    key c = key d → i = j
  chained : ∀ {i : ℕ} {c : B}, i < cells.length →
    cellAt cells (slot (hash (key c)) cells.length i) = some c →
    ∀ j < i, (cellAt cells (slot (hash (key c)) cells.length j)).isSome

variable {hash : K → ℕ} {key : B → K} {cells : List (Option B)} {c d : B} {k : K} {i p : ℕ}

/-- The first `i` cells on the way of `k` are in use by other keys. -/
def PassedBy (hash : K → ℕ) (key : B → K) (cells : List (Option B)) (k : K) (i : ℕ) : Prop :=
  ∀ j < i, ∃ d, cellAt cells (slot (hash k) cells.length j) = some d ∧ key d ≠ k

omit [DecidableEq K] in
theorem PassedBy.succ (hpassed : PassedBy hash key cells k i)
    (hd : cellAt cells (slot (hash k) cells.length i) = some d) (hne : key d ≠ k) :
    PassedBy hash key cells k (i + 1) := by
  intro j hj
  rcases Nat.lt_succ_iff_lt_or_eq.mp hj with hlt | rfl
  · exact hpassed j hlt
  · exact ⟨d, hd, hne⟩

/-- The three ways the probe loop ends: at the key, at an empty cell, or back at
the home cell of a row that is full of other keys. -/
inductive Found (hash : K → ℕ) (key : B → K) (cells : List (Option B)) (k : K) :
    Bool × ℕ → Prop
  | hit {i : ℕ} {c : B} (hi : i < cells.length)
      (hc : cellAt cells (slot (hash k) cells.length i) = some c) (hk : key c = k)
      (hpassed : PassedBy hash key cells k i) :
      Found hash key cells k (true, slot (hash k) cells.length i)
  | vacant {i : ℕ} (hi : i < cells.length)
      (hnone : cellAt cells (slot (hash k) cells.length i) = none)
      (hpassed : PassedBy hash key cells k i) :
      Found hash key cells k (false, slot (hash k) cells.length i)
  | full (hpassed : PassedBy hash key cells k cells.length) :
      Found hash key cells k (false, slot (hash k) cells.length 0)

/-- The loop invariant: after `i` iterations the loop is at the `i`-th cell of the
key's way and has passed by other keys only. -/
theorem found_probe (fuel : ℕ) (hi : i < cells.length) (hfuel : i + fuel = cells.length)
    (hpassed : PassedBy hash key cells k i) :
    Found hash key cells k (probe key cells k (slot (hash k) cells.length 0) fuel
      (slot (hash k) cells.length i)) := by
  induction fuel generalizing i with
  | zero => omega
  | succ fuel ih =>
    rw [probe]
    cases hcell : cellAt cells (slot (hash k) cells.length i) with
    | none => exact .vacant hi hcell hpassed
    | some c =>
      by_cases hk : key c = k
      · simpa only [hk, if_true] using Found.hit hi hcell hk hpassed
      -- the cell is in use by another key: the loop goes on, or is back at home
      · have hnext := hpassed.succ hcell hk
        simp only [hk, if_false, slot_succ, slot_succ_eq_slot_zero_iff hi]
        split_ifs with hwrap
        · rw [(slot_succ_eq_slot_zero_iff hi).mpr hwrap]
          exact .full (hwrap ▸ hnext)
        · exact ih (by omega) (by omega) hnext

theorem found_find (hash : K → ℕ) (key : B → K) (k : K) (hpos : 0 < cells.length) :
    Found hash key cells k (find hash key cells k) := by
  have hhome : hash k % cells.length = slot (hash k) cells.length 0 := by simp [slot]
  rw [find, hhome]
  exact found_probe cells.length hpos (by omega) fun j hj => absurd hj (Nat.not_lt_zero j)

theorem find_lt (hash : K → ℕ) (key : B → K) (k : K) (hpos : 0 < cells.length) :
    (find hash key cells k).2 < cells.length := by
  generalize hr : find hash key cells k = r
  have hfound := hr ▸ found_find hash key k hpos
  cases hfound <;> exact slot_lt hpos

/-- The loop reads nothing but the keys. -/
theorem probe_congr {cells' : List (Option B)} (hlength : cells'.length = cells.length)
    (hkeys : ∀ i, (cellAt cells' i).map key = (cellAt cells i).map key) (start fuel b : ℕ) :
    probe key cells' k start fuel b = probe key cells k start fuel b := by
  induction fuel generalizing b with
  | zero => rfl
  | succ fuel ih =>
    have hb := hkeys b
    rw [probe, probe, hlength]
    cases hcell : cellAt cells b with
    | none =>
      rw [hcell, Option.map_none, Option.map_eq_none_iff] at hb
      simp only [hb]
    | some c =>
      rw [hcell, Option.map_some] at hb
      obtain ⟨c', hc', hkey⟩ := Option.map_eq_some_iff.mp hb
      simp only [hc', hkey, ih]

/-- Replacing an entry by one with its key leaves every search as it was. -/
theorem find_set_of_key_eq (hc : cellAt cells p = some c) (hkey : key d = key c) :
    find hash key (cells.set p (some d)) k = find hash key cells k := by
  have hkeys : ∀ i, (cellAt (cells.set p (some d)) i).map key = (cellAt cells i).map key := by
    intro i
    by_cases hi : i = p
    · subst hi
      rw [cellAt_set_self (lt_length_of_cellAt hc), hc, Option.map_some, Option.map_some, hkey]
    · rw [cellAt_set_of_ne hi]
  rw [find, find, List.length_set]
  exact probe_congr List.length_set hkeys _ _ _

/-! ## Looking a key up -/

theorem lookup_eq_none_iff :
    lookup key cells k = none ↔ ∀ i c, cellAt cells i = some c → key c ≠ k := by
  simp only [lookup, List.find?_eq_none, mem_reduceOption_iff_cellAt, decide_eq_true_eq]
  exact ⟨fun h i c hc => h c ⟨i, hc⟩, fun h c ⟨i, hc⟩ => h i c hc⟩

theorem exists_cellAt_of_lookup (hlook : lookup key cells k = some c) :
    key c = k ∧ ∃ i, cellAt cells i = some c :=
  ⟨by simpa using List.find?_some hlook,
    mem_reduceOption_iff_cellAt.mp (List.mem_of_find?_eq_some hlook)⟩

@[simp] theorem lookup_replicate (n : ℕ) (k : K) :
    lookup key (List.replicate n (none : Option B)) k = none :=
  lookup_eq_none_iff.mpr fun i c hc => by simp [cellAt_replicate] at hc

namespace Valid

variable (hvalid : Valid hash key cells)
include hvalid

theorem lookup_eq_some (hc : cellAt cells i = some c) (hk : key c = k) :
    lookup key cells k = some c := by
  cases hlook : lookup key cells k with
  | none => exact absurd hk (lookup_eq_none_iff.mp hlook i c hc)
  | some d =>
    obtain ⟨hd, j, hj⟩ := exists_cellAt_of_lookup hlook
    obtain rfl := hvalid.unique hc hj (hk.trans hd.symm)
    rw [← hc, ← hj]

/-- If the search does not hit, the key is nowhere: an entry further along the way
would have the empty cell in its chain. -/
theorem lookup_eq_none_of_find (hfind : (find hash key cells k).1 = false) :
    lookup key cells k = none := by
  rw [lookup_eq_none_iff]
  -- suppose the key is in a cell: it is the `i`-th one on the way of the key
  rintro p c hc rfl
  obtain ⟨i, hi, rfl⟩ := exists_slot_eq (h := hash (key c)) (lt_length_of_cellAt hc)
  generalize hr : find hash key cells (key c) = r at hfind
  have hfound := hr ▸ found_find hash key (key c) hvalid.length_pos
  cases hfound with
  | hit => simp at hfind
  | full hpassed =>
    obtain ⟨d, hd, hne⟩ := hpassed i hi
    exact hne (by rw [Option.some_inj.mp (hd.symm.trans hc)])
  | @vacant j hj hnone hpassed =>
    -- compare with the empty cell `j` that the search stopped at
    rcases Nat.lt_trichotomy i j with hlt | rfl | hgt
    · obtain ⟨d, hd, hne⟩ := hpassed i hlt
      exact hne (by rw [Option.some_inj.mp (hd.symm.trans hc)])
    · simp [hnone] at hc
    · have := hvalid.chained hi hc j hgt
      simp [hnone] at this

theorem find_eq_true_iff : (find hash key cells k).1 = true ↔ (lookup key cells k).isSome := by
  constructor
  · intro hfind
    generalize hr : find hash key cells k = r at hfind
    have hfound := hr ▸ found_find hash key k hvalid.length_pos
    cases hfound with
    | hit hi hc hk => simp [hvalid.lookup_eq_some hc hk]
    | vacant | full => simp at hfind
  · intro hlook
    by_contra hfind
    simp [hvalid.lookup_eq_none_of_find (by simpa using hfind)] at hlook

/-- The search hits the cell of the entry that `lookup` reads. -/
theorem cellAt_find (hlook : lookup key cells k = some c) :
    cellAt cells (find hash key cells k).2 = some c := by
  have hfind : (find hash key cells k).1 = true :=
    hvalid.find_eq_true_iff.mpr (by rw [hlook]; rfl)
  generalize hr : find hash key cells k = r at hfind ⊢
  have hfound := hr ▸ found_find hash key k hvalid.length_pos
  cases hfound with
  | vacant | full => simp at hfind
  | hit hi hd hk => rw [hd, ← hvalid.lookup_eq_some hd hk, hlook]

/-- A search that misses stops at an empty cell unless the row is full. -/
theorem cellAt_find_eq_none (hlook : lookup key cells k = none)
    (hroom : occupied cells < cells.length) : cellAt cells (find hash key cells k).2 = none := by
  generalize hr : find hash key cells k = r
  have hfound := hr ▸ found_find hash key k hvalid.length_pos
  cases hfound with
  | hit hi hc hk => simp [hvalid.lookup_eq_some hc hk] at hlook
  | vacant hi hnone => exact hnone
  | full hpassed =>
    -- a search that comes back to the home cell has seen all cells in use
    have hfull : occupied cells = cells.length := by
      refine occupied_eq_length fun p hp => ?_
      obtain ⟨i, hi, rfl⟩ := exists_slot_eq (h := hash k) hp
      obtain ⟨d, hd, -⟩ := hpassed i hi
      simp [hd]
    omega

/-- Where a search stops, an entry with the searched key may be put: the cells
before it on the way are in use, and the key is in no other cell. -/
theorem exists_slot_find :
    ∃ i < cells.length, (find hash key cells k).2 = slot (hash k) cells.length i ∧
      (∀ j < i, (cellAt cells (slot (hash k) cells.length j)).isSome) ∧
      ∀ q d, q ≠ (find hash key cells k).2 → cellAt cells q = some d → key d ≠ k := by
  have hsome : ∀ {m i}, PassedBy hash key cells k m → i ≤ m →
      ∀ j < i, (cellAt cells (slot (hash k) cells.length j)).isSome := by
    intro m i hpassed him j hj
    obtain ⟨d, hd, -⟩ := hpassed j (by omega)
    simp [hd]
  have hmiss := fun hfind => lookup_eq_none_iff.mp (hvalid.lookup_eq_none_of_find (k := k) hfind)
  generalize hr : find hash key cells k = r at hmiss ⊢
  have hfound := hr ▸ found_find hash key k hvalid.length_pos
  cases hfound with
  | hit hi hc hk hpassed =>
    exact ⟨_, hi, rfl, hsome hpassed le_rfl,
      fun q d hq hd heq => hq (hvalid.unique hd hc (heq.trans hk.symm))⟩
  | vacant hi hnone hpassed =>
    exact ⟨_, hi, rfl, hsome hpassed le_rfl, fun q d _ hd => hmiss rfl q d hd⟩
  | full hpassed =>
    exact ⟨0, hvalid.length_pos, rfl, hsome hpassed (Nat.zero_le _),
      fun q d _ hd => hmiss rfl q d hd⟩

/-! ## Storing an entry -/

/-- Storing keeps the search exact, whether the entry is new, replaces one with the
same key, or overwrites another one in a full row. -/
theorem store (c : B) : Valid hash key (store hash key cells c) := by
  obtain ⟨i₀, hi₀, hslot, hchain, hother⟩ := hvalid.exists_slot_find (k := key c)
  have hlt := find_lt hash key (key c) hvalid.length_pos
  have hnew := cellAt_set_self (c := c) hlt
  simp only [LinearProbing.store]
  -- only what `exists_slot_find` says of the cell is needed from here on
  generalize (find hash key cells (key c)).2 = p at hslot hother hlt hnew ⊢
  refine ⟨by simpa using hvalid.length_pos, ?_, ?_⟩
  -- two equal keys: the new entry is at most one of them
  · intro i j a b ha hb hab
    by_cases hip : i = p <;> by_cases hjp : j = p
    · rw [hip, hjp]
    · rw [hip, hnew] at ha
      rw [cellAt_set_of_ne hjp] at hb
      obtain rfl := Option.some_inj.mp ha
      exact absurd hab.symm (hother j b hjp hb)
    · rw [hjp, hnew] at hb
      rw [cellAt_set_of_ne hip] at ha
      obtain rfl := Option.some_inj.mp hb
      exact absurd hab (hother i a hip ha)
    · rw [cellAt_set_of_ne hip] at ha
      rw [cellAt_set_of_ne hjp] at hb
      exact hvalid.unique ha hb hab
  · simp only [List.length_set]
    -- a cell in use stays in use, so a chain of the old row is one of the new row
    have hkeep : ∀ q, (cellAt cells q).isSome → (cellAt (cells.set p (some c)) q).isSome := by
      intro q hq
      by_cases hqp : q = p
      · simp [hqp, hnew]
      · rwa [cellAt_set_of_ne hqp]
    intro i a hi ha j hj
    -- the chain of the new entry is the way of the search, the others are old chains
    by_cases hip : slot (hash (key a)) cells.length i = p
    · rw [hip, hnew] at ha
      obtain rfl := Option.some_inj.mp ha
      obtain rfl := slot_inj hi hi₀ (hip.trans hslot)
      exact hkeep _ (hchain j hj)
    · rw [cellAt_set_of_ne hip] at ha
      exact hkeep _ (hvalid.chained hi ha j hj)

/-- The stored entry is read back. -/
theorem lookup_store_self (c : B) :
    lookup key (LinearProbing.store hash key cells c) (key c) = some c :=
  (hvalid.store c).lookup_eq_some
    (cellAt_set_self (find_lt hash key (key c) hvalid.length_pos)) rfl

/-- A key whose entry was not in the cell written to keeps its entry. -/
theorem lookup_store_of_ne (hne : k ≠ key c)
    (hcell : ∀ d, cellAt cells (find hash key cells (key c)).2 = some d → key d ≠ k) :
    lookup key (LinearProbing.store hash key cells c) k = lookup key cells k := by
  have hlt := find_lt hash key (key c) hvalid.length_pos
  have hnew := cellAt_set_self (c := c) hlt
  cases hlook : lookup key cells k with
  | some d =>
    obtain ⟨hd, i, hi⟩ := exists_cellAt_of_lookup hlook
    refine (hvalid.store c).lookup_eq_some (i := i) ?_ hd
    have hip : i ≠ (find hash key cells (key c)).2 := by
      rintro rfl
      exact hcell d hi hd
    rw [LinearProbing.store, cellAt_set_of_ne hip, hi]
  | none =>
    rw [lookup_eq_none_iff] at hlook ⊢
    intro i d hd
    by_cases hip : i = (find hash key cells (key c)).2
    · rw [LinearProbing.store, hip, hnew] at hd
      obtain rfl := Option.some_inj.mp hd
      exact hne.symm
    · rw [LinearProbing.store, cellAt_set_of_ne hip] at hd
      exact hlook i d hd

/-- Storing in a row with room, or under a key that is there already, changes the
entry of that key only. -/
theorem lookup_store (c : B)
    (hroom : (lookup key cells (key c)).isSome ∨ occupied cells < cells.length) (k : K) :
    lookup key (LinearProbing.store hash key cells c) k =
      if k = key c then some c else lookup key cells k := by
  split_ifs with hk
  · rw [hk, hvalid.lookup_store_self]
  · refine hvalid.lookup_store_of_ne hk fun d hd heq => ?_
    cases hlook : lookup key cells (key c) with
    | some e =>
      rw [hvalid.cellAt_find hlook] at hd
      obtain rfl := Option.some_inj.mp hd
      exact hk (heq.symm.trans (exists_cellAt_of_lookup hlook).1)
    | none =>
      rw [hvalid.cellAt_find_eq_none hlook (by simpa [hlook] using hroom)] at hd
      simp at hd

/-- Overwriting in a full row leaves the number of cells in use as it is. -/
theorem occupied_store_of_full (hfull : occupied cells = cells.length) :
    occupied (LinearProbing.store hash key cells c) = occupied cells := by
  have hlt := find_lt hash key (key c) hvalid.length_pos
  cases hcell : cellAt cells (find hash key cells (key c)).2 with
  | none => exact absurd (occupied_lt_length hlt hcell) (by omega)
  | some d => exact occupied_set_of_some hcell

/-! ## The keys in the row -/

omit [DecidableEq K] in
theorem nodup_keys : (cells.reduceOption.map key).Nodup := by
  -- the positions shift along the row, so the induction is over any row with `unique`
  have hpair : ∀ (l : List (Option B)),
      (∀ {i j : ℕ} {c d : B}, cellAt l i = some c → cellAt l j = some d → key c = key d → i = j) →
      (l.reduceOption.map key).Nodup := by
    intro l
    induction l with
    | nil => simp
    | cons x l ih =>
      intro hunique
      have htail := ih fun {i j c d} hc hd hcd => Nat.succ_injective
        (hunique (i := i + 1) (j := j + 1) (by simpa [cellAt] using hc)
          (by simpa [cellAt] using hd) hcd)
      cases x with
      | none => simpa using htail
      | some a =>
        simp only [List.reduceOption_cons_of_some, List.map_cons, List.nodup_cons]
        refine ⟨fun hmem => ?_, htail⟩
        obtain ⟨b, hb, hab⟩ := List.mem_map.mp hmem
        obtain ⟨j, hj⟩ := mem_reduceOption_iff_cellAt.mp hb
        have := hunique (i := 0) (j := j + 1) (by simp [cellAt]) (by simpa [cellAt] using hj)
          hab.symm
        omega
  exact hpair cells hvalid.unique

/-- The number of cells in use is the number of keys in the row. -/
theorem occupied_eq_card {keys : Finset K}
    (hkeys : ∀ k, k ∈ keys ↔ (lookup key cells k).isSome) : occupied cells = keys.card := by
  have hset : (cells.reduceOption.map key).toFinset = keys := by
    ext k
    rw [hkeys, List.mem_toFinset, Option.isSome_iff_exists]
    constructor
    · intro hmem
      obtain ⟨c, hc, hk⟩ := List.mem_map.mp hmem
      obtain ⟨i, hi⟩ := mem_reduceOption_iff_cellAt.mp hc
      exact ⟨c, hvalid.lookup_eq_some hi hk⟩
    · rintro ⟨c, hc⟩
      obtain ⟨hk, hi⟩ := exists_cellAt_of_lookup hc
      exact List.mem_map.mpr ⟨c, mem_reduceOption_iff_cellAt.mpr hi, hk⟩
  rw [← hset, List.toFinset_card_of_nodup hvalid.nodup_keys, List.length_map, occupied]

end Valid

omit [DecidableEq K] in
/-- A row of empty cells. -/
theorem valid_replicate (hash : K → ℕ) (key : B → K) {n : ℕ} (hn : 0 < n) :
    Valid hash key (List.replicate n none) := by
  refine ⟨by simpa using hn, fun hc => ?_, fun _ hc => ?_⟩ <;>
    simp [cellAt_replicate] at hc

@[simp] theorem length_store : (store hash key cells c).length = cells.length := by
  simp [store]

/-- Storing takes at most one more cell into use. -/
theorem occupied_store_le (hlt : (find hash key cells (key c)).2 < cells.length) :
    occupied (store hash key cells c) ≤ occupied cells + 1 := by
  rw [store]
  cases hcell : cellAt cells (find hash key cells (key c)).2 with
  | none => rw [occupied_set_of_none hlt hcell]
  | some d => rw [occupied_set_of_some hcell]; exact Nat.le_succ _

/-! ## Moving a row into another table

A table is resized by putting the entries of its old row, cell by cell, into a
fresh table. What `put` does there is left open: it may fail, and it may itself
change the size of the fresh table. -/

/-- Put the entries of a row into `t`, in the order of the cells. -/
def reinsert (put : B → T → Except ε T) : List (Option B) → T → Except ε T
  | [], t => .ok t
  | none :: cells, t => reinsert put cells t
  | some c :: cells, t => (put c t).bind (reinsert put cells)

omit [DecidableEq K] in
/-- Reinsertion is a loop over the entries of the row. -/
theorem reinsert_eq_forEach (put : B → T → Except ε T) (cells : List (Option B)) (t : T) :
    reinsert put cells t = Run.forEach put cells.reduceOption t := by
  induction cells generalizing t with
  | nil => rfl
  | cons x cells ih =>
    cases x with
    | none => exact ih t
    | some c =>
      rw [reinsert, List.reduceOption_cons_of_some, Run.forEach]
      congr 1
      funext t'
      exact ih t'

theorem lookup_some_cons :
    lookup key (some c :: cells) k = if key c = k then some c else lookup key cells k := by
  by_cases hk : key c = k <;> simp [lookup, hk]

/-- Reinsertion as an induction: `R j f t` relates the table after `j` puts to what
has been put so far, and `E` is what is known where a put stops the loop. The keys of a
row are put once each, so every put is of a key that `f` does not have. -/
theorem reinsert_spec {put : B → T → Except ε T} (val : B → A) {N : ℕ} {E : ε → Prop}
    {R : ℕ → (K → Option A) → T → Prop}
    (hput : ∀ j f t c, j < N → R j f t → f (key c) = none →
      Run.EndsIn E (R (j + 1) (Function.update f (key c) (some (val c)))) (put c t))
    {j : ℕ} {f : K → Option A} {t : T} (hN : j + occupied cells ≤ N)
    (hnodup : (cells.reduceOption.map key).Nodup)
    (hfresh : ∀ c ∈ cells.reduceOption, f (key c) = none) (hR : R j f t) :
    Run.EndsIn E (R (j + occupied cells) fun k => ((lookup key cells k).map val).or (f k))
      (reinsert put cells t) := by
  induction cells generalizing j f t with
  | nil =>
    show R _ _ t
    simpa [occupied, lookup] using hR
  | cons x cells ih =>
    cases x with
    | none => exact ih hN hnodup hfresh hR
    | some c =>
      simp only [occupied, List.reduceOption_cons_of_some, List.length_cons, List.map_cons,
        List.nodup_cons, List.mem_cons, forall_eq_or_imp] at hN hnodup hfresh
      apply (hput j f t c (by omega) hR hfresh.1).bind
      intro t₁ hR₁
      -- the key just put does not come again in the rest of the row
      have hfresh₁ : ∀ d ∈ cells.reduceOption,
          Function.update f (key c) (some (val c)) (key d) = none := by
        intro d hd
        have hne : key d ≠ key c := fun heq => hnodup.1 (heq ▸ List.mem_map_of_mem hd)
        rw [Function.update_of_ne hne, hfresh.2 d hd]
      have hrest := ih (j := j + 1) (by rw [occupied]; omega) hnodup.2 hfresh₁ hR₁
      -- what `f` is after the first put, and what the lookup in the whole row says, agree
      convert hrest using 2
      · simp only [occupied, List.reduceOption_cons_of_some, List.length_cons]
        omega
      · funext k
        rw [lookup_some_cons]
        by_cases hk : key c = k
        · have hnone : lookup key cells k = none := by
            refine lookup_eq_none_iff.mpr fun i d hd heq => hnodup.1 ?_
            rw [hk, ← heq]
            exact List.mem_map_of_mem (mem_reduceOption_iff_cellAt.mpr ⟨i, hd⟩)
          simp [hk, hnone]
        · rw [if_neg hk, Function.update_of_ne (Ne.symm hk)]

end CS.LinearProbing
