/-
# The hot-aware cache

`SStore` (`store/sstore.h`) looks up the data of a vertex. The vertices of the influence
file are kept in a map that never changes. The data of the others is read from the
adjacency store and cached by priority (`store/cache.h`): the cache has a map from keys to
values, a map from keys to priorities, and a multimap from priorities to keys that gives
the entry to evict.

The three containers stay in step, whatever is requested, and the cache does to the
priorities what `CS.PriorityCache` describes. So it is invisible in what `getData` returns,
and it keeps the hottest vertices up to the margin of its eviction test.

A multimap is the list of its pairs in order. The test `val + 0.02 < priority` is a
parameter of the cache where nothing depends on it.
-/

import Mathlib.Algebra.Order.Field.Rat
import Mathlib.Data.List.Sort
import Mathlib.Tactic.Linarith
import MaiterStore.CS.PriorityCache
import MaiterStore.Store.Adjacency

namespace MaiterStore

open CS.FiniteMap CS.PriorityCache

/-- What stops a lookup. -/
inductive StoreFault
  /-- `end()` of a container is dereferenced. -/
  | endIterator
  | read (e : ReadFault)
  deriving DecidableEq, Repr

/-! ## Containers -/

/-- `KVMap` (`store/kvmap.h`). -/
abbrev KVMap (K V : Type*) := Finmap fun _ : K => V

namespace KVMap

variable {K V : Type*} [DecidableEq K]

/-- `containsKey(key)`. -/
def containsKey (key : K) (m : KVMap K V) : Bool := decide (key ∈ m)

/-- `size()`. -/
def size (m : KVMap K V) : ℕ := m.keys.card

/-- `remove(key)`. -/
def remove (key : K) (m : KVMap K V) : KVMap K V := m.erase key

/-- `add(key, val)`. -/
def add (key : K) (val : V) (m : KVMap K V) : KVMap K V := m.insert key val

/-- `operator[](key)`, which does not test whether it has found the key. -/
def get (key : K) (m : KVMap K V) : Except StoreFault V :=
  (m.lookup key).elim (.error .endIterator) .ok

end KVMap

section Multimap

variable {K P : Type*} [LinearOrder P]

/-- `pk.insert(pair(priority, key))`: after the pairs of the same priority. -/
def insertPair (priority : P) (key : K) : List (P × K) → List (P × K)
  | [] => [(priority, key)]
  | e :: es =>
    if priority < e.1 then (priority, key) :: e :: es else e :: insertPair priority key es

theorem insertPair_perm (p : P) (k : K) (pk : List (P × K)) :
    (insertPair p k pk).Perm ((p, k) :: pk) := by
  induction pk with
  | nil => exact .refl _
  | cons e es ih =>
    rw [insertPair]
    split
    · exact .refl _
    · exact (ih.cons e).trans (.swap ..)

theorem insertPair_sorted (p : P) (k : K) {pk : List (P × K)}
    (hpk : pk.Pairwise fun a b => a.1 ≤ b.1) :
    (insertPair p k pk).Pairwise fun a b => a.1 ≤ b.1 := by
  induction pk with
  | nil => simp [insertPair]
  | cons e es ih =>
    obtain ⟨he, hes⟩ := List.pairwise_cons.mp hpk
    rw [insertPair]
    split_ifs with hlt
    · refine List.pairwise_cons.mpr ⟨fun a ha => ?_, hpk⟩
      rcases List.mem_cons.mp ha with rfl | ha
      · exact hlt.le
      · exact hlt.le.trans (he a ha)
    · refine List.pairwise_cons.mpr ⟨fun a ha => ?_, ih hes⟩
      rcases List.mem_cons.mp ((insertPair_perm p k es).mem_iff.mp ha) with rfl | ha
      · exact not_lt.mp hlt
      · exact he a ha

end Multimap

/-! ## The cache -/

/-- `Cache` (`store/cache.h`). -/
structure Cache (K V P : Type*) where
  pk : List (P × K)
  kp : KVMap K P
  kv : KVMap K V
  influMap : KVMap K V

namespace Cache

variable {K V P : Type*} [DecidableEq K]

/-- The cache after its constructor has loaded the influence file. -/
def new (influMap : KVMap K V) : Cache K V P := ⟨[], ∅, ∅, influMap⟩

/-- `containsInfluKey(key)`. -/
def containsInfluKey (key : K) (c : Cache K V P) : Bool := c.influMap.containsKey key

/-- `containsKey(key)`. -/
def containsKey (key : K) (c : Cache K V P) : Bool :=
  c.kv.containsKey key || c.influMap.containsKey key

/-- `getValue(key)`. -/
def getValue (key : K) (c : Cache K V P) : Except StoreFault V :=
  if c.containsInfluKey key then c.influMap.get key else c.kv.get key

variable [LinearOrder P]

/-- `add(key, val, priority)`. -/
def add (key : K) (val : V) (priority : P) (c : Cache K V P) : Cache K V P :=
  { c with
    kv := c.kv.add key val
    kp := c.kp.add key priority
    pk := insertPair priority key c.pk }

/-- `updatePrority(key, priority)`. The loop over `equal_range` erases the first pair of the
old priority and the key. -/
def updatePrority (key : K) (priority : P) (c : Cache K V P) : Except StoreFault (Cache K V P) :=
  (c.kp.get key).bind fun proir =>
    .ok { c with
      pk := insertPair priority key (c.pk.erase (proir, key))
      kp := (c.kp.remove key).add key priority }

/-- `deleteMin(priority)`, where `exceeds val priority` is the test
`val + 0.02 < priority`. -/
def deleteMin (exceeds : P → P → Bool) (priority : P) (c : Cache K V P) :
    Except StoreFault (Bool × Cache K V P) :=
  match c.pk with
  | [] => .error .endIterator
  | (val, key) :: rest =>
    if exceeds val priority then
      .ok (true, { c with pk := rest, kp := c.kp.remove key, kv := c.kv.remove key })
    else .ok (false, c)

/-- `addCache(key, val, priority)`, where `capacity` is `CACHE_SIZE` (100000 in
`store/const.h`). -/
def addCache (capacity : ℕ) (exceeds : P → P → Bool) (key : K) (val : V) (priority : P)
    (c : Cache K V P) : Except StoreFault (Cache K V P) :=
  -- hit, update priority
  if c.kv.containsKey key then c.updatePrority key priority
  else if c.kv.size < capacity then .ok (c.add key val priority)
  else
    (c.deleteMin exceeds priority).bind fun r =>
      .ok (if r.1 then r.2.add key val priority else r.2)

end Cache

/-- `SStore` (`store/sstore.h`). -/
structure SStore (P : Type*) where
  cache : Cache ℤ (List ℤ) P
  reader : Reader

namespace SStore

variable {P : Type*} [LinearOrder P] (capacity : ℕ) (exceeds : P → P → Bool)

def new (influMap : KVMap ℤ (List ℤ)) (reader : Reader) : SStore P := ⟨.new influMap, reader⟩

/-- `getData(k, d, priority)`, with the value it sets `d` to. -/
def getData (k : ℤ) (priority : P) (s : SStore P) : Except StoreFault (List ℤ × SStore P) :=
  if s.cache.containsKey k then
    (s.cache.getValue k).bind fun d =>
      if s.cache.containsInfluKey k then .ok (d, s)
      else
        (s.cache.addCache capacity exceeds k d priority).bind fun cache =>
          .ok (d, { s with cache })
  else
    ((s.reader.read k).mapError .read).bind fun d =>
      (s.cache.addCache capacity exceeds k d priority).bind fun cache =>
        .ok (d, { s with cache })

/-- A sequence of calls, with what each of them sets `d` to. -/
def run : List (ℤ × P) → SStore P → Except StoreFault (List (List ℤ) × SStore P)
  | [], s => .ok ([], s)
  | (k, priority) :: calls, s =>
    (getData capacity exceeds k priority s).bind fun r =>
      (run calls r.2).bind fun r' => .ok (r.1 :: r'.1, r'.2)

/-- The data of `k` without a cache. -/
def uncached (influMap : KVMap ℤ (List ℤ)) (reader : Reader) (k : ℤ) : Except ReadFault (List ℤ) :=
  (influMap.lookup k).elim (reader.read k) .ok

end SStore

/-! ## The three containers stay in step -/

namespace Cache

variable {K V P : Type*} [DecidableEq K] [LinearOrder P]

/-- The two maps have the same keys, none of them in the influence map, and the multimap has
one pair for each of them and nothing else. -/
structure Consistent (c : Cache K V P) : Prop where
  mem_iff : ∀ k, k ∈ c.kv ↔ k ∈ c.kp
  disjoint : ∀ k ∈ c.kv, k ∉ c.influMap
  count_eq : ∀ p k, c.pk.count (p, k) = if c.kp.lookup k = some p then 1 else 0
  sorted : c.pk.Pairwise fun a b => a.1 ≤ b.1

variable {c : Cache K V P} {k : K} {p : P}

theorem consistent_new (influMap : KVMap K V) : (new influMap : Cache K V P).Consistent where
  mem_iff k := iff_of_false Finmap.notMem_empty Finmap.notMem_empty
  disjoint k hk := absurd hk Finmap.notMem_empty
  count_eq p k := by simp [new]
  sorted := .nil

namespace Consistent

variable (hc : c.Consistent)
include hc

theorem size_eq : c.kv.size = c.kp.keys.card := by
  have hkeys : c.kv.keys = c.kp.keys := by
    ext k
    rw [Finmap.mem_keys, Finmap.mem_keys, hc.mem_iff]
  rw [KVMap.size, hkeys]

/-- A pair of the multimap is an entry of the cache. -/
theorem mem_pk_iff : (p, k) ∈ c.pk ↔ c.kp.lookup k = some p := by
  rw [← List.count_pos_iff, hc.count_eq]
  split_ifs with h <;> simp [h]

/-- The first pair of the multimap has minimal priority. -/
theorem isMin_head {rest : List (P × K)} (hpk : c.pk = (p, k) :: rest) : IsMin c.kp k p where
  lookup_eq := by
    rw [← hc.mem_pk_iff, hpk]
    exact List.mem_cons_self
  le i r hi := by
    have hmem : (r, i) ∈ c.pk := hc.mem_pk_iff.mpr hi
    rw [hpk] at hmem
    rcases List.mem_cons.mp hmem with heq | hmem
    · cases heq
      exact le_refl _
    · have hsorted := hc.sorted
      rw [hpk] at hsorted
      exact (List.pairwise_cons.mp hsorted).1 (r, i) hmem

/-- Adding a new key. -/
theorem add (hk : k ∉ c.kv) (hinflu : k ∉ c.influMap) (v : V) (p : P) :
    (c.add k v p).Consistent where
  mem_iff j := by
    change j ∈ c.kv.insert k v ↔ j ∈ c.kp.insert k p
    rw [Finmap.mem_insert, Finmap.mem_insert, hc.mem_iff]
  disjoint j hj := by
    rcases Finmap.mem_insert.mp hj with rfl | hj
    · exact hinflu
    · exact hc.disjoint j hj
  count_eq q j := by
    have hnone : c.kp.lookup k = none := by
      rw [Finmap.lookup_eq_none, ← hc.mem_iff]
      exact hk
    change (insertPair p k c.pk).count (q, j) = if (c.kp.insert k p).lookup j = some q then 1 else 0
    rw [(insertPair_perm p k c.pk).count_eq, List.count_cons, hc.count_eq]
    by_cases hj : j = k
    · subst hj
      simp [hnone]
    · simp [Finmap.lookup_insert_of_ne _ hj, Ne.symm hj]
  sorted := insertPair_sorted p k hc.sorted

/-- Removing the first pair and its key. -/
theorem remove {rest : List (P × K)} (hpk : c.pk = (p, k) :: rest) :
    Consistent { c with pk := rest, kp := c.kp.remove k, kv := c.kv.remove k } where
  mem_iff j := by
    change j ∈ c.kv.erase k ↔ j ∈ c.kp.erase k
    rw [Finmap.mem_erase, Finmap.mem_erase, hc.mem_iff]
  disjoint j hj := hc.disjoint j (Finmap.mem_erase.mp hj).2
  count_eq q j := by
    have hlook : c.kp.lookup k = some p := (hc.isMin_head hpk).lookup_eq
    have hcount := hc.count_eq q j
    rw [hpk, List.count_cons] at hcount
    change rest.count (q, j) = if (c.kp.erase k).lookup j = some q then 1 else 0
    by_cases hj : j = k
    · subst hj
      rw [hlook] at hcount
      by_cases hq : p = q
      · simpa [hq] using hcount
      · simpa [hq] using hcount
    · simpa [Finmap.lookup_erase_ne hj, Ne.symm hj] using hcount
  sorted := (List.pairwise_cons.mp (hpk ▸ hc.sorted)).2

/-- Replacing the priority of a key. -/
theorem replace {p₀ : P} (hlook : c.kp.lookup k = some p₀) (p : P) :
    Consistent { c with
      pk := insertPair p k (c.pk.erase (p₀, k)), kp := c.kp.insert k p } where
  mem_iff j := by
    change j ∈ c.kv ↔ j ∈ c.kp.insert k p
    rw [hc.mem_iff, Finmap.mem_insert, iff_or_self]
    rintro rfl
    exact Finmap.mem_of_lookup_eq_some hlook
  disjoint := hc.disjoint
  count_eq q j := by
    have hcount := hc.count_eq q j
    change (insertPair p k (c.pk.erase (p₀, k))).count (q, j) =
      if (c.kp.insert k p).lookup j = some q then 1 else 0
    rw [(insertPair_perm p k _).count_eq, List.count_cons, List.count_erase, hcount]
    by_cases hj : j = k
    · subst hj
      -- the only pair of the key is the one that was erased
      by_cases hq : p₀ = q
      · simp [hlook, hq]
      · simp [hlook, hq]
    · simp [Finmap.lookup_insert_of_ne _ hj, Ne.symm hj]
  sorted := insertPair_sorted p k (hc.sorted.sublist List.erase_sublist)

end Consistent

/-- `updatePrority` of a cached key replaces its priority. -/
theorem updatePrority_eq {p₀ : P} (hlook : c.kp.lookup k = some p₀) (p : P) :
    c.updatePrority k p = .ok { c with
      pk := insertPair p k (c.pk.erase (p₀, k)), kp := c.kp.insert k p } := by
  rw [updatePrority, KVMap.get, hlook]
  change Except.ok _ = Except.ok _
  rw [KVMap.add, KVMap.remove, insert_erase_self]

/-- What `addCache` does, on every path: the containers stay in step, the priorities make a
step of the abstract cache, and no value but that of the key comes in. -/
structure Adds (capacity : ℕ) (exceeds : P → P → Bool) (k : K) (v : V) (p : P)
    (c c' : Cache K V P) : Prop where
  consistent : c'.Consistent
  influMap_eq : c'.influMap = c.influMap
  step : Step capacity (fun q p => exceeds q p = true) c.kp k p c'.kp
  values : ∀ j u, c'.kv.lookup j = some u → c.kv.lookup j = some u ∨ j = k ∧ u = v

/-- `addCache` never dereferences an `end()`. -/
theorem addCache_spec (hc : c.Consistent) (hinflu : k ∉ c.influMap) {capacity : ℕ}
    (hcap : 0 < capacity) (exceeds : P → P → Bool) (v : V) (p : P) :
    ∃ c', c.addCache capacity exceeds k v p = .ok c' ∧ Adds capacity exceeds k v p c c' := by
  by_cases hk : k ∈ c.kv
  · obtain ⟨p₀, hlook⟩ := Finmap.mem_iff.mp ((hc.mem_iff k).mp hk)
    refine ⟨_, ?_, hc.replace hlook p, rfl, .hit ((hc.mem_iff k).mp hk), fun j u hj => .inl hj⟩
    rw [addCache, KVMap.containsKey, decide_eq_true hk, if_pos rfl, updatePrority_eq hlook]
  have hk' : k ∉ c.kp := mt (hc.mem_iff k).mpr hk
  have hmiss : c.kv.containsKey k = false := decide_eq_false hk
  by_cases hroom : c.kv.size < capacity
  · refine ⟨c.add k v p, ?_, hc.add hk hinflu v p, rfl, .add hk' (hc.size_eq ▸ hroom), ?_⟩
    · rw [addCache, hmiss, if_neg Bool.false_ne_true, if_pos hroom]
    · intro j u hj
      rcases lookup_insert_eq_some_iff.mp hj with ⟨rfl, rfl⟩ | ⟨-, hold⟩
      · exact .inr ⟨rfl, rfl⟩
      · exact .inl hold
  have hfull : capacity ≤ c.kp.keys.card := hc.size_eq ▸ not_lt.mp hroom
  -- a full cache has entries, so the multimap has a first pair
  obtain ⟨q, j, rest, hpk⟩ : ∃ q j rest, c.pk = (q, j) :: rest := by
    obtain ⟨i, hi⟩ := Finset.card_pos.mp (hcap.trans_le hfull)
    obtain ⟨r, hr⟩ := Finmap.mem_iff.mp (Finmap.mem_keys.mp hi)
    obtain ⟨⟨q, j⟩, rest, hpk⟩ :=
      List.exists_cons_of_ne_nil (List.ne_nil_of_mem (hc.mem_pk_iff.mpr hr))
    exact ⟨q, j, rest, hpk⟩
  have hmin : IsMin c.kp j q := hc.isMin_head hpk
  by_cases hexceeds : exceeds q p = true
  · have hrem := hc.remove hpk
    have hk₁ : k ∉ c.kv.remove j := notMem_erase_of_notMem hk
    refine ⟨_, ?_, hrem.add hk₁ hinflu v p, rfl, .evict hk' hfull hmin hexceeds, ?_⟩
    · rw [addCache, hmiss, if_neg Bool.false_ne_true, if_neg hroom, deleteMin]
      simp only [hpk, hexceeds, if_true, Except.bind]
    · intro i u hi
      rcases lookup_insert_eq_some_iff.mp hi with ⟨rfl, rfl⟩ | ⟨-, hold⟩
      · exact .inr ⟨rfl, rfl⟩
      · exact .inl (lookup_erase_eq_some_iff.mp hold).2
  · refine ⟨c, ?_, hc, rfl, .reject hk' hfull hmin hexceeds, fun i u hi => .inl hi⟩
    rw [addCache, hmiss, if_neg Bool.false_ne_true, if_neg hroom, deleteMin]
    simp only [hpk, hexceeds, if_false, Except.bind, Bool.false_eq_true]

end Cache

/-! ## Calls of `getData` -/

namespace SStore

variable {P : Type*} [LinearOrder P] {capacity : ℕ} {exceeds : P → P → Bool}
  {influMap : KVMap ℤ (List ℤ)} {reader : Reader} {s : SStore P} {k : ℤ} {p : P}

/-- What holds between calls: the cached values are those of the adjacency store. -/
structure Sound (capacity : ℕ) (influMap : KVMap ℤ (List ℤ)) (reader : Reader) (s : SStore P) :
    Prop where
  reader_eq : s.reader = reader
  influMap_eq : s.cache.influMap = influMap
  consistent : s.cache.Consistent
  card_le : s.cache.kp.keys.card ≤ capacity
  values : ∀ k d, s.cache.kv.lookup k = some d → reader.read k = .ok d

theorem sound_new (capacity : ℕ) (influMap : KVMap ℤ (List ℤ)) (reader : Reader) :
    Sound capacity influMap reader (new influMap reader : SStore P) where
  reader_eq := rfl
  influMap_eq := rfl
  consistent := Cache.consistent_new influMap
  card_le := by simp [new, Cache.new]
  values k d h := by simp [new, Cache.new] at h

/-- A call of `addCache` with the value of the adjacency store. -/
theorem Sound.addCache (hs : Sound capacity influMap reader s) (hcap : 0 < capacity)
    (exceeds : P → P → Bool) (hinflu : k ∉ influMap) {d : List ℤ}
    (hread : reader.read k = .ok d) (p : P) :
    ∃ cache, s.cache.addCache capacity exceeds k d p = .ok cache ∧
      Sound capacity influMap reader { s with cache } ∧
      Step capacity (fun q p => exceeds q p = true) s.cache.kp k p cache.kp := by
  obtain ⟨cache, hok, hadds⟩ :=
    Cache.addCache_spec hs.consistent (hs.influMap_eq ▸ hinflu) hcap exceeds d p
  refine ⟨cache, hok, ?_, hadds.step⟩
  refine ⟨hs.reader_eq, hadds.influMap_eq.trans hs.influMap_eq, hadds.consistent,
    hadds.step.card_le hs.card_le, fun j u hj => ?_⟩
  rcases hadds.values j u hj with hold | ⟨rfl, rfl⟩
  · exact hs.values j u hold
  · exact hread

/-- A call of `getData` returns what there is without a cache. Unless the key is in the
influence map it is a request to the cache. -/
theorem getData_spec (hs : Sound capacity influMap reader s) (hcap : 0 < capacity)
    (exceeds : P → P → Bool) (hrange : k ∉ influMap → ∃ d, reader.read k = .ok d) (p : P) :
    ∃ d s', getData capacity exceeds k p s = .ok (d, s') ∧ uncached influMap reader k = .ok d ∧
      Sound capacity influMap reader s' ∧
      (k ∈ influMap ∧ s' = s ∨ k ∉ influMap ∧
        Step capacity (fun q p => exceeds q p = true) s.cache.kp k p s'.cache.kp) := by
  by_cases hinflu : k ∈ influMap
  · obtain ⟨d, hd⟩ := Finmap.mem_iff.mp hinflu
    have hcontains : s.cache.containsInfluKey k = true := by
      rw [Cache.containsInfluKey, hs.influMap_eq]
      exact decide_eq_true hinflu
    have hvalue : s.cache.getValue k = .ok d := by
      rw [Cache.getValue, hcontains, if_pos rfl, hs.influMap_eq, KVMap.get, hd]
      rfl
    refine ⟨d, s, ?_, by rw [uncached, hd]; rfl, hs, .inl ⟨hinflu, rfl⟩⟩
    have hkey : s.cache.containsKey k = true := by
      rw [Cache.containsKey, Bool.or_eq_true]
      exact .inr hcontains
    rw [getData, hkey, if_pos rfl, hvalue]
    simp only [Except.bind, hcontains, if_true]
  have hcontains : s.cache.containsInfluKey k = false := by
    rw [Cache.containsInfluKey, hs.influMap_eq]
    exact decide_eq_false hinflu
  have huncached : uncached influMap reader k = reader.read k := by
    rw [uncached, Finmap.lookup_eq_none.mpr hinflu]
    rfl
  obtain ⟨d, hread⟩ := hrange hinflu
  obtain ⟨cache, hok, hsound, hstep⟩ := hs.addCache hcap exceeds hinflu hread p
  refine ⟨d, { s with cache }, ?_, huncached.trans hread, hsound, .inr ⟨hinflu, hstep⟩⟩
  by_cases hk : k ∈ s.cache.kv
  -- a cached value is the one that would be read
  · obtain ⟨d', hd'⟩ := Finmap.mem_iff.mp hk
    have hd : d' = d := Except.ok.inj ((hs.values k d' hd').symm.trans hread)
    have hkey : s.cache.containsKey k = true := by
      rw [Cache.containsKey, Bool.or_eq_true]
      exact .inl (decide_eq_true hk)
    have hvalue : s.cache.getValue k = .ok d := by
      rw [Cache.getValue, hcontains, if_neg Bool.false_ne_true, KVMap.get, hd', hd]
      rfl
    rw [getData, hkey, if_pos rfl, hvalue]
    simp only [Except.bind, hcontains, Bool.false_eq_true, if_false, hok]
  · have hkey : s.cache.containsKey k = false := by
      rw [Cache.containsKey, Bool.or_eq_false_iff]
      exact ⟨decide_eq_false hk, hcontains⟩
    rw [getData, hkey, if_neg Bool.false_ne_true, hs.reader_eq, hread]
    simp only [Except.mapError, Except.bind, hok]

/-! ## Whole runs -/

/-- One more call at the end of a run. -/
theorem run_concat {calls : List (ℤ × P)} {ds : List (List ℤ)} {s s' s'' : SStore P} {d : List ℤ}
    (hrun : run capacity exceeds calls s = .ok (ds, s'))
    (hget : getData capacity exceeds k p s' = .ok (d, s'')) :
    run capacity exceeds (calls ++ [(k, p)]) s = .ok (ds ++ [d], s'') := by
  induction calls generalizing s ds with
  | nil =>
    cases hrun
    simp [run, hget, Except.bind]
  | cons call calls ih =>
    obtain ⟨j, q⟩ := call
    simp only [run, List.cons_append] at hrun ⊢
    cases hfirst : getData capacity exceeds j q s with
    | error e =>
      rw [hfirst] at hrun
      cases hrun
    | ok r =>
      rw [hfirst] at hrun
      simp only [Except.bind] at hrun ⊢
      cases hrest : run capacity exceeds calls r.2 with
      | error e =>
        rw [hrest] at hrun
        cases hrun
      | ok r' =>
        rw [hrest] at hrun
        cases hrun
        rw [ih hrest]
        rfl

/-- The last priority requested for each key. -/
def lastRequested (calls : List (ℤ × P)) : ℤ → Option P :=
  calls.foldl (fun last call => Function.update last call.1 (some call.2)) fun _ => none

omit [LinearOrder P] in
theorem lastRequested_concat (calls : List (ℤ × P)) (k : ℤ) (p : P) :
    lastRequested (calls ++ [(k, p)]) = Function.update (lastRequested calls) k (some p) := by
  rw [lastRequested, List.foldl_append]
  rfl

omit [LinearOrder P] in
/-- The last priority of a key was requested for it. -/
theorem mem_of_lastRequested {calls : List (ℤ × P)} (h : lastRequested calls k = some p) :
    (k, p) ∈ calls := by
  induction calls using List.reverseRecOn with
  | nil => cases h
  | append_singleton calls call ih =>
    obtain ⟨j, q⟩ := call
    rw [lastRequested_concat] at h
    by_cases hj : k = j
    · subst hj
      rw [Function.update_self, Option.some_inj] at h
      simp [h]
    · rw [Function.update_of_ne hj] at h
      exact List.mem_append_left _ (ih h)

/-- **Runs of `getData`.** Every call returns what there is without a cache. What every step
of the abstract cache keeps holds of the priorities at the end; `J` is what is known of the
calls that were requests to the cache. -/
theorem run_spec (hcap : 0 < capacity) (exceeds : P → P → Bool) {calls : List (ℤ × P)}
    (hrange : ∀ call ∈ calls, call.1 ∉ influMap → ∃ d, reader.read call.1 = .ok d)
    {J : List (ℤ × P) → Held ℤ P → Prop} (hinit : J [] ∅)
    (hinflu : ∀ calls' k p held, calls' ++ [(k, p)] <+: calls → k ∈ influMap → J calls' held →
      J (calls' ++ [(k, p)]) held)
    (hstep : ∀ calls' k p held held', calls' ++ [(k, p)] <+: calls → k ∉ influMap → J calls' held →
      Step capacity (fun q p => exceeds q p = true) held k p held' →
      J (calls' ++ [(k, p)]) held') :
    ∃ ds s, run capacity exceeds calls (new influMap reader) = .ok (ds, s) ∧
      ds.map Except.ok = calls.map (fun call => uncached influMap reader call.1) ∧
      Sound capacity influMap reader s ∧ J calls s.cache.kp := by
  -- for all first parts of the calls, by induction on the last of them
  suffices h : ∀ calls', calls' <+: calls →
      ∃ ds s, run capacity exceeds calls' (new influMap reader) = .ok (ds, s) ∧
        ds.map Except.ok = calls'.map (fun call => uncached influMap reader call.1) ∧
        Sound capacity influMap reader s ∧ J calls' s.cache.kp from h calls (List.prefix_refl _)
  intro calls'
  induction calls' using List.reverseRecOn with
  | nil =>
    intro _
    exact ⟨[], new influMap reader, rfl, rfl, sound_new capacity influMap reader, hinit⟩
  | append_singleton calls' call ih =>
    intro hpre
    obtain ⟨k, p⟩ := call
    obtain ⟨ds, s, hrun, hds, hsound, hJ⟩ := ih ((List.prefix_append _ _).trans hpre)
    have hmem : (k, p) ∈ calls := hpre.subset (by simp)
    obtain ⟨d, s', hget, hd, hsound', hcase⟩ :=
      getData_spec hsound hcap exceeds (hrange _ hmem) p
    refine ⟨ds ++ [d], s', run_concat hrun hget, ?_, hsound', ?_⟩
    · rw [List.map_append, List.map_append, hds, List.map_singleton, List.map_singleton, hd]
    · rcases hcase with ⟨hk, rfl⟩ | ⟨hk, hst⟩
      · exact hinflu calls' k p _ hpre hk hJ
      · exact hstep calls' k p _ _ hpre hk hJ hst

/-- **The cache is transparent and bounded.** Whatever is requested, every call returns the
value of the influence map or what the reader reads, the containers have the same keys,
none of them in the influence map, the multimap has one pair for each of them and nothing
else, and there are at most `capacity` of them. -/
theorem getData_transparent (hcap : 0 < capacity) (exceeds : P → P → Bool)
    (influMap : KVMap ℤ (List ℤ)) (reader : Reader) (calls : List (ℤ × P))
    (hrange : ∀ call ∈ calls, call.1 ∉ influMap → ∃ d, reader.read call.1 = .ok d) :
    ∃ ds s, run capacity exceeds calls (new influMap reader) = .ok (ds, s) ∧
      ds.map Except.ok = calls.map (fun call => uncached influMap reader call.1) ∧
      (∀ k, k ∈ s.cache.kv ↔ k ∈ s.cache.kp) ∧
      (∀ k ∈ s.cache.kv, k ∉ influMap) ∧
      (∀ p k, s.cache.pk.count (p, k) = if s.cache.kp.lookup k = some p then 1 else 0) ∧
      s.cache.kv.size ≤ capacity := by
  obtain ⟨ds, s, hrun, hds, hsound, -⟩ := run_spec hcap exceeds hrange
    (J := fun _ _ => True) trivial (fun _ _ _ _ _ _ _ => trivial) fun _ _ _ _ _ _ _ _ _ => trivial
  refine ⟨ds, s, hrun, hds, hsound.consistent.mem_iff, fun k hk => ?_,
    hsound.consistent.count_eq, hsound.consistent.size_eq.trans_le hsound.card_le⟩
  rw [← hsound.influMap_eq]
  exact hsound.consistent.disjoint k hk

/-- A store of two rows. -/
def twoRows : Reader := ⟨[0, 1, 3], [7, 8, 9]⟩

/-- The eviction test `val + 0.02 < priority` on exact numbers. -/
def hotter (val priority : ℚ) : Bool := decide (val + 1 / 50 < priority)

theorem getData_transparent_two_rows :
    ∃ ds s, run 1 hotter [(0, 1), (1, 5), (0, 2), (1, 6)] (new ∅ twoRows) = .ok (ds, s) ∧
      ds.map (Except.ok (ε := ReadFault)) = [.ok [7], .ok [8, 9], .ok [7], .ok [8, 9]] ∧
        s.cache.kv.size ≤ 1 := by
  obtain ⟨ds, s, hrun, hds, -, -, -, hsize⟩ :=
    getData_transparent one_pos hotter ∅ twoRows [(0, 1), (1, 5), (0, 2), (1, 6)] (by
      intro call hcall _
      simp only [List.mem_cons, List.not_mem_nil, or_false] at hcall
      rcases hcall with rfl | rfl | rfl | rfl <;> exact ⟨_, rfl⟩)
  exact ⟨ds, s, hrun, hds, hsize⟩

/-! ## The hottest vertices -/

/-- The last priorities of the keys that the cache is asked for. -/
def lastCached (influMap : KVMap ℤ (List ℤ)) (calls : List (ℤ × P)) (k : ℤ) : Option P :=
  if k ∈ influMap then none else lastRequested calls k

omit [LinearOrder P] in
theorem lastCached_concat_of_mem {calls : List (ℤ × P)} (hk : k ∈ influMap) (p : P) :
    lastCached influMap (calls ++ [(k, p)]) = lastCached influMap calls := by
  funext j
  by_cases hj : j ∈ influMap
  · rw [lastCached, lastCached, if_pos hj, if_pos hj]
  · have hne : j ≠ k := fun heq => hj (heq ▸ hk)
    rw [lastCached, lastCached, lastRequested_concat, Function.update_of_ne hne]

omit [LinearOrder P] in
theorem lastCached_concat_of_notMem {calls : List (ℤ × P)} (hk : k ∉ influMap) (p : P) :
    lastCached influMap (calls ++ [(k, p)]) =
      Function.update (lastCached influMap calls) k (some p) := by
  funext j
  by_cases hj : j = k
  · subst hj
    rw [lastCached, if_neg hk, lastRequested_concat, Function.update_self, Function.update_self]
  · rw [Function.update_of_ne hj, lastCached, lastCached, lastRequested_concat,
      Function.update_of_ne hj]

/-- **The cache keeps the hottest vertices.** If the priorities requested for a key never
decrease, then a key that was requested and is neither in the influence map nor in the cache
was last requested with at most the minimal priority in the cache plus `0.02`, and the cache
is full. -/
theorem cache_keeps_hottest (hcap : 0 < capacity) (influMap : KVMap ℤ (List ℤ)) (reader : Reader)
    (calls : List (ℤ × ℚ))
    (hrange : ∀ call ∈ calls, call.1 ∉ influMap → ∃ d, reader.read call.1 = .ok d)
    (hgrow : calls.Pairwise fun a b => a.1 = b.1 → a.2 ≤ b.2) :
    ∃ ds s, run capacity hotter calls (new influMap reader) = .ok (ds, s) ∧
      ∀ k p, lastRequested calls k = some p → k ∉ influMap → k ∉ s.cache.kv →
        s.cache.kv.size = capacity ∧ ∀ j q, s.cache.kp.lookup j = some q → p ≤ q + 1 / 50 := by
  have hmono : Monotone fun q : ℚ => q + 1 / 50 := fun a b hab => by
    change a + 1 / 50 ≤ b + 1 / 50
    linarith
  have hraise : ∀ q : ℚ, q ≤ q + 1 / 50 := fun q => by linarith
  have hinit : Bounded capacity (fun q : ℚ => q + 1 / 50) (lastCached influMap []) ∅ := by
    have hnone : lastCached influMap ([] : List (ℤ × ℚ)) = fun _ => none := by
      funext k
      exact ite_self none
    rw [hnone]
    exact bounded_empty capacity _
  have hskip : ∀ calls' k (p : ℚ) held, calls' ++ [(k, p)] <+: calls → k ∈ influMap →
      Bounded capacity (fun q : ℚ => q + 1 / 50) (lastCached influMap calls') held →
      Bounded capacity (fun q : ℚ => q + 1 / 50)
        (lastCached influMap (calls' ++ [(k, p)])) held := by
    intro calls' k p held _ hk hb
    rwa [lastCached_concat_of_mem hk]
  have hrequest : ∀ calls' k (p : ℚ) held held', calls' ++ [(k, p)] <+: calls → k ∉ influMap →
      Bounded capacity (fun q : ℚ => q + 1 / 50) (lastCached influMap calls') held →
      Step capacity (fun q p => hotter q p = true) held k p held' →
      Bounded capacity (fun q : ℚ => q + 1 / 50) (lastCached influMap (calls' ++ [(k, p)]))
        held' := by
    intro calls' k p held held' hpre hk hb hstep
    rw [lastCached_concat_of_notMem hk]
    have hstep' : Step capacity (fun q p : ℚ => q + 1 / 50 < p) held k p held' := by
      simpa only [hotter, decide_eq_true_eq] using hstep
    refine hstep'.bounded hmono hraise hb fun p₀ hp₀ => ?_
    -- the earlier request for `k` stands before this one
    rw [lastCached, if_neg hk] at hp₀
    have hpair := List.pairwise_append.mp (hgrow.sublist hpre.sublist)
    exact hpair.2.2 (k, p₀) (mem_of_lastRequested hp₀) (k, p) List.mem_cons_self rfl
  obtain ⟨ds, s, hrun, -, hsound, hbound⟩ := run_spec hcap hotter hrange hinit hskip hrequest
  refine ⟨ds, s, hrun, fun k p hlast hinflu hout => ?_⟩
  have hlast' : lastCached influMap calls k = some p := by rwa [lastCached, if_neg hinflu]
  have hout' : k ∉ s.cache.kp := mt (hsound.consistent.mem_iff k).mpr hout
  exact ⟨hsound.consistent.size_eq.trans (hbound.full k p hlast' hout'),
    hbound.le_raise k p hlast' hout'⟩

/-- The second key evicts the first, which is then rejected with priority `2`. -/
theorem cache_keeps_hottest_two_rows :
    ∃ ds s, run 1 hotter [(0, 1), (1, 5), (0, 2)] (new ∅ twoRows) = .ok (ds, s) ∧
      0 ∉ s.cache.kv ∧ s.cache.kv.size = 1 ∧
      ∀ j q, s.cache.kp.lookup j = some q → 2 ≤ q + 1 / 50 := by
  obtain ⟨ds, s, hrun, hbound⟩ :=
    cache_keeps_hottest one_pos ∅ twoRows [(0, 1), (1, 5), (0, 2)] (by
      intro call hcall _
      simp only [List.mem_cons, List.not_mem_nil, or_false] at hcall
      rcases hcall with rfl | rfl | rfl <;> exact ⟨_, rfl⟩) (by simp)
  have hout : 0 ∉ s.cache.kv := by
    have heval : ((run 1 hotter [(0, 1), (1, 5), (0, 2)] (new ∅ twoRows)).toOption.map fun r =>
        decide (0 ∈ r.2.cache.kv)) = some false := by decide +kernel
    rw [hrun] at heval
    exact of_decide_eq_false (Option.some.inj heval)
  exact ⟨ds, s, hrun, hout, hbound 0 2 (by decide) Finmap.notMem_empty hout⟩

end SStore

end MaiterStore
