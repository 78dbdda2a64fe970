/-
# Replaying the delta log of a shard

While a checkpoint is open, a worker that applies a put request also writes its pairs to
the delta log of the shard, with the text `"0"` in place of `F2` and `F3`. Restoring the
shard reads the checkpoint and then the log.

The live path accumulates a pair into `F1`. Replay puts a record: the value of the pair
as `F1`, and the decoded placeholders as `F2` and `F3`. The placeholder is one byte long,
so what it is decoded as may depend on the memory behind it. The two paths agree on a key
exactly when its fields happen to be what the last placeholders are read as and
accumulating its logged values comes to the last of them.
-/

import MaiterStore.CS.FixedWidth
import MaiterStore.Kernel.LocalTable

namespace MaiterStore

open CS.FixedWidth CS.LinearProbing CS.Run

/-- The chunks of an entry, in the order of the file. -/
def Entry.chunks (e : Entry) : List Bytes := [e.k, e.v1, e.v2, e.v3]

theorem foldl_writeEntryToFile (es : List Entry) (file : List Bytes) :
    es.foldl writeEntryToFile file = file ++ es.flatMap Entry.chunks := by
  induction es generalizing file with
  | nil => simp
  | cons e es ih => simp [ih, writeEntryToFile, Entry.chunks]

namespace LocalTable

variable {K V D : Type*} (m : Marshals K V D)

/-- The file that a checkpoint of a table stands for: an entry for every bucket in use. -/
def image (t : StateTable K V D) : List Bytes :=
  (t.buckets.reduceOption.map (entryOf m)).foldl writeEntryToFile []

variable [DecidableEq K] (hash : K → ℕ) (kern : IterateKernel K V D)

/-- What `HandlePutRequest` does with a put request for the shard while it logs:
`ApplyUpdates`, then `write_delta`. -/
def handleLogged (put : KVData) (lt : LocalTable K V D) : Except (Fault K) (LocalTable K V D) :=
  match applyUpdates m hash kern put lt.table with
  | .error e => .error e.1
  | .ok table => writeDelta put { lt with table }

/-- The values logged for `k` in order, each with the memory behind the strings of its round. -/
def logged : List (K × V) → (ℕ → Behind) → K → List (V × Behind)
  | [], _, _ => []
  | kv :: kvs, memory, k =>
    (if kv.1 = k then [(kv.2, memory 0)] else []) ++ logged kvs (fun i => memory (i + 1)) k

/-- For every logged key that the table has: accumulating its logged values comes to the
last of them, and its `F2` and `F3` are what the texts `"0"` logged with that value are read as. -/
def ReplayHarmless (base : StateTable K V D) (pairs : List (K × V)) (memory : ℕ → Behind) : Prop :=
  ∀ k r, base.get hash k = .ok (k, r) → ∀ e ∈ (logged pairs memory k).getLast?,
    ((logged pairs memory k).map Prod.fst).foldl kern.accumulate r.1 = e.1 ∧
      r.2.1 = m.v2marshal.read zeroText e.2.v2 ∧ r.2.2 = m.v3marshal.read zeroText e.2.v3

variable {m} {hash} {kern} {t : StateTable K V D} {map : Finmap fun _ : K => V × V × D} {n : ℕ}

/-! ## Reading a file back -/

/-- The rounds of a loop, each with the memory behind its strings. -/
def rounds (es : List Entry) (memory : ℕ → Behind) : List (Entry × Behind) :=
  es.mapIdx fun i e => (e, memory i)

theorem rounds_cons (e : Entry) (es : List Entry) (memory : ℕ → Behind) :
    rounds (e :: es) memory = (e, memory 0) :: rounds es fun i => memory (i + 1) := by
  rw [rounds, List.mapIdx_cons]
  rfl

/-- A file of whole entries is read entry by entry. -/
theorem replay_chunks (fuel : ℕ) (es : List Entry) (n : ℕ) (hn : es.length < n)
    (memory : ℕ → Behind) (t : StateTable K V D) :
    replay m hash kern fuel n (es.flatMap Entry.chunks) memory t =
      forEach (fun r => updateStr m hash kern fuel r.1 r.2) (rounds es memory) t := by
  induction es generalizing n memory t with
  | nil =>
    obtain ⟨n, rfl⟩ := Nat.exists_eq_succ_of_ne_zero (Nat.ne_of_gt hn)
    rfl
  | cons e es ih =>
    obtain ⟨n, rfl⟩ := Nat.exists_eq_succ_of_ne_zero (Nat.ne_of_gt (Nat.zero_lt_of_lt hn))
    -- the four reads of a round take exactly the chunks of one entry
    have hread : readEntryFromFile ((e :: es).flatMap Entry.chunks) =
        some (e, es.flatMap Entry.chunks) := rfl
    rw [rounds_cons, forEach, replay, hread]
    simp only
    congr 1
    funext t'
    exact ih n (by simpa using hn) (fun i => memory (i + 1)) t'

theorem replay_file (fuel : ℕ) (es : List Entry) (memory : ℕ → Behind) (t : StateTable K V D) :
    replay m hash kern fuel ((es.foldl writeEntryToFile []).length + 1)
        (es.foldl writeEntryToFile []) memory t =
      forEach (fun r => updateStr m hash kern fuel r.1 r.2) (rounds es memory) t := by
  rw [foldl_writeEntryToFile, List.nil_append]
  apply replay_chunks
  induction es with
  | nil => simp
  | cons e es ih =>
    simp only [List.flatMap_cons, Entry.chunks, List.length_cons, List.length_append] at ih ⊢
    omega

/-- An entry of a table is read back whatever is behind its strings. -/
theorem updateStr_entryOf (fuel : ℕ) (b : StateTable.Bucket K V D) (behind : Behind) :
    updateStr m hash kern fuel (entryOf m b) behind =
      StateTable.put hash kern fuel b.k b.v1 b.v2 b.v3 := by
  funext t
  rw [updateStr, entryOf, Marshal.read_marshal, Marshal.read_marshal, Marshal.read_marshal,
    Marshal.read_marshal]

theorem forEach_entries (fuel : ℕ) (bs : List (StateTable.Bucket K V D)) (memory : ℕ → Behind)
    (t : StateTable K V D) :
    forEach (fun r => updateStr m hash kern fuel r.1 r.2) (rounds (bs.map (entryOf m)) memory) t =
      forEach (fun b => StateTable.put hash kern fuel b.k b.v1 b.v2 b.v3) bs t := by
  induction bs generalizing memory t with
  | nil => rfl
  | cons b bs ih =>
    rw [List.map_cons, rounds_cons, forEach, forEach]
    simp only [updateStr_entryOf]
    congr 1
    funext t'
    exact ih _ t'

/-- Reading the image of a table into a fresh one of `n` buckets. -/
theorem replay_image (m : Marshals K V D) (kern : IterateKernel K V D) (fuel : ℕ)
    (hrep : Represents hash StateTable.Bucket.k StateTable.Bucket.fields t.buckets map)
    (hn : n ≠ 0) (hfit : map.keys.card ≤ n) (memory : ℕ → Behind) :
    ∃ t', replay m hash kern (fuel + 1) ((image m t).length + 1) (image m t) memory
        (StateTable.cleared n 0) = .ok t' ∧ StateTable.Refines hash t' ⟨map, n, 0⟩ := by
  -- reading the image back is a reinsertion of the buckets in use
  obtain ⟨t', hok, href⟩ := StateTable.reinsert_refines kern fuel 0 hrep hn hfit
  refine ⟨t', ?_, href⟩
  rw [image, replay_file, forEach_entries, ← hok, reinsert_eq_forEach]

/-! ## Replaying the log -/

/-- Replaying logged pairs of keys that are there leaves every logged key with its last
value and what the placeholders are read as. -/
theorem replay_log (m : Marshals K V D) (kern : IterateKernel K V D) (fuel : ℕ)
    (pairs : List (K × V)) (memory : ℕ → Behind) (href : StateTable.Refines hash t ⟨map, n, 0⟩)
    (hmem : ∀ kv ∈ pairs, kv.1 ∈ map) :
    ∃ t' map', forEach (fun r => updateStr m hash kern (fuel + 1) r.1 r.2)
        (rounds ((m.encode pairs).map deltaEntry) memory) t = .ok t' ∧
      StateTable.Refines hash t' ⟨map', n, 0⟩ ∧
      ∀ k, map'.lookup k = (logged pairs memory k).getLast?.elim (map.lookup k) fun e =>
        some (e.1, m.v2marshal.read zeroText e.2.v2, m.v3marshal.read zeroText e.2.v3) := by
  induction pairs generalizing t map memory with
  | nil => exact ⟨t, map, rfl, href, fun k => rfl⟩
  | cons kv kvs ih =>
    obtain ⟨t₁, hok₁, href₁⟩ := StateTable.put_refines kern fuel kv.1 kv.2
      (m.v2marshal.read zeroText (memory 0).v2) (m.v3marshal.read zeroText (memory 0).v3) href
      (.inl (hmem kv List.mem_cons_self))
    obtain ⟨t', map', hok, href', hlook⟩ := ih (fun i => memory (i + 1)) href₁ fun kv' hkv' =>
      Finmap.mem_insert.mpr (.inr (hmem kv' (List.mem_cons_of_mem _ hkv')))
    refine ⟨t', map', ?_, href', fun k => ?_⟩
    · rw [Marshals.encode, List.map_cons, List.map_cons, rounds_cons, forEach]
      simp only [updateStr, deltaEntry, Marshal.read_marshal, hok₁]
      exact hok
    -- a later value of the same key, if there is one, overwrites this one
    · rw [hlook, logged]
      by_cases hk : kv.1 = k
      · rw [if_pos hk, List.getLast?_append]
        cases (logged kvs (fun i => memory (i + 1)) k).getLast? with
        | none => simp [hk]
        | some e => rfl
      · rw [if_neg hk, List.nil_append, Finmap.lookup_insert_of_ne _ (Ne.symm hk)]

/-- The live path only returns if every key is there, and then leaves every key with its
values accumulated into `F1`. -/
theorem applyUpdates_represents (pairs : List (K × V)) (memory : ℕ → Behind)
    (hrep : Represents hash StateTable.Bucket.k StateTable.Bucket.fields t.buckets map)
    {live : StateTable K V D} (hlive : applyUpdates m hash kern (m.encode pairs) t = .ok live) :
    (∀ kv ∈ pairs, kv.1 ∈ map) ∧
      ∃ map', Represents hash StateTable.Bucket.k StateTable.Bucket.fields live.buckets map' ∧
        ∀ k, map'.lookup k = (map.lookup k).map fun r =>
          (((logged pairs memory k).map Prod.fst).foldl kern.accumulate r.1, r.2) := by
  induction pairs generalizing t map memory with
  | nil =>
    obtain rfl : t = live := Except.ok.inj hlive
    exact ⟨by simp, map, hrep, fun k => by simp [logged]⟩
  | cons kv kvs ih =>
    rw [Marshals.encode, List.map_cons, applyUpdates, forEach] at hlive
    simp only [Marshal.unmarshal_marshal] at hlive
    cases hr : map.lookup kv.1 with
    -- `accumulateF1` aborts for a key that is not there
    | none =>
      have hk := Finmap.lookup_eq_none.mp hr
      rw [StateTable.accumulateF1, StateTable.write_of_notMem hrep hk] at hlive
      cases hlive
    | some r =>
      obtain ⟨t₁, hok, hrep₁⟩ := StateTable.accumulateF1_represents hrep hr kern kv.2
      rw [hok] at hlive
      obtain ⟨hmem, map', hrep', hlook⟩ := ih (fun i => memory (i + 1)) hrep₁ hlive
      have hk : kv.1 ∈ map := Finmap.mem_of_lookup_eq_some hr
      refine ⟨?_, map', hrep', fun k => ?_⟩
      · intro kv' hkv'
        rcases List.mem_cons.mp hkv' with rfl | hkv'
        · exact hk
        · rcases Finmap.mem_insert.mp (hmem kv' hkv') with heq | hmem'
          · exact heq ▸ hk
          · exact hmem'
      · rw [hlook, logged]
        by_cases hkk : kv.1 = k
        · subst hkk
          rw [if_pos rfl, Finmap.lookup_insert, hr]
          rfl
        · rw [if_neg hkk, List.nil_append, Finmap.lookup_insert_of_ne _ (Ne.symm hkk)]

/-- Handling put requests while the log is open applies their pairs one after the other
and appends an entry for each to the log. -/
theorem forEach_handleLogged {path : String} {file : List Bytes} {term : Bool}
    (puts : List KVData) {lt' : LocalTable K V D}
    (hrun : forEach (handleLogged m hash kern) puts ⟨t, some (path, file), term⟩ = .ok lt') :
    applyUpdates m hash kern puts.flatten t = .ok lt'.table ∧
      lt'.deltaFile = some (path, (puts.flatten.map deltaEntry).foldl writeEntryToFile file) := by
  induction puts generalizing t file with
  | nil =>
    obtain rfl : _ = lt' := Except.ok.inj hrun
    exact ⟨rfl, rfl⟩
  | cons put puts ih =>
    rw [forEach, handleLogged] at hrun
    cases happly : applyUpdates m hash kern put t with
    | error e => simp [happly, Except.bind] at hrun
    | ok t₁ =>
      simp only [happly, writeDelta, Except.bind] at hrun
      obtain ⟨hlive, hlog⟩ := ih hrun
      refine ⟨?_, ?_⟩
      · rw [List.flatten_cons, applyUpdates, forEach_append]
        rw [applyUpdates] at happly
        rw [happly]
        exact hlive
      · rw [hlog, List.flatten_cons, List.map_append, List.foldl_append]

/-! ## Where the two paths agree -/

theorem exists_mem_of_logged {pairs : List (K × V)} {memory : ℕ → Behind} {k : K}
    (hne : logged pairs memory k ≠ []) : ∃ kv ∈ pairs, kv.1 = k := by
  induction pairs generalizing memory with
  | nil => exact absurd rfl hne
  | cons kv kvs ih =>
    by_cases hk : kv.1 = k
    · exact ⟨kv, List.mem_cons_self, hk⟩
    · rw [logged, if_neg hk, List.nil_append] at hne
      obtain ⟨kv', hkv', hk'⟩ := ih hne
      exact ⟨kv', List.mem_cons_of_mem _ hkv', hk'⟩

/-- The two paths agree on `k` exactly if its logged values come to the last of them and
its other fields are what the placeholders are read as. -/
theorem agree_iff {base live restored : StateTable K V D}
    {map₁ map₂ : Finmap fun _ : K => V × V × D} {k : K} {es : List (V × Behind)}
    (z2 : Behind → V) (z3 : Behind → D)
    (hbase : Represents hash StateTable.Bucket.k StateTable.Bucket.fields base.buckets map)
    (hlive : Represents hash StateTable.Bucket.k StateTable.Bucket.fields live.buckets map₁)
    (hrestored : Represents hash StateTable.Bucket.k StateTable.Bucket.fields restored.buckets map₂)
    (hlook₁ : map₁.lookup k =
      (map.lookup k).map fun r => ((es.map Prod.fst).foldl kern.accumulate r.1, r.2))
    (hlook₂ : map₂.lookup k =
      es.getLast?.elim (map.lookup k) fun e => some (e.1, z2 e.2, z3 e.2))
    (hmem : es ≠ [] → k ∈ map) :
    (restored.getF1 hash k = live.getF1 hash k ∧ restored.getF2 hash k = base.getF2 hash k ∧
        restored.getF3 hash k = base.getF3 hash k) ↔
      ∀ r, map.lookup k = some r → ∀ e ∈ es.getLast?,
        (es.map Prod.fst).foldl kern.accumulate r.1 = e.1 ∧ r.2.1 = z2 e.2 ∧ r.2.2 = z3 e.2 := by
  have hF1 := StateTable.read_eq_read_iff (k := k) hrestored hlive fun r => r.1
  have hF2 := StateTable.read_eq_read_iff (k := k) hrestored hbase fun r => r.2.1
  have hF3 := StateTable.read_eq_read_iff (k := k) hrestored hbase fun r => r.2.2
  refine (and_congr hF1 (and_congr hF2 hF3)).trans ?_
  rw [hlook₁, hlook₂]
  cases hlast : es.getLast? with
  -- a key that was not logged is the same on both paths
  | none =>
    obtain rfl : es = [] := List.getLast?_eq_none_iff.mp hlast
    simp
  | some e =>
    have hk : k ∈ map := hmem fun hnil => by simp [hnil] at hlast
    obtain ⟨r, hr⟩ := Finmap.mem_iff.mp hk
    simp [hr, eq_comm]

/-- **What replay of the delta log reproduces.** Take any state that a shard reaches, the
put requests that it applies and logs after its checkpoint, and the restore of both into
a fresh table of the same size, whatever lies in memory behind the strings it reads. Restore
always returns. It gives every key the `F1` that the live path computed and the `F2` and `F3`
of the checkpoint exactly if replay is harmless. -/
theorem replay_agrees_iff (m : Marshals K V D) (hash : K → ℕ)
    (kern : IterateKernel K V D) (fuel size : ℕ) {t₀ base : StateTable K V D}
    (hnew : StateTable.new hash kern (fuel + 2) size = .ok t₀)
    (ops : List (StateTable.Op K V D))
    (hbase : base = (StateTable.exec hash kern (fuel + 2) t₀ ops).2)
    (f : String) (disk : Disk) (puts : List (List (K × V))) {lt : LocalTable K V D}
    (hrun : forEach (handleLogged m hash kern) (puts.map m.encode)
      ⟨base, some (f ++ ".delta", []), false⟩ = .ok lt) (memory₀ memory : ℕ → Behind) :
    ∃ fresh restored, StateTable.new hash kern (fuel + 2) base.size_ = .ok fresh ∧
      restore m hash kern (fuel + 2) f
        (finishCheckpoint lt (Function.update disk f (some (image m base)))).2 memory₀ memory
        fresh = .ok restored ∧
      ((∀ k, restored.getF1 hash k = lt.table.getF1 hash k ∧
          restored.getF2 hash k = base.getF2 hash k ∧
          restored.getF3 hash k = base.getF3 hash k) ↔
        ReplayHarmless m hash kern base puts.flatten memory) := by
  obtain ⟨hsize, hint, rfl⟩ := StateTable.eq_cleared_of_new hnew
  have hintact : StateTable.Intact hash base := by
    rw [hbase]
    exact StateTable.exec_intact kern fuel (StateTable.intact_cleared hash hsize hint 0) ops
  obtain ⟨map, hrep⟩ := exists_represents StateTable.Bucket.fields hintact.valid
  have hfit : map.keys.card ≤ base.size_ := hrep.occupied_eq ▸ occupied_le_length base.buckets
  have hn : base.size_ ≠ 0 := hintact.valid.length_pos.ne'
  obtain ⟨hlive, hlog⟩ := forEach_handleLogged (puts.map m.encode) hrun
  have hflat : (puts.map m.encode).flatten = m.encode puts.flatten := List.map_flatten.symm
  rw [hflat] at hlive hlog
  obtain ⟨hmem, map₁, hrep₁, hlook₁⟩ := applyUpdates_represents puts.flatten memory hrep hlive
  obtain ⟨t₁, hok₁, href₁⟩ := replay_image m kern (fuel + 1) hrep hn hfit memory₀
  obtain ⟨restored, map₂, hok₂, href₂, hlook₂⟩ :=
    replay_log m kern (fuel + 1) puts.flatten memory href₁ hmem
  -- the table and its log are different files
  have hpath : f ≠ f ++ ".delta" := fun heq => by simpa using congrArg String.length heq
  refine ⟨StateTable.cleared base.size_ 0, restored,
    StateTable.new_eq hash kern (fuel + 2) hn hintact.size_lt, ?_, ?_⟩
  · rw [finishCheckpoint, hlog]
    simp only [restore, Function.update_of_ne hpath, Function.update_self, hok₁, Except.bind]
    rw [replay_file]
    exact hok₂
  · have hmem' : ∀ k, logged puts.flatten memory k ≠ [] → k ∈ map := by
      intro k hne
      obtain ⟨kv, hkv, rfl⟩ := exists_mem_of_logged hne
      exact hmem kv hkv
    have hget : ∀ k r, base.get hash k = .ok (k, r) ↔ map.lookup k = some r := by
      intro k r
      have hread := StateTable.read_of_represents (k := k) hrep fun r => (k, r)
      rw [show base.get hash k = _ from hread]
      cases map.lookup k <;> simp
    rw [ReplayHarmless]
    refine forall_congr' fun k => ?_
    simp only [hget]
    exact agree_iff (fun b => m.v2marshal.read zeroText b.v2)
      (fun b => m.v3marshal.read zeroText b.v3) hrep hrep₁ href₂.represents (hlook₁ k) (hlook₂ k)
      (hmem' k)

/-! ## A shard of two vertices -/

/-- The general `Marshal` for an unsigned number of `w` bytes. -/
def podMarshal (w : ℕ) : Marshal (BitVec (8 * w)) where
  marshal a := leBytes w a.toNat
  read s behind := BitVec.ofNat (8 * w)
    (ofLeBytes ((List.range w).map fun i => s[i]?.getD (behind (i - s.length))))
  read_marshal a behind := by
    have hbytes : ((List.range w).map fun i =>
        (leBytes w a.toNat)[i]?.getD (behind (i - (leBytes w a.toNat).length))) =
        leBytes w a.toNat := by
      refine List.ext_getElem (by simp) fun i hi hi' => ?_
      simp [List.getElem?_eq_getElem hi']
    rw [hbytes, ofLeBytes_leBytes a.isLt, BitVec.ofNat_toNat, BitVec.setWidth_eq]

/-- Sums of numbers of four bytes. -/
def wordKernel : IterateKernel ℕ (BitVec (8 * 4)) Bytes where
  zero := 0
  initC _ _ := 1
  initV _ _ := 0
  defaultV := 0
  accumulate a b := a + b
  processDeltaV _ delta value data := (delta, value, data)
  priority _ delta := delta
  gFunc _ _ _ _ := []

def wordMarshals : Marshals ℕ (BitVec (8 * 4)) Bytes :=
  ⟨unaryMarshal, podMarshal 4, podMarshal 4, stringMarshal⟩

/-- What is behind a string of the log: a byte `1` and then zeros. -/
def oneBehind : Behind := { zeros with v2 := fun i => if i = 0 then 1 else 0 }

/-- With that byte behind it, `"0"` is read as `304`. -/
def twoVertices : StateTable ℕ (BitVec (8 * 4)) Bytes :=
  (StateTable.exec (fun k => k) wordKernel 2 (StateTable.cleared 3 0)
    [.put 0 5 7 [1], .put 1 0 304 zeroText]).2

/-- A vertex whose fields are what the placeholders are read as and whose delta is the default
loses nothing by replay. -/
theorem replay_agrees_at_default :
    ∃ lt fresh restored,
      forEach (handleLogged wordMarshals (fun k : ℕ => k) wordKernel)
        ([[(1, 2)]].map wordMarshals.encode)
        ⟨twoVertices, some ("shard.delta", []), false⟩ = .ok lt ∧
      StateTable.new (fun k : ℕ => k) wordKernel 2 3 = .ok fresh ∧
      restore wordMarshals (fun k : ℕ => k) wordKernel 2 "shard"
        (finishCheckpoint lt (Function.update (fun _ => none) "shard"
          (some (image wordMarshals twoVertices)))).2 (fun _ => zeros) (fun _ => oneBehind) fresh =
          .ok restored ∧
      ∀ k, restored.getF1 (fun k => k) k = lt.table.getF1 (fun k => k) k ∧
        restored.getF2 (fun k => k) k = twoVertices.getF2 (fun k => k) k ∧
        restored.getF3 (fun k => k) k = twoVertices.getF3 (fun k => k) k := by
  obtain ⟨fresh, restored, hfresh, hrestored, hiff⟩ := replay_agrees_iff wordMarshals
    (fun k : ℕ => k) wordKernel 0 3 rfl [.put 0 5 7 [1], .put 1 0 304 zeroText] rfl "shard"
    (fun _ => none) [[(1, 2)]] rfl (fun _ => zeros) fun _ => oneBehind
  refine ⟨_, fresh, restored, rfl, hfresh, hrestored, hiff.mpr ?_⟩
  intro k r hget e he
  rcases eq_or_ne k 1 with rfl | hk
  · have hr : ((1 : ℕ), ((0 : BitVec (8 * 4)), (304 : BitVec (8 * 4)), zeroText)) = (1, r) :=
      Except.ok.inj hget
    obtain ⟨-, rfl⟩ := Prod.mk.inj hr
    obtain rfl : (2, oneBehind) = e := Option.some_inj.mp he
    exact ⟨rfl, rfl, rfl⟩
  · simp [logged, Ne.symm hk] at he

/-- A vertex with `F1 = 5`, `F2 = 7` that gets the update `3` while the log is open has
`F1 = 8` live. After a restore it has `F1 = 3` and `F2 = 48`, the character `0`, if zeros are
behind the placeholder. -/
theorem replay_overwrites_fields :
    ∃ lt restored,
      forEach (handleLogged wordMarshals (fun k : ℕ => k) wordKernel)
        ([[(0, 3)]].map wordMarshals.encode) ⟨twoVertices, some ("shard.delta", []), false⟩ =
          .ok lt ∧
      restore wordMarshals (fun k : ℕ => k) wordKernel 2 "shard"
        (finishCheckpoint lt (Function.update (fun _ => none) "shard"
          (some (image wordMarshals twoVertices)))).2 (fun _ => zeros) (fun _ => zeros)
        (StateTable.cleared 3 0) = .ok restored ∧
      lt.table.getF1 (fun k => k) 0 = .ok 8 ∧ restored.getF1 (fun k => k) 0 = .ok 3 ∧
      twoVertices.getF2 (fun k => k) 0 = .ok 7 ∧ restored.getF2 (fun k => k) 0 = .ok 48 := by
  refine ⟨_, _, rfl, rfl, rfl, rfl, rfl, rfl⟩

end LocalTable

end MaiterStore
