/-
# Saved variables

A `MarshalledMap` (`kernel/kernel.h`) holds the arguments of a kernel and the variables of a
checkpoint. The values that a program has put or read are in `p_`, those that came with a
message stay in `serialized_` until they are read. `put`, `get` and `contains` look at both
maps, `ToMessage` writes only the first one.

What `get` returns is the latest of the last `put` and the last `FromMessage` for the key.
`ToMessage` has the value that the key had when it was last put or read. The two agree as
long as no message has changed the value since.
-/

import MaiterStore.CS.Run
import MaiterStore.Kernel.Table
import Mathlib.Data.List.AList
import Mathlib.Data.List.DropRight

namespace MaiterStore

open CS.Run

/-- The `param` entries of an `Args` message. -/
abbrev Args := List (Bytes × Bytes)

/-- The variables of a program, with the type of each of them. -/
structure MarshalledMap (V : Bytes → Type*) where
  p_ : AList V
  serialized_ : AList fun _ : Bytes => Bytes

namespace MarshalledMap

variable {V : Bytes → Type*}

/-- A map that has just been constructed. -/
def empty : MarshalledMap V := ⟨∅, ∅⟩

/-- `put(k, v)`. -/
def put (k : Bytes) (v : V k) (m : MarshalledMap V) : MarshalledMap V :=
  ⟨m.p_.insert k v, m.serialized_.erase k⟩

/-- `contains(key)`. -/
def contains (m : MarshalledMap V) (key : Bytes) : Bool :=
  (m.p_.lookup key).isSome || (m.serialized_.lookup key).isSome

variable (marshal : ∀ k, Marshal (V k))

/-- `get(k)`, with the map it leaves. For a key that is in neither map the iterator behind
the last entry is dereferenced. -/
def get (k : Bytes) (m : MarshalledMap V) : Except Bytes (V k × MarshalledMap V) :=
  match m.serialized_.lookup k with
  | some s =>
    let v := (marshal k).unmarshal s
    .ok (v, ⟨m.p_.insert k v, m.serialized_.erase k⟩)
  | none =>
    match m.p_.lookup k with
    | some v => .ok (v, m)
    | none => .error k

/-- `ToMessage()`. The order of the entries is left open by `unordered_map`. -/
def toMessage (m : MarshalledMap V) : Args :=
  m.p_.entries.map fun entry => (entry.1, (marshal entry.1).marshal entry.2)

/-- `FromMessage(p)`. -/
def fromMessage (p : Args) (m : MarshalledMap V) : MarshalledMap V :=
  { m with
    serialized_ := p.foldl (fun serialized arg => serialized.insert arg.1 arg.2) m.serialized_ }

/-- A call on the map. -/
inductive Op (V : Bytes → Type*)
  | put (k : Bytes) (v : V k)
  | get (k : Bytes)
  | fromMessage (p : Args)

/-- The key is put or read. -/
def Op.touches (k : Bytes) : Op V → Bool
  | .put j _ => j = k
  | .get j => j = k
  | .fromMessage _ => false

def step : Op V → MarshalledMap V → Except Bytes (MarshalledMap V)
  | .put k v, m => .ok (m.put k v)
  | .get k, m => (m.get marshal k).map Prod.snd
  | .fromMessage p, m => .ok (m.fromMessage p)

/-- What one call makes of the latest values. -/
def latestStep (values : ∀ k, Option (V k)) : Op V → ∀ k, Option (V k)
  | .put k v => Function.update values k (some v)
  | .get _ => values
  | .fromMessage p => p.foldl (fun values arg =>
      Function.update values arg.1 (some ((marshal arg.1).unmarshal arg.2))) values

/-- The latest of the last `put` and the last `FromMessage` for each key. -/
def latest (ops : List (Op V)) : ∀ k, Option (V k) :=
  ops.foldl (latestStep marshal) fun _ => none

/-- For no key has a message brought another value since the key was last put or read. -/
def Settled (ops : List (Op V)) : Prop :=
  ∀ k, latest marshal ops k = latest marshal (ops.rdropWhile fun op => !op.touches k) k

/-- One `Arg` for every key of the map, with the value that `get` returns, and no others. -/
structure Saves (m : MarshalledMap V) : Prop where
  of_contains : ∀ k, m.contains k = true → ∃ v m', m.get marshal k = .ok (v, m') ∧
    (m.toMessage marshal).filter (fun arg => arg.1 = k) = [(k, (marshal k).marshal v)]
  of_not_contains : ∀ k, m.contains k = false →
    (m.toMessage marshal).filter (fun arg => arg.1 = k) = []

/-! ## The value of a key -/

/-- The value of a key, wherever it is. -/
def value (m : MarshalledMap V) (k : Bytes) : Option (V k) :=
  ((m.serialized_.lookup k).map (marshal k).unmarshal).or (m.p_.lookup k)

variable {marshal} {m m' : MarshalledMap V} {k : Bytes}

theorem contains_eq_isSome (marshal : ∀ k, Marshal (V k)) (m : MarshalledMap V) (k : Bytes) :
    m.contains k = (m.value marshal k).isSome := by
  rw [contains, value]
  cases m.serialized_.lookup k <;> simp

theorem get_eq_value (marshal : ∀ k, Marshal (V k)) (m : MarshalledMap V) (k : Bytes) :
    (m.get marshal k).toOption.map Prod.fst = m.value marshal k := by
  rw [get, value]
  cases hs : m.serialized_.lookup k with
  | some s => rfl
  | none =>
    cases hp : m.p_.lookup k with
    | some v => rfl
    | none => rfl

/-- A read decodes the value and keeps all others. -/
theorem get_spec {v : V k} (hget : m.get marshal k = .ok (v, m')) :
    m'.value marshal = m.value marshal ∧ m'.p_.lookup k = some v ∧ m.value marshal k = some v ∧
      ∀ j ≠ k, m'.p_.lookup j = m.p_.lookup j := by
  rw [get] at hget
  cases hs : m.serialized_.lookup k with
  | some s =>
    simp only [hs, Except.ok.injEq, Prod.mk.injEq] at hget
    obtain ⟨rfl, rfl⟩ := hget
    refine ⟨?_, AList.lookup_insert _, by simp [value, hs], fun j hj => AList.lookup_insert_ne hj⟩
    funext j
    by_cases hj : j = k
    · subst hj
      simp [value, hs]
    · simp [value, AList.lookup_insert_ne hj, AList.lookup_erase_ne hj]
  | none =>
    cases hp : m.p_.lookup k with
    | some u =>
      simp only [hs, hp, Except.ok.injEq, Prod.mk.injEq] at hget
      obtain ⟨rfl, rfl⟩ := hget
      exact ⟨rfl, hp, by simp [value, hs, hp], fun _ _ => rfl⟩
    | none => simp [hs, hp] at hget

theorem value_put (v : V k) :
    (m.put k v).value marshal = Function.update (m.value marshal) k (some v) := by
  funext j
  by_cases hj : j = k
  · subst hj
    simp [value, put]
  · simp [value, put, AList.lookup_insert_ne hj, AList.lookup_erase_ne hj, hj]

theorem value_fromMessage (p : Args) :
    (m.fromMessage p).value marshal = latestStep marshal (m.value marshal) (.fromMessage p) := by
  induction p generalizing m with
  | nil => rfl
  | cons arg p ih =>
    have hone : (m.fromMessage [arg]).value marshal = Function.update (m.value marshal) arg.1
        (some ((marshal arg.1).unmarshal arg.2)) := by
      funext j
      by_cases hj : j = arg.1
      · subst hj
        simp [value, fromMessage]
      · simp [value, fromMessage, AList.lookup_insert_ne hj, hj]
    have hcons : m.fromMessage (arg :: p) = (m.fromMessage [arg]).fromMessage p := rfl
    rw [hcons, ih, hone]
    rfl

/-! ## What is written -/

theorem filter_map_entries {entries : List (Sigma V)} (hnodup : entries.NodupKeys) (k : Bytes) :
    (entries.map fun entry => (entry.1, (marshal entry.1).marshal entry.2)).filter
      (fun arg => arg.1 = k) =
        (entries.dlookup k).toList.map fun v => (k, (marshal k).marshal v) := by
  induction entries with
  | nil => rfl
  | cons entry entries ih =>
    obtain ⟨j, v⟩ := entry
    obtain ⟨hfresh, hrest⟩ := List.nodupKeys_cons.mp hnodup
    rw [List.map_cons, List.filter_cons, ih hrest]
    by_cases hj : j = k
    · subst hj
      rw [List.dlookup_eq_none.mpr hfresh, List.dlookup_cons_eq]
      simp
    · rw [List.dlookup_cons_ne _ ⟨j, v⟩ (Ne.symm hj)]
      simp [hj]

theorem filter_toMessage (m : MarshalledMap V) (k : Bytes) :
    (m.toMessage marshal).filter (fun arg => arg.1 = k) =
      (m.p_.lookup k).toList.map fun v => (k, (marshal k).marshal v) :=
  filter_map_entries m.p_.nodupKeys k

theorem marshal_injective {A : Type*} (marshal : Marshal A) : Function.Injective marshal.marshal :=
  Function.LeftInverse.injective marshal.unmarshal_marshal

/-- Everything is written if and only if the decoded values are the values. -/
theorem saves_iff : m.Saves marshal ↔ ∀ k, m.value marshal k = m.p_.lookup k := by
  constructor
  · intro hsaves k
    have hfilter : _ = (m.p_.lookup k).toList.map fun v => (k, (marshal k).marshal v) :=
      filter_toMessage m k
    have hvalue := get_eq_value marshal m k
    cases hcontains : m.contains k with
    -- no entry of the message is for `k`, so nothing is decoded for it
    | false =>
      rw [hsaves.of_not_contains k hcontains] at hfilter
      rw [contains_eq_isSome marshal, Option.isSome_eq_false_iff, Option.isNone_iff_eq_none]
        at hcontains
      rw [hcontains]
      cases hp : m.p_.lookup k with
      | none => rfl
      | some v => simp [hp] at hfilter
    -- the one entry for `k` is the decoded value, and marshalling it is injective
    | true =>
      obtain ⟨v, m', hget, hone⟩ := hsaves.of_contains k hcontains
      rw [hget] at hvalue
      rw [← hvalue]
      rw [hone] at hfilter
      cases hp : m.p_.lookup k with
      | none => simp [hp] at hfilter
      | some u =>
        have hvu : (marshal k).marshal v = (marshal k).marshal u := by simpa [hp] using hfilter
        exact congrArg some (marshal_injective _ hvu)
  · intro hall
    refine ⟨fun k hcontains => ?_, fun k hcontains => ?_⟩
    · rw [contains_eq_isSome marshal, Option.isSome_iff_exists] at hcontains
      obtain ⟨v, hv⟩ := hcontains
      have hvalue := get_eq_value marshal m k
      rw [hv] at hvalue
      cases hget : m.get marshal k with
      | error e => simp [hget, Except.toOption] at hvalue
      | ok r =>
        have hr : r.1 = v := by simpa [hget, Except.toOption] using hvalue
        refine ⟨v, r.2, by rw [← hr], ?_⟩
        rw [filter_toMessage, ← hall k, hv]
        rfl
    · rw [contains_eq_isSome marshal, Option.isSome_eq_false_iff, Option.isNone_iff_eq_none]
        at hcontains
      rw [filter_toMessage, ← hall k, hcontains]
      rfl

/-! ## Runs -/

/-- What the two maps have after some calls. -/
structure After (marshal : ∀ k, Marshal (V k)) (ops : List (Op V)) (m : MarshalledMap V) :
    Prop where
  value_eq : m.value marshal = latest marshal ops
  decoded_eq : ∀ k, m.p_.lookup k = latest marshal (ops.rdropWhile fun op => !op.touches k) k

theorem latest_concat (ops : List (Op V)) (op : Op V) :
    latest marshal (ops ++ [op]) = latestStep marshal (latest marshal ops) op := by
  rw [latest, List.foldl_append]
  rfl

theorem step_after {ops : List (Op V)} {op : Op V} (hm : After marshal ops m)
    (hok : step marshal op m = .ok m') : After marshal (ops ++ [op]) m' := by
  -- a call that does not touch `k` leaves the decoded value of `k`
  have hkeep : ∀ k, op.touches k = false → m'.p_.lookup k = m.p_.lookup k →
      m'.p_.lookup k = latest marshal ((ops ++ [op]).rdropWhile fun op => !op.touches k) k := by
    intro k htouches hsame
    rw [List.rdropWhile_concat_pos _ _ _ (by simp [htouches]), hsame, hm.decoded_eq]
  have htouch : ∀ k, op.touches k = true → m'.p_.lookup k = m'.value marshal k →
      m'.value marshal = latest marshal (ops ++ [op]) →
      m'.p_.lookup k = latest marshal ((ops ++ [op]).rdropWhile fun op => !op.touches k) k := by
    intro k htouches hdecoded hvalue
    rw [List.rdropWhile_concat_neg _ _ _ (by simp [htouches]), hdecoded, hvalue]
  cases op with
  | put j v =>
    obtain rfl := Except.ok.inj hok
    have hvalue : (m.put j v).value marshal = latest marshal (ops ++ [.put j v]) := by
      rw [value_put, hm.value_eq, latest_concat]
      rfl
    refine ⟨hvalue, fun k => ?_⟩
    by_cases hk : k = j
    · subst hk
      refine htouch k (decide_eq_true rfl) ?_ hvalue
      rw [value_put, Function.update_self]
      exact AList.lookup_insert _
    · exact hkeep k (decide_eq_false (Ne.symm hk)) (AList.lookup_insert_ne hk)
  | get j =>
    obtain ⟨⟨v, m₁⟩, hget, rfl⟩ := map_eq_ok.mp hok
    obtain ⟨hsame, hdecoded, hj, hothers⟩ := get_spec hget
    have hvalue : m₁.value marshal = latest marshal (ops ++ [.get j]) := by
      rw [hsame, hm.value_eq, latest_concat]
      rfl
    refine ⟨hvalue, fun k => ?_⟩
    by_cases hk : k = j
    · subst hk
      refine htouch k (decide_eq_true rfl) ?_ hvalue
      rw [hdecoded, hsame, hj]
    · exact hkeep k (decide_eq_false (Ne.symm hk)) (hothers k hk)
  | fromMessage p =>
    obtain rfl := Except.ok.inj hok
    refine ⟨?_, fun k => hkeep k rfl rfl⟩
    rw [value_fromMessage, hm.value_eq, latest_concat]

theorem run_after {ops : List (Op V)} (hrun : forEach (step marshal) ops empty = .ok m) :
    After marshal ops m := by
  have hends : EndsIn (fun _ => True) (After marshal ops) (forEach (step marshal) ops empty) := by
    refine endsIn_forEach (I := fun done m => After marshal done m) ops ?_ ⟨rfl, fun k => rfl⟩
    intro before op after _ m₁ hm₁
    cases hok : step marshal op m₁ with
    | error e => trivial
    | ok m₂ => exact step_after hm₁ hok
  rw [hrun] at hends
  exact hends

/-- **What a message brings is saved again once it has been read.** After any calls, `get`
returns the latest value of a key, and `ToMessage` writes every key once with that value if
and only if no message has changed a key since it was last put or read. A message that is
only passed on comes back empty. -/
theorem saves_iff_settled (marshal : ∀ k, Marshal (V k)) {ops : List (Op V)}
    (hrun : forEach (step marshal) ops empty = .ok m) :
    (∀ k, (m.get marshal k).toOption.map Prod.fst = latest marshal ops k) ∧
      (m.Saves marshal ↔ Settled marshal ops) ∧
      ∀ p, ((empty : MarshalledMap V).fromMessage p).toMessage marshal = [] := by
  have hafter := run_after hrun
  refine ⟨fun k => ?_, ?_, fun p => rfl⟩
  · rw [get_eq_value, hafter.value_eq]
  · rw [saves_iff, Settled, hafter.value_eq]
    simp only [hafter.decoded_eq]

/-- A variable that is restored and read is saved again. -/
theorem saves_after_get :
    ∃ m, forEach (step fun _ => stringMarshal) [.fromMessage [([1], [7])], .get [1]] empty = .ok m ∧
      Settled (fun _ => stringMarshal) [.fromMessage [([1], [7])], .get [1]] ∧
      m.Saves fun _ => stringMarshal := by
  have hsettled : Settled (fun _ => stringMarshal) [.fromMessage [([1], [7])], .get [1]] := by
    intro k
    by_cases hk : k = [1]
    · subst hk
      rfl
    · have hget : ([1] : Bytes) ≠ k := Ne.symm hk
      simp [List.rdropWhile, Op.touches, latest, latestStep, hk, hget]
  exact ⟨_, rfl, hsettled, (saves_iff_settled (fun _ => stringMarshal) rfl).2.1.mpr hsettled⟩

/-- A variable that is restored and not read is lost. -/
theorem restored_variable_lost :
    ∃ m, forEach (step fun _ => stringMarshal) [.fromMessage [([1], [7])]] empty = .ok m ∧
      m.contains [1] = true ∧ m.toMessage (fun _ => stringMarshal) = [] ∧
      ¬ m.Saves fun _ => stringMarshal := by
  refine ⟨_, rfl, rfl, rfl, ?_⟩
  intro hsaves
  obtain ⟨v, m', -, hone⟩ := hsaves.of_contains [1] rfl
  cases hone

end MarshalledMap

end MaiterStore
