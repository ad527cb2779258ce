import GoHttpd.Basic
import Mathlib.Logic.Function.Basic

/-! `Session` of package `session`: an ID, the cached values (a nil map or a map from keys to
values), and a flag `dirty` for changes not yet saved.  `Set`, `Del` and `Clear` change the
values; `Save` writes them to the store's storage under the ID, deletes them when there are none,
or refreshes an unchanged session.  The storage is a map from ids to data, and the environment
decides whether each storage call succeeds, what `uuid.Gen` returns, and how the values encode.

`Save` overwrites the error of `uuid.Gen` with the result of `SetSessionData`: when the generator
fails and the storage call succeeds, a new session is saved under the empty ID and `Save`
returns `nil` (`save_gen_error`).  With a generator that returns non-empty ids, every run keeps
the invariant `Saved`: a clean session either has no values and no ID, or its values are stored
under its ID (`run_saved`), so that `Load` of the ID from the storage restores it
(`run_load`). -/

namespace GoHttpd

namespace Session

/-- Go's `map[string]interface{}` of a session's values, as a list of keys and values. -/
abbrev Values (V : Type) := List (List Char × V)

/-- `m[key] = value`. -/
def Values.store (m : Values V) (key : List Char) (value : V) : Values V :=
  if m.any (·.1 == key) then m.map fun e => if e.1 = key then (key, value) else e
  else m ++ [(key, value)]

/-- `delete(m, key)`. -/
def Values.delete (m : Values V) (key : List Char) : Values V :=
  m.filter (·.1 != key)

theorem Values.lookup_cons (a k : List Char) (b : V) (m : Values V) :
    ((a, b) :: m).lookup k = if k = a then some b else m.lookup k := by
  by_cases h : k = a
  · subst h; rw [List.lookup_cons_self, if_pos rfl]
  · rw [List.lookup_cons, beq_false_of_ne h, if_neg h]

theorem Values.lookup_replace (m : Values V) (key k : List Char) (value : V) :
    (m.map fun e => if e.1 = key then (key, value) else e).lookup k =
      if k = key then (m.lookup key).map fun _ => value else m.lookup k := by
  induction m with
  | nil => split <;> rfl
  | cons e m ih =>
    obtain ⟨a, b⟩ := e
    by_cases ha : a = key
    · subst ha
      by_cases hk : k = a <;> simp [Values.lookup_cons, hk, ih]
    · by_cases hk : k = a
      · subst hk; simp [Values.lookup_cons, ha]
      · simp [Values.lookup_cons, ha, Ne.symm ha, hk, ih]

theorem Values.lookup_eq_none_of_not_any {m : Values V} {key : List Char}
    (h : ¬m.any (·.1 == key) = true) : m.lookup key = none :=
  List.lookup_eq_none_iff.mpr fun p hp =>
    bne_iff_ne.mpr fun he => h (List.any_eq_true.mpr ⟨p, hp, beq_iff_eq.mpr he.symm⟩)

/-- A key read after `m[key] = value`. -/
theorem Values.lookup_store (m : Values V) (key k : List Char) (value : V) :
    (m.store key value).lookup k = if k = key then some value else m.lookup k := by
  unfold Values.store
  split_ifs with hany hk hk
  · rw [lookup_replace, if_pos hk]
    cases h : m.lookup key with
    | some b => rfl
    | none =>
      obtain ⟨p, hp, hpk⟩ := List.any_eq_true.mp hany
      have h' := List.lookup_eq_none_iff.mp h p hp
      rw [beq_iff_eq.mp hpk] at h'
      simp at h'
  · rw [lookup_replace, if_neg hk]
  · subst hk
    simp [List.lookup_append, lookup_eq_none_of_not_any hany]
  · simp [List.lookup_append, Values.lookup_cons, hk]

/-- A key read after `delete(m, key)`. -/
theorem Values.lookup_delete (m : Values V) (key k : List Char) :
    (m.delete key).lookup k = if k = key then none else m.lookup k := by
  induction m with
  | nil => split <;> rfl
  | cons e m ih =>
    obtain ⟨a, b⟩ := e
    simp only [Values.delete, List.filter_cons] at ih ⊢
    by_cases ha : a = key
    · subst ha
      simp only [bne_self_eq_false, Bool.false_eq_true, if_false, ih, Values.lookup_cons]
      split_ifs <;> rfl
    · by_cases hk : k = a
      · subst hk; simp [Values.lookup_cons, ha]
      · simp [Values.lookup_cons, ha, hk, ih]

end Session

/-- `Session`: the ID (empty for a new session), the values (`none` is a nil map) and `dirty`. -/
structure Session (V : Type) where
  id : List Char
  values : Option (Session.Values V)
  dirty : Bool
  deriving DecidableEq, Repr

namespace Session

variable {V : Type}

/-- A session as `Store.LoadHTTP` makes it before loading anything. -/
def new : Session V := ⟨[], none, false⟩

/-- `len(s.values)`. -/
def size (s : Session V) : Nat := (s.values.getD []).length

/-- `Session.Set`: a `nil` value deletes the key. -/
def set (s : Session V) (key : List Char) (value : Option V) : Session V :=
  match s.values, value with
  | none, some v => { s with values := some [(key, v)], dirty := true }
  | none, none => s
  | some m, none => { s with values := some (m.delete key), dirty := true }
  | some m, some v => { s with values := some (m.store key v), dirty := true }

/-- `Session.Get`. -/
def get (s : Session V) (key : List Char) : Option V :=
  (s.values.getD []).lookup key

/-- `Session.Del`. -/
def del (s : Session V) (key : List Char) : Session V :=
  match s.values with
  | some m => if m.any (·.1 == key) then { s with values := some (m.delete key), dirty := true }
    else s
  | none => s

/-- `Session.Clear`. -/
def clear (s : Session V) : Session V :=
  if s.size ≠ 0 then { s with values := none, dirty := true } else s

/-! What `Get` reads after each operation: the values are a map, which `Set` updates at its key
(a `nil` value deleting it), `Del` clears at its key, and `Clear` empties. -/

theorem get_set (s : Session V) (key : List Char) (value : Option V) :
    (s.set key value).get = Function.update s.get key value := by
  funext k
  rw [Function.update_apply]
  rcases hv : s.values with _ | m <;> cases value <;>
    simp [set, get, hv, Values.lookup_store, Values.lookup_delete, Values.lookup_cons]

theorem get_del (s : Session V) (key : List Char) :
    (s.del key).get = Function.update s.get key none := by
  funext k
  rw [Function.update_apply]
  rcases hv : s.values with _ | m
  · simp [del, get, hv]
  · by_cases hany : m.any (·.1 == key) = true
    · simp [del, get, hv, hany, Values.lookup_delete]
    · have hnone := Values.lookup_eq_none_of_not_any hany
      simp only [Bool.not_eq_true] at hany
      simp only [del, get, hv, hany, Bool.false_eq_true, if_false, Option.getD_some]
      split_ifs with hk
      · exact hk ▸ hnone
      · rfl

theorem get_clear (s : Session V) : s.clear.get = fun _ => none := by
  funext k
  unfold clear
  split_ifs with h
  · rfl
  · simp only [size, not_not, List.length_eq_zero] at h
    simp [get, h]

/-- The storage: a map from session ids to their data. -/
abbrev Storage := List Char → Option (List UInt8)

/-- The errors `Save` returns. -/
inductive SaveError where
  /-- an error of `encodeSessionValues` -/
  | encode (code : Nat)
  /-- an error of `uuid.Gen` -/
  | gen (code : Nat)
  /-- an error of a call of the storage -/
  | storage (code : Nat)
  deriving DecidableEq, Repr

/-- What the environment answers to one `Save`: the result of `uuid.Gen`, and the error of the
storage call, if it fails; a failed call changes nothing. -/
structure SaveEnv where
  gen : Except Nat (List Char)
  storageErr : Option Nat

/-- The ID under which `Save` stores values: the session's, or for a new session the one
`uuid.Gen` returns.  When the generator fails its error `err1` is assigned to `err`, which the
result of `SetSessionData` then overwrites, and the ID stays empty. -/
def saveId (env : SaveEnv) (id : List Char) : List Char :=
  if id.length = 0 then
    match env.gen with
    | .ok id' => id'
    | .error _ => id
  else id

/-- `Session.Save`, with `encodeSessionValues` as `enc`. -/
def save (enc : Values V → Except Nat (List UInt8)) (env : SaveEnv) (s : Session V)
    (st : Storage) : Session V × Storage × Option SaveError :=
  if s.dirty then
    if s.size = 0 then
      match env.storageErr with
      | none => ({ s with id := [], dirty := false }, Function.update st s.id none, none)
      | some e => (s, st, some (.storage e))
    else
      match enc (s.values.getD []) with
      | .error e => (s, st, some (.encode e))
      | .ok data =>
        let id := saveId env s.id
        match env.storageErr with
        | none => ({ s with id := id, dirty := false }, Function.update st id (some data), none)
        | some e => ({ s with id := id }, st, some (.storage e))
  else if 0 < s.id.length then
    match env.storageErr with
    | none => (s, st, none)
    | some e => (s, st, some (.storage e))
  else (s, st, none)

/-- `Save` never changes the values. -/
theorem save_values (enc : Values V → Except Nat (List UInt8)) (env : SaveEnv) (s : Session V)
    (st : Storage) : (s.save enc env st).1.values = s.values := by
  unfold save
  split_ifs <;> (repeat' split) <;> rfl

/-- `Set` of a value marks the session dirty and leaves it with values. -/
theorem set_some_dirty (s : Session V) (key : List Char) (value : V) :
    (s.set key (some value)).dirty = true := by
  rcases h : s.values with _ | m <;> simp [set, h]

theorem size_set_some_ne_zero (s : Session V) (key : List Char) (value : V) :
    (s.set key (some value)).size ≠ 0 := by
  intro h
  have hget := congrFun (get_set s key (some value)) key
  rw [Function.update_same] at hget
  simp only [get, size, List.length_eq_zero] at h hget
  rw [h] at hget
  cases hget

/-- `Session.Save` on a store whose storage may be nil, as a store is before `SetStorage` (the zero
`Store` of a server made by `NewServer`, or `NewStore(nil)`): each call of the storage is a method
call on the nil interface, which panics, and the branches without one run as with a storage. -/
def saveIn (enc : Values V → Except Nat (List UInt8)) (env : SaveEnv) (s : Session V) :
    Option Storage → Except Panic (Session V × Option Storage × Option SaveError)
  | some st => .ok ((s.save enc env st).1, some (s.save enc env st).2.1, (s.save enc env st).2.2)
  | none =>
    if s.dirty then
      if s.size = 0 then .error .nilDereference
      else match enc (s.values.getD []) with
        | .error e => .ok (s, none, some (.encode e))
        | .ok _ => .error .nilDereference
    else if 0 < s.id.length then .error .nilDereference
    else .ok (s, none, none)

/-- The errors `Load` returns: `ErrStorageNotFound` of the storage, or an error of
`decodeSessionValues`. -/
inductive LoadError where
  | notFound
  | decode (code : Nat)
  deriving DecidableEq, Repr

/-- `Session.Load`, with `decodeSessionValues` as `dec`: the ID is cleared first, and the values
and the ID are set only when the storage holds data for `id` that is not empty and decodes. -/
def load (dec : List UInt8 → Except Nat (Values V)) (st : Storage) (s : Session V)
    (id : List Char) : Session V × Option LoadError :=
  match st id with
  | none => ({ s with id := [] }, some .notFound)
  | some data =>
    if 0 < data.length then
      match dec data with
      | .ok values => ({ s with values := some values, id := id }, none)
      | .error e => ({ s with id := [] }, some (.decode e))
    else ({ s with id := [] }, none)

/-- A clean session has no values and no ID, or its values are stored under its ID. -/
def Saved (enc : Values V → Except Nat (List UInt8)) (s : Session V) (st : Storage) : Prop :=
  s.dirty = false →
    (s.size = 0 ∧ s.id = []) ∨
      (s.id ≠ [] ∧ ∃ data, enc (s.values.getD []) = .ok data ∧ st s.id = some data)

/-- An operation of a run on a session. -/
inductive Op (V : Type) where
  | set (key : List Char) (value : Option V)
  | del (key : List Char)
  | clear
  | save (env : SaveEnv)

/-- One operation: the session, the storage, and the error `Save` returned. -/
def Op.apply (enc : Values V → Except Nat (List UInt8)) :
    Op V → Session V × Storage → Session V × Storage × Option SaveError
  | .set key value, (s, st) => (s.set key value, st, none)
  | .del key, (s, st) => (s.del key, st, none)
  | .clear, (s, st) => (s.clear, st, none)
  | .save env, (s, st) => s.save enc env st

/-- A run of operations from a session and a storage. -/
def Op.run (enc : Values V → Except Nat (List UInt8)) :
    List (Op V) → Session V × Storage → Session V × Storage
  | [], x => x
  | op :: ops, x => Op.run enc ops ((op.apply enc x).1, (op.apply enc x).2.1)

/-- `uuid.Gen` gives a non-empty id at every `Save` of the run. -/
def Op.GenOk : Op V → Prop
  | .save env => ∃ id, env.gen = .ok id ∧ id ≠ []
  | _ => True

/-- What an operation does to the values as a map from keys, as `Get` reads them. -/
def Op.onMap : Op V → (List Char → Option V) → List Char → Option V
  | .set key value, m => Function.update m key value
  | .del key, m => Function.update m key none
  | .clear, _ => fun _ => none
  | .save _, m => m

variable {enc : Values V → Except Nat (List UInt8)}

/-- `Set`, `Del` and `Clear` leave the session as it was or mark it dirty. -/
theorem set_eq_or_dirty (s : Session V) (key : List Char) (value : Option V) :
    s.set key value = s ∨ (s.set key value).dirty = true := by
  unfold set; split <;> simp

theorem del_eq_or_dirty (s : Session V) (key : List Char) :
    s.del key = s ∨ (s.del key).dirty = true := by
  unfold del; split
  · split <;> simp
  · simp

theorem clear_eq_or_dirty (s : Session V) : s.clear = s ∨ s.clear.dirty = true := by
  unfold clear; split <;> simp

theorem saved_of_eq_or_dirty {s s' : Session V} {st : Storage} (h : s' = s ∨ s'.dirty = true)
    (hs : s.Saved enc st) : s'.Saved enc st := by
  rcases h with rfl | h
  · exact hs
  · intro h'; simp [h] at h'

theorem saveId_ne_nil {env : SaveEnv} (hgen : ∃ id, env.gen = .ok id ∧ id ≠ []) (id : List Char) :
    saveId env id ≠ [] := by
  obtain ⟨gid, hg, hgne⟩ := hgen
  unfold saveId
  split_ifs with h
  · simpa [hg] using hgne
  · simpa using h

/-- `Save` returns `nil` only with a clean session, and an error only with a dirty session left
dirty; with a generator of non-empty ids it keeps `Saved`. -/
theorem save_saved (env : SaveEnv) (hgen : ∃ id, env.gen = .ok id ∧ id ≠ []) (s : Session V)
    (st : Storage) (hs : s.Saved enc st) :
    (s.save enc env st).1.Saved enc (s.save enc env st).2.1 ∧
    ((s.save enc env st).2.2 = none → (s.save enc env st).1.dirty = false) ∧
    (s.dirty = true → (s.save enc env st).2.2 ≠ none → (s.save enc env st).1.dirty = true) := by
  have hid := saveId_ne_nil hgen s.id
  unfold save
  by_cases hd : s.dirty
  · by_cases hz : s.size = 0
    · cases env.storageErr <;> simp_all [Saved, size]
    · cases henc : enc (s.values.getD []) <;> cases env.storageErr <;> simp_all [Saved, size]
  · by_cases hlen : 0 < s.id.length <;> cases env.storageErr <;> simp_all

/-- A new session for which `uuid.Gen` fails at its first `Save`: with the storage call
succeeding, `Save` returns `nil`, marks the session clean with its values and the empty ID, and
the storage holds the values under the empty ID. -/
theorem save_gen_error {s : Session V} {st : Storage} {data : List UInt8} (e : Nat)
    (hd : s.dirty = true) (hid : s.id = []) (hz : s.size ≠ 0)
    (henc : enc (s.values.getD []) = .ok data) :
    s.save enc ⟨.error e, none⟩ st =
      ({ s with dirty := false }, Function.update st [] (some data), none) ∧
    ¬ ({ s with dirty := false } : Session V).Saved enc (Function.update st [] (some data)) := by
  refine ⟨?_, fun h => ?_⟩
  · simp [save, hd, hz, henc, saveId, hid]
  · rcases h rfl with ⟨h0, -⟩ | ⟨h1, -⟩
    · exact hz h0
    · exact h1 hid

/-- A new session with the value `1` under `k`, whose first `Save` meets a failing generator. -/
theorem save_gen_error_first_save :
    ((new : Session Nat).set ['k'] (some 1)).save (fun _ => .ok [0]) ⟨.error 0, none⟩
        (fun _ => none) =
      ({ (new : Session Nat).set ['k'] (some 1) with dirty := false },
        Function.update (fun _ => none) [] (some [0]), none) ∧
    ¬ ({ (new : Session Nat).set ['k'] (some 1) with dirty := false } : Session Nat).Saved
        (fun _ => .ok [0]) (Function.update (fun _ => none) [] (some [0])) :=
  save_gen_error 0 rfl rfl (by decide) rfl

theorem new_saved (st : Storage) : (new : Session V).Saved enc st :=
  fun _ => .inl ⟨rfl, rfl⟩

/-- One operation with a generator of non-empty ids keeps `Saved`. -/
theorem apply_saved {op : Op V} (hgen : op.GenOk) {x : Session V × Storage} (hx : x.1.Saved enc x.2) :
    (op.apply enc x).1.Saved enc (op.apply enc x).2.1 := by
  obtain ⟨s, st⟩ := x
  cases op with
  | set key value => exact saved_of_eq_or_dirty (set_eq_or_dirty s key value) hx
  | del key => exact saved_of_eq_or_dirty (del_eq_or_dirty s key) hx
  | clear => exact saved_of_eq_or_dirty (clear_eq_or_dirty s) hx
  | save env => exact (save_saved env hgen s st hx).1

/-- Every run in which `uuid.Gen` gives non-empty ids keeps `Saved`. -/
theorem run_saved (ops : List (Op V)) (hgen : ∀ op ∈ ops, op.GenOk) (x : Session V × Storage)
    (hx : x.1.Saved enc x.2) : (Op.run enc ops x).1.Saved enc (Op.run enc ops x).2 := by
  induction ops generalizing x with
  | nil => exact hx
  | cons op ops ih =>
    exact ih (fun o ho => hgen o (List.mem_cons_of_mem _ ho)) _
      (apply_saved (hgen op (List.mem_cons_self _ _)) hx)

theorem apply_get (op : Op V) (x : Session V × Storage) :
    (op.apply enc x).1.get = op.onMap x.1.get := by
  obtain ⟨s, st⟩ := x
  cases op with
  | set key value => exact get_set s key value
  | del key => exact get_del s key
  | clear => exact get_clear s
  | save env => exact congrArg (fun vs => (Option.getD vs []).lookup) (save_values enc env s st)

/-- Over every run, `Get` reads the values as the map that the run's operations build: each
`Set` writes its key, each `Del` deletes its key, each `Clear` empties the map, and `Save`
changes nothing. -/
theorem run_get (ops : List (Op V)) (x : Session V × Storage) :
    (Op.run enc ops x).1.get = ops.foldl (fun m op => op.onMap m) x.1.get := by
  induction ops generalizing x with
  | nil => rfl
  | cons op ops ih => rw [Op.run, ih, List.foldl_cons, apply_get]

/-- A clean session with an ID loads back: a new session that loads the ID from the storage gets
the values and the ID, when `decodeSessionValues` inverts `encodeSessionValues` and an encoding
is never empty. -/
theorem load_of_saved {dec : List UInt8 → Except Nat (Values V)}
    (hdec : ∀ vs data, enc vs = .ok data → data ≠ [] ∧ dec data = .ok vs) {s : Session V}
    {st : Storage} (hs : s.Saved enc st) (hd : s.dirty = false) (hid : s.id ≠ []) :
    (new : Session V).load dec st s.id = (⟨s.id, some (s.values.getD []), false⟩, none) := by
  obtain ⟨-, h0⟩ | ⟨-, data, henc, hst⟩ := hs hd
  · exact absurd h0 hid
  obtain ⟨hne, hdata⟩ := hdec _ _ henc
  simp [load, hst, List.length_pos.mpr hne, hdata, new]

/-- Over every run in which `uuid.Gen` gives non-empty ids, a session that ends clean with an ID
is restored by `Load` of that ID from the storage the run leaves. -/
theorem run_load {dec : List UInt8 → Except Nat (Values V)}
    (hdec : ∀ vs data, enc vs = .ok data → data ≠ [] ∧ dec data = .ok vs) (ops : List (Op V))
    (hgen : ∀ op ∈ ops, op.GenOk) (st : Storage) (hd : (Op.run enc ops (new, st)).1.dirty = false)
    (hid : (Op.run enc ops (new, st)).1.id ≠ []) :
    (new : Session V).load dec (Op.run enc ops (new, st)).2 (Op.run enc ops (new, st)).1.id =
      (⟨(Op.run enc ops (new, st)).1.id, some ((Op.run enc ops (new, st)).1.values.getD []),
        false⟩, none) :=
  load_of_saved hdec (run_saved ops hgen (new, st) (new_saved st)) hd hid

/-- The one value `k = 1`, encoded as the byte `1`: `Set` and a `Save` that gets the id `s1` store
it, and `Load` of `s1` restores it. -/
theorem run_load_set_save :
    let enc : Values Nat → Except Nat (List UInt8) :=
      fun vs => if vs = [("k".toList, 1)] then .ok [1] else .error 0
    let dec : List UInt8 → Except Nat (Values Nat) :=
      fun data => if data = [1] then .ok [("k".toList, 1)] else .error 0
    let ops : List (Op Nat) := [.set "k".toList (some 1), .save ⟨.ok "s1".toList, none⟩]
    (∀ vs data, enc vs = .ok data → data ≠ [] ∧ dec data = .ok vs) ∧ (∀ op ∈ ops, op.GenOk) ∧
      (Op.run enc ops (new, fun _ => none)).1.dirty = false ∧
      (Op.run enc ops (new, fun _ => none)).1.id ≠ [] ∧
      (new : Session Nat).load dec (Op.run enc ops (new, fun _ => none)).2
          (Op.run enc ops (new, fun _ => none)).1.id =
        (⟨(Op.run enc ops (new, fun _ => none)).1.id,
          some ((Op.run enc ops (new, fun _ => none)).1.values.getD []), false⟩, none) := by
  intro enc dec ops
  have hdec : ∀ vs data, enc vs = .ok data → data ≠ [] ∧ dec data = .ok vs := by
    intro vs data h
    by_cases hv : vs = [("k".toList, 1)]
    · simp only [enc, hv, if_true, Except.ok.injEq] at h
      subst h hv
      exact ⟨List.cons_ne_nil _ _, rfl⟩
    · simp only [enc, hv, if_false] at h
      cases h
  have hgen : ∀ op ∈ ops, op.GenOk := by simp [ops, Op.GenOk]
  exact ⟨hdec, hgen, rfl, by decide, run_load hdec ops hgen _ rfl (by decide)⟩

end Session

end GoHttpd
