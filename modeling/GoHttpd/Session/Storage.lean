import GoHttpd.Basic
import Mathlib.Data.List.Basic

/-! `MemoryStorage` of package `session`, a `sync.Map` from session ids to entries, seen from the
calls on one session id.  Every `Load`, `Store` and `Delete` of the map is one atomic step, and a
call of `GetSessionData`, `SetSessionData`, `RefreshSessionData` or `DelSessionData` is the
sequence of steps its body performs, with a clock reading of its own before the steps that use
`time.Now()`.  A system is the map's entry for the id and the calls in flight; a schedule says
which call takes the next step and what the clock reads then.  Step order is real-time order.

`RefreshSessionData` loads the entry and stores it back with a new expiry: a `SetSessionData`
that completes between the two steps is overwritten with the older data, which no serial order
of the two calls gives (`refresh_overwrites_set`).  `GetSessionData` that loads an expired entry
deletes the id afterwards, also when a `SetSessionData` completed in between, which no serial
order gives while the new entry is fresh (`get_deletes_set`).  What does hold over every schedule is that the map only ever holds data
that was there at the start or that a `SetSessionData` call wrote (`run_provenance`).

A serial order is itself a schedule: `serial` runs the calls exactly as the schedule that lets
each call return before the next one starts (`serial_eq_run_sequential`), so the serial runs
that `refresh_overwrites_set` and `get_deletes_set` compare with are runs of the same
semantics. -/

namespace GoHttpd.MemoryStorage

/-- `memStorageEntry`: the data and the time it expires. -/
structure Entry where
  data : List UInt8
  expires : Int
  deriving DecidableEq, Repr

/-- A call of `MemoryStorage` on the session id, with its arguments. -/
inductive Call where
  /-- `GetSessionData` -/
  | get
  /-- `SetSessionData(data, ttl)` -/
  | set (data : List UInt8) (ttl : Int)
  /-- `RefreshSessionData(ttl)` -/
  | refresh (ttl : Int)
  /-- `DelSessionData` -/
  | del
  deriving DecidableEq, Repr

/-- How far a call has run: not started, past its `Load` of an entry it will write back or
delete, or returned. -/
inductive Phase where
  | start
  | loaded (e : Entry)
  | done
  deriving DecidableEq, Repr

/-- The next atomic step of a call in phase `ph`, with the clock reading `now`, on the map's
entry `cell`: the call's next phase and the entry after the step, or `none` once it returned.
`GetSessionData` deletes an entry it found expired in a second step; `RefreshSessionData` stores
back the entry it loaded with a new expiry. -/
def Call.step (c : Call) (ph : Phase) (now : Int) (cell : Option Entry) :
    Option (Phase × Option Entry) :=
  match c, ph with
  | .get, .start =>
    match cell with
    | some e => if e.expires < now then some (.loaded e, cell) else some (.done, cell)
    | none => some (.done, cell)
  | .get, .loaded _ => some (.done, none)
  | .set data ttl, .start => some (.done, some ⟨data, now + ttl⟩)
  | .refresh _, .start =>
    match cell with
    | some e => some (.loaded e, cell)
    | none => some (.done, cell)
  | .refresh ttl, .loaded e => some (.done, some { e with expires := now + ttl })
  | .del, .start => some (.done, none)
  | _, _ => none

/-- The map's entry for the session id and the calls in flight. -/
structure Sys where
  cell : Option Entry
  calls : List (Call × Phase)
  deriving DecidableEq, Repr

namespace Sys

/-- Call `i` takes its next step with the clock reading `now`. -/
def step (s : Sys) (i : Nat) (now : Int) : Option Sys :=
  match s.calls[i]? with
  | some (c, ph) => (c.step ph now s.cell).map fun (ph', cell') => ⟨cell', s.calls.set i (c, ph')⟩
  | none => none

/-- The steps of a schedule, each naming a call and the clock reading it takes; `none` when a
step names a call that has returned. -/
def run (s : Sys) : List (Nat × Int) → Option Sys
  | [] => some s
  | (i, now) :: sched => (s.step i now).bind (·.run sched)

/-- The system where the calls `calls` have not started. -/
def init (cell : Option Entry) (calls : List Call) : Sys :=
  ⟨cell, calls.map (·, .start)⟩

end Sys

/-- A call run alone from its start to its return with the clock readings `clocks`: the entry it
leaves, or `none` when the readings do not match its steps. -/
def Call.runAlone (c : Call) (clocks : List Int) (cell : Option Entry) : Option (Option Entry) :=
  ((Sys.init cell [c]).run (clocks.map (0, ·))).bind fun s =>
    if s.calls = [(c, .done)] then some s.cell else none

/-- The calls run one after the other, each alone with its clock readings. -/
def serial (cell : Option Entry) : List (Call × List Int) → Option (Option Entry)
  | [] => some cell
  | (c, clocks) :: rest => (c.runAlone clocks cell).bind (serial · rest)

/-- The schedule that runs the calls one after the other, the first of them as call `k`: each
call takes its own clock readings and returns before the next one starts. -/
def sequential (k : Nat) : List (Call × List Int) → List (Nat × Int)
  | [] => []
  | (_, clocks) :: rest => clocks.map (k, ·) ++ sequential (k + 1) rest

/-! ### Steps of one call among others -/

namespace Sys

/-- A step is a step of one call, at its index, and changes only that call's phase. -/
theorem step_eq_some {s s' : Sys} {i : Nat} {now : Int} (h : s.step i now = some s') :
    ∃ c ph ph', s.calls[i]? = some (c, ph) ∧ c.step ph now s.cell = some (ph', s'.cell) ∧
      s'.calls = s.calls.set i (c, ph') := by
  unfold step at h
  split at h
  · rename_i c ph hget
    obtain ⟨⟨ph', cell'⟩, hstep, rfl⟩ := Option.map_eq_some'.mp h
    exact ⟨c, ph, ph', hget, hstep, rfl⟩
  · cases h

theorem step_fst {s s' : Sys} {i : Nat} {now : Int} (h : s.step i now = some s') :
    s'.calls.map Prod.fst = s.calls.map Prod.fst := by
  obtain ⟨c, ph, ph', hget, -, hcalls⟩ := step_eq_some h
  have hi : i < s.calls.length := (List.getElem?_eq_some_iff.mp hget).1
  apply List.ext_getElem?
  intro j
  rw [hcalls, List.map_set, List.getElem?_set]
  split_ifs with hij <;> simp_all

theorem run_fst {s s' : Sys} {sched : List (Nat × Int)} (h : s.run sched = some s') :
    s'.calls.map Prod.fst = s.calls.map Prod.fst := by
  induction sched generalizing s with
  | nil => cases h; rfl
  | cons x sched ih =>
    obtain ⟨s₁, h₁, h₂⟩ := Option.bind_eq_some.mp h
    exact (ih h₂).trans (step_fst h₁)

theorem run_append (s : Sys) (a b : List (Nat × Int)) :
    s.run (a ++ b) = (s.run a).bind (·.run b) := by
  induction a generalizing s with
  | nil => rfl
  | cons x a ih =>
    obtain ⟨i, now⟩ := x
    rw [List.cons_append, run, run, Option.bind_assoc]
    simp only [ih]

/-- Steps of the other calls leave call `k` where it is. -/
theorem run_getElem?_of_ne {s s' : Sys} {sched : List (Nat × Int)} {k : Nat}
    (hk : ∀ x ∈ sched, x.1 ≠ k) (h : s.run sched = some s') : s'.calls[k]? = s.calls[k]? := by
  induction sched generalizing s with
  | nil => cases h; rfl
  | cons x sched ih =>
    obtain ⟨s₁, h₁, h₂⟩ := Option.bind_eq_some.mp h
    obtain ⟨_, _, _, -, -, hcalls⟩ := step_eq_some h₁
    rw [ih (fun y hy => hk y (List.mem_cons_of_mem _ hy)) h₂, hcalls,
      List.getElem?_set_ne (hk x (List.mem_cons_self _ _))]

/-- Steps of one call among others run as that call alone would, the others standing by. -/
theorem run_at (pre post : List (Call × Phase)) (c : Call) (ph : Phase) (cell : Option Entry)
    (clocks : List Int) :
    (⟨cell, pre ++ (c, ph) :: post⟩ : Sys).run (clocks.map (pre.length, ·)) =
      ((⟨cell, [(c, ph)]⟩ : Sys).run (clocks.map (0, ·))).map
        fun s => ⟨s.cell, pre ++ s.calls ++ post⟩ := by
  induction clocks generalizing cell ph with
  | nil => simp [run]
  | cons now clocks ih =>
    simp only [List.map_cons, run, step, List.getElem?_append_right (le_refl _), Nat.sub_self,
      List.getElem?_cons_zero]
    cases c.step ph now cell with
    | none => rfl
    | some r =>
      obtain ⟨ph', cell'⟩ := r
      simp [List.set_append_right, ih]

theorem run_single {c : Call} {ph : Phase} {cell : Option Entry} {sched : List (Nat × Int)}
    {s' : Sys} (h : (⟨cell, [(c, ph)]⟩ : Sys).run sched = some s') :
    ∃ ph', s'.calls = [(c, ph')] := by
  have h1 := run_fst h
  rcases hs : s'.calls with _ | ⟨⟨c', ph'⟩, _ | _⟩ <;> rw [hs] at h1 <;> simp at h1
  exact ⟨ph', by rw [h1]⟩

end Sys

/-! ### Serial runs are sequential schedules -/

theorem le_of_mem_sequential {k : Nat} {cs : List (Call × List Int)} {x : Nat × Int}
    (h : x ∈ sequential k cs) : k ≤ x.1 := by
  induction cs generalizing k with
  | nil => cases h
  | cons p cs ih =>
    rcases List.mem_append.mp h with h | h
    · obtain ⟨t, -, rfl⟩ := List.mem_map.mp h
      exact le_refl _
    · exact Nat.le_of_succ_le (ih h)

/-- The sequential schedule of the calls `cs` after the returned calls `pre` ends with every call
returned exactly when `serial` runs the calls, and then with the entry `serial` leaves. -/
theorem run_sequential (pre : List Call) (cs : List (Call × List Int)) (cell : Option Entry) :
    ((⟨cell, pre.map (·, .done) ++ cs.map (·.1, .start)⟩ : Sys).run (sequential pre.length cs)).bind
        (fun s => if s.calls = (pre ++ cs.map Prod.fst).map (·, .done) then some s.cell else none) =
      serial cell cs := by
  induction cs generalizing pre cell with
  | nil => simp [sequential, Sys.run, serial]
  | cons p rest ih =>
    obtain ⟨c, clocks⟩ := p
    have hrun := Sys.run_at (pre.map (·, Phase.done)) (rest.map (·.1, .start)) c .start cell clocks
    rw [List.length_map] at hrun
    simp only [sequential, List.map_cons, Sys.run_append, hrun, serial, Call.runAlone, Sys.init,
      List.map_nil]
    rcases hr : (⟨cell, [(c, .start)]⟩ : Sys).run (clocks.map (0, ·)) with _ | s₁
    · simp
    obtain ⟨ph₁, hs₁⟩ := Sys.run_single hr
    simp only [Option.map_some', Option.some_bind, hs₁]
    by_cases hph : ph₁ = .done
    · -- the call returned: the rest runs after one more returned call
      subst hph
      have := ih (pre ++ [c]) s₁.cell
      simp only [List.length_append, List.length_singleton, List.map_append, List.map_cons,
        List.map_nil, List.append_assoc, List.singleton_append, if_true] at this ⊢
      exact this
    · -- the call did not return, and the later steps leave it so
      rw [if_neg (by simpa using hph), Option.none_bind]
      rcases hr₂ : (⟨s₁.cell, pre.map (·, Phase.done) ++ [(c, ph₁)] ++ rest.map (·.1, .start)⟩ :
        Sys).run (sequential (pre.length + 1) rest) with _ | s₂
      · rw [hr₂]; rfl
      have hk := Sys.run_getElem?_of_ne (k := pre.length)
        (fun x hx => Nat.ne_of_gt (le_of_mem_sequential hx)) hr₂
      rw [hr₂, Option.some_bind, if_neg]
      intro heq
      rw [heq] at hk
      simp only [List.map_append, List.map_cons, List.append_assoc, List.singleton_append] at hk
      rw [List.getElem?_append_right (by simp), List.getElem?_append_right (by simp)] at hk
      simp only [List.length_map, Nat.sub_self, List.getElem?_cons_zero, Option.some.injEq,
        Prod.mk.injEq, true_and] at hk
      exact hph hk.symm

/-- The serial runs are the runs of the interleaving semantics under the schedule that runs each
call to its return before the next one starts. -/
theorem serial_eq_run_sequential (cell : Option Entry) (cs : List (Call × List Int)) :
    serial cell cs = ((Sys.init cell (cs.map Prod.fst)).run (sequential 0 cs)).bind
      fun s => if s.calls = cs.map (·.1, .done) then some s.cell else none := by
  have := run_sequential [] cs cell
  simp only [List.map_nil, List.nil_append, List.length_nil, List.map_map, Function.comp_def]
    at this
  simp only [← this, Sys.init, List.map_map, Function.comp_def]

/-! ### Two calls alone -/

/-- `SetSessionData` alone stores its data, whatever the readings. -/
theorem set_runAlone {data : List UInt8} {ttl : Int} {clocks : List Int} {cell : Option Entry}
    {cell' : Option Entry} (h : (Call.set data ttl).runAlone clocks cell = some cell') :
    cell'.map Entry.data = some data := by
  rcases clocks with _ | ⟨_, _ | _⟩ <;>
    simp [Call.runAlone, Sys.init, Sys.run, Sys.step, Call.step] at h
  rw [← h]; rfl

/-- `GetSessionData` alone keeps an entry that has not expired at its readings. -/
theorem get_runAlone_fresh {e : Entry} {clocks : List Int} {cell : Option Entry}
    (h : Call.get.runAlone clocks (some e) = some cell) (hfresh : ∀ t ∈ clocks, t ≤ e.expires) :
    cell = some e := by
  rcases clocks with _ | ⟨t, _ | ⟨t', rest⟩⟩
  · simp [Call.runAlone, Sys.init, Sys.run] at h
  · have : ¬e.expires < t := Int.not_lt.mpr (hfresh t (List.mem_singleton_self t))
    simp [Call.runAlone, Sys.init, Sys.run, Sys.step, Call.step, this] at h
    exact h.symm
  · have : ¬e.expires < t := Int.not_lt.mpr (hfresh t (List.mem_cons_self _ _))
    simp [Call.runAlone, Sys.init, Sys.run, Sys.step, Call.step, this] at h

/-- A `GetSessionData` that loads an entry expired at its reading, then a `SetSessionData` that
runs to completion, then the `Delete` of the get: the map ends with no entry, so the data that
the completed `SetSessionData` wrote is deleted.  When the entry has not expired the get returns
after its `Load` and the schedule cannot take its third step.  Run one after the other, the get
first, or the set first with the get reading no later than the new entry's expiry, the two calls
end with the data of the `SetSessionData`. -/
theorem get_deletes_set (e : Entry) (data : List UInt8) (ttl t₁ t₂ t₃ : Int) :
    (Sys.init (some e) [.get, .set data ttl]).run [(0, t₁), (1, t₂), (0, t₃)] =
      (if e.expires < t₁ then some ⟨none, [(.get, .done), (.set data ttl, .done)]⟩ else none) ∧
    ∀ clocks cell,
      (serial (some e) [(.get, clocks), (.set data ttl, [t₂])] = some cell →
        cell.map Entry.data = some data) ∧
      (serial (some e) [(.set data ttl, [t₂]), (.get, clocks)] = some cell →
        (∀ t ∈ clocks, t ≤ t₂ + ttl) → cell.map Entry.data = some data) := by
  refine ⟨by by_cases h : e.expires < t₁ <;> simp [h, Sys.init, Sys.run, Sys.step, Call.step],
    fun clocks cell => ⟨fun h => ?_, fun h hfresh => ?_⟩⟩
  · simp only [serial, Option.bind_eq_some] at h
    obtain ⟨c₁, -, c₂, h₂, hc⟩ := h
    cases hc
    exact set_runAlone h₂
  · simp only [serial, Option.bind_eq_some] at h
    obtain ⟨c₁, h₁, c₂, h₂, hc⟩ := h
    cases hc
    have hset : c₁ = some ⟨data, t₂ + ttl⟩ := by
      simpa [Call.runAlone, Sys.init, Sys.run, Sys.step, Call.step] using h₁.symm
    subst hset
    rw [get_runAlone_fresh h₂ hfresh]
    rfl

/-! ### Provenance over every schedule -/

/-- The data a call writes, if it is a `SetSessionData`. -/
def Call.written : Call → Option (List UInt8)
  | .set data _ => some data
  | _ => none

/-- Every entry in the map, and every entry a call has loaded, holds data from `D`. -/
def Sys.Provenant (D : List UInt8 → Prop) (s : Sys) : Prop :=
  (∀ e, s.cell = some e → D e.data) ∧ ∀ c e, (c, Phase.loaded e) ∈ s.calls → D e.data

/-- A step writes only data that was in the map, was loaded, or is the data of the call. -/
theorem Call.step_provenant {D : List UInt8 → Prop} {c : Call} {ph ph' : Phase} {now : Int}
    {cell cell' : Option Entry} (hw : ∀ d, c.written = some d → D d)
    (hcell : ∀ e, cell = some e → D e.data) (hph : ∀ e, ph = .loaded e → D e.data)
    (h : c.step ph now cell = some (ph', cell')) :
    (∀ e, cell' = some e → D e.data) ∧ ∀ e, ph' = .loaded e → D e.data := by
  unfold Call.step at h
  split at h <;> (try split at h) <;> (try split at h) <;> simp only [Option.some.injEq,
    Prod.mk.injEq, reduceCtorEq] at h <;> obtain ⟨rfl, rfl⟩ := h <;>
    simp_all [Call.written]

/-- One step of a schedule keeps the data in the map and in the loaded entries within the
initial data and the data of the `SetSessionData` calls. -/
theorem Sys.step_provenant {D : List UInt8 → Prop} {s s' : Sys} {i : Nat} {now : Int}
    (hw : ∀ p ∈ s.calls, ∀ d, p.1.written = some d → D d) (hs : s.Provenant D)
    (h : s.step i now = some s') : s'.Provenant D := by
  obtain ⟨c, ph, ph', hget, hstep, hcalls⟩ := Sys.step_eq_some h
  have hmem : (c, ph) ∈ s.calls := List.getElem?_mem hget
  obtain ⟨hcell', hph'⟩ := Call.step_provenant (hw _ hmem) hs.1
    (fun e he => hs.2 c e (he ▸ hmem)) hstep
  refine ⟨hcell', fun c' e he => ?_⟩
  rw [hcalls] at he
  rcases List.mem_or_eq_of_mem_set he with he | he
  · exact hs.2 c' e he
  · cases he; exact hph' e rfl

/-- Over every schedule, the map holds only data that was in it at the start or that a
`SetSessionData` call of the system wrote. -/
theorem run_provenance (cell : Option Entry) (calls : List Call) (sched : List (Nat × Int))
    (s' : Sys) (h : (Sys.init cell calls).run sched = some s') :
    ∀ e, s'.cell = some e →
      cell.map Entry.data = some e.data ∨ ∃ ttl, Call.set e.data ttl ∈ calls := by
  let D : List UInt8 → Prop := fun d => cell.map Entry.data = some d ∨ ∃ ttl, Call.set d ttl ∈ calls
  suffices ∀ (s : Sys) sched, s.calls.map Prod.fst = calls → s.Provenant D →
      s.run sched = some s' → s'.Provenant D from
    (this _ sched (by simp [Sys.init, Function.comp_def]) ⟨fun e he => by simp [Sys.init] at he; simp [D, he],
      fun c e he => by simp [Sys.init] at he⟩ h).1
  intro s sched
  induction sched generalizing s with
  | nil => intro _ hs h; cases h; exact hs
  | cons x sched ih =>
    intro hcalls hs h
    obtain ⟨s₁, h₁, h₂⟩ := Option.bind_eq_some.mp h
    have hw : ∀ p ∈ s.calls, ∀ d, p.1.written = some d → D d := by
      intro p hp d hd
      have : p.1 ∈ calls := hcalls ▸ List.mem_map_of_mem Prod.fst hp
      cases hc : p.1 <;> simp [Call.written, hc] at hd
      subst hd
      exact .inr ⟨_, hc ▸ this⟩
    exact ih s₁ ((Sys.step_fst h₁).trans hcalls) (Sys.step_provenant hw hs h₁) h₂

/-- A `GetSessionData` on the empty map, then a `SetSessionData`: the entry the schedule leaves
holds the data of the set. -/
theorem run_provenance_get_set :
    let s' : Sys := ⟨some ⟨[1], 6⟩, [(.set [1] 5, .done), (.get, .done)]⟩
    (Sys.init none [.set [1] 5, .get]).run [(1, 0), (0, 1)] = some s' ∧
      ∀ e, s'.cell = some e → (none : Option Entry).map Entry.data = some e.data ∨
        ∃ ttl, Call.set e.data ttl ∈ [Call.set [1] 5, .get] :=
  ⟨rfl, run_provenance none _ [(1, 0), (0, 1)] _ rfl⟩

end GoHttpd.MemoryStorage
