import GoHttpd.Route.Match
import GoHttpd.Session.Session

/-! `Transaction` of package `httpd`, a request with its response, and the pool that recycles
transactions.  `NewTransaction` takes a transaction from `httpTransactionFreePool`, or a new one
when the pool gives none, and sets its writer, request, server, URL and status.  The finalizer
`gcTransaction` clears the writer, the request, the URL, `headerWritten`, the query cache and the
session of a transaction that has become garbage, and puts it back into the pool.  `sync.Pool.Get`
may return any pooled transaction or none.  A run is a sequence of events on the live
transactions and the pool.

Neither function resets `AuxData` or `routeMatch`, so a recycled transaction answers `AuxVar`,
`RouteVar` and `RoutePath` with what an earlier request set or matched
(`recycled_keeps_aux_and_route`).  Over every run, every other field of a transaction that
`NewTransaction` returns is the fresh one (`run_newTransaction_fresh`). -/

namespace GoHttpd

/-- `*url.URL`, as far as `Transaction` reads it. -/
structure Url where
  path : List Char
  rawQuery : List Char
  deriving DecidableEq, Repr

/-- `*http.Request`, as far as `Transaction` reads it. -/
structure Request where
  method : List Char
  url : Url
  deriving DecidableEq, Repr

/-- `Transaction`, over response writers `W`, servers `S`, values `V` of `AuxData` and of the
session, and route handlers `H`.  A nil pointer or map is `none`. -/
structure Transaction (W S V H : Type) where
  responseWriter : Option W
  request : Option Request
  server : Option S
  url : Option Url
  status : Int
  auxData : Option (Session.Values V)
  headerWritten : Bool
  query : Option (List (List Char × List (List Char)))
  session : Option (Session V)
  routeMatch : Option (Match H)

namespace Transaction

variable {W S V H : Type}

/-- `new(Transaction)`, the zero transaction. -/
def zero : Transaction W S V H :=
  ⟨none, none, none, none, 0, none, false, none, none, none⟩

/-- What `gcTransaction` clears before it puts the transaction into the pool. -/
def gc (t : Transaction W S V H) : Transaction W S V H :=
  { t with responseWriter := none, request := none, url := none, headerWritten := false,
           query := none, session := none }

/-- `Transaction.AuxVar`: the value under `name`, `nil` for a nil map. -/
def auxVar (t : Transaction W S V H) (name : List Char) : Option V :=
  (t.auxData.getD []).lookup name

/-- `Transaction.SetAuxVar`, which makes the map when it is nil. -/
def setAuxVar (t : Transaction W S V H) (name : List Char) (value : V) : Transaction W S V H :=
  { t with auxData := some ((t.auxData.getD []).store name value) }

/-- `Transaction.RouteVar`: the value of a placeholder of the matched route, or `""` when the
transaction was not routed. -/
def routeVar (t : Transaction W S V H) (name : List Char) : Except Panic (List Char) :=
  match t.routeMatch with
  | none => .ok []
  | some m => m.var name []

/-- `Transaction.RoutePath`: the path the router matched, or else `t.URL.Path`. -/
def routePath (t : Transaction W S V H) : Except Panic (List Char) :=
  match t.routeMatch, t.url with
  | some m, _ => .ok m.path
  | none, some u => .ok u.path
  | none, none => .error .nilDereference

end Transaction

/-- The condition flags `Router.Match` computes for a method: `ParseCondFlags` of the single
token, whose flags returned with an error are `0`. -/
def methodFlags (method : List Char) : CondFlags :=
  match parseCondFlags [method] with
  | .ok f => f
  | .error _ => 0

/-- The type assertion `m.Route.Handler.(Handler)`, which panics on a nil handler. -/
def assertHandler : Option H → Except Panic H
  | some h => .ok h
  | none => .error .nilInterfaceConversion

/-- `Router.Match` of package `httpd`: the route of the transaction's method and URL path.  On a
match it sets `t.routeMatch` and returns the route's handler through the type assertion, which
panics on a nil handler after `t.routeMatch` is set; as the caller holds the transaction by
pointer, the transaction after the call is returned beside the result or the panic. -/
def routerMatch (router : Router H) (t : Transaction W S V H) :
    Except Panic (Except MatchError (Option H)) × Transaction W S V H :=
  match t.request, t.url with
  | some req, some u =>
    match router.matchPath (methodFlags req.method) u.path with
    | .error e => (.ok (.error e), t)
    | .ok none => (.ok (.ok none), t)
    | .ok (some m) =>
      ((fun h => .ok (some h)) <$> assertHandler m.route.handler, { t with routeMatch := some m })
  | _, _ => (.error .nilDereference, t)

/-- `httpTransactionFreePool`: the finalized transactions it holds. -/
abbrev Pool (W S V H : Type) := List (Transaction W S V H)

/-- `sync.Pool.Get` with `New` set to `new(Transaction)`: the pooled transaction at `pick`,
removed from the pool, or a new one when `pick` names none. -/
def Pool.get (pool : Pool W S V H) (pick : Option Nat) : Transaction W S V H × Pool W S V H :=
  match pick.bind (pool[·]?), pick with
  | some t, some i => (t, pool.eraseIdx i)
  | _, _ => (.zero, pool)

/-- `NewTransaction(server, w, r)`. -/
def newTransaction (server : S) (w : W) (r : Request) (pool : Pool W S V H) (pick : Option Nat) :
    Transaction W S V H × Pool W S V H :=
  let (t, pool) := pool.get pick
  ({ t with responseWriter := some w, request := some r, server := some server, url := some r.url,
            status := 200 }, pool)

/-- `gcTransaction`, called by the garbage collector: the transaction cleared and put into the
pool. -/
def gcTransaction (t : Transaction W S V H) (pool : Pool W S V H) : Pool W S V H :=
  t.gc :: pool

/-- A transaction that was put into the pool by `gcTransaction`. -/
structure Transaction.Cleared (t : Transaction W S V H) : Prop where
  responseWriter : t.responseWriter = none
  request : t.request = none
  url : t.url = none
  headerWritten : t.headerWritten = false
  query : t.query = none
  session : t.session = none

theorem Transaction.gc_cleared (t : Transaction W S V H) : t.gc.Cleared :=
  ⟨rfl, rfl, rfl, rfl, rfl, rfl⟩

theorem Transaction.zero_cleared : (Transaction.zero : Transaction W S V H).Cleared :=
  ⟨rfl, rfl, rfl, rfl, rfl, rfl⟩

/-- The transaction `NewTransaction` returns for a request when it takes `t` from the pool:
the writer, request, server, URL and status set, and every other field `t`'s. -/
def Transaction.renew (t : Transaction W S V H) (server : S) (w : W) (r : Request) :
    Transaction W S V H :=
  { t with responseWriter := some w, request := some r, server := some server, url := some r.url,
           status := 200 }

theorem Pool.get_cases (pool : Pool W S V H) (pick : Option Nat) :
    (∃ i t, pool[i]? = some t ∧ pick = some i ∧ pool.get pick = (t, pool.eraseIdx i)) ∨
      pool.get pick = (.zero, pool) := by
  unfold Pool.get
  split
  · rename_i t i h
    exact .inl ⟨i, t, h, rfl, rfl⟩
  · exact .inr rfl

theorem Pool.get_cleared {pool : Pool W S V H} (hp : ∀ t ∈ pool, t.Cleared) (pick : Option Nat) :
    (pool.get pick).1.Cleared ∧ ∀ t ∈ (pool.get pick).2, t.Cleared := by
  rcases pool.get_cases pick with ⟨i, t, ht, -, h⟩ | h <;> rw [h]
  · exact ⟨hp t (List.getElem?_mem ht), fun u hu => hp u (List.mem_of_mem_eraseIdx hu)⟩
  · exact ⟨Transaction.zero_cleared, hp⟩

/-- From a pool of cleared transactions, `NewTransaction` returns a transaction that is fresh in
every field but `Server`'s previous value, `AuxData` and `routeMatch`: its writer, request, server,
URL and status are the call's, `headerWritten` is false, and it has no query cache and no
session. -/
theorem newTransaction_fresh {pool : Pool W S V H} (hp : ∀ t ∈ pool, t.Cleared) (server : S)
    (w : W) (r : Request) (pick : Option Nat) :
    ∃ t : Transaction W S V H, t.Cleared ∧ (newTransaction server w r pool pick).1 = t.renew server w r ∧
      ∀ u ∈ (newTransaction server w r pool pick).2, u.Cleared :=
  ⟨_, (pool.get_cleared hp pick).1, rfl, (pool.get_cleared hp pick).2⟩

/-- A recycled transaction is the fresh one for the new request but for `AuxData` and
`routeMatch`, which are those of the transaction the garbage collector finalized. -/
theorem newTransaction_gcTransaction (t : Transaction W S V H) (pool : Pool W S V H) (server : S)
    (w : W) (r : Request) :
    newTransaction server w r (gcTransaction t pool) (some 0) =
      ({ (newTransaction server w r pool none).1 with
          auxData := t.auxData
          routeMatch := t.routeMatch }, pool) := by
  simp [newTransaction, gcTransaction, Pool.get, Transaction.gc, Transaction.zero]

/-- A request whose transaction set an `AuxData` variable and was routed, then finalized: the
transaction `NewTransaction` returns from the pool for the next request is that of a fresh
allocation except that it holds the variable and the route match of the first request, while a
fresh allocation has neither.  This holds also when the routing panicked in the type assertion of
a nil handler, which comes after the match is set. -/
theorem recycled_keeps_aux_and_route (router : Router H) (server server' : S) (w w' : W)
    (r r' : Request) (pool : Pool W S V H) (name : List Char) (value : V) :
    let t := (routerMatch router ((newTransaction server w r pool none).1.setAuxVar name value)).2
    (newTransaction server' w' r' (gcTransaction t pool) (some 0)).1 =
        { (newTransaction server' w' r' pool none).1 with
          auxData := some [(name, value)],
          routeMatch := (match router.matchPath (methodFlags r.method) r.url.path with
            | .ok (some m) => some m
            | _ => none) } ∧
      (newTransaction server' w' r' (gcTransaction t pool) (some 0)).1.auxVar name = some value ∧
      (newTransaction server' w' r' pool none).1.auxVar name = none ∧
      (newTransaction server' w' r' pool none).1.routeMatch = none := by
  have hr : ((newTransaction server w r pool none).1.setAuxVar name value).request = some r := rfl
  have hu : ((newTransaction server w r pool none).1.setAuxVar name value).url = some r.url := rfl
  simp only [routerMatch, hr, hu]
  rcases router.matchPath (methodFlags r.method) r.url.path with e | _ | m <;>
    rw [newTransaction_gcTransaction] <;>
    simp [Transaction.auxVar, Transaction.setAuxVar,
      Session.Values.store, newTransaction, Pool.get, Transaction.zero]

/-! ### Runs of the pool -/

/-- An event of a run: `NewTransaction` for a request, with the pool's choice; `SetAuxVar` or the
routing by a router of a live transaction; or the finalizer of a live transaction that has become
garbage. -/
inductive Event (W S V H : Type) where
  | newTransaction (server : S) (w : W) (r : Request) (pick : Option Nat)
  | setAuxVar (i : Nat) (name : List Char) (value : V)
  | route (i : Nat) (router : Router H)
  | finalize (i : Nat)

/-- The live transactions and the pool. -/
structure World (W S V H : Type) where
  live : List (Transaction W S V H)
  pool : Pool W S V H

namespace World

variable {W S V H : Type}

/-- One event; a routing keeps the transaction it leaves, also when the type assertion of the
handler panics. -/
def step (x : World W S V H) : Event W S V H → World W S V H
  | .newTransaction server w r pick =>
    ⟨x.live ++ [(newTransaction server w r x.pool pick).1], (newTransaction server w r x.pool pick).2⟩
  | .setAuxVar i name value => { x with live := x.live.modify (·.setAuxVar name value) i }
  | .route i router =>
    { x with live := x.live.modify (fun t => (routerMatch router t).2) i }
  | .finalize i =>
    match x.live[i]? with
    | some t => ⟨x.live.eraseIdx i, gcTransaction t x.pool⟩
    | none => x

/-- A run of events. -/
def run (x : World W S V H) (events : List (Event W S V H)) : World W S V H :=
  events.foldl step x

/-- Every event keeps the pool made of cleared transactions. -/
theorem step_pool_cleared {x : World W S V H} (hx : ∀ t ∈ x.pool, t.Cleared)
    (e : Event W S V H) : ∀ t ∈ (x.step e).pool, t.Cleared := by
  cases e with
  | newTransaction server w r pick => exact (x.pool.get_cleared hx pick).2
  | setAuxVar | route => exact hx
  | finalize i =>
    rcases hget : x.live[i]? with _ | t
    · simpa [step, hget] using hx
    · simp only [step, hget, gcTransaction, List.mem_cons, forall_eq_or_imp]
      exact ⟨t.gc_cleared, hx⟩

theorem run_pool_cleared (events : List (Event W S V H)) :
    ∀ x : World W S V H, (∀ t ∈ x.pool, t.Cleared) → ∀ t ∈ (x.run events).pool, t.Cleared := by
  induction events with
  | nil => exact fun _ hx => hx
  | cons e events ih => exact fun x hx => ih (x.step e) (step_pool_cleared hx e)

/-- After any run from an empty pool, `NewTransaction` returns a transaction whose fields are
the fresh ones except `AuxData` and `routeMatch`. -/
theorem run_newTransaction_fresh (live : List (Transaction W S V H))
    (events : List (Event W S V H)) (server : S) (w : W) (r : Request) (pick : Option Nat) :
    ∃ t : Transaction W S V H, t.Cleared ∧
      (newTransaction server w r (World.run ⟨live, []⟩ events).pool pick).1 = t.renew server w r := by
  obtain ⟨t, ht, heq, -⟩ :=
    newTransaction_fresh (run_pool_cleared events ⟨live, []⟩ (by simp)) server w r pick
  exact ⟨t, ht, heq⟩

end World

end GoHttpd
