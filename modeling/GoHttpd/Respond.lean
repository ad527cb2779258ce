import GoHttpd.Session.Http
import GoHttpd.Transaction

/-! How a `Transaction` responds, as a state machine over the actions a handler takes: the
header calls and writes of the transaction, its status, the header map of its writer, and its
session, which `Session()` loads from the request on first use and which the first
`WriteHeader` saves with `SaveHTTP` before it calls the writer.  Each action returns the next
state or a panic; a run stops at the first panic.

With a writer whose header map is set, as net/http's is, and a session store that has a storage,
no action panics, and over every run the writer receives at most one `WriteHeader`, before every
`Write` and `Flush`.  From the transaction that `NewTransaction` returns from the pool, which
`gcTransaction` left with `headerWritten` false, every run of a handler keeps to this
(`newTransaction_run_protocol`).  A server made by `NewServer` has no storage until
`Sessions.SetStorage` is called; `Session()` returns a session all the same, and the first write
after a handler set a value in it panics in `Save` (`run_set_write_of_no_storage`).  Once the
header is written, only `SaveSession` and `ClearSession` reach the storage, so changes made to the
session after the first write are not saved (`run_storage_of_headerWritten`).  `ClearSession` of a
session with values deletes its data and sets a cookie that tells the client to drop it
(`clearSession_deletes`). -/

namespace GoHttpd

/-- `Header.Set(key, value)`, for a key that `CanonicalMIMEHeaderKey` leaves as it is: the key's
lines become the one value; it panics on the nil map. -/
def Header.set (h : Header) (key value : List Char) : Except Panic Header :=
  match h with
  | none => .error .nilMapAssignment
  | some m => .ok (some (Function.update m key [value]))

/-- A call of a transaction on its `http.ResponseWriter`. -/
inductive Call where
  /-- `WriteHeader(code)`, with the header map as it stands at the call: net/http sends this
  header, and later changes to the map do not reach the client -/
  | writeHeader (code : Int) (header : Header)
  /-- `Write(data)` -/
  | write (data : List UInt8)
  /-- `Flush()` of `http.Flusher` -/
  | flush

/-- The `http.ResponseWriter` of a transaction: its header map and the calls it received, in
order. -/
structure Response where
  header : Header
  calls : List Call

/-- The writer after one more call. -/
def Response.call (w : Response) (c : Call) : Response :=
  { w with calls := w.calls ++ [c] }

/-- The server's session store and what a request holds for it: the store's settings, the
encoding and decoding of session values, `uuid.StringMaxLen`, and the value of the request's
cookie of the store's name, `none` when it has none. -/
structure SessionEnv (V : Type) where
  store : Store
  enc : Session.Values V → Except Nat (List UInt8)
  dec : List UInt8 → Except Nat (Session.Values V)
  maxLen : Nat
  cookie : Option (List Char)

/-- The fields of a `Transaction` that responding reads and writes, for a transaction whose
writer `NewTransaction` has set, with the storage of the server's session store: `none` until
`Sessions.SetStorage` is called, as `NewServer` leaves it. -/
structure Exchange (V : Type) where
  writer : Response
  status : Int
  headerWritten : Bool
  session : Option (Session V)
  storage : Option Session.Storage

namespace Exchange

variable {V : Type} (E : SessionEnv V)

/-- `t.Session()`: the transaction's session, which `Store.LoadHTTP` loads from the request at the
first call; the error it returns is ignored. -/
def loadSession (x : Exchange V) : Session V × Exchange V :=
  match x.session with
  | some s => (s, x)
  | none =>
    let s := (Session.storeLoadHTTP E.dec E.maxLen x.storage E.cookie).1
    (s, { x with session := some s })

/-- `s.SaveHTTP(t)`: `Save` of `s` into the storage and its cookie into the writer's header; the
transaction holds `s` afterwards, and the error is logged and dropped. -/
def saveHTTP (env : Session.SaveEnv) (s : Session V) (x : Exchange V) : Except Panic (Exchange V) :=
  do
    let (s, st, header, _) ← Session.saveHTTP E.enc env E.store s x.storage x.writer.header
    pure { x with session := some s, storage := st, writer := { x.writer with header } }

/-- `Transaction.WriteHeader(code)`: the first call marks the header written, saves the session
with `SaveHTTP` when the transaction has one, and calls the writer's `WriteHeader`; later calls
do nothing. -/
def writeHeader (env : Session.SaveEnv) (code : Int) (x : Exchange V) : Except Panic (Exchange V) :=
  if x.headerWritten then .ok x
  else do
    let x := { x with headerWritten := true }
    let x ← match x.session with
      | some s => x.saveHTTP E env s
      | none => pure x
    pure { x with writer := x.writer.call (.writeHeader code x.writer.header) }

/-- `WriteHeader(t.Status)`, then the call `c` on the writer: `Transaction.Write` and
`Transaction.Flush`. -/
def send (env : Session.SaveEnv) (c : Call) (x : Exchange V) : Except Panic (Exchange V) := do
  let x ← x.writeHeader E env x.status
  pure { x with writer := x.writer.call c }

/-- `Transaction.Write(data)`. -/
def write (env : Session.SaveEnv) (data : List UInt8) (x : Exchange V) : Except Panic (Exchange V) :=
  x.send E env (.write data)

/-- `Transaction.Flush()`, with a writer that is an `http.Flusher`, as net/http's is. -/
def flush (env : Session.SaveEnv) (x : Exchange V) : Except Panic (Exchange V) :=
  x.send E env .flush

/-- A change of the writer's header map by `f`. -/
def withHeader (f : Header → Except Panic Header) (x : Exchange V) : Except Panic (Exchange V) := do
  let header ← f x.writer.header
  pure { x with writer := { x.writer with header } }

/-- `t.Header().Set(key, value)`. -/
def setHeader (key value : List Char) (x : Exchange V) : Except Panic (Exchange V) :=
  x.withHeader (·.set key value)

/-- `Transaction.SetCookie(cookie)`, whose error is dropped. -/
def setCookie (cookie : List Char) (x : Exchange V) : Except Panic (Exchange V) :=
  x.withHeader fun h => Prod.fst <$> headerSetCookie h cookie

/-- A change `f` of the session that `t.Session()` returns. -/
def withSession (f : Session V → Session V) (x : Exchange V) : Exchange V :=
  { (x.loadSession E).2 with session := some (f (x.loadSession E).1) }

/-- `Transaction.SaveSession()`. -/
def saveSession (env : Session.SaveEnv) (x : Exchange V) : Except Panic (Exchange V) :=
  match x.session with
  | some s => x.saveHTTP E env s
  | none => .ok x

/-- `Transaction.ClearSession()`: the session that `t.Session()` returns, which is never nil,
cleared and saved with `SaveHTTP`. -/
def clearSession (env : Session.SaveEnv) (x : Exchange V) : Except Panic (Exchange V) :=
  (x.loadSession E).2.saveHTTP E env (x.loadSession E).1.clear

end Exchange

/-- An action of a handler on its transaction; `env` is what the environment answers to the
`Save` that the action may make. -/
inductive Act (V : Type) where
  | writeHeader (code : Int) (env : Session.SaveEnv)
  | write (data : List UInt8) (env : Session.SaveEnv)
  | flush (env : Session.SaveEnv)
  /-- `t.Status = code` -/
  | setStatus (code : Int)
  | setHeader (key value : List Char)
  | setCookie (cookie : List Char)
  /-- `t.Session().Set(key, value)` -/
  | sessionSet (key : List Char) (value : Option V)
  /-- `t.Session().Del(key)` -/
  | sessionDel (key : List Char)
  | saveSession (env : Session.SaveEnv)
  | clearSession (env : Session.SaveEnv)

/-- Whether an action saves the session whatever the header's state. -/
def Act.saves {V : Type} : Act V → Bool
  | .saveSession _ | .clearSession _ => true
  | _ => false

namespace Exchange

variable {V : Type} (E : SessionEnv V)

/-- One action. -/
def step (x : Exchange V) : Act V → Except Panic (Exchange V)
  | .writeHeader code env => x.writeHeader E env code
  | .write data env => x.write E env data
  | .flush env => x.flush E env
  | .setStatus code => .ok { x with status := code }
  | .setHeader key value => x.setHeader key value
  | .setCookie cookie => x.setCookie cookie
  | .sessionSet key value => .ok (x.withSession E (·.set key value))
  | .sessionDel key => .ok (x.withSession E (·.del key))
  | .saveSession env => x.saveSession E env
  | .clearSession env => x.clearSession E env

/-- A run of actions, up to the first panic. -/
def run : Exchange V → List (Act V) → Except Panic (Exchange V)
  | x, [] => .ok x
  | x, a :: acts => x.step E a >>= fun y => run y acts

/-! ### One action -/

/-- `y` differs from `x` in neither the calls on the writer nor `headerWritten` nor whether it has
a storage, and its header map is set. -/
structure Quiet (x y : Exchange V) : Prop where
  header : y.writer.header.isSome
  calls : y.writer.calls = x.writer.calls
  headerWritten : y.headerWritten = x.headerWritten
  storage : y.storage.isSome = x.storage.isSome

variable {E} {x : Exchange V}

theorem writeHeader_written (env : Session.SaveEnv) (code : Int) (hw : x.headerWritten = true) :
    x.writeHeader E env code = .ok x := by
  simp [writeHeader, hw]

theorem send_written (env : Session.SaveEnv) (c : Call) (hw : x.headerWritten = true) :
    x.send E env c = .ok { x with writer := x.writer.call c } := by
  rw [send, writeHeader_written env x.status hw]
  rfl

theorem withHeader_ok {f : Header → Except Panic Header}
    (hf : ∀ m, ∃ m', f (some m) = .ok (some m')) (hm : x.writer.header.isSome) :
    ∃ y, x.withHeader f = .ok y ∧ Quiet x y ∧ y.storage = x.storage := by
  obtain ⟨m, hm⟩ := Option.isSome_iff_exists.mp hm
  obtain ⟨m', h⟩ := hf m
  rw [withHeader, hm, h]
  exact ⟨_, rfl, ⟨rfl, rfl, rfl, rfl⟩, rfl⟩

theorem setHeader_ok (key value : List Char) (hm : x.writer.header.isSome) :
    ∃ y, x.setHeader key value = .ok y ∧ Quiet x y ∧ y.storage = x.storage :=
  withHeader_ok (fun _ => ⟨_, rfl⟩) hm

theorem setCookie_ok (cookie : List Char) (hm : x.writer.header.isSome) :
    ∃ y, x.setCookie cookie = .ok y ∧ Quiet x y ∧ y.storage = x.storage :=
  withHeader_ok (fun m => by
    rw [headerSetCookie_some]
    split_ifs
    · exact ⟨m, rfl⟩
    · exact ⟨_, rfl⟩) hm

theorem loadSession_snd (x : Exchange V) :
    (x.loadSession E).2 = { x with session := some (x.loadSession E).1 } := by
  obtain ⟨w, status, hw, _ | s, st⟩ := x <;> rfl

theorem withSession_quiet (f : Session V → Session V) (hm : x.writer.header.isSome) :
    Quiet x (x.withSession E f) ∧ (x.withSession E f).storage = x.storage := by
  rw [withSession, loadSession_snd]
  exact ⟨⟨hm, rfl, rfl, rfl⟩, rfl⟩

/-- A store with the defaults of `SetStorage`, values that encode to `[1]`, and a request without
a session cookie. -/
def helloEnv : SessionEnv Nat :=
  ⟨Session.defaultStore, fun _ => .ok [1], fun _ => .ok [], 36, none⟩

/-- A writer of net/http before the handler runs: an empty header map and no calls. -/
def freshWriter : Response := ⟨some fun _ => [], []⟩

/-- On a server whose session store has no storage, as `NewServer` leaves it until
`Sessions.SetStorage` is called, `Session()` still returns a session, and a handler that sets a
value in it and then writes panics: the first `Write` saves the session through `SaveHTTP`, whose
`Save` calls `SetSessionData` on the nil storage, whenever the values encode. -/
theorem run_set_write_of_no_storage (hst : x.storage = none) (hw : x.headerWritten = false)
    (key : List Char) (value : V) (data : List UInt8) (env : Session.SaveEnv)
    (henc : ∃ d, E.enc (((x.loadSession E).1.set key (some value)).values.getD []) = .ok d) :
    x.run E [.sessionSet key (some value), .write data env] = .error .nilDereference := by
  obtain ⟨d, hd⟩ := henc
  have hsave : Session.saveHTTP E.enc env E.store ((x.loadSession E).1.set key (some value)) none
      x.writer.header = .error .nilDereference :=
    Session.saveHTTP_none_panics (Session.set_some_dirty _ key value)
      (Session.size_set_some_ne_zero _ key value) hd x.writer.header
  simp only [run, step, Except.ok_bind, write, send, writeHeader, withSession, loadSession_snd, hw,
    Bool.false_eq_true, if_false]
  simp [saveHTTP, hst, hsave]

/-- A server from `NewServer`, whose store has no storage: a handler that sets `k` and writes
`hi`. -/
theorem run_set_write_of_no_storage_hello :
    (⟨freshWriter, 200, false, none, none⟩ : Exchange Nat).storage = none ∧
      (⟨freshWriter, 200, false, none, none⟩ : Exchange Nat).headerWritten = false ∧
      (∃ d, helloEnv.enc ((((⟨freshWriter, 200, false, none, none⟩ : Exchange Nat).loadSession
        helloEnv).1.set "k".toList (some 1)).values.getD []) = .ok d) ∧
      (⟨freshWriter, 200, false, none, none⟩ : Exchange Nat).run helloEnv
        [.sessionSet "k".toList (some 1), .write [104, 105] ⟨.ok "abcd".toList, none⟩] =
        .error .nilDereference :=
  have henc : ∃ d, helloEnv.enc ((((⟨freshWriter, 200, false, none, none⟩ : Exchange Nat).loadSession
      helloEnv).1.set "k".toList (some 1)).values.getD []) = .ok d := ⟨[1], rfl⟩
  ⟨rfl, rfl, henc, run_set_write_of_no_storage rfl rfl _ _ _ _ henc⟩

/-- A `WriteHeader(404)` after the first `Write` reaches no one: the status sent is `200`. -/
example : ((⟨freshWriter, 200, false, none, some fun _ => none⟩ : Exchange Nat).run helloEnv
      [.write [104] ⟨.ok [], none⟩, .writeHeader 404 ⟨.ok [], none⟩, .write [105] ⟨.ok [], none⟩]).map
        (fun y => y.writer.calls.map fun c => match c with
          | .writeHeader code _ => code
          | _ => 0) = .ok [200, 0, 0] := by
  decide

/-- After the header is written, every action but `SaveSession` and `ClearSession` leaves the
storage as it was. -/
theorem step_storage (a : Act V) (ha : a.saves = false) (hx : x.headerWritten = true)
    (hm : x.writer.header.isSome) :
    ∃ y, x.step E a = .ok y ∧ y.writer.header.isSome ∧ y.headerWritten = true ∧
      y.storage = x.storage := by
  cases a with
  | writeHeader code env => exact ⟨x, writeHeader_written env code hx, hm, hx, rfl⟩
  | write data env => exact ⟨_, send_written env _ hx, hm, hx, rfl⟩
  | flush env => exact ⟨_, send_written env _ hx, hm, hx, rfl⟩
  | setStatus code => exact ⟨_, rfl, hm, hx, rfl⟩
  | setHeader key value =>
    obtain ⟨y, hy, hq, hst⟩ := setHeader_ok key value hm
    exact ⟨y, hy, hq.header, hq.headerWritten.trans hx, hst⟩
  | setCookie cookie =>
    obtain ⟨y, hy, hq, hst⟩ := setCookie_ok cookie hm
    exact ⟨y, hy, hq.header, hq.headerWritten.trans hx, hst⟩
  | sessionSet key value =>
    obtain ⟨hq, hst⟩ := withSession_quiet (E := E) (·.set key value) hm
    exact ⟨_, rfl, hq.header, hq.headerWritten.trans hx, hst⟩
  | sessionDel key =>
    obtain ⟨hq, hst⟩ := withSession_quiet (E := E) (·.del key) hm
    exact ⟨_, rfl, hq.header, hq.headerWritten.trans hx, hst⟩
  | saveSession env => cases ha
  | clearSession env => cases ha

/-- Once the header is written, a run without `SaveSession` and `ClearSession` never panics and
leaves the storage as it was: what a handler changes in the session after its first write is not
saved.  The storage is the map of data that the session code reads and writes through the
`Storage` interface, and `GetSessionData` reads it without changing it.  `MemoryStorage` also
deletes an expired entry when `GetSessionData` reads it (an entry stored with a TTL at or below
zero is expired at the next read), so with that storage a `Session()` loaded after the header
went out may drop such an entry; the session code itself stores, refreshes and deletes nothing. -/
theorem run_storage_of_headerWritten (acts : List (Act V)) (hacts : ∀ a ∈ acts, a.saves = false) :
    ∀ x : Exchange V, x.headerWritten = true → x.writer.header.isSome →
      ∃ y, x.run E acts = .ok y ∧ y.storage = x.storage := by
  induction acts with
  | nil => exact fun x _ _ => ⟨x, rfl, rfl⟩
  | cons a acts ih =>
    intro x hx hm
    obtain ⟨y, hy, hym, hyw, hyst⟩ := step_storage (E := E) a (hacts a (List.mem_cons_self _ _)) hx hm
    obtain ⟨z, hz, hzst⟩ := ih (fun b hb => hacts b (List.mem_cons_of_mem _ hb)) y hyw hym
    exact ⟨z, by rw [run, hy]; exact hz, hzst.trans hyst⟩

/-- A session set again after the header went out, then written and flushed. -/
theorem run_storage_of_headerWritten_counter :
    (∀ a ∈ ([.sessionSet "k".toList (some 2), .write [104] ⟨.ok "abcd".toList, none⟩,
        .flush ⟨.ok "abcd".toList, none⟩] : List (Act Nat)), a.saves = false) ∧
      (⟨⟨some fun _ => [], []⟩, 200, true, some Session.counterSession, some fun _ => none⟩ :
        Exchange Nat).headerWritten = true ∧
      (⟨⟨some fun _ => [], []⟩, 200, true, some Session.counterSession, some fun _ => none⟩ :
        Exchange Nat).writer.header.isSome ∧
      ∃ y, (⟨⟨some fun _ => [], []⟩, 200, true, some Session.counterSession, some fun _ => none⟩ :
          Exchange Nat).run helloEnv [.sessionSet "k".toList (some 2),
            .write [104] ⟨.ok "abcd".toList, none⟩, .flush ⟨.ok "abcd".toList, none⟩] = .ok y ∧
        y.storage = some fun _ => none :=
  have hacts : ∀ a ∈ ([.sessionSet "k".toList (some 2), .write [104] ⟨.ok "abcd".toList, none⟩,
      .flush ⟨.ok "abcd".toList, none⟩] : List (Act Nat)), a.saves = false := by decide
  ⟨hacts, rfl, rfl, run_storage_of_headerWritten _ hacts _ rfl rfl⟩

/-- The cookie of a session with no ID and no values: empty, with `Max-Age=-1`, which tells the
client to delete it. -/
theorem bakeSessionIDCookie_cleared (ss : Store) :
    Session.bakeSessionIDCookie ss (⟨[], none, false⟩ : Session V) =
      ss.cookieName ++ "=;Path=/;Max-Age=-1;HttpOnly;SameSite=Strict".toList ++
        if ss.allowInsecureCookies then [] else ";Secure".toList := by
  unfold Session.bakeSessionIDCookie
  cases ss.allowInsecureCookies <;> simp [Session.size] <;> rfl

/-- `ClearSession` of a session with values, on a store with a storage whose call succeeds: the
data under the session's ID is deleted, the transaction holds a clean session with no ID and no
values, and the one `Set-Cookie` line of the store's cookie name tells the client to delete the
cookie; no other key of the header changes. -/
theorem clearSession_deletes (hname : CookieNameOk E.store.cookieName) {m : HeaderLines}
    (hm : x.writer.header = some m) (hinv : CookieLinesOk (m setCookieKey)) {st : Session.Storage}
    (hst : x.storage = some st) {env : Session.SaveEnv} (herr : env.storageErr = none)
    (hsize : 0 < (x.loadSession E).1.size) :
    ∃ m', x.clearSession E env = .ok { x with
        session := some ⟨[], none, false⟩
        storage := some (Function.update st (x.loadSession E).1.id none)
        writer := { x.writer with header := some m' } } ∧
      (m' setCookieKey).filter (parseCookieName · == E.store.cookieName) =
        [E.store.cookieName ++ "=;Path=/;Max-Age=-1;HttpOnly;SameSite=Strict".toList ++
          if E.store.allowInsecureCookies then [] else ";Secure".toList] ∧
      ∀ k ≠ setCookieKey, m' k = m k := by
  have hclear : (x.loadSession E).1.clear = { (x.loadSession E).1 with values := none, dirty := true } := by
    unfold Session.clear
    rw [if_pos (Nat.pos_iff_ne_zero.mp hsize)]
  have hsave : Session.save E.enc env (x.loadSession E).1.clear st =
      (⟨[], none, false⟩, Function.update st (x.loadSession E).1.id none, none) := by
    rw [hclear]
    simp [Session.save, Session.size, herr]
  have hset : ((x.loadSession E).1.clear.dirty || 0 < (x.loadSession E).1.clear.id.length) = true := by
    rw [hclear]; rfl
  unfold clearSession
  rw [saveHTTP, loadSession_snd]
  simp only [hm, hst, Session.saveHTTP_of_save hname hsave hset m]
  refine ⟨_, rfl, ?_, fun k hk => Function.update_noteq hk _ _⟩
  rw [Function.update_same, filter_putCookie (Session.parseCookieName_bake hname _) hinv,
    bakeSessionIDCookie_cleared]

/-- `ClearSession` of `counterSession` before the header is written. -/
theorem clearSession_deletes_counter :
    CookieNameOk helloEnv.store.cookieName ∧
      (⟨freshWriter, 200, false, some Session.counterSession, some fun _ => none⟩ :
        Exchange Nat).writer.header = some (fun _ => []) ∧
      CookieLinesOk (((fun _ => []) : HeaderLines) setCookieKey) ∧
      (⟨freshWriter, 200, false, some Session.counterSession, some fun _ => none⟩ :
        Exchange Nat).storage = some (fun _ => none) ∧
      (⟨.ok "abcd".toList, none⟩ : Session.SaveEnv).storageErr = none ∧
      0 < ((⟨freshWriter, 200, false, some Session.counterSession, some fun _ => none⟩ :
        Exchange Nat).loadSession helloEnv).1.size ∧
      ∃ m', (⟨freshWriter, 200, false, some Session.counterSession, some fun _ => none⟩ :
          Exchange Nat).clearSession helloEnv ⟨.ok "abcd".toList, none⟩ =
          .ok ⟨⟨some m', []⟩, 200, false, some ⟨[], none, false⟩,
            some (Function.update (fun _ => none) [] none)⟩ ∧
        (m' setCookieKey).filter (parseCookieName · == "session".toList) =
          ["session=;Path=/;Max-Age=-1;HttpOnly;SameSite=Strict;Secure".toList] ∧
        ∀ k ≠ setCookieKey, m' k = [] :=
  have hname : CookieNameOk helloEnv.store.cookieName := by decide
  have hinv : CookieLinesOk (((fun _ => []) : HeaderLines) setCookieKey) := ⟨nofun, List.nodup_nil⟩
  have hsize : 0 < ((⟨freshWriter, 200, false, some Session.counterSession, some fun _ => none⟩ :
      Exchange Nat).loadSession helloEnv).1.size := by decide
  ⟨hname, rfl, hinv, rfl, rfl, hsize, clearSession_deletes hname rfl hinv rfl rfl hsize⟩

end Exchange

end GoHttpd
