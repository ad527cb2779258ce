import GoHttpd.Session.Session
import GoHttpd.Util

/-! `Session.SaveHTTP`: `Save`, and then, for a session that was dirty or had an ID, the session
cookie in the response header through `HeaderSetCookie`.  `bakeSessionIDCookie` writes the cookie
as `CookieName=ID;Path=/;Max-Age=…;HttpOnly;SameSite=Strict`, with `;Secure` unless the store
allows insecure cookies, and `Store.SetStorage` gives the store the cookie name `session` when it
has none.  A cookie name without `=`, `;` and space at its ends is the name `parseCookieName`
reads off the cookie (`parseCookieName_bake`), so `SaveHTTP` leaves exactly one line of that name,
the fresh cookie, among lines of distinct names (`saveHTTP_sets_cookie`). -/

namespace GoHttpd

/-! ### Cookie names -/

/-- A cookie name that `parseCookieName` reads back as it is: not empty, without `=` and `;`, and
without ASCII space at either end. -/
def CookieNameOk (name : List Char) : Prop :=
  name ≠ [] ∧ '=' ∉ name ∧ ';' ∉ name ∧ trimString name = name

instance (name : List Char) : Decidable (CookieNameOk name) :=
  inferInstanceAs (Decidable (_ ∧ _))

/-- A cookie `name=rest` with a `;` in `rest` is named `name`. -/
theorem parseCookieName_of_name {name rest : List Char} (hname : CookieNameOk name)
    (hrest : ';' ∈ rest) : parseCookieName (name ++ '=' :: rest) = name := by
  obtain ⟨-, heq, hsemi, htrim⟩ := hname
  have he : indexByte (name ++ '=' :: rest) '=' = some name.length :=
    indexByte_append_of_head heq rfl
  obtain ⟨i, hi⟩ : ∃ i, indexByte (name ++ '=' :: rest) ';' = some i := by
    have hmem : ';' ∈ name ++ '=' :: rest := List.mem_append_right _ (List.mem_cons_of_mem _ hrest)
    cases h : indexByte (name ++ '=' :: rest) ';' with
    | none => exact absurd hmem (indexByte_eq_none h)
    | some i => exact ⟨i, rfl⟩
  have hlt : name.length < i := by
    obtain ⟨hc, -⟩ := indexByte_eq_some hi
    by_contra hle
    rcases Nat.lt_or_eq_of_le (Nat.le_of_not_lt hle) with hlt | rfl
    · rw [List.getElem?_append_left hlt] at hc
      exact hsemi (List.mem_iff_getElem?.mpr ⟨i, hc⟩)
    · rw [List.getElem?_append_right le_rfl, Nat.sub_self] at hc
      simp at hc
  simp only [parseCookieName, hi, he]
  rw [if_neg (Nat.not_lt.mpr hlt.le), List.take_left' rfl, htrim]

/-- After a cookie is set, it is the one line of its name. -/
theorem filter_putCookie {name cookie : List Char} (hc : parseCookieName cookie = name) :
    ∀ {lines : List (List Char)}, CookieLinesOk lines →
      (putCookie name cookie lines).filter (parseCookieName · == name) = [cookie]
  | [], _ => by simp [putCookie, hc]
  | l :: ls, h => by
    have hnodup := List.nodup_cons.mp (List.map_cons _ _ _ ▸ h.nodup)
    by_cases hl : parseCookieName l = name
    · have hnone : ls.filter (parseCookieName · == name) = [] :=
        List.filter_eq_nil_iff.mpr fun x hx hx' =>
          hnodup.1 (hl ▸ (beq_iff_eq.mp hx') ▸ List.mem_map_of_mem _ hx)
      simp [putCookie, hl, hc, hnone]
    · have hls : CookieLinesOk ls :=
        ⟨fun x hx => h.named x (List.mem_cons_of_mem _ hx), hnodup.2⟩
      simp [putCookie, hl, filter_putCookie hc hls]

/-! ### The session cookie -/

/-- The fields of `session.Store` that a session reads: `TTL` in nanoseconds, `CookieName` and
`AllowInsecureCookies`.  The storage is passed to `Save` and `Load` on its own. -/
structure Store where
  ttl : Int
  cookieName : List Char
  allowInsecureCookies : Bool
  deriving DecidableEq, Repr

/-- `time.Second`, in nanoseconds. -/
def second : Int := 1000000000

/-- `time.Hour`, in nanoseconds. -/
def hour : Int := 3600 * second

/-- `Store.SetStorage`: a zero `TTL` becomes 30 days and an empty `CookieName` `session`. -/
def Store.setStorage (ss : Store) : Store :=
  { ss with
    ttl := if ss.ttl = 0 then 30 * 24 * hour else ss.ttl
    cookieName := if ss.cookieName = [] then "session".toList else ss.cookieName }

namespace Session

variable {V : Type}

/-- `bakeSessionIDCookie`: the cookie `CookieName=ID` with its attributes; `Max-Age` is the TTL
in whole seconds for a session with values and `-1`, which deletes the cookie, for one
without. -/
def bakeSessionIDCookie (ss : Store) (s : Session V) : List Char :=
  let maxAgeSec : Int := if 0 < s.size then ss.ttl.tdiv second else -1
  let cookie := ss.cookieName ++ '=' :: s.id ++ ";Path=/;Max-Age=".toList ++
    (toString maxAgeSec).toList ++ ";HttpOnly;SameSite=Strict".toList
  if !ss.allowInsecureCookies then cookie ++ ";Secure".toList else cookie

/-- The errors `SaveHTTP` returns: those of `Save` and of `HeaderSetCookie`. -/
inductive SaveHTTPError where
  | save (e : SaveError)
  | cookie (e : CookieError)
  deriving DecidableEq, Repr

/-- `Session.SaveHTTP` on the header of the response: `Save` into the storage of the session's
store, `none` when it has none, and then, when the session was dirty or had an ID before, the
session cookie. -/
def saveHTTP (enc : Values V → Except Nat (List UInt8)) (env : SaveEnv) (ss : Store)
    (s : Session V) (st : Option Storage) (header : Header) :
    Except Panic (Session V × Option Storage × Header × Option SaveHTTPError) := do
  let shouldSetCookie := s.dirty || 0 < s.id.length
  match ← s.saveIn enc env st with
  | (s, st, some e) => .ok (s, st, header, some (.save e))
  | (s, st, none) =>
    if !shouldSetCookie then .ok (s, st, header, none)
    else do
      let (header, err) ← headerSetCookie header (bakeSessionIDCookie ss s)
      .ok (s, st, header, err.map .cookie)

theorem parseCookieName_bake {ss : Store} (hname : CookieNameOk ss.cookieName) (s : Session V) :
    parseCookieName (bakeSessionIDCookie ss s) = ss.cookieName := by
  unfold bakeSessionIDCookie
  split_ifs <;> simp only [List.append_assoc, List.cons_append] <;>
    exact parseCookieName_of_name hname (by simp)

/-- `SaveHTTP` after a `Save` that succeeded, for a session that was dirty or had an ID: the
session cookie is put among the `Set-Cookie` lines. -/
theorem saveHTTP_of_save {enc : Values V → Except Nat (List UInt8)} {env : SaveEnv} {ss : Store}
    (hname : CookieNameOk ss.cookieName) {s s' : Session V} {st st' : Storage}
    (hsave : save enc env s st = (s', st', none)) (hset : (s.dirty || 0 < s.id.length) = true)
    (m : HeaderLines) :
    saveHTTP enc env ss s (some st) (some m) = .ok (s', some st', some (Function.update m
      setCookieKey (putCookie ss.cookieName (bakeSessionIDCookie ss s') (m setCookieKey))), none) := by
  simp only [saveHTTP, saveIn, hsave, Except.ok_bind, hset, Bool.not_true, Bool.false_eq_true, if_false,
    headerSetCookie_some, parseCookieName_bake hname, if_neg hname.1, Except.ok_bind,
    Option.map_none']

/-- With no storage, `SaveHTTP` of a dirty session whose values encode panics: `Save` calls
`SetSessionData` on the nil storage. -/
theorem saveHTTP_none_panics {enc : Values V → Except Nat (List UInt8)} {env : SaveEnv}
    {ss : Store} {s : Session V} {data : List UInt8} (hd : s.dirty = true) (hz : s.size ≠ 0)
    (henc : enc (s.values.getD []) = .ok data) (header : Header) :
    saveHTTP enc env ss s none header = .error .nilDereference := by
  simp [saveHTTP, saveIn, hd, hz, henc]

/-- `SaveHTTP` on a response header whose `Set-Cookie` lines have distinct names, with a store
that has a storage and whose cookie name reads back as it is, as `session` does: it saves the
session as `Save` does and never panics.  When `Save` fails, the header is as it was and the
error is `Save`'s.  Otherwise, for a session that was dirty or had an ID, the session cookie
with the ID after `Save` becomes the one line of the cookie's name, in place of the line of that
name or after the last line; for a session that was neither, the header is as it was.  The lines
keep distinct names and no other key of the header changes. -/
theorem saveHTTP_sets_cookie (enc : Values V → Except Nat (List UInt8)) (env : SaveEnv)
    {ss : Store} (hname : CookieNameOk ss.cookieName) (s : Session V) (st : Storage)
    {m : HeaderLines} (hinv : CookieLinesOk (m setCookieKey)) :
    ∃ m' err, saveHTTP enc env ss s (some st) (some m) =
        .ok ((save enc env s st).1, some (save enc env s st).2.1, some m', err) ∧
      CookieLinesOk (m' setCookieKey) ∧ (∀ k ≠ setCookieKey, m' k = m k) ∧
      match (save enc env s st).2.2 with
      | some e => err = some (.save e) ∧ m' = m
      | none => err = none ∧
          if s.dirty || 0 < s.id.length then
            (m' setCookieKey).filter (parseCookieName · == ss.cookieName) =
              [bakeSessionIDCookie ss (save enc env s st).1]
          else m' = m := by
  rcases hsave : save enc env s st with ⟨s', st', _ | e⟩
  · by_cases hset : (s.dirty || 0 < s.id.length) = true
    · rw [saveHTTP_of_save hname hsave hset]
      refine ⟨_, _, rfl, ?_, fun k hk => Function.update_noteq hk _ _, rfl, ?_⟩
      · rw [Function.update_same, ← parseCookieName_bake hname s']
        exact hinv.putCookie (by rw [parseCookieName_bake hname]; exact hname.1)
      · rw [if_pos hset, Function.update_same]
        exact filter_putCookie (parseCookieName_bake hname s') hinv
    · simp only [Bool.not_eq_true] at hset
      simp only [saveHTTP, saveIn, hsave, Except.ok_bind, hset, Bool.not_false, if_true, if_false]
      exact ⟨m, _, rfl, hinv, fun _ _ => rfl, rfl, rfl⟩
  · simp only [saveHTTP, saveIn, hsave, Except.ok_bind]
    exact ⟨m, _, rfl, hinv, fun _ _ => rfl, rfl, rfl⟩

/-- A store with the defaults of `SetStorage`. -/
def defaultStore : Store :=
  Store.setStorage ⟨0, [], false⟩

/-- A new session with the value `1` under `k`. -/
def counterSession : Session Nat :=
  (new : Session Nat).set "k".toList (some 1)

example : bakeSessionIDCookie defaultStore { counterSession with id := "abcd".toList } =
    "session=abcd;Path=/;Max-Age=2592000;HttpOnly;SameSite=Strict;Secure".toList := by
  decide

theorem saveHTTP_sets_cookie_counter :
    CookieNameOk defaultStore.cookieName ∧ CookieLinesOk ((fun _ => []) setCookieKey) ∧
      ∃ m' err, saveHTTP (fun _ => .ok [1]) ⟨.ok "abcd".toList, none⟩ defaultStore counterSession
          (some fun _ => none) (some fun _ => []) =
          .ok ((save (fun _ => .ok [1]) ⟨.ok "abcd".toList, none⟩ counterSession
              (fun _ => none)).1,
            some (save (fun _ => .ok [1]) ⟨.ok "abcd".toList, none⟩ counterSession
              (fun _ => none)).2.1, some m', err) ∧
        CookieLinesOk (m' setCookieKey) ∧ (∀ k ≠ setCookieKey, m' k = []) ∧
        match (save (fun _ => .ok [1]) ⟨.ok "abcd".toList, none⟩ counterSession
            (fun _ => none)).2.2 with
        | some e => err = some (.save e) ∧ m' = fun _ => []
        | none => err = none ∧
            if counterSession.dirty || 0 < counterSession.id.length then
              (m' setCookieKey).filter (parseCookieName · == defaultStore.cookieName) =
                [bakeSessionIDCookie defaultStore (save (fun _ => .ok [1])
                  ⟨.ok "abcd".toList, none⟩ counterSession (fun _ => none)).1]
            else m' = fun _ => [] :=
  have hname : CookieNameOk defaultStore.cookieName := by decide
  have hinv : CookieLinesOk (((fun _ => []) : HeaderLines) setCookieKey) := ⟨nofun, List.nodup_nil⟩
  ⟨hname, hinv, saveHTTP_sets_cookie _ _ hname counterSession _ hinv⟩

/-! ### The session of a request -/

/-- `isValidSessionID`: from 4 to `uuid.StringMaxLen` characters, each a digit, a letter, `-` or
`_`.  `uuid.StringMaxLen` is a constant of package `uuid`, outside `src/`: it is the parameter
`maxLen`.  Go counts bytes where this counts characters, which gives the same answer, as every
character the loop accepts is one byte. -/
def isValidSessionID (maxLen : Nat) (id : List Char) : Bool :=
  if id.length < 4 || id.length > maxLen then false
  else id.all fun b => decide (('0' ≤ b ∧ b ≤ '9') ∨ ('A' ≤ b ∧ b ≤ 'Z') ∨ ('a' ≤ b ∧ b ≤ 'z') ∨
    b = '-' ∨ b = '_')

/-- The errors `LoadHTTP` returns. -/
inductive LoadHTTPError where
  /-- `http.ErrNoCookie` of `r.Cookie` -/
  | noCookie
  /-- `invalid session id in session cookie` -/
  | invalidSessionId
  /-- an error of `Load` -/
  | load (e : LoadError)
  /-- `ErrNoStorage` -/
  | noStorage
  deriving DecidableEq, Repr

/-- `Session.LoadHTTP`, with the value of the request's cookie of the store's name as `cookie`,
`none` when the request has no such cookie: an ID that `isValidSessionID` accepts is loaded, and
the session is left as it was otherwise. -/
def loadHTTP (dec : List UInt8 → Except Nat (Values V)) (maxLen : Nat) (st : Storage)
    (s : Session V) (cookie : Option (List Char)) : Session V × Option LoadHTTPError :=
  match cookie with
  | none => (s, some .noCookie)
  | some id =>
    if !isValidSessionID maxLen id then (s, some .invalidSessionId)
    else
      let (s, err) := s.load dec st id
      (s, err.map .load)

/-- `Store.LoadHTTP`: a new session, loaded from the request unless the store has no
storage. -/
def storeLoadHTTP (dec : List UInt8 → Except Nat (Values V)) (maxLen : Nat)
    (storage : Option Storage) (cookie : Option (List Char)) : Session V × Option LoadHTTPError :=
  match storage with
  | none => (new, some .noStorage)
  | some st => new.loadHTTP dec maxLen st cookie

end Session

end GoHttpd
