import Mathlib.Data.List.Nodup
import Mathlib.Logic.Function.Basic
import GoHttpd.Text

/-! `util.HeaderSetCookie`: set a `Set-Cookie` line of a response header, replacing the line of
the same cookie name.  The name of a cookie is the text before its first `=`, trimmed of ASCII
space, when a `;` follows it (`parseCookieName`).  `Values` hands back the map's own slice, so the
write `existingCookies[i] = cookie` changes the header, and `Add` appends to the map entry, which
panics on a nil map.  On a non-nil header a call is `putCookie` on the `Set-Cookie` lines
(`headerSetCookie_some`): the cookie replaces the first line of its name or follows the last line.
So the lines keep pairwise distinct, non-empty names over any sequence of calls
(`headerSetCookie_keeps_names`), and a second call with the same cookie changes nothing
(`headerSetCookie_twice`), while the nil header, which has no lines, makes the first call with a
named cookie panic (`headerSetCookie_nil_header`). -/

namespace GoHttpd

/-! ### The cookie name -/

/-- `isASCIISpace` of `net/textproto`. -/
def isASCIISpace (c : Char) : Bool :=
  c = ' ' || c = '\t' || c = '\n' || c = '\r'

/-- `textproto.TrimString`: the text without the ASCII space at either end. -/
def trimString (s : List Char) : List Char :=
  (s.dropWhile isASCIISpace).rdropWhile isASCIISpace

/-- `parseCookieName`: the trimmed text before the first `=`, when there is a `;` and no `;`
comes before that `=`; otherwise empty. -/
def parseCookieName (cookie : List Char) : List Char :=
  match indexByte cookie ';' with
  | none => []
  | some i =>
    match indexByte cookie '=' with
    | none => []
    | some e => if e > i then [] else trimString (cookie.take e)

example : parseCookieName " sid = 42; Path=/".toList = "sid".toList := by decide
example : parseCookieName "sid=42".toList = [] := by decide

/-! ### The header -/

/-- The lines of each key of a non-nil `http.Header`: a Go map from canonical keys to slices, in
which a key that the map does not hold reads as the nil slice. -/
abbrev HeaderLines := List Char → List (List Char)

/-- `http.Header`, with `none` for the nil map. -/
abbrev Header := Option HeaderLines

/-- The key `Set-Cookie`, which `CanonicalMIMEHeaderKey` leaves as it is. -/
def setCookieKey : List Char := "Set-Cookie".toList

namespace Header

/-- `Header.Values(key)`: the map's slice for the key, nil for the nil map. -/
def values (h : Header) (key : List Char) : List (List Char) :=
  match h with
  | none => []
  | some m => m key

/-- `Header.Add(key, value)`: `h[key] = append(h[key], value)`, which panics on the nil map. -/
def add (h : Header) (key value : List Char) : Except Panic Header :=
  match h with
  | none => .error .nilMapAssignment
  | some m => .ok (some (Function.update m key (m key ++ [value])))

/-- `s[i] = line` on a slice `s` that `Values(key)` returned, which shares its array with the
map entry. -/
def setLine (h : Header) (key : List Char) (i : Nat) (line : List Char) : Header :=
  h.map fun m => Function.update m key ((m key).set i line)

end Header

/-- The error `HeaderSetCookie` returns. -/
inductive CookieError where
  /-- `invalid cookie` -/
  | invalidCookie
  deriving DecidableEq, Repr

/-- `HeaderSetCookie(header, cookie)`: the header after the call, and the error it returns. -/
def headerSetCookie (header : Header) (cookie : List Char) :
    Except Panic (Header × Option CookieError) :=
  let name := parseCookieName cookie
  if name = [] then .ok (header, some .invalidCookie)
  else
    let existingCookies := header.values setCookieKey
    match existingCookies.findIdx? fun line => name == parseCookieName line with
    | some i => .ok (header.setLine setCookieKey i cookie, none)
    | none => do
      let header ← header.add setCookieKey cookie
      .ok (header, none)

/-- A sequence of `HeaderSetCookie` calls on one header, as `SaveHTTP` makes them when it runs
several times for one response: the header after the last call and the error of each call. -/
def runSetCookies (header : Header) : List (List Char) →
    Except Panic (Header × List (Option CookieError))
  | [] => .ok (header, [])
  | cookie :: cookies => do
    let (header, err) ← headerSetCookie header cookie
    let (header, errs) ← runSetCookies header cookies
    .ok (header, err :: errs)

/-! ### What a call does to the lines -/

/-- The `Set-Cookie` lines after a cookie named `name` is set: the cookie in place of the first
line of that name, or after the last line when no line has it. -/
def putCookie (name cookie : List Char) : List (List Char) → List (List Char)
  | [] => [cookie]
  | l :: ls => if parseCookieName l = name then cookie :: ls else l :: putCookie name cookie ls

section PutCookie

variable {name cookie : List Char}

theorem putCookie_of_findIdx? {lines : List (List Char)} {i : Nat}
    (h : lines.findIdx? (fun line => name == parseCookieName line) = some i) :
    putCookie name cookie lines = lines.set i cookie := by
  induction lines generalizing i with
  | nil => cases h
  | cons l ls ih =>
    rw [List.findIdx?_cons] at h
    by_cases hl : parseCookieName l = name
    · rw [if_pos (beq_iff_eq.mpr hl.symm)] at h
      cases h
      rw [putCookie, if_pos hl]
      rfl
    · rw [if_neg fun e => hl (beq_iff_eq.mp e).symm, List.findIdx?_succ, Option.map_eq_some'] at h
      obtain ⟨j, hj, rfl⟩ := h
      rw [putCookie, if_neg hl, ih hj]
      rfl

theorem putCookie_of_forall_ne {lines : List (List Char)}
    (h : ∀ l ∈ lines, parseCookieName l ≠ name) :
    putCookie name cookie lines = lines ++ [cookie] := by
  induction lines with
  | nil => rfl
  | cons l ls ih =>
    rw [putCookie, if_neg (h l (List.mem_cons_self _ _)),
      ih fun l' hl' => h l' (List.mem_cons_of_mem _ hl')]
    rfl

theorem mem_putCookie {lines : List (List Char)} {l : List Char}
    (h : l ∈ putCookie name cookie lines) : l ∈ lines ∨ l = cookie := by
  induction lines with
  | nil => exact .inr (List.mem_singleton.mp h)
  | cons l' ls ih =>
    rw [putCookie] at h
    split_ifs at h
    · rcases List.mem_cons.mp h with h | h
      · exact .inr h
      · exact .inl (List.mem_cons_of_mem _ h)
    · rcases List.mem_cons.mp h with h | h
      · exact .inl (h ▸ List.mem_cons_self _ _)
      · exact (ih h).imp_left (List.mem_cons_of_mem _)

/-- The names of the lines stay as they were when a line had the cookie's name, and gain that
name at the end otherwise. -/
theorem map_putCookie (hc : parseCookieName cookie = name) (lines : List (List Char)) :
    (putCookie name cookie lines).map parseCookieName =
      if name ∈ lines.map parseCookieName then lines.map parseCookieName
      else lines.map parseCookieName ++ [name] := by
  induction lines with
  | nil => simp [putCookie, hc]
  | cons l ls ih =>
    by_cases hl : parseCookieName l = name
    · simp [putCookie, hl, hc]
    · rw [putCookie, if_neg hl, List.map_cons, ih]
      simp only [List.map_cons, List.mem_cons, Ne.symm hl, false_or]
      split_ifs <;> rfl

/-- A line of another name keeps its place. -/
theorem getElem?_putCookie_of_ne {lines : List (List Char)} {j : Nat} {l : List Char}
    (hj : lines[j]? = some l) (hl : parseCookieName l ≠ name) :
    (putCookie name cookie lines)[j]? = some l := by
  induction lines generalizing j with
  | nil => cases hj
  | cons l' ls ih =>
    rw [putCookie]
    cases j with
    | zero =>
      rw [List.getElem?_cons_zero, Option.some.injEq] at hj
      subst hj
      rw [if_neg hl, List.getElem?_cons_zero]
    | succ j =>
      rw [List.getElem?_cons_succ] at hj
      split_ifs <;> rw [List.getElem?_cons_succ]
      · exact hj
      · exact ih hj

/-- The cookie replaces the first line of its name, or follows the last line when none has it. -/
theorem putCookie_cases (lines : List (List Char)) :
    (∃ i, (lines[i]?).map parseCookieName = some name ∧
        putCookie name cookie lines = lines.set i cookie) ∨
      ((∀ l ∈ lines, parseCookieName l ≠ name) ∧
        putCookie name cookie lines = lines ++ [cookie]) := by
  cases h : lines.findIdx? fun line => name == parseCookieName line with
  | some i =>
    obtain ⟨hi, hp, -⟩ := List.findIdx?_eq_some_iff_getElem.mp h
    refine .inl ⟨i, ?_, putCookie_of_findIdx? h⟩
    rw [List.getElem?_eq_getElem hi, Option.map_some', (beq_iff_eq.mp hp).symm]
  | none =>
    have hne : ∀ l ∈ lines, parseCookieName l ≠ name := fun l hl e => by
      simpa [e] using List.findIdx?_eq_none_iff.mp h l hl
    exact .inr ⟨hne, putCookie_of_forall_ne hne⟩

end PutCookie

/-- Setting the same cookie again changes nothing: its line is the first of its name. -/
theorem putCookie_putCookie (hc : parseCookieName cookie = name) (lines : List (List Char)) :
    putCookie name cookie (putCookie name cookie lines) = putCookie name cookie lines := by
  induction lines with
  | nil => simp [putCookie, hc]
  | cons l ls ih =>
    by_cases hl : parseCookieName l = name
    · simp [putCookie, hl, hc]
    · simp only [putCookie, if_neg hl, ih]

/-! ### The invariant of the `Set-Cookie` lines -/

/-- Every `Set-Cookie` line has a non-empty cookie name, and no two lines have the same. -/
structure CookieLinesOk (lines : List (List Char)) : Prop where
  named : ∀ l ∈ lines, parseCookieName l ≠ []
  nodup : (lines.map parseCookieName).Nodup

theorem CookieLinesOk.putCookie {lines : List (List Char)} {cookie : List Char}
    (h : CookieLinesOk lines) (hc : parseCookieName cookie ≠ []) :
    CookieLinesOk (putCookie (parseCookieName cookie) cookie lines) := by
  refine ⟨fun l hl => ?_, ?_⟩
  · rcases mem_putCookie hl with hl | rfl
    · exact h.named l hl
    · exact hc
  · rw [map_putCookie rfl]
    split_ifs with hin
    · exact h.nodup
    · exact h.nodup.append (List.nodup_singleton _) (List.disjoint_singleton.mpr hin)

/-! ### A call on a non-nil header -/

/-- On a non-nil header, `HeaderSetCookie` with a named cookie is `putCookie` on the
`Set-Cookie` lines, and with an unnamed one it changes nothing. -/
theorem headerSetCookie_some (m : HeaderLines) (cookie : List Char) :
    headerSetCookie (some m) cookie =
      if parseCookieName cookie = [] then .ok (some m, some .invalidCookie)
      else .ok (some (Function.update m setCookieKey
        (putCookie (parseCookieName cookie) cookie (m setCookieKey))), none) := by
  by_cases hname : parseCookieName cookie = []
  · simp only [headerSetCookie, hname, if_true]
  · simp only [headerSetCookie, hname, if_false, Header.values]
    cases h : (m setCookieKey).findIdx? (parseCookieName cookie == parseCookieName ·) with
    | some i => rw [putCookie_of_findIdx? h]; rfl
    | none =>
      rw [putCookie_of_forall_ne fun l hl e => by
        simpa [e] using List.findIdx?_eq_none_iff.mp h l hl]
      rfl

/-- One call on a non-nil header keeps the invariant, changes no other key, and never panics. -/
theorem headerSetCookie_step {m : HeaderLines} (hinv : CookieLinesOk (m setCookieKey))
    (cookie : List Char) :
    ∃ m' err, headerSetCookie (some m) cookie = .ok (some m', err) ∧
      CookieLinesOk (m' setCookieKey) ∧ ∀ k ≠ setCookieKey, m' k = m k := by
  rw [headerSetCookie_some]
  split_ifs with hname
  · exact ⟨m, _, rfl, hinv, fun _ _ => rfl⟩
  · refine ⟨_, _, rfl, ?_, fun k hk => Function.update_noteq hk _ _⟩
    rw [Function.update_same]
    exact hinv.putCookie hname

/-- Any sequence of calls on a non-nil header keeps the invariant and the other keys. -/
theorem runSetCookies_ok {m : HeaderLines} (hinv : CookieLinesOk (m setCookieKey))
    (cookies : List (List Char)) :
    ∃ m' errs, runSetCookies (some m) cookies = .ok (some m', errs) ∧
      CookieLinesOk (m' setCookieKey) ∧ ∀ k ≠ setCookieKey, m' k = m k := by
  induction cookies generalizing m with
  | nil => exact ⟨m, [], rfl, hinv, fun _ _ => rfl⟩
  | cons cookie cookies ih =>
    obtain ⟨m₁, err, h₁, hinv₁, hkeep₁⟩ := headerSetCookie_step hinv cookie
    obtain ⟨m₂, errs, h₂, hinv₂, hkeep₂⟩ := ih hinv₁
    refine ⟨m₂, err :: errs, ?_, hinv₂, fun k hk => (hkeep₂ k hk).trans (hkeep₁ k hk)⟩
    rw [runSetCookies, h₁, Except.ok_bind]
    simp only [h₂, Except.ok_bind]

/-- After any sequence of calls on a non-nil header whose `Set-Cookie` lines have distinct,
non-empty names, the lines still have, and the next call either rejects a cookie without a name
and leaves the header as it is, or sets the cookie: every line of another name stays in its
place, and the cookie replaces the line of its name or follows the last line. -/
theorem headerSetCookie_keeps_names {m : HeaderLines} (hinv : CookieLinesOk (m setCookieKey))
    (pre : List (List Char)) (cookie : List Char) :
    ∃ m' errs, runSetCookies (some m) pre = .ok (some m', errs) ∧
      CookieLinesOk (m' setCookieKey) ∧
      (parseCookieName cookie = [] →
        headerSetCookie (some m') cookie = .ok (some m', some .invalidCookie)) ∧
      (parseCookieName cookie ≠ [] → ∃ lines : List (List Char),
        headerSetCookie (some m') cookie =
          .ok (some (Function.update m' setCookieKey lines), none) ∧
        CookieLinesOk lines ∧
        (∀ (j : Nat) l, (m' setCookieKey)[j]? = some l →
          parseCookieName l ≠ parseCookieName cookie → lines[j]? = some l) ∧
        ((∃ i, ((m' setCookieKey)[i]?).map parseCookieName = some (parseCookieName cookie) ∧
            lines = (m' setCookieKey).set i cookie) ∨
          ((∀ l ∈ m' setCookieKey, parseCookieName l ≠ parseCookieName cookie) ∧
            lines = m' setCookieKey ++ [cookie]))) := by
  obtain ⟨m', errs, hrun, hinv', -⟩ := runSetCookies_ok hinv pre
  refine ⟨m', errs, hrun, hinv', fun hname => ?_, fun hname => ?_⟩
  · rw [headerSetCookie_some, if_pos hname]
  · refine ⟨_, by rw [headerSetCookie_some, if_neg hname], hinv'.putCookie hname,
      fun j l hj hl => getElem?_putCookie_of_ne hj hl, putCookie_cases _⟩

/-- A second call with the same cookie, as when `SaveHTTP` runs twice for one response, leaves the
header and returns the error as the first call did. -/
theorem headerSetCookie_twice (m : HeaderLines) (cookie : List Char) :
    (headerSetCookie (some m) cookie >>= fun r => headerSetCookie r.1 cookie) =
      headerSetCookie (some m) cookie := by
  rw [headerSetCookie_some]
  split_ifs with hname
  · rw [Except.ok_bind, headerSetCookie_some, if_pos hname]
  · rw [Except.ok_bind, headerSetCookie_some, if_neg hname, Function.update_same,
      putCookie_putCookie rfl, Function.update_idem]

/-- A header with the one line `sid=1; Path=/`, the calls with `b` and `sid=2;`, and then one
with `lang=en;`. -/
theorem headerSetCookie_keeps_names_sid :
    CookieLinesOk ["sid=1; Path=/".toList] ∧
      ∃ m' errs, runSetCookies (some fun k => if k = setCookieKey then ["sid=1; Path=/".toList]
          else []) ["b".toList, "sid=2;".toList] = .ok (some m', errs) ∧
        CookieLinesOk (m' setCookieKey) := by
  have hinv : CookieLinesOk ["sid=1; Path=/".toList] := ⟨by decide, by decide⟩
  refine ⟨hinv, ?_⟩
  obtain ⟨m', errs, hrun, hinv', -⟩ := headerSetCookie_keeps_names
    (m := fun k => if k = setCookieKey then ["sid=1; Path=/".toList] else [])
    (by simpa using hinv) ["b".toList, "sid=2;".toList] "lang=en;".toList
  exact ⟨m', errs, hrun, hinv'⟩

/-- The nil header has no `Set-Cookie` lines, so it meets the invariant, yet the first call with
a named cookie panics in `Add`. -/
theorem headerSetCookie_nil_header :
    CookieLinesOk (Header.values none setCookieKey) ∧
      headerSetCookie none "a=1;".toList = .error .nilMapAssignment :=
  ⟨⟨nofun, List.nodup_nil⟩, rfl⟩

end GoHttpd
