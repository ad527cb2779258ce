import GoHttpd.Path
import GoHttpd.Net

/-! The start of `Server.ServeHTTP`: a request whose `RequestURI` is `*` is rejected, and the path
of any other request but `CONNECT` is made canonical by `cleanPath`; a request whose path is not
canonical is redirected, with 301, to the canonical path, which `http.Redirect` cleans once more
with its trailing `/` kept.  `cleanPath p` is the rooted path of the elements of `p` that
`path.Clean` keeps, with a `/` after them when `p` ends in one (`cleanPath_eq`).  From this shape,
`cleanPath_canonical` gives what a canonical path is, that `cleanPath` is idempotent, that the
target of a redirect is served without another redirect, and that the fast path of `cleanPath`
returns what appending `/` would. -/

namespace GoHttpd

/-- `cleanPath`: the path made rooted and cleaned by `path.Clean`, with its trailing `/` put
back; when `p` is the cleaned path followed by `/`, it is returned as it is. -/
def cleanPath (p : List Char) : List Char :=
  if p = [] then ['/']
  else
    let p := if p.head? ≠ some '/' then '/' :: p else p
    let np := pathClean p
    if p.getLast? = some '/' ∧ np ≠ ['/'] then
      if p.length = np.length + 1 ∧ np.isPrefixOf p then p else np ++ ['/']
    else np

/-- The path of the `Location` that `http.Redirect(w, r, url, code)` sets when `url` has no scheme
and no host: a relative `url` is put after the directory of the request's path `oldpath`, and the
result is cleaned by `path.Clean` with its trailing `/` kept. -/
def redirectPath (oldpath url : List Char) : List Char :=
  let oldpath := if oldpath = [] then ['/'] else oldpath
  let url := if url = [] ∨ url.head? ≠ some '/' then oldpath.rdropWhile (· != '/') ++ url else url
  let trailing := url.getLast? = some '/'
  let url' := pathClean url
  if trailing ∧ url'.getLast? ≠ some '/' then url' ++ ['/'] else url'

/-- What `ServeHTTP` does with a request before it routes it. -/
inductive Canonical where
  /-- `RequestURI` is `*`: 400 Bad Request -/
  | badRequest
  /-- 301 Moved Permanently, to this path -/
  | redirect (location : List Char)
  /-- on to routing, with this path -/
  | serve (path : List Char)
  deriving DecidableEq, Repr

/-- The canonicalizing part of `ServeHTTP` for a request with `RequestURI`, `Method` and
`URL.Path`. -/
def canonicalize (requestURI method path : List Char) : Canonical :=
  if requestURI = ['*'] then .badRequest
  else if method ≠ "CONNECT".toList then
    let cleaned := cleanPath path
    if cleaned ≠ path then .redirect (redirectPath path cleaned) else .serve path
  else .serve path

example : canonicalize "/a/./b/../c//".toList "GET".toList "/a/./b/../c//".toList =
    .redirect "/a/c/".toList := by
  simp [canonicalize, cleanPath, redirectPath, pathClean, cleanLoop, atElemEnd, cleanElem,
    cleanDotDot, backtrack]

/-! ### The shape of a clean path -/

/-- The elements of `p` that `cleanPath` keeps. -/
def cleanElems (p : List Char) : List (List Char) :=
  resolve [] ((if p.head? = some '/' then p.tail else p).splitOn '/')

/-- The empty element after the kept ones when `p` ends in `/`. -/
def trailElem (p : List Char) : List (List Char) :=
  if p.getLast? = some '/' then [[]] else []

theorem cleanElems_ok (p : List Char) : ∀ e ∈ cleanElems p, ElemOk e :=
  resolve_ok (fun _ h => absurd h (List.not_mem_nil _)) fun _ he => not_mem_of_mem_splitOn he

theorem trailElem_cases (p : List Char) : trailElem p = [] ∨ trailElem p = [[]] := by
  unfold trailElem
  split_ifs
  · exact .inr rfl
  · exact .inl rfl

/-- The fast path of `cleanPath`: a path that ends in `/`, is one longer than `np` and starts with
`np` is `np` followed by `/`. -/
theorem eq_append_slash {np p : List Char} (hlast : p.getLast? = some '/')
    (hlen : p.length = np.length + 1) (hpre : np.isPrefixOf p = true) : p = np ++ ['/'] := by
  obtain ⟨t, rfl⟩ := List.isPrefixOf_iff_prefix.mp hpre
  obtain ⟨x, rfl⟩ : ∃ x, t = [x] := List.length_eq_one.mp (by simpa using hlen)
  rw [List.getLast?_concat, Option.some.injEq] at hlast
  rw [hlast]

/-- `cleanPath` is the rooted path of the kept elements, with an empty element after them when
`p` ends in `/`. -/
theorem cleanPath_eq (p : List Char) : cleanPath p = rootedPath (cleanElems p ++ trailElem p) := by
  rcases eq_or_ne p [] with rfl | hp
  · rfl
  have hroot : (if p.head? ≠ some '/' then '/' :: p else p) =
      '/' :: if p.head? = some '/' then p.tail else p := by
    by_cases h : p.head? = some '/'
    · obtain ⟨c, cs, rfl⟩ := List.exists_cons_of_ne_nil hp
      cases h
      simp
    · simp [h]
  have hlast : (if p.head? ≠ some '/' then '/' :: p else p).getLast? = p.getLast? := by
    split_ifs
    · exact List.getLast?_append_of_ne_nil ['/'] hp
    · rfl
  have hne : ∀ e ∈ cleanElems p, e ≠ [] := fun e he => (cleanElems_ok p e he).ne_nil
  rw [cleanPath, if_neg hp]
  dsimp only
  rw [hlast, hroot, pathClean_rooted, ← cleanElems]
  rw [hroot] at hlast
  generalize (if p.head? = some '/' then p.tail else p) = r at hlast ⊢
  unfold trailElem
  by_cases htrail : p.getLast? = some '/'
  · rw [if_pos htrail]
    rcases eq_or_ne (cleanElems p) [] with hS | hS
    · rw [hS, if_neg fun h => h.2 rfl]
      rfl
    · rw [if_pos ⟨htrail, mt (rootedPath_eq_root hne).mp hS⟩, rootedPath_concat hS []]
      split_ifs with hfast
      · exact eq_append_slash (hlast.trans htrail) hfast.1 hfast.2
      · rfl
  · rw [if_neg fun h => htrail h.1, if_neg htrail, List.append_nil]

/-- On its fast path `cleanPath` returns the rooted path as it is, which is the cleaned path
followed by `/`. -/
theorem cleanPath_fast {p : List Char} (hp : p ≠ [])
    (hlast : (if p.head? ≠ some '/' then '/' :: p else p).getLast? = some '/')
    (hroot : pathClean (if p.head? ≠ some '/' then '/' :: p else p) ≠ ['/'])
    (hfast : (if p.head? ≠ some '/' then '/' :: p else p).length =
        (pathClean (if p.head? ≠ some '/' then '/' :: p else p)).length + 1 ∧
      (pathClean (if p.head? ≠ some '/' then '/' :: p else p)).isPrefixOf
        (if p.head? ≠ some '/' then '/' :: p else p) = true) :
    cleanPath p = (if p.head? ≠ some '/' then '/' :: p else p) ∧
      cleanPath p = pathClean (if p.head? ≠ some '/' then '/' :: p else p) ++ ['/'] := by
  have h : cleanPath p = (if p.head? ≠ some '/' then '/' :: p else p) := by
    rw [cleanPath, if_neg hp]
    exact (if_pos ⟨hlast, hroot⟩).trans (if_pos hfast)
  exact ⟨h, h.trans (eq_append_slash hlast hfast.1 hfast.2)⟩

section CleanPath

variable (p : List Char)

theorem getLast_cleanPath :
    (cleanPath p).getLast? = some '/' ↔ cleanElems p = [] ∨ p.getLast? = some '/' := by
  rw [cleanPath_eq, getLast_rootedPath_append (cleanElems_ok p) (trailElem_cases p), trailElem]
  split_ifs with h <;> simp [h]

theorem cleanPath_eq_root : cleanPath p = ['/'] ↔ cleanElems p = [] := by
  rw [cleanPath_eq, rootedPath_append_eq_root (cleanElems_ok p) (trailElem_cases p)]

theorem head_cleanPath : (cleanPath p).head? = some '/' := by
  rw [cleanPath_eq]
  exact rootedPath_head _

theorem cleanElems_cleanPath : cleanElems (cleanPath p) = cleanElems p := by
  rw [cleanElems, if_pos (head_cleanPath p), cleanPath_eq,
    resolve_rootedPath (cleanElems_ok p) (trailElem_cases p)]

theorem pathClean_cleanPath : pathClean (cleanPath p) = rootedPath (cleanElems p) := by
  rw [cleanPath_eq, pathClean_rootedPath (cleanElems_ok p) (trailElem_cases p)]

/-- A canonical path is its own canonical path. -/
theorem cleanPath_cleanPath : cleanPath (cleanPath p) = cleanPath p := by
  rcases eq_or_ne (cleanElems p) [] with hS | hS
  · rw [(cleanPath_eq_root _).mpr (by rw [cleanElems_cleanPath, hS]), (cleanPath_eq_root p).mpr hS]
  · have htrail : trailElem (cleanPath p) = trailElem p := by
      simp only [trailElem, getLast_cleanPath, hS, false_or]
    rw [cleanPath_eq (cleanPath p), cleanElems_cleanPath, htrail, ← cleanPath_eq]

/-- `http.Redirect` leaves a canonical path as it is. -/
theorem redirectPath_cleanPath (oldpath : List Char) :
    redirectPath oldpath (cleanPath p) = cleanPath p := by
  have hhead := head_cleanPath p
  have hne : cleanPath p ≠ [] := fun h => by simp [h] at hhead
  have hurl : ¬(cleanPath p = [] ∨ (cleanPath p).head? ≠ some '/') := by simp [hne, hhead]
  simp only [redirectPath, if_neg hurl, pathClean_cleanPath]
  rcases eq_or_ne (cleanElems p) [] with hS | hS
  · rw [if_neg fun h => h.2 (by rw [hS]; rfl), hS]
    exact ((cleanPath_eq_root p).mpr hS).symm
  · have hlast : (rootedPath (cleanElems p)).getLast? ≠ some '/' :=
      mt (rootedPath_getLast (cleanElems_ok p)).mp hS
    have htrail : (cleanPath p).getLast? = some '/' ↔ p.getLast? = some '/' := by
      rw [getLast_cleanPath, or_iff_right hS]
    by_cases ht : p.getLast? = some '/'
    · rw [if_pos ⟨htrail.mpr ht, hlast⟩, cleanPath_eq, trailElem, if_pos ht, rootedPath_concat hS]
    · rw [if_neg fun h => ht (htrail.mp h.1), cleanPath_eq, trailElem, if_neg ht,
        List.append_nil]

/-- Every element of a canonical path is empty or kept by `Clean`. -/
theorem mem_cleanElems_trail : ∀ e ∈ cleanElems p ++ trailElem p, e = [] ∨ ElemOk e := by
  intro e he
  rcases List.mem_append.mp he with he | he
  · exact .inr (cleanElems_ok p e he)
  · rcases trailElem_cases p with h | h <;> rw [h] at he
    · cases he
    · exact .inl (List.mem_singleton.mp he)

theorem splitOn_cleanPath : (cleanPath p).tail.splitOn '/' =
    if cleanElems p ++ trailElem p = [] then [[]] else cleanElems p ++ trailElem p := by
  rw [cleanPath_eq, splitOn_tail_rootedPath fun e he => ?_]
  rcases mem_cleanElems_trail p e he with rfl | h
  · exact List.not_mem_nil _
  · exact h.no_slash

/-- Only the last element of a canonical path can be empty. -/
theorem dropLast_splitOn_cleanPath : ∀ s ∈ ((cleanPath p).tail.splitOn '/').dropLast, s ≠ [] := by
  intro s hs
  rw [splitOn_cleanPath] at hs
  split_ifs at hs
  · cases hs
  · rcases trailElem_cases p with ht | ht <;> rw [ht] at hs
    · exact (cleanElems_ok p s (List.dropLast_subset _ (by simpa using hs))).ne_nil
    · exact (cleanElems_ok p s (by simpa using hs)).ne_nil

theorem splitOn_cleanPath_not_dot :
    ∀ s ∈ (cleanPath p).tail.splitOn '/', s ≠ ['.'] ∧ s ≠ ['.', '.'] := by
  intro s hs
  rw [splitOn_cleanPath] at hs
  split_ifs at hs
  · rw [List.mem_singleton.mp hs]
    exact ⟨nofun, nofun⟩
  · rcases mem_cleanElems_trail p s hs with rfl | h
    · exact ⟨nofun, nofun⟩
    · exact ⟨h.ne_dot, h.ne_dotdot⟩

/-- `ServeHTTP` redirects to the canonical path, and serves a request for it without another
redirect. -/
theorem canonicalize_redirect {requestURI method location : List Char}
    (h : canonicalize requestURI method p = .redirect location) :
    location = cleanPath p ∧ canonicalize location method location = .serve location := by
  unfold canonicalize at h
  dsimp only at h
  split_ifs at h with huri hmethod
  cases h
  rw [redirectPath_cleanPath]
  refine ⟨rfl, ?_⟩
  rw [canonicalize, if_neg fun h => by simpa [h] using head_cleanPath p, if_pos hmethod,
    if_neg (not_not.mpr (cleanPath_cleanPath p))]

end CleanPath

/-- `cleanPath p` starts with `/`, has no empty element but the one after a final `/` and no `.`
or `..` element, and ends in `/` only when it is `/` or `p` does; it is its own `cleanPath`, so
the target of a redirect of `ServeHTTP` is served without another redirect; and on its fast path,
where the rooted path `q` ends in `/`, is one longer than its cleaned path and starts with it,
`cleanPath` returns `q`, which is the cleaned path followed by `/`. -/
theorem cleanPath_canonical (p : List Char) :
    (cleanPath p).head? = some '/' ∧
    (∀ s ∈ ((cleanPath p).tail.splitOn '/').dropLast, s ≠ []) ∧
    (∀ s ∈ (cleanPath p).tail.splitOn '/', s ≠ ['.'] ∧ s ≠ ['.', '.']) ∧
    ((cleanPath p).getLast? = some '/' ↔ cleanPath p = ['/'] ∨ p.getLast? = some '/') ∧
    cleanPath (cleanPath p) = cleanPath p ∧
    (∀ requestURI method location, canonicalize requestURI method p = .redirect location →
      location = cleanPath p ∧ canonicalize location method location = .serve location) ∧
    (p ≠ [] → let q := if p.head? ≠ some '/' then '/' :: p else p
      q.getLast? = some '/' → pathClean q ≠ ['/'] →
      q.length = (pathClean q).length + 1 ∧ (pathClean q).isPrefixOf q = true →
      cleanPath p = q ∧ cleanPath p = pathClean q ++ ['/']) :=
  ⟨head_cleanPath p, dropLast_splitOn_cleanPath p, splitOn_cleanPath_not_dot p,
    by rw [getLast_cleanPath, cleanPath_eq_root], cleanPath_cleanPath p,
    fun _ _ _ => canonicalize_redirect p, cleanPath_fast⟩

/-! ### The host of a request -/

/-- `stripHostPort`: `h` without a trailing `:<port>`; a host without `:` is returned as it is,
and so is one that `net.SplitHostPort` rejects. -/
def stripHostPort (h : List Char) : List Char :=
  if indexByte h ':' = none then h
  else
    match splitHostPort h with
    | .ok (host, _) => host
    | .error _ => h

theorem stripHostPort_of_ok {h host port : List Char} (hs : splitHostPort h = .ok (host, port)) :
    stripHostPort h = host := by
  have hcolon : indexByte h ':' ≠ none := by
    obtain ⟨-, -, -, ⟨rfl, -⟩ | rfl⟩ := splitHostPort_eq_ok hs <;> simp [indexByte_eq_none_iff]
  rw [stripHostPort, if_neg hcolon, hs]

/-- `ServeHTTP` sets the `Host` of a request to the host that the client joined to a port with
`JoinHostPort`, when the host has no bracket and the port no `:` and no bracket. -/
theorem stripHostPort_joinHostPort {host port : List Char} (hh : '[' ∉ host ∧ ']' ∉ host)
    (hp : PortOk port) : stripHostPort (joinHostPort host port) = host :=
  stripHostPort_of_ok (splitHostPort_joinHostPort hh hp)

/-- The IPv6 loopback address with port `8080`. -/
theorem stripHostPort_joinHostPort_loopback :
    ('[' ∉ "::1".toList ∧ ']' ∉ "::1".toList) ∧ PortOk "8080".toList ∧
      stripHostPort (joinHostPort "::1".toList "8080".toList) = "::1".toList :=
  have hh : '[' ∉ "::1".toList ∧ ']' ∉ "::1".toList := by decide
  have hp : PortOk "8080".toList := by decide
  ⟨hh, hp, stripHostPort_joinHostPort hh hp⟩

/-- `stripHostPort` leaves `h` as it is, or removes exactly a `:` and a port without `:` or
bracket from its end, with the brackets around the host when there are any; what it keeps has no
bracket. -/
theorem stripHostPort_eq (h : List Char) :
    stripHostPort h = h ∨ ∃ port, PortOk port ∧ '[' ∉ stripHostPort h ∧ ']' ∉ stripHostPort h ∧
      (h = stripHostPort h ++ ':' :: port ∨ h = '[' :: stripHostPort h ++ ']' :: ':' :: port) := by
  rcases hs : splitHostPort h with e | ⟨host, port⟩
  · left
    unfold stripHostPort
    split_ifs
    · rfl
    · rw [hs]
  · right
    obtain ⟨hp, h1, h2, hform⟩ := splitHostPort_eq_ok hs
    rw [stripHostPort_of_ok hs]
    exact ⟨port, hp, h1, h2, hform.imp_left And.left⟩

/-- An IPv6 address without brackets is rejected by `SplitHostPort` and kept. -/
example : stripHostPort "::1".toList = "::1".toList := by decide

end GoHttpd
