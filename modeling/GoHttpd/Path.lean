import GoHttpd.Text

/-! `path.Clean` of Go's standard library, which the server's `cleanPath` calls.  `Clean` reads
the path once, from `r = 0`, and writes its result into a buffer `out` (a `lazybuf`, which only
copies the path when the result starts to differ from it; its contents are the same either way).
An empty element and `.` are skipped, `..` backs up to the last `/` of `out` after `dotdot`, and any
other element is copied after a `/`.  On a rooted path this is a stack machine over the elements
of the path cut at `/`: `pathClean_rooted` says that `Clean` of `/rest` is the rooted path of
`resolve [] (rest.splitOn '/')`, where `resolve` pushes an element, pops one for `..` and skips
empty elements and `.`.  The elements it keeps are never empty, `.` or `..` (`ElemOk`). -/

namespace GoHttpd

/-! ### `path.Clean` -/

/-- `r == n || path[r] == '/'` for `rest = path[r:]`: an element ends here. -/
def atElemEnd : List Char → Bool
  | [] => true
  | c :: _ => c == '/'

/-- The loop of a `..` element, `for out.w > dotdot && out.index(out.w) != '/' { out.w-- }`,
from `out.w = w`. -/
def backtrack (out : List Char) (dotdot : Nat) : Nat → Nat
  | 0 => 0
  | w + 1 => if w + 1 > dotdot ∧ out[w + 1]? ≠ some '/' then backtrack out dotdot w else w + 1

/-- A `..` element: when `out` goes past `dotdot`, `out.w--` and back to the last `/` after
`dotdot`; otherwise a relative path gets `..` (after a `/` unless `out` is empty) and `dotdot`
moves past it, and a rooted path stays at its root. -/
def cleanDotDot (rooted : Bool) (out : List Char) (dotdot : Nat) : List Char × Nat :=
  if out.length > dotdot then (out.take (backtrack out dotdot (out.length - 1)), dotdot)
  else if !rooted then
    let out := (if out.length > 0 then out ++ ['/'] else out) ++ ['.', '.']
    (out, out.length)
  else (out, dotdot)

/-- A real element: a `/` unless `out` is only the `/` of a rooted path or empty, then the
element. -/
def cleanElem (rooted : Bool) (out elem : List Char) : List Char :=
  (if rooted && out.length != 1 || !rooted && out.length != 0 then out ++ ['/'] else out) ++ elem

/-- The loop of `Clean` from `r` on: `rest` is `path[r:]`, `out` is `out.string()`, and
`dotdot` is the offset in `out` where `..` must stop.  A real element starts at `c`, which is not
`/`, and runs up to the next `/`. -/
def cleanLoop (rooted : Bool) (rest out : List Char) (dotdot : Nat) : List Char :=
  match rest with
  | [] => out
  | c :: rest' =>
    if c = '/' then cleanLoop rooted rest' out dotdot
    else if c = '.' ∧ atElemEnd rest' then cleanLoop rooted rest' out dotdot
    else if c = '.' ∧ rest'.head? = some '.' ∧ atElemEnd rest'.tail then
      cleanLoop rooted rest'.tail (cleanDotDot rooted out dotdot).1
        (cleanDotDot rooted out dotdot).2
    else
      cleanLoop rooted (rest'.dropWhile (· != '/'))
        (cleanElem rooted out (c :: rest'.takeWhile (· != '/'))) dotdot
termination_by rest.length
decreasing_by
  all_goals simp only [List.length_cons, List.length_tail]
  all_goals first | omega | exact Nat.lt_succ_of_le (List.dropWhile_suffix _).length_le

/-- `path.Clean`. -/
def pathClean (path : List Char) : List Char :=
  if path = [] then ['.']
  else
    let rooted := path.head? == some '/'
    let out := if rooted then cleanLoop rooted path.tail ['/'] 1 else cleanLoop rooted path [] 0
    if out = [] then ['.'] else out

example : pathClean "/a//b/./c/../d/".toList = "/a/b/d".toList := by
  simp [pathClean, cleanLoop, atElemEnd, cleanElem, cleanDotDot, backtrack]
example : pathClean "../x/../../y".toList = "../../y".toList := by
  simp [pathClean, cleanLoop, atElemEnd, cleanElem, cleanDotDot, backtrack]

/-! ### The elements a rooted path keeps -/

/-- An element of a clean path: not empty, `.` or `..`, and without `/`. -/
structure ElemOk (e : List Char) : Prop where
  ne_nil : e ≠ []
  ne_dot : e ≠ ['.']
  ne_dotdot : e ≠ ['.', '.']
  no_slash : '/' ∉ e

/-- What an element does to the elements kept before it: an empty element and `.` do nothing,
`..` drops the last one (none at the root), and any other element is kept. -/
def pushElem (stack : List (List Char)) (elem : List Char) : List (List Char) :=
  if elem = [] ∨ elem = ['.'] then stack
  else if elem = ['.', '.'] then stack.dropLast
  else stack ++ [elem]

/-- The elements kept after `elems`, from `stack`. -/
def resolve (stack elems : List (List Char)) : List (List Char) :=
  elems.foldl pushElem stack

/-- The rooted path of the elements `stack`: `/` when there is none, else each after a `/`. -/
def rootedPath (stack : List (List Char)) : List Char :=
  if stack = [] then ['/'] else stack.flatMap ('/' :: ·)

section Stack

variable {stack : List (List Char)}

theorem pushElem_ok (hstack : ∀ e ∈ stack, ElemOk e) {elem : List Char} (helem : '/' ∉ elem) :
    ∀ e ∈ pushElem stack elem, ElemOk e := by
  unfold pushElem
  split_ifs with h₁ h₂
  · exact hstack
  · exact fun e he => hstack e (List.dropLast_subset _ he)
  · intro e he
    rcases List.mem_append.mp he with he | he
    · exact hstack e he
    · rw [List.mem_singleton.mp he]
      exact ⟨fun h => h₁ (.inl h), fun h => h₁ (.inr h), h₂, helem⟩

theorem resolve_ok (hstack : ∀ e ∈ stack, ElemOk e) {elems : List (List Char)}
    (helems : ∀ e ∈ elems, '/' ∉ e) : ∀ e ∈ resolve stack elems, ElemOk e := by
  induction elems generalizing stack with
  | nil => exact hstack
  | cons elem elems ih =>
    exact ih (pushElem_ok hstack (helems elem (List.mem_cons_self _ _)))
      fun e he => helems e (List.mem_cons_of_mem _ he)

/-- The elements of a clean path are kept as they are. -/
theorem resolve_of_ok {elems : List (List Char)} (helems : ∀ e ∈ elems, ElemOk e) :
    resolve stack elems = stack ++ elems := by
  induction elems generalizing stack with
  | nil => simp [resolve]
  | cons elem elems ih =>
    have h := helems elem (List.mem_cons_self _ _)
    rw [resolve, List.foldl_cons, ← resolve, ih fun e he => helems e (List.mem_cons_of_mem _ he),
      pushElem, if_neg (not_or.mpr ⟨h.ne_nil, h.ne_dot⟩), if_neg h.ne_dotdot, List.append_assoc,
      List.singleton_append]

theorem resolve_append (stack elems elems' : List (List Char)) :
    resolve stack (elems ++ elems') = resolve (resolve stack elems) elems' :=
  List.foldl_append _ _ _ _

@[simp] theorem rootedPath_nil : rootedPath [] = ['/'] := rfl

theorem rootedPath_of_ne_nil (h : stack ≠ []) : rootedPath stack = stack.flatMap ('/' :: ·) :=
  if_neg h

theorem rootedPath_singleton (e : List Char) : rootedPath [e] = '/' :: e := by
  simp [rootedPath]

theorem rootedPath_concat (h : stack ≠ []) (e : List Char) :
    rootedPath (stack ++ [e]) = rootedPath stack ++ '/' :: e := by
  rw [rootedPath_of_ne_nil h, rootedPath_of_ne_nil (by simp), List.flatMap_append]
  simp

theorem rootedPath_head (stack : List (List Char)) : (rootedPath stack).head? = some '/' := by
  unfold rootedPath
  split_ifs with h
  · rfl
  · obtain ⟨e, es, rfl⟩ := List.exists_cons_of_ne_nil h
    rfl

theorem rootedPath_ne_nil (stack : List (List Char)) : rootedPath stack ≠ [] := fun h => by
  simpa [h] using rootedPath_head stack

theorem two_le_length_rootedPath (h : stack ≠ []) (hstack : ∀ e ∈ stack, e ≠ []) :
    2 ≤ (rootedPath stack).length := by
  obtain ⟨e, es, rfl⟩ := List.exists_cons_of_ne_nil h
  have he := List.length_pos.mpr (hstack e (List.mem_cons_self _ _))
  rw [rootedPath_of_ne_nil h, List.flatMap_cons, List.length_append, List.length_cons]
  omega

theorem rootedPath_concat_eq (s : List (List Char)) (e : List Char) :
    ∃ before, rootedPath (s ++ [e]) = before ++ '/' :: e := by
  rcases eq_or_ne s [] with rfl | hs
  · exact ⟨[], rootedPath_singleton e⟩
  · exact ⟨_, rootedPath_concat hs e⟩

/-- The rooted path of kept elements ends in `/` only when there are none. -/
theorem rootedPath_getLast (hstack : ∀ e ∈ stack, ElemOk e) :
    (rootedPath stack).getLast? = some '/' ↔ stack = [] := by
  refine ⟨fun hlast => ?_, fun h => h ▸ rfl⟩
  by_contra h
  obtain ⟨s, e, rfl⟩ : ∃ s e, stack = s ++ [e] := ⟨_, _, (List.dropLast_append_getLast h).symm⟩
  have he := hstack e (by simp)
  obtain ⟨before, hb⟩ := rootedPath_concat_eq s e
  obtain ⟨e', x, rfl⟩ : ∃ e' x, e = e' ++ [x] :=
    ⟨_, _, (List.dropLast_append_getLast he.ne_nil).symm⟩
  rw [hb, ← List.cons_append, ← List.append_assoc, List.getLast?_concat, Option.some.injEq] at hlast
  exact he.no_slash (by simp [hlast])

/-- The rooted path of kept elements is `/` only when there are none. -/
theorem rootedPath_eq_root (hstack : ∀ e ∈ stack, e ≠ []) :
    rootedPath stack = ['/'] ↔ stack = [] := by
  refine ⟨fun h => ?_, fun h => h ▸ rfl⟩
  by_contra hne
  have := two_le_length_rootedPath hne hstack
  simp [h] at this

theorem splitOn_flatMap {e : List Char} {es : List (List Char)} (he : '/' ∉ e)
    (hes : ∀ x ∈ es, '/' ∉ x) : (e ++ es.flatMap ('/' :: ·)).splitOn '/' = e :: es := by
  induction es generalizing e with
  | nil =>
    rw [List.flatMap_nil, List.append_nil]
    exact splitOn_of_forall_ne fun c hc (h : c = '/') => he (h ▸ hc)
  | cons x es ih =>
    rw [List.flatMap_cons, List.cons_append,
      splitOn_append_cons (fun c hc (h : c = '/') => he (h ▸ hc)),
      ih (hes x (List.mem_cons_self _ _)) fun y hy => hes y (List.mem_cons_of_mem _ hy)]

/-- Cut at `/` after its first `/`, the rooted path of elements gives them back, or one empty
element when there is none. -/
theorem splitOn_tail_rootedPath (hstack : ∀ e ∈ stack, '/' ∉ e) :
    (rootedPath stack).tail.splitOn '/' = if stack = [] then [[]] else stack := by
  rcases stack with _ | ⟨e, es⟩
  · rfl
  · rw [rootedPath_of_ne_nil (List.cons_ne_nil _ _), List.flatMap_cons, List.cons_append,
      List.tail_cons, splitOn_flatMap (hstack e (List.mem_cons_self _ _))
        fun x hx => hstack x (List.mem_cons_of_mem _ hx), if_neg (List.cons_ne_nil _ _)]

/-! ### One element of a rooted path -/

/-- Backing up from `m + k` over `k` places without `/` stops at `m`, where `out` has a `/` or
`dotdot` is. -/
theorem backtrack_eq (out : List Char) {dotdot m : Nat} (hm : dotdot ≤ m)
    (hstop : m = dotdot ∨ out[m]? = some '/') (k : Nat)
    (hnone : ∀ j, m < j → j ≤ m + k → out[j]? ≠ some '/') : backtrack out dotdot (m + k) = m := by
  induction k with
  | zero =>
    cases m with
    | zero => rfl
    | succ m =>
      rw [Nat.add_zero, backtrack, if_neg]
      rintro ⟨hgt, hne⟩
      rcases hstop with h | h
      · omega
      · exact hne h
  | succ k ih =>
    rw [← Nat.add_assoc, backtrack, if_pos ⟨by omega, hnone _ (by omega) le_rfl⟩]
    exact ih fun j h₁ h₂ => hnone j h₁ (by omega)

theorem getElem?_append_ne_slash {before e : List Char} (he : '/' ∉ e) {j : Nat}
    (hj : before.length ≤ j) : (before ++ e)[j]? ≠ some '/' := by
  rw [List.getElem?_append_right hj]
  exact fun h => he (List.getElem?_mem h)

/-- `..` on the rooted path of kept elements drops the last one. -/
theorem cleanDotDot_rootedPath (hstack : ∀ e ∈ stack, ElemOk e) :
    cleanDotDot true (rootedPath stack) 1 = (rootedPath stack.dropLast, 1) := by
  rcases eq_or_ne stack [] with rfl | h
  · rfl
  obtain ⟨s, e, rfl⟩ : ∃ s e, stack = s ++ [e] := ⟨_, _, (List.dropLast_append_getLast h).symm⟩
  have he := hstack e (by simp)
  have hlen := List.length_pos.mpr he.ne_nil
  rw [List.dropLast_concat]
  rcases eq_or_ne s [] with rfl | hs
  · have hback : backtrack (['/'] ++ e) 1 (1 + (e.length - 1)) = 1 :=
      backtrack_eq _ le_rfl (.inl rfl) _ fun j hj _ => getElem?_append_ne_slash he.no_slash hj.le
    rw [List.nil_append, rootedPath_singleton, cleanDotDot, if_pos (by simp; omega)]
    simp only [List.length_cons, Nat.add_sub_cancel]
    rw [show e.length = 1 + (e.length - 1) by omega, ← List.singleton_append, hback]
    rfl
  · have h2 := two_le_length_rootedPath hs fun e' he' => (hstack e' (by simp [he'])).ne_nil
    have hslash : (rootedPath s ++ '/' :: e)[(rootedPath s).length]? = some '/' := by
      rw [List.getElem?_append_right le_rfl, Nat.sub_self, List.getElem?_cons_zero]
    have hback : backtrack (rootedPath s ++ '/' :: e) 1 ((rootedPath s).length + e.length) =
        (rootedPath s).length :=
      backtrack_eq _ (by omega) (.inr hslash) _ fun j hj _ => by
        rw [← List.singleton_append, ← List.append_assoc]
        exact getElem?_append_ne_slash he.no_slash (by simp; omega)
    rw [rootedPath_concat hs, cleanDotDot, if_pos (by simp; omega)]
    simp only [List.length_append, List.length_cons]
    rw [show (rootedPath s).length + (e.length + 1) - 1 = (rootedPath s).length + e.length by omega,
      hback, List.take_left]

/-- A real element goes after the kept ones. -/
theorem cleanElem_rootedPath (hstack : ∀ e ∈ stack, e ≠ []) (e : List Char) :
    cleanElem true (rootedPath stack) e = rootedPath (stack ++ [e]) := by
  rcases eq_or_ne stack [] with rfl | h
  · rw [List.nil_append, rootedPath_singleton]
    rfl
  · have h2 := two_le_length_rootedPath h hstack
    rw [cleanElem, if_pos (by simp; omega), rootedPath_concat h]
    simp

theorem takeWhile_elem {cs tail : List Char} (hcs : '/' ∉ cs) (htail : atElemEnd tail) :
    (cs ++ tail).takeWhile (· != '/') = cs := by
  induction cs with
  | nil =>
    cases tail with
    | nil => rfl
    | cons d ds => simp_all [atElemEnd]
  | cons c cs ih =>
    rw [List.mem_cons, not_or] at hcs
    rw [List.cons_append, List.takeWhile_cons, if_pos (by simpa using Ne.symm hcs.1), ih hcs.2]

theorem dropWhile_elem {cs tail : List Char} (hcs : '/' ∉ cs) (htail : atElemEnd tail) :
    (cs ++ tail).dropWhile (· != '/') = tail := by
  induction cs with
  | nil =>
    cases tail with
    | nil => rfl
    | cons d ds => simp_all [atElemEnd]
  | cons c cs ih =>
    rw [List.mem_cons, not_or] at hcs
    rw [List.cons_append, List.dropWhile_cons, if_pos (by simpa using Ne.symm hcs.1), ih hcs.2]

theorem atElemEnd_append {cs : List Char} (hne : cs ≠ []) (hcs : '/' ∉ cs) (tail : List Char) :
    atElemEnd (cs ++ tail) = false := by
  obtain ⟨c, cs, rfl⟩ := List.exists_cons_of_ne_nil hne
  simpa [atElemEnd] using fun h : c = '/' => hcs (h ▸ List.mem_cons_self _ _)

section Step

/-! The cases of the `switch` of `Clean`'s loop. -/

variable (rooted : Bool) (out : List Char) (dotdot : Nat) {tail : List Char}

theorem cleanLoop_slash (rest : List Char) :
    cleanLoop rooted ('/' :: rest) out dotdot = cleanLoop rooted rest out dotdot := by
  rw [cleanLoop, if_pos rfl]

theorem cleanLoop_dot (htail : atElemEnd tail) :
    cleanLoop rooted ('.' :: tail) out dotdot = cleanLoop rooted tail out dotdot := by
  rw [cleanLoop, if_neg (by decide), if_pos ⟨rfl, htail⟩]

theorem cleanLoop_dotdot (htail : atElemEnd tail) :
    cleanLoop rooted ('.' :: '.' :: tail) out dotdot = cleanLoop rooted tail
      (cleanDotDot rooted out dotdot).1 (cleanDotDot rooted out dotdot).2 := by
  rw [cleanLoop, if_neg (by decide), if_neg (by simp [atElemEnd]), if_pos ⟨rfl, rfl, htail⟩]
  rfl

/-- A real element is copied whole: it is not `.` or `..`, and has no `/`. -/
theorem cleanLoop_real {elem : List Char} (helem : ElemOk elem) (htail : atElemEnd tail) :
    cleanLoop rooted (elem ++ tail) out dotdot =
      cleanLoop rooted tail (cleanElem rooted out elem) dotdot := by
  obtain ⟨c, cs, rfl⟩ := List.exists_cons_of_ne_nil helem.ne_nil
  have hslash := helem.no_slash
  rw [List.mem_cons, not_or] at hslash
  have hdot : ¬(c = '.' ∧ atElemEnd (cs ++ tail) = true) := by
    rintro ⟨rfl, hend⟩
    have hcs : cs ≠ [] := by rintro rfl; exact helem.ne_dot rfl
    rw [atElemEnd_append hcs hslash.2] at hend
    cases hend
  have hdotdot :
      ¬(c = '.' ∧ (cs ++ tail).head? = some '.' ∧ atElemEnd (cs ++ tail).tail = true) := by
    rintro ⟨rfl, hhead, hend⟩
    obtain ⟨d, ds, rfl⟩ := List.exists_cons_of_ne_nil fun h : cs = [] => helem.ne_dot (h ▸ rfl)
    cases hhead
    have hds : ds ≠ [] := by rintro rfl; exact helem.ne_dotdot rfl
    rw [List.cons_append, List.tail_cons,
      atElemEnd_append hds fun h => hslash.2 (List.mem_cons_of_mem _ h)] at hend
    cases hend
  rw [List.cons_append, cleanLoop, if_neg (Ne.symm hslash.1), if_neg hdot, if_neg hdotdot,
    takeWhile_elem hslash.2 htail, dropWhile_elem hslash.2 htail]

end Step

/-- One element of a rooted path, up to the `/` or the end after it, is `pushElem` on the kept
elements. -/
theorem cleanLoop_elem (hstack : ∀ e ∈ stack, ElemOk e) {elem tail : List Char}
    (helem : '/' ∉ elem) (htail : atElemEnd tail) :
    cleanLoop true (elem ++ tail) (rootedPath stack) 1 =
      cleanLoop true tail (rootedPath (pushElem stack elem)) 1 := by
  by_cases hnil : elem = []
  · subst hnil
    rfl
  by_cases hdot : elem = ['.']
  · subst hdot
    exact cleanLoop_dot _ _ _ htail
  by_cases hdotdot : elem = ['.', '.']
  · subst hdotdot
    rw [List.cons_append, List.singleton_append, cleanLoop_dotdot _ _ _ htail,
      cleanDotDot_rootedPath hstack]
    rfl
  rw [cleanLoop_real _ _ _ ⟨hnil, hdot, hdotdot, helem⟩ htail,
    cleanElem_rootedPath fun e he => (hstack e he).ne_nil, pushElem,
    if_neg (not_or.mpr ⟨hnil, hdot⟩), if_neg hdotdot]

/-- Cut into elements at `/`, a rooted path is `resolve` on the elements. -/
theorem cleanLoop_intercalate (hstack : ∀ e ∈ stack, ElemOk e) {elems : List (List Char)}
    (helems : ∀ e ∈ elems, '/' ∉ e) :
    cleanLoop true (['/'].intercalate elems) (rootedPath stack) 1 =
      rootedPath (resolve stack elems) := by
  induction elems generalizing stack with
  | nil =>
    show cleanLoop true [] _ 1 = _
    rw [cleanLoop]
    rfl
  | cons elem elems ih =>
    have helem := helems elem (List.mem_cons_self _ _)
    have helems' : ∀ e ∈ elems, '/' ∉ e := fun e he => helems e (List.mem_cons_of_mem _ he)
    cases elems with
    | nil =>
      show cleanLoop true (elem ++ []) _ 1 = _
      rw [cleanLoop_elem hstack helem (rfl : atElemEnd [] = true), cleanLoop]
      rfl
    | cons elem' elems =>
      show cleanLoop true (elem ++ '/' :: ['/'].intercalate (elem' :: elems)) _ 1 = _
      rw [cleanLoop_elem hstack helem (rfl : atElemEnd ('/' :: _) = true), cleanLoop_slash,
        ih (pushElem_ok hstack helem) helems']
      rfl

/-- `Clean` of a rooted path is the rooted path of the elements that `resolve` keeps. -/
theorem pathClean_rooted (rest : List Char) :
    pathClean ('/' :: rest) = rootedPath (resolve [] (rest.splitOn '/')) := by
  have hloop := cleanLoop_intercalate (fun _ h => absurd h (List.not_mem_nil _))
    fun e he => not_mem_of_mem_splitOn (he : e ∈ rest.splitOn '/')
  rw [List.intercalate_splitOn rest '/'] at hloop
  rw [pathClean, if_neg (List.cons_ne_nil _ _)]
  simp only [List.head?_cons, List.tail_cons, beq_self_eq_true, if_true]
  rw [← rootedPath_nil, hloop, if_neg (rootedPath_ne_nil _)]

/-! ### `Clean` of a clean path -/

/-- The elements of the rooted path of kept elements, with or without an empty element after
them, are those elements. -/
theorem resolve_rootedPath (hstack : ∀ e ∈ stack, ElemOk e) {t : List (List Char)}
    (ht : t = [] ∨ t = [[]]) : resolve [] ((rootedPath (stack ++ t)).tail.splitOn '/') = stack := by
  have hslash : ∀ e ∈ stack ++ t, '/' ∉ e := by
    intro e he
    rcases List.mem_append.mp he with he | he
    · exact (hstack e he).no_slash
    · rcases ht with rfl | rfl
      · cases he
      · rw [List.mem_singleton.mp he]
        exact List.not_mem_nil _
  rw [splitOn_tail_rootedPath hslash]
  split_ifs with h
  · rw [(List.append_eq_nil.mp h).1]
    rfl
  · rw [resolve_append, resolve_of_ok hstack, List.nil_append]
    rcases ht with rfl | rfl <;> rfl

/-- `Clean` leaves the rooted path of kept elements as it is, and drops a `/` after it. -/
theorem pathClean_rootedPath (hstack : ∀ e ∈ stack, ElemOk e) {t : List (List Char)}
    (ht : t = [] ∨ t = [[]]) : pathClean (rootedPath (stack ++ t)) = rootedPath stack := by
  rw [← List.cons_head?_tail (rootedPath_head _), pathClean_rooted, resolve_rootedPath hstack ht]

theorem getLast_rootedPath_append (hstack : ∀ e ∈ stack, ElemOk e) {t : List (List Char)}
    (ht : t = [] ∨ t = [[]]) :
    (rootedPath (stack ++ t)).getLast? = some '/' ↔ stack = [] ∨ t = [[]] := by
  rcases ht with rfl | rfl
  · simp [rootedPath_getLast hstack]
  · rcases eq_or_ne stack [] with rfl | hs
    · simp only [List.nil_append, true_or, iff_true]
      rfl
    · simp [rootedPath_concat hs]

theorem rootedPath_append_eq_root (hstack : ∀ e ∈ stack, ElemOk e) {t : List (List Char)}
    (ht : t = [] ∨ t = [[]]) : rootedPath (stack ++ t) = ['/'] ↔ stack = [] := by
  have hne : ∀ e ∈ stack, e ≠ [] := fun e he => (hstack e he).ne_nil
  rcases ht with rfl | rfl
  · rw [List.append_nil, rootedPath_eq_root hne]
  · rcases eq_or_ne stack [] with rfl | hs
    · simp only [List.nil_append, iff_true]
      rfl
    · have := two_le_length_rootedPath hs hne
      refine iff_of_false (fun h => ?_) hs
      rw [rootedPath_concat hs] at h
      have := congrArg List.length h
      simp only [List.length_append, List.length_cons, List.length_nil] at this
      omega

end Stack

end GoHttpd
