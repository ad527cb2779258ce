import GoHttpd.Route.Match
import GoHttpd.Route.Assemble

/-! Path patterns of literal chunks and placeholders, and what the router does with them.  A
`SegmentPattern` is a pattern whose every placeholder fills one whole segment or the start of
one; its meaning is `Matches` (the pattern with values in place of the placeholders), and
`match?` reads the values off a path segment by segment.  The two agree
(`match?_eq_some_iff`).  `Router.Add` compiles the pattern's text to a route whose `Match`
returns exactly the values of `match?`, in the order of the placeholders, and whose `Var` reads
each one by its name (`compileRule_matches`); over a whole table, `Router.Match` dispatches a
path to the first pattern that matches it (`Router.matchPath_segments`). -/

namespace GoHttpd

open Regexp Route

/-- A route without conditions admits every request. -/
@[simp] theorem CondFlags.admits_zero (c : CondFlags) : CondFlags.admits 0 c = true := rfl

/-! ### What the expression matches -/

/-- Each chunk after a placeholder starts a new segment, except that the last may be empty in a
pattern that is not a prefix. -/
def ChunksOk (isPrefix : Bool) : List (List Char × List Char) → Prop
  | [] => True
  | [(_, c)] => c.head? = some '/' ∨ (c = [] ∧ isPrefix = false)
  | (_, c) :: v :: vs => c.head? = some '/' ∧ ChunksOk isPrefix (v :: vs)

/-- The values of the placeholders at the start of `s`, and the rest: each value is the longest
prefix without `/`, not empty, and the chunk after the placeholder must follow it. -/
def takeValues : List (List Char × List Char) → List Char →
    Option (List (List Char) × List Char)
  | [], s => some ([], s)
  | (_, c) :: vs, s =>
    if s.takeWhile (· != '/') ≠ [] ∧ c.isPrefixOf (s.dropWhile (· != '/')) then
      (takeValues vs ((s.dropWhile (· != '/')).drop c.length)).map
        fun r => (s.takeWhile (· != '/') :: r.1, r.2)
    else none

/-- The captures after the groups numbered from `i` took `values`, the latest first. -/
def capsOf (i : Nat) : List (List Char) → Captures → Captures
  | [], caps => caps
  | v :: vs, caps => capsOf (i + 1) vs ((i, v) :: caps)

/-- The end of a match: anything may follow a prefix route, nothing any other. -/
def finStep (isPrefix : Bool) (r : List Char × Captures) : List (List Char × Captures) :=
  if isPrefix = true ∨ r.1 = [] then [r] else []

/-- The ways the placeholders and chunks of `vars`, and the end, go on from one way of matching:
at most one. -/
def tailRuns (isPrefix : Bool) (i : Nat) (vars : List (List Char × List Char))
    (r : List Char × Captures) : List (List Char × Captures) :=
  match takeValues vars r.1 with
  | some (values, rest) => finStep isPrefix (rest, capsOf i values r.2)
  | none => []

theorem tailRuns_cons (isPrefix : Bool) (i : Nat) (n c : List Char)
    (vs : List (List Char × List Char)) (s : List Char) (caps : Captures) :
    tailRuns isPrefix i ((n, c) :: vs) (s, caps) =
      if s.takeWhile (· != '/') ≠ [] ∧ c.isPrefixOf (s.dropWhile (· != '/')) then
        tailRuns isPrefix (i + 1) vs
          ((s.dropWhile (· != '/')).drop c.length, (i, s.takeWhile (· != '/')) :: caps)
      else [] := by
  unfold tailRuns
  rw [takeValues]
  split_ifs
  · cases takeValues vs ((s.dropWhile (· != '/')).drop c.length) <;> rfl
  · rfl

theorem run_finishNode (total : Nat) (isPrefix : Bool) (acc : Node) (s : List Char)
    (caps : Captures) :
    (finishNode isPrefix acc).run total s caps = (acc.run total s caps).flatMap (finStep isPrefix) := by
  cases isPrefix
  · rw [finishNode, if_neg Bool.false_ne_true, Node.run_cat]
    congr 1
    funext r
    simp [finStep]
  · have : finStep true = fun r => [r] := funext fun r => if_pos (.inl rfl)
    simp [finishNode, this]

/-- A placeholder followed by a chunk that starts a new segment. -/
theorem run_segNode_cons (total : Nat) (isPrefix : Bool) {n c : List Char}
    {vs : List (List Char × List Char)} (hc : c.head? = some '/')
    (ih : ∀ acc i s caps, (finishNode isPrefix (segNode acc i vs)).run total s caps =
      (acc.run total s caps).flatMap (tailRuns isPrefix i vs))
    (acc : Node) (i : Nat) (s : List Char) (caps : Captures) :
    (finishNode isPrefix (segNode acc i ((n, c) :: vs))).run total s caps =
      (acc.run total s caps).flatMap (tailRuns isPrefix i ((n, c) :: vs)) := by
  rw [segNode, ih, run_litNode, Node.run_cat]
  simp only [List.flatMap_assoc]
  congr 1
  funext r
  rw [← List.flatMap_assoc, flatMap_litStep_group total i hc, tailRuns_cons]
  split_ifs <;> simp

/-- The last placeholder of a pattern that ends with it, followed by `$`. -/
theorem run_segNode_last (total : Nat) (n : List Char) (acc : Node) (i : Nat) (s : List Char)
    (caps : Captures) :
    (finishNode false (segNode acc i [(n, [])])).run total s caps =
      (acc.run total s caps).flatMap (tailRuns false i [(n, [])]) := by
  rw [segNode, segNode, finishNode, if_neg Bool.false_ne_true, Node.run_cat, litNode,
    List.foldl_nil, Node.run_cat, List.flatMap_assoc]
  congr 1
  funext r
  obtain ⟨s, caps⟩ := r
  have hall : (∀ x ∈ s, (x != '/') = true) ↔ '/' ∉ s :=
    ⟨fun h hs => by simpa using h '/' hs, fun h x hx => by simpa using ne_of_mem_of_not_mem hx h⟩
  rw [flatMap_endText_group, tailRuns_cons]
  by_cases hs : '/' ∈ s
  · have hdw : s.dropWhile (· != '/') ≠ [] :=
      fun h => (hall.mp (List.dropWhile_eq_nil_iff.mp h)) hs
    simp [hs, tailRuns, takeValues, finStep, hdw]
  · rw [List.takeWhile_eq_self_iff.mpr (hall.mpr hs), List.dropWhile_eq_nil_iff.mpr (hall.mpr hs)]
    simp [hs, tailRuns, takeValues, finStep, capsOf]

/-- The compiled expression after `acc` on the pattern's placeholders and chunks. -/
theorem run_segNode (total : Nat) (isPrefix : Bool) :
    ∀ vars : List (List Char × List Char), ChunksOk isPrefix vars →
      ∀ acc i s caps, (finishNode isPrefix (segNode acc i vars)).run total s caps =
        (acc.run total s caps).flatMap (tailRuns isPrefix i vars)
  | [], _ => fun acc i s caps => by
    rw [segNode, run_finishNode]
    rfl
  | [(n, c)], h => h.elim
      (fun hc => run_segNode_cons total isPrefix hc (run_segNode total isPrefix [] trivial))
      fun ⟨hc, hp⟩ => by subst hc hp; exact run_segNode_last total n
  | (_, _) :: v :: vs, h =>
    run_segNode_cons total isPrefix h.1 (run_segNode total isPrefix (v :: vs) h.2)

/-- The text of the chunks after the placeholders, with `values` in place of these. -/
def fillValues : List (List Char × List Char) → List (List Char) → List Char
  | v :: vs, x :: xs => x ++ v.2 ++ fillValues vs xs
  | _, _ => []

/-- A value without `/` before a rest that starts a segment is the longest prefix without `/`. -/
theorem takeWhile_dropWhile_segment {x : List Char} (hx : '/' ∉ x) (rest : List Char)
    (hr : ∀ y ∈ rest.head?, y = '/') :
    (x ++ rest).takeWhile (· != '/') = x ∧ (x ++ rest).dropWhile (· != '/') = rest := by
  have hall : ∀ y ∈ x, (y != '/') = true := fun y hy => by simpa using ne_of_mem_of_not_mem hy hx
  refine ⟨?_, ?_⟩
  · rw [List.takeWhile_append_of_pos hall]
    cases rest with
    | nil => simp
    | cons y t => simp [hr y rfl]
  · rw [dropWhile_append_of_all hall, dropWhile_of_head]
    intro y hy
    simp [hr y hy]

theorem takeValues_cons_iff (isPrefix : Bool) {n c : List Char} {vs : List (List Char × List Char)}
    (hc : c.head? = some '/')
    (ih : ∀ s values rest, (takeValues vs s = some (values, rest) ∧ (isPrefix = true ∨ rest = [])) ↔
      values.length = vs.length ∧ (∀ v ∈ values, v ≠ [] ∧ '/' ∉ v) ∧
        s = fillValues vs values ++ rest ∧ (isPrefix = true ∨ rest = []))
    (s : List Char) (values : List (List Char)) (rest : List Char) :
    (takeValues ((n, c) :: vs) s = some (values, rest) ∧ (isPrefix = true ∨ rest = [])) ↔
      values.length = vs.length + 1 ∧ (∀ v ∈ values, v ≠ [] ∧ '/' ∉ v) ∧
        s = fillValues ((n, c) :: vs) values ++ rest ∧ (isPrefix = true ∨ rest = []) := by
  constructor
  · rintro ⟨h, hend⟩
    rw [takeValues] at h
    split_ifs at h with hcond
    obtain ⟨⟨values', rest'⟩, hv, heq⟩ := Option.map_eq_some'.mp h
    simp only [Prod.mk.injEq] at heq
    obtain ⟨rfl, rfl⟩ := heq
    obtain ⟨hlen, hok, hs, -⟩ := (ih _ _ _).mp ⟨hv, hend⟩
    obtain ⟨t, ht⟩ := List.isPrefixOf_iff_prefix.mp hcond.2
    have hnot : '/' ∉ s.takeWhile (· != '/') := fun hm => by
      simpa using List.mem_takeWhile_imp hm
    refine ⟨by simp [hlen], ?_, ?_, hend⟩
    · intro v hv
      rcases List.mem_cons.mp hv with rfl | hv'
      · exact ⟨hcond.1, hnot⟩
      · exact hok v hv'
    · have hdw : s.dropWhile (· != '/') = c ++ (fillValues vs values' ++ rest') := by
        rw [← hs, ← ht, List.drop_left]
      simp only [fillValues, List.append_assoc]
      rw [← hdw]
      exact (List.takeWhile_append_dropWhile _ _).symm
  · rintro ⟨hlen, hok, hs, hend⟩
    obtain ⟨x, xs, rfl⟩ : ∃ x xs, values = x :: xs := by
      cases values with
      | nil => simp at hlen
      | cons x xs => exact ⟨x, xs, rfl⟩
    obtain ⟨hx, hx'⟩ := hok x (List.mem_cons_self _ _)
    rw [fillValues, List.append_assoc, List.append_assoc] at hs
    obtain ⟨htw, hdw⟩ := takeWhile_dropWhile_segment hx' (c ++ (fillValues vs xs ++ rest))
      (by cases c with | nil => cases hc | cons y t => cases hc; simp)
    refine ⟨?_, hend⟩
    rw [takeValues, hs, htw, hdw, if_pos ⟨hx, by simp [List.isPrefixOf_iff_prefix]⟩,
      List.drop_left, ((ih _ _ _).mpr ⟨by simpa using hlen, fun v hv => hok v
        (List.mem_cons_of_mem _ hv), rfl, hend⟩).1]
    rfl

theorem takeValues_last_iff (n s : List Char) (values : List (List Char)) (rest : List Char) :
    (takeValues [(n, [])] s = some (values, rest) ∧ (false = true ∨ rest = [])) ↔
      values.length = 1 ∧ (∀ v ∈ values, v ≠ [] ∧ '/' ∉ v) ∧
        s = fillValues [(n, [])] values ++ rest ∧ (false = true ∨ rest = []) := by
  constructor
  · rintro ⟨h, hend⟩
    obtain rfl : rest = [] := by simpa using hend
    rw [takeValues] at h
    split_ifs at h with hcond
    simp only [takeValues, List.drop_zero, Option.map_some', Option.some.injEq, Prod.mk.injEq] at h
    obtain ⟨rfl, hdw⟩ := h
    rw [List.length_nil, List.drop_zero] at hdw
    have hnot : '/' ∉ s.takeWhile (· != '/') := fun hm => by simpa using List.mem_takeWhile_imp hm
    refine ⟨rfl, fun v hv => List.mem_singleton.mp hv ▸ ⟨hcond.1, hnot⟩, ?_, hend⟩
    simp only [fillValues, List.append_nil]
    conv_lhs => rw [← List.takeWhile_append_dropWhile (· != '/') s, hdw, List.append_nil]
  · rintro ⟨hlen, hok, hs, hend⟩
    obtain rfl : rest = [] := by simpa using hend
    obtain ⟨x, rfl⟩ : ∃ x, values = [x] := List.length_eq_one.mp hlen
    obtain ⟨hx, hx'⟩ := hok x (List.mem_singleton_self _)
    simp only [fillValues, List.append_nil] at hs
    subst hs
    obtain ⟨htw, hdw⟩ := takeWhile_dropWhile_segment hx' [] (by simp)
    simp only [List.append_nil] at htw hdw
    simp [takeValues, htw, hdw, hx]

/-- The values `takeValues` finds are the only ones that fill the pattern's placeholders to give
the text: each is a non-empty text without `/`. -/
theorem takeValues_iff (isPrefix : Bool) :
    ∀ vars : List (List Char × List Char), ChunksOk isPrefix vars →
      ∀ s values rest,
        (takeValues vars s = some (values, rest) ∧ (isPrefix = true ∨ rest = [])) ↔
          values.length = vars.length ∧ (∀ v ∈ values, v ≠ [] ∧ '/' ∉ v) ∧
            s = fillValues vars values ++ rest ∧ (isPrefix = true ∨ rest = [])
  | [], _ => fun s values rest => by
    constructor
    · rintro ⟨h, hend⟩
      cases h
      exact ⟨rfl, by simp, rfl, hend⟩
    · rintro ⟨hlen, -, rfl, hend⟩
      obtain rfl := List.length_eq_zero.mp hlen
      exact ⟨rfl, hend⟩
  | [(n, c)], h => h.elim (fun hc => takeValues_cons_iff isPrefix hc (takeValues_iff isPrefix [] trivial))
      fun ⟨hc, hp⟩ => by subst hc hp; exact takeValues_last_iff n
  | (_, _) :: v :: vs, h =>
    takeValues_cons_iff isPrefix h.1 (takeValues_iff isPrefix (v :: vs) h.2)

theorem lookup_capsOf_of_lt {k i : Nat} (hk : k < i) :
    ∀ (values : List (List Char)) (caps : Captures), (capsOf i values caps).lookup k = caps.lookup k
  | [], caps => rfl
  | v :: vs, caps => by
    rw [capsOf, lookup_capsOf_of_lt (Nat.lt_succ_of_lt hk) vs]
    simp [List.lookup_cons, beq_false_of_ne (Nat.ne_of_lt hk)]

theorem lookup_capsOf :
    ∀ (values : List (List Char)) (i : Nat) (caps : Captures) (j : Nat) (hj : j < values.length),
      (capsOf i values caps).lookup (i + j) = some values[j]
  | v :: vs, i, caps, 0, _ => by
    rw [capsOf, Nat.add_zero, lookup_capsOf_of_lt (Nat.lt_succ_self i)]
    simp [List.lookup_cons]
  | v :: vs, i, caps, j + 1, hj => by
    rw [capsOf, show i + (j + 1) = i + 1 + j by omega, lookup_capsOf vs (i + 1) _ j (by simpa using hj)]
    rfl

/-- `FindStringSubmatch` reads the groups numbered from `1` back in order. -/
theorem map_range_lookup_capsOf (values : List (List Char)) :
    (List.range values.length).map (fun j => ((capsOf 1 values []).lookup (j + 1)).getD []) =
      values := by
  refine List.ext_getElem (by simp) fun j h₁ h₂ => ?_
  rw [List.getElem_map, List.getElem_range, Nat.add_comm, lookup_capsOf values 1 [] j h₂]
  rfl

/-! ### Patterns of segments -/

/-- A path pattern of literal chunks and placeholders `{name}` with the implicit body `[^/]+`.
It starts with `/`, no chunk holds `{`, the names are distinct words other than `_`, and each
chunk after a placeholder starts a new segment, except that the pattern may end with a
placeholder.  Its last character is neither `!` nor a space, which `Parse` would cut off. -/
structure SegmentPattern where
  first : List Char
  vars : List (List Char × List Char)
  first_head : first.head? = some '/'
  no_brace : ∀ c ∈ first :: vars.map Prod.snd, '{' ∉ c
  name_word : ∀ v ∈ vars, v.1 ≠ [] ∧ ∀ x ∈ v.1, isWordChar x = true
  name_nodup : (vars.map Prod.fst).Nodup
  name_not_blank : ∀ v ∈ vars, v.1 ≠ "_".toList
  chunk_segment : ∀ v ∈ vars.dropLast, v.2.head? = some '/'
  last_segment : ∀ v ∈ vars.getLast?, v.2 = [] ∨ v.2.head? = some '/'
  last_char : ∀ x ∈ (segmentText first vars).getLast?, x ≠ '!' ∧ isSpace x = false

namespace SegmentPattern

variable (p : SegmentPattern)

/-- The rule text of the pattern. -/
def text : List Char := segmentText p.first p.vars

/-- A pattern that ends in `/` is a prefix: a path that goes on after it matches too. -/
def isPrefix : Bool := p.text.getLast? == some '/'

/-- What the pattern means: `q` is the pattern with `values` in place of its placeholders, each
a non-empty text without `/`, followed by nothing unless the pattern is a prefix. -/
def Matches (q : List Char) (values : List (List Char)) : Prop :=
  values.length = p.vars.length ∧ (∀ v ∈ values, v ≠ [] ∧ '/' ∉ v) ∧
    ∃ tail, q = p.first ++ fillValues p.vars values ++ tail ∧ (p.isPrefix = true ∨ tail = [])

/-- The matcher the pattern describes, segment by segment: the first chunk, then for each
placeholder the text up to the next `/` and the chunk after it. -/
def match? (q : List Char) : Option (List (List Char)) :=
  if p.first.isPrefixOf q then
    match takeValues p.vars (q.drop p.first.length) with
    | some (values, rest) => if p.isPrefix = true ∨ rest = [] then some values else none
    | none => none
  else none

theorem chunksOk_of {b : Bool} :
    ∀ vars : List (List Char × List Char), (∀ v ∈ vars.dropLast, v.2.head? = some '/') →
      (∀ v ∈ vars.getLast?, v.2.head? = some '/' ∨ (v.2 = [] ∧ b = false)) → ChunksOk b vars
  | [], _, _ => trivial
  | [_], _, hl => hl _ rfl
  | v :: w :: ws, hd, hl => ⟨hd v (List.mem_cons_self _ _),
      chunksOk_of (w :: ws) (fun u hu => hd u (List.mem_cons_of_mem _ hu)) hl⟩

theorem isPrefix_of_last_nil {n : List Char} (h : p.vars.getLast? = some (n, [])) :
    p.isPrefix = false := by
  obtain ⟨init, hsplit⟩ := List.getLast?_eq_some_iff.mp h
  have : p.text = (p.first ++ placeholderText init ++ '{' :: n) ++ ['}'] := by
    simp [text, segmentText, hsplit, placeholderText]
  rw [isPrefix, this, List.getLast?_concat]
  rfl

theorem chunksOk : ChunksOk p.isPrefix p.vars := by
  refine chunksOk_of _ p.chunk_segment fun v hv => ?_
  rcases p.last_segment v hv with h | h
  · obtain ⟨n, c⟩ := v
    simp only at h
    subst h
    exact .inr ⟨rfl, p.isPrefix_of_last_nil hv⟩
  · exact .inl h

theorem match?_eq_some_iff (q : List Char) (values : List (List Char)) :
    p.match? q = some values ↔ p.Matches q values := by
  unfold match? Matches
  constructor
  · intro h
    split_ifs at h with hpre
    obtain ⟨t, rfl⟩ := List.isPrefixOf_iff_prefix.mp hpre
    rw [List.drop_left] at h
    split at h
    · rename_i rest hv
      split_ifs at h with hend
      cases h
      obtain ⟨hlen, hok, hs, -⟩ := (takeValues_iff _ _ p.chunksOk _ _ _).mp ⟨hv, hend⟩
      exact ⟨hlen, hok, rest, by rw [hs, List.append_assoc], hend⟩
    · cases h
  · rintro ⟨hlen, hok, tail, rfl, hend⟩
    have hv := ((takeValues_iff _ _ p.chunksOk _ _ _).mpr ⟨hlen, hok, rfl, hend⟩).1
    rw [List.append_assoc, if_pos (List.isPrefixOf_iff_prefix.mpr (List.prefix_append _ _)),
      List.drop_left, hv]
    exact if_pos hend

/-! #### What `Add` installs -/

/-- The expression `Parse` compiles for a pattern with placeholders. -/
def regexp : Regexp :=
  ⟨'^' :: quoteMeta p.first ++ segExpr p.vars ++ (if p.isPrefix then [] else ['$']),
    finishNode p.isPrefix (segNode (litNode (.cat .empty .beginText) p.first) 1 p.vars),
    p.vars.length⟩

/-- The route `Add` installs for the pattern, after a condition clause that gives `conds`, and a
handler: the literal route of a pattern without placeholders, and otherwise the compiled
expression with each name at its position. -/
def route (conds : CondFlags) (handler : Option H) : Route H :=
  if p.vars = [] then ⟨conds, none, [], p.text, p.isPrefix, handler⟩
  else ⟨conds, some p.regexp, (p.vars.map Prod.fst).zip (List.range p.vars.length), p.first,
    p.isPrefix, handler⟩

@[simp] theorem route_conditions (conds : CondFlags) (handler : Option H) :
    (p.route conds handler).conditions = conds := by
  unfold route; split_ifs <;> rfl

@[simp] theorem route_handler (conds : CondFlags) (handler : Option H) :
    (p.route conds handler).handler = handler := by
  unfold route; split_ifs <;> rfl

theorem first_ne_nil : p.first ≠ [] := fun h => by simpa [h] using p.first_head

theorem text_head : p.text.head? = some '/' := by
  obtain ⟨t, ht⟩ : ∃ t, p.first = '/' :: t := by
    cases h : p.first with
    | nil => exact absurd h p.first_ne_nil
    | cons x t => exact ⟨t, by simpa [h] using p.first_head⟩
  simp [text, segmentText, ht]

theorem trimSpace_text : trimSpace p.text = p.text := by
  rw [trimSpace, dropWhile_of_head (by rw [p.text_head]; intro c hc; cases hc; decide),
    List.rdropWhile_eq_self_iff]
  intro hne hlast
  rw [(p.last_char _ (List.getLast?_eq_getLast _ hne)).2] at hlast
  cases hlast

theorem splitRule_text : splitRule p.text = .ok ([], p.text) := by
  obtain ⟨t, ht⟩ : ∃ t, p.text = '/' :: t := by
    cases h : p.text with
    | nil => simpa [h] using p.text_head
    | cons x t => exact ⟨t, by simpa [h] using p.text_head⟩
  rw [splitRule, p.trimSpace_text, ht]
  simp [indexByte, trim]

theorem suffixRule_text : suffixRule false p.text = (p.isPrefix, p.text) := by
  rw [suffixRule_false, literalOf,
    if_neg (show ¬p.text.getLast? = some '!' from fun h => (p.last_char '!' h).1 rfl)]
  rfl

theorem findVars_text : findVars p.text = varLocs 0 p.first p.vars :=
  findVarsFrom_placeholderText p.vars 0 (p.no_brace _ (List.mem_cons_self _ _))
    (fun v hv => ⟨p.no_brace _ (List.mem_cons_of_mem _ (List.mem_map_of_mem _ hv)),
      p.name_word v hv⟩) le_rfl

theorem length_le_length_quoteMeta (w : List Char) : w.length ≤ (quoteMeta w).length := by
  induction w with
  | nil => rfl
  | cons c w ih =>
    rw [quoteMeta_cons, List.length_append, quoteMeta_singleton]
    split_ifs <;> simp <;> omega

theorem segAtoms_le (vars : List (List Char × List Char)) :
    segAtoms vars ≤ (segExpr vars).length := by
  induction vars with
  | nil => rfl
  | cons v vs ih =>
    have := length_le_length_quoteMeta v.2
    simp [segAtoms, segExpr] at ih ⊢
    omega

theorem compile_regexp : compile p.regexp.expr = .ok p.regexp := by
  obtain ⟨f, hf⟩ : ∃ f, 3 * p.regexp.expr.length + 2 = f + 6 + p.first.length + segAtoms p.vars := by
    have h₁ := length_le_length_quoteMeta p.first
    have h₂ := segAtoms_le p.vars
    have h₃ := List.length_pos.mpr p.first_ne_nil
    refine ⟨3 * p.regexp.expr.length + 2 - (6 + p.first.length + segAtoms p.vars), ?_⟩
    simp only [regexp, List.length_cons, List.length_append]
    omega
  exact compile_of_parseSeq (hf ▸ parseSeq_patternExpr f p.first p.vars p.isPrefix)

theorem finishPattern_of_assembly {a : Assembly} (hdrop : p.text.drop a.plainStart = lastChunk p.first p.vars)
    (hpat : a.resultPattern ++ quoteMeta (lastChunk p.first p.vars) =
      ['^'] ++ quoteMeta p.first ++ segExpr p.vars) :
    finishPattern p.text p.isPrefix a = p.regexp.expr := by
  have hp : (if a.plainStart < p.text.length then
      a.resultPattern ++ quoteMeta (p.text.drop a.plainStart) else a.resultPattern) =
      ['^'] ++ quoteMeta p.first ++ segExpr p.vars := by
    rw [← hpat, ← hdrop]
    split_ifs with h
    · rfl
    · rw [List.drop_eq_nil_of_le (Nat.le_of_not_lt h)]
      simp [quoteMeta]
  rw [finishPattern]
  simp only [hp, regexp]
  cases p.isPrefix <;> simp

theorem compileVars_text : compileVars p.isPrefix p.text =
    .ok (if p.vars = [] then (p.text, [], none)
      else (p.first, (p.vars.map Prod.fst).zip (List.range p.vars.length), some p.regexp)) := by
  split_ifs with hv
  · exact compileVars_of_findVars_nil (by rw [findVars_text, hv]; rfl)
  obtain ⟨a', ha', hdrop', hpat', hvars', hentry'⟩ := assembleVars_varLocs p.vars (i := 0)
    (a := ⟨[], [], ['^'], 0⟩) (show p.text.drop 0 = p.first ++ placeholderText p.vars from rfl)
    (fun v hv => ⟨p.name_not_blank v hv, rfl⟩) p.name_nodup
  have hne : varLocs 0 p.first p.vars ≠ [] := by
    obtain ⟨⟨n, c⟩, vs, hvs⟩ := List.exists_cons_of_ne_nil hv
    rw [hvs]
    simp [varLocs]
  unfold compileVars
  rw [findVars_text]
  split
  · contradiction
  · dsimp only at ha' hpat' hvars' hentry'
    rw [ha', Except.ok_bind, p.finishPattern_of_assembly hdrop' hpat', compile_regexp]
    simp [hentry', hvars', hv, p.first_ne_nil, List.range_eq_range', Except.mapError]

/-- `Add` installs `p.route` for a rule text that `Parse` cuts at the pattern's text: `Parse`
accepts every pattern of segments. -/
theorem compileRule_of_splitRule {rule : List Char} {toks : List (List Char)} {conds : CondFlags}
    (hs : splitRule rule = .ok (toks, p.text)) (hc : parseConditions toks = .ok conds)
    (handler : Option H) : Router.compileRule (rule, handler) = .ok (p.route conds handler) := by
  have hz : (Route.zero : Route H).isPrefix = false := rfl
  simp only [Router.compileRule, parse, hs, Except.ok_bind, hc, hz, p.suffixRule_text,
    p.compileVars_text]
  unfold route
  split_ifs <;> rfl

theorem compileRule_text (handler : Option H) :
    Router.compileRule (p.text, handler) = .ok (p.route 0 handler) :=
  p.compileRule_of_splitRule p.splitRule_text rfl handler

/-! #### What the route matches -/

theorem run_regexp (total : Nat) (s : List Char) (caps : Captures) :
    p.regexp.prog.run total s caps =
      if s.length = total then (litStep p.first (s, caps)).flatMap (tailRuns p.isPrefix 1 p.vars)
      else [] := by
  rw [regexp, run_segNode total p.isPrefix p.vars p.chunksOk, run_litNode, Node.run_cat,
    Node.run_empty, List.flatMap_singleton, Node.run_beginText]
  split_ifs <;> simp

theorem takeValues_length {vars : List (List Char × List Char)} :
    ∀ {s values rest}, takeValues vars s = some (values, rest) → values.length = vars.length := by
  induction vars with
  | nil => intro s values rest h; cases h; rfl
  | cons v vs ih =>
    intro s values rest h
    rw [takeValues] at h
    split_ifs at h
    obtain ⟨⟨values', rest'⟩, hv, heq⟩ := Option.map_eq_some'.mp h
    simp only [Prod.mk.injEq] at heq
    obtain ⟨rfl, rfl⟩ := heq
    simp [ih hv]

/-- `FindStringSubmatch` of the compiled expression: no match where the pattern's matcher has
none, and otherwise the matched text and the values of the matcher. -/
theorem findStringSubmatch_regexp (q : List Char) :
    (p.match? q = none ∧ p.regexp.findStringSubmatch q = []) ∨
      ∃ m values, p.match? q = some values ∧ p.regexp.findStringSubmatch q = m :: values := by
  have hanch : ∀ s caps, s.length < q.length → p.regexp.prog.run q.length s caps = [] :=
    fun s caps hs => by rw [run_regexp, if_neg (Nat.ne_of_lt hs)]
  rw [findStringSubmatch_of_anchored hanch rfl, run_regexp, if_pos rfl, match?, litStep]
  by_cases hpre : p.first.isPrefixOf q = true
  · rw [if_pos hpre, if_pos hpre, List.flatMap_singleton, tailRuns]
    rcases hv : takeValues p.vars (q.drop p.first.length) with _ | ⟨values, rest⟩
    · exact .inl ⟨rfl, rfl⟩
    · simp only [finStep]
      split_ifs with hend
      · refine .inr ⟨q.take (q.length - rest.length), values, rfl, ?_⟩
        simp only [List.head?_cons, regexp]
        rw [← takeValues_length hv, map_range_lookup_capsOf]
      · exact .inl ⟨rfl, rfl⟩
  · rw [if_neg hpre, if_neg hpre]
    exact .inl ⟨rfl, rfl⟩

theorem isPrefixOf_of_match? {q : List Char} {values : List (List Char)}
    (h : p.match? q = some values) : p.first.isPrefixOf q = true := by
  unfold match? at h
  split_ifs at h with hpre
  exact hpre

/-- The route `Add` installs matches a path exactly when its conditions admit the request's and
the pattern's matcher matches the path, with the same values. -/
theorem tryMatch_route_valuesOf (conds : CondFlags) (handler : Option H) (c : CondFlags)
    (q : List Char) :
    ((p.route conds handler).tryMatch c q).map Match.valuesOf =
      if conds.admits c then p.match? q else none := by
  split_ifs with hc
  swap
  · simp [tryMatch, route_conditions, hc]
  unfold route
  split_ifs with hv
  · have htext : p.text = p.first := by simp [text, segmentText, placeholderText, hv]
    simp only [tryMatch, hc, htext, match?, hv, takeValues]
    by_cases hpre : p.first.isPrefixOf q = true
    · obtain ⟨t, rfl⟩ := List.isPrefixOf_iff_prefix.mp hpre
      cases t <;> simp [hpre, p.first_ne_nil, Match.valuesOf]
    · simp [hpre, p.first_ne_nil]
  · have hlen : ((p.vars.map Prod.fst).zip (List.range p.vars.length)).length = p.vars.length := by
      simp
    simp only [tryMatch, hc, submatchCheck, hlen]
    rcases p.findStringSubmatch_regexp q with ⟨hnone, hfs⟩ | ⟨m, values, hsome, hfs⟩
    · rw [hnone, hfs]
      split_ifs <;> simp_all [Nat.add_comm 1]
    · have hlenv := ((p.match?_eq_some_iff q values).mp hsome).1
      rw [hsome, hfs, p.isPrefixOf_of_match? hsome]
      simp [hlenv, Match.valuesOf, Nat.add_comm]

theorem lookup_zip_range' {names : List (List Char)} (h : names.Nodup) :
    ∀ (i j : Nat) (hj : j < names.length),
      (names.zip (List.range' i names.length)).lookup names[j] = some (i + j) := by
  induction names with
  | nil => intro i j hj; cases hj
  | cons n ns ih =>
    intro i j hj
    rw [List.nodup_cons] at h
    cases j with
    | zero => simp [List.range'_succ, List.lookup_cons]
    | succ j =>
      have hj' : j < ns.length := by simpa using hj
      have hne : (ns[j] == n) = false := beq_false_of_ne fun he => h.1 (he ▸ List.getElem_mem hj')
      rw [List.length_cons, List.range'_succ, List.zip_cons_cons, List.getElem_cons_succ, List.lookup_cons,
        hne]
      simp only
      rw [ih h.2 (i + 1) j hj']
      simp [Nat.add_assoc, Nat.add_comm 1]

/-- `Var` of a placeholder's name on a match of the route is the value of that placeholder. -/
theorem var_of_tryMatch {conds : CondFlags} {handler : Option H} {c : CondFlags} {q : List Char}
    {m : Match H} (h : (p.route conds handler).tryMatch c q = some m) (j : Nat)
    (hj : j < p.vars.length) (fallback : List (List Char)) :
    ∃ hv : j < m.valuesOf.length, m.var (p.vars[j]).1 fallback = .ok m.valuesOf[j] := by
  have hvals := tryMatch_route_valuesOf p conds handler c q
  rw [h, Option.map_some'] at hvals
  split_ifs at hvals
  have hlen : m.valuesOf.length = p.vars.length :=
    ((p.match?_eq_some_iff q _).mp hvals.symm).1
  refine ⟨hlen ▸ hj, ?_⟩
  have hv : p.vars ≠ [] := List.ne_nil_of_length_pos (Nat.lt_of_le_of_lt (Nat.zero_le _) hj)
  rcases Route.tryMatch_eq_some h with ⟨hpat, -⟩ | ⟨re, -, -, rfl⟩
  · simp [route, hv] at hpat
  · have hlk := lookup_zip_range' p.name_nodup 0 j (by simpa using hj)
    simp only [Match.var, route, if_neg hv, List.getElem_map, Nat.zero_add] at hlk ⊢
    rw [← List.range_eq_range'] at hlk
    simp only [List.length_map] at hlk
    rw [hlk]
    exact goIndex_of_lt _

/-- `Route.Parse` compiles a pattern of segments as the pattern means it: `Add` accepts the
pattern's text and installs a route that admits every request, whose match of a path has values
exactly when the path is the pattern with those values, each non-empty and without `/`, in place
of its placeholders, followed by nothing unless the pattern ends in `/`.  `Var` of each
placeholder's name is its value. -/
theorem compileRule_matches (handler : Option H) :
    ∃ route, Router.compileRule (p.text, handler) = .ok route ∧ route.conditions = 0 ∧
      route.handler = handler ∧
      (∀ c q values, (route.tryMatch c q).map Match.valuesOf = some values ↔ p.Matches q values) ∧
      ∀ c q m, route.tryMatch c q = some m → ∀ j (hj : j < p.vars.length) fallback,
        ∃ hv : j < m.valuesOf.length, m.var (p.vars[j]).1 fallback = .ok m.valuesOf[j] :=
  ⟨p.route 0 handler, p.compileRule_text handler, p.route_conditions 0 handler,
    p.route_handler 0 handler,
    fun c q values => by rw [tryMatch_route_valuesOf, if_pos (CondFlags.admits_zero c),
      match?_eq_some_iff],
    fun _ _ _ h j hj fallback => p.var_of_tryMatch h j hj fallback⟩

end SegmentPattern

namespace Router

/-- The first of the routes of the patterns that matches dispatches as the first pattern whose
matcher matches. -/
theorem findSome?_tryMatch_route (rules : List (SegmentPattern × Option H)) (c : CondFlags)
    (q : List Char) :
    ((rules.map fun r => r.1.route 0 r.2).findSome? (·.tryMatch c q)).map
        (fun m => (m.route.handler, m.valuesOf)) =
      rules.findSome? fun r => (r.1.match? q).map (r.2, ·) := by
  induction rules with
  | nil => rfl
  | cons r rs ih =>
    have h := SegmentPattern.tryMatch_route_valuesOf r.1 0 r.2 c q
    rw [if_pos (CondFlags.admits_zero c)] at h
    simp only [List.map_cons, List.findSome?_cons]
    cases hm : (r.1.route 0 r.2).tryMatch c q with
    | none =>
      rw [hm, Option.map_none'] at h
      rw [← h]
      exact ih
    | some m =>
      rw [hm, Option.map_some'] at h
      rw [← h]
      simp [Route.tryMatch_route hm]

/-- A router built by `Add` calls from patterns of segments, under a normal base path, dispatches
as the patterns' own matchers do: a path outside the base path is an error, and otherwise the
match is that of the first pattern whose matcher matches the rest of the path, with its handler
and its values. -/
theorem matchPath_segments {B : List Char} (hB : BasePathNormal B)
    (rules : List (SegmentPattern × Option H)) (c : CondFlags) (q : List Char) :
    ((Router.addAll ⟨B, []⟩ (rules.map fun r => (r.1.text, r.2))).matchPath c q).map
        (Option.map fun m => (m.route.handler, m.valuesOf)) =
      if B ≠ [] ∧ ¬B <+: q then .error (.outsideBasePath q B)
      else .ok (rules.findSome? fun r => (r.1.match? (q.drop B.length)).map (r.2, ·)) := by
  have hbase : (Router.addAll ⟨B, []⟩ (rules.map fun r => (r.1.text, r.2))).basePath = B := by
    rw [addAll_basePath]
    exact Function.iterate_fixed (normalizeBasePath_of_normal hB) _
  have hcompile : (fun r : SegmentPattern × Option H => (compileRule (r.1.text, r.2)).toOption) =
      some ∘ fun r => r.1.route 0 r.2 :=
    funext fun r => by simp [SegmentPattern.compileRule_text, Except.toOption]
  have hroutes : (Router.addAll ⟨B, []⟩ (rules.map fun r => (r.1.text, r.2))).routes =
      rules.map fun r => r.1.route 0 r.2 := by
    rw [addAll_routes, List.nil_append, acceptedRoutes, List.filterMap_map]
    exact (congrArg (List.filterMap · rules) hcompile).trans (List.filterMap_eq_map _ ▸ rfl)
  rw [matchPath_eq, hbase, hroutes]
  split_ifs
  · rfl
  · exact congrArg Except.ok (findSome?_tryMatch_route rules c _)

end Router

/-- The pattern `/user/{id}/posts/{post}`. -/
def userPostPattern : SegmentPattern where
  first := "/user/".toList
  vars := [("id".toList, "/posts/".toList), ("post".toList, [])]
  first_head := by decide
  no_brace := by decide
  name_word := by decide
  name_nodup := by decide
  name_not_blank := by decide
  chunk_segment := by decide
  last_segment := by decide
  last_char := by decide

example : userPostPattern.text = "/user/\x7bid\x7d/posts/\x7bpost\x7d".toList := by decide

example : userPostPattern.match? "/user/7/posts/3".toList = some ["7".toList, "3".toList] := by
  decide

theorem matchPath_segments_user :
    Router.BasePathNormal "/api".toList ∧
      ((Router.addAll ⟨"/api".toList, []⟩ ([(userPostPattern, (none : Option Unit))].map
          fun r => (r.1.text, r.2))).matchPath 0 "/api/user/7/posts/3".toList).map
          (Option.map fun m => (m.route.handler, m.valuesOf)) =
        if "/api".toList ≠ [] ∧ ¬"/api".toList <+: "/api/user/7/posts/3".toList then
          .error (.outsideBasePath "/api/user/7/posts/3".toList "/api".toList)
        else .ok ([(userPostPattern, (none : Option Unit))].findSome? fun r =>
          (r.1.match? ("/api/user/7/posts/3".toList.drop "/api".toList.length)).map (r.2, ·)) :=
  have hB : Router.BasePathNormal "/api".toList := .inr ⟨rfl, by decide⟩
  ⟨hB, Router.matchPath_segments hB _ 0 _⟩

end GoHttpd
