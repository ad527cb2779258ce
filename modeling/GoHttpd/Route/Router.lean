import GoHttpd.Route.Route

/-! `route/router.go` and `route/match.go`: a `Router` holds a base path and its routes in the
order they were added.  `Router.matchPath` (Go's `Router.Match`; `match` is a Lean keyword)
strips the base path from the request path and returns the match of the first route that admits
the request. -/

namespace GoHttpd

/-- `route.Match`: the route, the path it matched after the base path, and the captured values,
`none` for Go's `nil` slice of a route without placeholders. -/
structure Match (H : Type) where
  route : Route H
  path : List Char
  values : Option (List (List Char))
  deriving DecidableEq, Repr

/-- `route.Router`. -/
structure Router (H : Type) where
  basePath : List Char
  routes : List (Route H)
  deriving DecidableEq, Repr

/-- The error of `Router.Match`, `requested path %q outside of BasePath %q`. -/
inductive MatchError where
  | outsideBasePath (path basePath : List Char)
  deriving DecidableEq, Repr

namespace Route

/-- The regular-expression branch of the loop of `Router.Match`: the submatches must be the
whole match and one value for each name in `Vars`. -/
def submatchCheck (route : Route H) (path : List Char) (values : List (List Char)) :
    Option (Match H) :=
  if values.length = 1 + route.vars.length then some ⟨route, path, some values.tail⟩ else none

/-- The body of the loop of `Router.Match` for one route: the test of the conditions, the test
of the entry prefix, and then either the literal test or the regular expression with the count
of its submatches. -/
def tryMatch (route : Route H) (conditions : CondFlags) (path : List Char) : Option (Match H) :=
  if !route.conditions.admits conditions then none
  else if route.entryPrefix ≠ [] ∧ !route.entryPrefix.isPrefixOf path then none
  else match route.pattern with
    | none => if route.isPrefix || path == route.entryPrefix then some ⟨route, path, none⟩ else none
    | some re => route.submatchCheck path (re.findStringSubmatch path)

theorem tryMatch_isSome_of_pattern_none {route : Route H} {c : CondFlags} {q : List Char}
    (hp : route.pattern = none) (hne : route.entryPrefix ≠ []) :
    (route.tryMatch c q).isSome ↔ route.conditions.admits c ∧
      (q = route.entryPrefix ∨ route.isPrefix ∧ route.entryPrefix <+: q) := by
  unfold tryMatch
  by_cases hc : route.conditions.admits c
  · by_cases hq : route.entryPrefix <+: q
    · simp [hc, List.isPrefixOf_iff_prefix.mpr hq, hq, hp, hne, or_comm]
    · have : q ≠ route.entryPrefix := fun h => hq (h ▸ List.prefix_refl _)
      simp [hc, hq, hp, hne, this]
  · simp [hc]

theorem tryMatch_isSome_of_pattern_some {route : Route H} {c : CondFlags} {q : List Char}
    {re : Regexp} (hp : route.pattern = some re) :
    (route.tryMatch c q).isSome ↔ route.conditions.admits c ∧ route.entryPrefix <+: q ∧
      re.findStringSubmatch q ≠ [] ∧ re.numSubexp = route.vars.length := by
  have hcount : (re.findStringSubmatch q).length = 1 + route.vars.length ↔
      re.findStringSubmatch q ≠ [] ∧ re.numSubexp = route.vars.length := by
    rw [← List.length_pos]
    rcases re.findStringSubmatch_length q with h | h <;> rw [h] <;> omega
  unfold tryMatch
  by_cases hc : route.conditions.admits c
  · by_cases hq : route.entryPrefix <+: q
    · simp [hc, List.isPrefixOf_iff_prefix.mpr hq, hq, hp, submatchCheck, hcount]
    · have hne : route.entryPrefix ≠ [] := fun h => hq (h ▸ List.nil_prefix)
      have : route.entryPrefix.isPrefixOf q = false := by
        simpa [← List.isPrefixOf_iff_prefix] using hq
      simp [hc, hq, hne, this]
  · simp [hc]

/-- What a match of one route is: the route with the path and no values when it has no pattern,
and otherwise the submatches of its pattern after the whole match, one per variable. -/
theorem tryMatch_eq_some {route : Route H} {c : CondFlags} {q : List Char} {m : Match H}
    (h : route.tryMatch c q = some m) :
    (route.pattern = none ∧ m = ⟨route, q, none⟩) ∨
      ∃ re, route.pattern = some re ∧ (re.findStringSubmatch q).length = 1 + route.vars.length ∧
        m = ⟨route, q, some (re.findStringSubmatch q).tail⟩ := by
  unfold tryMatch at h
  split at h
  · cases h
  split at h
  · cases h
  split at h
  · rename_i hp
    split at h <;> cases h
    exact .inl ⟨hp, rfl⟩
  · rename_i re hp
    unfold submatchCheck at h
    split at h <;> cases h
    exact .inr ⟨re, hp, ‹_›, rfl⟩

theorem tryMatch_route {route : Route H} {c : CondFlags} {q : List Char} {m : Match H}
    (h : route.tryMatch c q = some m) : m.route = route := by
  rcases tryMatch_eq_some h with ⟨-, rfl⟩ | ⟨-, -, -, rfl⟩ <;> rfl

end Route

namespace Router

/-- The normalisation of `BasePath` at the top of `Add`: `/` becomes empty, a missing leading `/`
is added, and otherwise the trailing `/`s are trimmed.  The three branches exclude each
other. -/
def normalizeBasePath (b : List Char) : List Char :=
  match b with
  | [] => []
  | c :: _ => if b = ['/'] then [] else if c ≠ '/' then '/' :: b else b.rdropWhile (· == '/')

/-- `Router.Add`: the base path normalised, a zero route appended and parsed in place; on an
error the appended route is cut off again, on success it gets the handler. -/
def add (r : Router H) (pattern : List Char) (handler : Option H) :
    Router H × Except Route.ParseError (Route H) :=
  let basePath := normalizeBasePath r.basePath
  let routes := r.routes ++ [Route.zero]
  match (Route.zero : Route H).parse pattern with
  | .error e => (⟨basePath, routes.dropLast⟩, .error e)
  | .ok route =>
    let route := { route with handler := handler }
    (⟨basePath, routes.set r.routes.length route⟩, .ok route)

/-- `Router.Match`: the base path must be a prefix of the path and is cut off; then the first
route in order that admits the request gives the match, and no route gives `nil`. -/
def matchPath (r : Router H) (conditions : CondFlags) (path : List Char) :
    Except MatchError (Option (Match H)) :=
  if r.basePath ≠ [] ∧ !r.basePath.isPrefixOf path then .error (.outsideBasePath path r.basePath)
  else .ok (r.routes.findSome? (·.tryMatch conditions (path.drop r.basePath.length)))

/-- The router after a sequence of `Add` calls, each with a rule text and a handler. -/
def addAll (r : Router H) (rules : List (List Char × Option H)) : Router H :=
  rules.foldl (fun r rule => (r.add rule.1 rule.2).1) r

/-- The route that `Add` installs for a rule text and a handler, or the error it returns. -/
def compileRule (rule : List Char × Option H) : Except Route.ParseError (Route H) :=
  ((Route.zero : Route H).parse rule.1).map fun route => { route with handler := rule.2 }

/-- The routes of the accepted rules among `rules`, in order. -/
def acceptedRoutes (rules : List (List Char × Option H)) : List (Route H) :=
  rules.filterMap fun rule => (compileRule rule).toOption

/-- A rule text whose expression the model of `regexp.Compile` refuses for syntax it leaves
out: Unicode classes, `\b` and `\B`, `\Q`, and flag groups, all of which Go accepts. -/
def refusedAsUnsupported (rule : List Char × Option H) : Bool :=
  match compileRule rule with
  | .error (.invalidPattern .unsupported) => true
  | _ => false

@[simp] theorem add_basePath (r : Router H) (pattern : List Char) (handler : Option H) :
    (r.add pattern handler).1.basePath = normalizeBasePath r.basePath := by
  unfold add; split <;> rfl

/-- `Add` appends the route of an accepted rule, and a rejected rule leaves the routes as they
were. -/
theorem add_routes (r : Router H) (pattern : List Char) (handler : Option H) :
    (r.add pattern handler).1.routes = r.routes ++ (compileRule (pattern, handler)).toOption.toList := by
  cases h : (Route.zero : Route H).parse pattern <;>
    simp [add, compileRule, h, Except.map, Except.toOption]

theorem addAll_routes (r : Router H) (rules : List (List Char × Option H)) :
    (r.addAll rules).routes = r.routes ++ acceptedRoutes rules := by
  induction rules generalizing r with
  | nil => simp [addAll, acceptedRoutes]
  | cons rule rules ih =>
    simp only [addAll, List.foldl_cons] at ih ⊢
    rw [ih, add_routes]
    cases h : (compileRule rule).toOption <;> simp [acceptedRoutes, h]

theorem addAll_basePath (r : Router H) (rules : List (List Char × Option H)) :
    (r.addAll rules).basePath = normalizeBasePath^[rules.length] r.basePath := by
  induction rules generalizing r with
  | nil => rfl
  | cons rule rules ih =>
    simp only [addAll, List.foldl_cons] at ih ⊢
    rw [ih, add_basePath, List.length_cons, Function.iterate_succ_apply]

theorem matchPath_eq (r : Router H) (c : CondFlags) (p : List Char) :
    r.matchPath c p =
      if r.basePath ≠ [] ∧ ¬r.basePath <+: p then .error (.outsideBasePath p r.basePath)
      else .ok (r.routes.findSome? (·.tryMatch c (p.drop r.basePath.length))) := by
  unfold matchPath
  by_cases hb : r.basePath <+: p
  · simp [List.isPrefixOf_iff_prefix.mpr hb, hb]
  · have : r.basePath.isPrefixOf p = false := by simpa [← List.isPrefixOf_iff_prefix] using hb
    simp [this, hb]

/-- Routes added after the one that gives a match do not change it. -/
theorem matchPath_append {b : List Char} {routes : List (Route H)} {c : CondFlags}
    {p : List Char} {m : Match H} (more : List (Route H))
    (h : (Router.mk b routes).matchPath c p = .ok (some m)) :
    (Router.mk b (routes ++ more)).matchPath c p = .ok (some m) := by
  rw [matchPath_eq] at h ⊢
  split at h
  · cases h
  · simp_all [List.findSome?_append]

/-- The conditions of an accepted rule's route are those `Parse` reads from its clause. -/
theorem compileRule_conditions {rule : List Char} {handler : Option H} {route : Route H}
    (hc : compileRule (rule, handler) = .ok route) :
    ∃ toks pp, Route.splitRule rule = .ok (toks, pp) ∧
      Route.parseConditions toks = .ok route.conditions := by
  obtain ⟨route0, hp, rfl⟩ := Except.map_eq_ok.mp hc
  obtain ⟨toks, pp, hs, hcond, -⟩ := Route.parse_eq_ok hp
  exact ⟨toks, pp, hs, hcond⟩

/-- A rule without placeholders admits the path `q` after the base path: `q` is the literal of
its pattern, or the pattern ends in `/` and `q` starts with the literal. -/
def LiteralAdmits (pp q : List Char) : Prop :=
  q = Route.literalOf pp ∨ (pp.getLast? = some '/' ∧ Route.literalOf pp <+: q)

open Route in
/-- The route of an accepted rule text without placeholders, cut at its first `/`. -/
theorem compileRule_literal {rule : List Char} {handler : Option H} {route : Route H}
    (hc : compileRule (rule, handler) = .ok route) (hcut : CutAtSlash rule)
    (hv : findVars (literalOf (pathPatternOf rule)) = []) :
    route.pattern = none ∧ route.entryPrefix = literalOf (pathPatternOf rule) ∧
      route.isPrefix = ((pathPatternOf rule).getLast? == some '/') ∧
      route.entryPrefix ≠ [] := by
  obtain ⟨route0, hp, rfl⟩ := Except.map_eq_ok.mp hc
  obtain ⟨toks, pp, hs, -, hpre, -, hcv⟩ := parse_eq_ok hp
  obtain ⟨rfl, hhead⟩ := splitRule_eq_ok hs hcut
  simp only [zero, suffixRule_false] at hpre hcv
  rw [compileVars_of_findVars_nil hv] at hcv
  simp only [Except.ok.injEq, Prod.mk.injEq] at hcv
  obtain ⟨he, hvars, hpat⟩ := hcv
  exact ⟨hpat.symm, he.symm, hpre, he ▸ literalOf_ne_nil hhead⟩

open Route in
theorem tryMatch_literal {rule : List Char} {handler : Option H} {route : Route H} {c : CondFlags}
    {q : List Char} (hc : compileRule (rule, handler) = .ok route) (hcut : CutAtSlash rule)
    (hv : findVars (literalOf (pathPatternOf rule)) = []) :
    (route.tryMatch c q).isSome ↔ route.conditions.admits c ∧ LiteralAdmits (pathPatternOf rule) q := by
  obtain ⟨hp, he, hpre, hne⟩ := compileRule_literal hc hcut hv
  rw [tryMatch_isSome_of_pattern_none hp hne, he, hpre, LiteralAdmits]
  simp

open Route in
/-- The route of an accepted rule text with placeholders, cut at its first `/`, admits a path
when its conditions admit the request, the path starts with the pattern's text before the first
placeholder, and the expression assembled from the pattern matches the path with one group per
named placeholder. -/
theorem tryMatch_placeholders {rule : List Char} {handler : Option H} {route : Route H}
    {c : CondFlags} {q : List Char} {loc : VarLoc} {locs : List VarLoc}
    (hc : compileRule (rule, handler) = .ok route) (hcut : CutAtSlash rule)
    (hv : findVars (literalOf (pathPatternOf rule)) = loc :: locs) :
    ∃ a re, assembleVars (literalOf (pathPatternOf rule)) (loc :: locs) 0 ⟨[], [], ['^'], 0⟩ =
        .ok a ∧
      Regexp.compile (finishPattern (literalOf (pathPatternOf rule))
        ((pathPatternOf rule).getLast? == some '/') a) = .ok re ∧
      ((route.tryMatch c q).isSome ↔ route.conditions.admits c ∧
        (literalOf (pathPatternOf rule)).take loc.start <+: q ∧ re.findStringSubmatch q ≠ [] ∧
        re.numSubexp = ((loc :: locs).filter fun l => l.key != "_".toList).length) := by
  obtain ⟨route0, hp, rfl⟩ := Except.map_eq_ok.mp hc
  obtain ⟨toks, pp, hs, -, hpre, -, hcv⟩ := parse_eq_ok hp
  obtain ⟨rfl, -⟩ := splitRule_eq_ok hs hcut
  simp only [zero, suffixRule_false] at hpre hcv
  rw [hpre] at hcv
  obtain ⟨a, re, ha, hre, he, hvars, hpat⟩ := compileVars_eq_ok hcv (by simp [hv])
  rw [hv] at ha
  refine ⟨a, re, ha, hre, ?_⟩
  rw [tryMatch_isSome_of_pattern_some (show ({ route0 with handler := handler } : Route H).pattern =
    some re from hpat)]
  dsimp only
  rw [he, hvars, assembleVars_entryPrefix_first ha fun l hl => stop_pos_of_mem_findVars (hv ▸ hl),
    (assembleVars_vars ha (by simp)).2]
  simp

theorem addAll_append (r : Router H) (rules more : List (List Char × Option H)) :
    r.addAll (rules ++ more) = (r.addAll rules).addAll more := by
  simp [addAll, List.foldl_append]

/-- Later `Add` calls that leave the base path as it was never change a match. -/
theorem matchPath_addAll_append {r : Router H} {rules : List (List Char × Option H)}
    {c : CondFlags} {p : List Char} {m : Match H} (more : List (List Char × Option H))
    (h : (r.addAll rules).matchPath c p = .ok (some m))
    (hb : (r.addAll (rules ++ more)).basePath = (r.addAll rules).basePath) :
    (r.addAll (rules ++ more)).matchPath c p = .ok (some m) := by
  have hr : r.addAll (rules ++ more) =
      ⟨(r.addAll rules).basePath, (r.addAll rules).routes ++ acceptedRoutes more⟩ := by
    rw [← hb, ← addAll_routes, addAll_append]
  rw [hr]
  exact matchPath_append _ h

/-! ### The base path -/

/-- A base path as `Router.Match` expects it: empty, or starting with `/` and not ending in
`/`. -/
def BasePathNormal (b : List Char) : Prop :=
  b = [] ∨ (b.head? = some '/' ∧ b.getLast? ≠ some '/')

theorem normalizeBasePath_of_normal {b : List Char} (h : BasePathNormal b) :
    normalizeBasePath b = b := by
  rcases h with rfl | ⟨hh, hl⟩
  · rfl
  obtain ⟨t, rfl⟩ : ∃ t, b = '/' :: t := by cases b <;> simp_all
  have ht : t ≠ [] := by rintro rfl; simp at hl
  simp only [normalizeBasePath, List.cons.injEq, ht, and_false, if_false, ne_eq, not_true_eq_false]
  rw [List.rdropWhile_eq_self_iff]
  intro hne hlast
  exact hl (by simpa [List.getLast?_eq_getLast _ hne] using hlast)

/-- Trimming the trailing `/`s of a path that starts with `/` and has another character leaves a
normal base path. -/
theorem rdropWhile_slash_normal {b : List Char} (h : b.head? = some '/') :
    BasePathNormal (b.rdropWhile (· == '/')) := by
  by_cases hnil : b.rdropWhile (· == '/') = []
  · exact .inl hnil
  refine .inr ⟨?_, fun hl => ?_⟩
  · obtain ⟨t, ht⟩ := List.rdropWhile_prefix (p := (· == '/')) (l := b)
    rw [← ht] at h
    cases hb : b.rdropWhile (· == '/') with
    | nil => exact absurd hb hnil
    | cons x xs => simpa [hb] using h
  · have := List.rdropWhile_last_not (· == '/') b hnil
    rw [List.getLast?_eq_getLast _ hnil] at hl
    simp_all

theorem normalizeBasePath_normal_of_head {b : List Char} (h : b = [] ∨ b.head? = some '/') :
    BasePathNormal (normalizeBasePath b) := by
  rcases h with rfl | hh
  · exact .inl rfl
  obtain ⟨t, rfl⟩ : ∃ t, b = '/' :: t := by cases b <;> simp_all
  by_cases ht : t = []
  · subst ht; exact .inl rfl
  · simpa [normalizeBasePath, ht] using rdropWhile_slash_normal (b := '/' :: t) rfl

theorem normalizeBasePath_head (b : List Char) :
    normalizeBasePath b = [] ∨ (normalizeBasePath b).head? = some '/' := by
  match b with
  | [] => exact .inl rfl
  | c :: t =>
    by_cases h1 : c :: t = ['/']
    · simp [normalizeBasePath, h1]
    by_cases hc : c = '/'
    · subst hc
      simp only [normalizeBasePath, h1, if_false, ne_eq, not_true_eq_false]
      rcases rdropWhile_slash_normal (b := '/' :: t) rfl with h | ⟨h, -⟩
      · exact .inl h
      · exact .inr h
    · simp [normalizeBasePath, h1, hc]

/-- From the second `Add` call on, the base path is normal and no later call changes it. -/
theorem addAll_basePath_normal (r : Router H) {rules : List (List Char × Option H)}
    (h : 2 ≤ rules.length) : BasePathNormal (r.addAll rules).basePath ∧
      ∀ more, (r.addAll (rules ++ more)).basePath = (r.addAll rules).basePath := by
  obtain ⟨k, hk⟩ : ∃ k, rules.length = k + 2 := ⟨rules.length - 2, by omega⟩
  have hn : BasePathNormal (r.addAll rules).basePath := by
    rw [addAll_basePath, hk, Function.iterate_succ_apply', Function.iterate_succ_apply']
    exact normalizeBasePath_normal_of_head (normalizeBasePath_head _)
  refine ⟨hn, fun more => ?_⟩
  rw [addAll_append, addAll_basePath]
  exact Function.iterate_fixed (normalizeBasePath_of_normal hn) _

/-- With the base path `api/`, two `Add` calls leave `/api`, which later calls keep. -/
theorem addAll_basePath_normal_api :
    2 ≤ [("/x".toList, (none : Option Unit)), ("/y".toList, none)].length ∧
      BasePathNormal (Router.addAll ⟨"api/".toList, []⟩
        [("/x".toList, (none : Option Unit)), ("/y".toList, none)]).basePath ∧
      ∀ more, (Router.addAll ⟨"api/".toList, []⟩
          ([("/x".toList, (none : Option Unit)), ("/y".toList, none)] ++ more)).basePath =
        (Router.addAll ⟨"api/".toList, []⟩
          [("/x".toList, (none : Option Unit)), ("/y".toList, none)]).basePath :=
  ⟨by decide, addAll_basePath_normal _ (by decide)⟩

/-- The rule text `| /foo`: its condition clause trims to nothing, so `Parse` keeps the whole
trimmed text as the path pattern.  The route is the literal `| /foo` instead of the grammar's
`/foo`, unlike the route of `/foo`, and it never admits `/foo`. -/
theorem compileRule_bar_slash_foo :
    Route.pathPatternOf "| /foo".toList = "/foo".toList ∧
      compileRule ("| /foo".toList, (none : Option Unit)) =
        .ok ⟨0, none, [], "| /foo".toList, false, none⟩ ∧
      compileRule ("/foo".toList, (none : Option Unit)) =
        .ok ⟨0, none, [], "/foo".toList, false, none⟩ ∧
      (Router.addAll ⟨[], []⟩ [("| /foo".toList, (none : Option Unit))]).matchPath 0 "/foo".toList =
        .ok none := by
  decide

/-- With the base path `api/`, the first `Add` gives `/api/`, which ends in `/`, and the second
gives `/api`: the same request is outside the base path after one call and inside after two. -/
theorem basePath_api_after_adds :
    (Router.addAll (⟨"api/".toList, []⟩ : Router Unit) [("/x".toList, none)]).basePath =
        "/api/".toList ∧
      (Router.addAll (⟨"api/".toList, []⟩ : Router Unit) [("/x".toList, none)]).matchPath 0
        "/api".toList = .error (.outsideBasePath "/api".toList "/api/".toList) ∧
      (Router.addAll (⟨"api/".toList, []⟩ : Router Unit)
        [("/x".toList, none), ("/x".toList, none)]).basePath = "/api".toList ∧
      (Router.addAll (⟨"api/".toList, []⟩ : Router Unit)
        [("/x".toList, none), ("/x".toList, none)]).matchPath 0 "/api".toList = .ok none := by
  decide

end Router

end GoHttpd
