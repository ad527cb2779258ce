import GoHttpd.Route.Methods
import GoHttpd.Route.Segments
import GoHttpd.Transaction

/-! How a route table dispatches a request.  `Router.Match` of package `route`, on a router built
by `Add` calls from any rule texts, returns the match of the first accepted rule whose route
admits the request: by the methods its clause names, and by the literal of its pattern or the
expression assembled from it (`Router.matchPath_first_admitting`).

`Router.Match` of `httpd` reads the request's method into a set of conditions with
`ParseCondFlags`, which is the method's own bit, and none for a token that names no method
(`methodFlags_eq`).  A rule of the table is a pattern of segments after a clause of method names,
or with none; `Add` compiles it to the pattern's route with the OR of the methods' bits as its
conditions.  Since each method has a bit of its own, the route admits a request exactly when its
clause names the request's method, or there is no clause (`admits_methodFlags`).  So
`Router.Match` dispatches as `firstMatch`, the first rule in order that admits the method and
whose pattern matches, and afterwards `RouteVar` and `RoutePath` read that rule's values and the
path below the base path; a rule with a nil handler panics in the type assertion after the match
is recorded (`routerMatch_rules`). -/

namespace GoHttpd

/-- The conditions of a request with method `M`: the bit of `M`, and none for a token that names no
method, `*` included. -/
theorem methodFlags_eq (M : List Char) : methodFlags M = (condMethods.lookup M).getD 0 := by
  unfold methodFlags parseCondFlags
  split_ifs with hM
  · cases hM
    rfl
  · simp only [List.foldlM_cons, List.foldlM_nil, addCondToken]
    cases condMethods.lookup M
    · rfl
    · exact zero_lor _

/-- A clause of method names admits a request exactly when it names the request's method; no
clause admits every request. -/
theorem admits_methodFlags {toks : List (List Char)}
    (h : ∀ t ∈ toks, t ∈ condMethods.map Prod.fst) (M : List Char) :
    (condBits toks).admits (methodFlags M) = true ↔ toks = [] ∨ M ∈ toks := by
  have hand : condBits toks &&& methodFlags M = 0 ↔ M ∉ toks := by
    rw [condBits_and_eq_zero, methodFlags_eq]
    by_cases hM : M ∈ condMethods.map Prod.fst
    · exact ⟨fun hz hm => (methodBit_and_eq_zero M (h M hm) M hM).mp (hz M hm) rfl,
        fun hn t ht => (methodBit_and_eq_zero t (h t ht) M hM).mpr fun he => hn (he ▸ ht)⟩
    · rw [lookup_eq_none_of_not_method hM]
      exact ⟨fun _ hm => hM (h M hm), fun _ t _ => land_zero _⟩
  simp only [CondFlags.admits, Bool.or_eq_true, decide_eq_true_eq, condBits_eq_zero_iff_nil h, ne_eq,
    hand, not_not]

/-! ### `Router.Match` on any rule texts -/

namespace Router

open Route

/-- `Router.Match` on a router built by `Add` calls from the base path `B`, for rule texts whose
expressions use no syntax the model of `regexp.Compile` leaves out: an error exactly when the
base path is not a prefix of the path, and otherwise the match of the first accepted rule that
admits the request, rejected rules playing no part.  A route admits the request's methods when
its clause has no token or only `*`, or names a method with a bit of the request.  A rule cut at
its first `/` admits a path by its pattern: without placeholders by the literal of the pattern,
so that a pattern ending in `/!` is exact; with placeholders when the path starts with the
pattern's text before the first one and the expression assembled from the pattern matches it with
one group per named placeholder.  Rules added later never change a match as long as they leave
the base path as it was. -/
theorem matchPath_first_admitting :
    (∀ (B : List Char) (rules : List (List Char × Option H)) (c : CondFlags) (p : List Char),
      (∀ rule ∈ rules, refusedAsUnsupported rule = false) →
      (Router.addAll ⟨B, []⟩ rules).matchPath c p =
        let b := (Router.addAll ⟨B, []⟩ rules).basePath
        if b ≠ [] ∧ ¬b <+: p then .error (.outsideBasePath p b)
        else .ok ((acceptedRoutes rules).findSome? (·.tryMatch c (p.drop b.length)))) ∧
    (∀ (rule : List Char) (handler : Option H) (route : Route H) (c : CondFlags),
      compileRule (rule, handler) = .ok route →
      ∃ toks pp, splitRule rule = .ok (toks, pp) ∧
        (route.conditions.admits c = true ↔ toks = [] ∨ toks = ["*".toList] ∨
          ∃ t ∈ toks, ∃ bit, condMethods.lookup t = some bit ∧ bit &&& c ≠ 0)) ∧
    (∀ (rule : List Char) (handler : Option H) (route : Route H) (c : CondFlags) (q : List Char),
      compileRule (rule, handler) = .ok route → CutAtSlash rule →
      findVars (literalOf (pathPatternOf rule)) = [] →
      ((route.tryMatch c q).isSome ↔
        route.conditions.admits c ∧ LiteralAdmits (pathPatternOf rule) q)) ∧
    (∀ (rule : List Char) (handler : Option H) (route : Route H) (c : CondFlags) (q : List Char)
      (loc : VarLoc) (locs : List VarLoc),
      compileRule (rule, handler) = .ok route → CutAtSlash rule →
      findVars (literalOf (pathPatternOf rule)) = loc :: locs →
      ∃ a re, assembleVars (literalOf (pathPatternOf rule)) (loc :: locs) 0
          ⟨[], [], ['^'], 0⟩ = .ok a ∧
        Regexp.compile (finishPattern (literalOf (pathPatternOf rule))
          ((pathPatternOf rule).getLast? == some '/') a) = .ok re ∧
        ((route.tryMatch c q).isSome ↔ route.conditions.admits c ∧
          (literalOf (pathPatternOf rule)).take loc.start <+: q ∧
          re.findStringSubmatch q ≠ [] ∧
          re.numSubexp = ((loc :: locs).filter fun l => l.key != "_".toList).length)) ∧
    (∀ (r : Router H) (rules more : List (List Char × Option H)) (c : CondFlags) (p : List Char)
      (m : Match H), (∀ rule ∈ rules ++ more, refusedAsUnsupported rule = false) →
      (r.addAll rules).matchPath c p = .ok (some m) →
      (r.addAll (rules ++ more)).basePath = (r.addAll rules).basePath →
      (r.addAll (rules ++ more)).matchPath c p = .ok (some m)) := by
  refine ⟨fun B rules c p _ => ?_, fun rule handler route c hc => ?_,
    fun _ _ _ _ _ hc hcut hv => tryMatch_literal hc hcut hv,
    fun _ _ _ _ _ _ _ hc hcut hv => tryMatch_placeholders hc hcut hv,
    fun _ _ more _ _ _ _ h hb => matchPath_addAll_append more h hb⟩
  · rw [matchPath_eq, addAll_routes]
    rfl
  · obtain ⟨toks, pp, hs, hcond⟩ := compileRule_conditions hc
    exact ⟨toks, pp, hs, admits_of_parseConditions hcond c⟩

/-- The rule `/foo/!`: its literal `/foo/` ends in `/` and is a prefix of `/foo/bar`, but the
`!` makes the route exact, so `/foo/bar` gets no match. -/
theorem matchPath_escaped_prefix :
    Route.literalOf (Route.pathPatternOf "/foo/!".toList) = "/foo/".toList ∧
      (Router.addAll ⟨[], []⟩ [("/foo/!".toList, (none : Option Unit))]).matchPath 0
        "/foo/bar".toList = .ok none := by
  decide

end Router

/-! ### Rules with a method clause -/

/-- A rule of a route table: a path pattern of segments after a clause of method names and the
separator that cuts the clause off, or with no clause; and its handler. -/
structure MethodRule (H : Type) where
  clause : Option (List Char × List (List Char × List Char × List Char))
  sep : List Char
  pattern : SegmentPattern
  handler : Option H
  clause_ok : ∀ cl ∈ clause, ClauseOk cl.1 cl.2
  sep_cut : ∀ c ∈ sep, c ∈ Route.condCutset

namespace MethodRule

variable {H : Type} (r : MethodRule H)

/-- The rule text. -/
def text : List Char :=
  match r.clause with
  | none => r.pattern.text
  | some (first, rest) => clauseText first rest ++ r.sep ++ r.pattern.text

/-- The methods the clause names; none for a rule without a clause. -/
def methods : List (List Char) :=
  match r.clause with
  | none => []
  | some (first, rest) => clauseTokens first rest

/-- The rule admits a request method when it names no method or names that one. -/
def Admits (method : List Char) : Prop := r.methods = [] ∨ method ∈ r.methods

instance (method : List Char) : Decidable (r.Admits method) :=
  inferInstanceAs (Decidable (_ ∨ _))

theorem methods_mem : ∀ t ∈ r.methods, t ∈ condMethods.map Prod.fst := by
  unfold methods
  split
  · nofun
  · rename_i first rest hcl
    exact (r.clause_ok _ hcl).methods

/-- `Add` installs the pattern's route, with the bits of the clause's methods as its
conditions. -/
theorem compileRule_text : Router.compileRule (r.text, r.handler) =
    .ok (r.pattern.route (condBits r.methods) r.handler) := by
  unfold text methods
  split
  · exact r.pattern.compileRule_text r.handler
  · rename_i first rest hcl
    have h := r.clause_ok _ hcl
    refine r.pattern.compileRule_of_splitRule ?_ (parseConditions_clauseTokens h) r.handler
    rw [splitRule_clauseText h r.sep_cut r.pattern.text_head, r.pattern.trimSpace_text]

/-- The route of the rule matches a path with values exactly when the rule admits the request's
method and its pattern matches the path with these values. -/
theorem tryMatch_valuesOf (M q : List Char) :
    ((r.pattern.route (condBits r.methods) r.handler).tryMatch (methodFlags M) q).map
        Match.valuesOf = if r.Admits M then r.pattern.match? q else none := by
  rw [SegmentPattern.tryMatch_route_valuesOf]
  by_cases hM : r.Admits M
  · rw [if_pos ((admits_methodFlags r.methods_mem M).mpr hM), if_pos hM]
  · rw [if_neg (fun h => hM ((admits_methodFlags r.methods_mem M).mp h)), if_neg hM]

end MethodRule

/-! ### Dispatch of a transaction -/

variable {W S V H : Type}

/-- What the route table means: the first rule, in the order the rules were added, that admits
the request's method and whose pattern matches the path, with the values of its placeholders. -/
def firstMatch (rules : List (MethodRule H)) (method q : List Char) :
    Option (MethodRule H × List (List Char)) :=
  rules.findSome? fun r => if r.Admits method then (r.pattern.match? q).map (r, ·) else none

/-- The first route that matches is that of the first rule of `firstMatch`. -/
theorem findSome?_tryMatch_rules (rules : List (MethodRule H)) (M q : List Char) :
    match firstMatch rules M q with
    | none => (rules.map fun r => r.pattern.route (condBits r.methods) r.handler).findSome?
        (·.tryMatch (methodFlags M) q) = none
    | some (r, values) => ∃ m, (rules.map fun r => r.pattern.route (condBits r.methods)
          r.handler).findSome? (·.tryMatch (methodFlags M) q) = some m ∧
        (r.pattern.route (condBits r.methods) r.handler).tryMatch (methodFlags M) q = some m ∧
        m.valuesOf = values := by
  induction rules with
  | nil => rfl
  | cons r rs ih =>
    have h := r.tryMatch_valuesOf M q
    simp only [firstMatch, List.map_cons, List.findSome?_cons] at ih ⊢
    cases hm : (r.pattern.route (condBits r.methods) r.handler).tryMatch (methodFlags M) q with
    | none =>
      rw [hm, Option.map_none'] at h
      split_ifs at h ⊢ with hA
      · rw [← h]
        exact ih
      · exact ih
    | some m =>
      rw [hm, Option.map_some'] at h
      split_ifs at h ⊢ with hA
      rw [← h]
      exact ⟨m, rfl, hm, rfl⟩

/-- The routes a router built from the rules holds: one per rule, none rejected. -/
theorem addAll_rules_routes (B : List Char) (rules : List (MethodRule H)) :
    (Router.addAll ⟨B, []⟩ (rules.map fun r => (r.text, r.handler))).routes =
      rules.map fun r => r.pattern.route (condBits r.methods) r.handler := by
  rw [Router.addAll_routes, List.nil_append, Router.acceptedRoutes, List.filterMap_map]
  trans rules.filterMap (some ∘ fun r => r.pattern.route (condBits r.methods) r.handler)
  · exact List.filterMap_congr fun r _ => by simp [r.compileRule_text, Except.toOption]
  · rw [List.filterMap_eq_map]

/-- `Router.Match` of package `httpd` on a router built by `Add` calls from rules of method
clauses and patterns of segments, under a normal base path: a path outside the base path is the
error and leaves the transaction as it was; otherwise the first rule that admits the request's
method and whose pattern matches the rest of the path gives its handler, or a panic of the type
assertion when its handler is nil, and in both cases `RoutePath` is that rest and `RouteVar` of
each placeholder's name is its value.  When no rule matches there is no handler and the
transaction is as it was. -/
theorem routerMatch_rules {B : List Char} (hB : Router.BasePathNormal B)
    (rules : List (MethodRule H)) {t : Transaction W S V H} {req : Request} {u : Url}
    (hreq : t.request = some req) (hurl : t.url = some u) :
    ∃ res t', routerMatch (Router.addAll ⟨B, []⟩ (rules.map fun r => (r.text, r.handler))) t =
        (res, t') ∧
      if B ≠ [] ∧ ¬B <+: u.path then res = .ok (.error (.outsideBasePath u.path B)) ∧ t' = t
      else match firstMatch rules req.method (u.path.drop B.length) with
        | none => res = .ok (.ok none) ∧ t' = t
        | some (r, values) => res = (fun h => .ok (some h)) <$> assertHandler r.handler ∧
            t' = { t with routeMatch := t'.routeMatch } ∧
            t'.routePath = .ok (u.path.drop B.length) ∧
            ∀ j (hj : j < r.pattern.vars.length), ∃ hv : j < values.length,
              t'.routeVar (r.pattern.vars[j]).1 = .ok values[j] := by
  have hbase :
      (Router.addAll ⟨B, []⟩ (rules.map fun r => (r.text, r.handler))).basePath = B := by
    rw [Router.addAll_basePath]
    exact Function.iterate_fixed (Router.normalizeBasePath_of_normal hB) _
  simp only [routerMatch, hreq, hurl, Router.matchPath_eq, hbase, addAll_rules_routes]
  split_ifs with hout
  · exact ⟨_, _, rfl, rfl, rfl⟩
  · have key := findSome?_tryMatch_rules rules req.method (u.path.drop B.length)
    cases hf : firstMatch rules req.method (u.path.drop B.length) with
    | none =>
      rw [hf] at key
      simp only [key]
      exact ⟨_, _, rfl, rfl, rfl⟩
    | some rv =>
      obtain ⟨r, values⟩ := rv
      rw [hf] at key
      obtain ⟨m, hfind, hm, hvals⟩ := key
      simp only [hfind]
      refine ⟨_, _, rfl, ?_, rfl, ?_, fun j hj => ?_⟩
      · rw [Route.tryMatch_route hm, SegmentPattern.route_handler]
      · rcases Route.tryMatch_eq_some hm with ⟨-, rfl⟩ | ⟨-, -, -, rfl⟩ <;> rfl
      · obtain ⟨hv, hvar⟩ := r.pattern.var_of_tryMatch hm j hj []
        subst hvals
        exact ⟨hv, hvar⟩

/-- The rule `GET /user/{id}/posts/{post}`, with a handler. -/
def getUserPostRule : MethodRule Unit where
  clause := some ("GET".toList, [])
  sep := " ".toList
  pattern := userPostPattern
  handler := some ()
  clause_ok := fun cl hcl => by cases hcl; exact ⟨by decide, by decide⟩
  sep_cut := by decide

example : getUserPostRule.text = "GET /user/\x7bid\x7d/posts/\x7bpost\x7d".toList := by decide

example : (firstMatch [getUserPostRule] "GET".toList "/user/7/posts/3".toList).map (·.2) =
    some ["7".toList, "3".toList] := by decide

example :
    (firstMatch [getUserPostRule] "POST".toList "/user/7/posts/3".toList).map (·.2) = none := by
  decide

/-- A transaction for `GET /api/user/7/posts/3`. -/
def getUserPostTransaction : Transaction Unit Unit Unit Unit :=
  { Transaction.zero with
    request := some ⟨"GET".toList, ⟨"/api/user/7/posts/3".toList, []⟩⟩
    url := some ⟨"/api/user/7/posts/3".toList, []⟩ }

theorem routerMatch_rules_getUserPost :
    Router.BasePathNormal "/api".toList ∧
      getUserPostTransaction.request =
        some ⟨"GET".toList, ⟨"/api/user/7/posts/3".toList, []⟩⟩ ∧
      getUserPostTransaction.url = some ⟨"/api/user/7/posts/3".toList, []⟩ ∧
      ∃ res t', routerMatch (Router.addAll ⟨"/api".toList, []⟩
          ([getUserPostRule].map fun r => (r.text, r.handler))) getUserPostTransaction =
          (res, t') ∧
        if "/api".toList ≠ [] ∧ ¬"/api".toList <+: "/api/user/7/posts/3".toList then
          res = .ok (.error (.outsideBasePath "/api/user/7/posts/3".toList "/api".toList)) ∧
            t' = getUserPostTransaction
        else match firstMatch [getUserPostRule] "GET".toList
            ("/api/user/7/posts/3".toList.drop "/api".toList.length) with
          | none => res = .ok (.ok none) ∧ t' = getUserPostTransaction
          | some (r, values) => res = (fun h => .ok (some h)) <$> assertHandler r.handler ∧
              t' = { getUserPostTransaction with routeMatch := t'.routeMatch } ∧
              t'.routePath = .ok ("/api/user/7/posts/3".toList.drop "/api".toList.length) ∧
              ∀ j (hj : j < r.pattern.vars.length), ∃ hv : j < values.length,
                t'.routeVar (r.pattern.vars[j]).1 = .ok values[j] :=
  have hB : Router.BasePathNormal "/api".toList := .inr ⟨rfl, by decide⟩
  ⟨hB, rfl, rfl, routerMatch_rules hB [getUserPostRule] (t := getUserPostTransaction) rfl rfl⟩

end GoHttpd
