import GoHttpd.Route.Router

/-! `route/match.go`: the accessors of a `Match`.  `Vars` and `Var` index the captured values by
the positions in the route's `Vars`, and an index out of range is Go's run-time panic.
`Router.Match` accepts a regular-expression match only when it has one submatch
per name in `Vars` besides the whole match; a route whose placeholders are all named therefore
gets one value per placeholder, no position points past them, and `Var` of the `j`-th name reads
group `j + 1` of the route's pattern, since `Parse` gives the `j`-th name the position `j`. -/

namespace GoHttpd

namespace Match

/-- `Match.Values`. -/
def valuesOf (m : Match H) : List (List Char) :=
  m.values.getD []

/-- `Match.Vars`: every name of the route's `Vars` with the value at its position. -/
def vars (m : Match H) : Except Panic (List (List Char × List Char)) :=
  m.route.vars.mapM fun v => (v.1, ·) <$> goIndex (m.values.getD []) v.2

/-- `Match.Var`: the value of a name of the route's `Vars`, or else the first fallback, or the
empty string. -/
def var (m : Match H) (name : List Char) (fallback : List (List Char)) :
    Except Panic (List Char) :=
  match m.route.vars.lookup name, m.values with
  | some i, some values => goIndex values i
  | _, _ => .ok (fallback.headD [])

theorem mapM_goIndex_ok (values : List (List Char)) :
    ∀ vs : List (List Char × Nat), (∀ v ∈ vs, v.2 < values.length) →
      ∃ kv, vs.mapM (fun v => (v.1, ·) <$> goIndex values v.2) = .ok kv
  | [], _ => ⟨[], rfl⟩
  | v :: vs, h => by
    obtain ⟨kv, hkv⟩ := mapM_goIndex_ok values vs fun w hw => h w (List.mem_cons_of_mem _ hw)
    rw [List.mapM_cons, goIndex_of_lt (h v (List.mem_cons_self _ _)), hkv]
    exact ⟨_, rfl⟩

/-- When every position of the route's `Vars` is below the number of values, `Vars` and `Var`
never panic. -/
theorem vars_var_ok {m : Match H} (h : ∀ v ∈ m.route.vars, v.2 < m.valuesOf.length) :
    (∃ kv, m.vars = .ok kv) ∧ ∀ name fallback, ∃ s, m.var name fallback = .ok s := by
  refine ⟨mapM_goIndex_ok _ _ h, fun name fallback => ?_⟩
  unfold var
  split
  · rename_i i values hi hv
    obtain ⟨l₁, l₂, hl, -⟩ := List.lookup_eq_some_iff.mp hi
    have := h (name, i) (by simp [hl])
    simp only [valuesOf, hv, Option.getD_some] at this
    exact ⟨_, goIndex_of_lt this⟩
  · exact ⟨_, rfl⟩

end Match

open Route Router

/-- The value `Var` reads for the `j`-th name of a route's `Vars`: the submatch after the whole
match at `j`, which is group `j + 1` of the pattern. -/
theorem var_of_lookup {m : Match H} {re : Regexp} {name : List Char} {j : Nat}
    (hv : m.values = some (re.findStringSubmatch m.path).tail)
    (hlook : m.route.vars.lookup name = some j)
    (hj : j < (re.findStringSubmatch m.path).tail.length) (fallback : List (List Char)) :
    m.var name fallback = .ok ((re.findStringSubmatch m.path).getD (j + 1) []) := by
  rw [Match.var, hlook, hv]
  dsimp only
  have hj' : j + 1 < (re.findStringSubmatch m.path).length := by
    rw [List.length_tail] at hj
    omega
  simp [goIndex_of_lt hj, List.getElem?_eq_getElem hj']

/-- A route whose placeholders are all named gets one value per placeholder from a match, every
position in its `Vars` is below their number, and `Var` of the `j`-th placeholder's name reads
group `j + 1` of its pattern. -/
theorem tryMatch_values_cover {rule : List Char} {handler : Option H} {route : Route H}
    {c : CondFlags} {q : List Char} {m : Match H}
    (hc : compileRule (rule, handler) = .ok route)
    (hnamed : ∀ loc ∈ placeholders rule, loc.key ≠ "_".toList) (h : route.tryMatch c q = some m) :
    m.valuesOf.length = (placeholders rule).length ∧
      (∀ v ∈ m.route.vars, v.2 < m.valuesOf.length) ∧
      ∀ j (hj : j < (placeholders rule).length) fallback, ∃ re, m.route.pattern = some re ∧
        m.var ((placeholders rule).get ⟨j, hj⟩).key fallback =
          .ok ((re.findStringSubmatch m.path).getD (j + 1) []) := by
  obtain ⟨route0, hp, rfl⟩ := Except.map_eq_ok.mp hc
  obtain ⟨toks, pp, hs, -, -, -, hcv⟩ := parse_eq_ok hp
  have hph : placeholders rule = findVars (suffixRule false pp).2 := by
    simp [placeholders, hs]
  simp only [zero] at hcv
  rw [hph] at hnamed ⊢
  rcases Route.tryMatch_eq_some h with ⟨hpat, rfl⟩ | ⟨re, hpat, hlen, rfl⟩
  · obtain ⟨hv, hvars⟩ := compileVars_pattern_none (hpat ▸ hcv)
    simp [Match.valuesOf, hv, hvars]
  · replace hpat : route0.pattern = some re := hpat
    have hne : findVars (suffixRule false pp).2 ≠ [] := fun hv => by
      rw [compileVars_of_findVars_nil hv] at hcv
      simp [hpat] at hcv
    obtain ⟨a, -, ha, -, -, hvars, -⟩ := compileVars_eq_ok hcv hne
    have hinv := assembleVars_vars ha (by simp)
    have hall : ((findVars (suffixRule false pp).2).filter fun l => l.key != "_".toList) =
        findVars (suffixRule false pp).2 :=
      List.filter_eq_self.mpr fun loc hloc => by simpa using hnamed loc hloc
    have hlen' : (re.findStringSubmatch q).tail.length = (findVars (suffixRule false pp).2).length := by
      rw [List.length_tail, hlen, hvars, hinv.2, hall]
      simp
    refine ⟨by simpa [Match.valuesOf] using hlen', fun v hv => ?_, fun j hj fallback => ⟨re, hpat, ?_⟩⟩
    · have hv' : v ∈ a.vars := hvars ▸ hv
      simpa [Match.valuesOf, hlen'] using hinv.1 v hv'
    · refine var_of_lookup rfl ?_ (hlen' ▸ hj) fallback
      show route0.vars.lookup _ = some j
      rw [hvars, assembleVars_lookup ha hnamed j hj, Nat.zero_add]

/-- A match from a router whose rule texts use no syntax the model of `regexp.Compile` leaves out
and whose accepted rules name all their placeholders holds one value per placeholder of the rule
that gave it, and `Var` of the `j`-th placeholder's name is the text of
group `j + 1` of the route's pattern; every position in its route's `Vars` is a valid index, and
`Vars` and `Var` never panic. -/
theorem matchPath_values_cover (B : List Char) (rules : List (List Char × Option H))
    (c : CondFlags) (p : List Char) (m : Match H)
    (hrules : ∀ rule ∈ rules, refusedAsUnsupported rule = false ∧
      ((compileRule rule).toOption.isSome → ∀ loc ∈ placeholders rule.1, loc.key ≠ "_".toList))
    (h : (Router.addAll ⟨B, []⟩ rules).matchPath c p = .ok (some m)) :
    (∃ rule ∈ rules, compileRule rule = .ok m.route ∧
        m.valuesOf.length = (placeholders rule.1).length ∧
        ∀ j (hj : j < (placeholders rule.1).length) fallback, ∃ re, m.route.pattern = some re ∧
          m.var ((placeholders rule.1).get ⟨j, hj⟩).key fallback =
            .ok ((re.findStringSubmatch m.path).getD (j + 1) [])) ∧
      (∀ v ∈ m.route.vars, v.2 < m.valuesOf.length) ∧
      (∃ kv, m.vars = .ok kv) ∧ ∀ name fallback, ∃ s, m.var name fallback = .ok s := by
  rw [matchPath_eq, addAll_routes] at h
  split at h
  · cases h
  simp only [Except.ok.injEq, List.nil_append] at h
  obtain ⟨route, hroute, hmatch⟩ := List.exists_of_findSome?_eq_some h
  obtain ⟨rule, hrule, hc⟩ : ∃ rule ∈ rules, compileRule rule = .ok route := by
    obtain ⟨rule, hrule, hc⟩ := List.mem_filterMap.mp hroute
    refine ⟨rule, hrule, ?_⟩
    cases hr : compileRule rule <;> simp_all [Except.toOption]
  obtain ⟨hlen, hpos, hvar⟩ :=
    tryMatch_values_cover hc ((hrules rule hrule).2 (by simp [hc, Except.toOption])) hmatch
  rw [tryMatch_route hmatch] at hpos hvar ⊢
  exact ⟨⟨rule, hrule, hc, hlen, hvar⟩, hpos, Match.vars_var_ok (by rwa [tryMatch_route hmatch])⟩

theorem matchPath_values_cover_user :
    let rules := [("/user/\x7bid\x7d".toList, (none : Option Unit))]
    ∃ m, (∀ rule ∈ rules, refusedAsUnsupported rule = false ∧
        ((compileRule rule).toOption.isSome → ∀ loc ∈ placeholders rule.1, loc.key ≠ "_".toList)) ∧
      (Router.addAll ⟨[], []⟩ rules).matchPath 0 "/user/7".toList = .ok (some m) ∧
      (∃ rule ∈ rules, compileRule rule = .ok m.route ∧
        m.valuesOf.length = (placeholders rule.1).length ∧
        ∀ j (hj : j < (placeholders rule.1).length) fallback, ∃ re, m.route.pattern = some re ∧
          m.var ((placeholders rule.1).get ⟨j, hj⟩).key fallback =
            .ok ((re.findStringSubmatch m.path).getD (j + 1) [])) ∧
      (∀ v ∈ m.route.vars, v.2 < m.valuesOf.length) ∧
      (∃ kv, m.vars = .ok kv) ∧ ∀ name fallback, ∃ s, m.var name fallback = .ok s := by
  intro rules
  have hrules : ∀ rule ∈ rules, refusedAsUnsupported rule = false ∧
      ((compileRule rule).toOption.isSome → ∀ loc ∈ placeholders rule.1, loc.key ≠ "_".toList) := by
    decide
  have hsome : ∃ m, ((Router.addAll ⟨[], []⟩ rules).matchPath 0 "/user/7".toList).toOption =
      some (some m) := by
    cases h : ((Router.addAll ⟨[], []⟩ rules).matchPath 0 "/user/7".toList).toOption with
    | none => exact absurd h (by decide)
    | some o => cases o with
      | none => exact absurd h (by decide)
      | some m => exact ⟨m, rfl⟩
  obtain ⟨m, hm⟩ := hsome
  have h : (Router.addAll ⟨[], []⟩ rules).matchPath 0 "/user/7".toList = .ok (some m) := by
    revert hm
    cases (Router.addAll ⟨[], []⟩ rules).matchPath 0 "/user/7".toList <;> simp [Except.toOption]
  exact ⟨m, hrules, h, matchPath_values_cover [] rules 0 _ m hrules h⟩

/-- The custom bodies of `/{a:?:x}{b:(y)}` make the groups `(?:x)` and `((y))`: on `/xy` the
values are `y` and `y`, and `Var("a")` is `y`, the text of the group of `b`, although the body of
`a` matched `x`. -/
theorem matchPath_shifted_captures :
    ((Router.addAll ⟨[], []⟩ [("/\x7ba:?:x\x7d\x7bb:(y)\x7d".toList, (none : Option Unit))]).matchPath
        0 "/xy".toList).map (Option.map fun m => (m.valuesOf, m.var "a".toList [])) =
      .ok (some (["y".toList, "y".toList], .ok "y".toList)) := by
  decide

end GoHttpd
