import Mathlib.Data.List.Basic
import GoHttpd.Route.Cond
import GoHttpd.Regexp

/-! `route/route.go`: `Route.Parse` compiles a rule text such as `GET|POST /user/{id:[0-9]+}` into
a `Route`.  The text is cut at its first `/` into a condition clause and a path pattern; a
pattern ending in `/` marks a prefix route and a final `!` is dropped.  A pattern without
placeholders is kept as the route's entry prefix.  Otherwise each placeholder `{name}` or
`{name:body}` becomes a capture group, the literal text around them is quoted, and the whole is
compiled by `regexp.Compile`.  The two fixed expressions of the file, `reSplitOR` and
`reMatchVars`, are written out as the scans that they perform. -/

namespace GoHttpd

namespace Route

open Regexp

/-! ### The condition clause -/

/-- The cutset that `Parse` trims from the condition clause, `"| \t\r\n"`. -/
def condCutset : List Char := ['|', ' ', '\t', '\r', '\n']

/-- The pieces of a clause cut at `|`, with the `\s` after a `|` dropped from the start of the
next piece and the `\s` before a `|` from the end of the one before. -/
def stripSeparators (first : Bool) : List (List Char) → List (List Char)
  | [] => []
  | p :: ps =>
    let p := if first then p else p.dropWhile isPerlSpace
    (if ps = [] then p else p.rdropWhile isPerlSpace) :: stripSeparators false ps

/-- `reSplitOR.Split(s, -1)` with ``reSplitOR = `\s*\|\s*` ``, for the non-empty clauses that
`Parse` splits: every match is a `|` with the runs of `\s` on either side of it. -/
def splitOR (s : List Char) : List (List Char) :=
  stripSeparators true (s.splitOn '|')

/-! ### Placeholders -/

/-- A match of ``reMatchVars = `\{(?P<key>\w+)(?:\:\s*(?P<value>[^\}]*)|)\s*\}` ``: the offsets
`loc[0]`, `loc[1]` of the whole match, the key, and the value, `none` when `loc[4] = -1`. -/
structure VarLoc where
  start : Nat
  stop : Nat
  key : List Char
  value : Option (List Char)
  deriving DecidableEq, Repr

/-- After the `:` of a placeholder: `\s*`, the value `[^\}]*`, and the `}` that closes it, with
the rest of the text. -/
def varValue (s : List Char) : Option (List Char × List Char) :=
  let t := s.dropWhile isPerlSpace
  match t.dropWhile (· != '}') with
  | '}' :: rest => some (t.takeWhile (· != '}'), rest)
  | _ => none

/-- The second branch of `reMatchVars` after the key: `\s*` and `}`. -/
def closeBrace (key r : List Char) : Option (List Char × Option (List Char) × List Char) :=
  match r.dropWhile isPerlSpace with
  | '}' :: rest => some (key, none, rest)
  | _ => none

/-- `reMatchVars` matched at the start of `s`: the key, the value, and the text after the match.
The key takes every word character, since none can follow it in a match; the first branch is
preferred to the empty one. -/
def matchVarAt : List Char → Option (List Char × Option (List Char) × List Char)
  | '{' :: s =>
    let key := s.takeWhile isWordChar
    let r := s.dropWhile isWordChar
    if key = [] then none
    else match r with
      | ':' :: t => match varValue t with
        | some (v, rest) => some (key, some v, rest)
        | none => closeBrace key r
      | _ => closeBrace key r
  | _ => none

/-- The matches of `reMatchVars` from offset `pos` on; each consumes text, so `fuel = s.length`
is enough. -/
def findVarsFrom : Nat → List Char → Nat → List VarLoc
  | 0, _, _ => []
  | _ + 1, [], _ => []
  | fuel + 1, c :: t, pos => match matchVarAt (c :: t) with
    | some (key, value, rest) =>
      let stop := pos + (t.length + 1 - rest.length)
      ⟨pos, stop, key, value⟩ :: findVarsFrom fuel rest stop
    | none => findVarsFrom fuel t (pos + 1)

/-- `reMatchVars.FindAllSubmatchIndex(pathPattern, -1)`. -/
def findVars (s : List Char) : List VarLoc :=
  findVarsFrom s.length s 0

end Route

/-! ### Routes -/

/-- `route.Route`.  `vars` is the Go map from names to match positions, in the order the names
were added; `handler` is the `interface{}` value, `none` for `nil`. -/
structure Route (H : Type) where
  conditions : CondFlags
  pattern : Option Regexp
  vars : List (List Char × Nat)
  entryPrefix : List Char
  isPrefix : Bool
  handler : Option H
  deriving DecidableEq, Repr

namespace Route

open Regexp

/-- `Route{}`, the zero value. -/
def zero : Route H := ⟨0, none, [], [], false, none⟩

/-- The errors of `Parse`, with the values their messages print. -/
inductive ParseError where
  /-- `invalid route pattern %q; missing leading "/" in path` -/
  | missingSlash (pattern : List Char)
  /-- `empty route pattern` -/
  | emptyPattern
  /-- `invalid condition %q`, from `ParseCondFlags` -/
  | invalidCondition (token : List Char)
  /-- `duplicate var %q in route pattern %q` -/
  | duplicateVar (name pattern : List Char)
  /-- the error of `regexp.Compile` -/
  | invalidPattern (err : SyntaxError)
  deriving DecidableEq, Repr

/-- The first part of `Parse`: the trimmed text cut at its first `/` into the tokens of the
condition clause and the path pattern.  The pattern is cut off only when the trimmed clause is
non-empty. -/
def splitRule (rule : List Char) : Except ParseError (List (List Char) × List Char) :=
  let pathPattern := trimSpace rule
  match indexByte pathPattern '/' with
  | none => .error (.missingSlash pathPattern)
  | some i =>
    let condstr := trim (pathPattern.take i) condCutset
    let (conditions, pathPattern) :=
      if condstr = [] then ([], pathPattern) else (splitOR condstr, pathPattern.drop i)
    if pathPattern = [] then .error .emptyPattern else .ok (conditions, pathPattern)

/-- `ParseCondFlags` on the tokens, with its error as a `Parse` error. -/
def parseConditions (tokens : List (List Char)) : Except ParseError CondFlags :=
  (parseCondFlags tokens).mapError fun | .invalidCondition tok => .invalidCondition tok

/-- The suffix rules: a pattern ending in `/` marks a prefix route, and a final `!` is dropped.
`isPrefix` is the route's flag before, which `Parse` only ever sets. -/
def suffixRule (isPrefix : Bool) (pathPattern : List Char) : Bool × List Char :=
  match pathPattern.getLast? with
  | some '/' => (true, pathPattern)
  | some '!' => (isPrefix, pathPattern.dropLast)
  | _ => (isPrefix, pathPattern)

/-- The implicit body of `{name}`, `[^/]+`. -/
def defaultVarPattern : List Char := "[^/]+".toList

/-- The state of the loop over the placeholders: the entry prefix, the map `Vars`, the expression
built so far, and the offset where the next literal chunk starts. -/
structure Assembly where
  entryPrefix : List Char
  vars : List (List Char × Nat)
  resultPattern : List Char
  plainStart : Nat
  deriving DecidableEq, Repr

/-- The quoted literal chunk before a placeholder at `start` added to the expression; the chunk
is the entry prefix when it starts the pattern. -/
def addChunk (pathPattern : List Char) (a : Assembly) (start : Nat) : List Char × List Char :=
  if a.plainStart < start then
    let chunk := (pathPattern.drop a.plainStart).take (start - a.plainStart)
    (if a.plainStart = 0 then chunk else a.entryPrefix, a.resultPattern ++ quoteMeta chunk)
  else (a.entryPrefix, a.resultPattern)

/-- The body of a placeholder: its value, or `defaultVarPattern` when there is none or it is
empty. -/
def varBody (value : Option (List Char)) : List Char :=
  match value with
  | some v => if v = [] then defaultVarPattern else v
  | none => defaultVarPattern

/-- `Vars` after a placeholder: `_` is left out, and a name already in the map is an error. -/
def addVar (pathPattern : List Char) (vars : List (List Char × Nat)) (varIndex : Nat)
    (name : List Char) : Except ParseError (List (List Char × Nat)) :=
  if name = "_".toList then .ok vars
  else if (vars.lookup name).isSome then .error (.duplicateVar name pathPattern)
  else .ok (vars ++ [(name, varIndex)])

/-- One turn of the loop over the placeholders: the literal chunk before it, its name in `Vars`,
and its body as a capture group. -/
def assembleVar (pathPattern : List Char) (a : Assembly) (varIndex : Nat) (loc : VarLoc) :
    Except ParseError Assembly :=
  (addVar pathPattern a.vars varIndex loc.key).map fun vars =>
    let (entryPrefix, resultPattern) := addChunk pathPattern a loc.start
    ⟨entryPrefix, vars, resultPattern ++ '(' :: varBody loc.value ++ [')'], loc.stop⟩

/-- The loop over the placeholders, `varIndex` counting them. -/
def assembleVars (pathPattern : List Char) : List VarLoc → Nat → Assembly →
    Except ParseError Assembly
  | [], _, a => pure a
  | loc :: locs, varIndex, a => do
    let a ← assembleVar pathPattern a varIndex loc
    assembleVars pathPattern locs (varIndex + 1) a

/-- After the loop: the quoted trailing chunk, and `$` unless the route is a prefix. -/
def finishPattern (pathPattern : List Char) (isPrefix : Bool) (a : Assembly) : List Char :=
  let p := if a.plainStart < pathPattern.length then
      a.resultPattern ++ quoteMeta (pathPattern.drop a.plainStart)
    else a.resultPattern
  if isPrefix then p else p ++ ['$']

/-- What `Parse` sets from the path pattern after the suffix rules: the entry prefix, `Vars`
and the compiled pattern.  Without placeholders the pattern is the entry prefix. -/
def compileVars (isPrefix : Bool) (pathPattern : List Char) :
    Except ParseError (List Char × List (List Char × Nat) × Option Regexp) :=
  match findVars pathPattern with
  | [] => .ok (pathPattern, [], none)
  | locs => do
    let a ← assembleVars pathPattern locs 0 ⟨[], [], ['^'], 0⟩
    let re ← (compile (finishPattern pathPattern isPrefix a)).mapError .invalidPattern
    pure (a.entryPrefix, a.vars, some re)

/-- `Route.Parse`, on the route `r` it updates. -/
def parse (r : Route H) (rule : List Char) : Except ParseError (Route H) := do
  let (conditions, pathPattern) ← splitRule rule
  let conds ← parseConditions conditions
  let (isPrefix, pathPattern) := suffixRule r.isPrefix pathPattern
  let (entryPrefix, vars, pattern) ← compileVars isPrefix pathPattern
  pure { r with
    conditions := conds, isPrefix := isPrefix, entryPrefix := entryPrefix, vars := vars,
    pattern := pattern }

/-! ### What `Parse` establishes -/

theorem parse_eq_ok {r route : Route H} {rule : List Char} (h : r.parse rule = .ok route) :
    ∃ toks pp, splitRule rule = .ok (toks, pp) ∧ parseConditions toks = .ok route.conditions ∧
      route.isPrefix = (suffixRule r.isPrefix pp).1 ∧ route.handler = r.handler ∧
      compileVars route.isPrefix (suffixRule r.isPrefix pp).2 =
        .ok (route.entryPrefix, route.vars, route.pattern) := by
  simp only [parse, Except.bind_eq_ok] at h
  obtain ⟨⟨toks, pp⟩, hs, f, hc, ⟨e, vars, pat⟩, hv, h⟩ := h
  cases h
  exact ⟨toks, pp, hs, hc, rfl, rfl, hv⟩

theorem compileVars_of_findVars_nil {isPrefix : Bool} {pp : List Char} (h : findVars pp = []) :
    compileVars isPrefix pp = .ok (pp, [], none) := by
  simp [compileVars, h]

theorem compileVars_eq_ok {isPrefix : Bool} {pp e : List Char} {vars : List (List Char × Nat)}
    {pattern : Option Regexp} (h : compileVars isPrefix pp = .ok (e, vars, pattern))
    (hne : findVars pp ≠ []) :
    ∃ a re, assembleVars pp (findVars pp) 0 ⟨[], [], ['^'], 0⟩ = .ok a ∧
      compile (finishPattern pp isPrefix a) = .ok re ∧ e = a.entryPrefix ∧ vars = a.vars ∧
      pattern = some re := by
  unfold compileVars at h
  split at h
  · contradiction
  · simp only [Except.bind_eq_ok, Except.mapError_eq_ok] at h
    obtain ⟨a, ha, re, hre, h⟩ := h
    cases h
    exact ⟨a, re, ha, hre, rfl, rfl, rfl⟩

theorem addVar_eq_ok {pp name : List Char} {vars vars' : List (List Char × Nat)} {i : Nat}
    (h : addVar pp vars i name = .ok vars') :
    vars' = if name = "_".toList then vars else vars ++ [(name, i)] := by
  unfold addVar at h
  split at h
  · simp_all
  · split at h
    · cases h
    · simp_all

/-- The loop over placeholders from position `i` adds to `Vars` one entry per placeholder not
named `_`, at a position below `i` plus the number of placeholders. -/
theorem assembleVars_vars {pp : List Char} :
    ∀ {locs : List VarLoc} {i : Nat} {a a' : Assembly}, assembleVars pp locs i a = .ok a' →
      (∀ v ∈ a.vars, v.2 < i) →
      (∀ v ∈ a'.vars, v.2 < i + locs.length) ∧
        a'.vars.length = a.vars.length + (locs.filter fun l => l.key != "_".toList).length
  | [], i, a, a', h, ha => by
    cases h
    exact ⟨by simpa using ha, by simp⟩
  | loc :: locs, i, a, a', h, ha => by
    simp only [assembleVars, Except.bind_eq_ok, assembleVar, Except.map_eq_ok] at h
    obtain ⟨a1, ⟨vars, hv, rfl⟩, h⟩ := h
    have hvars := addVar_eq_ok hv
    have ih := assembleVars_vars h fun v hv' => by
      rw [hvars] at hv'
      split at hv'
      · exact Nat.lt_succ_of_lt (ha v hv')
      · rcases List.mem_append.mp hv' with hv' | hv'
        · exact Nat.lt_succ_of_lt (ha v hv')
        · simp_all
    refine ⟨fun v hv' => by simpa [Nat.add_assoc, Nat.add_comm 1] using ih.1 v hv', ?_⟩
    rw [ih.2, hvars]
    split
    · simp_all [List.filter_cons]
    · simp_all [List.filter_cons]; omega

theorem compileVars_pattern_none {isPrefix : Bool} {pp e : List Char}
    {vars : List (List Char × Nat)} (h : compileVars isPrefix pp = .ok (e, vars, none)) :
    findVars pp = [] ∧ vars = [] := by
  by_cases hv : findVars pp = []
  · rw [compileVars_of_findVars_nil hv] at h
    cases h
    exact ⟨hv, rfl⟩
  · obtain ⟨_, _, _, _, _, _, h⟩ := compileVars_eq_ok h hv
    cases h

theorem addVar_eq_ok_named {pp name : List Char} {vars vars' : List (List Char × Nat)} {i : Nat}
    (h : addVar pp vars i name = .ok vars') (hn : name ≠ "_".toList) :
    vars.lookup name = none ∧ vars' = vars ++ [(name, i)] := by
  unfold addVar at h
  rw [if_neg hn] at h
  split at h
  · cases h
  · cases h
    exact ⟨Option.not_isSome_iff_eq_none.mp ‹_›, rfl⟩

/-- One turn of the loop: what it does to each field of the assembly. -/
theorem assembleVar_eq_ok {pp : List Char} {a a' : Assembly} {i : Nat} {loc : VarLoc}
    (h : assembleVar pp a i loc = .ok a') :
    addVar pp a.vars i loc.key = .ok a'.vars ∧ a'.entryPrefix = (addChunk pp a loc.start).1 ∧
      a'.plainStart = loc.stop := by
  obtain ⟨vars, hv, rfl⟩ := Except.map_eq_ok.mp h
  exact ⟨hv, rfl, rfl⟩

/-- The loop only ever appends to `Vars`. -/
theorem assembleVars_vars_grow {pp : List Char} :
    ∀ {locs : List VarLoc} {i : Nat} {a a' : Assembly}, assembleVars pp locs i a = .ok a' →
      a.vars <+: a'.vars
  | [], _, _, _, h => by cases h; exact List.prefix_refl _
  | loc :: locs, i, a, a', h => by
    obtain ⟨a1, h1, h⟩ := Except.bind_eq_ok.mp h
    refine List.IsPrefix.trans ?_ (assembleVars_vars_grow h)
    rw [addVar_eq_ok (assembleVar_eq_ok h1).1]
    split
    · exact List.prefix_refl _
    · exact List.prefix_append _ _

/-- The loop over placeholders that are all named puts the name of the `j`-th one at position
`i + j` of `Vars`, where `lookup` finds it: an earlier entry with the same name would have been a
duplicate. -/
theorem assembleVars_lookup {pp : List Char} :
    ∀ {locs : List VarLoc} {i : Nat} {a a' : Assembly}, assembleVars pp locs i a = .ok a' →
      (∀ loc ∈ locs, loc.key ≠ "_".toList) →
      ∀ j (hj : j < locs.length), a'.vars.lookup (locs.get ⟨j, hj⟩).key = some (i + j)
  | [], _, _, _, _, _, j, hj => absurd hj (Nat.not_lt_zero j)
  | loc :: locs, i, a, a', h, hn, j, hj => by
    obtain ⟨a1, h1, h⟩ := Except.bind_eq_ok.mp h
    match j, hj with
    | 0, _ =>
      obtain ⟨hnone, hvars⟩ :=
        addVar_eq_ok_named (assembleVar_eq_ok h1).1 (hn loc (List.mem_cons_self _ _))
      obtain ⟨t, ht⟩ := assembleVars_vars_grow h
      show a'.vars.lookup loc.key = some (i + 0)
      rw [← ht, hvars, List.lookup_append, List.lookup_append, hnone]
      simp
    | j + 1, hj =>
      have := assembleVars_lookup h (fun l hl => hn l (List.mem_cons_of_mem _ hl)) j
        (Nat.lt_of_succ_lt_succ hj)
      rw [List.get_cons_succ, this, Nat.add_right_comm, Nat.add_assoc]

/-! ### The offsets of the placeholders -/

theorem length_lt_of_dropWhile_eq_cons {p : α → Bool} {l rest : List α} {c : α}
    (h : l.dropWhile p = c :: rest) : rest.length < l.length := by
  have := (List.dropWhile_suffix p (l := l)).length_le
  rw [h, List.length_cons] at this
  omega

theorem varValue_length {t v rest : List Char} (h : varValue t = some (v, rest)) :
    rest.length < t.length := by
  unfold varValue at h
  dsimp only at h
  split at h
  · cases h
    rename_i rest h'
    exact Nat.lt_of_lt_of_le (length_lt_of_dropWhile_eq_cons h')
      (List.dropWhile_suffix _).length_le
  · cases h

theorem closeBrace_length {key r k rest : List Char} {v : Option (List Char)}
    (h : closeBrace key r = some (k, v, rest)) : rest.length < r.length := by
  unfold closeBrace at h
  split at h
  · cases h
    exact length_lt_of_dropWhile_eq_cons ‹_›
  · cases h

/-- A match of `reMatchVars` consumes text. -/
theorem matchVarAt_length {s key rest : List Char} {value : Option (List Char)}
    (h : matchVarAt s = some (key, value, rest)) : rest.length < s.length := by
  unfold matchVarAt at h
  split at h
  · rename_i s
    have hr : (s.dropWhile isWordChar).length ≤ s.length := (List.dropWhile_suffix _).length_le
    suffices rest.length < (s.dropWhile isWordChar).length by
      simp only [List.length_cons]
      omega
    dsimp only at h
    split at h
    · cases h
    split at h
    · rename_i t ht
      split at h
      · cases h
        rw [ht, List.length_cons]
        exact Nat.lt_succ_of_lt (varValue_length ‹_›)
      · exact closeBrace_length h
    · exact closeBrace_length h
  · cases h

/-- Every placeholder found from offset `pos` on ends after `pos`. -/
theorem lt_stop_of_mem_findVarsFrom :
    ∀ {fuel : Nat} {s : List Char} {pos : Nat} {loc : VarLoc},
      loc ∈ findVarsFrom fuel s pos → pos < loc.stop
  | 0, _, _, _, h => by simp [findVarsFrom] at h
  | _ + 1, [], _, _, h => by simp [findVarsFrom] at h
  | fuel + 1, c :: t, pos, loc, h => by
    simp only [findVarsFrom] at h
    split at h
    · rename_i key value rest hm
      have hlt := matchVarAt_length hm
      rcases List.mem_cons.mp h with rfl | h
      · simp only [List.length_cons] at hlt ⊢
        omega
      · have := lt_stop_of_mem_findVarsFrom h
        omega
    · have := lt_stop_of_mem_findVarsFrom h
      omega

theorem stop_pos_of_mem_findVars {pp : List Char} {loc : VarLoc} (h : loc ∈ findVars pp) :
    0 < loc.stop :=
  lt_stop_of_mem_findVarsFrom h

/-- After the first chunk the entry prefix is fixed. -/
theorem assembleVars_entryPrefix {pp : List Char} :
    ∀ {locs : List VarLoc} {i : Nat} {a a' : Assembly}, assembleVars pp locs i a = .ok a' →
      (∀ loc ∈ locs, 0 < loc.stop) → 0 < a.plainStart → a'.entryPrefix = a.entryPrefix
  | [], _, _, _, h, _, _ => by cases h; rfl
  | loc :: locs, i, a, a', h, hs, ha => by
    obtain ⟨a1, h1, h⟩ := Except.bind_eq_ok.mp h
    obtain ⟨-, he, hstart⟩ := assembleVar_eq_ok h1
    rw [assembleVars_entryPrefix h (fun l hl => hs l (List.mem_cons_of_mem _ hl))
      (hstart ▸ hs loc (List.mem_cons_self _ _)), he]
    unfold addChunk
    split <;> simp [Nat.pos_iff_ne_zero.mp ha]

/-- The entry prefix of a pattern with placeholders is its text before the first one. -/
theorem assembleVars_entryPrefix_first {pp : List Char} {loc : VarLoc} {locs : List VarLoc}
    {a : Assembly} (h : assembleVars pp (loc :: locs) 0 ⟨[], [], ['^'], 0⟩ = .ok a)
    (hs : ∀ l ∈ loc :: locs, 0 < l.stop) : a.entryPrefix = pp.take loc.start := by
  obtain ⟨a1, h1, h⟩ := Except.bind_eq_ok.mp h
  obtain ⟨-, he, hstart⟩ := assembleVar_eq_ok h1
  rw [assembleVars_entryPrefix h (fun l hl => hs l (List.mem_cons_of_mem _ hl))
    (hstart ▸ hs loc (List.mem_cons_self _ _)), he]
  unfold addChunk
  split
  · simp
  · simp_all

/-- The placeholders of a rule text as `Parse` finds them, in its pattern after the suffix rules
of the zero route. -/
def placeholders (rule : List Char) : List VarLoc :=
  match splitRule rule with
  | .ok (_, pp) => findVars (suffixRule false pp).2
  | .error _ => []

/-! ### The grammar's reading of a rule text -/

/-- The condition clause of a rule text as the grammar reads it: the trimmed text before its
first `/`. -/
def conditionClause (rule : List Char) : List Char :=
  (trimSpace rule).takeWhile (· != '/')

/-- The path pattern of a rule text as the grammar reads it: the trimmed text from its first `/`
on. -/
def pathPatternOf (rule : List Char) : List Char :=
  (trimSpace rule).dropWhile (· != '/')

/-- `Parse` cuts the path pattern off at the first `/` when the trimmed text starts with `/`, or
when its condition clause keeps a character after `Trim` with `condCutset`. -/
def CutAtSlash (rule : List Char) : Prop :=
  conditionClause rule = [] ∨ ∃ c ∈ conditionClause rule, c ∉ condCutset

/-- The literal of a path pattern: the pattern with one trailing `!` removed. -/
def literalOf (pp : List Char) : List Char :=
  if pp.getLast? = some '!' then pp.dropLast else pp

/-- For a rule text cut at its first `/`, the pattern `Parse` works on is the grammar's path
pattern, which starts with `/`. -/
theorem splitRule_eq_ok {rule pp : List Char} {toks : List (List Char)}
    (h : splitRule rule = .ok (toks, pp)) (hcut : CutAtSlash rule) :
    pp = pathPatternOf rule ∧ pp.head? = some '/' := by
  unfold splitRule at h
  dsimp only at h
  split at h
  · cases h
  · rename_i i hi
    obtain ⟨htake, hdrop⟩ := take_drop_of_indexByte hi
    have hpp : pp = (trimSpace rule).drop i := by
      split at h
      · rename_i hc
        have hnil : conditionClause rule = [] := by
          refine hcut.resolve_right fun ⟨c, hc', hcut'⟩ => hcut' ?_
          rw [conditionClause, ← htake] at hc'
          exact trim_eq_nil_iff.mp hc c hc'
        have hi0 : i = 0 ∨ trimSpace rule = [] := by
          simpa [conditionClause, ← htake] using hnil
        split at h
        · cases h
        · cases h
          rcases hi0 with rfl | h0
          · rfl
          · simp [h0]
      · split at h
        · cases h
        · cases h; rfl
    refine ⟨hpp.trans hdrop, ?_⟩
    rw [hpp, List.head?_drop]
    exact (indexByte_eq_some hi).1

theorem literalOf_ne_nil {pp : List Char} (h : pp.head? = some '/') : literalOf pp ≠ [] := by
  obtain ⟨t, rfl⟩ : ∃ t, pp = '/' :: t := by
    cases pp <;> simp_all
  unfold literalOf
  split
  · rename_i hlast
    cases t with
    | nil => simp at hlast
    | cons _ _ => simp
  · simp

/-- The suffix rules on the zero route: a prefix exactly when the pattern ends in `/`, and the
literal of the pattern. -/
theorem suffixRule_false (pp : List Char) :
    suffixRule false pp = (pp.getLast? == some '/', literalOf pp) := by
  unfold suffixRule literalOf
  split <;> simp_all

end Route

end GoHttpd
