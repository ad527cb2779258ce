import GoHttpd.Route.Router

/-! The condition clause of a rule text, `GET|POST /path`: `Parse` cuts the text at its first `/`,
trims `|` and whitespace from the clause, splits it at the matches of ``reSplitOR =
`\s*\|\s*` `` and folds the tokens into a bit set with `ParseCondFlags`.  For a clause of method
names separated by `|` with whitespace of `\s` around it, the tokens are exactly the names, and
the bit set is the bitwise OR of their bits, which depends only on the set of names.  So two
such clauses that name the same methods give the same route, as do `*` and no clause at all
(`parse_clause_same_methods`).  Whitespace outside `\s`, such as `\v`, stays in a token and is
an invalid condition (`parse_clause_vertical_tab`). -/

namespace GoHttpd

/-! ### The bit set of a list of method names -/

/-- The bitwise OR of the bits of the methods that `tokens` name. -/
def condBits (tokens : List (List Char)) : CondFlags :=
  tokens.foldl (fun f t => f ||| (condMethods.lookup t).getD 0) 0

/-- Every method name is a non-empty run of capital letters: no `/`, no `|`, no whitespace of
either kind, and nothing of the cutset of the condition clause. -/
theorem methodName_chars : ∀ t ∈ condMethods.map Prod.fst, t ≠ [] ∧ ∀ c ∈ t,
    c ≠ '/' ∧ c ≠ '|' ∧ isSpace c = false ∧ isPerlSpace c = false ∧ c ∉ Route.condCutset := by
  decide

theorem lookup_methodName : ∀ t ∈ condMethods.map Prod.fst, (condMethods.lookup t).isSome := by
  decide

/-- The loop of `ParseCondFlags` over method names never fails and ors in their bits. -/
theorem foldlM_addCondToken {tokens : List (List Char)}
    (h : ∀ t ∈ tokens, t ∈ condMethods.map Prod.fst) (f : CondFlags) :
    tokens.foldlM addCondToken f =
      .ok (tokens.foldl (fun f t => f ||| (condMethods.lookup t).getD 0) f) := by
  induction tokens generalizing f with
  | nil => rfl
  | cons t ts ih =>
    obtain ⟨bit, hbit⟩ := Option.isSome_iff_exists.mp
      (lookup_methodName t (h t (List.mem_cons_self _ _)))
    rw [List.foldlM_cons, addCondToken, hbit, Except.ok_bind,
      ih (fun u hu => h u (List.mem_cons_of_mem _ hu))]
    simp [hbit]

theorem toBitVec_lor (a b : CondFlags) : (a ||| b).toBitVec = a.toBitVec ||| b.toBitVec := rfl

/-- Bit `i` of an or-fold is set when it is set in the start value or in the bits of a token. -/
theorem getLsbD_foldl_or (g : List Char → CondFlags) (tokens : List (List Char))
    (f : CondFlags) (i : Nat) :
    (tokens.foldl (fun f t => f ||| g t) f).toBitVec.getLsbD i =
      (f.toBitVec.getLsbD i || tokens.any fun t => (g t).toBitVec.getLsbD i) := by
  induction tokens generalizing f with
  | nil => simp
  | cons t ts ih =>
    rw [List.foldl_cons, ih, toBitVec_lor, BitVec.getLsbD_or, List.any_cons, Bool.or_assoc]

/-- An or-fold depends only on the set of the tokens, not on their order or repetitions. -/
theorem foldl_or_congr (g : List Char → CondFlags) {ts ts' : List (List Char)}
    (h : ∀ t, t ∈ ts ↔ t ∈ ts') (f : CondFlags) :
    ts.foldl (fun f t => f ||| g t) f = ts'.foldl (fun f t => f ||| g t) f := by
  apply UInt64.eq_of_toBitVec_eq
  ext i
  have hany : (ts.any fun t => (g t).toBitVec.getLsbD i) =
      ts'.any fun t => (g t).toBitVec.getLsbD i := by
    rw [Bool.eq_iff_iff, List.any_eq_true, List.any_eq_true]
    exact exists_congr fun t => and_congr_left' (h t)
  rw [getLsbD_foldl_or, getLsbD_foldl_or, hany]

/-- `ParseCondFlags` of method names is the OR of their bits. -/
theorem parseCondFlags_methods {tokens : List (List Char)}
    (h : ∀ t ∈ tokens, t ∈ condMethods.map Prod.fst) :
    parseCondFlags tokens = .ok (condBits tokens) := by
  have hstar : tokens ≠ ["*".toList] := by
    rintro rfl
    exact absurd (h _ (List.mem_singleton_self _)) (by decide)
  rw [parseCondFlags, if_neg hstar, foldlM_addCondToken h]
  rfl

/-! ### The clause as a rule text writes it -/

/-- A condition clause: the first token, then for each further token the whitespace before the
`|`, the whitespace after it, and the token. -/
def clauseText (first : List Char) : List (List Char × List Char × List Char) → List Char
  | [] => first
  | (w, w', t) :: rest => first ++ w ++ '|' :: w' ++ clauseText t rest

/-- The tokens of a clause. -/
def clauseTokens (first : List Char) (rest : List (List Char × List Char × List Char)) :
    List (List Char) :=
  first :: rest.map (·.2.2)

section Clause

variable {first : List Char} {rest : List (List Char × List Char × List Char)}

/-- The hypotheses on a clause: its tokens are method names, and the whitespace around every
`|` is of `\s`. -/
structure ClauseOk (first : List Char) (rest : List (List Char × List Char × List Char)) :
    Prop where
  methods : ∀ t ∈ clauseTokens first rest, t ∈ condMethods.map Prod.fst
  spaces : ∀ s ∈ rest, ∀ c ∈ s.1 ++ s.2.1, isPerlSpace c = true

theorem ClauseOk.tail {w w' t : List Char} (h : ClauseOk first ((w, w', t) :: rest)) :
    ClauseOk t rest :=
  ⟨fun u hu => h.methods u (List.mem_cons_of_mem _ (by simpa [clauseTokens] using hu)),
    fun s hs => h.spaces s (List.mem_cons_of_mem _ hs)⟩

theorem ClauseOk.chars (h : ClauseOk first rest) :
    first ≠ [] ∧ ∀ c ∈ first, c ≠ '/' ∧ c ≠ '|' ∧ isSpace c = false ∧ isPerlSpace c = false ∧
      c ∉ Route.condCutset :=
  methodName_chars first (h.methods first (List.mem_cons_self _ _))

/-- A clause starts with a letter of its first token, whatever follows the token. -/
theorem ClauseOk.head_not_space (h : ClauseOk first rest) (ys : List Char) :
    ∀ c ∈ (first ++ ys).head?, isPerlSpace c = false := by
  obtain ⟨hne, hc⟩ := h.chars
  obtain ⟨a, as, rfl⟩ := List.exists_cons_of_ne_nil hne
  rintro c ⟨⟩
  exact (hc a (List.mem_cons_self _ _)).2.2.2.1

theorem ne_bar_of_isPerlSpace {c : Char} (h : isPerlSpace c = true) : c ≠ '|' := by
  rintro rfl
  exact absurd h (by decide)

/-- No `|` in a token, nor in the `\s` before it. -/
theorem ClauseOk.no_bar_after (h : ClauseOk first rest) {pre : List Char}
    (hpre : ∀ c ∈ pre, isPerlSpace c = true) : ∀ c ∈ pre ++ first, c ≠ '|' := by
  intro c hc
  rcases List.mem_append.mp hc with hc | hc
  · exact ne_bar_of_isPerlSpace (hpre c hc)
  · exact (h.chars.2 c hc).2.1

/-- The first piece that `stripSeparators` keeps: the `\s` in front of it goes, except in the
first piece, which has none. -/
theorem strip_head (b : Bool) {pre x : List Char} (hpre : ∀ c ∈ pre, isPerlSpace c = true)
    (hb : b = true → pre = []) (hx : ∀ c ∈ x.head?, isPerlSpace c = false) :
    (if b then pre ++ x else (pre ++ x).dropWhile isPerlSpace) = x := by
  cases b with
  | true => rw [if_pos rfl, hb rfl, List.nil_append]
  | false => rw [if_neg Bool.false_ne_true, dropWhile_append_of_all hpre, dropWhile_of_head hx]

/-- Cut at `|` and stripped of the `\s` around each `|`, a clause gives back its tokens; the
`\s` in front of it, if any, is stripped too. -/
theorem stripSeparators_clauseText (h : ClauseOk first rest) (b : Bool) (pre : List Char)
    (hpre : ∀ c ∈ pre, isPerlSpace c = true) (hb : b = true → pre = []) :
    Route.stripSeparators b ((pre ++ clauseText first rest).splitOn '|') =
      clauseTokens first rest := by
  induction rest generalizing first b pre with
  | nil =>
    have hx := h.head_not_space []
    rw [List.append_nil] at hx
    rw [clauseText, splitOn_of_forall_ne (h.no_bar_after hpre), Route.stripSeparators,
      strip_head b hpre hb hx, if_pos rfl, Route.stripSeparators]
    rfl
  | cons s rest ih =>
    obtain ⟨w, w', t⟩ := s
    have hw : ∀ c ∈ w, isPerlSpace c = true := fun c hc =>
      h.spaces _ (List.mem_cons_self _ _) c (List.mem_append_left _ hc)
    have hw' : ∀ c ∈ w', isPerlSpace c = true := fun c hc =>
      h.spaces _ (List.mem_cons_self _ _) c (List.mem_append_right _ hc)
    have hsplit : (pre ++ clauseText first ((w, w', t) :: rest)).splitOn '|' =
        (pre ++ (first ++ w)) :: (w' ++ clauseText t rest).splitOn '|' := by
      simp only [clauseText, List.append_assoc, List.cons_append]
      rw [← List.append_assoc first w, ← List.append_assoc pre (first ++ w)]
      refine splitOn_append_cons (fun c hc => ?_) _
      rw [← List.append_assoc] at hc
      rcases List.mem_append.mp hc with hc | hc
      · exact h.no_bar_after hpre c hc
      · exact ne_bar_of_isPerlSpace (hw c hc)
    have hlast : ∀ c ∈ first.getLast?, isPerlSpace c = false := fun c hc =>
      (h.chars.2 c (List.mem_of_mem_getLast? hc)).2.2.2.1
    rw [hsplit, Route.stripSeparators, strip_head b hpre hb (h.head_not_space w),
      if_neg (splitOn_ne_nil _ _), ih h.tail false w' hw' nofun,
      rdropWhile_append_of_all hlast hw]
    rfl

/-- `reSplitOR.Split` of a clause gives back its tokens. -/
theorem splitOR_clauseText (h : ClauseOk first rest) :
    Route.splitOR (clauseText first rest) = clauseTokens first rest :=
  stripSeparators_clauseText h true [] nofun (fun _ => rfl)

theorem ClauseOk.text_ne_nil (h : ClauseOk first rest) : clauseText first rest ≠ [] := by
  cases rest with
  | nil => exact h.chars.1
  | cons s rest => simp [clauseText, h.chars.1]

/-- A clause starts with its first token. -/
theorem ClauseOk.text_head (h : ClauseOk first rest) :
    (clauseText first rest).head? = first.head? := by
  cases rest with
  | nil => rfl
  | cons s rest =>
    obtain ⟨w, w', t⟩ := s
    rw [clauseText, List.append_assoc, List.append_assoc, List.head?_append_of_ne_nil _ h.chars.1]

/-- A clause ends with a letter of its last token. -/
theorem ClauseOk.text_getLast (h : ClauseOk first rest) :
    ∀ c ∈ (clauseText first rest).getLast?, c ∉ Route.condCutset := by
  induction rest generalizing first with
  | nil => exact fun c hc => (h.chars.2 c (List.mem_of_mem_getLast? hc)).2.2.2.2
  | cons s rest ih =>
    obtain ⟨w, w', t⟩ := s
    intro c hc
    rw [clauseText, List.getLast?_append_of_ne_nil _ h.tail.text_ne_nil] at hc
    exact ih h.tail c hc

/-- A clause has no `/`: its tokens are method names and its separators `|` and `\s`. -/
theorem ClauseOk.slash_not_mem (h : ClauseOk first rest) : '/' ∉ clauseText first rest := by
  induction rest generalizing first with
  | nil => exact fun hs => (h.chars.2 _ hs).1 rfl
  | cons s rest ih =>
    obtain ⟨w, w', t⟩ := s
    have hsp : '/' ∉ w ++ w' := fun hs => absurd (h.spaces _ (List.mem_cons_self _ _) _ hs)
      (by decide)
    simp only [clauseText, List.mem_append, List.mem_cons]
    rintro (((hs | hs) | hs | hs) | hs)
    · exact (h.chars.2 _ hs).1 rfl
    · exact hsp (List.mem_append_left _ hs)
    · exact absurd hs (by decide)
    · exact hsp (List.mem_append_right _ hs)
    · exact ih h.tail hs

/-- `Parse` cuts a rule text `clause sep pp` after the clause: `Trim` leaves the clause, which
starts and ends with a character outside the cutset, and the path pattern is `pp` without the
space at its end. -/
theorem splitRule_clause {cl sep pp : List Char} (hne : cl ≠ [])
    (hhead : ∀ c ∈ cl.head?, isSpace c = false ∧ c ∉ Route.condCutset)
    (hlast : ∀ c ∈ cl.getLast?, c ∉ Route.condCutset) (hslash : '/' ∉ cl)
    (hsep : ∀ c ∈ sep, c ∈ Route.condCutset) (hpp : pp.head? = some '/') :
    Route.splitRule (cl ++ sep ++ pp) = .ok (Route.splitOR cl, trimSpace pp) := by
  have htp : (trimSpace pp).head? = some '/' := trimSpace_of_head hpp (by decide)
  have htp' : trimSpace pp ≠ [] := fun hnil => by simp [hnil] at htp
  have hcl : cl ++ sep ≠ [] := List.append_ne_nil_of_left_ne_nil hne _
  have hhead' : ∀ c ∈ (cl ++ sep).head?, isSpace c = false ∧ c ∉ Route.condCutset := by
    rwa [List.head?_append_of_ne_nil _ hne]
  have hnoslash : '/' ∉ cl ++ sep := fun hs =>
    (List.mem_append.mp hs).elim hslash fun hs => absurd (hsep _ hs) (by decide)
  have htrim : trimSpace (cl ++ sep ++ pp) = cl ++ sep ++ trimSpace pp := by
    refine trimSpace_append (fun hnil => by simp [hnil] at hpp) (fun c hc => ?_)
      fun c hc => by rw [hpp] at hc; cases hc; decide
    rw [List.head?_append_of_ne_nil _ hcl] at hc
    exact (hhead' c hc).1
  have hcut : trim (cl ++ sep) Route.condCutset = cl := by
    rw [trim, dropWhile_of_head fun c hc => by simpa using (hhead' c hc).2,
      rdropWhile_append_of_all (fun c hc => by simpa using hlast c hc) (by simpa using hsep)]
  simp only [Route.splitRule, htrim, indexByte_append_of_head hnoslash htp, List.take_left,
    List.drop_left, hcut, if_neg hne, if_neg htp']

theorem splitRule_clauseText (h : ClauseOk first rest) {sep pp : List Char}
    (hsep : ∀ c ∈ sep, c ∈ Route.condCutset) (hpp : pp.head? = some '/') :
    Route.splitRule (clauseText first rest ++ sep ++ pp) =
      .ok (clauseTokens first rest, trimSpace pp) := by
  have hhead : ∀ c ∈ (clauseText first rest).head?, isSpace c = false ∧ c ∉ Route.condCutset := by
    intro c hc
    rw [h.text_head] at hc
    obtain ⟨-, -, hspace, -, hcut⟩ := h.chars.2 c (List.mem_of_mem_head? hc)
    exact ⟨hspace, hcut⟩
  rw [splitRule_clause h.text_ne_nil hhead h.text_getLast h.slash_not_mem hsep hpp,
    splitOR_clauseText h]

theorem splitRule_star {sep pp : List Char} (hsep : ∀ c ∈ sep, c ∈ Route.condCutset)
    (hpp : pp.head? = some '/') :
    Route.splitRule ("*".toList ++ sep ++ pp) = .ok (["*".toList], trimSpace pp) :=
  splitRule_clause (by decide) (by decide) (by decide) (by decide) hsep hpp

/-- A rule text with no clause is cut before its first `/`. -/
theorem splitRule_path {pp : List Char} (hpp : pp.head? = some '/') :
    Route.splitRule pp = .ok ([], trimSpace pp) := by
  have htp : (trimSpace pp).head? = some '/' := trimSpace_of_head hpp (by decide)
  have htp' : trimSpace pp ≠ [] := fun hnil => by simp [hnil] at htp
  have hidx : indexByte (trimSpace pp) '/' = some 0 :=
    @indexByte_append_of_head [] _ _ (List.not_mem_nil _) htp
  simp [Route.splitRule, hidx, trim, htp']

theorem parseConditions_clauseTokens (h : ClauseOk first rest) :
    Route.parseConditions (clauseTokens first rest) = .ok (condBits (clauseTokens first rest)) := by
  rw [Route.parseConditions, parseCondFlags_methods h.methods]
  rfl

/-- Two rule texts that `Parse` cuts at the same path pattern, with conditions that fold into the
same bit set, give the same route. -/
theorem parse_eq_of_splitRule {H : Type} (r : Route H) {rule rule' pp : List Char}
    {toks toks' : List (List Char)} {f : CondFlags}
    (h : Route.splitRule rule = .ok (toks, pp)) (h' : Route.splitRule rule' = .ok (toks', pp))
    (hf : Route.parseConditions toks = .ok f) (hf' : Route.parseConditions toks' = .ok f) :
    r.parse rule = r.parse rule' := by
  simp only [Route.parse, h, h', hf, hf', Except.ok_bind]

/-- Two clauses that name the same methods, in any order, with repetitions and with any `\s`
around their `|`, give the same route for every path pattern, and so do `*` and no clause; the
route's conditions are the OR of the methods' bits, and `Add` installs the same route. -/
theorem parse_clause_same_methods {H : Type} (r : Route H) {pp : List Char}
    (hpp : pp.head? = some '/') {first' sep sep' : List Char}
    {rest' : List (List Char × List Char × List Char)}
    (h : ClauseOk first rest) (h' : ClauseOk first' rest')
    (hsame : ∀ t, t ∈ clauseTokens first rest ↔ t ∈ clauseTokens first' rest')
    (hsep : ∀ c ∈ sep, c ∈ Route.condCutset) (hsep' : ∀ c ∈ sep', c ∈ Route.condCutset) :
    r.parse (clauseText first rest ++ sep ++ pp) =
      r.parse (clauseText first' rest' ++ sep' ++ pp) ∧
    r.parse ("*".toList ++ sep ++ pp) = r.parse pp ∧
    (∀ route, r.parse (clauseText first rest ++ sep ++ pp) = .ok route →
      route.conditions = condBits (clauseTokens first rest)) ∧
    ∀ (rt : Router H) (handler : Option H),
      rt.add (clauseText first rest ++ sep ++ pp) handler =
        rt.add (clauseText first' rest' ++ sep' ++ pp) handler ∧
      rt.add ("*".toList ++ sep ++ pp) handler = rt.add pp handler := by
  have hbits : condBits (clauseTokens first rest) = condBits (clauseTokens first' rest') :=
    foldl_or_congr _ hsame 0
  have hclause (r : Route H) := parse_eq_of_splitRule r (splitRule_clauseText h hsep hpp)
    (splitRule_clauseText h' hsep' hpp) (parseConditions_clauseTokens h)
    (hbits ▸ parseConditions_clauseTokens h')
  have hstar (r : Route H) := parse_eq_of_splitRule r (f := 0) (splitRule_star hsep hpp)
    (splitRule_path hpp) rfl rfl
  refine ⟨hclause r, hstar r, fun route hr => ?_, fun rt handler => ⟨?_, ?_⟩⟩
  · obtain ⟨toks, pp', hs, hc, -⟩ := Route.parse_eq_ok hr
    rw [splitRule_clauseText h hsep hpp] at hs
    cases hs
    rw [parseConditions_clauseTokens h] at hc
    exact (Except.ok.inj hc).symm
  · simp only [Router.add, hclause]
  · simp only [Router.add, hstar]

/-- `GET | POST` and `POST|GET|\tGET` before `/x`, cut off by a space and by a tab and a space. -/
theorem parse_clause_get_post :
    ClauseOk "GET".toList [(" ".toList, " ".toList, "POST".toList)] ∧
    ClauseOk "POST".toList [([], [], "GET".toList), ([], "\t".toList, "GET".toList)] ∧
    (Route.zero : Route Unit).parse
        (clauseText "GET".toList [(" ".toList, " ".toList, "POST".toList)] ++ " ".toList ++
          "/x".toList) =
      (Route.zero : Route Unit).parse
        (clauseText "POST".toList [([], [], "GET".toList), ([], "\t".toList, "GET".toList)] ++
          "\t ".toList ++ "/x".toList) ∧
    (Route.zero : Route Unit).parse ("*".toList ++ " ".toList ++ "/x".toList) =
      (Route.zero : Route Unit).parse "/x".toList := by
  have h1 : ClauseOk "GET".toList [(" ".toList, " ".toList, "POST".toList)] :=
    ⟨by decide, by decide⟩
  have h2 : ClauseOk "POST".toList [([], [], "GET".toList), ([], "\t".toList, "GET".toList)] :=
    ⟨by decide, by decide⟩
  have hpp : "/x".toList.head? = some '/' := rfl
  have hs1 : ∀ c ∈ " ".toList, c ∈ Route.condCutset := by decide
  have hs2 : ∀ c ∈ "\t ".toList, c ∈ Route.condCutset := by decide
  have hsame := parse_clause_same_methods (Route.zero : Route Unit) hpp h1 h2
    (fun t => by simp only [clauseTokens, List.map, List.mem_cons]; tauto) hs1 hs2
  exact ⟨h1, h2, hsame.1, hsame.2.1⟩

/-- A vertical tab is white space to `unicode.IsSpace` but not to `\s`: next to a `|` it stays in
the token, which then names no method, so `GET|\vGET` is rejected where `GET` is accepted. -/
theorem parse_clause_vertical_tab :
    isSpace '\x0b' = true ∧ isPerlSpace '\x0b' = false ∧
    (Route.zero : Route Unit).parse "GET|\x0bGET /x".toList =
      .error (.invalidCondition "\x0bGET".toList) ∧
    ((Route.zero : Route Unit).parse "GET /x".toList).toOption.isSome := by
  decide

end Clause

end GoHttpd
