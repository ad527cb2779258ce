import GoHttpd.Route.Clause

/-! The conditions of routes as sets of methods.  `CondFlags` gives each of the nine methods a
bit of its own, the `i`-th lowest for the `i`-th constant, so a clause's bits meet a request's
exactly when one of the clause's methods has a bit of the request (`condBits_and_eq_zero`), and
the bits of two methods meet only when the methods are the same (`methodBit_and_eq_zero`).
`CondFlags.String` writes the methods of a set between bars in the order of the constants, or
`*`; as the condition clause of a rule text, `Route.Parse` reads that text back as the same set,
cut to the nine method bits (`parse_render`). -/

namespace GoHttpd

/-! ### Flags bit by bit -/

theorem toBitVec_land (a b : CondFlags) : (a &&& b).toBitVec = a.toBitVec &&& b.toBitVec := rfl

theorem condFlags_eq_zero_iff (x : CondFlags) : x = 0 ↔ ∀ i, x.toBitVec.getLsbD i = false :=
  ⟨fun h i => by simp [h], fun h => UInt64.eq_of_toBitVec_eq (BitVec.eq_of_getLsbD_eq fun i => by
    simp [h])⟩

theorem toBitVec_zero_getLsbD (i : Nat) : (0 : CondFlags).toBitVec.getLsbD i = false := by
  simp [show (0 : CondFlags).toBitVec = 0#64 from rfl]

theorem zero_lor (b : CondFlags) : 0 ||| b = b :=
  UInt64.eq_of_toBitVec_eq BitVec.zero_or

theorem zero_land (b : CondFlags) : 0 &&& b = 0 :=
  UInt64.eq_of_toBitVec_eq BitVec.zero_and

theorem land_zero (b : CondFlags) : b &&& 0 = 0 :=
  UInt64.eq_of_toBitVec_eq BitVec.and_zero

/-! ### The bits of the methods -/

/-- Each method has a bit of its own. -/
theorem methodBit_ne_zero :
    ∀ t ∈ condMethods.map Prod.fst, (condMethods.lookup t).getD 0 ≠ 0 := by
  decide

theorem methodBit_and_eq_zero :
    ∀ t ∈ condMethods.map Prod.fst, ∀ t' ∈ condMethods.map Prod.fst,
    ((condMethods.lookup t).getD 0 &&& (condMethods.lookup t').getD 0 = 0 ↔ t ≠ t') := by
  decide

/-- Each method's bit is a single bit, among the nine lowest. -/
theorem methodBit_twoPow : ∀ m ∈ condMethods, ∃ k < 9, m.2.toBitVec = BitVec.twoPow 64 k := by
  decide

theorem lookup_method : ∀ m ∈ condMethods, condMethods.lookup m.1 = some m.2 := by
  decide

theorem lookup_eq_none_of_not_method {M : List Char} (hM : M ∉ condMethods.map Prod.fst) :
    condMethods.lookup M = none :=
  List.lookup_eq_none_iff.mpr fun _ hp =>
    bne_iff_ne.mpr fun he => hM (he ▸ List.mem_map_of_mem _ hp)

theorem any_methodBit : ∀ i < 64,
    condMethods.any (fun m => m.2.toBitVec.getLsbD i) = (511 : CondFlags).toBitVec.getLsbD i := by
  decide

/-- A set of flags meets a single bit exactly when it has that bit. -/
theorem land_ne_zero_of_twoPow {b : CondFlags} {k : Nat} (hk : k < 64)
    (hb : b.toBitVec = BitVec.twoPow 64 k) (fl : CondFlags) :
    fl &&& b ≠ 0 ↔ fl.toBitVec.getLsbD k = true := by
  rw [ne_eq, condFlags_eq_zero_iff]
  simp [toBitVec_land, hb, BitVec.getLsbD_twoPow, hk]

theorem eq_of_getLsbD_twoPow {b : CondFlags} {k i : Nat} (hb : b.toBitVec = BitVec.twoPow 64 k)
    (h : b.toBitVec.getLsbD i = true) : k = i := by
  simp only [hb, BitVec.getLsbD_twoPow, Bool.and_eq_true, decide_eq_true_eq] at h
  exact h.2

/-! ### The bits of a clause -/

/-- A clause's bits meet a set of flags exactly when the bit of one of its tokens does. -/
theorem condBits_and_eq_zero (toks : List (List Char)) (b : CondFlags) :
    condBits toks &&& b = 0 ↔ ∀ t ∈ toks, (condMethods.lookup t).getD 0 &&& b = 0 := by
  simp only [condFlags_eq_zero_iff, toBitVec_land, BitVec.getLsbD_and, condBits, getLsbD_foldl_or,
    toBitVec_zero_getLsbD, Bool.false_or, Bool.eq_false_iff, ne_eq, Bool.and_eq_true,
    List.any_eq_true, not_and, not_exists]
  exact ⟨fun h t ht i hp => h i ⟨t, ht, hp⟩, fun h i ⟨t, ht, hp⟩ => h t ht i hp⟩

theorem condBits_eq_zero (toks : List (List Char)) :
    condBits toks = 0 ↔ ∀ t ∈ toks, (condMethods.lookup t).getD 0 = 0 := by
  simp only [condFlags_eq_zero_iff, condBits, getLsbD_foldl_or, toBitVec_zero_getLsbD,
    Bool.false_or, Bool.eq_false_iff, ne_eq, List.any_eq_true, not_exists, not_and]
  exact ⟨fun h t ht i hp => h i t ht hp, fun h i t ht hp => h t ht i hp⟩

/-- A clause of method names has no bit exactly when it is empty. -/
theorem condBits_eq_zero_iff_nil {toks : List (List Char)}
    (h : ∀ t ∈ toks, t ∈ condMethods.map Prod.fst) : condBits toks = 0 ↔ toks = [] := by
  rw [condBits_eq_zero]
  refine ⟨fun hz => ?_, fun hnil t ht => by simp [hnil] at ht⟩
  cases toks with
  | nil => rfl
  | cons t ts =>
    have ht := List.mem_cons_self t ts
    exact absurd (hz t ht) (methodBit_ne_zero t (h t ht))

theorem mem_methods_of_addCondToken {f f' : CondFlags} {t : List Char}
    (h : addCondToken f t = .ok f') : t ∈ condMethods.map Prod.fst := by
  unfold addCondToken at h
  split at h
  · rename_i bit hbit
    obtain ⟨p, hp, hk⟩ := List.lookup_isSome_iff.mp (Option.isSome_iff_exists.mpr ⟨bit, hbit⟩)
    exact List.mem_map.mpr ⟨p, hp, (beq_iff_eq.mp hk).symm⟩
  · cases h

/-- The loop of `ParseCondFlags` succeeds only on method names. -/
theorem methods_of_foldlM_addCondToken :
    ∀ {tokens : List (List Char)} {f k : CondFlags}, tokens.foldlM addCondToken f = .ok k →
      ∀ t ∈ tokens, t ∈ condMethods.map Prod.fst
  | [], _, _, _ => by simp
  | t :: ts, f, k, h => by
    rw [List.foldlM_cons] at h
    obtain ⟨f', h1, h⟩ := Except.bind_eq_ok.mp h
    intro u hu
    rcases List.mem_cons.mp hu with rfl | hu
    · exact mem_methods_of_addCondToken h1
    · exact methods_of_foldlM_addCondToken h u hu

/-- The conditions `Parse` reads from a clause admit a request exactly when the clause has no
token or only `*`, or one of its tokens names a method whose bit the request has. -/
theorem admits_of_parseConditions {toks : List (List Char)} {k : CondFlags}
    (h : Route.parseConditions toks = .ok k) (c : CondFlags) :
    k.admits c = true ↔ toks = [] ∨ toks = ["*".toList] ∨
      ∃ t ∈ toks, ∃ bit, condMethods.lookup t = some bit ∧ bit &&& c ≠ 0 := by
  replace h : parseCondFlags toks = .ok k := Except.mapError_eq_ok.mp h
  unfold parseCondFlags at h
  split_ifs at h with hstar
  · cases h
    simp [CondFlags.admits, hstar]
  have hm := methods_of_foldlM_addCondToken h
  rw [foldlM_addCondToken hm] at h
  cases h
  change (condBits toks).admits c = true ↔ _
  simp only [CondFlags.admits, Bool.or_eq_true, decide_eq_true_eq, condBits_eq_zero_iff_nil hm,
    ne_eq, condBits_and_eq_zero, hstar, false_or, not_forall, exists_prop]
  refine or_congr_right ⟨fun ⟨t, ht, hb⟩ => ?_, fun ⟨t, ht, bit, hbit, hb⟩ => ⟨t, ht, ?_⟩⟩
  · obtain ⟨bit, hbit⟩ := Option.isSome_iff_exists.mp (lookup_methodName t (hm t ht))
    exact ⟨t, ht, bit, hbit, by rwa [hbit] at hb⟩
  · rwa [hbit]

/-! ### The text of a set of methods -/

/-- The methods `CondFlags.String` writes, in the order of the constants. -/
def renderTokens (fl : CondFlags) : List (List Char) :=
  (condMethods.filter fun m => fl &&& m.2 ≠ 0).map Prod.fst

theorem condBits_renderTokens (fl : CondFlags) : condBits (renderTokens fl) = fl &&& 511 := by
  apply UInt64.eq_of_toBitVec_eq
  apply BitVec.eq_of_getLsbD_eq
  intro i
  rw [condBits, getLsbD_foldl_or, toBitVec_zero_getLsbD, Bool.false_or, toBitVec_land,
    BitVec.getLsbD_and, ← any_methodBit i i.isLt, renderTokens]
  rw [Bool.eq_iff_iff]
  simp only [List.any_eq_true, List.mem_map, List.mem_filter, Bool.and_eq_true, decide_eq_true_eq]
  constructor
  · rintro ⟨_, ⟨m, ⟨hm, hne⟩, rfl⟩, hbit⟩
    rw [lookup_method m hm, Option.getD_some] at hbit
    obtain ⟨k, hk, hb⟩ := methodBit_twoPow m hm
    rw [land_ne_zero_of_twoPow (by omega) hb, eq_of_getLsbD_twoPow hb hbit] at hne
    exact ⟨hne, m, hm, hbit⟩
  · rintro ⟨hfl, m, hm, hbit⟩
    obtain ⟨k, hk, hb⟩ := methodBit_twoPow m hm
    refine ⟨m.1, ⟨m, ⟨hm, (land_ne_zero_of_twoPow (by omega) hb fl).mpr ?_⟩, rfl⟩, ?_⟩
    · rwa [eq_of_getLsbD_twoPow hb hbit]
    · rwa [lookup_method m hm, Option.getD_some]

/-- The clause `t₁|t₂|…` with no white space around the bars. -/
theorem clauseText_bars (first : List Char) (rest : List (List Char)) :
    clauseText first (rest.map fun t => ([], [], t)) = first ++ rest.flatMap ('|' :: ·) := by
  induction rest generalizing first with
  | nil => simp [clauseText]
  | cons t ts ih => simp [clauseText, ih]

theorem renderTokens_zero : renderTokens 0 = [] := by
  simp [renderTokens, zero_land]

theorem flatMap_renderTokens (fl : CondFlags) :
    (condMethods.filter fun m => fl &&& m.2 ≠ 0).flatMap (fun m => '|' :: m.1) =
      (renderTokens fl).flatMap ('|' :: ·) := by
  simp [renderTokens, List.flatMap_map]

/-- `CondFlags.String` writes the methods of the set, in order, between bars, and `*` for a set
with none. -/
theorem render_eq (fl : CondFlags) :
    fl.render = match renderTokens fl with
      | [] => "*".toList
      | first :: rest => clauseText first (rest.map fun t => ([], [], t)) := by
  unfold CondFlags.render
  split_ifs with h0
  · rw [h0, renderTokens_zero]
  · simp only [flatMap_renderTokens]
    cases renderTokens fl with
    | nil => rfl
    | cons t ts => simp [clauseText_bars]

/-- Two rule texts that `Parse` cuts at the same path pattern give the same route, but for the
conditions. -/
theorem parse_eq_map_conditions {H : Type} (r : Route H) {rule rule' pp : List Char}
    {toks toks' : List (List Char)} {k k' : CondFlags}
    (h : Route.splitRule rule = .ok (toks, pp)) (h' : Route.splitRule rule' = .ok (toks', pp))
    (hk : Route.parseConditions toks = .ok k) (hk' : Route.parseConditions toks' = .ok k') :
    r.parse rule = (r.parse rule').map fun route => { route with conditions := k } := by
  simp only [Route.parse, h, h', hk, hk', Except.ok_bind]
  cases Route.compileVars (Route.suffixRule r.isPrefix pp).1 (Route.suffixRule r.isPrefix pp).2 <;>
    rfl

theorem clauseOk_renderTokens {fl : CondFlags} {first : List Char} {rest : List (List Char)}
    (h : renderTokens fl = first :: rest) : ClauseOk first (rest.map fun t => ([], [], t)) where
  methods t ht := by
    have hmem : t ∈ renderTokens fl := by simpa [h, clauseTokens, Function.comp_def] using ht
    obtain ⟨m, hm, rfl⟩ := List.mem_map.mp hmem
    exact List.mem_map_of_mem _ (List.mem_filter.mp hm).1
  spaces s hs := by
    obtain ⟨t, -, rfl⟩ := List.mem_map.mp hs
    nofun

/-- The text `CondFlags.String` writes for a set of methods, as the condition clause of a rule,
is read back by `Route.Parse` as the same set: the route is the one of the path pattern alone,
with the method bits of the set as its conditions. -/
theorem parse_render {H : Type} (r : Route H) (fl : CondFlags) {sep pp : List Char}
    (hsep : ∀ c ∈ sep, c ∈ Route.condCutset) (hpp : pp.head? = some '/') :
    r.parse (fl.render ++ sep ++ pp) =
      (r.parse pp).map fun route => { route with conditions := fl &&& 511 } := by
  have hbits := condBits_renderTokens fl
  rw [render_eq]
  cases htok : renderTokens fl with
  | nil =>
    rw [htok] at hbits
    exact parse_eq_map_conditions r (splitRule_star hsep hpp) (splitRule_path hpp)
      (by rw [← hbits]; rfl) rfl
  | cons first rest =>
    have hok := clauseOk_renderTokens htok
    have htoks : clauseTokens first (rest.map fun t => ([], [], t)) = renderTokens fl := by
      simp [clauseTokens, htok, Function.comp_def]
    exact parse_eq_map_conditions r (splitRule_clauseText hok hsep hpp) (splitRule_path hpp)
      (by rw [parseConditions_clauseTokens hok, htoks, hbits]) rfl

example : (condMethodGET ||| condMethodPOST).render = "GET|POST".toList := by decide

example : ((1 : CondFlags) <<< 20).render = "*".toList := by decide

theorem parse_render_get_post :
    (∀ c ∈ " ".toList, c ∈ Route.condCutset) ∧ "/x".toList.head? = some '/' ∧
      (Route.zero : Route Unit).parse ((condMethodGET ||| condMethodPOST).render ++ " ".toList ++
          "/x".toList) =
        ((Route.zero : Route Unit).parse "/x".toList).map fun route =>
          { route with conditions := (condMethodGET ||| condMethodPOST) &&& 511 } :=
  ⟨by decide, rfl, parse_render _ _ (by decide) rfl⟩

end GoHttpd
