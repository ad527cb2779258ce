import GoHttpd.Route.Route
import GoHttpd.Regexp.Quote

/-! What `Route.Parse` makes of a path pattern of literal chunks and placeholders `{name}` with
the implicit body: the text of such a pattern (`segmentText`), the placeholders `findVars`
reports in it (`varLocs`), the expression the assembly loop builds from them (`^`, the quoted
first chunk, then `([^/]+)` and the quoted chunk after it for each placeholder, and `$` unless
the route is a prefix), and the node `regexp.Compile` reads back from that expression
(`parseSeq_patternExpr`). -/

namespace GoHttpd

open Regexp Route

/-- The placeholders of a pattern and the chunks after them, as text: `{name}` and then the
chunk, for each. -/
def placeholderText (vars : List (List Char × List Char)) : List Char :=
  vars.flatMap fun v => '{' :: v.1 ++ '}' :: v.2

/-- A path pattern made of the chunk `first` and the placeholders with their chunks. -/
def segmentText (first : List Char) (vars : List (List Char × List Char)) : List Char :=
  first ++ placeholderText vars

/-- The offsets `FindAllSubmatchIndex` reports for the placeholders of a text that has the chunk
`c` at `pos`, followed by `vars`. -/
def varLocs (pos : Nat) (c : List Char) : List (List Char × List Char) → List VarLoc
  | [] => []
  | (n, c') :: vs =>
    ⟨pos + c.length, pos + c.length + n.length + 2, n, none⟩ ::
      varLocs (pos + c.length + n.length + 2) c' vs

/-- The chunk after the last placeholder, `c` when there is none. -/
def lastChunk (c : List Char) : List (List Char × List Char) → List Char
  | [] => c
  | (_, c') :: vs => lastChunk c' vs

/-- The expression `Parse` assembles for the placeholders and the chunks after them: a group
`([^/]+)` and the quoted chunk, for each. -/
def segExpr (vars : List (List Char × List Char)) : List Char :=
  vars.flatMap fun v => "([^/]+)".toList ++ quoteMeta v.2

namespace Route

theorem findVarsFrom_nil (f pos : Nat) : findVarsFrom f [] pos = [] := by
  cases f <;> rfl

theorem matchVarAt_of_ne {x : Char} (hx : x ≠ '{') (t : List Char) : matchVarAt (x :: t) = none := by
  unfold matchVarAt
  split
  · rename_i h; cases h; exact absurd rfl hx
  · rfl

theorem matchVarAt_placeholder {n : List Char} (hn : n ≠ []) (hw : ∀ x ∈ n, isWordChar x = true)
    (s : List Char) : matchVarAt ('{' :: n ++ '}' :: s) = some (n, none, s) := by
  have ht : (n ++ '}' :: s).takeWhile isWordChar = n := by
    rw [List.takeWhile_append_of_pos hw]
    simp [isWordChar]
  have hd : (n ++ '}' :: s).dropWhile isWordChar = '}' :: s := by
    rw [dropWhile_append_of_all hw]
    simp [isWordChar]
  simp [matchVarAt, ht, hd, hn, closeBrace, isPerlSpace]

theorem findVarsFrom_chunk {c : List Char} (hc : '{' ∉ c) (s : List Char) {f : Nat}
    (hf : c.length ≤ f) (pos : Nat) :
    findVarsFrom f (c ++ s) pos = findVarsFrom (f - c.length) s (pos + c.length) := by
  induction c generalizing f pos with
  | nil => rfl
  | cons x c ih =>
    obtain ⟨f, rfl⟩ : ∃ f', f = f' + 1 := ⟨f - 1, by simp at hf; omega⟩
    have hx : x ≠ '{' := fun h => hc (h ▸ List.mem_cons_self _ _)
    rw [List.cons_append, findVarsFrom, matchVarAt_of_ne hx]
    simp only
    rw [ih (fun h => hc (List.mem_cons_of_mem _ h)) (by simp at hf; omega)]
    simp [Nat.add_assoc, Nat.add_comm 1]

theorem findVarsFrom_placeholder {n : List Char} (hn : n ≠ []) (hw : ∀ x ∈ n, isWordChar x = true)
    (s : List Char) (f pos : Nat) :
    findVarsFrom (f + 1) ('{' :: n ++ '}' :: s) pos =
      ⟨pos, pos + n.length + 2, n, none⟩ :: findVarsFrom f s (pos + n.length + 2) := by
  rw [List.cons_append, findVarsFrom, ← List.cons_append, matchVarAt_placeholder hn hw]
  have : (n ++ '}' :: s).length + 1 - s.length = n.length + 2 := by simp; omega
  simp only [this, Nat.add_assoc]

theorem placeholderText_cons (n c : List Char) (vs : List (List Char × List Char)) :
    placeholderText ((n, c) :: vs) = '{' :: (n ++ '}' :: (c ++ placeholderText vs)) := by
  simp [placeholderText]

/-- The scan of a text of chunks without `{` and placeholders named by word characters finds
exactly the placeholders. -/
theorem findVarsFrom_placeholderText :
    ∀ (vars : List (List Char × List Char)) {c : List Char} {f : Nat} (pos : Nat), '{' ∉ c →
      (∀ v ∈ vars, '{' ∉ v.2 ∧ v.1 ≠ [] ∧ ∀ x ∈ v.1, isWordChar x = true) →
      (c ++ placeholderText vars).length ≤ f →
      findVarsFrom f (c ++ placeholderText vars) pos = varLocs pos c vars
  | [], c, f, pos, hc, _, hf => by
    rw [placeholderText, List.flatMap_nil, findVarsFrom_chunk hc _ (by simpa using hf)]
    exact findVarsFrom_nil _ _
  | (n, c') :: vs, c, f, pos, hc, hvars, hf => by
    obtain ⟨hc', hn, hw⟩ : '{' ∉ c' ∧ n ≠ [] ∧ ∀ x ∈ n, isWordChar x = true :=
      hvars (n, c') (List.mem_cons_self _ _)
    have hlen : c.length + (n.length + (c' ++ placeholderText vs).length + 2) ≤ f := by
      simpa [placeholderText_cons, Nat.add_assoc, Nat.add_comm, Nat.add_left_comm] using hf
    obtain ⟨f', hf'⟩ : ∃ f', f - c.length = f' + 1 := ⟨f - c.length - 1, by omega⟩
    rw [placeholderText_cons, findVarsFrom_chunk hc _ (by omega), hf', ← List.cons_append,
      findVarsFrom_placeholder hn hw, findVarsFrom_placeholderText vs _ hc'
        (fun v hv => hvars v (List.mem_cons_of_mem _ hv)) (by omega)]
    rfl

theorem lookup_append_of_none {l₁ l₂ : List (List Char × Nat)} {k : List Char}
    (h : l₁.lookup k = none) : (l₁ ++ l₂).lookup k = l₂.lookup k := by
  induction l₁ with
  | nil => rfl
  | cons x l₁ ih =>
    obtain ⟨k', b⟩ := x
    cases hk : k == k'
    · simp only [List.cons_append, List.lookup_cons, hk] at h ⊢
      exact ih h
    · simp [List.lookup_cons, hk] at h

theorem addVar_fresh (pp : List Char) {vars : List (List Char × Nat)} {name : List Char}
    (hn : name ≠ "_".toList) (hfresh : vars.lookup name = none) (i : Nat) :
    addVar pp vars i name = .ok (vars ++ [(name, i)]) := by
  unfold addVar
  rw [if_neg hn, hfresh]
  rfl

/-- The quoted chunk before a placeholder, when the text from `plainStart` on starts with it. -/
theorem addChunk_of_drop {pp c rest : List Char} {a : Assembly}
    (h : pp.drop a.plainStart = c ++ rest) :
    addChunk pp a (a.plainStart + c.length) =
      (if c ≠ [] ∧ a.plainStart = 0 then c else a.entryPrefix, a.resultPattern ++ quoteMeta c) := by
  unfold addChunk
  rcases eq_or_ne c [] with rfl | hc
  · simp [quoteMeta]
  · rw [if_pos (by simpa using List.length_pos.mpr hc), h, Nat.add_sub_cancel_left, List.take_left]
    simp [hc]

/-- The loop over the placeholders of a pattern of chunks and placeholders with the implicit body,
named apart and not `_`, from a state whose rest of the text starts with the chunk `c`: it quotes
each chunk before a placeholder and adds the group `([^/]+)`, gives each name its position, and
stops before the last chunk. -/
theorem assembleVars_varLocs {pp : List Char} :
    ∀ (vars : List (List Char × List Char)) {c : List Char} {i : Nat} {a : Assembly},
      pp.drop a.plainStart = c ++ placeholderText vars →
      (∀ v ∈ vars, v.1 ≠ "_".toList ∧ a.vars.lookup v.1 = none) → (vars.map Prod.fst).Nodup →
      ∃ a', assembleVars pp (varLocs a.plainStart c vars) i a = .ok a' ∧
        pp.drop a'.plainStart = lastChunk c vars ∧
        a'.resultPattern ++ quoteMeta (lastChunk c vars) =
          a.resultPattern ++ quoteMeta c ++ segExpr vars ∧
        a'.vars = a.vars ++ (vars.map Prod.fst).zip (List.range' i vars.length) ∧
        a'.entryPrefix = if vars ≠ [] ∧ c ≠ [] ∧ a.plainStart = 0 then c else a.entryPrefix
  | [], c, i, a, hdrop, _, _ => ⟨a, rfl, by simpa [placeholderText] using hdrop,
      by simp [segExpr, lastChunk],
      by simp, by simp⟩
  | (n, c') :: vs, c, i, a, hdrop, hnames, hnodup => by
    obtain ⟨hblank, hfresh⟩ := hnames (n, c') (List.mem_cons_self _ _)
    rw [List.map_cons, List.nodup_cons] at hnodup
    rw [placeholderText_cons] at hdrop
    let a₁ : Assembly := ⟨if c ≠ [] ∧ a.plainStart = 0 then c else a.entryPrefix,
      a.vars ++ [(n, i)], a.resultPattern ++ quoteMeta c ++ "([^/]+)".toList,
      a.plainStart + c.length + n.length + 2⟩
    have hstep : assembleVar pp a i ⟨a.plainStart + c.length,
        a.plainStart + c.length + n.length + 2, n, none⟩ = .ok a₁ := by
      simp [assembleVar, addVar_fresh pp hblank hfresh, addChunk_of_drop hdrop, a₁, varBody,
        defaultVarPattern, Except.map]
    have hdrop₁ : pp.drop a₁.plainStart = c' ++ placeholderText vs := by
      show pp.drop (a.plainStart + c.length + n.length + 2) = _
      have hsplit : c ++ '{' :: (n ++ '}' :: (c' ++ placeholderText vs)) =
          (c ++ '{' :: n ++ ['}']) ++ (c' ++ placeholderText vs) := by simp
      rw [show a.plainStart + c.length + n.length + 2 = a.plainStart + (c.length + n.length + 2)
        by omega, ← List.drop_drop, hdrop, hsplit, List.drop_left' (by simp; omega)]
    have hnames₁ : ∀ v ∈ vs, v.1 ≠ "_".toList ∧ a₁.vars.lookup v.1 = none := fun v hv => by
      refine ⟨(hnames v (List.mem_cons_of_mem _ hv)).1, ?_⟩
      rw [lookup_append_of_none (hnames v (List.mem_cons_of_mem _ hv)).2]
      have : v.1 ≠ n := fun h =>
        hnodup.1 (show n ∈ vs.map Prod.fst from h ▸ List.mem_map_of_mem Prod.fst hv)
      simp [List.lookup_cons, beq_false_of_ne this]
    obtain ⟨a', ha', hdrop', hpat', hvars', hentry'⟩ :=
      assembleVars_varLocs vs (i := i + 1) hdrop₁ hnames₁ hnodup.2
    refine ⟨a', ?_, hdrop', ?_, ?_, ?_⟩
    · rw [varLocs, assembleVars, hstep]
      exact ha'
    · rw [lastChunk, hpat']
      simp [segExpr]
    · rw [hvars']
      simp [List.range'_succ]
    · rw [hentry', if_neg (by simp [a₁])]
      simp [a₁]

end Route

/-! ### The compiled expression -/

/-- The node `Compile` makes of `segExpr vars` after `acc`, its groups numbered from `i`. -/
def segNode (acc : Node) (i : Nat) : List (List Char × List Char) → Node
  | [] => acc
  | (_, c) :: vs => segNode (litNode (.cat acc (.capture i nonSlashPlus)) c) (i + 1) vs

/-- A prefix route's expression ends where the pattern does; any other ends in `$`. -/
def finishNode (isPrefix : Bool) (acc : Node) : Node :=
  if isPrefix then acc else .cat acc .endText

/-- The atoms of `segExpr vars`: a group and the characters of the chunk, for each
placeholder. -/
def segAtoms : List (List Char × List Char) → Nat
  | [] => 0
  | (_, c) :: vs => c.length + 1 + segAtoms vs

theorem head_segExpr_append {vars : List (List Char × List Char)} {rest : List Char}
    (h : ∀ x ∈ rest.head?, isRepeatOp x = false) :
    ∀ x ∈ (segExpr vars ++ rest).head?, isRepeatOp x = false := by
  cases vars with
  | nil => simpa [segExpr] using h
  | cons v vs => simp [segExpr, isRepeatOp]

theorem parseSeq_segExpr (f : Nat) {rest : List Char} (h : ∀ x ∈ rest.head?, isRepeatOp x = false) :
    ∀ (vars : List (List Char × List Char)) (acc : Node) (n : Nat),
      parseSeq (f + 5 + segAtoms vars) acc (segExpr vars ++ rest) n =
        parseSeq (f + 5) (segNode acc (n + 1) vars) rest (n + vars.length)
  | [], acc, n => rfl
  | (m, c) :: vs, acc, n => by
    have hsplit : segExpr ((m, c) :: vs) ++ rest =
        "([^/]+)".toList ++ (quoteMeta c ++ (segExpr vs ++ rest)) := by
      simp [segExpr]
    rw [hsplit, show f + 5 + segAtoms ((m, c) :: vs) = f + c.length + segAtoms vs + 1 + 5 by
        simp [segAtoms]; omega,
      parseSeq_group _ _ (head_quoteMeta_append (head_segExpr_append h)),
      show f + c.length + segAtoms vs + 1 + 4 = f + 4 + segAtoms vs + 1 + c.length by omega,
      parseSeq_quoteMeta _ _ _ (head_segExpr_append h),
      show f + 4 + segAtoms vs + 1 = f + 5 + segAtoms vs by omega, parseSeq_segExpr f h vs]
    simp [segNode, Nat.add_assoc, Nat.add_comm 1]

/-- The whole expression of a pattern with placeholders: `^`, the quoted first chunk, the groups
and the chunks after them, and `$` unless the route is a prefix. -/
theorem parseSeq_patternExpr (f : Nat) (first : List Char) (vars : List (List Char × List Char))
    (isPrefix : Bool) :
    parseSeq (f + 6 + first.length + segAtoms vars) .empty
        ('^' :: quoteMeta first ++ segExpr vars ++ if isPrefix then [] else ['$']) 0 =
      .ok (finishNode isPrefix (segNode (litNode (.cat .empty .beginText) first) 1 vars), [],
        vars.length) := by
  have hdollar : ∀ x ∈ (if isPrefix then [] else ['$']).head?, isRepeatOp x = false := by
    cases isPrefix <;> simp [isRepeatOp]
  simp only [List.cons_append, List.append_assoc]
  rw [show f + 6 + first.length + segAtoms vars = f + 4 + segAtoms vars + first.length + 2
      by omega,
    parseSeq_beginText _ _ (head_quoteMeta_append (head_segExpr_append hdollar)),
    show f + 4 + segAtoms vars + first.length + 1 = f + 4 + segAtoms vars + 1 + first.length
      by omega,
    parseSeq_quoteMeta _ _ _ (head_segExpr_append hdollar),
    show f + 4 + segAtoms vars + 1 = f + 5 + segAtoms vars by omega, parseSeq_segExpr f hdollar]
  cases isPrefix
  · rw [if_neg Bool.false_ne_true, show f + 5 = f + 3 + 2 from rfl, parseSeq_endText]
    simp [finishNode]
  · rw [if_pos rfl, show f + 5 = f + 4 + 1 from rfl, parseSeq_nil]
    simp [finishNode]

end GoHttpd
