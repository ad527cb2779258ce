import GoHttpd.Regexp.Run

/-! What `regexp.Compile` makes of the pieces that `Route.Parse` assembles: a text quoted by
`QuoteMeta` is read back as one `char` node per character (`parseSeq_quoteMeta`), the group
`([^/]+)` as a capture of `nonSlashPlus` (`parseSeq_group`), and `^` and `$` as the anchors.
The parser runs on fuel; each lemma says how much fuel its piece consumes from the sequence
that reads it, and the group needs some left over for the expression inside it.  No quoted text
starts with `*`, `+` or `?`, so the atom before it is never read as repeated. -/

namespace GoHttpd.Regexp

theorem escape_special : ∀ c ∈ specialChars, ∀ t, escape (c :: t) = .ok (.char c, t) := by
  intro c hc t
  simp only [specialChars, List.mem_cons, List.mem_singleton, List.not_mem_nil, or_false] at hc
  rcases hc with rfl | rfl | rfl | rfl | rfl | rfl | rfl | rfl | rfl | rfl | rfl | rfl | rfl | rfl <;>
    rfl

theorem isRepeatOp_of_not_special {c : Char} (h : c ∉ specialChars) : isRepeatOp c = false := by
  simp only [specialChars, List.mem_cons, List.mem_singleton, not_or] at h
  simp [isRepeatOp, h]

theorem quoteMeta_singleton (c : Char) :
    quoteMeta [c] = if specialChars.contains c then ['\\', c] else [c] := by
  simp [quoteMeta]

theorem quoteMeta_cons (c : Char) (w : List Char) :
    quoteMeta (c :: w) = quoteMeta [c] ++ quoteMeta w := by
  simp [quoteMeta]

/-- A quoted text never starts with a repetition operator, as `QuoteMeta` escapes them. -/
theorem head_quoteMeta_append {w rest : List Char} (h : ∀ x ∈ rest.head?, isRepeatOp x = false) :
    ∀ x ∈ (quoteMeta w ++ rest).head?, isRepeatOp x = false := by
  cases w with
  | nil => simpa [quoteMeta] using h
  | cons c w =>
    rw [quoteMeta_cons, quoteMeta_singleton]
    split_ifs with hc
    · simp [isRepeatOp]
    · simpa using isRepeatOp_of_not_special (by simpa using hc)

/-- A character that opens no construct of the syntax is a literal atom. -/
theorem parseAtom_plain (f : Nat) {c : Char} (h : c ∉ specialChars) (rest : List Char) (n : Nat) :
    parseAtom (f + 1) (c :: rest) n = .ok (.char c, rest, n) := by
  have hr := isRepeatOp_of_not_special h
  simp only [specialChars, List.mem_cons, List.mem_singleton, not_or] at h
  obtain ⟨h1, h2, -, -, -, h6, -, -, h9, -, -, -, h13, h14⟩ := h
  unfold parseAtom
  split <;> (try injections) <;> subst_vars <;>
    first | contradiction | (rw [if_neg (by simp [hr])]; rfl)

/-- One quoted character is one atom. -/
theorem parseAtom_quote (f : Nat) (c : Char) (rest : List Char) (n : Nat) :
    parseAtom (f + 1) (quoteMeta [c] ++ rest) n = .ok (.char c, rest, n) := by
  rw [quoteMeta_singleton]
  split_ifs with h
  · simp only [List.cons_append, List.nil_append, parseAtom]
    rw [escape_special c (by simpa using h)]
    rfl
  · exact parseAtom_plain f (by simpa using h) rest n

theorem parseRepeat_of_head (a : Node) {rest : List Char}
    (h : ∀ x ∈ rest.head?, isRepeatOp x = false) : parseRepeat a rest = .ok (a, rest) := by
  cases rest with
  | nil => rfl
  | cons x t => simp [parseRepeat, h x rfl]

/-- A sequence goes on with an atom at any character but `|` and `)`. -/
theorem parseSeq_cons (f : Nat) (acc : Node) {x : Char} (s : List Char) (n : Nat)
    (hx : x ≠ '|' ∧ x ≠ ')') :
    parseSeq (f + 1) acc (x :: s) n =
      (parseAtom f (x :: s) n >>= fun (a, s, n) =>
        parseRepeat a s >>= fun (a, s) => parseSeq f (.cat acc a) s n) := by
  conv_lhs => unfold parseSeq
  split
  · rename_i h; cases h
  · rename_i h; cases h; exact absurd rfl hx.1
  · rename_i h; cases h; exact absurd rfl hx.2
  · rfl

theorem parseSeq_quote_char (f : Nat) (acc : Node) (c : Char) {rest : List Char}
    (h : ∀ x ∈ rest.head?, isRepeatOp x = false) (n : Nat) :
    parseSeq (f + 2) acc (quoteMeta [c] ++ rest) n =
      parseSeq (f + 1) (.cat acc (.char c)) rest n := by
  have hatom := parseAtom_quote f c rest n
  rw [quoteMeta_singleton] at hatom ⊢
  split_ifs at hatom ⊢ with hc
  · rw [List.cons_append, parseSeq_cons _ _ _ _ (by decide), ← List.cons_append, hatom]
    simp [parseRepeat_of_head _ h]
  · have hx : c ≠ '|' ∧ c ≠ ')' := by
      constructor <;> rintro rfl <;> simp [specialChars] at hc
    rw [List.singleton_append, parseSeq_cons _ _ _ _ hx, ← List.singleton_append, hatom]
    simp [parseRepeat_of_head _ h]

/-- A quoted text is read as its characters, one atom, and one unit of fuel, each. -/
theorem parseSeq_quoteMeta (f : Nat) (acc : Node) (w : List Char) {rest : List Char}
    (h : ∀ x ∈ rest.head?, isRepeatOp x = false) (n : Nat) :
    parseSeq (f + 1 + w.length) acc (quoteMeta w ++ rest) n =
      parseSeq (f + 1) (litNode acc w) rest n := by
  induction w generalizing acc with
  | nil => rfl
  | cons c w ih =>
    rw [quoteMeta_cons, List.append_assoc, List.length_cons, ← Nat.add_assoc,
      Nat.add_right_comm f 1, parseSeq_quote_char _ _ _ (head_quoteMeta_append h),
      Nat.add_right_comm f, ih]
    rfl

theorem parseSeq_close (f : Nat) (acc : Node) (s : List Char) (n : Nat) :
    parseSeq (f + 1) acc (')' :: s) n = .ok (acc, ')' :: s, n) := by
  unfold parseSeq
  rfl

/-- The class `[^/]`. -/
theorem parseAtom_nonSlash (f : Nat) (s : List Char) (n : Nat) :
    parseAtom (f + 1) ('[' :: '^' :: '/' :: ']' :: s) n = .ok (nonSlash, s, n) := by
  unfold parseAtom
  simp only [List.length_cons]
  simp [classItems, nonSlash]
  rfl

/-- The group `([^/]+)`: the parser descends through the alternation and the sequence inside it,
which take one unit of fuel each. -/
theorem parseAtom_group (f : Nat) (s : List Char) (n : Nat) :
    parseAtom (f + 4) ('(' :: '[' :: '^' :: '/' :: ']' :: '+' :: ')' :: s) n =
      .ok (.capture (n + 1) nonSlashPlus, s, n + 1) := by
  have hplus : parseRepeat nonSlash ('+' :: ')' :: s) =
      .ok (.cat nonSlash (.star true nonSlash), ')' :: s) := by
    simp [parseRepeat, isRepeatOp, repeatOp]
  have halt : parseAlt (f + 3) ('[' :: '^' :: '/' :: ']' :: '+' :: ')' :: s) (n + 1) =
      .ok (nonSlashPlus, ')' :: s, n + 1) := by
    rw [parseAlt, parseSeq_cons _ _ _ _ (by decide), parseAtom_nonSlash]
    simp only [Except.ok_bind, hplus]
    rw [parseSeq_close]
    rfl
  rw [show f + 4 = f + 3 + 1 from rfl]
  unfold parseAtom
  simp only [halt]
  rfl

/-- The capture group of a placeholder with the implicit body, `([^/]+)`. -/
theorem parseSeq_group (f : Nat) (acc : Node) {rest : List Char}
    (h : ∀ x ∈ rest.head?, isRepeatOp x = false) (n : Nat) :
    parseSeq (f + 5) acc ("([^/]+)".toList ++ rest) n =
      parseSeq (f + 4) (.cat acc (.capture (n + 1) nonSlashPlus)) rest (n + 1) := by
  show parseSeq (f + 4 + 1) acc ('(' :: '[' :: '^' :: '/' :: ']' :: '+' :: ')' :: rest) n = _
  rw [parseSeq_cons _ _ _ _ (by decide), parseAtom_group]
  simp only [Except.ok_bind, parseRepeat_of_head _ h]

theorem parseSeq_beginText (f : Nat) (acc : Node) {rest : List Char}
    (h : ∀ x ∈ rest.head?, isRepeatOp x = false) (n : Nat) :
    parseSeq (f + 2) acc ('^' :: rest) n = parseSeq (f + 1) (.cat acc .beginText) rest n := by
  rw [show f + 2 = f + 1 + 1 from rfl, parseSeq_cons _ _ _ _ (by decide)]
  simp [parseAtom, parseRepeat_of_head _ h]

theorem parseSeq_endText (f : Nat) (acc : Node) (n : Nat) :
    parseSeq (f + 2) acc ['$'] n = .ok (.cat acc .endText, [], n) := by
  rw [show f + 2 = f + 1 + 1 from rfl, parseSeq_cons _ _ _ _ (by decide)]
  simp [parseAtom, parseRepeat, parseSeq]
  rfl

theorem parseSeq_nil (f : Nat) (acc : Node) (n : Nat) :
    parseSeq (f + 1) acc [] n = .ok (acc, [], n) := rfl

/-- `Compile` of an expression that one sequence reads to its end. -/
theorem compile_of_parseSeq {expr : List Char} {prog : Node} {n : Nat}
    (h : parseSeq (3 * expr.length + 2) .empty expr 0 = .ok (prog, [], n)) :
    compile expr = .ok ⟨expr, prog, n⟩ := by
  simp [compile, parseAlt, h]
  rfl

end GoHttpd.Regexp
