import Mathlib.Data.Char
import GoHttpd.Regexp

/-! How the backtracking matcher runs the expressions that `Route.Parse` assembles: a literal, the
implicit placeholder body `[^/]+` in a capture group, and `^` at the front.  Each node kind gets
its equation for `Node.run`, so that a proof unfolds one node at a time.  A literal after the
ways of matching so far keeps the ways whose rest starts with it (`run_litNode`).  The group
`([^/]+)` has one way per prefix without `/`, the longest first; a literal that starts with `/`
after it, or `$`, keeps only the longest (`flatMap_litStep_group`, `flatMap_endText_group`).
An expression whose every way starts with `^` matches only at the start of the text, so
`FindStringSubmatch` reads the preferred way at offset `0` (`findStringSubmatch_of_anchored`). -/

namespace GoHttpd.Regexp

namespace Node

variable (total : Nat)

theorem run_cat (a b : Node) (s : List Char) (caps : Captures) :
    (Node.cat a b).run total s caps = (a.run total s caps).flatMap fun r => b.run total r.1 r.2 :=
  rfl

theorem run_capture (i : Nat) (a : Node) (s : List Char) (caps : Captures) :
    (Node.capture i a).run total s caps =
      (a.run total s caps).map fun r => (r.1, (i, s.take (s.length - r.1.length)) :: r.2) := rfl

theorem run_star (greedy : Bool) (a : Node) (s : List Char) (caps : Captures) :
    (Node.star greedy a).run total s caps = starRuns greedy (a.run total) s.length s caps := rfl

@[simp] theorem run_empty (s : List Char) (caps : Captures) :
    Node.empty.run total s caps = [(s, caps)] := rfl

@[simp] theorem run_beginText (s : List Char) (caps : Captures) :
    Node.beginText.run total s caps = if s.length = total then [(s, caps)] else [] := rfl

@[simp] theorem run_endText (s : List Char) (caps : Captures) :
    Node.endText.run total s caps = if s = [] then [(s, caps)] else [] := rfl

end Node

/-! ### Literals -/

/-- The node `Compile` makes of a literal text after `acc`: one `char` node per character. -/
def litNode (acc : Node) (w : List Char) : Node :=
  w.foldl (fun a c => .cat a (.char c)) acc

/-- A literal text after one way of matching: the way goes on when its rest starts with the
text. -/
def litStep (w : List Char) (r : List Char × Captures) : List (List Char × Captures) :=
  if w.isPrefixOf r.1 then [(r.1.drop w.length, r.2)] else []

theorem litStep_nil : litStep [] = fun r => [r] := by
  funext r
  simp [litStep]

theorem flatMap_litStep_char (total : Nat) (c : Char) (w : List Char) (r : List Char × Captures) :
    ((Node.char c).run total r.1 r.2).flatMap (litStep w) = litStep (c :: w) r := by
  obtain ⟨s, caps⟩ := r
  cases s with
  | nil => rfl
  | cons d t =>
    by_cases h : d = c
    · subst h
      simp [Node.run, litStep, List.isPrefixOf]
    · simp [Node.run, litStep, List.isPrefixOf, h, Ne.symm h]

theorem run_litNode (total : Nat) (acc : Node) (w s : List Char) (caps : Captures) :
    (litNode acc w).run total s caps = (acc.run total s caps).flatMap (litStep w) := by
  induction w generalizing acc with
  | nil => simp [litNode, litStep_nil]
  | cons c w ih =>
    rw [litNode, List.foldl_cons, ← litNode, ih, Node.run_cat, List.flatMap_assoc]
    simp only [flatMap_litStep_char]

/-! ### The implicit body `[^/]+` -/

/-- The class `[^/]`. -/
def nonSlash : Node := .cls true [('/'.toNat, '/'.toNat)]

/-- `[^/]+` as `Compile` reads it: the class, then a greedy star of it. -/
def nonSlashPlus : Node := .cat .empty (.cat nonSlash (.star true nonSlash))

/-- The rests of a text after each of its prefixes without `/`, the longest prefix first. -/
def nonSlashRests : List Char → List (List Char)
  | [] => [[]]
  | d :: t => (if d = '/' then [] else nonSlashRests t) ++ [d :: t]

theorem inRanges_slash (d : Char) : inRanges [('/'.toNat, '/'.toNat)] d = (d == '/') := by
  have hd : d.toNat = '/'.toNat ↔ d = '/' :=
    ⟨fun h => by rw [← Char.ofNat_toNat d, h, Char.ofNat_toNat], fun h => h ▸ rfl⟩
  simp only [inRanges, List.any_cons, List.any_nil, Bool.or_false]
  rw [Bool.eq_iff_iff]
  simp only [Bool.and_eq_true, decide_eq_true_eq, beq_iff_eq, ← hd]
  omega

theorem run_nonSlash (total : Nat) (d : Char) (t : List Char) (caps : Captures) :
    nonSlash.run total (d :: t) caps = if d = '/' then [] else [(t, caps)] := by
  rw [nonSlash, Node.run, inRanges_slash]
  by_cases h : d = '/' <;> simp [h]

theorem starRuns_nonSlash (total : Nat) (s : List Char) (caps : Captures) :
    starRuns true (nonSlash.run total) s.length s caps = (nonSlashRests s).map (·, caps) := by
  induction s with
  | nil => rfl
  | cons d t ih =>
    rw [List.length_cons, starRuns, run_nonSlash]
    by_cases h : d = '/'
    · simp [h, nonSlashRests]
    · simp [h, nonSlashRests, ih]

theorem run_nonSlashPlus (total : Nat) (d : Char) (t : List Char) (caps : Captures) :
    nonSlashPlus.run total (d :: t) caps = if d = '/' then [] else (nonSlashRests t).map (·, caps) := by
  rw [nonSlashPlus, Node.run_cat, Node.run_empty, List.flatMap_singleton, Node.run_cat, run_nonSlash]
  split_ifs
  · rfl
  · simp [Node.run_star, starRuns_nonSlash]

/-- After the ways of `[^/]*`, a literal that starts with `/` keeps only the longest. -/
theorem flatMap_litStep_nonSlashRests {c : List Char} (hc : c.head? = some '/')
    (g : List Char → Captures) (t : List Char) :
    ((nonSlashRests t).map fun r => (r, g r)).flatMap (litStep c) =
      litStep c (t.dropWhile (· != '/'), g (t.dropWhile (· != '/'))) := by
  obtain ⟨c', rfl⟩ : ∃ c', c = '/' :: c' := by
    cases c with
    | nil => cases hc
    | cons x c' => cases hc; exact ⟨c', rfl⟩
  induction t with
  | nil => simp [nonSlashRests]
  | cons d t ih =>
    by_cases h : d = '/'
    · subst h; simp [nonSlashRests]
    · simp [nonSlashRests, h, ih, litStep, List.isPrefixOf, Ne.symm h]

/-- After the ways of `[^/]*`, `$` keeps the one that consumed everything, if there is one. -/
theorem flatMap_endText_nonSlashRests (total : Nat) (g : List Char → Captures) (t : List Char) :
    ((nonSlashRests t).map fun r => (r, g r)).flatMap (fun r => Node.endText.run total r.1 r.2) =
      if '/' ∈ t then [] else [([], g [])] := by
  simp only [Node.run_endText]
  induction t with
  | nil => simp [nonSlashRests]
  | cons d t ih =>
    by_cases h : d = '/'
    · subst h; simp [nonSlashRests]
    · simp [nonSlashRests, h, ih, Ne.symm h]

theorem take_takeWhile_length (p : Char → Bool) (l : List Char) :
    l.take (l.takeWhile p).length = l.takeWhile p :=
  calc l.take (l.takeWhile p).length
      = (l.takeWhile p ++ l.dropWhile p).take (l.takeWhile p).length := by
        rw [List.takeWhile_append_dropWhile]
    _ = l.takeWhile p := List.take_left _ _

/-- The group `([^/]+)` followed by a literal that starts a new segment: the group takes the
longest prefix without `/`, which must not be empty, and the literal must follow it. -/
theorem flatMap_litStep_group (total i : Nat) {c : List Char} (hc : c.head? = some '/')
    (s : List Char) (caps : Captures) :
    ((Node.capture i nonSlashPlus).run total s caps).flatMap (litStep c) =
      if s.takeWhile (· != '/') ≠ [] ∧ c.isPrefixOf (s.dropWhile (· != '/')) then
        [((s.dropWhile (· != '/')).drop c.length, (i, s.takeWhile (· != '/')) :: caps)]
      else [] := by
  cases s with
  | nil => rfl
  | cons d t =>
    by_cases hd : d = '/'
    · subst hd
      simp [Node.run_capture, run_nonSlashPlus]
    · have hlen : t.length + 1 - (t.dropWhile (· != '/')).length =
          (t.takeWhile (· != '/')).length + 1 := by
        have := congrArg List.length (List.takeWhile_append_dropWhile (· != '/') t)
        rw [List.length_append] at this
        omega
      rw [Node.run_capture, run_nonSlashPlus, if_neg hd, List.map_map, Function.comp_def,
        flatMap_litStep_nonSlashRests hc, List.length_cons, hlen]
      simp [hd, litStep, take_takeWhile_length]

/-- The group `([^/]+)` followed by `$`: the whole rest, when it is not empty and has no `/`. -/
theorem flatMap_endText_group (total i : Nat) (s : List Char) (caps : Captures) :
    ((Node.capture i nonSlashPlus).run total s caps).flatMap
        (fun r => Node.endText.run total r.1 r.2) =
      if s ≠ [] ∧ '/' ∉ s then [([], (i, s) :: caps)] else [] := by
  cases s with
  | nil => rfl
  | cons d t =>
    by_cases hd : d = '/'
    · subst hd
      simp [Node.run_capture, run_nonSlashPlus]
    · rw [Node.run_capture, run_nonSlashPlus, if_neg hd, List.map_map, Function.comp_def,
        flatMap_endText_nonSlashRests]
      simp [hd, Ne.symm hd]

/-! ### Expressions anchored at the start -/

/-- When no way of matching starts after the first character, the leftmost match is the
preferred way at the start. -/
theorem leftmost_of_anchored {prog : Node} {total : Nat}
    (h : ∀ s caps, s.length < total → prog.run total s caps = []) :
    ∀ s : List Char, s.length ≤ total → leftmost prog total s =
      if s.length = total then
        (prog.run total s []).head?.map fun r => (s.take (s.length - r.1.length), r.2)
      else none
  | [], hs => by
    rcases Nat.eq_zero_or_pos total with rfl | hpos
    · simp [leftmost]
    · simp [leftmost, h [] [] hpos, Nat.ne_of_lt hpos]
  | c :: t, hs => by
    have ht := leftmost_of_anchored h t (by simp at hs; omega)
    rw [if_neg (by simp at hs ⊢; omega)] at ht
    rw [leftmost]
    split_ifs with hlen
    · cases (prog.run total (c :: t) []).head? <;> simp_all
    · rw [h _ _ (by simp at hs hlen ⊢; omega)]
      exact ht

theorem findStringSubmatch_of_anchored {re : Regexp}
    (h : ∀ s caps, s.length < total → re.prog.run total s caps = []) {q : List Char}
    (hq : q.length = total) :
    re.findStringSubmatch q = match (re.prog.run total q []).head? with
      | none => []
      | some r => q.take (q.length - r.1.length) ::
          (List.range re.numSubexp).map fun i => (r.2.lookup (i + 1)).getD [] := by
  rw [findStringSubmatch, leftmost_of_anchored (hq ▸ h) q le_rfl, if_pos rfl, hq]
  cases (re.prog.run total q []).head? <;> rfl

end GoHttpd.Regexp
