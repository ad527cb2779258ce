import GoHttpd.Text

/-! The part of Go's `regexp` package that the router calls: `QuoteMeta`, `Compile` in Perl
syntax, `NumSubexp` and `FindStringSubmatch`.  A compiled expression is a `Node` tree.
`Node.run` lists the ways a node matches a prefix of the input, most preferred first, as a
backtracking matcher tries them: this is the leftmost-first semantics that Go documents for
`regexp`.  An iteration of a star that consumes nothing is cut, as in Go's engines.

`compile` follows `regexp/syntax` of Go 1.22 in Perl mode: literals, the escapes of
`parseEscape` (punctuation, octal, `\x`, `\a`, `\f`, `\n`, `\r`, `\t`, `\v`), `\A`, `\z`, the
Perl classes, bracketed classes with ranges, POSIX and Perl classes inside, `.`, `^`, `$`,
capturing groups, named ones (`(?P<name>` and `(?<name>`) and `(?:` groups, alternation, and `*`,
`+`, `?` with their lazy forms.  What Go reads but the model does not match is refused with
`unsupported`: the Unicode classes `\p` and `\P`, whose tables are not modelled, the word
boundaries `\b` and `\B`, the quoting `\Q...\E`, and groups of flags such as `(?i)`.  A brace
is read as a literal: the router quotes every brace of a path, and a placeholder body cannot
hold a closing brace, so no route pattern holds a repetition with a count. -/

namespace GoHttpd

namespace Regexp

/-- A node of a compiled expression. -/
inductive Node where
  | empty
  | char (c : Char)
  /-- A class given by ranges of runes, `negated` for `[^...]`. -/
  | cls (negated : Bool) (ranges : List (Nat × Nat))
  | beginText
  | endText
  | cat (a b : Node)
  | alt (a b : Node)
  | capture (index : Nat) (a : Node)
  | star (greedy : Bool) (a : Node)
  deriving DecidableEq, Repr

/-- The captures of a match so far, the latest first: a group's index and its text. -/
abbrev Captures := List (Nat × List Char)

def inRanges (ranges : List (Nat × Nat)) (c : Char) : Bool :=
  ranges.any fun r => r.1 ≤ c.toNat && c.toNat ≤ r.2

/-- The ways a star goes on from `s` when one iteration matches by `step`: each iteration
consumes input, so `fuel = s.length` iterations are enough. -/
def starRuns (greedy : Bool) (step : List Char → Captures → List (List Char × Captures)) :
    Nat → List Char → Captures → List (List Char × Captures)
  | 0, s, caps => [(s, caps)]
  | fuel + 1, s, caps =>
    let more := ((step s caps).filter fun r => r.1.length < s.length).flatMap
      fun r => starRuns greedy step fuel r.1 r.2
    if greedy then more ++ [(s, caps)] else (s, caps) :: more

/-- The ways a node matches a prefix of `s`, each with the rest of the input and the captures,
most preferred first; `total` is the length of the whole text, for `^`. -/
def Node.run (total : Nat) : Node → List Char → Captures → List (List Char × Captures)
  | .empty, s, caps => [(s, caps)]
  | .char c, s, caps => match s with
    | d :: t => if d = c then [(t, caps)] else []
    | [] => []
  | .cls negated ranges, s, caps => match s with
    | d :: t => if inRanges ranges d != negated then [(t, caps)] else []
    | [] => []
  | .beginText, s, caps => if s.length = total then [(s, caps)] else []
  | .endText, s, caps => if s = [] then [(s, caps)] else []
  | .cat a b, s, caps => (a.run total s caps).flatMap fun r => b.run total r.1 r.2
  | .alt a b, s, caps => a.run total s caps ++ b.run total s caps
  | .capture i a, s, caps =>
    (a.run total s caps).map fun r => (r.1, (i, s.take (s.length - r.1.length)) :: r.2)
  | .star greedy a, s, caps => starRuns greedy (a.run total) s.length s caps

end Regexp

/-- A compiled expression, `regexp.Regexp`: its source text, its tree, and `NumSubexp`. -/
structure Regexp where
  expr : List Char
  prog : Regexp.Node
  numSubexp : Nat
  deriving DecidableEq, Repr

namespace Regexp

/-- The leftmost match of `prog` in `s`: the matched text and the captures of the preferred way
of matching at the first start position that has one. -/
def leftmost (prog : Node) (total : Nat) : List Char → Option (List Char × Captures)
  | [] => (prog.run total [] []).head?.map fun r => ([], r.2)
  | c :: t => match (prog.run total (c :: t) []).head? with
    | some r => some ((c :: t).take (t.length + 1 - r.1.length), r.2)
    | none => leftmost prog total t

/-- `FindStringSubmatch`: no match gives the empty list (Go's `nil`); a match gives the matched
text and then one text per group, empty for a group that took no part. -/
def findStringSubmatch (re : Regexp) (s : List Char) : List (List Char) :=
  match leftmost re.prog s.length s with
  | none => []
  | some (m, caps) => m :: (List.range re.numSubexp).map fun i => (caps.lookup (i + 1)).getD []

theorem findStringSubmatch_length (re : Regexp) (s : List Char) :
    (re.findStringSubmatch s).length = 0 ∨
      (re.findStringSubmatch s).length = 1 + re.numSubexp := by
  unfold Regexp.findStringSubmatch
  split <;> simp [Nat.add_comm]

/-- The characters that `QuoteMeta` escapes. -/
def specialChars : List Char :=
  ['\\', '.', '+', '*', '?', '(', ')', '|', '[', ']', '{', '}', '^', '$']

/-- `regexp.QuoteMeta`: a backslash before every special character. -/
def quoteMeta (s : List Char) : List Char :=
  s.flatMap fun c => if specialChars.contains c then ['\\', c] else [c]

/-! ### Parsing -/

/-- The errors of `Compile` for the syntax read here, and `unsupported` for the syntax that Go's
parser reads but this model does not match: `\p` and `\P`, `\b`, `\B`, `\Q`, and groups of
flags. -/
inductive SyntaxError where
  | missingParen
  | unexpectedParen
  | missingRepeatArgument
  | invalidNestedRepeat
  | missingBracket
  | invalidCharRange
  | trailingBackslash
  | invalidEscape
  | invalidNamedCapture
  | invalidPerlOp
  | unsupported
  deriving DecidableEq, Repr

/-! The classes of `perl_groups.go`, as ranges of runes. -/

def digitRanges : List (Nat × Nat) := [(0x30, 0x39)]
def spaceRanges : List (Nat × Nat) := [(0x09, 0x0a), (0x0c, 0x0d), (0x20, 0x20)]
def wordRanges : List (Nat × Nat) := [(0x30, 0x39), (0x41, 0x5a), (0x5f, 0x5f), (0x61, 0x7a)]

/-- `perlGroup`: `\d`, `\s`, `\w` and their negations `\D`, `\S`, `\W`. -/
def perlClass : Char → Option (Bool × List (Nat × Nat))
  | 'd' => some (false, digitRanges)
  | 'D' => some (true, digitRanges)
  | 's' => some (false, spaceRanges)
  | 'S' => some (true, spaceRanges)
  | 'w' => some (false, wordRanges)
  | 'W' => some (true, wordRanges)
  | _ => none

/-- `posixGroup`: the classes `[:name:]` by name. -/
def posixGroups : List (List Char × List (Nat × Nat)) :=
  [("alnum".toList, [(0x30, 0x39), (0x41, 0x5a), (0x61, 0x7a)]),
    ("alpha".toList, [(0x41, 0x5a), (0x61, 0x7a)]),
    ("ascii".toList, [(0x00, 0x7f)]),
    ("blank".toList, [(0x09, 0x09), (0x20, 0x20)]),
    ("cntrl".toList, [(0x00, 0x1f), (0x7f, 0x7f)]),
    ("digit".toList, [(0x30, 0x39)]),
    ("graph".toList, [(0x21, 0x7e)]),
    ("lower".toList, [(0x61, 0x7a)]),
    ("print".toList, [(0x20, 0x7e)]),
    ("punct".toList, [(0x21, 0x2f), (0x3a, 0x40), (0x5b, 0x60), (0x7b, 0x7e)]),
    ("space".toList, [(0x09, 0x0d), (0x20, 0x20)]),
    ("upper".toList, [(0x41, 0x5a)]),
    ("word".toList, wordRanges),
    ("xdigit".toList, [(0x30, 0x39), (0x41, 0x46), (0x61, 0x66)])]

/-- `unicode.MaxRune`. -/
def maxRune : Nat := 0x10ffff

/-- `appendNegatedClass`: the runes up to `unicode.MaxRune` outside sorted ranges. -/
def negateRanges (rs : List (Nat × Nat)) : List (Nat × Nat) :=
  let (out, nextLo) := rs.foldl (fun (out, nextLo) r =>
    (if nextLo < r.1 then out ++ [(nextLo, r.1 - 1)] else out, r.2 + 1)) ([], 0)
  if nextLo ≤ maxRune then out ++ [(nextLo, maxRune)] else out

/-- An ASCII character that is not a letter or digit: after a backslash it stands for itself. -/
def isPunct (c : Char) : Bool :=
  c.toNat < 0x80 && !c.isAlphanum

def isOctal (c : Char) : Bool := '0' ≤ c && c ≤ '7'

/-- The octal digits of an escape after its first: up to `k` more, each taken into `r`. -/
def octalDigits : Nat → Nat → List Char → Nat × List Char
  | k + 1, r, c :: t => if isOctal c then octalDigits k (r * 8 + (c.toNat - '0'.toNat)) t else (r, c :: t)
  | _, r, t => (r, t)

/-- `unhex`. -/
def hexDigit (c : Char) : Option Nat :=
  if '0' ≤ c ∧ c ≤ '9' then some (c.toNat - '0'.toNat)
  else if 'a' ≤ c ∧ c ≤ 'f' then some (c.toNat - 'a'.toNat + 10)
  else if 'A' ≤ c ∧ c ≤ 'F' then some (c.toNat - 'A'.toNat + 10)
  else none

/-- The digits of `\x{…}` up to the closing brace, with the value `r` so far: at least one digit,
and never a value past `unicode.MaxRune`. -/
def hexBraces : List Char → Nat → Bool → Option (Nat × List Char)
  | [], _, _ => none
  | '}' :: t, r, seen => if seen then some (r, t) else none
  | c :: t, r, _ => (hexDigit c).bind fun v =>
    if maxRune < r * 16 + v then none else hexBraces t (r * 16 + v) true

/-- The digits after `\x`: two of them, or any number in braces. -/
def hexEscape : List Char → Option (Nat × List Char)
  | '{' :: t => hexBraces t 0 false
  | c :: d :: t => do
    let x ← hexDigit c
    let y ← hexDigit d
    pure (x * 16 + y, t)
  | _ => none

/-- The C escapes `\a`, `\f`, `\n`, `\r`, `\t` and `\v`. -/
def cEscape : Char → Option Nat
  | 'a' => some 7
  | 'f' => some 12
  | 'n' => some 10
  | 'r' => some 13
  | 't' => some 9
  | 'v' => some 11
  | _ => none

/-- `parseEscape` on the text after a backslash: the rune the escape stands for and the rest.  A
digit from `1` to `7` alone is a backreference, which Go refuses. -/
def parseEscape : List Char → Except SyntaxError (Nat × List Char)
  | [] => .error .trailingBackslash
  | c :: t =>
    if c = '0' ∨ ('1' ≤ c ∧ c ≤ '7' ∧ t.head?.any isOctal) then
      .ok (octalDigits 2 (c.toNat - '0'.toNat) t)
    else if c = 'x' then
      match hexEscape t with
      | some r => .ok r
      | none => .error .invalidEscape
    else match cEscape c with
      | some r => .ok (r, t)
      | none => if isPunct c then .ok (c.toNat, t) else .error .invalidEscape

/-- The one-letter names of Unicode classes, the general categories. -/
def unicodeCategoryLetters : List Char := "CLMNPSZ".toList

/-- `parseUnicodeClass` on the text after `\p` or `\P`.  The Unicode tables are not modelled: a
class that Go may find in them is `unsupported`, and a name in braces without the closing brace or
a one-letter name that is no category is `invalid character class range`. -/
def unicodeClass : List Char → SyntaxError
  | '{' :: t => if '}' ∈ t then .unsupported else .invalidCharRange
  | c :: _ => if c ∈ unicodeCategoryLetters then .unsupported else .invalidCharRange
  | [] => .invalidCharRange

/-- A literal rune: its character, or for a surrogate, which no string holds, a class that matches
nothing. -/
def runeNode (r : Nat) : Node :=
  if r.isValidChar then .char (Char.ofNat r) else .cls false [(r, r)]

/-- A backslash escape outside a class, on the text after the backslash: `\A` and `\z`, a Perl
class, or the rune of `parseEscape`. -/
def escape : List Char → Except SyntaxError (Node × List Char)
  | 'A' :: t => .ok (.beginText, t)
  | 'z' :: t => .ok (.endText, t)
  | 'b' :: _ | 'B' :: _ | 'Q' :: _ => .error .unsupported
  | 'C' :: _ => .error .invalidEscape
  | 'p' :: t | 'P' :: t => .error (unicodeClass t)
  | c :: t => match perlClass c with
    | some (negated, rs) => .ok (.cls negated rs, t)
    | none => (fun r => (runeNode r.1, r.2)) <$> parseEscape (c :: t)
  | [] => .error .trailingBackslash

/-- The text before the first `:]` of `s`, and the text after it. -/
def splitColonBracket : List Char → Option (List Char × List Char)
  | ':' :: ']' :: t => some ([], t)
  | c :: t => (splitColonBracket t).map fun r => (c :: r.1, r.2)
  | [] => none

/-- `parseNamedClass` on the text after `[:`: `none` when no `:]` follows, and else the class of
the name before it, negated by a leading `^`, or the error of an unknown name. -/
def namedClass (s : List Char) : Option (Except SyntaxError (List (Nat × Nat) × List Char)) :=
  (splitColonBracket s).map fun (name, t) =>
    let (negated, name) := match name with
      | '^' :: name => (true, name)
      | name => (false, name)
    match posixGroups.lookup name with
    | some rs => .ok (if negated then negateRanges rs else rs, t)
    | none => .error .invalidCharRange

/-- `parseClassChar`: an escape or one character. -/
def classChar : List Char → Except SyntaxError (Nat × List Char)
  | [] => .error .missingBracket
  | '\\' :: t => parseEscape t
  | c :: t => .ok (c.toNat, t)

/-- A character of a class, or a range `lo-hi` unless the `-` stands before `]`. -/
def charRange (s : List Char) : Except SyntaxError (List (Nat × Nat) × List Char) := do
  let (lo, t) ← classChar s
  match t with
  | '-' :: d :: t' =>
    if d = ']' then pure ([(lo, lo)], t)
    else do
      let (hi, t) ← classChar (d :: t')
      if hi < lo then .error .invalidCharRange else pure ([(lo, hi)], t)
  | _ => pure ([(lo, lo)], t)

/-- One item of a class: a POSIX class, a Perl class, or a character or a range. -/
def classItem (s : List Char) : Except SyntaxError (List (Nat × Nat) × List Char) :=
  match s with
  | '[' :: ':' :: t => (namedClass t).getD (charRange s)
  | '\\' :: c :: t =>
    if c = 'p' ∨ c = 'P' then .error (unicodeClass t)
    else match perlClass c with
      | some (negated, rs) => .ok (if negated then negateRanges rs else rs, t)
      | none => charRange s
  | _ => charRange s

/-- The items of a bracketed class up to its `]`, which closes the class unless it comes first.
Each item consumes text, so `fuel = s.length` is enough. -/
def classItems : Nat → Bool → List Char → Except SyntaxError (List (Nat × Nat) × List Char)
  | 0, _, _ => .error .missingBracket
  | fuel + 1, first, s =>
    if !first && s.head? == some ']' then .ok ([], s.tail)
    else do
      let (rs, t) ← classItem s
      let (rs', t) ← classItems fuel false t
      pure (rs ++ rs', t)

/-- The operator `*`, `+` or `?` applied to a node. -/
def repeatOp (op : Char) (greedy : Bool) (a : Node) : Node :=
  match op with
  | '*' => .star greedy a
  | '+' => .cat a (.star greedy a)
  | _ => if greedy then .alt a .empty else .alt .empty a

def isRepeatOp (c : Char) : Bool := c = '*' || c = '+' || c = '?'

/-- A repetition operator after an atom, with its lazy `?`; a second operator is an error. -/
def parseRepeat (a : Node) : List Char → Except SyntaxError (Node × List Char)
  | op :: s =>
    if isRepeatOp op then
      let (greedy, s) := match s with
        | '?' :: t => (false, t)
        | t => (true, t)
      match s with
      | c :: _ => if isRepeatOp c then .error .invalidNestedRepeat else .ok (repeatOp op greedy a, s)
      | [] => .ok (repeatOp op greedy a, [])
    else .ok (a, op :: s)
  | [] => .ok (a, [])

/-- The rest of the text after the name of a named group, on the text after its `<`: the name runs
to the first `>` and is a non-empty run of letters, digits and `_`. -/
def captureRest (t : List Char) : Except SyntaxError (List Char) :=
  match t.dropWhile (· != '>') with
  | '>' :: rest =>
    let name := t.takeWhile (· != '>')
    if name ≠ [] ∧ name.all (fun c => c = '_' || c.isAlphanum) then .ok rest
    else .error .invalidNamedCapture
  | _ => .error .invalidNamedCapture

/-- Whether the text after `(?` is a group of flags that `parsePerlFlags` accepts: flags among
`i`, `m`, `s`, `U`, at most one `-` followed by at least one flag, and then `:` or `)`. -/
def flagGroup (negated sawFlag : Bool) : List Char → Bool
  | [] => false
  | c :: t =>
    if c = 'i' ∨ c = 'm' ∨ c = 's' ∨ c = 'U' then flagGroup negated true t
    else if c = '-' then !negated && flagGroup true false t
    else if c = ':' ∨ c = ')' then !negated || sawFlag
    else false

/-- The kind of group that opens after a `(`, on the text after it: a capture, `(?P<name>` or
`(?<name>` as a capture too, or `(?:`, each with the text of its expression; any other `(?` is a
group of flags, which the model does not read, or an error. -/
def openGroup : List Char → Except SyntaxError (Bool × List Char)
  | '?' :: ':' :: s => .ok (false, s)
  | '?' :: 'P' :: '<' :: t@(_ :: _) | '?' :: '<' :: t@(_ :: _) => (true, ·) <$> captureRest t
  | '?' :: s => .error (if flagGroup false false s then .unsupported else .invalidPerlOp)
  | s => .ok (true, s)

mutual

/-- Alternatives separated by `|`, up to the end or a `)`; `n` counts the groups opened so far. -/
def parseAlt : Nat → List Char → Nat → Except SyntaxError (Node × List Char × Nat)
  | 0, _, _ => .error .unsupported
  | fuel + 1, s, n => do
    let (a, s, n) ← parseSeq fuel .empty s n
    match s with
    | '|' :: s => do
      let (b, s, n) ← parseAlt fuel s n
      pure (.alt a b, s, n)
    | _ => pure (a, s, n)

/-- A sequence of repeated atoms after `acc`, up to the end, a `|` or a `)`. -/
def parseSeq : Nat → Node → List Char → Nat → Except SyntaxError (Node × List Char × Nat)
  | 0, _, _, _ => .error .unsupported
  | fuel + 1, acc, s, n => match s with
    | [] => pure (acc, s, n)
    | '|' :: _ => pure (acc, s, n)
    | ')' :: _ => pure (acc, s, n)
    | _ => do
      let (a, s, n) ← parseAtom fuel s n
      let (a, s) ← parseRepeat a s
      parseSeq fuel (.cat acc a) s n

/-- One atom: a group, a class, `.`, `^`, `$`, an escape or a literal character. -/
def parseAtom : Nat → List Char → Nat → Except SyntaxError (Node × List Char × Nat)
  | 0, _, _ => .error .unsupported
  | fuel + 1, s, n => match s with
    | '(' :: s => do
      let (capturing, s) ← openGroup s
      let (a, s, m) ← parseAlt fuel s (if capturing then n + 1 else n)
      match s with
      | ')' :: s => pure (if capturing then .capture (n + 1) a else a, s, m)
      | _ => .error .missingParen
    | '[' :: '^' :: s => do
      let (rs, s) ← classItems s.length true s
      pure (.cls true rs, s, n)
    | '[' :: s => do
      let (rs, s) ← classItems s.length true s
      pure (.cls false rs, s, n)
    | '.' :: s => pure (.cls true [(0x0a, 0x0a)], s, n)
    | '^' :: s => pure (.beginText, s, n)
    | '$' :: s => pure (.endText, s, n)
    | '\\' :: s => do
      let (a, s) ← escape s
      pure (a, s, n)
    | c :: s => if isRepeatOp c then .error .missingRepeatArgument else pure (.char c, s, n)
    | [] => .error .missingRepeatArgument

end

/-- `regexp.Compile`.  Every call of the parser consumes input or descends into a call that does,
so three calls per character are enough fuel. -/
def compile (expr : List Char) : Except SyntaxError Regexp := do
  let (prog, rest, n) ← parseAlt (3 * expr.length + 3) expr 0
  match rest with
  | [] => pure ⟨expr, prog, n⟩
  | _ => .error .unexpectedParen

/-- An escaped end makes a range: `[+-\.]` is `+` to `.`, which holds `,`. -/
example : (compile "[+-\\.]".toList).map (·.findStringSubmatch ",".toList) = .ok [",".toList] := by
  decide

/-- A Perl class is no end of a range. -/
example : compile "[a-\\d]".toList = .error .invalidEscape := by decide

/-- `\a` is the bell, `\x07`. -/
example : (compile "\\a".toList).map (·.findStringSubmatch "\x07".toList) = .ok ["\x07".toList] := by
  decide

/-- A Unicode class, which Go accepts, is refused as syntax the model leaves out. -/
example : compile "\\pL".toList = .error .unsupported := by decide

end Regexp

end GoHttpd
