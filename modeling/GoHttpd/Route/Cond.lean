import GoHttpd.Text

/-! `route/cond.go`: the set of HTTP methods a route admits, as a bit set.  `parseCondFlags` reads
the tokens of a rule's condition clause, and `CondFlags.render` writes a set back in the fixed
order of the method constants. -/

namespace GoHttpd

/-- `route.CondFlags`: bit `i` stands for the `i`-th method of `condMethods`; `0` admits every
method. -/
abbrev CondFlags := UInt64

def condMethodGET : CondFlags := (1 : CondFlags) <<< 0
def condMethodCONNECT : CondFlags := (1 : CondFlags) <<< 1
def condMethodDELETE : CondFlags := (1 : CondFlags) <<< 2
def condMethodHEAD : CondFlags := (1 : CondFlags) <<< 3
def condMethodOPTIONS : CondFlags := (1 : CondFlags) <<< 4
def condMethodPATCH : CondFlags := (1 : CondFlags) <<< 5
def condMethodPOST : CondFlags := (1 : CondFlags) <<< 6
def condMethodPUT : CondFlags := (1 : CondFlags) <<< 7
def condMethodTRACE : CondFlags := (1 : CondFlags) <<< 8

/-- The method tokens with their bits, in the order of the constants, which is the order of the
`switch` in `ParseCondFlags` and of the tests in `CondFlags.String`. -/
def condMethods : List (List Char × CondFlags) :=
  [("GET".toList, condMethodGET), ("CONNECT".toList, condMethodCONNECT),
    ("DELETE".toList, condMethodDELETE), ("HEAD".toList, condMethodHEAD),
    ("OPTIONS".toList, condMethodOPTIONS), ("PATCH".toList, condMethodPATCH),
    ("POST".toList, condMethodPOST), ("PUT".toList, condMethodPUT),
    ("TRACE".toList, condMethodTRACE)]

/-- The error of `ParseCondFlags`, `invalid condition %q` with the token. -/
inductive CondError where
  | invalidCondition (token : List Char)
  deriving DecidableEq, Repr

/-- One turn of the loop of `ParseCondFlags`: the bit of a token is or-ed into the flags. -/
def addCondToken (f : CondFlags) (tok : List Char) : Except CondError CondFlags :=
  match condMethods.lookup tok with
  | some bit => .ok (f ||| bit)
  | none => .error (.invalidCondition tok)

/-- `ParseCondFlags`: the single token `*` is the empty set, as is an empty list; otherwise every
token must name a method. -/
def parseCondFlags (tokens : List (List Char)) : Except CondError CondFlags :=
  if tokens = ["*".toList] then .ok 0 else tokens.foldlM addCondToken 0

/-- `CondFlags.String`: `*` for the empty set, otherwise the methods of the set joined by `|` in
the order of `condMethods`. -/
def CondFlags.render (fl : CondFlags) : List Char :=
  if fl = 0 then "*".toList
  else
    let b := (condMethods.filter fun m => fl &&& m.2 ≠ 0).flatMap fun m => '|' :: m.1
    if b = [] then "*".toList else b.tail

/-- The conditions of a route admit the conditions of a request: the route names no method, or
the two share one.  This is the test at the top of the loop in `Router.Match`. -/
def CondFlags.admits (route request : CondFlags) : Bool :=
  route = 0 || route &&& request ≠ 0

end GoHttpd
