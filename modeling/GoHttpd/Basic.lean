import Mathlib.Logic.Function.Iterate

/-! What the model of every Go package here shares: results of fallible code as `Except`, with
the inversion of `bind` that peels a `do` block apart, and Go's run-time panics. -/

/-- Results compare constructor by constructor, so that a run of the model can be checked by
`decide`. -/
instance Except.instDecidableEq [DecidableEq ε] [DecidableEq α] : DecidableEq (Except ε α)
  | .error a, .error b =>
    if h : a = b then isTrue (h ▸ rfl) else isFalse fun h' => h (Except.error.inj h')
  | .ok a, .ok b => if h : a = b then isTrue (h ▸ rfl) else isFalse fun h' => h (Except.ok.inj h')
  | .error _, .ok _ => isFalse nofun
  | .ok _, .error _ => isFalse nofun

theorem Except.bind_eq_ok {x : Except ε α} {f : α → Except ε β} {b : β} :
    x >>= f = .ok b ↔ ∃ a, x = .ok a ∧ f a = .ok b := by
  cases x <;> simp [bind, Except.bind]

@[simp] theorem Except.ok_bind {a : α} {f : α → Except ε β} : (Except.ok a : Except ε α) >>= f = f a :=
  rfl

@[simp] theorem Except.error_bind {e : ε} {f : α → Except ε β} :
    (Except.error e : Except ε α) >>= f = .error e :=
  rfl

theorem Except.mapError_eq_ok {x : Except ε α} {f : ε → ε'} {a : α} :
    x.mapError f = .ok a ↔ x = .ok a := by
  cases x <;> simp [Except.mapError]

theorem Except.map_eq_ok {x : Except ε α} {f : α → β} {b : β} :
    x.map f = .ok b ↔ ∃ a, x = .ok a ∧ f a = b := by
  cases x <;> simp [Except.map]

theorem UInt8.ofNat_toNat (b : UInt8) : UInt8.ofNat b.toNat = b := by
  rcases b with ⟨⟨v, hv⟩⟩
  simp [UInt8.ofNat, UInt8.toNat, BitVec.ofNat, Fin.ofNat', Nat.mod_eq_of_lt hv]

theorem UInt8.ofNat_eq_of_toNat {n : Nat} {b : UInt8} (h : n = b.toNat) : UInt8.ofNat n = b :=
  h ▸ UInt8.ofNat_toNat b

namespace GoHttpd

/-- A run-time panic of the kinds this code can raise. -/
inductive Panic where
  /-- `index out of range [index] with length length` -/
  | indexOutOfRange (index length : Int)
  /-- `slice bounds out of range [lo:hi] with capacity cap` -/
  | sliceOutOfRange (lo hi cap : Int)
  /-- `makeslice: len out of range` -/
  | makeSliceLen (len : Int)
  /-- `integer divide by zero` -/
  | divideByZero
  /-- `invalid memory address or nil pointer dereference` -/
  | nilDereference
  /-- `assignment to entry in nil map` -/
  | nilMapAssignment
  /-- `interface conversion: interface is nil, not httpd.Handler` -/
  | nilInterfaceConversion
  deriving DecidableEq, Repr

/-- Go's index expression `s[i]`. -/
def goIndex (s : List α) (i : Nat) : Except Panic α :=
  match s[i]? with
  | some a => .ok a
  | none => .error (.indexOutOfRange i s.length)

theorem goIndex_of_lt {s : List α} {i : Nat} (h : i < s.length) : goIndex s i = .ok s[i] := by
  simp [goIndex, List.getElem?_eq_getElem h]

end GoHttpd
