import GoHttpd.Basic
import Mathlib.Algebra.Group.Int
import Mathlib.Data.List.Basic

/-! The stored form of a password in package `auth`: `Config.EncodeRaw` writes the scrypt
parameters `N`, `R`, `P` and the lengths of the salt and the hash as unsigned varints
(`binary.PutUvarint`), then the salt and the hash; `Config.Encode` writes that in unpadded base 64
(`base64.RawStdEncoding`).  `DecodeRaw` and `Decode` read it back.

Go's `int` is 64 bits wide here: `int(x)` of a `uint64` and the sum of two `int`s wrap around.  A
slice sees the bytes of its backing array up to its capacity, and a slice expression outside those
bounds is a run-time panic, which the functions return as `Panic`. -/

namespace GoHttpd.Auth

/-! ### Slices and integers -/

/-- A Go byte slice: the bytes of its backing array from its start up to its capacity, of which
the first `len` are its elements. -/
structure Slice where
  array : List UInt8
  len : Nat
  len_le : len ≤ array.length

namespace Slice

/-- A fresh slice of `bytes`, as `make` and a copy give it: its capacity is its length. -/
def ofList (bytes : List UInt8) : Slice := ⟨bytes, bytes.length, le_rfl⟩

/-- The `nil` slice. -/
def nil : Slice := ofList []

/-- The elements of a slice. -/
def elems (s : Slice) : List UInt8 := s.array.take s.len

/-- `cap(s)`. -/
def cap (s : Slice) : Nat := s.array.length

/-- The slice expression `s[lo:hi]`, which needs `0 ≤ lo ≤ hi ≤ cap(s)`. -/
def slice (s : Slice) (lo hi : Int) : Except Panic Slice :=
  if h : 0 ≤ lo ∧ lo ≤ hi ∧ hi ≤ s.cap then
    .ok ⟨s.array.drop lo.toNat, (hi - lo).toNat, by simp only [cap] at h; simp; omega⟩
  else .error (.sliceOutOfRange lo hi s.cap)

/-- The slice expression `s[lo:]`, which is `s[lo:len(s)]`. -/
def sliceFrom (s : Slice) (lo : Int) : Except Panic Slice :=
  s.slice lo s.len

@[simp] theorem elems_ofList (l : List UInt8) : (ofList l).elems = l :=
  List.take_length l

@[simp] theorem cap_ofList (l : List UInt8) : (ofList l).cap = l.length := rfl

@[simp] theorem len_ofList (l : List UInt8) : (ofList l).len = l.length := rfl

/-- A slice expression within the capacity of a fresh slice. -/
theorem slice_ofList {l : List UInt8} {lo hi : Nat} (h : lo ≤ hi ∧ hi ≤ l.length) :
    (ofList l).slice lo hi =
      .ok ⟨l.drop lo, hi - lo, (List.length_drop lo l).symm ▸ Nat.sub_le_sub_right h.2 lo⟩ := by
  have h' : (0 : Int) ≤ lo ∧ (lo : Int) ≤ hi ∧ (hi : Int) ≤ (ofList l).cap := by
    rw [cap_ofList]; omega
  rw [slice, dif_pos h']
  simp only [ofList, Int.toNat_ofNat]
  congr 2
  omega

/-- A slice expression outside the capacity of a fresh slice panics. -/
theorem slice_ofList_error {l : List UInt8} {lo hi : Int}
    (h : ¬ (0 ≤ lo ∧ lo ≤ hi ∧ hi ≤ l.length)) :
    (ofList l).slice lo hi = .error (.sliceOutOfRange lo hi l.length) := by
  simp only [slice, cap_ofList, dif_neg h]

/-- `s[k:]` for `k ≤ len(s)`: the backing array from `k` on, with the elements after the first
`k`. -/
def drop (s : Slice) (k : Nat) : Slice :=
  ⟨s.array.drop k, s.len - k, (List.length_drop k s.array).symm ▸ Nat.sub_le_sub_right s.len_le k⟩

theorem length_elems (s : Slice) : s.elems.length = s.len := by
  simp [elems, s.len_le]

@[simp] theorem elems_drop (s : Slice) (k : Nat) : (s.drop k).elems = s.elems.drop k := by
  simp [drop, elems, List.drop_take]

/-- `s[k:]` within the length of any slice. -/
theorem sliceFrom_of_le {s : Slice} {k : Nat} (h : k ≤ s.len) : s.sliceFrom k = .ok (s.drop k) := by
  have h' : (0 : Int) ≤ k ∧ (k : Int) ≤ s.len ∧ (s.len : Int) ≤ s.cap := by
    have := s.len_le; simp only [cap]; omega
  rw [sliceFrom, slice, dif_pos h']
  simp only [drop, Int.toNat_ofNat]
  congr 2
  omega

/-- A slice expression within the length of any slice keeps the elements between its bounds. -/
theorem slice_of_le {s : Slice} {lo hi : Nat} (h : lo ≤ hi ∧ hi ≤ s.len) :
    ∃ t, s.slice lo hi = .ok t ∧ t.elems = (s.elems.drop lo).take (hi - lo) := by
  have h' : (0 : Int) ≤ lo ∧ (lo : Int) ≤ hi ∧ (hi : Int) ≤ s.cap := by
    have := s.len_le; simp only [cap]; omega
  refine ⟨_, by rw [slice, dif_pos h'], ?_⟩
  simp only [elems, Int.toNat_ofNat, List.drop_take, List.take_take]
  congr 1
  omega

end Slice

/-- Go's `int(x)` of a `uint64`: the two's complement reading of its 64 bits. -/
def toInt (x : Nat) : Int :=
  if x < 2 ^ 63 then x else (x : Int) - 2 ^ 64

/-- Go's `uint64(x)` of an `int`. -/
def toUint64 (x : Int) : Nat :=
  (x % 2 ^ 64).toNat

/-- The sum of two Go `int`s, which wraps around at 64 bits. -/
def addInt (a b : Int) : Int :=
  Int.bmod (a + b) (2 ^ 64)

theorem toInt_of_lt {x : Nat} (h : x < 2 ^ 63) : toInt x = x :=
  if_pos h

theorem addInt_natCast {a b : Nat} (h : a + b < 2 ^ 63) : addInt a b = ((a + b : Nat) : Int) := by
  rw [addInt, Int.bmod_def, Int.emod_eq_of_lt (by omega) (by omega), if_pos (by omega),
    Int.natCast_add]

/-! ### Varints -/

/-- The bytes that `binary.PutUvarint` writes for `x`: seven bits a byte, low bits first, and the
high bit set on every byte but the last.  Go's `byte(x) | 0x80` is `x % 0x80 + 0x80`. -/
def putUvarint (x : Nat) : List UInt8 :=
  if x < 0x80 then [UInt8.ofNat x] else UInt8.ofNat (x % 0x80 + 0x80) :: putUvarint (x / 0x80)
termination_by x
decreasing_by omega

theorem putUvarint_of_lt {x : Nat} (h : x < 0x80) : putUvarint x = [UInt8.ofNat x] := by
  rw [putUvarint, if_pos h]

theorem putUvarint_of_ge {x : Nat} (h : ¬ x < 0x80) :
    putUvarint x = UInt8.ofNat (x % 0x80 + 0x80) :: putUvarint (x / 0x80) := by
  rw [putUvarint, if_neg h]

theorem length_putUvarint_pos (x : Nat) : 0 < (putUvarint x).length := by
  rw [putUvarint]; split <;> simp

/-- A varint of a value below `2 ^ (7 * k)` takes at most `k` bytes. -/
theorem length_putUvarint_le {x k : Nat} (h : x < 2 ^ (7 * k)) (hk : 0 < k) :
    (putUvarint x).length ≤ k := by
  induction x using putUvarint.induct generalizing k with
  | case1 x hx => rw [putUvarint_of_lt hx]; simpa using hk
  | case2 x hx ih =>
    obtain ⟨k, rfl⟩ : ∃ j, k = j + 1 := ⟨k - 1, by omega⟩
    have hk' : 0 < k := by
      rcases Nat.eq_zero_or_pos k with rfl | hk'
      · simp at h; omega
      · exact hk'
    have hdiv : x / 0x80 < 2 ^ (7 * k) := by
      rw [Nat.div_lt_iff_lt_mul (by decide)]
      simpa [Nat.mul_succ, Nat.pow_add, Nat.mul_comm] using h
    rw [putUvarint_of_ge hx, List.length_cons]
    exact Nat.succ_le_succ (ih hdiv hk')

/-- The loop of `binary.Uvarint` at byte `i` with the value `x` read so far.  The bits of the
bytes do not overlap, so Go's `|` is a sum. -/
def uvarintFrom : List UInt8 → Nat → Nat → Nat × Int
  | [], _, _ => (0, 0)
  | b :: rest, i, x =>
    if i = 10 then (0, -((i : Int) + 1))
    else if b.toNat < 0x80 then
      if i = 9 ∧ 1 < b.toNat then (0, -((i : Int) + 1))
      else (x + b.toNat * 2 ^ (7 * i), i + 1)
    else uvarintFrom rest (i + 1) (x + b.toNat % 0x80 * 2 ^ (7 * i))

/-- `binary.Uvarint`: the value and the number of bytes read; `0` bytes when the buffer ends
inside the number, and minus the bytes read when it overflows 64 bits. -/
def uvarint (buf : List UInt8) : Nat × Int :=
  uvarintFrom buf 0 0

/-! ### Base 64 -/

/-- The symbol of a six-bit value in the alphabet `A-Z`, `a-z`, `0-9`, `+`, `/`. -/
def encodeSym (x : Nat) : UInt8 :=
  UInt8.ofNat (if x < 26 then 65 + x else if x < 52 then 71 + x else if x < 62 then x - 4
    else if x = 62 then 43 else 47)

/-- The six-bit value of a symbol of the alphabet; `none` is `0xff` in Go's `decodeMap`. -/
def decodeSym (c : UInt8) : Option Nat :=
  let n := c.toNat
  if 65 ≤ n ∧ n ≤ 90 then some (n - 65) else if 97 ≤ n ∧ n ≤ 122 then some (n - 71)
  else if 48 ≤ n ∧ n ≤ 57 then some (n + 4) else if n = 43 then some 62
  else if n = 47 then some 63 else none

/-- The four symbols of a 24-bit value, `val>>18&0x3F` and so on. -/
def encodeQuantum (v : Nat) : List UInt8 :=
  [encodeSym (v / 2 ^ 18 % 64), encodeSym (v / 2 ^ 12 % 64), encodeSym (v / 2 ^ 6 % 64),
    encodeSym (v % 64)]

/-- `RawStdEncoding.Encode`: three bytes to four symbols, and a last group of two or one bytes
to three or two symbols, without padding. -/
def encodeBase64 : List UInt8 → List UInt8
  | a :: b :: c :: rest =>
    encodeQuantum (a.toNat * 2 ^ 16 + b.toNat * 2 ^ 8 + c.toNat) ++ encodeBase64 rest
  | [a, b] => (encodeQuantum (a.toNat * 2 ^ 16 + b.toNat * 2 ^ 8)).take 3
  | [a] => (encodeQuantum (a.toNat * 2 ^ 16)).take 2
  | [] => []

/-- The bytes of a quantum of `dlen` symbols: the first `dlen - 1` bytes of the 24-bit value they
spell, missing symbols counting as zero. -/
def quantumBytes (dbuf : List Nat) : List UInt8 :=
  let v := dbuf.getD 0 0 * 2 ^ 18 + dbuf.getD 1 0 * 2 ^ 12 + dbuf.getD 2 0 * 2 ^ 6 + dbuf.getD 3 0
  ([v / 2 ^ 16 % 256, v / 2 ^ 8 % 256, v % 256].take (dbuf.length - 1)).map UInt8.ofNat

/-- `RawStdEncoding.Decode` as its loop of `decodeQuantum`: symbols are gathered four at a time
in `dbuf`, `\n` and `\r` are skipped, and a lone last symbol or any other byte is a
`CorruptInputError` at the offset Go reports.  `si` is the offset of the next byte. -/
def decodeBase64 : List UInt8 → Nat → List Nat → Except Nat (List UInt8)
  | [], si, dbuf => if dbuf.length = 1 then .error (si - 1) else .ok (quantumBytes dbuf)
  | c :: rest, si, dbuf =>
    match decodeSym c with
    | some v =>
      if dbuf.length = 3 then (quantumBytes (dbuf ++ [v]) ++ ·) <$> decodeBase64 rest (si + 1) []
      else decodeBase64 rest (si + 1) (dbuf ++ [v])
    | none => if c = 10 ∨ c = 13 then decodeBase64 rest (si + 1) dbuf else .error si

/-- `RawStdEncoding.EncodedLen`. -/
def encodedLen (n : Nat) : Nat := n / 3 * 4 + (n % 3 * 8 + 5) / 6

/-- `RawStdEncoding.DecodedLen`. -/
def decodedLen (n : Nat) : Nat := n * 6 / 8

/-! ### The record -/

/-- `auth.Config`, the scrypt parameters and the lengths of a new salt and hash. -/
structure Config where
  n : Int
  r : Int
  p : Int
  saltLen : Int
  hashLen : Int
  deriving DecidableEq, Repr

/-- `DefaultConfig`. -/
def defaultConfig : Config := ⟨32768, 8, 1, 32, 32⟩

/-- The errors of package `auth` and of the calls it makes, with what their messages print. -/
inductive AuthError where
  /-- `ErrInvalidPassword`, `invalid password` -/
  | invalidPassword
  /-- `ErrInvalidAccount`, `invalid account` -/
  | invalidAccount
  /-- `invalid data (header)` from `DecodeRaw` -/
  | invalidHeader
  /-- `base64.CorruptInputError`, `illegal base64 data at input byte %d` -/
  | corruptInput (offset : Nat)
  /-- `scrypt: N must be > 1 and a power of 2` -/
  | scryptN
  /-- `scrypt: parameters are too large` -/
  | scryptTooLarge
  /-- an error of `crypto/rand` -/
  | random (code : Nat)
  /-- an error returned by a password-data callback -/
  | storage (code : Nat)
  deriving DecidableEq, Repr

/-- The varints that `EncodeRaw` writes from offset `i` into its buffer of `z` bytes; a varint that
runs past the buffer is the index panic of `PutUvarint`. -/
def putVarints (z : Nat) : Nat → List Nat → Except Panic (List UInt8)
  | _, [] => .ok []
  | i, x :: xs =>
    let v := putUvarint x
    if i + v.length ≤ z then (v ++ ·) <$> putVarints z (i + v.length) xs
    else .error (.indexOutOfRange (z - i) (z - i))

/-- `Config.EncodeRaw`: the buffer has `binary.MaxVarintLen32*5 + len(salt) + len(hash)` bytes;
after the varints, `copy` writes the salt and the hash as far as the buffer reaches, and the
slice expressions `b[i:]` and `b[:i]` need the offset within it. -/
def encodeRaw (c : Config) (salt hash : List UInt8) : Except Panic (List UInt8) := do
  let z := 5 * 5 + salt.length + hash.length
  let header ← putVarints z 0
    [toUint64 c.n, toUint64 c.r, toUint64 c.p, salt.length, hash.length]
  let i := header.length + salt.length
  if z < i then .error (.sliceOutOfRange i z z)
  else if z < i + hash.length then .error (.sliceOutOfRange 0 (i + hash.length) z)
  else pure (header ++ salt ++ hash)

/-- `Config.Encode`. -/
def encode (c : Config) (salt hash : List UInt8) : Except Panic (List UInt8) :=
  encodeBase64 <$> encodeRaw c salt hash

/-- `DecodeRaw`: five varints, each read from the offset the counts so far give, an error when
the last count is not positive, and then the salt and the hash sliced at the offsets that the
decoded lengths give. -/
def decodeRaw (b : Slice) : Except Panic (Config × Slice × Slice × Option AuthError) := do
  let (n, k) := uvarint b.elems
  let i : Int := k
  let (r, k) := uvarint (← b.sliceFrom i).elems
  let i := i + k
  let (p, k) := uvarint (← b.sliceFrom i).elems
  let i := i + k
  let (saltLen, k) := uvarint (← b.sliceFrom i).elems
  let i := i + k
  let (hashLen, k) := uvarint (← b.sliceFrom i).elems
  let err := if k ≤ 0 then some AuthError.invalidHeader else none
  let i := i + k
  let c : Config := ⟨toInt n, toInt r, toInt p, toInt saltLen, toInt hashLen⟩
  let salt ← b.slice i (addInt i c.saltLen)
  let i := addInt i c.saltLen
  let hash ← b.slice i (addInt i c.hashLen)
  pure (c, salt, hash, err)

/-- `Decode`: the buffer has `DecodedLen(len(data))` bytes, the decoded ones first; a base-64
error returns the zero config and `nil` slices. -/
def decode (data : List UInt8) : Except Panic (Config × Slice × Slice × Option AuthError) :=
  match decodeBase64 data 0 [] with
  | .error offset => .ok (⟨0, 0, 0, 0, 0⟩, .nil, .nil, some (.corruptInput offset))
  | .ok bytes =>
    decodeRaw (.ofList (bytes ++ List.replicate (decodedLen data.length - bytes.length) 0))

end GoHttpd.Auth
