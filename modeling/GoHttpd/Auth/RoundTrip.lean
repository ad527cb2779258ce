import GoHttpd.Auth.Encoding

/-! What `DecodeRaw` and `Decode` make of a record: `binary.Uvarint` reads back what
`binary.PutUvarint` wrote, `RawStdEncoding.Decode` inverts `RawStdEncoding.Encode`, and
`DecodeRaw` of five varints followed by any bytes is exactly the two slice expressions at the
offsets those varints give, in a slice of any capacity.  From these, `Decode` of `Config.Encode`
and `DecodeRaw` of `Config.EncodeRaw` return the configuration, the salt and the hash they were
given, as long as the header fits the five bytes per varint that `EncodeRaw` reserves
(`decode_encode_config`). -/

namespace GoHttpd.Auth

/-! ### Varints -/

/-- `binary.Uvarint` reads back what `binary.PutUvarint` wrote, from any byte `i` of a value
whose bits fit in the 64 that remain. -/
theorem uvarintFrom_putUvarint (x : Nat) (rest : List UInt8) (i acc : Nat)
    (hx : x * 2 ^ (7 * i) < 2 ^ 64) (hi : i < 10) :
    uvarintFrom (putUvarint x ++ rest) i acc =
      (acc + x * 2 ^ (7 * i), ((i + (putUvarint x).length : Nat) : Int)) := by
  induction x using putUvarint.induct generalizing i acc with
  | case1 x hx0 =>
    have hlast : ¬ (i = 9 ∧ 1 < x) := by
      rintro ⟨rfl, h1⟩
      have : 2 * 2 ^ 63 ≤ x * 2 ^ (7 * 9) := Nat.mul_le_mul_right _ h1
      simp only [Nat.reducePow, Nat.reduceMul] at this hx; omega
    rw [putUvarint_of_lt hx0]
    simp [uvarintFrom, UInt8.toNat_ofNat_of_lt (show x < UInt8.size by unfold UInt8.size; omega),
      hx0, hlast, show i ≠ 10 by omega]
  | case2 x hx0 ih =>
    have hpow : 2 ^ (7 * (i + 1)) = 0x80 * 2 ^ (7 * i) := by
      rw [Nat.mul_succ, Nat.pow_add, Nat.mul_comm]
    have hnext : x / 0x80 * 2 ^ (7 * (i + 1)) < 2 ^ 64 := by
      rw [hpow, ← Nat.mul_assoc, Nat.mul_comm _ 0x80]
      exact lt_of_le_of_lt (Nat.mul_le_mul_right _ (Nat.mul_div_le x 0x80)) hx
    have hi' : i + 1 < 10 := by
      by_contra hge
      have : 2 ^ 70 ≤ x / 0x80 * 2 ^ (7 * (i + 1)) :=
        calc 2 ^ 70 ≤ 2 ^ (7 * (i + 1)) := Nat.pow_le_pow_right (by decide) (by omega)
          _ ≤ x / 0x80 * 2 ^ (7 * (i + 1)) := Nat.le_mul_of_pos_left _ (by omega)
      simp only [Nat.reducePow] at this hnext; omega
    have hb : (UInt8.ofNat (x % 0x80 + 0x80)).toNat = x % 0x80 + 0x80 :=
      UInt8.toNat_ofNat_of_lt (by unfold UInt8.size; omega)
    rw [putUvarint_of_ge hx0, List.cons_append, uvarintFrom, if_neg (by omega), hb,
      if_neg (by omega), ih _ _ hnext hi', List.length_cons, hpow]
    congr 1
    · conv_rhs => rw [← Nat.mod_add_div x 0x80]
      rw [Nat.add_mod_right, Nat.mod_mod, Nat.add_mul, Nat.add_assoc, Nat.mul_assoc,
        Nat.mul_left_comm]
    · omega

/-- `binary.Uvarint` reads back a 64-bit value that `binary.PutUvarint` wrote. -/
theorem uvarint_putUvarint {x : Nat} (rest : List UInt8) (hx : x < 2 ^ 64) :
    uvarint (putUvarint x ++ rest) = (x, ((putUvarint x).length : Int)) := by
  simpa using uvarintFrom_putUvarint x rest 0 0 (by simpa using hx) (by decide)

/-! ### Base 64 -/

theorem decodeSym_encodeSym : ∀ x < 64, decodeSym (encodeSym x) = some x := by
  decide

@[simp] theorem decodeSym_encodeSym_mod (v : Nat) :
    decodeSym (encodeSym (v % 64)) = some (v % 64) :=
  decodeSym_encodeSym _ (Nat.mod_lt _ (by decide))

/-- The four symbols of a 24-bit value spell it again. -/
theorem quantumBytes_encodeQuantum (v : Nat) (hv : v < 2 ^ 24) :
    quantumBytes [v / 2 ^ 18 % 64, v / 2 ^ 12 % 64, v / 2 ^ 6 % 64, v % 64] =
      [v / 2 ^ 16 % 256, v / 2 ^ 8 % 256, v % 256].map UInt8.ofNat := by
  have h : v / 2 ^ 18 % 64 * 2 ^ 18 + v / 2 ^ 12 % 64 * 2 ^ 12 + v / 2 ^ 6 % 64 * 2 ^ 6 +
      v % 64 = v := by
    simp only [Nat.reducePow] at hv ⊢; omega
  simp only [quantumBytes, List.getD_cons_succ, List.getD_cons_zero, h]
  rfl

theorem decodeBase64_quantum (v : Nat) (rest : List UInt8) (si : Nat) :
    decodeBase64 (encodeQuantum v ++ rest) si [] =
      (quantumBytes [v / 2 ^ 18 % 64, v / 2 ^ 12 % 64, v / 2 ^ 6 % 64, v % 64] ++ ·) <$>
        decodeBase64 rest (si + 4) [] := by
  simp [encodeQuantum, decodeBase64]

theorem bytes_of_sum (a b c : UInt8) :
    [(a.toNat * 2 ^ 16 + b.toNat * 2 ^ 8 + c.toNat) / 2 ^ 16 % 256,
      (a.toNat * 2 ^ 16 + b.toNat * 2 ^ 8 + c.toNat) / 2 ^ 8 % 256,
      (a.toNat * 2 ^ 16 + b.toNat * 2 ^ 8 + c.toNat) % 256].map UInt8.ofNat = [a, b, c] := by
  have := a.toNat_lt_size; have := b.toNat_lt_size; have := c.toNat_lt_size
  simp only [UInt8.size, Nat.reducePow] at *
  simp only [List.map_cons, List.map_nil, List.cons.injEq, and_true]
  exact ⟨UInt8.ofNat_eq_of_toNat (by omega), UInt8.ofNat_eq_of_toNat (by omega),
    UInt8.ofNat_eq_of_toNat (by omega)⟩

/-- `RawStdEncoding.Decode` inverts `RawStdEncoding.Encode`. -/
theorem decodeBase64_encodeBase64 (bs : List UInt8) (si : Nat) :
    decodeBase64 (encodeBase64 bs) si [] = .ok bs := by
  induction bs using encodeBase64.induct generalizing si with
  | case1 a b c rest ih =>
    have hv : a.toNat * 2 ^ 16 + b.toNat * 2 ^ 8 + c.toNat < 2 ^ 24 := by
      have := a.toNat_lt_size; have := b.toNat_lt_size; have := c.toNat_lt_size
      simp only [UInt8.size, Nat.reducePow] at *; omega
    rw [encodeBase64, decodeBase64_quantum, ih, quantumBytes_encodeQuantum _ hv, bytes_of_sum]
    rfl
  | case2 a b =>
    have := a.toNat_lt_size; have := b.toNat_lt_size
    simp only [UInt8.size, Nat.reducePow] at *
    simp [encodeBase64, encodeQuantum, decodeBase64, quantumBytes]
    exact ⟨UInt8.ofNat_eq_of_toNat (by omega), UInt8.ofNat_eq_of_toNat (by omega)⟩
  | case3 a =>
    have := a.toNat_lt_size
    simp only [UInt8.size, Nat.reducePow] at *
    simp [encodeBase64, encodeQuantum, decodeBase64, quantumBytes]
    exact UInt8.ofNat_eq_of_toNat (by omega)
  | case4 => rfl

theorem length_encodeBase64 (bs : List UInt8) : (encodeBase64 bs).length = encodedLen bs.length := by
  induction bs using encodeBase64.induct with
  | case1 a b c rest ih => simp [encodeBase64, encodeQuantum, ih, encodedLen]; omega
  | case2 | case3 | case4 => simp [encodeBase64, encodeQuantum, encodedLen]

theorem decodedLen_encodedLen (n : Nat) : decodedLen (encodedLen n) = n := by
  unfold decodedLen encodedLen; omega

/-- `Decode` of what `RawStdEncoding.Encode` wrote is `DecodeRaw` of the bytes it was given: the
buffer of `DecodedLen` bytes is exactly filled. -/
theorem decode_encodeBase64 (raw : List UInt8) :
    decode (encodeBase64 raw) = decodeRaw (.ofList raw) := by
  simp [decode, decodeBase64_encodeBase64, length_encodeBase64, decodedLen_encodedLen]

/-! ### The record -/

/-- `EncodeRaw`'s varints fill its buffer from offset `i` with their bytes when they fit. -/
theorem putVarints_eq {z i : Nat} {xs : List Nat} (h : i + (xs.flatMap putUvarint).length ≤ z) :
    putVarints z i xs = .ok (xs.flatMap putUvarint) := by
  induction xs generalizing i with
  | nil => rfl
  | cons x xs ih =>
    simp only [List.flatMap_cons, List.length_append] at h
    simp only [putVarints, if_pos (show i + (putUvarint x).length ≤ z by omega),
      ih (show i + (putUvarint x).length + (xs.flatMap putUvarint).length ≤ z by omega),
      List.flatMap_cons]
    rfl

/-- `Config.EncodeRaw` writes the header and then the salt and the hash, when the header fits
the `5 * binary.MaxVarintLen32` bytes reserved for it. -/
theorem encodeRaw_eq (c : Config) (salt hash : List UInt8)
    (h : ([toUint64 c.n, toUint64 c.r, toUint64 c.p, salt.length, hash.length].flatMap
      putUvarint).length ≤ 25) :
    encodeRaw c salt hash = .ok ([toUint64 c.n, toUint64 c.r, toUint64 c.p, salt.length,
      hash.length].flatMap putUvarint ++ salt ++ hash) := by
  rw [encodeRaw, putVarints_eq (by omega)]
  simp only [Except.ok_bind]
  rw [if_neg (by omega), if_neg (by omega)]
  rfl

theorem length_putUvarint_of_lt {x : Nat} (h : x < 2 ^ 35) : (putUvarint x).length ≤ 5 :=
  length_putUvarint_le (k := 5) h (by decide)

/-- `DecodeRaw` of a slice whose elements are five varints followed by any bytes reads the five
values and then slices the salt and the hash at the offsets their lengths give, whether or not
the bytes reach that far. -/
theorem decodeRaw_of_elems (n r p sl hl : Nat) (rest : List UInt8) (b : Slice)
    (hb : b.elems = [n, r, p, sl, hl].flatMap putUvarint ++ rest) (hn : n < 2 ^ 63)
    (hr : r < 2 ^ 63) (hp : p < 2 ^ 63) (hsh : sl + hl < 2 ^ 62) :
    decodeRaw b = (do
      let salt ← b.slice ([n, r, p, sl, hl].flatMap putUvarint).length
        (([n, r, p, sl, hl].flatMap putUvarint).length + sl : Nat)
      let hash ← b.slice (([n, r, p, sl, hl].flatMap putUvarint).length + sl : Nat)
        (([n, r, p, sl, hl].flatMap putUvarint).length + sl + hl : Nat)
      pure (⟨n, r, p, sl, hl⟩, salt, hash, none)) := by
  have hlen (x : Nat) (hx : x < 2 ^ 63) : (putUvarint x).length ≤ 10 :=
    length_putUvarint_le (lt_trans hx (by decide)) (by decide)
  have := hlen n hn; have := hlen r hr; have := hlen p hp
  have := hlen sl (by omega); have := hlen hl (by omega); have := length_putUvarint_pos hl
  have hbl : b.len = ([n, r, p, sl, hl].flatMap putUvarint ++ rest).length := by
    rw [← Slice.length_elems, hb]
  simp only [List.flatMap_cons, List.flatMap_nil, List.append_nil, List.append_assoc,
    List.length_append] at hb hbl ⊢
  simp only [Nat.reducePow] at *
  simp (disch := first | omega | (rw [hbl]; omega)) only [decodeRaw, hb, uvarint_putUvarint,
    ← Int.natCast_add, Slice.sliceFrom_of_le, Slice.elems_drop, List.drop_append, List.drop_left,
    Nat.add_assoc, Except.ok_bind, toInt_of_lt, addInt_natCast,
    if_neg (show ¬ ((putUvarint hl).length : Int) ≤ 0 by omega)]

/-- `DecodeRaw` of a fresh slice of five varints followed by any bytes. -/
theorem decodeRaw_header (n r p sl hl : Nat) (rest : List UInt8) (hn : n < 2 ^ 63)
    (hr : r < 2 ^ 63) (hp : p < 2 ^ 63) (hsh : sl + hl < 2 ^ 62) :
    decodeRaw (.ofList ([n, r, p, sl, hl].flatMap putUvarint ++ rest)) = (do
      let salt ← (Slice.ofList ([n, r, p, sl, hl].flatMap putUvarint ++ rest)).slice
        ([n, r, p, sl, hl].flatMap putUvarint).length
        (([n, r, p, sl, hl].flatMap putUvarint).length + sl : Nat)
      let hash ← (Slice.ofList ([n, r, p, sl, hl].flatMap putUvarint ++ rest)).slice
        (([n, r, p, sl, hl].flatMap putUvarint).length + sl : Nat)
        (([n, r, p, sl, hl].flatMap putUvarint).length + sl + hl : Nat)
      pure (⟨n, r, p, sl, hl⟩, salt, hash, none)) :=
  decodeRaw_of_elems n r p sl hl rest _ (Slice.elems_ofList _) hn hr hp hsh

theorem toUint64_of_lt {x : Int} (h0 : 0 ≤ x) (h1 : x < 2 ^ 64) : toUint64 x = x.toNat := by
  rw [toUint64, Int.emod_eq_of_lt h0 h1]

/-- Under the bounds of a stored record, `EncodeRaw` writes the header of the five values and
then the salt and the hash, the values are the parameters of `c` and the two lengths, and they
read back as `c` with those lengths. -/
theorem encodeRaw_of_lt (c : Config) (salt hash : List UInt8) (hn : 0 ≤ c.n ∧ c.n < 2 ^ 32)
    (hr : 0 ≤ c.r ∧ c.r < 2 ^ 32) (hp : 0 ≤ c.p ∧ c.p < 2 ^ 32) (hs : salt.length < 2 ^ 32)
    (hh : hash.length < 2 ^ 32) :
    encodeRaw c salt hash = .ok ([toUint64 c.n, toUint64 c.r, toUint64 c.p, salt.length,
      hash.length].flatMap putUvarint ++ salt ++ hash) ∧
    toUint64 c.n < 2 ^ 32 ∧ toUint64 c.r < 2 ^ 32 ∧ toUint64 c.p < 2 ^ 32 ∧
    (⟨toUint64 c.n, toUint64 c.r, toUint64 c.p, salt.length, hash.length⟩ : Config) =
      { c with saltLen := salt.length, hashLen := hash.length } := by
  have hval (x : Int) (h : 0 ≤ x ∧ x < 2 ^ 32) : toUint64 x < 2 ^ 32 ∧ (toUint64 x : Int) = x := by
    rw [toUint64_of_lt h.1 (by omega)]; omega
  have hvn := hval c.n hn; have hvr := hval c.r hr; have hvp := hval c.p hp
  have := length_putUvarint_of_lt (lt_trans hvn.1 (by decide))
  have := length_putUvarint_of_lt (lt_trans hvr.1 (by decide))
  have := length_putUvarint_of_lt (lt_trans hvp.1 (by decide))
  have := length_putUvarint_of_lt (lt_trans hs (by decide))
  have := length_putUvarint_of_lt (lt_trans hh (by decide))
  have hhdr : ([toUint64 c.n, toUint64 c.r, toUint64 c.p, salt.length, hash.length].flatMap
      putUvarint).length ≤ 25 := by
    simp only [List.flatMap_cons, List.flatMap_nil, List.length_append, List.length_nil]; omega
  refine ⟨encodeRaw_eq c salt hash hhdr, hvn.1, hvr.1, hvp.1, ?_⟩
  rw [hvn.2, hvr.2, hvp.2]

/-- `Decode` of `Config.Encode` gives back the configuration, with the lengths of the salt and
the hash in place of `SaltLen` and `HashLen`, and the salt and the hash themselves, for
parameters and lengths below `2 ^ 32`. -/
theorem decode_encode (c : Config) (salt hash : List UInt8) (hn : 0 ≤ c.n ∧ c.n < 2 ^ 32)
    (hr : 0 ≤ c.r ∧ c.r < 2 ^ 32) (hp : 0 ≤ c.p ∧ c.p < 2 ^ 32) (hs : salt.length < 2 ^ 32)
    (hh : hash.length < 2 ^ 32) :
    ∃ saltS hashS, (encode c salt hash >>= decode) =
      .ok ({ c with saltLen := salt.length, hashLen := hash.length }, saltS, hashS, none) ∧
      saltS.elems = salt ∧ hashS.elems = hash := by
  obtain ⟨henc, hbn, hbr, hbp, hcfg⟩ := encodeRaw_of_lt c salt hash hn hr hp hs hh
  simp only [encode, henc, Functor.map, Except.map, Except.ok_bind, List.append_assoc,
    decode_encodeBase64]
  rw [decodeRaw_header _ _ _ _ _ _ (by omega) (by omega) (by omega) (by omega)]
  generalize [toUint64 c.n, toUint64 c.r, toUint64 c.p, salt.length, hash.length].flatMap
    putUvarint = header
  rw [Slice.slice_ofList (by simp), Except.ok_bind, Slice.slice_ofList (by simp; omega),
    Except.ok_bind, hcfg]
  refine ⟨_, _, rfl, ?_, ?_⟩ <;> simp [Slice.elems, List.drop_append]

/-- `Decode` of `c.Encode(salt, hash)`, and `DecodeRaw` of the slice that `c.EncodeRaw(salt,
hash)` returns, whatever its capacity, return no error, `N`, `R` and `P` of `c`, the lengths of
the salt and the hash, and the salt and the hash themselves. -/
theorem decode_encode_config (c : Config) (salt hash : List UInt8) (hn : 0 ≤ c.n ∧ c.n < 2 ^ 32)
    (hr : 0 ≤ c.r ∧ c.r < 2 ^ 32) (hp : 0 ≤ c.p ∧ c.p < 2 ^ 32) (hs : salt.length < 2 ^ 32)
    (hh : hash.length < 2 ^ 32) :
    (∃ saltS hashS, (encode c salt hash >>= decode) =
        .ok ({ c with saltLen := salt.length, hashLen := hash.length }, saltS, hashS, none) ∧
        saltS.elems = salt ∧ hashS.elems = hash) ∧
    ∃ raw, encodeRaw c salt hash = .ok raw ∧ ∀ b : Slice, b.elems = raw →
      ∃ saltS hashS, decodeRaw b =
        .ok ({ c with saltLen := salt.length, hashLen := hash.length }, saltS, hashS, none) ∧
        saltS.elems = salt ∧ hashS.elems = hash := by
  obtain ⟨henc, hbn, hbr, hbp, hcfg⟩ := encodeRaw_of_lt c salt hash hn hr hp hs hh
  refine ⟨decode_encode c salt hash hn hr hp hs hh, _, henc, fun b hb => ?_⟩
  rw [List.append_assoc] at hb
  rw [decodeRaw_of_elems _ _ _ _ _ _ b hb (by omega) (by omega) (by omega) (by omega)]
  generalize [toUint64 c.n, toUint64 c.r, toUint64 c.p, salt.length, hash.length].flatMap
    putUvarint = header at hb ⊢
  have hlen : b.len = header.length + salt.length + hash.length := by
    rw [← Slice.length_elems, hb]; simp [Nat.add_assoc]
  obtain ⟨saltS, hsalt, hsaltE⟩ :=
    @Slice.slice_of_le b header.length (header.length + salt.length) (by omega)
  obtain ⟨hashS, hhash, hhashE⟩ := @Slice.slice_of_le b (header.length + salt.length)
    (header.length + salt.length + hash.length) (by omega)
  rw [hsalt, Except.ok_bind, hhash, Except.ok_bind, hcfg]
  refine ⟨saltS, hashS, rfl, ?_, ?_⟩
  · simp [hsaltE, hb, List.drop_append]
  · simp [hhashE, hb, List.drop_append, ← List.append_assoc]

/-- `DefaultConfig` with a two-byte salt and a one-byte hash. -/
theorem decode_encode_default :
    (0 ≤ defaultConfig.n ∧ defaultConfig.n < 2 ^ 32) ∧
    (0 ≤ defaultConfig.r ∧ defaultConfig.r < 2 ^ 32) ∧
    (0 ≤ defaultConfig.p ∧ defaultConfig.p < 2 ^ 32) ∧ [1, 2].length < 2 ^ 32 ∧
    [3].length < 2 ^ 32 ∧
    ((∃ saltS hashS, (encode defaultConfig [1, 2] [3] >>= decode) =
        .ok ({ defaultConfig with saltLen := 2, hashLen := 1 }, saltS, hashS, none) ∧
        saltS.elems = [1, 2] ∧ hashS.elems = [3]) ∧
    ∃ raw, encodeRaw defaultConfig [1, 2] [3] = .ok raw ∧ ∀ b : Slice, b.elems = raw →
      ∃ saltS hashS, decodeRaw b =
        .ok ({ defaultConfig with saltLen := 2, hashLen := 1 }, saltS, hashS, none) ∧
        saltS.elems = [1, 2] ∧ hashS.elems = [3]) :=
  ⟨by decide, by decide, by decide, by decide, by decide,
    decode_encode_config defaultConfig [1, 2] [3] (by decide) (by decide) (by decide) (by decide)
      (by decide)⟩

end GoHttpd.Auth
