import GoHttpd.Auth.RoundTrip

/-! The type `Passwords` of package `auth`: `Set` stores a new salt and the scrypt hash of a
password for an account, `Verify` checks a password against what is stored, and `Change` is
`Verify` and then `Set`.  The two callbacks `SetAccountPasswordData` and `GetAccountPasswordData`
are functions of a store state `σ`.  scrypt and `crypto/rand` lie outside this repository:
`scrypt.Key` is its checks of the parameters, as its source has them, around a derivation `Kdf` of
which only the length of the key is known, and `rand.Read` is a `Random` that fills a buffer and
may fail.

`Config.CheckPassword` never reads its receiver: it calls the package-level `HashPassword`, which
uses `DefaultConfig`.  So a record written under a `HashLen` other than `32` never verifies
(`verify_set_of_hashLen_ne`) and its password can never be changed (`change_set_of_hashLen_ne`),
while under the parameters of `DefaultConfig` the stored hash is checked as intended and
`Change` sets the new password (`verify_change_set_of_default`).  `Decode` slices the salt and the hash at the
lengths the record states, so a record whose lengths run past its bytes makes `Verify` panic
(`verify_panics_of_short_record`). -/

namespace GoHttpd.Auth

/-! ### scrypt and the random source -/

/-- The largest Go `int`, `int(^uint(0) >> 1)`. -/
def maxInt : Int := 2 ^ 63 - 1

/-- What `scrypt.Key` does once its parameters pass its checks: `pbkdf2.Key` over the mixed
blocks, which gives a key of `keyLen` bytes for every `keyLen ≥ 0`. -/
structure Kdf where
  derive : List UInt8 → List UInt8 → Int → Int → Int → Int → Except Panic (List UInt8)
  derive_ok : ∀ password salt n r p keyLen, 0 ≤ keyLen →
    ∃ key, derive password salt n r p keyLen = .ok key ∧ key.length = keyLen.toNat

/-- `scrypt.Key(password, salt, N, r, p, keyLen)`: `N` must be a power of two above `1`, and
`uint64(r)*uint64(p) >= 1<<30 || r > maxInt/128/p || r > maxInt/256 || N > maxInt/128/r` is
"too large".  Go's `/` on `int` truncates, a zero divisor panics, and `||` stops at the first true
operand. -/
def scryptKey (kdf : Kdf) (password salt : List UInt8) (n r p keyLen : Int) :
    Except Panic (List UInt8 × Option AuthError) :=
  if n ≤ 1 ∨ n.toNat &&& (n.toNat - 1) ≠ 0 then .ok ([], some .scryptN)
  else if 2 ^ 30 ≤ toUint64 r * toUint64 p % 2 ^ 64 then .ok ([], some .scryptTooLarge)
  else if p = 0 then .error .divideByZero
  else if (maxInt.tdiv 128).tdiv p < r ∨ maxInt.tdiv 256 < r then .ok ([], some .scryptTooLarge)
  else if r = 0 then .error .divideByZero
  else if (maxInt.tdiv 128).tdiv r < n then .ok ([], some .scryptTooLarge)
  else (·, none) <$> kdf.derive password salt n r p keyLen

/-- `crypto/rand.Read` into a buffer of `n` bytes: the bytes it leaves there, and its error. -/
structure Random where
  read : Nat → List UInt8 × Option Nat
  length_read : ∀ n, (read n).1.length = n

/-- `subtle.ConstantTimeCompare`: `1` when the two slices have the same length and the same
bytes, `0` otherwise. -/
def constantTimeCompare (x y : List UInt8) : Int :=
  if x = y then 1 else 0

/-! ### `Config` -/

namespace Config

/-- `Config.GenSalt`: `make([]byte, c.SaltLen)` filled by `rand.Read`. -/
def genSalt (c : Config) (rand : Random) : Except Panic (List UInt8 × Option AuthError) :=
  if c.saltLen < 0 then .error (.makeSliceLen c.saltLen)
  else .ok ((rand.read c.saltLen.toNat).1, (rand.read c.saltLen.toNat).2.map .random)

/-- `Config.HashPassword`. -/
def hashPassword (c : Config) (kdf : Kdf) (password salt : List UInt8) :
    Except Panic (List UInt8 × Option AuthError) :=
  scryptKey kdf password salt c.n c.r c.p c.hashLen

/-- `Config.CheckPassword`.  The receiver is not read: the hash is recomputed by the
package-level `HashPassword`, that is with `DefaultConfig`. -/
def checkPassword (_c : Config) (kdf : Kdf) (password salt hash : List UInt8) :
    Except Panic (Option AuthError) := do
  let (hash2, err) ← defaultConfig.hashPassword kdf password salt
  match err with
  | none => pure (if constantTimeCompare hash2 hash ≠ 1 then some .invalidPassword else none)
  | some e => pure (some e)

end Config

/-! ### `Passwords` -/

/-- `Passwords`: the configuration of new records and the two callbacks, over a store `σ` of
records of accounts `α`.  `GetAccountPasswordData` returns the data or an error. -/
structure Passwords (σ α : Type) where
  config : Config
  setAccountPasswordData : σ → α → List UInt8 → σ × Option AuthError
  getAccountPasswordData : σ → α → Except AuthError (List UInt8)

namespace Passwords

variable {σ α : Type}

/-- `Passwords.Set`: a new salt, the hash of the password with it, and the encoded record
stored for the account.  A failing step returns its error and leaves the store as it was. -/
def set (s : Passwords σ α) (kdf : Kdf) (rand : Random) (st : σ) (a : α)
    (password : List UInt8) : Except Panic (σ × Option AuthError) := do
  let (salt, err) ← s.config.genSalt rand
  match err with
  | some e => pure (st, some e)
  | none =>
    let (hash, err) ← s.config.hashPassword kdf password salt
    match err with
    | some e => pure (st, some e)
    | none =>
      let data ← encode s.config salt hash
      pure (s.setAccountPasswordData st a data)

/-- `Passwords.Verify`: the stored record of the account, decoded, and the password checked
against its salt and hash. -/
def verify (s : Passwords σ α) (kdf : Kdf) (st : σ) (a : α) (password : List UInt8) :
    Except Panic (Option AuthError) :=
  match s.getAccountPasswordData st a with
  | .error e => pure (some e)
  | .ok data =>
    if data.length = 0 then pure (some .invalidAccount)
    else do
      let (c, salt, hash, err) ← decode data
      match err with
      | some e => pure (some e)
      | none => c.checkPassword kdf password salt.elems hash.elems

/-- `Passwords.Change`: `Set` of the new password when `Verify` accepts the current one. -/
def change (s : Passwords σ α) (kdf : Kdf) (rand : Random) (st : σ) (a : α)
    (currentPassword newPassword : List UInt8) : Except Panic (σ × Option AuthError) := do
  match ← s.verify kdf st a currentPassword with
  | some e => pure (st, some e)
  | none => s.set kdf rand st a newPassword

end Passwords

/-! ### What `scrypt.Key`, `GenSalt` and `CheckPassword` return -/

section Lemmas

variable {kdf : Kdf} {password salt : List UInt8}

/-- When `scrypt.Key` returns no error, its key is the derivation's. -/
theorem scryptKey_eq_ok_none {n r p keyLen : Int} {key : List UInt8}
    (h : scryptKey kdf password salt n r p keyLen = .ok (key, none)) :
    kdf.derive password salt n r p keyLen = .ok key := by
  unfold scryptKey at h
  split_ifs at h <;> try simp at h
  obtain ⟨key', hk, hpair⟩ := Except.map_eq_ok.mp h
  cases hpair
  exact hk

/-- A hash computed without error has `HashLen` bytes. -/
theorem length_of_hashPassword {c : Config} {hash : List UInt8} (hc : 0 ≤ c.hashLen)
    (h : c.hashPassword kdf password salt = .ok (hash, none)) : hash.length = c.hashLen.toNat := by
  obtain ⟨key, hk, hlen⟩ := kdf.derive_ok password salt c.n c.r c.p c.hashLen hc
  rw [scryptKey_eq_ok_none h] at hk
  cases hk
  exact hlen

/-- `HashPassword` reads only `N`, `R`, `P` and `HashLen`. -/
theorem hashPassword_congr {c c' : Config} (hn : c.n = c'.n) (hr : c.r = c'.r) (hp : c.p = c'.p)
    (hh : c.hashLen = c'.hashLen) :
    c.hashPassword kdf password salt = c'.hashPassword kdf password salt := by
  simp only [Config.hashPassword, hn, hr, hp, hh]

/-- The parameters of `DefaultConfig` pass the checks of `scrypt.Key`, and the key has 32
bytes. -/
theorem hashPassword_default :
    ∃ key, defaultConfig.hashPassword kdf password salt = .ok (key, none) ∧ key.length = 32 := by
  obtain ⟨key, hk, hlen⟩ := kdf.derive_ok password salt 32768 8 1 32 (by decide)
  refine ⟨key, ?_, hlen⟩
  simp only [Config.hashPassword, defaultConfig, scryptKey]
  rw [if_neg (by decide), if_neg (by decide), if_neg (by decide), if_neg (by decide),
    if_neg (by decide), if_neg (by decide), hk]
  rfl

/-- `CheckPassword` compares the hash with the key of `DefaultConfig`'s parameters, whatever
the receiver. -/
theorem checkPassword_eq (c : Config) (hash : List UInt8) :
    ∃ key, defaultConfig.hashPassword kdf password salt = .ok (key, none) ∧ key.length = 32 ∧
      c.checkPassword kdf password salt hash =
        .ok (if key = hash then none else some .invalidPassword) := by
  obtain ⟨key, hk, hlen⟩ := @hashPassword_default kdf password salt
  refine ⟨key, hk, hlen, ?_⟩
  simp only [Config.checkPassword, hk, Except.ok_bind, constantTimeCompare]
  by_cases h : key = hash <;> simp [h] <;> rfl

/-- `CheckPassword` rejects every password against a hash that is not 32 bytes long. -/
theorem checkPassword_of_length_ne (c : Config) {hash : List UInt8} (h32 : hash.length ≠ 32) :
    c.checkPassword kdf password salt hash = .ok (some .invalidPassword) := by
  obtain ⟨key, -, hkl, hcheck⟩ := @checkPassword_eq kdf password salt c hash
  rw [hcheck, if_neg fun (e : key = hash) => h32 (e ▸ hkl)]

/-- The empty record decodes to the zero configuration with the header error. -/
theorem decode_nil : decode [] = .ok (⟨0, 0, 0, 0, 0⟩, .nil, .nil, some .invalidHeader) :=
  rfl

theorem length_of_genSalt {c : Config} {rand : Random} {salt : List UInt8} {err : Option AuthError}
    (h : c.genSalt rand = .ok (salt, err)) : salt.length = c.saltLen.toNat := by
  unfold Config.genSalt at h
  split_ifs at h
  cases h
  exact rand.length_read _

end Lemmas

/-! ### `Set` and then `Verify` -/

namespace Passwords

variable {σ α : Type} {s : Passwords σ α} {kdf : Kdf} {rand : Random} {st st' : σ} {a : α}
  {password : List UInt8}

/-- A `Set` that returns no error generated a salt, hashed the password with it under the
configuration, and stored the encoded record. -/
theorem set_eq_ok_none (h : s.set kdf rand st a password = .ok (st', none)) :
    ∃ salt hash data, s.config.genSalt rand = .ok (salt, none) ∧
      s.config.hashPassword kdf password salt = .ok (hash, none) ∧
      encode s.config salt hash = .ok data ∧ s.setAccountPasswordData st a data = (st', none) := by
  obtain ⟨⟨salt, err⟩, hsalt, h⟩ := Except.bind_eq_ok.mp h
  cases err with
  | some e => cases h
  | none =>
    obtain ⟨⟨hash, err⟩, hhash, h⟩ := Except.bind_eq_ok.mp h
    cases err with
    | some e => cases h
    | none =>
      obtain ⟨data, hdata, h⟩ := Except.bind_eq_ok.mp h
      exact ⟨salt, hash, data, hsalt, hhash, hdata, Except.ok.inj h⟩

/-- `Verify` of a non-empty record that decodes without error is `CheckPassword` of its salt and
hash. -/
theorem verify_of_decode {data : List UInt8} {c : Config} {saltS hashS : Slice}
    (hget : s.getAccountPasswordData st a = .ok data) (hne : data ≠ [])
    (hdec : decode data = .ok (c, saltS, hashS, none)) :
    s.verify kdf st a password = c.checkPassword kdf password saltS.elems hashS.elems := by
  simp [verify, hget, hne, hdec]

theorem encodeBase64_ne_nil {raw : List UInt8} (h : raw ≠ []) : encodeBase64 raw ≠ [] := by
  rw [← List.length_pos, length_encodeBase64, encodedLen]
  have := List.length_pos.mpr h
  omega

/-- After a `Set` that returns no error, with a store that gives back what it was last given,
`Verify` of any password is `CheckPassword` of the salt generated by `Set` and the hash that the
configuration's parameters gave for the password set. -/
theorem verify_set
    (hkeep : ∀ st a data st', s.setAccountPasswordData st a data = (st', none) →
      s.getAccountPasswordData st' a = .ok data)
    (hn : 0 ≤ s.config.n ∧ s.config.n < 2 ^ 32) (hr : 0 ≤ s.config.r ∧ s.config.r < 2 ^ 32)
    (hp : 0 ≤ s.config.p ∧ s.config.p < 2 ^ 32)
    (hs : 0 ≤ s.config.saltLen ∧ s.config.saltLen < 2 ^ 32)
    (hh : 0 ≤ s.config.hashLen ∧ s.config.hashLen < 2 ^ 32)
    (hset : s.set kdf rand st a password = .ok (st', none)) :
    ∃ salt hash, s.config.hashPassword kdf password salt = .ok (hash, none) ∧
      hash.length = s.config.hashLen.toNat ∧
      ∀ other, s.verify kdf st' a other = s.config.checkPassword kdf other salt hash := by
  obtain ⟨salt, hash, data, hsalt, hhash, hdata, hstore⟩ := set_eq_ok_none hset
  have hsl := length_of_genSalt hsalt
  have hhl := length_of_hashPassword hh.1 hhash
  obtain ⟨saltS, hashS, hdec, hsaltS, hhashS⟩ :=
    decode_encode s.config salt hash hn hr hp (by omega) (by omega)
  rw [hdata, Except.ok_bind] at hdec
  have hne : data ≠ [] := by
    rintro rfl
    simp [decode_nil] at hdec
  refine ⟨salt, hash, hhash, hhl, fun other => ?_⟩
  rw [verify_of_decode (hkeep _ _ _ _ hstore) hne hdec, hsaltS, hhashS]
  rfl

/-- A record that `Set` wrote under a `HashLen` other than `32` never verifies, not even with the
password it was set with: `CheckPassword` compares the stored hash with the 32-byte key of
`DefaultConfig`. -/
theorem verify_set_of_hashLen_ne
    (hkeep : ∀ st a data st', s.setAccountPasswordData st a data = (st', none) →
      s.getAccountPasswordData st' a = .ok data)
    (hn : 0 ≤ s.config.n ∧ s.config.n < 2 ^ 32) (hr : 0 ≤ s.config.r ∧ s.config.r < 2 ^ 32)
    (hp : 0 ≤ s.config.p ∧ s.config.p < 2 ^ 32)
    (hs : 0 ≤ s.config.saltLen ∧ s.config.saltLen < 2 ^ 32)
    (hh : 0 ≤ s.config.hashLen ∧ s.config.hashLen < 2 ^ 32) (h32 : s.config.hashLen ≠ 32)
    (hset : s.set kdf rand st a password = .ok (st', none)) :
    s.verify kdf st' a password = .ok (some .invalidPassword) := by
  obtain ⟨salt, hash, -, hhl, hv⟩ := verify_set hkeep hn hr hp hs hh hset
  rw [hv, checkPassword_of_length_ne _ (by omega)]

/-- Under the parameters of `DefaultConfig`, `Verify` after `Set` accepts the password set, and
accepts another password exactly when it hashes to the stored hash with the stored salt. -/
theorem verify_set_of_default
    (hkeep : ∀ st a data st', s.setAccountPasswordData st a data = (st', none) →
      s.getAccountPasswordData st' a = .ok data)
    (hdef : s.config.n = 32768 ∧ s.config.r = 8 ∧ s.config.p = 1 ∧ s.config.hashLen = 32)
    (hs : 0 ≤ s.config.saltLen ∧ s.config.saltLen < 2 ^ 32)
    (hset : s.set kdf rand st a password = .ok (st', none)) :
    ∃ salt hash, s.config.hashPassword kdf password salt = .ok (hash, none) ∧
      s.verify kdf st' a password = .ok none ∧
      ∀ other, s.verify kdf st' a other =
        .ok (if s.config.hashPassword kdf other salt = .ok (hash, none) then none
          else some .invalidPassword) := by
  obtain ⟨hn, hr, hp, hh⟩ := hdef
  have hcfg (pw salt : List UInt8) :
      s.config.hashPassword kdf pw salt = defaultConfig.hashPassword kdf pw salt :=
    hashPassword_congr hn hr hp hh
  obtain ⟨salt, hash, hhash, -, hv⟩ :=
    verify_set hkeep (by omega) (by omega) (by omega) hs (by omega) hset
  have hcheck (other : List UInt8) : s.verify kdf st' a other =
      .ok (if s.config.hashPassword kdf other salt = .ok (hash, none) then none
        else some .invalidPassword) := by
    obtain ⟨key, hk, -, hc⟩ := @checkPassword_eq kdf other salt s.config hash
    rw [hv, hc, hcfg, hk]
    simp
  refine ⟨salt, hash, hhash, ?_, hcheck⟩
  rw [hcheck, if_pos hhash]

/-- Under the parameters of `DefaultConfig`, `Change` from the password just set is `Set` of the
new password. -/
theorem change_set_of_default
    (hkeep : ∀ st a data st', s.setAccountPasswordData st a data = (st', none) →
      s.getAccountPasswordData st' a = .ok data)
    (hdef : s.config.n = 32768 ∧ s.config.r = 8 ∧ s.config.p = 1 ∧ s.config.hashLen = 32)
    (hs : 0 ≤ s.config.saltLen ∧ s.config.saltLen < 2 ^ 32)
    (hset : s.set kdf rand st a password = .ok (st', none)) (newPassword : List UInt8) :
    s.change kdf rand st' a password newPassword = s.set kdf rand st' a newPassword := by
  obtain ⟨-, -, -, hacc, -⟩ := verify_set_of_default hkeep hdef hs hset
  simp only [change, hacc, Except.ok_bind]

/-- `Verify` panics on a stored record whose header states a salt longer than the bytes after
it: `DecodeRaw` slices the salt at the stated length. -/
theorem verify_panics_of_short_record (n r p sl hl : Nat) (rest : List UInt8)
    (hn : n < 2 ^ 63) (hr : r < 2 ^ 63) (hp : p < 2 ^ 63) (hsh : sl + hl < 2 ^ 62)
    (hshort : rest.length < sl)
    (hget : s.getAccountPasswordData st a =
      .ok (encodeBase64 ([n, r, p, sl, hl].flatMap putUvarint ++ rest))) :
    s.verify kdf st a password = .error (.sliceOutOfRange
      ([n, r, p, sl, hl].flatMap putUvarint).length
      (([n, r, p, sl, hl].flatMap putUvarint).length + sl : Nat)
      (([n, r, p, sl, hl].flatMap putUvarint).length + rest.length : Nat)) := by
  have hne : encodeBase64 ([n, r, p, sl, hl].flatMap putUvarint ++ rest) ≠ [] :=
    encodeBase64_ne_nil (List.ne_nil_of_length_pos (by
      simp only [List.length_append, List.flatMap_cons]
      have := length_putUvarint_pos n
      omega))
  simp only [verify, hget, List.length_eq_zero, hne, if_false]
  rw [decode_encodeBase64, decodeRaw_header _ _ _ _ _ _ hn hr hp hsh,
    Slice.slice_ofList_error (by simp only [List.length_append]; omega)]
  simp only [Except.error_bind, List.length_append]

end Passwords

/-! ### The accounts of `TestPasswords` -/

/-- The callbacks of `TestPasswords`: a table from account ids to their password data, where an
id not in the table is an error. -/
def testAccounts (config : Config) : Passwords (List (Nat × List UInt8)) Nat where
  config := config
  setAccountPasswordData db id data :=
    if db.any (·.1 == id) then (db.map fun e => if e.1 = id then (id, data) else e, none)
    else (db, some (.storage id))
  getAccountPasswordData db id :=
    match db.lookup id with
    | some data => .ok data
    | none => .error (.storage id)

theorem lookup_map_update {db : List (Nat × List UInt8)} {id : Nat} {data : List UInt8}
    (h : db.any (·.1 == id)) :
    (db.map fun e => if e.1 = id then (id, data) else e).lookup id = some data := by
  induction db with
  | nil => simp at h
  | cons e db ih =>
    obtain ⟨k, v⟩ := e
    by_cases he : k = id
    · subst he
      simp
    · have hdb : db.any (·.1 == id) := by simpa [he] using h
      have hne : (id == k) = false := by simpa using Ne.symm he
      simp [he, List.lookup_cons, hne, ih hdb]

/-- The table of `TestPasswords` gives back what it was last given for an account. -/
theorem testAccounts_keeps (config : Config) (db : List (Nat × List UInt8)) (id : Nat)
    (data : List UInt8) (db' : List (Nat × List UInt8))
    (h : (testAccounts config).setAccountPasswordData db id data = (db', none)) :
    (testAccounts config).getAccountPasswordData db' id = .ok data := by
  simp only [testAccounts] at h ⊢
  split_ifs at h with hid
  · cases h
    simp [lookup_map_update hid]
  · cases h

/-- A derivation that returns `keyLen` zero bytes. -/
def zeroKdf : Kdf where
  derive _ _ _ _ _ keyLen := .ok (List.replicate keyLen.toNat 0)
  derive_ok _ _ _ _ _ _ _ := ⟨_, rfl, List.length_replicate _ _⟩

/-- A random source that fills every buffer with zero bytes. -/
def zeroRandom : Random :=
  ⟨fun n => (List.replicate n 0, none), fun n => List.length_replicate n 0⟩

/-- `Set` of the password `hi` for account `1` with `N = 16`, `R = P = 1` and 16-byte salts and
hashes, from the zero sources. -/
theorem set_hashLen_sixteen :
    (testAccounts ⟨16, 1, 1, 16, 16⟩).set zeroKdf zeroRandom [(1, [])] 1 [104, 105] =
      .ok ([(1, encodeBase64 ([16, 1, 1, 16, 16] ++ List.replicate 32 0))], none) := by
  have h1 : (⟨16, 1, 1, 16, 16⟩ : Config).genSalt zeroRandom = .ok (List.replicate 16 0, none) :=
    rfl
  have h2 : (⟨16, 1, 1, 16, 16⟩ : Config).hashPassword zeroKdf [104, 105] (List.replicate 16 0) =
      .ok (List.replicate 16 0, none) := by decide
  have h3 : encodeRaw ⟨16, 1, 1, 16, 16⟩ (List.replicate 16 0) (List.replicate 16 0) =
      .ok ([16, 1, 1, 16, 16] ++ List.replicate 32 0) := by
    rw [encodeRaw_eq _ _ _ (by simp (disch := decide) [putUvarint_of_lt])]
    simp (disch := decide) [putUvarint_of_lt]; decide
  simp only [Passwords.set, testAccounts, h1, Except.ok_bind, h2, encode, h3]
  rfl

/-- With `N = 16`, `R = P = 1` and 16-byte salts and hashes, `Set` of the password `hi` for
account `1` succeeds and `Verify` of the same password then fails. -/
theorem verify_set_hashLen_sixteen :
    (testAccounts ⟨16, 1, 1, 16, 16⟩).set zeroKdf zeroRandom [(1, [])] 1 [104, 105] =
      .ok ([(1, encodeBase64 ([16, 1, 1, 16, 16] ++ List.replicate 32 0))], none) ∧
    (testAccounts ⟨16, 1, 1, 16, 16⟩).verify zeroKdf
      [(1, encodeBase64 ([16, 1, 1, 16, 16] ++ List.replicate 32 0))] 1 [104, 105] =
      .ok (some .invalidPassword) :=
  ⟨set_hashLen_sixteen, Passwords.verify_set_of_hashLen_ne (testAccounts_keeps _) (by decide)
    (by decide) (by decide) (by decide) (by decide) (by decide) set_hashLen_sixteen⟩

/-- The record `AQEBBQA` states `N = R = P = 1`, a 5-byte salt and an empty hash, in its five
bytes: `Verify` of the password `hi` slices the salt at `[5:10]` of five bytes and panics. -/
theorem verify_panics_AQEBBQA :
    (testAccounts defaultConfig).getAccountPasswordData [(1, [65, 81, 69, 66, 66, 81, 65])] 1 =
      .ok (encodeBase64 ([1, 1, 1, 5, 0].flatMap putUvarint ++ [])) ∧
    (testAccounts defaultConfig).verify zeroKdf [(1, [65, 81, 69, 66, 66, 81, 65])] 1 [104, 105] =
      .error (.sliceOutOfRange 5 10 5) := by
  have hget : (testAccounts defaultConfig).getAccountPasswordData
      [(1, [65, 81, 69, 66, 66, 81, 65])] 1 = .ok (encodeBase64 ([1, 1, 1, 5, 0].flatMap putUvarint ++ [])) := by
    simp (disch := decide) [putUvarint_of_lt]; decide
  refine ⟨hget, ?_⟩
  rw [Passwords.verify_panics_of_short_record 1 1 1 5 0 [] (by decide) (by decide) (by decide)
    (by decide) (by decide) hget]
  simp (disch := decide) [putUvarint_of_lt]

/-! ### Changing a password -/

/-- `Set` of the password `hi` for account `1` under the parameters of `DefaultConfig` with a
one-byte salt, from the zero sources. -/
theorem set_default_params :
    (testAccounts ⟨32768, 8, 1, 1, 32⟩).set zeroKdf zeroRandom [(1, [])] 1 [104, 105] =
      .ok ([(1, encodeBase64 ([128, 128, 2, 8, 1, 1, 32] ++ [0] ++ List.replicate 32 0))], none) := by
  have hu : putUvarint 32768 = [128, 128, 2] := by
    rw [putUvarint_of_ge (by decide), putUvarint_of_ge (by decide), putUvarint_of_lt (by decide)]
    rfl
  have hheader : [toUint64 32768, toUint64 8, toUint64 1, [(0 : UInt8)].length,
      (List.replicate 32 (0 : UInt8)).length].flatMap putUvarint = [128, 128, 2, 8, 1, 1, 32] := by
    rw [show toUint64 32768 = 32768 by simp [toUint64], show toUint64 8 = 8 by simp [toUint64],
      show toUint64 1 = 1 by simp [toUint64], List.length_singleton, List.length_replicate]
    simp only [List.flatMap_cons, List.flatMap_nil, hu, putUvarint_of_lt (show 8 < 0x80 by decide),
      putUvarint_of_lt (show 1 < 0x80 by decide), putUvarint_of_lt (show 32 < 0x80 by decide)]
    rfl
  have h1 : (⟨32768, 8, 1, 1, 32⟩ : Config).genSalt zeroRandom = .ok ([0], none) := rfl
  have h2 : (⟨32768, 8, 1, 1, 32⟩ : Config).hashPassword zeroKdf [104, 105] [0] =
      .ok (List.replicate 32 0, none) := by
    simp only [Config.hashPassword, scryptKey]
    rw [if_neg (by decide), if_neg (by decide), if_neg (by decide), if_neg (by decide),
      if_neg (by decide), if_neg (by decide)]
    rfl
  have h3 : encodeRaw ⟨32768, 8, 1, 1, 32⟩ [0] (List.replicate 32 0) =
      .ok ([128, 128, 2, 8, 1, 1, 32] ++ [0] ++ List.replicate 32 0) := by
    rw [encodeRaw_eq _ _ _ (by rw [hheader]; decide)]
    exact congrArg (fun h => Except.ok (h ++ _ ++ _)) hheader
  unfold Passwords.set
  rw [show (testAccounts ⟨32768, 8, 1, 1, 32⟩).config = ⟨32768, 8, 1, 1, 32⟩ from rfl, h1,
    Except.ok_bind]
  dsimp only
  rw [h2, Except.ok_bind]
  dsimp only
  rw [encode, h3]
  rfl

namespace Passwords

variable {σ α : Type} {s : Passwords σ α} {kdf : Kdf} {rand : Random} {st st' : σ} {a : α}
  {password : List UInt8}

/-- Under the parameters of `DefaultConfig` a record works as intended: after `Set`, `Verify`
accepts the password set and accepts another password exactly when it hashes to the stored hash
with the stored salt, and `Change` from the password set is `Set` of the new password. -/
theorem verify_change_set_of_default
    (hkeep : ∀ st a data st', s.setAccountPasswordData st a data = (st', none) →
      s.getAccountPasswordData st' a = .ok data)
    (hdef : s.config.n = 32768 ∧ s.config.r = 8 ∧ s.config.p = 1 ∧ s.config.hashLen = 32)
    (hs : 0 ≤ s.config.saltLen ∧ s.config.saltLen < 2 ^ 32)
    (hset : s.set kdf rand st a password = .ok (st', none)) :
    (∃ salt hash, s.config.hashPassword kdf password salt = .ok (hash, none) ∧
      s.verify kdf st' a password = .ok none ∧
      ∀ other, s.verify kdf st' a other =
        .ok (if s.config.hashPassword kdf other salt = .ok (hash, none) then none
          else some .invalidPassword)) ∧
    ∀ newPassword, s.change kdf rand st' a password newPassword = s.set kdf rand st' a newPassword :=
  ⟨verify_set_of_default hkeep hdef hs hset, change_set_of_default hkeep hdef hs hset⟩

/-- Under the parameters of `DefaultConfig` with a one-byte salt, the record `Set` writes for `hi`
verifies `hi`, and `Change` from `hi` is `Set` of the new password. -/
theorem verify_change_set_default_params :
    (testAccounts ⟨32768, 8, 1, 1, 32⟩).set zeroKdf zeroRandom [(1, [])] 1 [104, 105] =
        .ok ([(1, encodeBase64 ([128, 128, 2, 8, 1, 1, 32] ++ [0] ++ List.replicate 32 0))],
          none) ∧
      (∃ salt hash, (⟨32768, 8, 1, 1, 32⟩ : Config).hashPassword zeroKdf [104, 105] salt =
          .ok (hash, none) ∧
        (testAccounts ⟨32768, 8, 1, 1, 32⟩).verify zeroKdf
          [(1, encodeBase64 ([128, 128, 2, 8, 1, 1, 32] ++ [0] ++ List.replicate 32 0))] 1
          [104, 105] = .ok none ∧
        ∀ other, (testAccounts ⟨32768, 8, 1, 1, 32⟩).verify zeroKdf
            [(1, encodeBase64 ([128, 128, 2, 8, 1, 1, 32] ++ [0] ++ List.replicate 32 0))] 1 other =
          .ok (if (⟨32768, 8, 1, 1, 32⟩ : Config).hashPassword zeroKdf other salt = .ok (hash, none)
            then none else some .invalidPassword)) ∧
      ∀ newPassword, (testAccounts ⟨32768, 8, 1, 1, 32⟩).change zeroKdf zeroRandom
          [(1, encodeBase64 ([128, 128, 2, 8, 1, 1, 32] ++ [0] ++ List.replicate 32 0))] 1
          [104, 105] newPassword =
        (testAccounts ⟨32768, 8, 1, 1, 32⟩).set zeroKdf zeroRandom
          [(1, encodeBase64 ([128, 128, 2, 8, 1, 1, 32] ++ [0] ++ List.replicate 32 0))] 1
          newPassword :=
  ⟨set_default_params, verify_change_set_of_default (testAccounts_keeps _) ⟨rfl, rfl, rfl, rfl⟩
    (by decide) set_default_params⟩

/-- After a `Set` under a `HashLen` other than `32`, `Change` from the password just set stores
no new record: `Verify` rejects the current password and `Change` returns its error. -/
theorem change_set_of_hashLen_ne
    (hkeep : ∀ st a data st', s.setAccountPasswordData st a data = (st', none) →
      s.getAccountPasswordData st' a = .ok data)
    (hn : 0 ≤ s.config.n ∧ s.config.n < 2 ^ 32) (hr : 0 ≤ s.config.r ∧ s.config.r < 2 ^ 32)
    (hp : 0 ≤ s.config.p ∧ s.config.p < 2 ^ 32)
    (hs : 0 ≤ s.config.saltLen ∧ s.config.saltLen < 2 ^ 32)
    (hh : 0 ≤ s.config.hashLen ∧ s.config.hashLen < 2 ^ 32) (h32 : s.config.hashLen ≠ 32)
    (hset : s.set kdf rand st a password = .ok (st', none)) (newPassword : List UInt8) :
    s.change kdf rand st' a password newPassword = .ok (st', some .invalidPassword) := by
  obtain ⟨salt, hash, -, hhl, hv⟩ := verify_set hkeep hn hr hp hs hh hset
  have hrej : s.verify kdf st' a password = .ok (some .invalidPassword) := by
    rw [hv, checkPassword_of_length_ne _ (by omega)]
  simp only [change, hrej, Except.ok_bind]
  rfl

/-- With `N = 16`, `R = P = 1` and 16-byte salts and hashes, the password `hi` set for account
`1` can never be changed. -/
theorem change_set_hashLen_sixteen :
    (testAccounts ⟨16, 1, 1, 16, 16⟩).set zeroKdf zeroRandom [(1, [])] 1 [104, 105] =
      .ok ([(1, encodeBase64 ([16, 1, 1, 16, 16] ++ List.replicate 32 0))], none) ∧
    ∀ newPassword, (testAccounts ⟨16, 1, 1, 16, 16⟩).change zeroKdf zeroRandom
      [(1, encodeBase64 ([16, 1, 1, 16, 16] ++ List.replicate 32 0))] 1 [104, 105] newPassword =
      .ok ([(1, encodeBase64 ([16, 1, 1, 16, 16] ++ List.replicate 32 0))],
        some .invalidPassword) :=
  ⟨set_hashLen_sixteen, change_set_of_hashLen_ne (testAccounts_keeps _) (by decide) (by decide)
    (by decide) (by decide) (by decide) (by decide) set_hashLen_sixteen⟩

end Passwords

end GoHttpd.Auth
