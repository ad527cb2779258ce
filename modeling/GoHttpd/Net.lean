import GoHttpd.Text

/-! `net.SplitHostPort` and `net.JoinHostPort` of Go's standard library: the first is what
`stripHostPort` calls on the `Host` of a request, the second what a client writes there.  The port
starts after the last `:`, and a host with a `:` (an IPv6 literal) is written in brackets.  As for
the router, every delimiter is ASCII, so the offsets of characters cut a UTF-8 string where Go's
byte offsets do.

What `SplitHostPort` accepts is well formed (`splitHostPort_eq_ok`): a host without `:` then `:`
and the port, or a host in brackets then `:` and the port, where neither part holds a bracket and
the port holds no `:`.  On such texts it inverts `JoinHostPort` (`splitHostPort_joinHostPort`). -/

namespace GoHttpd

/-- `bytealg.LastIndexByteString(s, c)`, with `none` for Go's `-1`. -/
def lastIndexByte : List Char → Char → Option Nat
  | [], _ => none
  | x :: xs, c =>
    match lastIndexByte xs c with
    | some i => some (i + 1)
    | none => if x = c then some 0 else none

theorem lastIndexByte_eq_none_iff {s : List Char} {c : Char} : lastIndexByte s c = none ↔ c ∉ s := by
  induction s with
  | nil => simp [lastIndexByte]
  | cons x xs ih =>
    rw [lastIndexByte, List.mem_cons, not_or, ← ih]
    cases lastIndexByte xs c
    · by_cases hx : x = c <;> simp [hx, Ne.symm]
    · simp

theorem lastIndexByte_append_cons (xs : List Char) {c : Char} {ys : List Char} (h : c ∉ ys) :
    lastIndexByte (xs ++ c :: ys) c = some xs.length := by
  induction xs with
  | nil => rw [List.nil_append, lastIndexByte, lastIndexByte_eq_none_iff.mpr h, if_pos rfl]; rfl
  | cons x xs ih => rw [List.cons_append, lastIndexByte, ih]; rfl

/-- The last `c` cuts `s` into the text before it and a text without `c`. -/
theorem lastIndexByte_eq_some {s : List Char} {c : Char} {i : Nat} (h : lastIndexByte s c = some i) :
    ∃ xs ys, s = xs ++ c :: ys ∧ c ∉ ys ∧ xs.length = i := by
  induction s generalizing i with
  | nil => cases h
  | cons x xs ih =>
    rw [lastIndexByte] at h
    split at h
    · rename_i j hj
      cases h
      obtain ⟨p, q, rfl, hq, rfl⟩ := ih hj
      exact ⟨x :: p, q, rfl, hq, rfl⟩
    · rename_i hnone
      split_ifs at h with hx
      cases h
      subst hx
      exact ⟨[], xs, rfl, lastIndexByte_eq_none_iff.mp hnone, rfl⟩

/-- The first `c` cuts `s` into a text without `c` and the text after it. -/
theorem indexByte_eq_some_split {s : List Char} {c : Char} {i : Nat} (h : indexByte s c = some i) :
    ∃ xs ys, s = xs ++ c :: ys ∧ c ∉ xs ∧ xs.length = i := by
  induction s generalizing i with
  | nil => cases h
  | cons x xs ih =>
    by_cases hx : x = c
    · subst hx
      simp only [indexByte, List.findIdx?_cons, beq_self_eq_true, if_true, Option.some.injEq] at h
      exact ⟨[], xs, rfl, List.not_mem_nil _, h⟩
    · simp only [indexByte, List.findIdx?_cons, beq_iff_eq, hx, if_false, List.findIdx?_succ,
        Option.map_eq_some'] at h
      obtain ⟨j, hj, rfl⟩ := h
      obtain ⟨p, q, rfl, hp, rfl⟩ := ih hj
      exact ⟨x :: p, q, rfl, by simp [hp, Ne.symm hx], rfl⟩

theorem indexByte_eq_none_iff {s : List Char} {c : Char} : indexByte s c = none ↔ c ∉ s :=
  ⟨indexByte_eq_none, fun h => List.findIdx?_eq_none_iff.mpr fun _ hx =>
    beq_false_of_ne fun hxc => h (hxc ▸ hx)⟩

/-- The errors of `SplitHostPort`, by their texts. -/
inductive AddrError where
  /-- `missing port in address` -/
  | missingPort
  /-- `missing ']' in address` -/
  | missingBracket
  /-- `too many colons in address` -/
  | tooManyColons
  /-- `unexpected '[' in address` -/
  | unexpectedOpen
  /-- `unexpected ']' in address` -/
  | unexpectedClose
  deriving DecidableEq, Repr

/-- The host of `SplitHostPort`, given the offset `i` of the last `:`: the text in brackets when
the first `]` stands just before that `:`, or else the text before the `:`, which must have no
`:` of its own; with the offsets `j` and `k` from which no `[` resp. `]` may follow. -/
def splitHost (hostport : List Char) (i : Nat) : Except AddrError (List Char × Nat × Nat) :=
  if hostport.head? = some '[' then
    match indexByte hostport ']' with
    | none => .error .missingBracket
    | some e =>
      if e + 1 = hostport.length then .error .missingPort
      else if e + 1 = i then .ok ((hostport.take e).drop 1, 1, e + 1)
      else if hostport[e + 1]? = some ':' then .error .tooManyColons
      else .error .missingPort
  else if (indexByte (hostport.take i) ':').isSome then .error .tooManyColons
  else .ok (hostport.take i, 0, 0)

/-- `net.SplitHostPort`: the host and the port of `host:port` or `[host]:port`. -/
def splitHostPort (hostport : List Char) : Except AddrError (List Char × List Char) :=
  match lastIndexByte hostport ':' with
  | none => .error .missingPort
  | some i =>
    match splitHost hostport i with
    | .error e => .error e
    | .ok (host, j, k) =>
      if (indexByte (hostport.drop j) '[').isSome then .error .unexpectedOpen
      else if (indexByte (hostport.drop k) ']').isSome then .error .unexpectedClose
      else .ok (host, hostport.drop (i + 1))

/-- `net.JoinHostPort`: a host with a `:` is taken for an IPv6 literal and put in brackets. -/
def joinHostPort (host port : List Char) : List Char :=
  if (indexByte host ':').isSome then '[' :: host ++ ']' :: ':' :: port
  else host ++ ':' :: port

/-- A port as `SplitHostPort` returns it: no `:` and no bracket. -/
def PortOk (port : List Char) : Prop := ':' ∉ port ∧ '[' ∉ port ∧ ']' ∉ port

instance (port : List Char) : Decidable (PortOk port) :=
  inferInstanceAs (Decidable (_ ∧ _ ∧ _))

/-- `SplitHostPort` accepts only `host:port` with a host without `:`, and `[host]:port`, with no
bracket in the host and a port that `PortOk` accepts; it returns that host and that port. -/
theorem splitHostPort_eq_ok {hostport host port : List Char}
    (h : splitHostPort hostport = .ok (host, port)) :
    PortOk port ∧ '[' ∉ host ∧ ']' ∉ host ∧
      ((hostport = host ++ ':' :: port ∧ ':' ∉ host) ∨
        hostport = '[' :: host ++ ']' :: ':' :: port) := by
  unfold splitHostPort at h
  split at h
  · cases h
  rename_i i hi
  obtain ⟨C, D, rfl, hD, rfl⟩ := lastIndexByte_eq_some hi
  split at h
  · cases h
  rename_i host' j k hs
  split_ifs at h with ho hc
  simp only [List.drop_append, List.drop_zero, List.drop_succ_cons, Except.ok.injEq,
    Prod.mk.injEq] at h
  obtain ⟨rfl, rfl⟩ := h
  have ho' : '[' ∉ (C ++ ':' :: D).drop j := indexByte_eq_none_iff.mp (by simpa using ho)
  have hc' : ']' ∉ (C ++ ':' :: D).drop k := indexByte_eq_none_iff.mp (by simpa using hc)
  unfold splitHost at hs
  split_ifs at hs with hb hcol
  · split at hs
    · cases hs
    rename_i e he
    split_ifs at hs with h1 h2
    all_goals try cases hs
    obtain ⟨A, B, hAB, hA, rfl⟩ := indexByte_eq_some_split he
    have hAB' : (A ++ [']']) ++ B = C ++ ':' :: D := by simpa using hAB.symm
    obtain ⟨rfl, rfl⟩ := List.append_inj hAB' (by simp [h2])
    cases A with
    | nil => simp at hb
    | cons a A =>
      obtain rfl : a = '[' := by simpa using hb
      simp at ho' hc' hA ⊢
      exact ⟨⟨hD, ho'.2, hc'⟩, ho'.1, hA⟩
  · cases hs
    have hcol' : ':' ∉ C := indexByte_eq_none_iff.mp (by simpa [List.take_left] using hcol)
    simp at ho' hc' ⊢
    exact ⟨⟨hD, ho'.2, hc'.2⟩, ho'.1, hc'.1, .inl hcol'⟩

theorem splitHostPort_joinHostPort {host port : List Char} (hh : '[' ∉ host ∧ ']' ∉ host)
    (hp : PortOk port) : splitHostPort (joinHostPort host port) = .ok (host, port) := by
  obtain ⟨hpc, hpo, hpk⟩ := hp
  unfold joinHostPort
  split_ifs with hcol
  · have hlast : lastIndexByte ('[' :: (host ++ ']' :: ':' :: port)) ':' = some (host.length + 2) := by
      simpa using lastIndexByte_append_cons ('[' :: host ++ [']']) hpc
    have hclose : indexByte ('[' :: (host ++ ']' :: ':' :: port)) ']' = some (host.length + 1) := by
      simpa using @indexByte_append_of_head ('[' :: host) (']' :: ':' :: port) _
        (by simp [hh.2]) rfl
    have hopen : indexByte (host ++ ']' :: ':' :: port) '[' = none :=
      indexByte_eq_none_iff.mpr (by simp [hh.1, hpo])
    have hclose' : indexByte (':' :: port) ']' = none := indexByte_eq_none_iff.mpr (by simp [hpk])
    unfold splitHostPort splitHost
    simp only [List.cons_append, hlast, List.head?_cons, if_true, hclose]
    simp [List.take_left, List.drop_append, hopen, hclose']
  · have hcolon : indexByte host ':' = none := by simpa using hcol
    have hhead : (host ++ ':' :: port).head? ≠ some '[' := by
      cases host with
      | nil => simp
      | cons x t => exact fun hx => hh.1 (by cases hx; exact List.mem_cons_self _ _)
    have hopen : indexByte (host ++ ':' :: port) '[' = none :=
      indexByte_eq_none_iff.mpr (by simp [hh.1, hpo])
    have hclose : indexByte (host ++ ':' :: port) ']' = none :=
      indexByte_eq_none_iff.mpr (by simp [hh.2, hpk])
    unfold splitHostPort splitHost
    simp only [lastIndexByte_append_cons host hpc, if_neg hhead, List.take_left, hcolon]
    simp [hopen, hclose]

end GoHttpd
