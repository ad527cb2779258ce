import Mathlib.Data.List.DropRight
import GoHttpd.Basic

/-! Go strings as the router reads them: lists of Unicode scalar values.  Every delimiter the
router looks for (`/`, `|`, `!`, `{`, `}`, `:`) is ASCII, and in UTF-8 no ASCII byte occurs inside
the encoding of another character, so a byte offset of a delimiter and the character offset cut a
valid UTF-8 string at the same place.  The functions are the ones of Go's `strings` and `unicode`
packages that the router calls, and the character classes `\s` and `\w` of its regular
expressions. -/

namespace GoHttpd

/-- `unicode.IsSpace`: the Latin-1 spaces and the other characters with the Unicode `White_Space`
property. -/
def isSpace (c : Char) : Bool :=
  match c.toNat with
  | 0x09 | 0x0A | 0x0B | 0x0C | 0x0D | 0x20 | 0x85 | 0xA0 | 0x1680 | 0x2028 | 0x2029 | 0x202F
  | 0x205F | 0x3000 => true
  | n => 0x2000 ≤ n && n ≤ 0x200A

/-- `\s` of Go's regular expressions: `[\t\n\f\r ]`. -/
def isPerlSpace (c : Char) : Bool :=
  c = '\t' || c = '\n' || c = '\x0c' || c = '\r' || c = ' '

/-- `\w` of Go's regular expressions: `[0-9A-Za-z_]`. -/
def isWordChar (c : Char) : Bool :=
  ('0' ≤ c && c ≤ '9') || ('A' ≤ c && c ≤ 'Z') || ('a' ≤ c && c ≤ 'z') || c = '_'

/-- `strings.TrimSpace`. -/
def trimSpace (s : List Char) : List Char :=
  (s.dropWhile isSpace).rdropWhile isSpace

/-- `strings.Trim(s, cutset)`. -/
def trim (s cutset : List Char) : List Char :=
  (s.dropWhile cutset.contains).rdropWhile cutset.contains

/-- `strings.IndexByte(s, c)`, with `none` for Go's `-1`. -/
def indexByte (s : List Char) (c : Char) : Option Nat :=
  s.findIdx? (· == c)

theorem indexByte_eq_some {s : List Char} {c : Char} {i : Nat} (h : indexByte s c = some i) :
    s[i]? = some c ∧ ∀ j < i, s[j]? ≠ some c := by
  obtain ⟨hi, hc, hlt⟩ := List.findIdx?_eq_some_iff_getElem.mp h
  refine ⟨by simpa [List.getElem?_eq_getElem hi] using hc, fun j hj => ?_⟩
  have := hlt j hj
  simp_all [List.getElem?_eq_getElem (Nat.lt_trans hj hi)]

theorem indexByte_eq_none {s : List Char} {c : Char} (h : indexByte s c = none) : c ∉ s :=
  fun hc => by simp [indexByte] at h; exact h c hc rfl

/-- The offset of the first `c` cuts `s` where `takeWhile` and `dropWhile` do. -/
theorem take_drop_of_indexByte {s : List Char} {c : Char} {i : Nat} (h : indexByte s c = some i) :
    s.take i = s.takeWhile (· != c) ∧ s.drop i = s.dropWhile (· != c) := by
  induction s generalizing i with
  | nil => simp [indexByte] at h
  | cons d t ih =>
    by_cases hd : d = c
    · subst hd
      simp only [indexByte, List.findIdx?_cons, beq_self_eq_true, if_true, Option.some.injEq] at h
      simp [← h]
    · simp only [indexByte, List.findIdx?_cons, beq_iff_eq, hd, if_false, List.findIdx?_succ,
        Option.map_eq_some'] at h
      obtain ⟨j, hj, rfl⟩ := h
      simpa [hd] using ih hj

theorem trim_eq_nil_iff {s cutset : List Char} : trim s cutset = [] ↔ ∀ c ∈ s, c ∈ cutset := by
  rw [trim, List.rdropWhile_eq_nil_iff]
  constructor
  · intro h
    have hnil : s.dropWhile cutset.contains = [] := by
      by_contra hne
      exact Bool.false_ne_true ((List.head_dropWhile_not _ _ hne).symm.trans
        (h _ (List.head_mem hne)))
    simpa using List.dropWhile_eq_nil_iff.mp hnil
  · intro h x hx
    simpa using h x ((List.dropWhile_suffix _).subset hx)

/-! ### Cutting a text at a separator -/

theorem splitOn_of_forall_ne {xs : List Char} {c : Char} (h : ∀ x ∈ xs, x ≠ c) :
    xs.splitOn c = [xs] :=
  List.splitOnP_eq_single _ _ fun x hx heq => h x hx (beq_iff_eq.mp heq)

theorem splitOn_append_cons {xs : List Char} {c : Char} (h : ∀ x ∈ xs, x ≠ c) (as : List Char) :
    (xs ++ c :: as).splitOn c = xs :: as.splitOn c :=
  List.splitOnP_first _ _ (fun x hx heq => h x hx (beq_iff_eq.mp heq)) c (beq_self_eq_true _) as

theorem splitOn_ne_nil (xs : List Char) (c : Char) : xs.splitOn c ≠ [] := List.splitOnP_ne_nil _ _

/-- No piece of a text cut at `c` holds a `c`. -/
theorem not_mem_of_mem_splitOn {xs e : List Char} {c : Char} (h : e ∈ xs.splitOn c) : c ∉ e := by
  induction xs generalizing e with
  | nil =>
    rw [List.mem_singleton.mp h]
    exact List.not_mem_nil c
  | cons x xs ih =>
    simp only [List.splitOn, List.splitOnP_cons] at h ih
    split_ifs at h with hx
    · rcases List.mem_cons.mp h with rfl | h
      · exact List.not_mem_nil c
      · exact ih h
    · obtain ⟨hd, tl, htl⟩ := List.exists_cons_of_ne_nil (List.splitOnP_ne_nil (· == c) xs)
      rw [htl] at h ih
      rcases List.mem_cons.mp h with rfl | h
      · rintro (_ | ⟨_, hmem⟩)
        · exact hx (beq_self_eq_true c)
        · exact ih (List.mem_cons_self _ _) hmem
      · exact ih (List.mem_cons_of_mem _ h)

/-! ### Cutting a text after a prefix -/

theorem dropWhile_append_of_all {p : Char → Bool} {xs ys : List Char}
    (h : ∀ c ∈ xs, p c = true) : (xs ++ ys).dropWhile p = ys.dropWhile p := by
  rw [List.dropWhile_append, if_pos (by simpa [List.dropWhile_eq_nil_iff] using h)]

theorem dropWhile_of_head {p : Char → Bool} {xs : List Char} (h : ∀ c ∈ xs.head?, p c = false) :
    xs.dropWhile p = xs := by
  cases xs with
  | nil => rfl
  | cons c cs => exact List.dropWhile_cons_of_neg (by simpa using h c rfl)

theorem rdropWhile_append_of_all {p : Char → Bool} {xs ys : List Char}
    (hxs : ∀ c ∈ xs.getLast?, p c = false) (hys : ∀ c ∈ ys, p c = true) :
    (xs ++ ys).rdropWhile p = xs := by
  simp only [List.rdropWhile, List.reverse_append]
  rw [dropWhile_append_of_all (by simpa using hys), dropWhile_of_head, List.reverse_reverse]
  simpa [List.head?_reverse] using hxs

theorem rdropWhile_append_of_head {p : Char → Bool} (xs : List Char) {ys : List Char}
    (hne : ys ≠ []) (h : ∀ c ∈ ys.head?, p c = false) :
    (xs ++ ys).rdropWhile p = xs ++ ys.rdropWhile p := by
  obtain ⟨a, as, rfl⟩ := List.exists_cons_of_ne_nil hne
  have hkeep : ((a :: as).reverse.dropWhile p).isEmpty = false := by
    rw [Bool.eq_false_iff, ne_eq, List.isEmpty_iff, List.dropWhile_eq_nil_iff]
    exact fun hall => by
      simpa [h a rfl] using hall a (List.mem_reverse.mpr (List.mem_cons_self _ _))
  simp only [List.rdropWhile, List.reverse_append, List.dropWhile_append, hkeep]
  rw [if_neg Bool.false_ne_true, List.reverse_append, List.reverse_reverse]

/-- `TrimSpace` of a text that starts with a non-space: only the end of its last part is
trimmed. -/
theorem trimSpace_append {xs ys : List Char} (hne : ys ≠ [])
    (hxs : ∀ c ∈ (xs ++ ys).head?, isSpace c = false) (hys : ∀ c ∈ ys.head?, isSpace c = false) :
    trimSpace (xs ++ ys) = xs ++ trimSpace ys := by
  rw [trimSpace, trimSpace, dropWhile_of_head hxs, dropWhile_of_head hys,
    rdropWhile_append_of_head xs hne hys]

theorem rdropWhile_cons_of_neg {p : Char → Bool} {c : Char} (as : List Char) (h : p c = false) :
    (c :: as).rdropWhile p = c :: as.rdropWhile p := by
  simp only [List.rdropWhile, List.reverse_cons, List.dropWhile_append]
  cases hd : (as.reverse.dropWhile p).isEmpty with
  | true => rw [if_pos rfl, List.isEmpty_iff.mp hd, List.dropWhile_cons_of_neg (by simp [h])]; rfl
  | false => rw [if_neg Bool.false_ne_true, List.reverse_append]; rfl

theorem trimSpace_of_head {ys : List Char} {c : Char} (hys : ys.head? = some c)
    (hc : isSpace c = false) : (trimSpace ys).head? = some c := by
  cases ys with
  | nil => cases hys
  | cons a as =>
  cases hys
  rw [trimSpace, dropWhile_of_head (by simpa using hc), rdropWhile_cons_of_neg as hc]
  rfl

theorem indexByte_append_of_head {xs ys : List Char} {c : Char} (hxs : c ∉ xs)
    (hys : ys.head? = some c) : indexByte (xs ++ ys) c = some xs.length := by
  cases ys with
  | nil => cases hys
  | cons a as =>
  cases hys
  have hnone : xs.findIdx? (· == c) = none :=
    List.findIdx?_eq_none_iff.mpr fun x hx => beq_false_of_ne fun hxc => hxs (hxc ▸ hx)
  simp [indexByte, List.findIdx?_append, hnone]

end GoHttpd
