import LibSeal.Data.Bytes
import Mathlib.Data.List.Infix

/-!
# The `LIKE` operator

`likeFunc` and `patternCompare` of SQLite 3.23.1, for texts without NUL. The pattern is read
character by character (`chars`): `%` stands for any characters, `_` for any one, and an ASCII
letter for itself in either case. Every other character stands for itself. The text is read in two
ways: character by character (`utf8Read`), and byte by byte where a `%` is followed by a character
up to `U+0080`.

* Bytes that are no UTF-8 are read without complaint: a lone continuation byte is a character, and
  what comes after a leading byte belongs to it as long as it is a continuation byte.
* After a `%` a failure may say that no other choice for the `%` can succeed (`noWildcardMatch`),
  and then none is tried. `U+0080` apart, this loses nothing (`decides`).
* A pattern of more than 50000 bytes is an error, which aborts the statement.

What a pattern means is `StandsFor`, by the wildcards and the case of letters, with no search in it.
**`patternCompare` decides it** for every text, UTF-8 or not, and for every pattern without a
`U+0080` behind a `%` (`patternCompare_iff_standsFor`). This one character is searched for as a
byte, and then also found within others.
-/

namespace SqlLike

/-! ### Characters -/

/-- `(b & 0xc0) == 0x80` -/
def isContinuation (b : UInt8) : Bool := 0x80 ≤ b && b < 0xC0

/-- `sqlite3Utf8Trans1`: the bits that a leading byte contributes. -/
def leadBits (b : UInt8) : ℕ :=
  if b < 0xE0 then (b - 0xC0).toNat
  else if b < 0xF0 then (b - 0xE0).toNat
  else if b < 0xF8 then (b - 0xF0).toNat
  else if b < 0xFC then (b - 0xF8).toNat
  else if b < 0xFE then (b - 0xFC).toNat
  else 0

/-- What is no character is replaced: one that needs no leading byte, half of a pair, and the two
last of the plane. -/
def checkChar (c : ℕ) : ℕ :=
  if c < 0x80 ∨ (0xD800 ≤ c ∧ c < 0xE000) ∨ c = 0xFFFE ∨ c = 0xFFFF then 0xFFFD else c

/-- The continuation bytes of a character, and what comes after them. -/
def readContinuation (c : ℕ) : Bytes → ℕ × Bytes
  | [] => (checkChar c, [])
  | b :: s =>
    if isContinuation b then readContinuation ((c * 64 + (b &&& 0x3F).toNat) % 4294967296) s
    else (checkChar c, b :: s)

/-- `sqlite3Utf8Read`: a character and what comes after it; none at the end of the text. -/
def utf8Read : Bytes → Option (ℕ × Bytes)
  | [] => none
  | b :: s => some (if b < 0xC0 then (b.toNat, s) else readContinuation (leadBits b) s)

/-- `utf8Read`, so many times. -/
def readChars : ℕ → Bytes → List ℕ
  | 0, _ => []
  | n + 1, s => ((utf8Read s).map fun (c, s) ↦ c :: readChars n s).getD []

/-- The characters of a text. Each takes one byte at least. -/
def chars (s : Bytes) : List ℕ := readChars s.length s

theorem length_readContinuation_le (c : ℕ) (s : Bytes) :
    (readContinuation c s).2.length ≤ s.length := by
  induction s generalizing c with
  | nil => exact le_rfl
  | cons b s ih =>
    rw [readContinuation]
    split_ifs
    · exact (ih _).trans (Nat.le_succ _)
    · exact le_rfl

theorem length_lt_of_utf8Read {s s' : Bytes} {c : ℕ} (h : utf8Read s = some (c, s')) :
    s'.length < s.length := by
  cases s with
  | nil => exact nomatch h
  | cons b s =>
    rw [utf8Read, Option.some.injEq] at h
    split_ifs at h
    · obtain ⟨-, rfl⟩ := Prod.mk.inj h
      exact Nat.lt_succ_self _
    · have hle := length_readContinuation_le (leadBits b) s
      rw [h] at hle
      exact Nat.lt_succ_of_le hle

/-- **The bytes of a text are enough steps** to read its characters. -/
theorem readChars_eq_chars {s : Bytes} {n : ℕ} (h : s.length ≤ n) : readChars n s = chars s := by
  suffices hmany : ∀ m n, s.length ≤ m → s.length ≤ n → readChars m s = readChars n s from
    hmany _ _ h le_rfl
  intro m
  induction m generalizing s with
  | zero =>
    intro n hm _
    obtain rfl := List.length_eq_zero_iff.1 (Nat.le_zero.1 hm)
    cases n <;> rfl
  | succ m ih =>
    intro n hm hn
    cases n with
    | zero =>
      obtain rfl := List.length_eq_zero_iff.1 (Nat.le_zero.1 hn)
      rfl
    | succ n =>
      rw [readChars, readChars]
      cases hread : utf8Read s with
      | none => rfl
      | some p =>
        obtain ⟨c, rest⟩ := p
        have hlt := length_lt_of_utf8Read hread
        have hrest : readChars m rest = readChars n rest := ih (by omega) n (by omega) (by omega)
        simp only [Option.map_some, Option.getD_some, hrest]

theorem chars_of_utf8Read_eq_none {s : Bytes} (h : utf8Read s = none) : chars s = [] := by
  cases s with
  | nil => rfl
  | cons b s => exact nomatch h

theorem chars_of_utf8Read {s s' : Bytes} {c : ℕ} (h : utf8Read s = some (c, s')) :
    chars s = c :: chars s' := by
  have hlength := length_lt_of_utf8Read h
  obtain ⟨n, hn⟩ := Nat.exists_eq_succ_of_ne_zero (Nat.ne_zero_of_lt hlength)
  rw [chars, hn, readChars, h, Option.map_some, Option.getD_some,
    ← readChars_eq_chars (n := n) (by omega)]

theorem utf8Read_of_ascii {b : UInt8} (h : b < 0x80) (s : Bytes) :
    utf8Read (b :: s) = some (b.toNat, s) := by
  have hlead : b < 0xC0 := h.trans (by decide)
  rw [utf8Read, if_pos hlead]

theorem readContinuation_append_of_ascii {b : UInt8} (h : b < 0x80) (k : ℕ) (s t : Bytes) :
    readContinuation k (s ++ b :: t) =
      ((readContinuation k s).1, (readContinuation k s).2 ++ b :: t) := by
  have hb : isContinuation b = false := by
    rw [isContinuation, Bool.and_eq_false_iff, decide_eq_false_iff_not]
    exact Or.inl (UInt8.not_le.2 h)
  induction s generalizing k with
  | nil =>
    rw [List.nil_append, readContinuation, readContinuation, hb, if_neg Bool.false_ne_true]
    rfl
  | cons a s ih =>
    rw [List.cons_append, readContinuation, readContinuation]
    split_ifs
    · exact ih _
    · rfl

/-- An ASCII character is no part of the one before it. -/
theorem chars_append_of_ascii {b : UInt8} (h : b < 0x80) (s : Bytes) :
    chars (s ++ [b]) = chars s ++ [b.toNat] := by
  induction hn : s.length using Nat.strong_induction_on generalizing s with
  | _ n ih =>
  subst hn
  cases s with
  | nil => exact chars_of_utf8Read (utf8Read_of_ascii h [])
  | cons a s =>
    by_cases hlead : a < 0xC0
    · have hread : ∀ s, utf8Read (a :: s) = some (a.toNat, s) := by
        intro s
        rw [utf8Read, if_pos hlead]
      rw [List.cons_append, chars_of_utf8Read (hread _), chars_of_utf8Read (hread s),
        ih _ (length_lt_of_utf8Read (hread s)) s rfl, List.cons_append]
    · have hread : ∀ s, utf8Read (a :: s) = some (readContinuation (leadBits a) s) := by
        intro s
        rw [utf8Read, if_neg hlead]
      have happend := hread (s ++ [b])
      rw [readContinuation_append_of_ascii h] at happend
      rw [List.cons_append, chars_of_utf8Read happend, chars_of_utf8Read (hread s),
        ih _ (length_lt_of_utf8Read (hread s)) _ rfl, List.cons_append]

/-! ### Comparing -/

/-- `SQLITE_MATCH`, `SQLITE_NOMATCH` and `SQLITE_NOWILDCARDMATCH`. -/
inductive Comparison
  | matched
  | noMatch
  | noWildcardMatch
  deriving DecidableEq

/-- `if (bMatch != SQLITE_NOMATCH) return bMatch;` -/
def Comparison.orElse : Comparison → Comparison → Comparison
  | noMatch, next => next
  | result, _ => result

/-- `%` and `_` -/
def percent : ℕ := 37

@[inherit_doc percent]
def underscore : ℕ := 95

/-- `sqlite3Tolower`, for ASCII -/
def toLower (c : ℕ) : ℕ := if 65 ≤ c ∧ c ≤ 90 then c + 32 else c

/-- `sqlite3Toupper`, for ASCII -/
def toUpper (c : ℕ) : ℕ := if 97 ≤ c ∧ c ≤ 122 then c - 32 else c

/-- A character of the pattern, other than `%`, stands for one of the text. -/
def charMatches (c c2 : ℕ) : Bool :=
  c == c2 || (toLower c == toLower c2 && c < 0x80 && c2 < 0x80) || c == underscore

/-- The bytes of `zStop`, at which `strcspn` stops. -/
def isStop (c : ℕ) (b : UInt8) : Bool := b.toNat == toUpper c || b.toNat == toLower c

/-- Go on after one of the bytes at which `strcspn` stops. -/
def searchByte (c : ℕ) (rest : Bytes → Comparison) : Bytes → Comparison
  | [] => .noWildcardMatch
  | b :: s =>
    if isStop c b then (rest s).orElse (searchByte c rest s) else searchByte c rest s

/-- Go on after one of the places where the character is; the number bounds the characters. -/
def searchChar (c : ℕ) (rest : Bytes → Comparison) : ℕ → Bytes → Comparison
  | 0, _ => .noWildcardMatch
  | n + 1, s =>
    match utf8Read s with
    | none => .noWildcardMatch
    | some (c2, s) =>
      if c2 = c then (rest s).orElse (searchChar c rest n s) else searchChar c rest n s

/-- `patternCompare`. After a `%` further wildcards are skipped, an `_` with a character of the
text, and then the next character of the pattern is searched for. -/
def patternCompare (afterPercent : Bool) : List ℕ → Bytes → Comparison
  | [], s => if afterPercent || s.isEmpty then .matched else .noMatch
  | c :: pattern, s =>
    if c = percent then patternCompare true pattern s
    else if afterPercent then
      if c = underscore then
        match utf8Read s with
        | none => .noWildcardMatch
        | some (_, s) => patternCompare true pattern s
      else if c ≤ 0x80 then searchByte c (patternCompare false pattern) s
      else searchChar c (patternCompare false pattern) s.length s
    else
      match utf8Read s with
      | none => .noMatch
      | some (c2, s) => if charMatches c c2 then patternCompare false pattern s else .noMatch

/-- `SQLITE_MAX_LIKE_PATTERN_LENGTH` -/
def maxPatternLength : ℕ := 50000

/-- `likeFunc`: `s LIKE pattern`. The outer `none` is the error, the inner one `NULL`. The length of
the pattern is looked at first. -/
def like (s pattern : Option Bytes) : Option (Option Bool) :=
  if (pattern.getD []).length ≤ maxPatternLength then
    some (s.bind fun s ↦ pattern.map fun pattern ↦
      patternCompare false (chars pattern) s == .matched)
  else none

/-! ### What a pattern stands for -/

/-- **What a pattern stands for**: `%` for any characters, `_` for any one, and everything else for
itself, an ASCII letter in either case. -/
inductive StandsFor : List ℕ → List ℕ → Prop
  | nil : StandsFor [] []
  | any {p s : List ℕ} (u : List ℕ) (h : StandsFor p s) : StandsFor (percent :: p) (u ++ s)
  | one {p s : List ℕ} (d : ℕ) (h : StandsFor p s) : StandsFor (underscore :: p) (d :: s)
  | same {c d : ℕ} {p s : List ℕ} (hlower : toLower c = toLower d) (h : StandsFor p s) :
      StandsFor (c :: p) (d :: s)

/-- A beginning of the text is what the pattern stands for. -/
def StandsForBeginning (p s : Bytes) : Prop := ∃ t, t <+: chars s ∧ StandsFor (chars p) t

/-- Characters match if they are the same up to the case of ASCII letters, or for an `_`. -/
theorem charMatches_iff {c d : ℕ} :
    charMatches c d = true ↔ c = underscore ∨ toLower c = toLower d := by
  rw [charMatches]
  simp only [Bool.or_eq_true, Bool.and_eq_true, beq_iff_eq, decide_eq_true_eq]
  unfold toLower
  split_ifs <;> omega

/-- A pattern stands for its own characters. -/
theorem StandsFor.refl (p : List ℕ) : StandsFor p p := by
  induction p with
  | nil => exact nil
  | cons c p ih => exact same rfl ih

theorem standsFor_nil_iff {s : List ℕ} : StandsFor [] s ↔ s = [] := by
  constructor
  · intro h
    cases h
    rfl
  · rintro rfl
    exact .nil

/-- A `%` leaves a rest of the text. -/
theorem standsFor_percent_iff {p s : List ℕ} :
    StandsFor (percent :: p) s ↔ ∃ t, t <:+ s ∧ StandsFor p t := by
  constructor
  · intro h
    cases h with
    | any u h => exact ⟨_, List.suffix_append _ _, h⟩
    | @same _ d _ t hlower h => exact ⟨t, List.suffix_cons d t, h⟩
  · rintro ⟨t, ⟨u, rfl⟩, h⟩
    exact .any u h

theorem standsFor_cons_iff {c : ℕ} (hpercent : c ≠ percent) {p s : List ℕ} :
    StandsFor (c :: p) s ↔ ∃ d t, s = d :: t ∧ charMatches c d = true ∧ StandsFor p t := by
  simp only [charMatches_iff]
  constructor
  · intro h
    cases h with
    | any => exact absurd rfl hpercent
    | one d h => exact ⟨d, _, rfl, Or.inl rfl, h⟩
    | same hlower h => exact ⟨_, _, rfl, Or.inr hlower, h⟩
  · rintro ⟨d, t, rfl, rfl | hlower, h⟩
    · exact .one d h
    · exact .same hlower h

/-- **A `%` at the end asks for a beginning.** -/
theorem standsFor_append_percent_iff {p s : List ℕ} :
    StandsFor (p ++ [percent]) s ↔ ∃ t, t <+: s ∧ StandsFor p t := by
  constructor
  · intro h
    generalize hq : p ++ [percent] = q at h
    induction h generalizing p with
    | nil => exact absurd hq (List.append_ne_nil_of_right_ne_nil _ (List.cons_ne_nil _ _))
    | @any _ s u h ih =>
      rcases p with - | ⟨c, p⟩
      · exact ⟨[], List.nil_prefix, .nil⟩
      · obtain ⟨rfl, rfl⟩ := List.cons.inj hq
        obtain ⟨t, hprefix, ht⟩ := ih rfl
        exact ⟨u ++ t, (List.prefix_append_right_inj u).2 hprefix, .any u ht⟩
    | one d h ih =>
      rcases p with - | ⟨c, p⟩
      · exact ⟨[], List.nil_prefix, .nil⟩
      · obtain ⟨rfl, rfl⟩ := List.cons.inj hq
        obtain ⟨t, hprefix, ht⟩ := ih rfl
        exact ⟨d :: t, List.cons_prefix_cons.2 ⟨rfl, hprefix⟩, .one d ht⟩
    | @same _ d _ _ hlower h ih =>
      rcases p with - | ⟨c, p⟩
      · exact ⟨[], List.nil_prefix, .nil⟩
      · obtain ⟨rfl, rfl⟩ := List.cons.inj hq
        obtain ⟨t, hprefix, ht⟩ := ih rfl
        exact ⟨d :: t, List.cons_prefix_cons.2 ⟨rfl, hprefix⟩, .same hlower ht⟩
  · rintro ⟨t, ⟨u, rfl⟩, h⟩
    induction h with
    | nil => simpa using StandsFor.any u .nil
    | any v h ih => rw [List.append_assoc]; exact .any v ih
    | one d h ih => exact .one d ih
    | same hlower h ih => exact .same hlower ih

/-- Without wildcards a pattern stands for one text, up to case. -/
theorem standsFor_iff_of_noWildcard {p s : List ℕ} (hp : ∀ c ∈ p, c ≠ percent ∧ c ≠ underscore) :
    StandsFor p s ↔ p.map toLower = s.map toLower := by
  induction p generalizing s with
  | nil => rw [standsFor_nil_iff, List.map_nil, eq_comm (a := []), List.map_eq_nil_iff]
  | cons c p ih =>
    obtain ⟨⟨hpercent, hunderscore⟩, hp⟩ := List.forall_mem_cons.1 hp
    rw [standsFor_cons_iff hpercent, List.map_cons, eq_comm, List.map_eq_cons_iff]
    simp only [charMatches_iff, hunderscore, false_or, ih hp]
    constructor
    · rintro ⟨d, t, rfl, hlower, ht⟩
      exact ⟨d, t, rfl, hlower.symm, ht.symm⟩
    · rintro ⟨d, t, rfl, hlower, ht⟩
      exact ⟨d, t, rfl, hlower.symm, ht.symm⟩

/-! ### The comparison on characters -/

/-- The search for a character. -/
def searchChars (c : ℕ) (rest : List ℕ → Comparison) : List ℕ → Comparison
  | [] => .noWildcardMatch
  | d :: s =>
    if charMatches c d then (rest s).orElse (searchChars c rest s) else searchChars c rest s

/-- Go on after the next character, for an `_` behind a `%`. -/
def skipChar (rest : List ℕ → Comparison) : List ℕ → Comparison
  | [] => .noWildcardMatch
  | _ :: s => rest s

/-- Go on after the next character, if it matches. -/
def nextChar (c : ℕ) (rest : List ℕ → Comparison) : List ℕ → Comparison
  | [] => .noMatch
  | d :: s => if charMatches c d then rest s else .noMatch

/-- `patternCompare`, of characters with characters. -/
def compareChars (afterPercent : Bool) : List ℕ → List ℕ → Comparison
  | [], s => if afterPercent || s.isEmpty then .matched else .noMatch
  | c :: p, s =>
    if c = percent then compareChars true p s
    else if afterPercent then
      if c = underscore then skipChar (compareChars true p) s
      else searchChars c (compareChars false p) s
    else nextChar c (compareChars false p) s

theorem Comparison.orElse_eq_matched_iff {r r' : Comparison} :
    r.orElse r' = .matched ↔ r = .matched ∨ r = .noMatch ∧ r' = .matched := by
  cases r <;> simp [Comparison.orElse]

/-- If what is tried says rightly when nothing else can succeed, **the search finds what
there is**. -/
theorem searchChars_eq_matched_iff {c : ℕ} {rest : List ℕ → Comparison} {s : List ℕ}
    (hrest : ∀ s, rest s = .noWildcardMatch → ∀ t, t <:+ s → rest t ≠ .matched) :
    searchChars c rest s = .matched ↔
      ∃ d t, d :: t <:+ s ∧ charMatches c d = true ∧ rest t = .matched := by
  induction s with
  | nil => exact iff_of_false nofun fun ⟨_, _, h, _⟩ ↦ nomatch List.suffix_nil.1 h
  | cons d s ih =>
    have hlater : searchChars c rest s = .matched →
        ∃ d' t, d' :: t <:+ d :: s ∧ charMatches c d' = true ∧ rest t = .matched := by
      intro h
      obtain ⟨d', t, hsuffix, h⟩ := ih.1 h
      exact ⟨d', t, hsuffix.trans (List.suffix_cons d s), h⟩
    rw [searchChars]
    constructor
    · intro h
      split_ifs at h with hchar
      · rcases Comparison.orElse_eq_matched_iff.1 h with hmatched | ⟨-, h⟩
        · exact ⟨d, s, List.suffix_refl _, hchar, hmatched⟩
        · exact hlater h
      · exact hlater h
    · rintro ⟨d', t, hsuffix, hchar, hmatched⟩
      rcases List.suffix_cons_iff.1 hsuffix with heq | hsuffix
      · obtain ⟨rfl, rfl⟩ := List.cons.inj heq
        rw [if_pos hchar, Comparison.orElse_eq_matched_iff]
        exact Or.inl hmatched
      · have hsearch := ih.2 ⟨d', t, hsuffix, hchar, hmatched⟩
        split_ifs
        · rw [Comparison.orElse_eq_matched_iff]
          cases hresult : rest s with
          | matched => exact Or.inl rfl
          | noMatch => exact Or.inr ⟨rfl, hsearch⟩
          | noWildcardMatch =>
            exact absurd hmatched (hrest s hresult t ((List.suffix_cons d' t).trans hsuffix))
        · exact hsearch

/-- A text that comes after a character of a longer text. -/
theorem exists_cons_suffix_cons {s t : List ℕ} (d : ℕ) (h : t <:+ s) :
    ∃ d', d' :: t <:+ d :: s := by
  obtain ⟨u, rfl⟩ := h
  induction u generalizing d with
  | nil => exact ⟨d, List.suffix_refl _⟩
  | cons d' u ih =>
    obtain ⟨d'', hsuffix⟩ := ih d'
    exact ⟨d'', hsuffix.trans (List.suffix_cons d _)⟩

theorem suffix_of_cons_suffix_cons {s t : List ℕ} {d d' : ℕ} (h : d' :: t <:+ d :: s) :
    t <:+ s := by
  rcases List.suffix_cons_iff.1 h with heq | hsuffix
  · rw [(List.cons.inj heq).2]
  · exact (List.suffix_cons d' t).trans hsuffix

/-- The comparison is right about a pattern, also after a `%`, and its shortcut loses nothing: where
it is taken, the pattern stands for no rest of the text. -/
structure Decides (p : List ℕ) : Prop where
  exact : ∀ s, compareChars false p s = .matched ↔ StandsFor p s
  afterPercent : ∀ s, compareChars true p s = .matched ↔ StandsFor (percent :: p) s
  shortcut : ∀ s, compareChars false p s = .noWildcardMatch → ∀ t, t <:+ s → ¬ StandsFor p t

namespace Decides

variable {p : List ℕ}

theorem nil : Decides [] where
  exact s := by
    rw [standsFor_nil_iff, compareChars, Bool.false_or]
    cases s <;> simp
  afterPercent s := iff_of_true rfl (standsFor_percent_iff.2 ⟨[], List.nil_suffix, .nil⟩)
  shortcut s h := by cases s <;> exact nomatch h

/-- A second `%` asks for a rest of a rest. -/
theorem cons_percent (h : Decides p) : Decides (percent :: p) := by
  have hcons : ∀ w s, compareChars w (percent :: p) s = compareChars true p s := by
    intro w s
    rw [compareChars, if_pos rfl]
  have hmono : ∀ {s t}, t <:+ s → StandsFor (percent :: p) t → StandsFor (percent :: p) s := by
    rintro s t hsuffix ht
    obtain ⟨u, hsuffix', hu⟩ := standsFor_percent_iff.1 ht
    exact standsFor_percent_iff.2 ⟨u, hsuffix'.trans hsuffix, hu⟩
  refine ⟨fun s ↦ ?_, fun s ↦ ?_, fun s hshortcut t hsuffix ht ↦ ?_⟩
  · rw [hcons, h.afterPercent]
  · rw [hcons, h.afterPercent, standsFor_percent_iff (p := percent :: p)]
    exact ⟨fun hs ↦ ⟨s, List.suffix_refl s, hs⟩, fun ⟨t, hsuffix, ht⟩ ↦ hmono hsuffix ht⟩
  · rw [hcons] at hshortcut
    exact nomatch hshortcut.symm.trans ((h.afterPercent s).2 (hmono hsuffix ht))

/-- An `_` behind the `%` skips a character, and leaves a rest of what is behind it. -/
theorem afterPercent_underscore (h : Decides p) (s : List ℕ) :
    compareChars true (underscore :: p) s = .matched ↔
      StandsFor (percent :: underscore :: p) s := by
  have hpercent : underscore ≠ percent := by decide
  rw [compareChars, if_neg hpercent, if_pos rfl, if_pos rfl, standsFor_percent_iff]
  cases s with
  | nil =>
    refine iff_of_false nofun ?_
    rintro ⟨t, hsuffix, ht⟩
    obtain ⟨d, u, rfl, -⟩ := (standsFor_cons_iff hpercent).1 ht
    exact nomatch List.suffix_nil.1 hsuffix
  | cons d s =>
    rw [skipChar, h.afterPercent, standsFor_percent_iff]
    constructor
    · rintro ⟨u, hsuffix, hu⟩
      obtain ⟨d', hsuffix'⟩ := exists_cons_suffix_cons d hsuffix
      exact ⟨d' :: u, hsuffix', .one d' hu⟩
    · rintro ⟨t, hsuffix, ht⟩
      obtain ⟨d', u, rfl, -, hu⟩ := (standsFor_cons_iff hpercent).1 ht
      exact ⟨u, suffix_of_cons_suffix_cons hsuffix, hu⟩

variable {c : ℕ}

/-- Any other character is searched for, and the search relies on the shortcut. -/
theorem afterPercent_cons (h : Decides p) (hpercent : c ≠ percent) (hunderscore : c ≠ underscore)
    (s : List ℕ) :
    compareChars true (c :: p) s = .matched ↔ StandsFor (percent :: c :: p) s := by
  have hshortcut : ∀ s, compareChars false p s = .noWildcardMatch →
      ∀ t, t <:+ s → compareChars false p t ≠ .matched :=
    fun s hs t hsuffix ht ↦ h.shortcut s hs t hsuffix ((h.exact t).1 ht)
  rw [compareChars, if_neg hpercent, if_pos rfl, if_neg hunderscore,
    searchChars_eq_matched_iff hshortcut, standsFor_percent_iff]
  constructor
  · rintro ⟨d, t, hsuffix, hchar, ht⟩
    exact ⟨d :: t, hsuffix,
      (standsFor_cons_iff hpercent).2 ⟨d, t, rfl, hchar, (h.exact t).1 ht⟩⟩
  · rintro ⟨t, hsuffix, ht⟩
    obtain ⟨d, u, rfl, hchar, hu⟩ := (standsFor_cons_iff hpercent).1 ht
    exact ⟨d, u, hsuffix, hchar, (h.exact u).2 hu⟩

/-- A character that is no `%`, and one of the text. -/
theorem exact_cons (h : Decides p) (hpercent : c ≠ percent) (s : List ℕ) :
    compareChars false (c :: p) s = .matched ↔ StandsFor (c :: p) s := by
  rw [compareChars, if_neg hpercent, if_neg Bool.false_ne_true, standsFor_cons_iff hpercent]
  cases s with
  | nil => exact iff_of_false nofun nofun
  | cons d s =>
    rw [nextChar]
    constructor
    · intro hs
      split_ifs at hs with hchar
      exact ⟨d, s, rfl, hchar, (h.exact s).1 hs⟩
    · rintro ⟨_, _, heq, hchar, hs⟩
      obtain ⟨rfl, rfl⟩ := List.cons.inj heq
      rw [if_pos hchar, (h.exact s).2 hs]

theorem shortcut_cons (h : Decides p) (hpercent : c ≠ percent) (s : List ℕ)
    (hs : compareChars false (c :: p) s = .noWildcardMatch) (t : List ℕ) (hsuffix : t <:+ s) :
    ¬ StandsFor (c :: p) t := by
  intro ht
  obtain ⟨d', u, rfl, -, hu⟩ := (standsFor_cons_iff hpercent).1 ht
  rw [compareChars, if_neg hpercent, if_neg Bool.false_ne_true] at hs
  cases s with
  | nil => exact nomatch List.suffix_nil.1 hsuffix
  | cons d s =>
    rw [nextChar] at hs
    split_ifs at hs
    exact h.shortcut s hs u (suffix_of_cons_suffix_cons hsuffix) hu

end Decides

/-- **The comparison decides what the pattern stands for.** The three parts are proved together: the
search needs that the shortcut is right, and after a `%` this needs the search. -/
theorem decides (p : List ℕ) : Decides p := by
  induction p with
  | nil => exact .nil
  | cons c p ih =>
    by_cases hpercent : c = percent
    · rw [hpercent]
      exact ih.cons_percent
    · refine ⟨ih.exact_cons hpercent, ?_, ih.shortcut_cons hpercent⟩
      by_cases hunderscore : c = underscore
      · rw [hunderscore]
        exact ih.afterPercent_underscore
      · exact ih.afterPercent_cons hpercent hunderscore

/-! ### Bytes and characters -/

/-- No `U+0080` comes behind a `%`, so that no character is searched for within others. -/
def SearchesCharacters (p : List ℕ) : Prop := ∀ q, percent :: q <:+ p → 0x80 ∉ q

/-- `strcspn` stops where the character matches. -/
theorem isStop_eq_charMatches {c : ℕ} (h : c ≠ underscore) (hc : c < 0x80) (b : UInt8) :
    isStop c b = charMatches c b.toNat := by
  rw [Bool.eq_iff_iff, charMatches_iff, isStop, Bool.or_eq_true, beq_iff_eq, beq_iff_eq]
  unfold toLower toUpper
  split_ifs <;> omega

/-- Beyond ASCII there is no other case. -/
theorem charMatches_eq_false_of_lt {c d : ℕ} (h : c ≠ underscore) (hc : c < 0x80) (hd : 0x80 ≤ d) :
    charMatches c d = false := by
  rw [Bool.eq_false_iff, ne_eq, charMatches_iff]
  unfold toLower
  split_ifs <;> omega

theorem charMatches_iff_eq {c d : ℕ} (hc : 0x80 < c) : charMatches c d = true ↔ d = c := by
  rw [charMatches_iff, underscore]
  unfold toLower
  split_ifs <;> omega

theorem le_readContinuation (k : ℕ) (s : Bytes) : 0x80 ≤ (readContinuation k s).1 := by
  have hcheck : ∀ k, 0x80 ≤ checkChar k := by
    intro k
    rw [checkChar]
    split_ifs <;> omega
  induction s generalizing k with
  | nil => exact hcheck k
  | cons b s ih =>
    rw [readContinuation]
    split_ifs
    · exact ih _
    · exact hcheck k

section Search

variable {c : ℕ} {rest : Bytes → Comparison} {rest' : List ℕ → Comparison}

/-- `strcspn` does not stop within a character. -/
theorem searchByte_readContinuation (h : c ≠ underscore) (hc : c < 0x80) (k : ℕ) (s : Bytes) :
    searchByte c rest (readContinuation k s).2 = searchByte c rest s := by
  induction s generalizing k with
  | nil => rfl
  | cons b s ih =>
    rw [readContinuation]
    split_ifs with hcontinuation
    · have hb : 0x80 ≤ b.toNat := by
        rw [isContinuation, Bool.and_eq_true, decide_eq_true_eq] at hcontinuation
        exact UInt8.le_iff_toNat_le.1 hcontinuation.1
      rw [ih, searchByte, isStop_eq_charMatches h hc, charMatches_eq_false_of_lt h hc hb,
        if_neg Bool.false_ne_true]
    · rfl

/-- **An ASCII character is found among the bytes where it is among the characters.** -/
theorem searchByte_eq_searchChars (h : c ≠ underscore) (hc : c < 0x80)
    (hrest : ∀ s, rest s = rest' (chars s)) (s : Bytes) :
    searchByte c rest s = searchChars c rest' (chars s) := by
  induction hn : s.length using Nat.strong_induction_on generalizing s with
  | _ n ih =>
  subst hn
  cases s with
  | nil => rfl
  | cons b s =>
    by_cases hlead : b < 0xC0
    · have hread : utf8Read (b :: s) = some (b.toNat, s) := by rw [utf8Read, if_pos hlead]
      rw [searchByte, chars_of_utf8Read hread, searchChars, isStop_eq_charMatches h hc, hrest,
        ih _ (length_lt_of_utf8Read hread) s rfl]
    · -- the bytes of a longer character are passed one by one
      have hread : utf8Read (b :: s) = some (readContinuation (leadBits b) s) := by
        rw [utf8Read, if_neg hlead]
      have hb : 0x80 ≤ b.toNat := by
        rw [UInt8.lt_iff_toNat_lt] at hlead
        exact (by decide : 0x80 ≤ (0xC0 : UInt8).toNat).trans (Nat.not_lt.1 hlead)
      rw [searchByte, chars_of_utf8Read hread, searchChars, isStop_eq_charMatches h hc,
        charMatches_eq_false_of_lt h hc hb, if_neg Bool.false_ne_true,
        charMatches_eq_false_of_lt h hc (le_readContinuation _ _), if_neg Bool.false_ne_true,
        ← ih _ (length_lt_of_utf8Read hread) _ rfl, searchByte_readContinuation h hc]

/-- A character of more than one byte is looked for as a whole. -/
theorem searchChar_eq_searchChars (hc : 0x80 < c) (hrest : ∀ s, rest s = rest' (chars s)) {n : ℕ}
    {s : Bytes} (hn : s.length ≤ n) :
    searchChar c rest n s = searchChars c rest' (chars s) := by
  induction n generalizing s with
  | zero =>
    obtain rfl := List.length_eq_zero_iff.1 (Nat.le_zero.1 hn)
    rfl
  | succ n ih =>
    rcases hread : utf8Read s with - | ⟨d, t⟩
    · cases s with
      | nil => rfl
      | cons b s => exact nomatch hread
    · have hlt := length_lt_of_utf8Read hread
      rw [searchChar, hread, chars_of_utf8Read hread, searchChars]
      simp only [charMatches_iff_eq hc, hrest, ih (s := t) (by omega)]

end Search

section

variable {p : List ℕ}

/-- Before the first `%` any character is compared as it is. -/
theorem patternCompare_cons_eq_compareChars {c : ℕ} (hpercent : c ≠ percent)
    (h : ∀ s, patternCompare false p s = compareChars false p (chars s)) (s : Bytes) :
    patternCompare false (c :: p) s = compareChars false (c :: p) (chars s) := by
  rw [patternCompare, compareChars, if_neg hpercent, if_neg hpercent, if_neg Bool.false_ne_true,
    if_neg Bool.false_ne_true]
  rcases hread : utf8Read s with - | ⟨d, t⟩
  · rw [chars_of_utf8Read_eq_none hread, nextChar]
  · rw [chars_of_utf8Read hread, nextChar, ← h]

/-- Without a `U+0080` nothing but the characters of the text counts. -/
theorem patternCompare_eq_compareChars (hp : 0x80 ∉ p) (w : Bool) (s : Bytes) :
    patternCompare w p s = compareChars w p (chars s) := by
  induction p generalizing w s with
  | nil =>
    rw [patternCompare, compareChars]
    cases s with
    | nil => rfl
    | cons b s =>
      obtain ⟨⟨d, t⟩, hread⟩ : ∃ r, utf8Read (b :: s) = some r := ⟨_, rfl⟩
      rw [chars_of_utf8Read hread, List.isEmpty_cons, List.isEmpty_cons]
  | cons c p ih =>
    obtain ⟨hc, hp⟩ := not_or.1 (List.mem_cons.not.1 hp)
    have ih := ih hp
    by_cases hpercent : c = percent
    · rw [patternCompare, compareChars, if_pos hpercent, if_pos hpercent, ih]
    cases w with
    | false => exact patternCompare_cons_eq_compareChars hpercent (ih false) s
    | true =>
      rw [patternCompare, compareChars, if_neg hpercent, if_neg hpercent, if_pos rfl, if_pos rfl]
      split_ifs with hunderscore hascii
      · rcases hread : utf8Read s with - | ⟨d, t⟩
        · rw [chars_of_utf8Read_eq_none hread, skipChar]
        · rw [chars_of_utf8Read hread, skipChar, ← ih]
      · exact searchByte_eq_searchChars hunderscore (by omega) (ih false) s
      · exact searchChar_eq_searchChars (by omega) (ih false) le_rfl

namespace SearchesCharacters

theorem of_cons {c : ℕ} (h : SearchesCharacters (c :: p)) : SearchesCharacters p :=
  fun q hq ↦ h q (hq.trans (List.suffix_cons c p))

theorem of_notMem (h : percent ∉ p) : SearchesCharacters p :=
  fun _ hq _ ↦ h (hq.subset List.mem_cons_self)

theorem append_percent (h : SearchesCharacters p) : SearchesCharacters (p ++ [percent]) := by
  rintro q ⟨u, hu⟩ hmem
  rcases List.eq_nil_or_concat' q with rfl | ⟨q, d, rfl⟩
  · exact List.not_mem_nil hmem
  · rw [← List.cons_append, ← List.append_assoc] at hu
    obtain ⟨hu, hd⟩ := List.append_inj' hu rfl
    rcases List.mem_append.1 hmem with hmem | hmem
    · exact h q ⟨u, hu⟩ hmem
    · rw [hd] at hmem
      exact absurd hmem (by decide)

end SearchesCharacters

/-- **`patternCompare` decides what the pattern stands for.** -/
theorem patternCompare_iff_standsFor (hp : SearchesCharacters p) {s : Bytes} :
    patternCompare false p s = .matched ↔ StandsFor p (chars s) := by
  suffices hchars : patternCompare false p s = compareChars false p (chars s) by
    rw [hchars, (decides p).exact]
  induction p generalizing s with
  | nil => exact patternCompare_eq_compareChars List.not_mem_nil false s
  | cons c p ih =>
    by_cases hpercent : c = percent
    · subst hpercent
      rw [patternCompare, compareChars, if_pos rfl, if_pos rfl]
      exact patternCompare_eq_compareChars (hp p (List.suffix_refl _)) true s
    · exact patternCompare_cons_eq_compareChars hpercent (fun s ↦ ih hp.of_cons) s

end

end SqlLike
