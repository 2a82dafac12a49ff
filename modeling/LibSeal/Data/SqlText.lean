import LibSeal.Data.Bytes

/-!
# Reading an `INSERT` statement

A reader for the one kind of SQL text that a log consists of: a single `INSERT` whose values are
literals. It follows SQLite's lexical rules for literals — a double-quoted literal ends at a quote
that is not doubled, a number is an optional sign and a numeric literal, blanks may stand around
values — and accepts a text only if nothing but blanks follows the closing semicolon, so a text
with a second statement is not read. Comments and operators are no literals and are not read either.

Texts that are *built* from data are described by `Cell`s: the data of a cell is put between quotes
or left bare, without any escaping. The result of this file is that such a text is read back as its
cells exactly when every cell is safe (`readValues_cellsText`, `safe_of_readValues`): a quoted cell
must not contain a quote, a bare one must be a number. The second direction is the one that takes an
argument, since a reader may well accept a text whose quotes have been rearranged; that it then
yields other values is a count of quotes (`notMem_of_readQuoted`).
-/

/-- A literal. -/
inductive SqlValue where
  /-- A text literal, with its content. -/
  | text (content : Bytes)
  /-- A number, as it is written. -/
  | number (lexeme : Bytes)
  deriving DecidableEq

/-- The bytes of a literal. -/
def SqlValue.bytes : SqlValue → Bytes
  | .text s => s
  | .number s => s

namespace SqlText

open Bytes

abbrev quote : UInt8 := '"'.toUInt8
abbrev comma : UInt8 := ','.toUInt8
abbrev closing : UInt8 := ')'.toUInt8
abbrev semicolon : UInt8 := ';'.toUInt8
abbrev backquote : UInt8 := '`'.toUInt8

/-! ### Numbers -/

def isDigit (b : UInt8) : Bool := '0'.toUInt8 ≤ b && b ≤ '9'.toUInt8

/-- A nonempty run of digits. -/
def isDigits (s : Bytes) : Bool := !s.isEmpty && s.all isDigit

def isSign (b : UInt8) : Bool := b == '+'.toUInt8 || b == '-'.toUInt8

/-- Drop one leading sign. -/
def dropSign : Bytes → Bytes
  | [] => []
  | b :: s => if isSign b then s else b :: s

/-- An exponent, or nothing. -/
def isExponent : Bytes → Bool
  | [] => true
  | e :: s => (e == 'e'.toUInt8 || e == 'E'.toUInt8) && isDigits (dropSign s)

/-- What may follow the first digits of a decimal literal; `lead` says whether there were any. -/
def isFraction (lead : Bool) : Bytes → Bool
  | [] => lead
  | b :: s =>
    if b = '.'.toUInt8 then
      (lead || !(s.takeWhile isDigit).isEmpty) && isExponent (s.dropWhile isDigit)
    else lead && isExponent (b :: s)

/-- A decimal literal: digits with an optional point and an optional exponent. -/
def isDecimalLiteral (s : Bytes) : Bool :=
  isFraction (!(s.takeWhile isDigit).isEmpty) (s.dropWhile isDigit)

/-- Hexadecimal digits whose value, or its opposite, is an integer of 64 bits. A value from 2^63 on
is that of a negative integer; there is no opposite of the least one. -/
def fitsHex (negative : Bool) (digits : Bytes) : Bool :=
  let digits := digits.dropWhile (· == '0'.toUInt8)
  digits.length ≤ 16 && !(negative && digits == ascii "8000000000000000")

/-- A hexadecimal literal. One that is too big is refused. -/
def isHexLiteral (negative : Bool) : Bytes → Bool
  | z :: x :: s =>
    z == '0'.toUInt8 && (x == 'x'.toUInt8 || x == 'X'.toUInt8) && !s.isEmpty &&
      (s.all fun b ↦ (hexValue b).isSome) && fitsHex negative s
  | _ => false

/-- A signed number. -/
def isNumber (s : Bytes) : Bool :=
  isDecimalLiteral (dropSign s) || isHexLiteral (s.head? == some '-'.toUInt8) (dropSign s)

/-! ### The reader -/

def isBlank (b : UInt8) : Bool := b ∈ [32, 9, 10, 12, 13]

def skipBlanks (s : Bytes) : Bytes := s.dropWhile isBlank

/-- Where a bare word ends. -/
def endsWord (b : UInt8) : Bool := isBlank b || b == comma || b == closing

/-- The rest of a double-quoted literal, from behind its opening quote. -/
def readQuoted : Bytes → Option (Bytes × Bytes)
  | [] => none
  | [b] => if b = quote then some ([], []) else none
  | b :: c :: s =>
    if b = quote then
      if c = quote then (readQuoted s).map fun p ↦ (quote :: p.1, p.2)
      else some ([], c :: s)
    else (readQuoted (c :: s)).map fun p ↦ (b :: p.1, p.2)

/-- A literal. -/
def readValue : Bytes → Option (SqlValue × Bytes)
  | [] => none
  | b :: s =>
    if b = quote then (readQuoted s).map fun p ↦ (.text p.1, p.2)
    else
      let word := (b :: s).takeWhile fun b ↦ !endsWord b
      if isNumber word then some (.number word, (b :: s).dropWhile fun b ↦ !endsWord b) else none

/-- A list of literals and the parenthesis that closes it. -/
def readValues : ℕ → Bytes → Option (List SqlValue × Bytes)
  | 0, _ => none
  | fuel + 1, s =>
    match readValue (skipBlanks s) with
    | none => none
    | some (v, s) =>
      match skipBlanks s with
      | [] => none
      | b :: s =>
        if b = comma then (readValues fuel s).map fun p ↦ (v :: p.1, p.2)
        else if b = closing then some ([v], s)
        else none

/-- The rest of a text that starts with the given words. -/
def expect (words text : Bytes) : Option Bytes :=
  if words.isPrefixOf text then some (text.drop words.length) else none

/-- The text up to a list of values: the keywords and the table. -/
def readTable (text : Bytes) : Option (Bytes × Bytes) := do
  let s ← expect (ascii "INSERT INTO `") text
  let rest ← expect (ascii "` VALUES (") (s.dropWhile (· ≠ backquote))
  return (s.takeWhile (· ≠ backquote), rest)

/-- A text that is one `INSERT` of literals: its table and its values. -/
def readInsert (text : Bytes) : Option (Bytes × List SqlValue) :=
  match readTable text with
  | none => none
  | some (table, s) =>
    match readValues s.length s with
    | none => none
    | some (vs, s) =>
      match skipBlanks s with
      | [] => none
      | b :: s => if b = semicolon ∧ s.all isBlank then some (table, vs) else none

/-! ### Building text from data -/

/-- A piece of data as it is put into a list of values: some blanks, then the data, between quotes
or bare. -/
structure Cell where
  blanks : ℕ
  quoted : Bool
  data : Bytes

/-- The text of a cell. Nothing is escaped. -/
def Cell.text (c : Cell) : Bytes :=
  List.replicate c.blanks 32 ++ if c.quoted then quote :: (c.data ++ [quote]) else c.data

/-- The value a cell stands for. -/
def Cell.value (c : Cell) : SqlValue := if c.quoted then .text c.data else .number c.data

/-- A cell whose text can only be read as its value. -/
def Cell.Safe (c : Cell) : Prop :=
  0 ∉ c.data ∧ if c.quoted then quote ∉ c.data else isNumber c.data = true

instance (c : Cell) : Decidable c.Safe := by unfold Cell.Safe; infer_instance

/-- Cells with commas between them. -/
def cellsText : List Cell → Bytes
  | [] => []
  | [c] => c.text
  | c :: d :: cs => c.text ++ comma :: cellsText (d :: cs)

/-! ### Quoted literals -/

/-- Doubling every quote. -/
def doubleQuotes (s : Bytes) : Bytes := s.flatMap fun b ↦ if b = quote then [quote, quote] else [b]

theorem doubleQuotes_cons_of_ne {b : UInt8} (h : b ≠ quote) (s : Bytes) :
    doubleQuotes (b :: s) = b :: doubleQuotes s := by
  simp [doubleQuotes, h]

theorem doubleQuotes_quote (s : Bytes) :
    doubleQuotes (quote :: s) = quote :: quote :: doubleQuotes s := by
  simp [doubleQuotes]

theorem length_doubleQuotes (s : Bytes) : (doubleQuotes s).length = s.length + s.count quote := by
  induction s with
  | nil => rfl
  | cons b s ih =>
    by_cases hb : b = quote
    · subst hb
      rw [doubleQuotes_quote, List.length_cons, List.length_cons, ih, List.count_cons_self,
        List.length_cons]
      omega
    · rw [doubleQuotes_cons_of_ne hb, List.length_cons, ih, List.count_cons_of_ne hb,
        List.length_cons]
      omega

theorem count_doubleQuotes (s : Bytes) : (doubleQuotes s).count quote = 2 * s.count quote := by
  induction s with
  | nil => rfl
  | cons b s ih =>
    by_cases hb : b = quote
    · subst hb
      rw [doubleQuotes_quote, List.count_cons_self, List.count_cons_self, ih,
        List.count_cons_self]
      omega
    · rw [doubleQuotes_cons_of_ne hb, List.count_cons_of_ne hb, ih, List.count_cons_of_ne hb]

/-- What is read off a literal is its content with the quotes doubled. -/
theorem eq_of_readQuoted {s v r : Bytes} (h : readQuoted s = some (v, r)) :
    s = doubleQuotes v ++ quote :: r := by
  fun_induction readQuoted s generalizing v r with
  | case1 => exact absurd h (by simp)
  | case2 =>
    obtain ⟨rfl, rfl⟩ := Prod.mk.inj (Option.some.inj h)
    rfl
  | case3 => exact absurd h (by simp)
  | case4 s ih =>
    obtain ⟨⟨v', r'⟩, hread, heq⟩ := Option.map_eq_some_iff.1 h
    obtain ⟨rfl, rfl⟩ := Prod.mk.inj heq
    rw [doubleQuotes_quote, List.cons_append, List.cons_append, ← ih hread]
  | case5 c s hc =>
    obtain ⟨rfl, rfl⟩ := Prod.mk.inj (Option.some.inj h)
    rfl
  | case6 b c s hb ih =>
    obtain ⟨⟨v', r'⟩, hread, heq⟩ := Option.map_eq_some_iff.1 h
    obtain ⟨rfl, rfl⟩ := Prod.mk.inj heq
    rw [doubleQuotes_cons_of_ne hb, List.cons_append, ← ih hread]

/-- A content without quotes is read up to the quote that closes it. -/
theorem readQuoted_append {s r : Bytes} (hs : quote ∉ s) (hr : r.head? ≠ some quote) :
    readQuoted (s ++ quote :: r) = some (s, r) := by
  induction s with
  | nil =>
    rcases r with - | ⟨c, r⟩
    · rfl
    · rw [List.nil_append, readQuoted, if_pos rfl, if_neg]
      simpa using hr
  | cons b s ih =>
    obtain ⟨hb, hs'⟩ := not_or.1 (mt List.mem_cons.2 hs)
    obtain ⟨c, t, hct⟩ : ∃ c t, s ++ quote :: r = c :: t :=
      List.exists_cons_of_ne_nil (by simp)
    rw [List.cons_append, hct, readQuoted, if_neg (Ne.symm hb), ← hct, ih hs']
    rfl

/-- **Only a content without quotes is read back as itself.** If the content `s`, put between quotes
as it is, reads back as `s`, then it has no quote and the reader stopped at the closing one. -/
theorem notMem_of_readQuoted {s r rest : Bytes} (hrest : rest.head? ≠ some quote)
    (h : readQuoted (s ++ quote :: rest) = some (s, r)) : quote ∉ s ∧ r = rest := by
  have heq : s ++ [quote] ++ rest = doubleQuotes s ++ [quote] ++ r := by
    simpa using eq_of_readQuoted h
  -- the literal with its doubled quotes reaches `n` bytes into `rest`, all of them quotes
  set n := s.count quote with hn
  have htake : s ++ [quote] ++ rest.take n = doubleQuotes s ++ [quote] := by
    have hlen : (doubleQuotes s ++ [quote]).length = (s ++ [quote]).length + n := by
      rw [List.length_append, length_doubleQuotes, List.length_append]
      omega
    rw [← List.take_length_add_append, heq, ← hlen, List.take_left]
  have hcount : (rest.take n).count quote = n := by
    have hc := congrArg (List.count quote) htake
    rw [List.count_append, List.count_append, List.count_append, count_doubleQuotes] at hc
    omega
  have hzero : n = 0 := by
    rcases rest with - | ⟨c, rest⟩
    · simpa using hcount.symm
    · by_contra hne
      obtain ⟨m, hm⟩ := Nat.exists_eq_succ_of_ne_zero hne
      have hc : c ≠ quote := by simpa using hrest
      have hle := List.count_le_length (a := quote) (l := rest.take m)
      rw [hm, List.take_succ_cons, List.count_cons_of_ne hc] at hcount
      rw [hcount, List.length_take] at hle
      omega
  have hnot : quote ∉ s := List.count_eq_zero.1 (hn.symm.trans hzero)
  refine ⟨hnot, ?_⟩
  rw [readQuoted_append hnot hrest] at h
  exact (Prod.mk.inj (Option.some.inj h)).2.symm

/-! ### Numbers -/

/-- The bytes that a number may consist of. -/
def isNumberByte (b : UInt8) : Bool :=
  (hexValue b).isSome || b ∈ ascii "+-.xX"

theorem isNumberByte_of_isDigit {b : UInt8} (h : isDigit b = true) : isNumberByte b = true := by
  simp only [isDigit, Bool.and_eq_true, decide_eq_true_eq] at h
  rw [isNumberByte, hexValue, if_pos h]
  split_ifs <;> rfl

theorem isNumberByte_of_isSign {b : UInt8} (h : isSign b = true) : isNumberByte b = true := by
  simp only [isSign, Bool.or_eq_true, beq_iff_eq] at h
  rcases h with rfl | rfl <;> decide

theorem isNumberByte_of_isDigits {s : Bytes} (h : isDigits s = true) {b : UInt8} (hb : b ∈ s) :
    isNumberByte b = true := by
  rw [isDigits, Bool.and_eq_true, List.all_eq_true] at h
  exact isNumberByte_of_isDigit (h.2 b hb)

/-- A string whose bytes behind a sign are number bytes consists of number bytes. -/
theorem isNumberByte_of_dropSign {s : Bytes} (h : ∀ b ∈ dropSign s, isNumberByte b = true)
    {b : UInt8} (hb : b ∈ s) : isNumberByte b = true := by
  rcases s with - | ⟨a, s⟩
  · exact absurd hb List.not_mem_nil
  · rw [dropSign] at h
    split_ifs at h with hsign
    · rcases List.mem_cons.1 hb with rfl | hb'
      · exact isNumberByte_of_isSign hsign
      · exact h b hb'
    · exact h b hb

theorem isNumberByte_of_isExponent {s : Bytes} (h : isExponent s = true) {b : UInt8} (hb : b ∈ s) :
    isNumberByte b = true := by
  rcases s with - | ⟨e, s⟩
  · exact absurd hb List.not_mem_nil
  · simp only [isExponent, Bool.and_eq_true, Bool.or_eq_true, beq_iff_eq] at h
    obtain ⟨he, hs⟩ := h
    rcases List.mem_cons.1 hb with rfl | hb'
    · rcases he with rfl | rfl <;> decide
    · exact isNumberByte_of_dropSign (fun _ ↦ isNumberByte_of_isDigits hs) hb'

/-- The digits a string starts with are number bytes, so only what follows them matters. -/
theorem isNumberByte_of_dropWhile {s : Bytes}
    (h : ∀ b ∈ s.dropWhile isDigit, isNumberByte b = true) {b : UInt8} (hb : b ∈ s) :
    isNumberByte b = true := by
  rw [← List.takeWhile_append_dropWhile (p := isDigit) (l := s)] at hb
  rcases List.mem_append.1 hb with hb' | hb'
  · exact isNumberByte_of_isDigit (List.mem_takeWhile_imp hb')
  · exact h b hb'

theorem isNumberByte_of_isFraction {lead : Bool} {s : Bytes} (h : isFraction lead s = true)
    {b : UInt8} (hb : b ∈ s) : isNumberByte b = true := by
  rcases s with - | ⟨d, s⟩
  · exact absurd hb List.not_mem_nil
  · rw [isFraction] at h
    split_ifs at h with hdot
    · rw [Bool.and_eq_true] at h
      rcases List.mem_cons.1 hb with rfl | hb'
      · rw [hdot]; decide
      · exact isNumberByte_of_dropWhile (fun _ ↦ isNumberByte_of_isExponent h.2) hb'
    · rw [Bool.and_eq_true] at h
      exact isNumberByte_of_isExponent h.2 hb

theorem isNumberByte_of_isHexLiteral {negative : Bool} {s : Bytes}
    (h : isHexLiteral negative s = true) {b : UInt8} (hb : b ∈ s) : isNumberByte b = true := by
  rcases s with - | ⟨z, - | ⟨x, s⟩⟩
  · exact absurd hb List.not_mem_nil
  · exact absurd h (by simp [isHexLiteral])
  · simp only [isHexLiteral, Bool.and_eq_true, Bool.or_eq_true, beq_iff_eq, List.all_eq_true] at h
    obtain ⟨⟨⟨⟨rfl, hx⟩, -⟩, hs⟩, -⟩ := h
    rcases List.mem_cons.1 hb with rfl | hb'
    · decide
    · rcases List.mem_cons.1 hb' with rfl | hb''
      · rcases hx with rfl | rfl <;> decide
      · rw [isNumberByte, hs b hb'', Bool.true_or]

/-- A number consists of number bytes. -/
theorem isNumberByte_of_isNumber {s : Bytes} (h : isNumber s = true) {b : UInt8} (hb : b ∈ s) :
    isNumberByte b = true := by
  rw [isNumber, Bool.or_eq_true] at h
  refine isNumberByte_of_dropSign (fun b hb ↦ ?_) hb
  rcases h with h | h
  · exact isNumberByte_of_dropWhile (fun _ ↦ isNumberByte_of_isFraction h) hb
  · exact isNumberByte_of_isHexLiteral h hb

/-- A byte that no number contains. -/
theorem notMem_of_isNumber {s : Bytes} (h : isNumber s = true) {b : UInt8}
    (hb : isNumberByte b = false) : b ∉ s := fun hmem ↦ by
  rw [isNumberByte_of_isNumber h hmem] at hb
  exact absurd hb (by decide)

theorem ne_nil_of_isNumber {s : Bytes} (h : isNumber s = true) : s ≠ [] := by
  rintro rfl
  exact absurd h (by decide)

/-- No byte of a number ends a word. -/
theorem endsWord_of_isNumber {s : Bytes} (h : isNumber s = true) {b : UInt8} (hb : b ∈ s) :
    endsWord b = false := by
  have hbyte := isNumberByte_of_isNumber h hb
  rcases Bool.eq_false_or_eq_true (endsWord b) with hend | hend
  · simp only [endsWord, isBlank, Bool.or_eq_true, decide_eq_true_eq, List.mem_cons,
      List.not_mem_nil, or_false, beq_iff_eq, or_assoc] at hend
    rcases hend with rfl | rfl | rfl | rfl | rfl | rfl | rfl <;> revert hbyte <;> decide
  · exact hend

/-- A decimal number, as `%d` prints it, is a number. -/
theorem isNumber_ofInt (n : ℤ) : isNumber (ofInt n) = true := by
  have hdigits : ∀ n : ℕ, isDecimalLiteral (ofNat n) = true := by
    intro n
    have hall : ∀ b ∈ ofNat n, isDigit b = true := fun b hb ↦ by
      simpa [isDigit] using isDigit_of_mem_ofNat hb
    rw [isDecimalLiteral, List.takeWhile_eq_self_iff.2 hall, List.dropWhile_eq_nil_iff.2 hall,
      isFraction]
    simpa using ofNat_ne_nil n
  have hsign : ∀ n : ℕ, dropSign (ofNat n) = ofNat n := by
    intro n
    obtain ⟨b, s, hbs⟩ := List.exists_cons_of_ne_nil (ofNat_ne_nil n)
    have hb := isDigit_of_mem_ofNat (n := n) (b := b) (hbs ▸ List.mem_cons_self)
    rw [hbs, dropSign, if_neg]
    intro hs
    simp only [isSign, Bool.or_eq_true, beq_iff_eq] at hs
    rcases hs with rfl | rfl <;> revert hb <;> decide
  rw [isNumber, Bool.or_eq_true]
  left
  rcases n with n | n
  · rw [ofInt, hsign]
    exact hdigits n
  · exact hdigits (n + 1)

/-! ### Integers -/

/-- An integer of 64 bits. -/
def FitsInt64 (i : ℤ) : Prop := -9223372036854775808 ≤ i ∧ i < 9223372036854775808

instance (i : ℤ) : Decidable (FitsInt64 i) := inferInstanceAs (Decidable (_ ∧ _))

/-- A counter of 31 bits fits. -/
theorem fitsInt64_of_lt {n : ℕ} (h : n < 2147483648) : FitsInt64 n :=
  ⟨by omega, by omega⟩

/-- The integer that decimal digits, with a minus sign or without a sign, stand for. -/
def decimalInteger (s : Bytes) : Option ℤ :=
  if s.head? = some '-'.toUInt8 then
    if isDigits s.tail then some (-decimalValue s.tail) else none
  else if isDigits s then some (decimalValue s) else none

/-- The integer that a literal is stored as. A decimal number that does not fit 64 bits is stored as
a floating-point number. -/
def sqlInteger : SqlValue → Option ℤ
  | .text _ => none
  | .number s => (decimalInteger s).filter fun i ↦ FitsInt64 i

/-- A literal is stored as an integer. -/
def isSqlInteger (v : SqlValue) : Bool := (sqlInteger v).isSome

theorem isDigits_ofNat (n : ℕ) : isDigits (ofNat n) = true := by
  rw [isDigits, Bool.and_eq_true, Bool.not_eq_true', List.isEmpty_eq_false_iff, List.all_eq_true]
  refine ⟨ofNat_ne_nil n, fun b hb ↦ ?_⟩
  simp [isDigit, isDigit_of_mem_ofNat hb]

theorem decimalInteger_ofInt (i : ℤ) : decimalInteger (ofInt i) = some i := by
  cases i with
  | ofNat n =>
    have hhead : (ofNat n).head? ≠ some '-'.toUInt8 := by
      intro h
      exact absurd (isDigit_of_mem_ofNat (List.mem_of_head? h)).1 (by decide)
    rw [decimalInteger, ofInt, if_neg hhead, if_pos (isDigits_ofNat n), decimalValue_ofNat]
    rfl
  | negSucc n =>
    rw [decimalInteger, ofInt, List.head?_cons, if_pos rfl, List.tail_cons,
      if_pos (isDigits_ofNat (n + 1)), decimalValue_ofNat]
    rfl

/-- **An integer is stored as the number that was printed**, exactly if it fits 64 bits. -/
theorem sqlInteger_ofInt (i : ℤ) :
    sqlInteger (.number (ofInt i)) = if FitsInt64 i then some i else none := by
  rw [sqlInteger, decimalInteger_ofInt, Option.filter_some]
  simp only [decide_eq_true_eq]

theorem isSqlInteger_ofInt (i : ℤ) : isSqlInteger (.number (ofInt i)) = true ↔ FitsInt64 i := by
  rw [isSqlInteger, sqlInteger_ofInt]
  split_ifs with h <;> simp [h]

/-! ### Cells -/

/-- What stands behind a cell in a list of values. -/
def IsSeparator (b : UInt8) : Prop := b = comma ∨ b = closing

theorem IsSeparator.ne_quote {b : UInt8} (h : IsSeparator b) : b ≠ quote := by
  rcases h with rfl | rfl <;> decide

theorem IsSeparator.endsWord {b : UInt8} (h : IsSeparator b) : endsWord b = true := by
  rcases h with rfl | rfl <;> decide

theorem IsSeparator.skipBlanks {b : UInt8} (h : IsSeparator b) (s : Bytes) :
    skipBlanks (b :: s) = b :: s := by
  rcases h with rfl | rfl <;> rfl

theorem skipBlanks_replicate_append (n : ℕ) (s : Bytes) :
    skipBlanks (List.replicate n 32 ++ s) = skipBlanks s := by
  induction n with
  | zero => rfl
  | succ n ih => exact ih

/-- A number in front of a separator is read whole. -/
theorem readValue_number {s : Bytes} (h : isNumber s = true) {b : UInt8} (hb : IsSeparator b)
    (rest : Bytes) : readValue (s ++ b :: rest) = some (.number s, b :: rest) := by
  have hword : ∀ a ∈ s, (!endsWord a) = true := fun a ha ↦ by
    rw [endsWord_of_isNumber h ha]; rfl
  have htake : (s ++ b :: rest).takeWhile (fun a ↦ !endsWord a) = s := by
    rw [List.takeWhile_append_of_pos hword, List.takeWhile_cons_of_neg (by simp [hb.endsWord]),
      List.append_nil]
  have hdrop : (s ++ b :: rest).dropWhile (fun a ↦ !endsWord a) = b :: rest := by
    rw [List.dropWhile_append_of_pos hword, List.dropWhile_cons_of_neg (by simp [hb.endsWord])]
  obtain ⟨a, t, rfl⟩ := List.exists_cons_of_ne_nil (ne_nil_of_isNumber h)
  have ha : a ≠ quote := fun h' ↦ notMem_of_isNumber h (b := quote) (by decide) (by simp [h'])
  rw [List.cons_append] at htake hdrop ⊢
  rw [readValue, if_neg ha]
  simp only [htake, hdrop, h, if_true]

/-- A bare word that is read as a number is that number. -/
theorem eq_of_readValue_number {s f r : Bytes} (h : readValue s = some (.number f, r)) :
    isNumber f = true := by
  rcases s with - | ⟨a, s⟩
  · exact absurd h (by simp [readValue])
  · rw [readValue] at h
    split at h
    · obtain ⟨p, -, hp⟩ := Option.map_eq_some_iff.1 h
      exact absurd (Prod.mk.inj hp).1 (by simp)
    · dsimp only at h
      split_ifs at h with hnum
      obtain ⟨hv, -⟩ := Prod.mk.inj (Option.some.inj h)
      rw [← SqlValue.number.inj hv]
      exact hnum

/-- Blanks in front of a number are skipped up to the number. -/
theorem skipBlanks_number {s : Bytes} (h : isNumber s = true) (rest : Bytes) :
    skipBlanks (s ++ rest) = s ++ rest := by
  obtain ⟨a, t, rfl⟩ := List.exists_cons_of_ne_nil (ne_nil_of_isNumber h)
  have ha := endsWord_of_isNumber h (b := a) List.mem_cons_self
  have hblank : isBlank a = false := by
    rw [endsWord, Bool.or_eq_false_iff, Bool.or_eq_false_iff] at ha
    exact ha.1.1
  rw [List.cons_append, skipBlanks, List.dropWhile_cons_of_neg (by simp [hblank])]

/-- A safe cell is read as its value. -/
theorem readValue_cell {c : Cell} (h : c.Safe) {b : UInt8} (hb : IsSeparator b) (rest : Bytes) :
    readValue (skipBlanks (c.text ++ b :: rest)) = some (c.value, b :: rest) := by
  obtain ⟨blanks, quoted, data⟩ := c
  obtain ⟨-, h⟩ := h
  rw [Cell.text, List.append_assoc, skipBlanks_replicate_append, Cell.value]
  rcases quoted with - | -
  · have hnum : isNumber data = true := by simpa using h
    simp only [Bool.false_eq_true, if_false]
    rw [skipBlanks_number hnum, readValue_number hnum hb]
  · have hq : quote ∉ data := by simpa using h
    have hread : readQuoted (data ++ quote :: b :: rest) = some (data, b :: rest) :=
      readQuoted_append hq (by simpa using hb.ne_quote)
    have hskip : skipBlanks (quote :: (data ++ quote :: b :: rest)) =
        quote :: (data ++ quote :: b :: rest) := rfl
    simp only [if_true, List.cons_append, List.append_assoc, List.nil_append]
    rw [hskip, readValue, if_pos rfl, hread]
    rfl

/-- **Only a safe cell is read as its value**, and then the reader stops behind it. -/
theorem safe_of_readValue {c : Cell} (hz : 0 ∉ c.data) {b : UInt8} (hb : IsSeparator b)
    {rest r : Bytes}
    (h : readValue (skipBlanks (c.text ++ b :: rest)) = some (c.value, r)) :
    c.Safe ∧ r = b :: rest := by
  have hsafe : c.Safe := by
    obtain ⟨blanks, quoted, data⟩ := c
    rw [Cell.text, List.append_assoc, skipBlanks_replicate_append, Cell.value] at h
    refine ⟨hz, ?_⟩
    rcases quoted with - | -
    · simp only [Bool.false_eq_true, if_false] at h ⊢
      exact eq_of_readValue_number h
    · have hskip : skipBlanks (quote :: (data ++ quote :: b :: rest)) =
          quote :: (data ++ quote :: b :: rest) := rfl
      simp only [if_true, List.cons_append, List.append_assoc, List.nil_append] at h ⊢
      rw [hskip, readValue, if_pos rfl] at h
      obtain ⟨⟨v, r'⟩, hread, hp⟩ := Option.map_eq_some_iff.1 h
      obtain ⟨hv, rfl⟩ := Prod.mk.inj hp
      have hv' : v = data := SqlValue.text.inj hv
      rw [hv'] at hread
      exact (notMem_of_readQuoted (by simpa using hb.ne_quote) hread).1
  refine ⟨hsafe, ?_⟩
  rw [readValue_cell hsafe hb] at h
  exact (Prod.mk.inj (Option.some.inj h)).2.symm

/-! ### Lists of values -/

/-- Safe cells are read as their values. -/
theorem readValues_cellsText {cs : List Cell} (hne : cs ≠ []) (h : ∀ c ∈ cs, c.Safe)
    (rest : Bytes) {fuel : ℕ} (hfuel : cs.length ≤ fuel) :
    readValues fuel (cellsText cs ++ closing :: rest) = some (cs.map Cell.value, rest) := by
  induction fuel generalizing cs with
  | zero => exact absurd (List.length_eq_zero_iff.1 (Nat.le_zero.1 hfuel)) hne
  | succ fuel ih =>
    rcases cs with - | ⟨c, - | ⟨d, cs⟩⟩
    · exact absurd rfl hne
    · have hsep : IsSeparator closing := Or.inr rfl
      rw [cellsText, readValues, readValue_cell (h c List.mem_cons_self) hsep]
      simp only [hsep.skipBlanks]
      rfl
    · have hsep : IsSeparator comma := Or.inl rfl
      have hrest := ih (List.cons_ne_nil d cs) (fun e he ↦ h e (List.mem_cons_of_mem _ he))
        (by simpa using hfuel)
      rw [cellsText, List.append_assoc, List.cons_append, readValues,
        readValue_cell (h c List.mem_cons_self) hsep]
      simp only [hsep.skipBlanks, if_true, hrest]
      rfl

/-- What a list of values that was read looks like at its head. -/
theorem readValues_cases {fuel : ℕ} {s r : Bytes} {w : SqlValue} {ws : List SqlValue}
    (h : readValues (fuel + 1) s = some (w :: ws, r)) :
    ∃ t, readValue (skipBlanks s) = some (w, t) ∧
      (ws = [] ∧ skipBlanks t = closing :: r ∨
        ∃ u, skipBlanks t = comma :: u ∧ readValues fuel u = some (ws, r)) := by
  rw [readValues] at h
  split at h
  · exact absurd h (by simp)
  next v t hv =>
    split at h
    · exact absurd h (by simp)
    next b u hbu =>
      split_ifs at h with hcomma hclosing
      · obtain ⟨p, hread, hp⟩ := Option.map_eq_some_iff.1 h
        obtain ⟨hw, rfl⟩ := Prod.mk.inj hp
        obtain ⟨rfl, rfl⟩ := List.cons.inj hw
        exact ⟨t, hv, Or.inr ⟨u, by rw [hbu, hcomma], hread⟩⟩
      · obtain ⟨hw, rfl⟩ := Prod.mk.inj (Option.some.inj h)
        obtain ⟨rfl, rfl⟩ := List.cons.inj hw
        exact ⟨t, hv, Or.inl ⟨rfl, by rw [hbu, hclosing]⟩⟩

/-- **Cells that are read as their values are safe.** -/
theorem safe_of_readValues {cs : List Cell} (hz : ∀ c ∈ cs, 0 ∉ c.data) {fuel : ℕ}
    {rest r : Bytes}
    (h : readValues fuel (cellsText cs ++ closing :: rest) = some (cs.map Cell.value, r)) :
    ∀ c ∈ cs, c.Safe := by
  induction cs generalizing fuel r with
  | nil => exact List.forall_mem_nil _
  | cons c cs ih =>
    rcases fuel with - | fuel
    · exact absurd h (by simp [readValues])
    have hzc := hz c List.mem_cons_self
    obtain ⟨t, hread, htail⟩ := readValues_cases h
    rcases cs with - | ⟨d, cs⟩
    · have hsafe := (safe_of_readValue hzc (Or.inr rfl) hread).1
      exact List.forall_mem_singleton.2 hsafe
    · have hsep : IsSeparator comma := Or.inl rfl
      rw [cellsText, List.append_assoc, List.cons_append] at hread
      obtain ⟨hsafe, rfl⟩ := safe_of_readValue hzc hsep hread
      rw [hsep.skipBlanks] at htail
      rcases htail with ⟨hnil, -⟩ | ⟨u, hu, hrest⟩
      · exact absurd hnil (List.cons_ne_nil _ _)
      · obtain ⟨-, rfl⟩ := List.cons.inj hu
        have hcs := ih (fun e he ↦ hz e (List.mem_cons_of_mem _ he)) hrest
        exact List.forall_mem_cons.2 ⟨hsafe, hcs⟩

/-- A cell more is a comma and its text more. -/
theorem cellsText_concat {cs : List Cell} (hne : cs ≠ []) (c : Cell) :
    cellsText (cs ++ [c]) = cellsText cs ++ comma :: c.text := by
  induction cs with
  | nil => exact absurd rfl hne
  | cons d cs ih =>
    rcases cs with - | ⟨e, cs⟩
    · rfl
    · rw [List.cons_append, List.cons_append, cellsText, ← List.cons_append,
        ih (List.cons_ne_nil _ _), cellsText, List.append_assoc, List.cons_append]

@[simp]
theorem bytes_value (c : Cell) : c.value.bytes = c.data := by
  rw [Cell.value]
  split_ifs <;> rfl

/-- Blanks, quotes and commas are not the end of a text, so its data decides where it ends. -/
theorem zero_notMem_cellsText {cs : List Cell} (h : ∀ c ∈ cs, 0 ∉ c.data) :
    0 ∉ cellsText cs := by
  have htext : ∀ c : Cell, 0 ∉ c.data → 0 ∉ c.text := by
    intro c hc hmem
    rw [Cell.text] at hmem
    rcases List.mem_append.1 hmem with hb | hb
    · exact absurd (List.eq_of_mem_replicate hb) (by decide)
    · split_ifs at hb
      · rcases List.mem_cons.1 hb with hb | hb
        · exact absurd hb (by decide)
        · rcases List.mem_append.1 hb with hb | hb
          · exact hc hb
          · exact absurd (List.mem_singleton.1 hb) (by decide)
      · exact hc hb
  induction cs with
  | nil => exact List.not_mem_nil
  | cons c cs ih =>
    obtain ⟨hc, hcs⟩ := List.forall_mem_cons.1 h
    rcases cs with - | ⟨d, cs⟩
    · exact htext c hc
    · intro hmem
      rcases List.mem_append.1 hmem with hb | hb
      · exact htext c hc hb
      · rcases List.mem_cons.1 hb with hb | hb
        · exact absurd hb (by decide)
        · exact ih hcs hb

/-- There are at least as many bytes as cells. -/
theorem length_le_length_cellsText (cs : List Cell) : cs.length ≤ (cellsText cs).length + 1 := by
  induction cs with
  | nil => exact Nat.zero_le _
  | cons c cs ih =>
    rcases cs with - | ⟨d, cs⟩
    · simp
    · rw [cellsText, List.length_append, List.length_cons, List.length_cons (a := comma)]
      omega

theorem mem_doubleQuotes {s : Bytes} {b : UInt8} (h : b ∈ s) : b ∈ doubleQuotes s := by
  refine List.mem_flatMap.2 ⟨b, h, ?_⟩
  split_ifs with hb
  · simp [hb]
  · exact List.mem_singleton_self b

/-- A value that was read consists of bytes of the text. -/
theorem subset_of_readValue {s r : Bytes} {v : SqlValue} (h : readValue s = some (v, r)) :
    v.bytes ⊆ s ∧ r ⊆ s := by
  rcases s with - | ⟨a, s⟩
  · exact absurd h (by simp [readValue])
  · rw [readValue] at h
    split at h
    · obtain ⟨⟨w, r'⟩, hread, hp⟩ := Option.map_eq_some_iff.1 h
      obtain ⟨rfl, rfl⟩ := Prod.mk.inj hp
      rw [eq_of_readQuoted hread]
      exact ⟨fun b hb ↦ List.mem_cons_of_mem _ (List.mem_append_left _ (mem_doubleQuotes hb)),
        fun b hb ↦ List.mem_cons_of_mem _ (List.mem_append_right _ (List.mem_cons_of_mem _ hb))⟩
    · dsimp only at h
      split_ifs at h
      obtain ⟨rfl, rfl⟩ := Prod.mk.inj (Option.some.inj h)
      exact ⟨List.takeWhile_subset _, List.dropWhile_subset _⟩

/-- The values that were read consist of bytes of the text. -/
theorem subset_of_readValues {fuel : ℕ} {s r : Bytes} {vs : List SqlValue}
    (h : readValues fuel s = some (vs, r)) : ∀ v ∈ vs, v.bytes ⊆ s := by
  induction vs generalizing fuel s r with
  | nil => exact List.forall_mem_nil _
  | cons w ws ih =>
    rcases fuel with - | fuel
    · exact absurd h (by simp [readValues])
    obtain ⟨t, hread, htail⟩ := readValues_cases h
    obtain ⟨hw, ht⟩ := subset_of_readValue hread
    have hblanks : ∀ u : Bytes, skipBlanks u ⊆ u := fun u ↦ List.dropWhile_subset _
    refine List.forall_mem_cons.2 ⟨fun b hb ↦ hblanks s (hw hb), ?_⟩
    rcases htail with ⟨rfl, -⟩ | ⟨u, hu, hrest⟩
    · exact List.forall_mem_nil _
    · intro v hv b hb
      have hbu : b ∈ skipBlanks t := hu ▸ List.mem_cons_of_mem _ (ih hrest v hv hb)
      exact hblanks s (ht (hblanks t hbu))

/-! ### The whole statement -/

/-- The `INSERT` of a row of cells. -/
def insertText (table : Bytes) (cs : List Cell) : Bytes :=
  ascii "INSERT INTO `" ++ (table ++ (ascii "` VALUES (" ++ (cellsText cs ++ ascii ");")))

theorem expect_append (words s : Bytes) : expect words (words ++ s) = some s := by
  have h : words.isPrefixOf (words ++ s) = true :=
    List.isPrefixOf_iff_prefix.2 (List.prefix_append words s)
  rw [expect, if_pos h, List.drop_left]

/-- The table is read up to its closing quote. -/
theorem readTable_append {table : Bytes} (ht : backquote ∉ table) (s : Bytes) :
    readTable (ascii "INSERT INTO `" ++ (table ++ (ascii "` VALUES (" ++ s))) =
      some (table, s) := by
  have hword : ∀ b ∈ table, decide (b ≠ backquote) = true := fun b hb ↦ by
    simpa using fun h : b = backquote ↦ ht (h ▸ hb)
  have hvalues : ascii "` VALUES (" = backquote :: ascii " VALUES (" := by decide
  have htake : (table ++ (ascii "` VALUES (" ++ s)).takeWhile (· ≠ backquote) = table := by
    rw [List.takeWhile_append_of_pos hword, hvalues, List.cons_append]
    simp
  have hdrop : (table ++ (ascii "` VALUES (" ++ s)).dropWhile (· ≠ backquote) =
      ascii "` VALUES (" ++ s := by
    rw [List.dropWhile_append_of_pos hword, hvalues, List.cons_append]
    simp
  rw [readTable, expect_append, Option.bind_eq_bind, Option.bind_some, hdrop, expect_append, htake]
  rfl

/-- The values of a statement that was read consist of bytes of its text. -/
theorem subset_of_readInsert {table text : Bytes} {vs : List SqlValue}
    (h : readInsert text = some (table, vs)) : ∀ v ∈ vs, v.bytes ⊆ text := by
  rw [readInsert] at h
  split at h
  · exact absurd h (by simp)
  next t s hs =>
    have hsub : s ⊆ text := by
      simp only [readTable, expect, Option.bind_eq_bind, Option.bind_eq_some_iff,
        Option.ite_none_right_eq_some, Option.some.injEq, Option.pure_def, Prod.mk.injEq] at hs
      obtain ⟨u, ⟨-, rfl⟩, w, ⟨-, rfl⟩, -, rfl⟩ := hs
      exact fun b hb ↦ List.drop_subset _ _ (List.dropWhile_subset _ (List.drop_subset _ _ hb))
    split at h
    · exact absurd h (by simp)
    next ws r hread =>
      split at h
      · exact absurd h (by simp)
      · split_ifs at h
        obtain ⟨-, rfl⟩ := Prod.mk.inj (Option.some.inj h)
        exact fun v hv b hb ↦ hsub (subset_of_readValues hread v hv hb)

/-- **A statement built from data is read as intended exactly when the data is safe.** -/
theorem readInsert_insertText {table : Bytes} (ht : backquote ∉ table) {cs : List Cell}
    (hne : cs ≠ []) (hz : ∀ c ∈ cs, 0 ∉ c.data) :
    readInsert (insertText table cs) = some (table, cs.map Cell.value) ↔ ∀ c ∈ cs, c.Safe := by
  have hend : cellsText cs ++ ascii ");" = cellsText cs ++ closing :: [semicolon] := by
    rw [show ascii ");" = [closing, semicolon] by decide]
  rw [insertText, readInsert, readTable_append ht, hend]
  constructor
  · intro h
    dsimp only at h
    split at h
    · exact absurd h (by simp)
    next vs r hread =>
      split at h
      · exact absurd h (by simp)
      · split_ifs at h
        obtain ⟨-, rfl⟩ := Prod.mk.inj (Option.some.inj h)
        exact safe_of_readValues hz hread
  · intro h
    have hlen : cs.length ≤ (cellsText cs ++ closing :: [semicolon]).length := by
      have := length_le_length_cellsText cs
      rw [List.length_append, List.length_cons]
      omega
    dsimp only
    rw [readValues_cellsText hne h _ hlen]
    rfl

end SqlText
