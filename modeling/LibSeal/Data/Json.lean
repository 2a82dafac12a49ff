import LibSeal.Data.Bytes

/-!
# JSON texts

A JSON text, with its white space: `Json` is a value as it is written, not the value alone. Its
lexemes are read off it by recursion, and its text is theirs one after the other, so that what a
scanner does with a text can be followed lexeme by lexeme.

The grammar is that of JSON but for two liberties, which only add texts. A literal is any run of
printable bytes that are not punctuation, so that every number and `true`, `false` and `null` are
literals; and a string may hold any byte but NUL. Numbers are read by those who need them.

A literal has no end of its own. `Delimited` says that each one is followed by something that ends
it; in a text it is (`Json.delimited`).
-/

namespace Json

/-! ### White space, strings, literals -/

/-- An insignificant character. -/
inductive White where
  | tab
  | newline
  | return
  | space
  deriving DecidableEq

def White.byte : White → UInt8
  | tab => 9
  | newline => 10
  | .return => 13
  | space => 32

/-- The characters that may follow a backslash, but for `u`. -/
def escapable : Bytes := Bytes.ascii "\"/\\bfrnt"

/-- A character of a string, as it is written. -/
inductive StringChar where
  | plain (b : UInt8) (h : b ≠ 0 ∧ b ≠ '"'.toUInt8 ∧ b ≠ '\\'.toUInt8)
  | escape (b : UInt8) (h : b ∈ escapable)
  | unicode (a b c d : UInt8) (h : ∀ x ∈ [a, b, c, d], (Bytes.hexValue x).isSome = true)
  deriving DecidableEq

def StringChar.text : StringChar → Bytes
  | plain b _ => [b]
  | escape b _ => ['\\'.toUInt8, b]
  | unicode a b c d _ => ['\\'.toUInt8, 'u'.toUInt8, a, b, c, d]

/-- What is written between the quotes. -/
def stringText (s : List StringChar) : Bytes := s.flatMap StringChar.text

/-- A string without escapes. -/
def plainString (s : Bytes) (h : ∀ b ∈ s, b ≠ 0 ∧ b ≠ '"'.toUInt8 ∧ b ≠ '\\'.toUInt8) :
    List StringChar := s.pmap .plain h

theorem stringText_plainString (s : Bytes)
    (h : ∀ b ∈ s, b ≠ 0 ∧ b ≠ '"'.toUInt8 ∧ b ≠ '\\'.toUInt8) :
    stringText (plainString s h) = s := by
  induction s with
  | nil => rfl
  | cons b s ih =>
    have htail := ih fun c hc ↦ h c (List.mem_cons_of_mem b hc)
    rw [plainString, List.pmap_cons, stringText, List.flatMap_cons, ← stringText, ← plainString,
      htail]
    rfl

/-- A byte that ends a literal. -/
def isDelimiter (b : UInt8) : Bool :=
  b == ':'.toUInt8 || b == 9 || b == 13 || b == 10 || b == 32 || b == ','.toUInt8 ||
    b == ']'.toUInt8 || b == '}'.toUInt8

/-- A number, `true`, `false` or `null`. -/
structure Literal where
  bytes : Bytes
  ne_nil : bytes ≠ []
  printable : ∀ b ∈ bytes, 32 < b ∧ b < 127 ∧ isDelimiter b = false
  /-- It does not begin like another value. -/
  head : ∀ b ∈ bytes.head?, b ≠ '"'.toUInt8 ∧ b ≠ '['.toUInt8 ∧ b ≠ '\x7b'.toUInt8

theorem printable_of_isDecimal {b : UInt8} (h : Bytes.isDecimal b = true) :
    (32 < b ∧ b < 127 ∧ isDelimiter b = false) ∧
      b ≠ '"'.toUInt8 ∧ b ≠ '['.toUInt8 ∧ b ≠ '\x7b'.toUInt8 := by
  rw [Bytes.isDecimal, Bool.or_eq_true, beq_iff_eq, Bool.and_eq_true, decide_eq_true_eq,
    decide_eq_true_eq] at h
  rcases h with rfl | ⟨hlow, hhigh⟩
  · decide
  · have hlow' : 48 ≤ b.toNat := hlow
    have hhigh' : b.toNat ≤ 57 := hhigh
    have hne : ∀ c : UInt8, c.toNat < 48 ∨ 57 < c.toNat → b ≠ c := by
      rintro c hc rfl
      omega
    have hbounds : 32 < b ∧ b < 127 := by
      show 32 < b.toNat ∧ b.toNat < 127
      omega
    refine ⟨⟨hbounds.1, hbounds.2, ?_⟩, hne _ (by decide), hne _ (by decide), hne _ (by decide)⟩
    simp only [isDelimiter, Bool.or_eq_false_iff, beq_eq_false_iff_ne]
    exact ⟨⟨⟨⟨⟨⟨⟨hne _ (by decide), hne _ (by decide)⟩, hne _ (by decide)⟩, hne _ (by decide)⟩,
      hne _ (by decide)⟩, hne _ (by decide)⟩, hne _ (by decide)⟩, hne _ (by decide)⟩

/-- The literal of an integer. -/
def Literal.int (n : ℤ) : Literal where
  bytes := Bytes.ofInt n
  ne_nil := by
    cases n with
    | ofNat n => exact Bytes.ofNat_ne_nil n
    | negSucc n => exact List.cons_ne_nil _ _
  printable b hb := (printable_of_isDecimal (Bytes.isDecimal_of_mem_ofInt hb)).1
  head b hb := (printable_of_isDecimal (Bytes.isDecimal_of_mem_ofInt (List.mem_of_mem_head? hb))).2

/-! ### Lexemes -/

inductive Lexeme where
  | openArray
  | closeArray
  | openObject
  | closeObject
  | comma
  | colon
  | white (w : White)
  | string (s : List StringChar)
  | literal (l : Literal)

def Lexeme.text : Lexeme → Bytes
  | openArray => ['['.toUInt8]
  | closeArray => [']'.toUInt8]
  | openObject => ['\x7b'.toUInt8]
  | closeObject => ['}'.toUInt8]
  | comma => [','.toUInt8]
  | colon => [':'.toUInt8]
  | white w => [w.byte]
  | string s => '"'.toUInt8 :: (stringText s ++ ['"'.toUInt8])
  | literal l => l.bytes

def textOf (ls : List Lexeme) : Bytes := ls.flatMap Lexeme.text

@[simp] theorem textOf_nil : textOf [] = [] := rfl

@[simp] theorem textOf_cons (x : Lexeme) (ls : List Lexeme) :
    textOf (x :: ls) = x.text ++ textOf ls := rfl

@[simp] theorem textOf_append (ls ms : List Lexeme) : textOf (ls ++ ms) = textOf ls ++ textOf ms :=
  List.flatMap_append

theorem zero_ne_of_isHex {b : UInt8} (h : (Bytes.hexValue b).isSome = true) : ¬ b = 0 := by
  rintro rfl
  exact absurd h (by decide)

theorem StringChar.zero_notMem_text (x : StringChar) : 0 ∉ x.text := by
  intro h0
  cases x with
  | plain b h => exact h.1 (List.mem_singleton.1 h0).symm
  | escape b hb =>
    rcases List.mem_pair.1 h0 with h | rfl
    · exact absurd h (by decide)
    · exact absurd hb (by decide)
  | unicode a b c d hhex =>
    rw [text, List.mem_cons, List.mem_cons] at h0
    rcases h0 with h | h | h
    · exact absurd h (by decide)
    · exact absurd h (by decide)
    · exact zero_ne_of_isHex (hhex 0 h) rfl

theorem zero_notMem_stringText (s : List StringChar) : 0 ∉ stringText s := by
  intro h0
  obtain ⟨x, -, hx⟩ := List.mem_flatMap.1 h0
  exact x.zero_notMem_text hx

theorem Lexeme.zero_notMem_text (x : Lexeme) : 0 ∉ x.text := by
  intro h0
  cases x with
  | string s =>
    rcases List.mem_cons.1 h0 with h | h
    · exact absurd h (by decide)
    · rcases List.mem_append.1 h with hs | h
      · exact zero_notMem_stringText s hs
      · exact absurd h (by decide)
  | literal l => exact absurd (l.printable 0 h0).1 (by decide)
  | white w => cases w <;> exact absurd h0 (by decide)
  | _ => exact absurd h0 (by decide)

/-- A text has no NUL. -/
theorem zero_notMem_textOf (ls : List Lexeme) : 0 ∉ textOf ls := by
  intro h0
  obtain ⟨x, -, hx⟩ := List.mem_flatMap.1 h0
  exact x.zero_notMem_text hx

end Json

/-! ### Values -/

open Json in
mutual

/-- A value, as it is written. -/
inductive Json where
  | literal (l : Literal)
  | string (s : List StringChar)
  | array (items : JsonItems)
  | object (members : JsonMembers)

/-- The items of an array. The white space of `nil` stands behind the last one, or in an array that
has none. -/
inductive JsonItems where
  | nil (gap : List White)
  | cons (before : List White) (value : Json) (after : List White) (rest : JsonItems)

/-- The members of an object. -/
inductive JsonMembers where
  | nil (gap : List White)
  | cons (before : List White) (key : List StringChar) (colon₁ colon₂ : List White) (value : Json)
      (after : List White) (rest : JsonMembers)

end

/-- The keys and values of an object. -/
abbrev Json.Fields := List (List Json.StringChar × Json)

namespace JsonItems

/-- The values, without what is between them. -/
def toList : JsonItems → List Json
  | nil _ => []
  | cons _ value _ rest => value :: rest.toList

/-- Items with nothing between them but commas. -/
def compact : List Json → JsonItems
  | [] => nil []
  | v :: vs => cons [] v [] (compact vs)

@[simp] theorem toList_compact (vs : List Json) : (compact vs).toList = vs := by
  induction vs with
  | nil => rfl
  | cons v vs ih => rw [compact, toList, ih]

/-- What stands in front of further items. -/
def separator : JsonItems → List Json.Lexeme
  | nil _ => []
  | cons _ _ _ _ => [.comma]

end JsonItems

namespace JsonMembers

/-- The keys and values, without what is between them. -/
def toList : JsonMembers → List (List Json.StringChar × Json)
  | nil _ => []
  | cons _ key _ _ value _ rest => (key, value) :: rest.toList

/-- Members with nothing between them but colons and commas. -/
def compact : List (List Json.StringChar × Json) → JsonMembers
  | [] => nil []
  | field :: fields => cons [] field.1 [] [] field.2 [] (compact fields)

@[simp] theorem toList_compact (fields : List (List Json.StringChar × Json)) :
    (compact fields).toList = fields := by
  induction fields with
  | nil => rfl
  | cons field fields ih => rw [compact, toList, ih]

/-- What stands in front of further members. -/
def separator : JsonMembers → List Json.Lexeme
  | nil _ => []
  | cons _ _ _ _ _ _ _ => [.comma]

end JsonMembers

mutual

def Json.lexemes : Json → List Json.Lexeme
  | .literal l => [.literal l]
  | .string s => [.string s]
  | .array items => .openArray :: (items.lexemes ++ [.closeArray])
  | .object members => .openObject :: (members.lexemes ++ [.closeObject])

def JsonItems.lexemes : JsonItems → List Json.Lexeme
  | .nil gap => gap.map .white
  | .cons before value after rest =>
    before.map .white ++
      (value.lexemes ++ (after.map .white ++ (rest.separator ++ rest.lexemes)))

def JsonMembers.lexemes : JsonMembers → List Json.Lexeme
  | .nil gap => gap.map .white
  | .cons before key colon₁ colon₂ value after rest =>
    before.map .white ++ (.string key :: (colon₁.map .white ++ (.colon :: (colon₂.map .white ++
      (value.lexemes ++ (after.map .white ++ (rest.separator ++ rest.lexemes)))))))

end

namespace Json

/-- The text of a value. -/
def text (v : Json) : Bytes := textOf v.lexemes

/-- A field without escapes in its key. -/
def plainField (name : Bytes) (h : ∀ b ∈ name, b ≠ 0 ∧ b ≠ '"'.toUInt8 ∧ b ≠ '\\'.toUInt8)
    (v : Json) : List StringChar × Json := (plainString name h, v)

/-! ### Delimiters -/

/-- A literal in front of it ends. -/
def Delimits (t : Bytes) : Prop := ∀ b ∈ t.head?, isDelimiter b = true

theorem delimits_cons {b : UInt8} {t : Bytes} (h : isDelimiter b = true) : Delimits (b :: t) := by
  intro c hc
  cases hc
  exact h

/-- Every literal is followed by something that ends it, in front of `t`. -/
def Delimited (t : Bytes) : List Lexeme → Prop
  | [] => True
  | .literal _ :: ls => Delimits (textOf ls ++ t) ∧ Delimited t ls
  | _ :: ls => Delimited t ls

theorem delimited_append {t : Bytes} {ls ms : List Lexeme} :
    Delimited t (ls ++ ms) ↔ Delimited (textOf ms ++ t) ls ∧ Delimited t ms := by
  induction ls with
  | nil => simp [Delimited]
  | cons x ls ih =>
    cases x <;> simp only [List.cons_append, Delimited, ih, textOf_append, List.append_assoc,
      and_assoc]

theorem delimited_whites (t : Bytes) (gap : List White) : Delimited t (gap.map .white) := by
  induction gap with
  | nil => trivial
  | cons w gap ih => exact ih

theorem delimits_whites {t : Bytes} (h : Delimits t) (gap : List White) :
    Delimits (textOf (gap.map .white) ++ t) := by
  rcases gap with - | ⟨w, gap⟩
  · exact h
  · exact delimits_cons (by cases w <;> rfl)

theorem delimits_items {t : Bytes} (h : Delimits t) (items : JsonItems) :
    Delimits (textOf (items.separator ++ items.lexemes) ++ t) := by
  rcases items with gap | ⟨before, value, after, rest⟩
  · rw [JsonItems.lexemes]
    exact delimits_whites h gap
  · exact delimits_cons rfl

theorem delimits_members {t : Bytes} (h : Delimits t) (members : JsonMembers) :
    Delimits (textOf (members.separator ++ members.lexemes) ++ t) := by
  rcases members with gap | ⟨before, key, colon₁, colon₂, value, after, rest⟩
  · rw [JsonMembers.lexemes]
    exact delimits_whites h gap
  · exact delimits_cons rfl

theorem delimited_item_separator (t : Bytes) (items : JsonItems) : Delimited t items.separator := by
  cases items <;> trivial

theorem delimited_member_separator (t : Bytes) (members : JsonMembers) :
    Delimited t members.separator := by
  cases members <;> trivial

end Json

mutual

/-- **Every literal in a text is followed by something that ends it.** -/
theorem Json.delimited {t : Bytes} (h : Json.Delimits t) :
    ∀ v : Json, Json.Delimited t v.lexemes
  | .literal _ => by
    rw [Json.lexemes]
    exact ⟨h, trivial⟩
  | .string _ => trivial
  | .array items => by
    have hclose : Json.Delimits (']'.toUInt8 :: t) := Json.delimits_cons rfl
    have hitems := JsonItems.delimited hclose items
    rw [Json.lexemes]
    exact Json.delimited_append.2 ⟨hitems, trivial⟩
  | .object members => by
    have hclose : Json.Delimits ('}'.toUInt8 :: t) := Json.delimits_cons rfl
    have hmembers := JsonMembers.delimited hclose members
    rw [Json.lexemes]
    exact Json.delimited_append.2 ⟨hmembers, trivial⟩

theorem JsonItems.delimited {t : Bytes} (h : Json.Delimits t) :
    ∀ items : JsonItems, Json.Delimited t items.lexemes
  | .nil gap => by
    rw [JsonItems.lexemes]
    exact Json.delimited_whites t gap
  | .cons before value after rest => by
    have hrest := Json.delimits_items h rest
    have hafter := Json.delimits_whites hrest after
    have hvalue := Json.delimited hafter value
    rw [JsonItems.lexemes]
    simp only [Json.delimited_append, Json.textOf_append, List.append_assoc] at hvalue ⊢
    exact ⟨Json.delimited_whites _ before, hvalue, Json.delimited_whites _ after,
      Json.delimited_item_separator _ rest, rest.delimited h⟩

theorem JsonMembers.delimited {t : Bytes} (h : Json.Delimits t) :
    ∀ members : JsonMembers, Json.Delimited t members.lexemes
  | .nil gap => by
    rw [JsonMembers.lexemes]
    exact Json.delimited_whites t gap
  | .cons before key colon₁ colon₂ value after rest => by
    have hrest := Json.delimits_members h rest
    have hafter := Json.delimits_whites hrest after
    have hvalue := Json.delimited hafter value
    rw [JsonMembers.lexemes]
    simp only [Json.delimited_append, Json.textOf_append, Json.Delimited, List.append_assoc]
      at hvalue ⊢
    exact ⟨Json.delimited_whites _ before, Json.delimited_whites _ colon₁,
      Json.delimited_whites _ colon₂, hvalue, Json.delimited_whites _ after,
      Json.delimited_member_separator _ rest, rest.delimited h⟩

end
