import LibSeal.Auditing.JsmnTokens
import Mathlib.Algebra.Ring.Int.Defs

/-!
# What the auditors read of tokens

The auditors look at the type and the size of a token, and read its value with `jsonGetString` and
`jsonGetInt`. What they see of a text in this way is `valueViews`, which is read off the value
without a look at positions (`map_view_valueToks`).

Numbers lose on the way. `jsonGetInt` narrows to an `int`, and `jsonGetString` reads a `long long`
but writes it by `to_str`, which takes an `int`. An integer is written as it stands in the document
exactly if it has 32 bits (`writtenUnchanged_iff`).
-/

namespace LibSeal

open Bytes Json
open SqlText (isDigit isDigits)

/-! ### Numbers in a text -/

/-- The number of the digits at the front. -/
def leadingNumber (s : Bytes) : ℕ := decimalValue (s.takeWhile isDigit)

/-- What `atoll` makes of a string that begins with no space. -/
theorem atoll_of_cStr {x s : Bytes} {c : UInt8} (hx : cStr x = c :: s) (hc : isSpace c = false) :
    atoll x =
      if c = '-'.toUInt8 then -((min (leadingNumber s) 9223372036854775808 : ℕ) : ℤ)
      else min (leadingNumber (if c = '+'.toUInt8 then s else c :: s) : ℤ) 9223372036854775807 := by
  have hdrop : (c :: s).dropWhile isSpace = c :: s := List.dropWhile_cons_of_neg (by simp [hc])
  have hhead : ∀ d : UInt8, ((c :: s).head? == some d) = decide (c = d) := fun d ↦ by
    rw [List.head?_cons, Option.some_beq_some]
    rfl
  rw [atoll, hx, hdrop]
  simp only [hhead, List.tail_cons, Bool.or_eq_true, decide_eq_true_eq]
  by_cases hminus : c = '-'.toUInt8
  · simp only [hminus, true_or, if_true]
    rfl
  · simp only [hminus, false_or, if_false]
    rfl

/-- Digits end in front of a delimiter. -/
theorem leadingNumber_append {t : Bytes} (ht : Delimits t) (s : Bytes) :
    leadingNumber (s ++ cStr t) = leadingNumber s := by
  have hstop : (cStr t).takeWhile isDigit = [] := by
    rcases t with - | ⟨b, t⟩
    · rfl
    · have hb : isDelimiter b = true := ht b rfl
      have hdigit : isDigit b = false := by
        rw [← Bool.not_eq_true]
        intro hdigit
        rw [isDigit, Bool.and_eq_true, decide_eq_true_eq, decide_eq_true_eq] at hdigit
        have hlow : 48 ≤ b.toNat := hdigit.1
        have hhigh : b.toNat ≤ 57 := hdigit.2
        simp only [isDelimiter, Bool.or_eq_true, beq_iff_eq] at hb
        rcases hb with ((((((rfl | rfl) | rfl) | rfl) | rfl) | rfl) | rfl) | rfl <;>
          exact absurd hdigit (by decide)
      rw [cStr]
      by_cases hzero : b = 0
      · simp [hzero]
      · rw [List.takeWhile_cons_of_pos (by simpa using hzero), List.takeWhile_cons_of_neg]
        simp [hdigit]
  rw [leadingNumber, leadingNumber]
  congr 1
  induction s with
  | nil => exact hstop
  | cons b s ih =>
    rw [List.cons_append, List.takeWhile_cons, List.takeWhile_cons, ih]

theorem isSpace_of_printable {b : UInt8} (h : 32 < b) : isSpace b = false := by
  have hlow : 32 < b.toNat := h
  have hspace : b ≠ 32 := by
    rintro rfl
    exact absurd h (by decide)
  have hhigh : ¬ b ≤ 13 := fun hle ↦ by
    have hle' : b.toNat ≤ 13 := hle
    omega
  simp [isSpace, hspace, hhigh]

/-- Whatever follows, a literal is read as the number that it is. -/
theorem atoll_literal_append (l : Literal) {t : Bytes} (ht : Delimits t) :
    atoll (l.bytes ++ t) = atoll l.bytes := by
  obtain ⟨c, s, hbytes⟩ := List.exists_cons_of_ne_nil l.ne_nil
  have hzero : 0 ∉ c :: s := fun h0 ↦ by
    rw [← hbytes] at h0
    exact absurd (l.printable 0 h0).1 (by decide)
  have hc : isSpace c = false :=
    isSpace_of_printable (l.printable c (by rw [hbytes]; exact List.mem_cons_self)).1
  have hself : cStr (c :: s) = c :: s := cStr_eq_self hzero
  have happend : cStr (c :: s ++ t) = c :: (s ++ cStr t) := cStr_append hzero t
  have hplus : leadingNumber (if c = '+'.toUInt8 then s ++ cStr t else c :: (s ++ cStr t)) =
      leadingNumber (if c = '+'.toUInt8 then s else c :: s) := by
    split_ifs
    · exact leadingNumber_append ht s
    · exact leadingNumber_append ht (c :: s)
  rw [hbytes, atoll_of_cStr hself hc, atoll_of_cStr happend hc, leadingNumber_append ht, hplus]

/-- The text `s` is an integer literal, of the value `n`. -/
inductive IntegerText : Bytes → ℤ → Prop where
  | digits {s : Bytes} (h : isDigits s = true) : IntegerText s (decimalValue s)
  | minus {s : Bytes} (h : isDigits s = true) :
    IntegerText ('-'.toUInt8 :: s) (-decimalValue s)

theorem bounds_of_isDigit {b : UInt8} (h : isDigit b = true) : 48 ≤ b.toNat ∧ b.toNat ≤ 57 := by
  rw [isDigit, Bool.and_eq_true, decide_eq_true_eq, decide_eq_true_eq] at h
  exact h

theorem leadingNumber_digits {s : Bytes} (h : isDigits s = true) :
    leadingNumber s = decimalValue s := by
  rw [isDigits, Bool.and_eq_true] at h
  rw [leadingNumber, List.takeWhile_eq_self_iff.2 (List.all_eq_true.1 h.2)]

theorem zero_notMem_of_isDigits {s : Bytes} (h : isDigits s = true) : 0 ∉ s := fun h0 ↦ by
  rw [isDigits, Bool.and_eq_true] at h
  exact absurd (bounds_of_isDigit (List.all_eq_true.1 h.2 0 h0)).1 (by decide)

/-- An integer literal is read as its value, if that fits in 64 bits. -/
theorem atoll_integerText {s : Bytes} {n : ℤ} (h : IntegerText s n)
    (hlow : -9223372036854775808 ≤ n) (hhigh : n < 9223372036854775808) : atoll s = n := by
  cases h with
  | @digits s h =>
    have hleading := leadingNumber_digits h
    have hzero := zero_notMem_of_isDigits h
    rw [isDigits, Bool.and_eq_true] at h
    obtain ⟨c, s, rfl⟩ : ∃ c t, s = c :: t := List.exists_cons_of_ne_nil (by simpa using h.1)
    have hc := bounds_of_isDigit (List.all_eq_true.1 h.2 c List.mem_cons_self)
    have hspace : isSpace c = false := isSpace_of_printable (by
      show 32 < c.toNat
      omega)
    have hsign : c ≠ '-'.toUInt8 ∧ c ≠ '+'.toUInt8 := by
      constructor <;> rintro rfl <;> exact absurd hc.1 (by decide)
    rw [atoll_of_cStr (cStr_eq_self hzero) hspace, if_neg hsign.1, if_neg hsign.2, hleading]
    omega
  | @minus s h =>
    have hzero : 0 ∉ '-'.toUInt8 :: s := by
      rw [List.mem_cons, not_or]
      exact ⟨by decide, zero_notMem_of_isDigits h⟩
    rw [atoll_of_cStr (cStr_eq_self hzero) rfl, if_pos rfl, leadingNumber_digits h]
    omega

/-- The decimal form of a number is a literal of its value. -/
theorem integerText_ofInt (n : ℤ) : IntegerText (ofInt n) n := by
  have hdigits : ∀ n : ℕ, isDigits (ofNat n) = true := fun n ↦ by
    rw [isDigits, Bool.and_eq_true]
    refine ⟨by simpa using ofNat_ne_nil n, List.all_eq_true.2 fun b hb ↦ ?_⟩
    simpa [isDigit] using isDigit_of_mem_ofNat hb
  cases n with
  | ofNat n =>
    have h := IntegerText.digits (hdigits n)
    rwa [decimalValue_ofNat] at h
  | negSucc n =>
    have h := IntegerText.minus (hdigits (n + 1))
    rwa [decimalValue_ofNat] at h

theorem toInt32_bounds (n : ℤ) : -2147483648 ≤ toInt32 n ∧ toInt32 n < 2147483648 := by
  rw [toInt32]
  split_ifs <;> omega

theorem toInt32_eq_self_iff {n : ℤ} : toInt32 n = n ↔ -2147483648 ≤ n ∧ n < 2147483648 := by
  constructor
  · intro h
    rw [← h]
    exact toInt32_bounds n
  · rintro ⟨hlow, hhigh⟩
    rw [toInt32]
    split_ifs <;> omega

/-- A number of 64 bits is written as it is exactly if it has 32. -/
theorem toStr_toInt32_eq_iff {n : ℤ} (hlow : -9223372036854775808 ≤ n)
    (hhigh : n < 9223372036854775808) :
    toStr (toInt32 n) = ofInt n ↔ -2147483648 ≤ n ∧ n < 2147483648 := by
  rw [← toInt32_eq_self_iff]
  constructor
  · intro h
    have hbounds := toInt32_bounds n
    calc toInt32 n = atoll (ofInt (toInt32 n)) :=
          (atoll_integerText (integerText_ofInt _) (by omega) (by omega)).symm
      _ = atoll (ofInt n) := congrArg atoll h
      _ = n := atoll_integerText (integerText_ofInt n) hlow hhigh
  · intro h
    rw [h, toStr]

/-! ### Views -/

/-- The text of a token. -/
def JsmnTok.text (token : JsmnTok) (start : Bytes) : Bytes :=
  (token.memory start).take (token.stop - token.start).toNat

/-- What can be read of a token without its position. -/
structure JsonView where
  type : JsmnType
  size : ℤ
  /-- The text of a string or primitive. -/
  text : Bytes
  /-- `jsonGetString` -/
  string : Bytes
  /-- `jsonGetInt` -/
  int : ℤ
  deriving DecidableEq

def JsmnTok.view (start : Bytes) (token : JsmnTok) : JsonView where
  type := token.type
  size := token.size
  text := if token.isContainer then [] else token.text start
  string := jsonGetString token start
  int := jsonGetInt token start

namespace JsonView

def literal (l : Literal) : JsonView :=
  ⟨.primitive, 0, l.bytes, toStr (toInt32 (atoll l.bytes)), atoi l.bytes⟩

/-- A string, or with the size 1 a key. -/
def chars (size : ℤ) (s : List StringChar) : JsonView :=
  ⟨.string, size, stringText s, stringText s, -1⟩

def container (type : JsmnType) (size : ℕ) : JsonView := ⟨type, size, [], [], -1⟩

end JsonView

mutual

/-- What is read of a value. -/
def valueViews : Json → List JsonView
  | .literal l => [.literal l]
  | .string s => [.chars 0 s]
  | .array items => .container .array items.toList.length :: itemViews items
  | .object members => .container .object members.toList.length :: memberViews members

def itemViews : JsonItems → List JsonView
  | .nil _ => []
  | .cons _ value _ rest => valueViews value ++ itemViews rest

def memberViews : JsonMembers → List JsonView
  | .nil _ => []
  | .cons _ key _ _ value _ rest => .chars 1 key :: (valueViews value ++ memberViews rest)

end

/-- A string of the text is read as what stands between its quotes. -/
theorem view_chars {js : Bytes} {p : ℕ} {s : List StringChar} {t : Bytes} (size : ℤ)
    (h : js.drop p = (Lexeme.string s).text ++ t) :
    JsmnTok.view js ⟨.string, p + 1, p + 1 + (stringText s).length, size⟩ = .chars size s := by
  have hdrop : js.drop (p + 1) = stringText s ++ '"'.toUInt8 :: t := by
    rw [← List.drop_drop, h, Lexeme.text, List.cons_append, List.drop_one, List.tail_cons,
      List.append_assoc, List.singleton_append]
  have htext : (js.drop (p + 1)).take (stringText s).length = stringText s := by
    rw [hdrop, List.take_left]
  have hstart : ((p : ℤ) + 1).toNat = p + 1 := by omega
  simp [JsmnTok.view, JsonView.chars, JsmnTok.isContainer, JsmnTok.text, JsmnTok.memory,
    jsonGetString, jsonGetInt, hstart, htext]

theorem view_literal {js : Bytes} {p : ℕ} {l : Literal} {t : Bytes} (h : js.drop p = l.bytes ++ t)
    (ht : Delimits t) :
    JsmnTok.view js ⟨.primitive, p, p + l.bytes.length, 0⟩ = .literal l := by
  simp [JsmnTok.view, JsonView.literal, JsmnTok.isContainer, JsmnTok.text, JsmnTok.memory,
    jsonGetString, jsonGetInt, jsonGetLongLong, atoi_eq_toInt32_atoll, h,
    atoll_literal_append l ht]

theorem view_container {js : Bytes} {type : JsmnType} (h : type = .object ∨ type = .array)
    (start stop : ℤ) (size : ℕ) :
    JsmnTok.view js ⟨type, start, stop, size⟩ = .container type size := by
  rcases h with rfl | rfl <;> rfl

theorem drop_length_of_drop {js s t : Bytes} {p n : ℕ} (h : js.drop p = s ++ t)
    (hn : s.length = n) : js.drop (p + n) = t := by
  rw [← List.drop_drop, h, List.drop_left' hn]

mutual

/-- **What is read of the tokens of a value.** -/
theorem map_view_valueToks {js t : Bytes} {p : ℕ} (ht : Delimits t) :
    ∀ v : Json, js.drop p = v.text ++ t →
      (valueToks p v).map (JsmnTok.view js) = valueViews v
  | .literal l, h => by
    have hdrop : js.drop p = l.bytes ++ t := by
      simpa [Json.text, Json.lexemes, Lexeme.text] using h
    exact congrArg ([·]) (view_literal hdrop ht)
  | .string s, h => by
    have hdrop : js.drop p = (Lexeme.string s).text ++ t := by
      simpa [Json.text, Json.lexemes] using h
    exact congrArg ([·]) (view_chars 0 hdrop)
  | .array items, h => by
    have hclose : Delimits (']'.toUInt8 :: t) := delimits_cons rfl
    have hdrop : js.drop p = ['['.toUInt8] ++ (textOf items.lexemes ++ ']'.toUInt8 :: t) := by
      rw [h, Json.text, Json.lexemes]
      simp [Lexeme.text]
    have hitems := map_view_itemToks hclose items (drop_length_of_drop hdrop (n := 1) rfl)
    rw [valueToks, List.map_cons, valueViews, view_container (.inr rfl), hitems]
  | .object members, h => by
    have hclose : Delimits ('\x7d'.toUInt8 :: t) := delimits_cons rfl
    have hdrop : js.drop p =
        ['\x7b'.toUInt8] ++ (textOf members.lexemes ++ '\x7d'.toUInt8 :: t) := by
      rw [h, Json.text, Json.lexemes]
      simp [Lexeme.text]
    have hmembers := map_view_memberToks hclose members (drop_length_of_drop hdrop (n := 1) rfl)
    rw [valueToks, List.map_cons, valueViews, view_container (.inl rfl), hmembers]

theorem map_view_itemToks {js t : Bytes} {p : ℕ} (ht : Delimits t) :
    ∀ items : JsonItems, js.drop p = textOf items.lexemes ++ t →
      (itemToks p items).map (JsmnTok.view js) = itemViews items
  | .nil _, _ => rfl
  | .cons before value after rest, h => by
    have hrest := delimits_items ht rest
    have hafter := delimits_whites hrest after
    rw [JsonItems.lexemes] at h
    simp only [textOf_append, List.append_assoc] at h hafter
    have hvalue := drop_length_of_drop h (length_textOf_white before)
    have hbehind := drop_length_of_drop hvalue (n := value.text.length) rfl
    have hseparator := drop_length_of_drop hbehind (length_textOf_white after)
    have hnext := drop_length_of_drop hseparator rfl
    rw [itemToks, itemViews, List.map_append, map_view_valueToks hafter value hvalue,
      map_view_itemToks ht rest hnext]

theorem map_view_memberToks {js t : Bytes} {p : ℕ} (ht : Delimits t) :
    ∀ members : JsonMembers, js.drop p = textOf members.lexemes ++ t →
      (memberToks p members).map (JsmnTok.view js) = memberViews members
  | .nil _, _ => rfl
  | .cons before key colon₁ colon₂ value after rest, h => by
    have hrest := delimits_members ht rest
    have hafter := delimits_whites hrest after
    rw [JsonMembers.lexemes] at h
    simp only [textOf_append, textOf_cons, List.append_assoc] at h hafter
    have hkey := drop_length_of_drop h (length_textOf_white before)
    have hcolon := drop_length_of_drop (drop_length_of_drop hkey rfl) (length_textOf_white colon₁)
    have hvalue := drop_length_of_drop (drop_length_of_drop hcolon (n := 1) rfl)
      (length_textOf_white colon₂)
    have hbehind := drop_length_of_drop hvalue (n := value.text.length) rfl
    have hseparator := drop_length_of_drop hbehind (length_textOf_white after)
    have hnext := drop_length_of_drop hseparator rfl
    rw [memberToks, memberViews, List.map_cons, List.map_append, view_chars 1 hkey,
      map_view_valueToks hafter value hvalue, map_view_memberToks ht rest hnext]

end

/-- **What is read of the tokens of a document.** -/
theorem map_view_jsonReadTokens (junk : ℕ → JsmnTok) (before after : List White) (v : Json) :
    (jsonReadTokens junk (documentText before v after)
      (jsonGetNrTokens (documentText before v after))).map
        (JsmnTok.view (documentText before v after)) = valueViews v := by
  have hnil : Delimits [] := by simp [Delimits]
  have hdrop : (documentText before v after).drop before.length =
      v.text ++ textOf (after.map Lexeme.white) := by
    rw [documentText, textOf_append, textOf_append, List.drop_left' (length_textOf_white before),
      Json.text]
  have hafter := delimits_whites hnil after
  rw [List.append_nil] at hafter
  rw [jsonReadTokens_text]
  exact map_view_valueToks hafter v hdrop

/-! ### Numbers in a document -/

/-- A view is that of a literal, if that is its type. -/
def JsonView.LiteralIfPrimitive (x : JsonView) : Prop := x.type = .primitive → ∃ l, x = .literal l

mutual

theorem literalIfPrimitive_value :
    ∀ v : Json, ∀ x ∈ valueViews v, x.LiteralIfPrimitive
  | .literal l, x, hx => fun _ ↦ ⟨l, List.mem_singleton.1 hx⟩
  | .string s, x, hx => fun h ↦ by
    rw [List.mem_singleton.1 hx] at h
    cases h
  | .array items, x, hx => by
    rw [valueViews, List.mem_cons] at hx
    rcases hx with rfl | hx
    · intro h
      cases h
    · exact literalIfPrimitive_items items x hx
  | .object members, x, hx => by
    rw [valueViews, List.mem_cons] at hx
    rcases hx with rfl | hx
    · intro h
      cases h
    · exact literalIfPrimitive_members members x hx

theorem literalIfPrimitive_items :
    ∀ items : JsonItems, ∀ x ∈ itemViews items, x.LiteralIfPrimitive
  | .nil _, x, hx => by cases hx
  | .cons _ value _ rest, x, hx => by
    rw [itemViews, List.mem_append] at hx
    rcases hx with hx | hx
    · exact literalIfPrimitive_value value x hx
    · exact literalIfPrimitive_items rest x hx

theorem literalIfPrimitive_members :
    ∀ members : JsonMembers, ∀ x ∈ memberViews members, x.LiteralIfPrimitive
  | .nil _, x, hx => by cases hx
  | .cons _ _ _ _ value _ rest, x, hx => by
    rw [memberViews, List.mem_cons, List.mem_append] at hx
    rcases hx with rfl | hx | hx
    · intro h
      cases h
    · exact literalIfPrimitive_value value x hx
    · exact literalIfPrimitive_members rest x hx

end

/-- What is written for the integers of a document. -/
theorem written_of_integerText (junk : ℕ → JsmnTok) {before after : List White} {v : Json}
    {tok : JsmnTok}
    (htok : tok ∈ jsonReadTokens junk (documentText before v after)
      (jsonGetNrTokens (documentText before v after)))
    (htype : tok.type = .primitive) {n : ℤ}
    (hn : IntegerText (tok.text (documentText before v after)) n)
    (hlow : -9223372036854775808 ≤ n) (hhigh : n < 9223372036854775808) :
    jsonGetInt tok (documentText before v after) = toInt32 n ∧
      jsonGetString tok (documentText before v after) = toStr (toInt32 n) := by
  set js := documentText before v after with hjs
  have hmem : JsmnTok.view js tok ∈ valueViews v := by
    rw [← map_view_jsonReadTokens junk before after v]
    exact List.mem_map_of_mem htok
  obtain ⟨l, hl⟩ := literalIfPrimitive_value v _ hmem htype
  have hcontainer : tok.isContainer = false := by simp [JsmnTok.isContainer, htype]
  have htext : tok.text js = l.bytes := by
    have h := congrArg JsonView.text hl
    simpa [JsmnTok.view, hcontainer, JsonView.literal] using h
  have hint : jsonGetInt tok js = atoi l.bytes := congrArg JsonView.int hl
  have hstring : jsonGetString tok js = toStr (toInt32 (atoll l.bytes)) :=
    congrArg JsonView.string hl
  have hatoll : atoll l.bytes = n := atoll_integerText (htext ▸ hn) hlow hhigh
  rw [hint, hstring, atoi_eq_toInt32_atoll, hatoll]
  exact ⟨rfl, rfl⟩

/-- A value of one token: a string or a literal. -/
inductive Scalar : Json → Prop where
  | literal (l : Literal) : Scalar (.literal l)
  | string (s : List StringChar) : Scalar (.string s)

/-- An integer of 32 bits. -/
inductive IntValue : Json → ℤ → Prop where
  | literal {l : Literal} {n : ℤ} (h : IntegerText l.bytes n) (hlow : -2147483648 ≤ n)
    (hhigh : n < 2147483648) : IntValue (.literal l) n

/-- A string, as it is written, or an integer of 32 bits, in its decimal form. -/
inductive TextValue : Json → Bytes → Prop where
  | string (s : List StringChar) : TextValue (.string s) (stringText s)
  | int {v : Json} {n : ℤ} (h : IntValue v n) : TextValue v (ofInt n)

theorem textValue_plainString (s : Bytes)
    (h : ∀ b ∈ s, b ≠ 0 ∧ b ≠ '"'.toUInt8 ∧ b ≠ '\\'.toUInt8) :
    TextValue (.string (plainString s h)) s := by
  have hstring := TextValue.string (plainString s h)
  rwa [stringText_plainString] at hstring

/-- What is read of a scalar. -/
theorem exists_valueViews_of_scalar {v : Json} (h : Scalar v) :
    ∃ x : JsonView, valueViews v = [x] ∧ x.type ≠ .object := by
  cases h with
  | literal l => exact ⟨_, rfl, by simp [JsonView.literal]⟩
  | string s => exact ⟨_, rfl, by simp [JsonView.chars]⟩

theorem IntValue.scalar {v : Json} {n : ℤ} (h : IntValue v n) : Scalar v := by
  cases h with
  | literal => exact .literal _

theorem TextValue.scalar {v : Json} {s : Bytes} (h : TextValue v s) : Scalar v := by
  cases h with
  | string s => exact .string s
  | int h => exact h.scalar

theorem IntValue.exists_literal {v : Json} {n : ℤ} (h : IntValue v n) :
    ∃ l, v = .literal l ∧ atoi l.bytes = n ∧ toStr (toInt32 (atoll l.bytes)) = ofInt n := by
  cases h with
  | @literal l n h hlow hhigh =>
    have hatoll : atoll l.bytes = n := atoll_integerText h (by omega) (by omega)
    have hself : toInt32 n = n := toInt32_eq_self_iff.2 ⟨hlow, hhigh⟩
    refine ⟨l, rfl, ?_, ?_⟩
    · rw [atoi_eq_toInt32_atoll, hatoll, hself]
    · rw [hatoll, hself, toStr]

theorem intValue_int {n : ℤ} (hlow : -2147483648 ≤ n) (hhigh : n < 2147483648) :
    IntValue (.literal (.int n)) n := .literal (integerText_ofInt n) hlow hhigh

/-- An integer is read by `jsonGetInt`. -/
theorem IntValue.exists_view {v : Json} {n : ℤ} (h : IntValue v n) :
    ∃ x : JsonView, valueViews v = [x] ∧ x.int = n := by
  obtain ⟨l, rfl, hint, -⟩ := h.exists_literal
  exact ⟨_, rfl, hint⟩

/-- A text is read by `jsonGetString`. -/
theorem TextValue.exists_view {v : Json} {s : Bytes} (h : TextValue v s) :
    ∃ x : JsonView, valueViews v = [x] ∧ x.string = s := by
  cases h with
  | string s => exact ⟨_, rfl, rfl⟩
  | int h =>
    obtain ⟨l, rfl, -, hstring⟩ := h.exists_literal
    exact ⟨_, rfl, hstring⟩

/-- What is read of keys and values. -/
def fieldViews (fields : List (List StringChar × Json)) : List JsonView :=
  fields.flatMap fun field ↦ .chars 1 field.1 :: valueViews field.2

theorem memberViews_eq_fieldViews (members : JsonMembers) :
    memberViews members = fieldViews members.toList := by
  cases members with
  | nil => rfl
  | cons _ _ _ _ _ _ rest =>
    rw [memberViews, memberViews_eq_fieldViews rest, JsonMembers.toList, fieldViews, fieldViews,
      List.flatMap_cons, List.cons_append]

theorem itemViews_eq_flatMap (items : JsonItems) :
    itemViews items = items.toList.flatMap valueViews := by
  cases items with
  | nil => rfl
  | cons _ _ _ rest =>
    rw [itemViews, itemViews_eq_flatMap rest, JsonItems.toList, List.flatMap_cons]

/-- The value `v` stands somewhere in another. -/
inductive PartOf (v : Json) : Json → Prop where
  | self : PartOf v v
  | item {w : Json} {items : JsonItems} (hw : w ∈ items.toList) (h : PartOf v w) :
    PartOf v (.array items)
  | member {field : List StringChar × Json} {members : JsonMembers}
    (hfield : field ∈ members.toList) (h : PartOf v field.2) : PartOf v (.object members)

/-- What is read of a document has in it what is read of each of its parts. -/
theorem exists_drop_of_partOf {v d : Json} (h : PartOf v d) :
    ∃ p R, (valueViews d).drop p = valueViews v ++ R := by
  suffices h : ∃ A R, valueViews d = A ++ (valueViews v ++ R) by
    obtain ⟨A, R, h⟩ := h
    exact ⟨A.length, R, by rw [h, List.drop_left' rfl]⟩
  induction h with
  | self => exact ⟨[], [], by simp⟩
  | @item w items hw _ ih =>
    obtain ⟨A, R, hviews⟩ := ih
    obtain ⟨front, behind, hitems⟩ := List.append_of_mem hw
    refine ⟨.container .array items.toList.length :: (front.flatMap valueViews ++ A),
      R ++ behind.flatMap valueViews, ?_⟩
    rw [valueViews, itemViews_eq_flatMap, hitems]
    simp [hviews]
  | @member field members hfield _ ih =>
    obtain ⟨A, R, hviews⟩ := ih
    obtain ⟨front, behind, hfields⟩ := List.append_of_mem hfield
    refine ⟨.container .object members.toList.length ::
      (fieldViews front ++ .chars 1 field.1 :: A), R ++ fieldViews behind, ?_⟩
    rw [valueViews, memberViews_eq_fieldViews, hfields]
    simp [fieldViews, hviews]

/-- The integer `n` of a document is written as it is: as a size, which is read by `jsonGetInt`, and
as an id, which is read by `jsonGetString`; and only -1 is written as the mark of a deletion. -/
def WrittenUnchanged (tok : JsmnTok) (js : Bytes) (n : ℤ) : Prop :=
  toStr (jsonGetInt tok js) = ofInt n ∧ jsonGetString tok js = ofInt n ∧
    (toStr (jsonGetInt tok js) = ascii "-1" → n = -1)

/-- **An integer of a document is written as it is exactly if it has 32 bits.** -/
theorem writtenUnchanged_iff (junk : ℕ → JsmnTok) {before after : List White} {v : Json}
    {tok : JsmnTok}
    (htok : tok ∈ jsonReadTokens junk (documentText before v after)
      (jsonGetNrTokens (documentText before v after)))
    (htype : tok.type = .primitive) {n : ℤ}
    (hn : IntegerText (tok.text (documentText before v after)) n)
    (hlow : -9223372036854775808 ≤ n) (hhigh : n < 9223372036854775808) :
    WrittenUnchanged tok (documentText before v after) n ↔
      -2147483648 ≤ n ∧ n < 2147483648 := by
  obtain ⟨hint, hstring⟩ := written_of_integerText junk htok htype hn hlow hhigh
  rw [WrittenUnchanged, hint, hstring]
  constructor
  · rintro ⟨h, -⟩
    exact (toStr_toInt32_eq_iff hlow hhigh).1 h
  · intro hbounds
    have hwritten := (toStr_toInt32_eq_iff hlow hhigh).2 hbounds
    refine ⟨hwritten, hwritten, fun hmark ↦ ?_⟩
    rw [hwritten] at hmark
    calc n = atoll (ofInt n) := (atoll_integerText (integerText_ofInt n) hlow hhigh).symm
      _ = atoll (ascii "-1") := congrArg atoll hmark
      _ = -1 := by decide +kernel

/-- The list of a file that has a size and nothing else. -/
def sizeOnly (size : ℤ) : Json :=
  .array (.compact [.object (.compact
    [(plainString (ascii "size") (by decide +kernel), .literal (.int size))])])

theorem writtenUnchanged_smallSize :
    WrittenUnchanged ⟨.primitive, 9, 11, 0⟩ (documentText [] (sizeOnly 17) []) 17 ↔
      (-2147483648 : ℤ) ≤ 17 ∧ (17 : ℤ) < 2147483648 :=
  writtenUnchanged_iff (fun _ ↦ ⟨.undefined, 0, 0, 0⟩) (by decide +kernel) rfl
    (integerText_ofInt 17) (by decide) (by decide)

/-- A file of 4 GiB less one byte is logged as deleted. -/
theorem not_writtenUnchanged_largeSize :
    ¬ ∀ (junk : ℕ → JsmnTok) (before after : List White) (v : Json) (tok : JsmnTok) (n : ℤ),
      tok ∈ jsonReadTokens junk (documentText before v after)
        (jsonGetNrTokens (documentText before v after)) →
      tok.type = .primitive → IntegerText (tok.text (documentText before v after)) n →
      -9223372036854775808 ≤ n → n < 9223372036854775808 →
      WrittenUnchanged tok (documentText before v after) n := by
  intro h
  have hlarge := h (fun _ ↦ ⟨.undefined, 0, 0, 0⟩) [] [] (sizeOnly 4294967295)
    ⟨.primitive, 9, 19, 0⟩ 4294967295 (by decide +kernel) rfl (integerText_ofInt 4294967295)
    (by decide) (by decide)
  have hmark : toStr (jsonGetInt ⟨.primitive, 9, 19, 0⟩
      (documentText [] (sizeOnly 4294967295) [])) = ascii "-1" := by decide +kernel
  exact absurd (hlarge.2.2 hmark) (by decide)

end LibSeal
