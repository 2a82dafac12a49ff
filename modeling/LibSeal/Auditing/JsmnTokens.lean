import LibSeal.Auditing.Jsmn
import LibSeal.Data.Json

/-!
# The tokens of a JSON text

What `jsmn` makes of a text (`jsmnParse_text`): the tokens of `valueToks`, one for each value and
each key, in the order in which they begin. A container's token counts its values or its keys, and a
key's token counts the one value behind it. That is read off the text by recursion, while the
tokeniser has to find out after each bracket and each comma where it is.

Behind a value it is where it was before, with one more value in the token above
(`foldlM_value`). The variable `toksuper` does not say that by itself: inside an object it may still
be at the last key. What does is the last token that has no end (`JsmnParser.Inside`).
-/

namespace LibSeal

open Bytes Json

/-! ### Lexemes -/

/-- What the tokeniser does with a lexeme. -/
def JsmnParser.lexeme (room : Option ℕ) (parser : JsmnParser) :
    Lexeme → Except JsmnError JsmnParser
  | .openArray => parser.begin room .array
  | .closeArray => parser.close room .array
  | .openObject => parser.begin room .object
  | .closeObject => parser.close room .object
  | .comma => .ok (parser.comma room)
  | .colon => .ok parser.colon
  | .white _ => .ok parser
  | .string s =>
    parser.addToken room ⟨.string, parser.pos + 1, parser.pos + 1 + (stringText s).length, 0⟩
  | .literal l => parser.addToken room ⟨.primitive, parser.pos, parser.pos + l.bytes.length, 0⟩

/-- Reading a lexeme. -/
def JsmnParser.read (room : Option ℕ) (parser : JsmnParser) (x : Lexeme) :
    Except JsmnError JsmnParser :=
  (parser.lexeme room x).map fun parser' ↦
    { parser' with pos := parser.pos + x.text.length }

/-- A string is read to its quote. -/
theorem stringLength_stringText (s : List StringChar) (t : Bytes) :
    stringLength .plain (stringText s ++ '"'.toUInt8 :: t) = .ok (stringText s).length := by
  induction s with
  | nil => rfl
  | cons x s ih =>
    rw [stringText, List.flatMap_cons, List.append_assoc, ← stringText]
    rcases x with ⟨b, hzero, hquote, hslash⟩ | ⟨b, hb⟩ | ⟨a, b, c, d, hhex⟩
    · rw [StringChar.text, List.singleton_append, stringLength, if_neg hzero, if_neg hquote,
        if_neg hslash, ih]
      rfl
    · have hb' : b ∈ ascii "\"/\\bfrnt" := hb
      have hslash : '\\'.toUInt8 ≠ 0 ∧ '\\'.toUInt8 ≠ '"'.toUInt8 := by decide
      rw [StringChar.text, List.cons_append, List.singleton_append, stringLength,
        if_neg hslash.1, if_neg hslash.2, if_pos rfl, stringLength, if_pos hb', ih]
      rfl
    · simp only [List.forall_mem_cons] at hhex
      obtain ⟨ha, hb, hc, hd, -⟩ := hhex
      have hdigit : ∀ more x js, (hexValue x).isSome = true →
          stringLength (.digits (more + 1)) (x :: js) =
            (stringLength (.digits more) js).map (· + 1) := by
        intro more x js hx
        rw [stringLength, if_neg (zero_ne_of_isHex hx), if_pos (show isHex x = true from hx)]
      have hlast : ∀ x js, (hexValue x).isSome = true →
          stringLength (.digits 0) (x :: js) = (stringLength .plain js).map (· + 1) := by
        intro x js hx
        rw [stringLength, if_neg (zero_ne_of_isHex hx), if_pos (show isHex x = true from hx)]
      have hunicode : ∀ js, stringLength .plain ('\\'.toUInt8 :: 'u'.toUInt8 :: js) =
          ((stringLength (.digits 3) js).map (· + 1)).map (· + 1) := fun js ↦ rfl
      simp only [StringChar.text, List.cons_append, List.nil_append]
      rw [hunicode, hdigit 2 a _ ha, hdigit 1 b _ hb, hdigit 0 c _ hc, hlast d _ hd, ih]
      rfl

/-- A literal in front of it is read to its end: what follows is a delimiter, NUL or nothing. -/
def EndsLiteral (t : Bytes) : Prop := ∀ b ∈ t.head?, b = 0 ∨ isDelimiter b = true

/-- A literal is read to what ends it. -/
theorem primitiveLength_literal {s t : Bytes}
    (hs : ∀ b ∈ s, 32 < b ∧ b < 127 ∧ isDelimiter b = false) (ht : EndsLiteral t) :
    primitiveLength (s ++ t) = .ok s.length := by
  induction s with
  | nil =>
    rcases t with - | ⟨b, t⟩
    · rfl
    · have hb : b = 0 ∨ endsPrimitive b = true := ht b rfl
      rw [List.nil_append, primitiveLength, if_pos hb]
      rfl
  | cons b s ih =>
    obtain ⟨⟨hlow, hhigh, hdelim⟩, hs⟩ := List.forall_mem_cons.1 hs
    have hzero : b ≠ 0 := by
      rintro rfl
      exact absurd hlow (by decide)
    have hend : ¬ (b = 0 ∨ endsPrimitive b = true) := by
      rw [not_or, Bool.not_eq_true]
      exact ⟨hzero, hdelim⟩
    have hprintable : ¬ (b < 32 ∨ 127 ≤ b) := by
      rw [not_or, not_lt, not_le]
      exact ⟨hlow.le, hhigh⟩
    rw [List.cons_append, primitiveLength, if_neg hend, if_neg hprintable, ih hs]
    rfl

/-- A byte with no case of its own begins a primitive. -/
theorem jsmnSwitch_literal {room : Option ℕ} {parser : JsmnParser} {c : UInt8} {js : Bytes}
    (hdelim : isDelimiter c = false)
    (hhead : c ≠ '"'.toUInt8 ∧ c ≠ '['.toUInt8 ∧ c ≠ '\x7b'.toUInt8) :
    jsmnSwitch room c js parser = (do
      let length ← primitiveLength (c :: js)
      let parser' ← parser.addToken room ⟨.primitive, parser.pos, parser.pos + length, 0⟩
      return (parser', length - 1)) := by
  simp only [isDelimiter, Bool.or_eq_false_iff, beq_eq_false_iff_ne] at hdelim
  obtain ⟨⟨⟨⟨⟨⟨⟨hcolon, htab⟩, hreturn⟩, hnewline⟩, hspace⟩, hcomma⟩, harray⟩, hobject⟩ := hdelim
  rw [jsmnSwitch, if_neg (not_or.2 ⟨hhead.2.2, hhead.2.1⟩), if_neg (not_or.2 ⟨hobject, harray⟩),
    if_neg hhead.1, if_neg (by simp [htab, hreturn, hnewline, hspace]), if_neg hcolon,
    if_neg hcomma]

/-- What the `switch` does with a lexeme: as much as `JsmnParser.lexeme`. -/
theorem jsmnSwitch_lexeme (room : Option ℕ) (parser : JsmnParser) {x : Lexeme} {t : Bytes}
    (ht : ∀ l, x = .literal l → EndsLiteral t) :
    ∃ c js, x.text = c :: js ∧ c ≠ 0 ∧ jsmnSwitch room c (js ++ t) parser =
      (parser.lexeme room x).map fun parser' ↦ (parser', js.length) := by
  rcases x with - | - | - | - | - | - | w | s | l
  · exact ⟨_, [], rfl, by decide, rfl⟩
  · exact ⟨_, [], rfl, by decide, rfl⟩
  · exact ⟨_, [], rfl, by decide, rfl⟩
  · exact ⟨_, [], rfl, by decide, rfl⟩
  · exact ⟨_, [], rfl, by decide, rfl⟩
  · exact ⟨_, [], rfl, by decide, rfl⟩
  · exact ⟨_, [], rfl, by cases w <;> decide, by cases w <;> rfl⟩
  · -- a string, up to its closing quote
    refine ⟨_, stringText s ++ ['"'.toUInt8], rfl, by decide, ?_⟩
    have hlength := stringLength_stringText s t
    rw [List.append_assoc, List.singleton_append]
    show (do
      let length ← stringLength .plain (stringText s ++ '"'.toUInt8 :: t)
      let parser' ← parser.addToken room ⟨.string, parser.pos + 1, parser.pos + 1 + length, 0⟩
      return (parser', length + 1)) = _
    rw [hlength]
    simp only [bind, Except.bind, JsmnParser.lexeme, List.length_append, List.length_singleton]
    rcases parser.addToken room _ with e | parser' <;> rfl
  · -- a literal, whose end is what follows it
    obtain ⟨c, js, hbytes⟩ := List.exists_cons_of_ne_nil l.ne_nil
    have hlength := primitiveLength_literal l.printable (ht l rfl)
    have hc := l.printable c (by rw [hbytes]; exact List.mem_cons_self)
    have hhead := l.head c (by rw [hbytes]; rfl)
    have hzero : c ≠ 0 := by
      rintro rfl
      exact absurd hc.1 (by decide)
    refine ⟨c, js, hbytes, hzero, ?_⟩
    rw [hbytes, List.cons_append] at hlength
    rw [jsmnSwitch_literal hc.2.2 hhead, hlength, JsmnParser.lexeme, hbytes]
    simp only [bind, Except.bind, List.length_cons]
    rcases parser.addToken room _ with e | parser' <;> rfl

/-- **A round reads a lexeme.** -/
theorem goes_of_read {room : Option ℕ} {parser parser' : JsmnParser} {x : Lexeme} {t : Bytes}
    (ht : ∀ l, x = .literal l → EndsLiteral t) (h : parser.read room x = .ok parser') :
    Loop.Goes (jsmnRound room) (x.text ++ t, parser) (t, parser') := by
  obtain ⟨c, js, htext, hc, hswitch⟩ := jsmnSwitch_lexeme room parser ht
  rw [JsmnParser.read, htext] at h
  rcases hlexeme : parser.lexeme room x with e | p
  · rw [hlexeme] at h
    cases h
  · rw [hlexeme] at h hswitch
    cases h
    rw [htext, Loop.Goes, List.cons_append, jsmnRound, if_neg hc, hswitch]
    simp only [Except.map, List.drop_left, List.length_cons, Nat.add_assoc, Nat.add_comm 1]

/-- Every literal is read to its end, in front of `t`. -/
def LiteralsEnd (t : Bytes) (ls : List Lexeme) : Prop :=
  ∀ l ms, .literal l :: ms <:+ ls → EndsLiteral (textOf ms ++ t)

theorem literalsEnd_of_delimited {t : Bytes} {ls : List Lexeme} (h : Delimited t ls) :
    LiteralsEnd t ls := by
  rintro l ms ⟨pre, rfl⟩ b hb
  exact Or.inr ((delimited_append.1 h).2.1 b hb)

/-- Lexemes are read one after the other. -/
theorem reflTransGen_goes_of_foldlM {room : Option ℕ} {ls : List Lexeme} {t : Bytes}
    (ht : LiteralsEnd t ls) {parser parser' : JsmnParser}
    (h : ls.foldlM (JsmnParser.read room) parser = .ok parser') :
    Relation.ReflTransGen (Loop.Goes (jsmnRound room)) (textOf ls ++ t, parser) (t, parser') := by
  induction ls generalizing parser with
  | nil =>
    cases h
    exact .refl
  | cons x ls ih =>
    rw [List.foldlM_cons] at h
    rcases hread : parser.read room x with e | p
    · rw [hread] at h
      cases h
    · rw [hread] at h
      have hx : ∀ l, x = .literal l → EndsLiteral (textOf ls ++ t) := by
        rintro l rfl
        exact ht l ls List.suffix_rfl
      have hrest : LiteralsEnd t ls := fun l ms hms ↦ ht l ms (hms.trans (List.suffix_cons x ls))
      rw [textOf_cons, List.append_assoc]
      exact .head (goes_of_read hx hread) (ih hrest h)

/-! ### The tokens of a value -/

mutual

/-- The tokens of a value that begins at `p`. -/
def valueToks (p : ℕ) : Json → List JsmnTok
  | .literal l => [⟨.primitive, p, p + l.bytes.length, 0⟩]
  | .string s => [⟨.string, p + 1, p + 1 + (stringText s).length, 0⟩]
  | .array items =>
    ⟨.array, p, p + 1 + (textOf items.lexemes).length + 1, items.toList.length⟩ ::
      itemToks (p + 1) items
  | .object members =>
    ⟨.object, p, p + 1 + (textOf members.lexemes).length + 1, members.toList.length⟩ ::
      memberToks (p + 1) members

/-- The tokens of the items from `p` on. -/
def itemToks (p : ℕ) : JsonItems → List JsmnTok
  | .nil _ => []
  | .cons before value after rest =>
    let q := p + before.length
    valueToks q value ++
      itemToks (q + value.text.length + after.length + (textOf rest.separator).length) rest

/-- The tokens of the members from `p` on: a key counts the one value behind it. -/
def memberToks (p : ℕ) : JsonMembers → List JsmnTok
  | .nil _ => []
  | .cons before key colon₁ colon₂ value after rest =>
    let k := p + before.length
    let q := k + (Lexeme.string key).text.length + colon₁.length + 1 + colon₂.length
    ⟨.string, k + 1, k + 1 + (stringText key).length, 1⟩ ::
      (valueToks q value ++
        memberToks (q + value.text.length + after.length + (textOf rest.separator).length) rest)

end

/-- A token that has an end. -/
def JsmnTok.IsClosed (tok : JsmnTok) : Prop := tok.isOpen = false

theorem isClosed_of_stop_nonneg {tok : JsmnTok} (h : 0 ≤ tok.stop) : tok.IsClosed := by
  have hstop : tok.stop ≠ -1 := by omega
  simp [JsmnTok.IsClosed, JsmnTok.isOpen, hstop]

mutual

/-- The tokens of a value have ends. -/
theorem isClosed_valueToks (p : ℕ) : ∀ v : Json, ∀ tok ∈ valueToks p v, tok.IsClosed
  | .literal l => by
    intro tok htok
    rw [valueToks, List.mem_singleton] at htok
    exact isClosed_of_stop_nonneg (by rw [htok]; dsimp only; omega)
  | .string s => by
    intro tok htok
    rw [valueToks, List.mem_singleton] at htok
    exact isClosed_of_stop_nonneg (by rw [htok]; dsimp only; omega)
  | .array items => by
    intro tok htok
    rw [valueToks, List.mem_cons] at htok
    rcases htok with rfl | htok
    · exact isClosed_of_stop_nonneg (by dsimp only; omega)
    · exact isClosed_itemToks _ items tok htok
  | .object members => by
    intro tok htok
    rw [valueToks, List.mem_cons] at htok
    rcases htok with rfl | htok
    · exact isClosed_of_stop_nonneg (by dsimp only; omega)
    · exact isClosed_memberToks _ members tok htok

theorem isClosed_itemToks (p : ℕ) : ∀ items : JsonItems, ∀ tok ∈ itemToks p items, tok.IsClosed
  | .nil _ => by
    intro tok htok
    rw [itemToks] at htok
    exact absurd htok List.not_mem_nil
  | .cons before value after rest => by
    intro tok htok
    rw [itemToks, List.mem_append] at htok
    rcases htok with htok | htok
    · exact isClosed_valueToks _ value tok htok
    · exact isClosed_itemToks _ rest tok htok

theorem isClosed_memberToks (p : ℕ) :
    ∀ members : JsonMembers, ∀ tok ∈ memberToks p members, tok.IsClosed
  | .nil _ => by
    intro tok htok
    rw [memberToks] at htok
    exact absurd htok List.not_mem_nil
  | .cons before key colon₁ colon₂ value after rest => by
    intro tok htok
    rw [memberToks, List.mem_cons, List.mem_append] at htok
    rcases htok with rfl | htok | htok
    · exact isClosed_of_stop_nonneg (by dsimp only; omega)
    · exact isClosed_valueToks _ value tok htok
    · exact isClosed_memberToks _ rest tok htok

end

/-! ### The last token with a property -/

section LastToken

variable {p : JsmnTok → Bool}

theorem lastToken_append (xs ys : List JsmnTok) :
    lastToken p (xs ++ ys) = ((lastToken p ys).map (xs.length + ·)).or (lastToken p xs) := by
  induction xs with
  | nil => simp [lastToken]
  | cons x xs ih =>
    rw [List.cons_append, lastToken, lastToken, ih]
    rcases lastToken p ys with - | i
    · rfl
    · simp only [Option.map_some, Option.some_or, List.length_cons]
      congr 1
      omega

theorem lastToken_eq_none_iff {xs : List JsmnTok} :
    lastToken p xs = none ↔ ∀ tok ∈ xs, p tok = false := by
  induction xs with
  | nil => simp [lastToken]
  | cons x xs ih =>
    rw [lastToken, List.forall_mem_cons, ← ih]
    rcases lastToken p xs with - | i
    · cases p x <;> simp
    · simp

theorem lastToken_modify {f : JsmnTok → JsmnTok} (hf : ∀ tok, p (f tok) = p tok)
    (xs : List JsmnTok) (i : ℕ) : lastToken p (xs.modify i f) = lastToken p xs := by
  induction xs generalizing i with
  | nil => rw [List.modify_nil]
  | cons x xs ih =>
    rcases i with - | i
    · rw [List.modify_zero_cons, lastToken, lastToken, hf]
    · rw [List.modify_succ_cons, lastToken, lastToken, ih]

theorem map_of_lastToken {xs : List JsmnTok} {i : ℕ} (h : lastToken p xs = some i) :
    xs[i]?.map p = some true := by
  induction xs generalizing i with
  | nil => cases h
  | cons x xs ih =>
    rw [lastToken] at h
    rcases hxs : lastToken p xs with - | j
    · rw [hxs] at h
      dsimp only at h
      split_ifs at h with hx
      cases h
      exact congrArg some hx
    · rw [hxs] at h
      cases h
      exact ih hxs

/-- The last token with one property is the last with a stronger one, if it has that. -/
theorem lastToken_of_imp {q : JsmnTok → Bool} (hpq : ∀ tok, p tok = true → q tok = true)
    {xs : List JsmnTok} {i : ℕ} (h : lastToken q xs = some i) (hi : xs[i]?.map p = some true) :
    lastToken p xs = some i := by
  induction xs generalizing i with
  | nil => cases h
  | cons x xs ih =>
    rw [lastToken] at h ⊢
    rcases hq : lastToken q xs with - | j
    · have hnone : lastToken p xs = none := by
        rw [lastToken_eq_none_iff] at hq ⊢
        intro tok htok
        rw [← Bool.not_eq_true]
        exact fun hp ↦ absurd (hpq tok hp) (Bool.eq_false_iff.1 (hq tok htok))
      rw [hq] at h
      dsimp only at h
      split_ifs at h
      cases h
      have hx : p x = true := Option.some.inj hi
      rw [hnone]
      exact if_pos hx
    · rw [hq] at h
      cases h
      rw [ih hq hi]

end LastToken

/-- Every token so far has an end. -/
theorem lastToken_append_closed {toks : List JsmnTok} (h : ∀ tok ∈ toks, tok.IsClosed)
    (tokens : List JsmnTok) :
    lastToken JsmnTok.isOpen (tokens ++ toks) = lastToken JsmnTok.isOpen tokens := by
  rw [lastToken_append, lastToken_eq_none_iff.2 h]
  rfl

/-! ### Sizes -/

/-- Counting `n` more values in a token. -/
def addSize (i : ℕ) (n : ℤ) (tokens : List JsmnTok) : List JsmnTok :=
  tokens.modify i fun tok ↦ { tok with size := tok.size + n }

theorem addSize_addSize (i : ℕ) (m n : ℤ) (tokens : List JsmnTok) :
    addSize i n (addSize i m tokens) = addSize i (m + n) tokens := by
  rw [addSize, addSize, List.modify_modify_eq, addSize]
  simp only [Function.comp_def, Int.add_assoc]

theorem addSize_zero (i : ℕ) (tokens : List JsmnTok) : addSize i 0 tokens = tokens := by
  simp only [addSize, Int.add_zero]
  exact List.modify_id i tokens

theorem length_addSize (i : ℕ) (n : ℤ) (tokens : List JsmnTok) :
    (addSize i n tokens).length = tokens.length := List.length_modify _ _ _

theorem addSize_append {i : ℕ} (n : ℤ) {tokens : List JsmnTok} (h : i < tokens.length)
    (toks : List JsmnTok) : addSize i n (tokens ++ toks) = addSize i n tokens ++ toks := by
  induction tokens generalizing i with
  | nil => exact absurd h (Nat.not_lt_zero i)
  | cons tok tokens ih =>
    rcases i with - | i
    · rfl
    · exact congrArg (tok :: ·) (ih (Nat.lt_of_succ_lt_succ h))

theorem modify_length_append (f : JsmnTok → JsmnTok) (tokens : List JsmnTok) (tok : JsmnTok)
    (toks : List JsmnTok) :
    (tokens ++ tok :: toks).modify tokens.length f = tokens ++ f tok :: toks := by
  induction tokens with
  | nil => rfl
  | cons x tokens ih => exact congrArg (x :: ·) ih

theorem lastToken_addSize (i : ℕ) (n : ℤ) (tokens : List JsmnTok) :
    lastToken JsmnTok.isOpen (addSize i n tokens) = lastToken JsmnTok.isOpen tokens := by
  rw [addSize, lastToken_modify]
  exact fun _ ↦ rfl

theorem isContainer_addSize (i j : ℕ) (n : ℤ) (tokens : List JsmnTok) :
    (addSize i n tokens)[j]?.map JsmnTok.isContainer = tokens[j]?.map JsmnTok.isContainer := by
  rw [addSize, List.getElem?_modify]
  rcases tokens[j]? with - | tok
  · split_ifs <;> rfl
  · split_ifs <;> rfl

/-! ### Reading with room for the tokens -/

section Room

variable {n : ℕ}

theorem foldlM_append_of_ok {ls ms : List Lexeme} {parser parser' : JsmnParser}
    (h : ls.foldlM (JsmnParser.read (some n)) parser = .ok parser') :
    (ls ++ ms).foldlM (JsmnParser.read (some n)) parser =
      ms.foldlM (JsmnParser.read (some n)) parser' := by
  rw [List.foldlM_append, h]
  rfl

theorem foldlM_cons_of_ok {x : Lexeme} {ls : List Lexeme} {parser parser' : JsmnParser}
    (h : parser.read (some n) x = .ok parser') :
    (x :: ls).foldlM (JsmnParser.read (some n)) parser =
      ls.foldlM (JsmnParser.read (some n)) parser' := by
  rw [List.foldlM_cons, h]
  rfl

theorem foldlM_singleton_of_ok {x : Lexeme} {parser parser' : JsmnParser}
    (h : parser.read (some n) x = .ok parser') :
    [x].foldlM (JsmnParser.read (some n)) parser = .ok parser' :=
  foldlM_cons_of_ok h

theorem length_textOf_white (gap : List White) : (textOf (gap.map .white)).length = gap.length := by
  induction gap with
  | nil => rfl
  | cons w gap ih =>
    rw [List.map_cons, textOf_cons, List.length_append, ih, List.length_cons, Nat.add_comm]
    rfl

/-- White space is skipped. -/
theorem foldlM_white (gap : List White) (parser : JsmnParser) :
    (gap.map Lexeme.white).foldlM (JsmnParser.read (some n)) parser =
      .ok { parser with pos := parser.pos + gap.length } := by
  induction gap generalizing parser with
  | nil => rfl
  | cons w gap ih =>
    have hread : parser.read (some n) (.white w) = .ok { parser with pos := parser.pos + 1 } := rfl
    rw [List.map_cons, foldlM_cons_of_ok hread, ih, List.length_cons]
    simp only [Nat.add_assoc, Nat.add_comm 1]

/-- A token is added where there is room. -/
theorem addToken_of_lt {parser : JsmnParser} (h : parser.tokens.length < n) (tok : JsmnTok) :
    parser.addToken (some n) tok =
      .ok { parser with
        tokens := sizeUp parser.toksuper (parser.tokens ++ [tok])
        count := parser.count + 1 } := by
  rw [JsmnParser.addToken]
  exact if_neg (not_le.2 h)

/-- The tokeniser is inside an object or array, and counts in it. -/
structure JsmnParser.Inside (parser : JsmnParser) (c : ℕ) : Prop where
  toksuper : parser.toksuper = some c
  last : lastToken JsmnTok.isOpen parser.tokens = some c
  isContainer : parser.tokens[c]?.map JsmnTok.isContainer = some true

theorem JsmnParser.Inside.lt_length {parser : JsmnParser} {c : ℕ} (h : parser.Inside c) :
    c < parser.tokens.length := by
  by_contra hge
  have hcontainer := h.isContainer
  rw [List.getElem?_eq_none (not_lt.1 hge)] at hcontainer
  cases hcontainer

/-- A super token is one of the tokens. -/
def JsmnParser.SuperInRange (parser : JsmnParser) : Prop :=
  ∀ i ∈ parser.toksuper, i < parser.tokens.length

theorem sizeUp_append {parser : JsmnParser} (h : parser.SuperInRange) (toks : List JsmnTok) :
    sizeUp parser.toksuper (parser.tokens ++ toks) =
      sizeUp parser.toksuper parser.tokens ++ toks := by
  rcases hsuper : parser.toksuper with - | i
  · rfl
  · exact addSize_append 1 (h i hsuper) toks

theorem length_sizeUp (toksuper : Option ℕ) (tokens : List JsmnTok) :
    (sizeUp toksuper tokens).length = tokens.length := by
  rcases toksuper with - | i
  · rfl
  · exact length_addSize i 1 tokens

theorem lastToken_sizeUp (toksuper : Option ℕ) (tokens : List JsmnTok) :
    lastToken JsmnTok.isOpen (sizeUp toksuper tokens) = lastToken JsmnTok.isOpen tokens := by
  rcases toksuper with - | i
  · rfl
  · exact lastToken_addSize i 1 tokens

/-- Where a value has been counted: behind an object or array, in the one around it. -/
def superBehind (parser : JsmnParser) : Json → Option ℕ
  | .literal _ | .string _ => parser.toksuper
  | .array _ | .object _ => lastToken JsmnTok.isOpen parser.tokens

/-- The tokeniser behind a value. -/
def JsmnParser.behind (parser : JsmnParser) (v : Json) : JsmnParser where
  pos := parser.pos + v.text.length
  tokens := sizeUp parser.toksuper parser.tokens ++ valueToks parser.pos v
  toksuper := superBehind parser v
  count := parser.count + (valueToks parser.pos v).length

/-- The tokeniser behind the items of the array that it is in. -/
def JsmnParser.behindItems (parser : JsmnParser) (c : ℕ) (items : JsonItems) : JsmnParser where
  pos := parser.pos + (textOf items.lexemes).length
  tokens := addSize c items.toList.length parser.tokens ++ itemToks parser.pos items
  toksuper := some c
  count := parser.count + (itemToks parser.pos items).length

/-- The tokeniser behind the members of the object that it is in, and counting wherever. -/
def JsmnParser.behindMembers (parser : JsmnParser) (c : ℕ) (members : JsonMembers)
    (toksuper : Option ℕ) : JsmnParser where
  pos := parser.pos + (textOf members.lexemes).length
  tokens := addSize c members.toList.length parser.tokens ++ memberToks parser.pos members
  toksuper := toksuper
  count := parser.count + (memberToks parser.pos members).length

/-- Behind an opening bracket the tokeniser is inside. -/
theorem exists_begin {parser : JsmnParser} (hroom : parser.tokens.length < n)
    (hsuper : parser.SuperInRange) {type : JsmnType} (htype : type = .object ∨ type = .array) :
    ∃ parser' : JsmnParser, parser.begin (some n) type = .ok parser' ∧
      parser'.tokens = sizeUp parser.toksuper parser.tokens ++ [⟨type, parser.pos, -1, 0⟩] ∧
      parser'.toksuper = some parser.tokens.length ∧ parser'.count = parser.count + 1 ∧
      ∀ p, JsmnParser.Inside { parser' with pos := p } parser.tokens.length := by
  have hcontainer : JsmnTok.isContainer ⟨type, parser.pos, -1, 0⟩ = true := by
    rcases htype with rfl | rfl <;> rfl
  have hopen : JsmnTok.isOpen ⟨type, parser.pos, -1, 0⟩ = true := by
    have hstart : (parser.pos : ℤ) ≠ -1 := by omega
    simp [JsmnTok.isOpen, hstart]
  rw [JsmnParser.begin, addToken_of_lt hroom, sizeUp_append hsuper]
  refine ⟨_, rfl, rfl, rfl, rfl, fun p ↦ ⟨rfl, ?_, ?_⟩⟩
  · show lastToken _ (_ ++ _) = _
    rw [lastToken_append, lastToken, lastToken, hopen]
    simp [length_sizeUp]
  · show (_ ++ _)[_]?.map _ = _
    rw [List.getElem?_append_right (length_sizeUp _ _).le, length_sizeUp, Nat.sub_self]
    exact congrArg some hcontainer

/-- A closing bracket ends the token that is open last. -/
theorem close_of_last {parser : JsmnParser} {tokens toks : List JsmnTok} (tok : JsmnTok)
    (htokens : parser.tokens = tokens ++ tok :: toks)
    (hlast : lastToken JsmnTok.isOpen parser.tokens = some tokens.length) :
    parser.close (some n) tok.type =
      .ok { parser with
        tokens := tokens ++ { tok with stop := parser.pos + 1 } :: toks
        toksuper := lastToken JsmnTok.isOpen
          (tokens ++ { tok with stop := (parser.pos : ℤ) + 1 } :: toks) } := by
  have htype : parser.tokens[tokens.length]?.map JsmnTok.type = some tok.type := by
    rw [htokens, List.getElem?_append_right le_rfl, Nat.sub_self]
    rfl
  rw [JsmnParser.close]
  simp only [hlast, htype, ne_eq, not_true_eq_false, if_false]
  rw [htokens, modify_length_append]

/-- What stands between brackets: the token of the container ends behind the closing one, and what
follows is counted where the container is. -/
theorem foldlM_brackets {x y : Lexeme} {body : List Lexeme} {type : JsmnType}
    (htype : type = .object ∨ type = .array)
    (hx : ∀ parser, JsmnParser.lexeme (some n) parser x = parser.begin (some n) type)
    (hy : ∀ parser, JsmnParser.lexeme (some n) parser y = parser.close (some n) type)
    (hxlen : x.text.length = 1) (hylen : y.text.length = 1) {parser : JsmnParser}
    (hroom : parser.tokens.length < n) (hsuper : parser.SuperInRange) {k : ℤ} {len : ℕ}
    {toks : List JsmnTok} (hclosed : ∀ tok ∈ toks, tok.IsClosed)
    (hbody : ∀ parser₁ : JsmnParser, parser₁.pos = parser.pos + 1 →
      parser₁.Inside parser.tokens.length → parser₁.tokens.length = parser.tokens.length + 1 →
      ∃ toksuper, body.foldlM (JsmnParser.read (some n)) parser₁ =
        .ok ⟨parser₁.pos + len, addSize parser.tokens.length k parser₁.tokens ++ toks, toksuper,
          parser₁.count + toks.length⟩) :
    (x :: (body ++ [y])).foldlM (JsmnParser.read (some n)) parser =
      .ok ⟨parser.pos + 1 + len + 1,
        sizeUp parser.toksuper parser.tokens ++
          ⟨type, parser.pos, parser.pos + 1 + len + 1, k⟩ :: toks,
        lastToken JsmnTok.isOpen parser.tokens, parser.count + (toks.length + 1 : ℕ)⟩ := by
  obtain ⟨parser', hbegin, htokens, htoksuper, hcount, hinside⟩ := exists_begin hroom hsuper htype
  have hopen : parser.read (some n) x = .ok { parser' with pos := parser.pos + 1 } := by
    rw [JsmnParser.read, hx, hbegin, hxlen]
    rfl
  obtain ⟨toksuper, hread⟩ := hbody { parser' with pos := parser.pos + 1 } rfl (hinside _)
    (by simp [htokens, length_sizeUp])
  -- the container's token, with its size
  have hsized : addSize parser.tokens.length k parser'.tokens =
      sizeUp parser.toksuper parser.tokens ++ [⟨type, parser.pos, -1, k⟩] := by
    have hmodify := modify_length_append (fun tok ↦ { tok with size := tok.size + k })
      (sizeUp parser.toksuper parser.tokens) ⟨type, parser.pos, -1, 0⟩ []
    rw [length_sizeUp] at hmodify
    rw [htokens, addSize, hmodify, Int.zero_add]
  rw [foldlM_cons_of_ok hopen, foldlM_append_of_ok hread]
  refine foldlM_singleton_of_ok ?_
  have hlast : lastToken JsmnTok.isOpen (sizeUp parser.toksuper parser.tokens ++
      ⟨type, parser.pos, -1, k⟩ :: toks) = some (sizeUp parser.toksuper parser.tokens).length := by
    rw [List.append_cons, ← hsized, lastToken_append_closed hclosed, lastToken_addSize,
      length_sizeUp]
    exact (hinside 0).last
  have hbehind : lastToken JsmnTok.isOpen (sizeUp parser.toksuper parser.tokens ++
      ⟨type, parser.pos, parser.pos + 1 + len + 1, k⟩ :: toks) =
        lastToken JsmnTok.isOpen parser.tokens := by
    rw [lastToken_append_closed, lastToken_sizeUp]
    rw [List.forall_mem_cons]
    exact ⟨isClosed_of_stop_nonneg (by dsimp only; omega), hclosed⟩
  rw [hsized, List.append_assoc, List.singleton_append, JsmnParser.read, hy,
    close_of_last ⟨type, parser.pos, -1, k⟩ rfl hlast, hylen]
  have hstop : ((parser.pos + 1 + len : ℕ) : ℤ) + 1 = parser.pos + 1 + len + 1 := by omega
  simp only [Except.map, Except.ok.injEq, JsmnParser.mk.injEq, hstop, hbehind, hcount, true_and]
  omega

theorem comma_eq {parser : JsmnParser} {i : ℕ} (hsuper : parser.toksuper = some i) :
    parser.comma (some n) =
      if parser.tokens[i]?.map JsmnTok.isContainer = some false then
        match lastToken (fun tok ↦ tok.isContainer && tok.isOpen) parser.tokens with
        | some j => { parser with toksuper := some j }
        | none => parser
      else parser := by
  rcases parser with ⟨pos, tokens, toksuper, count⟩
  cases hsuper
  rfl

/-- A comma between the items of an array changes nothing. -/
theorem foldlM_item_separator {parser : JsmnParser} {c : ℕ} (hinside : parser.Inside c)
    (rest : JsonItems) :
    rest.separator.foldlM (JsmnParser.read (some n)) parser =
      .ok { parser with pos := parser.pos + (textOf rest.separator).length } := by
  rcases rest with gap | ⟨before, value, after, rest⟩
  · rfl
  · refine foldlM_singleton_of_ok ?_
    have hcomma : parser.comma (some n) = parser := by
      rw [comma_eq hinside.toksuper, hinside.isContainer]
      exact if_neg (by decide)
    rw [JsmnParser.read, JsmnParser.lexeme, hcomma]
    rfl

/-- The tokeniser is in an object, and counts in it or in a key. -/
structure JsmnParser.InMember (parser : JsmnParser) (c : ℕ) : Prop where
  toksuper : parser.toksuper = some c ∨
    ∃ i, parser.toksuper = some i ∧ parser.tokens[i]?.map JsmnTok.isContainer = some false
  last : lastToken JsmnTok.isOpen parser.tokens = some c
  isContainer : parser.tokens[c]?.map JsmnTok.isContainer = some true

theorem JsmnParser.Inside.move {parser : JsmnParser} {c : ℕ} (h : parser.Inside c) (p : ℕ) :
    JsmnParser.Inside { parser with pos := p } c := ⟨h.toksuper, h.last, h.isContainer⟩

theorem JsmnParser.InMember.move {parser : JsmnParser} {c : ℕ} (h : parser.InMember c) (p : ℕ) :
    JsmnParser.InMember { parser with pos := p } c := ⟨h.toksuper, h.last, h.isContainer⟩

theorem JsmnParser.Inside.inMember {parser : JsmnParser} {c : ℕ} (h : parser.Inside c) :
    parser.InMember c := ⟨Or.inl h.toksuper, h.last, h.isContainer⟩

/-- Behind a comma in an object, the tokeniser counts in the object. -/
theorem comma_of_inMember {parser : JsmnParser} {c : ℕ} (h : parser.InMember c) :
    parser.comma (some n) = { parser with toksuper := some c } := by
  rcases h.toksuper with hsuper | ⟨i, hsuper, hkey⟩
  · rw [comma_eq hsuper, h.isContainer, if_neg (by decide), ← hsuper]
  · have hlast : lastToken (fun tok ↦ tok.isContainer && tok.isOpen) parser.tokens = some c := by
      refine lastToken_of_imp (fun tok htok ↦ (Bool.and_eq_true_iff.1 htok).2) h.last ?_
      obtain ⟨tok, hget, hcontainer⟩ := Option.map_eq_some_iff.1 h.isContainer
      obtain ⟨tok', hget', hopen⟩ := Option.map_eq_some_iff.1 (map_of_lastToken h.last)
      obtain rfl : tok = tok' := Option.some.inj (hget.symm.trans hget')
      rw [hget, Option.map_some, hcontainer, hopen]
      rfl
    rw [comma_eq hsuper, hkey, if_pos rfl, hlast]

theorem read_string {parser : JsmnParser} (hroom : parser.tokens.length < n)
    (s : List StringChar) :
    parser.read (some n) (.string s) =
      .ok ⟨parser.pos + (Lexeme.string s).text.length,
        sizeUp parser.toksuper (parser.tokens ++
          [⟨.string, parser.pos + 1, parser.pos + 1 + (stringText s).length, 0⟩]),
        parser.toksuper, parser.count + 1⟩ := by
  rw [JsmnParser.read, JsmnParser.lexeme, addToken_of_lt hroom]
  rfl

theorem read_literal {parser : JsmnParser} (hroom : parser.tokens.length < n) (l : Literal) :
    parser.read (some n) (.literal l) =
      .ok ⟨parser.pos + (Lexeme.literal l).text.length,
        sizeUp parser.toksuper (parser.tokens ++
          [⟨.primitive, parser.pos, parser.pos + l.bytes.length, 0⟩]),
        parser.toksuper, parser.count + 1⟩ := by
  rw [JsmnParser.read, JsmnParser.lexeme, addToken_of_lt hroom]
  rfl

theorem read_colon {parser : JsmnParser} (hne : parser.tokens ≠ []) :
    parser.read (some n) .colon =
      .ok ⟨parser.pos + 1, parser.tokens, some (parser.tokens.length - 1), parser.count⟩ := by
  rw [JsmnParser.read, JsmnParser.lexeme, JsmnParser.colon, if_neg hne]
  rfl

theorem superBehind_of_inside {parser : JsmnParser} {c : ℕ} (h : parser.Inside c) (v : Json) :
    superBehind parser v = some c := by
  cases v
  · exact h.toksuper
  · exact h.toksuper
  · exact h.last
  · exact h.last

theorem length_text_array (items : JsonItems) :
    (Json.array items).text.length = 1 + (textOf items.lexemes).length + 1 := by
  rw [text, Json.lexemes, textOf_cons, textOf_append, List.length_append, List.length_append,
    ← Nat.add_assoc]
  rfl

theorem length_text_object (members : JsonMembers) :
    (Json.object members).text.length = 1 + (textOf members.lexemes).length + 1 := by
  rw [text, Json.lexemes, textOf_cons, textOf_append, List.length_append, List.length_append,
    ← Nat.add_assoc]
  rfl

/-- Reading a key, the colon and the value behind it. -/
theorem foldlM_member (key : List StringChar) (colon₁ colon₂ : List White) {v : Json}
    (hvalue : ∀ parser : JsmnParser, parser.SuperInRange →
      parser.tokens.length + (valueToks parser.pos v).length ≤ n →
        v.lexemes.foldlM (JsmnParser.read (some n)) parser = .ok (parser.behind v))
    {pos : ℕ} {tokens : List JsmnTok} {c : ℕ} {count : ℤ}
    (hinside : JsmnParser.Inside ⟨pos, tokens, some c, count⟩ c) {q : ℕ}
    (hq : q = pos + (Lexeme.string key).text.length + colon₁.length + 1 + colon₂.length)
    (hroom : tokens.length + (1 + (valueToks q v).length) ≤ n) :
    ∃ toksuper, (Lexeme.string key :: (colon₁.map .white ++ (.colon :: (colon₂.map .white ++
      v.lexemes)))).foldlM (JsmnParser.read (some n)) ⟨pos, tokens, some c, count⟩ =
        .ok ⟨q + v.text.length, addSize c 1 tokens ++
          ⟨.string, pos + 1, pos + 1 + (stringText key).length, 1⟩ :: valueToks q v, toksuper,
          count + (1 + (valueToks q v).length : ℕ)⟩ ∧
      JsmnParser.InMember ⟨q + v.text.length, addSize c 1 tokens ++
        ⟨.string, pos + 1, pos + 1 + (stringText key).length, 1⟩ :: valueToks q v, toksuper,
        count + (1 + (valueToks q v).length : ℕ)⟩ c := by
  have hlt := hinside.lt_length
  set k₀ : JsmnTok := ⟨.string, pos + 1, pos + 1 + (stringText key).length, 0⟩ with hk₀
  set k₁ : JsmnTok := ⟨.string, pos + 1, pos + 1 + (stringText key).length, 1⟩ with hk₁
  have hclosed : k₀.IsClosed ∧ k₁.IsClosed :=
    ⟨isClosed_of_stop_nonneg (by dsimp only [k₀]; omega),
      isClosed_of_stop_nonneg (by dsimp only [k₁]; omega)⟩
  have hkey : JsmnParser.read (some n) ⟨pos, tokens, some c, count⟩ (.string key) =
      .ok ⟨pos + (Lexeme.string key).text.length, addSize c 1 tokens ++ [k₀], some c,
        count + 1⟩ := by
    rw [read_string (by dsimp only; omega), sizeUp_append fun i hi ↦ by cases hi; exact hlt]
    rfl
  have hlength : (addSize c 1 tokens ++ [k₀]).length = tokens.length + 1 := by
    rw [List.length_append, length_addSize]
    rfl
  have hcolon : ∀ p, JsmnParser.read (some n)
      ⟨p, addSize c 1 tokens ++ [k₀], some c, count + 1⟩ .colon =
        .ok ⟨p + 1, addSize c 1 tokens ++ [k₀], some tokens.length, count + 1⟩ := by
    intro p
    rw [read_colon (List.append_ne_nil_of_right_ne_nil _ (List.cons_ne_nil k₀ []))]
    dsimp only
    rw [hlength, Nat.add_sub_cancel]
  -- the value is counted in the key
  have hsized : sizeUp (some tokens.length) (addSize c 1 tokens ++ [k₀]) =
      addSize c 1 tokens ++ [k₁] := by
    have hmodify := modify_length_append (fun tok ↦ { tok with size := tok.size + 1 })
      (addSize c 1 tokens) k₀ []
    rw [length_addSize] at hmodify
    exact hmodify
  have hbehind := hvalue ⟨q, addSize c 1 tokens ++ [k₀], some tokens.length, count + 1⟩
    (fun i hi ↦ by cases hi; dsimp only; omega) (by dsimp only; omega)
  rw [JsmnParser.behind, hsized, List.append_assoc, List.singleton_append] at hbehind
  refine ⟨superBehind ⟨q, addSize c 1 tokens ++ [k₀], some tokens.length, count + 1⟩ v, ?_,
    ⟨?_, ?_, ?_⟩⟩
  · rw [foldlM_cons_of_ok hkey, foldlM_append_of_ok (foldlM_white colon₁ _),
      foldlM_cons_of_ok (hcolon _), foldlM_append_of_ok (foldlM_white colon₂ _), ← hq, hbehind]
    have hcount : count + 1 + ((valueToks q v).length : ℤ) =
        count + (1 + (valueToks q v).length : ℕ) := by omega
    dsimp only
    rw [hcount]
  · have hkeyAt : (addSize c 1 tokens ++ k₁ :: valueToks q v)[tokens.length]? = some k₁ := by
      rw [List.getElem?_append_right (length_addSize _ _ _).le, length_addSize, Nat.sub_self]
      rfl
    have hlast : lastToken JsmnTok.isOpen (addSize c 1 tokens ++ [k₀]) = some c := by
      rw [lastToken_append_closed (List.forall_mem_singleton.2 hclosed.1), lastToken_addSize]
      exact hinside.last
    rcases v with l | s | items | members
    · exact Or.inr ⟨tokens.length, rfl, by rw [hkeyAt]; rfl⟩
    · exact Or.inr ⟨tokens.length, rfl, by rw [hkeyAt]; rfl⟩
    · exact Or.inl hlast
    · exact Or.inl hlast
  · show lastToken _ (_ ++ _) = _
    rw [lastToken_append_closed, lastToken_addSize]
    · exact hinside.last
    · rw [List.forall_mem_cons]
      exact ⟨hclosed.2, isClosed_valueToks q v⟩
  · show (_ ++ _)[c]?.map _ = _
    rw [List.getElem?_append_left (by rw [length_addSize]; exact hlt), isContainer_addSize]
    exact hinside.isContainer

/-- In front of further members the tokeniser counts in the object. -/
theorem foldlM_member_separator {parser : JsmnParser} {c : ℕ} (h : parser.InMember c)
    (rest : JsonMembers) :
    ∃ toksuper, rest.separator.foldlM (JsmnParser.read (some n)) parser =
        .ok ⟨parser.pos + (textOf rest.separator).length, parser.tokens, toksuper, parser.count⟩ ∧
      JsmnParser.InMember ⟨parser.pos + (textOf rest.separator).length, parser.tokens, toksuper,
        parser.count⟩ c ∧
      (rest.separator ≠ [] → toksuper = some c) := by
  rcases rest with gap | ⟨before, key, colon₁, colon₂, value, after, rest⟩
  · exact ⟨parser.toksuper, rfl, ⟨h.toksuper, h.last, h.isContainer⟩, fun hne ↦ absurd rfl hne⟩
  · refine ⟨some c, foldlM_singleton_of_ok ?_, ⟨Or.inl rfl, h.last, h.isContainer⟩, fun _ ↦ rfl⟩
    rw [JsmnParser.read, JsmnParser.lexeme, comma_of_inMember h]
    rfl

/-- Behind an item the tokeniser is in the array again. -/
theorem JsmnParser.Inside.behindValue {parser : JsmnParser} {c : ℕ} (h : parser.Inside c)
    {toks : List JsmnTok} (hclosed : ∀ tok ∈ toks, tok.IsClosed) (p : ℕ) (count : ℤ) :
    JsmnParser.Inside ⟨p, addSize c 1 parser.tokens ++ toks, some c, count⟩ c := by
  refine ⟨rfl, ?_, ?_⟩
  · show lastToken _ (_ ++ _) = _
    rw [lastToken_append_closed hclosed, lastToken_addSize]
    exact h.last
  · show (_ ++ _)[c]?.map _ = _
    rw [List.getElem?_append_left (by rw [length_addSize]; exact h.lt_length), isContainer_addSize]
    exact h.isContainer

mutual

/-- **Reading a value** adds its tokens, and one to the size of the token above. -/
theorem foldlM_value : ∀ (v : Json) (parser : JsmnParser), parser.SuperInRange →
    parser.tokens.length + (valueToks parser.pos v).length ≤ n →
    v.lexemes.foldlM (JsmnParser.read (some n)) parser = .ok (parser.behind v)
  | .literal l, parser, hsuper, hroom => by
    rw [valueToks, List.length_singleton] at hroom
    rw [Json.lexemes, foldlM_singleton_of_ok (read_literal hroom l), sizeUp_append hsuper,
      JsmnParser.behind, valueToks]
    simp only [text, Json.lexemes, textOf_cons, textOf_nil, List.append_nil]
    rfl
  | .string s, parser, hsuper, hroom => by
    rw [valueToks, List.length_singleton] at hroom
    rw [Json.lexemes, foldlM_singleton_of_ok (read_string hroom s), sizeUp_append hsuper,
      JsmnParser.behind, valueToks]
    simp only [text, Json.lexemes, textOf_cons, textOf_nil, List.append_nil]
    rfl
  | .array items, parser, hsuper, hroom => by
    rw [valueToks, List.length_cons] at hroom
    have hread := foldlM_brackets (n := n) (x := .openArray) (y := .closeArray) (Or.inr rfl)
      (fun _ ↦ rfl) (fun _ ↦ rfl) rfl rfl (by omega) hsuper
      (isClosed_itemToks (parser.pos + 1) items)
      fun parser₁ hpos hinside hlength ↦ ⟨some parser.tokens.length, by
        rw [← hpos]
        exact foldlM_items items parser₁ _ hinside (by rw [hlength, hpos]; omega)⟩
    rw [Json.lexemes, hread, JsmnParser.behind, valueToks, length_text_array]
    simp only [← Nat.add_assoc]
    rfl
  | .object members, parser, hsuper, hroom => by
    rw [valueToks, List.length_cons] at hroom
    have hread := foldlM_brackets (n := n) (x := .openObject) (y := .closeObject) (Or.inl rfl)
      (fun _ ↦ rfl) (fun _ ↦ rfl) rfl rfl (by omega) hsuper
      (isClosed_memberToks (parser.pos + 1) members)
      fun parser₁ hpos hinside hlength ↦ by
        rw [← hpos]
        exact foldlM_members members parser₁ _ hinside.inMember (fun _ ↦ hinside.toksuper)
          (by rw [hlength, hpos]; omega)
    rw [Json.lexemes, hread, JsmnParser.behind, valueToks, length_text_object]
    simp only [← Nat.add_assoc]
    rfl

/-- Reading the items of an array. -/
theorem foldlM_items : ∀ (items : JsonItems) (parser : JsmnParser) (c : ℕ), parser.Inside c →
    parser.tokens.length + (itemToks parser.pos items).length ≤ n →
    items.lexemes.foldlM (JsmnParser.read (some n)) parser = .ok (parser.behindItems c items)
  | .nil gap, parser, c, hinside, hroom => by
    rw [JsonItems.lexemes, foldlM_white, JsmnParser.behindItems, itemToks, JsonItems.lexemes,
      JsonItems.toList, length_textOf_white, ← hinside.toksuper]
    simp [addSize_zero]
  | .cons before value after rest, ⟨pos, tokens, toksuper, count⟩, c, hinside, hroom => by
    obtain rfl : toksuper = some c := hinside.toksuper
    rw [itemToks, List.length_append] at hroom
    dsimp only at hroom
    have hsuper : JsmnParser.SuperInRange
        ⟨pos + before.length, tokens, some c, count⟩ := fun i hi ↦ by
      cases hi
      exact hinside.lt_length
    -- the value counts in the array, which is then the token above again
    have hvalue : value.lexemes.foldlM (JsmnParser.read (some n))
        ⟨pos + before.length, tokens, some c, count⟩ =
          .ok ⟨pos + before.length + value.text.length,
            addSize c 1 tokens ++ valueToks (pos + before.length) value, some c,
            count + (valueToks (pos + before.length) value).length⟩ := by
      rw [foldlM_value value _ hsuper (by dsimp only; omega), JsmnParser.behind,
        superBehind_of_inside (hinside.move (pos + before.length))]
      rfl
    have hbehind := fun p ↦ hinside.behindValue (isClosed_valueToks (pos + before.length) value) p
      (count + (valueToks (pos + before.length) value).length)
    have hrest := foldlM_items rest _ c (hbehind (pos + before.length + value.text.length +
      after.length + (textOf rest.separator).length)) (by
        dsimp only
        rw [List.length_append, length_addSize]
        omega)
    rw [JsonItems.lexemes, foldlM_append_of_ok (foldlM_white before _),
      foldlM_append_of_ok hvalue, foldlM_append_of_ok (foldlM_white after _),
      foldlM_append_of_ok (foldlM_item_separator (hbehind _) rest), hrest]
    -- the sizes of this value and of the rest come to that of all of them
    have hcount : (addSize c rest.toList.length
        (addSize c 1 tokens ++ valueToks (pos + before.length) value)) =
          addSize c (rest.toList.length + 1 : ℕ) tokens ++
            valueToks (pos + before.length) value := by
      rw [addSize_append _ (by rw [length_addSize]; exact hinside.lt_length), addSize_addSize,
        Int.add_comm 1]
      rfl
    simp only [JsmnParser.behindItems, hcount, itemToks, JsonItems.lexemes, JsonItems.toList,
      textOf_append, List.length_append, length_textOf_white, List.length_cons, List.append_assoc,
      text, Nat.add_assoc, Int.natCast_add, Int.add_assoc]

/-- Reading the members of an object. In front of further members, behind a comma, the tokeniser
counts in the object. -/
theorem foldlM_members : ∀ (members : JsonMembers) (parser : JsmnParser) (c : ℕ),
    parser.InMember c → (members.separator ≠ [] → parser.toksuper = some c) →
    parser.tokens.length + (memberToks parser.pos members).length ≤ n →
    ∃ toksuper, members.lexemes.foldlM (JsmnParser.read (some n)) parser =
      .ok (parser.behindMembers c members toksuper)
  | .nil gap, parser, c, hmember, hsuper, hroom => by
    refine ⟨parser.toksuper, ?_⟩
    rw [JsonMembers.lexemes, foldlM_white, JsmnParser.behindMembers, memberToks,
      JsonMembers.lexemes, JsonMembers.toList, length_textOf_white]
    simp [addSize_zero]
  | .cons before key colon₁ colon₂ value after rest, ⟨pos, tokens, toksuper, count⟩, c, hmember,
      hsuper, hroom => by
    obtain rfl : toksuper = some c := hsuper (List.cons_ne_nil _ _)
    have hinside : JsmnParser.Inside ⟨pos, tokens, some c, count⟩ c :=
      ⟨rfl, hmember.last, hmember.isContainer⟩
    rw [memberToks, List.length_cons, List.length_append] at hroom
    dsimp only at hroom
    have hinside₁ : JsmnParser.Inside ⟨pos + before.length, tokens, some c, count⟩ c :=
      hinside.move _
    obtain ⟨q, hq⟩ : ∃ q, q = pos + before.length + (Lexeme.string key).text.length +
      colon₁.length + 1 + colon₂.length := ⟨_, rfl⟩
    rw [← hq] at hroom
    obtain ⟨toksuper, hkey, hmember⟩ := foldlM_member key colon₁ colon₂ (foldlM_value value)
      hinside₁ hq (by omega)
    -- behind the value the tokeniser may count in the key, and behind a comma in the object again
    obtain ⟨toksuper₁, hseparator, hmember₁, hsuper₁⟩ := foldlM_member_separator (n := n)
      (hmember.move (q + value.text.length + after.length)) rest
    obtain ⟨toksuper₂, hrest⟩ := foldlM_members rest _ c hmember₁ hsuper₁ (by
      dsimp only
      rw [List.length_append, length_addSize, List.length_cons]
      omega)
    refine ⟨toksuper₂, ?_⟩
    have hlexemes : (JsonMembers.cons before key colon₁ colon₂ value after rest).lexemes =
        before.map .white ++ ((.string key :: (colon₁.map .white ++ (.colon ::
          (colon₂.map .white ++ value.lexemes)))) ++
            (after.map .white ++ (rest.separator ++ rest.lexemes))) := by
      simp only [JsonMembers.lexemes, List.cons_append, List.append_assoc]
    rw [hlexemes, foldlM_append_of_ok (foldlM_white before _), foldlM_append_of_ok hkey,
      foldlM_append_of_ok (foldlM_white after _), foldlM_append_of_ok hseparator, hrest]
    -- the sizes of this member and of the rest come to that of all of them
    have hsized : addSize c rest.toList.length (addSize c 1 tokens ++
        ⟨.string, ↑(pos + before.length) + 1, ↑(pos + before.length) + 1 + (stringText key).length,
          1⟩ :: valueToks q value) = addSize c (rest.toList.length + 1 : ℕ) tokens ++
        ⟨.string, ↑(pos + before.length) + 1, ↑(pos + before.length) + 1 + (stringText key).length,
          1⟩ :: valueToks q value := by
      rw [addSize_append _ (by rw [length_addSize]; exact hinside.lt_length), addSize_addSize,
        Int.add_comm 1]
      rfl
    have hpos : q + value.text.length + after.length + (textOf rest.separator).length +
        (textOf rest.lexemes).length = pos + (textOf
          (JsonMembers.cons before key colon₁ colon₂ value after rest).lexemes).length := by
      rw [hlexemes, hq]
      simp only [textOf_append, textOf_cons, List.length_append, length_textOf_white, text]
      show _ = pos + (before.length + (_ + (_ + (1 + _)) + _))
      omega
    simp only [JsmnParser.behindMembers, memberToks, ← hq, hsized, hpos, JsonMembers.toList,
      List.length_cons, List.length_append, List.append_assoc, List.cons_append,
      Except.ok.injEq, JsmnParser.mk.injEq, true_and]
    omega

end

end Room

/-! ### Counting tokens -/

/-- The number of tokens that lexemes make. -/
def tokenCount (ls : List Lexeme) : ℕ :=
  ls.countP fun
    | .openArray | .openObject | .string _ | .literal _ => true
    | _ => false

theorem tokenCount_white (gap : List White) : tokenCount (gap.map .white) = 0 := by
  rw [tokenCount, List.countP_eq_zero]
  intro x hx
  obtain ⟨w, -, rfl⟩ := List.mem_map.1 hx
  exact Bool.false_ne_true

theorem tokenCount_append (ls ms : List Lexeme) :
    tokenCount (ls ++ ms) = tokenCount ls + tokenCount ms := List.countP_append

theorem tokenCount_cons (x : Lexeme) (ls : List Lexeme) :
    tokenCount (x :: ls) = tokenCount [x] + tokenCount ls := tokenCount_append [x] ls

/-- Without an array of tokens they are counted. -/
theorem foldlM_read_none (ls : List Lexeme) (parser : JsmnParser) (htokens : parser.tokens = [])
    (hsuper : parser.toksuper = none) :
    ls.foldlM (JsmnParser.read none) parser =
      .ok { parser with
        pos := parser.pos + (textOf ls).length
        count := parser.count + tokenCount ls } := by
  rcases parser with ⟨pos, tokens, toksuper, count⟩
  cases htokens
  cases hsuper
  induction ls generalizing pos count with
  | nil => simp [tokenCount, pure, Except.pure]
  | cons x ls ih =>
    have hread : JsmnParser.read none ⟨pos, [], none, count⟩ x =
        .ok ⟨pos + x.text.length, [], none, count + tokenCount [x]⟩ := by
      cases x <;> simp [JsmnParser.read, JsmnParser.lexeme, JsmnParser.begin, JsmnParser.close,
        JsmnParser.comma, JsmnParser.colon, JsmnParser.addToken, tokenCount, Except.map, bind,
        Except.bind, pure, Except.pure]
    rw [List.foldlM_cons, hread]
    show ls.foldlM (JsmnParser.read none) _ = _
    rw [ih, textOf_cons, List.length_append, Nat.add_assoc, tokenCount_cons x ls, Int.natCast_add,
      Int.add_assoc]

mutual

/-- The lexemes of a value make its tokens. -/
theorem length_valueToks (p : ℕ) :
    ∀ v : Json, (valueToks p v).length = tokenCount v.lexemes
  | .literal l => rfl
  | .string s => rfl
  | .array items => by
    rw [valueToks, Json.lexemes, List.length_cons, length_itemToks _ items, tokenCount_cons,
      tokenCount_append, Nat.add_comm]
    rfl
  | .object members => by
    rw [valueToks, Json.lexemes, List.length_cons, length_memberToks _ members, tokenCount_cons,
      tokenCount_append, Nat.add_comm]
    rfl

theorem length_itemToks (p : ℕ) :
    ∀ items : JsonItems, (itemToks p items).length = tokenCount items.lexemes
  | .nil gap => by
    rw [itemToks, JsonItems.lexemes, tokenCount_white]
    rfl
  | .cons before value after rest => by
    have hseparator : tokenCount rest.separator = 0 := by cases rest <;> rfl
    rw [itemToks, JsonItems.lexemes, List.length_append, length_valueToks _ value,
      length_itemToks _ rest]
    simp only [tokenCount_append, tokenCount_white, hseparator, Nat.zero_add]

theorem length_memberToks (p : ℕ) :
    ∀ members : JsonMembers, (memberToks p members).length = tokenCount members.lexemes
  | .nil gap => by
    rw [memberToks, JsonMembers.lexemes, tokenCount_white]
    rfl
  | .cons before key colon₁ colon₂ value after rest => by
    have hseparator : tokenCount rest.separator = 0 := by cases rest <;> rfl
    have hkey : ∀ ls, tokenCount (.string key :: ls) = 1 + tokenCount ls := tokenCount_cons _
    have hcolon : ∀ ls, tokenCount (.colon :: ls) = 0 + tokenCount ls := tokenCount_cons _
    rw [memberToks, JsonMembers.lexemes, List.length_cons, List.length_append,
      length_valueToks _ value, length_memberToks _ rest]
    simp only [tokenCount_append, hkey, hcolon, tokenCount_white, hseparator, Nat.zero_add]
    rw [Nat.add_comm]

end

/-! ### Documents -/

/-- The text of a value with white space around it. -/
def documentText (before : List White) (v : Json) (after : List White) : Bytes :=
  textOf (before.map Lexeme.white ++ (v.lexemes ++ after.map Lexeme.white))

/-- A document whose lexemes have been read. -/
theorem jsmnParse_of_foldlM {room : Option ℕ} {before after : List White} {v : Json}
    {parser : JsmnParser}
    (hread : (before.map Lexeme.white ++ (v.lexemes ++ after.map Lexeme.white)).foldlM
      (JsmnParser.read room) JsmnParser.init = .ok parser)
    (hclosed : ∀ tok ∈ parser.tokens, tok.IsClosed) :
    jsmnParse room (documentText before v after) = (parser.count, parser.tokens) := by
  have hdelimited :
      Delimited [] (before.map Lexeme.white ++ (v.lexemes ++ after.map Lexeme.white)) := by
    have hnil : Delimits [] := by simp [Delimits]
    simp only [delimited_append]
    exact ⟨delimited_whites _ before, Json.delimited (delimits_whites hnil after) v,
      delimited_whites _ after⟩
  have hgoes := reflTransGen_goes_of_foldlM (literalsEnd_of_delimited hdelimited) hread
  rw [List.append_nil] at hgoes
  obtain ⟨n, hn⟩ := Loop.exists_run_iff.2 ⟨_, hgoes, rfl⟩
  have hrun := Loop.run_eq_of_isSome (isSome_run_jsmnRound room (documentText before v after))
    (by rw [documentText, hn]; rfl)
  have hany : parser.tokens.any JsmnTok.isOpen = false := List.any_eq_false.2 fun tok htok ↦ by
    rw [hclosed tok htok]
    exact Bool.false_ne_true
  rw [jsmnParse, hrun, documentText, hn]
  exact if_neg (by rw [hany]; exact Bool.false_ne_true)

/-- **The tokens of a text** are counted. -/
theorem jsmnParse_none_text (before after : List White) (v : Json) :
    jsmnParse none (documentText before v after) =
      (((valueToks before.length v).length : ℤ), []) := by
  have hread := foldlM_read_none
    (before.map Lexeme.white ++ (v.lexemes ++ after.map Lexeme.white))
    .init rfl rfl
  rw [jsmnParse_of_foldlM hread fun _ htok ↦ by cases htok]
  simp only [tokenCount_append, tokenCount_white, length_valueToks, Nat.zero_add, Nat.add_zero,
    JsmnParser.init, Int.zero_add]

/-- **The tokens of a text** are filled in, where there is room for them. -/
theorem jsmnParse_some_text (before after : List White) (v : Json) {n : ℕ}
    (hn : (valueToks before.length v).length ≤ n) :
    jsmnParse (some n) (documentText before v after) =
      (((valueToks before.length v).length : ℤ), valueToks before.length v) := by
  have hbefore : (before.map Lexeme.white).foldlM (JsmnParser.read (some n)) JsmnParser.init =
      .ok ⟨before.length, [], none, 0⟩ := by
    rw [foldlM_white]
    simp [JsmnParser.init]
  have hvalue : v.lexemes.foldlM (JsmnParser.read (some n)) ⟨before.length, [], none, 0⟩ =
      .ok ⟨before.length + v.text.length, valueToks before.length v,
        superBehind ⟨before.length, [], none, 0⟩ v, (valueToks before.length v).length⟩ := by
    rw [foldlM_value v _ (fun i hi ↦ by cases hi) (by simpa using hn), JsmnParser.behind]
    simp [sizeUp]
  have hread := (foldlM_append_of_ok hbefore).trans
    ((foldlM_append_of_ok hvalue).trans (foldlM_white after _))
  exact jsmnParse_of_foldlM hread (isClosed_valueToks _ v)

/-- The number of tokens. -/
theorem jsonGetNrTokens_text (before after : List White) (v : Json) :
    jsonGetNrTokens (documentText before v after) = (valueToks before.length v).length := by
  rw [jsonGetNrTokens, jsmnParse_none_text]

/-- The tokens that are read, when they have been counted before. -/
theorem jsonReadTokens_text (junk : ℕ → JsmnTok) (before after : List White) (v : Json) :
    jsonReadTokens junk (documentText before v after)
      (jsonGetNrTokens (documentText before v after)) = valueToks before.length v := by
  rw [jsonReadTokens, jsonGetNrTokens_text, Int.toNat_natCast, jsmnParse_some_text _ _ _ le_rfl,
    List.drop_eq_nil_of_le (by simp), List.append_nil]

end LibSeal
