import LibSeal.Auditing.Http
import LibSeal.Auditing.Tuple
import LibSeal.Data.Loop

/-!
# Tokenising JSON

`jsmn` and its wrappers in `utils/json_helper.cpp`. The tokeniser runs over the bytes once. It keeps
the tokens in the order in which they begin, and remembers in each object or array how many values
it has, in each key how many follow it; where it is in the nesting it finds out from the tokens that
have no end yet.

It is used twice: with no room for tokens (`room = none`, a null pointer) it only counts them, and
with the room that was counted it fills them in. `jsonReadTokens` does not look at the result, so an
array whose tokens have not all been filled in is read like any other.

The bytes still to be read are the state of the loop instead of the position in them, which is kept
beside them. The build sets neither `JSMN_STRICT` nor `JSMN_PARENT_LINKS`.
-/

namespace LibSeal

open Bytes

/-! ### Tokens -/

/-- `jsmntype_t` -/
inductive JsmnType where
  | undefined
  | object
  | array
  | string
  | primitive
  deriving DecidableEq

/-- `jsmntok_t` -/
structure JsmnTok where
  type : JsmnType
  start : ℤ
  stop : ℤ
  size : ℤ
  deriving DecidableEq

/-- `jsmnerr` -/
inductive JsmnError where
  | nomem
  | inval
  | part
  deriving DecidableEq

def JsmnError.code : JsmnError → ℤ
  | nomem => -1
  | inval => -2
  | part => -3

/-- `jsmn_parser`, the tokens that it has filled, of which there are `toknext`, and the variable
`count`. -/
structure JsmnParser where
  pos : ℕ
  tokens : List JsmnTok
  toksuper : Option ℕ
  count : ℤ
  deriving DecidableEq

/-- `jsmn_init` -/
def JsmnParser.init : JsmnParser := ⟨0, [], none, 0⟩

/-- A token that has begun and not ended. -/
def JsmnTok.isOpen (tok : JsmnTok) : Bool := tok.start ≠ -1 && tok.stop = -1

/-- An object or array. -/
def JsmnTok.isContainer (tok : JsmnTok) : Bool := tok.type = .object || tok.type = .array

/-- The loops `for (i = parser->toknext - 1; i >= 0; i--)`: the last token with a property. -/
def lastToken (p : JsmnTok → Bool) : List JsmnTok → Option ℕ
  | [] => none
  | tok :: tokens =>
    match lastToken p tokens with
    | some i => some (i + 1)
    | none => if p tok then some 0 else none

/-- `if (parser->toksuper != -1) tokens[parser->toksuper].size++` -/
def sizeUp (toksuper : Option ℕ) (tokens : List JsmnTok) : List JsmnTok :=
  match toksuper with
  | none => tokens
  | some i => tokens.modify i fun tok ↦ { tok with size := tok.size + 1 }

/-- `jsmn_alloc_token` and what the cases that use it have in common: the token is filled in, and
counted in the one above. Without an array of tokens it is only counted. -/
def JsmnParser.addToken (room : Option ℕ) (parser : JsmnParser) (tok : JsmnTok) :
    Except JsmnError JsmnParser :=
  match room with
  | none => .ok { parser with count := parser.count + 1 }
  | some numTokens =>
    if numTokens ≤ parser.tokens.length then .error .nomem
    else .ok { parser with
      tokens := sizeUp parser.toksuper (parser.tokens ++ [tok]), count := parser.count + 1 }

/-! ### Primitives and strings -/

/-- The bytes at which `jsmn_parse_primitive` stops. -/
def endsPrimitive (b : UInt8) : Bool :=
  b == ':'.toUInt8 || b == 9 || b == 13 || b == 10 || b == 32 || b == ','.toUInt8 ||
    b == ']'.toUInt8 || b == '\x7d'.toUInt8

/-- The loop of `jsmn_parse_primitive`: the number of bytes up to the end of the primitive. As a
`char`, a byte from 128 on is less than 32. -/
def primitiveLength : Bytes → Except JsmnError ℕ
  | [] => .ok 0
  | b :: js =>
    if b = 0 ∨ endsPrimitive b then .ok 0
    else if b < 32 ∨ 127 ≤ b then .error .inval
    else (primitiveLength js).map (· + 1)

/-- What the loop of `jsmn_parse_string` expects: a character, the one behind a backslash, or the
digits behind `\u`, of which so many have to follow the next. -/
inductive StringMode where
  | plain
  | escaped
  | digits (more : ℕ)

/-- The loop of `jsmn_parse_string`, behind the quote: the number of bytes up to the next quote. -/
def stringLength : StringMode → Bytes → Except JsmnError ℕ
  | _, [] => .error .part
  | .plain, b :: js =>
    if b = 0 then .error .part
    else if b = '"'.toUInt8 then .ok 0
    else if b = '\\'.toUInt8 then (stringLength .escaped js).map (· + 1)
    else (stringLength .plain js).map (· + 1)
  | .escaped, b :: js =>
    if b ∈ ascii "\"/\\bfrnt" then (stringLength .plain js).map (· + 1)
    else if b = 'u'.toUInt8 then (stringLength (.digits 3) js).map (· + 1)
    else .error .inval
  | .digits more, b :: js =>
    if b = 0 then .error .part
    else if isHex b then
      match more with
      | 0 => (stringLength .plain js).map (· + 1)
      | more + 1 => (stringLength (.digits more) js).map (· + 1)
    else .error .inval

/-! ### The loop -/

/-- An opening bracket begins a token, in which what follows is counted. -/
def JsmnParser.begin (room : Option ℕ) (parser : JsmnParser) (type : JsmnType) :
    Except JsmnError JsmnParser := do
  let parser' ← parser.addToken room ⟨type, parser.pos, -1, 0⟩
  return if room.isSome then { parser' with toksuper := some parser.tokens.length } else parser'

/-- A closing bracket ends the last token that is open, which has to be of its type, and the one
before it that is open is the next to be counted in. -/
def JsmnParser.close (room : Option ℕ) (parser : JsmnParser) (type : JsmnType) :
    Except JsmnError JsmnParser :=
  match room with
  | none => .ok parser
  | some _ =>
    match lastToken JsmnTok.isOpen parser.tokens with
    | none => .error .inval
    | some i =>
      if (parser.tokens[i]?.map JsmnTok.type) ≠ some type then .error .inval
      else
        let tokens := parser.tokens.modify i fun tok ↦ { tok with stop := parser.pos + 1 }
        .ok { parser with tokens, toksuper := lastToken JsmnTok.isOpen tokens }

/-- Behind a colon, what follows is counted in the last token, the key. -/
def JsmnParser.colon (parser : JsmnParser) : JsmnParser :=
  { parser with toksuper := if parser.tokens = [] then none else some (parser.tokens.length - 1) }

/-- Behind a comma, what follows is counted in the object or array, not in the key. -/
def JsmnParser.comma (room : Option ℕ) (parser : JsmnParser) : JsmnParser :=
  match room, parser.toksuper with
  | some _, some i =>
    if (parser.tokens[i]?.map JsmnTok.isContainer) = some false then
      match lastToken (fun tok ↦ tok.isContainer && tok.isOpen) parser.tokens with
      | some j => { parser with toksuper := some j }
      | none => parser
    else parser
  | _, _ => parser

/-- The `switch` in the loop of `jsmn_parse`, for the byte `c` in front of `js`: the parser behind
it, and the number of bytes of `js` that have been read. -/
def jsmnSwitch (room : Option ℕ) (c : UInt8) (js : Bytes) (parser : JsmnParser) :
    Except JsmnError (JsmnParser × ℕ) :=
  let pos : ℤ := parser.pos
  if c = '\x7b'.toUInt8 ∨ c = '['.toUInt8 then do
    let parser' ← parser.begin room (if c = '\x7b'.toUInt8 then JsmnType.object else .array)
    return (parser', 0)
  else if c = '\x7d'.toUInt8 ∨ c = ']'.toUInt8 then do
    let parser' ← parser.close room (if c = '\x7d'.toUInt8 then JsmnType.object else .array)
    return (parser', 0)
  else if c = '"'.toUInt8 then do
    let length ← stringLength .plain js
    let parser' ← parser.addToken room ⟨.string, pos + 1, pos + 1 + length, 0⟩
    return (parser', length + 1)
  else if c = 9 ∨ c = 13 ∨ c = 10 ∨ c = 32 then .ok (parser, 0)
  else if c = ':'.toUInt8 then .ok (parser.colon, 0)
  else if c = ','.toUInt8 then .ok (parser.comma room, 0)
  else do
    let length ← primitiveLength (c :: js)
    let parser' ← parser.addToken room ⟨.primitive, pos, pos + length, 0⟩
    return (parser', length - 1)

/-- A round of the loop of `jsmn_parse`. -/
def jsmnRound (room : Option ℕ) (s : Bytes × JsmnParser) :
    Except (JsmnError × JsmnParser) ((Bytes × JsmnParser) ⊕ JsmnParser) :=
  match s with
  | ([], parser) => .ok (.inr parser)
  | (c :: js, parser) =>
    if c = 0 then .ok (.inr parser)
    else
      match jsmnSwitch room c js parser with
      | .error e => .error (e, parser)
      | .ok (parser', n) => .ok (.inl (js.drop n, { parser' with pos := parser.pos + 1 + n }))

/-- `jsmn_parse`: what it returns, and the tokens that it has filled. -/
def jsmnParse (room : Option ℕ) (js : Bytes) : ℤ × List JsmnTok :=
  match Loop.run (jsmnRound room) (js.length + 1) (js, .init) with
  | none => (0, [])
  | some (.error (e, parser)) => (e.code, parser.tokens)
  | some (.ok parser) =>
    if parser.tokens.any JsmnTok.isOpen then (JsmnError.part.code, parser.tokens)
    else (parser.count, parser.tokens)

/-- The loop ends: every round reads a byte. -/
theorem isSome_run_jsmnRound (room : Option ℕ) (js : Bytes) :
    (Loop.run (jsmnRound room) (js.length + 1) (js, .init)).isSome = true := by
  refine Loop.isSome_run_of_measure (I := fun _ ↦ True) (fun s ↦ s.1.length) ?_ trivial
    (Nat.lt_succ_self _)
  rintro ⟨js, parser⟩ s' - h
  rcases js with - | ⟨c, js⟩
  · cases h
  · rw [jsmnRound] at h
    split_ifs at h with hc
    · cases h
    · rcases hswitch : jsmnSwitch room c js parser with e | ⟨parser', n⟩
      · rw [hswitch] at h
        cases h
      · rw [hswitch] at h
        cases h
        refine ⟨trivial, ?_⟩
        simp only [List.length_drop, List.length_cons]
        omega

/-! ### `json_helper` -/

/-- `jsonGetNrTokens` -/
def jsonGetNrTokens (json : Bytes) : ℤ := (jsmnParse none json).1

/-- `jsonReadTokens` into an array of `nrOfTokens` tokens, which are what `junk` says as long as
they have not been filled in. -/
def jsonReadTokens (junk : ℕ → JsmnTok) (json : Bytes) (nrOfTokens : ℤ) : List JsmnTok :=
  let tokens := (jsmnParse (some nrOfTokens.toNat) json).2
  tokens ++ ((List.range nrOfTokens.toNat).map junk).drop tokens.length

/-- The string from the start of a token on. -/
def JsmnTok.memory (token : JsmnTok) (start : Bytes) : Bytes := start.drop token.start.toNat

/-- `atoll`: like `atoi`, and not converted. -/
def atoll (s : Bytes) : ℤ :=
  let s := (cStr s).dropWhile isSpace
  let negative := s.head? == some '-'.toUInt8
  let digits := if negative || s.head? == some '+'.toUInt8 then s.tail else s
  let n := decimalValue (digits.takeWhile fun b ↦ '0'.toUInt8 ≤ b && b ≤ '9'.toUInt8)
  if negative then -min n 9223372036854775808 else min n 9223372036854775807

theorem atoi_eq_toInt32_atoll (s : Bytes) : atoi s = toInt32 (atoll s) := rfl

/-- `jsonGetInt` -/
def jsonGetInt (token : JsmnTok) (start : Bytes) : ℤ :=
  if token.type = .primitive then atoi (token.memory start) else -1

/-- `jsonGetLongLong` -/
def jsonGetLongLong (token : JsmnTok) (start : Bytes) : ℤ :=
  if token.type = .primitive then atoll (token.memory start) else -1

/-- `jsonGetString`. The number is written by `to_str`, which takes an `int`. -/
def jsonGetString (token : JsmnTok) (start : Bytes) : Bytes :=
  if token.type = .string then (token.memory start).take (token.stop - token.start).toNat
  else if token.type = .primitive then toStr (toInt32 (jsonGetLongLong token start))
  else []

end LibSeal
