import LibSeal.Auditing.Event
import LibSeal.Data.Memory
import Mathlib.Algebra.Group.Nat.Defs

/-!
# Reading HTTP messages

`readHttpMessage` of `auditing/utils/http.cpp`: the lines of the head become parameters of the
event, and a body is read into a memory block of its own, by its length or chunk by chunk.

## Positions, lines and memory

The position in the input is a `size_t`, as in the source, and a line is what is between it and the
next newline or the end of the input. A `CFault` marks where the source throws, runs over the end of
an object or never returns. Allocations succeed; `junk` is what a new block happens to hold.

## The two loops

Both loops get a count of rounds that they cannot use up, because every round moves the position
on. The one round of the source that does not, an empty line before the first line of the message,
is repeated for ever there and ends in `CFault.diverged` here.
-/

namespace LibSeal

open Bytes

def httpHeaderContentLength : Bytes := ascii "Content-Length"
def httpHeaderContentType : Bytes := ascii "Content-Type"
def httpHeaderPayload : Bytes := ascii "Payload"
def httpHeaderRequest : Bytes := ascii "Request"
def httpHeaderResponse : Bytes := ascii "Response"
def httpHeaderTransferEncoding : Bytes := ascii "Transfer-Encoding"

/-! ### Numbers -/

/-- The round of `hexToInt` for the digits still to be read. A character that is no digit makes the
result `0xffffffff`. -/
def hexToIntFrom (result : ℕ) : ℕ → Bytes → Except CFault ℕ
  | 0, _ => .ok result
  | _ + 1, [] => .error .outOfBounds
  | n + 1, b :: bytes =>
    match hexValue b with
    | none => .ok 4294967295
    | some d => hexToIntFrom ((result + d * 16 ^ n) % 4294967296) n bytes

/-- `hexToInt` -/
def hexToInt (bytes : Bytes) (length : ℕ) : Except CFault ℕ := hexToIntFrom 0 length bytes

/-- `isHex` -/
def isHex (b : UInt8) : Bool := (hexValue b).isSome

/-- `isspace` -/
def isSpace (b : UInt8) : Bool := b = 32 || (9 ≤ b && b ≤ 13)

/-- `atoi`, as the C library computes it: the value of the digits, held within a `long` and
converted to an `int`. -/
def atoi (s : Bytes) : ℤ :=
  let s := (cStr s).dropWhile isSpace
  let negative := s.head? == some '-'.toUInt8
  let digits := if negative || s.head? == some '+'.toUInt8 then s.tail else s
  let n := decimalValue (digits.takeWhile fun b ↦ '0'.toUInt8 ≤ b && b ≤ '9'.toUInt8)
  toInt32 (if negative then -min n 9223372036854775808 else min n 9223372036854775807)

/-! ### The head -/

/-- `isEmptyline` -/
def isEmptyline (line : Bytes) : Bool :=
  line.isEmpty || (line.length ≤ 2 && (line.head? == some 13 || line.head? == some 10))

/-- `isHttpRequest` -/
def isHttpRequest (line : Bytes) : Bool :=
  startsWith line (ascii "POST") || startsWith line (ascii "GET") ||
    startsWith line (ascii "PUT") || startsWith line (ascii "DELETE") ||
    startsWith line (ascii "PATCH") || startsWith line (ascii "PROPFIND")

/-- `isHttpResponse` -/
def isHttpResponse (line : Bytes) : Bool := startsWith line (ascii "HTTP")

/-- `input.substr(pos, input.find('\n', pos) - pos)` -/
def lineAt (input : Bytes) (pos : ℕ) : Except CFault Bytes :=
  if input.length < pos then .error .outOfRange
  else .ok ((input.drop pos).takeWhile (· ≠ 10))

/-- The variables of `readHttpMessage` while it reads the head. -/
structure HeaderState where
  event : Event
  headerCount : ℕ
  contentLength : ℤ
  isChunked : Bool
  pos : ℕ

/-- No line has been read. -/
def HeaderState.init : HeaderState := ⟨.empty, 0, -1, false, 0⟩

/-- The name under which the first line of a message is stored. -/
def firstLineName (line : Bytes) : Except CFault Bytes :=
  if isHttpRequest line then .ok httpHeaderRequest
  else if isHttpResponse line then .ok httpHeaderResponse
  else .error .exited

/-- The first line of a message. -/
def readFirstLine (st : HeaderState) (line : Bytes) : Except CFault HeaderState := do
  let name ← firstLineName line
  return { st with
    event := st.event.add ⟨.http, name, .string line.dropLast⟩
    headerCount := st.headerCount + 1 }

/-- What a header line says about the body: the content length and whether it is chunked. -/
def readFraming (st : HeaderState) (line : Bytes) : Except CFault (ℤ × Bool) :=
  if startsWith line httpHeaderContentLength then do
    let value ← substr line (httpHeaderContentLength.length + 2) none
    return (atoi value, st.isChunked)
  else if startsWith line httpHeaderTransferEncoding then do
    let value ← substr line (httpHeaderTransferEncoding.length + 2) none
    return (st.contentLength, st.isChunked || startsWith value (ascii "chunked"))
  else .ok (st.contentLength, st.isChunked)

/-- `line.substr(colon+2, line.size()-colon-3)`, where the count may wrap around. -/
def headerValue (line : Bytes) (colon : ℕ) : Except CFault Bytes :=
  substr line (colon + 2)
    (if colon + 3 ≤ line.length then some (line.length - colon - 3) else none)

/-- A line after the first. -/
def readHeaderLine (st : HeaderState) (line : Bytes) : Except CFault HeaderState := do
  let (contentLength, isChunked) ← readFraming st line
  let st := { st with contentLength := contentLength, isChunked := isChunked }
  match line.idxOf? ':'.toUInt8 with
  | none => return st
  | some colon =>
    let value ← headerValue line colon
    return { st with
      event := st.event.add ⟨.http, line.take colon, .string value⟩
      headerCount := st.headerCount + 1 }

/-- The loop of `readHttpMessage`. -/
def readHeaders (input : Bytes) : ℕ → HeaderState → Except CFault HeaderState
  | 0, _ => .error .diverged
  | fuel + 1, st => do
    let line ← lineAt input st.pos
    if line.isEmpty then return st
    else if isEmptyline line then
      if st.headerCount = 0 then .error .diverged -- no packet yet; the same line is read again
      else return st
    else
      let st ← if st.headerCount = 0 then readFirstLine st line else readHeaderLine st line
      readHeaders input fuel { st with pos := st.pos + line.length + 1 }

/-! ### The body -/

/-- `readHttpChunkSize`: the size, and the position behind its digits. Eight of them have room. -/
def readHttpChunkSize (stream : Bytes) (pos : ℕ) : Except CFault (ℕ × ℕ) := do
  let digits := (stream.drop pos).takeWhile isHex
  if 8 < digits.length then .error .outOfBounds
  else if stream.length ≤ pos + digits.length then .error .outOfRange
  else
    let size ← hexToInt digits digits.length
    return (size, pos + digits.length)

/-- The loop of `readHttpChunkedMessage`. -/
def readHttpChunks (junk : ℕ → UInt8) (input : Bytes) :
    ℕ → ℕ → Option Bytes → ℤ → Except CFault (Option Bytes × ℤ)
  | 0, _, _, _ => .error .diverged
  | fuel + 1, pos, payload, length => do
    let (chunkSize, pos) ← readHttpChunkSize input pos
    if chunkSize = 0 then return (payload, length)
    else
      let pos := pos + 2 -- skip CRLF after chunksize field
      let block := Memory.realloc (some junk) payload ((length + chunkSize) % 4294967296).toNat
      let data := ((input ++ [0]).drop pos).take chunkSize
      if data.length < chunkSize ∨ length < 0 then .error .outOfBounds
      else
        let block ← Memory.memcpy (block.getD []) length.toNat data
        let pos := pos + chunkSize + 2 -- advance pointer and skip CRLF
        let length := toInt32 (length + chunkSize)
        if input.length ≤ pos then return (some block, length)
        else readHttpChunks junk input fuel pos (some block) length

/-- `readHttpChunkedMessage`: the payload and its length. -/
def readHttpChunkedMessage (junk : ℕ → UInt8) (input : Bytes) (pos : ℕ) :
    Except CFault (Option Bytes × ℤ) :=
  readHttpChunks junk input (input.length + 1) pos none 0

/-- A body of known length: the bytes are copied out of the input's `c_str`, the last of them is
overwritten, and the block is one byte longer than they are. That length is an `int`; for the
largest one it overflows, there is no block of that size, and the null pointer is written to. -/
def readHttpBody (junk : ℕ → UInt8) (input : Bytes) (pos contentLength : ℕ) :
    Except CFault Bytes := do
  let body ← substr input pos (some contentLength)
  if 2147483647 ≤ contentLength then .error .nullDereference
  else
    let block := (List.range (contentLength + 1)).map junk
    if body.length + 1 < contentLength then .error .outOfBounds
    else
      let block ← Memory.memcpy block 0 ((body ++ [0]).take contentLength)
      return block.set (contentLength - 1) 0

/-- The body that the head announces, and its length. -/
def readPayload (junk : ℕ → UInt8) (input : Bytes) (st : HeaderState) :
    Except CFault (Option Bytes × ℤ) :=
  let pos := st.pos + 2 -- skip empty line
  if st.isChunked then readHttpChunkedMessage junk input pos
  else if 0 < st.contentLength then do
    let payload ← readHttpBody junk input pos st.contentLength.toNat
    return (some payload, st.contentLength)
  else .ok (none, st.contentLength)

/-- `readHttpMessage` -/
def readHttpMessage (junk : ℕ → UInt8) (input : Bytes) : Except CFault (Event × Bool) := do
  let st ← readHeaders input (input.length + 1) .init
  let (payload, contentLength) ← readPayload junk input st
  let e :=
    if 0 < st.event.paramCnt ∧ 0 < contentLength then
      let e := st.event.add ⟨.http, httpHeaderContentLength, .int contentLength⟩
      match payload with
      | none => e
      | some block => e.add ⟨.http, httpHeaderPayload, .bytes block contentLength⟩
    else st.event
  return (e, decide (1 < e.paramCnt))

/-- `httpToEvent`, whose `int msg_len` is the message's length. -/
def httpToEvent (junk : ℕ → UInt8) (msg : Bytes) : Except CFault Event := do
  let input ← stringOfLength msg (toInt32 msg.length)
  let (e, _) ← readHttpMessage junk input
  return e

/-- `getHttpPayload`: the payload of an event, if it is longer than four bytes. -/
def getHttpPayload (ev : Event) : Except CFault (Option Bytes) :=
  match ev.getParam .http httpHeaderPayload with
  | none => .ok none
  | some payload => do
    let length ← payload.getValueBytesLength
    return if 0 ≤ length ∧ length ≤ 4 then none else payload.getValueBytes

end LibSeal
