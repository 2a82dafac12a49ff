import LibSeal.Auditing.Jsmn

/-!
# Synchronisation messages

`docsPoll` of `auditing/auditors/owncloud/docs.cpp` takes the operations on a document out of an
exchange. The payloads are JSON, and what is read of them is their tokens, one array for each.
Fields are expected at fixed places, and the two searches, for a key and for an object that begins
with the key `optype`, go on until they find something: no index is compared with the number of the
tokens. An access behind the last token is the fault `outOfBounds`.

A token that `jsmn` has not filled in is whatever the memory held. Positions are integers, since
`pairs` of such a token may be negative. What a token says is read inside the payload.
-/

namespace LibSeal

open Bytes

/-! ### Names -/

def owncloudAddAnnotation : Bytes := ascii "AddAnnotation"
def owncloudAdded : Bytes := ascii "added"
def owncloudArgs : Bytes := ascii "args"
def owncloudClientOps : Bytes := ascii "client_ops"
def owncloudCommand : Bytes := ascii "command"
def owncloudConflict : Bytes := ascii "conflict"
def owncloudEsid : Bytes := ascii "es_id"
def owncloudInsertText : Bytes := ascii "InsertText"
def owncloudLength : Bytes := ascii "length"
def owncloudMemberid : Bytes := ascii "memberid"
def owncloudMemberId : Bytes := ascii "member_id"
def owncloudNewops : Bytes := ascii "new_ops"
def owncloudOptype : Bytes := ascii "optype"
def owncloudOps : Bytes := ascii "ops"
def owncloudRemoveAnnotation : Bytes := ascii "RemoveAnnotation"
def owncloudRemoveText : Bytes := ascii "RemoveText"
def owncloudResult : Bytes := ascii "result"
def owncloudSplitParagraph : Bytes := ascii "SplitParagraph"
def owncloudSyncops : Bytes := ascii "sync_ops"
def owncloudUpdate : Bytes := ascii "update"

/-- The paragraph sign, in UTF-8. -/
def pilcrow : Bytes := [0xC2, 0xB6]

/-! ### Tokens -/

/-- `tokens[pos]` -/
def tokenAt (tokens : List JsmnTok) (pos : ℤ) : Except CFault JsmnTok :=
  if pos < 0 then .error .outOfBounds
  else
    match tokens[pos.toNat]? with
    | some tok => .ok tok
    | none => .error .outOfBounds

/-- `jsonGetString(&tokens[pos], payload)` -/
def stringTokenAt (tokens : List JsmnTok) (pos : ℤ) (payload : Bytes) : Except CFault Bytes :=
  (tokenAt tokens pos).map fun tok ↦ jsonGetString tok payload

/-- `jsonGetInt(&tokens[pos], payload)` -/
def intTokenAt (tokens : List JsmnTok) (pos : ℤ) (payload : Bytes) : Except CFault ℤ :=
  (tokenAt tokens pos).map fun tok ↦ jsonGetInt tok payload

/-- The loop of `skipToNextOptypeObject`: the number of the tokens that are skipped. -/
def optypeObjectIn (payload optype : Bytes) : List JsmnTok → Except CFault ℕ
  | [] => .error .outOfBounds
  | tok :: tokens =>
    if tok.type ≠ .object then (optypeObjectIn payload optype tokens).map (· + 1)
    else
      match tokens.head? with
      | none => .error .outOfBounds
      | some key =>
        if key.type ≠ .string ∨ jsonGetString key payload ≠ optype then
          (optypeObjectIn payload optype tokens).map (· + 1)
        else .ok 0

/-- `skipToNextOptypeObject` -/
def skipToNextOptypeObject (tokens : List JsmnTok) (pos : ℤ) (payload optype : Bytes) :
    Except CFault ℤ :=
  if pos < 0 then .error .outOfBounds
  else (optypeObjectIn payload optype (tokens.drop pos.toNat)).map (pos + ·)

/-- The loops `while (jsonGetString(&tokens[pos++], payload) != key)`: the number of the tokens
that are read. -/
def keyIn (payload key : Bytes) : List JsmnTok → Except CFault ℕ
  | [] => .error .outOfBounds
  | tok :: tokens =>
    if jsonGetString tok payload ≠ key then (keyIn payload key tokens).map (· + 1) else .ok 1

/-! ### Operations -/

/-- The command for one operation, without the brackets around it, and nothing for an operation that
is not supported; `pos` is that of the first key. -/
def commandAt (tokens : List JsmnTok) (pos : ℤ) (payload : Bytes) : Except CFault Bytes := do
  let optype ← stringTokenAt tokens (pos + 1) payload
  let position ← intTokenAt tokens (pos + 7) payload
  if optype = owncloudInsertText then do
    let text ← stringTokenAt tokens (pos + 9) payload
    return ascii "i," ++ toStr position ++ ascii "," ++ text
  else if optype = owncloudRemoveText then do
    let length ← intTokenAt tokens (pos + 9) payload
    return ascii "r," ++ toStr position ++ ascii "," ++ toStr length
  else if optype = owncloudSplitParagraph then
    return ascii "i," ++ toStr position ++ ascii "," ++ pilcrow
  else if optype = owncloudAddAnnotation then do
    let key ← stringTokenAt tokens (pos + 8) payload
    let name ← stringTokenAt tokens (pos + if key = owncloudLength then 11 else 9) payload
    return ascii "aa," ++ toStr position ++ ascii "," ++ name
  else if optype = owncloudRemoveAnnotation then
    return ascii "ar," ++ toStr position
  else
    return []

/-- A command between brackets. -/
def inBrackets (command : Bytes) : Bytes :=
  if command = [] then [] else ascii "(" ++ command ++ ascii ")"

/-- `updateDoc_1`, for the operation at `pos`: the text for it and the position behind. -/
def updateDoc_1 (tokens : List JsmnTok) (pos : ℤ) (payload : Bytes) :
    Except CFault (Bytes × ℤ) := do
  let object ← tokenAt tokens pos
  let command ← commandAt tokens (pos + 1) payload
  return (inBrackets command, pos + 1 + object.size * 2)

/-- The rounds of the loop in `updateDoc`: the text that is added, and the position behind. -/
def updateDocRounds (tokens : List JsmnTok) (payload : Bytes) : ℕ → ℤ → Except CFault (Bytes × ℤ)
  | 0, pos => .ok ([], pos)
  | n + 1, pos => do
    let pos ← skipToNextOptypeObject tokens pos payload owncloudOptype
    let (result, pos) ← updateDoc_1 tokens pos payload
    let (results, pos) ← updateDocRounds tokens payload n pos
    return (result ++ results, pos)

/-- `updateDoc`, for the array at `pos`. -/
def updateDoc (tokens : List JsmnTok) (pos : ℤ) (payload : Bytes) : Except CFault (Bytes × ℤ) := do
  let array ← tokenAt tokens pos
  updateDocRounds tokens payload array.size.toNat pos

/-! ### Polls -/

/-- `owncloudReadField` -/
def owncloudReadField (event : Event) (field : Bytes) (tokens : List JsmnTok) (pos : ℤ)
    (payload : Bytes) : Except CFault (Event × Bytes) := do
  let name ← stringTokenAt tokens pos payload
  if name ≠ field then return (event, [])
  else do
    let result ← stringTokenAt tokens (pos + 1) payload
    return (event.add ⟨.owncloud, field, .string result⟩, result)

/-- The arguments of a request: its session and its member, if it has them, and the position behind
what has been read. -/
def readArgs (request : Event) (reqTokens : List JsmnTok) (reqPayload : Bytes) :
    Except CFault (Event × ℤ) := do
  let args ← stringTokenAt reqTokens 3 reqPayload
  if args ≠ owncloudArgs then return (request, 4)
  else do
    let value ← tokenAt reqTokens 4
    if value.type ≠ .object then return (request, 5)
    else do
      let (request, esid) ← owncloudReadField request owncloudEsid reqTokens 5 reqPayload
      let request := request.add ⟨.owncloud, owncloudEsid, .string esid⟩
      let (request, memberid) ← owncloudReadField request owncloudMemberId reqTokens 7 reqPayload
      return (request.add ⟨.owncloud, owncloudMemberid, .string memberid⟩, 9)

/-- The search for a key and the update in the value behind it. -/
def updateBehind (key : Bytes) (event : Event) (tokens : List JsmnTok) (pos : ℤ)
    (payload : Bytes) : Except CFault Event := do
  let n ← keyIn payload key (tokens.drop pos.toNat)
  let (update, _) ← updateDoc tokens (pos + n) payload
  return event.add ⟨.owncloud, owncloudUpdate, .string update⟩

/-- `docsPoll` behind the reading of the tokens. -/
def pollTokens (request response : Event) (reqTokens rspTokens : List JsmnTok)
    (reqPayload rspPayload : Bytes) : Except CFault (Event × Event) :=
  if reqTokens.head?.map JsmnTok.type ≠ some .object ∨
      rspTokens.head?.map JsmnTok.type ≠ some .object then .ok (request, response)
  else do
    let (request, command) ← owncloudReadField request owncloudCommand reqTokens 1 reqPayload
    let request := request.add ⟨.owncloud, owncloudCommand, .string command⟩
    let (response, result) ← owncloudReadField response owncloudResult rspTokens 1 rspPayload
    let response := response.add ⟨.owncloud, owncloudResult, .string result⟩
    if command ≠ owncloudSyncops then return (request, response)
    else do
      let (request, pos) ← readArgs request reqTokens reqPayload
      if result = owncloudAdded then do
        let request ← updateBehind owncloudClientOps request reqTokens pos reqPayload
        return (request, response)
      else if result = owncloudNewops ∨ result = owncloudConflict then do
        let response ← updateBehind owncloudOps response rspTokens 3 rspPayload
        return (request, response)
      else return (request, response)

/-- The tokens of a payload. For a text that `jsmn` rejects the array would have a negative
length. -/
def payloadTokens (junk : ℕ → JsmnTok) (payload : Bytes) (length : ℤ) :
    Except CFault (List JsmnTok) :=
  let json := if length < 0 then payload else payload.take length.toNat
  let nrOfTokens := jsonGetNrTokens json
  if nrOfTokens < 0 then .error .outOfBounds else .ok (jsonReadTokens junk json nrOfTokens)

/-- `getHttpPayload`, with the length that it stores. -/
def getHttpPayloadLength (ev : Event) : Except CFault (Option (Bytes × ℤ)) :=
  match ev.getParam .http httpHeaderPayload with
  | none => .ok none
  | some param => do
    let payload ← getHttpPayload ev
    let length ← param.getValueBytesLength
    return payload.map fun block ↦ (block, length)

/-- `docsPoll` -/
def docsPoll (reqJunk rspJunk : ℕ → JsmnTok) (request response : Event) :
    Except CFault (Event × Event) := do
  match ← getHttpPayloadLength request with
  | none => return (request, response)
  | some (reqPayload, reqLength) =>
    match ← getHttpPayloadLength response with
    | none => return (request, response)
    | some (rspPayload, rspLength) => do
      let reqTokens ← payloadTokens reqJunk reqPayload reqLength
      let rspTokens ← payloadTokens rspJunk rspPayload rspLength
      pollTokens request response reqTokens rspTokens reqPayload rspPayload

end LibSeal
