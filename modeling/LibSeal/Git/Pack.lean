import LibSeal.Auditing.Http

/-!
# The payloads of the Git protocol

The parsers of `auditors/git`: references advertised by a server (`advertise_pack.cpp`), the
commands of a push and the status report that answers them (`receive_pack.cpp`). All three are
sequences of packets that begin with their length in four hexadecimal digits, and `0000` ends a
sequence. The parsers walk over them with a pointer into the payload.

What they collect is kept in maps and then written out again as text, into parameters of the events,
from where `eventPair2DslForDB` reads it back. The `for` loops over a map go through it in the order
of its keys. The pointers behind a sequence, which the callers ignore, are not returned.

A length that is not in hexadecimal digits reads as `0xffffffff`. Added to a pointer it leads out of
the block; converted to an `int` first, it is -1 and ends a loop or leads back by one.
-/

namespace LibSeal

open Bytes

def gitZeroId : Bytes := ascii "0000000000000000000000000000000000000000"
def gitNoRefLine : Bytes := gitZeroId ++ ascii " capabilities^{}"

def gitCommands : Bytes := ascii "Cmds"
def gitRefs : Bytes := ascii "Refs"
def gitRepository : Bytes := ascii "Repo"
def gitService : Bytes := ascii "Service"
def gitServiceAdvertisePack : Bytes := ascii "advertise-pack"
def gitServiceReceivePack : Bytes := ascii "receive-pack"
def gitUnpackStatus : Bytes := ascii "UnpackStatus"
def gitWhat : Bytes := ascii "What"
def gitWhatAdvreq : Bytes := ascii "AdvReq"
def gitWhatAdvrsp : Bytes := ascii "AdvRsp"
def gitWhatRcvreq : Bytes := ascii "RcvReq"
def gitWhatRcvrsp : Bytes := ascii "RcvRsp"

/-- `gitReadLengthField` -/
def gitReadLengthField (ptr : CPtr) : Except CFault ℕ := hexToInt ptr.memory 4

/-- `int length = gitReadLengthField(ptr)` -/
def intLengthField (ptr : CPtr) : Except CFault ℤ :=
  (gitReadLengthField ptr).map fun length ↦ toInt32 length

/-- `gitIsOk` -/
def gitIsOk (ptr : CPtr) : Except CFault Bool := do
  let o ← ptr.read
  if o ≠ 'o'.toUInt8 then return false
  else
    let k ← (ptr.add 1).read
    return k = 'k'.toUInt8

/-- The loop of `initOtherRefs` and of `initOtherCommands`: as long as a packet follows, its data,
which is the packet without `trim` of its bytes, is added to the map. Every round moves the pointer
on, so the block bounds their number. -/
def walkPackets (trim : ℤ)
    (add : OrderedMap Bytes Bytes → Bytes → Except CFault (OrderedMap Bytes Bytes)) :
    ℕ → CPtr → OrderedMap Bytes Bytes → Except CFault (OrderedMap Bytes Bytes)
  | 0, _, _ => .error .diverged
  | fuel + 1, ptr, m => do
    let length ← intLengthField ptr
    if 0 < length then
      let data ← stringOfLength (ptr.add 4).memory (length - trim)
      let m ← add m data
      walkPackets trim add fuel (ptr.add length) m
    else return m

/-! ### Advertised references -/

/-- `addRef` -/
def addRef (refs : OrderedMap Bytes Bytes) (ref : Bytes) :
    Except CFault (OrderedMap Bytes Bytes) := do
  let name ← substr ref 41 none
  let id ← substr ref 0 (some 40)
  return refs.insert name id

/-- `initOtherRefs` -/
def initOtherRefs (ptr : CPtr) (refs : OrderedMap Bytes Bytes) :
    Except CFault (OrderedMap Bytes Bytes) :=
  walkPackets 5 addRef (ptr.block.length + 1) ptr refs

/-- The first reference, unless the line says that there is none. -/
def addFirstRef (refs : OrderedMap Bytes Bytes) (ref : Bytes) :
    Except CFault (OrderedMap Bytes Bytes) :=
  if ref ≠ gitNoRefLine then addRef refs ref else .ok refs

/-- `initFirstRef` -/
def initFirstRef (ptr : CPtr) (refs : OrderedMap Bytes Bytes) :
    Except CFault (CPtr × OrderedMap Bytes Bytes) := do
  let length ← intLengthField ptr
  if length ≠ 0 then
    let ref ← stringAt (ptr.add 4).memory
    let refs ← addFirstRef refs ref
    return (ptr.add length, refs)
  else return (ptr.add length, refs)

/-- `initRefs` -/
def initRefs (ptr : CPtr) (refs : OrderedMap Bytes Bytes) :
    Except CFault (OrderedMap Bytes Bytes) := do
  let (ptr, refs) ← initFirstRef ptr refs
  initOtherRefs ptr refs

/-- `parseGitPackAdvertisement` -/
def parseGitPackAdvertisement (result : Event) : Except CFault (OrderedMap Bytes Bytes) := do
  match ← getHttpPayload result with
  | none => return .empty
  | some block =>
    let ptr : CPtr := ⟨block, 0⟩
    let ptr := ptr.add (← gitReadLengthField ptr) -- skip service description
    initRefs (ptr.add 4) .empty

/-- The text of the references, in `addEventParams` of `advertise_pack.cpp`. -/
def refStr (refs : OrderedMap Bytes Bytes) : Bytes :=
  refs.toList.flatMap fun it ↦ it.1 ++ ascii " " ++ it.2 ++ ascii ","

/-- `addEventParams` of `advertise_pack.cpp` -/
def addAdvertisementParams (request result : Event) (repository : Bytes)
    (refs : OrderedMap Bytes Bytes) : Event × Event :=
  let request := request.add ⟨.git, gitWhat, .string gitWhatAdvreq⟩
  let request := request.add ⟨.git, gitService, .string gitServiceAdvertisePack⟩
  let request := request.add ⟨.git, gitRepository, .string repository⟩
  let result := result.add ⟨.git, gitWhat, .string gitWhatAdvrsp⟩
  let result := result.add ⟨.git, gitRefs, .string (refStr refs)⟩
  (request, result)

/-! ### Commands of a push -/

/-- `addCommand` -/
def addCommand (commands : OrderedMap Bytes Bytes) (cmd : Bytes) :
    Except CFault (OrderedMap Bytes Bytes) := do
  let name ← substr cmd 82 none
  let ids ← substr cmd 0 (some 81)
  return commands.insert name ids

/-- `initFirstCommand` -/
def initFirstCommand (ptr : CPtr) (commands : OrderedMap Bytes Bytes) :
    Except CFault (CPtr × OrderedMap Bytes Bytes) := do
  let length ← intLengthField ptr
  if 0 < length then
    let cmd ← stringAt (ptr.add 4).memory
    let commands ← addCommand commands cmd
    return (ptr.add length, commands)
  else return (ptr, commands)

/-- `initOtherCommands` -/
def initOtherCommands (ptr : CPtr) (commands : OrderedMap Bytes Bytes) :
    Except CFault (OrderedMap Bytes Bytes) :=
  walkPackets 4 addCommand (ptr.block.length + 1) ptr commands

/-- `initCommands` -/
def initCommands (ptr : CPtr) (commands : OrderedMap Bytes Bytes) :
    Except CFault (OrderedMap Bytes Bytes) := do
  let (ptr, commands) ← initFirstCommand ptr commands
  initOtherCommands ptr commands

/-- `parseGitReceivePackRequest` -/
def parseGitReceivePackRequest (request : Event) : Except CFault (OrderedMap Bytes Bytes) := do
  match ← getHttpPayload request with
  | none => return .empty
  | some block => initCommands ⟨block, 0⟩ .empty

/-! ### The status report -/

/-- The reference name in a line of the report, from the memory behind `ok ` or `ng `. A name in an
`ng` line ends at the space before the reason. -/
def reportedName (status : Bool) (text : Bytes) (length : ℤ) : Except CFault Bytes := do
  let line ← stringAt text
  let rest ← substr line 0 (if length < 8 then none else some (length - 8).toNat)
  if status then return rest
  else substr rest 0 (rest.idxOf? ' '.toUInt8)

/-- The loop of `initResults`. -/
def initResultsLoop : ℕ → CPtr → OrderedMap Bytes Bool → Except CFault (OrderedMap Bytes Bool)
  | 0, _, _ => .error .diverged
  | fuel + 1, ptr, results => do
    let length ← intLengthField ptr
    if 0 < length then
      let status ← gitIsOk (ptr.add 4)
      let refname ← reportedName status (ptr.add 7).memory length
      initResultsLoop fuel (ptr.add length) (results.insert refname status)
    else return results

/-- `initResults` -/
def initResults (ptr : CPtr) (results : OrderedMap Bytes Bool) :
    Except CFault (OrderedMap Bytes Bool) :=
  initResultsLoop (ptr.block.length + 1) ptr results

/-- The loop of `parseGitReceivePackResult` that skips the packets of other side bands. A packet of
length zero is skipped for ever. -/
def skipInformation : ℕ → CPtr → Except CFault CPtr
  | 0, _ => .error .diverged
  | fuel + 1, ptr => do
    let band ← (ptr.add 4).read
    if band ≠ 1 then
      let length ← gitReadLengthField ptr
      skipInformation fuel (ptr.add length)
    else return ptr

/-- `parseGitReceivePackResult`: the status of the unpacking, and the results. -/
def parseGitReceivePackResult (result : Event) :
    Except CFault (Bool × OrderedMap Bytes Bool) := do
  match result.getParam .http httpHeaderPayload with
  | none => return (false, .empty)
  | some payload =>
    let bytesLength ← payload.getValueBytesLength
    if 0 ≤ bytesLength ∧ bytesLength ≤ 4 then return (false, .empty)
    else
      match payload.getValueBytes with
      | none => .error .nullDereference
      | some block =>
        let ptr ← skipInformation (block.length + 1) ⟨block, 0⟩
        let ptr := ptr.add 5
        let unpackStatus ← gitIsOk (ptr.add 11)
        let ptr := ptr.add (← gitReadLengthField ptr)
        let results ← initResults ptr .empty
        return (unpackStatus, results)

/-- The text of the commands, in `addEventParams` of `receive_pack.cpp`. A reference that the report
does not name gets the default, `ng`. -/
def strCommands (commands : OrderedMap Bytes Bytes) (results : OrderedMap Bytes Bool) : Bytes :=
  commands.toList.flatMap fun it ↦ it.1 ++ ascii " " ++ it.2 ++ ascii " " ++
    (if (results.get? it.1).getD false then ascii "ok" else ascii "ng") ++ ascii ","

/-- `addEventParams` of `receive_pack.cpp`. The unpack status is passed as a `const char *`, for
which the constructor that takes a `bool` is chosen. -/
def addReceivePackParams (request result : Event) (repository : Bytes)
    (commands : OrderedMap Bytes Bytes) (results : OrderedMap Bytes Bool) : Event × Event :=
  let request := request.add ⟨.git, gitWhat, .string gitWhatRcvreq⟩
  let request := request.add ⟨.git, gitService, .string gitServiceReceivePack⟩
  let request := request.add ⟨.git, gitRepository, .string repository⟩
  let request := request.add ⟨.git, gitCommands, .string (strCommands commands results)⟩
  let result := result.add ⟨.git, gitWhat, .string gitWhatRcvrsp⟩
  let result := result.add ⟨.git, gitUnpackStatus, .bool true⟩
  (request, result)

/-! ### Classifying events -/

/-- `getParam(HTTP, HTTP_HEADER_REQUEST)->getValueString()` -/
def requestLine (event : Event) : Except CFault Bytes :=
  match event.getParam .http httpHeaderRequest with
  | none => .error .nullDereference
  | some p => .ok p.getValueString

/-- A request for `service` without a body. -/
def gitIsService (service : Bytes) (event : Event) : Except CFault Bool :=
  if event.getParam .http httpHeaderContentType = none ∧
      event.getParam .http httpHeaderPayload = none then do
    let line ← requestLine event
    return contains line service
  else .ok false

/-- `gitIsReceivePack` -/
def gitIsReceivePack : Event → Except CFault Bool := gitIsService (ascii "service=git-receive-pack")

/-- `gitIsUploadPack` -/
def gitIsUploadPack : Event → Except CFault Bool := gitIsService (ascii "service=git-upload-pack")

/-- `gitIsReceivePackAdvertisement` -/
def gitIsReceivePackAdvertisement (event : Event) : Bool :=
  event.paramIs .http httpHeaderContentType (ascii "application/x-git-receive-pack-advertisement")

/-- `gitIsReceivePackRequest` -/
def gitIsReceivePackRequest (event : Event) : Bool :=
  event.paramIs .http httpHeaderContentType (ascii "application/x-git-receive-pack-request")

/-- `gitIsReceivePackResult` -/
def gitIsReceivePackResult (event : Event) : Bool :=
  event.paramIs .http httpHeaderContentType (ascii "application/x-git-receive-pack-result")

/-- `gitIsUploadPackAdvertisement` -/
def gitIsUploadPackAdvertisement (event : Event) : Bool :=
  event.paramIs .http httpHeaderContentType (ascii "application/x-git-upload-pack-advertisement")

/-- The end of the repository in a request line: the first occurrence of `s`, or else of `t`. -/
def findEither (s t line : Bytes) : Option ℕ :=
  match find s line with
  | none => find t line
  | some pos => some pos

/-- `line.substr(off, pos-off)`, where the count may wrap around. -/
def cutRepository (line : Bytes) (off : ℕ) : Option ℕ → Except CFault Bytes
  | none => .ok []
  | some pos => substr line off (if off ≤ pos then some (pos - off) else none)

/-- What `gitGetRepository` finds in a request line. -/
def repositoryOf (line : Bytes) : Except CFault Bytes :=
  if startsWith line (ascii "POST") then
    cutRepository line 5 (findEither (ascii "git-receive-pack") (ascii "git-upload-pack") line)
  else if startsWith line (ascii "GET") then
    cutRepository line 4 (findEither (ascii "info/refs?service=git-receive-pack")
      (ascii "info/refs?service=git-upload-pack") line)
  else .ok []

/-- `gitGetRepository` -/
def gitGetRepository (event : Event) : Except CFault Bytes :=
  match event.getParam .http httpHeaderRequest with
  | none => .ok []
  | some p => repositoryOf p.getValueString

/-- `transformGitPackAdvertisement` -/
def transformGitPackAdvertisement (request result : Event) : Except CFault (Event × Event) := do
  let repository ← gitGetRepository request
  let refs ← parseGitPackAdvertisement result
  return addAdvertisementParams request result repository refs

/-- `transformGitReceivePackRequestResult` -/
def transformGitReceivePackRequestResult (request result : Event) :
    Except CFault (Event × Event) := do
  let (_, results) ← parseGitReceivePackResult result
  let repository ← gitGetRepository request
  let commands ← parseGitReceivePackRequest request
  return addReceivePackParams request result repository commands results

end LibSeal
