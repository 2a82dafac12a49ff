import LibSeal.Git.PktLine

/-!
# Reference advertisements are logged exactly

What a server answers to a request for `info/refs` is parsed into a map, written out as a text,
parsed again and logged. The result (`advertisement_logged`) is that every advertised reference is
logged once, with its name and id, in the order of the names.

The first reference is read as a C string, up to the NUL in front of the capabilities, and the
others by their lengths. A server without references sends a line for the id of zeros and the name
`capabilities^{}` in the place of the first reference. This line cannot be told from the line of a
reference of that name, which the parser therefore skips (`not_logged`).
-/

namespace LibSeal

open Bytes

/-! ### The encoding -/

/-- An advertised reference. -/
structure Ref where
  name : RefName
  id : ObjectId

/-- The line of a reference. -/
def Ref.line (r : Ref) : Bytes := r.id.bytes ++ ascii " " ++ r.name.bytes

/-- The entry of a reference in the map. -/
def Ref.entry (r : Ref) : Bytes × Bytes := (r.name.bytes, r.id.bytes)

/-- The line that comes with the capabilities. -/
def firstRefLine : List Ref → Bytes
  | [] => gitNoRefLine
  | r :: _ => r.line

/-- An advertisement, whose packets are short enough for their lengths to be written. -/
structure RefAdvertisement where
  service : Bytes
  capabilities : Bytes
  refs : List Ref
  nodup : (refs.map fun r ↦ r.name.bytes).Nodup
  service_fits : service.length + 4 < 65536
  first_fits : (firstRefLine refs ++ 0 :: capabilities ++ [10]).length + 4 < 65536
  fits : ∀ r ∈ refs.tail, (r.line ++ [10]).length + 4 < 65536

namespace RefAdvertisement

variable (a : RefAdvertisement)

/-- The packets in front of the last `0000`. -/
def packets : Bytes :=
  pktLine a.service ++ (flushPkt ++ (pktLine (firstRefLine a.refs ++ 0 :: a.capabilities ++ [10]) ++
    a.refs.tail.flatMap fun r ↦ pktLine (r.line ++ [10])))

/-- The body of the reply. -/
def payload : Bytes := a.packets ++ flushPkt

/-- The first line is one of a reference, or says that there is none. -/
def FirstTold : Prop := ∀ r ∈ a.refs.head?, r.line ≠ gitNoRefLine

end RefAdvertisement

/-! ### Parsing -/

theorem Ref.zero_notMem_line (r : Ref) : 0 ∉ r.line := by
  rw [Ref.line, List.mem_append, List.mem_append, not_or, not_or]
  exact ⟨⟨r.id.zero_notMem, by decide⟩, r.name.zero_notMem⟩

/-- A reference's line is split again where it was put together. -/
theorem addRef_line (refs : OrderedMap Bytes Bytes) (r : Ref) :
    addRef refs r.line = .ok (refs.insert r.entry.1 r.entry.2) := by
  have hlen : (r.id.bytes ++ ascii " ").length = 41 := by
    rw [List.length_append, r.id.length_bytes]
    rfl
  have hname : substr r.line 41 none = .ok r.name.bytes := by
    rw [← hlen]
    exact substr_append_none _ _
  have hid : substr r.line 0 (some 40) = .ok r.id.bytes := by
    have h := substr_append_append [] r.id.bytes (ascii " " ++ r.name.bytes)
    rw [r.id.length_bytes, List.nil_append, ← List.append_assoc] at h
    exact h
  rw [addRef, hname, hid]
  rfl

/-- The first reference, or none, is read up to the NUL. -/
theorem initFirstRef_of_memory {a : RefAdvertisement} (htold : a.FirstTold) {ptr : CPtr}
    (hpos : 0 ≤ ptr.pos) {t : Bytes}
    (hmem : ptr.memory = pktLine (firstRefLine a.refs ++ 0 :: a.capabilities ++ [10]) ++ t) :
    initFirstRef ptr .empty =
      .ok (ptr.add ((firstRefLine a.refs ++ 0 :: a.capabilities ++ [10]).length + 4 : ℕ),
        OrderedMap.empty.insertAll ((a.refs.take 1).map Ref.entry)) := by
  have hread := intLengthField_of_memory a.first_fits hmem
  have hzero : 0 ∉ firstRefLine a.refs := by
    rcases a.refs with - | ⟨r, rs⟩
    · decide
    · exact r.zero_notMem_line
  have hstring : stringAt (ptr.add 4).memory = .ok (firstRefLine a.refs) := by
    rw [memory_add_four hpos hmem, List.append_assoc, List.append_assoc, List.cons_append]
    exact stringAt_append_zero hzero _
  have hadd : addFirstRef .empty (firstRefLine a.refs) =
      .ok (OrderedMap.empty.insertAll ((a.refs.take 1).map Ref.entry)) := by
    rcases hrefs : a.refs with - | ⟨r, rs⟩
    · rw [firstRefLine, addFirstRef, if_neg (not_not_intro rfl)]
      rfl
    · have hr : r.line ≠ gitNoRefLine := htold r (by rw [hrefs]; rfl)
      rw [firstRefLine, addFirstRef, if_pos hr, addRef_line]
      rfl
  rw [initFirstRef, hread]
  simp only [bind, Except.bind, hstring, hadd]
  rw [if_pos (by omega)]
  rfl

/-- **The payload is parsed to a map of all references.** -/
theorem initRefs_of_memory {a : RefAdvertisement} (htold : a.FirstTold) {ptr : CPtr}
    (hpos : 0 ≤ ptr.pos) {stop : Bytes} (hstop : Stops stop)
    (hmem : ptr.memory = pktLine (firstRefLine a.refs ++ 0 :: a.capabilities ++ [10]) ++
      (a.refs.tail.flatMap (fun r ↦ pktLine (r.line ++ [10])) ++ stop)) :
    initRefs ptr .empty = .ok (OrderedMap.empty.insertAll (a.refs.map Ref.entry)) := by
  have hnext := memory_add_pktLine hpos hmem
  set n := (firstRefLine a.refs ++ 0 :: a.capabilities ++ [10]).length + 4 with hn
  have hpos' : 0 ≤ (ptr.add ↑n).pos := CPtr.pos_add_nonneg hpos n
  have hothers := walkPackets_of_memory (fun r m ↦ addRef_line m r) (fun _ ↦ rfl) hstop
    a.refs.tail a.fits (length_lt_of_memory hpos' hnext) hpos' hnext
    (OrderedMap.empty.insertAll ((a.refs.take 1).map Ref.entry))
  have hall : (OrderedMap.empty.insertAll ((a.refs.take 1).map Ref.entry)).insertAll
      (a.refs.tail.map Ref.entry) = OrderedMap.empty.insertAll (a.refs.map Ref.entry) := by
    rcases a.refs with - | ⟨r, rs⟩ <;> rfl
  rw [initRefs, initFirstRef_of_memory htold hpos hmem]
  simp only [bind, Except.bind, initOtherRefs, ← hn]
  rw [← hall]
  exact hothers

/-- The parser finds its payload in the event. -/
theorem parseGitPackAdvertisement_of_payload {a : RefAdvertisement} (htold : a.FirstTold)
    {result : Event} {stop : Bytes} (hstop : Stops stop) {n : ℕ} (hn : 4 < n)
    (hpayload : result.getParam .http httpHeaderPayload =
      some ⟨.http, httpHeaderPayload, .bytes (a.packets ++ stop) n⟩) :
    parseGitPackAdvertisement result = .ok (OrderedMap.empty.insertAll (a.refs.map Ref.entry)) := by
  have hget : getHttpPayload result = .ok (some (a.packets ++ stop)) := by
    rw [getHttpPayload, hpayload]
    show Except.ok (if (0 : ℤ) ≤ n ∧ (n : ℤ) ≤ 4 then none else _) = _
    rw [if_neg (by omega)]
    rfl
  set ptr : CPtr := ⟨a.packets ++ stop, 0⟩ with hptr
  have hpos : 0 ≤ ptr.pos := le_rfl
  have hmem : ptr.memory = pktLine a.service ++ (flushPkt ++
      (pktLine (firstRefLine a.refs ++ 0 :: a.capabilities ++ [10]) ++
        (a.refs.tail.flatMap (fun r ↦ pktLine (r.line ++ [10])) ++ stop))) := by
    show (a.packets ++ stop).drop 0 = _
    rw [List.drop_zero, RefAdvertisement.packets]
    simp only [List.append_assoc]
  have hread := gitReadLengthField_of_memory a.service_fits hmem
  -- behind the service, and behind the flush
  have hmem₁ := memory_add_pktLine hpos hmem
  have hpos₁ : 0 ≤ (ptr.add ↑(a.service.length + 4)).pos := CPtr.pos_add_nonneg hpos _
  have hmem₂ := CPtr.memory_add_length hpos₁ hmem₁
  have hpos₂ := CPtr.pos_add_nonneg hpos₁ flushPkt.length
  rw [parseGitPackAdvertisement, hget]
  simp only [bind, Except.bind, ← hptr, hread]
  exact initRefs_of_memory htold hpos₂ hstop hmem₂

/-! ### Reading the text back -/

/-- The text of a reference between the parsers. -/
def Ref.told (r : Ref) : Bytes := r.name.bytes ++ ascii " " ++ r.id.bytes ++ ascii ","

/-- **The loop over the references cuts the text where it was put together**, whatever commas the
names have. -/
theorem advertisementsOf_told (id : ℤ) (repo : Bytes) (refs : List Ref) {fuel : ℕ}
    (hfuel : refs.length < fuel) :
    advertisementsOf id repo fuel (refs.flatMap Ref.told) =
      .ok (refs.map fun r ↦ advertisementTuple id repo r.name.bytes r.id.bytes) := by
  induction refs generalizing fuel with
  | nil =>
    obtain ⟨fuel, rfl⟩ := Nat.exists_eq_succ_of_ne_zero (Nat.ne_zero_of_lt hfuel)
    rfl
  | cons r refs ih =>
    obtain ⟨fuel, rfl⟩ := Nat.exists_eq_succ_of_ne_zero (Nat.ne_zero_of_lt hfuel)
    set rest := refs.flatMap Ref.told with hrest
    have htext : (r :: refs).flatMap Ref.told =
        r.name.bytes ++ ' '.toUInt8 :: (r.id.bytes ++ ','.toUInt8 :: rest) := by
      rw [List.flatMap_cons, ← hrest, Ref.told, show ascii " " = [' '.toUInt8] by decide,
        show ascii "," = [','.toUInt8] by decide]
      simp
    have hcomma : ','.toUInt8 ∈ (r :: refs).flatMap Ref.told := by rw [htext]; simp
    have hspace : ((r :: refs).flatMap Ref.told).idxOf? ' '.toUInt8 = some r.name.bytes.length := by
      rw [htext, idxOf?_append_cons r.name.space_notMem]
    have hbranch : substr ((r :: refs).flatMap Ref.told) 0 (some r.name.bytes.length) =
        .ok r.name.bytes := by
      rw [htext]
      exact substr_append_append [] r.name.bytes _
    have hcid : substr ((r :: refs).flatMap Ref.told) (r.name.bytes.length + 1) (some 40) =
        .ok r.id.bytes := by
      have h := substr_append_append (r.name.bytes ++ [' '.toUInt8]) r.id.bytes
        (','.toUInt8 :: rest)
      rw [List.length_append, List.length_singleton, r.id.length_bytes] at h
      rw [htext, ← h]
      simp
    -- 42 is what a reference has beside its name, the comma included
    have htail : substr ((r :: refs).flatMap Ref.told) (r.name.bytes.length + 42) none =
        .ok rest := by
      have h := substr_append_none
        (r.name.bytes ++ [' '.toUInt8] ++ r.id.bytes ++ [','.toUInt8]) rest
      have hlen : (r.name.bytes ++ [' '.toUInt8] ++ r.id.bytes ++ [','.toUInt8]).length =
          r.name.bytes.length + 42 := by
        simp only [List.length_append, List.length_singleton, r.id.length_bytes]
      rw [hlen] at h
      rw [htext, ← h]
      simp
    rw [advertisementsOf, if_pos hcomma, hspace]
    simp only [posAdd, hbranch, hcid, htail, bind, Except.bind, ih (by simpa using hfuel)]
    rfl

theorem length_le_length_told (refs : List Ref) : refs.length ≤ (refs.flatMap Ref.told).length := by
  induction refs with
  | nil => exact le_rfl
  | cons r refs ih =>
    rw [List.flatMap_cons, List.length_append, List.length_cons, Ref.told, List.length_append,
      show (ascii ",").length = 1 from rfl]
    omega

/-! ### The exchange -/

/-- The services of a Git server. -/
inductive GitService where
  | uploadPack
  | receivePack
  deriving DecidableEq

/-- The query of a request for references. -/
def GitService.query : GitService → Bytes
  | .uploadPack => ascii "service=git-upload-pack"
  | .receivePack => ascii "service=git-receive-pack"

/-- The content type of the reply. -/
def GitService.advertisementType : GitService → Bytes
  | .uploadPack => ascii "application/x-git-upload-pack-advertisement"
  | .receivePack => ascii "application/x-git-receive-pack-advertisement"

/-- A request for the references of a repository. The repository is what `gitGetRepository` takes
for it. -/
structure InfoRefsRequest where
  message : HttpMessage
  service : GitService
  repository : Bytes
  get : ascii "GET" <+: message.startLine
  query : service.query <:+: message.startLine
  repositoryOf_eq : repositoryOf message.startLine = .ok repository
  no_contentType : httpHeaderContentType ∉ message.names
  no_body : message.body = .none

/-- The reply that advertises the references. -/
structure InfoRefsReply (service : GitService) where
  message : HttpMessage
  advertisement : RefAdvertisement
  http : ascii "HTTP" <+: message.startLine
  contentType : ∃ f ∈ message.fields,
    f.name = httpHeaderContentType ∧ f.value = service.advertisementType
  bytes_body : message.body.bytes = advertisement.payload

/-- What is added to the events for an advertisement is found there. -/
theorem gitValueString_addAdvertisementParams (request result : Event) (repository : Bytes)
    (refs : OrderedMap Bytes Bytes) :
    let evs := addAdvertisementParams request result repository refs
    gitValueString evs.1 gitRepository = .ok repository ∧
      gitValueString evs.1 gitWhat = .ok gitWhatAdvreq ∧
      gitValueString evs.2 gitRefs = .ok (refStr refs) ∧
      evs.1.getParam .git gitService ≠ none := by
  have hne : gitRepository ≠ gitWhat ∧ gitRepository ≠ gitService ∧ gitService ≠ gitWhat ∧
      gitRefs ≠ gitWhat := by decide
  obtain ⟨h₁, h₂, h₃, h₄⟩ := hne
  refine ⟨?_, ?_, ?_, ?_⟩
  · simp [addAdvertisementParams, gitValueString, Event.getParam_add, Param.getValueString]
  · simp [addAdvertisementParams, gitValueString, Event.getParam_add, Param.getValueString, h₁, h₃]
  · simp [addAdvertisementParams, gitValueString, Event.getParam_add, Param.getValueString]
  · simp [addAdvertisementParams, Event.getParam_add, h₂]

/-- **From the map to the rows.** The references that the parser has collected are logged in the
order of their names. -/
theorem exists_processEvents_of_transform {time : ℕ} (htime : time < 2147483648)
    {evReq evRsp : Event}
    {repository : Bytes} {refs : List Ref} (hnd : (refs.map fun r ↦ r.name.bytes).Nodup)
    (htransform : transformEvents evReq evRsp = .ok (addAdvertisementParams evReq evRsp repository
      (OrderedMap.empty.insertAll (refs.map Ref.entry)))) :
    ∃ sorted : List Ref, sorted.Perm refs ∧
      sorted.Pairwise (fun r s ↦ r.name.bytes < s.name.bytes) ∧
      processEvents time evReq evRsp = .ok (time + 1, sorted.map fun r ↦
        insertAdvertisement (advertisementTuple time repository r.name.bytes r.id.bytes)) := by
  obtain ⟨sorted, hperm, hsorted, hlist⟩ :=
    exists_sorted (fun r : Ref ↦ r.name.bytes) (fun r ↦ r.id.bytes) hnd
  refine ⟨sorted, hperm, hsorted, ?_⟩
  obtain ⟨hrepo, hwhat, hrefs, hservice⟩ := gitValueString_addAdvertisementParams evReq evRsp
    repository (OrderedMap.empty.insertAll (refs.map Ref.entry))
  -- the text between the parsers lists the references as the map has sorted them
  have htold : refStr (OrderedMap.empty.insertAll (refs.map Ref.entry)) =
      sorted.flatMap Ref.told := by
    have hentry : (OrderedMap.empty.insertAll (refs.map Ref.entry)).toList =
        sorted.map fun r ↦ (r.name.bytes, r.id.bytes) := hlist
    rw [refStr, hentry, List.flatMap_map]
    rfl
  have hid : toInt32 time = time := toInt32_of_lt htime
  have hnext : (time + 1) % 18446744073709551616 = time + 1 := Nat.mod_eq_of_lt (by omega)
  have hloop := advertisementsOf_told time repository sorted
    (Nat.lt_succ_of_le (length_le_length_told sorted))
  have hpair : eventPair2DslForDB time
      (addAdvertisementParams evReq evRsp repository
        (OrderedMap.empty.insertAll (refs.map Ref.entry))).1
      (addAdvertisementParams evReq evRsp repository
        (OrderedMap.empty.insertAll (refs.map Ref.entry))).2 =
      .ok (time + 1, [], sorted.map fun r ↦
        advertisementTuple time repository r.name.bytes r.id.bytes) := by
    rw [eventPair2DslForDB, hrepo, hwhat]
    simp only [bind, Except.bind, hrefs, htold, hid, hnext, hloop]
    rfl
  rw [processEvents_of_transform htransform hservice hpair, List.map_nil, List.nil_append,
    List.map_map]
  rfl

/-- A request for references that is parsed to what it says has neither type nor body, and asks for
its service. -/
theorem gitIsService_of_parsedTo {junk : ℕ → UInt8} {req : InfoRefsRequest} {evReq : Event}
    (hreq : req.message.ParsedTo junk httpHeaderRequest evReq) (service : Bytes) :
    evReq.getParam .http httpHeaderContentType = none ∧
      gitIsService service evReq = .ok (contains req.message.startLine service) := by
  have htype : evReq.getParam .http httpHeaderContentType = none :=
    hreq.absent _ req.no_contentType (by decide) (by decide) (by decide)
  have hpayload : evReq.getParam .http httpHeaderPayload = none := by
    rw [hreq.payload, req.no_body]
    rfl
  refine ⟨htype, ?_⟩
  rw [gitIsService, if_pos ⟨htype, hpayload⟩, requestLine, hreq.startLine]
  rfl

/-- **The exchange is recognised** and parsed, whichever service is asked for. -/
theorem transformEvents_infoRefs {junk : ℕ → UInt8} {req : InfoRefsRequest}
    {rsp : InfoRefsReply req.service} (htold : rsp.advertisement.FirstTold) {evReq evRsp : Event}
    (hreq : req.message.ParsedTo junk httpHeaderRequest evReq)
    (hrsp : rsp.message.ParsedTo junk httpHeaderResponse evRsp) :
    transformEvents evReq evRsp = .ok (addAdvertisementParams evReq evRsp req.repository
      (OrderedMap.empty.insertAll (rsp.advertisement.refs.map Ref.entry))) := by
  have hbytes : rsp.message.body.bytes = rsp.advertisement.packets ++ (flushPkt ++ []) :=
    rsp.bytes_body
  obtain ⟨stop, hblock, hstop, -⟩ := exists_stops_block junk rsp.message.body hbytes
  have hlong : 4 < rsp.message.body.bytes.length := by
    rw [rsp.bytes_body, RefAdvertisement.payload, RefAdvertisement.packets]
    simp only [List.length_append, length_pktLine, show flushPkt.length = 4 from rfl]
    omega
  have hparse := parseGitPackAdvertisement_of_payload htold hstop hlong
    (by rw [hrsp.payload, hblock]; rfl)
  have hrepo : gitGetRepository evReq = .ok req.repository := by
    rw [gitGetRepository, hreq.startLine]
    exact req.repositoryOf_eq
  have htransform : transformGitPackAdvertisement evReq evRsp =
      .ok (addAdvertisementParams evReq evRsp req.repository
        (OrderedMap.empty.insertAll (rsp.advertisement.refs.map Ref.entry))) := by
    rw [transformGitPackAdvertisement, hrepo, hparse]
    rfl
  -- the types of the two events
  have hnoPush : gitIsReceivePackRequest evReq = false := by
    rw [gitIsReceivePackRequest, Event.paramIs, (gitIsService_of_parsedTo hreq []).1]
  have htype : ∀ value, evRsp.paramIs .http httpHeaderContentType value =
      (req.service.advertisementType == value) := by
    intro value
    obtain ⟨f, hf, hname, hvalue⟩ := rsp.contentType
    have hfield := hrsp.field f hf (by rw [hname]; decide)
    rw [hname, hvalue] at hfield
    rw [Event.paramIs, hfield]
    rfl
  have hquery : contains req.message.startLine req.service.query = true :=
    contains_iff.2 req.query
  rw [transformEvents, hnoPush, gitIsReceivePack, gitIsUploadPack,
    (gitIsService_of_parsedTo hreq _).2, (gitIsService_of_parsedTo hreq _).2,
    gitIsReceivePackAdvertisement, gitIsUploadPackAdvertisement, htype, htype]
  have hservice : req.service = .uploadPack ∨ req.service = .receivePack := by
    rcases req.service with - | - <;> simp
  rcases hservice with hservice | hservice
  · have hfirst : (req.service.advertisementType ==
        ascii "application/x-git-receive-pack-advertisement") = false := by rw [hservice]; decide
    have hsecond : (req.service.advertisementType ==
        ascii "application/x-git-upload-pack-advertisement") = true := by rw [hservice]; decide
    rw [hservice] at hquery
    simp only [hfirst, hsecond, show contains req.message.startLine
      (ascii "service=git-upload-pack") = true from hquery, bind, Except.bind, Bool.and_false,
      Bool.false_and, Bool.false_eq_true, if_false]
    exact htransform
  · have hfirst : (req.service.advertisementType ==
        ascii "application/x-git-receive-pack-advertisement") = true := by rw [hservice]; decide
    rw [hservice] at hquery
    simp only [hfirst, show contains req.message.startLine (ascii "service=git-receive-pack") = true
      from hquery, bind, Except.bind, Bool.false_and, Bool.false_eq_true, if_false]
    exact htransform

/-! ### The result -/

/-- The references are logged, each once and in the order of their names, and nothing else is. -/
def LogsAdvertisement (junk : ℕ → UInt8) (time : ℕ) (req : InfoRefsRequest)
    (rsp : InfoRefsReply req.service) : Prop :=
  ∃ (sorted : List Ref) (calls : List (InsertCall .git)),
    sorted.Perm rsp.advertisement.refs ∧
    sorted.Pairwise (fun r s ↦ r.name.bytes < s.name.bytes) ∧
    libsealProcessLogAtRuntime junk time req.message.text rsp.message.text =
      .ok (time + 1, calls) ∧
    calls.map (fun c ↦ (c.name.bytes, c.tuple.bytes)) = sorted.map fun r ↦
      (ascii "advertisements", advertisementTuple time req.repository r.name.bytes r.id.bytes)

/-- A tuple has a NUL exactly when the repository has. -/
theorem zero_notMem_advertisementTuple {time : ℤ} {repo : Bytes} (hrepo : 0 ∉ repo) (r : Ref) :
    0 ∉ advertisementTuple time repo r.name.bytes r.id.bytes := by
  have htime : 0 ∉ toStr time := fun h ↦ absurd (isDecimal_of_mem_ofInt h) (by decide)
  have h₁ : 0 ∉ ascii ",\"" := by decide
  have h₂ : 0 ∉ ascii "\",\"" := by decide
  have h₃ : 0 ∉ ascii "\"" := by decide
  simp only [advertisementTuple, List.mem_append, htime, hrepo, r.name.zero_notMem,
    r.id.zero_notMem, h₁, h₂, h₃, or_self, not_false_eq_true]

/-- **A reference advertisement is logged exactly**, however its body is framed, if the messages can
be counted by an `int`, the repository has no NUL and the first reference is not taken for the line
that says that there is none. -/
theorem advertisement_logged (junk : ℕ → UInt8) {time : ℕ} (htime : time < 2147483648)
    (req : InfoRefsRequest) (rsp : InfoRefsReply req.service)
    (hreq : req.message.text.length < 2147483648) (hrsp : rsp.message.text.length < 2147483648)
    (hrepo : 0 ∉ req.repository) (htold : rsp.advertisement.FirstTold) :
    LogsAdvertisement junk time req rsp := by
  obtain ⟨evReq, hevReq, hparsedReq⟩ :=
    req.message.httpToEvent_text junk (firstLineName_of_get req.get) hreq
  obtain ⟨evRsp, hevRsp, hparsedRsp⟩ :=
    rsp.message.httpToEvent_text junk (firstLineName_of_http rsp.http) hrsp
  obtain ⟨sorted, hperm, hsorted, hprocess⟩ := exists_processEvents_of_transform htime
    rsp.advertisement.nodup (transformEvents_infoRefs htold hparsedReq hparsedRsp)
  refine ⟨sorted, sorted.map fun r ↦ insertAdvertisement
    (advertisementTuple time req.repository r.name.bytes r.id.bytes), hperm, hsorted, ?_, ?_⟩
  · rw [libsealProcessLogAtRuntime, hevReq, hevRsp]
    exact hprocess
  · rw [List.map_map]
    refine List.map_congr_left fun r _ ↦ ?_
    show (_, cStr _) = (_, _)
    rw [cStr_eq_self (zero_notMem_advertisementTuple hrepo r)]
    rfl

/-! ### A server with two references -/

def zeroId : ObjectId := ⟨gitZeroId, by decide, by decide +kernel⟩

def someId : ObjectId :=
  ⟨ascii "1234567890abcdef1234567890abcdef12345678", by decide, by decide +kernel⟩

def masterRef : RefName := ⟨ascii "refs/heads/master", by decide, by decide, by decide, by decide⟩

/-- A name that a reference may have, apart from Git's own rules. -/
def capabilitiesRef : RefName :=
  ⟨ascii "capabilities^{}", by decide, by decide, by decide, by decide⟩

def advertise (refs : List Ref) (hnd : (refs.map fun r ↦ r.name.bytes).Nodup)
    (hfirst : (firstRefLine refs ++ 0 :: ascii "agent=git" ++ [10]).length + 4 < 65536)
    (hfits : ∀ r ∈ refs.tail, (r.line ++ [10]).length + 4 < 65536) : RefAdvertisement where
  service := ascii "# service=git-upload-pack\n"
  capabilities := ascii "agent=git"
  refs := refs
  nodup := hnd
  service_fits := by decide
  first_fits := hfirst
  fits := hfits

/-- The request line for the references of a repository. -/
def infoRefsLine (path : Bytes) : Bytes :=
  ascii "GET " ++ (path ++ ascii "info/refs?service=git-upload-pack HTTP/1.1")

/-- A request with this line and nothing else. -/
def infoRefs (path : Bytes) (hline : 10 ∉ infoRefsLine path)
    (hrepo : repositoryOf (infoRefsLine path) = .ok path) : InfoRefsRequest where
  message :=
    { startLine := infoRefsLine path
      fields := []
      body := .none
      newline_notMem := hline
      nodup := List.nodup_nil
      framed := ⟨List.not_mem_nil, List.not_mem_nil⟩ }
  service := .uploadPack
  repository := path
  get := (show ascii "GET" <+: ascii "GET " by decide).trans (List.prefix_append _ _)
  query := by
    have hquery : ascii "info/refs?service=git-upload-pack HTTP/1.1" =
        ascii "info/refs?" ++ GitService.uploadPack.query ++ ascii " HTTP/1.1" := by decide
    show _ <:+: ascii "GET " ++ (path ++ ascii "info/refs?service=git-upload-pack HTTP/1.1")
    rw [hquery]
    exact (List.IsInfix.trans ⟨_, _, rfl⟩ (List.suffix_append path _).isInfix).trans
      (List.suffix_append _ _).isInfix
  repositoryOf_eq := hrepo
  no_contentType := List.not_mem_nil
  no_body := rfl

/-- The reply, with a status line that begins in the usual way. -/
def infoRefsReply (status : Bytes) (hstatus : 10 ∉ ascii "HTTP/1.1 200 " ++ status)
    (a : RefAdvertisement) (hne : a.payload ≠ []) : InfoRefsReply .uploadPack where
  message := plainMessage (ascii "HTTP/1.1 200 " ++ status)
    (ascii "application/x-git-upload-pack-advertisement") a.payload hstatus (by decide) hne
  advertisement := a
  http := (show ascii "HTTP" <+: ascii "HTTP/1.1 200 " by decide).trans (List.prefix_append _ _)
  contentType := ⟨_, List.mem_cons_self, rfl, rfl⟩
  bytes_body := rfl

/-- Two references, with a comma in the name of one. -/
def twoRefs : RefAdvertisement :=
  advertise [⟨masterRef, someId⟩,
    ⟨⟨ascii "refs/heads/a,b", by decide, by decide, by decide, by decide⟩, zeroId⟩]
    (by decide) (by decide) (by decide)

/-- Both are logged. -/
theorem logsAdvertisement_twoRefs :
    LogsAdvertisement (fun _ ↦ 0) 1 (infoRefs (ascii "/r.git/") (by decide) (by decide +kernel))
      (infoRefsReply (ascii "OK") (by decide) twoRefs (by decide)) :=
  advertisement_logged (fun _ ↦ 0) (by decide) _ _ (by decide +kernel) (by decide +kernel)
    (by decide) (by unfold RefAdvertisement.FirstTold; decide)

/-! ### Advertisements that are not logged -/

/-- A reply that is not parsed is not logged. -/
theorem not_logsAdvertisement_of_error {junk : ℕ → UInt8} {time : ℕ} {req : InfoRefsRequest}
    {rsp : InfoRefsReply req.service} {f : CFault}
    (hrsp : httpToEvent junk rsp.message.text = .error f) :
    ¬ LogsAdvertisement junk time req rsp := by
  rintro ⟨sorted, calls, -, -, hrun, -⟩
  obtain ⟨_, evRsp, -, hevRsp, -⟩ := exists_events hrun
  rw [hrsp] at hevRsp
  exact nomatch hevRsp

/-- A tuple with a NUL does not arrive whole. -/
theorem not_logsAdvertisement_of_mem {junk : ℕ → UInt8} {time : ℕ} {req : InfoRefsRequest}
    {rsp : InfoRefsReply req.service} (hrefs : rsp.advertisement.refs ≠ [])
    (hrepo : 0 ∈ req.repository) : ¬ LogsAdvertisement junk time req rsp := by
  rintro ⟨sorted, calls, hperm, -, -, hcalls⟩
  rcases sorted with - | ⟨r, sorted⟩
  · exact hrefs hperm.nil_eq.symm
  · rcases calls with - | ⟨c, calls⟩
    · exact absurd hcalls (by simp)
    · rw [List.map_cons, List.map_cons] at hcalls
      have htuple := (Prod.mk.inj (List.cons.inj hcalls).1).2
      refine c.tuple.zero_notMem (htuple ▸ ?_)
      rw [advertisementTuple]
      simp [hrepo]

/-- A reply whose status line goes on for `n` characters. -/
def wordyReply (n : ℕ) : InfoRefsReply .uploadPack :=
  infoRefsReply (List.replicate n 111) (by
    rw [List.mem_append, List.mem_replicate, not_or]
    exact ⟨by decide, fun h ↦ absurd h.2 (by decide)⟩) twoRefs (by decide)

theorem length_text_wordyReply (n : ℕ) : (wordyReply n).message.text.length = n + 268 := by
  have hfields : ((wordyReply n).message.fields.flatMap HeaderField.text ++
      (crlf ++ (wordyReply n).message.body.text)).length = 253 := by
    show ([contentTypeField (ascii "application/x-git-upload-pack-advertisement") (by decide),
      contentLengthField twoRefs.payload.length].flatMap HeaderField.text ++
        (crlf ++ twoRefs.payload)).length = 253
    decide +kernel
  have hline : (wordyReply n).message.startLine.length = 13 + n := by
    show (ascii "HTTP/1.1 200 " ++ List.replicate n 111).length = 13 + n
    rw [List.length_append, List.length_replicate]
    rfl
  rw [HttpMessage.text, List.length_append, List.length_append, hfields, hline]
  show 13 + n + 2 + 253 = n + 268
  omega

/-- The only reference is one whose line says that there is none. -/
def disguised : RefAdvertisement :=
  advertise [⟨capabilitiesRef, zeroId⟩] (by decide) (by decide) (by decide)

/-- A line that is taken for that of a server without references; a NUL in the request line, which
cuts the tuple; and a status line that makes the reply too long for an `int`. -/
theorem not_logged :
    ¬ LogsAdvertisement (fun _ ↦ 0) 1 (infoRefs (ascii "/r.git/") (by decide) (by decide +kernel))
      (infoRefsReply (ascii "OK") (by decide) disguised (by decide)) ∧
    ¬ LogsAdvertisement (fun _ ↦ 0) 1 (infoRefs (ascii "/r\x00/") (by decide) (by decide +kernel))
      (infoRefsReply (ascii "OK") (by decide) twoRefs (by decide)) ∧
    ¬ LogsAdvertisement (fun _ ↦ 0) 1 (infoRefs (ascii "/r.git/") (by decide) (by decide +kernel))
      (wordyReply 2147483648) := by
  refine ⟨?_, not_logsAdvertisement_of_mem (by decide) (by decide), ?_⟩
  · rintro ⟨sorted, calls, hperm, -, hrun, hcalls⟩
    have hnone : (libsealProcessLogAtRuntime (fun _ ↦ 0) 1
        (infoRefs (ascii "/r.git/") (by decide) (by decide +kernel)).message.text
        (infoRefsReply (ascii "OK") (by decide) disguised (by decide)).message.text).toOption.map
          (fun r ↦ r.2.length) = some 0 := by decide +kernel
    have hcount : calls.length = 0 := by
      rw [hrun] at hnone
      exact Option.some.inj hnone
    have hlength := congrArg List.length hcalls
    rw [List.length_map, List.length_map, hperm.length_eq, hcount] at hlength
    exact absurd hlength (by decide)
  · refine not_logsAdvertisement_of_error (HttpMessage.httpToEvent_of_le _ ?_ ?_)
    · rw [length_text_wordyReply]
      omega
    · rw [length_text_wordyReply]
      omega

end LibSeal
