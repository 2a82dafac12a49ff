import LibSeal.Auditing.HttpBody
import LibSeal.Git.Pack

/-!
# Parameters that a header can forge

The parser keeps what it finds out itself — the first line of a message, and its body — in the same
map as the headers, under names that a header may have, too. The first line is stored before the
headers and the body behind them. So a header named `Request` or `Response` replaces the first line,
or adds one of the other kind, and a header named `Payload` is taken for a body where there is none
(`ownParams_iff`).

The auditors decide by these parameters whether a pair of messages is theirs. With a header
`Response` in it a reply is not `200 OK` any more, and what it says is not audited
(`not_ownParams_response`).
-/

namespace LibSeal

open Bytes

/-! ### The decisions of the auditors -/

/-- `OWNCLOUD_CMD_DOCS_POLL` -/
def owncloudCmdDocsPoll : Bytes := ascii "/apps/documents/session/user/poll"

/-- `docsIsPoll` -/
def docsIsPoll (ev : Event) : Bool := ev.paramContains .http httpHeaderRequest owncloudCmdDocsPoll

/-- `owncloudIsOK` -/
def owncloudIsOK (ev : Event) : Bool := ev.paramContains .http httpHeaderResponse (ascii "200 OK")

/-! ### The parser's own parameters -/

/-- The name under which a first line of the other kind is stored. -/
def otherName (line : Bytes) : Bytes :=
  if isHttpRequest line then httpHeaderResponse else httpHeaderRequest

/-- The body that is read, and its length. -/
def bodyRead (junk : ℕ → UInt8) (input : Bytes) : Option (Bytes × ℤ) :=
  match readPayload junk input (headState (kindName (firstLine input)) input) with
  | .ok (some block, length) => some (block, length)
  | _ => none

/-- The parser's own parameters are what they are meant to be: the first line under the name of its
kind, nothing under the name of the other, and a payload only if a body has been read. -/
structure OwnParams (junk : ℕ → UInt8) (input : Bytes) (e : Event) : Prop where
  kind : e.getParam .http (kindName (firstLine input)) =
    some ⟨.http, kindName (firstLine input), .string (firstLine input).dropLast⟩
  other : e.getParam .http (otherName (firstLine input)) = none
  payload : e.getParam .http httpHeaderPayload = (bodyRead junk input).map fun body ↦
    ⟨.http, httpHeaderPayload, .bytes body.1 body.2⟩

/-- What the auditors decide by these parameters, they decide by the first line, and by whether
there is a body. -/
structure DecidesByFirstLine (junk : ℕ → UInt8) (input : Bytes) (e : Event) : Prop where
  isPoll : docsIsPoll e =
    (isHttpRequest (firstLine input) && contains (firstLine input).dropLast owncloudCmdDocsPoll)
  isOK : owncloudIsOK e =
    (!isHttpRequest (firstLine input) && contains (firstLine input).dropLast (ascii "200 OK"))
  isService : ∀ service, gitIsService service e =
    if e.getParam .http httpHeaderContentType = none ∧ bodyRead junk input = none then
      if isHttpRequest (firstLine input) then .ok (contains (firstLine input).dropLast service)
      else .error .nullDereference
    else .ok false

/-- No header has one of the parser's names, unless it says what is stored anyway. -/
structure NoCollision (input : Bytes) : Prop where
  kind : ∀ value ∈ lastValue (headerEntries input) (kindName (firstLine input)),
    value = (firstLine input).dropLast
  other : otherName (firstLine input) ∉ (headerEntries input).map Prod.fst
  payload : httpHeaderPayload ∈ (headerEntries input).map Prod.fst → HasBody input

variable {junk : ℕ → UInt8} {input : Bytes} {e : Event} {b : Bool}

/-- The decisions depend on nothing else. -/
theorem OwnParams.decidesByFirstLine (h : OwnParams junk input e) :
    DecidesByFirstLine junk input e := by
  have hkind := h.kind
  have hother := h.other
  have hpayload : e.getParam .http httpHeaderPayload = none ↔ bodyRead junk input = none := by
    rw [h.payload, Option.map_eq_none_iff]
  rw [kindName] at hkind
  rw [otherName] at hother
  rcases hreq : isHttpRequest (firstLine input) with - | -
  · rw [hreq, if_neg Bool.false_ne_true] at hkind hother
    refine ⟨?_, ?_, fun service ↦ ?_⟩
    · rw [docsIsPoll, Event.paramContains, hother, hreq]
      rfl
    · rw [owncloudIsOK, Event.paramContains, hkind, hreq]
      rfl
    · simp only [gitIsService, requestLine, hother, hpayload, hreq]
      rfl
  · rw [hreq, if_pos rfl] at hkind hother
    refine ⟨?_, ?_, fun service ↦ ?_⟩
    · rw [docsIsPoll, Event.paramContains, hkind, hreq]
      rfl
    · rw [owncloudIsOK, Event.paramContains, hother, hreq]
      rfl
    · simp only [gitIsService, requestLine, hkind, hpayload, hreq]
      rfl

/-! ### Collisions -/

theorem kindName_ne (line : Bytes) : httpHeaderContentLength ≠ kindName line ∧
    httpHeaderPayload ≠ kindName line ∧ kindName line ≠ otherName line := by
  rw [kindName, otherName]
  split_ifs
  · decide
  · decide

theorem otherName_ne (line : Bytes) : httpHeaderContentLength ≠ otherName line ∧
    httpHeaderPayload ≠ otherName line := by
  rw [otherName]
  split_ifs
  · decide
  · decide

/-- A parameter over another is not seen only if it is the same. -/
theorem or_headerParam_iff {name value : Bytes} {last : Option Bytes} :
    (last.map (headerParam name)).or (some (headerParam name value)) =
      some (headerParam name value) ↔ ∀ w ∈ last, w = value := by
  rcases last with - | w
  · simp
  · simp [headerParam]

/-- The payload is the body if the message has one, and otherwise what a header says. -/
theorem getParam_payload_iff (hlen : input.length < 2147483648) {body : Option Bytes × ℤ}
    (hbody : readPayload junk input (headState (kindName (firstLine input)) input) = .ok body) :
    (finalEvent (headState (kindName (firstLine input)) input).event body).getParam .http
        httpHeaderPayload =
      ((bodyRead junk input).map fun body ↦ ⟨.http, httpHeaderPayload, .bytes body.1 body.2⟩) ↔
    (httpHeaderPayload ∈ (headerEntries input).map Prod.fst → HasBody input) := by
  have hne := (kindName_ne (firstLine input)).2.1
  rw [getParam_finalEvent_payload (paramCnt_headState_pos _ _), getParam_headState,
    if_neg (Ne.symm hne), Option.or_none, bodyRead, hbody]
  obtain ⟨payload, length⟩ := body
  rcases hasBody_iff_of_readPayload hlen hbody with ⟨hhas, hpayload, hpos⟩ | ⟨hhas, hpayload⟩
  · obtain ⟨block, rfl⟩ := Option.ne_none_iff_exists'.1 hpayload
    rw [if_pos hpos]
    exact iff_of_true rfl fun _ ↦ hhas
  · simp only at hpayload
    subst hpayload
    rw [ite_self]
    show (lastValue _ _).map _ = none ↔ _
    rw [Option.map_eq_none_iff, lastValue_eq_none_iff]
    exact ⟨fun h hmem ↦ absurd hmem h, fun h hmem ↦ hhas (h hmem)⟩

/-- The parameters that the headers and the body leave. -/
theorem ownParams_iff_noCollision (hlen : input.length < 2147483648)
    (h : readHttpMessage junk input = .ok (e, b)) (hne : firstLine input ≠ []) :
    OwnParams junk input e ↔ NoCollision input := by
  obtain ⟨-, body, hbody, rfl⟩ := eq_finalEvent_of_readHttpMessage h hne
  obtain ⟨hclKind, hplKind, hkindOther⟩ := kindName_ne (firstLine input)
  obtain ⟨hclOther, hplOther⟩ := otherName_ne (firstLine input)
  have hpayload := getParam_payload_iff hlen hbody
  set kind := kindName (firstLine input) with hkind
  set e := finalEvent (headState kind input).event body with he
  have hgetKind : e.getParam .http kind = some (headerParam kind (firstLine input).dropLast) ↔
      ∀ value ∈ lastValue (headerEntries input) kind, value = (firstLine input).dropLast := by
    rw [he, getParam_finalEvent_of_ne _ _ hclKind hplKind, getParam_headState, if_pos rfl,
      or_headerParam_iff]
  have hgetOther : e.getParam .http (otherName (firstLine input)) = none ↔
      otherName (firstLine input) ∉ (headerEntries input).map Prod.fst := by
    rw [he, getParam_finalEvent_of_ne _ _ hclOther hplOther, getParam_headState,
      if_neg hkindOther, Option.or_none, Option.map_eq_none_iff, lastValue_eq_none_iff]
  constructor
  · exact fun h ↦ ⟨hgetKind.1 h.kind, hgetOther.1 h.other, hpayload.1 h.payload⟩
  · exact fun h ↦ ⟨hgetKind.2 h.kind, hgetOther.2 h.other, hpayload.2 h.payload⟩

/-- **The headers of a message forge none of the parser's parameters exactly if** none of them has
one of the parser's names, up to a repetition of the first line, and a payload under the body. -/
theorem ownParams_iff (hlen : input.length < 2147483648)
    (h : readHttpMessage junk input = .ok (e, b)) (hne : firstLine input ≠ []) :
    OwnParams junk input e ∧ DecidesByFirstLine junk input e ↔ NoCollision input := by
  rw [← ownParams_iff_noCollision hlen h hne]
  exact ⟨And.left, fun hown ↦ ⟨hown, hown.decidesByFirstLine⟩⟩

/-- A reply whose headers are not the parser's. -/
def honestReply : Bytes := ascii "HTTP/1.1 200 OK\r\nServer: web\r\n\r\n"

theorem ownParams_honestReply : ∃ e b, readHttpMessage (fun _ ↦ 0) honestReply = .ok (e, b) ∧
    OwnParams (fun _ ↦ 0) honestReply e ∧ DecidesByFirstLine (fun _ ↦ 0) honestReply e := by
  obtain ⟨r, hr⟩ := exists_readHttpMessage_of_no_body (fun _ ↦ 0)
    (show IsSupported (firstLine honestReply) ∧ _ by decide +kernel)
  exact ⟨r.1, r.2, hr, (ownParams_iff (by decide +kernel) hr (by decide +kernel)).2
    ⟨by decide +kernel, by decide +kernel, by decide +kernel⟩⟩

/-- A reply with a header that has the parser's name for the first line. -/
def forgedReply : Bytes := ascii "HTTP/1.1 200 OK\r\nResponse: none\r\n\r\n"

/-- Its header is taken for the first line, and the auditor does not take it for a good reply. -/
theorem not_ownParams_response :
    ∃ e b, readHttpMessage (fun _ ↦ 0) forgedReply = .ok (e, b) ∧
      ¬ OwnParams (fun _ ↦ 0) forgedReply e ∧ owncloudIsOK e = false := by
  obtain ⟨r, hr⟩ := exists_readHttpMessage_of_no_body (fun _ ↦ 0)
    (show IsSupported (firstLine forgedReply) ∧ _ by decide +kernel)
  have hne : firstLine forgedReply ≠ [] := by decide +kernel
  have hlast : lastValue (headerEntries forgedReply) (kindName (firstLine forgedReply)) =
      some (ascii "none") := by decide +kernel
  have hkind : kindName (firstLine forgedReply) = httpHeaderResponse := by decide +kernel
  refine ⟨r.1, r.2, hr, ?_, ?_⟩
  · rw [ownParams_iff_noCollision (by decide +kernel) hr hne]
    intro h
    exact absurd (h.kind _ hlast) (by decide +kernel)
  · obtain ⟨-, body, -, he⟩ := eq_finalEvent_of_readHttpMessage hr hne
    have hget : r.1.getParam .http httpHeaderResponse =
        some (headerParam httpHeaderResponse (ascii "none")) := by
      rw [he, getParam_finalEvent_of_ne _ _ (by decide) (by decide), getParam_headState, ← hkind,
        hlast]
      rfl
    rw [owncloudIsOK, Event.paramContains, hget]
    decide +kernel

end LibSeal
