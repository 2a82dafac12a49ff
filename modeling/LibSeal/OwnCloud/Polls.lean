import LibSeal.Auditing.HttpMessage
import LibSeal.Auditing.JsmnAccepts
import LibSeal.OwnCloud.Main
import LibSeal.OwnCloud.Operations

/-!
# Synchronisations

A poll of ownCloud whose messages have what `docsPoll` looks for at the places where it looks: the
command and the result are the first members, the session and the member the first two arguments,
and behind the first string that is the right key there is an array of operations. What is read of
such a poll is what it says (`pollTokens_of_sync`, `pollTokens_of_command`).

The text of a body is found whether the body is sent in chunks or by its length. In the second case
the parser overwrites the last byte, so that there has to be one behind the text.
-/

namespace LibSeal

open Bytes Json

/-! ### Texts in bodies -/

/-- A body in which a text is found. -/
inductive BodyText : HttpBody → Bytes → Prop where
  | chunked (chunks : List HttpChunk) : BodyText (.chunked chunks) (chunks.flatMap HttpChunk.data)
  | sized (text : Bytes) (last : UInt8) : BodyText (.contentLength (text ++ [last])) text

theorem BodyText.length_le {body : HttpBody} {text : Bytes} (h : BodyText body text) :
    text.length ≤ body.bytes.length := by
  cases h with
  | chunked chunks => exact le_rfl
  | sized text last => exact List.length_append ▸ Nat.le_add_right _ _

/-- What is read of the tokens of an object, whatever follows it. -/
theorem map_view_objectToks {js t : Bytes} {p : ℕ} (members : JsonMembers)
    (h : js.drop p = (Json.object members).text ++ t) :
    (valueToks p (.object members)).map (JsmnTok.view js) = valueViews (.object members) := by
  have hclose : Delimits ('\x7d'.toUInt8 :: t) := delimits_cons rfl
  have hdrop : js.drop p = ['\x7b'.toUInt8] ++ (textOf members.lexemes ++ '\x7d'.toUInt8 :: t) := by
    rw [h, Json.text, Json.lexemes]
    simp [Lexeme.text]
  have hmembers := map_view_memberToks hclose members (drop_length_of_drop hdrop (n := 1) rfl)
  rw [valueToks, List.map_cons, valueViews, view_container (.inl rfl), hmembers]

/-- An object that is followed by a NUL is read like one by itself. -/
theorem jsonReadTokens_append_zero (junk : ℕ → JsmnTok) (before after : List White) (v : Json)
    (t : Bytes) :
    jsonGetNrTokens (documentText before v after ++ 0 :: t) =
        jsonGetNrTokens (documentText before v after) ∧
      jsonReadTokens junk (documentText before v after ++ 0 :: t)
          (jsonGetNrTokens (documentText before v after ++ 0 :: t)) =
        valueToks before.length v := by
  have hzero : 0 ∉ documentText before v after := zero_notMem_textOf _
  have hcount : jsonGetNrTokens (documentText before v after ++ 0 :: t) =
      jsonGetNrTokens (documentText before v after) := by
    rw [jsonGetNrTokens, jsmnParse_append_zero hzero (by rw [jsmnParse_none_text]; omega)]
    rfl
  have hread : jsmnParse (some (valueToks before.length v).length)
      (documentText before v after ++ 0 :: t) =
        (((valueToks before.length v).length : ℤ), valueToks before.length v) := by
    rw [jsmnParse_append_zero hzero (by rw [jsmnParse_some_text _ _ _ le_rfl]; omega),
      jsmnParse_some_text _ _ _ le_rfl]
  refine ⟨hcount, ?_⟩
  rw [hcount, jsonReadTokens, jsonGetNrTokens_text, Int.toNat_natCast, hread,
    List.drop_eq_nil_of_le (by simp), List.append_nil]

/-- Payloads have lengths that are not negative. -/
theorem payloadTokens_natCast {junk : ℕ → JsmnTok} {block s : Bytes} {n : ℕ} (h : block.take n = s)
    (hcount : ¬ jsonGetNrTokens s < 0) :
    payloadTokens junk block n = .ok (jsonReadTokens junk s (jsonGetNrTokens s)) := by
  have hn : ¬ (n : ℤ) < 0 := by omega
  rw [payloadTokens, if_neg hn, Int.toNat_natCast, h]
  exact if_neg hcount

/-- **The object in a body is read**: its tokens are those of the object, and say what it says. -/
theorem exists_payloadTokens (junk : ℕ → JsmnTok) (stored : ℕ → UInt8) {body : HttpBody}
    {before after : List White} {members : JsonMembers}
    (h : BodyText body (documentText before (.object members) after)) :
    ∃ block tokens, body.block stored = some block ∧
      payloadTokens junk block body.bytes.length = .ok tokens ∧
        tokens.map (JsmnTok.view block) = valueViews (.object members) := by
  set text := documentText before (.object members) after with htext
  have hdrop : ∀ t, (text ++ t).drop before.length =
      (Json.object members).text ++ (textOf (after.map Lexeme.white) ++ t) := by
    intro t
    rw [htext, documentText, textOf_append, textOf_append, List.append_assoc,
      List.drop_left' (length_textOf_white before), List.append_assoc, Json.text]
  have hcount : ¬ jsonGetNrTokens text < 0 := by
    rw [htext, jsonGetNrTokens_text]
    omega
  generalize htext' : text = s at h
  cases h with
  | chunked chunks =>
    refine ⟨text, valueToks before.length (.object members), by rw [htext']; rfl, ?_, ?_⟩
    · rw [show (HttpBody.chunked chunks).bytes = text from htext'.symm,
        payloadTokens_natCast List.take_length hcount, htext, jsonReadTokens_text]
    · rw [← List.append_nil text]
      exact map_view_objectToks members (hdrop [])
  | sized _ last =>
    subst htext'
    -- the last byte has become the NUL behind the text, and the length counts it
    have hblock : (text ++ [last]).dropLast ++ [0, stored (text ++ [last]).length] =
        text ++ 0 :: [stored (text ++ [last]).length] := by
      rw [List.dropLast_concat]
    have htake : (text ++ 0 :: [stored (text ++ [last]).length]).take (text ++ [last]).length =
        text ++ [0] := by
      rw [List.length_append, List.take_length_add_append]
      rfl
    obtain ⟨hsame, hread⟩ := jsonReadTokens_append_zero junk before after (.object members) []
    refine ⟨_, valueToks before.length (.object members), congrArg some hblock, ?_,
      map_view_objectToks members (hdrop _)⟩
    rw [show (HttpBody.contentLength (text ++ [last])).bytes = text ++ [last] from rfl,
      payloadTokens_natCast htake (hsame ▸ hcount), hread]

/-! ### Operations behind a key -/

section Reading

variable {tokens : List JsmnTok} {js : Bytes}

/-- The search stops at the first string that is the key. -/
theorem keyIn_of_views {key : Bytes} {front R : List JsonView} {x : JsonView}
    (h : tokens.map (JsmnTok.view js) = front ++ x :: R) (hfront : ∀ y ∈ front, y.string ≠ key)
    (hx : x.string = key) : keyIn js key tokens = .ok (front.length + 1) := by
  induction front generalizing tokens with
  | nil =>
    obtain ⟨tok, rest, rfl, rfl, -⟩ := List.map_eq_cons_iff.1 h
    exact if_neg (not_not.2 hx)
  | cons y front ih =>
    obtain ⟨tok, rest, rfl, rfl, hrest⟩ := List.map_eq_cons_iff.1 h
    obtain ⟨hne, hfront⟩ := List.forall_mem_cons.1 hfront
    have hother : jsonGetString tok js ≠ key := hne
    rw [keyIn, if_pos hother, ih hrest hfront]
    rfl

/-- The array of operations at a place is logged by what it says. -/
theorem exists_updateDoc {p : ℕ} {items : JsonItems} {ops : List (Option Operation)}
    {R : List JsonView}
    (h : (tokens.map (JsmnTok.view js)).drop p = valueViews (.array items) ++ R)
    (helements : Elements items.toList ops) :
    ∃ pos, updateDoc tokens p js = .ok (ops.flatMap updateText, pos) := by
  have hdrop : (tokens.map (JsmnTok.view js)).drop p =
      [.container .array items.toList.length] ++ (itemViews items ++ R) := h
  have hhead := congrArg List.head? hdrop
  rw [List.head?_drop] at hhead
  obtain ⟨tok, htok, hview⟩ := tokenAt_of_views hhead
  have hsize : tok.size = items.toList.length := congrArg JsonView.size hview
  obtain ⟨pos, hrounds⟩ :=
    updateDocRounds_of_views items ops helements p _ (List.isChain_singleton _) hdrop
  refine ⟨pos, ?_⟩
  rw [updateDoc, htok, CFault.ok_bind, hsize, Int.toNat_natCast, hrounds]

/-- Behind the first string that is the key there is an array of operations. -/
structure HasOperations (views : List JsonView) (key : Bytes) where
  front : List JsonView
  name : JsonView
  items : JsonItems
  rest : List JsonView
  elements : List (Option Operation)
  views_eq : views = front ++ name :: (valueViews (.array items) ++ rest)
  string_ne : ∀ x ∈ front, x.string ≠ key
  string_eq : name.string = key
  isElements : Elements items.toList elements

/-- The operations of a supported type. -/
def HasOperations.operations {views : List JsonView} {key : Bytes} (h : HasOperations views key) :
    List Operation := h.elements.filterMap id

/-- What is logged of the operations. -/
def HasOperations.update {views : List JsonView} {key : Bytes} (h : HasOperations views key) :
    Bytes := h.operations.flatMap Operation.command

theorem flatMap_updateText (ops : List (Option Operation)) :
    ops.flatMap updateText = (ops.filterMap id).flatMap Operation.command := by
  induction ops with
  | nil => rfl
  | cons op ops ih => cases op <;> simp [updateText, ih]

/-- **The operations behind a key are found**, and logged by what they say. -/
theorem updateBehind_of_views (event : Event) {views : List JsonView}
    (htokens : tokens.map (JsmnTok.view js) = views) {key : Bytes} {p : ℕ}
    (h : HasOperations (views.drop p) key) :
    updateBehind key event tokens p js =
      .ok (event.add ⟨.owncloud, owncloudUpdate, .string h.update⟩) := by
  subst htokens
  obtain ⟨front, name, items, rest, elements, hviews, hne, heq, helements⟩ := h
  have hfound : keyIn js key (tokens.drop p) = .ok (front.length + 1) :=
    keyIn_of_views (by rw [List.map_drop, hviews]) hne heq
  have hbehind : (tokens.map (JsmnTok.view js)).drop (p + (front.length + 1)) =
      valueViews (.array items) ++ rest := by
    rw [← List.drop_drop, hviews, ← List.drop_drop, List.drop_left]
    rfl
  obtain ⟨pos, hupdate⟩ := exists_updateDoc hbehind helements
  rw [updateBehind, Int.toNat_natCast, hfound, CFault.ok_bind, ← Int.natCast_add, hupdate,
    CFault.ok_bind, flatMap_updateText]
  rfl

end Reading

/-! ### Messages -/

/-- The first member has a name, and a text for its value. -/
def FirstMember (members : JsonMembers) (name text : Bytes) (further : Fields) : Prop :=
  ∃ key value, members.toList = (key, value) :: further ∧ stringText key = name ∧
    TextValue value text

theorem FirstMember.exists_views {members : JsonMembers} {name text : Bytes} {further : Fields}
    (h : FirstMember members name text further) : ∃ k x : JsonView,
      valueViews (.object members) =
        .container .object members.toList.length :: k :: x :: fieldViews further ∧
      k.string = name ∧ x.string = text := by
  obtain ⟨key, value, hmembers, rfl, hvalue⟩ := h
  obtain ⟨x, hx, hstring⟩ := hvalue.exists_view
  refine ⟨.chars 1 key, x, ?_, rfl, hstring⟩
  rw [valueViews, memberViews_eq_fieldViews, hmembers, fieldViews, List.flatMap_cons, hx]
  rfl

/-- Bodies of four bytes or less are taken for none. -/
theorem length_documentText_gt (before after : List White) {members : JsonMembers}
    {name text : Bytes} {further : Fields} (h : FirstMember members name text further)
    (hname : 2 ≤ name.length) : 4 < (documentText before (.object members) after).length := by
  obtain ⟨key, value, hmembers, rfl, -⟩ := h
  cases members with
  | nil => cases hmembers
  | cons gap k colon₁ colon₂ v gap' rest =>
    obtain ⟨hfield, -⟩ := List.cons.inj hmembers
    cases hfield
    simp only [documentText, Json.lexemes, JsonMembers.lexemes, textOf_append, textOf_cons,
      Lexeme.text, List.length_append, List.length_cons]
    omega

/-- A message with an object in its body. -/
structure ObjectMessage where
  message : HttpMessage
  before : List White
  members : JsonMembers
  after : List White
  body : BodyText message.body (documentText before (.object members) after)

/-- What is read of the object. -/
def ObjectMessage.views (m : ObjectMessage) : List JsonView := valueViews (.object m.members)

/-- **The object of a message is read.** -/
theorem ObjectMessage.exists_tokens (m : ObjectMessage) {stored : ℕ → UInt8} {n : Bytes} {e : Event}
    (h : m.message.ParsedTo stored n e) {name text : Bytes} {further : Fields}
    (hfirst : FirstMember m.members name text further) (hname : 2 ≤ name.length)
    (junk : ℕ → JsmnTok) : ∃ block length tokens,
      getHttpPayloadLength e = .ok (some (block, length)) ∧
        payloadTokens junk block length = .ok tokens ∧
          tokens.map (JsmnTok.view block) = m.views := by
  obtain ⟨block, tokens, hblock, htokens, hviews⟩ :=
    exists_payloadTokens junk stored m.body
  have hlong := length_documentText_gt m.before m.after hfirst hname
  have hlength : ¬ (0 ≤ (m.message.body.bytes.length : ℤ) ∧
      (m.message.body.bytes.length : ℤ) ≤ 4) := by
    have hbytes := m.body.length_le
    omega
  refine ⟨block, m.message.body.bytes.length, tokens, ?_, htokens, hviews⟩
  have hpayload := h.payload
  rw [hblock, Option.map_some] at hpayload
  rw [getHttpPayloadLength, getHttpPayload, hpayload]
  simp only [Param.getValueBytesLength, Param.getValueBytes, CFault.ok_bind, if_neg hlength]
  rfl

/-! ### Requests and replies -/

/-- A request with a command. -/
structure CommandRequest extends ObjectMessage where
  command : Bytes
  further : Fields
  first : FirstMember members owncloudCommand command further

/-- A request for a synchronisation. The session and the member are its first two arguments. -/
structure SyncRequest extends ObjectMessage where
  esid : Bytes
  member : ℤ
  args : JsonMembers
  argsKey : List StringChar
  memberKey : List StringChar
  memberValue : Json
  more : Fields
  rest : Fields
  first : FirstMember members owncloudCommand owncloudSyncops ((argsKey, .object args) :: more)
  argsKey_eq : stringText argsKey = owncloudArgs
  session : FirstMember args owncloudEsid esid ((memberKey, memberValue) :: rest)
  memberKey_eq : stringText memberKey = owncloudMemberId
  memberValue_eq : TextValue memberValue (toStr member)
  /-- A larger number would be stored as a floating-point number. -/
  member_fits : SqlText.FitsInt64 member

/-- A reply with a result. -/
structure ResultReply extends ObjectMessage where
  result : Bytes
  further : Fields
  first : FirstMember members owncloudResult result further

/-- Nine tokens are read of it at fixed places. -/
theorem SyncRequest.exists_views (req : SyncRequest) :
    ∃ (n : ℕ) (k₁ x₁ k₂ k₃ x₃ k₄ x₄ : JsonView) (R : List JsonView),
      req.views = .container .object req.members.toList.length :: k₁ :: x₁ :: k₂ ::
        .container .object n :: k₃ :: x₃ :: k₄ :: x₄ :: R ∧
      (k₁.string = owncloudCommand ∧ x₁.string = owncloudSyncops) ∧ k₂.string = owncloudArgs ∧
      (k₃.string = owncloudEsid ∧ x₃.string = req.esid) ∧
      k₄.string = owncloudMemberId ∧ x₄.string = toStr req.member := by
  obtain ⟨k₁, x₁, hviews, hfirst⟩ := req.first.exists_views
  obtain ⟨k₃, x₃, hargs, hsession⟩ := req.session.exists_views
  obtain ⟨x₄, hx₄, hmember⟩ := req.memberValue_eq.exists_view
  refine ⟨req.args.toList.length, k₁, x₁, .chars 1 req.argsKey, k₃, x₃, .chars 1 req.memberKey, x₄,
    fieldViews req.rest ++ fieldViews req.more, ?_, hfirst, req.argsKey_eq, hsession,
    req.memberKey_eq, hmember⟩
  rw [ObjectMessage.views, hviews]
  simp only [fieldViews, List.flatMap_cons, hx₄] at hargs ⊢
  rw [hargs]
  simp

/-! ### Reading a poll -/

/-- A parameter with a text. -/
def Event.addText (e : Event) (name text : Bytes) : Event :=
  e.add ⟨.owncloud, name, .string text⟩

theorem owncloudValueString_addText (e : Event) (name text name' : Bytes) :
    owncloudValueString (e.addText name text) name' =
      if name = name' then .ok text else owncloudValueString e name' := by
  rw [owncloudValueString, Event.addText, Event.getParam_add]
  by_cases hname : name = name'
  · rw [if_pos ⟨rfl, hname⟩, if_pos hname]
    rfl
  · rw [if_neg fun h ↦ hname h.2, if_neg hname]
    rfl

section Reading

variable {tokens : List JsmnTok} {js : Bytes}

/-- A field is read if it has the name. -/
theorem owncloudReadField_of_views (event : Event) {p : ℕ} {pos : ℤ} {k x : JsonView}
    {R : List JsonView} (h : (tokens.map (JsmnTok.view js)).drop p = k :: x :: R) (hpos : pos = p) :
    owncloudReadField event k.string tokens pos js =
      .ok (event.addText k.string x.string, x.string) := by
  have hname : stringTokenAt tokens pos js = .ok k.string :=
    stringTokenAt_of_views (i := 0) (by rw [h]; rfl) (by omega)
  have hvalue : stringTokenAt tokens (pos + 1) js = .ok x.string :=
    stringTokenAt_of_views (i := 1) (by rw [h]; rfl) (by omega)
  rw [owncloudReadField, hname, CFault.ok_bind, if_neg (not_not.2 rfl), hvalue]
  rfl

/-- The event of a request when its arguments have been read. -/
def withArgs (e : Event) (esid member : Bytes) : Event :=
  (((e.addText owncloudEsid esid).addText owncloudEsid esid).addText owncloudMemberId
    member).addText owncloudMemberid member

/-- The arguments are read. -/
theorem readArgs_of_views (request : Event) {n : ℕ} {k₂ k₃ x₃ k₄ x₄ : JsonView} {R : List JsonView}
    (h : (tokens.map (JsmnTok.view js)).drop 3 =
      k₂ :: .container .object n :: k₃ :: x₃ :: k₄ :: x₄ :: R)
    (hargs : k₂.string = owncloudArgs) (hesid : k₃.string = owncloudEsid)
    (hmember : k₄.string = owncloudMemberId) :
    readArgs request tokens js = .ok (withArgs request x₃.string x₄.string, 9) := by
  have hname : stringTokenAt tokens 3 js = .ok owncloudArgs := by
    rw [← hargs]
    exact stringTokenAt_of_views (p := 3) (i := 0) (by rw [h]; rfl) rfl
  have hobject : (tokens.map (JsmnTok.view js))[4]? = some (.container .object n) := by
    have hdrop := congrArg (fun l ↦ l[1]?) h
    rwa [List.getElem?_drop] at hdrop
  obtain ⟨tok, htok, hview⟩ := tokenAt_of_views hobject
  have htype : tok.type = .object := congrArg JsonView.type hview
  -- the first argument is read from the token 5 on, the second from the token 7 on
  have hfields : (tokens.map (JsmnTok.view js)).drop 5 = k₃ :: x₃ :: k₄ :: x₄ :: R := by
    have hdrop := congrArg (List.drop 2) h
    rwa [List.drop_drop] at hdrop
  have hrest : (tokens.map (JsmnTok.view js)).drop 7 = k₄ :: x₄ :: R := by
    have hdrop := congrArg (List.drop 2) hfields
    rwa [List.drop_drop] at hdrop
  have hread := owncloudReadField_of_views request hfields
    (show (5 : ℤ) = (5 : ℕ) from rfl)
  have hread' := owncloudReadField_of_views ((request.addText owncloudEsid x₃.string).addText
    owncloudEsid x₃.string) hrest (show (7 : ℤ) = (7 : ℕ) from rfl)
  rw [hesid] at hread
  rw [hmember] at hread'
  rw [readArgs, hname, CFault.ok_bind, if_neg (not_not.2 rfl), show (4 : ℤ) = (4 : ℕ) from rfl,
    htok, CFault.ok_bind, if_neg (not_not.2 htype), hread, CFault.ok_bind]
  show (owncloudReadField ((request.addText owncloudEsid x₃.string).addText owncloudEsid x₃.string)
    owncloudMemberId tokens 7 js >>= _) = _
  rw [hread']
  rfl

/-- The first member is read, and what it is in is an object. -/
theorem firstField_of_views (event : Event) {m : ObjectMessage}
    (h : tokens.map (JsmnTok.view js) = m.views) {name text : Bytes} {further : Fields}
    (hfirst : FirstMember m.members name text further) :
    tokens.head?.map JsmnTok.type = some .object ∧
      owncloudReadField event name tokens 1 js = .ok (event.addText name text, text) := by
  obtain ⟨k, x, hviews, rfl, rfl⟩ := hfirst.exists_views
  rw [ObjectMessage.views, hviews] at h
  obtain ⟨tok, rest, rfl, hobject, -⟩ := List.map_eq_cons_iff.1 h
  exact ⟨congrArg some (congrArg JsonView.type hobject),
    owncloudReadField_of_views event (p := 1) (congrArg (List.drop 1) h) rfl⟩

/-- The event of a request when its command has been read. -/
def withCommand (e : Event) (command : Bytes) : Event :=
  (e.addText owncloudCommand command).addText owncloudCommand command

/-- The event of a reply when its result has been read. -/
def withResult (e : Event) (result : Bytes) : Event :=
  (e.addText owncloudResult result).addText owncloudResult result

variable {reqTokens rspTokens : List JsmnTok} {reqPayload rspPayload : Bytes}

/-- Of another command nothing else is read. -/
theorem pollTokens_of_command (request response : Event) {req : CommandRequest} {rsp : ResultReply}
    (hreq : reqTokens.map (JsmnTok.view reqPayload) = req.views)
    (hrsp : rspTokens.map (JsmnTok.view rspPayload) = rsp.views)
    (hcommand : req.command ≠ owncloudSyncops) :
    pollTokens request response reqTokens rspTokens reqPayload rspPayload =
      .ok (withCommand request req.command, withResult response rsp.result) := by
  obtain ⟨hreqObject, hreadReq⟩ := firstField_of_views request hreq req.first
  obtain ⟨hrspObject, hreadRsp⟩ := firstField_of_views response hrsp rsp.first
  rw [pollTokens, if_neg (not_or.2 ⟨not_not.2 hreqObject, not_not.2 hrspObject⟩), hreadReq,
    CFault.ok_bind]
  dsimp only
  rw [hreadRsp, CFault.ok_bind]
  dsimp only
  rw [if_pos hcommand]
  rfl

/-- **The reading of a synchronisation**, up to the operations. -/
theorem pollTokens_of_sync (request response : Event) {req : SyncRequest} {rsp : ResultReply}
    (hreq : reqTokens.map (JsmnTok.view reqPayload) = req.views)
    (hrsp : rspTokens.map (JsmnTok.view rspPayload) = rsp.views) :
    pollTokens request response reqTokens rspTokens reqPayload rspPayload =
      let request := withArgs (withCommand request owncloudSyncops) req.esid (toStr req.member)
      let response := withResult response rsp.result
      if rsp.result = owncloudAdded then do
        let request ← updateBehind owncloudClientOps request reqTokens (9 : ℕ) reqPayload
        return (request, response)
      else if rsp.result = owncloudNewops ∨ rsp.result = owncloudConflict then do
        let response ← updateBehind owncloudOps response rspTokens (3 : ℕ) rspPayload
        return (request, response)
      else .ok (request, response) := by
  obtain ⟨hreqObject, hreadReq⟩ := firstField_of_views request hreq req.first
  obtain ⟨hrspObject, hreadRsp⟩ := firstField_of_views response hrsp rsp.first
  obtain ⟨n, k₁, x₁, k₂, k₃, x₃, k₄, x₄, R, hviews, -, hargs, ⟨hesid, hesidText⟩, hmember,
    hmemberText⟩ := req.exists_views
  have hfields : (reqTokens.map (JsmnTok.view reqPayload)).drop 3 =
      k₂ :: .container .object n :: k₃ :: x₃ :: k₄ :: x₄ :: R := by
    rw [hreq, hviews]
    rfl
  have hread := readArgs_of_views (withCommand request owncloudSyncops) hfields hargs hesid hmember
  rw [hesidText, hmemberText] at hread
  rw [pollTokens, if_neg (not_or.2 ⟨not_not.2 hreqObject, not_not.2 hrspObject⟩), hreadReq,
    CFault.ok_bind]
  dsimp only
  rw [hreadRsp, CFault.ok_bind]
  dsimp only
  rw [if_neg (not_not.2 rfl)]
  show (readArgs (withCommand request owncloudSyncops) reqTokens reqPayload >>= _) = _
  rw [hread, CFault.ok_bind]
  rfl

end Reading

end LibSeal
