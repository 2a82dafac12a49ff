import LibSeal.Auditing.HttpBody

/-!
# The two framings of a body

A body is sent in chunks or by its length.

* **In chunks** it is decoded exactly (`readHttpMessage_chunked`), for any number of headers, with
  names that may even begin like the framing header's, and chunks of any sizes, in hexadecimal
  digits of either case and with leading zeros.
* **By its length** it is not: the last byte of what has been copied is overwritten by a terminator,
  though the block has one more byte for it. And a body of `2 ^ 31 - 1` bytes, for which that one
  more byte is one too many, is not read at all.

So the two framings store the same bytes only for bodies that end with a NUL byte and are shorter
than that (`storesPayload_both_iff`).
-/

namespace LibSeal

open Bytes

/-! ### Headers -/

/-- A header of a message with a chunked body. Its name is none of the parser's own, and does not
begin with that of the header for the length. -/
structure HttpHeader where
  name : Bytes
  value : Bytes
  name_ne_nil : name ≠ []
  value_ne_nil : value ≠ []
  notMem_name : ':'.toUInt8 ∉ name ∧ 13 ∉ name ∧ 10 ∉ name
  notMem_value : 13 ∉ value ∧ 10 ∉ value
  not_own : name ∉ [httpHeaderPayload, httpHeaderRequest, httpHeaderResponse]
  not_contentLength : ¬ httpHeaderContentLength <+: name

namespace HttpHeader

variable (h : HttpHeader)

/-- The line of the header, without the newline. -/
def line : Bytes := h.name ++ ascii ": " ++ h.value ++ [13]

theorem line_eq : h.line = h.name ++ ':'.toUInt8 :: 32 :: (h.value ++ [13]) := by
  rw [line, show ascii ": " = [':'.toUInt8, 32] by decide]
  simp

theorem newline_notMem_line : 10 ∉ h.line := by
  rw [h.line_eq]
  simp [h.notMem_name.2.2, h.notMem_value.2]
  decide

theorem isEmptyline_line : isEmptyline h.line = false := by
  rw [h.line_eq]
  exact isEmptyline_of_colon h.name_ne_nil (List.cons_ne_nil _ _)

theorem lineOk_line : LineOk h.line := by
  rw [h.line_eq]
  exact lineOk_of_colon h.notMem_name.1 (List.cons_ne_nil _ _)

theorem lineEntry_line : lineEntry h.line = some (h.name, h.value) := by
  rw [h.line_eq, lineEntry_of_colon h.notMem_name.1, List.drop_succ_cons, List.drop_zero,
    List.dropLast_concat]

/-- The header for a body in chunks says so. -/
theorem isChunkedAfter_line {isChunked : Bool} (hname : h.name = httpHeaderTransferEncoding)
    (hvalue : h.value = ascii "chunked") : isChunkedAfter isChunked h.line = true := by
  rw [isChunkedAfter, h.line_eq, hname, hvalue, Bool.or_eq_true]
  exact Or.inr (by decide +kernel)

end HttpHeader

/-- Whatever lines follow, a chunked body stays chunked. -/
theorem foldl_isChunkedAfter (lines : List Bytes) : lines.foldl isChunkedAfter true = true := by
  induction lines with
  | nil => rfl
  | cons line lines ih => exact ih

/-! ### Chunked messages -/

/-- A chunk, with its size in hexadecimal digits. -/
structure SizedChunk where
  digits : Bytes
  data : Bytes
  isHex_digits : ∀ b ∈ digits, isHex b = true
  length_digits : 1 ≤ digits.length ∧ digits.length ≤ 8
  hexNumber_digits : hexNumber digits = data.length
  data_ne_nil : data ≠ []

/-- The chunk, as the parser reads its size. -/
def SizedChunk.toHttpChunk (c : SizedChunk) : HttpChunk where
  digits := c.digits
  data := c.data
  isHex_digits := c.isHex_digits
  length_digits := c.length_digits.2
  hexToInt_digits := by rw [hexToInt_eq c.isHex_digits c.length_digits.2, c.hexNumber_digits]
  data_ne_nil := c.data_ne_nil

def SizedChunk.text (c : SizedChunk) : Bytes := c.digits ++ crlf ++ c.data ++ crlf

/-- A message with a chunked body. -/
structure ChunkedMessage where
  startLine : Bytes
  headers : List HttpHeader
  chunks : List SizedChunk
  isSupported : IsSupported (startLine ++ [13])
  newline_notMem : 10 ∉ startLine
  nodup : (headers.map HttpHeader.name).Nodup
  chunked : ∃ h ∈ headers, h.name = httpHeaderTransferEncoding ∧ h.value = ascii "chunked"
  chunks_ne_nil : chunks ≠ []
  length_lt : (chunks.flatMap SizedChunk.data).length < 2147483648

namespace ChunkedMessage

variable (m : ChunkedMessage)

/-- The bytes that are meant. -/
def body : Bytes := m.chunks.flatMap SizedChunk.data

/-- The message as it is sent. -/
def text : Bytes :=
  m.startLine ++ crlf ++ m.headers.flatMap (fun h ↦ h.line ++ [10]) ++ crlf ++
    (m.chunks.flatMap SizedChunk.text ++ (ascii "0" ++ crlf ++ crlf))

end ChunkedMessage

namespace ChunkedMessage

variable (m : ChunkedMessage)

/-- The lines of the head. -/
theorem headLines : HeadLines (m.startLine ++ [13]) (m.headers.map HttpHeader.line) where
  newline_notMem := by
    rw [List.forall_mem_cons, List.forall_mem_map]
    exact ⟨by simp [m.newline_notMem], fun h _ ↦ h.newline_notMem_line⟩
  isEmptyline := by
    rw [List.forall_mem_cons, List.forall_mem_map]
    exact ⟨(isEmptyline_of_firstLineName (firstLineName_of_isSupported m.isSupported)).1,
      fun h _ ↦ h.isEmptyline_line⟩

theorem text_eq : m.text = headText (m.startLine ++ [13]) (m.headers.map HttpHeader.line) ++
    (crlf ++ (m.chunks.flatMap SizedChunk.text ++ (ascii "0" ++ crlf ++ crlf))) := by
  rw [text, headText, List.flatMap_map]
  simp [crlf]

theorem firstLine_text : firstLine m.text = m.startLine ++ [13] := by
  rw [text_eq, m.headLines.firstLine_text]

theorem headerLines_text : headerLines m.text = m.headers.map HttpHeader.line := by
  rw [text_eq, m.headLines.headerLines_text]

theorem headOk_text : HeadOk m.text := by
  rw [text_eq, m.headLines.headOk_text, List.forall_mem_map]
  exact fun h _ ↦ h.lineOk_line

theorem headerEntries_text : headerEntries m.text = m.headers.map fun h ↦ (h.name, h.value) := by
  have hentry : lineEntry ∘ HttpHeader.line = some ∘ fun h ↦ (h.name, h.value) :=
    funext fun h ↦ h.lineEntry_line
  rw [headerEntries, headerLines_text, List.filterMap_map, hentry, List.filterMap_eq_map]

theorem announcesChunks_text : announcesChunks m.text = true := by
  obtain ⟨h, hmem, hname, hvalue⟩ := m.chunked
  obtain ⟨before, after, hheaders⟩ := List.append_of_mem hmem
  rw [announcesChunks, headerLines_text, hheaders, List.map_append, List.map_cons,
    List.foldl_append, List.foldl_cons, h.isChunkedAfter_line hname hvalue]
  exact foldl_isChunkedAfter _

/-- The value of a header is that of the parameter with its name. -/
theorem lastValue_text {h : HttpHeader} (hmem : h ∈ m.headers) :
    lastValue (headerEntries m.text) h.name = some h.value := by
  have hnodup : ((headerEntries m.text).map Prod.fst).Nodup := by
    rw [headerEntries_text, List.map_map]
    exact m.nodup
  have hentry : (h.name, h.value) ∈ headerEntries m.text := by
    rw [headerEntries_text]
    exact List.mem_map_of_mem hmem
  exact lastValue_of_mem hnodup hentry

/-- No header has the name of a parameter of the parser. -/
theorem lastValue_text_of_own {name : Bytes}
    (hown : name ∈ [httpHeaderPayload, httpHeaderRequest, httpHeaderResponse]) :
    lastValue (headerEntries m.text) name = none := by
  rw [lastValue_eq_none_iff, headerEntries_text, List.map_map, List.mem_map]
  rintro ⟨h, -, rfl⟩
  exact h.not_own hown

/-- **The chunks are decoded.** -/
theorem readPayload_text (junk : ℕ → UInt8) (kind : Bytes) :
    readPayload junk m.text (headState kind m.text) = .ok (some m.body, m.body.length) := by
  set chunks := m.chunks.map SizedChunk.toHttpChunk with hchunks
  have hdata : chunks.flatMap HttpChunk.data = m.body := List.flatMap_map ..
  have htext : chunks.flatMap HttpChunk.text = m.chunks.flatMap SizedChunk.text :=
    List.flatMap_map ..
  have hdrop : m.text.drop (headLength m.text + 2) =
      chunks.flatMap HttpChunk.text ++ (ascii "0" ++ crlf ++ crlf) := by
    rw [text_eq, m.headLines.drop_headLength_text, htext]
  have hne : chunks ≠ [] := fun h ↦ m.chunks_ne_nil (List.map_eq_nil_iff.1 h)
  have hread := chunkedBody_text junk hne (by rw [hdata]; exact m.length_lt)
  rw [readPayload, isChunked_headState, announcesChunks_text, pos_headState, if_pos rfl,
    readHttpChunkedMessage_eq, hdrop, hread, hdata]

theorem body_ne_nil : m.body ≠ [] := by
  obtain ⟨c, chunks, hchunks⟩ := List.exists_cons_of_ne_nil m.chunks_ne_nil
  rw [body, hchunks, List.flatMap_cons]
  exact List.append_ne_nil_of_left_ne_nil c.data_ne_nil _

/-- **A message with a chunked body is decoded exactly**: its first line is stored under the name of
its kind, every header's value under the header's name, and the body as the payload. -/
theorem readHttpMessage_chunked (junk : ℕ → UInt8) : ∃ e b,
    readHttpMessage junk m.text = .ok (e, b) ∧
      e.getParam .http (kindName (m.startLine ++ [13])) =
        some ⟨.http, kindName (m.startLine ++ [13]), .string m.startLine⟩ ∧
      (∀ h ∈ m.headers, e.getParam .http h.name = some ⟨.http, h.name, .string h.value⟩) ∧
      e.getParam .http httpHeaderPayload =
        some ⟨.http, httpHeaderPayload, .bytes m.body m.body.length⟩ := by
  set kind := kindName (m.startLine ++ [13]) with hkind
  have hline := m.firstLine_text
  have hbody := m.readPayload_text junk kind
  obtain ⟨b, hread⟩ := readHttpMessage_of_readPayload junk
    (by rw [hline]; exact m.isSupported) m.headOk_text (by rw [hline]; exact hbody)
  rw [hline, ← hkind] at hread
  have hpos := List.length_pos_of_ne_nil m.body_ne_nil
  -- the name of the kind, and those of the headers, are not overwritten
  have hown : kind ∈ [httpHeaderPayload, httpHeaderRequest, httpHeaderResponse] := by
    rcases kindName_eq_or (m.startLine ++ [13]) with h | h
    · simp [hkind, h]
    · simp [hkind, h]
  have hne : httpHeaderContentLength ≠ kind ∧ httpHeaderPayload ≠ kind := by
    rcases kindName_eq_or (m.startLine ++ [13]) with h | h
    · rw [hkind, h]
      decide
    · rw [hkind, h]
      decide
  refine ⟨_, b, hread, ?_, ?_, ?_⟩
  · rw [getParam_finalEvent_of_ne _ _ hne.1 hne.2, getParam_headState,
      m.lastValue_text_of_own hown, if_pos rfl, hline, List.dropLast_concat]
    rfl
  · intro h hmem
    have hcl : httpHeaderContentLength ≠ h.name := fun heq ↦
      h.not_contentLength (heq ▸ List.prefix_rfl)
    have hpl : httpHeaderPayload ≠ h.name := fun heq ↦ h.not_own (by simp [← heq])
    rw [getParam_finalEvent_of_ne _ _ hcl hpl, getParam_headState, m.lastValue_text hmem]
    rfl
  · rw [getParam_finalEvent_payload (paramCnt_headState_pos _ _), if_pos (by simpa using hpos)]
    rfl

end ChunkedMessage

/-- The header that a message with a chunked body must have. -/
def chunkedHeader : HttpHeader where
  name := httpHeaderTransferEncoding
  value := ascii "chunked"
  name_ne_nil := by decide
  value_ne_nil := by decide
  notMem_name := by decide
  notMem_value := by decide
  not_own := chunkedField.not_own
  not_contentLength := by decide

/-- A body of one chunk, whose size has a leading zero. -/
def hiMessage : ChunkedMessage :=
  ⟨ascii "POST / HTTP/1.1", [chunkedHeader],
    [⟨ascii "02", ascii "hi", by decide +kernel, by decide, by decide +kernel, by decide⟩],
    by decide +kernel, by decide +kernel, by decide +kernel,
    ⟨chunkedHeader, List.mem_singleton_self _, rfl, rfl⟩, List.cons_ne_nil _ _, by decide +kernel⟩

/-- It is decoded. -/
theorem readHttpMessage_hi : ∃ e b,
    readHttpMessage (fun _ ↦ 0)
        (ascii "POST / HTTP/1.1\r\nTransfer-Encoding: chunked\r\n\r\n02\r\nhi\r\n0\r\n\r\n") =
      .ok (e, b) ∧
    e.getParam .http httpHeaderPayload =
      some ⟨.http, httpHeaderPayload, .bytes (ascii "hi") 2⟩ := by
  have htext : hiMessage.text =
      ascii "POST / HTTP/1.1\r\nTransfer-Encoding: chunked\r\n\r\n02\r\nhi\r\n0\r\n\r\n" := by
    decide +kernel
  have hbody : hiMessage.body = ascii "hi" := by
    decide +kernel
  obtain ⟨e, b, hread, -, -, hpayload⟩ := hiMessage.readHttpMessage_chunked fun _ ↦ 0
  rw [htext] at hread
  rw [hbody] at hpayload
  exact ⟨e, b, hread, hpayload⟩

/-! ### The framings compared -/

/-- The bytes of a byte parameter, as many as its length says, and that length. -/
def payloadOf (e : Event) : Option (Bytes × ℤ) :=
  match (e.getParam .http httpHeaderPayload).map Param.value with
  | some (.bytes block length) => some (block.take length.toNat, length)
  | _ => none

/-- The parser stores the body of a message as it is meant. -/
def StoresBody (junk : ℕ → UInt8) (input body : Bytes) : Prop :=
  ∃ e b, readHttpMessage junk input = .ok (e, b) ∧ payloadOf e = some (body, (body.length : ℤ))

/-- A body that is read is stored. -/
theorem storesBody_iff (junk : ℕ → UInt8) (m : HttpMessage) {name block body : Bytes} {n : ℤ}
    (hname : firstLineName (m.startLine ++ [13]) = .ok name)
    (hread : readPayload junk m.text (m.afterHead name) = .ok (some block, n)) (hn : 0 < n) :
    StoresBody junk m.text body ↔ block.take n.toNat = body ∧ n = body.length := by
  have hcnt := m.paramCnt_afterHead_pos (m.notMem_names_of_firstLineName hname)
  have hpayload := getParam_finalEvent_payload hcnt (some block, n)
  rw [if_pos hn] at hpayload
  obtain ⟨b, hmessage⟩ : ∃ b, readHttpMessage junk m.text =
      .ok (finalEvent (m.afterHead name).event (some block, n), b) := by
    rw [readHttpMessage_eq, m.readHeaders_text hname]
    simp only [bind, Except.bind, hread]
    exact ⟨_, rfl⟩
  have hstored : payloadOf (finalEvent (m.afterHead name).event (some block, n)) =
      some (block.take n.toNat, n) := by
    rw [payloadOf, hpayload]
    rfl
  constructor
  · rintro ⟨e, b', he, hbody⟩
    rw [hmessage] at he
    cases (Prod.mk.inj (Except.ok.inj he)).1
    rw [hstored, Option.some.injEq, Prod.mk.injEq] at hbody
    exact hbody
  · rintro ⟨rfl, hlen⟩
    exact ⟨_, b, hmessage, by rw [hstored, ← hlen]⟩

/-- In chunks, every body is stored. -/
theorem storesBody_chunked (junk : ℕ → UInt8) {m : HttpMessage} {name : Bytes}
    {chunks : List HttpChunk} (hname : firstLineName (m.startLine ++ [13]) = .ok name)
    (hbody : m.body = .chunked chunks)
    (hlen : (chunks.flatMap HttpChunk.data).length < 2147483648) :
    StoresBody junk m.text (chunks.flatMap HttpChunk.data) := by
  have hframed := m.framed
  rw [hbody] at hframed
  have hpos : 0 < (chunks.flatMap HttpChunk.data).length := by
    obtain ⟨c, cs, rfl⟩ := List.exists_cons_of_ne_nil hframed.1
    rw [List.flatMap_cons]
    exact List.length_pos_of_ne_nil (List.append_ne_nil_of_left_ne_nil c.data_ne_nil _)
  rw [storesBody_iff junk m hname (m.readPayload_chunked junk name hbody hlen) (by omega)]
  exact ⟨by rw [Int.toNat_natCast, List.take_length], rfl⟩

/-- **By its length, a body is stored** only if its last byte is the NUL byte that is written over
it, and if the block for it can be had. -/
theorem storesBody_contentLength_iff (junk : ℕ → UInt8) {m : HttpMessage} {name bytes : Bytes}
    (hname : firstLineName (m.startLine ++ [13]) = .ok name) (hbody : m.body = .contentLength bytes)
    (hlen : bytes.length < 2147483648) :
    StoresBody junk m.text bytes ↔ bytes.getLast? = some 0 ∧ bytes.length ≠ 2147483647 := by
  have hread := m.readPayload_contentLength junk name hbody hlen
  have hframed := m.framed
  have hdrop := m.drop_pos_afterHead name
  rw [hbody] at hframed hdrop
  have hne := hframed.1
  have hpos := List.length_pos_of_ne_nil hne
  by_cases hmax : bytes.length = 2147483647
  · have hfault : ¬ ∃ block,
        readHttpBody junk m.text ((m.afterHead name).pos + 2) bytes.length = .ok block := by
      rw [readHttpBody_eq_ok_iff]
      omega
    refine iff_of_false ?_ fun h ↦ h.2 hmax
    rintro ⟨e, b, he, -⟩
    rw [readHttpMessage_eq, m.readHeaders_text hname] at he
    obtain ⟨st, hst, he⟩ := CFault.bind_eq_ok.1 he
    cases Except.ok.inj hst
    obtain ⟨body, hbody', -⟩ := CFault.bind_eq_ok.1 he
    rw [hread] at hbody'
    rcases hblock : readHttpBody junk m.text ((m.afterHead name).pos + 2) bytes.length
      with e | block
    · rw [hblock] at hbody'
      exact absurd hbody' (by simp [Except.map])
    · exact hfault ⟨block, hblock⟩
  · rw [readHttpBody_of_drop junk hne (by omega) hdrop] at hread
    rw [storesBody_iff junk m hname hread (by omega)]
    obtain ⟨init, last, rfl⟩ : ∃ init last, bytes = init ++ [last] :=
      ⟨_, _, (List.dropLast_append_getLast hne).symm⟩
    -- as many bytes as the body has: its own, but for the last
    have htake : ((init ++ [last]).dropLast ++ [0, junk (init ++ [last]).length]).take
        ((init ++ [last]).length : ℤ).toNat = init ++ [0] := by
      rw [List.dropLast_concat, Int.toNat_natCast, List.length_append, List.length_singleton,
        show [(0 : UInt8), junk (init.length + 1)] = [0] ++ [junk (init.length + 1)] from rfl,
        ← List.append_assoc]
      exact List.take_left' (by simp)
    rw [htake, List.getLast?_concat]
    constructor
    · rintro ⟨h, -⟩
      exact ⟨by rw [List.append_cancel_left h |> List.cons.inj |>.1], hmax⟩
    · rintro ⟨h, -⟩
      rw [Option.some.inj h]
      exact ⟨rfl, rfl⟩

/-- **The two framings store the same bytes exactly if** the body ends with a NUL byte, and is
shorter than the longest that an `int` can count. -/
theorem storesBody_both_iff (junk : ℕ → UInt8) {m₁ m₂ : HttpMessage} {name₁ name₂ bytes : Bytes}
    {chunks : List HttpChunk} (hname₁ : firstLineName (m₁.startLine ++ [13]) = .ok name₁)
    (hname₂ : firstLineName (m₂.startLine ++ [13]) = .ok name₂)
    (hbody₁ : m₁.body = .contentLength bytes) (hbody₂ : m₂.body = .chunked chunks)
    (hchunks : chunks.flatMap HttpChunk.data = bytes) (hlen : bytes.length < 2147483648) :
    StoresBody junk m₁.text bytes ∧ StoresBody junk m₂.text bytes ↔
      bytes.getLast? = some 0 ∧ bytes.length ≠ 2147483647 := by
  subst hchunks
  rw [storesBody_contentLength_iff junk hname₁ hbody₁ hlen]
  exact and_iff_left (storesBody_chunked junk hname₂ hbody₂ hlen)

/-- A request with a body of two bytes, by its length. -/
def sentByLength (a b : UInt8) : HttpMessage :=
  plainMessage (ascii "POST / HTTP/1.1") (ascii "text/plain") [a, b] (by decide) (by decide)
    (List.cons_ne_nil _ _)

/-- The same request, with its body in a chunk. -/
def sentInChunks (a b : UInt8) : HttpMessage :=
  chunkedMessage (ascii "POST / HTTP/1.1") (ascii "text/plain")
    [⟨ascii "2", [a, b], by decide +kernel, by decide, rfl, List.cons_ne_nil _ _⟩] (by decide)
    (by decide) (List.cons_ne_nil _ _)

theorem firstLineName_sentByLength (a b : UInt8) :
    firstLineName ((sentByLength a b).startLine ++ [13]) = .ok httpHeaderRequest :=
  firstLineName_of_post (show ascii "POST" <+: ascii "POST / HTTP/1.1" by decide +kernel)

theorem firstLineName_sentInChunks (a b : UInt8) :
    firstLineName ((sentInChunks a b).startLine ++ [13]) = .ok httpHeaderRequest :=
  firstLineName_of_post (show ascii "POST" <+: ascii "POST / HTTP/1.1" by decide +kernel)

/-- A letter and a NUL byte are stored alike. -/
theorem storesBody_both_nul : StoresBody (fun _ ↦ 0) (sentByLength 97 0).text [97, 0] ∧
    StoresBody (fun _ ↦ 0) (sentInChunks 97 0).text [97, 0] :=
  (storesBody_both_iff (fun _ ↦ 0) (firstLineName_sentByLength 97 0)
    (firstLineName_sentInChunks 97 0) rfl rfl rfl (by decide)).2 ⟨rfl, by decide⟩

/-- Two letters are not. -/
theorem not_storesBody_both_letters : ¬ (StoresBody (fun _ ↦ 0) (sentByLength 97 98).text [97, 98] ∧
    StoresBody (fun _ ↦ 0) (sentInChunks 97 98).text [97, 98]) := by
  intro h
  have hlast := (storesBody_contentLength_iff (fun _ ↦ 0) (firstLineName_sentByLength 97 98) rfl
    (by decide)).1 h.1
  exact absurd hlast.1 (by decide)

end LibSeal
