import LibSeal.Auditing.HttpChunks

/-!
# Well-formed messages

The grammar of the messages that `readHttpMessage` is meant for, and what it makes of them
(`httpToEvent_text`): a first line of a known kind, header fields with pairwise distinct names, each
with one space behind its colon, and a body that is sent by its length or in chunks.

What is stored of a body differs (`HttpBody.block`). A chunked body is stored as it is. Of a body
sent by its length the last byte is overwritten, and one more byte that nobody has written follows.
-/

namespace LibSeal

open Bytes

/-- A line of three characters is not empty. -/
theorem isEmptyline_of_length {line : Bytes} (h : 3 ≤ line.length) : isEmptyline line = false := by
  rcases line with - | ⟨b, line⟩
  · exact absurd h (by decide)
  · rw [List.length_cons] at h
    simp only [isEmptyline, List.isEmpty_cons, List.length_cons, Bool.false_or,
      Bool.and_eq_false_iff, decide_eq_false_iff_not]
    exact Or.inl (by omega)

/-! ### Header fields -/

/-- A header field. It must not have the name of a parameter that the parser makes up itself. The
parser takes any name that begins like one of the two framing headers for that header, so no other
name may. -/
structure HeaderField where
  name : Bytes
  value : Bytes
  colon_notMem : ':'.toUInt8 ∉ name
  newline_notMem_name : 10 ∉ name
  newline_notMem_value : 10 ∉ value
  not_own : name ∉ [httpHeaderPayload, httpHeaderRequest, httpHeaderResponse]
  eq_contentLength : httpHeaderContentLength <+: name → name = httpHeaderContentLength
  eq_transferEncoding : httpHeaderTransferEncoding <+: name → name = httpHeaderTransferEncoding

namespace HeaderField

variable (f : HeaderField)

/-- The line of the field, without the newline. -/
def line : Bytes := f.name ++ ascii ": " ++ f.value ++ [13]

theorem line_eq : f.line = f.name ++ ':'.toUInt8 :: 32 :: (f.value ++ [13]) := by
  rw [line, show ascii ": " = [':'.toUInt8, 32] by decide]
  simp

def text : Bytes := f.line ++ [10]

/-- The effect of the field on the variables of the parser. -/
def assign (st : HeaderState) : HeaderState where
  event := st.event.add ⟨.http, f.name, .string f.value⟩
  headerCount := st.headerCount + 1
  contentLength :=
    if f.name = httpHeaderContentLength then atoi (f.value ++ [13]) else st.contentLength
  isChunked := st.isChunked ||
    (f.name = httpHeaderTransferEncoding && startsWith (f.value ++ [13]) (ascii "chunked"))
  pos := st.pos + f.text.length

/-- A name without a colon begins the line exactly when it begins the field's name. -/
theorem prefix_line_iff {pat : Bytes} (h : ':'.toUInt8 ∉ pat) :
    pat <+: f.line ↔ pat <+: f.name := by
  rw [f.line_eq, ← startsWith_iff, startsWith_append_cons h, startsWith_iff]

theorem newline_notMem_line : 10 ∉ f.line := by
  rw [f.line_eq]
  simp [f.newline_notMem_name, f.newline_notMem_value]
  decide

theorem length_line : f.line.length = f.name.length + 2 + f.value.length + 1 := by
  simp only [line, List.length_append, show (ascii ": ").length = 2 from rfl,
    List.length_singleton]

theorem isEmptyline_line : isEmptyline f.line = false :=
  isEmptyline_of_length (by rw [length_line]; omega)

theorem idxOf?_line : f.line.idxOf? ':'.toUInt8 = some f.name.length := by
  rw [f.line_eq, idxOf?_append_cons f.colon_notMem]

theorem headerValue_line : headerValue f.line f.name.length = .ok f.value := by
  have hlen := f.length_line
  have hcut := substr_append_append (f.name ++ ascii ": ") f.value [13]
  rw [headerValue, if_pos (by omega),
    show f.line.length - f.name.length - 3 = f.value.length by omega]
  rw [List.length_append, show (ascii ": ").length = 2 from rfl] at hcut
  exact hcut

theorem substr_line : substr f.line (f.name.length + 2) none = .ok (f.value ++ [13]) := by
  have hcut := substr_append_none (f.name ++ ascii ": ") (f.value ++ [13])
  rw [List.length_append, show (ascii ": ").length = 2 from rfl, ← List.append_assoc] at hcut
  exact hcut

/-- What a line says about the body, it says under the two names alone. -/
theorem readFraming_line (st : HeaderState) :
    readFraming st f.line = .ok ((f.assign st).contentLength, (f.assign st).isChunked) := by
  have hcl : startsWith f.line httpHeaderContentLength = true ↔
      f.name = httpHeaderContentLength := by
    rw [startsWith_iff, f.prefix_line_iff (by decide)]
    exact ⟨f.eq_contentLength, fun h ↦ h ▸ List.prefix_rfl⟩
  have hte : startsWith f.line httpHeaderTransferEncoding = true ↔
      f.name = httpHeaderTransferEncoding := by
    rw [startsWith_iff, f.prefix_line_iff (by decide)]
    exact ⟨f.eq_transferEncoding, fun h ↦ h ▸ List.prefix_rfl⟩
  have hne : httpHeaderContentLength ≠ httpHeaderTransferEncoding := by decide
  have hsub := f.substr_line
  rw [readFraming]
  by_cases hname : f.name = httpHeaderContentLength
  · rw [if_pos (hcl.2 hname), ← hname, hsub]
    simp [bind, Except.bind, pure, Except.pure, assign, hname, hne]
  · rw [if_neg (fun h ↦ hname (hcl.1 h))]
    by_cases hname' : f.name = httpHeaderTransferEncoding
    · rw [if_pos (hte.2 hname'), ← hname', hsub]
      simp [bind, Except.bind, pure, Except.pure, assign, hname', hne.symm]
    · rw [if_neg (fun h ↦ hname' (hte.1 h))]
      simp [assign, hname, hname']

theorem readHeaderLine_line (st : HeaderState) :
    readHeaderLine st f.line = .ok { f.assign st with pos := st.pos } := by
  have htake : f.line.take f.name.length = f.name := by rw [f.line_eq, List.take_left]
  rw [readHeaderLine, f.readFraming_line st]
  simp only [bind, Except.bind, f.idxOf?_line, f.headerValue_line, htake]
  rfl

end HeaderField

/-! ### Lines -/

/-- The line at a position, when the input goes on with one. -/
theorem lineAt_of_drop {input line rest : Bytes} {pos : ℕ} (hline : 10 ∉ line)
    (hdrop : input.drop pos = line ++ 10 :: rest) : lineAt input pos = .ok line := by
  have hlt : pos < input.length := by
    by_contra hle
    rw [List.drop_eq_nil_of_le (not_lt.1 hle)] at hdrop
    exact absurd hdrop.symm (List.append_ne_nil_of_right_ne_nil _ (List.cons_ne_nil _ _))
  have hall : ∀ b ∈ line, decide (b ≠ 10) = true := fun b hb ↦ by
    simpa using fun h : b = 10 ↦ hline (h ▸ hb)
  rw [lineAt, if_neg (by omega), hdrop, List.takeWhile_append_of_pos hall]
  simp

theorem drop_add_of_drop {input s t : Bytes} {pos : ℕ} (hdrop : input.drop pos = s ++ t) :
    input.drop (pos + s.length) = t := by
  rw [← List.drop_drop, hdrop, List.drop_left]

/-- **The loop over the header fields** applies them in turn and stops at the empty line. -/
theorem readHeaders_fields {input rest : Bytes} (fields : List HeaderField) {fuel : ℕ}
    (hfuel : fields.length < fuel) {st : HeaderState} (hcount : st.headerCount ≠ 0)
    (hdrop : input.drop st.pos = fields.flatMap HeaderField.text ++ (crlf ++ rest)) :
    readHeaders input fuel st = .ok (fields.foldl (fun st f ↦ f.assign st) st) := by
  induction fields generalizing st fuel with
  | nil =>
    obtain ⟨fuel, rfl⟩ := Nat.exists_eq_succ_of_ne_zero (Nat.ne_zero_of_lt hfuel)
    have hline : lineAt input st.pos = .ok [13] := lineAt_of_drop (by decide) hdrop
    rw [readHeaders, hline]
    simp only [bind, Except.bind, show ([13] : Bytes).isEmpty = false from rfl,
      show isEmptyline [13] = true from rfl, Bool.false_eq_true, if_false, if_true, if_neg hcount]
    rfl
  | cons f fields ih =>
    obtain ⟨fuel, rfl⟩ := Nat.exists_eq_succ_of_ne_zero (Nat.ne_zero_of_lt hfuel)
    have hsplit : input.drop st.pos =
        f.line ++ 10 :: (fields.flatMap HeaderField.text ++ (crlf ++ rest)) := by
      rw [hdrop, List.flatMap_cons, HeaderField.text]
      simp
    have hline := lineAt_of_drop f.newline_notMem_line hsplit
    have hempty : f.line.isEmpty = false := by
      have h := f.isEmptyline_line
      rw [isEmptyline, Bool.or_eq_false_iff] at h
      exact h.1
    -- the position behind the line break is the one that the field is assigned at
    have hnext : ({ ({ f.assign st with pos := st.pos } : HeaderState) with
        pos := st.pos + f.line.length + 1 }) = f.assign st := by
      rw [HeaderField.assign, HeaderField.text, List.length_append]
      rfl
    rw [readHeaders, hline]
    simp only [bind, Except.bind, hempty, f.isEmptyline_line, Bool.false_eq_true, if_false,
      if_neg hcount, f.readHeaderLine_line, hnext]
    refine ih (by simpa using hfuel) (Nat.succ_ne_zero _) ?_
    have htext : input.drop st.pos =
        f.text ++ (fields.flatMap HeaderField.text ++ (crlf ++ rest)) := by
      rw [hdrop, List.flatMap_cons, List.append_assoc]
    exact drop_add_of_drop htext

/-- A part of the parser's state that only the fields of one name assign to. -/
theorem foldl_assign_of_notMem {X : Type} (var : HeaderState → X) {n : Bytes}
    {val : HeaderField → X}
    (hvar : ∀ st (f : HeaderField), var (f.assign st) = if f.name = n then val f else var st)
    {fields : List HeaderField} (h : n ∉ fields.map HeaderField.name) (st : HeaderState) :
    var (fields.foldl (fun st f ↦ f.assign st) st) = var st := by
  induction fields generalizing st with
  | nil => rfl
  | cons f fields ih =>
    rw [List.map_cons, List.mem_cons, not_or] at h
    rw [List.foldl_cons, ih h.2, hvar, if_neg (Ne.symm h.1)]

theorem foldl_assign_of_mem {X : Type} (var : HeaderState → X) {n : Bytes} {val : HeaderField → X}
    (hvar : ∀ st (f : HeaderField), var (f.assign st) = if f.name = n then val f else var st)
    {fields : List HeaderField} (hnd : (fields.map HeaderField.name).Nodup) {f : HeaderField}
    (hf : f ∈ fields) (hn : f.name = n) (st : HeaderState) :
    var (fields.foldl (fun st f ↦ f.assign st) st) = val f := by
  induction fields generalizing st with
  | nil => exact absurd hf List.not_mem_nil
  | cons g fields ih =>
    rw [List.map_cons, List.nodup_cons] at hnd
    rw [List.foldl_cons]
    rcases List.mem_cons.1 hf with rfl | hf
    · rw [foldl_assign_of_notMem var hvar (hn ▸ hnd.1), hvar, if_pos hn]
    · exact ih hnd.2 hf _

/-- What the fields leave in the variables of the parser. -/
theorem getParam_assign (n : Bytes) (st : HeaderState) (f : HeaderField) :
    (f.assign st).event.getParam .http n =
      if f.name = n then some ⟨.http, f.name, .string f.value⟩ else st.event.getParam .http n := by
  rw [HeaderField.assign, Event.getParam_add]
  simp only [true_and]

theorem getParam_git_foldl (n : Bytes) (fields : List HeaderField) (st : HeaderState) :
    (fields.foldl (fun st f ↦ f.assign st) st).event.getParam .git n =
      st.event.getParam .git n := by
  induction fields generalizing st with
  | nil => rfl
  | cons f fields ih =>
    rw [List.foldl_cons, ih, HeaderField.assign]
    exact Event.getParam_add_of_protocol_ne _ _ (show Protocol.http ≠ Protocol.git by decide)

theorem isChunked_foldl (fields : List HeaderField) (st : HeaderState) :
    (fields.foldl (fun st f ↦ f.assign st) st).isChunked = (st.isChunked ||
      fields.any fun f ↦ f.name = httpHeaderTransferEncoding &&
        startsWith (f.value ++ [13]) (ascii "chunked")) := by
  induction fields generalizing st with
  | nil => exact (Bool.or_false _).symm
  | cons f fields ih =>
    rw [List.foldl_cons, ih, List.any_cons, ← Bool.or_assoc]
    rfl

theorem pos_foldl (fields : List HeaderField) (st : HeaderState) :
    (fields.foldl (fun st f ↦ f.assign st) st).pos =
      st.pos + (fields.flatMap HeaderField.text).length := by
  induction fields generalizing st with
  | nil => rfl
  | cons f fields ih =>
    rw [List.foldl_cons, ih, List.flatMap_cons, List.length_append]
    show st.pos + f.text.length + _ = _
    omega

/-! ### Bodies -/

/-- How a message carries a body. -/
inductive HttpBody where
  | none
  | contentLength (bytes : Bytes)
  | chunked (chunks : List HttpChunk)

namespace HttpBody

/-- The body as it is sent. -/
def text : HttpBody → Bytes
  | none => []
  | contentLength bytes => bytes
  | chunked chunks => chunks.flatMap HttpChunk.text ++ (ascii "0" ++ crlf ++ crlf)

/-- The bytes that are meant. -/
def bytes : HttpBody → Bytes
  | none => []
  | contentLength bytes => bytes
  | chunked chunks => chunks.flatMap HttpChunk.data

/-- The block in which the parser stores the body. -/
def block (junk : ℕ → UInt8) : HttpBody → Option Bytes
  | none => .none
  | contentLength bytes => some (bytes.dropLast ++ [0, junk bytes.length])
  | chunked chunks => some (chunks.flatMap HttpChunk.data)

/-- The stored block has a terminator: only a body sent by its length is given one. -/
def isTerminated : HttpBody → Bool
  | contentLength _ => true
  | _ => false

/-- The header says how the body is sent. -/
def FramedBy (fields : List HeaderField) : HttpBody → Prop
  | none =>
    httpHeaderContentLength ∉ fields.map HeaderField.name ∧
      httpHeaderTransferEncoding ∉ fields.map HeaderField.name
  | contentLength bytes =>
    bytes ≠ [] ∧
      (∃ f ∈ fields, f.name = httpHeaderContentLength ∧ f.value = ofNat bytes.length) ∧
      httpHeaderTransferEncoding ∉ fields.map HeaderField.name
  | chunked chunks =>
    chunks ≠ [] ∧
      (∃ f ∈ fields, f.name = httpHeaderTransferEncoding ∧ f.value = ascii "chunked") ∧
      httpHeaderContentLength ∉ fields.map HeaderField.name

end HttpBody

/-- A printed length is read back from its line. -/
theorem atoi_ofNat {n : ℕ} (h : n < 2147483648) : atoi (ofNat n ++ [13]) = n := by
  have hdigit : ∀ b ∈ ofNat n, (decide ('0'.toUInt8 ≤ b) && decide (b ≤ '9'.toUInt8)) = true := by
    intro b hb
    simpa using isDigit_of_mem_ofNat hb
  have hzero : 0 ∉ ofNat n ++ [13] := by
    rw [List.mem_append, not_or]
    exact ⟨fun h0 ↦ absurd (isDigit_of_mem_ofNat h0).1 (by decide), by decide⟩
  obtain ⟨b, l, hl⟩ := List.exists_cons_of_ne_nil (ofNat_ne_nil n)
  have hb : '0'.toUInt8 ≤ b ∧ b ≤ '9'.toUInt8 := isDigit_of_mem_ofNat (hl ▸ List.mem_cons_self)
  -- a digit is none of what `atoi` skips, and no sign
  have hfirst : ∀ c : UInt8, '0'.toUInt8 ≤ c → c ≤ '9'.toUInt8 →
      isSpace c = false ∧ c ≠ '-'.toUInt8 ∧ c ≠ '+'.toUInt8 := by
    intro c h0 h9
    have h0' : 48 ≤ c.toNat := h0
    have h9' : c.toNat ≤ 57 := h9
    have hne : ∀ d : UInt8, d.toNat < 48 → c ≠ d := by
      rintro d hd rfl
      omega
    refine ⟨?_, hne _ (by decide), hne _ (by decide)⟩
    have h13 : ¬ c ≤ 13 := fun hle ↦ by
      have hle' : c.toNat ≤ 13 := hle
      omega
    simp [isSpace, hne 32 (by decide), h13]
  obtain ⟨hspace, hminus, hplus⟩ := hfirst b hb.1 hb.2
  have hdrop : (ofNat n ++ [13]).dropWhile isSpace = ofNat n ++ [13] := by
    rw [hl, List.cons_append, List.dropWhile_cons_of_neg (by simp [hspace])]
  have hhead : (ofNat n ++ [13]).head? = some b := by rw [hl]; rfl
  have hdigits : (ofNat n ++ [13]).takeWhile
      (fun b ↦ decide ('0'.toUInt8 ≤ b) && decide (b ≤ '9'.toUInt8)) = ofNat n := by
    rw [List.takeWhile_append_of_pos hdigit]
    simp
    decide
  have hmin : min (n : ℤ) 9223372036854775807 = n := by omega
  have hsign : ∀ c : UInt8, b ≠ c → (some b == some c) = false := fun c hc ↦ by simpa using hc
  rw [atoi]
  simp only [cStr_eq_self hzero, hdrop, hhead, hsign _ hminus, hsign _ hplus, Bool.or_false,
    Bool.false_eq_true, if_false, hdigits, decimalValue_ofNat, hmin]
  exact toInt32_of_lt h

/-- A body sent by its length is stored with its last byte overwritten. -/
theorem readHttpBody_of_drop (junk : ℕ → UInt8) {input bytes : Bytes} {pos : ℕ} (hne : bytes ≠ [])
    (hlt : bytes.length < 2147483647) (hdrop : input.drop pos = bytes) :
    readHttpBody junk input pos bytes.length =
      .ok (bytes.dropLast ++ [0, junk bytes.length]) := by
  have hpos : pos < input.length := by
    by_contra hle
    rw [List.drop_eq_nil_of_le (not_lt.1 hle)] at hdrop
    exact hne hdrop.symm
  have hsub : substr input pos (some bytes.length) = .ok bytes := by
    rw [substr, if_neg (by omega), hdrop, List.take_length]
  have hblock : ((List.range (bytes.length + 1)).map junk).drop (0 + bytes.length) =
      [junk bytes.length] := by
    rw [Nat.zero_add, List.range_succ, List.map_append,
      List.drop_left' (by rw [List.length_map, List.length_range])]
    rfl
  have hcpy : Memory.memcpy ((List.range (bytes.length + 1)).map junk) 0
      ((bytes ++ [0]).take bytes.length) = .ok (bytes ++ [junk bytes.length]) := by
    rw [List.take_left, Memory.memcpy_of_le (by simp), hblock]
    rfl
  rw [readHttpBody, hsub]
  simp only [bind, Except.bind, if_neg (not_le.2 hlt),
    if_neg (show ¬ bytes.length + 1 < bytes.length by omega), hcpy]
  -- the write of the terminator
  obtain ⟨init, last, rfl⟩ : ∃ init last, bytes = init ++ [last] :=
    ⟨_, _, (List.dropLast_append_getLast hne).symm⟩
  have hlast : (init ++ [last]).length - 1 = init.length := by simp
  rw [hlast, List.dropLast_concat, List.append_assoc, List.set_append_right _ _ le_rfl,
    Nat.sub_self]
  rfl

/-! ### Messages -/

/-- A well-formed message. -/
structure HttpMessage where
  startLine : Bytes
  fields : List HeaderField
  body : HttpBody
  newline_notMem : 10 ∉ startLine
  nodup : (fields.map HeaderField.name).Nodup
  framed : body.FramedBy fields

namespace HttpMessage

variable (m : HttpMessage)

def text : Bytes :=
  m.startLine ++ crlf ++ (m.fields.flatMap HeaderField.text ++ (crlf ++ m.body.text))

/-- The names of the header fields. -/
def names : List Bytes := m.fields.map HeaderField.name

/-- The parameters of the event that a message is parsed to; the first line is stored under
`name`. -/
structure ParsedTo (junk : ℕ → UInt8) (name : Bytes) (e : Event) : Prop where
  startLine : e.getParam .http name = some ⟨.http, name, .string m.startLine⟩
  field : ∀ f ∈ m.fields, f.name ≠ httpHeaderContentLength →
    e.getParam .http f.name = some ⟨.http, f.name, .string f.value⟩
  payload : e.getParam .http httpHeaderPayload = (m.body.block junk).map fun block ↦
    ⟨.http, httpHeaderPayload, .bytes block m.body.bytes.length⟩
  absent : ∀ n, n ∉ m.names → n ≠ name → n ≠ httpHeaderContentLength → n ≠ httpHeaderPayload →
    e.getParam .http n = none
  git : ∀ n, e.getParam .git n = none

end HttpMessage

/-- A line that is the first of a message is not empty. -/
theorem isEmptyline_of_firstLineName {line name : Bytes} (h : firstLineName line = .ok name) :
    isEmptyline line = false ∧ (name = httpHeaderRequest ∨ name = httpHeaderResponse) := by
  have hname : (isHttpRequest line = true ∨ isHttpResponse line = true) ∧
      (name = httpHeaderRequest ∨ name = httpHeaderResponse) := by
    rw [firstLineName] at h
    split_ifs at h with hreq hres
    · exact ⟨Or.inl hreq, Or.inl (Except.ok.inj h).symm⟩
    · exact ⟨Or.inr hres, Or.inr (Except.ok.inj h).symm⟩
  refine ⟨?_, hname.2⟩
  by_contra hempty
  rw [Bool.not_eq_false, isEmptyline, Bool.or_eq_true, Bool.and_eq_true, Bool.or_eq_true] at hempty
  -- an empty line begins with a line break, or not at all, and no first line does
  have hnone : ∀ pat : Bytes, pat.head? ≠ none → pat.head? ≠ some 13 → pat.head? ≠ some 10 →
      startsWith line pat = false := by
    intro pat hpat h13 h10
    rw [← Bool.not_eq_true, startsWith_iff]
    rintro ⟨t, rfl⟩
    rcases pat with - | ⟨b, pat⟩
    · exact hpat rfl
    · simp only [List.head?_cons, ne_eq, Option.some.injEq] at h13 h10
      simp [h13, h10] at hempty
  have hkinds : ∀ pat ∈ [ascii "POST", ascii "GET", ascii "PUT", ascii "DELETE", ascii "PATCH",
      ascii "PROPFIND", ascii "HTTP"], startsWith line pat = false := by
    have hheads : ∀ pat ∈ [ascii "POST", ascii "GET", ascii "PUT", ascii "DELETE", ascii "PATCH",
        ascii "PROPFIND", ascii "HTTP"],
        pat.head? ≠ none ∧ pat.head? ≠ some 13 ∧ pat.head? ≠ some 10 := by decide
    exact fun pat hpat ↦ hnone pat (hheads pat hpat).1 (hheads pat hpat).2.1 (hheads pat hpat).2.2
  simp only [List.forall_mem_cons] at hkinds
  obtain ⟨h₁, h₂, h₃, h₄, h₅, h₆, h₇, -⟩ := hkinds
  have hreq : isHttpRequest line = false := by
    rw [isHttpRequest, h₁, h₂, h₃, h₄, h₅, h₆]
    rfl
  rw [hreq, show isHttpResponse line = false from h₇] at hname
  exact absurd hname.1 (by decide)

theorem firstLineName_of_get {line : Bytes} (h : ascii "GET" <+: line) :
    firstLineName (line ++ [13]) = .ok httpHeaderRequest := by
  have hget : startsWith (line ++ [13]) (ascii "GET") = true :=
    startsWith_iff.2 (h.trans (List.prefix_append _ _))
  rw [firstLineName, isHttpRequest, hget]
  simp

theorem firstLineName_of_post {line : Bytes} (h : ascii "POST" <+: line) :
    firstLineName (line ++ [13]) = .ok httpHeaderRequest := by
  have hpost : startsWith (line ++ [13]) (ascii "POST") = true :=
    startsWith_iff.2 (h.trans (List.prefix_append _ _))
  rw [firstLineName, isHttpRequest, hpost]
  simp

theorem firstLineName_of_http {line : Bytes} (h : ascii "HTTP" <+: line) :
    firstLineName (line ++ [13]) = .ok httpHeaderResponse := by
  have hline : ascii "HTTP" <+: line ++ [13] := h.trans (List.prefix_append _ _)
  have hreq : isHttpRequest (line ++ [13]) = false := by
    rw [isHttpRequest, startsWith_eq_false hline (by decide) (by decide),
      startsWith_eq_false hline (by decide) (by decide),
      startsWith_eq_false hline (by decide) (by decide),
      startsWith_eq_false hline (by decide) (by decide),
      startsWith_eq_false hline (by decide) (by decide),
      startsWith_eq_false hline (by decide) (by decide)]
    rfl
  rw [firstLineName, hreq, isHttpResponse, startsWith_iff.2 hline]
  rfl

namespace HttpMessage

variable (m : HttpMessage) (junk : ℕ → UInt8) {name : Bytes}

/-- The variables behind the first line. -/
def afterFirstLine (name : Bytes) : HeaderState where
  event := Event.add .empty ⟨.http, name, .string m.startLine⟩
  headerCount := 1
  contentLength := -1
  isChunked := false
  pos := (m.startLine ++ crlf).length

/-- The variables behind the head. -/
def afterHead (name : Bytes) : HeaderState :=
  m.fields.foldl (fun st f ↦ f.assign st) (m.afterFirstLine name)

theorem length_fields_lt : m.fields.length < m.text.length := by
  have hfields : ∀ fields : List HeaderField,
      fields.length ≤ (fields.flatMap HeaderField.text).length := by
    intro fields
    induction fields with
    | nil => exact le_rfl
    | cons f fields ih =>
      rw [List.flatMap_cons, List.length_append, List.length_cons, HeaderField.text,
        List.length_append, List.length_singleton]
      omega
  have h := hfields m.fields
  simp only [text, List.length_append, crlf, List.length_cons]
  omega

/-- **The head is read.** -/
theorem readHeaders_text (hname : firstLineName (m.startLine ++ [13]) = .ok name) :
    readHeaders m.text (m.text.length + 1) .init = .ok (m.afterHead name) := by
  have hempty := (isEmptyline_of_firstLineName hname).1
  have hisEmpty : (m.startLine ++ [13]).isEmpty = false := by
    rw [isEmptyline, Bool.or_eq_false_iff] at hempty
    exact hempty.1
  have hstart : m.text.drop HeaderState.init.pos = (m.startLine ++ [13]) ++
      10 :: (m.fields.flatMap HeaderField.text ++ (crlf ++ m.body.text)) := by
    show m.text.drop 0 = _
    rw [List.drop_zero, text, crlf]
    simp
  have hline : lineAt m.text HeaderState.init.pos = .ok (m.startLine ++ [13]) :=
    lineAt_of_drop (by simp [m.newline_notMem]) hstart
  have hdrop : m.text.drop (m.afterFirstLine name).pos =
      m.fields.flatMap HeaderField.text ++ (crlf ++ m.body.text) := List.drop_left
  -- behind the first line there are only fields
  have hrest := readHeaders_fields m.fields m.length_fields_lt
    (show (m.afterFirstLine name).headerCount ≠ 0 from Nat.one_ne_zero) hdrop
  have hfirst : readFirstLine HeaderState.init (m.startLine ++ [13]) =
      .ok { m.afterFirstLine name with pos := 0 } := by
    rw [readFirstLine, hname, List.dropLast_concat]
    rfl
  have hnext : ({ m.afterFirstLine name with pos := 0 + (m.startLine ++ [13]).length + 1 } :
      HeaderState) = m.afterFirstLine name := by
    simp [afterFirstLine, crlf]
  rw [readHeaders, hline]
  simp only [bind, Except.bind, hisEmpty, hempty, Bool.false_eq_true, if_false,
    if_pos (show HeaderState.init.headerCount = 0 from rfl), hfirst]
  rw [hnext]
  exact hrest

/-- A field's parameter behind the head. -/
theorem getParam_afterHead_of_mem {f : HeaderField} (hf : f ∈ m.fields) :
    (m.afterHead name).event.getParam .http f.name = some ⟨.http, f.name, .string f.value⟩ :=
  foldl_assign_of_mem (fun st ↦ st.event.getParam .http f.name) (getParam_assign f.name) m.nodup hf
    rfl _

theorem getParam_afterHead_of_notMem {n : Bytes} (hn : n ∉ m.names) :
    (m.afterHead name).event.getParam .http n =
      if name = n then some ⟨.http, name, .string m.startLine⟩ else none := by
  refine (foldl_assign_of_notMem (fun st ↦ st.event.getParam .http n) (getParam_assign n) hn
    _).trans ?_
  rw [afterFirstLine, Event.getParam_add]
  simp only [true_and]
  rfl

/-- No field has the name of a parameter of the parser. -/
theorem notMem_names {n : Bytes}
    (hn : n ∈ [httpHeaderPayload, httpHeaderRequest, httpHeaderResponse]) : n ∉ m.names := by
  intro hmem
  obtain ⟨f, -, rfl⟩ := List.mem_map.1 hmem
  exact f.not_own hn

theorem notMem_names_of_firstLineName {line : Bytes} (h : firstLineName line = .ok name) :
    name ∉ m.names := by
  rcases (isEmptyline_of_firstLineName h).2 with rfl | rfl
  · exact m.notMem_names (by simp)
  · exact m.notMem_names (by simp)

theorem paramCnt_afterHead_pos (hname : name ∉ m.names) :
    0 < (m.afterHead name).event.paramCnt := by
  have hp : (m.afterHead name).event.getParam .http name =
      some ⟨.http, name, .string m.startLine⟩ := by
    rw [m.getParam_afterHead_of_notMem hname, if_pos rfl]
  exact Event.paramCnt_pos_of_getParam hp

/-- The position behind the head is that of the empty line. -/
theorem drop_pos_afterHead (name : Bytes) :
    m.text.drop ((m.afterHead name).pos + 2) = m.body.text := by
  have hpos : (m.afterHead name).pos =
      (m.startLine ++ crlf).length + (m.fields.flatMap HeaderField.text).length := pos_foldl _ _
  have hdrop : m.text.drop (m.startLine ++ crlf).length =
      m.fields.flatMap HeaderField.text ++ (crlf ++ m.body.text) := List.drop_left
  rw [hpos]
  exact drop_add_of_drop (drop_add_of_drop hdrop)

theorem isChunked_afterHead (name : Bytes) :
    (m.afterHead name).isChunked = m.fields.any fun f ↦
      f.name = httpHeaderTransferEncoding && startsWith (f.value ++ [13]) (ascii "chunked") := by
  rw [afterHead, isChunked_foldl]
  rfl

theorem isChunked_afterHead_of_notMem (name : Bytes) (h : httpHeaderTransferEncoding ∉ m.names) :
    (m.afterHead name).isChunked = false := by
  rw [isChunked_afterHead, List.any_eq_false]
  intro f hf
  have hne : f.name ≠ httpHeaderTransferEncoding :=
    fun heq ↦ h (heq ▸ List.mem_map_of_mem hf)
  simp [hne]

/-- What the fields say about the length. -/
theorem contentLength_assign (st : HeaderState) (f : HeaderField) : (f.assign st).contentLength =
    if f.name = httpHeaderContentLength then atoi (f.value ++ [13]) else st.contentLength := rfl

theorem contentLength_afterHead_of_notMem (name : Bytes) (h : httpHeaderContentLength ∉ m.names) :
    (m.afterHead name).contentLength = -1 :=
  foldl_assign_of_notMem HeaderState.contentLength contentLength_assign h _

/-- A body that is sent by its length is read by it. -/
theorem readPayload_contentLength (name : Bytes) {bytes : Bytes}
    (hbody : m.body = .contentLength bytes) (hlen : bytes.length < 2147483648) :
    readPayload junk m.text (m.afterHead name) =
      (readHttpBody junk m.text ((m.afterHead name).pos + 2) bytes.length).map
        fun block ↦ (some block, (bytes.length : ℤ)) := by
  have hframed := m.framed
  rw [hbody] at hframed
  obtain ⟨hne, ⟨f, hf, hfname, hvalue⟩, hte⟩ := hframed
  have hcl : (m.afterHead name).contentLength = bytes.length := by
    rw [← atoi_ofNat hlen, ← hvalue]
    exact foldl_assign_of_mem HeaderState.contentLength contentLength_assign m.nodup hf hfname _
  have hpos : (0 : ℤ) < bytes.length := by
    have := List.length_pos_of_ne_nil hne
    omega
  rw [readPayload, m.isChunked_afterHead_of_notMem name hte, hcl]
  simp only [Bool.false_eq_true, if_false, if_pos hpos, Int.toNat_natCast]
  rcases readHttpBody junk m.text ((m.afterHead name).pos + 2) bytes.length with e | block
  · rfl
  · rfl

/-- A body that is sent in chunks is put together. -/
theorem readPayload_chunked (name : Bytes) {chunks : List HttpChunk}
    (hbody : m.body = .chunked chunks)
    (hlen : (chunks.flatMap HttpChunk.data).length < 2147483648) :
    readPayload junk m.text (m.afterHead name) =
      .ok (some (chunks.flatMap HttpChunk.data), (chunks.flatMap HttpChunk.data).length) := by
  have hframed := m.framed
  have hdrop := m.drop_pos_afterHead name
  rw [hbody] at hframed hdrop
  obtain ⟨hne, ⟨f, hf, hfname, hvalue⟩, -⟩ := hframed
  have hyes : (m.afterHead name).isChunked = true := by
    rw [isChunked_afterHead, List.any_eq_true]
    refine ⟨f, hf, ?_⟩
    rw [hfname, hvalue]
    decide
  rw [readPayload, hyes, if_pos rfl, readHttpChunkedMessage_eq, hdrop]
  exact chunkedBody_text junk hne hlen

/-- **The body is read.** -/
theorem readPayload_text (name : Bytes) (hlen : m.text.length < 2147483648) :
    ∃ n : ℤ, readPayload junk m.text (m.afterHead name) = .ok (m.body.block junk, n) ∧
      (m.body.block junk ≠ none → 0 < n ∧ n = m.body.bytes.length) ∧
      (m.body.block junk = none → n < 0) := by
  have hsize : m.body.text.length + 2 ≤ m.text.length := by
    simp only [text, List.length_append, crlf, List.length_cons]
    omega
  have hframed := m.framed
  rcases hbody : m.body with - | bytes | chunks <;> rw [hbody] at hframed hsize
  · refine ⟨-1, ?_, fun h ↦ absurd rfl h, fun _ ↦ by decide⟩
    rw [readPayload, m.isChunked_afterHead_of_notMem name hframed.2,
      m.contentLength_afterHead_of_notMem name hframed.1]
    rfl
  · have hshort : bytes.length < 2147483647 := by
      rw [HttpBody.text] at hsize
      omega
    have hdrop := m.drop_pos_afterHead name
    rw [hbody] at hdrop
    have hpos := List.length_pos_of_ne_nil hframed.1
    refine ⟨bytes.length, ?_, fun _ ↦ ⟨by omega, rfl⟩, fun h ↦ absurd h (by simp [HttpBody.block])⟩
    rw [m.readPayload_contentLength junk name hbody (by omega),
      readHttpBody_of_drop junk hframed.1 hshort hdrop]
    rfl
  · -- the chunks are read together, and hold less than the text does
    have hle := HttpChunk.length_flatMap_data_le chunks
    rw [HttpBody.text, List.length_append] at hsize
    have hpos : 0 < (chunks.flatMap HttpChunk.data).length := by
      obtain ⟨c, cs, rfl⟩ := List.exists_cons_of_ne_nil hframed.1
      have := List.length_pos_of_ne_nil c.data_ne_nil
      rw [List.flatMap_cons, List.length_append]
      omega
    refine ⟨(chunks.flatMap HttpChunk.data).length, ?_, fun _ ↦ ⟨by omega, rfl⟩,
      fun h ↦ absurd h (by simp [HttpBody.block])⟩
    exact m.readPayload_chunked junk name hbody (by omega)

/-- **A well-formed message is parsed to what it says.** -/
theorem httpToEvent_text (hname : firstLineName (m.startLine ++ [13]) = .ok name)
    (hlen : m.text.length < 2147483648) :
    ∃ e, httpToEvent junk m.text = .ok e ∧ m.ParsedTo junk name e := by
  obtain ⟨n, hpayload, hsome, hnone⟩ := m.readPayload_text junk name hlen
  have hinput : stringOfLength m.text (toInt32 m.text.length) = .ok m.text := by
    rw [toInt32_of_lt hlen, stringOfLength, if_neg (by omega), if_neg (by simp)]
    simp
  have hmem := m.notMem_names_of_firstLineName hname
  have hpayloadMem : httpHeaderPayload ∉ m.names := m.notMem_names (by simp)
  have hkind := (isEmptyline_of_firstLineName hname).2
  have hnameCl : name ≠ httpHeaderContentLength := by
    rcases hkind with rfl | rfl <;> decide
  have hnamePl : name ≠ httpHeaderPayload := by
    rcases hkind with rfl | rfl <;> decide
  have hgit : ∀ k, (m.afterHead name).event.getParam .git k = none := by
    intro k
    rw [afterHead, getParam_git_foldl, afterFirstLine]
    exact Event.getParam_add_of_protocol_ne _ _ (show Protocol.http ≠ Protocol.git by decide)
  -- the event, and what is found in it
  obtain ⟨e, he, hother, hpl, hegit⟩ : ∃ e, httpToEvent junk m.text = .ok e ∧
      (∀ k, k ≠ httpHeaderContentLength → k ≠ httpHeaderPayload →
        e.getParam .http k = (m.afterHead name).event.getParam .http k) ∧
      (e.getParam .http httpHeaderPayload = (m.body.block junk).map fun block ↦
        ⟨.http, httpHeaderPayload, .bytes block m.body.bytes.length⟩) ∧
      ∀ k, e.getParam .git k = none := by
    rcases hblock : m.body.block junk with - | block
    · refine ⟨(m.afterHead name).event, ?_, fun _ _ _ ↦ rfl, ?_, hgit⟩
      · rw [httpToEvent, hinput]
        simp only [bind, Except.bind, readHttpMessage, m.readHeaders_text hname, hpayload]
        rw [if_neg (fun h ↦ absurd h.2 (not_lt.2 (hnone hblock).le))]
        rfl
      · rw [m.getParam_afterHead_of_notMem hpayloadMem, if_neg hnamePl]
        rfl
    · obtain ⟨hpos, hn⟩ := hsome (by rw [hblock]; exact Option.some_ne_none block)
      refine ⟨((m.afterHead name).event.add ⟨.http, httpHeaderContentLength, .int n⟩).add
        ⟨.http, httpHeaderPayload, .bytes block n⟩, ?_, ?_, ?_, ?_⟩
      · rw [httpToEvent, hinput]
        simp only [bind, Except.bind, readHttpMessage, m.readHeaders_text hname, hpayload, hblock]
        rw [if_pos ⟨m.paramCnt_afterHead_pos hmem, hpos⟩]
        rfl
      · intro k hcl hplk
        rw [Event.getParam_add_of_ne _ _ (Ne.symm hplk), Event.getParam_add_of_ne _ _ (Ne.symm hcl)]
      · rw [← hn]
        exact Event.getParam_add_self _ _
      · intro k
        rw [Event.getParam_add_of_protocol_ne _ _ (show Protocol.http ≠ Protocol.git by decide),
          Event.getParam_add_of_protocol_ne _ _ (show Protocol.http ≠ Protocol.git by decide), hgit]
  refine ⟨e, he, ?_, ?_, hpl, ?_, hegit⟩
  · rw [hother name hnameCl hnamePl, m.getParam_afterHead_of_notMem hmem, if_pos rfl]
  · intro f hf hcl
    have hplf : f.name ≠ httpHeaderPayload := fun h ↦ f.not_own (by simp [h])
    rw [hother f.name hcl hplf, m.getParam_afterHead_of_mem hf]
  · intro k hmemk hk hcl hplk
    rw [hother k hcl hplk, m.getParam_afterHead_of_notMem hmemk, if_neg (Ne.symm hk)]

/-- A message that is too long for an `int` is not parsed. -/
theorem httpToEvent_of_le {msg : Bytes} (hle : 2147483648 ≤ msg.length)
    (hlt : msg.length < 4294967296) : httpToEvent junk msg = .error .lengthError := by
  have hneg : toInt32 msg.length < 0 := by
    rw [toInt32, if_neg (by omega)]
    omega
  rw [httpToEvent, stringOfLength, if_pos hneg]
  rfl

end HttpMessage

/-! ### Messages with a typed body -/

/-- The field for the type of the body. -/
def contentTypeField (type : Bytes) (h : 10 ∉ type) : HeaderField where
  name := httpHeaderContentType
  value := type
  colon_notMem := by decide
  newline_notMem_name := by decide
  newline_notMem_value := h
  not_own := by decide
  eq_contentLength := by decide
  eq_transferEncoding := by decide

/-- The field for the length of the body. -/
def contentLengthField (n : ℕ) : HeaderField where
  name := httpHeaderContentLength
  value := ofNat n
  colon_notMem := by decide
  newline_notMem_name := by decide
  newline_notMem_value := fun h ↦ absurd (isDigit_of_mem_ofNat h).1 (by decide)
  not_own := by decide
  eq_contentLength := fun _ ↦ rfl
  eq_transferEncoding := by decide

/-- The field for a body in chunks. -/
def chunkedField : HeaderField where
  name := httpHeaderTransferEncoding
  value := ascii "chunked"
  colon_notMem := by decide
  newline_notMem_name := by decide
  newline_notMem_value := by decide
  not_own := by decide
  eq_contentLength := by decide
  eq_transferEncoding := fun _ ↦ rfl

/-- A message with a body that is sent by its length. -/
def plainMessage (startLine type bytes : Bytes) (hline : 10 ∉ startLine) (htype : 10 ∉ type)
    (hne : bytes ≠ []) : HttpMessage where
  startLine := startLine
  fields := [contentTypeField type htype, contentLengthField bytes.length]
  body := .contentLength bytes
  newline_notMem := hline
  nodup := show [httpHeaderContentType, httpHeaderContentLength].Nodup by decide
  framed := ⟨hne, ⟨_, List.mem_cons_of_mem _ List.mem_cons_self, rfl, rfl⟩,
    show httpHeaderTransferEncoding ∉ [httpHeaderContentType, httpHeaderContentLength] by decide⟩

/-- A message with a body that is sent in chunks. -/
def chunkedMessage (startLine type : Bytes) (chunks : List HttpChunk) (hline : 10 ∉ startLine)
    (htype : 10 ∉ type) (hne : chunks ≠ []) : HttpMessage where
  startLine := startLine
  fields := [contentTypeField type htype, chunkedField]
  body := .chunked chunks
  newline_notMem := hline
  nodup := show [httpHeaderContentType, httpHeaderTransferEncoding].Nodup by decide
  framed := ⟨hne, ⟨_, List.mem_cons_of_mem _ List.mem_cons_self, rfl, rfl⟩,
    show httpHeaderContentLength ∉ [httpHeaderContentType, httpHeaderTransferEncoding] by decide⟩

end LibSeal
