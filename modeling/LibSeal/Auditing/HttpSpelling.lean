import LibSeal.Auditing.HttpFraming
import LibSeal.Git.Pack
import Mathlib.Data.List.Forall2

/-!
# Spellings of a header

The case of a header's name and the spaces in front of its value mean nothing in HTTP, but they do
to the parser. It compares names byte by byte, cuts values out at fixed distances from the colon or
from the beginning of the line, and stores what it has cut out under the name as it was sent.

Of a header that the auditors look up, or that frames the body, the parser and the auditors
therefore know one spelling (`paramIs_contentType`, `not_sameAnswers_smallReply`). Every other
header may be spelled in any way, and the length of the body may have any number of spaces before
it, as long as there is one (`agree_of_respelled`).
-/

namespace LibSeal

open Bytes

/-! ### Messages and their spellings -/

/-- A letter in lower case. -/
def lowerLetter (b : UInt8) : UInt8 := if 'A'.toUInt8 ≤ b ∧ b ≤ 'Z'.toUInt8 then b + 32 else b

/-- A name without regard to the case of its letters. -/
def lower (name : Bytes) : Bytes := name.map lowerLetter

/-- A header as it is spelled: with some spaces between the colon and the value. -/
structure SpelledHeader where
  name : Bytes
  spaces : ℕ
  value : Bytes
  name_ne_nil : name ≠ []
  colon_notMem : ':'.toUInt8 ∉ name
  newline_notMem_name : 10 ∉ name
  newline_notMem_value : 10 ∉ value

/-- A message, up to its body. -/
structure SpelledMessage where
  startLine : Bytes
  headers : List SpelledHeader
  body : Bytes
  newline_notMem : 10 ∉ startLine
  isEmptyline_startLine : isEmptyline (startLine ++ [13]) = false

namespace SpelledHeader

variable (h : SpelledHeader)

/-- What stands behind the colon, without the newline. -/
def tail : Bytes := List.replicate h.spaces 32 ++ h.value ++ [13]

/-- The line of the header, without the newline. -/
def line : Bytes := h.name ++ ':'.toUInt8 :: h.tail

/-- A header that neither the auditors look up nor frames the body, however it is spelled. -/
def IsFree : Prop :=
  lower h.name ≠ lower httpHeaderContentType ∧
    ¬ lower httpHeaderContentLength <+: lower h.name ∧
      ¬ lower httpHeaderTransferEncoding <+: lower h.name

theorem tail_ne_nil : h.tail ≠ [] := List.append_ne_nil_of_right_ne_nil _ (List.cons_ne_nil _ _)

theorem newline_notMem_line : 10 ∉ h.line := by
  rw [line, tail]
  simp [h.newline_notMem_name, h.newline_notMem_value, List.mem_replicate]
  decide

end SpelledHeader

/-- The text of a message. -/
def SpelledMessage.text (m : SpelledMessage) : Bytes :=
  m.startLine ++ crlf ++ m.headers.flatMap (fun h ↦ h.line ++ [10]) ++ crlf ++ m.body

/-- Two spellings of a header; `lengths` says whether the spaces before a length may differ. -/
inductive Respelling (lengths : Bool) (h : SpelledHeader) : SpelledHeader → Prop
  | same : Respelling lengths h h
  | free (h' : SpelledHeader) (free : h.IsFree) (name : lower h'.name = lower h.name)
    (value : h'.value = h.value) : Respelling lengths h h'
  | length (h' : SpelledHeader) (allowed : lengths = true)
    (names : h.name = httpHeaderContentLength ∧ h'.name = httpHeaderContentLength)
    (spaces : 1 ≤ h.spaces ∧ 1 ≤ h'.spaces) (value : h'.value = h.value) :
    Respelling lengths h h'

/-- Two spellings of a message. -/
structure Respelled (lengths : Bool) (m m' : SpelledMessage) : Prop where
  startLine : m'.startLine = m.startLine
  headers : List.Forall₂ (Respelling lengths) m.headers m'.headers
  body : m'.body = m.body

/-- Two events have the same payload, and give the same answers to the lookups. Where the spaces
before a length may differ, its lookup is the same if a body is stored. -/
structure SameAnswers (lengths : Bool) (e e' : Event) : Prop where
  payload : payloadOf e = payloadOf e'
  contentType : e.getParam .http httpHeaderContentType = e'.getParam .http httpHeaderContentType
  transferEncoding :
    e.getParam .http httpHeaderTransferEncoding = e'.getParam .http httpHeaderTransferEncoding
  contentLength : lengths = false ∨ payloadOf e ≠ none →
    e.getParam .http httpHeaderContentLength = e'.getParam .http httpHeaderContentLength

/-- Two outcomes agree: the same fault, or events with the same answers. -/
inductive Agree (lengths : Bool) :
    Except CFault (Event × Bool) → Except CFault (Event × Bool) → Prop
  | error (e : CFault) : Agree lengths (.error e) (.error e)
  | ok {e e' : Event} {b b' : Bool} (same : SameAnswers lengths e e') :
    Agree lengths (.ok (e, b)) (.ok (e', b'))

/-! ### What a spelling changes -/

theorem isFree_of_lower {h h' : SpelledHeader} (hname : lower h'.name = lower h.name)
    (hfree : h.IsFree) : h'.IsFree := by
  rw [SpelledHeader.IsFree, hname]
  exact hfree

namespace SpelledHeader

variable {h : SpelledHeader}

/-- A free header says nothing about the body. -/
theorem framing_of_isFree (hfree : h.IsFree) :
    (∀ n, contentLengthAfter n h.line = n) ∧
      ∀ isChunked, isChunkedAfter isChunked h.line = isChunked := by
  have hcl : startsWith h.line httpHeaderContentLength = false := by
    rw [line, startsWith_append_cons (by decide), ← Bool.not_eq_true, startsWith_iff]
    exact fun hpre ↦ hfree.2.1 (hpre.map lowerLetter)
  have hte : startsWith h.line httpHeaderTransferEncoding = false := by
    rw [line, startsWith_append_cons (by decide), ← Bool.not_eq_true, startsWith_iff]
    exact fun hpre ↦ hfree.2.2 (hpre.map lowerLetter)
  constructor
  · intro n
    rw [contentLengthAfter, hcl]
    rfl
  · intro isChunked
    rw [isChunkedAfter, hte]
    exact Bool.or_false _

theorem name_ne_of_isFree (hfree : h.IsFree) :
    h.name ≠ httpHeaderContentType ∧ h.name ≠ httpHeaderContentLength ∧
      h.name ≠ httpHeaderTransferEncoding := by
  exact ⟨fun heq ↦ hfree.1 (congrArg lower heq), fun heq ↦ hfree.2.1 (heq ▸ List.prefix_rfl),
    fun heq ↦ hfree.2.2 (heq ▸ List.prefix_rfl)⟩

/-- The entry of a header. -/
def entry (h : SpelledHeader) : Bytes × Bytes := (h.name, (h.tail.drop 1).dropLast)

theorem lineEntry_line : lineEntry h.line = some h.entry := lineEntry_of_colon h.colon_notMem

end SpelledHeader

/-- Spaces before a number are skipped. -/
theorem atoi_replicate_append (n : ℕ) (s : Bytes) : atoi (List.replicate n 32 ++ s) = atoi s := by
  induction n with
  | zero => rfl
  | succ n ih =>
    have hstr : cStr (32 :: (List.replicate n 32 ++ s)) = 32 :: cStr (List.replicate n 32 ++ s) :=
      rfl
    have hdrop : (32 :: cStr (List.replicate n 32 ++ s)).dropWhile isSpace =
        (cStr (List.replicate n 32 ++ s)).dropWhile isSpace := rfl
    rw [List.replicate_succ, List.cons_append, ← ih, atoi, hstr, hdrop, ← atoi]

/-- The length in its header is what its value says. -/
theorem contentLengthAfter_length {h : SpelledHeader} (hname : h.name = httpHeaderContentLength)
    (hspaces : 1 ≤ h.spaces) (n : ℤ) : contentLengthAfter n h.line = atoi (h.value ++ [13]) := by
  have hstarts : startsWith h.line httpHeaderContentLength = true := by
    rw [SpelledHeader.line, startsWith_append_cons (by decide), hname]
    exact startsWith_iff.2 List.prefix_rfl
  obtain ⟨k, hk⟩ := Nat.exists_eq_add_of_le' hspaces
  have hdrop : h.line.drop 16 = List.replicate k 32 ++ (h.value ++ [13]) := by
    have hline : h.line = (httpHeaderContentLength ++ [':'.toUInt8, 32]) ++
        (List.replicate k 32 ++ (h.value ++ [13])) := by
      rw [SpelledHeader.line, SpelledHeader.tail, hname, hk, List.replicate_succ]
      simp
    rw [hline]
    exact List.drop_left' rfl
  rw [contentLengthAfter, if_pos hstarts, hdrop, atoi_replicate_append]

namespace Respelling

variable {lengths : Bool} {h h' : SpelledHeader}

/-- Both spellings say the same about the body. -/
theorem framing (hr : Respelling lengths h h') :
    (∀ n, contentLengthAfter n h.line = contentLengthAfter n h'.line) ∧
      ∀ isChunked, isChunkedAfter isChunked h.line = isChunkedAfter isChunked h'.line := by
  cases hr with
  | same => exact ⟨fun _ ↦ rfl, fun _ ↦ rfl⟩
  | free _ hfree hname _ =>
    obtain ⟨hcl, hch⟩ := SpelledHeader.framing_of_isFree hfree
    obtain ⟨hcl', hch'⟩ := SpelledHeader.framing_of_isFree (isFree_of_lower hname hfree)
    exact ⟨fun n ↦ by rw [hcl, hcl'], fun isChunked ↦ by rw [hch, hch']⟩
  | length _ _ hnames hspaces hvalue =>
    constructor
    · intro n
      rw [contentLengthAfter_length hnames.1 hspaces.1,
        contentLengthAfter_length hnames.2 hspaces.2, hvalue]
    · have hte : ∀ g : SpelledHeader, g.name = httpHeaderContentLength →
          startsWith g.line httpHeaderTransferEncoding = false := by
        intro g hg
        rw [SpelledHeader.line, startsWith_append_cons (by decide), hg]
        decide
      intro isChunked
      rw [isChunkedAfter, isChunkedAfter, hte h hnames.1, hte h' hnames.2]
      rfl

/-- Both spellings are the same for a lookup, or neither is what is looked up. -/
theorem entry (hr : Respelling lengths h h') {name : Bytes}
    (hname : name = httpHeaderContentType ∨ name = httpHeaderTransferEncoding ∨
      (name = httpHeaderContentLength ∧ lengths = false)) :
    h.entry = h'.entry ∨ (h.entry.1 ≠ name ∧ h'.entry.1 ≠ name) := by
  cases hr with
  | same => exact Or.inl rfl
  | free _ hfree hlower _ =>
    obtain ⟨hct, hcl, hte⟩ := SpelledHeader.name_ne_of_isFree hfree
    obtain ⟨hct', hcl', hte'⟩ := SpelledHeader.name_ne_of_isFree (isFree_of_lower hlower hfree)
    rcases hname with rfl | rfl | ⟨rfl, -⟩
    · exact Or.inr ⟨hct, hct'⟩
    · exact Or.inr ⟨hte, hte'⟩
    · exact Or.inr ⟨hcl, hcl'⟩
  | length _ hallowed hnames _ _ =>
    have hfst : h.entry.1 = httpHeaderContentLength ∧ h'.entry.1 = httpHeaderContentLength := hnames
    rw [hfst.1, hfst.2]
    rcases hname with rfl | rfl | ⟨rfl, hlengths⟩
    · exact Or.inr (by decide)
    · exact Or.inr (by decide)
    · rw [hallowed] at hlengths
      exact absurd hlengths (by decide)

end Respelling

/-- Two folds agree whose steps do. -/
theorem foldl_eq_of_forall₂ {α β : Type} {f : β → α → β} {xs ys : List α}
    (h : List.Forall₂ (fun x y ↦ ∀ b, f b x = f b y) xs ys) (b : β) :
    xs.foldl f b = ys.foldl f b := by
  induction h generalizing b with
  | nil => rfl
  | cons hxy _ ih => rw [List.foldl_cons, List.foldl_cons, hxy, ih]

/-- Two lookups agree, if the entries do that matter. -/
theorem lastValue_eq_of_forall₂ {name : Bytes} {xs ys : List (Bytes × Bytes)}
    (h : List.Forall₂ (fun x y ↦ x = y ∨ (x.1 ≠ name ∧ y.1 ≠ name)) xs ys) :
    lastValue xs name = lastValue ys name := by
  induction h with
  | nil => rfl
  | @cons x y xs ys hxy _ ih =>
    have hsingle : lastValue [x] name = lastValue [y] name := by
      rcases hxy with rfl | ⟨hx, hy⟩
      · rfl
      · rw [lastValue_singleton, lastValue_singleton, if_neg hx, if_neg hy]
    rw [← List.singleton_append, lastValue_append, ih, hsingle, ← lastValue_append,
      List.singleton_append]

/-! ### The two runs -/

namespace SpelledMessage

variable (m : SpelledMessage)

theorem headLines : HeadLines (m.startLine ++ [13]) (m.headers.map SpelledHeader.line) where
  newline_notMem := by
    rw [List.forall_mem_cons, List.forall_mem_map]
    exact ⟨by simp [m.newline_notMem], fun h _ ↦ h.newline_notMem_line⟩
  isEmptyline := by
    rw [List.forall_mem_cons, List.forall_mem_map]
    exact ⟨m.isEmptyline_startLine, fun h _ ↦ isEmptyline_of_colon h.name_ne_nil h.tail_ne_nil⟩

theorem text_eq : m.text =
    headText (m.startLine ++ [13]) (m.headers.map SpelledHeader.line) ++ (crlf ++ m.body) := by
  rw [text, headText, List.flatMap_map]
  simp [crlf]

theorem firstLine_text : firstLine m.text = m.startLine ++ [13] := by
  rw [text_eq, m.headLines.firstLine_text]

theorem headerLines_text : headerLines m.text = m.headers.map SpelledHeader.line := by
  rw [text_eq, m.headLines.headerLines_text]

theorem headerEntries_text : headerEntries m.text = m.headers.map SpelledHeader.entry := by
  have hentry : lineEntry ∘ SpelledHeader.line = some ∘ SpelledHeader.entry :=
    funext fun h ↦ h.lineEntry_line
  rw [headerEntries, headerLines_text, List.filterMap_map, hentry, List.filterMap_eq_map]

theorem headOk_text : HeadOk m.text := by
  rw [text_eq, m.headLines.headOk_text, List.forall_mem_map]
  exact fun h _ ↦ lineOk_of_colon h.colon_notMem h.tail_ne_nil

/-- The position behind the head, and what is there. -/
theorem drop_pos_text (kind : Bytes) :
    (headState kind m.text).pos + 2 ≤ m.text.length ∧
      m.text.drop ((headState kind m.text).pos + 2) = m.body := by
  rw [pos_headState]
  constructor
  · rw [text_eq, m.headLines.headLength_text, List.length_append, List.length_append]
    exact Nat.add_le_add_left (Nat.le_add_right _ _) _
  · rw [text_eq, m.headLines.drop_headLength_text]

/-- What is read of the message. -/
theorem readHttpMessage_text (junk : ℕ → UInt8) :
    readHttpMessage junk m.text = firstLineName (m.startLine ++ [13]) >>= fun kind ↦
      readPayload junk m.text (headState kind m.text) >>= fun body ↦
        .ok (finalEvent (headState kind m.text).event body,
          decide (1 < (finalEvent (headState kind m.text).event body).paramCnt)) := by
  have hends : ¬ BeginsWithEmptyline m.text := by
    rw [text_eq]
    exact m.headLines.not_beginsWithEmptyline_text m.body
  have hne : firstLine m.text ≠ [] := by
    rw [firstLine_text]
    exact List.append_ne_nil_of_right_ne_nil _ (List.cons_ne_nil _ _)
  rw [readHttpMessage_of_ne_nil junk hends hne, firstLine_text]
  simp only [if_pos m.headOk_text]

end SpelledMessage

section Respelled

variable {lengths : Bool} {m m' : SpelledMessage}

/-- The lookups of the head agree. -/
theorem getParam_headState_eq (h : Respelled lengths m m') (kind : Bytes) {name : Bytes}
    (hname : name = httpHeaderContentType ∨ name = httpHeaderTransferEncoding ∨
      (name = httpHeaderContentLength ∧ lengths = false)) :
    (headState kind m.text).event.getParam .http name =
      (headState kind m'.text).event.getParam .http name := by
  have hlast : lastValue (m.headers.map SpelledHeader.entry) name =
      lastValue (m'.headers.map SpelledHeader.entry) name := by
    refine lastValue_eq_of_forall₂ ?_
    rw [List.forall₂_map_left_iff, List.forall₂_map_right_iff]
    exact h.headers.imp fun _ _ hr ↦ hr.entry hname
  rw [getParam_headState, getParam_headState, m.headerEntries_text, m'.headerEntries_text, hlast,
    m.firstLine_text, m'.firstLine_text, h.startLine]

/-- The same body is read, or the same fault met. -/
theorem readPayload_eq_of_respelled (junk : ℕ → UInt8) (h : Respelled lengths m m')
    (kind : Bytes) : readPayload junk m.text (headState kind m.text) =
      readPayload junk m'.text (headState kind m'.text) := by
  have hlines : ∀ {β : Type} {f : β → Bytes → β},
      (∀ {x y : SpelledHeader}, Respelling lengths x y → ∀ b, f b x.line = f b y.line) →
      ∀ b, (headerLines m.text).foldl f b = (headerLines m'.text).foldl f b := by
    intro β f hf b
    rw [m.headerLines_text, m'.headerLines_text]
    refine foldl_eq_of_forall₂ ?_ b
    rw [List.forall₂_map_left_iff, List.forall₂_map_right_iff]
    exact h.headers.imp fun _ _ hr ↦ hf hr
  obtain ⟨hle, hdrop⟩ := m.drop_pos_text kind
  obtain ⟨hle', hdrop'⟩ := m'.drop_pos_text kind
  refine readPayload_congr junk ?_ ?_ hle hle' (by rw [hdrop, hdrop', h.body])
  · rw [isChunked_headState, isChunked_headState]
    exact hlines (fun hr ↦ hr.framing.2) _
  · rw [contentLength_headState, contentLength_headState]
    exact hlines (fun hr ↦ hr.framing.1) _

/-- The payload is the body, whatever the headers are. -/
theorem payloadOf_finalEvent (kind input : Bytes) (body : Option Bytes × ℤ) :
    payloadOf (finalEvent (headState kind input).event body) =
      (if 0 < body.2 then body.1 else none).map fun block ↦
        (block.take body.2.toNat, body.2) := by
  have hhead := getParam_headState kind input httpHeaderPayload
  rw [payloadOf, getParam_finalEvent_payload (paramCnt_headState_pos kind input), hhead]
  rcases (if 0 < body.2 then body.1 else none) with - | block
  · -- a parameter of the head is a string
    rcases lastValue (headerEntries input) httpHeaderPayload with - | value
    · simp only [Option.map_none, Option.none_or]
      split_ifs
      · rfl
      · rfl
    · rfl
  · rfl

/-- The events of two spellings with the same body have the same answers. -/
theorem sameAnswers_finalEvent (h : Respelled lengths m m') (kind : Bytes)
    (body : Option Bytes × ℤ) :
    SameAnswers lengths (finalEvent (headState kind m.text).event body)
      (finalEvent (headState kind m'.text).event body) := by
  have hpayload : payloadOf (finalEvent (headState kind m.text).event body) =
      payloadOf (finalEvent (headState kind m'.text).event body) := by
    rw [payloadOf_finalEvent, payloadOf_finalEvent]
  refine ⟨hpayload, ?_, ?_, fun hlength ↦ ?_⟩
  · rw [getParam_finalEvent_of_ne _ _ (by decide) (by decide),
      getParam_finalEvent_of_ne _ _ (by decide) (by decide)]
    exact getParam_headState_eq h kind (Or.inl rfl)
  · rw [getParam_finalEvent_of_ne _ _ (by decide) (by decide),
      getParam_finalEvent_of_ne _ _ (by decide) (by decide)]
    exact getParam_headState_eq h kind (Or.inr (Or.inl rfl))
  · have hcnt := paramCnt_headState_pos kind m.text
    have hcnt' := paramCnt_headState_pos kind m'.text
    by_cases hbody : 0 < body.2
    · rw [getParam_finalEvent_contentLength hcnt hbody,
        getParam_finalEvent_contentLength hcnt' hbody]
    · rw [payloadOf_finalEvent, if_neg hbody] at hlength
      have hlengths : lengths = false := hlength.resolve_right fun hne ↦ hne rfl
      rw [finalEvent, finalEvent, if_neg fun hpos ↦ hbody hpos.2, if_neg fun hpos ↦ hbody hpos.2]
      exact getParam_headState_eq h kind (Or.inr (Or.inr ⟨rfl, hlengths⟩))

/-- **Spellings that the parser does not tell apart**: two messages that differ in them meet the
same fault, or become events with the same payload and the same answers to the lookups. -/
theorem agree_of_respelled (junk : ℕ → UInt8) (h : Respelled lengths m m') :
    Agree lengths (readHttpMessage junk m.text) (readHttpMessage junk m'.text) := by
  rw [m.readHttpMessage_text, m'.readHttpMessage_text, h.startLine]
  rcases firstLineName (m.startLine ++ [13]) with e | kind
  · exact .error e
  · simp only [bind, Except.bind, readPayload_eq_of_respelled junk h kind]
    rcases readPayload junk m'.text (headState kind m'.text) with e | body
    · exact .error e
    · exact .ok (sameAnswers_finalEvent h kind body)

end Respelled

theorem newline_notMem_ok : 10 ∉ ascii "HTTP/1.1 200 OK" := by decide +kernel

/-- A reply with one free header. -/
def quietReply : SpelledMessage where
  startLine := ascii "HTTP/1.1 200 OK"
  headers := [⟨ascii "Server", 1, ascii "web", by decide, by decide, by decide, by decide⟩]
  body := []
  newline_notMem := newline_notMem_ok
  isEmptyline_startLine := by decide

/-- The same reply in capital letters, and without a space. -/
def shoutedReply : SpelledMessage where
  startLine := ascii "HTTP/1.1 200 OK"
  headers := [⟨ascii "SERVER", 0, ascii "web", by decide, by decide, by decide, by decide⟩]
  body := []
  newline_notMem := newline_notMem_ok
  isEmptyline_startLine := by decide

theorem agree_shoutedReply : Agree false (readHttpMessage (fun _ ↦ 0) quietReply.text)
    (readHttpMessage (fun _ ↦ 0) shoutedReply.text) := by
  refine agree_of_respelled (fun _ ↦ 0) ⟨rfl, .cons (.free _ ?_ ?_ rfl) .nil, rfl⟩
  · exact ⟨by decide +kernel, by decide +kernel, by decide +kernel⟩
  · decide +kernel

/-! ### The one spelling that is known -/

/-- The type of a body is looked for in the last header with exactly that name, and behind exactly
one space. -/
theorem paramIs_contentType {junk : ℕ → UInt8} {input : Bytes} {e : Event} {b : Bool}
    (h : readHttpMessage junk input = .ok (e, b)) (hne : firstLine input ≠ []) (type : Bytes) :
    e.paramIs .http httpHeaderContentType type =
      decide (lastValue (headerEntries input) httpHeaderContentType = some type) := by
  obtain ⟨-, body, -, rfl⟩ := eq_finalEvent_of_readHttpMessage h hne
  have hkind : kindName (firstLine input) ≠ httpHeaderContentType := by
    rcases kindName_eq_or (firstLine input) with heq | heq
    · rw [heq]
      decide
    · rw [heq]
      decide
  rw [Event.paramIs, getParam_finalEvent_of_ne _ _ (by decide) (by decide), getParam_headState,
    if_neg hkind, Option.or_none]
  rcases lastValue (headerEntries input) httpHeaderContentType with - | value
  · rfl
  · show (value == type) = decide (some value = some type)
    rw [Bool.eq_iff_iff, beq_iff_eq, decide_eq_true_iff, Option.some.injEq]

/-- The result of a push. -/
def resultReply : Bytes :=
  ascii "HTTP/1.1 200 OK\r\nContent-Type: application/x-git-receive-pack-result\r\n\r\n"

/-- The same result, with the name of the header in small letters. -/
def smallReply : Bytes :=
  ascii "HTTP/1.1 200 OK\r\ncontent-type: application/x-git-receive-pack-result\r\n\r\n"

/-- The second is not taken for a result. -/
theorem not_sameAnswers_smallReply :
    ∃ e b e' b', readHttpMessage (fun _ ↦ 0) resultReply = .ok (e, b) ∧
      readHttpMessage (fun _ ↦ 0) smallReply = .ok (e', b') ∧
      gitIsReceivePackResult e = true ∧ gitIsReceivePackResult e' = false := by
  obtain ⟨r, hr⟩ := exists_readHttpMessage_of_no_body (fun _ ↦ 0)
    (show IsSupported (firstLine resultReply) ∧ _ by decide +kernel)
  obtain ⟨r', hr'⟩ := exists_readHttpMessage_of_no_body (fun _ ↦ 0)
    (show IsSupported (firstLine smallReply) ∧ _ by decide +kernel)
  refine ⟨r.1, r.2, r'.1, r'.2, hr, hr', ?_, ?_⟩
  · rw [gitIsReceivePackResult, paramIs_contentType hr (by decide +kernel)]
    decide +kernel
  · rw [gitIsReceivePackResult, paramIs_contentType hr' (by decide +kernel)]
    decide +kernel

end LibSeal
