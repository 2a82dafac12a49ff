import LibSeal.Auditing.HttpHead

/-!
# The body of any message

What `readHttpMessage` does behind the head, on an arbitrary byte string. The position again only
says what is left of the input, and the body that is read depends on nothing else of the input
(`readPayload_eq`).
-/

namespace LibSeal

open Bytes

/-! ### The body -/

/-- A body is read by its length exactly if it is there, up to the terminator behind the input. -/
theorem readHttpBody_eq_ok_iff (junk : ℕ → UInt8) (input : Bytes) (pos n : ℕ) :
    (∃ block, readHttpBody junk input pos n = .ok block) ↔
      pos ≤ input.length ∧ n < 2147483647 ∧ n ≤ (input.drop pos).length + 1 := by
  rw [readHttpBody, substr]
  by_cases hpos : input.length < pos
  · rw [if_pos hpos]
    exact iff_of_false (by simp [bind, Except.bind]) fun h ↦ absurd h.1 (not_le.2 hpos)
  · have hlen : ((input.drop pos).take n).length = min n (input.drop pos).length :=
      List.length_take
    rw [if_neg hpos]
    simp only [bind, Except.bind, Memory.memcpy, List.length_map, List.length_range,
      List.length_take, List.length_append, List.length_singleton]
    split_ifs with hbig hover hroom
    · exact iff_of_false (by simp) (by omega)
    · exact iff_of_false (by simp) (by omega)
    · omega
    · exact iff_of_true ⟨_, rfl⟩ (by omega)

/-- The body that a head announces is read exactly if it is there. -/
theorem readPayload_eq_ok_iff (junk : ℕ → UInt8) (input : Bytes) (st : HeaderState) :
    (∃ body, readPayload junk input st = .ok body) ↔
      if st.isChunked then ChunksPresent 0 (input.drop (st.pos + 2))
      else 0 < st.contentLength →
        st.pos + 2 ≤ input.length ∧ st.contentLength < 2147483647 ∧
          st.contentLength ≤ (input.drop (st.pos + 2)).length + 1 := by
  rw [readPayload]
  rcases st.isChunked with - | -
  · rw [if_neg Bool.false_ne_true, if_neg Bool.false_ne_true]
    by_cases hpos : 0 < st.contentLength
    · obtain ⟨n, hn⟩ := Int.eq_ofNat_of_zero_le hpos.le
      have hbody := readHttpBody_eq_ok_iff junk input (st.pos + 2) n
      -- the length that is passed on makes no difference to whether the body is read
      have hread : (∃ body, (readHttpBody junk input (st.pos + 2) st.contentLength.toNat >>=
          fun payload ↦ .ok (some payload, st.contentLength)) = .ok body) ↔
          ∃ block, readHttpBody junk input (st.pos + 2) n = .ok block := by
        rw [hn]
        constructor
        · rintro ⟨body, h⟩
          obtain ⟨block, hblock, -⟩ := CFault.bind_eq_ok.1 h
          exact ⟨block, hblock⟩
        · rintro ⟨block, hblock⟩
          exact ⟨_, CFault.bind_eq_ok.2 ⟨block, hblock, rfl⟩⟩
      rw [if_pos hpos]
      refine hread.trans (hbody.trans ?_)
      constructor
      · exact fun h _ ↦ ⟨h.1, by omega, by omega⟩
      · intro h
        have hall := h hpos
        exact ⟨hall.1, by omega, by omega⟩
    · rw [if_neg hpos]
      exact iff_of_true ⟨_, rfl⟩ fun h ↦ absurd h hpos
  · rw [if_pos rfl, if_pos rfl, readHttpChunkedMessage_eq]
    exact chunkedBody_eq_ok_iff junk _

/-- The head announces a body, and it is not empty. -/
def HasBody (input : Bytes) : Prop :=
  if announcesChunks input then chunkSize (input.drop (headLength input + 2)) ≠ 0
  else 0 < announcedLength input

instance (input : Bytes) : Decidable (HasBody input) :=
  inferInstanceAs (Decidable (ite _ _ _))

/-- **A body is read exactly if the message has one**, as long as an `int` can count it. -/
theorem hasBody_iff_of_readPayload {junk : ℕ → UInt8} {input kind : Bytes}
    (hlen : input.length < 2147483648) {body : Option Bytes × ℤ}
    (h : readPayload junk input (headState kind input) = .ok body) :
    (HasBody input ∧ body.1 ≠ none ∧ 0 < body.2) ∨ (¬ HasBody input ∧ body.1 = none) := by
  rw [readPayload, isChunked_headState, contentLength_headState, pos_headState] at h
  rw [HasBody]
  rcases hchunks : announcesChunks input with - | -
  · rw [hchunks, if_neg Bool.false_ne_true] at h
    rw [if_neg Bool.false_ne_true]
    by_cases hpos : 0 < announcedLength input
    · rw [if_pos hpos] at h
      obtain ⟨payload, -, h⟩ := CFault.bind_eq_ok.1 h
      cases Except.ok.inj h
      exact Or.inl ⟨hpos, Option.some_ne_none payload, hpos⟩
    · rw [if_neg hpos] at h
      cases Except.ok.inj h
      exact Or.inr ⟨hpos, rfl⟩
  · rw [hchunks, if_pos rfl, readHttpChunkedMessage_eq, chunkedBody] at h
    rw [if_pos rfl]
    -- the loop over the chunks returns, and its result is what it leaves behind
    set rest := input.drop (headLength input + 2) with hrest
    have hle : rest.length ≤ input.length := by
      rw [hrest, List.length_drop]
      omega
    obtain ⟨r, hr⟩ := Option.isSome_iff_exists.1
      (isSome_run_chunkRound junk (s := ⟨none, 0, rest⟩) (Nat.lt_succ_self rest.length))
    rw [hr, Option.getD_some] at h
    subst h
    obtain ⟨payload, length⟩ := body
    rcases length_of_run_chunkRound le_rfl (by simp only; omega) hr with
      ⟨hzero, hpayload, -⟩ | ⟨hzero, hpayload, hlength⟩
    · exact Or.inr ⟨not_not.2 hzero, hpayload⟩
    · exact Or.inl ⟨hzero, hpayload, hlength⟩

/-- The body that is read depends on what the head says and on what follows it. -/
theorem readPayload_congr (junk : ℕ → UInt8) {input input' : Bytes} {st st' : HeaderState}
    (hchunked : st.isChunked = st'.isChunked) (hlength : st.contentLength = st'.contentLength)
    (hle : st.pos + 2 ≤ input.length) (hle' : st'.pos + 2 ≤ input'.length)
    (hrest : input.drop (st.pos + 2) = input'.drop (st'.pos + 2)) :
    readPayload junk input st = readPayload junk input' st' := by
  simp only [readPayload, hchunked, hlength, readHttpChunkedMessage_eq, hrest, readHttpBody, substr,
    if_neg (not_lt.2 hle), if_neg (not_lt.2 hle')]

/-- The event with the body that has been read, and its length. -/
def finalEvent (e : Event) (body : Option Bytes × ℤ) : Event :=
  if 0 < e.paramCnt ∧ 0 < body.2 then
    let e := e.add ⟨.http, httpHeaderContentLength, .int body.2⟩
    match body.1 with
    | none => e
    | some block => e.add ⟨.http, httpHeaderPayload, .bytes block body.2⟩
  else e

/-- The body changes only two parameters. -/
theorem getParam_finalEvent_of_ne (e : Event) (body : Option Bytes × ℤ) {name : Bytes}
    (hlength : httpHeaderContentLength ≠ name) (hpayload : httpHeaderPayload ≠ name) :
    (finalEvent e body).getParam .http name = e.getParam .http name := by
  rw [finalEvent]
  split_ifs
  · rcases body.1 with - | block
    · exact Event.getParam_add_of_ne _ _ hlength
    · exact (Event.getParam_add_of_ne _ _ hpayload).trans (Event.getParam_add_of_ne _ _ hlength)
  · rfl

theorem getParam_finalEvent_contentLength {e : Event} {body : Option Bytes × ℤ}
    (he : 0 < e.paramCnt) (hbody : 0 < body.2) :
    (finalEvent e body).getParam .http httpHeaderContentLength =
      some ⟨.http, httpHeaderContentLength, .int body.2⟩ := by
  have hne : httpHeaderPayload ≠ httpHeaderContentLength := by decide
  rw [finalEvent, if_pos ⟨he, hbody⟩]
  rcases body.1 with - | block
  · exact Event.getParam_add_self _ _
  · exact (Event.getParam_add_of_ne _ _ hne).trans (Event.getParam_add_self _ _)

/-- The payload of an event is the body, if one has been read. -/
theorem getParam_finalEvent_payload {e : Event} (he : 0 < e.paramCnt) (body : Option Bytes × ℤ) :
    (finalEvent e body).getParam .http httpHeaderPayload =
      ((if 0 < body.2 then body.1 else none).map fun block ↦
        ⟨.http, httpHeaderPayload, .bytes block body.2⟩).or
          (e.getParam .http httpHeaderPayload) := by
  have hne : httpHeaderContentLength ≠ httpHeaderPayload := by decide
  rw [finalEvent]
  by_cases hbody : 0 < body.2
  · rw [if_pos ⟨he, hbody⟩, if_pos hbody]
    rcases body.1 with - | block
    · exact Event.getParam_add_of_ne _ _ hne
    · exact Event.getParam_add_self _ _
  · rw [if_neg fun h ↦ hbody h.2, if_neg hbody]
    rfl

theorem readHttpMessage_eq (junk : ℕ → UInt8) (input : Bytes) :
    readHttpMessage junk input =
      readHeaders input (input.length + 1) .init >>= fun st ↦
        readPayload junk input st >>= fun body ↦
          .ok (finalEvent st.event body, decide (1 < (finalEvent st.event body).paramCnt)) := rfl

/-! ### When a message is read -/

/-- The first line of a message is of a kind that the parser knows. -/
def IsSupported (line : Bytes) : Prop := isHttpRequest line = true ∨ isHttpResponse line = true

instance (line : Bytes) : Decidable (IsSupported line) := inferInstanceAs (Decidable (_ ∨ _))

/-- The name under which a first line of a known kind is stored. -/
def kindName (line : Bytes) : Bytes :=
  if isHttpRequest line then httpHeaderRequest else httpHeaderResponse

theorem kindName_eq_or (line : Bytes) :
    kindName line = httpHeaderRequest ∨ kindName line = httpHeaderResponse := by
  rw [kindName]
  split_ifs
  · exact Or.inl rfl
  · exact Or.inr rfl

theorem firstLineName_of_isSupported {line : Bytes} (h : IsSupported line) :
    firstLineName line = .ok (kindName line) := by
  rw [firstLineName, kindName]
  rcases hreq : isHttpRequest line with - | -
  · rw [if_neg Bool.false_ne_true, if_neg Bool.false_ne_true,
      if_pos (h.resolve_left (by simp [hreq]))]
  · rw [if_pos rfl, if_pos rfl]

theorem isSupported_iff {line : Bytes} :
    IsSupported line ↔ ∃ name, firstLineName line = .ok name := by
  rw [firstLineName, IsSupported]
  split_ifs with hreq hres
  · exact iff_of_true (Or.inl hreq) ⟨_, rfl⟩
  · exact iff_of_true (Or.inr hres) ⟨_, rfl⟩
  · exact iff_of_false (fun h ↦ h.elim hreq hres) (by simp)

/-- An unknown first line ends the process. -/
theorem firstLineName_of_not_isSupported {line : Bytes} (h : ¬ IsSupported line) :
    firstLineName line = .error .exited := by
  rw [IsSupported, not_or] at h
  rw [firstLineName, if_neg h.1, if_neg h.2]

/-- The body that the head announces is there. -/
def BodyPresent (input : Bytes) : Prop :=
  if announcesChunks input then ChunksPresent 0 (input.drop (headLength input + 2))
  else 0 < announcedLength input →
    headLength input + 2 ≤ input.length ∧ announcedLength input < 2147483647 ∧
      announcedLength input ≤ (input.drop (headLength input + 2)).length + 1

/-- The message is complete. -/
structure IsComplete (input : Bytes) : Prop where
  head : HeadOk input
  body : BodyPresent input

theorem readHttpMessage_of_nil (junk : ℕ → UInt8) {input : Bytes} (h : firstLine input = []) :
    readHttpMessage junk input = .ok (.empty, false) := by
  have hbegin : ¬ BeginsWithEmptyline input := fun hb ↦ hb.1 h
  rw [readHttpMessage_eq, readHeaders_eq, if_neg hbegin, if_pos h]
  rfl

/-- The parts of a message that are read. -/
theorem readHttpMessage_of_ne_nil (junk : ℕ → UInt8) {input : Bytes}
    (hends : ¬ BeginsWithEmptyline input) (hne : firstLine input ≠ []) :
    readHttpMessage junk input = firstLineName (firstLine input) >>= fun name ↦
      if HeadOk input then
        readPayload junk input (headState name input) >>= fun body ↦
          .ok (finalEvent (headState name input).event body,
            decide (1 < (finalEvent (headState name input).event body).paramCnt))
      else .error .outOfRange := by
  rw [readHttpMessage_eq, readHeaders_eq, if_neg hends, if_neg hne]
  rcases firstLineName (firstLine input) with e | name
  · rfl
  · show ((if HeadOk input then _ else _) >>= _) = ite _ _ _
    split_ifs
    · rfl
    · rfl

/-- A message is read when its head and its body are. -/
theorem readHttpMessage_of_readPayload (junk : ℕ → UInt8) {input : Bytes}
    {body : Option Bytes × ℤ} (hsupported : IsSupported (firstLine input)) (hhead : HeadOk input)
    (hbody : readPayload junk input (headState (kindName (firstLine input)) input) = .ok body) :
    ∃ b, readHttpMessage junk input =
      .ok (finalEvent (headState (kindName (firstLine input)) input).event body, b) := by
  have hname := firstLineName_of_isSupported hsupported
  have hempty := (isEmptyline_of_firstLineName hname).1
  have hends : ¬ BeginsWithEmptyline input := fun h ↦ Bool.false_ne_true (hempty.symm.trans h.2)
  rw [readHttpMessage_of_ne_nil junk hends (ne_nil_of_isEmptyline hempty)]
  simp only [hname, bind, Except.bind, if_pos hhead, hbody]
  exact ⟨_, rfl⟩

/-- What has been read of a message that the parser returns from. -/
theorem eq_finalEvent_of_readHttpMessage {junk : ℕ → UInt8} {input : Bytes} {e : Event} {b : Bool}
    (h : readHttpMessage junk input = .ok (e, b)) (hne : firstLine input ≠ []) :
    IsSupported (firstLine input) ∧ ∃ body,
      readPayload junk input (headState (kindName (firstLine input)) input) = .ok body ∧
        e = finalEvent (headState (kindName (firstLine input)) input).event body := by
  have hends : ¬ BeginsWithEmptyline input := by
    intro hb
    rw [readHttpMessage_eq, readHeaders_eq, if_pos hb] at h
    exact absurd h (by simp [bind, Except.bind])
  rw [readHttpMessage_of_ne_nil junk hends hne] at h
  obtain ⟨name, hname, h⟩ := CFault.bind_eq_ok.1 h
  have hsupported : IsSupported (firstLine input) := isSupported_iff.2 ⟨name, hname⟩
  rw [firstLineName_of_isSupported hsupported] at hname
  cases Except.ok.inj hname
  split_ifs at h
  obtain ⟨body, hbody, h⟩ := CFault.bind_eq_ok.1 h
  exact ⟨hsupported, body, hbody, (Prod.mk.inj (Except.ok.inj h)).1.symm⟩

/-- **The messages that are read**, among those on which the loops end. -/
theorem readHttpMessage_eq_ok_iff (junk : ℕ → UInt8) {input : Bytes}
    (hends : ¬ BeginsWithEmptyline input) :
    (∃ r, readHttpMessage junk input = .ok r) ↔
      firstLine input = [] ∨ IsSupported (firstLine input) ∧ IsComplete input := by
  by_cases hne : firstLine input = []
  · exact iff_of_true ⟨_, readHttpMessage_of_nil junk hne⟩ (Or.inl hne)
  have hbody : ∀ name, (∃ body, readPayload junk input (headState name input) = .ok body) ↔
      BodyPresent input := by
    intro name
    rw [readPayload_eq_ok_iff, isChunked_headState, contentLength_headState, pos_headState,
      BodyPresent]
  rw [readHttpMessage_of_ne_nil junk hends hne]
  constructor
  · rintro ⟨r, h⟩
    obtain ⟨name, hname, h⟩ := CFault.bind_eq_ok.1 h
    split_ifs at h with hhead
    obtain ⟨body, hread, -⟩ := CFault.bind_eq_ok.1 h
    exact Or.inr ⟨isSupported_iff.2 ⟨name, hname⟩, hhead, (hbody name).1 ⟨body, hread⟩⟩
  · rintro (h | ⟨hsupported, hcomplete⟩)
    · exact absurd h hne
    · obtain ⟨name, hname⟩ := isSupported_iff.1 hsupported
      obtain ⟨body, hread⟩ := (hbody name).2 hcomplete.body
      simp only [hname, bind, Except.bind, if_pos hcomplete.head, hread]
      exact ⟨_, rfl⟩

/-- A message whose head announces no body is read. -/
theorem exists_readHttpMessage_of_no_body (junk : ℕ → UInt8) {input : Bytes}
    (h : IsSupported (firstLine input) ∧ HeadOk input ∧ announcesChunks input = false ∧
      announcedLength input ≤ 0) : ∃ r, readHttpMessage junk input = .ok r := by
  obtain ⟨hsupported, hhead, hchunks, hlength⟩ := h
  have hbody : BodyPresent input := by
    rw [BodyPresent, hchunks, if_neg Bool.false_ne_true]
    exact fun hpos ↦ absurd hpos (not_lt.2 hlength)
  have hempty := (isEmptyline_of_firstLineName (firstLineName_of_isSupported hsupported)).1
  have hends : ¬ BeginsWithEmptyline input := fun hb ↦ Bool.false_ne_true (hempty.symm.trans hb.2)
  exact (readHttpMessage_eq_ok_iff junk hends).2 (Or.inr ⟨hsupported, hhead, hbody⟩)

/-- **On every input on which its loops end, the parser ends the process** for a first line that it
does not know, **and returns** from a message that is complete, or that has no first line. -/
theorem readHttpMessage_returns (junk : ℕ → UInt8) (input : Bytes)
    (hends : Loop.Ends (headerRound input) .init) :
    (firstLine input ≠ [] → ¬ IsSupported (firstLine input) →
        readHttpMessage junk input = .error .exited) ∧
      (firstLine input = [] ∨ IsSupported (firstLine input) ∧ IsComplete input →
        ∃ r, readHttpMessage junk input = .ok r) := by
  rw [headerLoop_ends_iff] at hends
  constructor
  · intro hne hsupported
    rw [readHttpMessage_of_ne_nil junk hends hne, firstLineName_of_not_isSupported hsupported]
    rfl
  · exact (readHttpMessage_eq_ok_iff junk hends).2

/-- A request that is complete, with more than its content length behind the head. -/
theorem readHttpMessage_returns_post :
    ∃ r, readHttpMessage (fun _ ↦ 0) (ascii "POST / HTTP/1.1\r\nContent-Length: 2\r\n\r\nabc") =
      .ok r := by
  have hends : Loop.Ends
      (headerRound (ascii "POST / HTTP/1.1\r\nContent-Length: 2\r\n\r\nabc")) .init := by
    rw [headerLoop_ends_iff]
    decide +kernel
  refine (readHttpMessage_returns _ _ hends).2 (Or.inr ⟨by decide +kernel, by decide +kernel, ?_⟩)
  rw [BodyPresent, if_neg (by decide +kernel)]
  decide +kernel

/-- A method that the parser does not know ends the process. -/
theorem not_readHttpMessage_returns_options :
    Loop.Ends (headerRound (ascii "OPTIONS * HTTP/1.1\r\n\r\n")) .init ∧
      ¬ ∃ r, readHttpMessage (fun _ ↦ 0) (ascii "OPTIONS * HTTP/1.1\r\n\r\n") = .ok r := by
  have hends : Loop.Ends (headerRound (ascii "OPTIONS * HTTP/1.1\r\n\r\n")) .init := by
    rw [headerLoop_ends_iff]
    decide +kernel
  refine ⟨hends, ?_⟩
  intro hreturns
  obtain hnil | ⟨hsupported, -⟩ :=
    (readHttpMessage_eq_ok_iff _ ((headerLoop_ends_iff _).1 hends)).1 hreturns
  · exact absurd hnil (by decide +kernel)
  · exact absurd hsupported (by decide +kernel)

end LibSeal
