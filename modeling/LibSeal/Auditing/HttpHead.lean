import LibSeal.Auditing.HttpMessage
import LibSeal.Data.Loop

/-!
# The head of any message

What the loop of `readHttpMessage` over the head does with an arbitrary byte string.

## Whether it ends

A round of the loop (`headerRound`) moves the position on behind a line, leaves the loop, or is the
`continue` for an empty line that belongs to no packet. The `continue` does not move on: an input
that begins with such a line is never read further, and this is the only way in which the loop does
not end (`headerLoop_ends_iff`).

## What it reads

Otherwise the position only says which line of the input is the next (`readHeaders_eq_readLines`).
The first line gives the message its kind. Each line behind it, up to the first empty one, is to the
parser a header for the framing of the body, a parameter, both or nothing; it has to be long enough
for what it is taken for (`LineOk`). So the head is read exactly if these lines are, and an empty
line follows them (`readHeaders_eq`).
-/

namespace LibSeal

open Bytes

/-! ### Rounds of the loop -/

/-- The first line of a message, or a line after it. -/
def readLine (st : HeaderState) (line : Bytes) : Except CFault HeaderState :=
  if st.headerCount = 0 then readFirstLine st line else readHeaderLine st line

/-- A round of the loop of `readHttpMessage`. -/
def headerRound (input : Bytes) (st : HeaderState) :
    Except CFault (HeaderState ⊕ HeaderState) := do
  let line ← lineAt input st.pos
  if line.isEmpty then return .inr st
  else if isEmptyline line then
    if st.headerCount = 0 then return .inl st -- Empty line that does not belong to any packet
    else return .inr st
  else
    let st ← readLine st line
    return .inl { st with pos := st.pos + line.length + 1 }

/-- The line with which the input begins. -/
def firstLine (input : Bytes) : Bytes := input.takeWhile (· ≠ 10)

/-- The first line is empty to `isEmptyline`, though it has a character. -/
def BeginsWithEmptyline (input : Bytes) : Prop :=
  firstLine input ≠ [] ∧ isEmptyline (firstLine input) = true

instance (input : Bytes) : Decidable (BeginsWithEmptyline input) :=
  inferInstanceAs (Decidable (_ ∧ _))

theorem pos_of_readFirstLine {st st' : HeaderState} {line : Bytes}
    (h : readFirstLine st line = .ok st') :
    st'.pos = st.pos ∧ st.headerCount < st'.headerCount := by
  rw [readFirstLine, CFault.bind_eq_ok] at h
  obtain ⟨name, -, h⟩ := h
  cases Except.ok.inj h
  exact ⟨rfl, Nat.lt_succ_self _⟩

theorem pos_of_readHeaderLine {st st' : HeaderState} {line : Bytes}
    (h : readHeaderLine st line = .ok st') :
    st'.pos = st.pos ∧ st.headerCount ≤ st'.headerCount := by
  rw [readHeaderLine, CFault.bind_eq_ok] at h
  obtain ⟨framing, -, h⟩ := h
  rcases hcolon : line.idxOf? ':'.toUInt8 with - | colon
  · simp only [hcolon] at h
    cases Except.ok.inj h
    exact ⟨rfl, le_rfl⟩
  · simp only [hcolon, CFault.bind_eq_ok] at h
    obtain ⟨value, -, h⟩ := h
    cases Except.ok.inj h
    exact ⟨rfl, Nat.le_succ _⟩

theorem pos_of_readLine {st st' : HeaderState} {line : Bytes} (h : readLine st line = .ok st') :
    st'.pos = st.pos ∧ st'.headerCount ≠ 0 := by
  by_cases hcount : st.headerCount = 0
  · rw [readLine, if_pos hcount] at h
    obtain ⟨hpos, hlt⟩ := pos_of_readFirstLine h
    exact ⟨hpos, Nat.ne_zero_of_lt hlt⟩
  · rw [readLine, if_neg hcount] at h
    obtain ⟨hpos, hle⟩ := pos_of_readHeaderLine h
    exact ⟨hpos, Nat.ne_of_gt (by omega)⟩

/-- A line is not longer than what is left of the input. -/
theorem length_le_of_lineAt {input line : Bytes} {pos : ℕ} (h : lineAt input pos = .ok line) :
    pos + line.length ≤ input.length := by
  rw [lineAt] at h
  split_ifs at h with hlt
  have hprefix : line.length ≤ (input.drop pos).length := by
    rw [← Except.ok.inj h]
    exact (List.takeWhile_prefix _).length_le
  rw [List.length_drop] at hprefix
  omega

theorem lineAt_zero (input : Bytes) : lineAt input 0 = .ok (firstLine input) := by
  rw [lineAt, if_neg (Nat.not_lt_zero _), List.drop_zero, firstLine]

theorem ne_nil_of_isEmptyline {line : Bytes} (h : isEmptyline line = false) : line ≠ [] := by
  rintro rfl
  exact Bool.false_ne_true h.symm

/-! What the loop, and a round of it, make of the line at the position. -/

theorem readHeaders_of_error {input : Bytes} {st : HeaderState} {e : CFault}
    (hline : lineAt input st.pos = .error e) (n : ℕ) :
    readHeaders input (n + 1) st = .error e ∧ headerRound input st = .error e := by
  constructor
  · rw [readHeaders, hline]
    rfl
  · rw [headerRound, hline]
    rfl

theorem readHeaders_of_nil {input : Bytes} {st : HeaderState} (hline : lineAt input st.pos = .ok [])
    (n : ℕ) : readHeaders input (n + 1) st = .ok st ∧ headerRound input st = .ok (.inr st) := by
  constructor
  · rw [readHeaders, hline]
    rfl
  · rw [headerRound, hline]
    rfl

theorem readHeaders_of_emptyline {input line : Bytes} {st : HeaderState}
    (hline : lineAt input st.pos = .ok line) (hne : line ≠ []) (hempty : isEmptyline line = true)
    (n : ℕ) :
    readHeaders input (n + 1) st = (if st.headerCount = 0 then .error .diverged else .ok st) ∧
      headerRound input st = (if st.headerCount = 0 then .ok (.inl st) else .ok (.inr st)) := by
  have hnil : ¬ line.isEmpty = true := fun hnil ↦ hne (List.isEmpty_iff.1 hnil)
  constructor
  · rw [readHeaders, hline]
    simp only [bind, Except.bind, if_neg hnil, if_pos hempty]
    rfl
  · rw [headerRound, hline]
    simp only [bind, Except.bind, if_neg hnil, if_pos hempty]
    rfl

theorem readHeaders_of_line {input line : Bytes} {st : HeaderState}
    (hline : lineAt input st.pos = .ok line) (hempty : isEmptyline line = false) (n : ℕ) :
    readHeaders input (n + 1) st = (readLine st line >>= fun st₁ ↦
        readHeaders input n { st₁ with pos := st₁.pos + line.length + 1 }) ∧
      headerRound input st = (readLine st line).map fun st₁ ↦
        .inl { st₁ with pos := st₁.pos + line.length + 1 } := by
  have hnil : ¬ line.isEmpty = true :=
    fun hnil ↦ ne_nil_of_isEmptyline hempty (List.isEmpty_iff.1 hnil)
  constructor
  · rw [readHeaders, hline, readLine]
    simp only [bind, Except.bind, if_neg hnil, hempty, Bool.false_eq_true, if_false]
    split_ifs
    · rfl
    · rfl
  · rw [headerRound, hline]
    simp only [bind, Except.bind, if_neg hnil, hempty, Bool.false_eq_true, if_false]
    rfl

/-- What a round that goes on has done: nothing at an empty line in front of the message, and
otherwise it has moved on behind a line. -/
theorem headerRound_eq_inl {input : Bytes} {st st' : HeaderState}
    (h : headerRound input st = .ok (.inl st')) :
    ∃ line, lineAt input st.pos = .ok line ∧ line ≠ [] ∧
      (isEmptyline line = true ∧ st.headerCount = 0 ∨
        st'.headerCount ≠ 0 ∧ st'.pos = st.pos + line.length + 1) := by
  rcases hline : lineAt input st.pos with e | line
  · rw [(readHeaders_of_error hline 0).2] at h
    exact absurd h (by simp)
  by_cases hne : line = []
  · subst hne
    rw [(readHeaders_of_nil hline 0).2] at h
    exact absurd (Except.ok.inj h) Sum.inr_ne_inl
  refine ⟨line, rfl, hne, ?_⟩
  rcases hempty : isEmptyline line with - | -
  · rw [(readHeaders_of_line hline hempty 0).2] at h
    rcases hst₁ : readLine st line with e | st₁
    · rw [hst₁] at h
      exact absurd h (by simp [Except.map])
    · rw [hst₁] at h
      cases Sum.inl.inj (Except.ok.inj h)
      obtain ⟨hpos, hcount⟩ := pos_of_readLine hst₁
      exact Or.inr ⟨hcount, by rw [hpos]⟩
  · rw [(readHeaders_of_emptyline hline hne hempty 0).2] at h
    split_ifs at h with hcount
    · exact Or.inl ⟨rfl, hcount⟩
    · exact absurd (Except.ok.inj h) Sum.inr_ne_inl

/-- The loop is that of its rounds. -/
theorem readHeaders_eq_run (input : Bytes) (n : ℕ) (st : HeaderState) :
    readHeaders input n st = (Loop.run (headerRound input) n st).getD (.error .diverged) := by
  induction n generalizing st with
  | zero => rfl
  | succ n ih =>
    rcases hline : lineAt input st.pos with e | line
    · obtain ⟨hread, hround⟩ := readHeaders_of_error hline n
      rw [hread, Loop.run_of_error hround]
      rfl
    by_cases hnil : line = []
    · subst hnil
      obtain ⟨hread, hround⟩ := readHeaders_of_nil hline n
      rw [hread, Loop.run_of_leave hround]
      rfl
    -- a first line or a field, or the end of the head
    rcases hempty : isEmptyline line with - | -
    · obtain ⟨hread, hround⟩ := readHeaders_of_line hline hempty n
      rcases hst₁ : readLine st line with e | st₁
      · rw [hst₁] at hread hround
        rw [hread, Loop.run_of_error hround]
        rfl
      · rw [hst₁] at hread hround
        rw [hread, Loop.run_of_continue hround]
        exact ih _
    · obtain ⟨hread, hround⟩ := readHeaders_of_emptyline hline hnil hempty n
      by_cases hcount : st.headerCount = 0
      · -- the round changes nothing, so the number of rounds runs out
        rw [if_pos hcount] at hread hround
        rw [hread, Loop.run_of_stuck hround]
        rfl
      · rw [if_neg hcount] at hread hround
        rw [hread, Loop.run_of_leave hround]
        rfl

/-- The invariant of the loop: behind the first round, the message has begun. -/
private def Begun (st : HeaderState) : Prop := st.headerCount = 0 → st.pos = 0

/-- **Only an empty line in front of the message keeps the loop from ending**, and as many rounds as
the input has bytes are enough otherwise. -/
theorem isSome_run_headerRound {input : Bytes} (h : ¬ BeginsWithEmptyline input) :
    (Loop.run (headerRound input) (input.length + 1) .init).isSome = true := by
  refine Loop.isSome_run_of_measure (I := Begun) (fun st ↦ input.length - st.pos) ?_
    (fun _ ↦ rfl) (Nat.lt_succ_of_le (Nat.sub_le _ _))
  intro st st' hst hround
  obtain ⟨line, hline, hne, ⟨hempty, hcount⟩ | ⟨hcount, hpos⟩⟩ := headerRound_eq_inl hround
  · rw [hst hcount, lineAt_zero] at hline
    cases Except.ok.inj hline
    exact absurd ⟨hne, hempty⟩ h
  · have hle := length_le_of_lineAt hline
    have hlt := List.length_pos_of_ne_nil hne
    refine ⟨fun h0 ↦ absurd h0 hcount, ?_⟩
    simp only [hpos]
    omega

theorem headerRound_of_beginsWithEmptyline {input : Bytes} (h : BeginsWithEmptyline input) :
    headerRound input .init = .ok (.inl .init) := by
  have hline : lineAt input HeaderState.init.pos = .ok (firstLine input) := lineAt_zero input
  have hnil : ¬ (firstLine input).isEmpty = true := fun hnil ↦ h.1 (List.isEmpty_iff.1 hnil)
  rw [headerRound, hline]
  simp only [bind, Except.bind, if_neg hnil, if_pos h.2]
  rfl

/-- **The loop over the head ends exactly if the input does not begin with an empty line** that has
a character. -/
theorem headerLoop_ends_iff (input : Bytes) :
    Loop.Ends (headerRound input) .init ↔ ¬ BeginsWithEmptyline input := by
  constructor
  · intro hends h
    exact Loop.not_ends_of_stuck (headerRound_of_beginsWithEmptyline h) hends
  · exact fun h ↦ ⟨_, isSome_run_headerRound h⟩

/-- A request behind an empty line is never read. -/
theorem not_headerLoop_ends_emptyline :
    ¬ Loop.Ends (headerRound (ascii "\r\nGET / HTTP/1.1\r\n\r\n")) .init := by
  rw [headerLoop_ends_iff, not_not]
  decide +kernel

/-! ### Lines -/

/-- The lines of the input from a position on. -/
def linesFrom (input : Bytes) (pos : ℕ) : List Bytes :=
  if input.length < pos then [] else (input.drop pos).splitOn 10

/-- The loop of `readHttpMessage`, over the lines of its input. -/
def readLines : List Bytes → HeaderState → Except CFault HeaderState
  | [], _ => .error .outOfRange
  | line :: lines, st =>
    if isEmptyline line then
      if line ≠ [] ∧ st.headerCount = 0 then .error .diverged else .ok st
    else do
      let st ← readLine st line
      readLines lines { st with pos := st.pos + line.length + 1 }

theorem splitOn_eq_cons (s : Bytes) : s.splitOn 10 =
    s.takeWhile (· ≠ 10) :: linesFrom s ((s.takeWhile (· ≠ 10)).length + 1) := by
  have hsplit := s.takeWhile_append_dropWhile (p := fun b ↦ decide (b ≠ 10))
  set line := s.takeWhile (· ≠ 10) with hline
  have hmem : (10 : UInt8) ∉ line := fun hmem ↦ by simpa using List.mem_takeWhile_imp hmem
  rcases hrest : s.dropWhile (fun b ↦ decide (b ≠ 10)) with - | ⟨b, rest⟩
  · -- the last line
    rw [hrest, List.append_nil] at hsplit
    rw [← hsplit, linesFrom, if_pos (Nat.lt_succ_self _), List.splitOn_eq_singleton hmem]
  · have hb : b = 10 := by
      have hhead := List.head?_dropWhile_not (fun b : UInt8 ↦ decide (b ≠ 10)) s
      rw [hrest] at hhead
      simpa using hhead
    subst hb
    rw [hrest] at hsplit
    have hdrop : s.drop (line.length + 1) = rest := by
      rw [← hsplit, List.drop_append, List.drop_eq_nil_of_le (Nat.le_succ _)]
      simp
    have hlen : ¬ s.length < line.length + 1 := by
      rw [← hsplit, List.length_append, List.length_cons]
      omega
    rw [linesFrom, if_neg hlen, hdrop, ← hsplit, List.splitOn_append_cons_self_of_not_mem hmem]

/-- The lines from a position on are the line there, and those from behind it. -/
theorem linesFrom_eq {input line : Bytes} {pos : ℕ} (h : lineAt input pos = .ok line) :
    linesFrom input pos = line :: linesFrom input (pos + line.length + 1) := by
  rw [lineAt] at h
  split_ifs at h with hlt
  cases Except.ok.inj h
  rw [linesFrom, if_neg hlt, splitOn_eq_cons, linesFrom, linesFrom, List.length_drop,
    List.drop_drop,
    Nat.add_assoc]
  congr 2
  exact propext ⟨fun hgt ↦ by omega, fun hgt ↦ by omega⟩

/-- **The loop reads the lines of the input** one after the other, if its number of rounds does not
run out. -/
theorem readHeaders_eq_readLines {input : Bytes} {n : ℕ} {st : HeaderState}
    (hn : input.length - st.pos < n) :
    readHeaders input n st = readLines (linesFrom input st.pos) st := by
  induction n generalizing st with
  | zero => exact absurd hn (Nat.not_lt_zero _)
  | succ n ih =>
    rcases hline : lineAt input st.pos with e | line
    · rw [(readHeaders_of_error hline n).1]
      rw [lineAt] at hline
      split_ifs at hline with hlt
      rw [linesFrom, if_pos hlt, readLines, Except.error.inj hline]
    rw [linesFrom_eq hline, readLines]
    by_cases hnil : line = []
    · subst hnil
      rw [(readHeaders_of_nil hline n).1]
      rfl
    rcases hempty : isEmptyline line with - | -
    · rw [(readHeaders_of_line hline hempty n).1, if_neg Bool.false_ne_true]
      rcases hst₁ : readLine st line with e | st₁
      · rfl
      · have hpos := (pos_of_readLine hst₁).1
        have hlen := length_le_of_lineAt hline
        have hlt := List.length_pos_of_ne_nil hnil
        rw [← hpos]
        exact ih (by simp only; omega)
    · rw [(readHeaders_of_emptyline hline hnil hempty n).1, if_pos rfl]
      simp only [ne_eq, hnil, not_false_eq_true, true_and]

/-! ### What a line is to the parser -/

/-- A line is long enough for what the parser takes it for: what it cuts out behind the name of a
framing header, and behind the colon, begins within the line. -/
def LineOk (line : Bytes) : Prop :=
  (startsWith line httpHeaderContentLength = true → 16 ≤ line.length) ∧
    (startsWith line httpHeaderTransferEncoding = true → 19 ≤ line.length) ∧
      ∀ colon ∈ line.idxOf? ':'.toUInt8, colon + 2 ≤ line.length

instance (line : Bytes) : Decidable (LineOk line) := inferInstanceAs (Decidable (_ ∧ _ ∧ _))

/-- The name and the value of the parameter in a line. -/
def lineEntry (line : Bytes) : Option (Bytes × Bytes) :=
  (line.idxOf? ':'.toUInt8).map fun colon ↦ (line.take colon, (line.drop (colon + 2)).dropLast)

/-- The content length behind a line. -/
def contentLengthAfter (n : ℤ) (line : Bytes) : ℤ :=
  if startsWith line httpHeaderContentLength then atoi (line.drop 16) else n

/-- Whether the body is chunked, behind a line. -/
def isChunkedAfter (isChunked : Bool) (line : Bytes) : Bool :=
  isChunked ||
    (startsWith line httpHeaderTransferEncoding && startsWith (line.drop 19) (ascii "chunked"))

namespace HeaderState

/-- The event with the parameter in a line. -/
def addEntry (st : HeaderState) : Option (Bytes × Bytes) → HeaderState
  | none => st
  | some entry =>
    { st with
      event := st.event.add ⟨.http, entry.1, .string entry.2⟩
      headerCount := st.headerCount + 1 }

/-- The effect of a line on the variables of the parser. -/
def apply (st : HeaderState) (line : Bytes) : HeaderState :=
  { st.addEntry (lineEntry line) with
    contentLength := contentLengthAfter st.contentLength line
    isChunked := isChunkedAfter st.isChunked line
    pos := st.pos + line.length + 1 }

@[simp]
theorem contentLength_apply (st : HeaderState) (line : Bytes) :
    (st.apply line).contentLength = contentLengthAfter st.contentLength line := rfl

@[simp]
theorem isChunked_apply (st : HeaderState) (line : Bytes) :
    (st.apply line).isChunked = isChunkedAfter st.isChunked line := rfl

@[simp]
theorem pos_apply (st : HeaderState) (line : Bytes) :
    (st.apply line).pos = st.pos + line.length + 1 := rfl

theorem event_apply (st : HeaderState) (line : Bytes) :
    (st.apply line).event = (st.addEntry (lineEntry line)).event := rfl

theorem headerCount_apply_ne_zero {st : HeaderState} (h : st.headerCount ≠ 0) (line : Bytes) :
    (st.apply line).headerCount ≠ 0 := by
  show (st.addEntry (lineEntry line)).headerCount ≠ 0
  rcases lineEntry line with - | entry
  · exact h
  · exact Nat.succ_ne_zero _

end HeaderState

/-- No line begins with the names of both framing headers. -/
theorem startsWith_transferEncoding_of_contentLength {line : Bytes}
    (h : startsWith line httpHeaderContentLength = true) :
    startsWith line httpHeaderTransferEncoding = false :=
  startsWith_eq_false (startsWith_iff.1 h) (by decide) (by decide)

/-- A rest cut out of a line. -/
theorem substr_none_eq (line : Bytes) (pos : ℕ) :
    substr line pos none =
      if pos ≤ line.length then .ok (line.drop pos) else .error .outOfRange := by
  by_cases hle : pos ≤ line.length
  · rw [substr, if_neg (not_lt.2 hle), if_pos hle]
  · rw [substr, if_pos (not_le.1 hle), if_neg hle]

theorem readFraming_eq (st : HeaderState) (line : Bytes) :
    readFraming st line =
      if (startsWith line httpHeaderContentLength = true → 16 ≤ line.length) ∧
          (startsWith line httpHeaderTransferEncoding = true → 19 ≤ line.length) then
        .ok (contentLengthAfter st.contentLength line, isChunkedAfter st.isChunked line)
      else .error .outOfRange := by
  rw [readFraming, show httpHeaderContentLength.length + 2 = 16 from rfl,
    show httpHeaderTransferEncoding.length + 2 = 19 from rfl, substr_none_eq, substr_none_eq,
    contentLengthAfter, isChunkedAfter]
  rcases hcl : startsWith line httpHeaderContentLength with - | -
  · rcases hte : startsWith line httpHeaderTransferEncoding with - | -
    · simp
    · by_cases hlen : 19 ≤ line.length
      · simp [hlen, bind, Except.bind, pure, Except.pure]
      · simp [hlen, bind, Except.bind]
  · have hte := startsWith_transferEncoding_of_contentLength hcl
    by_cases hlen : 16 ≤ line.length
    · simp [hlen, hte, bind, Except.bind, pure, Except.pure]
    · simp [hlen, bind, Except.bind]

theorem headerValue_eq (line : Bytes) (colon : ℕ) :
    headerValue line colon =
      if colon + 2 ≤ line.length then .ok (line.drop (colon + 2)).dropLast
      else .error .outOfRange := by
  rw [headerValue]
  by_cases hlt : colon + 3 ≤ line.length
  · rw [if_pos hlt, substr, if_neg (by omega), if_pos (by omega), List.dropLast_eq_take,
      List.length_drop, show line.length - colon - 3 = line.length - (colon + 2) - 1 by omega]
  · rw [if_neg hlt, substr_none_eq]
    by_cases hle : colon + 2 ≤ line.length
    · rw [if_pos hle, if_pos hle, List.drop_eq_nil_of_le (by omega)]
      rfl
    · rw [if_neg hle, if_neg hle]

/-- **A line behind the first** has its effect if it is long enough, and is out of range
otherwise. -/
theorem readHeaderLine_eq (st : HeaderState) (line : Bytes) :
    readHeaderLine st line =
      if LineOk line then .ok { st.apply line with pos := st.pos } else .error .outOfRange := by
  rw [readHeaderLine, readFraming_eq]
  by_cases hframing : (startsWith line httpHeaderContentLength = true → 16 ≤ line.length) ∧
      (startsWith line httpHeaderTransferEncoding = true → 19 ≤ line.length)
  · rw [if_pos hframing]
    rcases hcolon : line.idxOf? ':'.toUInt8 with - | colon
    · rw [if_pos ⟨hframing.1, hframing.2, by simp [hcolon]⟩]
      simp [bind, Except.bind, pure, Except.pure, HeaderState.apply, lineEntry, hcolon,
        HeaderState.addEntry]
    · simp only [bind, Except.bind, headerValue_eq]
      by_cases hle : colon + 2 ≤ line.length
      · rw [if_pos hle, if_pos ⟨hframing.1, hframing.2, by simpa [hcolon] using hle⟩]
        simp [pure, Except.pure, HeaderState.apply, lineEntry, hcolon, HeaderState.addEntry]
      · rw [if_neg hle, if_neg fun h ↦ hle (h.2.2 colon hcolon)]
  · rw [if_neg hframing, if_neg fun h ↦ hframing ⟨h.1, h.2.1⟩]
    rfl

/-! ### The head -/

/-- The lines between the first and the first empty one behind it. -/
def headerLines (input : Bytes) : List Bytes :=
  (input.splitOn 10).tail.takeWhile fun line ↦ !isEmptyline line

/-- The head is complete: each of its lines is long enough, and an empty one follows them. -/
def HeadOk (input : Bytes) : Prop :=
  (∃ line ∈ (input.splitOn 10).tail, isEmptyline line = true) ∧
    ∀ line ∈ headerLines input, LineOk line

instance (input : Bytes) : Decidable (HeadOk input) := inferInstanceAs (Decidable (_ ∧ _))

/-- The lines behind the first. -/
theorem readLines_eq {st : HeaderState} (hcount : st.headerCount ≠ 0) (lines : List Bytes) :
    readLines lines st =
      if (∃ line ∈ lines, isEmptyline line = true) ∧
          ∀ line ∈ lines.takeWhile (fun line ↦ !isEmptyline line), LineOk line then
        .ok ((lines.takeWhile fun line ↦ !isEmptyline line).foldl HeaderState.apply st)
      else .error .outOfRange := by
  induction lines generalizing st with
  | nil => rw [readLines, if_neg (by simp)]
  | cons line lines ih =>
    rw [readLines]
    rcases hempty : isEmptyline line with - | -
    · rw [if_neg Bool.false_ne_true, readLine, if_neg hcount, readHeaderLine_eq,
        List.takeWhile_cons_of_pos (by simp [hempty])]
      by_cases hok : LineOk line
      · rw [if_pos hok]
        refine (ih (HeaderState.headerCount_apply_ne_zero hcount line)).trans ?_
        simp only [List.exists_mem_cons_iff, hempty, Bool.false_eq_true, false_or,
          List.forall_mem_cons, hok, true_and, List.foldl_cons]
      · rw [if_neg hok, if_neg fun h ↦ hok (h.2 line List.mem_cons_self)]
        rfl
    · rw [if_pos rfl, if_neg (fun h ↦ hcount h.2), List.takeWhile_cons_of_neg (by simp [hempty]),
        if_pos ⟨⟨line, List.mem_cons_self, hempty⟩, by simp⟩]
      rfl

/-- The variables behind the first line. -/
def HeaderState.afterFirst (name line : Bytes) : HeaderState where
  event := Event.add .empty ⟨.http, name, .string line.dropLast⟩
  headerCount := 1
  contentLength := -1
  isChunked := false
  pos := line.length + 1

/-- The variables behind the head of a message whose first line is stored under `name`. -/
def headState (name input : Bytes) : HeaderState :=
  (headerLines input).foldl HeaderState.apply (.afterFirst name (firstLine input))

/-- **The head of any input.** -/
theorem readHeaders_eq (input : Bytes) :
    readHeaders input (input.length + 1) .init =
      if BeginsWithEmptyline input then .error .diverged
      else if firstLine input = [] then .ok .init
      else firstLineName (firstLine input) >>= fun name ↦
        if HeadOk input then .ok (headState name input) else .error .outOfRange := by
  have hlines : linesFrom input HeaderState.init.pos =
      firstLine input :: (input.splitOn 10).tail := by
    show linesFrom input 0 = _
    rw [linesFrom, if_neg (Nat.not_lt_zero _), List.drop_zero, splitOn_eq_cons]
    rfl
  rw [readHeaders_eq_readLines (Nat.lt_succ_of_le (Nat.sub_le _ _)), hlines, readLines]
  rcases hempty : isEmptyline (firstLine input) with - | -
  · rw [if_neg Bool.false_ne_true, if_neg fun h ↦ Bool.false_ne_true (hempty.symm.trans h.2),
      if_neg (ne_nil_of_isEmptyline hempty), readLine,
      if_pos (show HeaderState.init.headerCount = 0 from rfl), readFirstLine]
    rcases firstLineName (firstLine input) with e | name
    · rfl
    · have hnext : ({ HeaderState.init with
          event := HeaderState.init.event.add ⟨.http, name, .string (firstLine input).dropLast⟩
          headerCount := HeaderState.init.headerCount + 1
          pos := HeaderState.init.pos + (firstLine input).length + 1 } : HeaderState) =
          .afterFirst name (firstLine input) := by
        simp [HeaderState.afterFirst, HeaderState.init]
      show readLines _ _ = _
      rw [hnext]
      exact readLines_eq Nat.one_ne_zero _
  · rw [if_pos rfl]
    by_cases hnil : firstLine input = []
    · rw [if_neg (fun h ↦ h.1 hnil), if_neg (fun h ↦ h.1 hnil), if_pos hnil]
    · rw [if_pos ⟨hnil, rfl⟩, if_pos ⟨hnil, hempty⟩]

/-- The content length that the head announces, which is negative if it announces none. -/
def announcedLength (input : Bytes) : ℤ := (headerLines input).foldl contentLengthAfter (-1)

/-- The head announces a body in chunks. -/
def announcesChunks (input : Bytes) : Bool := (headerLines input).foldl isChunkedAfter false

/-- The length of the head, without the empty line. -/
def headLength (input : Bytes) : ℕ :=
  (headerLines input).foldl (fun pos line ↦ pos + line.length + 1) ((firstLine input).length + 1)

theorem contentLength_headState (name input : Bytes) :
    (headState name input).contentLength = announcedLength input :=
  (List.foldl_hom HeaderState.contentLength fun _ _ ↦ rfl).symm

theorem isChunked_headState (name input : Bytes) :
    (headState name input).isChunked = announcesChunks input :=
  (List.foldl_hom HeaderState.isChunked fun _ _ ↦ rfl).symm

theorem pos_headState (name input : Bytes) : (headState name input).pos = headLength input :=
  (List.foldl_hom HeaderState.pos fun _ _ ↦ rfl).symm

/-! ### The parameters of a head -/

/-- The parameters in the lines behind the first, in their order. -/
def headerEntries (input : Bytes) : List (Bytes × Bytes) := (headerLines input).filterMap lineEntry

/-- The value of the last entry with a name. -/
def lastValue (entries : List (Bytes × Bytes)) (name : Bytes) : Option Bytes :=
  (entries.reverse.find? fun entry ↦ entry.1 = name).map Prod.snd

theorem lastValue_append (entries entries' : List (Bytes × Bytes)) (name : Bytes) :
    lastValue (entries ++ entries') name =
      (lastValue entries' name).or (lastValue entries name) := by
  rw [lastValue, List.reverse_append, List.find?_append, Option.map_or, lastValue, lastValue]

theorem lastValue_singleton (entry : Bytes × Bytes) (name : Bytes) :
    lastValue [entry] name = if entry.1 = name then some entry.2 else none := by
  rw [lastValue, List.reverse_singleton, List.find?_singleton]
  simp only [decide_eq_true_eq]
  split_ifs
  · rfl
  · rfl

theorem lastValue_eq_none_iff {entries : List (Bytes × Bytes)} {name : Bytes} :
    lastValue entries name = none ↔ name ∉ entries.map Prod.fst := by
  rw [lastValue, Option.map_eq_none_iff, List.find?_eq_none, List.mem_map]
  simp only [List.mem_reverse, decide_eq_true_eq, not_exists, not_and]

/-- Among names that are pairwise distinct, every value is the last of its name. -/
theorem lastValue_of_mem {entries : List (Bytes × Bytes)} (hnodup : (entries.map Prod.fst).Nodup)
    {entry : Bytes × Bytes} (h : entry ∈ entries) : lastValue entries entry.1 = some entry.2 := by
  obtain ⟨before, after, rfl⟩ := List.append_of_mem h
  rw [List.map_append, List.map_cons, List.nodup_append, List.nodup_cons] at hnodup
  rw [← List.singleton_append, lastValue_append, lastValue_append,
    lastValue_eq_none_iff.2 hnodup.2.1.1, lastValue_singleton, if_pos rfl]
  rfl

/-- The string parameter of a header. -/
def headerParam (name value : Bytes) : Param := ⟨.http, name, .string value⟩

theorem getParam_apply (st : HeaderState) (line name : Bytes) :
    (st.apply line).event.getParam .http name =
      ((lastValue (lineEntry line).toList name).map (headerParam name)).or
        (st.event.getParam .http name) := by
  rw [HeaderState.event_apply]
  rcases lineEntry line with - | entry
  · rfl
  · rw [HeaderState.addEntry, Event.getParam_add, Option.toList_some, lastValue_singleton]
    by_cases hname : entry.1 = name
    · subst hname
      rw [if_pos ⟨rfl, rfl⟩, if_pos rfl]
      rfl
    · rw [if_neg fun h ↦ hname h.2, if_neg hname]
      rfl

/-- **A parameter of the head** is in the last line with its name. -/
theorem getParam_foldl_apply (lines : List Bytes) (st : HeaderState) (name : Bytes) :
    (lines.foldl HeaderState.apply st).event.getParam .http name =
      ((lastValue (lines.filterMap lineEntry) name).map (headerParam name)).or
        (st.event.getParam .http name) := by
  induction lines generalizing st with
  | nil => rfl
  | cons line lines ih =>
    have hentries : (line :: lines).filterMap lineEntry =
        (lineEntry line).toList ++ lines.filterMap lineEntry := by
      rw [List.filterMap_cons]
      rcases lineEntry line with - | entry
      · rfl
      · rfl
    rw [List.foldl_cons, ih, getParam_apply, hentries, lastValue_append, Option.map_or,
      Option.or_assoc]

/-- The parameters behind the head: the first line, under `kind`, and the headers over it. -/
theorem getParam_headState (kind input name : Bytes) :
    (headState kind input).event.getParam .http name =
      ((lastValue (headerEntries input) name).map (headerParam name)).or
        (if kind = name then some (headerParam kind (firstLine input).dropLast) else none) := by
  rw [headState, getParam_foldl_apply, HeaderState.afterFirst, Event.getParam_add, headerEntries]
  simp only [true_and]
  rfl

theorem paramCnt_headState_pos (kind input : Bytes) :
    0 < (headState kind input).event.paramCnt := by
  have hkind := getParam_headState kind input kind
  rw [if_pos rfl] at hkind
  rcases hlast : lastValue (headerEntries input) kind with - | value
  · rw [hlast] at hkind
    exact Event.paramCnt_pos_of_getParam hkind
  · rw [hlast] at hkind
    exact Event.paramCnt_pos_of_getParam hkind

/-! ### A head that is put together -/

/-- The text of a head: its first line and the lines behind it, each with its newline. -/
def headText (first : Bytes) (lines : List Bytes) : Bytes :=
  first ++ 10 :: lines.flatMap fun line ↦ line ++ [10]

/-- The lines of a head can be told apart, and none of them ends it. -/
structure HeadLines (first : Bytes) (lines : List Bytes) : Prop where
  newline_notMem : ∀ line ∈ first :: lines, 10 ∉ line
  isEmptyline : ∀ line ∈ first :: lines, isEmptyline line = false

theorem splitOn_flatMap {lines : List Bytes} (h : ∀ line ∈ lines, (10 : UInt8) ∉ line)
    (rest : Bytes) :
    (lines.flatMap (fun line ↦ line ++ [10]) ++ rest).splitOn 10 = lines ++ rest.splitOn 10 := by
  induction lines with
  | nil => rfl
  | cons line lines ih =>
    rw [List.forall_mem_cons] at h
    rw [List.flatMap_cons, List.append_assoc, List.append_assoc, List.singleton_append,
      List.splitOn_append_cons_self_of_not_mem h.1, ih h.2, List.cons_append]

namespace HeadLines

variable {first : Bytes} {lines : List Bytes} (h : HeadLines first lines) (rest : Bytes)

include h

theorem splitOn_text :
    (headText first lines ++ (crlf ++ rest)).splitOn 10 =
      first :: (lines ++ [13] :: rest.splitOn 10) := by
  have hlines : (headText first lines ++ (crlf ++ rest)) =
      first ++ 10 :: (lines.flatMap (fun line ↦ line ++ [10]) ++ ([13] ++ 10 :: rest)) := by
    simp [headText, crlf]
  rw [hlines, List.splitOn_append_cons_self_of_not_mem (h.newline_notMem _ List.mem_cons_self),
    splitOn_flatMap fun line hl ↦ h.newline_notMem _ (List.mem_cons_of_mem _ hl),
    List.splitOn_append_cons_self_of_not_mem (by decide)]

theorem firstLine_text : firstLine (headText first lines ++ (crlf ++ rest)) = first := by
  have hsplit := h.splitOn_text rest
  rw [splitOn_eq_cons] at hsplit
  exact (List.cons.inj hsplit).1

theorem headerLines_text : headerLines (headText first lines ++ (crlf ++ rest)) = lines := by
  have hall : ∀ line ∈ lines, (!LibSeal.isEmptyline line) = true := fun line hl ↦ by
    rw [h.isEmptyline _ (List.mem_cons_of_mem _ hl)]
    rfl
  rw [headerLines, h.splitOn_text, List.tail_cons, List.takeWhile_append_of_pos hall]
  exact List.append_nil lines

theorem headOk_text :
    HeadOk (headText first lines ++ (crlf ++ rest)) ↔ ∀ line ∈ lines, LineOk line := by
  rw [HeadOk, h.headerLines_text, h.splitOn_text, List.tail_cons]
  exact and_iff_right ⟨[13], List.mem_append_right _ List.mem_cons_self, rfl⟩

theorem not_beginsWithEmptyline_text :
    ¬ BeginsWithEmptyline (headText first lines ++ (crlf ++ rest)) := by
  rw [BeginsWithEmptyline, h.firstLine_text, h.isEmptyline _ List.mem_cons_self]
  exact fun hb ↦ Bool.false_ne_true hb.2

theorem headLength_text :
    headLength (headText first lines ++ (crlf ++ rest)) = (headText first lines).length := by
  have hfold : ∀ (lines : List Bytes) (n : ℕ),
      lines.foldl (fun pos line ↦ pos + line.length + 1) n =
        n + (lines.flatMap fun line ↦ line ++ [10]).length := by
    intro lines
    induction lines with
    | nil => exact fun n ↦ rfl
    | cons line lines ih =>
      intro n
      rw [List.foldl_cons, ih, List.flatMap_cons, List.length_append, List.length_append,
        List.length_singleton]
      omega
  rw [headLength, h.firstLine_text, h.headerLines_text, hfold, headText, List.length_append,
    List.length_cons]
  omega

theorem drop_headLength_text :
    (headText first lines ++ (crlf ++ rest)).drop
      (headLength (headText first lines ++ (crlf ++ rest)) + 2) = rest := by
  rw [h.headLength_text, ← List.append_assoc]
  exact List.drop_left' (by simp [crlf])

end HeadLines

/-! ### Lines with a colon -/

section ColonLine

variable {name tail : Bytes}

/-- A line behind whose colon something follows is long enough. -/
theorem lineOk_of_colon (hcolon : ':'.toUInt8 ∉ name) (htail : tail ≠ []) :
    LineOk (name ++ ':'.toUInt8 :: tail) := by
  have hlen := List.length_pos_of_ne_nil htail
  refine ⟨?_, ?_, ?_⟩
  · rw [startsWith_append_cons (by decide), startsWith_iff]
    intro h
    have hname : 14 ≤ name.length := h.length_le
    rw [List.length_append, List.length_cons]
    omega
  · rw [startsWith_append_cons (by decide), startsWith_iff]
    intro h
    have hname : 17 ≤ name.length := h.length_le
    rw [List.length_append, List.length_cons]
    omega
  · rw [idxOf?_append_cons hcolon]
    intro colon h
    cases Option.mem_some.1 h
    rw [List.length_append, List.length_cons]
    omega

theorem lineEntry_of_colon (hcolon : ':'.toUInt8 ∉ name) :
    lineEntry (name ++ ':'.toUInt8 :: tail) = some (name, (tail.drop 1).dropLast) := by
  rw [lineEntry, idxOf?_append_cons hcolon, Option.map_some, List.take_left,
    show name.length + 2 = name.length + (1 + 1) from rfl, ← List.drop_drop, List.drop_left]
  rfl

theorem isEmptyline_of_colon (hname : name ≠ []) (htail : tail ≠ []) :
    isEmptyline (name ++ ':'.toUInt8 :: tail) = false := by
  have hname' := List.length_pos_of_ne_nil hname
  have htail' := List.length_pos_of_ne_nil htail
  refine isEmptyline_of_length ?_
  rw [List.length_append, List.length_cons]
  omega

end ColonLine

end LibSeal
