import LibSeal.Auditing.Http
import LibSeal.Data.Loop
import Mathlib.Algebra.GroupWithZero.Nat

/-!
# Bodies in chunks

The loop of `readHttpChunkedMessage`, on an arbitrary byte string. The position only says what is
left of the input, so the loop is the one whose state has the rest of the input in it (`chunkRound`,
`readHttpChunkedMessage_eq`). It always ends, since a round takes at least a digit off the rest
(`isSome_run_chunkRound`).

From what a round can do (`chunkRound_cases`) follows when the chunks are read
(`chunkedBody_eq_ok_iff`). Well-formed chunks are put together (`chunkedBody_text`). The buffer for
the digits of a size has eight bytes, so leading zeros are read as long as there is room for them
(`readsChunkSize_iff`).
-/

namespace LibSeal

open Bytes

/-! ### Hexadecimal numbers -/

/-- The number that hexadecimal digits stand for. -/
def hexNumber : Bytes → ℕ
  | [] => 0
  | b :: digits => (hexValue b).getD 0 * 16 ^ digits.length + hexNumber digits

theorem hexValue_lt {b : UInt8} {d : ℕ} (h : hexValue b = some d) : d < 16 := by
  have hall : ∀ b : UInt8, ∀ d ∈ hexValue b, d < 16 := forall_byte (by decide +kernel)
  exact hall b d h

private theorem hexToIntFrom_of_isHex {digits : Bytes} (hhex : ∀ b ∈ digits, isHex b = true)
    {result : ℕ} (hroom : result + 16 ^ digits.length ≤ 4294967296) :
    hexToIntFrom result digits.length digits = .ok (result + hexNumber digits) := by
  induction digits generalizing result with
  | nil => rfl
  | cons b digits ih =>
    rw [List.forall_mem_cons] at hhex
    obtain ⟨d, hd⟩ := Option.isSome_iff_exists.1 hhex.1
    have hlt := hexValue_lt hd
    rw [List.length_cons, Nat.pow_succ] at hroom
    have hpow : 0 < 16 ^ digits.length := Nat.pow_pos (by decide)
    have hnext : result + d * 16 ^ digits.length + 16 ^ digits.length ≤ 4294967296 := by
      have hmul : (d + 1) * 16 ^ digits.length ≤ 16 * 16 ^ digits.length :=
        Nat.mul_le_mul_right _ hlt
      rw [Nat.succ_mul] at hmul
      omega
    rw [List.length_cons, hexToIntFrom, hd]
    simp only [Nat.mod_eq_of_lt (show result + d * 16 ^ digits.length < 4294967296 by omega)]
    rw [ih hhex.2 hnext, hexNumber, hd, Option.getD_some, Nat.add_assoc]

/-- **Eight digits are read as the number they stand for.** -/
theorem hexToInt_eq {digits : Bytes} (hhex : ∀ b ∈ digits, isHex b = true)
    (hlen : digits.length ≤ 8) : hexToInt digits digits.length = .ok (hexNumber digits) := by
  have hroom : 0 + 16 ^ digits.length ≤ 4294967296 := by
    rw [Nat.zero_add]
    exact Nat.pow_le_pow_right (by decide) hlen
  rw [hexToInt, hexToIntFrom_of_isHex hhex hroom, Nat.zero_add]

/-! ### The loop over the chunks -/

/-- The digits of the size of the next chunk. -/
def sizeDigits (rest : Bytes) : Bytes := rest.takeWhile isHex

/-- The size of the next chunk. -/
def chunkSize (rest : Bytes) : ℕ := hexNumber (sizeDigits rest)

/-- Where the next chunk ends, with the two bytes behind its size and the two behind its data. -/
def chunkEnd (rest : Bytes) : ℕ := (sizeDigits rest).length + 2 + chunkSize rest + 2

/-- The digits of a size are those in front of the first character that is none. -/
theorem sizeDigits_append {digits : Bytes} {c : UInt8} (hhex : ∀ b ∈ digits, isHex b = true)
    (hc : isHex c = false) (rest : Bytes) : sizeDigits (digits ++ c :: rest) = digits := by
  rw [sizeDigits, List.takeWhile_append_of_pos hhex, List.takeWhile_cons_of_neg (by simp [hc]),
    List.append_nil]

/-- The variables of `readHttpChunkedMessage`, with the rest of the input for the position in it. -/
structure ChunkState where
  payload : Option Bytes
  length : ℤ
  rest : Bytes

/-- The block behind the copying of the next chunk. -/
def copyChunk (junk : ℕ → UInt8) (s : ChunkState) : Except CFault Bytes :=
  let block :=
    Memory.realloc (some junk) s.payload ((s.length + chunkSize s.rest) % 4294967296).toNat
  let data := ((s.rest ++ [0]).drop ((sizeDigits s.rest).length + 2)).take (chunkSize s.rest)
  if data.length < chunkSize s.rest ∨ s.length < 0 then .error .outOfBounds
  else Memory.memcpy (block.getD []) s.length.toNat data

/-- A round of the loop of `readHttpChunkedMessage`. -/
def chunkRound (junk : ℕ → UInt8) (s : ChunkState) :
    Except CFault (ChunkState ⊕ (Option Bytes × ℤ)) :=
  if 8 < (sizeDigits s.rest).length then .error .outOfBounds
  else if s.rest.length ≤ (sizeDigits s.rest).length then .error .outOfRange
  else if chunkSize s.rest = 0 then .ok (.inr (s.payload, s.length))
  else (copyChunk junk s).map fun block ↦
    if s.rest.length ≤ chunkEnd s.rest then
      .inr (some block, toInt32 (s.length + chunkSize s.rest))
    else .inl ⟨some block, toInt32 (s.length + chunkSize s.rest), s.rest.drop (chunkEnd s.rest)⟩

/-- `readHttpChunkSize`, in terms of what is left of the input. -/
theorem readHttpChunkSize_eq (input : Bytes) (pos : ℕ) :
    readHttpChunkSize input pos =
      if 8 < (sizeDigits (input.drop pos)).length then .error .outOfBounds
      else if (input.drop pos).length ≤ (sizeDigits (input.drop pos)).length then
        .error .outOfRange
      else .ok (chunkSize (input.drop pos), pos + (sizeDigits (input.drop pos)).length) := by
  have hdigits : (input.drop pos).takeWhile isHex = sizeDigits (input.drop pos) := rfl
  rw [readHttpChunkSize]
  simp only [hdigits, List.length_drop, Nat.sub_le_iff_le_add']
  split_ifs with hlen hend
  · rfl
  · rfl
  · have hhex : ∀ b ∈ sizeDigits (input.drop pos), isHex b = true :=
      fun b hb ↦ List.mem_takeWhile_imp hb
    rw [hexToInt_eq hhex (not_lt.1 hlen)]
    rfl

/-- **The rounds of the loop** depend on what is left of the input. -/
theorem readHttpChunks_eq_run (junk : ℕ → UInt8) (input : Bytes) (n pos : ℕ)
    (payload : Option Bytes) (length : ℤ) :
    readHttpChunks junk input n pos payload length =
      (Loop.run (chunkRound junk) n ⟨payload, length, input.drop pos⟩).getD (.error .diverged) := by
  induction n generalizing pos payload length with
  | zero => rfl
  | succ n ih =>
    rw [readHttpChunks, readHttpChunkSize_eq, Loop.run, chunkRound]
    by_cases hlen : 8 < (sizeDigits (input.drop pos)).length
    · simp only [if_pos hlen]
      rfl
    by_cases hover : (input.drop pos).length ≤ (sizeDigits (input.drop pos)).length
    · simp only [if_neg hlen, if_pos hover]
      rfl
    by_cases hzero : chunkSize (input.drop pos) = 0
    · simp only [if_neg hlen, if_neg hover, bind, Except.bind, if_pos hzero]
      rfl
    have hrest : (input.drop pos).length = input.length - pos := List.length_drop
    -- the same bytes are copied, and the same are left
    have hdata : (input ++ [0]).drop (pos + (sizeDigits (input.drop pos)).length + 2) =
        (input.drop pos ++ [0]).drop ((sizeDigits (input.drop pos)).length + 2) := by
      rw [← List.drop_append_of_le_length (by omega), List.drop_drop, Nat.add_assoc]
    have hend : pos + (sizeDigits (input.drop pos)).length + 2 + chunkSize (input.drop pos) + 2 =
        pos + chunkEnd (input.drop pos) := by rw [chunkEnd]; omega
    have hmore : input.length ≤ pos + chunkEnd (input.drop pos) ↔
        (input.drop pos).length ≤ chunkEnd (input.drop pos) := by omega
    simp only [if_neg hlen, if_neg hover, bind, Except.bind, if_neg hzero, hdata, hend, hmore,
      copyChunk]
    split_ifs with hfault hlast
    · rfl
    · rfl
    · rcases Memory.memcpy _ _ _ with e | block
      · rfl
      · rfl
    · rcases Memory.memcpy _ _ _ with e | block
      · rfl
      · have hnext := ih (pos + chunkEnd (input.drop pos)) (some block)
          (toInt32 (length + chunkSize (input.drop pos)))
        rw [← List.drop_drop] at hnext
        exact hnext

/-- The size of the next chunk has at most eight digits, and something follows them. -/
def SizePresent (rest : Bytes) : Prop :=
  (sizeDigits rest).length ≤ 8 ∧ (sizeDigits rest).length < rest.length

/-- The data of the next chunk is there, behind `length` bytes that have been read. The terminator
that a string has in memory may be its last byte. -/
structure DataPresent (length : ℤ) (rest : Bytes) : Prop where
  nonneg : 0 ≤ length
  fits : length + chunkSize rest < 4294967296
  present : (sizeDigits rest).length + 2 + chunkSize rest ≤ rest.length + 1

/-- Copying succeeds exactly if the data is there. -/
theorem copyChunk_eq_ok_iff (junk : ℕ → UInt8) {s : ChunkState} (hsize : SizePresent s.rest) :
    (∃ block, copyChunk junk s = .ok block) ↔ DataPresent s.length s.rest := by
  have hdata : (((s.rest ++ [0]).drop ((sizeDigits s.rest).length + 2)).take
      (chunkSize s.rest)).length =
      min (chunkSize s.rest) (s.rest.length + 1 - ((sizeDigits s.rest).length + 2)) := by
    simp
  have hlen := Memory.length_realloc junk s.payload
    ((s.length + chunkSize s.rest) % 4294967296).toNat _ rfl
  have hlt := hsize.2
  rw [copyChunk, Memory.memcpy]
  constructor
  · rintro ⟨block, h⟩
    split_ifs at h with hfault hroom
    rw [hdata] at hfault hroom
    rw [Memory.realloc, Option.map_some, Option.getD_some, hlen] at hroom
    exact ⟨by omega, by omega, by omega⟩
  · rintro ⟨h0, hfits, hpresent⟩
    rw [if_neg (by rw [hdata]; omega), if_neg]
    · exact ⟨_, rfl⟩
    · rw [hdata, Memory.realloc, Option.map_some, Option.getD_some, hlen]
      omega

/-- **What a round can do.** It fails where the size or the data of the next chunk is not there, it
ends the loop at a chunk of size 0 or with the input, or it goes on behind the chunk. -/
theorem chunkRound_cases (junk : ℕ → UInt8) (s : ChunkState) :
    (∃ e, chunkRound junk s = .error e ∧
      ¬ (SizePresent s.rest ∧ (chunkSize s.rest = 0 ∨ DataPresent s.length s.rest))) ∨
    (chunkRound junk s = .ok (.inr (s.payload, s.length)) ∧
      SizePresent s.rest ∧ chunkSize s.rest = 0) ∨
    ∃ block, SizePresent s.rest ∧ chunkSize s.rest ≠ 0 ∧ DataPresent s.length s.rest ∧
      chunkRound junk s = .ok (if s.rest.length ≤ chunkEnd s.rest then
        .inr (some block, toInt32 (s.length + chunkSize s.rest))
      else .inl ⟨some block, toInt32 (s.length + chunkSize s.rest),
        s.rest.drop (chunkEnd s.rest)⟩) := by
  rw [chunkRound]
  by_cases hlen : 8 < (sizeDigits s.rest).length
  · rw [if_pos hlen]
    exact .inl ⟨_, rfl, fun h ↦ absurd h.1.1 (not_le.2 hlen)⟩
  by_cases hend : s.rest.length ≤ (sizeDigits s.rest).length
  · rw [if_neg hlen, if_pos hend]
    exact .inl ⟨_, rfl, fun h ↦ absurd h.1.2 (not_lt.2 hend)⟩
  have hsize : SizePresent s.rest := ⟨not_lt.1 hlen, not_le.1 hend⟩
  rw [if_neg hlen, if_neg hend]
  -- the chunk of size 0 ends the loop before anything is copied
  by_cases hzero : chunkSize s.rest = 0
  · rw [if_pos hzero]
    exact .inr (.inl ⟨rfl, hsize, hzero⟩)
  rw [if_neg hzero]
  rcases hcopy : copyChunk junk s with e | block
  · refine .inl ⟨e, rfl, fun h ↦ ?_⟩
    obtain ⟨block, hblock⟩ := (copyChunk_eq_ok_iff junk hsize).2 (h.2.resolve_left hzero)
    exact absurd (hcopy.symm.trans hblock) (by simp)
  · have hdata := (copyChunk_eq_ok_iff junk hsize).1 ⟨block, hcopy⟩
    exact .inr (.inr ⟨block, hsize, hzero, hdata, rfl⟩)

/-- A round that goes on leaves a shorter rest. -/
theorem length_rest_of_chunkRound {junk : ℕ → UInt8} {s s' : ChunkState}
    (h : chunkRound junk s = .ok (.inl s')) : s'.rest.length < s.rest.length := by
  obtain ⟨e, he, -⟩ | ⟨hleave, -, -⟩ | ⟨block, hsize, -, -, hround⟩ := chunkRound_cases junk s
  · rw [he] at h
    cases h
  · rw [hleave] at h
    cases h
  · rw [hround, Except.ok.injEq] at h
    have hrest := hsize.2
    split_ifs at h with hlast
    cases h
    simp only [List.length_drop, chunkEnd]
    omega

/-- **The loop over the chunks ends**, within as many rounds as the rest has bytes. -/
theorem isSome_run_chunkRound (junk : ℕ → UInt8) {s : ChunkState} {n : ℕ} (hn : s.rest.length < n) :
    (Loop.run (chunkRound junk) n s).isSome = true :=
  Loop.isSome_run_of_measure (I := fun _ ↦ True) (fun s ↦ s.rest.length)
    (fun _ _ _ h ↦ ⟨trivial, length_rest_of_chunkRound h⟩) trivial hn

/-- The body that the rest of an input has in chunks. -/
def chunkedBody (junk : ℕ → UInt8) (rest : Bytes) : Except CFault (Option Bytes × ℤ) :=
  (Loop.run (chunkRound junk) (rest.length + 1) ⟨none, 0, rest⟩).getD (.error .diverged)

theorem readHttpChunkedMessage_eq (junk : ℕ → UInt8) (input : Bytes) (pos : ℕ) :
    readHttpChunkedMessage junk input pos = chunkedBody junk (input.drop pos) := by
  have hrun := Loop.run_eq_of_isSome (n := input.length + 1)
    (isSome_run_chunkRound junk (s := ⟨none, 0, input.drop pos⟩)
      (by simp only [List.length_drop]; omega))
    (isSome_run_chunkRound junk (Nat.lt_succ_self _))
  rw [readHttpChunkedMessage, readHttpChunks_eq_run, hrun]
  rfl

/-! ### Chunks that are there -/

/-- The rest of an input has chunks to read, as far as they are read. -/
inductive ChunksPresent : ℤ → Bytes → Prop
  | last {length : ℤ} {rest : Bytes} (size : SizePresent rest) (zero : chunkSize rest = 0) :
    ChunksPresent length rest
  | chunk {length : ℤ} {rest : Bytes} (size : SizePresent rest) (data : DataPresent length rest)
    (more : chunkEnd rest < rest.length →
      ChunksPresent (toInt32 (length + chunkSize rest)) (rest.drop (chunkEnd rest))) :
    ChunksPresent length rest

/-- **The chunks are read exactly if they are there.** -/
theorem run_chunkRound_eq_ok_iff (junk : ℕ → UInt8) {n : ℕ} {s : ChunkState}
    (hn : s.rest.length < n) :
    (∃ r, Loop.run (chunkRound junk) n s = some (.ok r)) ↔ ChunksPresent s.length s.rest := by
  induction n generalizing s with
  | zero => exact absurd hn (Nat.not_lt_zero _)
  | succ n ih =>
    obtain ⟨e, he, hmissing⟩ | ⟨hleave, hsize, hzero⟩ | ⟨block, hsize, hzero, hdata, hround⟩ :=
      chunkRound_cases junk s
    · rw [Loop.run_of_error he]
      refine iff_of_false (by simp) fun h ↦ hmissing ?_
      cases h with
      | last size zero => exact ⟨size, .inl zero⟩
      | chunk size data _ => exact ⟨size, .inr data⟩
    · rw [Loop.run_of_leave hleave]
      exact iff_of_true ⟨_, rfl⟩ (.last hsize hzero)
    · by_cases hlast : s.rest.length ≤ chunkEnd s.rest
      · rw [if_pos hlast] at hround
        rw [Loop.run_of_leave hround]
        exact iff_of_true ⟨_, rfl⟩ (.chunk hsize hdata fun hlt ↦ absurd hlast (not_le.2 hlt))
      · rw [if_neg hlast] at hround
        have hshort := length_rest_of_chunkRound hround
        rw [Loop.run_of_continue hround, ih (by omega)]
        constructor
        · exact fun h ↦ .chunk hsize hdata fun _ ↦ h
        · intro h
          cases h with
          | last _ zero => exact absurd zero hzero
          | chunk _ _ more => exact more (not_le.1 hlast)

theorem chunkedBody_eq_ok_iff (junk : ℕ → UInt8) (rest : Bytes) :
    (∃ r, chunkedBody junk rest = .ok r) ↔ ChunksPresent 0 rest := by
  have hn := Nat.lt_succ_self rest.length
  obtain ⟨r, hr⟩ := Option.isSome_iff_exists.1
    (isSome_run_chunkRound junk (s := ⟨none, 0, rest⟩) hn)
  rw [chunkedBody, hr, Option.getD_some,
    ← run_chunkRound_eq_ok_iff junk (s := ⟨none, 0, rest⟩) hn, hr]
  simp only [Option.some.injEq]

/-- A size without digits is no size. -/
theorem length_sizeDigits_pos {rest : Bytes} (h : chunkSize rest ≠ 0) :
    0 < (sizeDigits rest).length := by
  refine List.length_pos_of_ne_nil fun hnil ↦ h ?_
  rw [chunkSize, hnil, hexNumber]

/-- What the loop returns, when the lengths stay within an `int`: what it began with if there is no
chunk, and more otherwise. -/
theorem length_of_run_chunkRound {junk : ℕ → UInt8} {n : ℕ} {s : ChunkState}
    {payload : Option Bytes} {length : ℤ} (hs : 0 ≤ s.length)
    (hroom : s.length + s.rest.length < 2147483648)
    (hrun : Loop.run (chunkRound junk) n s = some (.ok (payload, length))) :
    (chunkSize s.rest = 0 ∧ payload = s.payload ∧ length = s.length) ∨
      (chunkSize s.rest ≠ 0 ∧ payload ≠ none ∧ s.length < length) := by
  induction n generalizing s with
  | zero => exact absurd hrun (by simp [Loop.run])
  | succ n ih =>
    obtain ⟨e, he, -⟩ | ⟨hleave, -, hzero⟩ | ⟨block, -, hzero, hdata, hround⟩ :=
      chunkRound_cases junk s
    · rw [Loop.run_of_error he] at hrun
      exact absurd hrun (by simp)
    · rw [Loop.run_of_leave hleave] at hrun
      cases Except.ok.inj (Option.some.inj hrun)
      exact Or.inl ⟨hzero, rfl, rfl⟩
    · have hdigits := length_sizeDigits_pos hzero
      have hpresent := hdata.present
      have hint : toInt32 (s.length + chunkSize s.rest) = s.length + chunkSize s.rest :=
        toInt32_eq_self (by omega) (by omega)
      refine Or.inr ⟨hzero, ?_⟩
      -- within an int the sum of the lengths does not wrap around
      rw [hint] at hround
      by_cases hlast : s.rest.length ≤ chunkEnd s.rest
      · rw [if_pos hlast] at hround
        rw [Loop.run_of_leave hround] at hrun
        cases Except.ok.inj (Option.some.inj hrun)
        exact ⟨by simp, by omega⟩
      · rw [if_neg hlast] at hround
        rw [Loop.run_of_continue hround] at hrun
        rcases ih (by simp only; omega)
          (by simp only [List.length_drop, chunkEnd] at hlast ⊢; omega) hrun with
          ⟨-, hpayload, hlength⟩ | ⟨-, hpayload, hlength⟩
        · refine ⟨by rw [hpayload]; exact Option.some_ne_none block, ?_⟩
          rw [hlength]
          simp only
          omega
        · simp only at hlength
          exact ⟨hpayload, by omega⟩

/-! ### Well-formed chunks -/

/-- The end of a line. -/
def crlf : Bytes := [13, 10]

/-- A chunk of a body, with its size in any hexadecimal digits there is room for. -/
structure HttpChunk where
  digits : Bytes
  data : Bytes
  isHex_digits : ∀ b ∈ digits, isHex b = true
  length_digits : digits.length ≤ 8
  hexToInt_digits : hexToInt digits digits.length = .ok data.length
  data_ne_nil : data ≠ []

def HttpChunk.text (c : HttpChunk) : Bytes := c.digits ++ crlf ++ c.data ++ crlf

namespace HttpChunk

/-- The data of chunks is not longer than their text. -/
theorem length_flatMap_data_le (chunks : List HttpChunk) :
    (chunks.flatMap data).length ≤ (chunks.flatMap text).length := by
  induction chunks with
  | nil => exact le_rfl
  | cons c chunks ih =>
    simp only [List.flatMap_cons, List.length_append, text]
    omega

variable (c : HttpChunk) (rest : Bytes)

theorem sizeDigits_text : sizeDigits (c.text ++ rest) = c.digits := by
  rw [text, List.append_assoc, List.append_assoc, List.append_assoc]
  exact sizeDigits_append c.isHex_digits (by decide) _

theorem chunkSize_text : chunkSize (c.text ++ rest) = c.data.length := by
  rw [chunkSize, sizeDigits_text]
  exact Except.ok.inj ((hexToInt_eq c.isHex_digits c.length_digits).symm.trans c.hexToInt_digits)

theorem chunkEnd_text : chunkEnd (c.text ++ rest) = c.text.length := by
  rw [chunkEnd, sizeDigits_text, chunkSize_text]
  simp only [text, List.length_append, crlf, List.length_cons, List.length_nil]

theorem sizePresent_text : SizePresent (c.text ++ rest) := by
  rw [SizePresent, sizeDigits_text]
  refine ⟨c.length_digits, ?_⟩
  simp only [text, List.length_append, crlf, List.length_cons]
  omega

/-- The data of a chunk is appended. -/
theorem copyChunk_text (junk : ℕ → UInt8) {payload : Option Bytes}
    (hsmall : (payload.getD []).length + c.data.length < 2147483648) :
    copyChunk junk ⟨payload, (payload.getD []).length, c.text ++ rest⟩ =
      .ok (payload.getD [] ++ c.data) := by
  have hdata : ((c.text ++ rest ++ [0]).drop (c.digits.length + 2)).take c.data.length =
      c.data := by
    have hline : c.text ++ rest ++ [0] =
        (c.digits ++ crlf) ++ (c.data ++ (crlf ++ rest ++ [0])) := by
      simp only [text, List.append_assoc]
    rw [hline, List.drop_left' (by rw [List.length_append]; rfl), List.take_left]
  have hwrap : (((payload.getD []).length + c.data.length : ℤ) % 4294967296).toNat =
      (payload.getD []).length + c.data.length := by omega
  obtain ⟨block, hrealloc, hcpy⟩ := Memory.memcpy_realloc junk payload c.data
  rw [copyChunk]
  simp only [sizeDigits_text, chunkSize_text, hdata, hwrap, hrealloc, lt_irrefl, false_or,
    if_neg (not_lt.2 (Int.natCast_nonneg (payload.getD []).length)), Option.getD_some,
    Int.toNat_natCast, hcpy]

/-- A round reads a chunk and goes on behind it. -/
theorem chunkRound_text (junk : ℕ → UInt8) {payload : Option Bytes} (hrest : rest ≠ [])
    (hsmall : (payload.getD []).length + c.data.length < 2147483648) :
    chunkRound junk ⟨payload, (payload.getD []).length, c.text ++ rest⟩ =
      .ok (.inl ⟨some (payload.getD [] ++ c.data), (payload.getD [] ++ c.data).length, rest⟩) := by
  have hsize := c.sizePresent_text rest
  have hpos := List.length_pos_of_ne_nil hrest
  have hmore : ¬ (c.text ++ rest).length ≤ chunkEnd (c.text ++ rest) := by
    rw [chunkEnd_text, List.length_append]
    omega
  have hzero : chunkSize (c.text ++ rest) ≠ 0 := by
    rw [chunkSize_text]
    exact (List.length_pos_of_ne_nil c.data_ne_nil).ne'
  have hlength : toInt32 ((payload.getD []).length + chunkSize (c.text ++ rest)) =
      ((payload.getD [] ++ c.data).length : ℤ) := by
    rw [chunkSize_text, List.length_append, ← toInt32_of_lt hsmall]
    rfl
  rw [chunkRound, if_neg (not_lt.2 hsize.1), if_neg (not_le.2 hsize.2), if_neg hzero,
    c.copyChunk_text rest junk hsmall, Except.map, if_neg hmore, hlength, chunkEnd_text,
    List.drop_left]

/-- **The loop over the chunks** appends their data to what it has. -/
theorem run_chunkRound_text (junk : ℕ → UInt8) (chunks : List HttpChunk) (payload : Option Bytes)
    (hsmall : (payload.getD []).length + (chunks.flatMap data).length < 2147483648) :
    Loop.run (chunkRound junk) (chunks.length + 1) ⟨payload, (payload.getD []).length,
        chunks.flatMap text ++ (ascii "0" ++ crlf ++ crlf)⟩ =
      some (.ok (if chunks = [] then payload else some (payload.getD [] ++ chunks.flatMap data),
        ((payload.getD [] ++ chunks.flatMap data).length : ℤ))) := by
  induction chunks generalizing payload with
  | nil =>
    have hlast : chunkRound junk ⟨payload, (payload.getD []).length,
        ascii "0" ++ crlf ++ crlf⟩ = .ok (.inr (payload, (payload.getD []).length)) := rfl
    rw [List.flatMap_nil, List.nil_append, List.length_nil, Loop.run_of_leave hlast, if_pos rfl,
      List.flatMap_nil, List.append_nil]
  | cons c chunks ih =>
    rw [List.flatMap_cons, List.length_append] at hsmall
    have hlast : chunks.flatMap text ++ (ascii "0" ++ crlf ++ crlf) ≠ [] :=
      List.append_ne_nil_of_right_ne_nil _ (by decide)
    have hrest := ih (some (payload.getD [] ++ c.data))
      (by rw [Option.getD_some, List.length_append]; omega)
    rw [Option.getD_some] at hrest
    rw [List.flatMap_cons, List.append_assoc,
      Loop.run_of_continue (c.chunkRound_text _ junk hlast (by omega)), List.length_cons, hrest,
      if_neg (List.cons_ne_nil _ _), List.flatMap_cons, List.append_assoc]
    split_ifs with hnil
    · rw [hnil, List.flatMap_nil, List.append_nil]
    · rfl

end HttpChunk

/-- **Well-formed chunks are put together.** -/
theorem chunkedBody_text (junk : ℕ → UInt8) {chunks : List HttpChunk} (hne : chunks ≠ [])
    (hsmall : (chunks.flatMap HttpChunk.data).length < 2147483648) :
    chunkedBody junk (chunks.flatMap HttpChunk.text ++ (ascii "0" ++ crlf ++ crlf)) =
      .ok (some (chunks.flatMap HttpChunk.data), (chunks.flatMap HttpChunk.data).length) := by
  have hread := HttpChunk.run_chunkRound_text junk chunks none
    (by rw [Option.getD_none, List.length_nil, Nat.zero_add]; exact hsmall)
  rw [if_neg hne, Option.getD_none, List.nil_append] at hread
  have hrun := Loop.run_eq_of_isSome (isSome_run_chunkRound junk (Nat.lt_succ_self _))
    (Option.isSome_of_eq_some hread)
  rw [chunkedBody]
  exact congrArg (fun r ↦ Option.getD r _) (hrun.trans hread)

/-! ### Sizes of any number of digits -/

/-- The shifts of `hexToInt`, `(length - 1 - i) * 4` at the digit `i`. -/
def hexShifts (length : ℕ) : List ℕ := (List.range length).map fun i ↦ (length - 1 - i) * 4

/-- **A size is read**: the value of the digits and the position behind them are returned, so the
buffer has had room for the digits, and no shift has left an `unsigned int`. -/
structure ReadsChunkSize (stream : Bytes) (pos : ℕ) (digits : Bytes) : Prop where
  size : readHttpChunkSize stream pos = .ok (hexNumber digits, pos + digits.length)
  shifts : ∀ n ∈ hexShifts digits.length, n < 32

theorem lt_of_mem_hexShifts {length n : ℕ} (hlen : length ≤ 8) (hn : n ∈ hexShifts length) :
    n < 32 := by
  obtain ⟨i, hi, rfl⟩ := List.mem_map.1 hn
  rw [List.mem_range] at hi
  omega

/-- **A size is read exactly if it has at most eight digits**, whatever its value. -/
theorem readsChunkSize_iff {stream digits rest : Bytes} {pos : ℕ} {c : UInt8}
    (hhex : ∀ b ∈ digits, isHex b = true) (hc : isHex c = false)
    (hstream : stream.drop pos = digits ++ c :: rest) :
    ReadsChunkSize stream pos digits ↔ digits.length ≤ 8 := by
  have hdigits : sizeDigits (stream.drop pos) = digits := by
    rw [hstream, sizeDigits_append hhex hc]
  constructor
  · intro h
    by_contra hlen
    have hread := h.size
    -- the ninth digit is written behind the buffer
    rw [readHttpChunkSize_eq, hdigits, if_pos (not_le.1 hlen)] at hread
    cases hread
  · intro hlen
    have hmore : ¬ (stream.drop pos).length ≤ digits.length := by
      rw [hstream, List.length_append, List.length_cons]
      omega
    refine ⟨?_, fun n ↦ lt_of_mem_hexShifts hlen⟩
    rw [readHttpChunkSize_eq, hdigits, if_neg (not_lt.2 hlen), if_neg hmore, chunkSize, hdigits]

/-- Eight digits of both cases, with leading zeros. -/
theorem readsChunkSize_leadingZeros :
    ReadsChunkSize (ascii "0000aBc5\r\n") 0 (ascii "0000aBc5") := by
  have hstream : (ascii "0000aBc5\r\n").drop 0 = ascii "0000aBc5" ++ 13 :: [10] := rfl
  exact (readsChunkSize_iff (by decide +kernel) rfl hstream).2 (by decide +kernel)

/-- Nine digits are too many, although they stand for 5. -/
theorem not_readsChunkSize_nineDigits :
    ¬ ∀ (stream digits rest : Bytes) (pos : ℕ) (c : UInt8), digits ≠ [] →
      (∀ b ∈ digits, isHex b = true) → isHex c = false →
      stream.drop pos = digits ++ c :: rest → hexNumber digits < 4294967296 →
      ReadsChunkSize stream pos digits := by
  intro h
  have hread := (h (ascii "000000005\r\n") (ascii "000000005") [10] 0 13 (List.cons_ne_nil _ _)
    (by decide +kernel) rfl rfl (by decide +kernel)).size
  have hfault : readHttpChunkSize (ascii "000000005\r\n") 0 = .error .outOfBounds := rfl
  rw [hfault] at hread
  cases hread

end LibSeal
