import LibSeal.Dropbox.Main

/-!
# How `commit_info` is written

Dropbox writes base 64 into a URL with substitutes for the three characters that mean something
there, and a client may escape any character as `%` and two hexadecimal digits. A text has many
spellings, one choice for each of its characters (`Spelling`), and `decode_url_encoding` takes every
one of them back to the text (`decodeUrlEncoding_flatten`). A piece is decoded whatever stands
behind it (`Spelling.decodeUrlEncoding_append`), and what it decodes to is not looked at again.
-/

namespace LibSeal

open Bytes

/-- The characters of base 64, and the one that fills up the last group. -/
def base64Alphabet : Bytes := base64Chars ++ ['='.toUInt8]

/-- A way to write a character. -/
inductive Spelling : UInt8 → Bytes → Prop
  | literal (b : UInt8) : Spelling b [b]
  | plus : Spelling '+'.toUInt8 ['-'.toUInt8]
  | slash : Spelling '/'.toUInt8 ['_'.toUInt8]
  | pad : Spelling '='.toUInt8 ['~'.toUInt8]
  | escape {b x y : UInt8} {high low : ℕ} (hx : hexValue x = some high) (hy : hexValue y = some low)
    (value : 16 * high + low = b.toNat) : Spelling b ['%'.toUInt8, x, y]

/-! ### Escapes -/

/-- A hexadecimal digit is neither the end of a string, nor a blank, nor a sign. -/
theorem hexValue_isSome_cases {b : UInt8} (h : (hexValue b).isSome = true) :
    b ≠ 0 ∧ isSpace b = false ∧ b ≠ '-'.toUInt8 ∧ b ≠ '+'.toUInt8 := by
  have hall : ∀ b : UInt8, (hexValue b).isSome = true →
      b ≠ 0 ∧ isSpace b = false ∧ b ≠ '-'.toUInt8 ∧ b ≠ '+'.toUInt8 :=
    forall_byte (by decide +kernel)
  exact hall b h

/-- `strtol` reads two digits. -/
theorem strtolHex_digits {x y : UInt8} {high low : ℕ} (hx : hexValue x = some high)
    (hy : hexValue y = some low) : strtolHex [x, y] = (16 * high + low : ℕ) := by
  obtain ⟨hx0, hspace, hminus, hplus⟩ := hexValue_isSome_cases (Option.isSome_of_eq_some hx)
  have hy0 := (hexValue_isSome_cases (Option.isSome_of_eq_some hy)).1
  have hcStr : cStr [x, y] = [x, y] := cStr_eq_self (by simp [hx0.symm, hy0.symm])
  rw [strtolHex, hcStr, List.dropWhile_cons_of_neg (by simp [hspace])]
  simp [hminus, hplus, hx, hy]

/-- An escaped byte is read back. -/
theorem decodeUrlEncoding_escape {b x y : UInt8} {high low : ℕ} (hx : hexValue x = some high)
    (hy : hexValue y = some low) (hvalue : 16 * high + low = b.toNat) (rest : Bytes) :
    decodeUrlEncoding ('%'.toUInt8 :: x :: y :: rest) =
      (decodeUrlEncoding rest).map (b :: ·) := by
  have hbyte : UInt8.ofInt (strtolHex [x, y]) = b := by
    have hsmall : ((b.toNat : ℤ) % 2 ^ 8).toNat = b.toNat := by
      have hlt := b.toNat_lt
      omega
    rw [strtolHex_digits hx hy, hvalue, UInt8.ofInt, hsmall, UInt8.ofNat_toNat]
  rw [decodeUrlEncoding, if_neg (by decide), if_neg (by decide), if_neg (by decide), if_pos rfl,
    hbyte]

/-! ### Every spelling -/

/-- A character of base 64 is not taken for a substitute or for an escape. -/
theorem decodeUrlEncoding_cons {b : UInt8} (hb : b ∈ base64Alphabet) (rest : Bytes) :
    decodeUrlEncoding (b :: rest) = (decodeUrlEncoding rest).map (b :: ·) := by
  have hall : ∀ b ∈ base64Alphabet, b ≠ '-'.toUInt8 ∧ b ≠ '_'.toUInt8 ∧ b ≠ '~'.toUInt8 ∧
      b ≠ '%'.toUInt8 := by decide +kernel
  obtain ⟨hminus, hunderscore, htilde, hpercent⟩ := hall b hb
  rw [decodeUrlEncoding.eq_def]
  simp only [if_neg hminus, if_neg hunderscore, if_neg htilde, if_neg hpercent]

/-- **A spelling is decoded whatever stands behind it.** -/
theorem Spelling.decodeUrlEncoding_append {b : UInt8} {piece : Bytes} (h : Spelling b piece)
    (hb : b ∈ base64Alphabet) (rest : Bytes) :
    decodeUrlEncoding (piece ++ rest) = (decodeUrlEncoding rest).map (b :: ·) := by
  cases h with
  | literal => exact decodeUrlEncoding_cons hb rest
  | plus =>
    rw [List.singleton_append, decodeUrlEncoding.eq_def]
    rfl
  | slash =>
    rw [List.singleton_append, decodeUrlEncoding.eq_def]
    rfl
  | pad =>
    rw [List.singleton_append, decodeUrlEncoding.eq_def]
    rfl
  | escape hx hy value => exact decodeUrlEncoding_escape hx hy value rest

/-- Spellings one behind the other are decoded one after the other. -/
theorem decodeUrlEncoding_flatten_append {text : Bytes} {pieces : List Bytes}
    (htext : ∀ b ∈ text, b ∈ base64Alphabet) (hpieces : List.Forall₂ Spelling text pieces)
    (rest : Bytes) :
    decodeUrlEncoding (pieces.flatten ++ rest) = (decodeUrlEncoding rest).map (text ++ ·) := by
  induction hpieces with
  | nil =>
    rw [List.flatten_nil, List.nil_append]
    cases decodeUrlEncoding rest <;> rfl
  | cons hpiece _ ih =>
    rw [List.forall_mem_cons] at htext
    rw [List.flatten_cons, List.append_assoc, hpiece.decodeUrlEncoding_append htext.1,
      ih htext.2]
    cases decodeUrlEncoding rest <;> rfl

/-- **What is found in a commit** does not depend on how its text is spelled. -/
theorem parseCommitBatch_eq_of_spelling (uncompress : ℕ → Bytes → Option Bytes)
    (stack : ℕ → UInt8) (junk : ℕ → JsmnTok) {content hostKey text : Bytes} {pieces : List Bytes}
    (hhost : parameterIn (ascii "host_key=") content = .ok hostKey)
    (hinfo : parameterIn (ascii "commit_info=") content = .ok pieces.flatten)
    (htext : ∀ b ∈ text, b ∈ base64Alphabet) (hpieces : List.Forall₂ Spelling text pieces) :
    parseCommitBatch uncompress stack junk content =
      match uncompress 8192 (base64Decode text) with
      | none => .ok []
      | some data => commitInfoText stack data >>= fileStatements junk hostKey := by
  have hdecode : decodeUrlEncoding pieces.flatten = .ok text := by
    simpa [decodeUrlEncoding, Except.map] using decodeUrlEncoding_flatten_append htext hpieces []
  rw [parseCommitBatch, hhost, CFault.ok_bind, hinfo, CFault.ok_bind, hdecode, CFault.ok_bind]
  rfl

/-- **Decoding undoes every spelling** of a text over the alphabet of base 64. -/
theorem decodeUrlEncoding_flatten {text : Bytes} {pieces : List Bytes}
    (htext : ∀ b ∈ text, b ∈ base64Alphabet) (hpieces : List.Forall₂ Spelling text pieces) :
    decodeUrlEncoding pieces.flatten = .ok text := by
  have hdecode := decodeUrlEncoding_flatten_append htext hpieces []
  rwa [List.append_nil, decodeUrlEncoding, Except.map, List.append_nil] at hdecode

/-- A text in which every way of writing a character is used. -/
theorem decodeUrlEncoding_mixed :
    decodeUrlEncoding (ascii "a-%2b_%2F~%3d") = .ok (ascii "a++//==") := by
  have htext : ∀ b ∈ ascii "a++//==", b ∈ base64Alphabet := by decide +kernel
  have h2 : hexValue '2'.toUInt8 = some 2 := rfl
  have h3 : hexValue '3'.toUInt8 = some 3 := rfl
  have hb : hexValue 'b'.toUInt8 = some 11 := rfl
  have hd : hexValue 'd'.toUInt8 = some 13 := rfl
  have hF : hexValue 'F'.toUInt8 = some 15 := rfl
  have hpieces : List.Forall₂ Spelling (ascii "a++//==")
      [ascii "a", ascii "-", ascii "%2b", ascii "_", ascii "%2F", ascii "~", ascii "%3d"] :=
    .cons (.literal _) <| .cons .plus <| .cons (.escape h2 hb rfl) <| .cons .slash <|
      .cons (.escape h2 hF rfl) <| .cons .pad <| .cons (.escape h3 hd rfl) .nil
  have hflatten : [ascii "a", ascii "-", ascii "%2b", ascii "_", ascii "%2F", ascii "~",
      ascii "%3d"].flatten = ascii "a-%2b_%2F~%3d" := rfl
  rw [← hflatten]
  exact decodeUrlEncoding_flatten htext hpieces

end LibSeal
