import LibSeal.Data.SqlLike

/-!
# `LIKE` on UTF-8

A text in UTF-8 is read character by character, as it is meant (`chars_encode`), but for two
characters, `U+FFFE` and `U+FFFF`, which are read as a third one. So a pattern whose only wildcard
is a `%` at its end asks for a beginning up to the case of ASCII letters, whatever other characters
there are (`patternCompare_encode_iff`). UTF-8 is a prefix code, and the beginnings of the bytes are
those of the characters (`encode_prefix_encode_iff`).
-/

namespace SqlLike

/-- The bytes of some characters. -/
def encode (cs : List Char) : Bytes := cs.flatMap String.utf8EncodeChar

/-- The character is read as itself. -/
def ReadAsItself (c : Char) : Prop := c.toNat ≠ 0xFFFE ∧ c.toNat ≠ 0xFFFF

instance (c : Char) : Decidable (ReadAsItself c) :=
  inferInstanceAs (Decidable (c.toNat ≠ 0xFFFE ∧ c.toNat ≠ 0xFFFF))

/-- No continuation byte comes first. -/
def AtBoundary (s : Bytes) : Prop := ∀ b ∈ s.head?, isContinuation b = false

/-! ### Reading -/

theorem leadBits_ofNat {r : ℕ} :
    (r < 32 → leadBits (UInt8.ofNat (r + 0xC0)) = r) ∧
      (r < 16 → leadBits (UInt8.ofNat (r + 0xE0)) = r) ∧
      (r < 8 → leadBits (UInt8.ofNat (r + 0xF0)) = r) := by
  have htwo : ∀ r : Fin 32, leadBits (UInt8.ofNat (r + 0xC0)) = r := by decide
  have hthree : ∀ r : Fin 16, leadBits (UInt8.ofNat (r + 0xE0)) = r := by decide
  have hfour : ∀ r : Fin 8, leadBits (UInt8.ofNat (r + 0xF0)) = r := by decide
  exact ⟨fun h ↦ htwo ⟨r, h⟩, fun h ↦ hthree ⟨r, h⟩, fun h ↦ hfour ⟨r, h⟩⟩

theorem readContinuation_ofNat {c r : ℕ} (hc : c < 0x10000) (hr : r < 64) (s : Bytes) :
    readContinuation c (UInt8.ofNat (r + 0x80) :: s) = readContinuation (c * 64 + r) s := by
  have hbyte : ∀ r : Fin 64, isContinuation (UInt8.ofNat (r + 0x80)) = true ∧
      (UInt8.ofNat (r + 0x80) &&& 0x3F).toNat = r := by
    decide
  obtain ⟨hcontinuation, hbits⟩ := hbyte ⟨r, hr⟩
  have hsmall : (c * 64 + r) % 4294967296 = c * 64 + r := Nat.mod_eq_of_lt (by omega)
  rw [readContinuation, if_pos hcontinuation, hbits, hsmall]

theorem readContinuation_of_atBoundary {s : Bytes} (h : AtBoundary s) (c : ℕ) :
    readContinuation c s = (checkChar c, s) := by
  rcases s with - | ⟨b, s⟩
  · rfl
  · rw [readContinuation, h b rfl, if_neg Bool.false_ne_true]

/-- A byte that begins more than one byte is read with what follows it. -/
theorem utf8Read_ofNat {n : ℕ} (hlow : 0xC0 ≤ n) (hhigh : n < 0x100) (s : Bytes) :
    utf8Read (UInt8.ofNat n :: s) = some (readContinuation (leadBits (UInt8.ofNat n)) s) := by
  have hnat : (UInt8.ofNat n).toNat = n := Nat.mod_eq_of_lt hhigh
  have hlead : ¬ UInt8.ofNat n < 0xC0 := by
    rw [UInt8.lt_iff_toNat_lt, hnat]
    exact Nat.not_lt.2 hlow
  rw [utf8Read, if_neg hlead]

/-- A character that does not need replacing. -/
theorem checkChar_toNat {c : Char} (h : ReadAsItself c) (hlow : 0x80 ≤ c.toNat) :
    checkChar c.toNat = c.toNat := by
  have hvalid : c.toNat < 0xD800 ∨ (0xDFFF < c.toNat ∧ c.toNat < 0x110000) := c.valid
  obtain ⟨hfirst, hsecond⟩ := h
  rw [checkChar, if_neg]
  omega

theorem toNat_lt (c : Char) : c.toNat < 0x110000 := by
  rcases c.valid with hv | ⟨-, hv⟩
  · exact hv.trans (by decide)
  · exact hv

/-- **A character is read as it is meant.** -/
theorem utf8Read_encodeChar {c : Char} (h : ReadAsItself c) {s : Bytes} (hs : AtBoundary s) :
    utf8Read (String.utf8EncodeChar c ++ s) = some (c.toNat, s) := by
  have hlt := toNat_lt c
  have hval : c.val.toNat = c.toNat := rfl
  rw [String.utf8EncodeChar, hval]
  split_ifs with h₁ h₂ h₃
  · have hnat : (UInt8.ofNat c.toNat).toNat = c.toNat := Nat.mod_eq_of_lt (by omega)
    have hascii : UInt8.ofNat c.toNat < 0x80 := by
      rw [UInt8.lt_iff_toNat_lt, hnat]
      exact Nat.lt_succ_of_le h₁
    rw [List.singleton_append, utf8Read_of_ascii hascii, hnat]
  · rw [List.cons_append, List.singleton_append, utf8Read_ofNat (by omega) (by omega),
      leadBits_ofNat.1 (by omega), readContinuation_ofNat (by omega) (by omega),
      readContinuation_of_atBoundary hs]
    -- the bits that the bytes contribute are put together again
    have hparts : c.toNat / 64 % 0x20 * 64 + c.toNat % 0x40 = c.toNat := by omega
    rw [hparts, checkChar_toNat h (by omega)]
  · simp only [List.cons_append, List.nil_append]
    rw [utf8Read_ofNat (by omega) (by omega), leadBits_ofNat.2.1 (by omega),
      readContinuation_ofNat (by omega) (by omega), readContinuation_ofNat (by omega) (by omega),
      readContinuation_of_atBoundary hs]
    have hparts : (c.toNat / 4096 % 0x10 * 64 + c.toNat / 64 % 0x40) * 64 + c.toNat % 0x40 =
        c.toNat := by
      omega
    rw [hparts, checkChar_toNat h (by omega)]
  · simp only [List.cons_append, List.nil_append]
    rw [utf8Read_ofNat (by omega) (by omega), leadBits_ofNat.2.2 (by omega),
      readContinuation_ofNat (by omega) (by omega), readContinuation_ofNat (by omega) (by omega),
      readContinuation_ofNat (by omega) (by omega), readContinuation_of_atBoundary hs]
    have hparts : ((c.toNat / 262144 % 0x08 * 64 + c.toNat / 4096 % 0x40) * 64 +
        c.toNat / 64 % 0x40) * 64 + c.toNat % 0x40 = c.toNat := by
      omega
    rw [hparts, checkChar_toNat h (by omega)]

/-- A character begins with no continuation byte. -/
theorem atBoundary_encodeChar (c : Char) (s : Bytes) :
    AtBoundary (String.utf8EncodeChar c ++ s) := by
  have hbyte : ∀ n : ℕ, n < 0x80 ∨ 0xC0 ≤ n ∧ n < 0x100 →
      isContinuation (UInt8.ofNat n) = false := by
    intro n hn
    have hall : ∀ n : Fin 256, (n : ℕ) < 0x80 ∨ 0xC0 ≤ (n : ℕ) →
        isContinuation (UInt8.ofNat n) = false := by
      decide +kernel
    exact hall ⟨n, by omega⟩ (by show n < 0x80 ∨ 0xC0 ≤ n; omega)
  rw [String.utf8EncodeChar]
  split_ifs with h₁ h₂ h₃ <;> intro b hb <;> obtain rfl := Option.some.inj hb <;>
    exact hbyte _ (by omega)

theorem encode_cons (c : Char) (cs : List Char) :
    encode (c :: cs) = String.utf8EncodeChar c ++ encode cs := rfl

theorem encode_append (cs ds : List Char) : encode (cs ++ ds) = encode cs ++ encode ds :=
  List.flatMap_append

theorem atBoundary_encode (cs : List Char) : AtBoundary (encode cs) := by
  rcases cs with - | ⟨c, cs⟩
  · exact fun b hb ↦ absurd hb (Option.not_mem_none b)
  · exact atBoundary_encodeChar c _

/-- **A text is read as it is meant.** -/
theorem chars_encode {cs : List Char} (h : ∀ c ∈ cs, ReadAsItself c) :
    chars (encode cs) = cs.map Char.toNat := by
  induction cs with
  | nil => rfl
  | cons c cs ih =>
    obtain ⟨hc, hcs⟩ := List.forall_mem_cons.1 h
    rw [encode_cons, chars_of_utf8Read (utf8Read_encodeChar hc (atBoundary_encode cs)), ih hcs,
      List.map_cons]

/-! ### Prefixes -/

/-- A character is known from what begins with it. -/
theorem encodeChar_append_inj {c d : Char} {s t : Bytes}
    (h : String.utf8EncodeChar c ++ s = String.utf8EncodeChar d ++ t) : c = d ∧ s = t := by
  have hdecode : ∀ (c : Char) (s : Bytes),
      (String.utf8EncodeChar c ++ s).toByteArray.utf8DecodeChar? 0 = some c := by
    intro c s
    rw [List.toByteArray_append]
    exact ByteArray.utf8DecodeChar?_utf8EncodeChar_append
  obtain rfl : c = d := by
    rw [← Option.some.injEq, ← hdecode c s, ← hdecode d t, h]
  exact ⟨rfl, List.append_cancel_left h⟩

/-- **UTF-8 is a prefix code.** -/
theorem encode_prefix_encode_iff {cs ds : List Char} : encode cs <+: encode ds ↔ cs <+: ds := by
  constructor
  · intro h
    induction cs generalizing ds with
    | nil => exact List.nil_prefix
    | cons c cs ih =>
      obtain ⟨u, hu⟩ := h
      rw [encode_cons, List.append_assoc] at hu
      rcases ds with - | ⟨d, ds⟩
      · have hnil := (List.append_eq_nil_iff.1 hu).1
        have hlength := String.length_utf8EncodeChar c
        rw [hnil] at hlength
        exact absurd hlength.symm (Nat.ne_of_gt c.utf8Size_pos)
      · obtain ⟨rfl, hrest⟩ := encodeChar_append_inj hu
        exact List.cons_prefix_cons.2 ⟨rfl, ih ⟨u, hrest⟩⟩
  · rintro ⟨u, rfl⟩
    rw [encode_append]
    exact List.prefix_append _ _

/-! ### Case -/

/-- `sqlite3Tolower`, of a byte -/
def lowerByte (b : UInt8) : UInt8 := if 65 ≤ b ∧ b ≤ 90 then b + 32 else b

/-- Only ASCII letters have another case. -/
theorem toLower_eq_self {c : Char} (h : 0x80 ≤ c.toNat) : c.toLower = c := by
  have hval : c.val.toNat = c.toNat := rfl
  have hlast : ('Z' : Char).val.toNat = 90 := rfl
  refine dif_neg fun hletter ↦ ?_
  have hle := UInt32.le_iff_toNat_le.1 hletter.2
  omega

theorem toLower_toNat (c : Char) : toLower c.toNat = c.toLower.toNat := by
  by_cases h : c.toNat < 0x80
  · have hascii : ∀ n : Fin 128, toLower (Char.ofNat n).toNat = (Char.ofNat n).toLower.toNat := by
      decide +kernel
    have hc := hascii ⟨c.toNat, h⟩
    rwa [Char.ofNat_toNat] at hc
  · rw [toLower_eq_self (Nat.not_lt.1 h), toLower, if_neg]
    omega

theorem map_lowerByte_encodeChar (c : Char) :
    (String.utf8EncodeChar c).map lowerByte = String.utf8EncodeChar c.toLower := by
  by_cases h : c.toNat < 0x80
  · have hascii : ∀ n : Fin 128, (String.utf8EncodeChar (Char.ofNat n)).map lowerByte =
        String.utf8EncodeChar (Char.ofNat n).toLower := by
      decide +kernel
    have hc := hascii ⟨c.toNat, h⟩
    rwa [Char.ofNat_toNat] at hc
  · have hbyte : ∀ n : ℕ, 0x80 ≤ n ∧ n < 0x100 → lowerByte (UInt8.ofNat n) = UInt8.ofNat n := by
      intro n hn
      have hall : ∀ n : Fin 256, 0x80 ≤ (n : ℕ) → lowerByte (UInt8.ofNat n) = UInt8.ofNat n := by
        decide +kernel
      exact hall ⟨n, hn.2⟩ hn.1
    have hval : c.val.toNat = c.toNat := rfl
    have hlt := toNat_lt c
    rw [toLower_eq_self (Nat.not_lt.1 h), String.utf8EncodeChar, hval]
    split_ifs with h₁ h₂ h₃
    · exact absurd (Nat.lt_succ_of_le h₁) h
    all_goals
      simp only [List.map_cons, List.map_nil]
      repeat rw [hbyte _ (by omega)]

theorem map_lowerByte_encode (cs : List Char) :
    (encode cs).map lowerByte = encode (cs.map Char.toLower) := by
  rw [encode, encode, List.map_flatMap, List.flatMap_map]
  exact List.flatMap_congr fun c _ ↦ map_lowerByte_encodeChar c

/-- **A pattern in UTF-8 whose only wildcard is a `%` at its end asks for a beginning**, up to the
case of ASCII letters. -/
theorem patternCompare_encode_iff {p cs : List Char} (hp : ∀ c ∈ p, c ≠ '%' ∧ c ≠ '_')
    (hcs : ∀ c ∈ cs, ReadAsItself c) :
    patternCompare false (p.map Char.toNat ++ [percent]) (encode cs) = .matched ↔
      p.map Char.toLower <+: cs.map Char.toLower := by
  have hplain : ∀ c ∈ p.map Char.toNat, c ≠ percent ∧ c ≠ underscore :=
    List.forall_mem_map.2 fun c hc ↦ ⟨fun heq ↦ (hp c hc).1 (Char.toNat_inj.1 heq),
      fun heq ↦ (hp c hc).2 (Char.toNat_inj.1 heq)⟩
  have hsearch : SearchesCharacters (p.map Char.toNat ++ [percent]) :=
    (SearchesCharacters.of_notMem fun hmem ↦ (hplain _ hmem).1 rfl).append_percent
  have hlower : ∀ cs : List Char,
      (cs.map Char.toNat).map toLower = (cs.map Char.toLower).map Char.toNat := by
    intro cs
    rw [List.map_map, List.map_map]
    exact List.map_congr_left fun c _ ↦ toLower_toNat c
  rw [patternCompare_iff_standsFor hsearch, chars_encode hcs, standsFor_append_percent_iff]
  simp only [standsFor_iff_of_noWildcard hplain]
  rw [← List.prefix_map_iff, hlower, hlower,
    List.prefix_map_iff_of_injective fun _ _ ↦ Char.toNat_inj.1]

/-! ### Texts -/

/-- Some bytes are characters in UTF-8, each with the property. -/
def IsEncoded (P : Char → Prop) (s : Bytes) : Prop := ∃ cs, (∀ c ∈ cs, P c) ∧ s = encode cs

namespace IsEncoded

variable {P : Char → Prop}

theorem append {s t : Bytes} (hs : IsEncoded P s) (ht : IsEncoded P t) : IsEncoded P (s ++ t) := by
  obtain ⟨cs, hcs, rfl⟩ := hs
  obtain ⟨ds, hds, rfl⟩ := ht
  exact ⟨cs ++ ds, List.forall_mem_append.2 ⟨hcs, hds⟩, (encode_append cs ds).symm⟩

theorem of_ascii {s : Bytes} (h : ∀ b ∈ s, b < 0x80 ∧ P (Char.ofNat b.toNat)) :
    IsEncoded P s := by
  have hbyte : ∀ b : UInt8, b < 0x80 → String.utf8EncodeChar (Char.ofNat b.toNat) = [b] :=
    Bytes.forall_byte (by decide +kernel)
  refine ⟨s.map fun b ↦ Char.ofNat b.toNat, List.forall_mem_map.2 fun b hb ↦ (h b hb).2, ?_⟩
  rw [encode, List.flatMap_map, List.flatMap_congr fun b hb ↦ hbyte b (h b hb).1,
    List.flatMap_singleton']

theorem flatMap {α : Type} {f : α → Bytes} {l : List α} (h : ∀ a ∈ l, IsEncoded P (f a)) :
    IsEncoded P (l.flatMap f) := by
  induction l with
  | nil => exact ⟨[], List.forall_mem_nil _, rfl⟩
  | cons a l ih =>
    obtain ⟨ha, hl⟩ := List.forall_mem_cons.1 h
    exact ha.append (ih hl)

end IsEncoded

/-- **A beginning of a text stands for itself**, whatever wildcards it has. -/
theorem standsForBeginning_of_begins {p s : Bytes} (hp : IsEncoded ReadAsItself p)
    (hs : IsEncoded ReadAsItself s) (h : p <+: s) : StandsForBeginning p s := by
  obtain ⟨cs, hcs, rfl⟩ := hp
  obtain ⟨ds, hds, rfl⟩ := hs
  refine ⟨chars (encode cs), ?_, .refl _⟩
  rw [chars_encode hcs, chars_encode hds]
  exact (encode_prefix_encode_iff.1 h).map _

end SqlLike
