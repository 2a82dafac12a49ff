import LibSeal.Dropbox.UrlEncoding

/-!
# Base 64, there and back

`base64_encode` of `auditing/utils/base64.cpp`, and what `base64_decode` makes of its text. The
decoder stops at the first character that is not in the alphabet, the padding included, and drops
the bits that complete no byte. So it needs no padding, and of a text that has been cut off it gives
the bytes that are complete (`base64Decode_take_base64Encode`). This matters, since the parser of
messages cuts texts off: of a body that is sent by its length it overwrites the last byte.

The loops count with an `int`, so texts have less than `2 ^ 31` characters.
-/

namespace LibSeal

open Bytes

/-! ### The encoder -/

/-- `base64_chars[i]` -/
def base64Char (i : UInt8) : UInt8 := base64Chars.getD i.toNat 0

/-- `char_array_4`, from the bytes in `char_array_3`. -/
def charArray4 (a b c : UInt8) : Bytes :=
  [(a &&& 0xfc) >>> 2, ((a &&& 0x03) <<< 4) + ((b &&& 0xf0) >>> 4),
    ((b &&& 0x0f) <<< 2) + ((c &&& 0xc0) >>> 6), c &&& 0x3f]

/-- What stands for three bytes; for fewer than three, one more than there are bytes. -/
def base64Sextets : Bytes → Bytes
  | a :: b :: c :: s => charArray4 a b c ++ base64Sextets s
  | [a, b] => (charArray4 a b 0).take 3
  | [a] => (charArray4 a 0 0).take 2
  | [] => []

/-- `base64_encode` -/
def base64Encode (s : Bytes) : Bytes :=
  (base64Sextets s).map base64Char ++ List.replicate ((3 - s.length % 3) % 3) '='.toUInt8

/-! ### Six bits and eight bits -/

section Bits

variable (a b c : UInt8)

theorem toNat_charArray4 : (charArray4 a b c).map UInt8.toNat =
    [a.toNat / 4, a.toNat % 4 * 16 + b.toNat / 16, b.toNat % 16 * 4 + c.toNat / 64,
      c.toNat % 64] := by
  have hfirst : ∀ a : UInt8, ((a &&& 0xfc) >>> 2).toNat = a.toNat / 4 ∧
      ((a &&& 0x03) <<< 4).toNat = a.toNat % 4 * 16 := forall_byte (by decide +kernel)
  have hsecond : ∀ b : UInt8, ((b &&& 0xf0) >>> 4).toNat = b.toNat / 16 ∧
      ((b &&& 0x0f) <<< 2).toNat = b.toNat % 16 * 4 := forall_byte (by decide +kernel)
  have hthird : ∀ c : UInt8, ((c &&& 0xc0) >>> 6).toNat = c.toNat / 64 ∧
      (c &&& 0x3f).toNat = c.toNat % 64 := forall_byte (by decide +kernel)
  have hb := b.toNat_lt
  have hc := c.toNat_lt
  have h1 : a.toNat % 4 * 16 + b.toNat / 16 < 2 ^ 8 := by omega
  have h2 : b.toNat % 16 * 4 + c.toNat / 64 < 2 ^ 8 := by omega
  simp only [charArray4, List.map_cons, List.map_nil, UInt8.toNat_add, (hfirst a).1, (hfirst a).2,
    (hsecond b).1, (hsecond b).2, (hthird c).1, (hthird c).2, Nat.mod_eq_of_lt h1,
    Nat.mod_eq_of_lt h2]

/-- Each of them is a place in the alphabet. -/
theorem toNat_lt_of_mem_charArray4 {x : UInt8} (h : x ∈ charArray4 a b c) : x.toNat < 64 := by
  have hmem := List.mem_map_of_mem (f := UInt8.toNat) h
  have ha := a.toNat_lt
  have hb := b.toNat_lt
  have hc := c.toNat_lt
  rw [toNat_charArray4] at hmem
  simp only [List.mem_cons, List.not_mem_nil, or_false] at hmem
  omega

end Bits

theorem toNat_lt_of_mem_base64Sextets {s : Bytes} {x : UInt8} (h : x ∈ base64Sextets s) :
    x.toNat < 64 := by
  induction s using base64Sextets.induct with
  | case1 a b c s ih =>
    rcases List.mem_append.1 h with h | h
    · exact toNat_lt_of_mem_charArray4 a b c h
    · exact ih h
  | case2 a b => exact toNat_lt_of_mem_charArray4 a b 0 (List.mem_of_mem_take h)
  | case3 a => exact toNat_lt_of_mem_charArray4 a 0 0 (List.mem_of_mem_take h)
  | case4 => exact absurd h List.not_mem_nil

/-- A character of the alphabet is read as its place. -/
theorem idxOf_base64Char {i : UInt8} (h : i.toNat < 64) :
    base64Char i ∈ base64Chars ∧ UInt8.ofNat (base64Chars.idxOf (base64Char i)) = i := by
  have hall : ∀ i : UInt8, i.toNat < 64 → base64Char i ∈ base64Chars ∧
      UInt8.ofNat (base64Chars.idxOf (base64Char i)) = i := forall_byte (by decide +kernel)
  exact hall i h

/-- The bytes of a group are put together again. -/
theorem base64Groups_charArray4 (a b c : UInt8) (s : Bytes) :
    base64Groups (charArray4 a b c ++ s) = a :: b :: c :: base64Groups s ∧
      base64Groups ((charArray4 a b c).take 3) = [a, b] ∧
      base64Groups ((charArray4 a b c).take 2) = [a] := by
  have hleft : ∀ x : UInt8, (x <<< 2).toNat = x.toNat * 4 % 256 := forall_byte (by decide +kernel)
  have hsecond : ∀ x : UInt8, ((x &&& 0x30) >>> 4).toNat = x.toNat / 16 % 4 ∧
      ((x &&& 0xf) <<< 4).toNat = x.toNat % 16 * 16 := forall_byte (by decide +kernel)
  have hthird : ∀ x : UInt8, ((x &&& 0x3c) >>> 2).toNat = x.toNat / 4 % 16 ∧
      ((x &&& 0x3) <<< 6).toNat = x.toNat % 4 * 64 := forall_byte (by decide +kernel)
  have h := toNat_charArray4 a b c
  obtain ⟨x, y, z, w, hxyzw⟩ : ∃ x y z w, charArray4 a b c = [x, y, z, w] := ⟨_, _, _, _, rfl⟩
  rw [hxyzw] at h ⊢
  simp only [List.map_cons, List.map_nil, List.cons.injEq, and_true] at h
  obtain ⟨hx, hy, hz, hw⟩ := h
  have ha := a.toNat_lt
  have hb := b.toNat_lt
  have hc := c.toNat_lt
  have h1 : (x <<< 2) + ((y &&& 0x30) >>> 4) = a := by
    rw [← UInt8.toNat_inj, UInt8.toNat_add, hleft, (hsecond y).1, hx, hy]
    omega
  have h2 : ((y &&& 0xf) <<< 4) + ((z &&& 0x3c) >>> 2) = b := by
    rw [← UInt8.toNat_inj, UInt8.toNat_add, (hsecond y).2, (hthird z).1, hy, hz]
    omega
  have h3 : ((z &&& 0x3) <<< 6) + w = c := by
    rw [← UInt8.toNat_inj, UInt8.toNat_add, (hthird z).2, hz, hw]
    omega
  refine ⟨?_, ?_, ?_⟩
  · rw [List.cons_append, List.cons_append, List.cons_append, List.cons_append, List.nil_append,
      base64Groups, h1, h2, h3]
  · show [_, _] = _
    rw [h1, h2]
  · show [_] = _
    rw [h1]

/-- Of less than a group the complete bytes are decoded. -/
theorem base64Groups_take_charArray4 (a b c : UInt8) {n : ℕ} (hn : n ≤ 3) :
    base64Groups ((charArray4 a b c).take n) = [a, b, c].take (n * 3 / 4) := by
  obtain ⟨-, htwo, hone⟩ := base64Groups_charArray4 a b c []
  rcases n with - | - | - | - | n
  · rfl
  · rfl
  · exact hone
  · exact htwo
  · omega

/-! ### Decoding -/

/-- Of a text that is cut off the complete bytes are decoded. -/
theorem base64Groups_take_base64Sextets (s : Bytes) (n : ℕ) :
    base64Groups ((base64Sextets s).take n) = s.take (n * 3 / 4) := by
  induction s using base64Sextets.induct generalizing n with
  | case1 a b c s ih =>
    rcases Nat.lt_or_ge n 4 with hn | hn
    · have htake : n * 3 / 4 ≤ [a, b, c].length := by
        rw [List.length_cons, List.length_cons, List.length_singleton]
        omega
      have hsextets : n ≤ (charArray4 a b c).length := hn.le
      rw [base64Sextets, List.take_append_of_le_length hsextets,
        base64Groups_take_charArray4 a b c (by omega), ← List.take_append_of_le_length htake]
      rfl
    · obtain ⟨n, rfl⟩ := Nat.exists_eq_add_of_le hn
      have hcount : (4 + n) * 3 / 4 = n * 3 / 4 + 3 := by omega
      have htake : (base64Sextets (a :: b :: c :: s)).take (4 + n) =
          charArray4 a b c ++ (base64Sextets s).take n := by
        rw [base64Sextets, ← show (charArray4 a b c).length = 4 from rfl,
          List.take_length_add_append]
      rw [htake, (base64Groups_charArray4 a b c _).1, ih, hcount]
      rfl
  | case2 a b =>
    rw [base64Sextets, List.take_take]
    rcases Nat.le_total n 3 with hn | hn
    · have htake : n * 3 / 4 ≤ [a, b].length := show n * 3 / 4 ≤ 2 by omega
      rw [Nat.min_eq_left hn, base64Groups_take_charArray4 a b 0 hn,
        ← List.take_append_of_le_length htake]
      rfl
    · have htake : [a, b].length ≤ n * 3 / 4 := show 2 ≤ n * 3 / 4 by omega
      rw [Nat.min_eq_right hn, List.take_of_length_le htake]
      exact (base64Groups_charArray4 a b 0 []).2.1
  | case3 a =>
    rw [base64Sextets, List.take_take]
    rcases Nat.le_total n 2 with hn | hn
    · have htake : n * 3 / 4 ≤ [a].length := show n * 3 / 4 ≤ 1 by omega
      rw [Nat.min_eq_left hn, base64Groups_take_charArray4 a 0 0 (by omega),
        ← List.take_append_of_le_length htake]
      rfl
    · have htake : [a].length ≤ n * 3 / 4 := show 1 ≤ n * 3 / 4 by omega
      rw [Nat.min_eq_right hn, List.take_of_length_le htake]
      exact (base64Groups_charArray4 a 0 0 []).2.2
  | case4 =>
    rw [base64Sextets, List.take_nil, List.take_nil]
    rfl

/-- The letters of a text are what stands for its six bits; the padding is no letter. -/
theorem takeWhile_base64Encode (s : Bytes) (n : ℕ) {rest : Bytes}
    (hrest : ∀ b ∈ rest.head?, b ∉ base64Chars) :
    ((base64Encode s).take n ++ rest).takeWhile (· ∈ base64Chars) =
      ((base64Sextets s).take n).map base64Char := by
  have hletters : ∀ b ∈ ((base64Sextets s).take n).map base64Char,
      decide (b ∈ base64Chars) = true := by
    refine List.forall_mem_map.2 fun x hx ↦ decide_eq_true ?_
    exact (idxOf_base64Char (toNat_lt_of_mem_base64Sextets (List.mem_of_mem_take hx))).1
  set k := n - ((base64Sextets s).map base64Char).length
  set padding := (List.replicate ((3 - s.length % 3) % 3) '='.toUInt8).take k with hpadding
  have hnone : (padding ++ rest).takeWhile (· ∈ base64Chars) = [] := by
    rcases hp : padding with - | ⟨b, bs⟩
    · rw [List.nil_append]
      rcases rest with - | ⟨b, rest⟩
      · rfl
      · exact List.takeWhile_cons_of_neg (by simpa using hrest b rfl)
    · -- a character of the padding
      have hb : b ∈ padding := hp ▸ List.mem_cons_self
      rw [hpadding] at hb
      obtain rfl := List.eq_of_mem_replicate (List.mem_of_mem_take hb)
      rfl
  rw [base64Encode, List.take_append, List.append_assoc, ← List.map_take,
    List.takeWhile_append_of_pos hletters, hnone, List.append_nil]

/-- **Decoding undoes encoding**, whatever follows from a character on that is none of the alphabet.
Of a text that has been cut off anywhere, the complete bytes are decoded. -/
theorem base64Decode_take_base64Encode (s : Bytes) (n : ℕ) {rest : Bytes}
    (hrest : ∀ b ∈ rest.head?, b ∉ base64Chars) :
    base64Decode ((base64Encode s).take n ++ rest) = s.take (n * 3 / 4) := by
  have hread : ((base64Sextets s).take n).map ((fun b ↦ UInt8.ofNat (base64Chars.idxOf b)) ∘
      base64Char) = ((base64Sextets s).take n).map id := List.map_congr_left fun x hx ↦
    (idxOf_base64Char (toNat_lt_of_mem_base64Sextets (List.mem_of_mem_take hx))).2
  rw [base64Decode, takeWhile_base64Encode s n hrest, List.map_map, hread, List.map_id,
    base64Groups_take_base64Sextets]

theorem length_base64Sextets (s : Bytes) :
    (base64Sextets s).length = s.length + (s.length + 2) / 3 := by
  induction s using base64Sextets.induct with
  | case1 a b c s ih =>
    have hgroup : (charArray4 a b c).length = 4 := rfl
    rw [base64Sextets, List.length_append, ih, hgroup, List.length_cons, List.length_cons,
      List.length_cons]
    omega
  | case2 a b => simp [base64Sextets, charArray4]
  | case3 a => simp [base64Sextets, charArray4]
  | case4 => rfl

/-- Four characters for three bytes. -/
theorem length_base64Encode (s : Bytes) : (base64Encode s).length = (s.length + 2) / 3 * 4 := by
  rw [base64Encode, List.length_append, List.length_map, length_base64Sextets,
    List.length_replicate]
  omega

/-- The whole text stands for all bytes. -/
theorem base64Decode_base64Encode (s : Bytes) : base64Decode (base64Encode s) = s := by
  have hnil : ∀ b ∈ ([] : Bytes).head?, b ∉ base64Chars := fun _ h ↦ (nomatch h)
  have h := base64Decode_take_base64Encode s (base64Encode s).length hnil
  rwa [List.take_length, List.append_nil, length_base64Encode,
    List.take_of_length_le (show s.length ≤ (s.length + 2) / 3 * 4 * 3 / 4 by omega)] at h

/-- **Of a text that is cut off** a beginning of the bytes is decoded, and all of them exactly if no
more than padding is missing. -/
theorem base64Decode_cutOff {s t : Bytes} (h : t <+: base64Encode s) :
    base64Decode t <+: s ∧ (base64Decode t = s ↔ s.length ≤ t.length * 3 / 4) := by
  have hnil : ∀ b ∈ ([] : Bytes).head?, b ∉ base64Chars := fun _ h ↦ (nomatch h)
  have hdecode : base64Decode t = s.take (t.length * 3 / 4) := by
    have hcut := base64Decode_take_base64Encode s t.length hnil
    rwa [List.append_nil, ← List.prefix_iff_eq_take.1 h] at hcut
  rw [hdecode]
  refine ⟨List.take_prefix _ s, fun heq ↦ ?_, List.take_of_length_le⟩
  have hlength := congrArg List.length heq
  rw [List.length_take] at hlength
  omega

/-- The last character of a text with padding may be missing. -/
theorem base64Decode_cutOff_hello : base64Decode (ascii "aGVsbG8") = ascii "hello" := by
  have hprefix : ascii "aGVsbG8" <+: base64Encode (ascii "hello") :=
    ⟨ascii "=", by decide +kernel⟩
  exact (base64Decode_cutOff hprefix).2.2 (by decide)

/-- Every character of it can be spelled in a URL. -/
theorem mem_base64Alphabet_of_mem_base64Encode {s : Bytes} {b : UInt8} (h : b ∈ base64Encode s) :
    b ∈ base64Alphabet := by
  rcases List.mem_append.1 h with h | h
  · obtain ⟨x, hx, rfl⟩ := List.mem_map.1 h
    exact List.mem_append_left _ (idxOf_base64Char (toNat_lt_of_mem_base64Sextets hx)).1
  · rw [List.eq_of_mem_replicate h]
    exact List.mem_append_right _ (List.mem_singleton_self _)

end LibSeal
