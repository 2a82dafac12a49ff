import Mathlib.Data.List.Basic
import Mathlib.Data.List.Lex
import Mathlib.Data.List.TakeWhile
import Mathlib.Order.Lattice

/-!
# Byte strings

The common currency of the development: the contents of a C buffer, of a NUL-terminated C string and
of a `std::string` are all `Bytes`. What distinguishes them is how they are *read*:

* a buffer is read by position, and its end is the end of the list;
* a C string is read up to its first NUL byte — `cStr` for a buffer known to be terminated (what
  `std::string::c_str` hands out), `CString` for a string that carries the proof that no NUL is
  left.

Numbers enter byte strings in two ways, as hexadecimal digits (`hexDigit`, inverted by `hexValue`)
and as decimal text (`ofInt`, the `%d` conversion).

## The order

`std::map<std::string, _>` iterates in the byte-lexicographic order of its keys. `UInt8` carries its
order relations already, so the only thing added here is the bundled `LinearOrder`, from which the
lexicographic order on lists follows.
-/

/-- A byte string. -/
abbrev Bytes := List UInt8

instance Bytes.instLawfulBEq : LawfulBEq Bytes := inferInstanceAs (LawfulBEq (List UInt8))

instance UInt8.instLinearOrder : LinearOrder UInt8 where
  le_refl := UInt8.le_refl
  le_trans _ _ _ := UInt8.le_trans
  lt_iff_le_not_ge a b := by
    rw [UInt8.lt_iff_toNat_lt, UInt8.le_iff_toNat_le, UInt8.le_iff_toNat_le]
    omega
  le_antisymm _ _ := UInt8.le_antisymm
  le_total := UInt8.le_total
  min_def _ _ := rfl
  max_def _ _ := rfl
  toDecidableLE := inferInstance
  toDecidableLT := inferInstance

namespace Bytes

/-- The bytes of an ASCII literal. -/
def ascii (s : String) : Bytes := s.toList.map Char.toUInt8

/-- What holds of all bytes can be checked. -/
theorem forall_byte {p : UInt8 → Prop} (h : ∀ n : Fin 256, p (UInt8.ofNat n)) (b : UInt8) :
    p b := by
  have hb := h ⟨b.toNat, b.toNat_lt⟩
  rwa [UInt8.ofNat_toNat] at hb

theorem notMem_of_elem {b : UInt8} {s : Bytes} (h : List.elem b s = false) : b ∉ s := by
  intro hb
  rw [List.elem_eq_true_of_mem hb] at h
  cases h

/-- Up to the first byte that is not of a kind two texts agree. -/
theorem append_cons_inj_of_forall {p : UInt8 → Bool} {u v s t : Bytes} {b c : UInt8}
    (h : u ++ b :: s = v ++ c :: t) (hu : ∀ a ∈ u, p a = true) (hv : ∀ a ∈ v, p a = true)
    (hb : p b = false) (hc : p c = false) : u = v ∧ b :: s = c :: t := by
  have htake := congrArg (List.takeWhile p) h
  rw [List.takeWhile_append_of_pos hu, List.takeWhile_append_of_pos hv,
    List.takeWhile_cons_of_neg (by simp [hb]), List.takeWhile_cons_of_neg (by simp [hc]),
    List.append_nil, List.append_nil] at htake
  subst htake
  exact ⟨rfl, List.append_cancel_left h⟩

/-! ### C strings -/

/-- What a C string function sees of a buffer: everything before the first NUL byte. -/
def cStr (s : Bytes) : Bytes := s.takeWhile (· ≠ 0)

theorem zero_notMem_cStr (s : Bytes) : 0 ∉ cStr s := by
  intro h
  simpa using List.mem_takeWhile_imp h

/-- A string without a NUL byte is read whole. -/
theorem cStr_eq_self {s : Bytes} (h : 0 ∉ s) : cStr s = s := by
  rw [cStr, List.takeWhile_eq_self_iff]
  intro b hb
  simpa using fun h0 : b = 0 ↦ h (h0 ▸ hb)

/-- Reading goes on behind a string without a NUL byte. -/
theorem cStr_append {s : Bytes} (h : 0 ∉ s) (t : Bytes) : cStr (s ++ t) = s ++ cStr t := by
  refine List.takeWhile_append_of_pos fun b hb ↦ ?_
  simpa using fun h0 : b = 0 ↦ h (h0 ▸ hb)

/-- Reading stops at the NUL byte, whatever the buffer holds behind it. -/
theorem cStr_append_zero {s : Bytes} (h : 0 ∉ s) (rest : Bytes) : cStr (s ++ 0 :: rest) = s := by
  rw [cStr_append h]
  exact List.append_nil s

end Bytes

/-- A C string: a byte string together with the proof that its terminator is its only NUL. -/
structure CString where
  /-- The characters before the terminator. -/
  bytes : Bytes
  /-- None of them is the terminator. -/
  zero_notMem : 0 ∉ bytes
  deriving DecidableEq

namespace CString

@[ext]
theorem ext {s t : CString} (h : s.bytes = t.bytes) : s = t := by
  cases s; cases t; cases h; rfl

/-- The C string found in a buffer. -/
def ofBuffer (s : Bytes) : CString := ⟨Bytes.cStr s, Bytes.zero_notMem_cStr s⟩

end CString

namespace Bytes

/-! ### Hexadecimal digits -/

/-- The lower-case hexadecimal digit of a value below sixteen. -/
def hexDigit (d : ℕ) : UInt8 :=
  if d < 10 then '0'.toUInt8 + d.toUInt8 else 'a'.toUInt8 + (d - 10).toUInt8

/-- The value of a hexadecimal digit, in either case. -/
def hexValue (b : UInt8) : Option ℕ :=
  if 'A'.toUInt8 ≤ b ∧ b ≤ 'F'.toUInt8 then some (b.toNat - 55)
  else if 'a'.toUInt8 ≤ b ∧ b ≤ 'f'.toUInt8 then some (b.toNat - 87)
  else if '0'.toUInt8 ≤ b ∧ b ≤ '9'.toUInt8 then some (b.toNat - 48)
  else none

theorem hexValue_hexDigit {d : ℕ} (hd : d < 16) : hexValue (hexDigit d) = some d := by
  have h : ∀ d : Fin 16, hexValue (hexDigit d) = some d.val := by decide
  exact h ⟨d, hd⟩

/-- Distinct values have distinct digits. -/
theorem hexDigit_inj {d e : ℕ} (hd : d < 16) (he : e < 16) (h : hexDigit d = hexDigit e) :
    d = e := by
  have := hexValue_hexDigit hd
  rw [h, hexValue_hexDigit he] at this
  exact (Option.some.inj this).symm

/-- The two digits of a byte, as `%02x` prints them. -/
def hexByte (b : UInt8) : Bytes := [hexDigit (b.toNat / 16), hexDigit (b.toNat % 16)]

theorem hexByte_inj {b c : UInt8} (h : hexByte b = hexByte c) : b = c := by
  have hb := b.toNat_lt
  have hc := c.toNat_lt
  simp only [hexByte, List.cons.injEq, and_true] at h
  have hhi := hexDigit_inj (by omega) (by omega) h.1
  have hlo := hexDigit_inj (by omega) (by omega) h.2
  exact UInt8.toNat_inj.1 (by omega)

/-- A string is printed as the concatenation of its bytes' digits. -/
def hex (s : Bytes) : Bytes := s.flatMap hexByte

theorem length_hex (s : Bytes) : (hex s).length = 2 * s.length := by
  induction s with
  | nil => rfl
  | cons b s ih =>
    have hcons : (hex (b :: s)).length = 2 + (hex s).length := by
      simp [hex, hexByte]; omega
    rw [hcons, ih, List.length_cons]
    omega

theorem hex_injective : Function.Injective hex := by
  intro s
  induction s with
  | nil =>
    intro t h
    cases t with
    | nil => rfl
    | cons c t => simp [hex, hexByte] at h
  | cons b s ih =>
    intro t h
    cases t with
    | nil => simp [hex, hexByte] at h
    | cons c t =>
      simp only [hex, List.flatMap_cons] at h
      obtain ⟨hbc, hst⟩ := List.append_inj h rfl
      rw [hexByte_inj hbc, ih hst]

/-- Every printed character is a lower-case hexadecimal digit. -/
theorem exists_hexDigit_of_mem_hex {s : Bytes} {b : UInt8} (h : b ∈ hex s) :
    ∃ d < 16, b = hexDigit d := by
  obtain ⟨c, -, hb⟩ := List.mem_flatMap.1 h
  have hc := c.toNat_lt
  simp only [hexByte, List.mem_cons, List.not_mem_nil, or_false] at hb
  rcases hb with rfl | rfl
  · exact ⟨_, by omega, rfl⟩
  · exact ⟨_, by omega, rfl⟩

/-- A byte that is no hexadecimal digit does not occur in printed text. -/
theorem notMem_hex {s : Bytes} {b : UInt8} (hb : hexValue b = none) : b ∉ hex s := by
  intro h
  obtain ⟨d, hd, rfl⟩ := exists_hexDigit_of_mem_hex h
  rw [hexValue_hexDigit hd] at hb
  exact absurd hb (by simp)

/-! ### Decimal text -/

/-- The decimal digits of a natural number. -/
def ofNat (n : ℕ) : Bytes := (Nat.toDigits 10 n).map Char.toUInt8

/-- The `%d` conversion. -/
def ofInt : ℤ → Bytes
  | .ofNat n => ofNat n
  | .negSucc n => '-'.toUInt8 :: ofNat (n + 1)

/-- The value of a string of decimal digits. -/
def decimalValue (s : Bytes) : ℕ :=
  Nat.ofDigitChars 10 (s.map fun b ↦ Char.ofNat b.toNat) 0

/-- The bytes that may occur in a decimal number. -/
def isDecimal (b : UInt8) : Bool := b == '-'.toUInt8 || ('0'.toUInt8 ≤ b && b ≤ '9'.toUInt8)

theorem ofNat_ne_nil (n : ℕ) : ofNat n ≠ [] := by
  simp [ofNat, Nat.toDigits_ne_nil]

private theorem toUInt8_toNat_of_isDigit {c : Char} (h : c.isDigit = true) :
    c.toUInt8.toNat = c.toNat := by
  have hc : c.toNat ≤ 57 := by
    simp only [Char.isDigit, Bool.and_eq_true, decide_eq_true_eq] at h
    exact h.2
  show c.toNat % 256 = c.toNat
  omega

private theorem digit_bounds {c : Char} (h : c.isDigit = true) :
    48 ≤ c.toNat ∧ c.toNat ≤ 57 := by
  simp only [Char.isDigit, Bool.and_eq_true, decide_eq_true_eq] at h
  exact ⟨h.1, h.2⟩

theorem isDigit_of_mem_ofNat {n : ℕ} {b : UInt8} (h : b ∈ ofNat n) :
    '0'.toUInt8 ≤ b ∧ b ≤ '9'.toUInt8 := by
  obtain ⟨c, hc, rfl⟩ := List.mem_map.1 h
  have hdig := Nat.isDigit_of_mem_toDigits (by omega) (by omega) hc
  have hbd := digit_bounds hdig
  have hval := toUInt8_toNat_of_isDigit hdig
  constructor
  · show '0'.toUInt8.toNat ≤ c.toUInt8.toNat
    rw [hval]; exact hbd.1
  · show c.toUInt8.toNat ≤ '9'.toUInt8.toNat
    rw [hval]; exact hbd.2

theorem isDecimal_of_mem_ofInt {n : ℤ} {b : UInt8} (h : b ∈ ofInt n) : isDecimal b = true := by
  have hnat : ∀ {n : ℕ} {b : UInt8}, b ∈ ofNat n → isDecimal b = true := fun hb ↦ by
    simp [isDecimal, isDigit_of_mem_ofNat hb]
  cases n with
  | ofNat n => exact hnat h
  | negSucc n =>
    rcases List.mem_cons.1 h with rfl | h'
    · rfl
    · exact hnat h'

/-- The digits can be read back as characters. -/
private theorem map_ofNat_eq_toDigits (n : ℕ) :
    (ofNat n).map (fun b ↦ Char.ofNat b.toNat) = Nat.toDigits 10 n := by
  rw [ofNat, List.map_map]
  refine (List.map_congr_left fun c hc ↦ ?_).trans (List.map_id _)
  have hdig := Nat.isDigit_of_mem_toDigits (by omega) (by omega) hc
  show Char.ofNat c.toUInt8.toNat = c
  rw [toUInt8_toNat_of_isDigit hdig, Char.ofNat_toNat]

/-- Decimal text reads as the number it was printed from. -/
theorem decimalValue_ofNat (n : ℕ) : decimalValue (ofNat n) = n := by
  rw [decimalValue, map_ofNat_eq_toDigits, Nat.ofDigitChars_ten_toDigits]

/-- A number is known from its decimal form. -/
theorem ofInt_injective : Function.Injective ofInt := by
  have hdigit : ∀ m n : ℕ, ofNat m ≠ '-'.toUInt8 :: ofNat n := by
    intro m n h
    exact absurd (isDigit_of_mem_ofNat (h ▸ List.mem_cons_self)).1 (by decide)
  intro m n h
  cases m with
  | ofNat m =>
    cases n with
    | ofNat n =>
      have hvalue := congrArg decimalValue (show ofNat m = ofNat n from h)
      rw [decimalValue_ofNat, decimalValue_ofNat] at hvalue
      rw [hvalue]
    | negSucc n => exact absurd h (hdigit m (n + 1))
  | negSucc m =>
    cases n with
    | ofNat n => exact absurd h.symm (hdigit n (m + 1))
    | negSucc n =>
      have hvalue := congrArg decimalValue (List.cons_inj_right _ |>.1 h)
      rw [decimalValue_ofNat, decimalValue_ofNat, Nat.add_right_cancel_iff] at hvalue
      rw [hvalue]

end Bytes
