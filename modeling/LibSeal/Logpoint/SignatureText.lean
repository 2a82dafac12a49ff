import LibSeal.Data.Numerals
import LibSeal.Logpoint.SignedInsert

/-!
# Signatures in text

A coordinate of a signature is printed as eight `%x`, with nothing between them and without leading
zeros. So the boundaries of the words are lost: what is seen of a coordinate is how many digits it
has and which number they make (`coordinateText_eq_iff`). Two signatures whose words have the same
numbers of digits, one by one, are told apart, and so are two whose coordinates have different
totals. For all other numbers of digits there are signatures that are printed alike
(`toldApart_iff`).
-/

namespace LibSeal

open Bytes

/-! ### A word -/

/-- `%x` prints the numeral of a word. -/
theorem hexWord_eq (w : UInt32) : hexWord w = (Numeral.digits 16 w.toNat).map hexDigit := by
  have hdigit : ∀ d : Fin 16, (Nat.digitChar d).toUInt8 = hexDigit d := by decide
  have hall : ∀ n, (Nat.toDigits 16 n).map Char.toUInt8 = (Numeral.digits 16 n).map hexDigit := by
    intro n
    induction n using Nat.strong_induction_on with
    | h n ih =>
      by_cases hn : n < 16
      · rw [Nat.toDigits_of_lt_base hn, Numeral.digits_of_lt hn]
        exact congrArg (fun b ↦ [b]) (hdigit ⟨n, hn⟩)
      · have hmod := Nat.mod_lt n (show 0 < 16 by decide)
        rw [Nat.toDigits_of_base_le (by decide) (not_lt.1 hn),
          Numeral.digits_of_le (by decide) (not_lt.1 hn), List.map_append, List.map_append,
          ih (n / 16) (by omega)]
        exact congrArg (fun b ↦ _ ++ [b]) (hdigit ⟨n % 16, hmod⟩)
  exact hall w.toNat

/-- The number of digits of a word. -/
def digitCount (w : UInt32) : ℕ := Numeral.size 16 w.toNat

theorem length_hexWord (w : UInt32) : (hexWord w).length = digitCount w := by
  rw [hexWord_eq, List.length_map, Numeral.length_digits (by decide), digitCount]

theorem digitCount_pos (w : UInt32) : 0 < digitCount w := Nat.succ_pos _

theorem digitCount_le (w : UInt32) : digitCount w ≤ 8 := by
  rw [← length_hexWord]
  exact length_hexWord_le w

/-! ### A coordinate -/

/-- The text of a coordinate. -/
def coordinateText (v : Vector UInt32 8) : Bytes := v.toList.flatMap hexWord

/-- The words of a coordinate, as numbers. -/
def words (v : Vector UInt32 8) : List ℕ := v.toList.map UInt32.toNat

/-- The numbers of digits of the words. -/
def digitCounts (v : Vector UInt32 8) : List ℕ := (words v).map (Numeral.size 16)

/-- The number of digits of a coordinate. -/
def digitTotal (v : Vector UInt32 8) : ℕ := (digitCounts v).sum

theorem words_injective : Function.Injective words := by
  intro v v' h
  exact Vector.toList_inj.1 (List.map_injective_iff.2 (fun _ _ ↦ UInt32.toNat_inj.1) h)

theorem coordinateText_eq (v : Vector UInt32 8) :
    coordinateText v = (Numeral.written 16 (words v)).map hexDigit := by
  rw [coordinateText, Numeral.written, words, List.map_flatMap, List.flatMap_map]
  exact congrArg (fun f ↦ v.toList.flatMap f) (funext hexWord_eq)

/-- A text has the digits of one list of numerals only. -/
theorem coordinateText_eq_iff_written {v v' : Vector UInt32 8} :
    coordinateText v = coordinateText v' ↔
      Numeral.written 16 (words v) = Numeral.written 16 (words v') := by
  have hread : ∀ v, (coordinateText v).map (fun b ↦ (hexValue b).getD 0) =
      Numeral.written 16 (words v) := by
    intro v
    rw [coordinateText_eq, List.map_map]
    conv_rhs => rw [← List.map_id (Numeral.written 16 (words v))]
    refine List.map_congr_left fun d hd ↦ ?_
    rw [Function.comp_apply, hexValue_hexDigit (Numeral.lt_of_mem_written (by decide) hd)]
    rfl
  constructor
  · intro h
    rw [← hread, h, hread]
  · intro h
    rw [coordinateText_eq, h, coordinateText_eq]

/-- **What is seen of a coordinate**: how many digits it has, and which number they make. -/
theorem coordinateText_eq_iff {v v' : Vector UInt32 8} :
    coordinateText v = coordinateText v' ↔
      digitTotal v = digitTotal v' ∧
        Numeral.joined 16 (words v) = Numeral.joined 16 (words v') := by
  rw [coordinateText_eq_iff_written, Numeral.written_eq_iff (by decide)]
  rfl

/-- Words with the same numbers of digits are told apart. -/
theorem eq_of_coordinateText_eq {v v' : Vector UInt32 8} (hcounts : digitCounts v = digitCounts v')
    (h : coordinateText v = coordinateText v') : v = v' :=
  words_injective <| Numeral.eq_of_written_eq (by decide) hcounts
    (coordinateText_eq_iff_written.1 h)

/-- The text of a coordinate ends at the quotation mark. -/
theorem ne_quote_of_mem_coordinateText (v : Vector UInt32 8) :
    ∀ b ∈ coordinateText v, (b != '"'.toUInt8) = true := by
  have hdigit : ∀ d : Fin 16, (hexDigit d != '"'.toUInt8) = true := by decide
  intro b hb
  rw [coordinateText_eq, List.mem_map] at hb
  obtain ⟨d, hd, rfl⟩ := hb
  exact hdigit ⟨d, Numeral.lt_of_mem_written (by decide) hd⟩

/-- The `INSERT` of a signature shows the texts of its coordinates, and nothing else of it. -/
theorem insertSignature_eq_iff (lasthash : Bytes) {s s' : Signature} :
    insertSignature lasthash s = insertSignature lasthash s' ↔
      coordinateText s.x = coordinateText s'.x ∧ coordinateText s.y = coordinateText s'.y := by
  have hcut : ∀ s, insertSignature lasthash s =
      (ascii "INSERT INTO `libseal_signatures` VALUES(\"" ++ lasthash ++ ascii "\",\"") ++
        (coordinateText s.x ++ '"'.toUInt8 ::
          (ascii ",\"" ++ (coordinateText s.y ++ '"'.toUInt8 :: ascii ");"))) := by
    intro s
    have hsep : ascii "\",\"" = '"'.toUInt8 :: ascii ",\"" := rfl
    have hend : ascii "\");" = '"'.toUInt8 :: ascii ");" := rfl
    rw [insertSignature, hend]
    simp only [List.append_assoc, hsep, List.cons_append, coordinateText]
  have hquote := ne_quote_of_mem_coordinateText
  constructor
  · intro h
    rw [hcut, hcut, List.append_cancel_left_eq] at h
    obtain ⟨hx, hrest⟩ := append_cons_inj_of_forall h (hquote s.x) (hquote s'.x) rfl rfl
    rw [List.cons.injEq, List.append_cancel_left_eq] at hrest
    exact ⟨hx, (append_cons_inj_of_forall hrest.2 (hquote s.y) (hquote s'.y) rfl rfl).1⟩
  · rintro ⟨hx, hy⟩
    rw [hcut, hcut, hx, hy]

/-! ### Words of ones -/

/-- The word with as many digits as another, all of them 1. -/
def onesWord (w : UInt32) : UInt32 := UInt32.ofNat (Numeral.ones 16 (digitCount w))

theorem toNat_onesWord (w : UInt32) : (onesWord w).toNat = Numeral.ones 16 (digitCount w) := by
  have hsize := Numeral.size_ones (b := 16) (by decide) (digitCount_pos w)
  have hlt : Numeral.ones 16 (digitCount w) < 16 ^ 8 :=
    calc Numeral.ones 16 (digitCount w)
        < 16 ^ Numeral.size 16 (Numeral.ones 16 (digitCount w)) :=
          Nat.lt_pow_succ_log_self (by decide) _
      _ ≤ 16 ^ 8 := Nat.pow_le_pow_right (by decide) (hsize.le.trans (digitCount_le w))
  exact UInt32.toNat_ofNat_of_lt' hlt

theorem words_map_onesWord (v : Vector UInt32 8) :
    words (v.map onesWord) = (digitCounts v).map (Numeral.ones 16) := by
  rw [words, Vector.toList_map, List.map_map, digitCounts, words, List.map_map, List.map_map]
  exact List.map_congr_left fun w _ ↦ toNat_onesWord w

theorem forall_mem_digitCounts_pos (v : Vector UInt32 8) : ∀ k ∈ digitCounts v, 0 < k := by
  intro k hk
  obtain ⟨n, -, rfl⟩ := List.mem_map.1 hk
  exact Nat.succ_pos _

theorem digitCounts_map_onesWord (v : Vector UInt32 8) :
    digitCounts (v.map onesWord) = digitCounts v := by
  rw [digitCounts, words_map_onesWord,
    Numeral.map_size_ones (by decide) (forall_mem_digitCounts_pos v)]

/-- Words of ones with the same total are printed alike. -/
theorem coordinateText_map_onesWord {v v' : Vector UInt32 8} (h : digitTotal v = digitTotal v') :
    coordinateText (v.map onesWord) = coordinateText (v'.map onesWord) := by
  rw [coordinateText_eq_iff_written, words_map_onesWord, words_map_onesWord,
    Numeral.written_ones (by decide) (forall_mem_digitCounts_pos v),
    Numeral.written_ones (by decide) (forall_mem_digitCounts_pos v')]
  exact congrArg (List.replicate · 1) h

/-! ### A signature -/

/-- **A signature is told apart from another**: if both texts are the same, so are the
signatures. -/
def ToldApart (s s' : Signature) : Prop :=
  coordinateText s.x = coordinateText s'.x → coordinateText s.y = coordinateText s'.y → s = s'

/-- The words of two signatures have the same numbers of digits, one by one. -/
def SameCounts (s s' : Signature) : Prop :=
  digitCounts s.x = digitCounts s'.x ∧ digitCounts s.y = digitCounts s'.y

/-- The words of two coordinates run together to one number with one number of digits. -/
def RunTogether (v v' : Vector UInt32 8) : Prop :=
  digitTotal v = digitTotal v' ∧ Numeral.joined 16 (words v) = Numeral.joined 16 (words v')

theorem toldApart_of_sameCounts {s s' : Signature} (h : SameCounts s s') : ToldApart s s' := by
  intro hx hy
  exact congrArg₂ Signature.mk (eq_of_coordinateText_eq h.1 hx) (eq_of_coordinateText_eq h.2 hy)

/-- **Which signatures are told apart**: those whose words have the same numbers of digits and those
that do not run together. So for two lists of numbers of digits all signatures are told apart
exactly if the lists are the same or the totals are not. -/
theorem toldApart_iff (s s' : Signature) :
    (ToldApart s s' ↔ SameCounts s s' ∨ ¬ (RunTogether s.x s'.x ∧ RunTogether s.y s'.y)) ∧
      ((∀ t t', SameCounts t s → SameCounts t' s' → ToldApart t t') ↔
        SameCounts s s' ∨ digitTotal s.x ≠ digitTotal s'.x ∨ digitTotal s.y ≠ digitTotal s'.y) := by
  constructor
  · constructor
    · intro h
      by_cases htogether : RunTogether s.x s'.x ∧ RunTogether s.y s'.y
      · have hx := coordinateText_eq_iff.2 htogether.1
        have hy := coordinateText_eq_iff.2 htogether.2
        rw [h hx hy]
        exact Or.inl ⟨rfl, rfl⟩
      · exact Or.inr htogether
    · rintro (hcounts | hapart)
      · exact toldApart_of_sameCounts hcounts
      · exact fun hx hy ↦
          absurd ⟨coordinateText_eq_iff.1 hx, coordinateText_eq_iff.1 hy⟩ hapart
  · constructor
    · intro h
      by_contra hnot
      rw [not_or, not_or, not_not, not_not] at hnot
      obtain ⟨hcounts, htotal⟩ := hnot
      -- the words of ones are printed alike, so they are the same
      have hones : (⟨s.x.map onesWord, s.y.map onesWord⟩ : Signature) =
          ⟨s'.x.map onesWord, s'.y.map onesWord⟩ :=
        h _ _ ⟨digitCounts_map_onesWord s.x, digitCounts_map_onesWord s.y⟩
          ⟨digitCounts_map_onesWord s'.x, digitCounts_map_onesWord s'.y⟩
          (coordinateText_map_onesWord htotal.1) (coordinateText_map_onesWord htotal.2)
      rw [Signature.mk.injEq] at hones
      refine hcounts ⟨?_, ?_⟩
      · rw [← digitCounts_map_onesWord, hones.1, digitCounts_map_onesWord]
      · rw [← digitCounts_map_onesWord, hones.2, digitCounts_map_onesWord]
    · rintro (hcounts | htotal) t t' ht ht'
      · exact toldApart_of_sameCounts
          ⟨ht.1.trans (hcounts.1.trans ht'.1.symm), ht.2.trans (hcounts.2.trans ht'.2.symm)⟩
      · intro hx hy
        have hxs := (coordinateText_eq_iff.1 hx).1
        have hys := (coordinateText_eq_iff.1 hy).1
        simp only [digitTotal, ht.1, ht.2, ht'.1, ht'.2] at hxs hys
        exact htotal.elim (absurd hxs) (absurd hys)

/-- A boundary that is lost: 1 and 23 are printed as 12 and 3 are. -/
theorem not_toldApart_movedBoundary :
    ¬ ∀ s s' : Signature, coordinateText s.x = coordinateText s'.x →
      coordinateText s.y = coordinateText s'.y → s = s' := by
  intro h
  have heq := h ⟨#v[1, 0x23, 4, 5, 6, 7, 8, 9], #v[1, 2, 3, 4, 5, 6, 7, 8]⟩
    ⟨#v[0x12, 3, 4, 5, 6, 7, 8, 9], #v[1, 2, 3, 4, 5, 6, 7, 8]⟩ (by decide +kernel) rfl
  rw [Signature.mk.injEq] at heq
  exact absurd heq.1 (by decide)

end LibSeal
