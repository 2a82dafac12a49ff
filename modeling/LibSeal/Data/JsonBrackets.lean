import LibSeal.Data.Json
import Mathlib.Data.List.Infix

/-!
# The brackets of a JSON text

The brackets of arrays nest, and so a text closes every bracket that it opens and none before it is
opened (`Json.balanced`), unless there are brackets in its strings.
-/

namespace Json

/-- How many more brackets a text opens than it closes, whatever they stand for. -/
def openBrackets (s : Bytes) : ℤ := s.count '['.toUInt8 - s.count ']'.toUInt8

@[simp] theorem openBrackets_nil : openBrackets [] = 0 := rfl

@[simp] theorem openBrackets_append (s t : Bytes) :
    openBrackets (s ++ t) = openBrackets s + openBrackets t := by
  simp only [openBrackets, List.count_append, Int.natCast_add]
  omega

@[simp] theorem openBrackets_open : openBrackets ['['.toUInt8] = 1 := rfl

@[simp] theorem openBrackets_close : openBrackets [']'.toUInt8] = -1 := rfl

theorem openBrackets_cons (b : UInt8) (s : Bytes) :
    openBrackets (b :: s) = openBrackets [b] + openBrackets s := openBrackets_append [b] s

/-- No byte of a text is a bracket. -/
def HasNoBrackets (s : Bytes) : Prop := '['.toUInt8 ∉ s ∧ ']'.toUInt8 ∉ s

instance (s : Bytes) : Decidable (HasNoBrackets s) := inferInstanceAs (Decidable (_ ∧ _))

theorem HasNoBrackets.openBrackets_eq_zero {s : Bytes} (h : HasNoBrackets s) :
    openBrackets s = 0 := by
  rw [openBrackets, List.count_eq_zero_of_not_mem h.1, List.count_eq_zero_of_not_mem h.2]
  rfl

theorem HasNoBrackets.of_subset {s t : Bytes} (h : HasNoBrackets t) (hst : s ⊆ t) :
    HasNoBrackets s := ⟨fun hs ↦ h.1 (hst hs), fun hs ↦ h.2 (hst hs)⟩

/-! ### Balanced texts -/

/-- A text closes what it opens, and nothing before it is opened. -/
structure Balanced (s : Bytes) : Prop where
  nonneg : ∀ p, p <+: s → 0 ≤ openBrackets p
  closed : openBrackets s = 0

theorem HasNoBrackets.balanced {s : Bytes} (h : HasNoBrackets s) : Balanced s where
  nonneg _ hp := (h.of_subset hp.subset).openBrackets_eq_zero.ge
  closed := h.openBrackets_eq_zero

theorem Balanced.append {s t : Bytes} (hs : Balanced s) (ht : Balanced t) : Balanced (s ++ t) where
  nonneg p hp := by
    rcases List.prefix_or_prefix_of_prefix hp (List.prefix_append s t) with hps | ⟨q, rfl⟩
    · exact hs.nonneg p hps
    · have hq := ht.nonneg q ((List.prefix_append_right_inj s).1 hp)
      rw [openBrackets_append, hs.closed]
      omega
  closed := by
    rw [openBrackets_append, hs.closed, ht.closed]
    rfl

/-- While an array is open, so is its bracket. -/
theorem Balanced.openBrackets_pos {s p : Bytes} (hs : Balanced s) (hp : p ≠ [])
    (hps : p <+: '['.toUInt8 :: s) : 0 < openBrackets p := by
  rcases List.prefix_cons_iff.1 hps with rfl | ⟨q, rfl, hq⟩
  · exact absurd rfl hp
  · have h0 := hs.nonneg q hq
    rw [openBrackets_cons, openBrackets_open]
    omega

theorem Balanced.array {s : Bytes} (hs : Balanced s) :
    Balanced ('['.toUInt8 :: (s ++ [']'.toUInt8])) where
  nonneg p hp := by
    by_cases hnil : p = []
    · rw [hnil, openBrackets_nil]
    · rw [← List.cons_append] at hp
      rcases List.prefix_concat_iff.1 hp with rfl | hps
      · rw [List.cons_append, openBrackets_cons, openBrackets_append, hs.closed]
        decide
      · exact (hs.openBrackets_pos hnil hps).le
  closed := by
    rw [openBrackets_cons, openBrackets_append, hs.closed]
    decide

/-! ### Values -/

/-- A string or a literal has no brackets. -/
def Lexeme.bracketFree : Lexeme → Bool
  | string s => decide (HasNoBrackets (stringText s))
  | literal l => decide (HasNoBrackets l.bytes)
  | _ => true

theorem hasNoBrackets_white (gap : List White) : HasNoBrackets (textOf (gap.map .white)) := by
  induction gap with
  | nil => decide
  | cons w gap ih =>
    rw [List.map_cons, textOf_cons]
    refine ⟨fun h ↦ ?_, fun h ↦ ?_⟩
    · rcases List.mem_append.1 h with hw | hgap
      · cases w <;> exact absurd hw (by decide)
      · exact ih.1 hgap
    · rcases List.mem_append.1 h with hw | hgap
      · cases w <;> exact absurd hw (by decide)
      · exact ih.2 hgap

theorem balanced_white (gap : List White) : Balanced (textOf (gap.map .white)) :=
  (hasNoBrackets_white gap).balanced

theorem balanced_string {s : List StringChar} (h : (Lexeme.string s).bracketFree = true) :
    Balanced (textOf [.string s]) := by
  have hs : HasNoBrackets (stringText s) := of_decide_eq_true h
  have hquote : Balanced ['"'.toUInt8] := HasNoBrackets.balanced (by decide)
  have happend := hquote.append (hs.balanced.append hquote)
  rwa [textOf_cons, textOf_nil, List.append_nil]

theorem balanced_nil : Balanced [] := HasNoBrackets.balanced (by decide)

theorem balanced_comma : Balanced [','.toUInt8] := HasNoBrackets.balanced (by decide)

theorem balanced_item_separator (items : JsonItems) : Balanced (textOf items.separator) := by
  cases items with
  | nil gap => exact balanced_nil
  | cons before value after rest => exact balanced_comma

theorem balanced_member_separator (members : JsonMembers) :
    Balanced (textOf members.separator) := by
  cases members with
  | nil gap => exact balanced_nil
  | cons before key colon₁ colon₂ value after rest => exact balanced_comma

end Json

open Json

mutual

/-- **Without brackets in its strings a text closes what it opens.** -/
theorem Json.balanced :
    ∀ v : Json, (∀ x ∈ v.lexemes, x.bracketFree = true) → Balanced (textOf v.lexemes)
  | .literal l => by
    intro h
    have hl : HasNoBrackets l.bytes := of_decide_eq_true (h _ List.mem_cons_self)
    rw [Json.lexemes, textOf_cons, textOf_nil, List.append_nil]
    exact hl.balanced
  | .string s => by
    intro h
    exact balanced_string (h _ List.mem_cons_self)
  | .array items => by
    intro h
    rw [Json.lexemes] at h ⊢
    have hitems := items.balanced fun x hx ↦
      h x (List.mem_cons_of_mem _ (List.mem_append_left _ hx))
    rw [textOf_cons, textOf_append]
    exact hitems.array
  | .object members => by
    intro h
    rw [Json.lexemes] at h ⊢
    have hmembers := members.balanced fun x hx ↦
      h x (List.mem_cons_of_mem _ (List.mem_append_left _ hx))
    have hopen : Balanced ['\x7b'.toUInt8] := HasNoBrackets.balanced (by decide)
    have hclose : Balanced ['}'.toUInt8] := HasNoBrackets.balanced (by decide)
    rw [textOf_cons, textOf_append]
    exact hopen.append (hmembers.append hclose)

theorem JsonItems.balanced :
    ∀ items : JsonItems, (∀ x ∈ items.lexemes, x.bracketFree = true) →
      Balanced (textOf items.lexemes)
  | .nil gap => by
    intro h
    rw [JsonItems.lexemes]
    exact balanced_white gap
  | .cons before value after rest => by
    intro h
    rw [JsonItems.lexemes] at h ⊢
    simp only [List.mem_append] at h
    have hvalue := value.balanced fun x hx ↦ h x (.inr (.inl hx))
    have hrest := rest.balanced fun x hx ↦ h x (.inr (.inr (.inr (.inr hx))))
    simp only [textOf_append]
    exact (balanced_white before).append (hvalue.append ((balanced_white after).append
      ((balanced_item_separator rest).append hrest)))

theorem JsonMembers.balanced :
    ∀ members : JsonMembers, (∀ x ∈ members.lexemes, x.bracketFree = true) →
      Balanced (textOf members.lexemes)
  | .nil gap => by
    intro h
    rw [JsonMembers.lexemes]
    exact balanced_white gap
  | .cons before key colon₁ colon₂ value after rest => by
    intro h
    rw [JsonMembers.lexemes] at h ⊢
    simp only [List.mem_append, List.mem_cons] at h
    have hkey := balanced_string (h _ (.inr (.inl rfl)))
    have hvalue := value.balanced fun x hx ↦ h x (.inr (.inr (.inr (.inr (.inr (.inl hx))))))
    have hrest := rest.balanced fun x hx ↦
      h x (.inr (.inr (.inr (.inr (.inr (.inr (.inr (.inr hx))))))))
    have hcolon : Balanced [':'.toUInt8] := HasNoBrackets.balanced (by decide)
    have hbehind := hvalue.append ((balanced_white after).append
      ((balanced_member_separator rest).append hrest))
    rw [textOf_cons, textOf_nil, List.append_nil] at hkey
    simp only [textOf_append, textOf_cons]
    exact (balanced_white before).append (hkey.append ((balanced_white colon₁).append
      (hcolon.append ((balanced_white colon₂).append hbehind))))

end
