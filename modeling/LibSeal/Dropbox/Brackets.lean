import LibSeal.Data.JsonBrackets
import LibSeal.Dropbox.Main

/-!
# Where an array ends

`parse_commit_batch` and `parse_list` count the brackets of a text up to the one that closes the
first. They count all of them, also those in strings, so that the name of a file can end the array
before its time, or keep it open: `EndsArray` is the exact condition for the array to be cut out
(`cut_eq_array_iff`). It holds of an array with no brackets in its strings (`endsArray`).
-/

namespace LibSeal

open Bytes Json

/-! ### The loop -/

theorem arrayEnd_open (n : ℤ) (s : Bytes) :
    arrayEnd n ('['.toUInt8 :: s) = arrayEnd (n + 1) s + 1 := rfl

theorem arrayEnd_close (n : ℤ) (s : Bytes) :
    arrayEnd n (']'.toUInt8 :: s) = if n - 1 = 0 then 0 else arrayEnd (n - 1) s + 1 := rfl

theorem arrayEnd_other {c : UInt8} (hopen : c ≠ '['.toUInt8) (hclose : c ≠ ']'.toUInt8) (n : ℤ)
    (s : Bytes) : arrayEnd n (c :: s) = arrayEnd n s + 1 := by
  rw [arrayEnd, if_neg hopen, if_neg hclose]

/-- The loop goes through what leaves a bracket open. -/
theorem arrayEnd_append {n : ℤ} {s : Bytes} (h : ∀ p, p <+: s → 0 < n + openBrackets p)
    (t : Bytes) : arrayEnd n (s ++ t) = s.length + arrayEnd (n + openBrackets s) t := by
  induction s generalizing n with
  | nil => rw [openBrackets_nil, Int.add_zero, List.nil_append, List.length_nil, Nat.zero_add]
  | cons c s ih =>
    have htail : ∀ p, p <+: s → 0 < n + openBrackets [c] + openBrackets p := by
      intro p hp
      have hc := h (c :: p) (List.cons_prefix_cons.2 ⟨rfl, hp⟩)
      rw [openBrackets_cons] at hc
      omega
    have hstep : arrayEnd n (c :: (s ++ t)) = arrayEnd (n + openBrackets [c]) (s ++ t) + 1 := by
      by_cases hopen : c = '['.toUInt8
      · rw [hopen, arrayEnd_open, openBrackets_open]
      · by_cases hclose : c = ']'.toUInt8
        · have hpos := htail [] List.nil_prefix
          rw [hclose, openBrackets_close, openBrackets_nil] at hpos
          rw [hclose, arrayEnd_close, openBrackets_close, if_neg (by omega), Int.sub_eq_add_neg]
        · have h0 : openBrackets [c] = 0 :=
            HasNoBrackets.openBrackets_eq_zero ⟨by simpa using Ne.symm hopen,
              by simpa using Ne.symm hclose⟩
          rw [arrayEnd_other hopen hclose, h0, Int.add_zero]
    have hsum : n + openBrackets (c :: s) = n + openBrackets [c] + openBrackets s := by
      rw [openBrackets_cons]
      omega
    rw [List.cons_append, hstep, ih htail, hsum, List.length_cons]
    omega

theorem arrayEnd_append_of_hasNoBrackets {s : Bytes} (h : HasNoBrackets s) (n : ℤ) (t : Bytes) :
    arrayEnd n (s ++ t) = s.length + arrayEnd n t := by
  induction s with
  | nil => rw [List.nil_append, List.length_nil, Nat.zero_add]
  | cons c s ih =>
    have hopen : c ≠ '['.toUInt8 := fun hc ↦ h.1 (hc ▸ List.mem_cons_self)
    have hclose : c ≠ ']'.toUInt8 := fun hc ↦ h.2 (hc ▸ List.mem_cons_self)
    rw [List.cons_append, arrayEnd_other hopen hclose,
      ih (h.of_subset (List.subset_cons_self c s)), List.length_cons]
    omega

/-- A text leaves a bracket open all the time, or there is a first one that closes the last. -/
theorem open_or_closed {n : ℤ} (hn : 0 < n) (s : Bytes) :
    (∀ p, p <+: s → 0 < n + openBrackets p) ∨
      ∃ p t, s = p ++ ']'.toUInt8 :: t ∧ n + openBrackets p = 1 ∧
        ∀ q, q <+: p → 0 < n + openBrackets q := by
  induction s generalizing n with
  | nil =>
    left
    intro p hp
    rw [List.prefix_nil.1 hp, openBrackets_nil]
    omega
  | cons c s ih =>
    by_cases hlast : c = ']'.toUInt8 ∧ n = 1
    · -- the first byte closes the last bracket
      refine .inr ⟨[], s, by rw [hlast.1, List.nil_append], by rw [hlast.2]; rfl, ?_⟩
      intro q hq
      rw [List.prefix_nil.1 hq, openBrackets_nil]
      omega
    · have hpos : 0 < n + openBrackets [c] := by
        by_cases hclose : c = ']'.toUInt8
        · have hne : n ≠ 1 := fun hn1 ↦ hlast ⟨hclose, hn1⟩
          rw [hclose, openBrackets_close]
          omega
        · have hcount : [c].count ']'.toUInt8 = 0 :=
            List.count_eq_zero_of_not_mem (by simpa using Ne.symm hclose)
          rw [openBrackets, hcount]
          omega
      rcases ih hpos with hall | ⟨p, t, rfl, hp, hq⟩
      · left
        intro p hp
        rcases List.prefix_cons_iff.1 hp with rfl | ⟨q, rfl, hq⟩
        · rw [openBrackets_nil]
          omega
        · have h0 := hall q hq
          rw [openBrackets_cons]
          omega
      · refine .inr ⟨c :: p, t, rfl, ?_, ?_⟩
        · rw [openBrackets_cons]
          omega
        · intro q hqp
          rcases List.prefix_cons_iff.1 hqp with rfl | ⟨r, rfl, hr⟩
          · rw [openBrackets_nil]
            omega
          · have h0 := hq r hr
            rw [openBrackets_cons]
            omega

/-! ### Arrays -/

/-- No beginning of a text has as many closing as opening brackets, and the whole text has, unless
nothing follows. -/
structure EndsArray (text rest : Bytes) : Prop where
  openBrackets_pos : ∀ p, p <+: text → p ≠ [] → p ≠ text → 0 < openBrackets p
  closed : openBrackets text = 0 ∨ rest = []

/-- The loop cuts out a text in brackets exactly if its last bracket is the first to close it. -/
theorem take_arrayEnd_eq_iff (body rest : Bytes) :
    (('['.toUInt8 :: (body ++ [']'.toUInt8])) ++ rest).take
        (arrayEnd 0 (('['.toUInt8 :: (body ++ [']'.toUInt8])) ++ rest) + 1) =
          '['.toUInt8 :: (body ++ [']'.toUInt8]) ↔
      EndsArray ('['.toUInt8 :: (body ++ [']'.toUInt8])) rest := by
  have htext : ('['.toUInt8 :: (body ++ [']'.toUInt8])) ++ rest =
      '['.toUInt8 :: (body ++ ']'.toUInt8 :: rest) := by simp
  have hcount : openBrackets ('['.toUInt8 :: (body ++ [']'.toUInt8])) = openBrackets body := by
    rw [openBrackets_cons, openBrackets_append, openBrackets_open, openBrackets_close]
    omega
  rw [htext, arrayEnd_open]
  rcases open_or_closed (by decide : (0 : ℤ) < 0 + 1) body with hall | ⟨p, t, rfl, hp, hq⟩
  · -- the loop comes to the last bracket, and stops there if no other is open
    have hbefore : ∀ p, p <+: '['.toUInt8 :: (body ++ [']'.toUInt8]) → p ≠ [] →
        p ≠ '['.toUInt8 :: (body ++ [']'.toUInt8]) → 0 < openBrackets p := by
      intro p hp hnil hne
      rw [← List.cons_append] at hp hne
      rcases List.prefix_cons_iff.1 ((List.prefix_concat_iff.1 hp).resolve_left hne) with
        rfl | ⟨q, rfl, hq⟩
      · exact absurd rfl hnil
      · have h0 := hall q hq
        rw [openBrackets_cons, openBrackets_open]
        omega
    have htake (m : ℕ) : ('['.toUInt8 :: (body ++ ']'.toUInt8 :: rest)).take
        (body.length + m + 1 + 1) = '['.toUInt8 :: (body ++ ']'.toUInt8 :: rest.take m) := by
      rw [List.take_succ_cons, Nat.add_assoc, List.take_length_add_append, List.take_succ_cons]
    rw [arrayEnd_append hall, arrayEnd_close, htake]
    by_cases hclosed : openBrackets body = 0
    · rw [if_pos (by omega), List.take_zero]
      exact ⟨fun _ ↦ ⟨hbefore, .inl (hcount.trans hclosed)⟩, fun _ ↦ rfl⟩
    · rw [if_neg (by omega)]
      constructor
      · intro h
        exact ⟨hbefore, .inr (by simpa using h)⟩
      · rintro ⟨-, hzero | rfl⟩
        · exact absurd (hcount.symm.trans hzero) hclosed
        · rfl
  · -- the bracket behind `p` ends the array, and there is more of it
    have hend : arrayEnd (0 + 1) (p ++ ']'.toUInt8 :: t ++ ']'.toUInt8 :: rest) = p.length := by
      rw [List.append_assoc, List.cons_append, arrayEnd_append hq, arrayEnd_close,
        if_pos (by omega), Nat.add_zero]
    have htake : ('['.toUInt8 :: (p ++ ']'.toUInt8 :: t ++ ']'.toUInt8 :: rest)).take
        (p.length + 1 + 1) = '['.toUInt8 :: (p ++ [']'.toUInt8]) := by
      rw [List.take_succ_cons, List.append_assoc, List.take_length_add_append]
      rfl
    have hne : '['.toUInt8 :: (p ++ [']'.toUInt8]) ≠
        '['.toUInt8 :: (p ++ ']'.toUInt8 :: t ++ [']'.toUInt8]) := by
      intro h
      have hlength := congrArg List.length h
      simp at hlength
    rw [hend, htake]
    refine ⟨fun h ↦ absurd h hne, fun h ↦ ?_⟩
    have hpos := h.openBrackets_pos ('['.toUInt8 :: (p ++ [']'.toUInt8]))
      ⟨t ++ [']'.toUInt8], by simp⟩ (List.cons_ne_nil _ _) hne
    rw [openBrackets_cons, openBrackets_append, openBrackets_open, openBrackets_close] at hpos
    omega

theorem text_array (items : JsonItems) :
    (Json.array items).text = '['.toUInt8 :: (textOf items.lexemes ++ [']'.toUInt8]) := by
  rw [Json.text, Json.lexemes, textOf_cons, textOf_append]
  rfl

/-- **Both loops cut out an array exactly if its last bracket is the first to close it.** -/
theorem cut_eq_array_iff (items : JsonItems) (front rest : Bytes) :
    (cutCommitInfo ((Json.array items).text ++ rest) = (Json.array items).text ↔
      EndsArray (Json.array items).text rest) ∧
    (cutList (front ++ ((Json.array items).text ++ rest)) front.length =
        .ok (Json.array items).text ↔ EndsArray (Json.array items).text rest) := by
  have htake := take_arrayEnd_eq_iff (textOf items.lexemes) rest
  rw [← text_array] at htake
  refine ⟨htake, ?_⟩
  rw [cutList, List.drop_left, substr, if_neg (by simp), List.drop_left, Except.ok.injEq]
  exact htake

/-- **An array whose strings have no brackets is cut out.** -/
theorem endsArray {items : JsonItems} (h : ∀ x ∈ items.lexemes, x.bracketFree = true)
    (rest : Bytes) : EndsArray (Json.array items).text rest := by
  rw [text_array]
  have hitems := items.balanced h
  refine ⟨fun p hp hnil hne ↦ ?_, .inl hitems.array.closed⟩
  rw [← List.cons_append] at hp hne
  exact hitems.openBrackets_pos hnil ((List.prefix_concat_iff.1 hp).resolve_left hne)

/-- A file with a bracket in its path. -/
def bracketPath : JsonItems :=
  .compact [.object (.compact [plainField (ascii "path") (by decide +kernel)
    (.string (plainString (ascii "/a]") (by decide +kernel)))])]

/-- The path ends the array. -/
theorem not_cut_eq_bracketPath :
    cutCommitInfo (Json.array bracketPath).text ≠ (Json.array bracketPath).text ∧
    cutList (ascii "\x7b\"list\": " ++ (Json.array bracketPath).text) 9 ≠
      .ok (Json.array bracketPath).text := by
  decide +kernel

end LibSeal
