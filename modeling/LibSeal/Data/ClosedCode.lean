import Mathlib.Data.List.Infix

/-!
# Codes whose words end in a closing letter

A word of a `ClosedCode` ends in a letter `close`, and where this letter stands in a word, the word
could have ended. Texts are put into words without escapes, so that a text may look like the end of
its word with further words behind it. If it does not (`Plain`), it is known where it ends, whatever
words follow (`plain_append_inj`).
-/

/-- A set of words that end in the letter `close`, and can end wherever it stands. -/
structure ClosedCode (α : Type*) where
  IsWord : List α → Prop
  close : α
  ends {w : List α} : IsWord w → ∃ u, w = u ++ [close]
  isWord_of_prefix {w u : List α} : IsWord w → u ++ [close] <+: w → IsWord (u ++ [close])

namespace ClosedCode

variable {α : Type*} (C : ClosedCode α)

/-- With a closing letter behind it, the text does not end in a word behind a closing letter. -/
def Plain (s : List α) : Prop := ∀ w, C.IsWord w → ¬ C.close :: w <:+ s ++ [C.close]

variable {C}

/-- A text without the letter is plain. -/
theorem plain_of_notMem {s : List α} (h : C.close ∉ s) : C.Plain s := by
  rintro w hw ⟨u, hu⟩
  obtain ⟨v, rfl⟩ := C.ends hw
  rw [← List.cons_append, ← List.append_assoc] at hu
  obtain ⟨hs, -⟩ := List.append_inj' hu rfl
  exact h (hs ▸ List.mem_append_right _ List.mem_cons_self)

/-- Words behind a closing letter end in a closing letter. -/
theorem exists_ends {ws : List (List α)} (h : ∀ w ∈ ws, C.IsWord w) :
    ∃ u, C.close :: ws.flatten = u ++ [C.close] := by
  rcases List.eq_nil_or_concat ws with rfl | ⟨front, w, rfl⟩
  · exact ⟨[], rfl⟩
  · obtain ⟨u, rfl⟩ := C.ends (h w (by simp))
    exact ⟨C.close :: (front.flatten ++ u), by simp⟩

/-- **What is in front of a closing letter among words is made of words.** -/
theorem exists_words_of_prefix {ws : List (List α)} (h : ∀ w ∈ ws, C.IsWord w) {u : List α}
    (hu : u ++ [C.close] <+: ws.flatten) :
    ∃ (vs : List (List α)) (w : List α), (∀ v ∈ vs, C.IsWord v) ∧ C.IsWord w ∧
      u ++ [C.close] = vs.flatten ++ w := by
  induction ws generalizing u with
  | nil => exact absurd (List.prefix_nil.1 hu) (by simp)
  | cons w ws ih =>
    obtain ⟨hw, hws⟩ := List.forall_mem_cons.1 h
    obtain ⟨t, ht⟩ := hu
    rw [List.flatten_cons] at ht
    rcases List.append_eq_append_iff.1 ht with ⟨s, hs, -⟩ | ⟨s, hs, hrest⟩
    · -- the letter stands in the first word
      exact ⟨[], u ++ [C.close], List.forall_mem_nil _, C.isWord_of_prefix hw ⟨s, hs.symm⟩, rfl⟩
    · rcases List.eq_nil_or_concat s with rfl | ⟨s, b, rfl⟩
      · rw [List.append_nil] at hs
        exact ⟨[], w, List.forall_mem_nil _, hw, hs⟩
      · -- the letter stands behind the first word
        rw [List.concat_eq_append] at hs hrest
        rw [← List.append_assoc] at hs
        obtain ⟨hus, hb⟩ := List.append_inj' hs rfl
        cases hb
        obtain ⟨vs, v, hvs, hv, hsplit⟩ := ih hws ⟨t, hrest.symm⟩
        refine ⟨w :: vs, v, List.forall_mem_cons.2 ⟨hw, hvs⟩, hv, ?_⟩
        rw [hus, List.append_assoc, hsplit, List.flatten_cons, List.append_assoc]

/-- A plain text does not go on behind a closing letter in another text and the words there. -/
theorem eq_nil_of_plain_append {s u : List α} (hplain : C.Plain (s ++ u)) {ws : List (List α)}
    (h : ∀ w ∈ ws, C.IsWord w) {t : List α}
    (heq : C.close :: ws.flatten = u ++ C.close :: t) : u = [] := by
  rcases u with - | ⟨b, u⟩
  · rfl
  · exfalso
    rw [List.cons_append, List.cons_eq_cons] at heq
    obtain ⟨rfl, hflatten⟩ := heq
    obtain ⟨vs, w, hvs, hw, hsplit⟩ :=
      exists_words_of_prefix h (u := u) ⟨t, by rw [hflatten]; simp⟩
    obtain ⟨front, hfront⟩ := exists_ends hvs
    refine hplain w hw ⟨s ++ front, ?_⟩
    calc s ++ front ++ C.close :: w = s ++ (front ++ [C.close]) ++ w := by simp
      _ = s ++ (C.close :: (vs.flatten ++ w)) := by rw [← hfront]; simp
      _ = s ++ C.close :: u ++ [C.close] := by rw [← hsplit]; simp

/-- **A plain text ends where it seems to end.** -/
theorem plain_append_inj {s s' : List α} (hs : C.Plain s) (hs' : C.Plain s')
    {ws ws' : List (List α)} (h : ∀ w ∈ ws, C.IsWord w) (h' : ∀ w ∈ ws', C.IsWord w)
    (heq : s ++ C.close :: ws.flatten = s' ++ C.close :: ws'.flatten) :
    s = s' ∧ ws.flatten = ws'.flatten := by
  have hsame : s = s' := by
    rcases List.append_eq_append_iff.1 heq with ⟨u, rfl, hu⟩ | ⟨u, rfl, hu⟩
    · rw [eq_nil_of_plain_append hs' h hu, List.append_nil]
    · rw [eq_nil_of_plain_append hs h' hu, List.append_nil]
  subst hsame
  exact ⟨rfl, List.cons_inj_right _ |>.1 (List.append_cancel_left heq)⟩

end ClosedCode
