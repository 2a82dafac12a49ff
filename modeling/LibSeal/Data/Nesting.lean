import Mathlib.Data.List.Basic
import Mathlib.Data.Nat.Notation
import Mathlib.Order.Nat

/-!
# Brackets and the ranges between them

A text is read once, and what is found in it is kept as a list of ranges, in the order in which they
begin. A range that has been opened and not closed has no end yet.

* `Nested` is what such a list keeps up to a place in the text: of two ranges, the later is behind
  the end of the earlier or has ended inside it. A range may be added (`Nested.concat`), and the
  last one that is open may be closed (`Nested.close`).
* The open ranges are a stack of kinds (`openKinds`), to which the same two operations push and from
  which they pop.
* `Bracket.run` is a stack machine on opening and closing brackets. What it reduces to the empty
  stack are the words of the grammar of brackets (`Bracket.run_eq_nil_iff`).
-/

namespace Nesting

variable {κ : Type*}

/-! ### Ranges -/

/-- A range of a text, of some kind, from `start` up to `stop`; `none` while it is open. -/
structure Span (κ : Type*) where
  kind : κ
  start : ℕ
  stop : Option ℕ

/-- The later of two ranges begins behind the earlier, and, if that has an end, begins behind it or
ends in front of it. -/
def Follows (s t : Span κ) : Prop :=
  s.start < t.start ∧ ∀ e ∈ s.stop, e ≤ t.start ∨ ∃ f ∈ t.stop, f < e

/-- The ranges that have been found in front of `p`. -/
structure Nested (p : ℕ) (spans : List (Span κ)) : Prop where
  before : ∀ s ∈ spans, s.start < p ∧ ∀ e ∈ s.stop, s.start ≤ e ∧ e ≤ p
  pairwise : spans.Pairwise Follows

theorem Nested.nil (p : ℕ) : Nested p ([] : List (Span κ)) where
  before _ hs := absurd hs List.not_mem_nil
  pairwise := .nil

theorem Nested.mono {p q : ℕ} {spans : List (Span κ)} (h : Nested p spans) (hpq : p ≤ q) :
    Nested q spans where
  before s hs := ⟨(h.before s hs).1.trans_le hpq, fun e he ↦
    ⟨((h.before s hs).2 e he).1, ((h.before s hs).2 e he).2.trans hpq⟩⟩
  pairwise := h.pairwise

/-- A range that begins behind all others. -/
theorem Nested.concat {p q : ℕ} {spans : List (Span κ)} (h : Nested p spans) {s : Span κ}
    (hp : p ≤ s.start) (hq : s.start < q) (hstop : ∀ e ∈ s.stop, s.start ≤ e ∧ e ≤ q) :
    Nested q (spans ++ [s]) where
  before t ht := by
    rcases List.mem_append.1 ht with ht | ht
    · exact (h.mono (hp.trans hq.le)).before t ht
    · obtain rfl := List.mem_singleton.1 ht
      exact ⟨hq, hstop⟩
  pairwise := by
    refine List.pairwise_append.2 ⟨h.pairwise, List.pairwise_singleton _ _, fun t ht s' hs' ↦ ?_⟩
    obtain rfl := List.mem_singleton.1 hs'
    obtain ⟨hstart, hend⟩ := h.before t ht
    exact ⟨hstart.trans_le hp, fun e he ↦ Or.inl ((hend e he).2.trans hp)⟩

/-- The last range that is open ends: those behind it are inside. -/
theorem Nested.close {p e : ℕ} {xs ys : List (Span κ)} {s : Span κ}
    (h : Nested p (xs ++ s :: ys)) (hs : s.stop = none) (hys : ∀ t ∈ ys, t.stop ≠ none)
    (he : p < e) : Nested e (xs ++ { s with stop := some e } :: ys) where
  before t ht := by
    have hbefore := (h.mono he.le).before
    rw [List.mem_append, List.mem_cons] at ht
    rcases ht with ht | rfl | ht
    · exact hbefore t (List.mem_append_left _ ht)
    · have hstart := (hbefore s (List.mem_append_right _ List.mem_cons_self)).1
      refine ⟨hstart, fun f hf ↦ ?_⟩
      obtain rfl := Option.some.inj hf
      exact ⟨hstart.le, le_rfl⟩
    · exact hbefore t (List.mem_append_right _ (List.mem_cons_of_mem s ht))
  pairwise := by
    obtain ⟨hxs, hsys, hcross⟩ := List.pairwise_append.1 h.pairwise
    obtain ⟨hs', hys'⟩ := List.pairwise_cons.1 hsys
    refine List.pairwise_append.2 ⟨hxs, List.pairwise_cons.2 ⟨fun t ht ↦ ⟨(hs' t ht).1, ?_⟩, hys'⟩,
      fun x hx t ht ↦ ?_⟩
    · -- what has been found behind the open range ended before it does
      intro f hf
      obtain rfl := Option.some.inj hf
      obtain ⟨g, hg⟩ := Option.ne_none_iff_exists'.1 (hys t ht)
      have hgp := ((h.before t (List.mem_append_right _ (List.mem_cons_of_mem s ht))).2 g hg).2
      exact Or.inr ⟨g, hg, hgp.trans_lt he⟩
    · rcases List.mem_cons.1 ht with rfl | ht
      · -- a range that has ended in front of an open one stays in front of it
        obtain ⟨hstart, hend⟩ := hcross x hx s List.mem_cons_self
        refine ⟨hstart, fun f hf ↦ ?_⟩
        rcases hend f hf with hle | ⟨g, hg, -⟩
        · exact Or.inl hle
        · rw [hs] at hg
          cases hg
      · exact hcross x hx t (List.mem_cons_of_mem s ht)

/-! ### The open ranges -/

/-- The kinds of the open ranges, the last one first. -/
def openKinds (spans : List (Span κ)) : List κ :=
  ((spans.filter fun s ↦ s.stop.isNone).map Span.kind).reverse

@[simp] theorem openKinds_nil : openKinds ([] : List (Span κ)) = [] := rfl

theorem openKinds_append (xs ys : List (Span κ)) :
    openKinds (xs ++ ys) = openKinds ys ++ openKinds xs := by
  rw [openKinds, List.filter_append, List.map_append, List.reverse_append]
  rfl

theorem openKinds_eq_nil_iff {spans : List (Span κ)} :
    openKinds spans = [] ↔ ∀ s ∈ spans, s.stop ≠ none := by
  simp [openKinds]

theorem openKinds_singleton_open {s : Span κ} (h : s.stop = none) : openKinds [s] = [s.kind] := by
  simp [openKinds, h]

theorem openKinds_singleton_closed {s : Span κ} (h : s.stop ≠ none) : openKinds [s] = [] :=
  openKinds_eq_nil_iff.2 fun t ht ↦ by rwa [List.mem_singleton.1 ht]

theorem openKinds_concat_open (spans : List (Span κ)) {s : Span κ} (h : s.stop = none) :
    openKinds (spans ++ [s]) = s.kind :: openKinds spans := by
  rw [openKinds_append, openKinds_singleton_open h, List.singleton_append]

theorem openKinds_concat_closed (spans : List (Span κ)) {s : Span κ} (h : s.stop ≠ none) :
    openKinds (spans ++ [s]) = openKinds spans := by
  rw [openKinds_append, openKinds_singleton_closed h, List.nil_append]

/-- The last range that is open is on top of the stack. -/
theorem openKinds_append_open {xs ys : List (Span κ)} {s : Span κ} (hs : s.stop = none)
    (hys : ∀ t ∈ ys, t.stop ≠ none) : openKinds (xs ++ s :: ys) = s.kind :: openKinds xs := by
  rw [openKinds_append, ← List.singleton_append, openKinds_append, openKinds_eq_nil_iff.2 hys,
    openKinds_singleton_open hs]
  rfl

theorem openKinds_append_closed {xs ys : List (Span κ)} {s : Span κ} (hs : s.stop ≠ none)
    (hys : ∀ t ∈ ys, t.stop ≠ none) : openKinds (xs ++ s :: ys) = openKinds xs := by
  rw [openKinds_append, ← List.singleton_append, openKinds_append, openKinds_eq_nil_iff.2 hys,
    openKinds_singleton_closed hs]
  rfl

/-! ### Brackets -/

/-- A bracket of some kind. -/
inductive Bracket (κ : Type*) where
  | opening (k : κ)
  | closing (k : κ)

namespace Bracket

/-- A closing bracket has to be of the kind that was opened last. -/
def step [DecidableEq κ] : List κ → Bracket κ → Option (List κ)
  | stack, opening k => some (k :: stack)
  | [], closing _ => none
  | k' :: stack, closing k => if k' = k then some stack else none

/-- The stack machine: what is open behind the brackets. -/
def run [DecidableEq κ] (stack : List κ) (bs : List (Bracket κ)) : Option (List κ) :=
  bs.foldlM step stack

/-- The grammar of brackets. -/
inductive Balanced : List (Bracket κ) → Prop
  | nil : Balanced []
  | wrap (k : κ) {bs cs : List (Bracket κ)} : Balanced bs → Balanced cs →
      Balanced (opening k :: (bs ++ closing k :: cs))

/-- What closes the brackets of a stack, with balanced words between. -/
def Closes : List κ → List (Bracket κ) → Prop
  | [], bs => Balanced bs
  | k :: stack, bs => ∃ as cs, bs = as ++ closing k :: cs ∧ Balanced as ∧ Closes stack cs

theorem Closes.wrap (k : κ) {stack : List κ} {bs cs : List (Bracket κ)} (hbs : Balanced bs)
    (hcs : Closes stack cs) : Closes stack (opening k :: (bs ++ closing k :: cs)) := by
  rcases stack with - | ⟨k', stack⟩
  · exact Balanced.wrap k hbs hcs
  · obtain ⟨as, ds, rfl, has, hds⟩ := hcs
    exact ⟨opening k :: (bs ++ closing k :: as), ds, by simp, Balanced.wrap k hbs has, hds⟩

variable [DecidableEq κ]

theorem run_append (stack : List κ) (bs cs : List (Bracket κ)) :
    run stack (bs ++ cs) = (run stack bs).bind fun stack' ↦ run stack' cs := List.foldlM_append

theorem run_cons (stack : List κ) (b : Bracket κ) (bs : List (Bracket κ)) :
    run stack (b :: bs) = (step stack b).bind fun stack' ↦ run stack' bs := List.foldlM_cons

/-- A balanced word leaves the stack as it was. -/
theorem Balanced.run_eq {bs : List (Bracket κ)} (h : Balanced bs) (stack : List κ) :
    run stack bs = some stack := by
  induction h generalizing stack with
  | nil => rfl
  | wrap k _ _ ihbs ihcs =>
    have hclose : step (k :: stack) (closing k) = some stack := if_pos rfl
    rw [run_cons, step, Option.bind_some, run_append, ihbs, Option.bind_some, run_cons, hclose,
      Option.bind_some, ihcs]

theorem closes_of_run {stack : List κ} {bs : List (Bracket κ)} (h : run stack bs = some []) :
    Closes stack bs := by
  induction bs generalizing stack with
  | nil =>
    obtain rfl : stack = [] := Option.some.inj h
    exact Balanced.nil
  | cons b bs ih =>
    rw [run_cons] at h
    obtain ⟨stack', hstep, hrest⟩ := Option.bind_eq_some_iff.1 h
    cases b with
    | opening k =>
      obtain rfl := Option.some.inj hstep
      obtain ⟨as, cs, rfl, has, hcs⟩ := ih hrest
      exact Closes.wrap k has hcs
    | closing k =>
      rcases stack with - | ⟨k', stack⟩
      · cases hstep
      · rw [step] at hstep
        split_ifs at hstep with hk
        cases hstep
        cases hk
        exact ⟨[], bs, rfl, Balanced.nil, ih hrest⟩

/-- **The stack machine accepts the words of the grammar.** -/
theorem run_eq_nil_iff {bs : List (Bracket κ)} : run [] bs = some [] ↔ Balanced bs :=
  ⟨closes_of_run, fun h ↦ h.run_eq []⟩

end Bracket

end Nesting
