import Mathlib.Data.Nat.Notation
import Mathlib.Data.Sum.Basic
import Mathlib.Logic.Relation

/-!
# Loops that may not end

A loop is given by its body. A round of the body fails, leaves the loop with a value, or goes on
with a state. Nothing says that the loop ends; what can be computed is what it does within a number
of rounds (`Loop.run`), and the loop ends when some number is enough (`Loop.Ends`).

* A loop ends if every round that goes on makes a measure smaller (`isSome_run_of_measure`).
* A loop does not end if a round goes on with the state it began with (`not_ends_of_stuck`), and
  where every other round makes a measure smaller this is the only way not to end
  (`not_ends_iff_of_measure`).
* What a loop returns is what it leaves with at a state that its rounds lead to (`exists_run_iff`).
-/

namespace Loop

variable {σ α ε : Type*}

/-- The outcome of a loop within a number of rounds; `none` when these are not enough. -/
def run (body : σ → Except ε (σ ⊕ α)) : ℕ → σ → Option (Except ε α)
  | 0, _ => none
  | n + 1, s =>
    match body s with
    | .error e => some (.error e)
    | .ok (.inr a) => some (.ok a)
    | .ok (.inl s') => run body n s'

/-- The loop ends. -/
def Ends (body : σ → Except ε (σ ⊕ α)) (s : σ) : Prop := ∃ n, (run body n s).isSome = true

variable {body : σ → Except ε (σ ⊕ α)} {s s' : σ}

theorem run_of_error {e : ε} (h : body s = .error e) (n : ℕ) :
    run body (n + 1) s = some (.error e) := by
  rw [run, h]

theorem run_of_leave {a : α} (h : body s = .ok (.inr a)) (n : ℕ) :
    run body (n + 1) s = some (.ok a) := by
  rw [run, h]

theorem run_of_continue (h : body s = .ok (.inl s')) (n : ℕ) :
    run body (n + 1) s = run body n s' := by
  rw [run, h]

/-- More rounds than a loop needs change nothing. -/
theorem run_of_le {r : Except ε α} {n m : ℕ} (h : run body n s = some r) (hnm : n ≤ m) :
    run body m s = some r := by
  induction n generalizing s m with
  | zero => exact absurd h (by simp [run])
  | succ n ih =>
    obtain ⟨m, rfl⟩ := Nat.exists_eq_add_one_of_ne_zero (Nat.ne_zero_of_lt hnm)
    rcases hs : body s with e | s' | a
    · rw [run_of_error hs] at h ⊢
      exact h
    · rw [run_of_continue hs] at h ⊢
      exact ih h (Nat.le_of_succ_le_succ hnm)
    · rw [run_of_leave hs] at h ⊢
      exact h

/-- Two numbers of rounds that are enough give the same outcome. -/
theorem run_eq_of_isSome {n m : ℕ} (hn : (run body n s).isSome = true)
    (hm : (run body m s).isSome = true) : run body n s = run body m s := by
  obtain ⟨r, hr⟩ := Option.isSome_iff_exists.1 hn
  obtain ⟨r', hr'⟩ := Option.isSome_iff_exists.1 hm
  rcases Nat.le_total n m with hle | hle
  · rw [hr, run_of_le hr hle]
  · rw [hr', run_of_le hr' hle]

/-- A round that changes nothing is repeated for ever. -/
theorem run_of_stuck (h : body s = .ok (.inl s)) (n : ℕ) : run body n s = none := by
  induction n with
  | zero => rfl
  | succ n ih => rw [run_of_continue h, ih]

theorem not_ends_of_stuck (h : body s = .ok (.inl s)) : ¬ Ends body s := by
  rintro ⟨n, hn⟩
  rw [run_of_stuck h] at hn
  exact Bool.false_ne_true hn

/-! ### The states that rounds lead to -/

/-- A round goes on from one state to another. -/
def Goes (body : σ → Except ε (σ ⊕ α)) (s s' : σ) : Prop := body s = .ok (.inl s')

theorem ends_iff_of_goes (h : Goes body s s') : Ends body s ↔ Ends body s' := by
  constructor
  · rintro ⟨n, hn⟩
    rcases n with - | n
    · exact absurd hn (by simp [run])
    · rw [run_of_continue h] at hn
      exact ⟨n, hn⟩
  · intro hends
    obtain ⟨n, hn⟩ := hends
    exact ⟨n + 1, by rwa [run_of_continue h]⟩

theorem ends_iff_of_reflTransGen (h : Relation.ReflTransGen (Goes body) s s') :
    Ends body s ↔ Ends body s' := by
  induction h with
  | refl => rfl
  | tail _ hlast ih => rw [ih, ends_iff_of_goes hlast]

/-- **What a loop returns**: it leaves with the value at a state that its rounds lead to. -/
theorem exists_run_iff {a : α} :
    (∃ n, run body n s = some (.ok a)) ↔
      ∃ s', Relation.ReflTransGen (Goes body) s s' ∧ body s' = .ok (.inr a) := by
  constructor
  · rintro ⟨n, hn⟩
    induction n generalizing s with
    | zero => exact absurd hn (by simp [run])
    | succ n ih =>
      rcases hs : body s with e | s' | b
      · rw [run_of_error hs] at hn
        exact absurd hn (by simp)
      · rw [run_of_continue hs] at hn
        obtain ⟨t, hreach, hleave⟩ := ih hn
        exact ⟨t, .head hs hreach, hleave⟩
      · rw [run_of_leave hs] at hn
        cases hn
        exact ⟨s, .refl, hs⟩
  · rintro ⟨s', hreach, hleave⟩
    induction hreach using Relation.ReflTransGen.head_induction_on with
    | refl => exact ⟨1, run_of_leave hleave 0⟩
    | head hgoes _ ih =>
      obtain ⟨n, hn⟩ := ih
      exact ⟨n + 1, (run_of_continue hgoes n).trans hn⟩

/-- Rounds that have gone on do not change the outcome. -/
theorem exists_run_of_reflTransGen (h : Relation.ReflTransGen (Goes body) s s') {n : ℕ}
    {r : Except ε α} (hr : run body n s' = some r) : ∃ m, run body m s = some r := by
  induction h using Relation.ReflTransGen.head_induction_on with
  | refl => exact ⟨n, hr⟩
  | head hgoes _ ih =>
    obtain ⟨m, hm⟩ := ih
    exact ⟨m + 1, (run_of_continue hgoes m).trans hm⟩

/-- A loop that is over has come to a state in which one more round is the last. -/
theorem exists_last_round {n : ℕ} {r : Except ε α} (hr : run body n s = some r) :
    ∃ s', Relation.ReflTransGen (Goes body) s s' ∧ run body 1 s' = some r := by
  induction n generalizing s with
  | zero => cases hr
  | succ n ih =>
    rcases hs : body s with e | s' | a
    · rw [run_of_error hs] at hr
      exact ⟨s, .refl, (run_of_error hs 0).trans hr⟩
    · rw [run_of_continue hs] at hr
      obtain ⟨t, hreach, hlast⟩ := ih hr
      exact ⟨t, .head hs hreach, hlast⟩
    · rw [run_of_leave hs] at hr
      exact ⟨s, .refl, (run_of_leave hs 0).trans hr⟩

/-- **The ways not to end**: where a round that changes the state makes a measure smaller, on the
states that an invariant allows, a loop does not end exactly if its rounds lead to a state that they
do not change. -/
theorem not_ends_iff_of_measure {I : σ → Prop} (μ : σ → ℕ)
    (hbody : ∀ s s', I s → Goes body s s' → I s' ∧ (s' = s ∨ μ s' < μ s)) (hI : I s) :
    ¬ Ends body s ↔ ∃ s', Relation.ReflTransGen (Goes body) s s' ∧ Goes body s' s' := by
  constructor
  · intro hends
    induction hn : μ s using Nat.strongRecOn generalizing s with
    | ind n ih =>
      rcases hs : body s with e | s' | a
      · exact absurd ⟨1, by rw [run_of_error hs]; rfl⟩ hends
      · obtain ⟨hI', heq | hlt⟩ := hbody s s' hI hs
        · rw [heq] at hs
          exact ⟨s, .refl, hs⟩
        · obtain ⟨t, hreach, hstuck⟩ :=
            ih (μ s') (hn ▸ hlt) hI' ((ends_iff_of_goes hs).not.1 hends) rfl
          exact ⟨t, .head hs hreach, hstuck⟩
      · exact absurd ⟨1, by rw [run_of_leave hs]; rfl⟩ hends
  · rintro ⟨s', hreach, hstuck⟩
    rw [ends_iff_of_reflTransGen hreach]
    exact not_ends_of_stuck hstuck

/-! ### Ending -/

/-- **The measure rule**: a loop is over within as many rounds as a measure says that every round
makes smaller, on the states that an invariant allows. -/
theorem isSome_run_of_measure {I : σ → Prop} (μ : σ → ℕ)
    (hbody : ∀ s s', I s → body s = .ok (.inl s') → I s' ∧ μ s' < μ s) (hs : I s) {n : ℕ}
    (hn : μ s < n) : (run body n s).isSome = true := by
  induction n generalizing s with
  | zero => exact absurd hn (Nat.not_lt_zero _)
  | succ n ih =>
    rcases h : body s with e | s' | a
    · rw [run_of_error h]
      rfl
    · obtain ⟨hs', hlt⟩ := hbody s s' hs h
      rw [run_of_continue h]
      exact ih hs' (by omega)
    · rw [run_of_leave h]
      rfl

end Loop
