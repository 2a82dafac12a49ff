import Mathlib.Data.List.Basic
import Mathlib.Logic.Function.Basic

/-!
# Machines with a key

A **keyed machine** is a family of copies of one machine, one copy for each key, driven by a list of
events that name the key they are for. An event steps the copy of its key and touches no other, a
step may fail, and what a step yields is tagged with its key.

Because the copies share nothing, an interleaving of events is as good as its projections:

* a keyed run that returns projects, at every key, to a run of that copy alone, and what it yielded
  for the key is what that run yielded (`run_of_runKeyed`);
* a keyed run returns as soon as every projection does (`exists_runKeyed`).
-/

namespace KeyedMachine

variable {K S E O F : Type} [DecidableEq K] (step : S → E → Except F (S × List O))

/-- A run of one copy, with what it yields. -/
def run : S → List E → Except F (S × List O)
  | s, [] => .ok (s, [])
  | s, e :: es => do
    let (s, os) ← step s e
    let (s, os') ← run s es
    return (s, os ++ os')

/-- One event of the family. -/
def stepKeyed (s : K → S) (e : K × E) : Except F ((K → S) × List (K × O)) := do
  let (s', os) ← step (s e.1) e.2
  return (Function.update s e.1 s', os.map fun o ↦ (e.1, o))

/-- A run of the family. -/
def runKeyed : (K → S) → List (K × E) → Except F ((K → S) × List (K × O))
  | s, [] => .ok (s, [])
  | s, e :: es => do
    let (s, os) ← stepKeyed step s e
    let (s, os') ← runKeyed s es
    return (s, os ++ os')

/-- What a list of tagged things has for a key. -/
def proj {X : Type} (k : K) (l : List (K × X)) : List X :=
  (l.filter fun p ↦ p.1 = k).map Prod.snd

@[simp] theorem proj_nil {X : Type} (k : K) : proj k ([] : List (K × X)) = [] := rfl

theorem proj_append {X : Type} (k : K) (l m : List (K × X)) :
    proj k (l ++ m) = proj k l ++ proj k m := by
  rw [proj, List.filter_append, List.map_append]
  rfl

theorem proj_cons_self {X : Type} (k : K) (x : X) (l : List (K × X)) :
    proj k ((k, x) :: l) = x :: proj k l := by
  simp [proj]

theorem proj_cons_of_ne {X : Type} {k k' : K} (h : k' ≠ k) (x : X) (l : List (K × X)) :
    proj k ((k', x) :: l) = proj k l := by
  simp [proj, h]

theorem proj_map_self {X : Type} (k : K) (l : List X) : proj k (l.map fun x ↦ (k, x)) = l := by
  induction l with
  | nil => rfl
  | cons x l ih => rw [List.map_cons, proj_cons_self, ih]

theorem proj_map_of_ne {X : Type} {k k' : K} (h : k' ≠ k) (l : List X) :
    proj k (l.map fun x ↦ (k', x)) = [] := by
  induction l with
  | nil => rfl
  | cons x l ih => rw [List.map_cons, proj_cons_of_ne h, ih]

variable {step}

theorem run_cons {s : S} {e : E} {es : List E} {r : S × List O} :
    run step s (e :: es) = .ok r ↔
      ∃ s' os, step s e = .ok (s', os) ∧ ∃ os', run step s' es = .ok (r.1, os') ∧
        r.2 = os ++ os' := by
  obtain ⟨t, ps⟩ := r
  rw [run]
  rcases step s e with f | ⟨s', os⟩
  · simp [bind, Except.bind]
  · rcases hrun : run step s' es with f | ⟨s'', os'⟩
    · simp [bind, Except.bind, hrun]
    · simp [bind, Except.bind, pure, Except.pure, hrun, eq_comm]

theorem runKeyed_cons {s : K → S} {e : K × E} {es : List (K × E)} {r : (K → S) × List (K × O)} :
    runKeyed step s (e :: es) = .ok r ↔
      ∃ s' os, step (s e.1) e.2 = .ok (s', os) ∧ ∃ os',
        runKeyed step (Function.update s e.1 s') es = .ok (r.1, os') ∧
          r.2 = os.map (fun o ↦ (e.1, o)) ++ os' := by
  obtain ⟨t, ps⟩ := r
  rw [runKeyed, stepKeyed]
  rcases step (s e.1) e.2 with f | ⟨s', os⟩
  · simp [bind, Except.bind]
  · rcases hrun : runKeyed step (Function.update s e.1 s') es with f | ⟨s'', os'⟩
    · simp [bind, Except.bind, pure, Except.pure, hrun]
    · simp [bind, Except.bind, pure, Except.pure, hrun, eq_comm]

/-- **A keyed run projects to a run of every copy.** -/
theorem run_of_runKeyed {s s' : K → S} {es : List (K × E)} {os : List (K × O)}
    (h : runKeyed step s es = .ok (s', os)) (k : K) :
    run step (s k) (proj k es) = .ok (s' k, proj k os) := by
  induction es generalizing s os with
  | nil =>
    obtain ⟨rfl, rfl⟩ := Prod.mk.inj (Except.ok.inj h)
    rfl
  | cons e es ih =>
    obtain ⟨j, x⟩ := e
    obtain ⟨t, ps, hstep, os', hrun, rfl⟩ := runKeyed_cons.1 h
    have htail := ih hrun
    rw [proj_append]
    rcases eq_or_ne j k with rfl | hjk
    · rw [Function.update_self] at htail
      rw [proj_cons_self, proj_map_self, run_cons]
      exact ⟨t, ps, hstep, _, htail, rfl⟩
    · rw [Function.update_of_ne hjk.symm] at htail
      rw [proj_cons_of_ne hjk, proj_map_of_ne hjk]
      exact htail

/-- **A keyed run returns when every copy's run does.** -/
theorem exists_runKeyed {s : K → S} {es : List (K × E)}
    (h : ∀ k, ∃ r, run step (s k) (proj k es) = .ok r) : ∃ r, runKeyed step s es = .ok r := by
  induction es generalizing s with
  | nil => exact ⟨_, rfl⟩
  | cons e es ih =>
    obtain ⟨j, x⟩ := e
    obtain ⟨r, hr⟩ := h j
    rw [proj_cons_self] at hr
    obtain ⟨t, ps, hstep, os', hrun, -⟩ := run_cons.1 hr
    have htail : ∀ k, ∃ r, run step (Function.update s j t k) (proj k es) = .ok r := by
      intro k
      rcases eq_or_ne k j with rfl | hkj
      · exact ⟨_, by rw [Function.update_self]; exact hrun⟩
      · obtain ⟨r', hr'⟩ := h k
        rw [proj_cons_of_ne hkj.symm] at hr'
        exact ⟨r', by rw [Function.update_of_ne hkj]; exact hr'⟩
    obtain ⟨⟨s', os''⟩, hkeyed⟩ := ih htail
    exact ⟨(s', _), runKeyed_cons.2 ⟨t, ps, hstep, os'', hkeyed, rfl⟩⟩

/-- One run after another. -/
theorem run_append {s t : S} {es es' : List E} {os : List O} (h : run step s es = .ok (t, os)) :
    run step s (es ++ es') = (run step t es').map fun r ↦ (r.1, os ++ r.2) := by
  induction es generalizing s os with
  | nil =>
    obtain ⟨rfl, rfl⟩ := Prod.mk.inj (Except.ok.inj h)
    rw [List.nil_append]
    cases run step s es' <;> rfl
  | cons e es ih =>
    obtain ⟨s', os', hstep, os'', hrun, hos⟩ := run_cons.1 h
    dsimp only at hos hrun
    rw [List.cons_append, run, hstep, hos]
    show (run step s' (es ++ es') >>= _) = _
    rw [ih hrun]
    rcases run step t es' with f | ⟨u, us⟩
    · rfl
    · show Except.ok (u, os' ++ (os'' ++ us)) = Except.ok (u, os' ++ os'' ++ us)
      rw [List.append_assoc]

/-- **Where every key has the images of some things**, a tagged list is the image of a tagged list
of these things. -/
theorem exists_of_proj_eq_map {X Y : Type} {f : X → Y} {os : List (K × Y)} {g : K → List X}
    (h : ∀ k, proj k os = (g k).map f) :
    ∃ xs : List (K × X), os = xs.map (fun x ↦ (x.1, f x.2)) ∧ ∀ k, proj k xs = g k := by
  induction os generalizing g with
  | nil =>
    refine ⟨[], rfl, fun k ↦ ?_⟩
    rw [proj_nil]
    exact (List.map_eq_nil_iff.1 (h k).symm).symm
  | cons o os ih =>
    obtain ⟨j, y⟩ := o
    have hj := h j
    rw [proj_cons_self] at hj
    obtain ⟨x, rest, hx, rfl, hrest⟩ := List.map_eq_cons_iff.1 hj.symm
    have hg : ∀ k, proj k os = (Function.update g j rest k).map f := by
      intro k
      rcases eq_or_ne k j with rfl | hk
      · rw [Function.update_self, hrest]
      · rw [Function.update_of_ne hk, ← h k, proj_cons_of_ne hk.symm]
    obtain ⟨xs, rfl, hxs⟩ := ih hg
    refine ⟨(j, x) :: xs, rfl, fun k ↦ ?_⟩
    rcases eq_or_ne k j with rfl | hk
    · rw [proj_cons_self, hxs, Function.update_self, hx]
    · rw [proj_cons_of_ne hk.symm, hxs, Function.update_of_ne hk]

/-- Events of one key run its copy and leave the others alone. -/
theorem runKeyed_map_tag {s : K → S} {k : K} {es : List E} {s' : S} {os : List O}
    (h : run step (s k) es = .ok (s', os)) :
    runKeyed step s (es.map fun e ↦ (k, e)) =
      .ok (Function.update s k s', os.map fun o ↦ (k, o)) := by
  induction es generalizing s os with
  | nil =>
    obtain ⟨rfl, rfl⟩ := Prod.mk.inj (Except.ok.inj h)
    rw [Function.update_eq_self]
    rfl
  | cons e es ih =>
    obtain ⟨t, ps, hstep, os', hrun, hos⟩ := run_cons.1 h
    dsimp only at hos hrun
    have htail := ih (s := Function.update s k t) (by rw [Function.update_self]; exact hrun)
    rw [Function.update_idem] at htail
    exact runKeyed_cons.2 ⟨t, ps, hstep, _, htail, by rw [hos, List.map_append]⟩

/-- The events of a key, as events of the family. -/
theorem filter_eq_map_proj {X : Type} (k : K) (l : List (K × X)) :
    (l.filter fun p ↦ p.1 = k) = (proj k l).map fun x ↦ (k, x) := by
  induction l with
  | nil => rfl
  | cons p l ih =>
    obtain ⟨j, x⟩ := p
    rcases eq_or_ne j k with rfl | hjk
    · rw [proj_cons_self, List.map_cons, ← ih]
      simp
    · rw [proj_cons_of_ne hjk, ← ih]
      simp [hjk]

end KeyedMachine
