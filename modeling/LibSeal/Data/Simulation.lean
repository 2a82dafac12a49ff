import LibSeal.Data.KeyedMachine
import Mathlib.Data.List.Forall2

/-!
# Machines that may fail, against machines that cannot

A **specification** is a machine whose steps cannot fail. A machine that may fail **follows** it
along a run if it returns, in a state that represents the one of the specification, and has yielded
what the specification yields, thing by thing.

Where a single step follows the specification exactly if the state before it meets a condition, a
run follows it up to every event exactly if all its steps meet the condition
(`forall_prefix_follows_iff`). The condition is asked of the states of the specification, so it can
be told from the events alone.
-/

namespace Simulation

open KeyedMachine

variable {S X E O Y F : Type}

/-- A run of the specification, with what it yields. -/
def specRun (spec : X → E → X × List Y) : X → List E → X × List Y
  | x, [] => (x, [])
  | x, e :: es =>
    ((specRun spec (spec x e).1 es).1, (spec x e).2 ++ (specRun spec (spec x e).1 es).2)

/-- All steps of a run meet a condition on the state before the step. -/
def AllSteps (spec : X → E → X × List Y) (ok : X → E → Prop) : X → List E → Prop
  | _, [] => True
  | x, e :: es => ok x e ∧ AllSteps spec ok (spec x e).1 es

instance (spec : X → E → X × List Y) (ok : X → E → Prop) [∀ x e, Decidable (ok x e)] :
    ∀ x es, Decidable (AllSteps spec ok x es)
  | _, [] => inferInstanceAs (Decidable True)
  | x, e :: es =>
    haveI := instDecidableAllSteps spec ok (spec x e).1 es
    inferInstanceAs (Decidable (_ ∧ _))

section

variable (step : S → E → Except F (S × List O)) (spec : X → E → X × List Y)
variable (R : S → X → Prop) (Q : O → Y → Prop)

/-- The machine returns as the specification does. -/
def Follows (s : S) (x : X) (es : List E) : Prop :=
  ∃ s' os, run step s es = .ok (s', os) ∧ R s' (specRun spec x es).1 ∧
    List.Forall₂ Q os (specRun spec x es).2

end

variable {step : S → E → Except F (S × List O)} {spec : X → E → X × List Y}
variable {R : S → X → Prop} {Q : O → Y → Prop} {ok : X → E → Prop}

theorem follows_singleton {s : S} {x : X} {e : E} :
    Follows step spec R Q s x [e] ↔
      ∃ s' os, step s e = .ok (s', os) ∧ R s' (spec x e).1 ∧ List.Forall₂ Q os (spec x e).2 := by
  have hspec : specRun spec x [e] = spec x e := by
    rw [specRun, specRun, List.append_nil]
  rw [Follows, hspec]
  constructor
  · rintro ⟨s', os, hrun, hR, hQ⟩
    obtain ⟨t, ps, hstep, qs, hnil, rfl⟩ := run_cons.1 hrun
    obtain ⟨rfl, rfl⟩ := Prod.mk.inj (Except.ok.inj hnil)
    rw [List.append_nil] at hQ
    exact ⟨_, ps, hstep, hR, hQ⟩
  · rintro ⟨s', os, hstep, hR, hQ⟩
    exact ⟨s', os, run_cons.2 ⟨s', os, hstep, [], rfl, (List.append_nil os).symm⟩, hR, hQ⟩

/-- Behind a step that has yielded the right things, the rest of the run decides. -/
theorem follows_cons {s s' : S} {x : X} {e : E} {os : List O} {es : List E}
    (hstep : step s e = .ok (s', os)) (hos : List.Forall₂ Q os (spec x e).2) :
    Follows step spec R Q s x (e :: es) ↔ Follows step spec R Q s' (spec x e).1 es := by
  constructor
  · rintro ⟨t, qs, hrun, hR, hQ⟩
    obtain ⟨s₁, os₁, hstep₁, ps, hrest, rfl⟩ := run_cons.1 hrun
    rw [hstep] at hstep₁
    obtain ⟨rfl, rfl⟩ := Prod.mk.inj (Except.ok.inj hstep₁)
    have hdrop := List.forall₂_drop_append _ _ _ hQ
    rw [← hos.length_eq, List.drop_left] at hdrop
    exact ⟨t, ps, hrest, hR, hdrop⟩
  · rintro ⟨t, ps, hrest, hR, hQ⟩
    exact ⟨t, os ++ ps, run_cons.2 ⟨s', os, hstep, ps, hrest, rfl⟩, hR, List.rel_append hos hQ⟩

/-- **A run follows the specification up to every event exactly if all its steps meet the
condition**, if this is so for a single step. -/
theorem forall_prefix_follows_iff
    (hstep : ∀ s x e, R s x → (Follows step spec R Q s x [e] ↔ ok x e)) {s : S} {x : X}
    (hR : R s x) {es : List E} :
    (∀ es', es' <+: es → Follows step spec R Q s x es') ↔ AllSteps spec ok x es := by
  induction es generalizing s x with
  | nil =>
    refine iff_of_true (fun es' hes' ↦ ?_) trivial
    rw [List.prefix_nil.1 hes']
    exact ⟨s, [], rfl, hR, .nil⟩
  | cons e es ih =>
    rw [AllSteps, ← hstep s x e hR]
    constructor
    · intro h
      have hfirst := h [e] (List.prefix_append [e] es)
      obtain ⟨s', os, hstep', hR', hos⟩ := follows_singleton.1 hfirst
      refine ⟨hfirst, (ih hR').1 fun es' hes' ↦ ?_⟩
      exact (follows_cons hstep' hos).1 (h (e :: es') (List.prefix_cons_inj e |>.2 hes'))
    · rintro ⟨hfirst, hrest⟩ es' hes'
      obtain ⟨s', os, hstep', hR', hos⟩ := follows_singleton.1 hfirst
      obtain rfl | ⟨es'', rfl, hes''⟩ := List.prefix_cons_iff.1 hes'
      · exact ⟨s, [], rfl, hR, .nil⟩
      · exact (follows_cons hstep' hos).2 ((ih hR').2 hrest es'' hes'')

end Simulation
