import Mathlib.Algebra.BigOperators.Group.Finset.Piecewise
import Mathlib.Algebra.Order.BigOperators.Group.Finset
import Mathlib.Data.Fintype.BigOperators

/-!
# Interleaved threads

Threads that share a state. What a thread has still to do is a list of **atomic instructions**; a
step takes the first instruction of some thread and executes it, and the instructions that it yields
come next in that thread. A thread with nothing left to do may start another call. Nothing is said
about which thread goes first, so that a statement about all reachable configurations (`Reaches`) is
one about all interleavings.

A run may be restricted to steps that meet a condition, which is asked of the configuration before
the step.

## Reasoning

* `Reaches.invariant` is the induction rule for a property of configurations.
* `Reaches.forall_code` is the rule for a property of what one thread has to do, whatever the shared
  state: it need not look at the other threads.
* Counting over all threads goes by `Config.total` and its change in one step, `total_resume`; what
  all threads have to do taken together is `Config.gather`.
* `ReachesBy` remembers the calls that have been started.
-/

namespace Interleaving

variable {T σ ι : Type*}

/-- The shared state, and what each thread has still to do. -/
structure Config (T σ ι : Type*) where
  shared : σ
  code : T → List ι

/-- What the instructions do, and what the calls are. -/
structure System (σ ι : Type*) where
  exec : ι → σ → σ × List ι
  IsCall : List ι → Prop

namespace Config

/-- No call is in progress. -/
def init (s : σ) : Config T σ ι := ⟨s, fun _ ↦ []⟩

/-- The sum over all threads of a measure of what they have to do. -/
def total [Fintype T] (f : List ι → ℕ) (c : Config T σ ι) : ℕ := ∑ t, f (c.code t)

theorem total_init [Fintype T] {f : List ι → ℕ} (hf : f [] = 0) (s : σ) :
    (init s : Config T σ ι).total f = 0 :=
  Finset.sum_eq_zero fun _ _ ↦ hf

theorem total_le_total [Fintype T] {f g : List ι → ℕ} {c : Config T σ ι}
    (h : ∀ t, f (c.code t) ≤ g (c.code t)) : c.total f ≤ c.total g :=
  Finset.sum_le_sum fun t _ ↦ h t

theorem total_lt_total [Fintype T] {f g : List ι → ℕ} {c : Config T σ ι}
    (h : ∀ t, f (c.code t) ≤ g (c.code t)) {t : T} (ht : f (c.code t) < g (c.code t)) :
    c.total f < c.total g :=
  Finset.sum_lt_sum (fun t _ ↦ h t) ⟨t, Finset.mem_univ t, ht⟩

theorem total_le_card [Fintype T] {f : List ι → ℕ} {c : Config T σ ι}
    (h : ∀ t, f (c.code t) ≤ 1) : c.total f ≤ Fintype.card T :=
  (total_le_total (g := fun _ ↦ 1) h).trans_eq (by simp [total])

/-- What all threads have still to do, taken together. -/
def gather [Fintype T] {α : Type*} (f : List ι → Multiset α) (c : Config T σ ι) : Multiset α :=
  ∑ t, f (c.code t)

theorem gather_of_idle [Fintype T] {α : Type*} {f : List ι → Multiset α} (hf : f [] = 0)
    {c : Config T σ ι} (h : ∀ t, c.code t = []) : c.gather f = 0 :=
  Finset.sum_eq_zero fun t _ ↦ by rw [h t, hf]

theorem gather_congr [Fintype T] {α : Type*} {f g : List ι → Multiset α} {c : Config T σ ι}
    (h : ∀ t, f (c.code t) = g (c.code t)) : c.gather f = c.gather g :=
  Finset.sum_congr rfl fun t _ ↦ h t

variable [DecidableEq T]

/-- Thread `t` has left the shared state as `s` and goes on with `l`. -/
def resume (c : Config T σ ι) (t : T) (s : σ) (l : List ι) : Config T σ ι :=
  ⟨s, Function.update c.code t l⟩

@[simp] theorem shared_resume (c : Config T σ ι) (t : T) (s : σ) (l : List ι) :
    (c.resume t s l).shared = s := rfl

@[simp] theorem code_resume_self (c : Config T σ ι) (t : T) (s : σ) (l : List ι) :
    (c.resume t s l).code t = l := Function.update_self ..

theorem code_resume_of_ne (c : Config T σ ι) {t u : T} (h : u ≠ t) (s : σ) (l : List ι) :
    (c.resume t s l).code u = c.code u := Function.update_of_ne h ..

/-- What holds of every thread after one has been resumed: it holds of what that thread goes on
with, and held of the others. -/
theorem forall_code_resume {p : List ι → Prop} {c : Config T σ ι} {t : T} {s : σ} {l : List ι} :
    (∀ u, p ((c.resume t s l).code u)) ↔ p l ∧ ∀ u ≠ t, p (c.code u) := by
  constructor
  · intro h
    refine ⟨code_resume_self c t s l ▸ h t, fun u hu ↦ ?_⟩
    rw [← code_resume_of_ne c hu s l]
    exact h u
  · rintro ⟨hself, hothers⟩ u
    rcases eq_or_ne u t with rfl | hu
    · rwa [code_resume_self]
    · rw [code_resume_of_ne c hu]
      exact hothers u hu

theorem comp_code_resume {α : Type*} (f : List ι → α) (c : Config T σ ι) (t : T) (s : σ)
    (l : List ι) : (fun u ↦ f ((c.resume t s l).code u)) =
      Function.update (fun u ↦ f (c.code u)) t (f l) := by
  funext u
  rcases eq_or_ne u t with rfl | hu
  · rw [code_resume_self, Function.update_self]
  · rw [code_resume_of_ne c hu, Function.update_of_ne hu]

/-- **A step changes a sum in one place.** -/
theorem total_resume [Fintype T] (f : List ι → ℕ) (c : Config T σ ι) (t : T) (s : σ)
    (l : List ι) : (c.resume t s l).total f + f (c.code t) = c.total f + f l := by
  rw [total, comp_code_resume f, Finset.sum_update_of_mem (Finset.mem_univ t), total,
    Finset.sum_eq_add_sum_sdiff_singleton_of_mem (Finset.mem_univ t) fun u ↦ f (c.code u)]
  omega

/-- The same for a measure that adds up over the instructions, in a step. -/
theorem total_step [Fintype T] {f : List ι → ℕ} (hf : ∀ l l', f (l ++ l') = f l + f l')
    {c : Config T σ ι} {t : T} {i : ι} {rest : List ι} (hcode : c.code t = i :: rest) (s : σ)
    (l : List ι) : (c.resume t s (l ++ rest)).total f + f [i] = c.total f + f l := by
  have hresume := c.total_resume f t s (l ++ rest)
  have hcons : f (i :: rest) = f [i] + f rest := hf [i] rest
  rw [hcode, hcons, hf] at hresume
  omega

/-- A step changes it in one place. -/
theorem gather_resume [Fintype T] {α : Type*} (f : List ι → Multiset α) (c : Config T σ ι) (t : T)
    (s : σ) (l : List ι) :
    (c.resume t s l).gather f + f (c.code t) = c.gather f + f l := by
  rw [gather, comp_code_resume f, Finset.sum_update_of_mem (Finset.mem_univ t), gather,
    Finset.sum_eq_add_sum_sdiff_singleton_of_mem (Finset.mem_univ t) fun u ↦ f (c.code u)]
  ac_rfl

/-- The same for what adds up over the instructions, in a step. -/
theorem gather_step [Fintype T] {α : Type*} {f : List ι → Multiset α}
    (hf : ∀ l l', f (l ++ l') = f l + f l') {c : Config T σ ι} {t : T} {i : ι} {rest : List ι}
    (hcode : c.code t = i :: rest) (s : σ) (l : List ι) :
    (c.resume t s (l ++ rest)).gather f + f [i] = c.gather f + f l := by
  have hresume := c.gather_resume f t s (l ++ rest)
  have hcons : f (i :: rest) = f [i] + f rest := hf [i] rest
  rw [hcode, hcons, hf, ← add_assoc, ← add_assoc] at hresume
  exact add_right_cancel hresume

end Config

variable [DecidableEq T]

/-- The configurations reached from a shared state, with no call in progress, by steps that meet the
condition. -/
inductive Reaches (M : System σ ι) (ok : Config T σ ι → T → ι → Prop) (s₀ : σ) :
    Config T σ ι → Prop where
  | init : Reaches M ok s₀ (.init s₀)
  | call {c : Config T σ ι} (t : T) (l : List ι) (h : Reaches M ok s₀ c) (hidle : c.code t = [])
      (hl : M.IsCall l) : Reaches M ok s₀ (c.resume t c.shared l)
  | step {c : Config T σ ι} (t : T) (i : ι) (rest : List ι) (h : Reaches M ok s₀ c)
      (hcode : c.code t = i :: rest) (hok : ok c t i) :
      Reaches M ok s₀ (c.resume t (M.exec i c.shared).1 ((M.exec i c.shared).2 ++ rest))

namespace Reaches

variable {M : System σ ι} {ok : Config T σ ι → T → ι → Prop} {s₀ : σ} {c : Config T σ ι}

/-- **The invariant rule.** -/
theorem invariant {I : Config T σ ι → Prop} (h : Reaches M ok s₀ c) (hinit : I (.init s₀))
    (hcall : ∀ c t l, I c → c.code t = [] → M.IsCall l → I (c.resume t c.shared l))
    (hstep : ∀ c t i rest, I c → c.code t = i :: rest → ok c t i →
      I (c.resume t (M.exec i c.shared).1 ((M.exec i c.shared).2 ++ rest))) : I c := by
  induction h with
  | init => exact hinit
  | call t l _ hidle hl ih => exact hcall _ t l ih hidle hl
  | step t i rest _ hcode hok ih => exact hstep _ t i rest ih hcode hok

/-- **What one thread has to do** can be followed without the others. -/
theorem forall_code {p : List ι → Prop} (h : Reaches M ok s₀ c) (hnil : p [])
    (hcall : ∀ l, M.IsCall l → p l)
    (hexec : ∀ i rest s, p (i :: rest) → p ((M.exec i s).2 ++ rest)) (t : T) : p (c.code t) := by
  refine h.invariant (I := fun c ↦ ∀ u, p (c.code u)) (fun _ ↦ hnil) ?_ ?_ t
  · intro c t l hc _ hl
    exact Config.forall_code_resume.2 ⟨hcall l hl, fun u _ ↦ hc u⟩
  · intro c t i rest hc hcode _
    exact Config.forall_code_resume.2 ⟨hexec i rest c.shared (hcode ▸ hc t), fun u _ ↦ hc u⟩

/-- A run whose steps meet a condition meets a weaker one. -/
theorem mono {ok' : Config T σ ι → T → ι → Prop} (hok : ∀ c t i, ok c t i → ok' c t i)
    (h : Reaches M ok s₀ c) : Reaches M ok' s₀ c := by
  induction h with
  | init => exact init
  | call t l _ hidle hl ih => exact call t l ih hidle hl
  | step t i rest _ hcode h ih => exact step t i rest ih hcode (hok _ _ _ h)

end Reaches

/-- The configurations reached, with the calls that have been started. -/
inductive ReachesBy (M : System σ ι) (ok : Config T σ ι → T → ι → Prop) (s₀ : σ) :
    List (List ι) → Config T σ ι → Prop where
  | init : ReachesBy M ok s₀ [] (.init s₀)
  | call {calls : List (List ι)} {c : Config T σ ι} (t : T) (l : List ι)
      (h : ReachesBy M ok s₀ calls c) (hidle : c.code t = []) (hl : M.IsCall l) :
      ReachesBy M ok s₀ (calls ++ [l]) (c.resume t c.shared l)
  | step {calls : List (List ι)} {c : Config T σ ι} (t : T) (i : ι) (rest : List ι)
      (h : ReachesBy M ok s₀ calls c) (hcode : c.code t = i :: rest) (hok : ok c t i) :
      ReachesBy M ok s₀ calls (c.resume t (M.exec i c.shared).1 ((M.exec i c.shared).2 ++ rest))

/-- **The invariant rule**, with the calls. -/
theorem ReachesBy.invariant {M : System σ ι} {ok : Config T σ ι → T → ι → Prop} {s₀ : σ}
    {calls : List (List ι)} {c : Config T σ ι} {I : List (List ι) → Config T σ ι → Prop}
    (h : ReachesBy M ok s₀ calls c) (hinit : I [] (.init s₀))
    (hcall : ∀ calls c t l, I calls c → c.code t = [] → M.IsCall l →
      I (calls ++ [l]) (c.resume t c.shared l))
    (hstep : ∀ calls c t i rest, I calls c → c.code t = i :: rest → ok c t i →
      I calls (c.resume t (M.exec i c.shared).1 ((M.exec i c.shared).2 ++ rest))) : I calls c := by
  induction h with
  | init => exact hinit
  | call t l _ hidle hl ih => exact hcall _ _ t l ih hidle hl
  | step t i rest _ hcode hok ih => exact hstep _ _ t i rest ih hcode hok

/-! ### Schedules -/

/-- A turn of a schedule: a thread starts a call, or takes its next step. -/
inductive Turn (T ι : Type*) where
  | call (t : T) (l : List ι)
  | step (t : T)

/-- The effect of a turn; a thread that is busy starts no call, and one that is idle takes no
step. -/
def Config.turn (M : System σ ι) (c : Config T σ ι) : Turn T ι → Config T σ ι
  | .call t l => if (c.code t).isEmpty then c.resume t c.shared l else c
  | .step t =>
    match c.code t with
    | [] => c
    | i :: rest => c.resume t (M.exec i c.shared).1 ((M.exec i c.shared).2 ++ rest)

/-- Where a schedule leads. -/
def Config.run (M : System σ ι) (c : Config T σ ι) (turns : List (Turn T ι)) : Config T σ ι :=
  turns.foldl (Config.turn M) c

/-- **A schedule is a run.** -/
theorem Reaches.run {M : System σ ι} {s₀ : σ} {c : Config T σ ι}
    (h : Reaches M (fun _ _ _ ↦ True) s₀ c) {turns : List (Turn T ι)}
    (hcalls : ∀ t l, .call t l ∈ turns → M.IsCall l) :
    Reaches M (fun _ _ _ ↦ True) s₀ (c.run M turns) := by
  induction turns generalizing c with
  | nil => exact h
  | cons turn turns ih =>
    have hturn : Reaches M (fun _ _ _ ↦ True) s₀ (c.turn M turn) := by
      cases turn with
      | call t l =>
        rw [Config.turn]
        split_ifs with hidle
        · exact h.call t l (List.isEmpty_iff.1 hidle) (hcalls t l List.mem_cons_self)
        · exact h
      | step t =>
        rw [Config.turn]
        split
        · exact h
        · exact h.step t _ _ ‹_› trivial
    exact ih hturn fun t l hmem ↦ hcalls t l (List.mem_cons_of_mem _ hmem)

/-! ### A thread that is alone -/

theorem Config.turn_call_alone (M : System σ ι) (s : σ) (l : List ι) :
    Config.turn M (⟨s, fun _ ↦ []⟩ : Config Unit σ ι) (.call () l) = ⟨s, fun _ ↦ l⟩ := rfl

theorem Config.turn_step_alone (M : System σ ι) (s : σ) (i : ι) (rest : List ι) :
    Config.turn M (⟨s, fun _ ↦ i :: rest⟩ : Config Unit σ ι) (.step ()) =
      ⟨(M.exec i s).1, fun _ ↦ (M.exec i s).2 ++ rest⟩ := rfl

end Interleaving
