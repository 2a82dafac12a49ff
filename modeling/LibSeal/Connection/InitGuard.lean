import LibSeal.Connection.Log
import LibSeal.Data.Interleaving

/-!
# The initialisation guard

Outside the enclave `add_entry_to_list` initialises the log on its first call. The variable
`initialized` counts the calls by a fetch-and-add, and is at the same time the flag: the call that
has read 0 runs `logpoint_init` and stores -1, and every other call waits until it reads -1. The
flag does not survive the next call, which counts it up to 0 and then waits for a -1 that only yet
another call can store.

So the guard works as long as no call counts itself behind the store (`letsThrough_of_reaches`), and
the first call that does is let through by no step of its own (`not_letsThrough_of_fetchAdd`). One
more limit is that of the `int`: the count itself reaches -1 with the call of number `2 ^ 32 - 1`.

The threads take the atomic steps of the guard in any order. `logpoint_init`, which has a flag of
its own, takes two.
-/

namespace LibSeal

open Bytes Interleaving

/-- The atomic steps of `add_entry_to_list`. -/
inductive GuardStep where
  /-- `int init = __atomic_fetch_add(&initialized, 1, ..)` -/
  | fetchAdd
  /-- `logpoint_init` up to its flag: `if (initialised) return; initialised = 1;` -/
  | logpointInit
  /-- The rest of `logpoint_init`. -/
  | openDatabase
  /-- `initialized = -1` -/
  | store
  /-- A round of `while (__atomic_load_n(&initialized, ..) != -1)` -/
  | load
  /-- `logpoint_log`, behind the guard -/
  | logpointLog
  deriving DecidableEq

/-- What the threads share: the two variables, and what has happened so far, which no step looks
at. -/
structure GuardState where
  initialized : ℤ
  /-- The flag of `logpoint_init`. -/
  initialised : Bool
  /-- A `logpoint_init` has completed. -/
  completed : Bool
  /-- -1 has been stored. -/
  opened : Bool
  /-- How many calls have counted themselves. -/
  adds : ℕ
  deriving DecidableEq

/-- The state before the first call. -/
def GuardState.init : GuardState := ⟨0, false, false, false, 0⟩

/-- The effect of a step, and what comes next in its thread. -/
def GuardStep.exec (s : GuardState) : GuardStep → GuardState × List GuardStep
  | fetchAdd =>
    ({ s with initialized := toInt32 (s.initialized + 1), adds := s.adds + 1 },
      if s.initialized = 0 then [logpointInit, store] else [load])
  | logpointInit =>
    if s.initialised then (s, []) else ({ s with initialised := true }, [openDatabase])
  | openDatabase => ({ s with completed := true }, [])
  | store => ({ s with initialized := -1, opened := true }, [])
  | load => (s, if s.initialized = -1 then [] else [load])
  | logpointLog => (s, [])

/-- `add_entry_to_list`, from the guard on. -/
def addEntryCode : List GuardStep := [.fetchAdd, .logpointLog]

/-- Threads that call `add_entry_to_list`, from the initial values of the static variables.
`tls_processing_module_init`, which registers the callbacks and then calls `logpoint_init` itself,
is left out: what it would change is that `initialised` is set already. -/
def guardSystem : System GuardState GuardStep where
  exec i s := i.exec s
  IsCall l := l = addEntryCode

variable {T : Type} [DecidableEq T]

/-- A thread gets through the guard by steps of its own. -/
def PassesAlone (c : Config T GuardState GuardStep) (t : T) : Prop :=
  ∃ n, (c.run guardSystem (List.replicate n (.step t))).code t = [.logpointLog]

/-- **The guard lets every caller through**, and none too early. A call that has not counted itself
has not come to the guard yet. -/
structure LetsThrough (c : Config T GuardState GuardStep) : Prop where
  completed : ∀ t, c.code t = [.logpointLog] → c.shared.completed = true
  /-- Once `logpoint_init` has completed, a call is about to store -1 or it has been stored, -/
  opens : c.shared.completed = true → c.shared.opened = true ∨
    ∃ t, c.code t = [.store, .logpointLog]
  /-- and then every call gets through without another. -/
  passes : c.shared.opened = true → ∀ t, c.code t ≠ [] → c.code t ≠ addEntryCode → PassesAlone c t

/-- **No call counts itself behind the store**, and none brings the count to -1 before
`logpoint_init` has completed. -/
def CountsInTime (c : Config T GuardState GuardStep) (_ : T) (i : GuardStep) : Prop :=
  i = .fetchAdd → c.shared.opened = false ∧
    (c.shared.initialized = -2 → c.shared.completed = true)

/-! ### What a call has still to do -/

/-- The places of a call. -/
def guardCodes : List (List GuardStep) :=
  [[], addEntryCode, [.logpointInit, .store, .logpointLog], [.openDatabase, .store, .logpointLog],
    [.store, .logpointLog], [.load, .logpointLog], [.logpointLog]]

theorem code_mem_guardCodes {ok : Config T GuardState GuardStep → T → GuardStep → Prop}
    {s₀ : GuardState} {c : Config T GuardState GuardStep}
    (h : Interleaving.Reaches guardSystem ok s₀ c) (t : T) : c.code t ∈ guardCodes := by
  refine h.forall_code (p := fun l ↦ l ∈ guardCodes) (by decide) ?_ ?_ t
  · intro l hl
    rw [show l = addEntryCode from hl]
    decide
  · intro i rest s hmem
    show (i.exec s).2 ++ rest ∈ guardCodes
    simp only [guardCodes, addEntryCode, List.mem_cons, List.cons.injEq, reduceCtorEq,
      List.not_mem_nil, or_false, false_or] at hmem
    obtain ⟨rfl, rfl⟩ | ⟨rfl, rfl⟩ | ⟨rfl, rfl⟩ | ⟨rfl, rfl⟩ | ⟨rfl, rfl⟩ | ⟨rfl, rfl⟩ := hmem
    all_goals simp only [GuardStep.exec]
    · split_ifs <;> simp [guardCodes]
    · split_ifs <;> simp [guardCodes]
    · simp [guardCodes]
    · simp [guardCodes]
    · split_ifs <;> simp [guardCodes]
    · simp [guardCodes]

/-! ### The invariant -/

/-- A thread is in `logpoint_init`. -/
def Initialises (l : List GuardStep) : Prop :=
  l = [.logpointInit, .store, .logpointLog] ∨ l = [.openDatabase, .store, .logpointLog]

/-- What the place of a thread says of the state. -/
structure PlaceOk (s : GuardState) (l : List GuardStep) : Prop where
  past : l = [.store, .logpointLog] ∨ l = [.logpointLog] → s.completed = true
  initialises : Initialises l → 0 < s.adds
  initialised : l = [.logpointInit, .store, .logpointLog] → s.completed = true ∨
    s.initialised = false

/-- What holds while calls count themselves in time. -/
structure GuardInvariant (c : Config T GuardState GuardStep) : Prop where
  opened : c.shared.opened = true → c.shared.initialized = -1 ∧ c.shared.completed = true
  /-- Before `logpoint_init` has completed, `initialized` is the number of the calls. -/
  counted : c.shared.completed = false →
    c.shared.initialized = toInt32 c.shared.adds ∧ c.shared.adds + 1 < 4294967296
  initialised : c.shared.initialised = true → 0 < c.shared.adds
  place : ∀ t, PlaceOk c.shared (c.code t)
  single : c.shared.completed = false →
    ∀ t u, Initialises (c.code t) → Initialises (c.code u) → t = u
  opens : c.shared.completed = true → c.shared.opened = true ∨
    ∃ t, c.code t = [.store, .logpointLog]

theorem PlaceOk.nil (s : GuardState) : PlaceOk s [] where
  past h := by simp at h
  initialises h := by simp [Initialises] at h
  initialised h := nomatch h

theorem PlaceOk.addEntryCode (s : GuardState) : PlaceOk s addEntryCode where
  past h := by simp [LibSeal.addEntryCode] at h
  initialises h := by simp [Initialises, LibSeal.addEntryCode] at h
  initialised h := by simp [LibSeal.addEntryCode] at h

/-- A place says the same of a later state, unless the flag of `logpoint_init` has been set
since. -/
theorem PlaceOk.mono {s s' : GuardState} {l : List GuardStep} (h : PlaceOk s l)
    (hcompleted : s.completed = true → s'.completed = true) (hadds : s.adds ≤ s'.adds)
    (hinit : l = [.logpointInit, .store, .logpointLog] → s'.completed = true ∨
      s'.initialised = s.initialised) : PlaceOk s' l where
  past hl := hcompleted (h.past hl)
  initialises hl := (h.initialises hl).trans_le hadds
  initialised hl := by
    rcases hinit hl with hdone | heq
    · exact Or.inl hdone
    · exact (h.initialised hl).imp hcompleted fun hflag ↦ heq.trans hflag

omit [DecidableEq T] in
theorem GuardInvariant.init : GuardInvariant (.init .init : Config T GuardState GuardStep) where
  opened h := nomatch h
  counted _ := by
    show (0 : ℤ) = toInt32 0 ∧ 0 + 1 < 4294967296
    exact ⟨(toInt32_eq_self le_rfl (by omega)).symm, by omega⟩
  initialised h := nomatch h
  place _ := PlaceOk.nil _
  single _ _ _ h := by simp [Config.init, Initialises] at h
  opens h := nomatch h

namespace GuardInvariant

variable {c : Config T GuardState GuardStep}

/-- What a step has to be asked for the invariant: of the state it leaves, and of the place of its
own thread. -/
theorem resume (h : GuardInvariant c) {t : T} {s : GuardState} {l : List GuardStep}
    (hcompleted : c.shared.completed = true → s.completed = true)
    (hadds : c.shared.adds ≤ s.adds)
    (hflag : s.completed = true ∨ s.initialised = c.shared.initialised ∨ Initialises (c.code t))
    (hopened : s.opened = true → s.initialized = -1 ∧ s.completed = true)
    (hcounted : s.completed = false →
      s.initialized = toInt32 s.adds ∧ s.adds + 1 < 4294967296)
    (hinitialised : s.initialised = true → 0 < s.adds) (hplace : PlaceOk s l)
    (hsingle : s.completed = false → Initialises l → Initialises (c.code t) ∨ c.shared.adds = 0)
    (hopens : s.completed = true → s.opened = true ∨ l = [.store, .logpointLog] ∨
      c.shared.completed = true ∧ c.shared.opened = false ∧
        c.code t ≠ [.store, .logpointLog]) : GuardInvariant (c.resume t s l) where
  opened := hopened
  counted := hcounted
  initialised := hinitialised
  place := by
    refine Config.forall_code_resume.2 ⟨hplace, fun u hu ↦ (h.place u).mono hcompleted hadds ?_⟩
    intro hcode
    rcases hflag with hdone | heq | hinit
    · exact Or.inl hdone
    · exact Or.inr heq
    · -- two threads in `logpoint_init`
      rcases hdone : c.shared.completed with - | -
      · exact absurd (h.single hdone u t (Or.inl hcode) hinit) hu
      · exact Or.inl (hcompleted hdone)
  single := by
    intro hdone
    have hbefore : c.shared.completed = false := by
      rcases hc : c.shared.completed with - | -
      · rfl
      · exact absurd (hcompleted hc) (Bool.eq_false_iff.1 hdone)
    -- the thread that has taken the step enters `logpoint_init` only as the first
    have hothers : Initialises l → ∀ u ≠ t, ¬ Initialises (c.code u) := by
      intro hl u hu hinit
      rcases hsingle hdone hl with ht | hzero
      · exact hu (h.single hbefore u t hinit ht)
      · exact absurd ((h.place u).initialises hinit) (by omega)
    intro u v hu hv
    rcases eq_or_ne u t with rfl | hut <;> rcases eq_or_ne v u with rfl | hvu
    · rfl
    · rw [Config.code_resume_self] at hu
      rw [Config.code_resume_of_ne c hvu] at hv
      exact absurd hv (hothers hu v hvu)
    · rfl
    · rw [Config.code_resume_of_ne c hut] at hu
      rcases eq_or_ne v t with rfl | hvt
      · rw [Config.code_resume_self] at hv
        exact absurd hu (hothers hv u hut)
      · rw [Config.code_resume_of_ne c hvt] at hv
        exact h.single hbefore u v hu hv
  opens := by
    intro hdone
    rcases hopens hdone with hopen | rfl | ⟨hbefore, hclosed, hne⟩
    · exact Or.inl hopen
    · exact Or.inr ⟨t, Config.code_resume_self ..⟩
    · rcases h.opens hbefore with hopen | ⟨u, hu⟩
      · rw [hclosed] at hopen
        exact nomatch hopen
      · refine Or.inr ⟨u, ?_⟩
        have hut : u ≠ t := by
          rintro rfl
          exact hne hu
        rw [Config.code_resume_of_ne c hut]
        exact hu

/-- A call begins. -/
theorem call (h : GuardInvariant c) {t : T} (hidle : c.code t = []) :
    GuardInvariant (c.resume t c.shared addEntryCode) := by
  have hne : ¬ Initialises addEntryCode := by simp [Initialises, addEntryCode]
  refine h.resume id le_rfl (Or.inr (Or.inl rfl)) h.opened h.counted h.initialised
    (PlaceOk.addEntryCode _) (fun _ hl ↦ absurd hl hne) fun hdone ↦ ?_
  rcases hopen : c.shared.opened with - | -
  · exact Or.inr (Or.inr ⟨hdone, rfl, by rw [hidle]; exact (List.cons_ne_nil _ _).symm⟩)
  · exact Or.inl rfl

omit [DecidableEq T] in
/-- Before `logpoint_init` has completed, only the first call reads 0, and nobody reads -1. -/
theorem reads (h : GuardInvariant c) (hdone : c.shared.completed = false) :
    (c.shared.initialized = 0 → c.shared.adds = 0) ∧ c.shared.initialized ≠ -1 := by
  obtain ⟨heq, hlt⟩ := h.counted hdone
  rw [heq, toInt32]
  split_ifs with hsmall
  · exact ⟨by omega, by omega⟩
  · exact ⟨by omega, by omega⟩

omit [DecidableEq T] in
/-- One more call may be counted before `logpoint_init` has completed, unless its number is the
last. -/
theorem counted_succ (h : GuardInvariant c) (hdone : c.shared.completed = false)
    (hne : c.shared.initialized ≠ -2) :
    toInt32 (c.shared.initialized + 1) = toInt32 (c.shared.adds + 1 : ℕ) ∧
      c.shared.adds + 1 + 1 < 4294967296 := by
  obtain ⟨heq, hlt⟩ := h.counted hdone
  have hlast : c.shared.adds ≠ 4294967294 := by
    intro hadds
    refine hne ?_
    rw [heq, hadds]
    rfl
  refine ⟨?_, by omega⟩
  rw [toInt32_eq_iff, heq, toInt32]
  split_ifs <;> push_cast <;> omega

/-- The fetch-and-add of a call that counts itself in time. -/
theorem fetchAdd (h : GuardInvariant c) {t : T} (hcode : c.code t = addEntryCode)
    (hopened : c.shared.opened = false)
    (hcount : c.shared.initialized = -2 → c.shared.completed = true) :
    GuardInvariant (c.resume t
      { c.shared with
        initialized := toInt32 (c.shared.initialized + 1), adds := c.shared.adds + 1 }
      ((if c.shared.initialized = 0 then [.logpointInit, .store] else [.load]) ++
        [.logpointLog])) := by
  -- the guard is not open when the counter is raised
  have hnever : c.shared.opened = true → False := fun hopen ↦ by
    rw [hopened] at hopen
    exact Bool.false_ne_true hopen
  have hstore : c.code t ≠ [.store, .logpointLog] := by rw [hcode]; decide
  refine h.resume id (Nat.le_succ _) (Or.inr (Or.inl rfl)) (fun hopen ↦ (hnever hopen).elim) ?_
    (fun _ ↦ Nat.succ_pos _) ?_ ?_ fun hdone ↦ Or.inr (Or.inr ⟨hdone, hopened, hstore⟩)
  · intro hdone
    refine h.counted_succ hdone fun hlast ↦ ?_
    exact absurd (hcount hlast) (Bool.eq_false_iff.1 hdone)
  · -- the place of the call
    constructor
    · split_ifs <;> simp
    · exact fun _ ↦ Nat.succ_pos _
    · intro hl
      rcases hdone : c.shared.completed with - | -
      · refine Or.inr ?_
        have hzero : c.shared.initialized = 0 := by
          by_contra hne
          rw [if_neg hne] at hl
          simp at hl
        rcases hflag : c.shared.initialised with - | -
        · rfl
        · have := h.initialised hflag
          have := (h.reads hdone).1 hzero
          omega
      · exact Or.inl rfl
  · intro hdone hl
    refine Or.inr ((h.reads hdone).1 ?_)
    by_contra hne
    rw [if_neg hne] at hl
    simp [Initialises] at hl

/-- `logpoint_init` as far as its flag. -/
theorem logpointInit (h : GuardInvariant c) {t : T}
    (hcode : c.code t = [.logpointInit, .store, .logpointLog]) :
    GuardInvariant (c.resume t { c.shared with initialised := true }
      (if c.shared.initialised then [.store, .logpointLog]
        else [.openDatabase, .store, .logpointLog])) := by
  have hinit : Initialises (c.code t) := Or.inl hcode
  have hadds := (h.place t).initialises hinit
  have hstore : c.code t ≠ [.store, .logpointLog] := by rw [hcode]; decide
  refine h.resume id le_rfl (Or.inr (Or.inr hinit)) h.opened h.counted (fun _ ↦ hadds) ?_
    (fun _ _ ↦ Or.inl hinit) fun hdone ↦ ?_
  · constructor
    · intro hl
      rcases (h.place t).initialised hcode with hdone | hflag
      · exact hdone
      · rw [hflag] at hl
        simp at hl
    · exact fun _ ↦ hadds
    · intro hl
      split_ifs at hl
      · simp at hl
      · simp at hl
  · rcases hopen : c.shared.opened with - | -
    · exact Or.inr (Or.inr ⟨hdone, rfl, hstore⟩)
    · exact Or.inl rfl

/-- The end of `logpoint_init`. -/
theorem openDatabase (h : GuardInvariant c) (t : T) :
    GuardInvariant (c.resume t { c.shared with completed := true } [.store, .logpointLog]) := by
  refine h.resume (fun _ ↦ rfl) le_rfl (Or.inl rfl) (fun hopen ↦ ⟨(h.opened hopen).1, rfl⟩)
    (fun hdone ↦ nomatch hdone) h.initialised ?_ (fun hdone ↦ nomatch hdone)
    fun _ ↦ Or.inr (Or.inl rfl)
  exact ⟨fun _ ↦ rfl, fun hl ↦ by simp [Initialises] at hl, fun _ ↦ Or.inl rfl⟩

/-- The store. -/
theorem store (h : GuardInvariant c) {t : T} (hcode : c.code t = [.store, .logpointLog]) :
    GuardInvariant (c.resume t { c.shared with initialized := -1, opened := true }
      [.logpointLog]) := by
  have hdone := (h.place t).past (Or.inl hcode)
  refine h.resume id le_rfl (Or.inl hdone) (fun _ ↦ ⟨rfl, hdone⟩) (fun hbefore ↦ ?_) h.initialised
    ⟨fun _ ↦ hdone, fun hl ↦ by simp [Initialises] at hl, fun hl ↦ by simp at hl⟩
    (fun _ hl ↦ by simp [Initialises] at hl) fun _ ↦ Or.inl rfl
  exact absurd hdone (Bool.eq_false_iff.1 hbefore)

/-- A round of the loop, and a step behind the guard. -/
theorem load (h : GuardInvariant c) {t : T} {l : List GuardStep}
    (hcode : c.code t = [.load, .logpointLog] ∨ c.code t = [.logpointLog])
    (hl : l = [] ∨ l = [.load, .logpointLog] ∨ l = [.logpointLog] ∧ c.shared.initialized = -1) :
    GuardInvariant (c.resume t c.shared l) := by
  have hstore : c.code t ≠ [.store, .logpointLog] := by
    rcases hcode with hcode | hcode <;> rw [hcode] <;> decide
  have hnotInit : ¬ Initialises l := by
    rcases hl with rfl | rfl | ⟨rfl, -⟩ <;> simp [Initialises]
  refine h.resume id le_rfl (Or.inr (Or.inl rfl)) h.opened h.counted h.initialised
    ⟨fun hpast ↦ ?_, fun hinit ↦ absurd hinit hnotInit, fun hinit ↦ absurd (Or.inl hinit) hnotInit⟩
    (fun _ hinit ↦ absurd hinit hnotInit) fun hdone ↦ ?_
  · rcases hl with rfl | rfl | ⟨-, hminus⟩
    · simp at hpast
    · simp at hpast
    · rcases hdone : c.shared.completed with - | -
      · exact absurd hminus (h.reads hdone).2
      · rfl
  · rcases hopen : c.shared.opened with - | -
    · exact Or.inr (Or.inr ⟨hdone, rfl, hstore⟩)
    · exact Or.inl rfl

/-- **A step keeps the invariant** if it counts its call in time. -/
theorem step (h : GuardInvariant c) {t : T} {i : GuardStep} {rest : List GuardStep}
    (hmem : c.code t ∈ guardCodes) (hcode : c.code t = i :: rest) (hok : CountsInTime c t i) :
    GuardInvariant (c.resume t (i.exec c.shared).1 ((i.exec c.shared).2 ++ rest)) := by
  rw [hcode] at hmem
  simp only [guardCodes, LibSeal.addEntryCode, List.mem_cons, List.cons.injEq, reduceCtorEq,
    List.not_mem_nil, or_false, false_or] at hmem
  obtain ⟨rfl, rfl⟩ | ⟨rfl, rfl⟩ | ⟨rfl, rfl⟩ | ⟨rfl, rfl⟩ | ⟨rfl, rfl⟩ | ⟨rfl, rfl⟩ := hmem
  · exact h.fetchAdd hcode (hok rfl).1 (hok rfl).2
  · have hinit := h.logpointInit hcode
    rw [GuardStep.exec]
    rcases hflag : c.shared.initialised with - | -
    · rw [hflag] at hinit
      exact hinit
    · have hsame : { c.shared with initialised := true } = c.shared := by
        rw [← hflag]
      rw [hsame, if_pos hflag] at hinit
      exact hinit
  · exact h.openDatabase t
  · exact h.store hcode
  · refine h.load (Or.inl hcode) ?_
    simp only [GuardStep.exec]
    split_ifs with hminus
    · exact Or.inr (Or.inr ⟨rfl, hminus⟩)
    · exact Or.inr (Or.inl rfl)
  · exact h.load (Or.inr hcode) (Or.inl rfl)

end GuardInvariant

/-- **Every run in which the calls count themselves in time** keeps the invariant. -/
theorem guardInvariant_of_reaches {c : Config T GuardState GuardStep}
    (h : Interleaving.Reaches guardSystem CountsInTime .init c) : GuardInvariant c := by
  induction h with
  | init => exact GuardInvariant.init
  | call t l _ hidle hl ih =>
    rw [show l = addEntryCode from hl]
    exact ih.call hidle
  | step t i rest hc hcode hok ih => exact ih.step (code_mem_guardCodes hc t) hcode hok

/-! ### Getting through -/

/-- One step of a thread on its own. -/
theorem passesAlone_of_turn {c : Config T GuardState GuardStep} {t : T}
    (h : PassesAlone (c.turn guardSystem (.step t)) t) : PassesAlone c t := by
  obtain ⟨n, hn⟩ := h
  exact ⟨n + 1, hn⟩

theorem turn_of_code {c : Config T GuardState GuardStep} {t : T} {i : GuardStep}
    {rest : List GuardStep} (hcode : c.code t = i :: rest) :
    c.turn guardSystem (.step t) =
      c.resume t (i.exec c.shared).1 ((i.exec c.shared).2 ++ rest) := by
  rw [Config.turn, hcode]
  rfl

/-- A call that is to store -1 gets through. -/
theorem passesAlone_of_store {c : Config T GuardState GuardStep} {t : T}
    (hcode : c.code t = [.store, .logpointLog]) : PassesAlone c t := by
  refine passesAlone_of_turn ⟨0, ?_⟩
  rw [turn_of_code hcode]
  exact Config.code_resume_self ..

/-- A call in `logpoint_init` gets through. -/
theorem passesAlone_of_initialises {c : Config T GuardState GuardStep} {t : T}
    (hinit : Initialises (c.code t)) : PassesAlone c t := by
  have hopen : ∀ c : Config T GuardState GuardStep,
      c.code t = [.openDatabase, .store, .logpointLog] → PassesAlone c t := by
    intro c hcode
    refine passesAlone_of_turn (passesAlone_of_store ?_)
    rw [turn_of_code hcode]
    exact Config.code_resume_self ..
  rcases hinit with hcode | hcode
  · refine passesAlone_of_turn ?_
    have hturn := turn_of_code hcode
    rcases hflag : c.shared.initialised with - | -
    · refine hopen _ ?_
      rw [hturn, Config.code_resume_self]
      simp [GuardStep.exec, hflag]
    · refine passesAlone_of_store ?_
      rw [hturn, Config.code_resume_self]
      simp [GuardStep.exec, hflag]
  · exact hopen c hcode

/-- **A waiting call gets through by itself exactly when -1 is there to be read.** -/
theorem passesAlone_load_iff {c : Config T GuardState GuardStep} {t : T}
    (hcode : c.code t = [.load, .logpointLog]) :
    PassesAlone c t ↔ c.shared.initialized = -1 := by
  constructor
  · rintro ⟨n, hn⟩
    by_contra hne
    have hstay : c.turn guardSystem (.step t) = c := by
      rw [turn_of_code hcode]
      simp only [GuardStep.exec, if_neg hne]
      rw [Config.resume]
      show (⟨c.shared, Function.update c.code t [.load, .logpointLog]⟩ :
        Config T GuardState GuardStep) = c
      rw [← hcode, Function.update_eq_self]
    have hrun : ∀ n, c.run guardSystem (List.replicate n (.step t)) = c := by
      intro n
      induction n with
      | zero => rfl
      | succ n ih =>
        rw [List.replicate_succ, Config.run, List.foldl_cons, hstay]
        exact ih
    rw [hrun, hcode] at hn
    exact absurd hn (by decide)
  · intro hminus
    refine passesAlone_of_turn ⟨0, ?_⟩
    rw [turn_of_code hcode]
    simp only [GuardStep.exec, if_pos hminus]
    exact Config.code_resume_self ..

/-- **The guard lets every caller through while calls count themselves in time.** -/
theorem letsThrough_of_reaches {c : Config T GuardState GuardStep}
    (h : Interleaving.Reaches guardSystem CountsInTime .init c) : LetsThrough c := by
  have hinv := guardInvariant_of_reaches h
  refine ⟨fun t ht ↦ (hinv.place t).past (Or.inr ht), hinv.opens, fun hopen t hbusy hcounted ↦ ?_⟩
  have hmem := code_mem_guardCodes h t
  simp only [guardCodes, List.mem_cons, List.not_mem_nil, or_false, hbusy, hcounted,
    false_or] at hmem
  rcases hmem with hcode | hcode | hcode | hcode | hcode
  · exact passesAlone_of_initialises (Or.inl hcode)
  · exact passesAlone_of_initialises (Or.inr hcode)
  · exact passesAlone_of_store hcode
  · exact (passesAlone_load_iff hcode).2 (hinv.opened hopen).1
  · exact ⟨0, hcode⟩

/-- **A call that counts itself behind the store is stuck**, until another call stores -1 again. -/
theorem not_letsThrough_of_fetchAdd {c : Config T GuardState GuardStep}
    (h : Interleaving.Reaches guardSystem CountsInTime .init c) (hopen : c.shared.opened = true)
    {t : T} (hcode : c.code t = addEntryCode) :
    ¬ LetsThrough (c.turn guardSystem (.step t)) := by
  have hminus := ((guardInvariant_of_reaches h).opened hopen).1
  have hturn := turn_of_code hcode
  have hload : (c.turn guardSystem (.step t)).code t = [.load, .logpointLog] := by
    rw [hturn, Config.code_resume_self]
    simp [GuardStep.exec, hminus]
  intro hthrough
  have hpass := hthrough.passes (by rw [hturn]; exact hopen) t (by rw [hload]; decide)
    (by rw [hload]; decide)
  rw [passesAlone_load_iff hload, hturn] at hpass
  simp only [GuardStep.exec, Config.shared_resume, hminus] at hpass
  exact absurd hpass (by decide)

/-- A thread that is not through the guard gets there by its next step or behind it. -/
theorem passesAlone_turn_iff {c : Config T GuardState GuardStep} {t : T}
    (hcode : c.code t ≠ [.logpointLog]) :
    PassesAlone (c.turn guardSystem (.step t)) t ↔ PassesAlone c t := by
  refine ⟨passesAlone_of_turn, ?_⟩
  rintro ⟨n, hn⟩
  rcases n with - | n
  · exact absurd hn hcode
  · exact ⟨n, hn⟩

/-- **One call after the other**: a call that runs without interruption gets through exactly when
the sequential `awaitInitialized` does. -/
theorem passesAlone_addEntryCode_iff {c : Config T GuardState GuardStep} {t : T}
    (hcode : c.code t = addEntryCode)
    (hint : -2147483648 ≤ c.shared.initialized ∧ c.shared.initialized < 2147483648) :
    PassesAlone c t ↔ ∃ v, awaitInitialized false c.shared.initialized = .ok v := by
  have hturn := turn_of_code hcode
  rw [← passesAlone_turn_iff (by rw [hcode]; decide), awaitInitialized]
  by_cases hzero : c.shared.initialized = 0
  · have hinit : Initialises ((c.turn guardSystem (.step t)).code t) := by
      rw [hturn, Config.code_resume_self]
      simp [GuardStep.exec, hzero, Initialises]
    simp [hzero, passesAlone_of_initialises hinit]
  · have hload : (c.turn guardSystem (.step t)).code t = [.load, .logpointLog] := by
      rw [hturn, Config.code_resume_self]
      simp [GuardStep.exec, hzero]
    have hadd : toInt32 (c.shared.initialized + 1) = -1 ↔ c.shared.initialized + 1 = -1 := by
      rw [toInt32]
      split_ifs <;> omega
    rw [passesAlone_load_iff hload, hturn, Config.shared_resume]
    simp only [GuardStep.exec, hadd, hzero, Bool.false_eq_true, if_false]
    split_ifs with hlast <;> simp [hlast]

/-! ### Two calls -/

/-- Two calls count themselves before either goes on. -/
def countedCalls : List (Turn Bool GuardStep) :=
  [.call true addEntryCode, .step true, .call false addEntryCode, .step false]

/-- The second of two calls that come at once waits, and gets through. -/
theorem letsThrough_countedCalls :
    LetsThrough ((.init .init : Config Bool GuardState GuardStep).run guardSystem countedCalls) :=
  letsThrough_of_reaches
    (.step false .fetchAdd [.logpointLog]
      (.call false addEntryCode
        (.step true .fetchAdd [.logpointLog] (.call true addEntryCode .init rfl rfl) rfl
          fun _ ↦ ⟨rfl, fun h ↦ nomatch h⟩) rfl rfl) rfl fun _ ↦ ⟨rfl, by decide⟩)

/-- One thread makes a call, which returns, and then another. -/
def secondCall : List (Turn Unit GuardStep) :=
  [.call () addEntryCode, .step (), .step (), .step (), .step (), .step (), .call () addEntryCode,
    .step ()]

/-- The second call waits for ever. -/
theorem not_letsThrough_secondCall :
    ¬ ∀ c : Config Unit GuardState GuardStep,
      Interleaving.Reaches guardSystem (fun _ _ _ ↦ True) .init c → LetsThrough c := by
  intro h
  have hrun := h ((Config.init .init).run guardSystem secondCall)
    (Interleaving.Reaches.run .init (by simp [secondCall, guardSystem]))
  have hload : ((Config.init .init : Config Unit GuardState GuardStep).run guardSystem
      secondCall).code () = [.load, .logpointLog] := by decide
  have hpass := hrun.passes (by decide) () (by rw [hload]; decide) (by rw [hload]; decide)
  rw [passesAlone_load_iff hload] at hpass
  exact absurd hpass (by decide)

end LibSeal
