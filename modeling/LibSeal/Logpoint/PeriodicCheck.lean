import LibSeal.Logpoint.Threads
import Mathlib.Tactic.LinearCombination
import Mathlib.Tactic.Ring
import Mathlib.Tactic.Zify

/-!
# The periodic check

Every call of `logpoint_log` adds one to `docheck`, and the call that finds it at
`SQLITE_CHECKAFTER` sets it back to zero and runs the audit. Adding and finding are two steps, and
the test is one for equality. If a second call adds between the two steps of the call that has
reached the threshold, nobody finds the threshold any more (`not_docheck_lt_of_late_add`): `docheck`
goes on from above it, and no audit is run before the counter has passed the greatest `int`
(`Instruction.exec_of_lt_docheck`).

As long as nobody adds at the threshold the check works, whatever else the threads do
(`docheck_lt_and_audits`). Two facts carry the induction: at the threshold some call is about to
look at the counter (`CheckInvariant.pending`), and `docheck`, together with the audits that are due
or done, accounts for all calls (`CheckInvariant.balance`).
-/

namespace LibSeal

open Bytes Interleaving

variable {D S : Type} {A : Auditor} {T : Type}

/-! ### Where a call is -/

/-- What a thread can have to do in a build with `SQLITE_DO_CHECK`. -/
inductive Stage : List (Instruction A) → Prop where
  | idle : Stage []
  | inserting {l : List (Instruction A)} (hl : ∀ i ∈ l, i.IsStatement) :
      Stage (l ++ [.fetchAdd, .compareExchange, .logpointLogReturns])
  | added : Stage [.compareExchange, .logpointLogReturns]
  | auditing {l l' : List (Instruction A)} (hl : ∀ i ∈ l, i.IsStatement)
      (hl' : ∀ i ∈ l', i.IsStatement) :
      Stage (l ++ .doAuditReturns :: (l' ++ [.logpointLogReturns]))
  | returning {l : List (Instruction A)} (hl : ∀ i ∈ l, i.IsStatement) :
      Stage (l ++ [.logpointLogReturns])

/-- A call is between its two steps. -/
def BetweenSteps (l : List (Instruction A)) : Prop := ∃ rest, l = .compareExchange :: rest

theorem not_betweenSteps {i : Instruction A} {rest : List (Instruction A)}
    (h : i ≠ .compareExchange) : ¬ BetweenSteps (i :: rest) := by
  intro hbetween
  obtain ⟨_, heq⟩ := hbetween
  exact h (List.cons.inj heq).1

namespace Instruction

def isFetchAdd : Instruction A → Bool
  | fetchAdd => true
  | _ => false

def isDoAuditReturns : Instruction A → Bool
  | doAuditReturns => true
  | _ => false

def isLogpointLogReturns : Instruction A → Bool
  | logpointLogReturns => true
  | _ => false

end Instruction

/-- The number of fetch-and-adds to come. -/
def adds (l : List (Instruction A)) : ℕ := l.countP Instruction.isFetchAdd

/-- The number of audits that are due. -/
def dueAudits (l : List (Instruction A)) : ℕ := l.countP Instruction.isDoAuditReturns

/-- The number of returns to come. -/
def returns (l : List (Instruction A)) : ℕ := l.countP Instruction.isLogpointLogReturns

theorem adds_append (l l' : List (Instruction A)) : adds (l ++ l') = adds l + adds l' :=
  List.countP_append

theorem dueAudits_append (l l' : List (Instruction A)) :
    dueAudits (l ++ l') = dueAudits l + dueAudits l' :=
  List.countP_append

theorem returns_append (l l' : List (Instruction A)) :
    returns (l ++ l') = returns l + returns l' :=
  List.countP_append

section
variable {cfg : LogpointConfig} {P : Platform} {E : SqlEngine D S}

/-- Statements are not counted. -/
theorem counts_of_statements {l : List (Instruction A)} (hl : ∀ i ∈ l, i.IsStatement) :
    adds l = 0 ∧ dueAudits l = 0 ∧ returns l = 0 := by
  refine ⟨List.countP_eq_zero.2 ?_, List.countP_eq_zero.2 ?_, List.countP_eq_zero.2 ?_⟩ <;>
  · intro i hi
    have := hl i hi
    cases i <;> simp_all [Instruction.IsStatement, Instruction.isFetchAdd,
      Instruction.isDoAuditReturns, Instruction.isLogpointLogReturns]

theorem isStatement_of_mem_map {texts : List Bytes} {i : Instruction A}
    (h : i ∈ texts.map (.executeStmtTx · none)) : i.IsStatement := by
  obtain ⟨text, -, rfl⟩ := List.mem_map.1 h
  trivial

/-- The trimming, if the build has one. -/
theorem isStatement_of_mem_ite {i : Instruction A}
    (h : i ∈ if cfg.doTrimming then cfg.trimmingStatements.map (.executeStmtTx · none) else []) :
    i.IsStatement := by
  split_ifs at h
  · exact isStatement_of_mem_map h
  · exact absurd h List.not_mem_nil

theorem logpointLog_eq (hcheck : cfg.doCheck = true)
    (calls : List (InsertCall A × Option Signature)) :
    logpointLog cfg calls = calls.map (fun (c, sign) ↦ .insertStatement c sign) ++
      [.fetchAdd, .compareExchange, .logpointLogReturns] := by
  rw [logpointLog, hcheck, if_pos rfl, List.append_assoc]
  rfl

theorem isStatement_of_mem_calls (calls : List (InsertCall A × Option Signature))
    {i : Instruction A} (hi : i ∈ calls.map fun (c, sign) ↦ .insertStatement c sign) :
    i.IsStatement := by
  obtain ⟨c, -, rfl⟩ := List.mem_map.1 hi
  trivial

/-- A call begins with its inserts. -/
theorem stage_logpointLog (hcheck : cfg.doCheck = true)
    (calls : List (InsertCall A × Option Signature)) : Stage (logpointLog cfg calls) := by
  rw [logpointLog_eq hcheck]
  exact .inserting fun _ ↦ isStatement_of_mem_calls calls

/-- **A step leads from stage to stage.** -/
theorem Stage.exec {i : Instruction A} {rest : List (Instruction A)} (h : Stage (i :: rest))
    (cfg : LogpointConfig) (P : Platform) (E : SqlEngine D S) (s : LogpointState A D) :
    Stage ((i.exec cfg P E s).2 ++ rest) := by
  -- what follows a statement is statements, so they stay in front
  have hmore : ∀ {l : List (Instruction A)}, (∀ j ∈ i :: l, j.IsStatement) →
      ∀ j ∈ (i.exec cfg P E s).2 ++ l, j.IsStatement := fun hl ↦
    List.forall_mem_append.2 ⟨((hl i List.mem_cons_self).exec cfg P E s).2,
      fun j hj ↦ hl j (List.mem_cons_of_mem _ hj)⟩
  generalize hcode : i :: rest = code at h
  cases h with
  | idle => exact nomatch hcode
  | @inserting l hl =>
    cases l with
    | nil =>
      cases hcode
      exact .added
    | cons j l =>
      obtain ⟨rfl, rfl⟩ := List.cons.inj hcode
      show Stage (_ ++ (l ++ _))
      rw [← List.append_assoc]
      exact .inserting (hmore hl)
  | added =>
    cases hcode
    rw [Instruction.exec]
    split_ifs
    · rw [checkCode, List.append_assoc, List.cons_append]
      exact .auditing (fun _ ↦ isStatement_of_mem_map) fun _ ↦ isStatement_of_mem_ite
    · exact .returning (l := []) fun j hj ↦ absurd hj List.not_mem_nil
  | @auditing l l' hl hl' =>
    cases l with
    | nil =>
      cases hcode
      exact .returning hl'
    | cons j l =>
      obtain ⟨rfl, rfl⟩ := List.cons.inj hcode
      show Stage (_ ++ (l ++ _))
      rw [← List.append_assoc]
      exact .auditing (hmore hl) hl'
  | @returning l hl =>
    cases l with
    | nil =>
      cases hcode
      exact .idle
    | cons j l =>
      obtain ⟨rfl, rfl⟩ := List.cons.inj hcode
      show Stage (_ ++ (l ++ _))
      rw [← List.append_assoc]
      exact .returning (hmore hl)

/-- The test follows at once. -/
theorem Stage.betweenSteps_of_fetchAdd {rest : List (Instruction A)}
    (h : Stage (.fetchAdd :: rest)) : BetweenSteps rest := by
  generalize hcode : .fetchAdd :: rest = code at h
  have hnot : ∀ {l l' : List (Instruction A)}, (∀ i ∈ l, i.IsStatement) →
      .fetchAdd :: rest = l ++ l' → .fetchAdd :: rest = l' := by
    rintro (_ | ⟨j, l⟩) l' hl hl'
    · exact hl'
    · obtain ⟨rfl, -⟩ := List.cons.inj hl'
      exact (hl _ List.mem_cons_self).elim
  cases h with
  | idle => exact nomatch hcode
  | inserting hl =>
    cases hnot hl hcode
    exact ⟨_, rfl⟩
  | added => exact nomatch hcode
  | auditing hl _ => exact nomatch hnot hl hcode
  | returning hl => exact nomatch hnot hl hcode

/-- A call that has returned has added before, and a call has one audit at most. -/
theorem Stage.counts {l : List (Instruction A)} (h : Stage l) :
    adds l ≤ returns l ∧ dueAudits l ≤ 1 ∧ (BetweenSteps l → adds l < returns l) := by
  -- in front of a statement nobody is between the two steps
  have hcompare : ∀ {l l' : List (Instruction A)}, (∀ i ∈ l, i.IsStatement) →
      ¬ BetweenSteps l' → ¬ BetweenSteps (l ++ l') := by
    rintro (_ | ⟨j, l⟩) l' hl hl' ⟨rest, hrest⟩
    · exact hl' ⟨rest, hrest⟩
    · obtain ⟨rfl, -⟩ := List.cons.inj hrest
      exact hl _ List.mem_cons_self
  cases h with
  | idle => exact ⟨le_rfl, Nat.zero_le _, fun ⟨_, h⟩ ↦ nomatch h⟩
  | inserting hl =>
    obtain ⟨h1, h2, h3⟩ := counts_of_statements hl
    refine ⟨?_, ?_, fun h ↦ absurd h (hcompare hl fun ⟨_, h⟩ ↦ nomatch h)⟩
    · rw [adds_append, returns_append, h1, h3]
      exact le_rfl
    · rw [dueAudits_append, h2]
      exact Nat.zero_le _
  | added => exact ⟨Nat.zero_le _, Nat.zero_le _, fun _ ↦ Nat.zero_lt_one⟩
  | @auditing l l' hl hl' =>
    obtain ⟨h1, h2, h3⟩ := counts_of_statements hl
    obtain ⟨h1', h2', h3'⟩ := counts_of_statements hl'
    refine ⟨?_, ?_, fun h ↦ absurd h (hcompare hl fun ⟨_, h⟩ ↦ nomatch h)⟩
    · rw [adds_append, h1, adds, List.countP_cons, ← adds, adds_append, h1']
      exact Nat.zero_le _
    · rw [dueAudits_append, h2, dueAudits, List.countP_cons, ← dueAudits, dueAudits_append, h2']
      exact le_rfl
  | returning hl =>
    obtain ⟨h1, h2, h3⟩ := counts_of_statements hl
    refine ⟨?_, ?_, fun h ↦ absurd h (hcompare hl fun ⟨_, h⟩ ↦ nomatch h)⟩
    · rw [adds_append, h1]
      exact Nat.zero_le _
    · rw [dueAudits_append, h2]
      exact Nat.zero_le _

theorem counts_logpointLog (hcheck : cfg.doCheck = true)
    (calls : List (InsertCall A × Option Signature)) :
    adds (logpointLog cfg calls) = 1 ∧ dueAudits (logpointLog cfg calls) = 0 ∧
      returns (logpointLog cfg calls) = 1 := by
  obtain ⟨h1, h2, h3⟩ := counts_of_statements fun _ ↦ isStatement_of_mem_calls calls
  rw [logpointLog_eq hcheck, adds_append, dueAudits_append, returns_append, h1, h2, h3]
  exact ⟨rfl, rfl, rfl⟩

/-- The compare-and-exchange that succeeds makes one audit due. -/
theorem counts_checkCode (A : Auditor) (cfg : LogpointConfig) :
    adds (checkCode cfg : List (Instruction A)) = 0 ∧
      dueAudits (checkCode cfg : List (Instruction A)) = 1 ∧
      returns (checkCode cfg : List (Instruction A)) = 0 := by
  obtain ⟨h1, h2, h3⟩ := counts_of_statements (A := A) (l := cfg.auditStatements.map
    (.executeStmtTx · none)) fun _ ↦ isStatement_of_mem_map
  obtain ⟨h1', h2', h3'⟩ := counts_of_statements (A := A)
    (l := if cfg.doTrimming then cfg.trimmingStatements.map (.executeStmtTx · none) else [])
    fun _ ↦ isStatement_of_mem_ite
  rw [checkCode, ← List.singleton_append, adds_append, adds_append, dueAudits_append,
    dueAudits_append, returns_append, returns_append, h1, h2, h3, h1', h2', h3']
  exact ⟨rfl, rfl, rfl⟩

/-- **Above the threshold no audit becomes due**, whoever does what, until the counter has passed
the greatest `int`. -/
theorem Instruction.exec_of_lt_docheck (i : Instruction A) (P : Platform) (E : SqlEngine D S)
    {s : LogpointState A D} (hlt : cfg.checkAfter < s.docheck) (hmax : s.docheck < 2147483647) :
    cfg.checkAfter < (i.exec cfg P E s).1.docheck ∧ dueAudits (i.exec cfg P E s).2 = 0 := by
  by_cases hi : i.IsStatement
  · obtain ⟨⟨hdocheck, -, -⟩, hl⟩ := hi.exec cfg P E s
    exact ⟨hdocheck ▸ hlt, (counts_of_statements hl).2.1⟩
  · cases i with
    | insertStatement c sign => exact absurd trivial hi
    | executeStmtTx stmt row => exact absurd trivial hi
    | fetchAdd =>
      have hpos := cfg.checkAfter_pos
      have hnext : toInt32 (s.docheck + 1) = s.docheck + 1 :=
        toInt32_eq_self (by omega) (by omega)
      refine ⟨?_, rfl⟩
      show cfg.checkAfter < toInt32 (s.docheck + 1)
      omega
    | compareExchange =>
      have hexec : Instruction.exec cfg P E .compareExchange s = (s, []) := if_neg hlt.ne'
      rw [hexec]
      exact ⟨hlt, rfl⟩
    | doAuditReturns => exact ⟨hlt, rfl⟩
    | logpointLogReturns => exact ⟨hlt, rfl⟩

/-! ### Runs -/

/-- **Nobody adds at the threshold**: a fetch-and-add is executed only while `docheck` is not
`SQLITE_CHECKAFTER`, waiting to be set back. -/
def AddsBelow (cfg : LogpointConfig) (c : Config T (LogpointState A D) (Instruction A)) (_ : T)
    (i : Instruction A) : Prop :=
  i = .fetchAdd → c.shared.docheck ≠ cfg.checkAfter

/-- What holds while nobody adds at the threshold. -/
structure CheckInvariant [Fintype T] (cfg : LogpointConfig)
    (c : Config T (LogpointState A D) (Instruction A)) : Prop where
  stage : ∀ t, Stage (c.code t)
  nonneg : 0 ≤ c.shared.docheck
  le : c.shared.docheck ≤ cfg.checkAfter
  /-- At the threshold some call is about to look at the counter. -/
  pending : c.shared.docheck = cfg.checkAfter → ∃ t, BetweenSteps (c.code t)
  /-- Every fetch-and-add is in the counter or in an audit that is due or done. -/
  balance : c.shared.docheck + cfg.checkAfter * (c.shared.audits + c.total dueAudits) +
    c.total adds = c.shared.completed + c.total returns

namespace CheckInvariant

variable [Fintype T] {c : Config T (LogpointState A D) (Instruction A)}

theorem init (cfg : LogpointConfig) (d : D) :
    CheckInvariant cfg (.init (.init d) : Config T (LogpointState A D) (Instruction A)) where
  stage _ := .idle
  nonneg := le_rfl
  le := cfg.checkAfter_pos.le
  pending h := absurd h cfg.checkAfter_pos.ne
  balance := by
    rw [Config.total_init rfl, Config.total_init rfl, Config.total_init rfl]
    simp [Config.init, LogpointState.init]

variable [DecidableEq T]

/-- A call starts. -/
theorem call (hcheck : cfg.doCheck = true) (h : CheckInvariant cfg c) {t : T}
    (hidle : c.code t = []) (calls : List (InsertCall A × Option Signature)) :
    CheckInvariant cfg (c.resume t c.shared (logpointLog cfg calls)) where
  stage u := by
    rcases eq_or_ne u t with rfl | hu
    · rw [Config.code_resume_self]
      exact stage_logpointLog hcheck calls
    · rw [Config.code_resume_of_ne c hu]
      exact h.stage u
  nonneg := h.nonneg
  le := h.le
  pending hdocheck := by
    -- the thread that owes the check is not the one that has been idle
    obtain ⟨u, hbetween⟩ := h.pending hdocheck
    have hu : u ≠ t := by
      rintro rfl
      rw [hidle] at hbetween
      obtain ⟨_, hrest⟩ := hbetween
      exact nomatch hrest
    exact ⟨u, by rwa [Config.code_resume_of_ne c hu]⟩
  balance := by
    have hadds := Config.total_resume adds c t c.shared (logpointLog cfg calls)
    have hdue := Config.total_resume dueAudits c t c.shared (logpointLog cfg calls)
    have hreturns := Config.total_resume returns c t c.shared (logpointLog cfg calls)
    obtain ⟨h1, h2, h3⟩ := counts_logpointLog hcheck calls
    rw [hidle, h1] at hadds
    rw [hidle, h2] at hdue
    rw [hidle, h3] at hreturns
    have hbalance := h.balance
    have hnil : adds ([] : List (Instruction A)) = 0 ∧ dueAudits ([] : List (Instruction A)) = 0 ∧
        returns ([] : List (Instruction A)) = 0 := ⟨rfl, rfl, rfl⟩
    rw [Config.shared_resume, show (c.resume t c.shared (logpointLog cfg calls)).total dueAudits =
      c.total dueAudits by omega]
    omega

/-- Another thread leaves the pending call where it is. -/
theorem exists_betweenSteps_resume (h : CheckInvariant cfg c) {t : T}
    (hnot : ¬ BetweenSteps (c.code t)) (hdocheck : c.shared.docheck = cfg.checkAfter)
    (s : LogpointState A D) (l : List (Instruction A)) :
    ∃ u, BetweenSteps ((c.resume t s l).code u) := by
  obtain ⟨u, hbetween⟩ := h.pending hdocheck
  have hu : u ≠ t := by
    rintro rfl
    exact hnot hbetween
  exact ⟨u, by rwa [Config.code_resume_of_ne c hu]⟩

/-- What a step has to do to keep the invariant. -/
theorem resume (h : CheckInvariant cfg c) {t : T} {i : Instruction A}
    {rest : List (Instruction A)} (hcode : c.code t = i :: rest) {s : LogpointState A D}
    {l : List (Instruction A)} (hstage : Stage (l ++ rest)) (hnonneg : 0 ≤ s.docheck)
    (hle : s.docheck ≤ cfg.checkAfter)
    (hpending : s.docheck = cfg.checkAfter →
      ∃ u, BetweenSteps ((c.resume t s (l ++ rest)).code u))
    (hbalance : s.docheck + cfg.checkAfter * (s.audits + dueAudits l) + adds l +
        c.shared.completed + returns [i] =
      c.shared.docheck + cfg.checkAfter * (c.shared.audits + dueAudits [i]) + adds [i] +
        s.completed + returns l) :
    CheckInvariant cfg (c.resume t s (l ++ rest)) where
  stage u := by
    rcases eq_or_ne u t with rfl | hu
    · rw [Config.code_resume_self]
      exact hstage
    · rw [Config.code_resume_of_ne c hu]
      exact h.stage u
  nonneg := hnonneg
  le := hle
  pending := hpending
  balance := by
    have hadds := Config.total_step adds_append hcode s l
    have hdue := Config.total_step dueAudits_append hcode s l
    have hreturns := Config.total_step returns_append hcode s l
    zify at hadds hdue hreturns
    rw [Config.shared_resume]
    linear_combination h.balance + hbalance + cfg.checkAfter * hdue + hadds - hreturns

/-- **A step** keeps the invariant. -/
theorem step (h : CheckInvariant cfg c) {t : T} {i : Instruction A} {rest : List (Instruction A)}
    (hcode : c.code t = i :: rest) (hok : AddsBelow cfg c t i) :
    CheckInvariant cfg (c.resume t (i.exec cfg P E c.shared).1
      ((i.exec cfg P E c.shared).2 ++ rest)) := by
  have hstage := (hcode ▸ h.stage t).exec cfg P E c.shared
  have hnonneg := h.nonneg
  have hle := h.le
  have hpos := cfg.checkAfter_pos
  have hlt := cfg.checkAfter_lt
  -- only the compare-and-exchange ends the wait of a pending call
  have hpending : ¬ BetweenSteps (i :: rest) → c.shared.docheck = cfg.checkAfter →
      ∀ s l, ∃ u, BetweenSteps ((c.resume t s l).code u) :=
    fun hnot hdocheck s l ↦ h.exists_betweenSteps_resume (hcode ▸ hnot) hdocheck s l
  by_cases hi : i.IsStatement
  · have hnot : ¬ BetweenSteps (i :: rest) := by
      refine not_betweenSteps fun heq ↦ ?_
      subst heq
      exact hi
    obtain ⟨⟨hdocheck, haudits, hcompleted⟩, hl⟩ := hi.exec cfg P E c.shared
    obtain ⟨h1, h2, h3⟩ := counts_of_statements hl
    obtain ⟨h1', h2', h3'⟩ := counts_of_statements (l := [i]) (by simpa using hi)
    refine h.resume hcode hstage (hdocheck ▸ hnonneg) (hdocheck ▸ hle)
      (fun hd ↦ hpending hnot (hdocheck ▸ hd) _ _) ?_
    rw [hdocheck, haudits, hcompleted, h1, h2, h3, h1', h2', h3']
  · cases i with
    | insertStatement c sign => exact absurd trivial hi
    | executeStmtTx stmt row => exact absurd trivial hi
    | fetchAdd =>
      have hne : c.shared.docheck ≠ cfg.checkAfter := hok rfl
      have hnext : toInt32 (c.shared.docheck + 1) = c.shared.docheck + 1 :=
        toInt32_eq_self (by omega) (by omega)
      have hbetween : BetweenSteps rest := (hcode ▸ h.stage t).betweenSteps_of_fetchAdd
      refine h.resume hcode hstage ?_ ?_ (fun _ ↦ ⟨t, ?_⟩) ?_
      · show 0 ≤ toInt32 (c.shared.docheck + 1)
        omega
      · show toInt32 (c.shared.docheck + 1) ≤ cfg.checkAfter
        omega
      · rw [Config.code_resume_self]
        exact hbetween
      · show toInt32 (c.shared.docheck + 1) + _ + _ + _ + _ = _
        rw [hnext]
        simp [Instruction.exec, adds, dueAudits, returns, Instruction.isFetchAdd,
          Instruction.isDoAuditReturns, Instruction.isLogpointLogReturns]
        ring
    | compareExchange =>
      rcases eq_or_ne c.shared.docheck cfg.checkAfter with heq | hne
      · have hexec : Instruction.exec cfg P E .compareExchange c.shared =
            ({ c.shared with docheck := 0 }, checkCode cfg) := if_pos heq
        obtain ⟨h1, h2, h3⟩ := counts_checkCode A cfg
        rw [hexec] at hstage ⊢
        refine h.resume hcode hstage le_rfl hpos.le (fun hd ↦ absurd hd hpos.ne) ?_
        rw [h1, h2, h3, heq]
        simp [adds, dueAudits, returns, Instruction.isFetchAdd, Instruction.isDoAuditReturns,
          Instruction.isLogpointLogReturns]
        ring
      · have hexec : Instruction.exec cfg P E .compareExchange c.shared = (c.shared, []) :=
          if_neg hne
        rw [hexec] at hstage ⊢
        exact h.resume hcode hstage hnonneg hle (fun hd ↦ absurd hd hne) rfl
    | doAuditReturns =>
      refine h.resume hcode hstage hnonneg hle
        (fun hd ↦ hpending (not_betweenSteps (by simp)) hd _ _) ?_
      simp [Instruction.exec, adds, dueAudits, returns, Instruction.isFetchAdd,
        Instruction.isDoAuditReturns, Instruction.isLogpointLogReturns]
    | logpointLogReturns =>
      refine h.resume hcode hstage hnonneg hle
        (fun hd ↦ hpending (not_betweenSteps (by simp)) hd _ _) ?_
      simp [Instruction.exec, adds, dueAudits, returns, Instruction.isFetchAdd,
        Instruction.isDoAuditReturns, Instruction.isLogpointLogReturns]
      ring

end CheckInvariant

theorem checkInvariant_of_reaches [DecidableEq T] [Fintype T] (hcheck : cfg.doCheck = true) {d : D}
    {c : Config T (LogpointState A D) (Instruction A)}
    (h : Interleaving.Reaches (logpointSystem cfg P E) (AddsBelow cfg) (.init d) c) :
    CheckInvariant cfg c := by
  refine h.invariant (CheckInvariant.init cfg d) ?_ ?_
  · rintro c t l hc hidle ⟨calls, rfl⟩
    exact hc.call hcheck hidle calls
  · intro c t i rest hc hcode hok
    exact hc.step hcode hok

/-- **The check is not lost while nobody adds at the threshold.** In every state that any number of
threads reach without doing so, `docheck` is below `SQLITE_CHECKAFTER` if no call is between its two
steps, and the audits run are at least as many as `SQLITE_CHECKAFTER` goes into the number of calls
that have returned, less the number of threads. -/
theorem docheck_lt_and_audits [DecidableEq T] [Fintype T] (hcheck : cfg.doCheck = true) {d : D}
    {c : Config T (LogpointState A D) (Instruction A)}
    (h : Interleaving.Reaches (logpointSystem cfg P E) (AddsBelow cfg) (.init d) c) :
    ((∀ t, ¬ BetweenSteps (c.code t)) → c.shared.docheck < cfg.checkAfter) ∧
      (c.shared.completed : ℤ) / cfg.checkAfter - Fintype.card T ≤ c.shared.audits := by
  have hinv := checkInvariant_of_reaches hcheck h
  have hcounts : ∀ t, adds (c.code t) ≤ returns (c.code t) := fun t ↦ (hinv.stage t).counts.1
  constructor
  · intro hnone
    refine lt_of_le_of_ne hinv.le fun hdocheck ↦ ?_
    obtain ⟨t, hbetween⟩ := hinv.pending hdocheck
    exact hnone t hbetween
  · have hdue : c.total dueAudits ≤ Fintype.card T :=
      Config.total_le_card fun t ↦ (hinv.stage t).counts.2.1
    -- a call that has added at the threshold has not returned
    have hlt : (c.shared.completed : ℤ) <
        (c.shared.audits + c.total dueAudits + 1) * cfg.checkAfter := by
      have hbalance := hinv.balance
      have hle := hinv.le
      have hadds : c.total adds ≤ c.total returns := Config.total_le_total hcounts
      have hstrict : c.shared.docheck = cfg.checkAfter → c.total adds < c.total returns := by
        intro hdocheck
        obtain ⟨t, hbetween⟩ := hinv.pending hdocheck
        exact Config.total_lt_total hcounts ((hinv.stage t).counts.2.2 hbetween)
      have hmul : (c.shared.audits + c.total dueAudits + 1) * cfg.checkAfter =
          cfg.checkAfter * (c.shared.audits + c.total dueAudits) + cfg.checkAfter := by ring
      omega
    have := Int.ediv_lt_of_lt_mul cfg.checkAfter_pos hlt
    omega

end

/-! ### Concrete runs -/

/-- The audit after every call. -/
def checkEveryCall : LogpointConfig where
  sgx := true
  doInsert := true
  addHash := true
  doSign := false
  doCheck := true
  doTrimming := false
  checkAfter := 1
  checkAfter_pos := Int.one_pos
  checkAfter_lt := one_lt_checkAfter_bound
  auditStatements := []
  trimmingStatements := []

/-- A database that reads no statement. -/
def silentEngine : SqlEngine Unit Unit := ⟨fun _ ↦ [], fun _ _ ↦ none⟩

/-- Threads that run the audit after every call. -/
def checkingSystem : System (LogpointState .git Unit) (Instruction .git) :=
  logpointSystem checkEveryCall twoRowPlatform silentEngine

/-- One thread, one call: the audit has been run and the counter is back. -/
theorem docheck_lt_after_call :
    ∃ c : Config Unit (LogpointState .git Unit) (Instruction .git),
      Interleaving.Reaches checkingSystem (AddsBelow checkEveryCall) (.init ()) c ∧
        c.shared.completed = 1 ∧
        c.shared.docheck < checkEveryCall.checkAfter := by
  have h1 : Interleaving.Reaches checkingSystem (AddsBelow checkEveryCall) (.init ()) _ :=
    .call () (logpointLog checkEveryCall []) .init rfl ⟨[], rfl⟩
  have h2 := h1.step () .fetchAdd _ rfl fun _ ↦ by decide
  have h3 := h2.step () .compareExchange _ rfl fun h ↦ nomatch h
  have h4 := h3.step () .doAuditReturns _ rfl fun h ↦ nomatch h
  have h5 := h4.step () .logpointLogReturns _ rfl fun h ↦ nomatch h
  exact ⟨_, h5, rfl, (docheck_lt_and_audits rfl h5).1 fun _ ⟨_, h⟩ ↦ nomatch h⟩

/-- Two threads, two calls: the second adds before the first looks, and both find too much. -/
theorem not_docheck_lt_of_late_add :
    ∃ c : Config Bool (LogpointState .git Unit) (Instruction .git),
      Interleaving.Reaches checkingSystem (fun _ _ _ ↦ True) (.init ()) c ∧
        (∀ t, ¬ BetweenSteps (c.code t)) ∧
        ¬ c.shared.docheck < checkEveryCall.checkAfter := by
  have h1 : Interleaving.Reaches checkingSystem (fun _ _ _ ↦ True) (.init ()) _ :=
    .call false (logpointLog checkEveryCall []) .init rfl ⟨[], rfl⟩
  have h2 := h1.call true (logpointLog checkEveryCall []) rfl ⟨[], rfl⟩
  have h3 := h2.step false .fetchAdd _ rfl trivial
  have h4 := h3.step true .fetchAdd _ rfl trivial
  have h5 := h4.step false .compareExchange _ rfl trivial
  have h6 := h5.step true .compareExchange _ rfl trivial
  refine ⟨_, h6, fun t ↦ ?_, by decide⟩
  cases t with
  | false => exact fun ⟨_, h⟩ ↦ nomatch h
  | true => exact fun ⟨_, h⟩ ↦ nomatch h

end LibSeal
