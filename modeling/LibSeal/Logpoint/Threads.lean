import LibSeal.Data.Interleaving
import LibSeal.Logpoint.TamperEvidence

/-!
# Threads in the log

`logpoint_log` as it runs in several threads at once. The threads share the static variables of
`logpoint.c`; what happens between them is a matter of the steps that are atomic:

* the section of `insert_statement` under `lasthash_mutex`, which is `extendChain`;
* a transaction under `sqlite_mutex`, which is `executeStmtTx`: the row of an `insert_statement`,
  and each statement of an audit or of a trimming, is a transaction of its own;
* the fetch-and-add of `docheck`, and its compare-and-exchange.

What the auditing module inserts in a call, and what it executes as its audit and its trimming, is
data; an instruction that finds its mutex taken stays where it is.

Besides the static variables the state remembers what has happened: the rows that have been chained,
the transactions, the audits that have been run and the calls that have returned. No instruction
looks at these.
-/

namespace LibSeal

open Bytes Interleaving

/-- The macros that `logpoint_log` reads, and the statements of the auditing module. -/
structure LogpointConfig extends BuildConfig where
  /-- `SQLITE_DO_CHECK` -/
  doCheck : Bool
  /-- `SQLITE_DO_TRIMMING` -/
  doTrimming : Bool
  /-- `SQLITE_CHECKAFTER`, an `int`. -/
  checkAfter : ℤ
  checkAfter_pos : 0 < checkAfter
  checkAfter_lt : checkAfter < 2147483648
  /-- The statements that `libseal_do_audit` executes. -/
  auditStatements : List Bytes
  /-- The statements that `libseal_do_trimming` executes. -/
  trimmingStatements : List Bytes

/-- The least threshold. -/
theorem one_lt_checkAfter_bound : (1 : ℤ) < 2147483648 := by decide

/-- The atomic steps of `logpoint_log`. -/
inductive Instruction (A : Auditor) where
  /-- `insert_statement` up to the end of its first section, with the outcome of the signature. -/
  | insertStatement (c : InsertCall A) (sign : Option Signature)
  /-- A transaction; if it is that of a row, with the place of the row in the chain. -/
  | executeStmtTx (stmt : Bytes) (row : Option ℕ)
  | fetchAdd
  | compareExchange
  | doAuditReturns
  | logpointLogReturns

variable {D S : Type} {A : Auditor}

/-- What the threads share. -/
structure LogpointState (A : Auditor) (D : Type) where
  log : LogState D
  docheck : ℤ
  /-- The rows chained so far. -/
  chain : List (InsertCall A × HashText)
  /-- The transactions so far, each with the content it found. -/
  transactions : List (Bytes × D)
  /-- How many audits have been run. -/
  audits : ℕ
  /-- How many calls have returned. -/
  completed : ℕ

/-- The state before the first call. -/
def LogpointState.init (d : D) : LogpointState A D := ⟨.init d, 0, [], [], 0, 0⟩

/-- What follows a successful compare-and-exchange. -/
def checkCode (cfg : LogpointConfig) : List (Instruction A) :=
  cfg.auditStatements.map (.executeStmtTx · none) ++ .doAuditReturns ::
    if cfg.doTrimming then cfg.trimmingStatements.map (.executeStmtTx · none) else []

/-- The effect of a step, and what comes next in its thread. The statements leave the transaction
alone, and SQLite does not refuse to end it. -/
def Instruction.exec (cfg : LogpointConfig) (P : Platform) (E : SqlEngine D S) (i : Instruction A)
    (s : LogpointState A D) : LogpointState A D × List (Instruction A) :=
  match i with
  | .insertStatement c sign =>
    if !cfg.doInsert then (s, [])
    else
      match extendChain cfg.toBuildConfig P sign s.log c.name c.tuple with
      | .error _ => (s, [i])
      | .ok (none, log) => ({ s with log }, [])
      | .ok (some stmt, log) =>
        ({ s with log, chain := s.chain ++ [(c, log.lasthash)] },
          [.executeStmtTx stmt (some s.chain.length)])
  | .executeStmtTx stmt _ =>
    match LibSeal.executeStmtTx cfg.toBuildConfig E.session false s.log stmt with
    | .error _ => (s, [i])
    | .ok log =>
      ({ s with
          log
          transactions := if cfg.doInsert then s.transactions ++ [(cStr stmt, s.log.db.content)]
            else s.transactions }, [])
  | .fetchAdd => ({ s with docheck := toInt32 (s.docheck + 1) }, [])
  | .compareExchange =>
    if s.docheck = cfg.checkAfter then ({ s with docheck := 0 }, checkCode cfg) else (s, [])
  | .doAuditReturns => ({ s with audits := s.audits + 1 }, [])
  | .logpointLogReturns => ({ s with completed := s.completed + 1 }, [])

/-- A call of `logpoint_log` in which the auditing module inserts some rows. -/
def logpointLog (cfg : LogpointConfig) (calls : List (InsertCall A × Option Signature)) :
    List (Instruction A) :=
  calls.map (fun (c, sign) ↦ .insertStatement c sign) ++
    (if cfg.doCheck then [.fetchAdd, .compareExchange] else []) ++ [.logpointLogReturns]

/-- Threads that call `logpoint_log`. -/
def logpointSystem (cfg : LogpointConfig) (P : Platform) (E : SqlEngine D S) :
    System (LogpointState A D) (Instruction A) where
  exec i s := i.exec cfg P E s
  IsCall l := ∃ calls, l = logpointLog cfg calls

/-- Threads that call `insert_statement`. -/
def insertSystem (cfg : LogpointConfig) (P : Platform) (E : SqlEngine D S) :
    System (LogpointState A D) (Instruction A) where
  exec i s := i.exec cfg P E s
  IsCall l := ∃ c sign, l = [.insertStatement c sign]

theorem exec_insertSystem (cfg : LogpointConfig) (P : Platform) (E : SqlEngine D S)
    (i : Instruction A) (s : LogpointState A D) :
    (insertSystem cfg P E).exec i s = i.exec cfg P E s := rfl

/-! ### Transactions -/

/-- Between two steps nobody is in a transaction. -/
def LogpointState.NoTransaction (s : LogpointState A D) : Prop :=
  s.log.sqliteMutex = false ∧ s.log.db.saved = none

/-- **The content changes by transactions only**, and each of them is recorded. -/
theorem Instruction.exec_content (i : Instruction A) (cfg : LogpointConfig) (P : Platform)
    (E : SqlEngine D S) {s : LogpointState A D} (hs : s.NoTransaction) :
    (i.exec cfg P E s).1.NoTransaction ∧
      ((i.exec cfg P E s).1.log.db.content = s.log.db.content ∧
          (i.exec cfg P E s).1.transactions = s.transactions ∨
        ∃ stmt row, i = .executeStmtTx stmt row ∧
          (i.exec cfg P E s).1.log.db.content = (E.exec s.log.db.content (cStr stmt)).1 ∧
          (i.exec cfg P E s).1.transactions =
            s.transactions ++ [(cStr stmt, s.log.db.content)]) := by
  cases i with
  -- chaining a row is no transaction, whatever comes of it
  | insertStatement c sign =>
    rw [exec]
    split_ifs
    · exact ⟨hs, Or.inl ⟨rfl, rfl⟩⟩
    · split
      · exact ⟨hs, Or.inl ⟨rfl, rfl⟩⟩
      · rename_i log hext
        obtain ⟨hmutex, hdb⟩ := db_of_extendChain hext
        exact ⟨⟨hmutex.trans hs.1, hdb ▸ hs.2⟩, Or.inl ⟨congrArg (·.content) hdb, rfl⟩⟩
      · rename_i stmt log hext
        obtain ⟨hmutex, hdb⟩ := db_of_extendChain hext
        exact ⟨⟨hmutex.trans hs.1, hdb ▸ hs.2⟩, Or.inl ⟨congrArg (·.content) hdb, rfl⟩⟩
  | executeStmtTx stmt row =>
    rcases hdo : cfg.doInsert with - | -
    · have hexec : LibSeal.executeStmtTx cfg.toBuildConfig E.session false s.log stmt =
          .ok s.log := by
        rw [LibSeal.executeStmtTx, hdo]
        rfl
      rw [exec, hexec, hdo]
      exact ⟨hs, Or.inl ⟨rfl, rfl⟩⟩
    · rw [exec, executeStmtTx_session hdo E hs.1 hs.2, hdo]
      exact ⟨⟨hs.1, rfl⟩, Or.inr ⟨stmt, row, rfl, rfl, rfl⟩⟩
  | fetchAdd => exact ⟨hs, Or.inl ⟨rfl, rfl⟩⟩
  | compareExchange =>
    rw [exec]
    split_ifs
    · exact ⟨hs, Or.inl ⟨rfl, rfl⟩⟩
    · exact ⟨hs, Or.inl ⟨rfl, rfl⟩⟩
  | doAuditReturns => exact ⟨hs, Or.inl ⟨rfl, rfl⟩⟩
  | logpointLogReturns => exact ⟨hs, Or.inl ⟨rfl, rfl⟩⟩

/-- A statement is executed in a build with `SQLITE_DO_INSERT`. -/
theorem Instruction.exec_executeStmtTx (cfg : LogpointConfig) (hdo : cfg.doInsert = true)
    (P : Platform) (E : SqlEngine D S) {s : LogpointState A D} (hs : s.NoTransaction)
    (stmt : Bytes) (row : Option ℕ) :
    (Instruction.executeStmtTx stmt row).exec cfg P E s = ({ s with
      log := { s.log with db := ⟨(E.exec s.log.db.content (cStr stmt)).1, none⟩ }
      transactions := s.transactions ++ [(cStr stmt, s.log.db.content)] }, []) := by
  rw [exec, executeStmtTx_session hdo E hs.1 hs.2, hdo]
  rfl

/-- A row is chained if the mutex is free and the signature, where there is one, succeeds. -/
theorem Instruction.exec_insertStatement (cfg : LogpointConfig) (hdo : cfg.doInsert = true)
    (P : Platform) (E : SqlEngine D S) {s : LogpointState A D}
    (hmutex : s.log.lasthashMutex = false) (c : InsertCall A) (sign : Option Signature)
    (hsign : cfg.signs = true → sign.isSome = true) :
    ∃ stmt, cStr stmt = statementText cfg.toBuildConfig P s.log.lasthash c.name c.tuple ∧
      (Instruction.insertStatement c sign).exec cfg P E s = ({ s with
        log := { s.log with
          lasthash := newLasthash cfg.toBuildConfig P s.log.lasthash c.name c.tuple }
        chain := s.chain ++
          [(c, newLasthash cfg.toBuildConfig P s.log.lasthash c.name c.tuple)] },
        [.executeStmtTx stmt (some s.chain.length)]) := by
  rcases extendChain_cases cfg.toBuildConfig P sign hmutex c.name c.tuple with
    ⟨hsigns, rfl, -⟩ | ⟨-, stmt, htext, hext⟩
  · exact absurd (hsign hsigns) Bool.false_ne_true
  · refine ⟨stmt, htext, ?_⟩
    rw [exec, hdo, hext]
    rfl

/-- Some transactions lead from one content to another. -/
def Replays (E : SqlEngine D S) : D → List (Bytes × D) → D → Prop
  | d, [], e => d = e
  | d, (text, d') :: transactions, e => d' = d ∧ Replays E (E.exec d text).1 transactions e

theorem Replays.concat {E : SqlEngine D S} {d e : D} {transactions : List (Bytes × D)}
    (h : Replays E d transactions e) (text : Bytes) :
    Replays E d (transactions ++ [(text, e)]) (E.exec e text).1 := by
  induction transactions generalizing d with
  | nil =>
    cases h
    exact ⟨rfl, rfl⟩
  | cons r transactions ih => exact ⟨h.1, ih h.2⟩

/-- What comes after a transaction starts from what it found. -/
theorem Replays.of_append {E : SqlEngine D S} {d d' e : D} {pre post : List (Bytes × D)}
    {text : Bytes} (h : Replays E d (pre ++ (text, d') :: post) e) :
    Replays E d' ((text, d') :: post) e := by
  induction pre generalizing d with
  | nil =>
    obtain ⟨rfl, h⟩ := h
    exact ⟨rfl, h⟩
  | cons r pre ih => exact ih h.2

/-- The recorded transactions are those that led to the content. -/
def LogpointState.Recorded (E : SqlEngine D S) (d : D) (s : LogpointState A D) : Prop :=
  s.NoTransaction ∧ Replays E d s.transactions s.log.db.content

theorem LogpointState.Recorded.exec {E : SqlEngine D S} {d : D} {s : LogpointState A D}
    (h : s.Recorded E d) (i : Instruction A) (cfg : LogpointConfig) (P : Platform) :
    (i.exec cfg P E s).1.Recorded E d := by
  obtain ⟨hquiet, ⟨hcontent, htransactions⟩ | ⟨stmt, row, -, hcontent, htransactions⟩⟩ :=
    i.exec_content cfg P E h.1
  · refine ⟨hquiet, ?_⟩
    rw [hcontent, htransactions]
    exact h.2
  · refine ⟨hquiet, ?_⟩
    rw [hcontent, htransactions]
    exact h.2.concat _

/-! ### What comes next in a thread -/

/-- **An instruction is followed by nothing**, by itself, if its mutex is taken, by the transaction
of the row that it has chained, or by the audit. -/
theorem Instruction.exec_code (i : Instruction A) (cfg : LogpointConfig) (P : Platform)
    (E : SqlEngine D S) (s : LogpointState A D) :
    (i.exec cfg P E s).2 = [] ∨ (i.exec cfg P E s).2 = [i] ∨
      (∃ c sign stmt, i = .insertStatement c sign ∧
        cStr stmt = statementText cfg.toBuildConfig P s.log.lasthash c.name c.tuple ∧
        (i.exec cfg P E s).2 = [.executeStmtTx stmt (some s.chain.length)]) ∨
      i = .compareExchange ∧ (i.exec cfg P E s).2 = checkCode cfg := by
  cases i with
  | insertStatement c sign =>
    rw [exec]
    split_ifs
    · exact Or.inl rfl
    · rcases hmutex : s.log.lasthashMutex with - | -
      · rcases extendChain_cases cfg.toBuildConfig P sign hmutex c.name c.tuple with
          ⟨-, -, hext⟩ | ⟨-, stmt, htext, hext⟩
        · rw [hext]
          exact Or.inl rfl
        · rw [hext]
          exact Or.inr (Or.inr (Or.inl ⟨c, sign, stmt, rfl, htext, rfl⟩))
      · -- somebody else has the chain, and the instruction is tried again
        rw [extendChain, hmutex]
        exact Or.inr (Or.inl rfl)
  | executeStmtTx stmt row =>
    rw [exec]
    split
    · exact Or.inr (Or.inl rfl)
    · exact Or.inl rfl
  | fetchAdd => exact Or.inl rfl
  | compareExchange =>
    rw [exec]
    split_ifs
    · exact Or.inr (Or.inr (Or.inr ⟨rfl, rfl⟩))
    · exact Or.inl rfl
  | doAuditReturns => exact Or.inl rfl
  | logpointLogReturns => exact Or.inl rfl

/-! ### Inserts and statements -/

/-- The instructions that insert rows or execute statements. -/
def Instruction.IsStatement : Instruction A → Prop
  | .insertStatement .. | .executeStmtTx .. => True
  | _ => False

/-- They leave the counters alone, and only statements follow. -/
theorem Instruction.IsStatement.exec {i : Instruction A} (hi : i.IsStatement)
    (cfg : LogpointConfig) (P : Platform) (E : SqlEngine D S) (s : LogpointState A D) :
    ((i.exec cfg P E s).1.docheck = s.docheck ∧ (i.exec cfg P E s).1.audits = s.audits ∧
        (i.exec cfg P E s).1.completed = s.completed) ∧
      ∀ j ∈ (i.exec cfg P E s).2, j.IsStatement := by
  cases i with
  | insertStatement c sign =>
    rw [Instruction.exec]
    split_ifs
    · exact ⟨⟨rfl, rfl, rfl⟩, by simp⟩
    · split
      · exact ⟨⟨rfl, rfl, rfl⟩, by simp [IsStatement]⟩
      · exact ⟨⟨rfl, rfl, rfl⟩, by simp⟩
      · exact ⟨⟨rfl, rfl, rfl⟩, by simp [IsStatement]⟩
  | executeStmtTx stmt row =>
    rw [Instruction.exec]
    split
    · exact ⟨⟨rfl, rfl, rfl⟩, by simp [IsStatement]⟩
    · exact ⟨⟨rfl, rfl, rfl⟩, by simp⟩
  | fetchAdd => exact hi.elim
  | compareExchange => exact hi.elim
  | doAuditReturns => exact hi.elim
  | logpointLogReturns => exact hi.elim

end LibSeal
