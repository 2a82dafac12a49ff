import LibSeal.Data.SqlSchema
import LibSeal.Logpoint.ChainHead
import Mathlib.Algebra.Group.Nat.Defs

/-!
# Restarts

`lasthash` and the clock of an auditor live in memory, the rows in a file. `logpoint_init` opens the
file and executes what creates the tables; it reads nothing from it. In a file that has the tables
already every one of these statements is refused, the errors are printed, and the content stays as
it is (`logpointInit_of_ready`). So a lifetime of the process begins a chain and a clock of its own,
and leaves its rows in the tables of the lifetimes before it (`lifetime_begins_anew`): the rows that
it hashes are chained to the empty hash, its events carry the times 1, 2, 3 and so on, and a row is
refused if an earlier lifetime has stored one with its key (`not_continued_after_restart`).

A process may end after any step. What it still had to do is lost, and the file is what the last
transaction left.
-/

namespace LibSeal

open Bytes HashChain SqlText SqlDatabase

/-! ### The tables -/

/-- The columns of the Git tables, without and with the outcome. -/
def gitColumns : List Bytes := [ascii "time", ascii "repo", ascii "branch", ascii "cid"]

@[inherit_doc gitColumns]
def updatesColumns : List Bytes := gitColumns ++ [ascii "type", ascii "result"]

def gitKey : List Bytes := [ascii "time", ascii "repo", ascii "branch"]

def syncColumns : List Bytes :=
  [ascii "time", ascii "esid", ascii "sender", ascii "receiver", ascii "upd"]

def fileColumns : List Bytes :=
  [ascii "time", ascii "account", ascii "host_key", ascii "path", ascii "size", ascii "blocklist"]

def fileKey : List Bytes := [ascii "time", ascii "account", ascii "host_key", ascii "path"]

/-- The columns and the primary key of each table of `get_tables`. -/
def Auditor.schema : (A : Auditor) → Fin A.getTables.length → List Bytes × List Bytes
  | .git, ⟨0, _⟩ => (updatesColumns, gitKey)
  | .git, ⟨_ + 1, _⟩ => (gitColumns, gitKey)
  | .owncloud, _ => (syncColumns, [ascii "time"])
  | .dropbox, _ => (fileColumns, fileKey)

/-- Whether the key of its tables is one `INTEGER`. -/
def Auditor.integerKey : Auditor → Bool
  | .git | .dropbox => false
  | .owncloud => true

/-- The statements of `libseal_init_relations`. -/
def Auditor.initRelations : Auditor → List (SqlStatement SqlValue)
  | .git =>
    [.createTable (ascii "updates") updatesColumns gitKey false,
      .createTable (ascii "advertisements") gitColumns gitKey false,
      .createTable (ascii "branchmods") updatesColumns gitKey false,
      .createView (ascii "branchcnt2"), .createView (ascii "incomplete2")]
  | .owncloud =>
    [.createTable (ascii "sync") syncColumns [ascii "time"] true, .createView (ascii "sound")]
  | .dropbox =>
    [.createTable (ascii "list") fileColumns fileKey false,
      .createTable (ascii "commit_batch") fileColumns fileKey false]

def libsealHash : Bytes := ascii "libseal_hash"

def libsealSignatures : Bytes := ascii "libseal_signatures"

/-- `execute_stmt`: the statements of a text up to the first that is refused. Errors are only
printed. -/
def executeStmt (cfg : BuildConfig) (d : SqlDatabase SqlValue)
    (stmts : List (SqlStatement SqlValue)) : SqlDatabase SqlValue :=
  if cfg.doInsert then ((engine isSqlInteger fun _ ↦ []).run d stmts).1 else d

/-- The names of the tables as the statements have them. -/
def Auditor.tableName (A : Auditor) (i : Fin A.getTables.length) : Bytes :=
  (A.getTables.get i).bytes

/-- `logpoint_init`, as far as it concerns the content of the file; the pragmas set how the file is
written. -/
def logpointInit (cfg : BuildConfig) (A : Auditor) (d : SqlDatabase SqlValue) :
    SqlDatabase SqlValue :=
  let d := executeStmt cfg d A.initRelations
  let d :=
    if cfg.addHash then
      (List.finRange A.getTables.length).foldl
        (fun d i ↦ executeStmt cfg d [.addColumn (A.tableName i) libsealHash]) d
    else d
  if cfg.signs then
    executeStmt cfg d [.createTable libsealSignatures
      [ascii "hash", ascii "signature_x", ascii "signature_y"] [ascii "hash"] false]
  else d

/-- The file has the tables of the auditor, in the form that this build gives them. -/
structure TablesReady (cfg : BuildConfig) (A : Auditor) (d : SqlDatabase SqlValue) : Prop where
  tables : ∀ i, HasTable d (A.tableName i)
    ((A.schema i).1 ++ if cfg.addHash then [libsealHash] else []) (A.schema i).2 A.integerKey
  signatures : cfg.signs = true → (d.get? libsealSignatures).isSome = true

/-- A text whose first statement is refused has no effect. -/
theorem executeStmt_of_refused {cfg : BuildConfig} {d : SqlDatabase SqlValue}
    {stmt : SqlStatement SqlValue} (h : d.step isSqlInteger stmt = none)
    (stmts : List (SqlStatement SqlValue)) :
    executeStmt cfg d (stmt :: stmts) = d := by
  rw [executeStmt]
  split_ifs
  · have hstep : (engine isSqlInteger fun _ ↦ []).step d stmt = none := h
    rw [SqlEngine.run, hstep]
  · rfl

/-- The first statement of `libseal_init_relations` creates a table of `get_tables`. -/
theorem exists_initRelations (A : Auditor) :
    ∃ i columns key integerKey stmts,
      A.initRelations = .createTable (A.tableName i) columns key integerKey :: stmts := by
  cases A with
  | git => exact ⟨⟨0, by decide⟩, _, _, _, _, rfl⟩
  | owncloud => exact ⟨⟨0, by decide⟩, _, _, _, _, rfl⟩
  | dropbox => exact ⟨⟨0, by decide⟩, _, _, _, _, rfl⟩

/-- **`logpoint_init` changes nothing in a file that has the tables.** -/
theorem logpointInit_of_ready {cfg : BuildConfig} {A : Auditor} {d : SqlDatabase SqlValue}
    (h : TablesReady cfg A d) : logpointInit cfg A d = d := by
  have hrelations : executeStmt cfg d A.initRelations = d := by
    obtain ⟨i, columns, key, integerKey, stmts, heq⟩ := exists_initRelations A
    rw [heq]
    exact executeStmt_of_refused (step_createTable_of_isSome (h.tables i).isSome) stmts
  have hcolumns : (if cfg.addHash = true then
      (List.finRange A.getTables.length).foldl
        (fun d i ↦ executeStmt cfg d [.addColumn (A.tableName i) libsealHash]) d else d) = d := by
    split_ifs with hadd
    · refine List.foldl_fixed' (fun i ↦ ?_) _
      refine executeStmt_of_refused (step_addColumn_of_mem (h.tables i) ?_) []
      rw [if_pos hadd]
      exact List.mem_append_right _ (List.mem_singleton_self _)
    · rfl
  simp only [logpointInit, hrelations, hcolumns]
  split_ifs with hsigns
  · exact executeStmt_of_refused (step_createTable_of_isSome (h.signatures hsigns)) []
  · rfl

/-- In a new file it creates them. -/
theorem tablesReady_logpointInit {cfg : BuildConfig} (hdo : cfg.doInsert = true) (A : Auditor) :
    TablesReady cfg A (logpointInit cfg A .empty) := by
  obtain ⟨sgx, doInsert, addHash, doSign⟩ := cfg
  obtain rfl : doInsert = true := hdo
  constructor
  · intro i
    refine ⟨[], ?_⟩
    revert i
    rcases A with - | - | - <;> rcases sgx with - | - <;> rcases addHash with - | - <;>
      rcases doSign with - | - <;> decide +kernel
  · rcases A with - | - | - <;> rcases sgx with - | - <;> rcases addHash with - | - <;>
      rcases doSign with - | - <;> decide +kernel

/-! ### Lifetimes -/

/-- The auditor that logs a row. -/
def LoggedRow.auditor : LoggedRow → Auditor
  | .pushed .. | .advertised .. => .git
  | .added .. | .served .. => .owncloud
  | .listed .. | .committed .. => .dropbox

/-- The index of its table in `get_tables`. -/
def LoggedRow.tableIndex : (row : LoggedRow) → Fin row.auditor.getTables.length
  | .pushed .. => ⟨0, Nat.zero_lt_succ 1⟩
  | .advertised .. => ⟨1, Nat.lt_succ_self 1⟩
  | .added .. | .served .. => ⟨0, Nat.zero_lt_succ 0⟩
  | .listed .. => ⟨0, Nat.zero_lt_succ 1⟩
  | .committed .. => ⟨1, Nat.lt_succ_self 1⟩

/-- The time that is written for a row. -/
def LoggedRow.time : LoggedRow → ℤ
  | .pushed id .. | .advertised id .. => id
  | .added id .. | .served id .. => id
  | .listed counter .. | .committed counter .. => counter

/-- The row with another time. -/
def LoggedRow.withTime (time : ℤ) : LoggedRow → LoggedRow
  | .pushed _ repo branch cid type result => .pushed time repo branch cid type result
  | .advertised _ repo branch cid => .advertised time repo branch cid
  | .added _ esid memberid update => .added time.toNat esid memberid update
  | .served _ esid memberid update => .served time.toNat esid memberid update
  | .listed _ hostKey path size blocklist => .listed time hostKey path size blocklist
  | .committed _ hostKey path size blocklist => .committed time hostKey path size blocklist

/-- A row of an auditor. -/
abbrev AuditorRow (A : Auditor) := {row : LoggedRow // row.auditor = A}

variable {A : Auditor}

/-- The row as it is handed to `insert_statement`. -/
def AuditorRow.call (row : AuditorRow A) : InsertCall A :=
  ⟨row.2 ▸ row.1.tableIndex, .ofBuffer row.1.tuple⟩

theorem LoggedRow.auditor_withTime (time : ℤ) (row : LoggedRow) :
    (row.withTime time).auditor = row.auditor := by
  cases row <;> rfl

@[inherit_doc LoggedRow.withTime]
def AuditorRow.withTime (time : ℤ) (row : AuditorRow A) : AuditorRow A :=
  ⟨row.1.withTime time, (row.1.auditor_withTime time).trans row.2⟩

/-- A row that has been hashed: which event of the lifetime it belongs to, counted from 1, and its
hash. -/
structure HashedRow (A : Auditor) where
  event : ℕ
  row : AuditorRow A
  hash : HashText

/-- A process: the clock of its auditor, the last time drawn from it, the static variables of
`logpoint.c`, and two observations, the number of times drawn and the rows hashed. -/
structure AuditProcess (A : Auditor) where
  clock : ℕ
  time : ℤ
  log : LogState (SqlDatabase SqlValue)
  events : ℕ
  hashed : List (HashedRow A)

/-- What `logictime`, or `monotonic_counter`, is when the process starts. -/
def Auditor.initialClock : Auditor → ℕ
  | .git => 1
  | .owncloud => 1
  | .dropbox => 0

/-- The atomic addition to the clock, an `unsigned long long`, and the time that is written: what
the clock was, or in Dropbox what it is then. Git and Dropbox write it as an `int`. -/
def Auditor.drawTime (A : Auditor) (clock : ℕ) : ℤ × ℕ :=
  let next := (clock + 1) % 2 ^ 64
  match A with
  | .git => (toInt32 clock, next)
  | .owncloud => (clock, next)
  | .dropbox => (toInt32 next, next)

/-- The start of a process on a file. -/
def AuditProcess.start (cfg : BuildConfig) (A : Auditor) (file : SqlDatabase SqlValue) :
    AuditProcess A :=
  ⟨A.initialClock, 0, .init (logpointInit cfg A file), 0, []⟩

/-- The auditor draws the time of the next event. -/
def AuditProcess.draw (s : AuditProcess A) : AuditProcess A :=
  { s with
    time := (A.drawTime s.clock).1
    clock := (A.drawTime s.clock).2
    events := s.events + 1 }

/-- `SQLITE_MAX_SQL_LENGTH` -/
def maxSqlLength : ℕ := 1000000000

/-- The database. A text that is too long, or no `INSERT` of values into a table, is read in a way
that does not matter here. -/
def sqlite (others : Bytes → List (SqlStatement SqlValue)) :
    SqlEngine (SqlDatabase SqlValue) (SqlStatement SqlValue) :=
  engine isSqlInteger fun text ↦
    if maxSqlLength < text.length then others text
    else
      match readInsert text with
      | some (table, values) => [.insert table values]
      | none => others text

/-- **The runs of any number of lifetimes** on one file, with how the earlier ones ended. -/
inductive Lifetimes (cfg : BuildConfig) (P : Platform)
    (others : Bytes → List (SqlStatement SqlValue)) :
    List (AuditProcess A) → AuditProcess A → Prop where
  | first : Lifetimes cfg P others [] (.start cfg A .empty)
  | restart {earlier : List (AuditProcess A)} {s : AuditProcess A}
      (h : Lifetimes cfg P others earlier s) :
      Lifetimes cfg P others (earlier ++ [s]) (.start cfg A s.log.db.content)
  | draw {earlier : List (AuditProcess A)} {s : AuditProcess A}
      (h : Lifetimes cfg P others earlier s) : Lifetimes cfg P others earlier s.draw
  | insert {earlier : List (AuditProcess A)} {s : AuditProcess A} (row : AuditorRow A)
      (sign : Option Signature) {log : LogState (SqlDatabase SqlValue)}
      (h : Lifetimes cfg P others earlier s) (hevent : 0 < s.events)
      (hcall : insertCall cfg P (sqlite others).session false s.log (row.withTime s.time).call
        sign = .ok log) :
      Lifetimes cfg P others earlier { s with
        log
        hashed :=
          if cfg.doInsert then s.hashed ++ [⟨s.events, row.withTime s.time, log.lasthash⟩]
          else s.hashed }

/-! ### What an insert does -/

theorem AuditorRow.name_call (row : AuditorRow A) : row.call.name = row.1.table := by
  obtain ⟨row, rfl⟩ := row
  cases row <;> rfl

theorem AuditorRow.length_values (row : AuditorRow A) :
    row.1.values.length = (A.schema row.call.table).1.length := by
  obtain ⟨row, rfl⟩ := row
  cases row <;> rfl

/-- The values that are stored for a row: its own, and its hash. -/
def AuditorRow.storedValues (row : AuditorRow A) (hash : HashText) : List SqlValue :=
  row.1.values ++ [.text hash.bytes]

/-- The table behind the `INSERT` of a row. The row is refused if the table holds a row with its
key, and in ownCloud if its time is not an integer of 64 bits. -/
def AuditorRow.insertInto (row : AuditorRow A) (hash : HashText) (t : SqlTable SqlValue) :
    SqlTable SqlValue :=
  let values := (row.storedValues hash).map some
  { t with
    rows :=
      if t.HasKey values ∨ A = .owncloud ∧ 9223372036854775808 ≤ row.1.time then t.rows
      else t.rows ++ [values] }

/-- **The statement of a row is the `INSERT` of its values**: nothing in it needs escaping, and it
is not too long. -/
structure AuditorRow.Insertable (row : AuditorRow A) : Prop where
  safe : row.1.Safe
  length_le : row.1.table.bytes.length + row.1.tuple.length + 92 ≤ maxSqlLength

variable {cfg : BuildConfig} {P : Platform} {others : Bytes → List (SqlStatement SqlValue)}

theorem AuditorRow.Insertable.contentAfter (hadd : cfg.addHash = true)
    (st : LogState (SqlDatabase SqlValue)) {row : AuditorRow A} (h : row.Insertable) :
    contentAfter cfg P (sqlite others) st row.call =
      (st.db.content.step isSqlInteger (.insert row.1.table.bytes
        (row.storedValues (nextHash P st.lasthash row.call.name row.call.tuple)))).getD
          st.db.content := by
  have hread := (readsAsIntended_iff_readInsert cfg P st.lasthash row.1).1
    ((readsAsIntended_iff_safe cfg P st.lasthash row.1).2 h.safe)
  have htuple : row.call.tuple = .ofBuffer row.1.tuple := rfl
  rw [List.map_append, row.1.map_value_cells, hashCells, if_pos hadd, ← row.name_call,
    ← htuple] at hread
  have hlen : ¬ maxSqlLength <
      (statementText cfg P st.lasthash row.call.name row.call.tuple).length := by
    have hle := h.length_le
    have htake : row.call.tuple.bytes.length ≤ row.1.tuple.length :=
      (List.takeWhile_prefix _).length_le
    rw [statementText, if_pos hadd, length_insertWithHash, nextHash, length_sha256, row.name_call]
    omega
  have hstatements : (sqlite others).statements
      (statementText cfg P st.lasthash row.call.name row.call.tuple) =
      [.insert row.call.name.bytes
        (row.storedValues (nextHash P st.lasthash row.call.name row.call.tuple))] := by
    show (if _ then _ else match readInsert _ with
      | some (table, values) => [SqlStatement.insert table values]
      | none => others _) = _
    rw [if_neg hlen, hread]
    rfl
  rw [LibSeal.contentAfter, SqlEngine.exec, hstatements, SqlEngine.run_singleton, row.name_call]
  rfl

/-- Only in ownCloud the key has to be an integer, and there it is the time. -/
theorem AuditorRow.takesKey_iff (row : AuditorRow A) (hash : HashText)
    (rows : List (List (Option SqlValue))) (columns : List Bytes) :
    SqlTable.TakesKey isSqlInteger
        ⟨(A.schema row.call.table).1 ++ columns, (A.schema row.call.table).2, A.integerKey, rows⟩
        ((row.storedValues hash).map some) ↔
      ¬ (A = .owncloud ∧ 9223372036854775808 ≤ row.1.time) := by
  have hsync : ∀ n : ℕ, isSqlInteger (.number (ofNat n)) = true ↔
      ¬ (9223372036854775808 ≤ (n : ℤ)) := by
    intro n
    rw [show ofNat n = ofInt n from rfl, isSqlInteger_ofInt, FitsInt64]
    omega
  obtain ⟨row, rfl⟩ := row
  cases row with
  | pushed | advertised | listed | committed =>
    exact iff_of_true (fun h ↦ nomatch h) fun h ↦ nomatch h.1
  | added id | served id =>
    refine SqlTable.takesKey_cons_iff.trans ?_
    rw [hsync]
    exact not_congr (and_iff_right rfl).symm

theorem AuditorRow.afterInsert_eq (row : AuditorRow A) (hash : HashText)
    (rows : List (List (Option SqlValue))) (columns : List Bytes) :
    SqlTable.afterInsert isSqlInteger
        ⟨(A.schema row.call.table).1 ++ columns, (A.schema row.call.table).2, A.integerKey, rows⟩
        (row.storedValues hash) =
      row.insertInto hash
        ⟨(A.schema row.call.table).1 ++ columns, (A.schema row.call.table).2, A.integerKey, rows⟩ :=
  congrArg (SqlTable.mk _ _ _)
    (if_congr (by rw [row.takesKey_iff, not_not, or_comm]) rfl rfl)

/-- **An insert is refused exactly when its key is stored or cannot be stored**, if the file has the
tables. -/
theorem AuditorRow.Insertable.get?_contentAfter (hadd : cfg.addHash = true)
    {st : LogState (SqlDatabase SqlValue)} (hready : TablesReady cfg A st.db.content)
    {row : AuditorRow A} (h : row.Insertable) :
    TablesReady cfg A (LibSeal.contentAfter cfg P (sqlite others) st row.call) ∧
      ∃ t, st.db.content.get? row.1.table.bytes = some (.table t) ∧
        ∀ name, (LibSeal.contentAfter cfg P (sqlite others) st row.call).get? name =
          if row.1.table.bytes = name then
            some (.table
              (row.insertInto (nextHash P st.lasthash row.call.name row.call.tuple) t))
          else st.db.content.get? name := by
  have hname : A.tableName row.call.table = row.1.table.bytes :=
    congrArg CString.bytes row.name_call
  obtain ⟨rows, hget⟩ := hready.tables row.call.table
  rw [hname] at hget
  set hash := nextHash P st.lasthash row.call.name row.call.tuple with hhash
  have hlen : (row.storedValues hash).length =
      ((A.schema row.call.table).1 ++ if cfg.addHash then [libsealHash] else []).length := by
    rw [AuditorRow.storedValues, if_pos hadd, List.length_append, List.length_append,
      row.length_values]
    rfl
  rw [h.contentAfter hadd st, ← hhash]
  refine ⟨⟨fun i ↦ (hready.tables i).insert hget hlen, fun hsigns ↦ ?_⟩, _, hget, ?_⟩
  · rw [get?_insert hget hlen]
    split_ifs
    · rfl
    · exact hready.signatures hsigns
  · rw [← row.afterInsert_eq]
    exact get?_insert hget hlen

/-- A call that returns has found the mutex free. -/
theorem lasthashMutex_of_insertCall {D S : Type} {B : SqlSession D S} {refused : Bool}
    (hdo : cfg.doInsert = true) {st st' : LogState D} {c : InsertCall A} {sign : Option Signature}
    (h : insertCall cfg P B refused st c sign = .ok st') : st.lasthashMutex = false := by
  have hname : A.getTables[c.table.val]? = some c.name := List.getElem?_eq_getElem c.table.isLt
  rw [insertCall, insertStatement, hdo, hname] at h
  obtain ⟨⟨stmt, st''⟩, hext, -⟩ := CFault.bind_eq_ok.1 h
  rcases hmutex : st.lasthashMutex with - | -
  · rfl
  · rw [extendChain, hmutex] at hext
    cases hext

/-! ### The invariant of a lifetime -/

/-- The time of the `n`-th event of a lifetime. -/
def Auditor.timeOf (A : Auditor) (n : ℕ) : ℤ :=
  match A with
  | .git | .dropbox => toInt32 n
  | .owncloud => (n % 2 ^ 64 : ℕ)

theorem Auditor.drawTime_eq (A : Auditor) (n : ℕ) :
    A.drawTime ((A.initialClock + n) % 2 ^ 64) =
      (A.timeOf (n + 1), (A.initialClock + (n + 1)) % 2 ^ 64) := by
  have hint32 : ∀ m : ℕ, toInt32 (m % 2 ^ 64 : ℕ) = toInt32 m := by
    intro m
    rw [toInt32_eq_iff]
    omega
  have hnext : ∀ k : ℕ, ((k + n) % 2 ^ 64 + 1) % 2 ^ 64 = (k + (n + 1)) % 2 ^ 64 := by
    intro k
    omega
  cases A with
  | git =>
    simp only [drawTime, initialClock, timeOf, hnext, hint32]
    rw [Nat.add_comm]
  | owncloud =>
    simp only [drawTime, initialClock, timeOf, hnext]
    rw [Nat.add_comm]
  | dropbox =>
    simp only [drawTime, initialClock, timeOf, hnext, hint32]
    rw [Nat.zero_add]

/-- A row is written with the time it is given; in ownCloud a time is not negative. -/
theorem LoggedRow.time_withTime (row : LoggedRow) {time : ℤ}
    (h : row.auditor = .owncloud → 0 ≤ time) : (row.withTime time).time = time := by
  cases row with
  | pushed | advertised | listed | committed => rfl
  | added | served => exact Int.toNat_of_nonneg (h rfl)

theorem AuditorRow.time_withTime (row : AuditorRow A) (n : ℕ) :
    (row.withTime (A.timeOf n)).1.time = A.timeOf n := by
  refine row.1.time_withTime fun h ↦ ?_
  obtain rfl : A = .owncloud := row.2.symm.trans h
  exact Int.natCast_nonneg _

/-- The statements of all rows hashed in these lifetimes are their `INSERT`s. -/
def AllInsertable (processes : List (AuditProcess A)) : Prop :=
  ∀ p ∈ processes, ∀ r ∈ p.hashed, r.row.Insertable

/-- The rows a process has hashed, as a chain. -/
def AuditProcess.chain (s : AuditProcess A) : List (InsertCall A × HashText) :=
  s.hashed.map fun r ↦ (r.row.call, r.hash)

/-- What holds in a lifetime, whatever the file is. -/
structure LifetimeInvariant (P : Platform) (s : AuditProcess A) : Prop where
  sqliteMutex : s.log.sqliteMutex = false
  saved : s.log.db.saved = none
  linked : Linked (sha256 P) chainText HashText.empty s.chain s.log.lasthash
  clock : s.clock = (A.initialClock + s.events) % 2 ^ 64
  time : 0 < s.events → s.time = A.timeOf s.events
  hashed : ∀ r ∈ s.hashed, (0 < r.event ∧ r.event ≤ s.events) ∧ r.row.1.time = A.timeOf r.event
  ordered : s.hashed.Pairwise fun r r' ↦ r.event ≤ r'.event

theorem LifetimeInvariant.start (P : Platform) (cfg : BuildConfig) (A : Auditor)
    (file : SqlDatabase SqlValue) : LifetimeInvariant P (.start cfg A file) where
  sqliteMutex := rfl
  saved := rfl
  linked := rfl
  clock := by cases A <;> rfl
  time h := absurd h (lt_irrefl 0)
  hashed := List.forall_mem_nil _
  ordered := List.Pairwise.nil

theorem LifetimeInvariant.draw {s : AuditProcess A} (h : LifetimeInvariant P s) :
    LifetimeInvariant P s.draw where
  sqliteMutex := h.sqliteMutex
  saved := h.saved
  linked := h.linked
  clock := by
    show (A.drawTime s.clock).2 = _
    rw [h.clock, A.drawTime_eq]
    rfl
  time _ := by
    show (A.drawTime s.clock).1 = _
    rw [h.clock, A.drawTime_eq]
    rfl
  hashed r hr := ⟨⟨(h.hashed r hr).1.1, (h.hashed r hr).1.2.trans (Nat.le_succ _)⟩,
    (h.hashed r hr).2⟩
  ordered := h.ordered

/-- **A row is hashed**: it extends the chain, and has the time of the last event. -/
theorem LifetimeInvariant.insert (hadd : cfg.addHash = true)
    {s : AuditProcess A} (h : LifetimeInvariant P s) (hevent : 0 < s.events) (row : AuditorRow A)
    {log : LogState (SqlDatabase SqlValue)} (hmutex : log.sqliteMutex = false)
    (hsaved : log.db.saved = none)
    (hhash : log.lasthash = newLasthash cfg P s.log.lasthash (row.withTime s.time).call.name
      (row.withTime s.time).call.tuple) :
    LifetimeInvariant P { s with
      log, hashed := s.hashed ++ [⟨s.events, row.withTime s.time, log.lasthash⟩] } where
  sqliteMutex := hmutex
  saved := hsaved
  linked := by
    rw [newLasthash, if_pos hadd] at hhash
    show Linked _ _ _ ((s.hashed ++ [_]).map _) log.lasthash
    rw [List.map_append, hhash]
    exact Linked.concat _ _ h.linked (row.withTime s.time).call
  clock := h.clock
  time := h.time
  hashed := by
    refine List.forall_mem_append.2 ⟨h.hashed, List.forall_mem_singleton.2 ⟨⟨hevent, le_rfl⟩, ?_⟩⟩
    rw [h.time hevent]
    exact row.time_withTime s.events
  ordered := by
    refine List.pairwise_append.2 ⟨h.ordered, List.pairwise_singleton _ _, fun r hr r' hr' ↦ ?_⟩
    rw [List.mem_singleton.1 hr']
    exact (h.hashed r hr).1.2

/-! ### Runs -/

/-- What holds of a run of lifetimes. -/
structure LifetimesInvariant (cfg : BuildConfig) (P : Platform) (earlier : List (AuditProcess A))
    (s : AuditProcess A) : Prop where
  lifetime : LifetimeInvariant P s
  /-- The file keeps its tables as long as the statement of every row is its `INSERT`. -/
  ready : cfg.doInsert = true → AllInsertable (earlier ++ [s]) → TablesReady cfg A s.log.db.content

/-- **An insert** keeps the invariant. -/
theorem LifetimesInvariant.insert (hadd : cfg.addHash = true) (hdo : cfg.doInsert = true)
    {earlier : List (AuditProcess A)} {s : AuditProcess A}
    (h : LifetimesInvariant cfg P earlier s) (hevent : 0 < s.events) {row : AuditorRow A}
    {sign : Option Signature} {log : LogState (SqlDatabase SqlValue)}
    (hcall : insertCall cfg P (sqlite others).session false s.log (row.withTime s.time).call
      sign = .ok log) :
    LifetimesInvariant cfg P earlier { s with
      log, hashed := s.hashed ++ [⟨s.events, row.withTime s.time, log.lasthash⟩] } := by
  have hbetween : BetweenCalls s.log :=
    ⟨lasthashMutex_of_insertCall hdo hcall, h.lifetime.sqliteMutex, h.lifetime.saved⟩
  -- the other rows of this lifetime are among those it will have hashed
  have hsafe : ∀ {r : HashedRow A} {log : LogState (SqlDatabase SqlValue)},
      AllInsertable (earlier ++ [{ s with log, hashed := s.hashed ++ [r] }]) →
        AllInsertable (earlier ++ [s]) ∧ r.row.Insertable := by
    intro r log hall
    have hlast := hall _ (List.mem_append_right _ (List.mem_singleton_self _))
    obtain ⟨hs, hr⟩ := List.forall_mem_append.1 hlast
    refine ⟨List.forall_mem_append.2 ⟨fun p hp ↦ hall p (List.mem_append_left _ hp),
      List.forall_mem_singleton.2 hs⟩, hr r (List.mem_singleton_self r)⟩
  rcases insertCall_session_cases (E := sqlite others) hdo hbetween (row.withTime s.time).call sign
    with ⟨-, -, heq⟩ | ⟨-, heq⟩
  · -- the signature fails: the row is hashed and not stored
    cases hcall.symm.trans heq
    exact ⟨h.lifetime.insert hadd hevent row hbetween.sqliteMutex hbetween.saved rfl,
      fun hdo hall ↦ h.ready hdo (hsafe hall).1⟩
  · cases hcall.symm.trans heq
    refine ⟨h.lifetime.insert hadd hevent row hbetween.sqliteMutex rfl rfl, fun hdo hall ↦ ?_⟩
    exact ((hsafe hall).2.get?_contentAfter hadd (h.ready hdo (hsafe hall).1)).1

theorem lifetimesInvariant_of_run (hadd : cfg.addHash = true) {earlier : List (AuditProcess A)}
    {s : AuditProcess A} (h : Lifetimes cfg P others earlier s) :
    LifetimesInvariant cfg P earlier s := by
  induction h with
  | first =>
    exact ⟨.start P cfg A _, fun hdo _ ↦ tablesReady_logpointInit hdo A⟩
  | restart _ ih =>
    refine ⟨.start P cfg A _, fun hdo hall ↦ ?_⟩
    have hready := ih.ready hdo fun p hp ↦ hall p (List.mem_append_left _ hp)
    show TablesReady cfg A (logpointInit cfg A _)
    rwa [logpointInit_of_ready hready]
  | @draw earlier s _ ih =>
    refine ⟨ih.lifetime.draw, fun hdo hall ↦ ih.ready hdo ?_⟩
    obtain ⟨hearlier, hs⟩ := List.forall_mem_append.1 hall
    have hhashed : ∀ r ∈ s.hashed, r.row.Insertable := hs s.draw (List.mem_singleton_self _)
    exact List.forall_mem_append.2 ⟨hearlier, List.forall_mem_singleton.2 hhashed⟩
  | insert row sign _ hevent hcall ih =>
    rcases hdo : cfg.doInsert with - | -
    · rw [insertCall_of_not_doInsert hdo] at hcall
      cases hcall
      exact ih
    · exact ih.insert hadd hdo hevent hcall

/-- **A restart begins the log anew in the same tables.** In every state that any number of
lifetimes on one file reach, the rows hashed in the lifetime at hand are one chain from the empty
hash, and their times are those of its own events, in order. If the statement of every row is its
`INSERT`, another `logpoint_init` leaves the file as it is, and a further row is stored unless its
table holds a row with its key, whichever lifetime stored it, or its time is no integer of 64
bits. -/
theorem lifetime_begins_anew (hadd : cfg.addHash = true) {earlier : List (AuditProcess A)}
    {s : AuditProcess A} (h : Lifetimes cfg P others earlier s) :
    Linked (sha256 P) chainText HashText.empty s.chain s.log.lasthash ∧
      (s.hashed.Pairwise fun r r' ↦ r.event ≤ r'.event) ∧
      (∀ r ∈ s.hashed, (0 < r.event ∧ r.event ≤ s.events) ∧ r.row.1.time = A.timeOf r.event) ∧
      (cfg.doInsert = true → AllInsertable (earlier ++ [s]) →
        logpointInit cfg A s.log.db.content = s.log.db.content ∧
        ∀ (row : AuditorRow A) (sign : Option Signature) (log : LogState (SqlDatabase SqlValue)),
          row.1.time = s.time → row.Insertable → (cfg.signs = true → sign.isSome = true) →
          insertCall cfg P (sqlite others).session false s.log row.call sign = .ok log →
          ∃ t, s.log.db.content.get? row.1.table.bytes = some (.table t) ∧
            ∀ name, log.db.content.get? name =
              if row.1.table.bytes = name then some (.table (row.insertInto log.lasthash t))
              else s.log.db.content.get? name) := by
  have hinv := lifetimesInvariant_of_run hadd h
  refine ⟨hinv.lifetime.linked, hinv.lifetime.ordered, hinv.lifetime.hashed,
    fun hdo hall ↦ ⟨logpointInit_of_ready (hinv.ready hdo hall), ?_⟩⟩
  intro row sign log _ hrow hsign hcall
  have hbetween : BetweenCalls s.log :=
    ⟨lasthashMutex_of_insertCall hdo hcall, hinv.lifetime.sqliteMutex, hinv.lifetime.saved⟩
  -- the row carries the hash that the call has just chained
  have hnew : newLasthash cfg P s.log.lasthash row.call.name row.call.tuple =
      nextHash P s.log.lasthash row.call.name row.call.tuple := if_pos hadd
  rcases insertCall_session_cases (E := sqlite others) hdo hbetween row.call sign with
    ⟨hsigns, rfl, -⟩ | ⟨-, heq⟩
  · exact absurd (hsign hsigns) (by decide)
  · rw [hnew] at heq
    cases hcall.symm.trans heq
    exact (hrow.get?_contentAfter hadd (hinv.ready hdo hall)).2

/-! ### A concrete restart -/

/-- A push to a branch, and a later one. -/
def firstPush : AuditorRow .git :=
  ⟨.pushed 0 (ascii "r") (ascii "b") (ascii "01") .create 1, rfl⟩

@[inherit_doc firstPush]
def secondPush : AuditorRow .git :=
  ⟨.pushed 0 (ascii "r") (ascii "b") (ascii "23") .update 1, rfl⟩

/-- A platform whose digest answers with the SHA-256 values of three strings: the two pushes, and
the second chained to the first. -/
def twoPushPlatform : Platform where
  digest m :=
    if m = ascii "updates1,\"r\",\"b\",\"01\",\"c\",1" then
      #v[75, 250, 150, 148, 127, 213, 122, 217, 211, 118, 6, 129, 138, 193, 56, 213,
        200, 134, 176, 23, 143, 45, 201, 50, 207, 5, 13, 70, 202, 90, 158, 87]
    else if m = ascii "updates1,\"r\",\"b\",\"23\",\"u\",1" then
      #v[2, 247, 9, 132, 36, 180, 76, 110, 245, 251, 192, 58, 175, 135, 214, 32,
        118, 194, 214, 26, 148, 231, 203, 91, 157, 24, 233, 140, 215, 154, 231, 29]
    else
      #v[49, 48, 94, 64, 57, 89, 255, 94, 55, 210, 191, 12, 112, 134, 231, 63,
        142, 40, 121, 163, 74, 63, 170, 116, 232, 126, 12, 103, 255, 0, 10, 192]
  unwritten n := List.replicate n 0
  length_unwritten := length_zeros

/-- The build that hashes the rows and does not sign them. -/
def hashBuild : BuildConfig := ⟨true, true, true, false⟩

/-- The state after the first push of a process has been logged. -/
def logFirst (s : AuditProcess .git) (row : AuditorRow .git) : AuditProcess .git :=
  let row := row.withTime s.draw.time
  let hash := nextHash twoPushPlatform HashText.empty row.call.name row.call.tuple
  { s.draw with
    log := ⟨hash, false, false,
      ⟨contentAfter hashBuild twoPushPlatform (sqlite fun _ ↦ []) s.log row.call, none⟩⟩
    hashed := [⟨1, row, hash⟩] }

/-- A process logs its first push. -/
theorem Lifetimes.logFirst {earlier : List (AuditProcess .git)} {file : SqlDatabase SqlValue}
    (h : Lifetimes hashBuild twoPushPlatform (fun _ ↦ []) earlier (.start hashBuild .git file))
    (row : AuditorRow .git) :
    Lifetimes hashBuild twoPushPlatform (fun _ ↦ []) earlier
      (LibSeal.logFirst (.start hashBuild .git file) row) := by
  have hbetween : BetweenCalls (AuditProcess.start hashBuild .git file).draw.log := ⟨rfl, rfl, rfl⟩
  have hdo : hashBuild.doInsert = true := rfl
  rcases insertCall_session_cases (P := twoPushPlatform) (E := sqlite fun _ ↦ []) hdo hbetween
    (row.withTime (AuditProcess.start hashBuild .git file).draw.time).call none
    with ⟨hsigns, -⟩ | ⟨-, hcall⟩
  · exact absurd hsigns (by decide)
  · exact h.draw.insert row none Nat.zero_lt_one hcall

/-- The first lifetime logs a push. -/
def firstLifetime : AuditProcess .git := logFirst (.start hashBuild .git .empty) firstPush

/-- The second logs a later push to the same branch. -/
def secondLifetime : AuditProcess .git :=
  logFirst (.start hashBuild .git firstLifetime.log.db.content) secondPush

/-- The second push is chained to the empty hash, carries the time of the first, and is refused. -/
theorem not_continued_after_restart :
    Lifetimes hashBuild twoPushPlatform (fun _ ↦ []) [firstLifetime] secondLifetime ∧
      ∃ r r', firstLifetime.hashed = [r] ∧ secondLifetime.hashed = [r'] ∧
        r'.hash ≠ nextHash twoPushPlatform r.hash r'.row.call.name r'.row.call.tuple ∧
        ¬ r.row.1.time < r'.row.1.time ∧
        secondLifetime.log.db.content = firstLifetime.log.db.content := by
  refine ⟨(Lifetimes.first.logFirst firstPush).restart.logFirst secondPush,
    _, _, rfl, rfl, by decide +kernel, by decide +kernel, OrderedMap.ext ?_⟩
  decide +kernel

/-- Between the two, the file is as the first lifetime has left it. -/
theorem logpointInit_after_firstLifetime :
    logpointInit hashBuild .git firstLifetime.log.db.content = firstLifetime.log.db.content := by
  have hrow :
      (firstPush.withTime (AuditProcess.start hashBuild .git .empty).draw.time).Insertable :=
    ⟨⟨⟨by decide, by decide⟩, ⟨by decide, by decide⟩, by decide, by decide⟩, by decide +kernel⟩
  have hall : AllInsertable ([] ++ [firstLifetime]) :=
    List.forall_mem_singleton.2 (List.forall_mem_singleton.2 hrow)
  exact ((lifetime_begins_anew rfl (Lifetimes.first.logFirst firstPush)).2.2.2 rfl hall).1

end LibSeal
