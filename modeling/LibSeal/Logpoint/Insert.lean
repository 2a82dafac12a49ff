import LibSeal.Data.Memory
import LibSeal.Data.SqlConnection

/-!
# Inserting a row into the log

The insertion path of `logpoint/logpoint.c`: `createInsertStatement` formats the `INSERT` of a row
and advances the hash chain, `insertStatement` signs the new head and hands the statement to
`executeStmtTx`.

## What is a parameter

What comes from outside the file is supplied as data: the SHA-256 digest and the contents of freshly
allocated memory (`Platform`), the outcome of `sgx_ecdsa_sign` and whether SQLite refuses to end the
transaction (arguments of every call), and what a statement makes of the connection (`SqlSession`).
Nothing is assumed about them here. Where the statements leave the transaction alone, the session is
the one of an engine (`executeStmtTx_session`).

## What is state

`lasthash` and the two mutexes are the static variables of the file. `lasthash` is a `HashText`, a C
string that fits its 65-byte buffer, so that no later proof has to re-establish its length. A mutex
is a flag; taking one that is held is the fault `blocked`, because in a sequential run nobody is
left to release it.

Output through `my_fprintf` is not modelled. The rounds of the monotonic counter service, between
the two critical sections, are compiled in by another macro and change none of this state; they have
a module of their own.
-/

namespace LibSeal

open Bytes

/-- The compile-time switches that the insertion path reads. -/
structure BuildConfig where
  /-- `COMPILE_WITH_INTEL_SGX` -/
  sgx : Bool
  /-- `SQLITE_DO_INSERT` -/
  doInsert : Bool
  /-- `SQLITE_ADD_HASH` -/
  addHash : Bool
  /-- `SQLITE_DO_SIGN` -/
  doSign : Bool

/-- Rows are signed when all three switches are on. -/
def BuildConfig.signs (cfg : BuildConfig) : Bool := cfg.sgx && cfg.doSign && cfg.addHash

/-- What the platform supplies to the insertion path. -/
structure Platform where
  /-- The SHA-256 digest of a byte string. -/
  digest : Bytes → Vector UInt8 32
  /-- The bytes of a freshly allocated block of a given size. -/
  unwritten : ℕ → Bytes
  length_unwritten : ∀ n, (unwritten n).length = n

theorem length_zeros (n : ℕ) : (List.replicate n (0 : UInt8)).length = n := List.length_replicate

/-- The contents of `char lasthash[65]`: a C string of at most 64 characters. -/
structure HashText extends CString where
  length_le : bytes.length ≤ 64
  deriving DecidableEq

namespace HashText

/-- The C string at the start of the 65-byte buffer. -/
def ofBuffer (s : Bytes) : HashText :=
  ⟨CString.ofBuffer (s.take 64),
    ((List.takeWhile_prefix _).length_le).trans (List.length_take_le 64 s)⟩

/-- The initial value of `lasthash`. -/
def empty : HashText := ⟨⟨[], List.not_mem_nil⟩, Nat.zero_le _⟩

@[ext]
theorem ext {s t : HashText} (h : s.bytes = t.bytes) : s = t := by
  obtain ⟨⟨_, _⟩, _⟩ := s
  obtain ⟨⟨_, _⟩, _⟩ := t
  cases h
  rfl

end HashText

theorem zero_notMem_hex (s : Bytes) : 0 ∉ hex s := notMem_hex (by decide)

/-- `sha256`: the digest of a C string in lower-case hexadecimal digits. -/
def sha256 (P : Platform) (string : Bytes) : HashText where
  bytes := hex (P.digest (cStr string)).toList
  zero_notMem := zero_notMem_hex _
  length_le := by rw [length_hex, Vector.length_toList]

theorem length_sha256 (P : Platform) (string : Bytes) :
    (sha256 P string).bytes.length = 64 := by
  rw [sha256, length_hex, Vector.length_toList]

/-! ### The statement -/

/-- `"INSERT INTO `"` -/
def insertInto : Bytes := ascii "INSERT INTO `"

/-- `"` VALUES "` -/
def values : Bytes := ascii "` VALUES "

/-- `INSERT INTO `%s` VALUES (%s,"%s");` -/
def insertWithHash (table tuple newhash : Bytes) : Bytes :=
  insertInto ++ table ++ values ++ ascii "(" ++ tuple ++ ascii ",\"" ++ newhash ++ ascii "\");"

/-- `INSERT INTO `%s` VALUES (%s);` -/
def insertWithoutHash (table tuple : Bytes) : Bytes :=
  insertInto ++ table ++ values ++ ascii "(" ++ tuple ++ ascii ");"

@[simp] theorem length_insertInto : insertInto.length = 13 := by decide

@[simp] theorem length_values : values.length = 9 := by decide

theorem length_insertWithHash (table tuple newhash : Bytes) :
    (insertWithHash table tuple newhash).length =
      table.length + tuple.length + newhash.length + 28 := by
  have h1 : (ascii "(").length = 1 := by decide
  have h2 : (ascii ",\"").length = 2 := by decide
  have h3 : (ascii "\");").length = 3 := by decide
  simp only [insertWithHash, List.length_append, length_insertInto, length_values, h1, h2, h3]
  omega

theorem length_insertWithoutHash (table tuple : Bytes) :
    (insertWithoutHash table tuple).length = table.length + tuple.length + 25 := by
  have h1 : (ascii "(").length = 1 := by decide
  have h2 : (ascii ");").length = 2 := by decide
  simp only [insertWithoutHash, List.length_append, length_insertInto, length_values, h1, h2]
  omega

/-- The size `create_insert_statement` allocates. -/
def stmtlen (cfg : BuildConfig) (table tuple : Bytes) : ℕ :=
  insertInto.length + table.length + values.length + tuple.length + 4 +
    (if cfg.signs then 244 else 0) + (if cfg.addHash then 67 else 0)

/-- The text that is hashed for a row:
`snprintf(hashthis, .., "%s%s%s", lasthash, table, tuple)`. -/
def hashthis (lasthash : HashText) (table tuple : CString) : Bytes :=
  Memory.snprintf (65 + table.bytes.length + tuple.bytes.length)
    (lasthash.bytes ++ table.bytes ++ tuple.bytes)

/-- `create_insert_statement`: the allocated block with the statement in it, and the new value of
`lasthash`. -/
def createInsertStatement (cfg : BuildConfig) (P : Platform) (lasthash : HashText)
    (table tuple : CString) : Except CFault (Bytes × HashText) :=
  let stmtlen := stmtlen cfg table.bytes tuple.bytes
  let stmt := P.unwritten stmtlen
  if cfg.addHash then
    let newhash := sha256 P (hashthis lasthash table tuple)
    (Memory.memcpy stmt 0
      (Memory.snprintf stmtlen (insertWithHash table.bytes tuple.bytes newhash.bytes))).map
        (·, newhash)
  else
    (Memory.memcpy stmt 0
      (Memory.snprintf stmtlen (insertWithoutHash table.bytes tuple.bytes))).map (·, lasthash)

/-! ### The signature -/

/-- An ECDSA signature: the eight words of each coordinate. -/
structure Signature where
  x : Vector UInt32 8
  y : Vector UInt32 8

/-- The `%x` conversion. -/
def hexWord (w : UInt32) : Bytes := (Nat.toDigits 16 w.toNat).map Char.toUInt8

/-- `INSERT INTO `libseal_signatures` VALUES("%s","%x%x%x%x%x%x%x%x","%x%x%x%x%x%x%x%x");` -/
def insertSignature (lasthash : Bytes) (sig : Signature) : Bytes :=
  ascii "INSERT INTO `libseal_signatures` VALUES(\"" ++ lasthash ++ ascii "\",\"" ++
    sig.x.toList.flatMap hexWord ++ ascii "\",\"" ++ sig.y.toList.flatMap hexWord ++ ascii "\");"

/-! ### The state and the two critical sections -/

variable {D S : Type}

/-- The static variables of the file. -/
structure LogState (D : Type) where
  lasthash : HashText
  /-- Whether `lasthash_mutex` is held. -/
  lasthashMutex : Bool
  /-- Whether `sqlite_mutex` is held. -/
  sqliteMutex : Bool
  db : SqlConnection D

/-- The state before the first call. -/
def LogState.init (d : D) : LogState D := ⟨HashText.empty, false, false, ⟨d, none⟩⟩

/-- `execute_stmt_tx`: one transaction around the statement text. An error of any of the three
texts is only printed; `refused` is the answer of SQLite to `end transaction;` while the transaction
is open. -/
def executeStmtTx (cfg : BuildConfig) (B : SqlSession D S) (refused : Bool) (st : LogState D)
    (stmt : Bytes) : Except CFault (LogState D) :=
  if !cfg.doInsert then .ok st
  else if st.sqliteMutex then .error .blocked
  else
    let st := { st with sqliteMutex := true }
    let db := st.db.begin.1
    let db := (B.exec db (cStr stmt)).1
    let db := (db.endTransaction refused).1
    .ok { st with db := db, sqliteMutex := false }

/-- The section of `insert_statement` under `lasthash_mutex`. It yields the block with the
statement, or `none` where the source returns early: when signing fails, and then the mutex stays
held. -/
def extendChain (cfg : BuildConfig) (P : Platform) (sign : Option Signature) (st : LogState D)
    (table tuple : CString) : Except CFault (Option Bytes × LogState D) := do
  if st.lasthashMutex then throw .blocked
  let (stmt, lasthash) ← createInsertStatement cfg P st.lasthash table tuple
  let st := { st with lasthash := lasthash }
  if cfg.signs && !lasthash.bytes.isEmpty then
    match sign with
    | none => return (none, { st with lasthashMutex := true })
    | some sig =>
      let off := stmtlen cfg table.bytes tuple.bytes - 244
      let stmt ← Memory.memcpy stmt off
        (Memory.snprintf 243 (insertSignature lasthash.bytes sig))
      return (some stmt, st)
  else return (some stmt, st)

/-- `insert_statement`. The table is an index into `thetables`. -/
def insertStatement (cfg : BuildConfig) (P : Platform) (B : SqlSession D S) (refused : Bool)
    (thetables : List CString) (sign : Option Signature) (st : LogState D) (table : ℕ)
    (tuple : CString) : Except CFault (LogState D) :=
  if !cfg.doInsert then .ok st
  else
    match thetables[table]? with
    | none => .error .outOfBounds
    | some name => do
      let (stmt, st) ← extendChain cfg P sign st name tuple
      match stmt with
      | none => return st
      | some stmt => executeStmtTx cfg B refused st stmt

/-! ### What each function does -/

/-- The buffer `hashthis` is large enough: what is hashed is the head, the table and the tuple. -/
theorem cStr_hashthis (lasthash : HashText) (table tuple : CString) :
    cStr (hashthis lasthash table tuple) = lasthash.bytes ++ table.bytes ++ tuple.bytes := by
  have hlt : (lasthash.bytes ++ table.bytes ++ tuple.bytes).length <
      65 + table.bytes.length + tuple.bytes.length := by
    have := lasthash.length_le
    simp only [List.length_append]
    omega
  rw [hashthis, Memory.snprintf_of_lt hlt]
  refine cStr_append_zero ?_ []
  simp [lasthash.zero_notMem, table.zero_notMem, tuple.zero_notMem]

/-- The head after a row. -/
def nextHash (P : Platform) (lasthash : HashText) (table tuple : CString) : HashText :=
  sha256 P (lasthash.bytes ++ table.bytes ++ tuple.bytes)

theorem sha256_hashthis (P : Platform) (lasthash : HashText) (table tuple : CString) :
    sha256 P (hashthis lasthash table tuple) = nextHash P lasthash table tuple := by
  have hz : 0 ∉ lasthash.bytes ++ table.bytes ++ tuple.bytes := by
    simp [lasthash.zero_notMem, table.zero_notMem, tuple.zero_notMem]
  rw [nextHash, sha256, sha256]
  simp only [cStr_hashthis, cStr_eq_self hz]

/-- The statement text of a row, in the build at hand. -/
def statementText (cfg : BuildConfig) (P : Platform) (lasthash : HashText) (table tuple : CString) :
    Bytes :=
  if cfg.addHash then
    insertWithHash table.bytes tuple.bytes (nextHash P lasthash table tuple).bytes
  else insertWithoutHash table.bytes tuple.bytes

theorem zero_notMem_statementText (cfg : BuildConfig) (P : Platform) (lasthash : HashText)
    (table tuple : CString) : 0 ∉ statementText cfg P lasthash table tuple := by
  have h1 : 0 ∉ insertInto := by decide
  have h2 : 0 ∉ values := by decide
  have h3 : 0 ∉ ascii "(" := by decide
  have h4 : 0 ∉ ascii ",\"" := by decide
  have h5 : 0 ∉ ascii "\");" := by decide
  have h6 : 0 ∉ ascii ");" := by decide
  rw [statementText]
  split_ifs
  · simp only [insertWithHash, List.mem_append, not_or]
    exact ⟨⟨⟨⟨⟨⟨⟨h1, table.zero_notMem⟩, h2⟩, h3⟩, tuple.zero_notMem⟩, h4⟩,
      (nextHash P lasthash table tuple).zero_notMem⟩, h5⟩
  · simp only [insertWithoutHash, List.mem_append, not_or]
    exact ⟨⟨⟨⟨⟨h1, table.zero_notMem⟩, h2⟩, h3⟩, tuple.zero_notMem⟩, h6⟩

/-- The value of `lasthash` after a call. -/
def newLasthash (cfg : BuildConfig) (P : Platform) (lasthash : HashText) (table tuple : CString) :
    HashText :=
  if cfg.addHash then nextHash P lasthash table tuple else lasthash

/-- The size that is allocated holds the statement and its terminator, with room for a signature
behind it in the builds that sign. -/
theorem length_statementText_lt (cfg : BuildConfig) (P : Platform) (lasthash : HashText)
    (table tuple : CString) :
    (statementText cfg P lasthash table tuple).length + (if cfg.signs then 244 else 0) + 1 =
      stmtlen cfg table.bytes tuple.bytes := by
  rw [statementText, stmtlen, length_insertInto, length_values]
  split_ifs
  · rw [length_insertWithHash, nextHash, length_sha256]; omega
  · rw [length_insertWithHash, nextHash, length_sha256]; omega
  · rw [length_insertWithoutHash]; omega
  · rw [length_insertWithoutHash]; omega

/-- **`create_insert_statement` never overruns its block**, and what it leaves there is the
statement text, terminated. -/
theorem exists_createInsertStatement (cfg : BuildConfig) (P : Platform) (lasthash : HashText)
    (table tuple : CString) :
    ∃ rest, createInsertStatement cfg P lasthash table tuple =
        .ok (statementText cfg P lasthash table tuple ++ 0 :: rest,
          newLasthash cfg P lasthash table tuple) ∧
      (statementText cfg P lasthash table tuple ++ 0 :: rest).length =
        stmtlen cfg table.bytes tuple.bytes := by
  set text := statementText cfg P lasthash table tuple with htext
  set n := stmtlen cfg table.bytes tuple.bytes with hn
  have hlen : text.length + (if cfg.signs then 244 else 0) + 1 = n :=
    length_statementText_lt cfg P lasthash table tuple
  have hsn : Memory.snprintf n text = text ++ [0] := Memory.snprintf_of_lt (by omega)
  have hle : 0 + (text ++ [0]).length ≤ (P.unwritten n).length := by
    rw [P.length_unwritten, List.length_append, List.length_singleton]
    omega
  have hcpy := Memory.memcpy_of_le hle
  refine ⟨(P.unwritten n).drop (0 + (text ++ [0]).length), ?_, ?_⟩
  · rw [createInsertStatement, newLasthash]
    simp only [sha256_hashthis]
    rw [statementText] at htext
    split_ifs with hadd
    · rw [if_pos hadd] at htext
      rw [← hn, ← htext, hsn, hcpy]
      simp [Except.map]
    · rw [if_neg hadd] at htext
      rw [← hn, ← htext, hsn, hcpy]
      simp [Except.map]
  · simp only [List.length_append, List.length_cons, List.length_drop, P.length_unwritten,
      List.length_nil]
    omega

/-- **What the section under `lasthash_mutex` does**: it advances the chain, and then either returns
early with the mutex held, when signing fails, or yields a block whose text is the statement. The
signature that is written behind the terminator is not part of that text. -/
theorem extendChain_cases (cfg : BuildConfig) (P : Platform) (sign : Option Signature)
    {st : LogState D} (h : st.lasthashMutex = false) (table tuple : CString) :
    (cfg.signs = true ∧ sign = none ∧
      extendChain cfg P sign st table tuple =
        .ok (none, { st with
          lasthash := newLasthash cfg P st.lasthash table tuple, lasthashMutex := true })) ∨
    ((cfg.signs = true → sign.isSome) ∧
      ∃ stmt, cStr stmt = statementText cfg P st.lasthash table tuple ∧
        extendChain cfg P sign st table tuple =
          .ok (some stmt, { st with lasthash := newLasthash cfg P st.lasthash table tuple })) := by
  obtain ⟨rest, hcreate, hlen⟩ := exists_createInsertStatement cfg P st.lasthash table tuple
  have hz := zero_notMem_statementText cfg P st.lasthash table tuple
  have htext := length_statementText_lt cfg P st.lasthash table tuple
  set text := statementText cfg P st.lasthash table tuple
  set lasthash := newLasthash cfg P st.lasthash table tuple with hlast
  rcases hs : cfg.signs with - | -
  · -- nothing is signed in this build
    refine Or.inr ⟨by simp, text ++ 0 :: rest, cStr_append_zero hz rest, ?_⟩
    simp [extendChain, h, hcreate, hs, bind, Except.bind, pure, Except.pure]
  · have hadd : cfg.addHash = true := by
      simp only [BuildConfig.signs, Bool.and_eq_true] at hs
      exact hs.2
    have hne : lasthash.bytes.isEmpty = false := by
      have h64 : lasthash.bytes.length = 64 := by
        rw [hlast, newLasthash, if_pos hadd, nextHash, length_sha256]
      rw [List.isEmpty_eq_false_iff]
      exact List.ne_nil_of_length_pos (by omega)
    rcases sign with - | sig
    · -- the early return, which leaves the mutex locked
      refine Or.inl ⟨rfl, rfl, ?_⟩
      simp [extendChain, h, hcreate, hs, hne, bind, Except.bind, pure, Except.pure]
    · set sigText := Memory.snprintf 243 (insertSignature lasthash.bytes sig) with hsig
      -- the offset at which the signature is written is right behind the terminator
      have hoff : stmtlen cfg table.bytes tuple.bytes - 244 = (text ++ [0]).length := by
        rw [hs, if_pos rfl] at htext
        rw [List.length_append, List.length_singleton]
        omega
      have hblock : text ++ 0 :: rest = (text ++ [0]) ++ rest := by simp
      have hfit : (text ++ [0]).length + sigText.length ≤ (text ++ 0 :: rest).length := by
        have hsiglen : sigText.length ≤ 243 := by
          rw [hsig, Memory.snprintf, List.length_append, List.length_take, List.length_singleton]
          omega
        rw [hlen]
        rw [hs, if_pos rfl] at htext
        rw [List.length_append, List.length_singleton]
        omega
      refine Or.inr ⟨by simp, (text ++ 0 :: rest).take (text ++ [0]).length ++ sigText ++
        (text ++ 0 :: rest).drop ((text ++ [0]).length + sigText.length), ?_, ?_⟩
      · rw [hblock, List.take_left, List.append_assoc, List.append_assoc]
        exact cStr_append_zero hz _
      · simp [extendChain, h, hcreate, hs, hne, bind, Except.bind, pure, Except.pure, hoff,
          Memory.memcpy_of_le hfit, ← hsig, -List.length_append]

/-- The section does not touch the database. -/
theorem db_of_extendChain {cfg : BuildConfig} {P : Platform} {sign : Option Signature}
    {st st' : LogState D} {table tuple : CString} {stmt : Option Bytes}
    (h : extendChain cfg P sign st table tuple = .ok (stmt, st')) :
    st'.sqliteMutex = st.sqliteMutex ∧ st'.db = st.db := by
  rcases hmutex : st.lasthashMutex with - | -
  · rcases extendChain_cases cfg P sign hmutex table tuple with ⟨-, -, hext⟩ | ⟨-, _, -, hext⟩
    · rw [hext] at h
      cases h
      exact ⟨rfl, rfl⟩
    · rw [hext] at h
      cases h
      exact ⟨rfl, rfl⟩
  · rw [extendChain, hmutex] at h
    exact nomatch h

/-- **What `execute_stmt_tx` does** once it has the mutex. -/
theorem executeStmtTx_eq {cfg : BuildConfig} (hdo : cfg.doInsert = true) (B : SqlSession D S)
    (refused : Bool) {st : LogState D} (hmutex : st.sqliteMutex = false) (stmt : Bytes) :
    executeStmtTx cfg B refused st stmt = .ok { st with
      db := ((B.exec st.db.begin.1 (cStr stmt)).1.endTransaction refused).1 } := by
  simp only [executeStmtTx, hdo, hmutex, Bool.not_true, Bool.false_eq_true, if_false]

/-- Statements that leave the transaction alone, on a connection without an open one. -/
theorem executeStmtTx_session {cfg : BuildConfig} (hdo : cfg.doInsert = true) (E : SqlEngine D S)
    {st : LogState D} (hmutex : st.sqliteMutex = false) (hsaved : st.db.saved = none)
    (stmt : Bytes) :
    executeStmtTx cfg E.session false st stmt =
      .ok { st with db := ⟨(E.exec st.db.content (cStr stmt)).1, none⟩ } := by
  rw [executeStmtTx_eq hdo _ _ hmutex, SqlConnection.endTransaction_exec_begin E hsaved]

end LibSeal
