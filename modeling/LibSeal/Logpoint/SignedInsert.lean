import LibSeal.Logpoint.Insert

/-!
# Signing a row

In the builds that sign, `create_insert_statement` allocates 244 bytes more than the statement of
the row needs, and `insert_statement` prints the `INSERT` of the signature there, at
`stmtlen - 244`. The statement ends with its terminator one byte before that place. So the block
holds both texts (`exists_extendChain_signed`), but as a C string it is the first alone
(`handedOn_of_signs`): whoever reads it stops at the terminator in between, and the signature never
reaches the database (`insertStatement_signature`).
-/

namespace LibSeal

open Bytes

variable {D S : Type}

/-! ### The length of a signature -/

theorem length_hexWord_le (w : UInt32) : (hexWord w).length ≤ 8 := by
  rw [hexWord, List.length_map, Nat.length_toDigits_le_iff (by decide) (by decide)]
  exact w.toNat_lt

theorem length_hexWords_le (v : Vector UInt32 8) : (v.toList.flatMap hexWord).length ≤ 64 := by
  have hwords : ∀ l : List UInt32, (l.flatMap hexWord).length ≤ l.length * 8 := by
    intro l
    induction l with
    | nil => exact Nat.zero_le _
    | cons w l ih =>
      have hw := length_hexWord_le w
      rw [List.flatMap_cons, List.length_append, List.length_cons]
      omega
  have h := hwords v.toList
  rwa [Vector.length_toList] at h

/-- The 243 bytes that are printed to have room for the statement of the signature. -/
theorem length_insertSignature_lt (lasthash : HashText) (sig : Signature) :
    (insertSignature lasthash.bytes sig).length < 243 := by
  have hhash := lasthash.length_le
  have hx := length_hexWords_le sig.x
  have hy := length_hexWords_le sig.y
  have h1 : (ascii "INSERT INTO `libseal_signatures` VALUES(\"").length = 41 := by decide +kernel
  have h2 : (ascii "\",\"").length = 3 := by decide
  have h3 : (ascii "\");").length = 3 := by decide
  simp only [insertSignature, List.length_append, h1, h2, h3]
  omega

/-! ### The text that is handed on -/

/-- The text that `insert_statement` hands to `execute_stmt_tx`, as a C string. There is none where
it returns before. -/
def handedOn (cfg : BuildConfig) (P : Platform) (sign : Option Signature) (st : LogState D)
    (table tuple : CString) : Except CFault (Option Bytes) :=
  (extendChain cfg P sign st table tuple).map fun r ↦ r.1.map cStr

/-- **A row is handed on with its signature**: the statement of the row and, behind it, that of the
signature of the new head. -/
def HandsOnSignature (cfg : BuildConfig) (P : Platform) (st : LogState D) (table tuple : CString)
    (sig : Signature) : Prop :=
  handedOn cfg P (some sig) st table tuple =
    .ok (some (insertWithHash table.bytes tuple.bytes (nextHash P st.lasthash table tuple).bytes ++
      insertSignature (nextHash P st.lasthash table tuple).bytes sig))

/-- In a build that signs, the signature is printed behind the terminator of the statement, and
inside the block. -/
theorem exists_memcpy_insertSignature {cfg : BuildConfig} (hsigns : cfg.signs = true) (P : Platform)
    (lasthash head : HashText) (table tuple : CString) (sig : Signature) {rest : Bytes}
    (hlen : (statementText cfg P lasthash table tuple ++ 0 :: rest).length =
      stmtlen cfg table.bytes tuple.bytes) :
    ∃ rest', Memory.memcpy (statementText cfg P lasthash table tuple ++ 0 :: rest)
        (stmtlen cfg table.bytes tuple.bytes - 244)
        (Memory.snprintf 243 (insertSignature head.bytes sig)) =
      .ok (statementText cfg P lasthash table tuple ++ 0 ::
        (insertSignature head.bytes sig ++ 0 :: rest')) := by
  have htext := length_statementText_lt cfg P lasthash table tuple
  rw [if_pos hsigns] at htext
  set text := statementText cfg P lasthash table tuple
  set sigText := insertSignature head.bytes sig with hsig
  have hsiglen : sigText.length < 243 := length_insertSignature_lt head sig
  have hprinted : Memory.snprintf 243 sigText = sigText ++ [0] := Memory.snprintf_of_lt hsiglen
  -- the place of the signature is the one behind the terminator
  have hoff : stmtlen cfg table.bytes tuple.bytes - 244 = (text ++ [0]).length := by
    rw [List.length_append, List.length_singleton]
    omega
  have hblock : text ++ 0 :: rest = (text ++ [0]) ++ rest := by simp
  have hfit : (text ++ [0]).length + (sigText ++ [0]).length ≤ (text ++ 0 :: rest).length := by
    rw [hlen]
    simp only [List.length_append, List.length_singleton]
    omega
  refine ⟨(text ++ 0 :: rest).drop ((text ++ [0]).length + (sigText ++ [0]).length), ?_⟩
  have hcpy := Memory.memcpy_of_le hfit
  rw [hblock, List.take_left, ← hblock] at hcpy
  rw [hoff, hprinted, hcpy]
  simp

/-- In a build that signs, the block holds the two statements, each with a terminator. -/
theorem exists_extendChain_signed {cfg : BuildConfig} (hsigns : cfg.signs = true) (P : Platform)
    (sig : Signature) {st : LogState D} (hmutex : st.lasthashMutex = false)
    (table tuple : CString) :
    ∃ rest, extendChain cfg P (some sig) st table tuple =
      .ok (some (statementText cfg P st.lasthash table tuple ++ 0 ::
          (insertSignature (nextHash P st.lasthash table tuple).bytes sig ++ 0 :: rest)),
        { st with lasthash := nextHash P st.lasthash table tuple }) := by
  obtain ⟨rest, hcreate, hlen⟩ := exists_createInsertStatement cfg P st.lasthash table tuple
  have hadd : cfg.addHash = true := by
    simp only [BuildConfig.signs, Bool.and_eq_true] at hsigns
    exact hsigns.2
  rw [newLasthash, if_pos hadd] at hcreate
  have hne : (nextHash P st.lasthash table tuple).bytes.isEmpty = false := by
    rw [List.isEmpty_eq_false_iff, nextHash]
    exact List.ne_nil_of_length_pos (by rw [length_sha256]; decide)
  obtain ⟨rest', hcpy⟩ := exists_memcpy_insertSignature hsigns P st.lasthash
    (nextHash P st.lasthash table tuple) table tuple sig hlen
  refine ⟨rest', ?_⟩
  rw [extendChain, hmutex]
  simp only [Bool.false_eq_true, if_false, bind, Except.bind, pure, Except.pure, hcreate, hsigns,
    hne, Bool.not_false, Bool.and_true, if_true, hcpy]

/-- **What is handed on is the statement of the row alone.** -/
theorem handedOn_of_signs {cfg : BuildConfig} (hsigns : cfg.signs = true) (P : Platform)
    (sig : Signature) {st : LogState D} (hmutex : st.lasthashMutex = false)
    (table tuple : CString) :
    handedOn cfg P (some sig) st table tuple =
      .ok (some (statementText cfg P st.lasthash table tuple)) := by
  obtain ⟨rest, hext⟩ := exists_extendChain_signed hsigns P sig hmutex table tuple
  rw [handedOn, hext]
  show Except.ok (some (cStr _)) = _
  rw [cStr_append_zero (zero_notMem_statementText cfg P st.lasthash table tuple)]

/-- In every build, no other text is handed on. -/
theorem eq_statementText_of_handedOn {cfg : BuildConfig} {P : Platform} {sign : Option Signature}
    {st : LogState D} {table tuple : CString} {text : Bytes}
    (h : handedOn cfg P sign st table tuple = .ok (some text)) :
    text = statementText cfg P st.lasthash table tuple := by
  rcases hmutex : st.lasthashMutex with - | -
  · rcases extendChain_cases cfg P sign hmutex table tuple with
      ⟨-, -, hext⟩ | ⟨-, stmt, hstmt, hext⟩
    · rw [handedOn, hext] at h
      cases h
    · rw [handedOn, hext] at h
      rw [← hstmt]
      exact (Option.some.inj (Except.ok.inj h)).symm
  · rw [handedOn, extendChain, hmutex] at h
    cases h

/-- **No row is handed on with its signature**, whatever the build, the row and the signature. -/
theorem not_handsOnSignature (cfg : BuildConfig) (P : Platform) (st : LogState D)
    (table tuple : CString) (sig : Signature) : ¬ HandsOnSignature cfg P st table tuple sig := by
  intro h
  have htext := congrArg List.length (eq_statementText_of_handedOn h)
  have hsig : 41 ≤ (insertSignature (nextHash P st.lasthash table tuple).bytes sig).length := by
    have h1 : (ascii "INSERT INTO `libseal_signatures` VALUES(\"").length = 41 := by
      decide +kernel
    simp only [insertSignature, List.length_append, h1]
    omega
  rw [List.length_append, statementText] at htext
  split_ifs at htext
  · omega
  · rw [length_insertWithHash, length_insertWithoutHash] at htext
    omega

/-! ### The database -/

/-- Only the C string at the start of the block is executed. -/
theorem executeStmtTx_congr (cfg : BuildConfig) (B : SqlSession D S) (refused : Bool)
    (st : LogState D) {stmt stmt' : Bytes} (h : cStr stmt = cStr stmt') :
    executeStmtTx cfg B refused st stmt = executeStmtTx cfg B refused st stmt' := by
  rw [executeStmtTx, executeStmtTx, h]

/-- **The signature does not reach the database**: what an insertion does is the same for every
signature. -/
theorem insertStatement_signature (cfg : BuildConfig) (P : Platform) (B : SqlSession D S)
    (refused : Bool) (thetables : List CString) (sig sig' : Signature) (st : LogState D)
    (table : ℕ) (tuple : CString) :
    insertStatement cfg P B refused thetables (some sig) st table tuple =
      insertStatement cfg P B refused thetables (some sig') st table tuple := by
  rcases hdo : cfg.doInsert with - | -
  · simp only [insertStatement, hdo, Bool.not_false, if_true]
  rcases hname : thetables[table]? with - | name
  · simp only [insertStatement, hdo, hname]
  rcases hmutex : st.lasthashMutex with - | -
  · rcases extendChain_cases cfg P (some sig) hmutex name tuple with
      ⟨-, hnone, -⟩ | ⟨-, stmt, hstmt, hext⟩
    · exact absurd hnone (Option.some_ne_none sig)
    rcases extendChain_cases cfg P (some sig') hmutex name tuple with
      ⟨-, hnone, -⟩ | ⟨-, stmt', hstmt', hext'⟩
    · exact absurd hnone (Option.some_ne_none sig')
    simp only [insertStatement, hdo, hname, Bool.not_true, Bool.false_eq_true, if_false, bind,
      Except.bind, hext, hext']
    exact executeStmtTx_congr cfg B refused _ (hstmt.trans hstmt'.symm)
  · have hblocked : ∀ sign, extendChain cfg P sign st name tuple = .error .blocked := fun sign ↦ by
      rw [extendChain, hmutex]
      rfl
    simp only [insertStatement, hdo, hname, hblocked]

/-! ### A row without a signature -/

/-- A signature with small coordinates. -/
def smallSignature : Signature := ⟨#v[1, 2, 3, 4, 5, 6, 7, 8], #v[8, 7, 6, 5, 4, 3, 2, 1]⟩

/-- A platform whose digest is zero. -/
def zeroPlatform : Platform where
  digest _ := Vector.replicate 32 0
  unwritten n := List.replicate n 0
  length_unwritten := length_zeros

/-- The first row of the log of a build that signs is handed on without its signature. -/
theorem not_handsOnSignature_firstRow :
    ¬ HandsOnSignature ⟨true, true, true, true⟩ zeroPlatform (LogState.init ())
      (.ofBuffer (ascii "advertisements")) (.ofBuffer (ascii "1,\"r\",\"b\",\"0123\""))
      smallSignature := by
  rw [HandsOnSignature, handedOn_of_signs rfl zeroPlatform smallSignature rfl]
  decide +kernel

end LibSeal
