import LibSeal.Logpoint.SignedInsert

/-!
# The sizes of the buffers

`create_insert_statement` adds up the size of its block from the lengths of the texts and from three
constants (4, 67 and 244), and that of `hashthis` from a fourth (65); `insert_statement` prints the
signature with a limit of its own (243). The sizes are exact: the statement with its terminator, and
in the builds that sign the place for a signature, fill the block (`length_statementText_lt`), and
the longest signature fills its limit (`length_insertSignature_longest`). So in every build nothing
is cut off (`buffersSuffice`, `signatureFits`).
-/

namespace LibSeal

open Bytes

/-- The text that `create_insert_statement` prints, with the hash of what `hashthis` holds. -/
def printedStatement (cfg : BuildConfig) (P : Platform) (lasthash : HashText)
    (table tuple : CString) : Bytes :=
  if cfg.addHash then
    insertWithHash table.bytes tuple.bytes (sha256 P (hashthis lasthash table tuple)).bytes
  else insertWithoutHash table.bytes tuple.bytes

theorem printedStatement_eq (cfg : BuildConfig) (P : Platform) (lasthash : HashText)
    (table tuple : CString) :
    printedStatement cfg P lasthash table tuple = statementText cfg P lasthash table tuple := by
  rw [printedStatement, statementText, sha256_hashthis]

/-- **Nothing is cut off of a row**: what is hashed and what is stored fits its buffer with its
terminator, so `hashthis` and the block hold all of it. -/
structure BuffersSuffice (cfg : BuildConfig) (P : Platform) (lasthash : HashText)
    (table tuple : CString) : Prop where
  hashthis_room : (lasthash.bytes ++ table.bytes ++ tuple.bytes).length + 1 ≤
    65 + table.bytes.length + tuple.bytes.length
  hashthis_whole : hashthis lasthash table tuple =
    lasthash.bytes ++ table.bytes ++ tuple.bytes ++ [0]
  stmt_room : (printedStatement cfg P lasthash table tuple).length + 1 ≤
    stmtlen cfg table.bytes tuple.bytes
  stmt_whole : ∃ rest, createInsertStatement cfg P lasthash table tuple =
    .ok (printedStatement cfg P lasthash table tuple ++ 0 :: rest,
      newLasthash cfg P lasthash table tuple)

/-- **Nothing is cut off of a signature**: its text stays within the limit, which ends inside the
block, and it is written there whole, behind the statement of the row. -/
structure SignatureFits (cfg : BuildConfig) (P : Platform) (lasthash : HashText)
    (table tuple : CString) (sig : Signature) : Prop where
  limit : (insertSignature (newLasthash cfg P lasthash table tuple).bytes sig).length + 1 ≤ 243
  inside : 244 ≤ stmtlen cfg table.bytes tuple.bytes ∧
    stmtlen cfg table.bytes tuple.bytes - 244 + 243 ≤ stmtlen cfg table.bytes tuple.bytes
  written : ∀ stmt head, createInsertStatement cfg P lasthash table tuple = .ok (stmt, head) →
    ∃ rest, Memory.memcpy stmt (stmtlen cfg table.bytes tuple.bytes - 244)
        (Memory.snprintf 243 (insertSignature head.bytes sig)) =
      .ok (printedStatement cfg P lasthash table tuple ++ 0 ::
        (insertSignature head.bytes sig ++ 0 :: rest))

section

variable (cfg : BuildConfig) (P : Platform) (lasthash : HashText) (table tuple : CString)

theorem signatureFits (hsigns : cfg.signs = true) (sig : Signature) :
    SignatureFits cfg P lasthash table tuple sig := by
  have htext := length_statementText_lt cfg P lasthash table tuple
  rw [if_pos hsigns] at htext
  refine ⟨length_insertSignature_lt _ sig, by omega, fun stmt head h ↦ ?_⟩
  obtain ⟨rest, hcreate, hlen⟩ := exists_createInsertStatement cfg P lasthash table tuple
  rw [hcreate] at h
  cases h
  rw [printedStatement_eq]
  exact exists_memcpy_insertSignature hsigns P lasthash _ table tuple sig hlen

theorem buffersSuffice : BuffersSuffice cfg P lasthash table tuple where
  hashthis_room := by
    have hhead := lasthash.length_le
    simp only [List.length_append]
    omega
  hashthis_whole := by
    have hhead := lasthash.length_le
    rw [hashthis, Memory.snprintf_of_lt]
    simp only [List.length_append]
    omega
  stmt_room := by
    have htext := length_statementText_lt cfg P lasthash table tuple
    rw [printedStatement_eq]
    omega
  stmt_whole := by
    obtain ⟨rest, hcreate, -⟩ := exists_createInsertStatement cfg P lasthash table tuple
    exact ⟨rest, by rw [printedStatement_eq, hcreate]⟩

/-- **The sizes suffice**, in every build and for every row and every signature. -/
theorem sizes_suffice :
    BuffersSuffice cfg P lasthash table tuple ∧
      ∀ sig, cfg.signs = true → SignatureFits cfg P lasthash table tuple sig :=
  ⟨buffersSuffice cfg P lasthash table tuple,
    fun sig hsigns ↦ signatureFits cfg P lasthash table tuple hsigns sig⟩

end

/-- In a build that signs, with a signature of small words. -/
theorem sizes_suffice_signed :
    BuffersSuffice ⟨true, true, true, true⟩ zeroPlatform .empty (.ofBuffer (ascii "updates"))
        (.ofBuffer (ascii "1,\"r\",\"b\"")) ∧
      SignatureFits ⟨true, true, true, true⟩ zeroPlatform .empty (.ofBuffer (ascii "updates"))
        (.ofBuffer (ascii "1,\"r\",\"b\"")) smallSignature :=
  ⟨(sizes_suffice _ _ _ _ _).1, (sizes_suffice _ _ _ _ _).2 smallSignature rfl⟩

/-- The longest text of a signature leaves no byte of its limit unused. -/
theorem length_insertSignature_longest (lasthash : HashText) (h : lasthash.bytes.length = 64) :
    (insertSignature lasthash.bytes
      ⟨Vector.replicate 8 4294967295, Vector.replicate 8 4294967295⟩).length + 1 = 243 := by
  have h1 : (ascii "INSERT INTO `libseal_signatures` VALUES(\"").length = 41 := by decide +kernel
  have h2 : (ascii "\",\"").length = 3 := by decide
  have h3 : (ascii "\");").length = 3 := by decide
  have hwords :
      ((Vector.replicate 8 (4294967295 : UInt32)).toList.flatMap hexWord).length = 64 := by
    decide +kernel
  simp only [insertSignature, List.length_append, h, h1, h2, h3, hwords]

end LibSeal
