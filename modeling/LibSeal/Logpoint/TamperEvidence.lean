import LibSeal.Data.HashChain
import LibSeal.Logpoint.Insert

/-!
# Tamper evidence of the hash chain

The successive values of `lasthash` form a hash chain: `createInsertStatement` hashes the
unseparated concatenation of the old value, the table name and the tuple (`chainText`), and the hash
becomes the new value. The three facts that tamper evidence rests on are supplied here for the
tables of each auditor.

* `sha256` never yields the empty string, so no row hashes back to the start.
* The concatenation can be cut again (`chainText_linkInjective`). Two things make this work although
  nothing separates the pieces: a later row starts with 64 hexadecimal digits while no table name
  consists of hexadecimal digits, so the first row of a log cannot be taken for a later one; and no
  table name of an auditor is the beginning of another, so the name and the tuple cannot trade
  characters. Nothing is needed about the tuples.
* That the digest has no collision on the strings hashed is the assumption.
-/

namespace LibSeal

open Bytes

/-- The auditing modules. -/
inductive Auditor where
  | git
  | owncloud
  | dropbox
  deriving DecidableEq

/-- `get_tables` of each module. -/
def Auditor.getTables : Auditor → List CString
  | .git => [.ofBuffer (ascii "updates"), .ofBuffer (ascii "advertisements")]
  | .owncloud => [.ofBuffer (ascii "sync")]
  | .dropbox => [.ofBuffer (ascii "list"), .ofBuffer (ascii "commit_batch")]

/-- The arguments of one call of `insert_statement` by an auditor. -/
structure InsertCall (A : Auditor) where
  table : Fin A.getTables.length
  tuple : CString
  deriving DecidableEq

theorem updates_lt : 0 < (Auditor.getTables .git).length := by decide

theorem advertisements_lt : 1 < (Auditor.getTables .git).length := by decide

/-- The table name a call refers to. -/
def InsertCall.name {A : Auditor} (c : InsertCall A) : CString := A.getTables.get c.table

/-- The value of `lasthash` after `create_insert_statement` has been run for each call in turn. -/
def createInsertStatements {A : Auditor} (cfg : BuildConfig) (P : Platform) (lasthash : HashText)
    (calls : List (InsertCall A)) : Except CFault HashText :=
  calls.foldlM (fun lasthash c ↦
    (createInsertStatement cfg P lasthash c.name c.tuple).map Prod.snd) lasthash

/-- The text hashed for a call. -/
def chainText {A : Auditor} (lasthash : HashText) (c : InsertCall A) : Bytes :=
  lasthash.bytes ++ c.name.bytes ++ c.tuple.bytes

theorem zero_notMem_chainText {A : Auditor} (lasthash : HashText) (c : InsertCall A) :
    0 ∉ chainText lasthash c := by
  simp [chainText, lasthash.zero_notMem, c.name.zero_notMem, c.tuple.zero_notMem]

/-- The strings hashed by a sequence of calls that starts from the empty `lasthash`. -/
def hashedTexts {A : Auditor} (P : Platform) (calls : List (InsertCall A)) : List Bytes :=
  HashChain.messages (sha256 P) chainText calls HashText.empty

/-- `lasthash` is the head of the chain of the calls made. -/
theorem createInsertStatements_eq_head {A : Auditor} {cfg : BuildConfig}
    (hadd : cfg.addHash = true) (P : Platform) (lasthash : HashText) (calls : List (InsertCall A)) :
    createInsertStatements cfg P lasthash calls =
      .ok (HashChain.head (sha256 P) chainText lasthash calls) := by
  induction calls generalizing lasthash with
  | nil => rfl
  | cons c calls ih =>
    obtain ⟨rest, hcreate, -⟩ := exists_createInsertStatement cfg P lasthash c.name c.tuple
    rw [createInsertStatements, List.foldlM_cons, hcreate, newLasthash, if_pos hadd]
    exact ih _

/-! ### Cutting the hashed text -/

/-- Every table name has a character that is no hexadecimal digit, and is short. -/
theorem exists_notHex_name {A : Auditor} (c : InsertCall A) :
    c.name.bytes.length ≤ 64 ∧ ∃ b ∈ c.name.bytes, hexValue b = none := by
  obtain ⟨i, t⟩ := c
  have h : ∀ i : Fin A.getTables.length, (A.getTables.get i).bytes.length ≤ 64 ∧
      ∃ b ∈ (A.getTables.get i).bytes, hexValue b = none := by
    rcases A with - | - | - <;> decide
  exact h i

/-- No table name of an auditor is the beginning of another. -/
theorem table_eq_of_begins {A : Auditor} {i j : Fin A.getTables.length}
    (h : (A.getTables.get i).bytes <+: (A.getTables.get j).bytes) : i = j := by
  have hdec : ∀ i j : Fin A.getTables.length,
      (A.getTables.get i).bytes <+: (A.getTables.get j).bytes → i = j := by
    rcases A with - | - | - <;> decide
  exact hdec i j h

/-- The table name and the tuple can be told apart. -/
theorem call_eq_of_append_eq {A : Auditor} {c e : InsertCall A}
    (h : c.name.bytes ++ c.tuple.bytes = e.name.bytes ++ e.tuple.bytes) : c = e := by
  obtain ⟨i, t⟩ := c
  obtain ⟨j, u⟩ := e
  have hi : (A.getTables.get i).bytes <+: (A.getTables.get j).bytes ++ u.bytes := ⟨t.bytes, h⟩
  have hj : (A.getTables.get j).bytes <+: (A.getTables.get j).bytes ++ u.bytes := ⟨u.bytes, rfl⟩
  have hij : i = j := by
    rcases List.prefix_or_prefix_of_prefix hi hj with hp | hp
    · exact table_eq_of_begins hp
    · exact (table_eq_of_begins hp).symm
  cases hij
  have htuple : t = u := CString.ext (List.append_cancel_left h)
  rw [htuple]

/-- A digest cannot be read as the beginning of a table name and its tuple. -/
theorem append_ne_hex_append {A : Auditor} (c : InsertCall A) (P : Platform) (m rest : Bytes) :
    c.name.bytes ++ c.tuple.bytes ≠ (sha256 P m).bytes ++ rest := by
  intro h
  obtain ⟨hlen, b, hb, hhex⟩ := exists_notHex_name c
  have hname : c.name.bytes <+: (sha256 P m).bytes ++ rest := ⟨c.tuple.bytes, h⟩
  have hpre : c.name.bytes <+: (sha256 P m).bytes :=
    List.prefix_of_prefix_length_le hname (List.prefix_append _ _)
      (by rw [length_sha256]; exact hlen)
  exact notMem_hex hhex (hpre.subset hb)

/-- **The hashed text can be cut again** on values that `lasthash` takes. -/
theorem chainText_linkInjective (A : Auditor) (P : Platform) :
    HashChain.LinkInjective (sha256 P) (chainText (A := A)) HashText.empty := by
  have hempty : ∀ c : InsertCall A,
      chainText HashText.empty c = c.name.bytes ++ c.tuple.bytes := fun _ ↦ rfl
  intro d e x y hd he h
  rcases hd with rfl | ⟨m, rfl⟩ <;> rcases he with rfl | ⟨n, rfl⟩
  · exact ⟨rfl, call_eq_of_append_eq h⟩
  · rw [hempty, chainText, List.append_assoc] at h
    exact absurd h (append_ne_hex_append x P n _)
  · rw [hempty, chainText, List.append_assoc] at h
    exact absurd h.symm (append_ne_hex_append y P m _)
  · -- both start with 64 digits
    rw [chainText, chainText, List.append_assoc, List.append_assoc] at h
    obtain ⟨hhash, hrest⟩ := List.append_inj h (by rw [length_sha256, length_sha256])
    exact ⟨HashText.ext hhash, call_eq_of_append_eq hrest⟩

/-! ### Tamper evidence -/

/-- Without a collision of the digest there is none of its hexadecimal form. -/
theorem sha256_inj {A : Auditor} {P : Platform} {d e : HashText} {x y : InsertCall A}
    (hinj : P.digest (chainText d x) = P.digest (chainText e y) → chainText d x = chainText e y)
    (h : sha256 P (chainText d x) = sha256 P (chainText e y)) : chainText d x = chainText e y := by
  apply hinj
  have hbytes : hex (P.digest (cStr (chainText d x))).toList =
      hex (P.digest (cStr (chainText e y))).toList := congrArg (fun t ↦ t.bytes) h
  rw [cStr_eq_self (zero_notMem_chainText d x), cStr_eq_self (zero_notMem_chainText e y)] at hbytes
  exact Vector.toList_inj.1 (hex_injective hbytes)

/-- Every text hashed is the chain text of some call. -/
theorem exists_chainText_of_mem {A : Auditor} {P : Platform} {lasthash : HashText}
    {calls : List (InsertCall A)} {m : Bytes}
    (h : m ∈ HashChain.messages (sha256 P) chainText calls lasthash) :
    ∃ d, ∃ c : InsertCall A, m = chainText d c := by
  induction calls generalizing lasthash with
  | nil => exact absurd h List.not_mem_nil
  | cons c calls ih =>
    rcases List.mem_cons.1 h with rfl | h'
    · exact ⟨_, _, rfl⟩
    · exact ih h'

/-- Two sequences of calls with the same head are the same sequence. -/
theorem eq_of_head_eq {A : Auditor} {P : Platform} {xs ys : List (InsertCall A)}
    (hinj : ∀ m ∈ hashedTexts P xs, ∀ n ∈ hashedTexts P ys, P.digest m = P.digest n → m = n)
    (h : HashChain.head (sha256 P) chainText HashText.empty xs =
      HashChain.head (sha256 P) chainText HashText.empty ys) : xs = ys := by
  have hstart : ∀ m, sha256 P m ≠ HashText.empty := by
    intro m hm
    have h64 := length_sha256 P m
    rw [hm] at h64
    exact absurd h64 (by decide)
  refine HashChain.eq_of_head_eq (chainText_linkInjective A P) hstart ?_ h
  intro m hm n hn
  obtain ⟨d, x, rfl⟩ := exists_chainText_of_mem hm
  obtain ⟨e, y, rfl⟩ := exists_chainText_of_mem hn
  exact sha256_inj (hinj _ hm _ hn)

/-- **Tamper evidence.** If the digest has no collision on the strings hashed, two sequences of
calls end in the same `lasthash` exactly when they are the same sequence. -/
theorem lasthash_eq_iff {A : Auditor} {cfg : BuildConfig} (hadd : cfg.addHash = true) (P : Platform)
    (xs ys : List (InsertCall A))
    (hinj : ∀ m ∈ hashedTexts P xs, ∀ n ∈ hashedTexts P ys, P.digest m = P.digest n → m = n) :
    createInsertStatements cfg P HashText.empty xs =
      createInsertStatements cfg P HashText.empty ys ↔ xs = ys := by
  refine ⟨fun h ↦ ?_, fun h ↦ h ▸ rfl⟩
  rw [createInsertStatements_eq_head hadd, createInsertStatements_eq_head hadd] at h
  exact eq_of_head_eq hinj (Except.ok.inj h)

/-- A platform whose digest answers with the SHA-256 values of the two strings that the rows below
hash. -/
def twoRowPlatform : Platform where
  digest m :=
    if m = ascii "updates0,\"r\",\"b\",\"0123\",\"c\",1" then
      #v[87, 159, 164, 69, 64, 128, 57, 96, 56, 100, 90, 130, 90, 166, 236, 86,
        192, 194, 202, 144, 138, 234, 226, 102, 186, 137, 26, 249, 131, 200, 188, 156]
    else
      #v[95, 224, 86, 233, 39, 110, 118, 8, 64, 70, 75, 134, 223, 197, 224, 113,
        96, 87, 31, 150, 245, 79, 201, 156, 15, 162, 29, 240, 141, 119, 21, 164]
  unwritten n := List.replicate n 0
  length_unwritten := length_zeros

/-- The row of a push. -/
def pushCall : InsertCall .git :=
  ⟨⟨0, updates_lt⟩, .ofBuffer (ascii "0,\"r\",\"b\",\"0123\",\"c\",1")⟩

/-- The row of an advertisement. -/
def advertisementCall : InsertCall .git :=
  ⟨⟨1, advertisements_lt⟩, .ofBuffer (ascii "1,\"r\",\"b\",\"0123\"")⟩

/-- Dropping the second of two rows shows in `lasthash`. -/
theorem lasthash_ne_of_dropped_row :
    createInsertStatements ⟨true, true, true, true⟩ twoRowPlatform HashText.empty [pushCall] ≠
      createInsertStatements ⟨true, true, true, true⟩ twoRowPlatform HashText.empty
        [pushCall, advertisementCall] :=
  (lasthash_eq_iff rfl twoRowPlatform [pushCall] [pushCall, advertisementCall]
    (by decide)).not.2 (by decide)

end LibSeal
