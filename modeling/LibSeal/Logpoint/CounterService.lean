import LibSeal.Logpoint.SignedInsert

/-!
# The rounds of the monotonic counter service

Between chaining a row and storing it, `insert_statement` runs two rounds with the servers of the
monotonic counter service. A round has three parts in the enclave: `mcservice_encrypt_round`,
`mcservice_network_round` and `mcservice_decrypt_round`. The second is a call out of the enclave
that takes no data and returns none; the host sends its own copy of a message to the servers and
receives their replies over that copy. The enclave decrypts neither. What `mcservice_decrypt_round`
decrypts, once for each server, is the constant `original_ciphertext` of the enclave. And nothing
that fails is reported to `insert_statement`: a decryption error and an error of the call are
printed.

So the row is stored whatever the servers have answered, if anything
(`not_failsClosed_of_failed_ocall`), and no reply is ever confirmed: where the `INSERT` is reached
and there is a server, its reply has not come into the enclave (`failsClosed_iff`).

AES-GCM is a parameter (`AesGcm`). An EVP call that fails otherwise than in the authentication ends
the process.
-/

namespace LibSeal

open Bytes

/-! ### Messages -/

/-- AES-128 in Galois/counter mode, with an IV of 16 bytes. -/
structure AesGcm where
  /-- The ciphertext and the tag for a key, an IV and a plaintext. -/
  encrypt : Bytes → Bytes → Bytes → Bytes × Bytes
  /-- The plaintext for a key, an IV, a tag and a ciphertext, if the tag is right. -/
  decrypt : Bytes → Bytes → Bytes → Bytes → Option Bytes

/-- **Authenticity**: what is decrypted is what has been encrypted under the key. -/
def AesGcm.Authentic (G : AesGcm) : Prop :=
  ∀ key iv tag ciphertext plaintext, G.decrypt key iv tag ciphertext = some plaintext ↔
    G.encrypt key iv plaintext = (ciphertext, tag)

/-- `key` -/
def counterKey : Bytes := ascii "0123456789012345"

/-- `original_plaintext` -/
def originalPlaintext : Bytes := ascii "0123456789012345"

/-- `original_ciphertext`: the IV, the tag and the ciphertext. -/
def originalCiphertext : Bytes :=
  [0x30, 0x31, 0x32, 0x33, 0x34, 0x35, 0x36, 0x37, 0x38, 0x39, 0x30, 0x31, 0x32, 0x33, 0x34, 0x35,
    0xce, 0x1e, 0xca, 0x36, 0xe2, 0x31, 0x7, 0xb9, 0x63, 0x61, 0xf6, 0x96, 0x53, 0x2b, 0xac, 0xa9,
    0xc, 0xe7, 0xf9, 0xac, 0x68, 0x60, 0x4d, 0xf, 0x8c, 0x5a, 0x6d, 0x78, 0x59, 0xc1, 0xa2, 0xac]

/-- `ssl_decrypt` of a message: its IV is in the first 16 bytes, its tag in the next 16. -/
def sslDecrypt (G : AesGcm) (message : Bytes) : Option Bytes :=
  G.decrypt counterKey (message.take 16) ((message.drop 16).take 16) (message.drop 32)

/-! ### A round in the enclave -/

/-- What the enclave depends on in a round. -/
structure CounterRound where
  /-- Whether the EVP calls of `mcservice_encrypt_round` succeed. -/
  encrypts : Bool
  /-- The status of the call out of the enclave; `none` when it never returns. -/
  status : Option ℕ
  /-- The reply of each server, if it has reached the host. -/
  replies : ℕ → Option Bytes
  /-- Whether the EVP calls of each decryption succeed, but for the authentication. -/
  decrypts : ℕ → Bool

/-- A decryption in the enclave. -/
structure Decryption where
  /-- The server whose reply the message is, as the enclave has received it in the round; `none` for
  a constant of the program. -/
  server : Option ℕ
  message : Bytes
  /-- The plaintext, if the message is authentic. -/
  plaintext : Option Bytes

/-- `mcservice_encrypt_round`. The ciphertext is in a local buffer that nobody reads. -/
def mcserviceEncryptRound (quorumSize : ℤ) (r : CounterRound) : Except CFault Unit :=
  if quorumSize = 0 then .ok ()
  else if r.encrypts then .ok ()
  else .error .exited

/-- `mcservice_network_round` in the enclave. The call has no parameters: it brings nothing in, and
its error is printed. -/
def mcserviceNetworkRound (quorumSize : ℤ) (r : CounterRound) : Except CFault Unit :=
  if 0 < quorumSize then
    match r.status with
    | none => .error .blocked
    | some _ => .ok ()
  else .ok ()

/-- The loop of `mcservice_decrypt_round`: for each server the same constant is decrypted. An error
of the authentication is printed. -/
def decryptOriginal (G : AesGcm) (r : CounterRound) : ℕ → Except CFault (List Decryption)
  | 0 => .ok []
  | i + 1 => do
    let ds ← decryptOriginal G r i
    if r.decrypts i then
      return ds ++ [⟨none, originalCiphertext, sslDecrypt G originalCiphertext⟩]
    else throw .exited

/-- `mcservice_decrypt_round` -/
def mcserviceDecryptRound (G : AesGcm) (quorumSize : ℤ) (r : CounterRound) :
    Except CFault (List Decryption) :=
  if quorumSize = 0 then .ok []
  else decryptOriginal G r quorumSize.toNat

/-- A round. -/
def mcserviceRound (G : AesGcm) (quorumSize : ℤ) (r : CounterRound) :
    Except CFault (List Decryption) := do
  mcserviceEncryptRound quorumSize r
  mcserviceNetworkRound quorumSize r
  mcserviceDecryptRound G quorumSize r

/-! ### The insertion -/

variable {D S : Type}

/-- What an insertion with the counter service has done. -/
structure CountedInsert (D : Type) where
  /-- The decryptions of the two rounds. -/
  round1 : List Decryption
  round2 : List Decryption
  /-- Whether the `INSERT` has been executed. -/
  executed : Bool
  state : LogState D

/-- `insert_statement` in the build with `USE_MONOTONIC_COUNTER_SERVICE`. -/
def countedInsertStatement (cfg : BuildConfig) (P : Platform) (B : SqlSession D S) (refused : Bool)
    (G : AesGcm) (quorumSize : ℤ) (thetables : List CString) (sign : Option Signature)
    (r₁ r₂ : CounterRound) (st : LogState D) (table : ℕ) (tuple : CString) :
    Except CFault (CountedInsert D) :=
  if !cfg.doInsert then .ok ⟨[], [], false, st⟩
  else
    match thetables[table]? with
    | none => .error .outOfBounds
    | some name => do
      let (stmt, st) ← extendChain cfg P sign st name tuple
      match stmt with
      | none => return ⟨[], [], false, st⟩
      | some stmt =>
        let round1 ← mcserviceRound G quorumSize r₁
        let round2 ← mcserviceRound G quorumSize r₂
        let st ← executeStmtTx cfg B refused st stmt
        return ⟨round1, round2, true, st⟩

/-- The replies of a round are confirmed: from every server the enclave has received its reply, and
has decrypted and authenticated it. -/
def Confirmed (quorumSize : ℤ) (r : CounterRound) (ds : List Decryption) : Prop :=
  ∀ i < quorumSize.toNat, ∃ d ∈ ds, d.server = some i ∧ r.replies i = some d.message ∧
    d.plaintext.isSome = true

/-- **The rounds fail closed**: the row is stored only if the replies of both rounds are
confirmed. -/
def FailsClosed (cfg : BuildConfig) (P : Platform) (B : SqlSession D S) (refused : Bool)
    (G : AesGcm) (quorumSize : ℤ) (thetables : List CString) (sign : Option Signature)
    (r₁ r₂ : CounterRound) (st : LogState D) (table : ℕ) (tuple : CString) : Prop :=
  ∀ out, countedInsertStatement cfg P B refused G quorumSize thetables sign r₁ r₂ st table tuple =
      .ok out →
    out.executed = true → Confirmed quorumSize r₁ out.round1 ∧ Confirmed quorumSize r₂ out.round2

/-- No EVP call of the round ends the process, and the call out of the enclave returns, with
whatever status. -/
def CounterRound.Returns (quorumSize : ℤ) (r : CounterRound) : Prop :=
  quorumSize ≠ 0 → r.encrypts = true ∧ (0 < quorumSize → r.status.isSome = true) ∧
    ∀ i < quorumSize.toNat, r.decrypts i = true

/-- The `INSERT` is reached: neither the signature nor a wait for a mutex keeps it from being
executed, and the rounds return. -/
structure ReachesInsert (cfg : BuildConfig) (quorumSize : ℤ) (thetables : List CString)
    (sign : Option Signature) (r₁ r₂ : CounterRound) (st : LogState D) (table : ℕ) : Prop where
  doInsert : cfg.doInsert = true
  table : table < thetables.length
  lasthashMutex : st.lasthashMutex = false
  sqliteMutex : st.sqliteMutex = false
  sign : cfg.signs = true → sign.isSome = true
  round1 : r₁.Returns quorumSize
  round2 : r₂.Returns quorumSize

/-! ### What a round does -/

section

variable {G : AesGcm} {quorumSize : ℤ} {r : CounterRound}

/-- The loop decrypts the constant of the enclave once for each server. -/
theorem decryptOriginal_eq_ok_iff {n : ℕ} {ds : List Decryption} :
    decryptOriginal G r n = .ok ds ↔ (∀ i < n, r.decrypts i = true) ∧
      ds = List.replicate n ⟨none, originalCiphertext, sslDecrypt G originalCiphertext⟩ := by
  induction n generalizing ds with
  | zero =>
    rw [decryptOriginal]
    constructor
    · intro h
      exact ⟨fun i hi ↦ absurd hi (Nat.not_lt_zero i), (Except.ok.inj h).symm⟩
    · rintro ⟨-, rfl⟩
      rfl
  | succ n ih =>
    rw [decryptOriginal, CFault.bind_eq_ok]
    constructor
    · rintro ⟨ds', hds', h⟩
      obtain ⟨hall, rfl⟩ := ih.1 hds'
      split_ifs at h with hlast
      · refine ⟨fun i hi ↦ ?_, ?_⟩
        · rcases Nat.lt_succ_iff_lt_or_eq.1 hi with hi | rfl
          · exact hall i hi
          · exact hlast
        · rw [List.replicate_succ']
          exact (Except.ok.inj h).symm
    · rintro ⟨hall, rfl⟩
      refine ⟨_, ih.2 ⟨fun i hi ↦ hall i (Nat.lt_succ_of_lt hi), rfl⟩, ?_⟩
      rw [if_pos (hall n (Nat.lt_succ_self n)), List.replicate_succ']
      rfl

/-- **A round returns whatever the servers reply**, and has decrypted the constant of the enclave
once for each. -/
theorem mcserviceRound_eq_ok_iff {ds : List Decryption} :
    mcserviceRound G quorumSize r = .ok ds ↔ r.Returns quorumSize ∧
      ds = List.replicate quorumSize.toNat
        ⟨none, originalCiphertext, sslDecrypt G originalCiphertext⟩ := by
  by_cases hzero : quorumSize = 0
  · subst hzero
    constructor
    · intro h
      exact ⟨fun hne ↦ absurd rfl hne, (Except.ok.inj h).symm⟩
    · rintro ⟨-, rfl⟩
      rfl
  · -- the three parts of a round, each on its own
    have hencrypt : mcserviceEncryptRound quorumSize r = .ok () ↔ r.encrypts = true := by
      rw [mcserviceEncryptRound, if_neg hzero]
      cases r.encrypts <;> simp
    have hnetwork : mcserviceNetworkRound quorumSize r = .ok () ↔
        (0 < quorumSize → r.status.isSome = true) := by
      rw [mcserviceNetworkRound]
      by_cases hpos : 0 < quorumSize
      · cases r.status <;> simp [hpos]
      · simp [hpos]
    rw [mcserviceRound, CFault.bind_eq_ok]
    simp only [CFault.bind_eq_ok, mcserviceDecryptRound, if_neg hzero, decryptOriginal_eq_ok_iff]
    constructor
    · rintro ⟨_, he, _, hn, hall, rfl⟩
      exact ⟨fun _ ↦ ⟨hencrypt.1 he, hnetwork.1 hn, hall⟩, rfl⟩
    · rintro ⟨hreturns, rfl⟩
      obtain ⟨he, hn, hall⟩ := hreturns hzero
      exact ⟨(), hencrypt.2 he, (), hnetwork.2 hn, hall, rfl⟩

/-- What a round has decrypted is never a reply of a server. -/
theorem server_of_mcserviceRound {ds : List Decryption} (h : mcserviceRound G quorumSize r = .ok ds)
    {d : Decryption} (hd : d ∈ ds) : d.server = none := by
  rw [(mcserviceRound_eq_ok_iff.1 h).2] at hd
  rw [List.eq_of_mem_replicate hd]

/-- So no round confirms the reply of a server. -/
theorem confirmed_mcserviceRound_iff {ds : List Decryption}
    (h : mcserviceRound G quorumSize r = .ok ds) :
    Confirmed quorumSize r ds ↔ quorumSize ≤ 0 := by
  constructor
  · intro hconf
    by_contra hpos
    obtain ⟨d, hd, hserver, -⟩ := hconf 0 (by omega)
    rw [server_of_mcserviceRound h hd] at hserver
    cases hserver
  · intro hle i hi
    rw [Int.toNat_of_nonpos hle] at hi
    exact absurd hi (Nat.not_lt_zero i)

end

/-! ### What an insertion does -/

section

variable {cfg : BuildConfig} {P : Platform} {B : SqlSession D S} {refused : Bool} {G : AesGcm}
  {quorumSize : ℤ} {thetables : List CString} {sign : Option Signature} {r₁ r₂ : CounterRound}
  {st : LogState D} {table : ℕ} {tuple : CString} {out : CountedInsert D}

/-- A transaction is executed once its mutex is free. -/
theorem exists_executeStmtTx_iff (hdo : cfg.doInsert = true) (B : SqlSession D S) (refused : Bool)
    (stmt : Bytes) :
    (∃ st', executeStmtTx cfg B refused st stmt = .ok st') ↔ st.sqliteMutex = false := by
  rw [executeStmtTx, hdo]
  cases st.sqliteMutex <;> simp

/-- What an insertion that has executed its `INSERT` needed, and what it decrypted. -/
theorem reachesInsert_of_executed
    (h : countedInsertStatement cfg P B refused G quorumSize thetables sign r₁ r₂ st table tuple =
      .ok out)
    (hexec : out.executed = true) :
    ReachesInsert cfg quorumSize thetables sign r₁ r₂ st table ∧
      mcserviceRound G quorumSize r₁ = .ok out.round1 ∧
      mcserviceRound G quorumSize r₂ = .ok out.round2 := by
  rw [countedInsertStatement] at h
  rcases hdo : cfg.doInsert with - | -
  · rw [hdo] at h
    cases Except.ok.inj h
    exact absurd hexec Bool.false_ne_true
  rw [hdo] at h
  rcases hname : thetables[table]? with - | name
  · rw [hname] at h
    cases h
  rw [hname] at h
  simp only [Bool.not_true, Bool.false_eq_true, if_false, CFault.bind_eq_ok] at h
  obtain ⟨⟨stmt, st'⟩, hext, h⟩ := h
  -- a thread that waits for the chain does not come to the statement
  have hmutex : st.lasthashMutex = false := by
    rcases hheld : st.lasthashMutex with - | -
    · rfl
    · rw [extendChain, hheld] at hext
      cases hext
  have hdb := (db_of_extendChain hext).1
  rcases extendChain_cases cfg P sign hmutex name tuple with
    ⟨-, -, hext'⟩ | ⟨hsigned, stmt', -, hext'⟩
  · -- the signature has failed
    cases hext.symm.trans hext'
    cases Except.ok.inj h
    exact absurd hexec Bool.false_ne_true
  · cases hext.symm.trans hext'
    simp only [CFault.bind_eq_ok] at h
    obtain ⟨ds₁, h₁, ds₂, h₂, st'', htx, hout⟩ := h
    cases Except.ok.inj hout
    have hsql := (exists_executeStmtTx_iff hdo B refused stmt').1 ⟨_, htx⟩
    exact ⟨⟨hdo, (List.getElem?_eq_some_iff.1 hname).1, hmutex, hsql, hsigned,
      (mcserviceRound_eq_ok_iff.1 h₁).1, (mcserviceRound_eq_ok_iff.1 h₂).1⟩, h₁, h₂⟩

/-- **An insertion that gets that far executes its `INSERT`.** -/
theorem exists_executed (P : Platform) (B : SqlSession D S) (refused : Bool) (G : AesGcm)
    (h : ReachesInsert cfg quorumSize thetables sign r₁ r₂ st table) (tuple : CString) :
    ∃ out, countedInsertStatement cfg P B refused G quorumSize thetables sign r₁ r₂ st table tuple =
      .ok out ∧ out.executed = true := by
  obtain ⟨name, hname⟩ : ∃ name, thetables[table]? = some name :=
    ⟨_, List.getElem?_eq_getElem h.table⟩
  set ds : List Decryption :=
    List.replicate quorumSize.toNat ⟨none, originalCiphertext, sslDecrypt G originalCiphertext⟩
    with hds
  have h₁ : mcserviceRound G quorumSize r₁ = .ok ds := mcserviceRound_eq_ok_iff.2 ⟨h.round1, hds⟩
  have h₂ : mcserviceRound G quorumSize r₂ = .ok ds := mcserviceRound_eq_ok_iff.2 ⟨h.round2, hds⟩
  rcases extendChain_cases cfg P sign h.lasthashMutex name tuple with
    ⟨hsigns, rfl, -⟩ | ⟨-, stmt, -, hext⟩
  · exact absurd (h.sign hsigns) Bool.false_ne_true
  · obtain ⟨st', htx⟩ := (exists_executeStmtTx_iff h.doInsert B refused stmt).2
      ((db_of_extendChain hext).1.trans h.sqliteMutex)
    refine ⟨⟨ds, ds, true, st'⟩, ?_, rfl⟩
    rw [countedInsertStatement, h.doInsert, hname]
    simp only [Bool.not_true, Bool.false_eq_true, if_false, bind, Except.bind, hext, h₁, h₂, htx]
    rfl

/-- The rounds change nothing: an insertion that returns leaves the state that it leaves without
them. -/
theorem insertStatement_of_counted
    (h : countedInsertStatement cfg P B refused G quorumSize thetables sign r₁ r₂ st table tuple =
      .ok out) : insertStatement cfg P B refused thetables sign st table tuple = .ok out.state := by
  rw [countedInsertStatement] at h
  rw [insertStatement]
  rcases hdo : cfg.doInsert with - | -
  · rw [hdo] at h
    cases Except.ok.inj h
    rfl
  rw [hdo] at h
  rcases hname : thetables[table]? with - | name
  · rw [hname] at h
    cases h
  rw [hname] at h
  simp only [Bool.not_true, Bool.false_eq_true, if_false, CFault.bind_eq_ok] at h ⊢
  obtain ⟨⟨stmt, st'⟩, hext, h⟩ := h
  refine ⟨(stmt, st'), hext, ?_⟩
  rcases stmt with - | stmt
  · cases Except.ok.inj h
    rfl
  · simp only [CFault.bind_eq_ok] at h
    obtain ⟨_, -, _, -, st'', htx, hout⟩ := h
    cases Except.ok.inj hout
    exact htx

/-- **The rounds fail closed** exactly when the `INSERT` is not reached, or there is no server whose
reply could be asked for. -/
theorem failsClosed_iff :
    FailsClosed cfg P B refused G quorumSize thetables sign r₁ r₂ st table tuple ↔
      (ReachesInsert cfg quorumSize thetables sign r₁ r₂ st table → quorumSize ≤ 0) := by
  constructor
  · intro h hreach
    obtain ⟨out, hout, hexec⟩ := exists_executed P B refused G hreach tuple
    obtain ⟨-, h₁, -⟩ := reachesInsert_of_executed hout hexec
    exact (confirmed_mcserviceRound_iff h₁).1 (h out hout hexec).1
  · intro h out hout hexec
    obtain ⟨hreach, h₁, h₂⟩ := reachesInsert_of_executed hout hexec
    exact ⟨(confirmed_mcserviceRound_iff h₁).2 (h hreach),
      (confirmed_mcserviceRound_iff h₂).2 (h hreach)⟩

end

/-! ### The servers -/

/-- `read_process_message` of a server: it decrypts the message and encrypts what it has got, under
the same key and an IV that is a constant too. Behind a failed authentication it goes on with
whatever is in its buffer. -/
def serverReply (G : AesGcm) (unverified message : Bytes) : Bytes :=
  let clear := (sslDecrypt G message).getD unverified
  let iv := ascii "0123456789012345"
  let (ciphertext, tag) := G.encrypt counterKey iv clear
  iv ++ tag ++ ciphertext

/-- **An honest server replies to the constant of the enclave with that constant.** -/
theorem serverReply_originalCiphertext {G : AesGcm} (hG : G.Authentic) (unverified : Bytes)
    (h : (sslDecrypt G originalCiphertext).isSome = true) :
    serverReply G unverified originalCiphertext = originalCiphertext := by
  obtain ⟨clear, hclear⟩ := Option.isSome_iff_exists.1 h
  have hencrypt := (hG _ _ _ _ _).1 hclear
  have hiv : originalCiphertext.take 16 = ascii "0123456789012345" := by decide
  rw [hiv] at hencrypt
  rw [serverReply, hclear]
  simp only [Option.getD_some, hencrypt]
  decide

/-! ### A host that talks to nobody -/

/-- AES-GCM, as far as the constant of the enclave is concerned. -/
def originalGcm : AesGcm where
  encrypt key iv plaintext :=
    if key = counterKey ∧ iv = originalCiphertext.take 16 ∧ plaintext = originalPlaintext then
      (originalCiphertext.drop 32, (originalCiphertext.drop 16).take 16)
    else ([], [])
  decrypt key iv tag ciphertext :=
    if key = counterKey ∧ iv = originalCiphertext.take 16 ∧
        tag = (originalCiphertext.drop 16).take 16 ∧ ciphertext = originalCiphertext.drop 32 then
      some originalPlaintext
    else none

/-- The host answers the call with an error and has asked no server. -/
def failedRound : CounterRound := ⟨true, some 1, fun _ ↦ none, fun _ ↦ true⟩

/-- A database that takes note of the texts it executes. -/
def textEngine : SqlEngine (List Bytes) Bytes :=
  ⟨fun text ↦ [text], fun d text ↦ some (d ++ [text])⟩

/-- The row is stored although both calls have failed. -/
theorem not_failsClosed_of_failed_ocall :
    ¬ FailsClosed ⟨true, true, true, true⟩ zeroPlatform textEngine.session false originalGcm 1
      [.ofBuffer (ascii "updates")] (some smallSignature) failedRound failedRound (LogState.init [])
      0 (.ofBuffer (ascii "0,\"r\",\"b\",\"0123\",\"c\",1")) := by
  intro h
  have hreturns : failedRound.Returns 1 := fun _ ↦ ⟨rfl, fun _ ↦ rfl, fun _ _ ↦ rfl⟩
  have hreach : ReachesInsert ⟨true, true, true, true⟩ 1 [.ofBuffer (ascii "updates")]
      (some smallSignature) failedRound failedRound (LogState.init ([] : List Bytes)) 0 :=
    ⟨rfl, Nat.one_pos, rfl, rfl, fun _ ↦ rfl, hreturns, hreturns⟩
  obtain ⟨out, hout, hexec⟩ := exists_executed zeroPlatform textEngine.session false originalGcm
    hreach (.ofBuffer (ascii "0,\"r\",\"b\",\"0123\",\"c\",1"))
  obtain ⟨d, -, -, hreply, -⟩ := (h out hout hexec).1 0 (by decide)
  cases hreply

end LibSeal
