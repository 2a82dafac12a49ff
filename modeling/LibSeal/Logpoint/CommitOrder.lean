import LibSeal.Logpoint.ChainHead
import LibSeal.Logpoint.Threads

/-!
# The order of the chain and the order of the rows

`insert_statement` chains its row under `lasthash_mutex` and stores it, after that mutex has been
released, under `sqlite_mutex`. Two threads may take the second mutex in another order than the
first. Then the rows are not stored in the order in which they are chained, and a crash in between
leaves a row without the one before it (`not_prefix_of_overtaking`).

The place of a row in the chain is a ticket. If the rows are stored in the order of their tickets,
the rows stored are always a beginning of the chain (`prefix_chain_of_reaches`). What is shown of
every state is that the tickets from the number of rows stored up to the length of the chain are
held by one thread each.
-/

namespace LibSeal

open Bytes HashChain Interleaving

variable {D S T : Type} {A : Auditor} (cfg : LogpointConfig) (P : Platform) (E : SqlEngine D S)
  (rows : D → List (InsertCall A × HashText))

/-- A thread waits to store the row at a place of the chain. -/
def Waits (c : Config T (LogpointState A D) (Instruction A)) (t : T) (n : ℕ) : Prop :=
  ∃ stmt, c.code t = [.executeStmtTx stmt (some n)]

/-- **The steps succeed**: the signature, if the build signs, and the statement, which adds its row
to those that are stored. -/
def InsertSucceeds (c : Config T (LogpointState A D) (Instruction A)) : Instruction A → Prop
  | .insertStatement _ sign => cfg.signs = true → sign.isSome = true
  | .executeStmtTx stmt row => ∀ n, row = some n → ∀ r, c.shared.chain[n]? = some r →
      rows (E.exec c.shared.log.db.content (cStr stmt)).1 = rows c.shared.log.db.content ++ [r]
  | _ => True

/-- **No row is overtaken**: a row is stored only if no row that has been chained before it
waits. -/
def StoresInOrder (c : Config T (LogpointState A D) (Instruction A)) (i : Instruction A) : Prop :=
  ∀ stmt n, i = .executeStmtTx stmt (some n) → ∀ u m, Waits c u m → n ≤ m

/-- What holds while no row is overtaken. -/
structure CommitInvariant (cfg : LogpointConfig) (P : Platform)
    (rows : D → List (InsertCall A × HashText))
    (c : Config T (LogpointState A D) (Instruction A)) : Prop where
  /-- Without `SQLITE_DO_INSERT` nothing is chained. -/
  doInsert : c.shared.chain ≠ [] → cfg.doInsert = true
  lasthashMutex : c.shared.log.lasthashMutex = false
  noTransaction : c.shared.NoTransaction
  /-- The chain ends in `lasthash`. -/
  linked : Linked (sha256 P) chainText HashText.empty c.shared.chain c.shared.log.lasthash
  /-- The rows stored are a beginning of it. -/
  stored : rows c.shared.log.db.content =
    c.shared.chain.take (rows c.shared.log.db.content).length
  code : ∀ t, c.code t = [] ∨ (∃ r sign, c.code t = [.insertStatement r sign]) ∨
    ∃ n, Waits c t n ∧ (rows c.shared.log.db.content).length ≤ n ∧ n < c.shared.chain.length
  /-- Every row that is chained and not stored is waited for, -/
  waiting : ∀ n, (rows c.shared.log.db.content).length ≤ n → n < c.shared.chain.length →
    ∃ t, Waits c t n
  /-- by one thread. -/
  distinct : ∀ t u n, Waits c t n → Waits c u n → t = u

variable {cfg P E rows}

theorem CommitInvariant.init {d : D} (hd : rows d = []) :
    CommitInvariant cfg P rows
      (.init (.init d) : Config T (LogpointState A D) (Instruction A)) where
  doInsert h := absurd rfl h
  lasthashMutex := rfl
  noTransaction := ⟨rfl, rfl⟩
  linked := rfl
  stored := by
    show rows d = List.take _ []
    rw [hd, List.take_nil]
  code _ := Or.inl rfl
  waiting n _ hn := absurd hn (Nat.not_lt_zero n)
  distinct _ _ _ h _ := nomatch h

/-- The rows stored are no more than those chained. -/
theorem CommitInvariant.length_le {c : Config T (LogpointState A D) (Instruction A)}
    (h : CommitInvariant cfg P rows c) :
    (rows c.shared.log.db.content).length ≤ c.shared.chain.length := by
  have hlen := congrArg List.length h.stored
  rw [List.length_take] at hlen
  omega

/-- A ticket is the place of a row that is chained and not stored. -/
theorem CommitInvariant.bounds {c : Config T (LogpointState A D) (Instruction A)}
    (h : CommitInvariant cfg P rows c) {t : T} {n : ℕ} (hwaits : Waits c t n) :
    (rows c.shared.log.db.content).length ≤ n ∧ n < c.shared.chain.length := by
  obtain ⟨stmt, hstmt⟩ := hwaits
  rcases h.code t with hcode | ⟨r, sign, hcode⟩ | ⟨m, ⟨stmt', hcode⟩, hm⟩
  · exact nomatch hcode.symm.trans hstmt
  · exact nomatch hcode.symm.trans hstmt
  · cases hcode.symm.trans hstmt
    exact hm

variable [DecidableEq T]

/-- Who waits after a step. -/
theorem waits_resume_iff {c : Config T (LogpointState A D) (Instruction A)} {t u : T}
    {s : LogpointState A D} {l : List (Instruction A)} {n : ℕ} :
    Waits (c.resume t s l) u n ↔
      (u = t ∧ ∃ stmt, l = [.executeStmtTx stmt (some n)]) ∨ u ≠ t ∧ Waits c u n := by
  rcases eq_or_ne u t with rfl | hne
  · rw [Waits, Config.code_resume_self]
    simp
  · rw [Waits, Config.code_resume_of_ne c hne, Waits]
    simp [hne]

namespace CommitInvariant

variable {c : Config T (LogpointState A D) (Instruction A)}

/-- A thread that waits for no row goes on without one. -/
theorem resume (h : CommitInvariant cfg P rows c) {t : T} (ht : ∀ n, ¬ Waits c t n)
    {l : List (Instruction A)} (hl : l = [] ∨ ∃ r sign, l = [.insertStatement r sign]) :
    CommitInvariant cfg P rows (c.resume t c.shared l) := by
  have hwaits : ∀ u n, Waits (c.resume t c.shared l) u n ↔ Waits c u n := by
    intro u n
    rw [waits_resume_iff]
    constructor
    · rintro (⟨-, stmt, rfl⟩ | ⟨-, hu⟩)
      · rcases hl with hl | ⟨_, _, hl⟩
        · exact nomatch hl
        · exact nomatch hl
      · exact hu
    · intro hu
      refine Or.inr ⟨?_, hu⟩
      rintro rfl
      exact ht n hu
  refine ⟨h.doInsert, h.lasthashMutex, h.noTransaction, h.linked, h.stored, fun u ↦ ?_, ?_, ?_⟩
  · simp only [hwaits]
    rcases eq_or_ne u t with rfl | hne
    · rw [Config.code_resume_self]
      exact hl.imp_right Or.inl
    · rw [Config.code_resume_of_ne c hne]
      exact h.code u
  · simp only [hwaits]
    exact h.waiting
  · simp only [hwaits]
    exact h.distinct

/-- **A row is chained**: its thread waits with the next ticket. -/
theorem chain (hadd : cfg.addHash = true) (hdo : cfg.doInsert = true)
    (h : CommitInvariant cfg P rows c) {t : T} {r : InsertCall A} {sign : Option Signature}
    (hcode : c.code t = [.insertStatement r sign]) (hsign : cfg.signs = true → sign.isSome = true) :
    CommitInvariant cfg P rows (c.resume t
      ((Instruction.insertStatement r sign).exec cfg P E c.shared).1
      (((Instruction.insertStatement r sign).exec cfg P E c.shared).2 ++ [])) := by
  obtain ⟨stmt, -, hexec⟩ :=
    Instruction.exec_insertStatement cfg hdo P E h.lasthashMutex r sign hsign
  have hnew : newLasthash cfg.toBuildConfig P c.shared.log.lasthash r.name r.tuple =
      nextHash P c.shared.log.lasthash r.name r.tuple := if_pos hadd
  rw [hexec, hnew]
  have hle := h.length_le
  have hidle : ∀ n, ¬ Waits c t n := by
    rintro n ⟨stmt', hstmt⟩
    rw [hcode] at hstmt
    exact nomatch hstmt
  -- the new ticket is the length of the chain so far
  have hwaits : ∀ s u n, Waits (c.resume t s ([.executeStmtTx stmt (some c.shared.chain.length)] ++
      [])) u n ↔ u = t ∧ n = c.shared.chain.length ∨ Waits c u n := by
    intro s u n
    rw [waits_resume_iff]
    constructor
    · rintro (⟨rfl, stmt', hstmt⟩ | ⟨-, hu⟩)
      · cases hstmt
        exact Or.inl ⟨rfl, rfl⟩
      · exact Or.inr hu
    · rintro (⟨rfl, rfl⟩ | hu)
      · exact Or.inl ⟨rfl, stmt, rfl⟩
      · refine Or.inr ⟨?_, hu⟩
        rintro rfl
        exact hidle n hu
  refine ⟨fun _ ↦ hdo, h.lasthashMutex, h.noTransaction, Linked.concat _ _ h.linked r,
    h.stored.trans (List.take_append_of_le_length hle).symm, fun u ↦ ?_, ?_, ?_⟩
  · simp only [hwaits, Config.shared_resume, List.length_append, List.length_singleton]
    rcases eq_or_ne u t with rfl | hne
    · exact Or.inr (Or.inr ⟨c.shared.chain.length, Or.inl ⟨rfl, rfl⟩, hle, Nat.lt_succ_self _⟩)
    · rw [Config.code_resume_of_ne c hne]
      refine (h.code u).imp_right (Or.imp_right ?_)
      rintro ⟨n, hn, hbounds⟩
      exact ⟨n, Or.inr hn, hbounds.1, hbounds.2.trans (Nat.lt_succ_self _)⟩
  · simp only [hwaits, Config.shared_resume, List.length_append, List.length_singleton]
    intro n hn hlt
    rcases Nat.lt_succ_iff_lt_or_eq.1 hlt with hlt | rfl
    · obtain ⟨u, hu⟩ := h.waiting n hn hlt
      exact ⟨u, Or.inr hu⟩
    · exact ⟨t, Or.inl ⟨rfl, rfl⟩⟩
  · simp only [hwaits]
    rintro u v n (⟨rfl, rfl⟩ | hu) (⟨rfl, hn⟩ | hv)
    · rfl
    · exact absurd (h.bounds hv).2 (lt_irrefl _)
    · exact absurd (hn ▸ (h.bounds hu).2) (lt_irrefl _)
    · exact h.distinct u v n hu hv

/-- **A row is stored**: if it is not overtaken, it is the next of the chain. -/
theorem store (hdo : cfg.doInsert = true) (h : CommitInvariant cfg P rows c) {t : T} {stmt : Bytes}
    {n : ℕ} (hcode : c.code t = [.executeStmtTx stmt (some n)])
    (hsucceeds : InsertSucceeds cfg E rows c (.executeStmtTx stmt (some n)))
    (horder : StoresInOrder c (.executeStmtTx stmt (some n))) :
    CommitInvariant cfg P rows (c.resume t
      ((Instruction.executeStmtTx stmt (some n)).exec cfg P E c.shared).1
      (((Instruction.executeStmtTx stmt (some n)).exec cfg P E c.shared).2 ++ [])) := by
  have hwaits : Waits c t n := ⟨stmt, hcode⟩
  obtain ⟨hn, hlt⟩ := h.bounds hwaits
  -- the first row that is not stored is waited for, so it is this one
  obtain ⟨u, hu⟩ := h.waiting _ le_rfl (hn.trans_lt hlt)
  obtain rfl : n = (rows c.shared.log.db.content).length :=
    le_antisymm (horder stmt n rfl u _ hu) hn
  set k := (rows c.shared.log.db.content).length with hk
  have hrows : rows (E.exec c.shared.log.db.content (cStr stmt)).1 =
      c.shared.chain.take (k + 1) := by
    rw [hsucceeds k rfl _ (List.getElem?_eq_getElem hlt), h.stored, List.take_concat_get' _ _ hlt]
  have hlength : (rows (E.exec c.shared.log.db.content (cStr stmt)).1).length = k + 1 := by
    rw [hrows, List.length_take]
    omega
  rw [Instruction.exec_executeStmtTx cfg hdo P E h.noTransaction]
  have hwaits' : ∀ s v m, Waits (c.resume t s ([] ++ [])) v m ↔ v ≠ t ∧ Waits c v m := by
    intro s v m
    rw [waits_resume_iff]
    simp
  have hnext : ∀ {v m}, v ≠ t → Waits c v m → k + 1 ≤ m := by
    intro v m hne hv
    refine Nat.lt_of_le_of_ne (h.bounds hv).1 ?_
    rintro rfl
    exact hne (h.distinct v t _ hv hwaits)
  refine ⟨h.doInsert, h.lasthashMutex, ⟨h.noTransaction.1, rfl⟩, h.linked, ?_, fun v ↦ ?_, ?_, ?_⟩
  · show rows (E.exec c.shared.log.db.content (cStr stmt)).1 = c.shared.chain.take
      (rows (E.exec c.shared.log.db.content (cStr stmt)).1).length
    rw [hlength, hrows]
  · simp only [hwaits', Config.shared_resume, hlength]
    rcases eq_or_ne v t with rfl | hne
    · rw [Config.code_resume_self]
      exact Or.inl rfl
    · rw [Config.code_resume_of_ne c hne]
      refine (h.code v).imp_right (Or.imp_right ?_)
      rintro ⟨m, hm, -, hbound⟩
      exact ⟨m, ⟨hne, hm⟩, hnext hne hm, hbound⟩
  · simp only [hwaits', Config.shared_resume, hlength]
    intro m hm hbound
    obtain ⟨v, hv⟩ := h.waiting m (Nat.le_of_succ_le hm) hbound
    refine ⟨v, ?_, hv⟩
    rintro rfl
    obtain ⟨stmt', hstmt⟩ := hv
    cases hcode.symm.trans hstmt
    exact absurd hm (Nat.not_succ_le_self _)
  · simp only [hwaits']
    exact fun v w m hv hw ↦ h.distinct v w m hv.2 hw.2

/-- **A step** keeps the invariant. -/
theorem step (hadd : cfg.addHash = true) (h : CommitInvariant cfg P rows c) {t : T}
    {i : Instruction A} {rest : List (Instruction A)} (hcode : c.code t = i :: rest)
    (hsucceeds : InsertSucceeds cfg E rows c i) (horder : StoresInOrder c i) :
    CommitInvariant cfg P rows (c.resume t (i.exec cfg P E c.shared).1
      ((i.exec cfg P E c.shared).2 ++ rest)) := by
  rcases h.code t with hnil | ⟨r, sign, hinsert⟩ | ⟨n, ⟨stmt, hstore⟩, -⟩
  · exact nomatch hnil.symm.trans hcode
  · obtain ⟨rfl, rfl⟩ := List.cons.inj (hinsert.symm.trans hcode)
    rcases hdo : cfg.doInsert with - | -
    · have hexec : (Instruction.insertStatement r sign).exec cfg P E c.shared = (c.shared, []) := by
        rw [Instruction.exec, hdo]
        rfl
      rw [hexec]
      refine h.resume ?_ (Or.inl rfl)
      rintro n ⟨stmt, hstmt⟩
      cases hinsert.symm.trans hstmt
    · exact h.chain hadd hdo hinsert hsucceeds
  · obtain ⟨rfl, rfl⟩ := List.cons.inj (hstore.symm.trans hcode)
    have hdo : cfg.doInsert = true := h.doInsert
      (List.ne_nil_of_length_pos ((Nat.zero_le n).trans_lt (h.bounds ⟨stmt, hstore⟩).2))
    exact h.store hdo hstore hsucceeds horder

end CommitInvariant

/-- **If no row is overtaken, the rows stored are a beginning of the chain**, in every state that
any number of threads reach by successful steps; so what is stored can be verified from its first
row to its last. -/
theorem prefix_chain_of_reaches (hadd : cfg.addHash = true) {d : D} (hd : rows d = [])
    {c : Config T (LogpointState A D) (Instruction A)}
    (h : Interleaving.Reaches (insertSystem cfg P E)
      (fun c _ i ↦ InsertSucceeds cfg E rows c i ∧ StoresInOrder c i) (.init d) c) :
    rows c.shared.log.db.content <+: c.shared.chain ∧
      ∃ e, Linked (sha256 P) chainText HashText.empty (rows c.shared.log.db.content) e := by
  have hinv : CommitInvariant cfg P rows c := by
    refine h.invariant (.init hd) ?_ ?_
    · rintro c t l hc hidle ⟨r, sign, rfl⟩
      refine hc.resume ?_ (Or.inr ⟨r, sign, rfl⟩)
      rintro n ⟨stmt, hstmt⟩
      exact nomatch hidle.symm.trans hstmt
    · rintro c t i rest hc hcode ⟨hsucceeds, horder⟩
      exact hc.step hadd hcode hsucceeds horder
  rw [hinv.stored]
  exact ⟨List.take_prefix _ _, hinv.linked.take _ _ _⟩

/-! ### Concrete runs -/

/-- A thread chains its row. -/
theorem reaches_chain (hdo : cfg.doInsert = true) {s₀ : LogpointState A D}
    {ok : Config T (LogpointState A D) (Instruction A) → T → Instruction A → Prop}
    {c : Config T (LogpointState A D) (Instruction A)}
    (h : Interleaving.Reaches (insertSystem cfg P E) ok s₀ c) {t : T} {r : InsertCall A}
    {sign : Option Signature} (hcode : c.code t = [.insertStatement r sign])
    (hmutex : c.shared.log.lasthashMutex = false) (hok : ok c t (.insertStatement r sign))
    (hsign : cfg.signs = true → sign.isSome = true) :
    ∃ stmt, cStr stmt = statementText cfg.toBuildConfig P c.shared.log.lasthash r.name r.tuple ∧
      Interleaving.Reaches (insertSystem cfg P E) ok s₀ (c.resume t { c.shared with
        log := { c.shared.log with
          lasthash := newLasthash cfg.toBuildConfig P c.shared.log.lasthash r.name r.tuple }
        chain := c.shared.chain ++
          [(r, newLasthash cfg.toBuildConfig P c.shared.log.lasthash r.name r.tuple)] }
        [.executeStmtTx stmt (some c.shared.chain.length)]) := by
  obtain ⟨stmt, htext, hexec⟩ := Instruction.exec_insertStatement cfg hdo P E hmutex r sign hsign
  have hstep := h.step t (.insertStatement r sign) [] hcode hok
  rw [exec_insertSystem, hexec] at hstep
  exact ⟨stmt, htext, hstep⟩

/-- A thread stores its row. -/
theorem reaches_store (hdo : cfg.doInsert = true) {s₀ : LogpointState A D}
    {ok : Config T (LogpointState A D) (Instruction A) → T → Instruction A → Prop}
    {c : Config T (LogpointState A D) (Instruction A)}
    (h : Interleaving.Reaches (insertSystem cfg P E) ok s₀ c) {t : T} {stmt : Bytes}
    {row : Option ℕ} (hcode : c.code t = [.executeStmtTx stmt row])
    (hfree : c.shared.NoTransaction) (hok : ok c t (.executeStmtTx stmt row)) :
    Interleaving.Reaches (insertSystem cfg P E) ok s₀ (c.resume t { c.shared with
      log := { c.shared.log with db := ⟨(E.exec c.shared.log.db.content (cStr stmt)).1, none⟩ }
      transactions := c.shared.transactions ++ [(cStr stmt, c.shared.log.db.content)] } []) := by
  have hstep := h.step t (.executeStmtTx stmt row) [] hcode hok
  rwa [exec_insertSystem, Instruction.exec_executeStmtTx cfg hdo P E hfree] at hstep

/-- A build that hashes the rows and does not check them. -/
def hashRows : LogpointConfig where
  sgx := true
  doInsert := true
  addHash := true
  doSign := false
  doCheck := false
  doTrimming := false
  checkAfter := 1
  checkAfter_pos := Int.one_pos
  checkAfter_lt := one_lt_checkAfter_bound
  auditStatements := []
  trimmingStatements := []

/-- The row of a push, and the row of an advertisement chained to it. -/
def pushRow : InsertCall .git × HashText :=
  (pushCall, nextHash twoRowPlatform HashText.empty pushCall.name pushCall.tuple)

@[inherit_doc pushRow]
def advertisementRow : InsertCall .git × HashText :=
  (advertisementCall, nextHash twoRowPlatform pushRow.2 advertisementCall.name
    advertisementCall.tuple)

/-- The state after both rows have been chained. -/
def bothChained : LogpointState .git (List (InsertCall .git × HashText)) where
  log := ⟨advertisementRow.2, false, false, ⟨[], none⟩⟩
  docheck := 0
  chain := [pushRow, advertisementRow]
  transactions := []
  audits := 0
  completed := 0

/-- **Two threads chain a push and an advertisement**, and wait to store them. -/
theorem exists_bothChained
    (ok : Config Bool (LogpointState .git (List (InsertCall .git × HashText)))
      (Instruction .git) → Bool → Instruction .git → Prop)
    (hok : ∀ c t r, ok c t (.insertStatement r none)) :
    ∃ c, Interleaving.Reaches (insertSystem hashRows twoRowPlatform gitEngine) ok (.init []) c ∧
      c.shared = bothChained ∧
      (∃ stmt, c.code false = [.executeStmtTx stmt (some 0)] ∧ cStr stmt =
        statementText hashRows.toBuildConfig twoRowPlatform HashText.empty pushCall.name
          pushCall.tuple) ∧
      ∃ stmt, c.code true = [.executeStmtTx stmt (some 1)] ∧ cStr stmt =
        statementText hashRows.toBuildConfig twoRowPlatform pushRow.2 advertisementCall.name
          advertisementCall.tuple := by
  have h1 : Interleaving.Reaches (insertSystem hashRows twoRowPlatform gitEngine) ok (.init []) _ :=
    .call false [.insertStatement pushCall none] .init rfl ⟨_, _, rfl⟩
  have h2 := h1.call true [.insertStatement advertisementCall none] rfl ⟨_, _, rfl⟩
  obtain ⟨push, hpush, h3⟩ := reaches_chain rfl h2 (t := false) rfl rfl (hok _ _ _) (by decide)
  obtain ⟨advertisement, hadvertisement, h4⟩ :=
    reaches_chain rfl h3 (t := true) rfl rfl (hok _ _ _) (by decide)
  exact ⟨_, h4, rfl, ⟨push, rfl, hpush⟩, advertisement, rfl, hadvertisement⟩

/-- The push is stored first: it is the beginning of the chain. -/
theorem prefix_chain_of_push_first :
    ∃ c : Config Bool (LogpointState .git (List (InsertCall .git × HashText))) (Instruction .git),
      c.shared.log.db.content = [pushRow] ∧ c.shared.chain = [pushRow, advertisementRow] ∧
        c.shared.log.db.content <+: c.shared.chain := by
  obtain ⟨c, hc, hshared, ⟨stmt, hcode, htext⟩, stmt', hcode', -⟩ :=
    exists_bothChained (fun c _ i ↦ InsertSucceeds hashRows gitEngine id c i ∧
      StoresInOrder c i) fun c t r ↦ ⟨fun h ↦ absurd h (by decide), fun _ _ h ↦ nomatch h⟩
  have hstored : (gitEngine.exec [] (cStr stmt)).1 = [pushRow] := by
    rw [htext]
    decide +kernel
  have hsucceeds : InsertSucceeds hashRows gitEngine id c (.executeStmtTx stmt (some 0)) := by
    intro n hn r hr
    cases hn
    rw [hshared] at hr ⊢
    cases hr
    exact hstored
  have hreach := reaches_store rfl hc hcode (hshared ▸ ⟨rfl, rfl⟩)
    ⟨hsucceeds, fun _ _ h _ _ _ ↦ by cases h; exact Nat.zero_le _⟩
  refine ⟨_, ?_, ?_, (prefix_chain_of_reaches rfl rfl hreach).1⟩
  · rw [Config.shared_resume, hshared]
    exact hstored
  · rw [Config.shared_resume, hshared]
    rfl

/-- The advertisement overtakes the push: what is stored is not the beginning of the chain. -/
theorem not_prefix_of_overtaking :
    ∃ c : Config Bool (LogpointState .git (List (InsertCall .git × HashText))) (Instruction .git),
      Interleaving.Reaches (insertSystem hashRows twoRowPlatform gitEngine)
        (fun c _ i ↦ InsertSucceeds hashRows gitEngine id c i) (.init []) c ∧
      ¬ c.shared.log.db.content <+: c.shared.chain := by
  obtain ⟨c, hc, hshared, -, stmt, hcode, htext⟩ :=
    exists_bothChained (fun c _ i ↦ InsertSucceeds hashRows gitEngine id c i)
      fun c t r h ↦ absurd h (by decide)
  have hstored : (gitEngine.exec [] (cStr stmt)).1 = [advertisementRow] := by
    rw [htext]
    decide +kernel
  have hreach := reaches_store rfl hc hcode (hshared ▸ ⟨rfl, rfl⟩) fun n hn r hr ↦ by
    cases hn
    rw [hshared] at hr ⊢
    cases hr
    exact hstored
  refine ⟨_, hreach, ?_⟩
  rw [Config.shared_resume, hshared]
  show ¬ (gitEngine.exec [] (cStr stmt)).1 <+: [pushRow, advertisementRow]
  rw [hstored]
  decide +kernel

end LibSeal
