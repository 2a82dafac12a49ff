import LibSeal.Logpoint.CommitOrder

/-!
# No row is lost

Whole calls of `logpoint_log`, with any number of rows each, in any number of threads. The rows need
not be stored in the order in which they are chained, but each of them is somewhere at any time: it
has been stored, or it is chained and the thread that has chained it holds its statement, or it has
still to be chained (`conserved_of_reachesBy`). When no call is in progress the rows stored are
those of the calls, each once, and can be put in the order of the chain.

The steps are to succeed, and the statements of the auditing module to leave the rows alone, as its
audits do and its trimming does not.
-/

namespace LibSeal

open Bytes HashChain Interleaving

variable {D S T : Type} {A : Auditor}

/-! ### What is still to be done -/

/-- The rows that a thread has still to chain. -/
def callsToInsert (l : List (Instruction A)) : Multiset (InsertCall A) :=
  l.filterMap fun
    | .insertStatement c _ => some c
    | _ => none

/-- The rows that are chained and that a thread has still to store. -/
def rowsToStore (chain : List (InsertCall A × HashText)) (l : List (Instruction A)) :
    Multiset (InsertCall A × HashText) :=
  l.filterMap fun
    | .executeStmtTx _ (some n) => chain[n]?
    | _ => none

/-- The places of these rows are places in the chain. -/
def TicketsInRange (length : ℕ) (l : List (Instruction A)) : Prop :=
  ∀ stmt n, .executeStmtTx stmt (some n) ∈ l → n < length

theorem callsToInsert_append (l l' : List (Instruction A)) :
    callsToInsert (l ++ l') = callsToInsert l + callsToInsert l' := by
  rw [callsToInsert, List.filterMap_append, ← Multiset.coe_add]
  rfl

theorem rowsToStore_append (chain : List (InsertCall A × HashText)) (l l' : List (Instruction A)) :
    rowsToStore chain (l ++ l') = rowsToStore chain l + rowsToStore chain l' := by
  rw [rowsToStore, List.filterMap_append, ← Multiset.coe_add]
  rfl

/-- They are the same rows when the chain has grown. -/
theorem rowsToStore_grow {chain : List (InsertCall A × HashText)} {l : List (Instruction A)}
    (h : TicketsInRange chain.length l) (more : List (InsertCall A × HashText)) :
    rowsToStore (chain ++ more) l = rowsToStore chain l := by
  refine congrArg _ (List.filterMap_congr fun i hi ↦ ?_)
  split
  · exact List.getElem?_append_left (h _ _ hi)
  · rfl

/-- An audit and a trimming neither chain nor store a row. -/
theorem checkCode_quiet {cfg : LogpointConfig} :
    ∀ j ∈ checkCode (A := A) cfg, (∀ c sign, j ≠ .insertStatement c sign) ∧
      ∀ stmt n, j ≠ .executeStmtTx stmt (some n) := by
  intro j hj
  rw [checkCode, List.mem_append, List.mem_cons] at hj
  rcases hj with hj | rfl | hj
  · obtain ⟨stmt, -, rfl⟩ := List.mem_map.1 hj
    exact ⟨fun _ _ ↦ (nomatch ·), fun _ _ ↦ (nomatch ·)⟩
  · exact ⟨fun _ _ ↦ (nomatch ·), fun _ _ ↦ (nomatch ·)⟩
  · split_ifs at hj
    · obtain ⟨stmt, -, rfl⟩ := List.mem_map.1 hj
      exact ⟨fun _ _ ↦ (nomatch ·), fun _ _ ↦ (nomatch ·)⟩
    · cases hj

/-! ### Conservation -/

/-- **A statement succeeds**: that of a row adds it, and that of the auditing module leaves the rows
alone. -/
def LogSucceeds (cfg : LogpointConfig) (E : SqlEngine D S)
    (rows : D → List (InsertCall A × HashText))
    (c : Config T (LogpointState A D) (Instruction A)) (i : Instruction A) : Prop :=
  InsertSucceeds cfg E rows c i ∧ ∀ stmt, i = .executeStmtTx stmt none →
    rows (E.exec c.shared.log.db.content (cStr stmt)).1 = rows c.shared.log.db.content

/-- Where the rows of some calls are. -/
structure Conserved [Fintype T] (P : Platform) (rows : D → List (InsertCall A × HashText))
    (calls : List (List (Instruction A))) (c : Config T (LogpointState A D) (Instruction A)) :
    Prop where
  lasthashMutex : c.shared.log.lasthashMutex = false
  noTransaction : c.shared.NoTransaction
  linked : Linked (sha256 P) chainText HashText.empty c.shared.chain c.shared.log.lasthash
  inRange : ∀ t, TicketsInRange c.shared.chain.length (c.code t)
  /-- A row of the chain is stored, or some thread has still to store it. -/
  stored : (rows c.shared.log.db.content : Multiset (InsertCall A × HashText)) +
    c.gather (rowsToStore c.shared.chain) = (c.shared.chain : Multiset _)
  /-- A row of a call is chained, or some thread has still to chain it. -/
  chained : (c.shared.chain.map Prod.fst : Multiset (InsertCall A)) + c.gather callsToInsert =
    callsToInsert calls.flatten

section

variable [Fintype T] {cfg : LogpointConfig} {P : Platform} {E : SqlEngine D S}
  {rows : D → List (InsertCall A × HashText)} {calls : List (List (Instruction A))}
  {c : Config T (LogpointState A D) (Instruction A)}

theorem Conserved.init {d : D} (hd : rows d = []) :
    Conserved P rows [] (.init (.init d) : Config T (LogpointState A D) (Instruction A)) where
  lasthashMutex := rfl
  noTransaction := ⟨rfl, rfl⟩
  linked := rfl
  inRange _ _ _ h := (nomatch h)
  stored := by
    rw [Config.gather_of_idle (f := rowsToStore _) rfl fun _ ↦ rfl]
    show ((rows d : List _) : Multiset (InsertCall A × HashText)) + 0 = _
    rw [hd]
    rfl
  chained := by
    rw [Config.gather_of_idle (f := callsToInsert) rfl fun _ ↦ rfl]
    rfl

variable [DecidableEq T]

/-- A call begins with nothing to store. -/
theorem Conserved.call (h : Conserved P rows calls c) {t : T} {l : List (Instruction A)}
    (hidle : c.code t = []) (hl : ∃ inserts, l = logpointLog cfg inserts) :
    Conserved P rows (calls ++ [l]) (c.resume t c.shared l) := by
  obtain ⟨inserts, rfl⟩ := hl
  have hticket : ∀ stmt row, .executeStmtTx stmt row ∉ logpointLog cfg inserts := by
    intro stmt row hmem
    simp only [logpointLog, List.mem_append, List.mem_map, List.mem_singleton] at hmem
    rcases hmem with (⟨x, -, hx⟩ | hmem) | hmem
    · cases hx
    · split_ifs at hmem <;> simp at hmem
    · cases hmem
  have hstore : rowsToStore c.shared.chain (logpointLog cfg inserts) = 0 := by
    rw [rowsToStore, Multiset.coe_eq_zero, List.filterMap_eq_nil_iff]
    intro i hi
    split
    · exact absurd hi (hticket _ _)
    · rfl
  refine ⟨h.lasthashMutex, h.noTransaction, h.linked, fun u ↦ ?_, ?_, ?_⟩
  · rw [Config.shared_resume]
    rcases eq_or_ne u t with rfl | hu
    · rw [Config.code_resume_self]
      exact fun stmt n hmem ↦ absurd hmem (hticket stmt _)
    · rw [Config.code_resume_of_ne c hu]
      exact h.inRange u
  · have hgather := c.gather_resume (rowsToStore c.shared.chain) t c.shared
      (logpointLog cfg inserts)
    rw [hidle, hstore] at hgather
    rw [Config.shared_resume, add_right_cancel hgather]
    exact h.stored
  · have hgather := c.gather_resume callsToInsert t c.shared (logpointLog cfg inserts)
    rw [hidle] at hgather
    have hgather' : (c.resume t c.shared (logpointLog cfg inserts)).gather callsToInsert =
        c.gather callsToInsert + callsToInsert (logpointLog cfg inserts) :=
      (add_zero _).symm.trans hgather
    rw [Config.shared_resume, hgather', List.flatten_append, callsToInsert_append, ← h.chained,
      List.flatten_singleton, add_assoc]

/-- The places of a thread that goes on with less, or with more of the chain. -/
theorem Conserved.inRange_resume (h : Conserved P rows calls c) {t : T} {i : Instruction A}
    {rest l : List (Instruction A)} (hcode : c.code t = i :: rest) {s : LogpointState A D}
    (hle : c.shared.chain.length ≤ s.chain.length) (hl : TicketsInRange s.chain.length l) (u : T) :
    TicketsInRange s.chain.length ((c.resume t s (l ++ rest)).code u) := by
  rcases eq_or_ne u t with rfl | hu
  · rw [Config.code_resume_self]
    intro stmt n hmem
    rcases List.mem_append.1 hmem with hmem | hmem
    · exact hl stmt n hmem
    · have hold := h.inRange u
      rw [hcode] at hold
      exact (hold stmt n (List.mem_cons_of_mem i hmem)).trans_le hle
  · rw [Config.code_resume_of_ne c hu]
    exact fun stmt n hmem ↦ (h.inRange u stmt n hmem).trans_le hle

/-- A step that neither chains nor stores a row. -/
theorem Conserved.quiet (h : Conserved P rows calls c) {t : T} {i : Instruction A}
    {rest l : List (Instruction A)} (hcode : c.code t = i :: rest) {s : LogpointState A D}
    (hmutex : s.log.lasthashMutex = c.shared.log.lasthashMutex) (hno : s.NoTransaction)
    (hlast : s.log.lasthash = c.shared.log.lasthash) (hchain : s.chain = c.shared.chain)
    (hrows : rows s.log.db.content = rows c.shared.log.db.content)
    (hi : callsToInsert [i] = 0 ∧ rowsToStore c.shared.chain [i] = 0)
    (hl : ∀ j ∈ l, (∀ c sign, j ≠ .insertStatement c sign) ∧
      ∀ stmt n, j ≠ .executeStmtTx stmt (some n)) :
    Conserved P rows calls (c.resume t s (l ++ rest)) := by
  have hcalls : callsToInsert l = 0 := by
    rw [callsToInsert, Multiset.coe_eq_zero, List.filterMap_eq_nil_iff]
    intro j hj
    split
    · exact absurd rfl ((hl _ hj).1 _ _)
    · rfl
  have hstore : rowsToStore c.shared.chain l = 0 := by
    rw [rowsToStore, Multiset.coe_eq_zero, List.filterMap_eq_nil_iff]
    intro j hj
    split
    · exact absurd rfl ((hl _ hj).2 _ _)
    · rfl
  refine ⟨hmutex.trans h.lasthashMutex, hno, ?_, ?_, ?_, ?_⟩
  · rw [Config.shared_resume, hchain, hlast]
    exact h.linked
  · exact h.inRange_resume hcode (hchain ▸ le_rfl) fun stmt n hmem ↦
      absurd rfl ((hl _ hmem).2 stmt n)
  · have hgather := Config.gather_step (rowsToStore_append c.shared.chain) hcode s l
    rw [hi.2, hstore, add_zero, add_zero] at hgather
    rw [Config.shared_resume, hrows, hchain, hgather]
    exact h.stored
  · have hgather := Config.gather_step callsToInsert_append hcode s l
    rw [hi.1, hcalls, add_zero, add_zero] at hgather
    rw [Config.shared_resume, hchain, hgather]
    exact h.chained

/-- **A row is chained**: it is now to be stored. -/
theorem Conserved.chain (hadd : cfg.addHash = true) (hdo : cfg.doInsert = true)
    (h : Conserved P rows calls c) {t : T} {call : InsertCall A} {sign : Option Signature}
    {rest : List (Instruction A)} (hcode : c.code t = .insertStatement call sign :: rest)
    (hsign : cfg.signs = true → sign.isSome = true) :
    Conserved P rows calls (c.resume t
      ((Instruction.insertStatement call sign).exec cfg P E c.shared).1
      (((Instruction.insertStatement call sign).exec cfg P E c.shared).2 ++ rest)) := by
  obtain ⟨stmt, -, hexec⟩ :=
    Instruction.exec_insertStatement cfg hdo P E h.lasthashMutex call sign hsign
  have hnew : newLasthash cfg.toBuildConfig P c.shared.log.lasthash call.name call.tuple =
      nextHash P c.shared.log.lasthash call.name call.tuple := if_pos hadd
  rw [hexec, hnew]
  set row := (call, nextHash P c.shared.log.lasthash call.name call.tuple) with hrow
  have hnext : rowsToStore (c.shared.chain ++ [row])
      [Instruction.executeStmtTx stmt (some c.shared.chain.length)] = {row} := by
    simp [rowsToStore]
  have hgrow : c.gather (rowsToStore (c.shared.chain ++ [row])) =
      c.gather (rowsToStore c.shared.chain) :=
    Config.gather_congr fun u ↦ rowsToStore_grow (h.inRange u) [row]
  refine ⟨h.lasthashMutex, h.noTransaction, h.linked.concat _ _ call, ?_, ?_, ?_⟩
  · refine h.inRange_resume hcode ?_ fun stmt' n hmem ↦ ?_
    · exact (List.prefix_append c.shared.chain [row]).length_le
    · cases List.mem_singleton.1 hmem
      simp
  · have hgather := Config.gather_step (rowsToStore_append (c.shared.chain ++ [row])) hcode
      { c.shared with
        log := { c.shared.log with lasthash := row.2 }
        chain := c.shared.chain ++ [row] }
      [.executeStmtTx stmt (some c.shared.chain.length)]
    rw [hnext, hgrow] at hgather
    rw [Config.shared_resume, ← Multiset.coe_add, ← h.stored, add_assoc]
    exact congrArg _ ((add_zero _).symm.trans hgather)
  · have hgather := Config.gather_step callsToInsert_append hcode
      { c.shared with
        log := { c.shared.log with lasthash := row.2 }
        chain := c.shared.chain ++ [row] }
      [.executeStmtTx stmt (some c.shared.chain.length)]
    -- the call is no longer among those to be chained
    have hcall : callsToInsert [Instruction.insertStatement call sign] = {call} := rfl
    have hnone : callsToInsert [(.executeStmtTx stmt (some c.shared.chain.length) :
      Instruction A)] = 0 := rfl
    rw [hcall, hnone, add_zero] at hgather
    rw [Config.shared_resume, List.map_append, ← Multiset.coe_add, ← h.chained, ← hgather,
      add_assoc, add_comm (Config.gather _ _)]
    rfl

/-- **A row is stored**: it no longer waits. -/
theorem Conserved.store (hdo : cfg.doInsert = true) (h : Conserved P rows calls c) {t : T}
    {stmt : Bytes} {n : ℕ} {rest : List (Instruction A)}
    (hcode : c.code t = .executeStmtTx stmt (some n) :: rest)
    (hsucceeds : InsertSucceeds cfg E rows c (.executeStmtTx stmt (some n))) :
    Conserved P rows calls (c.resume t
      ((Instruction.executeStmtTx stmt (some n)).exec cfg P E c.shared).1
      (((Instruction.executeStmtTx stmt (some n)).exec cfg P E c.shared).2 ++ rest)) := by
  have hlt : n < c.shared.chain.length :=
    h.inRange t stmt n (hcode ▸ List.mem_cons_self)
  have hrows := hsucceeds n rfl _ (List.getElem?_eq_getElem hlt)
  have hticket : rowsToStore c.shared.chain [Instruction.executeStmtTx stmt (some n)] =
      {c.shared.chain[n]} := by
    simp [rowsToStore, List.getElem?_eq_getElem hlt]
  rw [Instruction.exec_executeStmtTx cfg hdo P E h.noTransaction]
  refine ⟨h.lasthashMutex, ⟨h.noTransaction.1, rfl⟩, h.linked, ?_, ?_, ?_⟩
  · exact h.inRange_resume hcode le_rfl fun _ _ hmem ↦ (nomatch hmem)
  · have hgather := Config.gather_step (rowsToStore_append c.shared.chain) hcode
      { c.shared with
        log := { c.shared.log with db := ⟨(E.exec c.shared.log.db.content (cStr stmt)).1, none⟩ }
        transactions := c.shared.transactions ++ [(cStr stmt, c.shared.log.db.content)] } []
    rw [hticket] at hgather
    refine Eq.trans ?_ h.stored
    rw [← add_zero (c.gather _)]
    refine Eq.trans ?_ (congrArg _ hgather)
    rw [Config.shared_resume, hrows, ← Multiset.coe_add, add_assoc, add_comm (Config.gather _ _)]
    rfl
  · have hgather := Config.gather_step callsToInsert_append hcode
      { c.shared with
        log := { c.shared.log with db := ⟨(E.exec c.shared.log.db.content (cStr stmt)).1, none⟩ }
        transactions := c.shared.transactions ++ [(cStr stmt, c.shared.log.db.content)] } []
    exact (congrArg _ ((add_zero _).symm.trans (hgather.trans (add_zero _)))).trans h.chained

/-- **A step** leaves every row somewhere. -/
theorem Conserved.step (hadd : cfg.addHash = true) (hdo : cfg.doInsert = true)
    (h : Conserved P rows calls c) {t : T} {i : Instruction A} {rest : List (Instruction A)}
    (hcode : c.code t = i :: rest) (hsucceeds : LogSucceeds cfg E rows c i) :
    Conserved P rows calls (c.resume t (i.exec cfg P E c.shared).1
      ((i.exec cfg P E c.shared).2 ++ rest)) := by
  cases i with
  | insertStatement call sign => exact h.chain hadd hdo hcode hsucceeds.1
  | executeStmtTx stmt row =>
    cases row with
    | some n => exact h.store hdo hcode hsucceeds.1
    | none =>
      rw [Instruction.exec_executeStmtTx cfg hdo P E h.noTransaction]
      exact h.quiet hcode rfl ⟨h.noTransaction.1, rfl⟩ rfl rfl (hsucceeds.2 stmt rfl) ⟨rfl, rfl⟩
        (List.forall_mem_nil _)
  | fetchAdd =>
    exact h.quiet hcode rfl h.noTransaction rfl rfl rfl ⟨rfl, rfl⟩ (List.forall_mem_nil _)
  | compareExchange =>
    rw [Instruction.exec]
    split_ifs
    · exact h.quiet hcode rfl h.noTransaction rfl rfl rfl ⟨rfl, rfl⟩ checkCode_quiet
    · exact h.quiet hcode rfl h.noTransaction rfl rfl rfl ⟨rfl, rfl⟩ (List.forall_mem_nil _)
  | doAuditReturns =>
    exact h.quiet hcode rfl h.noTransaction rfl rfl rfl ⟨rfl, rfl⟩ (List.forall_mem_nil _)
  | logpointLogReturns =>
    exact h.quiet hcode rfl h.noTransaction rfl rfl rfl ⟨rfl, rfl⟩ (List.forall_mem_nil _)

/-- **Every row is somewhere**, in every state that any number of threads reach. -/
theorem conserved_of_reachesBy (hadd : cfg.addHash = true) (hdo : cfg.doInsert = true) {d : D}
    (hd : rows d = [])
    (h : ReachesBy (logpointSystem cfg P E) (fun c _ i ↦ LogSucceeds cfg E rows c i) (.init d)
      calls c) : Conserved P rows calls c := by
  refine h.invariant (.init hd) ?_ ?_
  · exact fun _ _ _ _ hc hidle hl ↦ hc.call hidle hl
  · exact fun _ _ _ _ _ hc hcode hsucceeds ↦ hc.step hadd hdo hcode hsucceeds

/-- **No row is lost and none is stored twice**, whatever the order in which any number of threads
take their steps. The chain is what is stored with what waits to be stored, and the rows of the
calls are those of the chain with those that have still to be chained; between calls what is stored
is the chain, in some order, and the rows of the calls. -/
theorem rows_of_reachesBy (hadd : cfg.addHash = true) (hdo : cfg.doInsert = true) {d : D}
    (hd : rows d = [])
    (h : ReachesBy (logpointSystem cfg P E) (fun c _ i ↦ LogSucceeds cfg E rows c i) (.init d)
      calls c) :
    (rows c.shared.log.db.content : Multiset (InsertCall A × HashText)) +
        c.gather (rowsToStore c.shared.chain) = (c.shared.chain : Multiset _) ∧
      (c.shared.chain.map Prod.fst : Multiset (InsertCall A)) + c.gather callsToInsert =
        callsToInsert calls.flatten ∧
      Linked (sha256 P) chainText HashText.empty c.shared.chain c.shared.log.lasthash ∧
      ((∀ t, c.code t = []) → (rows c.shared.log.db.content).Perm c.shared.chain ∧
        ((rows c.shared.log.db.content).map Prod.fst : Multiset (InsertCall A)) =
          callsToInsert calls.flatten) := by
  have hc := conserved_of_reachesBy hadd hdo hd h
  refine ⟨hc.stored, hc.chained, hc.linked, fun hidle ↦ ?_⟩
  have hstored := hc.stored
  have hchained := hc.chained
  rw [Config.gather_of_idle (f := rowsToStore _) rfl hidle, add_zero] at hstored
  rw [Config.gather_of_idle (f := callsToInsert) rfl hidle, add_zero] at hchained
  refine ⟨Multiset.coe_eq_coe.1 hstored, ?_⟩
  rw [← hchained, ← Multiset.map_coe, hstored, Multiset.map_coe]

end

/-! ### A run in which a row is overtaken -/

variable [DecidableEq T]

theorem exec_logpointSystem (cfg : LogpointConfig) (P : Platform) (E : SqlEngine D S)
    (i : Instruction A) (s : LogpointState A D) :
    (logpointSystem cfg P E).exec i s = i.exec cfg P E s := rfl

/-- A thread chains a row of its call. -/
theorem reachesBy_chain {cfg : LogpointConfig} {P : Platform} {E : SqlEngine D S}
    (hdo : cfg.doInsert = true) {s₀ : LogpointState A D}
    {ok : Config T (LogpointState A D) (Instruction A) → T → Instruction A → Prop}
    {calls : List (List (Instruction A))} {c : Config T (LogpointState A D) (Instruction A)}
    (h : ReachesBy (logpointSystem cfg P E) ok s₀ calls c) {t : T} {call : InsertCall A}
    {sign : Option Signature} {rest : List (Instruction A)}
    (hcode : c.code t = .insertStatement call sign :: rest)
    (hmutex : c.shared.log.lasthashMutex = false) (hok : ok c t (.insertStatement call sign))
    (hsign : cfg.signs = true → sign.isSome = true) :
    ∃ stmt, cStr stmt =
        statementText cfg.toBuildConfig P c.shared.log.lasthash call.name call.tuple ∧
      ReachesBy (logpointSystem cfg P E) ok s₀ calls (c.resume t { c.shared with
        log := { c.shared.log with
          lasthash := newLasthash cfg.toBuildConfig P c.shared.log.lasthash call.name call.tuple }
        chain := c.shared.chain ++
          [(call, newLasthash cfg.toBuildConfig P c.shared.log.lasthash call.name call.tuple)] }
        (.executeStmtTx stmt (some c.shared.chain.length) :: rest)) := by
  obtain ⟨stmt, htext, hexec⟩ :=
    Instruction.exec_insertStatement cfg hdo P E hmutex call sign hsign
  have hstep := h.step t (.insertStatement call sign) rest hcode hok
  rw [exec_logpointSystem, hexec] at hstep
  exact ⟨stmt, htext, hstep⟩

/-- A thread stores its row. -/
theorem reachesBy_store {cfg : LogpointConfig} {P : Platform} {E : SqlEngine D S}
    (hdo : cfg.doInsert = true) {s₀ : LogpointState A D}
    {ok : Config T (LogpointState A D) (Instruction A) → T → Instruction A → Prop}
    {calls : List (List (Instruction A))} {c : Config T (LogpointState A D) (Instruction A)}
    (h : ReachesBy (logpointSystem cfg P E) ok s₀ calls c) {t : T} {stmt : Bytes}
    {row : Option ℕ} {rest : List (Instruction A)}
    (hcode : c.code t = .executeStmtTx stmt row :: rest)
    (hfree : c.shared.NoTransaction) (hok : ok c t (.executeStmtTx stmt row)) :
    ReachesBy (logpointSystem cfg P E) ok s₀ calls (c.resume t { c.shared with
      log := { c.shared.log with db := ⟨(E.exec c.shared.log.db.content (cStr stmt)).1, none⟩ }
      transactions := c.shared.transactions ++ [(cStr stmt, c.shared.log.db.content)] } rest) := by
  have hstep := h.step t (.executeStmtTx stmt row) rest hcode hok
  rwa [exec_logpointSystem, Instruction.exec_executeStmtTx cfg hdo P E hfree] at hstep

/-- A call to insert one row. -/
def callOf (r : InsertCall .git) : List (Instruction .git) :=
  [.insertStatement r none, .logpointLogReturns]

/-- **The advertisement overtakes the push**: both are stored, the advertisement first, and what is
stored can be put in the order of the chain. -/
theorem rows_of_reachesBy_overtaking :
    ∃ c : Config Bool (LogpointState .git (List (InsertCall .git × HashText))) (Instruction .git),
      c.shared.log.db.content = [advertisementRow, pushRow] ∧
        c.shared.chain = [pushRow, advertisementRow] ∧
        c.shared.log.db.content.Perm c.shared.chain := by
  have h1 : ReachesBy (logpointSystem hashRows twoRowPlatform gitEngine)
      (fun c (_ : Bool) i ↦ LogSucceeds hashRows gitEngine id c i) (.init []) _ _ :=
    ReachesBy.init.call false (callOf pushCall) rfl ⟨[(pushCall, none)], rfl⟩
  have h2 := h1.call true (callOf advertisementCall) rfl ⟨[(advertisementCall, none)], rfl⟩
  have hchain : ∀ (c : Config Bool _ _) r, LogSucceeds hashRows gitEngine id c
      (.insertStatement r none) := fun _ _ ↦ ⟨fun h ↦ absurd h (by decide), fun _ h ↦ (nomatch h)⟩
  have hreturn : ∀ c : Config Bool _ _, LogSucceeds hashRows gitEngine id c
      .logpointLogReturns := fun _ ↦ ⟨trivial, fun _ h ↦ (nomatch h)⟩
  obtain ⟨push, hpush, h3⟩ := reachesBy_chain rfl h2 (t := false) rfl rfl (hchain _ _) (by decide)
  obtain ⟨advertisement, hadvertisement, h4⟩ :=
    reachesBy_chain rfl h3 (t := true) rfl rfl (hchain _ _) (by decide)
  have hadvertisement' : cStr advertisement = statementText hashRows.toBuildConfig twoRowPlatform
      pushRow.2 advertisementCall.name advertisementCall.tuple := hadvertisement
  have hpush' : cStr push = statementText hashRows.toBuildConfig twoRowPlatform HashText.empty
      pushCall.name pushCall.tuple := hpush
  have hfirst : (gitEngine.exec [] (cStr advertisement)).1 = [advertisementRow] := by
    rw [hadvertisement']
    decide +kernel
  have hsecond : (gitEngine.exec (gitEngine.exec [] (cStr advertisement)).1 (cStr push)).1 =
      (gitEngine.exec [] (cStr advertisement)).1 ++ [pushRow] := by
    rw [hfirst, hpush']
    decide +kernel
  -- the advertisement is stored first, though its place is the second
  have h5 := reachesBy_store rfl h4 (t := true) rfl
    ⟨rfl, rfl⟩ ⟨fun n hn r hr ↦ by cases hn; cases hr; exact hfirst, fun _ h ↦ (nomatch h)⟩
  have h6 := reachesBy_store rfl h5 (t := false) rfl
    ⟨rfl, rfl⟩ ⟨fun n hn r hr ↦ by cases hn; cases hr; exact hsecond, fun _ h ↦ (nomatch h)⟩
  have h7 := h6.step false .logpointLogReturns [] rfl (hreturn _)
  have h8 := h7.step true .logpointLogReturns [] rfl (hreturn _)
  obtain ⟨-, -, -, hidle⟩ := rows_of_reachesBy rfl rfl rfl h8
  exact ⟨_, hsecond.trans (congrArg (· ++ _) hfirst), rfl, (hidle fun t ↦ by cases t <;> rfl).1⟩

end LibSeal
