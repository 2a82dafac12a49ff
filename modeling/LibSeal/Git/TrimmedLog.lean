import LibSeal.Git.Trimming
import LibSeal.Logpoint.ChainHead

/-!
# Trimming and the hash chain

A build may both add a hash to every row and trim the relations. The two do not know of each other:
the statement of `libseal_do_trimming` deletes rows wherever they stand in the chain, and
`lasthash` goes on from the last row that was hashed, deleted or not.

What is left can be verified — put in an order in which each row carries the hash of the row before
it, up to `lasthash` — exactly as long as no trimming has had a row to delete
(`verifiable_iff_nothing_trimmed`). An advertisement always is one. That nothing else will do rests
on the same absence of collisions as tamper evidence: the deleted rows are in `lasthash`.

What the columns of a stored row are, which the trimming looks at, is read off its call by `stored`.
-/

namespace LibSeal

open Bytes HashChain SqlQuery

variable {D S : Type} (cfg : BuildConfig) (P : Platform) (E : SqlEngine D S)
  (rows : D → List (InsertCall .git × HashText)) (stored : InsertCall .git → GitRow)

/-- The text that `libseal_do_trimming` executes. -/
def trimmingText : Bytes :=
  ascii "DELETE \t\t\t\tFROM updates \t\t\t\tWHERE time NOT IN (SELECT MAX(time) \t\t\t\t\t" ++
    ascii "FROM updates \t\t\t\t\tGROUP BY repo, branch) \t\t\t\t; DELETE FROM advertisements;"

/-- The tables that some stored rows make up, without the hashes. -/
def databaseOf (stored : InsertCall .git → GitRow) (log : List (InsertCall .git × HashText)) :
    GitDatabase :=
  .ofRows (log.map fun r ↦ stored r.1)

/-- Neither of the two conditions of the trimming holds for a row. -/
def isKept (db : GitDatabase) : GitRow → Bool
  | .update u => notIn (some u.time) (maxTimes db) ≠ some true
  | .advertisement _ => false

/-- What the trimming leaves of some stored rows. -/
def trimRows (stored : InsertCall .git → GitRow) (log : List (InsertCall .git × HashText)) :
    List (InsertCall .git × HashText) :=
  log.filter fun r ↦ isKept (databaseOf stored log) (stored r.1)

/-- The trimming text, executed, deletes the rows it names. -/
def TrimSucceeds (st : LogState D) : Prop :=
  cfg.doInsert = true →
    rows (E.exec st.db.content trimmingText).1 = trimRows stored (rows st.db.content)

/-- **The trimming has nothing to delete**: there is no advertisement, and every update has the time
of the last update of some branch. -/
def NothingToTrim (log : List (InsertCall .git × HashText)) : Prop :=
  ∀ r ∈ log, ∃ u, stored r.1 = .update u ∧
    ∃ v, IsLastOfBranch (databaseOf stored log).updates.rows v ∧ v.time = u.time

/-- The log can be verified: its rows can be put in an order in which they form one chain from the
empty hash to `lasthash`. -/
def Verifiable (st : LogState D) : Prop :=
  ∃ log, log.Perm (rows st.db.content) ∧
    Linked (sha256 P) chainText HashText.empty log st.lasthash

/-- Runs of successful calls of `insert_statement` and `libseal_do_trimming` from an empty log: the
calls of `insert_statement`, whether no trimming had a row to delete, and the state reached. -/
inductive TrimmedRun : List (InsertCall .git) → Prop → LogState D → Prop where
  | init (d : D) (h : rows d = []) : TrimmedRun [] True (LogState.init d)
  | call {calls : List (InsertCall .git)} {kept : Prop} {st st' : LogState D}
      (c : InsertCall .git) (sign : Option Signature) (h : TrimmedRun calls kept st)
      (hsteps : StepsSucceed cfg P E.session rows false st c sign)
      (hcall : insertCall cfg P E.session false st c sign = .ok st') :
      TrimmedRun (calls ++ [c]) kept st'
  | trim {calls : List (InsertCall .git)} {kept : Prop} {st st' : LogState D}
      (h : TrimmedRun calls kept st) (htrim : TrimSucceeds cfg E rows stored st)
      (hcall : executeStmtTx cfg E.session false st trimmingText = .ok st') :
      TrimmedRun calls (kept ∧ NothingToTrim stored (rows st.db.content)) st'

variable {cfg P E rows stored}

/-! ### One trimming -/

theorem isKept_iff {db : GitDatabase} {r : GitRow} :
    isKept db r = true ↔
      ∃ u, r = .update u ∧ ∃ v, IsLastOfBranch db.updates.rows v ∧ v.time = u.time := by
  rcases r with u | a
  · have hnone : none ∉ maxTimes db := by
      rw [mem_maxTimes_iff]
      rintro ⟨v, -, h⟩
      exact nomatch h
    simp only [isKept, decide_eq_true_eq, Ne, notIn_eq_some_true_iff, hnone, not_false_eq_true,
      true_and, not_not, mem_maxTimes_iff, Option.some.injEq, GitRow.update.injEq, exists_eq_left']
  · simp [isKept]

theorem trimRows_eq_self_iff {log : List (InsertCall .git × HashText)} :
    trimRows stored log = log ↔ NothingToTrim stored log := by
  simp only [trimRows, List.filter_eq_self, isKept_iff, NothingToTrim]

theorem length_trimRows_lt {log : List (InsertCall .git × HashText)}
    (h : ¬ NothingToTrim stored log) : (trimRows stored log).length < log.length := by
  refine lt_of_le_of_ne (List.length_filter_le _ _) fun hlen ↦ h ?_
  exact trimRows_eq_self_iff.1 (List.filter_sublist.eq_of_length hlen)

/-- Deleting rows and taking those of `updates` can be done in either order. -/
theorem filterMap_update?_filter (db : GitDatabase) (log : List GitRow) :
    (log.filter (isKept db)).filterMap GitRow.update? =
      (log.filterMap GitRow.update?).filter fun u ↦ isKept db (.update u) := by
  rw [List.filterMap_filter, List.filter_filterMap]
  congr 1
  funext r
  rcases r with u | a
  · by_cases h : isKept db (.update u) <;> simp [h, GitRow.update?, Option.filter]
  · rfl

/-- No row of `advertisements` is left. -/
theorem filterMap_advertisement?_filter (db : GitDatabase) (log : List GitRow) :
    (log.filter (isKept db)).filterMap GitRow.advertisement? = [] := by
  rw [List.filterMap_filter, List.filterMap_eq_nil_iff]
  intro r _
  rcases r with u | a
  · exact ite_self _
  · rfl

/-- **The tables are trimmed** as `libsealDoTrimming` says, if the keys of the updates are
distinct. -/
theorem databaseOf_trimRows {log : List (InsertCall .git × HashText)}
    (hkeys : (((log.map fun r ↦ stored r.1).filterMap GitRow.update?).map UpdateRow.key).Nodup) :
    (databaseOf stored (trimRows stored log)).updates.rows =
        (libsealDoTrimming (databaseOf stored log)).updates.rows ∧
      (databaseOf stored (trimRows stored log)).advertisements.rows =
        (libsealDoTrimming (databaseOf stored log)).advertisements.rows := by
  have hrows : (databaseOf stored log).updates.rows =
      (log.map fun r ↦ stored r.1).filterMap GitRow.update? := by
    rw [databaseOf, GitDatabase.ofRows, GitDatabase.log_eq]
    exact Table.rows_insertAll _ hkeys
  have hmap : (trimRows stored log).map (fun r ↦ stored r.1) =
      (log.map fun r ↦ stored r.1).filter (isKept (databaseOf stored log)) := by
    rw [List.filter_map]
    rfl
  rw [advertisements_libsealDoTrimming]
  constructor
  · have hupdates := filterMap_update?_filter (databaseOf stored log) (log.map fun r ↦ stored r.1)
    rw [← hmap, ← hrows] at hupdates
    rw [databaseOf, GitDatabase.ofRows, GitDatabase.log_eq]
    refine (Table.rows_insertAll _ ?_).trans hupdates
    rw [hupdates]
    exact (databaseOf stored log).updates.nodup.sublist (List.filter_sublist.map _)
  · rw [databaseOf, GitDatabase.ofRows, GitDatabase.log_eq, hmap, filterMap_advertisement?_filter]
    rfl

/-- **What a trimming does** when nobody holds the mutex. -/
theorem executeStmtTx_trimmingText (hdo : cfg.doInsert = true) {st : LogState D}
    (hst : BetweenCalls st) :
    executeStmtTx cfg E.session false st trimmingText =
      .ok { st with db := ⟨(E.exec st.db.content trimmingText).1, none⟩ } := by
  have htext : cStr trimmingText = trimmingText := cStr_eq_self (by decide +kernel)
  rw [executeStmtTx_session hdo E hst.sqliteMutex hst.saved, htext]

/-! ### Runs -/

/-- What holds after a run. -/
structure TrimmedInvariant (P : Platform) (rows : D → List (InsertCall .git × HashText))
    (calls : List (InsertCall .git)) (kept : Prop) (st : LogState D) : Prop where
  between : BetweenCalls st
  /-- Every call is in `lasthash`. -/
  lasthash : st.lasthash = head (sha256 P) chainText HashText.empty calls
  /-- Either all rows are there, in the order of the chain, or some are gone. -/
  log : (kept ∧ (rows st.db.content).map Prod.fst = calls ∧
      Linked (sha256 P) chainText HashText.empty (rows st.db.content) st.lasthash) ∨
    (¬ kept ∧ (rows st.db.content).length < calls.length)

namespace TrimmedInvariant

variable {calls : List (InsertCall .git)} {kept : Prop} {st : LogState D}

/-- A call whose steps succeed adds its row to the chain. -/
theorem call (hadd : cfg.addHash = true) (hdo : cfg.doInsert = true)
    (h : TrimmedInvariant P rows calls kept st) {c : InsertCall .git} {sign : Option Signature}
    (hsteps : StepsSucceed cfg P E.session rows false st c sign) {st' : LogState D}
    (hcall : insertCall cfg P E.session false st c sign = .ok st') :
    TrimmedInvariant P rows (calls ++ [c]) kept st' := by
  obtain ⟨st'', hcall', hst', hlast, hrows⟩ :=
    insertCall_of_stepsSucceed hadd hdo h.between hsteps
  rw [hcall, Except.ok.injEq] at hcall'
  subst hcall'
  refine ⟨hst', ?_, ?_⟩
  · rw [hlast, head_concat, ← h.lasthash]
    rfl
  · rw [hrows, hlast]
    refine h.log.imp (fun ⟨hkept, hcalls, hlinked⟩ ↦ ⟨hkept, ?_, Linked.concat _ _ hlinked c⟩)
      fun ⟨hkept, hlen⟩ ↦ ⟨hkept, ?_⟩
    · rw [List.map_append, hcalls]
      rfl
    · simpa using hlen

/-- A trimming leaves the chain alone if it has nothing to delete. -/
theorem trim (hdo : cfg.doInsert = true) (h : TrimmedInvariant P rows calls kept st)
    (htrim : TrimSucceeds cfg E rows stored st) {st' : LogState D}
    (hcall : executeStmtTx cfg E.session false st trimmingText = .ok st') :
    TrimmedInvariant P rows calls (kept ∧ NothingToTrim stored (rows st.db.content)) st' := by
  rw [executeStmtTx_trimmingText hdo h.between, Except.ok.injEq] at hcall
  subst hcall
  have hrows := htrim hdo
  refine ⟨⟨h.between.1, h.between.2, rfl⟩, h.lasthash, ?_⟩
  show (_ ∧ (rows (E.exec st.db.content trimmingText).1).map Prod.fst = calls ∧
    Linked _ _ _ (rows (E.exec st.db.content trimmingText).1) st.lasthash) ∨
    (_ ∧ (rows (E.exec st.db.content trimmingText).1).length < calls.length)
  rw [hrows]
  rcases h.log with ⟨hkept, hcalls, hlinked⟩ | ⟨hkept, hlen⟩
  · by_cases hnothing : NothingToTrim stored (rows st.db.content)
    · rw [trimRows_eq_self_iff.2 hnothing]
      exact Or.inl ⟨⟨hkept, hnothing⟩, hcalls, hlinked⟩
    · refine Or.inr ⟨fun hboth ↦ hnothing hboth.2, ?_⟩
      rw [← hcalls, List.length_map]
      exact length_trimRows_lt hnothing
  · exact Or.inr ⟨fun hboth ↦ hkept hboth.1, (List.length_filter_le _ _).trans_lt hlen⟩

end TrimmedInvariant

theorem trimmedInvariant_of_run (hadd : cfg.addHash = true) (hdo : cfg.doInsert = true)
    {calls : List (InsertCall .git)} {kept : Prop} {st : LogState D}
    (h : TrimmedRun cfg P E rows stored calls kept st) : TrimmedInvariant P rows calls kept st := by
  induction h with
  | init d h =>
    refine ⟨⟨rfl, rfl, rfl⟩, rfl, Or.inl ⟨trivial, ?_, ?_⟩⟩
    · rw [LogState.init, h]
      rfl
    · rw [LogState.init, h]
      rfl
  | call c sign _ hsteps hcall ih => exact ih.call hadd hdo hsteps hcall
  | trim _ htrim hcall ih => exact ih.trim hdo htrim hcall

/-- Without `SQLITE_DO_INSERT` nothing happens at all. -/
theorem TrimmedRun.of_not_doInsert (hdo : cfg.doInsert = false) {calls : List (InsertCall .git)}
    {kept : Prop} {st : LogState D} (h : TrimmedRun cfg P E rows stored calls kept st) :
    kept ∧ rows st.db.content = [] ∧ st.lasthash = HashText.empty := by
  induction h with
  | init d h => exact ⟨trivial, h, rfl⟩
  | call c sign _ _ hcall ih =>
    rw [insertCall_of_not_doInsert hdo, Except.ok.injEq] at hcall
    exact hcall ▸ ih
  | trim _ _ hcall ih =>
    rw [executeStmtTx, hdo] at hcall
    cases hcall
    obtain ⟨hkept, hrows, hlast⟩ := ih
    refine ⟨⟨hkept, ?_⟩, hrows, hlast⟩
    rw [hrows]
    exact fun r hr ↦ absurd hr List.not_mem_nil

/-- **The log can be verified exactly as long as nothing has been trimmed.** After a run of
successful calls the rows left can be put in an order in which they form one chain from the empty
hash to `lasthash`, if no trimming had a row to delete — and only then, unless the digest collides
on the strings that the run has hashed and those that such an order would. -/
theorem verifiable_iff_nothing_trimmed (hadd : cfg.addHash = true) {calls : List (InsertCall .git)}
    {kept : Prop} {st : LogState D} (h : TrimmedRun cfg P E rows stored calls kept st) :
    (kept → Verifiable P rows st) ∧
      ((∀ ys, ys.Perm ((rows st.db.content).map Prod.fst) →
          ∀ m ∈ hashedTexts P calls, ∀ n ∈ hashedTexts P ys, P.digest m = P.digest n → m = n) →
        Verifiable P rows st → kept) := by
  rcases Bool.eq_false_or_eq_true cfg.doInsert with hdo | hdo
  · have hinv := trimmedInvariant_of_run hadd hdo h
    rcases hinv.log with ⟨hkept, -, hlinked⟩ | ⟨hkept, hlen⟩
    · exact ⟨fun _ ↦ ⟨_, .refl _, hlinked⟩, fun _ _ ↦ hkept⟩
    · refine ⟨fun h ↦ absurd h hkept, ?_⟩
      rintro hinj ⟨log, hperm, hlinked⟩
      -- the chain of the rows left would be the chain of all calls
      have hhead := hlinked.eq_head
      rw [hinv.lasthash] at hhead
      have hcalls : calls = log.map Prod.fst := eq_of_head_eq (hinj _ (hperm.map _)) hhead
      rw [hcalls, List.length_map, hperm.length_eq] at hlen
      exact absurd hlen (lt_irrefl _)
  · obtain ⟨hkept, hrows, hlast⟩ := h.of_not_doInsert hdo
    refine ⟨fun _ ↦ ⟨[], ?_, hlast.symm⟩, fun _ _ ↦ hkept⟩
    rw [hrows]

/-! ### A concrete database -/

/-- A database that also trims. -/
def trimmingEngine (stored : InsertCall .git → GitRow) :
    SqlEngine (List (InsertCall .git × HashText))
      (Option (Option (InsertCall .git × HashText))) where
  statements text := [if text = trimmingText then none else some (rowOfText text)]
  step log
    | none => some (trimRows stored log)
    | some row => row.map fun r ↦ log ++ [r]

/-- The columns of the row of a push, and of the row of an advertisement. -/
def storedRow (c : InsertCall .git) : GitRow :=
  if c = pushCall then .update ⟨0, ascii "r", ascii "b", ascii "0123", .create, 1⟩
  else .advertisement ⟨1, ascii "r", ascii "b", ascii "0123"⟩

/-- The state after the row of a call, in the build that hashes and does not sign. -/
def afterCall (st : LogState (List (InsertCall .git × HashText))) (c : InsertCall .git) :
    LogState (List (InsertCall .git × HashText)) :=
  { st with
    lasthash := nextHash twoRowPlatform st.lasthash c.name c.tuple
    db := ⟨contentAfter ⟨true, true, true, false⟩ twoRowPlatform (trimmingEngine storedRow) st c,
      none⟩ }

/-- The state after a trimming. -/
def afterTrimming (st : LogState (List (InsertCall .git × HashText))) :
    LogState (List (InsertCall .git × HashText)) :=
  { st with db := ⟨((trimmingEngine storedRow).exec st.db.content trimmingText).1, none⟩ }

theorem exec_trimmingText (log : List (InsertCall .git × HashText)) :
    ((trimmingEngine storedRow).exec log trimmingText).1 = trimRows storedRow log := by
  have htext : (trimmingEngine storedRow).statements trimmingText = [none] := by
    simp [trimmingEngine]
  rw [SqlEngine.exec, htext]
  rfl

/-- A call of the concrete build whose steps succeed continues a run. -/
theorem TrimmedRun.afterCall {calls : List (InsertCall .git)} {kept : Prop}
    {st : LogState (List (InsertCall .git × HashText))}
    (h : TrimmedRun ⟨true, true, true, false⟩ twoRowPlatform (trimmingEngine storedRow) id storedRow
      calls kept st) {c : InsertCall .git}
    (hsteps : StepsSucceed ⟨true, true, true, false⟩ twoRowPlatform
      (trimmingEngine storedRow).session id false st c none) :
    TrimmedRun ⟨true, true, true, false⟩ twoRowPlatform (trimmingEngine storedRow) id storedRow
      (calls ++ [c]) kept (afterCall st c) :=
  .call c none h hsteps
    (insertCall_session_of_stepsSucceed rfl rfl (trimmedInvariant_of_run rfl rfl h).between hsteps)

/-- A trimming of the concrete build continues a run. -/
theorem TrimmedRun.afterTrimming {calls : List (InsertCall .git)} {kept : Prop}
    {st : LogState (List (InsertCall .git × HashText))}
    (h : TrimmedRun ⟨true, true, true, false⟩ twoRowPlatform (trimmingEngine storedRow) id storedRow
      calls kept st) :
    TrimmedRun ⟨true, true, true, false⟩ twoRowPlatform (trimmingEngine storedRow) id storedRow
      calls (kept ∧ NothingToTrim storedRow st.db.content) (afterTrimming st) := by
  refine .trim h (fun _ ↦ ?_)
    (executeStmtTx_trimmingText rfl (trimmedInvariant_of_run rfl rfl h).between)
  exact exec_trimmingText st.db.content

/-- The run of a push. -/
theorem trimmedRun_push :
    TrimmedRun ⟨true, true, true, false⟩ twoRowPlatform (trimmingEngine storedRow) id storedRow
      [pushCall] True (afterCall (LogState.init []) pushCall) :=
  (TrimmedRun.init [] rfl).afterCall (stepsSucceed_session (by decide) (by decide +kernel))

/-- A push can be verified after a trimming. -/
theorem verifiable_afterTrimming_push :
    Verifiable twoRowPlatform id (afterTrimming (afterCall (LogState.init []) pushCall)) := by
  refine (verifiable_iff_nothing_trimmed rfl trimmedRun_push.afterTrimming).1 ⟨trivial, ?_⟩
  rw [← trimRows_eq_self_iff]
  decide +kernel

/-- The state after the rows of a push and of an advertisement. -/
def afterAdvertisement : LogState (List (InsertCall .git × HashText)) :=
  afterCall (afterCall (LogState.init []) pushCall) advertisementCall

/-- An advertisement that is trimmed, as the tables are, is missed in the chain. -/
theorem not_verifiable_afterTrimming_advertisement :
    (∃ kept, TrimmedRun ⟨true, true, true, false⟩ twoRowPlatform (trimmingEngine storedRow) id
        storedRow [pushCall, advertisementCall] kept (afterTrimming afterAdvertisement)) ∧
      ¬ Verifiable twoRowPlatform id (afterTrimming afterAdvertisement) ∧
      (databaseOf storedRow (afterTrimming afterAdvertisement).db.content).updates.rows =
        (libsealDoTrimming (databaseOf storedRow afterAdvertisement.db.content)).updates.rows ∧
      (databaseOf storedRow (afterTrimming afterAdvertisement).db.content).advertisements.rows =
        (libsealDoTrimming
          (databaseOf storedRow afterAdvertisement.db.content)).advertisements.rows := by
  have hrun := (trimmedRun_push.afterCall (c := advertisementCall)
    (stepsSucceed_session (by decide) (by decide +kernel))).afterTrimming
  refine ⟨⟨_, hrun⟩, ?_, ?_⟩
  · rintro ⟨log, hperm, hlinked⟩
    -- the row of the push is left, but `lasthash` is that of the advertisement
    have hrows : (afterTrimming afterAdvertisement).db.content =
        [(pushCall, nextHash twoRowPlatform HashText.empty pushCall.name pushCall.tuple)] := by
      decide +kernel
    rw [id, hrows, List.perm_singleton] at hperm
    subst hperm
    have hlast : nextHash twoRowPlatform HashText.empty pushCall.name pushCall.tuple =
        afterAdvertisement.lasthash := hlinked.2
    exact absurd hlast (by decide +kernel)
  · rw [afterTrimming, exec_trimmingText]
    exact databaseOf_trimRows (by decide +kernel)

end LibSeal
