import LibSeal.Data.SqlQuery
import LibSeal.Git.PktLine

/-!
# The relations of the Git auditor

The tables and views that `libseal_init_relations` creates, and the two queries of
`libseal_do_audit`. A `GitDatabase` is the content of the tables; the views and the queries are
functions of it.

There are three tables, but the auditor inserts into two of them: `get_tables` names `updates` and
`advertisements`, and each call of `insert_statement` is a row of one of these
(`exists_rows_of_log`). What a sequence of rows leaves in the tables is `GitDatabase.ofRows`; a row
whose key is there already is refused and changes nothing.

The column for the hash, which a build may add to the two tables, is left out: no query reads it,
and the natural join finds no column of its name in the view.
-/

namespace LibSeal

open Bytes SqlQuery

/-- A row of `updates`, or of `branchmods`. -/
structure UpdateRow where
  time : ℤ
  repo : Bytes
  branch : Bytes
  cid : Bytes
  type : UpdateType
  result : ℤ
  deriving DecidableEq

/-- A row of `advertisements`. -/
structure AdvertisementRow where
  time : ℤ
  repo : Bytes
  branch : Bytes
  cid : Bytes
  deriving DecidableEq

/-- `` PRIMARY KEY(`time`,`repo`,`branch`) `` -/
def UpdateRow.key (u : UpdateRow) : ℤ × Bytes × Bytes := (u.time, u.repo, u.branch)

/-- `` PRIMARY KEY(`time`,`repo`,`branch`) `` -/
def AdvertisementRow.key (a : AdvertisementRow) : ℤ × Bytes × Bytes := (a.time, a.repo, a.branch)

/-- The content of the tables. -/
structure GitDatabase where
  updates : Table UpdateRow (ℤ × Bytes × Bytes) UpdateRow.key
  advertisements : Table AdvertisementRow (ℤ × Bytes × Bytes) AdvertisementRow.key
  branchmods : Table UpdateRow (ℤ × Bytes × Bytes) UpdateRow.key

/-- A row that the auditor logs. -/
inductive GitRow where
  | update (u : UpdateRow)
  | advertisement (a : AdvertisementRow)

namespace GitRow

/-- The logical time of a row. -/
def time : GitRow → ℤ
  | update u => u.time
  | advertisement a => a.time

/-- The row, if it is one of `updates`. -/
def update? : GitRow → Option UpdateRow
  | update u => some u
  | advertisement _ => none

/-- The row, if it is one of `advertisements`. -/
def advertisement? : GitRow → Option AdvertisementRow
  | update _ => none
  | advertisement a => some a

/-- The call of `insert_statement` that logs the row. -/
def call : GitRow → InsertCall .git
  | update u => insertUpdate (updateTuple u.time u.repo u.branch u.cid u.type u.result)
  | advertisement a => insertAdvertisement (advertisementTuple a.time a.repo a.branch a.cid)

end GitRow

namespace GitDatabase

/-- The tables as `libseal_init_relations` creates them. -/
def init : GitDatabase := ⟨.empty, .empty, .empty⟩

/-- The effect of the `INSERT` of a row. -/
def insert (db : GitDatabase) : GitRow → Option GitDatabase
  | .update u => (db.updates.insert u).map fun updates ↦ { db with updates }
  | .advertisement a => (db.advertisements.insert a).map fun advertisements ↦
    { db with advertisements }

/-- Rows are logged one after the other, and one that is refused is skipped. -/
def log (db : GitDatabase) (rows : List GitRow) : GitDatabase :=
  rows.foldl (fun db r ↦ (db.insert r).getD db) db

/-- The content after some rows have been logged. -/
def ofRows (rows : List GitRow) : GitDatabase := init.log rows

theorem log_append (db : GitDatabase) (rows rows' : List GitRow) :
    db.log (rows ++ rows') = (db.log rows).log rows' :=
  List.foldl_append

/-- **Each row goes to its own table**, and none to `branchmods`. -/
theorem log_eq (db : GitDatabase) (rows : List GitRow) :
    db.log rows = ⟨db.updates.insertAll (rows.filterMap GitRow.update?),
      db.advertisements.insertAll (rows.filterMap GitRow.advertisement?), db.branchmods⟩ := by
  induction rows generalizing db with
  | nil => rfl
  | cons r rows ih =>
    rw [log, List.foldl_cons, ← log, ih]
    rcases r with u | a
    · show _ = (⟨((db.updates.insert u).getD db.updates).insertAll _, _, _⟩ : GitDatabase)
      rcases hinsert : db.updates.insert u with - | t
      · rw [insert, hinsert]
        rfl
      · rw [insert, hinsert]
        rfl
    · show _ = (⟨_, ((db.advertisements.insert a).getD db.advertisements).insertAll _, _⟩ :
        GitDatabase)
      rcases hinsert : db.advertisements.insert a with - | t
      · rw [insert, hinsert]
        rfl
      · rw [insert, hinsert]
        rfl

/-! ### Views and queries -/

/-- The view `branchcnt2`: for each advertisement, the number of branches whose last modification
before it is none that deletes them. -/
def branchcnt2 (db : GitDatabase) : List (ℤ × Bytes × ℕ) :=
  let mods := db.branchmods.rows
  let joined := join
    (fun a bm ↦ and (lt (some bm.time) (some a.time)) (eq (some bm.repo) (some a.repo)))
    db.advertisements.rows mods
  let selected := selectWhere (fun (a, bm) ↦ and (ne (some bm.type) (some .delete))
    (some !hasRows (selectWhere (fun m ↦ and (and (and (eq (some m.branch) (some bm.branch))
      (eq (some m.repo) (some bm.repo))) (lt (some m.time) (some a.time)))
      (lt (some bm.time) (some m.time))) mods))) joined
  distinct ((groupBy (fun p ↦ p.1.key) selected).map fun g ↦ (g.1.1, g.1.2.1, g.2.length))

/-- The name of the symbolic reference. -/
def head : Bytes := ascii "HEAD"

/-- The view `incomplete2`: the advertisements with another number of branches. -/
def incomplete2 (db : GitDatabase) : List (ℤ × Bytes) :=
  let joined := join
    (fun a cnt ↦ and (eq (some a.time) (some cnt.1)) (eq (some a.repo) (some cnt.2.1)))
    db.advertisements.rows db.branchcnt2
  let selected := selectWhere (fun (a, _) ↦ ne (some a.branch) (some head)) joined
  let groups := groupBy (fun (a, cnt) ↦ (a.time, a.repo, cnt.2.2)) selected
  (groups.filter fun g ↦ g.2.length ≠ g.1.2.2).map fun g ↦ (g.1.1, g.1.2.1)

/-- `SELECT * FROM incomplete2`, the completeness query of `libseal_do_audit`. -/
def completenessQuery (db : GitDatabase) : List (ℤ × Bytes) := db.incomplete2

/-- The inner query of the soundness query: the id of the last update of a branch before an
advertisement. -/
def lastCid (db : GitDatabase) (a : AdvertisementRow) : Option Bytes :=
  scalar UpdateRow.cid (limit 1 (orderByDesc UpdateRow.time (selectWhere (fun u ↦
    and (and (eq (some u.repo) (some a.repo)) (eq (some u.branch) (some a.branch)))
      (lt (some u.time) (some a.time))) db.updates.rows)))

/-- The soundness query of `libseal_do_audit`. -/
def soundnessQuery (db : GitDatabase) : List AdvertisementRow :=
  selectWhere (fun a ↦ ne (some a.cid) (db.lastCid a)) db.advertisements.rows

end GitDatabase

/-! ### The rows of an exchange -/

/-- Calls are those of some rows, all with one time. -/
def AreRowsAt (time : ℤ) (calls : List (InsertCall .git)) : Prop :=
  ∃ rows : List GitRow, (∀ r ∈ rows, r.time = time) ∧ calls = rows.map GitRow.call

theorem AreRowsAt.nil (time : ℤ) : AreRowsAt time [] :=
  ⟨[], fun _ h ↦ absurd h List.not_mem_nil, rfl⟩

theorem AreRowsAt.cons {time : ℤ} {calls : List (InsertCall .git)} (h : AreRowsAt time calls)
    {r : GitRow} (hr : r.time = time) : AreRowsAt time (r.call :: calls) := by
  obtain ⟨rows, hrows, rfl⟩ := h
  exact ⟨r :: rows, List.forall_mem_cons.2 ⟨hr, hrows⟩, rfl⟩

theorem areRowsAt_of_advertisementsOf {id : ℤ} {repo : Bytes} {fuel : ℕ} {refs : Bytes}
    {tuples : List Bytes} (h : advertisementsOf id repo fuel refs = .ok tuples) :
    AreRowsAt id (tuples.map insertAdvertisement) := by
  induction fuel generalizing refs tuples with
  | zero => exact nomatch h
  | succ fuel ih =>
    rw [advertisementsOf] at h
    split_ifs at h with hcomma
    · obtain ⟨branch, -, h⟩ := CFault.bind_eq_ok.1 h
      obtain ⟨cid, -, h⟩ := CFault.bind_eq_ok.1 h
      obtain ⟨_, -, h⟩ := CFault.bind_eq_ok.1 h
      obtain ⟨rest, hrest, h⟩ := CFault.bind_eq_ok.1 h
      cases h
      exact (ih hrest).cons (r := .advertisement ⟨id, repo, branch, cid⟩) rfl
    · cases h
      exact .nil id

theorem areRowsAt_of_updatesOf {id : ℤ} {repo : Bytes} {fuel : ℕ} {commands : Bytes}
    {tuples : List Bytes} (h : updatesOf id repo fuel commands = .ok tuples) :
    AreRowsAt id (tuples.map insertUpdate) := by
  induction fuel generalizing commands tuples with
  | zero => exact nomatch h
  | succ fuel ih =>
    rw [updatesOf] at h
    split_ifs at h with hcomma
    · obtain ⟨branch, -, h⟩ := CFault.bind_eq_ok.1 h
      obtain ⟨ref1, -, h⟩ := CFault.bind_eq_ok.1 h
      obtain ⟨ref2, -, h⟩ := CFault.bind_eq_ok.1 h
      obtain ⟨result, -, h⟩ := CFault.bind_eq_ok.1 h
      obtain ⟨_, -, h⟩ := CFault.bind_eq_ok.1 h
      obtain ⟨rest, hrest, h⟩ := CFault.bind_eq_ok.1 h
      cases h
      exact (ih hrest).cons (r := .update ⟨id, repo, branch, ref2, updateType ref1 ref2,
        if result = ascii "ok" then 1 else 0⟩) rfl
    · cases h
      exact .nil id

/-- **What an exchange inserts** are rows of `updates` or of `advertisements`, all with the logical
time at which the exchange was processed; the time moves on if there are any. -/
theorem areRowsAt_of_processEvents {logictime next : ℕ} {evReq evRsp : Event}
    {calls : List (InsertCall .git)} (h : processEvents logictime evReq evRsp = .ok (next, calls)) :
    AreRowsAt (toInt32 logictime) calls ∧
      (next = logictime ∧ calls = [] ∨ next = (logictime + 1) % 18446744073709551616) := by
  rw [processEvents] at h
  obtain ⟨⟨evReq, evRsp⟩, -, h⟩ := CFault.bind_eq_ok.1 h
  dsimp only at h
  split_ifs at h with hservice
  · obtain ⟨⟨time, updates, advertisements⟩, hpair, h⟩ := CFault.bind_eq_ok.1 h
    cases h
    rw [eventPair2DslForDB] at hpair
    obtain ⟨repo, -, hpair⟩ := CFault.bind_eq_ok.1 hpair
    obtain ⟨what, -, hpair⟩ := CFault.bind_eq_ok.1 hpair
    split_ifs at hpair with hadv hpush
    · obtain ⟨refs, -, hpair⟩ := CFault.bind_eq_ok.1 hpair
      obtain ⟨tuples, htuples, hpair⟩ := CFault.bind_eq_ok.1 hpair
      cases hpair
      exact ⟨areRowsAt_of_advertisementsOf htuples, Or.inr rfl⟩
    · obtain ⟨commands, -, hpair⟩ := CFault.bind_eq_ok.1 hpair
      obtain ⟨tuples, htuples, hpair⟩ := CFault.bind_eq_ok.1 hpair
      cases hpair
      rw [List.map_nil, List.append_nil]
      exact ⟨areRowsAt_of_updatesOf htuples, Or.inr rfl⟩
    · cases hpair
      exact ⟨.nil _, Or.inr rfl⟩
  · cases h
    exact ⟨.nil _, Or.inl ⟨rfl, rfl⟩⟩

end LibSeal
