import LibSeal.Data.Bytes
import LibSeal.Data.SqlQuery

/-!
# The relations of the Dropbox auditor

The tables that `libseal_init_relations` creates, and the two queries of `libseal_do_audit`. The two
tables have the same columns: a row of `commit_batch` is a file that a client has uploaded, or one
that it has deleted, whose size is -1; a row of `list` is a file of a listing that a host has got.

The queries select rows, or pairs of rows, and show some of their columns. What they select is kept
apart from what they show, because the claims of an audit are about the rows.
-/

namespace LibSeal

open Bytes SqlQuery

/-- A row of `list`, or of `commit_batch`. -/
structure FileRow where
  time : ℤ
  account : Bytes
  hostKey : Bytes
  path : Bytes
  size : ℤ
  blocklist : Bytes
  deriving DecidableEq

/-- `` PRIMARY KEY(`time`,`account`,`host_key`, `path`) `` -/
def FileRow.key (r : FileRow) : ℤ × Bytes × Bytes × Bytes := (r.time, r.account, r.hostKey, r.path)

/-- The content of the tables. -/
structure DropboxDatabase where
  list : Table FileRow (ℤ × Bytes × Bytes × Bytes) FileRow.key
  commitBatch : Table FileRow (ℤ × Bytes × Bytes × Bytes) FileRow.key

namespace DropboxDatabase

variable (db : DropboxDatabase)

/-! ### The first query -/

/-- The subquery `c2`: the time of the first deletion of each path, with the path and the
account. -/
def firstDeletions : List (Option ℤ × Bytes × Bytes) :=
  (groupBy (fun r ↦ (r.path, r.account))
    (selectWhere (fun r ↦ eq (some r.size) (some (-1))) db.commitBatch.rows)).map
      fun g ↦ (min FileRow.time g.2, g.1.1, g.1.2)

/-- `commit_batch c1 LEFT JOIN c2`: a commit with the first deletion of its path, if that is
later. -/
def joinedCommits : List (FileRow × Option (Option ℤ × Bytes × Bytes)) :=
  leftJoin (fun c1 c2 ↦ and (and (eq (some c2.2.1) (some c1.path))
    (eq (some c2.2.2) (some c1.account))) (lt (some c1.time) c2.1))
    db.commitBatch.rows db.firstDeletions

/-- `time > c1.time AND (time < c2.time OR c2.time IS NULL)` -/
def inWindow (c1 : FileRow) (c2time : Option ℤ) (l : FileRow) : Option Bool :=
  and (lt (some c1.time) (some l.time)) (or (lt (some l.time) c2time) (isNull c2time))

/-- The commits that the first query selects, each with its partner of the left join. -/
def selectedCommits : List (FileRow × Option (Option ℤ × Bytes × Bytes)) :=
  selectWhere (fun (c1, c2) ↦
    let c2time := c2.bind Prod.fst
    and (le (some 0) (some c1.size)) (some (hasRows (distinct ((selectWhere (fun l1 ↦
      and (and (inWindow c1 c2time l1) (eq (some l1.account) (some c1.account)))
        (some !hasRows (selectWhere (fun l2 ↦
          and (and (inWindow c1 c2time l2) (eq (some l1.hostKey) (some l2.hostKey)))
            (eq (some c1.path) (some l2.path))) db.list.rows))) db.list.rows).map
              FileRow.hostKey)))))
    db.joinedCommits

/-- The first query of `libseal_do_audit`. -/
def completenessQuery : List (Bytes × Bytes × ℤ × Option ℤ) :=
  db.selectedCommits.map fun (c1, c2) ↦ (c1.path, c1.account, c1.time, c2.bind Prod.fst)

/-! ### The second query -/

/-- The pairs of a commit and a listed file that the second query selects. -/
def selectedPairs : List (FileRow × FileRow) :=
  selectWhere (fun (c, l) ↦
    and (and (and (ne (some l.blocklist) (some c.blocklist)) (ne (some l.size) (some (-1))))
      (ne (some l.size) (some (-1)))) (some !hasRows (selectWhere (fun m ↦
        and (and (and (and (eq (some m.account) (some l.account)) (eq (some m.path) (some l.path)))
          (lt (some m.time) (some l.time))) (lt (some c.time) (some m.time)))
          (ne (some m.size) (some (-1)))) db.commitBatch.rows)))
    (join (fun c l ↦ and (and (lt (some l.time) (some c.time)) (eq (some l.path) (some c.path)))
      (eq (some l.account) (some c.account))) db.commitBatch.rows db.list.rows)

/-- The second query of `libseal_do_audit`. -/
def contentQuery : List (ℤ × Bytes × Bytes) :=
  db.selectedPairs.map fun (c, l) ↦ (c.time, c.path, l.account)

end DropboxDatabase

end LibSeal
