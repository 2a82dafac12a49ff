import LibSeal.Dropbox.Relations

/-!
# The completeness audit of Dropbox

The first query of `libseal_do_audit` looks for a commit that a listing omits: a host has got a
listing after the commit, and before the file was deleted, in which the file is missing. The time of
the deletion is where it goes wrong. The subquery takes the *first deletion of the path ever*, and
the left join then drops it if it is not later than the commit; what is left is `NULL`, which stands
for a file that was never deleted. A file that has been deleted before the commit, and is deleted
again after it, so has a window without an end.

With one deletion on either side of a commit the two windows differ, and the verdicts agree unless a
host is misjudged in one of two ways (`selected_iff_omitted_iff`). In
`not_selected_iff_omitted_of_deleted_again` a file is deleted, uploaded again, deleted again, and
then missing from a listing, as it should be; the upload is reported.
-/

namespace LibSeal

open Bytes SqlQuery

namespace DropboxDatabase

/-- A commit that deletes the path of another one. -/
def Deletes (d c : FileRow) : Prop := d.size = -1 ∧ d.path = c.path

instance (d c : FileRow) : Decidable (Deletes d c) :=
  inferInstanceAs (Decidable (d.size = -1 ∧ d.path = c.path))

variable (db : DropboxDatabase)

/-- A listing row is later than the commit, and earlier than the first deletion of its path that is
later than the commit, if there is one. -/
def InWindow (c l : FileRow) : Prop :=
  c.time < l.time ∧ ∀ d ∈ db.commitBatch.rows, Deletes d c → c.time < d.time → l.time < d.time

/-- A listing row is later than the commit. -/
def IsLater (c l : FileRow) : Prop := c.time < l.time

/-- The host of a listing row in a window is shown the path there. -/
def Shown (window : FileRow → Prop) (c l : FileRow) : Prop :=
  ∃ l' ∈ db.list.rows, window l' ∧ l'.hostKey = l.hostKey ∧ l'.path = c.path

/-- Some host has a listing row in a window and is not shown the path there. -/
def OmittedIn (window : FileRow → Prop) (c : FileRow) : Prop :=
  ∃ l ∈ db.list.rows, window l ∧ ¬ db.Shown window c l

/-- **The commit is omitted.** -/
def Omitted (c : FileRow) : Prop := db.OmittedIn (db.InWindow c) c

/-- The first query returns the commit. -/
def Selected (c : FileRow) : Prop := ∃ c2, (c, c2) ∈ db.selectedCommits

/-- The path has been deleted by the time of the commit. -/
def DeletedBefore (c : FileRow) : Prop := ∃ d ∈ db.commitBatch.rows, Deletes d c ∧ d.time ≤ c.time

/-- The path is deleted after the commit. -/
def DeletedAfter (c : FileRow) : Prop := ∃ d ∈ db.commitBatch.rows, Deletes d c ∧ c.time < d.time

/-- All rows are of one account. -/
def SingleAccount : Prop :=
  ∃ account, ∀ r ∈ db.commitBatch.rows ++ db.list.rows, r.account = account

variable {db}

/-! ### What the query computes -/

/-- The time of the first deletion of the path, earlier or later than the commit. -/
def IsFirstDeletion (db : DropboxDatabase) (c : FileRow) (m : ℤ) : Prop :=
  (∃ d ∈ db.commitBatch.rows, Deletes d c ∧ d.time = m) ∧
    ∀ d ∈ db.commitBatch.rows, Deletes d c → m ≤ d.time

/-- The window of the query: its end is the first deletion, if that is later than the commit. -/
def QueryWindow (db : DropboxDatabase) (c l : FileRow) : Prop :=
  c.time < l.time ∧ ∀ m, db.IsFirstDeletion c m → c.time < m → l.time < m

/-- The subquery finds one row for a path that is deleted: the time of its first deletion. -/
theorem mem_firstDeletions_iff {t : Option ℤ} {path account : Bytes} :
    (t, path, account) ∈ db.firstDeletions ↔ ∃ m, t = some m ∧
      (∃ d ∈ db.commitBatch.rows, (d.size = -1 ∧ d.path = path ∧ d.account = account) ∧
        d.time = m) ∧
      ∀ d ∈ db.commitBatch.rows, d.size = -1 ∧ d.path = path ∧ d.account = account →
        m ≤ d.time := by
  set deletions := (selectWhere (fun r : FileRow ↦ eq (some r.size) (some (-1)))
    db.commitBatch.rows).filter fun r ↦ (r.path, r.account) = (path, account)
  have hmem : ∀ d, d ∈ deletions ↔ d ∈ db.commitBatch.rows ∧
      d.size = -1 ∧ d.path = path ∧ d.account = account := by
    intro d
    simp only [deletions, List.mem_filter, mem_selectWhere, eq_some_some, Option.some.injEq,
      decide_eq_true_eq, Prod.mk.injEq]
    tauto
  -- the least time of the group
  have hmin : ∀ m, min FileRow.time deletions = some m ↔
      (∃ d ∈ db.commitBatch.rows, (d.size = -1 ∧ d.path = path ∧ d.account = account) ∧
        d.time = m) ∧
      ∀ d ∈ db.commitBatch.rows, d.size = -1 ∧ d.path = path ∧ d.account = account →
        m ≤ d.time := by
    intro m
    rw [min_eq_some_iff]
    simp only [hmem, and_assoc, and_imp]
  rw [firstDeletions, List.mem_map]
  constructor
  · rintro ⟨⟨key, group⟩, hgroup, heq⟩
    obtain ⟨⟨d, hd, hkey⟩, hrows⟩ := mem_groupBy.1 hgroup
    cases heq
    have hdeletions : group = deletions := hrows
    have hd' : d ∈ deletions := List.mem_filter.2 ⟨hd, decide_eq_true hkey⟩
    obtain ⟨m, hm⟩ := exists_min_eq_some FileRow.time hd'
    exact ⟨m, hdeletions ▸ hm, (hmin m).1 hm⟩
  · rintro ⟨m, rfl, hfirst⟩
    have hm := (hmin m).2 hfirst
    obtain ⟨d, hd, -⟩ := (min_eq_some_iff.1 hm).1
    obtain ⟨hselected, hkey⟩ := List.mem_filter.1 hd
    refine ⟨((path, account), deletions),
      mem_groupBy.2 ⟨⟨d, hselected, of_decide_eq_true hkey⟩, rfl⟩, ?_⟩
    rw [hm]

theorem inWindow_eq_some_true_iff {c : FileRow} {c2time : Option ℤ} {l : FileRow} :
    inWindow c c2time l = some true ↔ c.time < l.time ∧ ∀ t, c2time = some t → l.time < t := by
  simp only [inWindow, and_eq_some_true_iff, or_eq_some_true_iff, lt_eq_some_true_iff,
    isNull_eq_some_true_iff, Option.some.injEq]
  cases c2time with
  | none => simp
  | some t => simp

/-- **The left join** gives a commit the end of its window. -/
theorem inWindow_iff_queryWindow (hone : db.SingleAccount) {c : FileRow}
    {c2 : Option (Option ℤ × Bytes × Bytes)} (h : (c, c2) ∈ db.joinedCommits) (l : FileRow) :
    inWindow c (c2.bind Prod.fst) l = some true ↔ db.QueryWindow c l := by
  obtain ⟨hc, hpartner⟩ := mem_leftJoin.1 h
  obtain ⟨account, haccount⟩ := hone
  -- the subquery groups by the account too, of which there is one
  have hdeletes : ∀ d ∈ db.commitBatch.rows,
      (d.size = -1 ∧ d.path = c.path ∧ d.account = c.account) ↔ Deletes d c := by
    intro d hd
    have hsame : d.account = c.account :=
      (haccount d (List.mem_append_left _ hd)).trans (haccount c (List.mem_append_left _ hc)).symm
    simp only [Deletes, hsame, and_true]
  have hfirst : ∀ m, (some m, c.path, c.account) ∈ db.firstDeletions ↔ db.IsFirstDeletion c m := by
    intro m
    rw [mem_firstDeletions_iff]
    constructor
    · rintro ⟨m', hm, ⟨d, hd, hdel, htime⟩, hle⟩
      cases hm
      exact ⟨⟨d, hd, (hdeletes d hd).1 hdel, htime⟩,
        fun d hd hdel ↦ hle d hd ((hdeletes d hd).2 hdel)⟩
    · rintro ⟨⟨d, hd, hdel, htime⟩, hle⟩
      exact ⟨m, rfl, ⟨d, hd, (hdeletes d hd).2 hdel, htime⟩,
        fun d hd hdel ↦ hle d hd ((hdeletes d hd).1 hdel)⟩
  rw [inWindow_eq_some_true_iff, QueryWindow]
  refine and_congr_right fun _ ↦ ?_
  rcases hpartner with ⟨⟨t, path, account'⟩, hmem, hcond, rfl⟩ | ⟨hnone, rfl⟩
  · -- the first deletion is later than the commit
    simp only [and_eq_some_true_iff, eq_some_some, lt_eq_some_true_iff, Option.some.injEq,
      decide_eq_true_eq] at hcond
    obtain ⟨⟨rfl, rfl⟩, m, rfl, hlt⟩ := hcond
    obtain ⟨⟨d, hd, hdel, rfl⟩, hle⟩ := (hfirst m).1 hmem
    constructor
    · rintro hend m' ⟨⟨d', hd', hdel', rfl⟩, -⟩ -
      exact (hend _ rfl).trans_le (hle d' hd' hdel')
    · intro hall t ht
      cases ht
      exact hall _ ⟨⟨d, hd, hdel, rfl⟩, hle⟩ hlt
  · -- there is none, or it is not
    constructor
    · intro _ m hm hlt
      refine absurd ?_ (hnone _ ((hfirst m).2 hm))
      simp [hlt]
    · intro _ t ht
      exact nomatch ht

/-- **What the first query returns**: the commits that are omitted in the window of the query. -/
theorem selected_iff_omittedIn (hone : db.SingleAccount) {c : FileRow}
    (hc : c ∈ db.commitBatch.rows) (hsize : 0 ≤ c.size) :
    db.Selected c ↔ db.OmittedIn (db.QueryWindow c) c := by
  have haccount : ∀ l ∈ db.list.rows, l.account = c.account := by
    obtain ⟨account, haccount⟩ := hone
    exact fun l hl ↦ (haccount l (List.mem_append_right _ hl)).trans
      (haccount c (List.mem_append_left _ hc)).symm
  -- whichever partner the join has found, the window is the same
  have hselected : ∀ c2, (c, c2) ∈ db.joinedCommits →
      ((c, c2) ∈ db.selectedCommits ↔ db.OmittedIn (db.QueryWindow c) c) := by
    intro c2 hjoined
    rw [selectedCommits, mem_selectWhere]
    simp only [hjoined, true_and, and_eq_some_true_iff, le_some_some, eq_some_some,
      hasRows_distinct_map, hasRows_selectWhere_iff, Bool.not_eq_true',
      hasRows_selectWhere_eq_false_iff, inWindow_iff_queryWindow hone hjoined, Option.some.injEq,
      decide_eq_true_eq, hsize, OmittedIn, Shown]
    constructor
    · rintro ⟨l, hl, ⟨hwindow, -⟩, hnone⟩
      refine ⟨l, hl, hwindow, ?_⟩
      rintro ⟨l', hl', hwindow', hhost, hpath⟩
      exact hnone l' hl' ⟨⟨hwindow', hhost.symm⟩, hpath.symm⟩
    · rintro ⟨l, hl, hwindow, hnone⟩
      refine ⟨l, hl, ⟨hwindow, haccount l hl⟩, ?_⟩
      rintro l' hl' ⟨⟨hwindow', hhost⟩, hpath⟩
      exact hnone ⟨l', hl', hwindow', hhost.symm, hpath.symm⟩
  constructor
  · rintro ⟨c2, hmem⟩
    exact (hselected c2 (mem_selectWhere.1 hmem).1).1 hmem
  · intro homitted
    obtain ⟨c2, hjoined⟩ := exists_mem_leftJoin _ db.firstDeletions hc
    exact ⟨c2, (hselected c2 hjoined).2 homitted⟩

/-! ### The window of the query and the window that is meant -/

/-- A path that is deleted has a first deletion. -/
theorem exists_isFirstDeletion {c d : FileRow} (hd : d ∈ db.commitBatch.rows)
    (hdel : Deletes d c) : ∃ m, db.IsFirstDeletion c m ∧ m ≤ d.time := by
  have hmem : ∀ r, r ∈ db.commitBatch.rows.filter (fun r ↦ Deletes r c) ↔
      r ∈ db.commitBatch.rows ∧ Deletes r c := by
    intro r
    rw [List.mem_filter, decide_eq_true_eq]
  obtain ⟨m, hm⟩ := exists_min_eq_some FileRow.time ((hmem d).2 ⟨hd, hdel⟩)
  obtain ⟨⟨r, hr, hrm⟩, hle⟩ := min_eq_some_iff.1 hm
  exact ⟨m, ⟨⟨r, ((hmem r).1 hr).1, ((hmem r).1 hr).2, hrm⟩,
    fun s hs hsdel ↦ hle s ((hmem s).2 ⟨hs, hsdel⟩)⟩, hle d ((hmem d).2 ⟨hd, hdel⟩)⟩

/-- If the path has not been deleted before the commit, the first deletion is the next. -/
theorem queryWindow_iff_inWindow {c : FileRow} (h : ¬ db.DeletedBefore c) (l : FileRow) :
    db.QueryWindow c l ↔ db.InWindow c l := by
  refine and_congr_right fun _ ↦ ?_
  constructor
  · intro hquery d hd hdel _
    obtain ⟨m, hm, hle⟩ := exists_isFirstDeletion hd hdel
    obtain ⟨r, hr, hrdel, hrm⟩ := hm.1
    have hlater : c.time < m := by
      by_contra hnot
      exact h ⟨r, hr, hrdel, hrm.trans_le (not_lt.1 hnot)⟩
    exact (hquery m hm hlater).trans_le hle
  · rintro hwindow m ⟨⟨d, hd, hdel, rfl⟩, -⟩ hlater
    exact hwindow d hd hdel hlater

/-- If it has, the window of the query has no end. -/
theorem queryWindow_iff_isLater {c : FileRow} (h : db.DeletedBefore c) (l : FileRow) :
    db.QueryWindow c l ↔ IsLater c l := by
  refine ⟨And.left, fun hlater ↦ ⟨hlater, ?_⟩⟩
  rintro m ⟨-, hle⟩ hlt
  obtain ⟨d, hd, hdel, hbefore⟩ := h
  exact absurd (hlt.trans_le ((hle d hd hdel).trans hbefore)) (lt_irrefl _)

/-- If the path is not deleted after the commit, the window that is meant has no end either. -/
theorem inWindow_iff_isLater {c : FileRow} (h : ¬ db.DeletedAfter c) (l : FileRow) :
    db.InWindow c l ↔ IsLater c l :=
  ⟨And.left, fun hlater ↦ ⟨hlater, fun d hd hdel hlt ↦ absurd ⟨d, hd, hdel, hlt⟩ h⟩⟩

theorem omittedIn_congr {window window' : FileRow → Prop} (h : ∀ l, window l ↔ window' l)
    (c : FileRow) : db.OmittedIn window c ↔ db.OmittedIn window' c := by
  simp only [OmittedIn, Shown, h]

/-- **A false alarm**: every host with a listing before the next deletion is shown the path there,
and some host with a later listing is never shown it. -/
def FalseAlarm (db : DropboxDatabase) (c : FileRow) : Prop :=
  (∀ l ∈ db.list.rows, db.InWindow c l → db.Shown (db.InWindow c) c l) ∧
    ∃ l ∈ db.list.rows, IsLater c l ∧ ¬ db.Shown (IsLater c) c l

/-- **A miss**: some host with a listing before the next deletion is not shown the path there, and
every host with a later listing is shown it at some time. -/
def Missed (db : DropboxDatabase) (c : FileRow) : Prop :=
  (∃ l ∈ db.list.rows, db.InWindow c l ∧ ¬ db.Shown (db.InWindow c) c l) ∧
    ∀ l ∈ db.list.rows, IsLater c l → db.Shown (IsLater c) c l

/-- **The first query is exact about a commit** unless its path has been deleted before it and is
deleted after it, and the deletion in between makes a false alarm or a miss. -/
theorem selected_iff_omitted_iff (hone : db.SingleAccount) {c : FileRow}
    (hc : c ∈ db.commitBatch.rows) (hsize : 0 ≤ c.size) :
    (db.Selected c ↔ db.Omitted c) ↔
      ¬ db.DeletedBefore c ∨ ¬ db.DeletedAfter c ∨ ¬ db.FalseAlarm c ∧ ¬ db.Missed c := by
  rw [selected_iff_omittedIn hone hc hsize, Omitted]
  by_cases hbefore : db.DeletedBefore c
  · by_cases hafter : db.DeletedAfter c
    · rw [omittedIn_congr (queryWindow_iff_isLater hbefore)]
      have hverdicts : (db.OmittedIn (IsLater c) c ↔ db.OmittedIn (db.InWindow c) c) ↔
          ¬ (¬ db.OmittedIn (db.InWindow c) c ∧ db.OmittedIn (IsLater c) c) ∧
            ¬ (db.OmittedIn (db.InWindow c) c ∧ ¬ db.OmittedIn (IsLater c) c) := by
        tauto
      have hnone : ∀ window : FileRow → Prop, ¬ db.OmittedIn window c ↔
          ∀ l ∈ db.list.rows, window l → db.Shown window c l := by
        intro window
        simp only [OmittedIn, not_exists, not_and, not_not]
      rw [hverdicts, hnone, hnone]
      simp only [hbefore, hafter, not_true_eq_false, false_or]
      rfl
    · refine iff_of_true ?_ (Or.inr (Or.inl hafter))
      rw [omittedIn_congr (queryWindow_iff_isLater hbefore),
        omittedIn_congr (inWindow_iff_isLater hafter)]
  · refine iff_of_true ?_ (Or.inl hbefore)
    rw [omittedIn_congr (queryWindow_iff_inWindow hbefore)]

/-! ### A concrete history -/

/-- A row of the one host of user `u`. -/
def fileRow (time : ℤ) (path : Bytes) (size : ℤ) : FileRow :=
  ⟨time, ascii "u", ascii "K", path, size, ascii "b"⟩

/-- A file that is deleted, uploaded again, and deleted again; the listing after that shows another
file. -/
def deletedAgain : DropboxDatabase where
  list := ⟨[fileRow 5 (ascii "/g") 1], by decide⟩
  commitBatch := ⟨[fileRow 1 (ascii "/g") 1, fileRow 2 (ascii "/f") (-1), fileRow 3 (ascii "/f") 1,
    fileRow 4 (ascii "/f") (-1)], by decide⟩

theorem singleAccount_deletedAgain : deletedAgain.SingleAccount := ⟨ascii "u", by decide⟩

/-- The second upload is returned, though the only listing omits it rightly. -/
theorem not_selected_iff_omitted_of_deleted_again :
    deletedAgain.SingleAccount ∧ ∃ c ∈ deletedAgain.commitBatch.rows, 0 ≤ c.size ∧
      deletedAgain.Selected c ∧ ¬ deletedAgain.Omitted c := by
  refine ⟨singleAccount_deletedAgain, fileRow 3 (ascii "/f") 1, by decide, by decide,
    ⟨none, by decide⟩, ?_⟩
  rintro ⟨l, hl, hwindow, -⟩
  have hlt := hwindow.2 (fileRow 4 (ascii "/f") (-1)) (by decide) ⟨rfl, rfl⟩ (by decide)
  rw [List.mem_singleton.1 hl] at hlt
  exact absurd hlt (by decide)

/-- A file that is deleted, uploaded again, left out of a listing, and deleted again. -/
def leftOut : DropboxDatabase where
  list := ⟨[fileRow 4 (ascii "/g") 1], by decide⟩
  commitBatch := ⟨[fileRow 1 (ascii "/g") 1, fileRow 2 (ascii "/f") (-1), fileRow 3 (ascii "/f") 1,
    fileRow 6 (ascii "/f") (-1)], by decide⟩

/-- The second upload is judged rightly, although its path is deleted before it and after it. -/
theorem selected_iff_omitted_of_left_out :
    (leftOut.DeletedBefore (fileRow 3 (ascii "/f") 1) ∧
      leftOut.DeletedAfter (fileRow 3 (ascii "/f") 1)) ∧
    (leftOut.Selected (fileRow 3 (ascii "/f") 1) ↔ leftOut.Omitted (fileRow 3 (ascii "/f") 1)) := by
  have hnotShown : ∀ window : FileRow → Prop, ∀ l,
      ¬ leftOut.Shown window (fileRow 3 (ascii "/f") 1) l := by
    rintro window l ⟨l', hl', -, -, hpath⟩
    rw [List.mem_singleton.1 hl'] at hpath
    exact absurd hpath (by decide)
  have hlisted : fileRow 4 (ascii "/g") 1 ∈ leftOut.list.rows := List.mem_cons_self
  have hwindow : leftOut.InWindow (fileRow 3 (ascii "/f") 1) (fileRow 4 (ascii "/g") 1) :=
    ⟨by decide, by decide⟩
  refine ⟨⟨⟨fileRow 2 (ascii "/f") (-1), by decide, by decide, by decide⟩,
    ⟨fileRow 6 (ascii "/f") (-1), by decide, by decide, by decide⟩⟩, ?_⟩
  refine (selected_iff_omitted_iff ⟨ascii "u", by decide⟩ (by decide) (by decide)).2
    (Or.inr (Or.inr ⟨fun hfalse ↦ ?_, fun hmissed ↦ ?_⟩))
  · exact hnotShown _ _ (hfalse.1 _ hlisted hwindow)
  · exact hnotShown _ _ (hmissed.2 _ hlisted hwindow.1)

end DropboxDatabase

end LibSeal
