import LibSeal.Git.History

/-!
# The completeness audit of Git

A server that leaves a branch out of its advertisement is to be found by `incomplete2`, which counts
the branches that are advertised and compares with the number of those that are there. The second
number comes from the table `branchmods`, and nothing is ever inserted into it. So the view is empty
whatever has been logged (`completenessQuery_ofRows`), and no omission is reported
(`notMem_completenessQuery_of_omits`).

The views themselves are right: if `branchmods` had the accepted updates, every omission would be
reported (`mem_completenessQuery_of_omits`).
-/

namespace LibSeal

open Bytes SqlQuery

/-- A branch of a repository is there at a time: its last accepted update was no deletion. -/
def Live (db : GitDatabase) (time : ℤ) (repo branch : Bytes) : Prop :=
  ∃ u, IsLatest UpdateRow.time db.updates.rows
    (fun u ↦ u.repo = repo ∧ u.branch = branch ∧ u.time < time ∧ u.result = 1) u ∧ u.type ≠ .delete

/-- An advertisement shows a branch. -/
def Advertised (db : GitDatabase) (time : ℤ) (repo branch : Bytes) : Prop :=
  ∃ a ∈ db.advertisements.rows, a.time = time ∧ a.repo = repo ∧ a.branch = branch

/-- An advertisement leaves a branch out: what it shows is there, apart from `HEAD`, but not
everything that is there is shown. -/
structure Omits (db : GitDatabase) (time : ℤ) (repo : Bytes) : Prop where
  shows : ∃ branch, branch ≠ GitDatabase.head ∧ Advertised db time repo branch
  live : ∀ branch, branch ≠ GitDatabase.head → Advertised db time repo branch →
    Live db time repo branch
  omits : ∃ branch, Live db time repo branch ∧ ¬ Advertised db time repo branch

/-! ### What the views count -/

section Views

variable {db : GitDatabase}

/-- The modifications of branches that are there when an advertisement is made, each paired with the
advertisement. -/
def liveMods (db : GitDatabase) : List (AdvertisementRow × UpdateRow) :=
  selectWhere (fun (a, bm) ↦ and (ne (some bm.type) (some .delete))
    (some !hasRows (selectWhere (fun m ↦ and (and (and (eq (some m.branch) (some bm.branch))
      (eq (some m.repo) (some bm.repo))) (lt (some m.time) (some a.time)))
      (lt (some bm.time) (some m.time))) db.branchmods.rows)))
    (join (fun a bm ↦ and (lt (some bm.time) (some a.time)) (eq (some bm.repo) (some a.repo)))
      db.advertisements.rows db.branchmods.rows)

theorem branchcnt2_eq (db : GitDatabase) : db.branchcnt2 =
    distinct ((groupBy (fun p ↦ p.1.key) (liveMods db)).map fun g ↦ (g.1.1, g.1.2.1, g.2.length)) :=
  rfl

theorem mem_liveMods {p : AdvertisementRow × UpdateRow} :
    p ∈ liveMods db ↔ p.1 ∈ db.advertisements.rows ∧ IsLatest UpdateRow.time db.branchmods.rows
      (fun u ↦ u.repo = p.1.repo ∧ u.branch = p.2.branch ∧ u.time < p.1.time) p.2 ∧
        p.2.type ≠ .delete := by
  obtain ⟨a, bm⟩ := p
  simp only [liveMods, mem_selectWhere, mem_join, and_some_some, ne, eq_some_some, Option.map_some,
    lt_some_some, Option.some.injEq, Bool.and_eq_true, Bool.not_eq_true', decide_eq_true_eq,
    decide_eq_false_iff_not, hasRows_selectWhere_eq_false_iff, not_and, not_lt, IsLatest, and_imp]
  constructor
  · rintro ⟨⟨⟨ha, hbm⟩, htime, hrepo⟩, htype, hmax⟩
    exact ⟨ha, ⟨⟨hbm, hrepo, trivial, htime⟩,
      fun m hm hmrepo hbranch hmtime ↦ hmax m hm hbranch (hmrepo.trans hrepo.symm) hmtime⟩, htype⟩
  · rintro ⟨ha, ⟨⟨hbm, hrepo, -, htime⟩, hmax⟩, htype⟩
    exact ⟨⟨⟨ha, hbm⟩, htime, hrepo⟩, htype,
      fun m hm hbranch hmrepo hmtime ↦ hmax m hm (hmrepo.trans hrepo) hbranch hmtime⟩

theorem nodup_rows {α : Type} {key : α → ℤ × Bytes × Bytes} (t : Table α (ℤ × Bytes × Bytes) key) :
    t.rows.Nodup := t.nodup.of_map key

/-- The branches that are counted for an advertisement. -/
def countedBranches (db : GitDatabase) (a : AdvertisementRow) : List Bytes :=
  ((liveMods db).filter fun p ↦ p.1.key = a.key).map fun p ↦ p.2.branch

/-- No branch is counted twice. -/
theorem nodup_countedBranches (db : GitDatabase) (a : AdvertisementRow) :
    (countedBranches db a).Nodup := by
  have hnd : (liveMods db).Nodup :=
    (((nodup_rows db.advertisements).product (nodup_rows db.branchmods)).filter _).filter _
  refine (hnd.filter _).map_on fun p hp q hq hbranch ↦ ?_
  rw [List.mem_filter, decide_eq_true_eq, mem_liveMods] at hp hq
  obtain ⟨⟨hpa, hp, -⟩, hpkey⟩ := hp
  obtain ⟨⟨hqa, hq, -⟩, hqkey⟩ := hq
  have hfst : p.1 = q.1 := db.advertisements.eq_of_key_eq hpa hqa (hpkey.trans hqkey.symm)
  have htime : p.2.time = q.2.time := by
    refine le_antisymm (hq.2 _ hp.1.1 ?_) (hp.2 _ hq.1.1 ?_)
    · exact hfst ▸ ⟨hp.1.2.1, hbranch, hp.1.2.2.2⟩
    · exact hfst ▸ ⟨hq.1.2.1, hbranch.symm, hq.1.2.2.2⟩
  refine Prod.ext hfst (db.branchmods.eq_of_key_eq hp.1.1 hq.1.1 ?_)
  rw [UpdateRow.key, UpdateRow.key, htime, hbranch, hp.1.2.1, hq.1.2.1, hfst]

/-- What is counted, if the modifications are the accepted updates, are the branches that are
there. -/
theorem mem_countedBranches_iff
    (hmods : ∀ u, u ∈ db.branchmods.rows ↔ u ∈ db.updates.rows ∧ u.result = 1)
    {a : AdvertisementRow} (ha : a ∈ db.advertisements.rows) {branch : Bytes} :
    branch ∈ countedBranches db a ↔ Live db a.time a.repo branch := by
  -- the last one among the accepted updates is the last accepted one among all
  have hlatest : ∀ (b : Bytes) (u : UpdateRow),
      IsLatest UpdateRow.time db.branchmods.rows
        (fun u ↦ u.repo = a.repo ∧ u.branch = b ∧ u.time < a.time) u ↔
      IsLatest UpdateRow.time db.updates.rows
        (fun u ↦ u.repo = a.repo ∧ u.branch = b ∧ u.time < a.time ∧ u.result = 1) u := by
    intro b u
    simp only [IsLatest, hmods]
    constructor
    · rintro ⟨⟨⟨hu, haccepted⟩, hrepo, hbranch, htime⟩, hmax⟩
      exact ⟨⟨hu, hrepo, hbranch, htime, haccepted⟩,
        fun v hv hpv ↦ hmax v ⟨hv, hpv.2.2.2⟩ ⟨hpv.1, hpv.2.1, hpv.2.2.1⟩⟩
    · rintro ⟨⟨hu, hrepo, hbranch, htime, haccepted⟩, hmax⟩
      exact ⟨⟨⟨hu, haccepted⟩, hrepo, hbranch, htime⟩,
        fun v hv hpv ↦ hmax v hv.1 ⟨hpv.1, hpv.2.1, hpv.2.2, hv.2⟩⟩
  rw [countedBranches, List.mem_map]
  constructor
  · rintro ⟨⟨b, u⟩, hp, rfl⟩
    rw [List.mem_filter, decide_eq_true_eq, mem_liveMods] at hp
    obtain ⟨⟨hb, hu, htype⟩, hkey⟩ := hp
    obtain rfl : b = a := db.advertisements.eq_of_key_eq hb ha hkey
    exact ⟨u, (hlatest _ _).1 hu, htype⟩
  · rintro ⟨u, hu, htype⟩
    have hbranch : u.branch = branch := hu.1.2.2.1
    subst hbranch
    refine ⟨(a, u), ?_, rfl⟩
    rw [List.mem_filter, decide_eq_true_eq, mem_liveMods]
    exact ⟨⟨ha, (hlatest _ _).2 hu, htype⟩, rfl⟩

/-- **The view `branchcnt2`** has the number of the branches that are there, and no other number,
for each advertisement at which there are any. -/
theorem mem_branchcnt2_iff
    (hmods : ∀ u, u ∈ db.branchmods.rows ↔ u ∈ db.updates.rows ∧ u.result = 1)
    {a : AdvertisementRow} (ha : a ∈ db.advertisements.rows) (hne : countedBranches db a ≠ [])
    {n : ℕ} : (a.time, a.repo, n) ∈ db.branchcnt2 ↔ n = (countedBranches db a).length := by
  have hgroup : ∀ g, g ∈ groupBy (fun p ↦ p.1.key) (liveMods db) ↔
      ∃ b ∈ db.advertisements.rows, countedBranches db b ≠ [] ∧
        g = (b.key, (liveMods db).filter fun p ↦ p.1.key = b.key) := by
    rintro ⟨k, l⟩
    rw [mem_groupBy]
    constructor
    · rintro ⟨⟨p, hp, hk⟩, hl⟩
      simp only at hk hl
      subst hk
      refine ⟨p.1, (mem_liveMods.1 hp).1, ?_, by rw [hl]⟩
      exact List.ne_nil_of_mem (List.mem_map_of_mem (List.mem_filter.2 ⟨hp, by simp⟩))
    · rintro ⟨b, hb, hne, heq⟩
      obtain ⟨rfl, rfl⟩ := Prod.mk.inj heq
      obtain ⟨_, hmem⟩ := List.exists_mem_of_ne_nil _ hne
      obtain ⟨p, hp, -⟩ := List.mem_map.1 hmem
      rw [List.mem_filter, decide_eq_true_eq] at hp
      exact ⟨⟨p, hp⟩, rfl⟩
  rw [branchcnt2_eq, distinct, List.mem_dedup, List.mem_map]
  simp only [hgroup]
  constructor
  · rintro ⟨_, ⟨b, hb, -, rfl⟩, heq⟩
    -- an advertisement of the same time and repository counts the same branches
    obtain ⟨htime, heq⟩ := Prod.mk.inj heq
    obtain ⟨hrepo, rfl⟩ := Prod.mk.inj heq
    have hperm : (countedBranches db b).Perm (countedBranches db a) := by
      refine (List.perm_ext_iff_of_nodup (nodup_countedBranches db b)
        (nodup_countedBranches db a)).2 fun branch ↦ ?_
      have hbtime : b.time = a.time := htime
      have hbrepo : b.repo = a.repo := hrepo
      rw [mem_countedBranches_iff hmods hb, mem_countedBranches_iff hmods ha, hbtime, hbrepo]
    have hlength := hperm.length_eq
    rw [countedBranches, List.length_map] at hlength
    exact hlength
  · rintro rfl
    refine ⟨_, ⟨a, ha, hne, rfl⟩, ?_⟩
    rw [countedBranches, List.length_map]
    rfl

end Views


/-! ### What is reported -/

/-- Without modifications there is nothing to count. -/
theorem completenessQuery_of_branchmods_eq_nil {db : GitDatabase} (h : db.branchmods.rows = []) :
    db.completenessQuery = [] := by
  have hcnt : db.branchcnt2 = [] := by
    rw [GitDatabase.branchcnt2, h, join, List.product_nil]
    rfl
  rw [GitDatabase.completenessQuery, GitDatabase.incomplete2, hcnt, join, List.product_nil]
  rfl

/-- **The view is empty** after any rows that the auditor logs. -/
theorem completenessQuery_ofRows (rows : List GitRow) :
    (GitDatabase.ofRows rows).completenessQuery = [] := by
  refine completenessQuery_of_branchmods_eq_nil ?_
  rw [GitDatabase.ofRows, GitDatabase.log_eq]
  rfl

/-- **No omission is reported.** -/
theorem notMem_completenessQuery_of_omits (rows : List GitRow) (time : ℤ) (repo : Bytes)
    (_ : Omits (GitDatabase.ofRows rows) time repo) :
    (time, repo) ∉ (GitDatabase.ofRows rows).completenessQuery := by
  rw [completenessQuery_ofRows]
  exact List.not_mem_nil

/-- **With the accepted updates in `branchmods`, every omission would be reported.** -/
theorem mem_completenessQuery_of_omits {db : GitDatabase}
    (hmods : ∀ u, u ∈ db.branchmods.rows ↔ u ∈ db.updates.rows ∧ u.result = 1) {time : ℤ}
    {repo : Bytes} (h : Omits db time repo) : (time, repo) ∈ db.completenessQuery := by
  obtain ⟨shown, hshown, a, ha, rfl, rfl, rfl⟩ := h.shows
  obtain ⟨omitted, hlive, homitted⟩ := h.omits
  have hcounted : omitted ∈ countedBranches db a := (mem_countedBranches_iff hmods ha).2 hlive
  have hcnt : ∀ {n}, (a.time, a.repo, n) ∈ db.branchcnt2 ↔ n = (countedBranches db a).length :=
    mem_branchcnt2_iff hmods ha (List.ne_nil_of_mem hcounted)
  set count := (countedBranches db a).length with hcount
  -- the group of the advertisement
  set selected := selectWhere (fun (p : AdvertisementRow × ℤ × Bytes × ℕ) ↦
    ne (some p.1.branch) (some GitDatabase.head)) (join (fun a cnt ↦
      and (eq (some a.time) (some cnt.1)) (eq (some a.repo) (some cnt.2.1)))
      db.advertisements.rows db.branchcnt2) with hselected
  have hmem : ∀ p, p ∈ selected ↔ p.1 ∈ db.advertisements.rows ∧ p.2 ∈ db.branchcnt2 ∧
      p.1.time = p.2.1 ∧ p.1.repo = p.2.2.1 ∧ p.1.branch ≠ GitDatabase.head := by
    intro p
    simp [hselected, ne, and_assoc]
  set group := selected.filter fun p ↦ (p.1.time, p.1.repo, p.2.2.2) = (a.time, a.repo, count)
    with hgroup
  have hmemgroup : ∀ p, p ∈ group ↔ p.1 ∈ db.advertisements.rows ∧ p.1.time = a.time ∧
      p.1.repo = a.repo ∧ p.1.branch ≠ GitDatabase.head ∧ p.2 = (a.time, a.repo, count) := by
    rintro ⟨b, time, repo, n⟩
    simp only [hgroup, List.mem_filter, hmem, decide_eq_true_eq, Prod.mk.injEq]
    constructor
    · rintro ⟨⟨hb, -, rfl, rfl, hhead⟩, htime, hrepo, hn⟩
      exact ⟨hb, htime, hrepo, hhead, htime, hrepo, hn⟩
    · rintro ⟨hb, htime, hrepo, hhead, rfl, rfl, rfl⟩
      exact ⟨⟨hb, hcnt.2 rfl, htime, hrepo, hhead⟩, htime, hrepo, rfl⟩
  have hnd : (group.map fun p ↦ p.1.branch).Nodup := by
    have hselectednd : selected.Nodup :=
      (((nodup_rows db.advertisements).product (List.nodup_dedup _)).filter _).filter _
    refine (hselectednd.filter _).map_on fun p hp q hq hbranch ↦ ?_
    obtain ⟨hpa, hptime, hprepo, -, hpcnt⟩ := (hmemgroup p).1 hp
    obtain ⟨hqa, hqtime, hqrepo, -, hqcnt⟩ := (hmemgroup q).1 hq
    refine Prod.ext (db.advertisements.eq_of_key_eq hpa hqa ?_) (hpcnt.trans hqcnt.symm)
    rw [AdvertisementRow.key, AdvertisementRow.key, hptime, hprepo, hbranch, hqtime, hqrepo]
  -- the omitted branch and those that are shown are all counted
  have hlt : group.length < count := by
    have hcons : (omitted :: group.map fun p ↦ p.1.branch).Nodup := by
      refine List.nodup_cons.2 ⟨fun hmem ↦ homitted ?_, hnd⟩
      obtain ⟨p, hp, hbranch⟩ := List.mem_map.1 hmem
      obtain ⟨hpa, hptime, hprepo, -, -⟩ := (hmemgroup p).1 hp
      exact ⟨p.1, hpa, hptime, hprepo, hbranch⟩
    have hsubset : (omitted :: group.map fun p ↦ p.1.branch) ⊆ countedBranches db a := by
      refine List.cons_subset.2 ⟨hcounted, fun branch hbranch ↦ ?_⟩
      obtain ⟨p, hp, rfl⟩ := List.mem_map.1 hbranch
      obtain ⟨hpa, hptime, hprepo, hhead, -⟩ := (hmemgroup p).1 hp
      exact (mem_countedBranches_iff hmods ha).2
        (h.live _ hhead ⟨p.1, hpa, hptime, hprepo, rfl⟩)
    have hlength := (List.subperm_of_subset hcons hsubset).length_le
    rw [List.length_cons, List.length_map] at hlength
    exact hlength
  rw [GitDatabase.completenessQuery, GitDatabase.incomplete2, List.mem_map]
  refine ⟨((a.time, a.repo, count), group), ?_, rfl⟩
  rw [List.mem_filter, mem_groupBy]
  refine ⟨⟨⟨(a, a.time, a.repo, count), ?_, rfl⟩, rfl⟩, by simpa using hlt.ne⟩
  exact (hmem _).2 ⟨ha, hcnt.2 rfl, rfl, rfl, hshown⟩

/-- A push creates two branches, of which one is advertised. -/
def omittingRows : List GitRow :=
  [.update ⟨1, ascii "/r.git/", ascii "refs/heads/a", ascii "11", .create, 1⟩,
    .update ⟨1, ascii "/r.git/", ascii "refs/heads/b", ascii "22", .create, 1⟩,
    .advertisement ⟨2, ascii "/r.git/", ascii "refs/heads/a", ascii "11"⟩]

theorem omits_omittingRows : Omits (GitDatabase.ofRows omittingRows) 2 (ascii "/r.git/") := by
  have hupdates : (GitDatabase.ofRows omittingRows).updates.rows =
      [⟨1, ascii "/r.git/", ascii "refs/heads/a", ascii "11", .create, 1⟩,
        ⟨1, ascii "/r.git/", ascii "refs/heads/b", ascii "22", .create, 1⟩] := by decide +kernel
  have hadvertisements : (GitDatabase.ofRows omittingRows).advertisements.rows =
      [⟨2, ascii "/r.git/", ascii "refs/heads/a", ascii "11"⟩] := by decide +kernel
  have hne : ascii "refs/heads/a" ≠ ascii "refs/heads/b" := by decide
  have hhead : ascii "refs/heads/a" ≠ GitDatabase.head := by decide
  have hadvertised : ∀ branch, Advertised (GitDatabase.ofRows omittingRows) 2 (ascii "/r.git/")
      branch ↔ ascii "refs/heads/a" = branch := by
    intro branch
    simp [Advertised, hadvertisements]
  have hlive : ∀ branch cid, (branch = ascii "refs/heads/a" ∧ cid = ascii "11" ∨
      branch = ascii "refs/heads/b" ∧ cid = ascii "22") →
      Live (GitDatabase.ofRows omittingRows) 2 (ascii "/r.git/") branch := by
    intro branch cid hbranch
    refine ⟨⟨1, ascii "/r.git/", branch, cid, .create, 1⟩,
      ⟨⟨?_, rfl, rfl, show (1 : ℤ) < 2 by decide, rfl⟩, ?_⟩,
      UpdateType.noConfusion⟩
    · rw [hupdates]
      rcases hbranch with ⟨rfl, rfl⟩ | ⟨rfl, rfl⟩ <;> simp
    · rw [hupdates]
      simp
  refine ⟨⟨_, hhead, (hadvertised _).2 rfl⟩, fun branch _ hshown ↦ ?_,
    ⟨ascii "refs/heads/b", hlive _ _ (Or.inr ⟨rfl, rfl⟩), fun hshown ↦ ?_⟩⟩
  · exact hlive _ _ (Or.inl ⟨((hadvertised _).1 hshown).symm, rfl⟩)
  · exact hne ((hadvertised _).1 hshown)

/-- The omission is not reported. -/
theorem notMem_completenessQuery_omittingRows :
    (2, ascii "/r.git/") ∉ (GitDatabase.ofRows omittingRows).completenessQuery :=
  notMem_completenessQuery_of_omits omittingRows 2 (ascii "/r.git/") omits_omittingRows

/-- The same tables, with the accepted updates in `branchmods`. -/
def omittingWithMods : GitDatabase :=
  { GitDatabase.ofRows omittingRows with branchmods := (GitDatabase.ofRows omittingRows).updates }

/-- An omission, and an empty report; with the updates in `branchmods` it would be reported. -/
theorem not_omission_reported :
    ¬ (Omits (GitDatabase.ofRows omittingRows) 2 (ascii "/r.git/") →
        (2, ascii "/r.git/") ∈ (GitDatabase.ofRows omittingRows).completenessQuery) ∧
      (2, ascii "/r.git/") ∈ omittingWithMods.completenessQuery := by
  constructor
  · intro h
    have hmem := h omits_omittingRows
    rw [completenessQuery_ofRows] at hmem
    exact List.not_mem_nil hmem
  · have homits : Omits omittingWithMods 2 (ascii "/r.git/") :=
      ⟨omits_omittingRows.shows, omits_omittingRows.live, omits_omittingRows.omits⟩
    have haccepted : ∀ u ∈ omittingWithMods.updates.rows, u.result = 1 := by
      decide +kernel
    exact mem_completenessQuery_of_omits
      (fun u ↦ ⟨fun hu ↦ ⟨hu, haccepted u hu⟩, fun hu ↦ hu.1⟩) homits

end LibSeal
