import LibSeal.Git.Soundness

/-!
# Trimming the relations of Git

`libseal_do_trimming` deletes all advertisements and the updates whose time is not the latest of any
branch. It does so by the time alone: what is kept is the last update of each branch, and whatever
else happened at the same times.

That is enough. Beside the content that is trimmed now and then we keep the content as it would be
without any trimming. The two agree on the last update of each branch (`Trimmed.latest`), and so on
what comes before an advertisement that is still there (`Trimmed.advertisements`); the verdicts of
the soundness query are the same (`soundnessQuery_trimmed`).
-/

namespace LibSeal

open Bytes SqlQuery

/-! ### The statement -/

/-- `SELECT MAX(time) FROM updates GROUP BY repo, branch` -/
def maxTimes (db : GitDatabase) : List (Option ℤ) :=
  (groupBy (fun u ↦ (u.repo, u.branch)) db.updates.rows).map fun g ↦ max UpdateRow.time g.2

/-- `libseal_do_trimming` -/
def libsealDoTrimming (db : GitDatabase) : GitDatabase :=
  { db with
    updates := db.updates.deleteWhere fun u ↦ notIn (some u.time) (maxTimes db)
    advertisements := db.advertisements.deleteWhere fun _ ↦ some true }

/-- No update of the same branch is later. -/
def IsLastOfBranch (updates : List UpdateRow) (u : UpdateRow) : Prop :=
  IsLatest UpdateRow.time updates (fun v ↦ v.repo = u.repo ∧ v.branch = u.branch) u

theorem mem_maxTimes_iff {db : GitDatabase} {time : Option ℤ} :
    time ∈ maxTimes db ↔ ∃ v, IsLastOfBranch db.updates.rows v ∧ some v.time = time := by
  rw [maxTimes, List.mem_map]
  simp only [mem_groupBy]
  constructor
  · rintro ⟨⟨k, g⟩, ⟨⟨u, hu, hk⟩, hg⟩, rfl⟩
    simp only at hk hg ⊢
    subst hk
    rw [hg]
    -- a group has a greatest time
    obtain ⟨v, hv⟩ := exists_isLatest UpdateRow.time
      (p := fun v ↦ v.repo = u.repo ∧ v.branch = u.branch)
      hu ⟨rfl, rfl⟩
    obtain ⟨⟨hmem, hrepo, hbranch⟩, hmax⟩ := hv
    refine ⟨v, ⟨⟨hmem, rfl, rfl⟩, ?_⟩, ?_⟩
    · rw [hrepo, hbranch]
      exact hmax
    · refine (max_eq_some_iff.2 ⟨⟨v, ?_, rfl⟩, fun w hw ↦ ?_⟩).symm
      · simp [hmem, hrepo, hbranch]
      · rw [List.mem_filter, decide_eq_true_eq, Prod.mk.injEq] at hw
        exact hmax w hw.1 hw.2
  · rintro ⟨v, ⟨⟨hmem, -⟩, hmax⟩, rfl⟩
    refine ⟨((v.repo, v.branch), db.updates.rows.filter fun u ↦
      (u.repo, u.branch) = (v.repo, v.branch)), ⟨⟨v, hmem, rfl⟩, rfl⟩,
      max_eq_some_iff.2 ⟨⟨v, ?_, rfl⟩, fun w hw ↦ ?_⟩⟩
    · simp [hmem]
    · rw [List.mem_filter, decide_eq_true_eq, Prod.mk.injEq] at hw
      exact hmax w hw.1 hw.2

/-- **What trimming keeps** are the updates at the time of the last update of some branch. -/
theorem mem_updates_libsealDoTrimming {db : GitDatabase} {u : UpdateRow} :
    u ∈ (libsealDoTrimming db).updates.rows ↔
      u ∈ db.updates.rows ∧ ∃ v, IsLastOfBranch db.updates.rows v ∧ v.time = u.time := by
  have hnone : none ∉ maxTimes db := by
    rw [mem_maxTimes_iff]
    rintro ⟨v, -, h⟩
    exact nomatch h
  rw [libsealDoTrimming, Table.mem_rows_deleteWhere, Ne, notIn_eq_some_true_iff]
  simp only [hnone, not_false_eq_true, true_and, not_not, mem_maxTimes_iff, Option.some.injEq]

theorem advertisements_libsealDoTrimming (db : GitDatabase) :
    (libsealDoTrimming db).advertisements.rows = [] := by
  simp [libsealDoTrimming, Table.deleteWhere]

/-- The last update of a branch is kept. -/
theorem IsLastOfBranch.mem_libsealDoTrimming {db : GitDatabase} {u : UpdateRow}
    (h : IsLastOfBranch db.updates.rows u) : u ∈ (libsealDoTrimming db).updates.rows :=
  mem_updates_libsealDoTrimming.2 ⟨h.1.1, u, h, rfl⟩

/-! ### Events and trimming -/

/-- A step of the log: an event, or a trim. -/
inductive LogStep where
  | event (e : GitEvent)
  | trim

/-- The effect of a step. -/
def GitDatabase.step (db : GitDatabase) : LogStep → GitDatabase
  | .event e => db.log e.rows
  | .trim => libsealDoTrimming db

/-- The content after some steps. -/
def GitDatabase.ofSteps (steps : List LogStep) : GitDatabase :=
  steps.foldl GitDatabase.step .init

/-- The event of a step, if it is one. -/
def LogStep.event? : LogStep → Option GitEvent
  | event e => some e
  | trim => none

/-- The events of some steps. -/
def eventsOf (steps : List LogStep) : List GitEvent := steps.filterMap LogStep.event?

/-- All rows are older than a time. -/
def GitDatabase.Before (db : GitDatabase) (time : ℤ) : Prop :=
  (∀ u ∈ db.updates.rows, u.time < time) ∧ ∀ a ∈ db.advertisements.rows, a.time < time

/-- **A later event is stored whole.** -/
theorem rows_log {db : GitDatabase} {e : GitEvent} (h : db.Before e.time) :
    (db.log e.rows).updates.rows = db.updates.rows ++ e.updates ∧
      (db.log e.rows).advertisements.rows = db.advertisements.rows ++ e.advertisements := by
  rw [GitDatabase.log_eq, e.filterMap_update?_rows, e.filterMap_advertisement?_rows]
  constructor
  · refine Table.rows_insertAll _ ?_
    rw [List.map_append]
    refine List.nodup_append.2 ⟨db.updates.nodup, e.nodup_updates, ?_⟩
    rintro _ hk _ hk' rfl
    obtain ⟨u, hu, rfl⟩ := List.mem_map.1 hk
    obtain ⟨v, hv, hkey⟩ := List.mem_map.1 hk'
    have htime : v.time = u.time := congrArg Prod.fst hkey
    have := h.1 u hu
    have := GitEvent.time_of_mem_updates hv
    omega
  · refine Table.rows_insertAll _ ?_
    rw [List.map_append]
    refine List.nodup_append.2 ⟨db.advertisements.nodup, e.nodup_advertisements, ?_⟩
    rintro _ hk _ hk' rfl
    obtain ⟨a, ha, rfl⟩ := List.mem_map.1 hk
    obtain ⟨b, hb, hkey⟩ := List.mem_map.1 hk'
    have htime : b.time = a.time := congrArg Prod.fst hkey
    have := h.2 a ha
    have := GitEvent.time_of_mem_advertisements hb
    omega

/-! ### The simulation -/

/-- The content `db` comes from `full` by trims. -/
structure Trimmed (db full : GitDatabase) : Prop where
  /-- What is there has not been changed. -/
  updates : ∀ u ∈ db.updates.rows, u ∈ full.updates.rows
  /-- The last update of each branch is there. -/
  latest : ∀ u, IsLastOfBranch full.updates.rows u → u ∈ db.updates.rows
  /-- An advertisement that is there can be compared with the same update. -/
  advertisements : ∀ a ∈ db.advertisements.rows, a ∈ full.advertisements.rows ∧
    ∀ u, LatestUpdate full.updates.rows a u → u ∈ db.updates.rows

namespace Trimmed

variable {db full : GitDatabase}

/-- A trimmed content is not newer. -/
theorem before (h : Trimmed db full) {time : ℤ} (hfull : full.Before time) : db.Before time :=
  ⟨fun u hu ↦ hfull.1 u (h.updates u hu), fun a ha ↦ hfull.2 a (h.advertisements a ha).1⟩

/-- **Trimming** takes nothing from the last updates, and all advertisements. -/
theorem libsealDoTrimming (h : Trimmed db full) : Trimmed (libsealDoTrimming db) full where
  updates u hu := h.updates u (mem_updates_libsealDoTrimming.1 hu).1
  latest u hu := by
    have hlast : IsLastOfBranch db.updates.rows u :=
      ⟨⟨h.latest u hu, rfl, rfl⟩, fun v hv hpv ↦ hu.2 v (h.updates v hv) hpv⟩
    exact hlast.mem_libsealDoTrimming
  advertisements a ha := by
    rw [advertisements_libsealDoTrimming] at ha
    exact absurd ha List.not_mem_nil

/-- **An event** has the same effect on both. -/
theorem log (h : Trimmed db full) {e : GitEvent} (he : full.Before e.time) :
    Trimmed (db.log e.rows) (full.log e.rows) := by
  obtain ⟨hupdates, hadvertisements⟩ := rows_log (h.before he)
  obtain ⟨hupdates', hadvertisements'⟩ := rows_log he
  -- the event is later than all advertisements before it
  have hlatest : ∀ a ∈ db.advertisements.rows, ∀ u,
      LatestUpdate (full.updates.rows ++ e.updates) a u → LatestUpdate full.updates.rows a u := by
    rintro a ha u ⟨⟨hu, hp⟩, hmax⟩
    refine ⟨⟨(List.mem_append.1 hu).resolve_right fun hue ↦ ?_, hp⟩,
      fun v hv hpv ↦ hmax v (List.mem_append_left _ hv) hpv⟩
    have hutime := GitEvent.time_of_mem_updates hue
    have hatime := he.2 a (h.advertisements a ha).1
    have := hp.2.2
    omega
  -- and what it advertises is compared with the last update of the branch
  have hlast : ∀ a ∈ e.advertisements, ∀ u,
      LatestUpdate (full.updates.rows ++ e.updates) a u → IsLastOfBranch full.updates.rows u := by
    rintro a ha u ⟨⟨hu, hp⟩, hmax⟩
    have hatime := GitEvent.time_of_mem_advertisements ha
    have hmem : u ∈ full.updates.rows := by
      refine (List.mem_append.1 hu).resolve_right fun hue ↦ ?_
      have hutime := GitEvent.time_of_mem_updates hue
      have := hp.2.2
      omega
    refine ⟨⟨hmem, rfl, rfl⟩, fun v hv hpv ↦ hmax v (List.mem_append_left _ hv) ?_⟩
    refine ⟨hpv.1.trans hp.1, hpv.2.trans hp.2.1, ?_⟩
    have := he.1 v hv
    omega
  refine ⟨?_, ?_, ?_⟩
  · rw [hupdates, hupdates']
    intro u hu
    rcases List.mem_append.1 hu with hu | hu
    · exact List.mem_append_left _ (h.updates u hu)
    · exact List.mem_append_right _ hu
  · rw [hupdates, hupdates']
    rintro u ⟨⟨hu, -⟩, hmax⟩
    rcases List.mem_append.1 hu with hu | hu
    · exact List.mem_append_left _ (h.latest u
        ⟨⟨hu, rfl, rfl⟩, fun v hv hpv ↦ hmax v (List.mem_append_left _ hv) hpv⟩)
    · exact List.mem_append_right _ hu
  · rw [hupdates, hupdates', hadvertisements, hadvertisements']
    intro a ha
    rcases List.mem_append.1 ha with ha | ha
    · exact ⟨List.mem_append_left _ (h.advertisements a ha).1, fun u hu ↦
        List.mem_append_left _ ((h.advertisements a ha).2 u (hlatest a ha u hu))⟩
    · exact ⟨List.mem_append_right _ ha, fun u hu ↦
        List.mem_append_left _ (h.latest u (hlast a ha u hu))⟩

/-- **The verdict is the same.** -/
theorem mem_soundnessQuery_iff (h : Trimmed db full) {a : AdvertisementRow}
    (ha : a ∈ db.advertisements.rows) : a ∈ db.soundnessQuery ↔ a ∈ full.soundnessQuery := by
  obtain ⟨hafull, hkept⟩ := h.advertisements a ha
  have hdown : ∀ u, LatestUpdate full.updates.rows a u → LatestUpdate db.updates.rows a u :=
    fun u hu ↦ ⟨⟨hkept u hu, hu.1.2⟩, fun v hv hpv ↦ hu.2 v (h.updates v hv) hpv⟩
  have hup : ∀ u, LatestUpdate db.updates.rows a u → LatestUpdate full.updates.rows a u := by
    intro u hu
    obtain ⟨v, hv⟩ := exists_isLatest UpdateRow.time (h.updates u hu.1.1) hu.1.2
    exact hu.unique (hdown v hv) ▸ hv
  rw [mem_soundnessQuery, mem_soundnessQuery, and_iff_right ha, and_iff_right hafull]
  exact exists_congr fun u ↦ and_congr_left fun _ ↦ ⟨hup u, hdown u⟩

end Trimmed

/-- The rows of a history are as old as its events. -/
theorem before_ofHistory {h : List GitEvent} (hh : Chronological h) {time : ℤ}
    (htime : ∀ e ∈ h, e.time < time) : (GitDatabase.ofHistory h).Before time := by
  rw [GitDatabase.Before, GitDatabase.updates_ofHistory hh, GitDatabase.advertisements_ofHistory hh]
  constructor
  · intro u hu
    obtain ⟨e, he, hue⟩ := List.mem_flatMap.1 hu
    exact GitEvent.time_of_mem_updates hue ▸ htime e he
  · intro a ha
    obtain ⟨e, he, hae⟩ := List.mem_flatMap.1 ha
    exact GitEvent.time_of_mem_advertisements hae ▸ htime e he

/-- **Trims in a history** keep the content a trimmed one. -/
theorem trimmed_ofSteps {steps : List LogStep} (hsteps : Chronological (eventsOf steps)) :
    Trimmed (.ofSteps steps) (.ofHistory (eventsOf steps)) := by
  induction steps using List.reverseRecOn with
  | nil => exact ⟨fun u hu ↦ hu, fun u hu ↦ hu.1.1, fun a ha ↦ absurd ha List.not_mem_nil⟩
  | append_singleton steps s ih =>
    rw [GitDatabase.ofSteps, List.foldl_append, ← GitDatabase.ofSteps]
    cases s with
    | trim =>
      have hevents : eventsOf (steps ++ [.trim]) = eventsOf steps := by
        rw [eventsOf, List.filterMap_append]
        exact List.append_nil _
      rw [hevents] at hsteps ⊢
      exact (ih hsteps).libsealDoTrimming
    | event e =>
      have hevents : eventsOf (steps ++ [.event e]) = eventsOf steps ++ [e] := by
        rw [eventsOf, List.filterMap_append]
        rfl
      rw [hevents] at hsteps ⊢
      obtain ⟨hsteps, -, hlast⟩ := List.pairwise_append.1 hsteps
      have hfull : GitDatabase.ofHistory (eventsOf steps ++ [e]) =
          (GitDatabase.ofHistory (eventsOf steps)).log e.rows := by
        rw [GitDatabase.ofHistory, GitDatabase.ofRows, List.flatMap_append, GitDatabase.log_append,
          List.flatMap_singleton]
        rfl
      rw [hfull]
      exact (ih hsteps).log
        (before_ofHistory hsteps fun f hf ↦ hlast f hf e (List.mem_singleton_self e))

/-- **Trimming preserves verdicts**: wherever it happens in a history, the advertisements that are
still there are returned by the soundness query as they would be without it. -/
theorem soundnessQuery_trimmed {steps : List LogStep} (hsteps : Chronological (eventsOf steps))
    {a : AdvertisementRow} (ha : a ∈ (GitDatabase.ofSteps steps).advertisements.rows) :
    a ∈ (GitDatabase.ofSteps steps).soundnessQuery ↔
      a ∈ (GitDatabase.ofHistory (eventsOf steps)).soundnessQuery :=
  (trimmed_ofSteps hsteps).mem_soundnessQuery_iff ha

/-- A branch is moved, the relations are trimmed, and it is advertised where it was. -/
def movedAndTrimmed : List LogStep :=
  ((movedHistory 1 (ascii "11")).take 2).map .event ++ .trim ::
    ((movedHistory 1 (ascii "11")).drop 2).map .event

/-- The advertisement is reported. -/
theorem soundnessQuery_movedAndTrimmed :
    masterAdvertisement 3 (ascii "11") ∈ (GitDatabase.ofSteps movedAndTrimmed).soundnessQuery := by
  have hsteps : Chronological (eventsOf movedAndTrimmed) :=
    chronological_movedHistory 1 (ascii "11")
  have ha : masterAdvertisement 3 (ascii "11") ∈
      (GitDatabase.ofSteps movedAndTrimmed).advertisements.rows := by decide +kernel
  exact (soundnessQuery_trimmed hsteps ha).2 (by decide +kernel)

end LibSeal
