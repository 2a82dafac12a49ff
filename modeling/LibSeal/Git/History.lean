import LibSeal.Git.Relations

/-!
# Histories

What the auditor logs over time: a push inserts some updates and an exchange for references some
advertisements, each event with its own time and at most one row for a branch of a repository. When
the times increase, every row of a history is stored (`ofRows_rows`).
-/

namespace LibSeal

open Bytes SqlQuery

/-- An event that the auditor logs, with its rows. -/
inductive GitEvent where
  | push (time : ℤ) (updates : List UpdateRow) (time_eq : ∀ u ∈ updates, u.time = time)
    (nodup : (updates.map UpdateRow.key).Nodup)
  | advertise (time : ℤ) (advertisements : List AdvertisementRow)
    (time_eq : ∀ a ∈ advertisements, a.time = time)
    (nodup : (advertisements.map AdvertisementRow.key).Nodup)

namespace GitEvent

/-- The time of an event. -/
def time : GitEvent → ℤ
  | push time .. | advertise time .. => time

/-- The updates of an event. -/
def updates : GitEvent → List UpdateRow
  | push _ updates .. => updates
  | advertise .. => []

/-- The advertisements of an event. -/
def advertisements : GitEvent → List AdvertisementRow
  | push .. => []
  | advertise _ advertisements .. => advertisements

/-- The rows of an event, in the order in which they are inserted. -/
def rows (e : GitEvent) : List GitRow :=
  e.updates.map .update ++ e.advertisements.map .advertisement

theorem time_of_mem_updates {e : GitEvent} {u : UpdateRow} (h : u ∈ e.updates) :
    u.time = e.time := by
  cases e with
  | push time updates time_eq nodup => exact time_eq u h
  | advertise => exact absurd h List.not_mem_nil

theorem time_of_mem_advertisements {e : GitEvent} {a : AdvertisementRow}
    (h : a ∈ e.advertisements) : a.time = e.time := by
  cases e with
  | push => exact absurd h List.not_mem_nil
  | advertise time advertisements time_eq nodup => exact time_eq a h

theorem nodup_updates (e : GitEvent) : (e.updates.map UpdateRow.key).Nodup := by
  cases e with
  | push time updates time_eq nodup => exact nodup
  | advertise => exact List.nodup_nil

theorem nodup_advertisements (e : GitEvent) :
    (e.advertisements.map AdvertisementRow.key).Nodup := by
  cases e with
  | push => exact List.nodup_nil
  | advertise time advertisements time_eq nodup => exact nodup

@[simp] theorem filterMap_update?_rows (e : GitEvent) :
    e.rows.filterMap GitRow.update? = e.updates := by
  have hnone : e.advertisements.filterMap (GitRow.update? ∘ GitRow.advertisement) = [] :=
    List.filterMap_eq_nil_iff.2 fun _ _ ↦ rfl
  rw [rows, List.filterMap_append, List.filterMap_map, List.filterMap_map, hnone, List.append_nil]
  exact List.filterMap_some

@[simp] theorem filterMap_advertisement?_rows (e : GitEvent) :
    e.rows.filterMap GitRow.advertisement? = e.advertisements := by
  have hnone : e.updates.filterMap (GitRow.advertisement? ∘ GitRow.update) = [] :=
    List.filterMap_eq_nil_iff.2 fun _ _ ↦ rfl
  rw [rows, List.filterMap_append, List.filterMap_map, List.filterMap_map, hnone, List.nil_append]
  exact List.filterMap_some

/-- The updates of a history are those of its events. -/
theorem filterMap_update?_flatMap_rows (h : List GitEvent) :
    (h.flatMap rows).filterMap GitRow.update? = h.flatMap updates := by
  rw [List.filterMap_flatMap]
  exact List.flatMap_congr fun e _ ↦ e.filterMap_update?_rows

theorem filterMap_advertisement?_flatMap_rows (h : List GitEvent) :
    (h.flatMap rows).filterMap GitRow.advertisement? = h.flatMap advertisements := by
  rw [List.filterMap_flatMap]
  exact List.flatMap_congr fun e _ ↦ e.filterMap_advertisement?_rows

end GitEvent

/-- The times of a history increase. -/
def Chronological (h : List GitEvent) : Prop := h.Pairwise fun e f ↦ e.time < f.time

/-- Rows of different events have different keys. -/
theorem nodup_flatMap_key {α : Type} {rows : GitEvent → List α} {key : α → ℤ × Bytes × Bytes}
    (htime : ∀ e, ∀ r ∈ rows e, (key r).1 = e.time) (hnd : ∀ e, ((rows e).map key).Nodup)
    {h : List GitEvent} (hh : Chronological h) : ((h.flatMap rows).map key).Nodup := by
  rw [List.map_flatMap, List.nodup_flatMap]
  refine ⟨fun e _ ↦ hnd e, hh.imp fun {e f} hlt k hke hkf ↦ ?_⟩
  obtain ⟨r, hr, rfl⟩ := List.mem_map.1 hke
  obtain ⟨s, hs, hrs⟩ := List.mem_map.1 hkf
  have hrt := htime e r hr
  have hst := htime f s hs
  rw [hrs] at hst
  omega

theorem nodup_flatMap_updates {h : List GitEvent} (hh : Chronological h) :
    ((h.flatMap GitEvent.updates).map UpdateRow.key).Nodup :=
  nodup_flatMap_key (fun _ _ hu ↦ GitEvent.time_of_mem_updates hu) GitEvent.nodup_updates hh

theorem nodup_flatMap_advertisements {h : List GitEvent} (hh : Chronological h) :
    ((h.flatMap GitEvent.advertisements).map AdvertisementRow.key).Nodup :=
  nodup_flatMap_key (fun _ _ ha ↦ GitEvent.time_of_mem_advertisements ha)
    GitEvent.nodup_advertisements hh

namespace GitDatabase

/-- The content after a history. -/
def ofHistory (h : List GitEvent) : GitDatabase := ofRows (h.flatMap GitEvent.rows)

/-- **Every update of a history is stored.** -/
theorem updates_ofHistory {h : List GitEvent} (hh : Chronological h) :
    (ofHistory h).updates.rows = h.flatMap GitEvent.updates := by
  rw [ofHistory, ofRows, log_eq, GitEvent.filterMap_update?_flatMap_rows]
  exact Table.rows_insertAll _ (nodup_flatMap_updates hh)

/-- **Every advertisement of a history is stored.** -/
theorem advertisements_ofHistory {h : List GitEvent} (hh : Chronological h) :
    (ofHistory h).advertisements.rows = h.flatMap GitEvent.advertisements := by
  rw [ofHistory, ofRows, log_eq, GitEvent.filterMap_advertisement?_flatMap_rows]
  exact Table.rows_insertAll _ (nodup_flatMap_advertisements hh)

end GitDatabase

end LibSeal
