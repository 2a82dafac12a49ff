import LibSeal.Git.History

/-!
# The soundness audit of Git

An advertisement is wrong if it shows a branch at another commit than the last one that the server
accepted (`Unsound`). The soundness query compares with the last update, whether it was accepted or
not: the column `result` is stored and never read. So the query is right exactly about those
advertisements for which a rejected last update makes no difference (`AgreesOnRejected`,
`mem_soundnessQuery_iff_unsound_iff`).

An honest server never advertises a wrong commit (`not_unsound_of_honestFrom`), but it can be
reported: after a rejected push, every advertisement of the branch is.
-/

namespace LibSeal

open Bytes SqlQuery

/-! ### What the query finds -/

/-- An update of the advertised branch before the advertisement. -/
def Precedes (a : AdvertisementRow) (u : UpdateRow) : Prop :=
  u.repo = a.repo ∧ u.branch = a.branch ∧ u.time < a.time

/-- The last of these updates. -/
def LatestUpdate (updates : List UpdateRow) (a : AdvertisementRow) (u : UpdateRow) : Prop :=
  IsLatest UpdateRow.time updates (Precedes a) u

/-- The last of these updates that the server accepted. -/
def LatestAccepted (updates : List UpdateRow) (a : AdvertisementRow) (u : UpdateRow) : Prop :=
  IsLatest UpdateRow.time updates (fun u ↦ Precedes a u ∧ u.result = 1) u

/-- The advertisement shows another commit than the last one accepted. -/
def Unsound (db : GitDatabase) (a : AdvertisementRow) : Prop :=
  ∃ u, LatestAccepted db.updates.rows a u ∧ u.cid ≠ a.cid

/-- Updates of a branch are told apart by their times. -/
theorem eq_of_precedes (db : GitDatabase) {a : AdvertisementRow} {u v : UpdateRow}
    (hu : u ∈ db.updates.rows) (hv : v ∈ db.updates.rows) (hpu : Precedes a u) (hpv : Precedes a v)
    (h : u.time = v.time) : u = v := by
  refine db.updates.eq_of_key_eq hu hv ?_
  rw [UpdateRow.key, UpdateRow.key, h, hpu.1, hpu.2.1, hpv.1, hpv.2.1]

theorem LatestUpdate.unique {db : GitDatabase} {a : AdvertisementRow} {u v : UpdateRow}
    (hu : LatestUpdate db.updates.rows a u) (hv : LatestUpdate db.updates.rows a v) : u = v :=
  eq_of_precedes db hu.1.1 hv.1.1 hu.1.2 hv.1.2
    (le_antisymm (hv.2 u hu.1.1 hu.1.2) (hu.2 v hv.1.1 hv.1.2))

theorem LatestAccepted.unique {db : GitDatabase} {a : AdvertisementRow} {u v : UpdateRow}
    (hu : LatestAccepted db.updates.rows a u) (hv : LatestAccepted db.updates.rows a v) : u = v :=
  eq_of_precedes db hu.1.1 hv.1.1 hu.1.2.1 hv.1.2.1
    (le_antisymm (hv.2 u hu.1.1 hu.1.2) (hu.2 v hv.1.1 hv.1.2))

/-- **The inner query** finds the id of the last update. -/
theorem lastCid_eq_some_iff (db : GitDatabase) (a : AdvertisementRow) {cid : Bytes} :
    db.lastCid a = some cid ↔ ∃ u, LatestUpdate db.updates.rows a u ∧ u.cid = cid := by
  set selected := selectWhere (fun u : UpdateRow ↦
    and (and (eq (some u.repo) (some a.repo)) (eq (some u.branch) (some a.branch)))
      (lt (some u.time) (some a.time))) db.updates.rows with hselected
  have hmem : ∀ u, u ∈ selected ↔ u ∈ db.updates.rows ∧ Precedes a u := by
    intro u
    simp [hselected, Precedes, and_assoc]
  have hinj : ∀ u ∈ selected, ∀ v ∈ selected, u.time = v.time → u = v := fun u hu v hv h ↦
    eq_of_precedes db ((hmem u).1 hu).1 ((hmem v).1 hv).1 ((hmem u).1 hu).2 ((hmem v).1 hv).2 h
  have hlatest : ∀ u, (u ∈ selected ∧ ∀ v ∈ selected, v.time ≤ u.time) ↔
      LatestUpdate db.updates.rows a u := by
    intro u
    simp only [hmem, LatestUpdate, IsLatest, and_imp]
  rw [GitDatabase.lastCid, ← hselected, scalar, Option.map_eq_some_iff]
  simp only [head?_orderByDesc_eq_some_iff hinj, hlatest]

/-- **What the soundness query returns**: the advertisements that differ from the last update of
their branch. -/
theorem mem_soundnessQuery {db : GitDatabase} {a : AdvertisementRow} :
    a ∈ db.soundnessQuery ↔ a ∈ db.advertisements.rows ∧
      ∃ u, LatestUpdate db.updates.rows a u ∧ u.cid ≠ a.cid := by
  rw [GitDatabase.soundnessQuery, mem_selectWhere, ne_eq_some_true_iff]
  simp only [lastCid_eq_some_iff]
  refine and_congr_right fun _ ↦ ⟨?_, ?_⟩
  · rintro ⟨_, ⟨u, hu, rfl⟩, hne⟩
    exact ⟨u, hu, hne.symm⟩
  · rintro ⟨u, hu, hne⟩
    exact ⟨u.cid, ⟨u, hu, rfl⟩, hne.symm⟩

/-! ### Where it is right -/

/-- If the last update was rejected, it is as good as the last accepted one: it shows the advertised
commit exactly if this does, or if there is none. -/
def AgreesOnRejected (db : GitDatabase) (a : AdvertisementRow) : Prop :=
  ∀ l, LatestUpdate db.updates.rows a l → l.result ≠ 1 →
    (l.cid = a.cid ↔ ∀ u, LatestAccepted db.updates.rows a u → u.cid = a.cid)

/-- An accepted last update is the last accepted one. -/
theorem LatestUpdate.latestAccepted {updates : List UpdateRow} {a : AdvertisementRow}
    {l : UpdateRow} (hl : LatestUpdate updates a l) (haccepted : l.result = 1) :
    LatestAccepted updates a l :=
  ⟨⟨hl.1.1, hl.1.2, haccepted⟩, fun v hv hpv ↦ hl.2 v hv hpv.1⟩

/-- **The query is right about an advertisement** exactly if a rejected last update makes no
difference. -/
theorem mem_soundnessQuery_iff_unsound_iff {db : GitDatabase} {a : AdvertisementRow}
    (ha : a ∈ db.advertisements.rows) :
    (a ∈ db.soundnessQuery ↔ Unsound db a) ↔ AgreesOnRejected db a := by
  rw [mem_soundnessQuery, and_iff_right ha]
  by_cases hexists : ∃ l, LatestUpdate db.updates.rows a l
  · obtain ⟨l, hl⟩ := hexists
    have hquery : (∃ u, LatestUpdate db.updates.rows a u ∧ u.cid ≠ a.cid) ↔ l.cid ≠ a.cid := by
      constructor
      · rintro ⟨u, hu, hne⟩
        exact hu.unique hl ▸ hne
      · intro hne
        exact ⟨l, hl, hne⟩
    have hunsound : ¬ Unsound db a ↔ ∀ u, LatestAccepted db.updates.rows a u → u.cid = a.cid := by
      simp only [Unsound, not_exists, not_and, not_not]
    have hagrees : AgreesOnRejected db a ↔ (l.result ≠ 1 → (l.cid = a.cid ↔ ¬ Unsound db a)) := by
      rw [hunsound]
      constructor
      · intro h
        exact h l hl
      · intro h l' hl'
        exact hl.unique hl' ▸ h
    rw [hquery, hagrees]
    by_cases haccepted : l.result = 1
    · -- the query looks at the update it is to look at
      have hsame : Unsound db a ↔ l.cid ≠ a.cid := by
        constructor
        · rintro ⟨u, hu, hne⟩
          exact hu.unique (hl.latestAccepted haccepted) ▸ hne
        · intro hne
          exact ⟨l, hl.latestAccepted haccepted, hne⟩
      simp [hsame, haccepted]
    · -- the query looks at the rejected update instead
      simp only [haccepted, ne_eq, not_false_eq_true, forall_const]
      tauto
  · -- without an update there is nothing to compare with
    have hnone : ¬ Unsound db a := by
      rintro ⟨u, hu, -⟩
      exact hexists (exists_isLatest _ hu.1.1 hu.1.2.1)
    have hagrees : AgreesOnRejected db a := fun l hl ↦ absurd ⟨l, hl⟩ hexists
    simp only [hnone, hagrees, iff_false, iff_true, not_exists, not_and]
    exact fun u hu ↦ absurd ⟨u, hu⟩ hexists

/-! ### Honest servers -/

/-- The references of a server: the commit of each branch of each repository. -/
abbrev RefState := Bytes → Bytes → Option Bytes

/-- What an update sets its branch to. -/
def UpdateRow.value (u : UpdateRow) : Option Bytes :=
  if u.type = .delete then none else some u.cid

/-- An accepted update changes its branch, and a rejected one nothing. -/
def applyUpdate (s : RefState) (u : UpdateRow) : RefState := fun repo branch ↦
  if repo = u.repo ∧ branch = u.branch ∧ u.result = 1 then u.value else s repo branch

/-- A history of an honest server: every advertised branch is at its current commit. Names that are
symbolic, such as `HEAD`, stand for other branches; they are not pushed to. -/
def HonestFrom (symbolic : Bytes → Prop) : RefState → List GitEvent → Prop
  | _, [] => True
  | s, .push _ updates _ _ :: h =>
    (∀ u ∈ updates, ¬ symbolic u.branch) ∧ HonestFrom symbolic (updates.foldl applyUpdate s) h
  | s, .advertise _ advertisements _ _ :: h =>
    (∀ a ∈ advertisements, ¬ symbolic a.branch → s a.repo a.branch = some a.cid) ∧
      HonestFrom symbolic s h

/-- Of two updates of a branch, this is the earlier. -/
def UpdateRow.Before (u v : UpdateRow) : Prop :=
  u.repo = v.repo → u.branch = v.branch → u.time < v.time

/-- **The last accepted update decides** what a branch is at. -/
theorem foldl_applyUpdate_of_isLatest (s : RefState) {updates : List UpdateRow}
    (hbefore : updates.Pairwise UpdateRow.Before) {repo branch : Bytes} {u : UpdateRow}
    (hu : IsLatest UpdateRow.time updates
      (fun u ↦ repo = u.repo ∧ branch = u.branch ∧ u.result = 1) u) :
    updates.foldl applyUpdate s repo branch = u.value := by
  induction updates using List.reverseRecOn with
  | nil => exact absurd hu.1.1 List.not_mem_nil
  | append_singleton updates v ih =>
    obtain ⟨hbefore, -, hlast⟩ := List.pairwise_append.1 hbefore
    rw [List.foldl_append, List.foldl_cons, List.foldl_nil, applyUpdate]
    obtain ⟨⟨hmem, hp⟩, hmax⟩ := hu
    by_cases hv : repo = v.repo ∧ branch = v.branch ∧ v.result = 1
    · rw [if_pos hv]
      rcases List.mem_append.1 hmem with hmem | hmem
      · -- an update in front of the last would be earlier
        have hlt := hlast u hmem v (List.mem_singleton_self v) (hp.1.symm.trans hv.1)
          (hp.2.1.symm.trans hv.2.1)
        have hle := hmax v (List.mem_append_right _ (List.mem_singleton_self v)) hv
        omega
      · rw [List.mem_singleton.1 hmem]
    · rw [if_neg hv]
      have hmem' : u ∈ updates := by
        refine (List.mem_append.1 hmem).resolve_right fun h ↦ hv ?_
        exact List.mem_singleton.1 h ▸ hp
      exact ih hbefore ⟨⟨hmem', hp⟩, fun w hw hpw ↦ hmax w (List.mem_append_left _ hw) hpw⟩

/-- A history goes on from the state that its beginning leaves. -/
theorem honestFrom_append {symbolic : Bytes → Prop} {s : RefState} {h h' : List GitEvent} :
    HonestFrom symbolic s (h ++ h') ↔ HonestFrom symbolic s h ∧
      HonestFrom symbolic ((h.flatMap GitEvent.updates).foldl applyUpdate s) h' := by
  induction h generalizing s with
  | nil => exact (iff_of_eq (true_and _)).symm
  | cons e h ih =>
    cases e with
    | push time updates time_eq nodup =>
      rw [List.cons_append, HonestFrom, HonestFrom, ih, and_assoc, List.flatMap_cons,
        List.foldl_append]
      rfl
    | advertise time advertisements time_eq nodup =>
      rw [List.cons_append, HonestFrom, HonestFrom, ih, and_assoc]
      rfl

/-- Symbolic names are not pushed to. -/
theorem not_symbolic_of_mem {symbolic : Bytes → Prop} {s : RefState} {h : List GitEvent}
    (hhonest : HonestFrom symbolic s h) {u : UpdateRow} (hu : u ∈ h.flatMap GitEvent.updates) :
    ¬ symbolic u.branch := by
  induction h generalizing s with
  | nil => exact absurd hu List.not_mem_nil
  | cons e h ih =>
    cases e with
    | push time updates time_eq nodup =>
      rcases List.mem_append.1 hu with hu | hu
      · exact hhonest.1 u hu
      · exact ih hhonest.2 hu
    | advertise time advertisements time_eq nodup => exact ih hhonest.2 hu

theorem pairwise_before {h : List GitEvent} (hh : Chronological h) :
    (h.flatMap GitEvent.updates).Pairwise UpdateRow.Before := by
  rw [List.pairwise_flatMap]
  refine ⟨fun e _ ↦ ?_, hh.imp fun {e f} hlt u hu v hv _ _ ↦ ?_⟩
  · -- the updates of one push are of different branches
    have hnd := e.nodup_updates
    rw [List.Nodup, List.pairwise_map] at hnd
    refine hnd.imp_of_mem fun {u v} hu hv hne hrepo hbranch ↦ absurd ?_ hne
    rw [UpdateRow.key, UpdateRow.key, hrepo, hbranch, GitEvent.time_of_mem_updates hu,
      GitEvent.time_of_mem_updates hv]
  · rw [GitEvent.time_of_mem_updates hu, GitEvent.time_of_mem_updates hv]
    exact hlt

/-- **An honest server is sound.** -/
theorem not_unsound_of_honestFrom {symbolic : Bytes → Prop} {s : RefState} {h : List GitEvent}
    (hh : Chronological h) (hhonest : HonestFrom symbolic s h) {a : AdvertisementRow}
    (ha : a ∈ (GitDatabase.ofHistory h).advertisements.rows) :
    ¬ Unsound (GitDatabase.ofHistory h) a := by
  rw [GitDatabase.advertisements_ofHistory hh] at ha
  rintro ⟨u, hu, hne⟩
  rw [GitDatabase.updates_ofHistory hh] at hu
  obtain ⟨⟨humem, ⟨hrepo, hbranch, htime⟩, haccepted⟩, hmax⟩ := hu
  obtain ⟨e, he, hae⟩ := List.mem_flatMap.1 ha
  have hatime := GitEvent.time_of_mem_advertisements hae
  have hsymbolic := not_symbolic_of_mem hhonest humem
  -- the history up to the advertisement
  obtain ⟨pre, post, rfl⟩ := List.append_of_mem he
  obtain ⟨hpre, hrest, hcross⟩ := List.pairwise_append.1 hh
  have hpost := (List.pairwise_cons.1 hrest).1
  have humem' : u ∈ pre.flatMap GitEvent.updates := by
    obtain ⟨f, hf, huf⟩ := List.mem_flatMap.1 humem
    have hutime := GitEvent.time_of_mem_updates huf
    refine List.mem_flatMap.2 ⟨f, ?_, huf⟩
    rcases List.mem_append.1 hf with hf | hf
    · exact hf
    · rcases List.mem_cons.1 hf with rfl | hf
      · omega
      · have := hpost f hf
        omega
  have hlatest : IsLatest UpdateRow.time (pre.flatMap GitEvent.updates)
      (fun u ↦ a.repo = u.repo ∧ a.branch = u.branch ∧ u.result = 1) u := by
    refine ⟨⟨humem', hrepo.symm, hbranch.symm, haccepted⟩, fun v hv hpv ↦ ?_⟩
    obtain ⟨f, hf, hvf⟩ := List.mem_flatMap.1 hv
    have hvtime := GitEvent.time_of_mem_updates hvf
    have hlt := hcross f hf e List.mem_cons_self
    refine hmax v ?_ ⟨⟨hpv.1.symm, hpv.2.1.symm, by omega⟩, hpv.2.2⟩
    rw [List.flatMap_append]
    exact List.mem_append_left _ hv
  have hvalue := foldl_applyUpdate_of_isLatest s (pairwise_before hpre) hlatest
  have hcurrent : u.value = some a.cid := by
    have hstep := (honestFrom_append.1 hhonest).2
    cases e with
    | push => exact absurd hae List.not_mem_nil
    | advertise time advertisements time_eq nodup =>
      rw [← hvalue]
      exact hstep.1 a hae (hbranch ▸ hsymbolic)
  rw [UpdateRow.value] at hcurrent
  split_ifs at hcurrent with hdelete
  exact hne (Option.some.inj hcurrent)

/-! ### The result -/

/-- **The soundness audit is exact** about an advertisement if and only if a rejected last update
makes no difference; and an honest server is not reported if and only if every last update that was
rejected had asked for the commit that is advertised. -/
theorem soundnessQuery_exact_iff (rows : List GitRow) (symbolic : Bytes → Prop) (s : RefState)
    (h : List GitEvent) :
    (∀ a ∈ (GitDatabase.ofRows rows).advertisements.rows,
      ((a ∈ (GitDatabase.ofRows rows).soundnessQuery ↔ Unsound (GitDatabase.ofRows rows) a) ↔
        AgreesOnRejected (GitDatabase.ofRows rows) a)) ∧
    (Chronological h → HonestFrom symbolic s h →
      ((GitDatabase.ofHistory h).soundnessQuery = [] ↔
        ∀ a ∈ (GitDatabase.ofHistory h).advertisements.rows, ∀ l,
          LatestUpdate (GitDatabase.ofHistory h).updates.rows a l → l.result ≠ 1 →
            l.cid = a.cid)) := by
  refine ⟨fun a ha ↦ mem_soundnessQuery_iff_unsound_iff ha, fun hh hhonest ↦ ?_⟩
  rw [List.eq_nil_iff_forall_not_mem]
  constructor
  · intro hempty a ha l hl _
    by_contra hne
    exact hempty a (mem_soundnessQuery.2 ⟨ha, l, hl, hne⟩)
  · intro hagrees a hquery
    obtain ⟨ha, l, hl, hne⟩ := mem_soundnessQuery.1 hquery
    by_cases haccepted : l.result = 1
    · exact not_unsound_of_honestFrom hh hhonest ha ⟨l, hl.latestAccepted haccepted, hne⟩
    · exact hne (hagrees a ha l hl haccepted)

/-! ### A branch that is moved or not -/

/-- An update of `refs/heads/master`. -/
def masterUpdate (time : ℤ) (cid : Bytes) (result : ℤ) : UpdateRow :=
  ⟨time, ascii "/r.git/", ascii "refs/heads/master", cid, .create, result⟩

/-- An advertisement of `refs/heads/master`. -/
def masterAdvertisement (time : ℤ) (cid : Bytes) : AdvertisementRow :=
  ⟨time, ascii "/r.git/", ascii "refs/heads/master", cid⟩

/-- A branch is created at `11`, an attempt is made to move it to `22`, and it is advertised. -/
def movedHistory (result : ℤ) (cid : Bytes) : List GitEvent :=
  [.push 1 [masterUpdate 1 (ascii "11") 1] (by decide) (List.nodup_singleton _),
    .push 2 [masterUpdate 2 (ascii "22") result] (by simp [masterUpdate]) (List.nodup_singleton _),
    .advertise 3 [masterAdvertisement 3 cid] (by simp [masterAdvertisement])
      (List.nodup_singleton _)]

theorem chronological_movedHistory (result : ℤ) (cid : Bytes) :
    Chronological (movedHistory result cid) := by
  simp [Chronological, movedHistory, GitEvent.time]

/-- The branch is moved, and advertised where it is now. -/
theorem soundnessQuery_moved :
    (GitDatabase.ofHistory (movedHistory 1 (ascii "22"))).soundnessQuery = [] ∧
      (masterAdvertisement 3 (ascii "22") ∈
          (GitDatabase.ofHistory (movedHistory 1 (ascii "22"))).soundnessQuery ↔
        Unsound (GitDatabase.ofHistory (movedHistory 1 (ascii "22")))
          (masterAdvertisement 3 (ascii "22"))) := by
  have haccepted : ∀ u ∈ (GitDatabase.ofHistory (movedHistory 1 (ascii "22"))).updates.rows,
      u.result = 1 := by decide +kernel
  have hexact := soundnessQuery_exact_iff ((movedHistory 1 (ascii "22")).flatMap GitEvent.rows)
    (fun _ ↦ False) (fun _ _ ↦ none) (movedHistory 1 (ascii "22"))
  constructor
  · refine (hexact.2 (chronological_movedHistory _ _) ?_).2 fun a _ l hl hrejected ↦
      absurd (haccepted l hl.1.1) hrejected
    simp [HonestFrom, movedHistory, masterUpdate, masterAdvertisement, applyUpdate, UpdateRow.value]
  · exact (hexact.1 _ (by decide +kernel)).2 fun l hl hrejected ↦
      absurd (haccepted l hl.1.1) hrejected

/-- The push is rejected, and the branch advertised where it still is: the server is honest, and
reported. -/
theorem not_sound_rejected :
    (Chronological (movedHistory 0 (ascii "11")) ∧
      HonestFrom (fun _ ↦ False) (fun _ _ ↦ none) (movedHistory 0 (ascii "11"))) ∧
    (GitDatabase.ofHistory (movedHistory 0 (ascii "11"))).soundnessQuery ≠ [] ∧
    ¬ (masterAdvertisement 3 (ascii "11") ∈
          (GitDatabase.ofHistory (movedHistory 0 (ascii "11"))).soundnessQuery ↔
        Unsound (GitDatabase.ofHistory (movedHistory 0 (ascii "11")))
          (masterAdvertisement 3 (ascii "11"))) := by
  have hchronological := chronological_movedHistory 0 (ascii "11")
  have hhonest : HonestFrom (fun _ ↦ False) (fun _ _ ↦ none) (movedHistory 0 (ascii "11")) := by
    simp [HonestFrom, movedHistory, masterUpdate, masterAdvertisement, applyUpdate, UpdateRow.value]
  have hreported : masterAdvertisement 3 (ascii "11") ∈
      (GitDatabase.ofHistory (movedHistory 0 (ascii "11"))).soundnessQuery := by decide +kernel
  have hsound := not_unsound_of_honestFrom hchronological hhonest
    (a := masterAdvertisement 3 (ascii "11")) (by decide +kernel)
  exact ⟨⟨hchronological, hhonest⟩, List.ne_nil_of_mem hreported,
    fun h ↦ hsound (h.1 hreported)⟩

end LibSeal
