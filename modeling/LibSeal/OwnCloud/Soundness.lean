import LibSeal.Data.SqlLikeUtf8
import LibSeal.Data.SqlQuery

/-!
# The soundness audit of ownCloud

The operations on a document are relayed by the server: it receives them from some members of a
session and sends them on to others. A row of `sync` is one batch, with who sent it and who received
it; the server is 0. The query of `libseal_do_audit` looks for a batch that the server has sent and
with which a member has seen something else than the beginning of what the server has received.

The query asks this of two texts, and goes wrong in three ways.

* `AND` binds more tightly than `OR`, so the member's text has every batch that was ever sent to a
  member of this number, in whatever session, later ones included (`queried`).
* `LIKE` is no comparison of bytes: `%` and `_` in the member's text stand for anything, the case of
  letters does not count, and a text of 50000 bytes is an error, with which the statement ends.
* If the server has received nothing in the session, its text is `NULL` and nothing is reported: a
  server can make up everything (`not_mem_soundnessRows_iff_diverges`).

When it is right about a batch is `mem_soundnessRows_iff_diverges_iff`, in terms of what the texts
stand for as patterns. Where nothing but the texts of the session comes into the comparison
(`Undisturbed`), every report is right, and what is missed is made up or disguised, by a wildcard or
by the case of a letter.

The primary key is an `INTEGER`, so it is the row id, and the rows of the table come in the order of
time. The `ORDER BY` of a subquery orders its one row.
-/

namespace LibSeal

open Bytes SqlQuery SqlLike

/-- A row of `sync`. -/
structure SyncRow where
  time : ℤ
  esid : CString
  sender : ℤ
  receiver : ℤ
  upd : CString
  deriving DecidableEq

/-- The content of the table. -/
structure OwnCloudDatabase where
  sync : Table SyncRow ℤ SyncRow.time

namespace OwnCloudDatabase

variable (db : OwnCloudDatabase)

/-! ### The query -/

/-- The rows in the order in which they are read. -/
def scan : List SyncRow := orderBy SyncRow.time db.sync.rows

/-- `SELECT group_concat(upd,'') FROM sync
WHERE esid = o.esid AND time <= o.time AND receiver = 0` -/
def serverText (o : SyncRow) : Option Bytes :=
  groupConcat (fun s ↦ s.upd.bytes) (selectWhere (fun s ↦
    and (and (eq (some s.esid) (some o.esid)) (le (some s.time) (some o.time)))
      (eq (some s.receiver) (some 0))) db.scan)

/-- `SELECT group_concat(upd,'') FROM sync WHERE esid = o.esid AND time <= o.time AND
sender = o.receiver OR receiver = o.receiver` -/
def clientText (o : SyncRow) : Option Bytes :=
  groupConcat (fun s ↦ s.upd.bytes) (selectWhere (fun s ↦
    or (and (and (eq (some s.esid) (some o.esid)) (le (some s.time) (some o.time)))
      (eq (some s.sender) (some o.receiver))) (eq (some s.receiver) (some o.receiver))) db.scan)

/-- `sender = 0 AND (..) NOT LIKE (..) || '%'`. The second condition, with its subqueries, is
evaluated only if the first holds. -/
def unsound (o : SyncRow) : Option (Option Bool) :=
  if o.sender = 0 then
    (like (db.serverText o) ((db.clientText o).map (· ++ ascii "%"))).map (Option.map not)
  else some (some false)

/-- The rows that the query selects. -/
def soundnessRows : List SyncRow := selectUntilError db.unsound db.scan

/-- The query of `libseal_do_audit`. -/
def soundnessQuery : List (ℤ × CString × ℤ × ℤ) :=
  db.soundnessRows.map fun o ↦ (o.time, o.esid, o.sender, o.receiver)

/-! ### What is asked -/

/-- A batch is of the session of another, and not later. -/
def InSession (o s : SyncRow) : Prop := s.esid = o.esid ∧ s.time ≤ o.time

instance (o s : SyncRow) : Decidable (InSession o s) :=
  inferInstanceAs (Decidable (s.esid = o.esid ∧ s.time ≤ o.time))

/-- The texts of some batches, in the order of time. -/
def texts (p : SyncRow → Prop) [DecidablePred p] : Bytes :=
  (db.scan.filter fun s ↦ p s).flatMap fun s ↦ s.upd.bytes

/-- What the server has received in the session. -/
def received (o : SyncRow) : Bytes := db.texts fun s ↦ InSession o s ∧ s.receiver = 0

/-- What the member has sent or received in the session. -/
def exchanged (o : SyncRow) : Bytes :=
  db.texts fun s ↦ InSession o s ∧ (s.sender = o.receiver ∨ s.receiver = o.receiver)

/-- **The member has seen something else** than the beginning of what the server has received. -/
def Diverges (o : SyncRow) : Prop := ¬ db.exchanged o <+: db.received o

/-! ### What the query computes -/

/-- What the query takes for the text of the member. -/
def queried (o : SyncRow) : Bytes :=
  db.texts fun s ↦ InSession o s ∧ s.sender = o.receiver ∨ s.receiver = o.receiver

/-- The server has received something in the session. -/
def Heard (o : SyncRow) : Prop := ∃ s ∈ db.sync.rows, InSession o s ∧ s.receiver = 0

/-- The statement has ended with an error, at the batch or before it. -/
def Aborted (o : SyncRow) : Prop :=
  ∃ s ∈ db.sync.rows, s.sender = 0 ∧ s.time ≤ o.time ∧ maxPatternLength ≤ (db.queried s).length

/-- A beginning of the server's text is what the member's text, as a pattern, stands for. -/
def Matches (o : SyncRow) : Prop :=
  patternCompare false (chars (db.queried o ++ ascii "%")) (db.received o) = .matched

variable {db} {o : SyncRow}

theorem mem_scan {s : SyncRow} : s ∈ db.scan ↔ s ∈ db.sync.rows := mem_orderBy

/-- The rows of the first subquery. -/
theorem serverText_eq :
    db.serverText o = groupConcat (fun s ↦ s.upd.bytes)
      (db.scan.filter fun s ↦ InSession o s ∧ s.receiver = 0) := by
  rw [serverText, selectWhere_eq_filter (p := fun s ↦ InSession o s ∧ s.receiver = 0) fun s ↦ ?_]
  simp only [and_eq_some_true_iff, eq_some_some, le_some_some, Option.some.injEq,
    decide_eq_true_eq, InSession]

theorem serverText_of_heard (h : db.Heard o) : db.serverText o = some (db.received o) := by
  obtain ⟨s, hs, hserver⟩ := h
  rw [serverText_eq]
  exact groupConcat_of_mem (List.mem_filter.2 ⟨mem_scan.2 hs, decide_eq_true hserver⟩)

theorem serverText_of_not_heard (h : ¬ db.Heard o) : db.serverText o = none := by
  have hnone : (db.scan.filter fun s ↦ InSession o s ∧ s.receiver = 0) = [] := by
    rw [List.filter_eq_nil_iff]
    exact fun s hs hserver ↦ h ⟨s, mem_scan.1 hs, of_decide_eq_true hserver⟩
  rw [serverText_eq, hnone]
  rfl

/-- The rows of the second subquery; the batch itself is one of them. -/
theorem clientText_eq (ho : o ∈ db.sync.rows) : db.clientText o = some (db.queried o) := by
  rw [clientText, selectWhere_eq_filter (p := fun s ↦
    InSession o s ∧ s.sender = o.receiver ∨ s.receiver = o.receiver) fun s ↦ ?_]
  · exact groupConcat_of_mem
      (List.mem_filter.2 ⟨mem_scan.2 ho, decide_eq_true (Or.inr rfl)⟩)
  · simp only [or_eq_some_true_iff, and_eq_some_true_iff, eq_some_some, le_some_some,
      Option.some.injEq, decide_eq_true_eq, InSession]

/-- The condition of the query, for a batch of the server. -/
theorem unsound_eq (ho : o ∈ db.sync.rows) (hserver : o.sender = 0) :
    db.unsound o =
      if maxPatternLength ≤ (db.queried o).length then none
      else some ((db.serverText o).map fun s ↦
        !(patternCompare false (chars (db.queried o ++ ascii "%")) s == .matched)) := by
  have hlength : (db.queried o ++ ascii "%").length = (db.queried o).length + 1 :=
    List.length_append
  rw [unsound, if_pos hserver, clientText_eq ho, Option.map_some, like, Option.getD_some, hlength]
  split_ifs with hshort hlong hlong
  · omega
  · rw [Option.map_some, Option.some.injEq]
    cases db.serverText o <;> rfl
  · rfl
  · omega

/-- Only a batch of the server can be an error. -/
theorem unsound_eq_none_iff (ho : o ∈ db.sync.rows) :
    db.unsound o = none ↔ o.sender = 0 ∧ maxPatternLength ≤ (db.queried o).length := by
  by_cases hserver : o.sender = 0
  · rw [unsound_eq ho hserver]
    by_cases hlong : maxPatternLength ≤ (db.queried o).length
    · rw [if_pos hlong]
      exact iff_of_true rfl ⟨hserver, hlong⟩
    · rw [if_neg hlong]
      exact iff_of_false (Option.some_ne_none _) fun h ↦ hlong h.2
  · rw [unsound, if_neg hserver]
    exact iff_of_false (Option.some_ne_none _) fun h ↦ hserver h.1

/-- **What the query returns**: the batches of the server whose pattern does not match, if the
server has received anything and no pattern was too long. -/
theorem mem_soundnessRows_iff (ho : o ∈ db.sync.rows) (hserver : o.sender = 0) :
    o ∈ db.soundnessRows ↔ ¬ db.Aborted o ∧ db.Heard o ∧ ¬ db.Matches o := by
  -- where the pattern is not too long, the condition is the comparison that is meant
  have hholds : ¬ maxPatternLength ≤ (db.queried o).length →
      (db.unsound o = some (some true) ↔ db.Heard o ∧ ¬ db.Matches o) := by
    intro hshort
    rw [unsound_eq ho hserver, if_neg hshort, Option.some.injEq]
    by_cases hheard : db.Heard o
    · rw [serverText_of_heard hheard, Option.map_some, Option.some.injEq, Bool.not_eq_true',
        beq_eq_false_iff_ne]
      exact (and_iff_right hheard).symm
    · rw [serverText_of_not_heard hheard, Option.map_none]
      exact iff_of_false nofun fun h ↦ hheard h.1
  rw [soundnessRows, scan, mem_selectUntilError_iff (pairwise_lt_orderBy db.sync.nodup), ← scan]
  simp only [mem_scan]
  constructor
  · rintro ⟨-, hcond, hbefore⟩
    have haborted : ¬ db.Aborted o := by
      rintro ⟨s, hs, hzero, hle, hlong⟩
      have hnone := (unsound_eq_none_iff hs).2 ⟨hzero, hlong⟩
      rcases hle.lt_or_eq with hlt | heq
      · exact hbefore s hs hlt hnone
      · -- a row that is an error itself is not selected
        obtain rfl := db.sync.eq_of_key_eq hs ho heq
        exact nomatch hnone.symm.trans hcond
    exact ⟨haborted, (hholds fun hlong ↦ haborted ⟨o, ho, hserver, le_rfl, hlong⟩).1 hcond⟩
  · rintro ⟨haborted, h⟩
    refine ⟨ho, (hholds fun hlong ↦ haborted ⟨o, ho, hserver, le_rfl, hlong⟩).2 h, ?_⟩
    intro s hs hlt hnone
    obtain ⟨hzero, hlong⟩ := (unsound_eq_none_iff hs).1 hnone
    exact haborted ⟨s, hs, hzero, hlt.le, hlong⟩

/-! ### Where it is wrong -/

/-- A batch of one character. -/
def batch (time : ℤ) (esid : String) (sender receiver : ℤ) (upd : String) : SyncRow :=
  ⟨time, .ofBuffer (ascii esid), sender, receiver, .ofBuffer (ascii upd)⟩

/-- The server sends an `x` to a member, and has received nothing. -/
def silentServer : OwnCloudDatabase := ⟨⟨[batch 1 "a" 0 7 "x"], by decide⟩⟩

/-- The server passes an `x` on to a member 7; a later batch goes to the member 7 of another
session. -/
def twoSessions : OwnCloudDatabase :=
  ⟨⟨[batch 1 "a" 5 0 "x", batch 2 "a" 0 7 "x", batch 3 "b" 0 7 "y"], by decide⟩⟩

instance (db : OwnCloudDatabase) (o : SyncRow) : Decidable (db.Diverges o) :=
  inferInstanceAs (Decidable (¬ db.exchanged o <+: db.received o))

/-- **The query misses what is made up, and reports what is relayed.** -/
theorem not_mem_soundnessRows_iff_diverges :
    ¬ (batch 1 "a" 0 7 "x" ∈ silentServer.soundnessRows ↔
        silentServer.Diverges (batch 1 "a" 0 7 "x")) ∧
      ¬ (batch 2 "a" 0 7 "x" ∈ twoSessions.soundnessRows ↔
        twoSessions.Diverges (batch 2 "a" 0 7 "x")) := by
  decide +kernel

/-! ### When it is right -/

/-- **Made up**: the server has received nothing in the session, and the member has exchanged some
text. -/
def MadeUp (db : OwnCloudDatabase) (o : SyncRow) : Prop :=
  ¬ db.Heard o ∧ ∃ s ∈ db.sync.rows,
    (InSession o s ∧ (s.sender = o.receiver ∨ s.receiver = o.receiver)) ∧ s.upd.bytes ≠ []

/-- **Cut off**: the statement has ended with an error, and the member has seen something else. -/
def CutOff (db : OwnCloudDatabase) (o : SyncRow) : Prop :=
  db.Heard o ∧ db.Aborted o ∧ ¬ db.exchanged o <+: db.received o

/-- **Overlooked**: what the query takes for the member's text stands for a beginning of the
server's text, and what the member has seen is none. -/
def Overlooked (db : OwnCloudDatabase) (o : SyncRow) : Prop :=
  db.Heard o ∧ ¬ db.Aborted o ∧ StandsForBeginning (db.queried o) (db.received o) ∧
    ¬ db.exchanged o <+: db.received o

/-- **A false alarm**: what the query takes for the member's text does not stand for a beginning of
the server's text, and what the member has seen is one. -/
def FalseAlarm (db : OwnCloudDatabase) (o : SyncRow) : Prop :=
  db.Heard o ∧ ¬ db.Aborted o ∧ ¬ StandsForBeginning (db.queried o) (db.received o) ∧
    db.exchanged o <+: db.received o

/-- **Searched for as a byte**: the texts are compared, and a `U+0080` comes behind a `%` in what
the query takes for the member's text. -/
def SearchedAsByte (db : OwnCloudDatabase) (o : SyncRow) : Prop :=
  db.Heard o ∧ ¬ db.Aborted o ∧ ¬ SearchesCharacters (chars (db.queried o))

/-- **Disguised**: the member's text stands for a beginning of the server's text, by a wildcard or
by the case of a letter, and is none itself. -/
def Disguised (db : OwnCloudDatabase) (o : SyncRow) : Prop :=
  StandsForBeginning (db.exchanged o) (db.received o) ∧ ¬ db.exchanged o <+: db.received o

/-- Nothing but the texts of the session comes into the comparison. -/
structure Undisturbed (db : OwnCloudDatabase) (o : SyncRow) : Prop where
  /-- Nothing is sent to a member of this number in another session, or later. -/
  session : ∀ s ∈ db.sync.rows, s.receiver = o.receiver → s.upd.bytes ≠ [] → InSession o s
  /-- The texts of the session are UTF-8, and read as they are meant. -/
  text : ∀ s ∈ db.sync.rows, InSession o s → IsEncoded ReadAsItself s.upd.bytes
  /-- No `U+0080` comes behind a `%` in the member's text. -/
  searched : SearchesCharacters (chars (db.exchanged o))
  /-- No text of a member is too long for a pattern. -/
  short : ¬ db.Aborted o

theorem mem_texts_iff {p : SyncRow → Prop} [DecidablePred p] {b : UInt8} :
    b ∈ db.texts p ↔ ∃ s ∈ db.sync.rows, p s ∧ b ∈ s.upd.bytes := by
  simp only [texts, List.mem_flatMap, List.mem_filter, mem_scan, decide_eq_true_eq, and_assoc]

/-- Empty texts do not count. -/
theorem texts_congr {p q : SyncRow → Prop} [DecidablePred p] [DecidablePred q]
    (h : ∀ s ∈ db.sync.rows, s.upd.bytes ≠ [] → (p s ↔ q s)) : db.texts p = db.texts q := by
  rw [texts, texts]
  have hscan : ∀ s ∈ db.scan, s.upd.bytes ≠ [] → (p s ↔ q s) := fun s hs ↦ h s (mem_scan.1 hs)
  generalize db.scan = l at hscan
  induction l with
  | nil => rfl
  | cons s l ih =>
    obtain ⟨hs, hl⟩ := List.forall_mem_cons.1 hscan
    rw [List.filter_cons, List.filter_cons]
    by_cases hempty : s.upd.bytes = []
    · split_ifs <;> simp [hempty, ih hl]
    · simp only [hs hempty]
      split_ifs <;> simp [ih hl]

/-- A server that has received nothing has an empty text. -/
theorem received_of_not_heard (h : ¬ db.Heard o) : db.received o = [] := by
  rw [List.eq_nil_iff_forall_not_mem]
  intro b hb
  obtain ⟨s, hs, hserver, -⟩ := mem_texts_iff.1 hb
  exact h ⟨s, hs, hserver⟩

/-- Whoever has exchanged anything with such a server has seen something else. -/
theorem madeUp_iff : db.MadeUp o ↔ ¬ db.Heard o ∧ ¬ db.exchanged o <+: db.received o := by
  refine and_congr_right fun hheard ↦ ?_
  rw [received_of_not_heard hheard, List.prefix_nil]
  constructor
  · intro ⟨s, hs, hsees, htext⟩ hnil
    obtain ⟨b, hb⟩ := List.exists_mem_of_ne_nil _ htext
    have hmem : b ∈ db.exchanged o := mem_texts_iff.2 ⟨s, hs, hsees, hb⟩
    exact List.not_mem_nil (hnil ▸ hmem)
  · intro hne
    obtain ⟨b, hb⟩ := List.exists_mem_of_ne_nil _ hne
    obtain ⟨s, hs, hsees, hmem⟩ := mem_texts_iff.1 hb
    exact ⟨s, hs, hsees, List.ne_nil_of_mem hmem⟩

/-- The comparison is one of what the query takes for the member's text. -/
theorem matches_iff (h : SearchesCharacters (chars (db.queried o))) :
    db.Matches o ↔ StandsForBeginning (db.queried o) (db.received o) := by
  have hpattern : chars (db.queried o ++ ascii "%") = chars (db.queried o) ++ [percent] :=
    chars_append_of_ascii (by decide) _
  rw [Matches, hpattern, patternCompare_iff_standsFor h.append_percent,
    standsFor_append_percent_iff, StandsForBeginning]

namespace Undisturbed

/-- The query takes the right text. -/
theorem queried_eq_exchanged (h : db.Undisturbed o) : db.queried o = db.exchanged o := by
  refine texts_congr fun s hs htext ↦ ?_
  have hsession := fun hreceiver ↦ h.session s hs hreceiver htext
  tauto

theorem isEncoded_texts (h : db.Undisturbed o) {p : SyncRow → Prop} [DecidablePred p]
    (hp : ∀ s, p s → InSession o s) : IsEncoded ReadAsItself (db.texts p) := by
  refine IsEncoded.flatMap fun s hs ↦ ?_
  obtain ⟨hs, hsession⟩ := List.mem_filter.1 hs
  exact h.text s (mem_scan.1 hs) (hp s (of_decide_eq_true hsession))

/-- **Every report is right** where nothing disturbs. -/
theorem not_falseAlarm (h : db.Undisturbed o) : ¬ db.FalseAlarm o := by
  rintro ⟨-, -, hbeginning, hprefix⟩
  rw [h.queried_eq_exchanged] at hbeginning
  exact hbeginning (standsForBeginning_of_begins (h.isEncoded_texts fun s hs ↦ hs.1)
    (h.isEncoded_texts fun s hs ↦ hs.1) hprefix)

theorem not_cutOff (h : db.Undisturbed o) : ¬ db.CutOff o := fun hcut ↦ h.short hcut.2.1

theorem not_searchedAsByte (h : db.Undisturbed o) : ¬ db.SearchedAsByte o := by
  rintro ⟨-, -, hsearch⟩
  rw [h.queried_eq_exchanged] at hsearch
  exact hsearch h.searched

/-- What is overlooked is disguised. -/
theorem overlooked_iff (h : db.Undisturbed o) : db.Overlooked o ↔ db.Heard o ∧ db.Disguised o := by
  rw [Overlooked, Disguised, h.queried_eq_exchanged]
  exact and_congr_right fun _ ↦ and_iff_right h.short

end Undisturbed

/-- **When the query is right about a batch of the server.** Where nothing but the texts of the
session comes into the comparison, the batch must not be made up and not be disguised. In any table,
it must not be made up, not cut off, not overlooked and no false alarm, if nothing is searched for
as a byte. -/
theorem mem_soundnessRows_iff_diverges_iff (db : OwnCloudDatabase) {o : SyncRow}
    (ho : o ∈ db.sync.rows) (hserver : o.sender = 0) :
    (db.Undisturbed o →
        ((o ∈ db.soundnessRows ↔ db.Diverges o) ↔ ¬ db.MadeUp o ∧ ¬ db.Disguised o)) ∧
      (¬ db.SearchedAsByte o →
        ((o ∈ db.soundnessRows ↔ db.Diverges o) ↔
          ¬ db.MadeUp o ∧ ¬ db.CutOff o ∧ ¬ db.Overlooked o ∧ ¬ db.FalseAlarm o)) := by
  have hkinds : ¬ db.SearchedAsByte o →
      ((o ∈ db.soundnessRows ↔ db.Diverges o) ↔
        ¬ db.MadeUp o ∧ ¬ db.CutOff o ∧ ¬ db.Overlooked o ∧ ¬ db.FalseAlarm o) := by
    intro hbyte
    -- what is searched for does not matter unless the texts are compared
    have hmatches : db.Heard o → ¬ db.Aborted o →
        (db.Matches o ↔ StandsForBeginning (db.queried o) (db.received o)) := by
      intro hheard haborted
      exact matches_iff (by_contra fun hsearch ↦ hbyte ⟨hheard, haborted, hsearch⟩)
    rw [mem_soundnessRows_iff ho hserver, madeUp_iff, Diverges, CutOff, Overlooked, FalseAlarm]
    tauto
  refine ⟨fun h ↦ ?_, hkinds⟩
  have hfalse := h.not_falseAlarm
  have hcut := h.not_cutOff
  -- without anything received, what is disguised is made up
  have hdisguised : db.Disguised o → db.Heard o ∨ db.MadeUp o := by
    intro hdisguised
    by_cases hheard : db.Heard o
    · exact Or.inl hheard
    · exact Or.inr (madeUp_iff.2 ⟨hheard, hdisguised.2⟩)
  rw [hkinds h.not_searchedAsByte, h.overlooked_iff]
  tauto

/-- The server has received `xy`, and sends `_y` on. -/
def underscored : OwnCloudDatabase :=
  ⟨⟨[batch 1 "a" 5 0 "xy", batch 2 "a" 0 7 "_y"], by decide⟩⟩

/-- Nothing disturbs, and the wildcard in the member's text disguises it. -/
theorem mem_soundnessRows_underscored :
    underscored.Undisturbed (batch 2 "a" 0 7 "_y") ∧
      underscored.Disguised (batch 2 "a" 0 7 "_y") ∧
      ¬ (batch 2 "a" 0 7 "_y" ∈ underscored.soundnessRows ↔
        underscored.Diverges (batch 2 "a" 0 7 "_y")) := by
  have hexchanged : chars (underscored.exchanged (batch 2 "a" 0 7 "_y")) = [95, 121] := by
    decide +kernel
  have hundisturbed : underscored.Undisturbed (batch 2 "a" 0 7 "_y") := by
    refine ⟨by decide +kernel, fun s hs _ ↦ .of_ascii ?_, ?_, ?_⟩
    · have hascii : ∀ s ∈ underscored.sync.rows, ∀ b ∈ s.upd.bytes,
          b < 0x80 ∧ ReadAsItself (Char.ofNat b.toNat) := by
        decide +kernel
      exact hascii s hs
    · exact .of_notMem (by rw [hexchanged]; decide)
    · rintro ⟨s, hs, -, -, hlong⟩
      have hshort : ∀ s ∈ underscored.sync.rows,
          ¬ maxPatternLength ≤ (underscored.queried s).length := by
        decide +kernel
      exact hshort s hs hlong
  have hdisguised : underscored.Disguised (batch 2 "a" 0 7 "_y") := by
    refine ⟨⟨[120, 121], by decide +kernel, ?_⟩, by decide +kernel⟩
    rw [hexchanged]
    exact .one 120 (.same rfl .nil)
  refine ⟨hundisturbed, hdisguised, fun hright ↦ ?_⟩
  exact (((mem_soundnessRows_iff_diverges_iff underscored (by decide) rfl).1 hundisturbed).1
    hright).2 hdisguised

end OwnCloudDatabase

end LibSeal
