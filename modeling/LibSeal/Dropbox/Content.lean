import LibSeal.Dropbox.Relations

/-!
# The content audit of Dropbox

The second query of `libseal_do_audit` looks for a listing that contradicts a commit: it shows
another blocklist than the commit, and no other commit of the file came in between. The query joins
a commit with the listings *before* it, `l.time < c.time`, where those after it are meant; the
window of its `NOT EXISTS`, later than the commit and earlier than the listing, is then always
empty.

So the query is right about a pair by chance only: when the blocklists agree, when the times do, or
when another commit did come in between (`mem_selectedPairs_iff_contradicts_iff`). A file that is
listed and then changed is reported, and a listing with a wrong blocklist is not
(`not_mem_selectedPairs_iff_contradicts`).

Whether a deletion counts as a commit here makes no difference to this; it is left open.
-/

namespace LibSeal

open Bytes SqlQuery

/-- Two rows are about one file. -/
def SameFile (r s : FileRow) : Prop := r.path = s.path ∧ r.account = s.account

instance (r s : FileRow) : Decidable (SameFile r s) :=
  inferInstanceAs (Decidable (r.path = s.path ∧ r.account = s.account))

namespace DropboxDatabase

/-- Another commit of the file lies between the commit and the listing. -/
def CommitBetween (counts : FileRow → Prop) (db : DropboxDatabase) (c l : FileRow) : Prop :=
  ∃ m ∈ db.commitBatch.rows, counts m ∧ SameFile m c ∧ c.time < m.time ∧ m.time < l.time

/-- **The listing contradicts the commit.** -/
def Contradicts (counts : FileRow → Prop) (db : DropboxDatabase) (c l : FileRow) : Prop :=
  c.time < l.time ∧ ¬ db.CommitBetween counts c l ∧ c.blocklist ≠ l.blocklist

variable {db : DropboxDatabase}

/-- **What the second query selects**: the listings before a commit that show another blocklist. -/
theorem mem_selectedPairs_iff {c l : FileRow} :
    (c, l) ∈ db.selectedPairs ↔ (c ∈ db.commitBatch.rows ∧ l ∈ db.list.rows) ∧ SameFile l c ∧
      l.size ≠ -1 ∧ l.time < c.time ∧ c.blocklist ≠ l.blocklist := by
  rw [selectedPairs, mem_selectWhere, mem_join]
  simp only [and_eq_some_true_iff, eq_some_some, ne_some_some, lt_some_some, Option.some.injEq,
    decide_eq_true_eq, Bool.not_eq_true', hasRows_selectWhere_eq_false_iff]
  constructor
  · rintro ⟨⟨hmem, ⟨hlt, hpath⟩, haccount⟩, ⟨⟨hblock, hsize⟩, -⟩, -⟩
    exact ⟨hmem, ⟨hpath, haccount⟩, hsize, hlt, hblock.symm⟩
  · rintro ⟨hmem, ⟨hpath, haccount⟩, hsize, hlt, hblock⟩
    refine ⟨⟨hmem, ⟨hlt, hpath⟩, haccount⟩, ⟨⟨hblock.symm, hsize⟩, hsize⟩, ?_⟩
    -- nothing is earlier than the listing and later than the commit, which comes after it
    rintro m - ⟨⟨⟨-, hml⟩, hcm⟩, -⟩
    exact lt_irrefl _ (hcm.trans (hml.trans hlt))

/-- **The second query is right by chance only**: about a commit and a listing of one file, when the
blocklists agree, when the times do, or when the listing comes later and another commit lies in
between. It finds nothing at all if no commit changes the blocklist of a file after a listing. -/
theorem mem_selectedPairs_iff_contradicts_iff (counts : FileRow → Prop) (db : DropboxDatabase) :
    (∀ c ∈ db.commitBatch.rows, ∀ l ∈ db.list.rows, SameFile l c → c.size ≠ -1 → l.size ≠ -1 →
      (((c, l) ∈ db.selectedPairs ↔ db.Contradicts counts c l) ↔
        c.blocklist = l.blocklist ∨ c.time = l.time ∨
          c.time < l.time ∧ db.CommitBetween counts c l)) ∧
    (db.contentQuery = [] ↔ ∀ c ∈ db.commitBatch.rows, ∀ l ∈ db.list.rows, SameFile l c →
      l.size ≠ -1 → l.time < c.time → c.blocklist = l.blocklist) := by
  constructor
  · intro c hc l hl hsame _ hlsize
    have hpair : (c, l) ∈ db.selectedPairs ↔ l.time < c.time ∧ c.blocklist ≠ l.blocklist := by
      rw [mem_selectedPairs_iff]
      exact ⟨fun h ↦ h.2.2.2, fun h ↦ ⟨⟨hc, hl⟩, hsame, hlsize, h⟩⟩
    rw [hpair, Contradicts]
    by_cases hblock : c.blocklist = l.blocklist
    · simp [hblock]
    · rcases lt_trichotomy c.time l.time with hlt | heq | hlt
      · -- the listing comes later: it is not selected
        simp [hblock, hlt, hlt.not_gt, hlt.ne]
      · simp [heq]
      · simp [hblock, hlt, hlt.not_gt, hlt.ne']
  · rw [contentQuery, List.map_eq_nil_iff, List.eq_nil_iff_forall_not_mem]
    constructor
    · intro hnone c hc l hl hsame hsize hlt
      by_contra hblock
      exact hnone (c, l) (mem_selectedPairs_iff.2 ⟨⟨hc, hl⟩, hsame, hsize, hlt, hblock⟩)
    · rintro hall ⟨c, l⟩ hmem
      obtain ⟨⟨hc, hl⟩, hsame, hsize, hlt, hblock⟩ := mem_selectedPairs_iff.1 hmem
      exact hblock (hall c hc l hl hsame hsize hlt)

/-! ### Concrete histories -/

/-- A file that is uploaded, listed, and uploaded again with another content. -/
def listedBetween : DropboxDatabase where
  list := ⟨[⟨2, ascii "u", ascii "K", ascii "/f", 1, ascii "b1"⟩], by decide⟩
  commitBatch := ⟨[⟨1, ascii "u", ascii "K", ascii "/f", 1, ascii "b1"⟩,
    ⟨3, ascii "u", ascii "K", ascii "/f", 1, ascii "b2"⟩], by decide⟩

/-- A file that is uploaded, and listed with another content. -/
def listedWrong : DropboxDatabase where
  list := ⟨[⟨2, ascii "u", ascii "K", ascii "/f", 1, ascii "b2"⟩], by decide⟩
  commitBatch := ⟨[⟨1, ascii "u", ascii "K", ascii "/f", 1, ascii "b1"⟩], by decide⟩

/-- The listing in between shows what was uploaded last, and is reported against the upload that
follows; the wrong listing is not reported. -/
theorem not_mem_selectedPairs_iff_contradicts :
    (∃ c ∈ listedBetween.commitBatch.rows, ∃ l ∈ listedBetween.list.rows,
      (c, l) ∈ listedBetween.selectedPairs ∧
        ¬ listedBetween.Contradicts (fun _ ↦ True) c l) ∧
    ∃ c ∈ listedWrong.commitBatch.rows, ∃ l ∈ listedWrong.list.rows,
      (c, l) ∉ listedWrong.selectedPairs ∧ listedWrong.Contradicts (fun _ ↦ True) c l := by
  constructor
  · refine ⟨_, List.mem_cons_of_mem _ List.mem_cons_self, _, List.mem_cons_self, by decide, ?_⟩
    rintro ⟨hlt, -⟩
    exact absurd hlt (by decide)
  · refine ⟨_, List.mem_cons_self, _, List.mem_cons_self, by decide, by decide, ?_, by decide⟩
    rintro ⟨m, hm, -, -, hlt, -⟩
    rw [List.mem_singleton.1 hm] at hlt
    exact absurd hlt (by decide)

end DropboxDatabase

end LibSeal
