import LibSeal.Dropbox.Content
import LibSeal.Dropbox.EndToEnd

/-!
# What the audit says about uploads and listings

The two queries of the Dropbox auditor, asked of the tables that some traffic has left, in terms of
the exchanges (`dropboxVerdict_of_traffic`). The first reports the uploads that some host has been
shown no trace of, though it has got a listing since and before the next deletion, if that is the
first of the path. The second reports the uploads that change a file which had been listed.

A server whose listings are complete (`CompleteListings`) is not reported by the first query, as
long as nothing is uploaded under a path that has been deleted; the second reports it for every
change of a listed file.
-/

namespace LibSeal

open Bytes SqlQuery DropboxDatabase

/-! ### Uploads and listings -/

/-- An exchange uploads a file, or deletes it. -/
def Uploads (xs : List DropboxExchange) (n : ℕ) (hostKey : Bytes) (f : DropboxFile) : Prop :=
  ∃ (req : CommitRequest) (rsp : HttpMessage),
    xs[n]? = some (.commit req rsp) ∧ req.hostKey = hostKey ∧ f ∈ req.array.files

/-- An exchange lists a file for a host. -/
def Lists (xs : List DropboxExchange) (n : ℕ) (hostKey : Bytes) (f : DropboxFile) : Prop :=
  ∃ (req : ListRequest) (rsp : ListReply req.hostKey),
    xs[n]? = some (.list req rsp) ∧ req.hostKey = hostKey ∧ f ∈ rsp.array.files

/-- An exchange is the first that deletes a path. -/
def FirstDeletes (xs : List DropboxExchange) (path : Bytes) (m : ℕ) : Prop :=
  (∃ hostKey f, Uploads xs m hostKey f ∧ f.size = -1 ∧ f.path = path) ∧
    ∀ m' hostKey f, Uploads xs m' hostKey f → f.size = -1 → f.path = path → m ≤ m'

/-- An exchange is later than an upload, and before the first deletion of the path if that is later
too. -/
def InUploadWindow (xs : List DropboxExchange) (path : Bytes) (n j : ℕ) : Prop :=
  n < j ∧ ∀ m, FirstDeletes xs path m → n < m → j < m

/-- **Some host is shown no trace** of an upload: it has got a listing in the window, and none that
has the path. -/
def ShownNoTrace (xs : List DropboxExchange) (path : Bytes) (n : ℕ) : Prop :=
  ∃ hostKey, (∃ j g, InUploadWindow xs path n j ∧ Lists xs j hostKey g) ∧
    ∀ j g, InUploadWindow xs path n j → Lists xs j hostKey g → g.path ≠ path

namespace FilesAudited

variable {xs : List DropboxExchange} {db : DropboxDatabase}

theorem mem_commitBatch_iff (h : FilesAudited xs db) {r : FileRow} : r ∈ db.commitBatch.rows ↔
    ∃ n hostKey f, Uploads xs n hostKey f ∧ r = f.row ((n + 1 : ℕ) : ℤ) hostKey := by
  rw [h.mem_commitBatch]
  constructor
  · rintro ⟨n, ⟨req, rsp⟩ | ⟨req, rsp⟩ | ⟨req, rsp⟩, hx, hr⟩
    · exact absurd hr List.not_mem_nil
    · obtain ⟨f, hf, rfl⟩ := List.mem_map.1 hr
      exact ⟨n, req.hostKey, f, ⟨req, rsp, hx, rfl, hf⟩, rfl⟩
    · exact absurd hr List.not_mem_nil
  · rintro ⟨n, hostKey, f, ⟨req, rsp, hx, rfl, hf⟩, rfl⟩
    exact ⟨n, _, hx, List.mem_map.2 ⟨f, hf, rfl⟩⟩

theorem mem_list_iff (h : FilesAudited xs db) {r : FileRow} : r ∈ db.list.rows ↔
    ∃ n hostKey f, Lists xs n hostKey f ∧ r = f.row ((n + 1 : ℕ) : ℤ) hostKey := by
  rw [h.mem_list]
  constructor
  · rintro ⟨n, ⟨req, rsp⟩ | ⟨req, rsp⟩ | ⟨req, rsp⟩, hx, hr⟩
    · obtain ⟨f, hf, rfl⟩ := List.mem_map.1 hr
      exact ⟨n, req.hostKey, f, ⟨req, rsp, hx, rfl, hf⟩, rfl⟩
    · exact absurd hr List.not_mem_nil
    · exact absurd hr List.not_mem_nil
  · rintro ⟨n, hostKey, f, ⟨req, rsp, hx, rfl, hf⟩, rfl⟩
    exact ⟨n, _, hx, List.mem_map.2 ⟨f, hf, rfl⟩⟩

/-- There is one account. -/
theorem singleAccount (h : FilesAudited xs db) : db.SingleAccount := by
  refine ⟨dropboxAccount, List.forall_mem_append.2 ⟨fun r hr ↦ ?_, fun r hr ↦ ?_⟩⟩
  · obtain ⟨n, hostKey, f, -, rfl⟩ := h.mem_commitBatch_iff.1 hr
    rfl
  · obtain ⟨n, hostKey, f, -, rfl⟩ := h.mem_list_iff.1 hr
    rfl

theorem isFirstDeletion_iff (h : FilesAudited xs db) {n : ℕ} {hostKey : Bytes} {f : DropboxFile}
    {t : ℤ} : db.IsFirstDeletion (f.row ((n + 1 : ℕ) : ℤ) hostKey) t ↔
      ∃ m : ℕ, FirstDeletes xs f.path m ∧ t = ((m + 1 : ℕ) : ℤ) := by
  constructor
  · rintro ⟨⟨d, hd, ⟨hsize, hpath⟩, rfl⟩, hle⟩
    obtain ⟨m, key, g, hg, rfl⟩ := h.mem_commitBatch_iff.1 hd
    refine ⟨m, ⟨⟨key, g, hg, hsize, hpath⟩, fun m' key' g' hg' hsize' hpath' ↦ ?_⟩, rfl⟩
    have hlater : ((m + 1 : ℕ) : ℤ) ≤ ((m' + 1 : ℕ) : ℤ) :=
      hle _ (h.mem_commitBatch_iff.2 ⟨m', key', g', hg', rfl⟩) ⟨hsize', hpath'⟩
    omega
  · rintro ⟨m, ⟨⟨key, g, hg, hsize, hpath⟩, hle⟩, rfl⟩
    refine ⟨⟨_, h.mem_commitBatch_iff.2 ⟨m, key, g, hg, rfl⟩, ⟨hsize, hpath⟩, rfl⟩, ?_⟩
    rintro d hd ⟨hsize', hpath'⟩
    obtain ⟨m', key', g', hg', rfl⟩ := h.mem_commitBatch_iff.1 hd
    have hlater := hle m' key' g' hg' hsize' hpath'
    show ((m + 1 : ℕ) : ℤ) ≤ ((m' + 1 : ℕ) : ℤ)
    omega

theorem queryWindow_iff (h : FilesAudited xs db) {n j : ℕ} {hostKey hostKey' : Bytes}
    {f g : DropboxFile} : db.QueryWindow (f.row ((n + 1 : ℕ) : ℤ) hostKey)
        (g.row ((j + 1 : ℕ) : ℤ) hostKey') ↔ InUploadWindow xs f.path n j := by
  rw [QueryWindow, InUploadWindow]
  have hlater : ∀ i k : ℕ, ((i + 1 : ℕ) : ℤ) < ((k + 1 : ℕ) : ℤ) ↔ i < k := fun i k ↦ by omega
  refine and_congr (hlater n j) ⟨fun hall m hm hlt ↦ ?_, fun hall t ht hlt ↦ ?_⟩
  · exact (hlater j m).1 (hall _ (h.isFirstDeletion_iff.2 ⟨m, hm, rfl⟩) ((hlater n m).2 hlt))
  · obtain ⟨m, hm, rfl⟩ := h.isFirstDeletion_iff.1 ht
    exact (hlater j m).2 (hall m hm ((hlater n m).1 hlt))

/-- **What the first query selects**, in terms of the exchanges. -/
theorem selected_iff (h : FilesAudited xs db) {n : ℕ} {hostKey : Bytes} {f : DropboxFile}
    (hf : Uploads xs n hostKey f) (hsize : 0 ≤ f.size) :
    db.Selected (f.row ((n + 1 : ℕ) : ℤ) hostKey) ↔ ShownNoTrace xs f.path n := by
  rw [selected_iff_omittedIn h.singleAccount (h.mem_commitBatch_iff.2 ⟨n, hostKey, f, hf, rfl⟩)
    hsize]
  constructor
  · rintro ⟨l, hl, hwindow, hnone⟩
    obtain ⟨j, key, g, hg, rfl⟩ := h.mem_list_iff.1 hl
    refine ⟨key, ⟨j, g, h.queryWindow_iff.1 hwindow, hg⟩, fun j' g' hj' hg' hpath ↦ hnone ?_⟩
    exact ⟨_, h.mem_list_iff.2 ⟨j', key, g', hg', rfl⟩, h.queryWindow_iff.2 hj', rfl, hpath⟩
  · rintro ⟨key, ⟨j, g, hj, hg⟩, hnone⟩
    refine ⟨_, h.mem_list_iff.2 ⟨j, key, g, hg, rfl⟩, h.queryWindow_iff.2 hj, ?_⟩
    rintro ⟨l, hl, hwindow, hkey, hpath⟩
    obtain ⟨j', key', g', hg', rfl⟩ := h.mem_list_iff.1 hl
    obtain rfl : key' = key := hkey
    exact hnone j' g' (h.queryWindow_iff.1 hwindow) hg' hpath

/-- **What the first query returns**: the uploads that some host is shown no trace of. -/
theorem mem_completenessQuery_iff (h : FilesAudited xs db) {path : Bytes} {time : ℤ} :
    (∃ account t, (path, account, time, t) ∈ db.completenessQuery) ↔
      ∃ n hostKey f, Uploads xs n hostKey f ∧ 0 ≤ f.size ∧ f.path = path ∧
        time = ((n + 1 : ℕ) : ℤ) ∧ ShownNoTrace xs path n := by
  constructor
  · rintro ⟨account, t, hmem⟩
    obtain ⟨⟨c, c2⟩, hc, heq⟩ := List.mem_map.1 hmem
    cases heq
    have hselected := hc
    rw [selectedCommits, mem_selectWhere] at hc
    simp only [and_eq_some_true_iff, le_some_some, Option.some.injEq, decide_eq_true_eq] at hc
    obtain ⟨n, hostKey, f, hf, rfl⟩ := h.mem_commitBatch_iff.1 (mem_leftJoin.1 hc.1).1
    exact ⟨n, hostKey, f, hf, hc.2.1, rfl, rfl, (h.selected_iff hf hc.2.1).1 ⟨c2, hselected⟩⟩
  · rintro ⟨n, hostKey, f, hf, hsize, rfl, rfl, hshown⟩
    obtain ⟨c2, hc2⟩ := (h.selected_iff hf hsize).2 hshown
    exact ⟨_, _, List.mem_map.2 ⟨_, hc2, rfl⟩⟩

/-- **What the second query returns**: the uploads that change a file which had been listed. -/
theorem mem_contentQuery_iff (h : FilesAudited xs db) {path : Bytes} {time : ℤ} :
    (∃ account, (time, path, account) ∈ db.contentQuery) ↔
      ∃ n hostKey f j hostKey' g, Uploads xs n hostKey f ∧ f.path = path ∧
        time = ((n + 1 : ℕ) : ℤ) ∧ Lists xs j hostKey' g ∧ g.path = path ∧ j < n ∧ g.size ≠ -1 ∧
          f.blocklist ≠ g.blocklist := by
  constructor
  · rintro ⟨account, hmem⟩
    obtain ⟨⟨c, l⟩, hpair, heq⟩ := List.mem_map.1 hmem
    cases heq
    obtain ⟨⟨hc, hl⟩, ⟨hpath, -⟩, hsize, hlt, hblock⟩ := mem_selectedPairs_iff.1 hpair
    obtain ⟨n, hostKey, f, hf, rfl⟩ := h.mem_commitBatch_iff.1 hc
    obtain ⟨j, hostKey', g, hg, rfl⟩ := h.mem_list_iff.1 hl
    have hlt' : ((j + 1 : ℕ) : ℤ) < ((n + 1 : ℕ) : ℤ) := hlt
    exact ⟨n, hostKey, f, j, hostKey', g, hf, rfl, rfl, hg, hpath, by omega, hsize, hblock⟩
  · rintro ⟨n, hostKey, f, j, hostKey', g, hf, rfl, rfl, hg, hpath, hlt, hsize, hblock⟩
    have hlt' : ((j + 1 : ℕ) : ℤ) < ((n + 1 : ℕ) : ℤ) := by omega
    have hpair : (f.row ((n + 1 : ℕ) : ℤ) hostKey, g.row ((j + 1 : ℕ) : ℤ) hostKey') ∈
        db.selectedPairs := mem_selectedPairs_iff.2
      ⟨⟨h.mem_commitBatch_iff.2 ⟨n, hostKey, f, hf, rfl⟩,
        h.mem_list_iff.2 ⟨j, hostKey', g, hg, rfl⟩⟩, ⟨hpath, rfl⟩, hsize, hlt', hblock⟩
    exact ⟨_, List.mem_map.2 ⟨_, hpair, rfl⟩⟩

end FilesAudited

/-! ### Complete listings -/

/-- The last upload of a path before an exchange. -/
structure LastUpload (xs : List DropboxExchange) (j : ℕ) (path : Bytes) (n : ℕ)
    (f : DropboxFile) : Prop where
  lt : n < j
  uploads : ∃ hostKey, Uploads xs n hostKey f
  path_eq : f.path = path
  last : ∀ n' hostKey f', n < n' → n' < j → Uploads xs n' hostKey f' → f'.path ≠ path

/-- Every listing has all files whose last upload is none of a deletion. -/
def CompleteListings (xs : List DropboxExchange) : Prop :=
  ∀ j hostKey g, Lists xs j hostKey g → ∀ path n f, LastUpload xs j path n f → f.size ≠ -1 →
    ∃ g', Lists xs j hostKey g' ∧ g'.path = path

/-- Nothing is uploaded under a path that has been deleted. -/
def NothingRestored (xs : List DropboxExchange) : Prop :=
  ∀ m hostKey g n hostKey' f, Uploads xs m hostKey g → g.size = -1 → Uploads xs n hostKey' f →
    0 ≤ f.size → g.path = f.path → n ≤ m

/-- A path that is uploaded is uploaded for the last time. -/
theorem exists_lastUpload {xs : List DropboxExchange} {n j : ℕ} {hostKey : Bytes} {f : DropboxFile}
    (hf : Uploads xs n hostKey f) (hlt : n < j) :
    ∃ m g, LastUpload xs j f.path m g ∧ n ≤ m := by
  induction j with
  | zero => exact absurd hlt (Nat.not_lt_zero n)
  | succ j ih =>
    by_cases hlast : ∃ hostKey' g, Uploads xs j hostKey' g ∧ g.path = f.path
    · obtain ⟨hostKey', g, hg, hpath⟩ := hlast
      exact ⟨j, g, ⟨Nat.lt_succ_self j, ⟨hostKey', hg⟩, hpath,
        fun n' _ _ h h' ↦ absurd h' (by omega)⟩, by omega⟩
    · have hne : n ≠ j := fun h ↦ hlast ⟨hostKey, f, h ▸ hf, rfl⟩
      obtain ⟨m, g, hg, hm⟩ := ih (by omega)
      refine ⟨m, g, ⟨by have := hg.lt; omega, hg.uploads, hg.path_eq, ?_⟩, hm⟩
      intro n' hostKey' f' h h' hf' hpath
      rcases Nat.lt_succ_iff_lt_or_eq.1 h' with h' | rfl
      · exact hg.last n' hostKey' f' h h' hf' hpath
      · exact hlast ⟨hostKey', f', hf', hpath⟩

/-- An exchange uploads a path once. -/
theorem Uploads.eq_of_path_eq {xs : List DropboxExchange}
    (hnd : ∀ x ∈ xs, (x.files.map DropboxFile.path).Nodup) {n : ℕ} {hostKey hostKey' : Bytes}
    {f g : DropboxFile} (hf : Uploads xs n hostKey f) (hg : Uploads xs n hostKey' g)
    (hpath : f.path = g.path) : f = g := by
  obtain ⟨req, rsp, hx, -, hfmem⟩ := hf
  obtain ⟨req', rsp', hx', -, hgmem⟩ := hg
  cases hx.symm.trans hx'
  exact List.inj_on_of_nodup_map (hnd _ (List.mem_of_getElem? hx)) hfmem hgmem hpath

/-- A path that is deleted is deleted for the first time. -/
theorem exists_firstDeletes {xs : List DropboxExchange} {m : ℕ} {hostKey : Bytes} {g : DropboxFile}
    (hg : Uploads xs m hostKey g) (hsize : g.size = -1) : ∃ i, FirstDeletes xs g.path i := by
  classical
  have hex : ∃ i hostKey f, Uploads xs i hostKey f ∧ f.size = -1 ∧ f.path = g.path :=
    ⟨m, hostKey, g, hg, hsize, rfl⟩
  exact ⟨Nat.find hex, Nat.find_spec hex,
    fun i hostKey f hf hsize hpath ↦ Nat.find_min' hex ⟨hostKey, f, hf, hsize, hpath⟩⟩

/-- **A server with complete listings is not reported** by the first query. -/
theorem not_shownNoTrace {xs : List DropboxExchange} (hcomplete : CompleteListings xs)
    (hrestored : NothingRestored xs) (hnd : ∀ x ∈ xs, (x.files.map DropboxFile.path).Nodup) {n : ℕ}
    {hostKey : Bytes} {f : DropboxFile} (hf : Uploads xs n hostKey f) (hsize : 0 ≤ f.size) :
    ¬ ShownNoTrace xs f.path n := by
  rintro ⟨key, ⟨j, g, hj, hg⟩, hnone⟩
  obtain ⟨m, f', hlast, hm⟩ := exists_lastUpload hf hj.1
  obtain ⟨key', hf'⟩ := hlast.uploads
  -- the last upload before the listing deletes the file, or it would be listed
  have hdeleted : f'.size = -1 := by
    by_contra hkept
    obtain ⟨g', hg', hpath⟩ := hcomplete j key g hg f.path m f' hlast hkept
    exact hnone j g' hj hg' hpath
  -- so the file is deleted for the first time, after the upload and before the listing
  obtain ⟨i, hi⟩ := exists_firstDeletes hf' hdeleted
  rw [hlast.path_eq] at hi
  obtain ⟨key'', d, hd, hdsize, hdpath⟩ := hi.1
  have hni := hrestored i key'' d n hostKey f hd hdsize hf hsize hdpath
  have hne : n ≠ i := by
    rintro rfl
    rw [hf.eq_of_path_eq hnd hd hdpath.symm, hdsize] at hsize
    exact absurd hsize (by decide)
  have him := hi.2 m key' f' hf' hdeleted hlast.path_eq
  have hji := hj.2 i hi (by omega)
  have hmj := hlast.lt
  omega

/-! ### The verdict -/

/-- **The audit of Dropbox traffic.** For any order of the callbacks of any number of connections
and any pieces, the run ends, and on the tables it leaves the first query returns exactly the
uploads that some host has been shown no trace of, and the second exactly those that change a file
which had been listed. A server with complete listings is not reported by the first, if nothing is
uploaded under a path that has been deleted. -/
theorem dropboxVerdict_of_traffic {K : Type} [DecidableEq K]
    {uncompress : ℕ → Bytes → Option Bytes} {limit : ℕ}
    (T : Traffic (dropboxWire uncompress limit) K) (hcount : T.callbacks.length < 2147483647)
    {cfg : BuildConfig} (hdo : cfg.doInsert = true) (P : Platform) (mem : ℕ → AuditorMemory)
    (hmem : ∀ n, ∃ i, limit ≤ i ∧ i < 8192 ∧ (mem n).stack i = 0) (signs : ℕ → Option Signature)
    (hsigns : cfg.signs = true → ∀ n, (signs n).isSome = true) :
    ∃ ys st xs, T.LogsAs .dropbox uncompress dropboxStore .init cfg P mem signs ys st ∧
      xs = withFiles (exchangesOf ys) ∧
      (∀ path time, (∃ account t, (path, account, time, t) ∈ st.db.content.completenessQuery) ↔
        ∃ n hostKey f, Uploads xs n hostKey f ∧ 0 ≤ f.size ∧ f.path = path ∧
          time = ((n + 1 : ℕ) : ℤ) ∧ ShownNoTrace xs path n) ∧
      (∀ path time, (∃ account, (time, path, account) ∈ st.db.content.contentQuery) ↔
        ∃ n hostKey f j hostKey' g, Uploads xs n hostKey f ∧ f.path = path ∧
          time = ((n + 1 : ℕ) : ℤ) ∧ Lists xs j hostKey' g ∧ g.path = path ∧ j < n ∧
            g.size ≠ -1 ∧ f.blocklist ≠ g.blocklist) ∧
      (CompleteListings xs → NothingRestored xs → st.db.content.completenessQuery = []) := by
  obtain ⟨ys, st, hlogs, haudited, -⟩ := T.exists_filesAudited hcount hdo P mem hmem signs hsigns
  have hnd : ∀ x ∈ withFiles (exchangesOf ys), (x.files.map DropboxFile.path).Nodup := by
    intro x hx
    obtain ⟨y, -, rfl⟩ := List.mem_map.1 (List.mem_of_mem_filter hx)
    exact y.2.readable.nodup
  refine ⟨ys, st, _, hlogs, rfl, fun path time ↦ haudited.mem_completenessQuery_iff,
    fun path time ↦ haudited.mem_contentQuery_iff, fun hcomplete hrestored ↦ ?_⟩
  rw [List.eq_nil_iff_forall_not_mem]
  rintro ⟨path, account, time, t⟩ hmem
  obtain ⟨n, hostKey, f, hf, hsize, rfl, -, hshown⟩ :=
    haudited.mem_completenessQuery_iff.1 ⟨account, t, hmem⟩
  exact not_shownNoTrace hcomplete hrestored hnd hf hsize hshown

/-- **A file that is missing from a listing** is reported. -/
theorem dropboxVerdict_of_traffic_keptAlive : ∃ ys st,
    uploadThenList.traffic.LogsAs .dropbox uncompressTwoFiles dropboxStore .init
      ⟨true, true, true, true⟩ twoRowPlatform (fun _ ↦ .zero) (fun _ ↦ some someSignature) ys st ∧
    ∃ account t, (ascii "/b", account, 1, t) ∈ st.db.content.completenessQuery := by
  obtain ⟨ys, st, xs, hlogs, hxs, hquery, -⟩ := dropboxVerdict_of_traffic uploadThenList.traffic
    (by decide +kernel) (show (⟨true, true, true, true⟩ : BuildConfig).doInsert = true from rfl)
    twoRowPlatform (fun _ ↦ .zero) (fun _ ↦ ⟨8191, by decide, by decide, rfl⟩)
    (fun _ ↦ some someSignature) fun _ _ ↦ rfl
  rw [exchangesOf_of_logsAs hlogs] at hxs
  obtain rfl : xs = [.commit uploadRequest uploadReply, uploadListed] := hxs
  have hupload : Uploads [.commit uploadRequest uploadReply, uploadListed] 0 (ascii "K")
      ⟨ascii "/b", 1, ascii "y"⟩ := ⟨_, _, rfl, rfl, List.mem_singleton_self _⟩
  have hlist : Lists [.commit uploadRequest uploadReply, uploadListed] 1 (ascii "K")
      ⟨ascii "/z", 2, ascii "x"⟩ := ⟨_, _, rfl, rfl, List.mem_singleton_self _⟩
  refine ⟨ys, st, hlogs, (hquery _ _).2 ⟨0, _, _, hupload, by decide, rfl, rfl, ascii "K",
    ⟨1, _, ⟨Nat.one_pos, fun m hm hlt ↦ ?_⟩, hlist⟩, ?_⟩⟩
  · -- nothing is deleted
    obtain ⟨⟨key, d, ⟨req, rsp, hx, -, hd⟩, hsize, -⟩, -⟩ := hm
    rcases m with - | - | m
    · exact absurd hlt (lt_irrefl 0)
    · cases hx
    · cases hx
  · rintro j g - ⟨req, rsp, hx, -, hg⟩
    rcases j with - | - | j
    · cases hx
    · cases hx
      rw [List.mem_singleton.1 hg]
      decide
    · cases hx

end LibSeal
