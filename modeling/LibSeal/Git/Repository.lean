import LibSeal.Git.Pack
import Mathlib.Data.List.Infix

/-!
# The repository in a request line

`gitGetRepository` takes for the repository what stands between the method and the first occurrence
of a marker, wherever it occurs: `git-receive-pack` in a `POST` line, `info/refs?service=` and the
name of the service in a `GET` line. Three request lines belong to a path: the push, and the two for
the references (`postLine`, `getReceiveLine`, `getUploadLine`).

All three name the repository by its path and a slash exactly if no marker occurs in the path
(`namedAlike_iff`). A marker cannot occur across the end of the path, because the slash that follows
it is not where a marker could have one.
-/

namespace LibSeal

open Bytes

/-! ### Request lines -/

/-- The name of the service that takes pushes. -/
def receiveMarker : Bytes := ascii "git-receive-pack"

/-- What asks for the references in order to push. -/
def refsReceiveMarker : Bytes := ascii "info/refs?service=git-receive-pack"

/-- What asks for the references in order to fetch. -/
def refsUploadMarker : Bytes := ascii "info/refs?service=git-upload-pack"

/-- The line of a push to the repository at `path`, ending with `tail`. -/
def postLine (path tail : Bytes) : Bytes :=
  ascii "POST" ++ ' '.toUInt8 :: (path ++ '/'.toUInt8 :: (receiveMarker ++ tail))

/-- The line that asks for the references in order to push. -/
def getReceiveLine (path tail : Bytes) : Bytes :=
  ascii "GET" ++ ' '.toUInt8 :: (path ++ '/'.toUInt8 :: (refsReceiveMarker ++ tail))

/-- The line that asks for the references in order to fetch. -/
def getUploadLine (path tail : Bytes) : Bytes :=
  ascii "GET" ++ ' '.toUInt8 :: (path ++ '/'.toUInt8 :: (refsUploadMarker ++ tail))

/-- A request with the line is about the repository. -/
def Names (line repository : Bytes) : Prop :=
  ∀ (event : Event) (param : Param), event.getParam .http httpHeaderRequest = some param →
    param.getValueString = line → gitGetRepository event = .ok repository

/-- The three lines of a path, with whatever follows in them, name its repository by the path and a
slash. -/
def NamedAlike (path postTail receiveTail uploadTail : Bytes) : Prop :=
  Names (getReceiveLine path receiveTail) (path ++ ascii "/") ∧
    Names (getUploadLine path uploadTail) (path ++ ascii "/") ∧
      Names (postLine path postTail) (path ++ ascii "/")

theorem names_iff {line repository : Bytes} :
    Names line repository ↔ repositoryOf line = .ok repository := by
  constructor
  · intro h
    exact h (Event.add .empty ⟨.http, httpHeaderRequest, .string line⟩) _
      (Event.getParam_add_self _ _) rfl
  · intro h event param hparam hline
    rw [gitGetRepository, hparam, ← h, ← hline]

/-! ### Where the markers are found -/

/-- The markers in a `GET` line have a slash themselves. What stands behind it in the marker is not
what stands behind the slash that ends the path. -/
theorem find_marker_path {marker v rest : Bytes}
    (hmarker : marker = ascii "info" ++ '/'.toUInt8 :: v)
    (hv : '/'.toUInt8 ∉ v) (hrest : ¬ v <+: rest) (path : Bytes) :
    find marker (path ++ '/'.toUInt8 :: rest) =
      (find marker path).or ((find marker rest).map (· + (path.length + 1))) := by
  have hslash : find marker ('/'.toUInt8 :: rest) = (find marker rest).map (· + 1) := by
    rw [hmarker]
    rfl
  rw [find_append ?_, hslash, Option.map_map]
  · simp only [Function.comp_def, Nat.add_assoc, Nat.add_comm 1]
  · intro u _ _ hpre
    rcases List.prefix_or_prefix_of_prefix hpre (List.prefix_append u _) with hu | ⟨w, hw⟩
    · exact hu
    · rcases w with - | ⟨c, w⟩
      · exact ⟨[], by rw [List.append_nil, ← hw, List.append_nil]⟩
      · -- the slash behind the path is the one in the marker
        rw [← hw, List.prefix_append_right_inj, List.cons_prefix_cons] at hpre
        obtain ⟨rfl, hwrest⟩ := hpre
        obtain ⟨-, -, rfl⟩ := (List.append_cons_inj_of_notMem (by decide) hv).1
          (hmarker.symm.trans hw.symm)
        exact absurd hwrest hrest

/-- No marker begins inside the marker of the other service. -/
theorem find_refsReceiveMarker_append (t : Bytes) :
    find refsReceiveMarker (refsUploadMarker ++ t) =
      (find refsReceiveMarker t).map (· + refsUploadMarker.length) := by
  have hnone : find refsReceiveMarker refsUploadMarker = none := rfl
  have hmismatch : ∀ u ∈ refsUploadMarker.tails, u ≠ [] → ¬ u <+: refsReceiveMarker := by
    decide +kernel
  rw [find_append, hnone]
  · rfl
  · intro u hu hne hpre
    rcases List.prefix_or_prefix_of_prefix hpre (List.prefix_append u t) with h | h
    · exact h
    · exact absurd h (hmismatch u ((List.mem_tails u _).2 hu) hne)

/-! ### What is cut out -/

/-- The path and the slash are cut out exactly if the first marker is behind them. -/
theorem cutRepository_eq_iff {method path rest : Bytes} (hrest : rest ≠ []) (found : Option ℕ) :
    cutRepository (method ++ ' '.toUInt8 :: (path ++ '/'.toUInt8 :: rest)) (method.length + 1)
        (found.map (· + (method.length + 1))) = .ok (path ++ ascii "/") ↔
      found = some (path.length + 1) := by
  rcases found with - | i
  · simp [cutRepository, ascii]
  · have hdrop : (method ++ ' '.toUInt8 :: (path ++ '/'.toUInt8 :: rest)).drop (method.length + 1) =
        path ++ '/'.toUInt8 :: rest := by
      rw [← List.drop_drop, List.drop_left]
      rfl
    have hcut : cutRepository (method ++ ' '.toUInt8 :: (path ++ '/'.toUInt8 :: rest))
        (method.length + 1) (some (i + (method.length + 1))) =
          .ok ((path ++ '/'.toUInt8 :: rest).take i) := by
      rw [cutRepository, if_pos (Nat.le_add_left _ _), Nat.add_sub_cancel, substr, hdrop, if_neg]
      simp
    rw [Option.map_some, hcut, Except.ok.injEq, Option.some.injEq]
    constructor
    · intro htake
      have hlen := congrArg List.length htake
      have hpos := List.length_pos_of_ne_nil hrest
      simp only [List.length_take, List.length_append, List.length_cons] at hlen
      have hslash : (ascii "/").length = 1 := rfl
      omega
    · rintro rfl
      rw [List.take_length_add_append]
      rfl

/-- Where the path and the slash are cut out, the marker is not in the path. -/
theorem or_eq_some_iff {found : Option ℕ} {n : ℕ} (hfound : ∀ i ∈ found, i < n) :
    found.or (some n) = some n ↔ found = none := by
  rcases found with - | i
  · simp
  · simpa using (hfound i rfl).ne

/-! ### The three lines -/

theorem repositoryOf_post (rest : Bytes) :
    repositoryOf (ascii "POST" ++ rest) =
      cutRepository (ascii "POST" ++ rest) ((ascii "POST").length + 1)
        (findEither receiveMarker (ascii "git-upload-pack") (ascii "POST" ++ rest)) := by
  rw [repositoryOf, if_pos (startsWith_iff.2 (List.prefix_append _ _))]
  rfl

theorem repositoryOf_get (rest : Bytes) :
    repositoryOf (ascii "GET" ++ rest) =
      cutRepository (ascii "GET" ++ rest) ((ascii "GET").length + 1)
        (findEither refsReceiveMarker refsUploadMarker (ascii "GET" ++ rest)) := by
  have hget : ascii "GET" <+: ascii "GET" ++ rest := List.prefix_append _ _
  have hpost : startsWith (ascii "GET" ++ rest) (ascii "POST") = false :=
    startsWith_eq_false hget (by decide) (by decide)
  rw [repositoryOf, hpost, if_neg Bool.false_ne_true, if_pos (startsWith_iff.2 hget)]
  rfl

theorem findEither_of_some {s t line : Bytes} {found : Option ℕ} {n k : ℕ}
    (h : find s line = (found.or (some n)).map (· + k)) :
    findEither s t line = (found.or (some n)).map (· + k) := by
  rw [findEither, h]
  rcases found <;> rfl

theorem names_postLine_iff (path tail : Bytes) :
    Names (postLine path tail) (path ++ ascii "/") ↔ ¬ receiveMarker <:+: path := by
  have hne : receiveMarker ≠ [] := List.cons_ne_nil _ _
  have hfind : find receiveMarker (postLine path tail) =
      ((find receiveMarker path).or (some (path.length + 1))).map
        (· + ((ascii "POST").length + 1)) := by
    have hspace : ' '.toUInt8 ∉ receiveMarker := notMem_of_elem rfl
    have hslash : '/'.toUInt8 ∉ receiveMarker := notMem_of_elem rfl
    have hmethod : find receiveMarker (ascii "POST") = none := rfl
    rw [postLine, find_append_cons hspace hne, hmethod, find_append_cons hslash hne,
      find_append_self, Option.none_or, Option.map_some, Nat.zero_add]
  rw [names_iff, postLine, repositoryOf_post, ← postLine, findEither_of_some hfind, postLine,
    cutRepository_eq_iff (List.append_ne_nil_of_left_ne_nil hne tail),
    or_eq_some_iff fun i hi ↦ Nat.lt_succ_of_lt (find_lt hne hi), find_eq_none_iff]

/-- What is found in a `GET` line. -/
theorem find_getLine {marker v rest : Bytes} (hmarker : marker = ascii "info" ++ '/'.toUInt8 :: v)
    (hspace : ' '.toUInt8 ∉ marker) (hv : '/'.toUInt8 ∉ v) (hrest : ¬ v <+: rest) (path : Bytes) :
    find marker (ascii "GET" ++ ' '.toUInt8 :: (path ++ '/'.toUInt8 :: rest)) =
      ((find marker path).or ((find marker rest).map (· + (path.length + 1)))).map
        (· + ((ascii "GET").length + 1)) := by
  have hne : marker ≠ [] := by
    rw [hmarker]
    exact List.cons_ne_nil _ _
  have hmethod : find marker (ascii "GET") = none := by
    rw [hmarker]
    rfl
  rw [find_append_cons hspace hne, hmethod, find_marker_path hmarker hv hrest, Option.none_or]

theorem find_refsReceiveMarker_getLine {rest : Bytes}
    (hrest : ¬ ascii "refs?service=git-receive-pack" <+: rest) (path : Bytes) :
    find refsReceiveMarker (ascii "GET" ++ ' '.toUInt8 :: (path ++ '/'.toUInt8 :: rest)) =
      ((find refsReceiveMarker path).or
        ((find refsReceiveMarker rest).map (· + (path.length + 1)))).map
          (· + ((ascii "GET").length + 1)) :=
  find_getLine rfl (notMem_of_elem rfl) (notMem_of_elem rfl) hrest path

theorem find_refsUploadMarker_getLine {rest : Bytes}
    (hrest : ¬ ascii "refs?service=git-upload-pack" <+: rest) (path : Bytes) :
    find refsUploadMarker (ascii "GET" ++ ' '.toUInt8 :: (path ++ '/'.toUInt8 :: rest)) =
      ((find refsUploadMarker path).or
        ((find refsUploadMarker rest).map (· + (path.length + 1)))).map
          (· + ((ascii "GET").length + 1)) :=
  find_getLine rfl (notMem_of_elem rfl) (notMem_of_elem rfl) hrest path

/-- No marker goes on with what another begins with. -/
theorem not_prefix_marker {v marker : Bytes} {b c : UInt8} (hv : v.head? = some b)
    (hmarker : marker.head? = some c) (hbc : b ≠ c) (t : Bytes) : ¬ v <+: marker ++ t := by
  rintro ⟨r, hr⟩
  rcases v with - | ⟨b', v⟩
  · cases hv
  · rcases marker with - | ⟨c', marker⟩
    · cases hmarker
    · cases hv
      cases hmarker
      exact hbc (List.cons.inj hr).1

theorem names_getReceiveLine_iff (path tail : Bytes) :
    Names (getReceiveLine path tail) (path ++ ascii "/") ↔ ¬ refsReceiveMarker <:+: path := by
  have hne : refsReceiveMarker ≠ [] := List.cons_ne_nil _ _
  have hfind : find refsReceiveMarker (getReceiveLine path tail) =
      ((find refsReceiveMarker path).or (some (path.length + 1))).map
        (· + ((ascii "GET").length + 1)) := by
    rw [getReceiveLine, find_refsReceiveMarker_getLine (not_prefix_marker rfl rfl (by decide) tail),
      find_append_self, Option.map_some, Nat.zero_add]
  rw [names_iff, getReceiveLine, repositoryOf_get, ← getReceiveLine, findEither_of_some hfind,
    getReceiveLine, cutRepository_eq_iff (List.append_ne_nil_of_left_ne_nil hne tail),
    or_eq_some_iff fun i hi ↦ Nat.lt_succ_of_lt (find_lt hne hi), find_eq_none_iff]

/-- The line of a fetch is searched for the marker of pushes first, to its end. -/
theorem names_getUploadLine_iff (path tail : Bytes) :
    Names (getUploadLine path tail) (path ++ ascii "/") ↔
      ¬ refsReceiveMarker <:+: path ∧ ¬ refsUploadMarker <:+: path ∧
        ¬ refsReceiveMarker <:+: tail := by
  have hne : refsReceiveMarker ≠ [] := List.cons_ne_nil _ _
  have hne' : refsUploadMarker ≠ [] := List.cons_ne_nil _ _
  -- where the markers are found, in the path and behind it
  have hreceive : find refsReceiveMarker (getUploadLine path tail) =
      ((find refsReceiveMarker path).or ((find refsReceiveMarker tail).map
        (· + (refsUploadMarker.length + (path.length + 1))))).map
          (· + ((ascii "GET").length + 1)) := by
    rw [getUploadLine, find_refsReceiveMarker_getLine (not_prefix_marker rfl rfl (by decide) tail),
      find_refsReceiveMarker_append, Option.map_map]
    simp only [Function.comp_def, Nat.add_assoc]
  have hupload : find refsUploadMarker (getUploadLine path tail) =
      ((find refsUploadMarker path).or (some (path.length + 1))).map
        (· + ((ascii "GET").length + 1)) := by
    rw [getUploadLine, find_refsUploadMarker_getLine (not_prefix_marker rfl rfl (by decide) tail),
      find_append_self, Option.map_some, Nat.zero_add]
  have hcut : ∀ found, cutRepository (getUploadLine path tail) ((ascii "GET").length + 1)
      (found.map (· + ((ascii "GET").length + 1))) = .ok (path ++ ascii "/") ↔
        found = some (path.length + 1) :=
    cutRepository_eq_iff (List.append_ne_nil_of_left_ne_nil hne' tail)
  rw [names_iff, ← find_eq_none_iff, ← find_eq_none_iff, ← find_eq_none_iff]
  have hline : repositoryOf (getUploadLine path tail) = _ := repositoryOf_get _
  rw [hline, ← getUploadLine, findEither, hreceive]
  rcases hpath : find refsReceiveMarker path with - | i
  · rcases htail : find refsReceiveMarker tail with - | j
    · simp only [Option.map_none, Option.or_none, true_and, and_true]
      rw [hupload, hcut, or_eq_some_iff fun i hi ↦ Nat.lt_succ_of_lt (find_lt hne' hi)]
    · -- a marker behind the path is taken for the end of the repository
      refine iff_of_false (fun hcuts ↦ ?_) (by simp)
      have hmarker := Option.some.inj
        ((hcut (some (j + (refsUploadMarker.length + (path.length + 1))))).1 hcuts)
      have hpos := List.length_pos_of_ne_nil hne'
      omega
  · refine iff_of_false (fun hcuts ↦ ?_) (by simp)
    have hmarker := Option.some.inj ((hcut (some i)).1 hcuts)
    have hlt := find_lt hne hpath
    omega

/-! ### Paths -/

/-- **The lines of a path name one repository exactly if no marker is in the path** (nor, for the
line of a fetch, behind the marker that it has). The marker of a `POST` line is part of the longer
one for pushes. -/
theorem namedAlike_iff (path postTail receiveTail uploadTail : Bytes) :
    NamedAlike path postTail receiveTail uploadTail ↔
      ¬ receiveMarker <:+: path ∧ ¬ refsUploadMarker <:+: path ∧
        ¬ refsReceiveMarker <:+: uploadTail := by
  have hmarker : receiveMarker <:+: refsReceiveMarker :=
    ⟨ascii "info/refs?service=", [], rfl⟩
  rw [NamedAlike, names_getReceiveLine_iff, names_getUploadLine_iff, names_postLine_iff]
  constructor
  · rintro ⟨-, ⟨-, hupload, htail⟩, hpost⟩
    exact ⟨hpost, hupload, htail⟩
  · rintro ⟨hpost, hupload, htail⟩
    have hreceive : ¬ refsReceiveMarker <:+: path := fun h ↦ hpost (hmarker.trans h)
    exact ⟨hreceive, ⟨hreceive, hupload, htail⟩, hpost⟩

/-- **A repository whose pushes are logged under another name**: a path with a marker in it. -/
theorem not_namedAlike_nested :
    ¬ ∀ path : Bytes, ' '.toUInt8 ∉ path →
      NamedAlike path (ascii " HTTP/1.1") (ascii " HTTP/1.1") (ascii " HTTP/1.1") := by
  intro h
  have hnamed := h (ascii "/a/git-receive-pack/b") (notMem_of_elem rfl)
  have hpost : repositoryOf (postLine (ascii "/a/git-receive-pack/b") (ascii " HTTP/1.1")) =
      .ok (ascii "/a/") := rfl
  rw [NamedAlike, names_iff, names_iff, names_iff, hpost] at hnamed
  exact absurd hnamed.2.2 (by decide +kernel)

/-- **Pushes to one repository are not taken for pushes to another**, where the lines of both
name them alike. -/
theorem named_inj {path path' name : Bytes} {t₁ t₂ t₃ t₁' t₂' t₃' : Bytes}
    (h : NamedAlike path t₁ t₂ t₃) (h' : NamedAlike path' t₁' t₂' t₃')
    (hpost : Names (postLine path t₁) name) (hget : Names (getUploadLine path' t₃') name) :
    path = path' := by
  have heq := (names_iff.1 h.2.2).symm.trans (names_iff.1 hpost)
  have heq' := (names_iff.1 h'.2.1).symm.trans (names_iff.1 hget)
  exact List.append_cancel_right (Except.ok.inj (heq.trans heq'.symm))

end LibSeal
