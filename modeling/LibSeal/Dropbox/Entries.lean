import LibSeal.Auditing.JsonHelper
import LibSeal.Dropbox.Brackets

/-!
# The entries of an array of files

The loop over the tokens knows no entries. It takes the strings `blocklist`, `path` and `size` for
keys wherever they stand, and makes a statement out of every three of them. So an entry that lacks
one of them takes it from the next (`not_parseList_eq_mixed`), and all that follow are shifted.

`FileEntries` says which arrays are read as they are meant: those whose entries have all three keys
or none, or at the end fewer than three together, and have the three names nowhere else but as the
value of such a key.
-/

namespace LibSeal

open Bytes Json

/-! ### The loop on what is read of the tokens -/

/-- What `FileFields.set` makes of a key and its value. -/
def FileFields.setView (f : FileFields) (field : Bytes × JsonView) : FileFields :=
  f.set field.1 field.2.string field.2.int

/-- `fileLoop`, on what is read of the tokens. -/
def viewLoop (hostKey : Bytes) : List JsonView → FileFields → Except CFault (List Bytes)
  | [], _ => .ok []
  | x :: xs, f =>
    if x.string ∈ fileKeys then
      match xs with
      | [] => .error .outOfBounds
      | v :: xs =>
        let (statements, f) := (f.setView (x.string, v)).push hostKey
        (viewLoop hostKey xs f).map (statements ++ ·)
    else
      let (statements, f) := f.push hostKey
      (viewLoop hostKey xs f).map (statements ++ ·)

section Loop

variable {hostKey : Bytes} {f : FileFields}

theorem viewLoop_key {x v : JsonView} (hx : x.string ∈ fileKeys) (xs : List JsonView) :
    viewLoop hostKey (x :: v :: xs) f =
      (viewLoop hostKey xs ((f.setView (x.string, v)).push hostKey).2).map
        (((f.setView (x.string, v)).push hostKey).1 ++ ·) := if_pos hx

theorem viewLoop_other {x : JsonView} (hx : x.string ∉ fileKeys) (xs : List JsonView) :
    viewLoop hostKey (x :: xs) f =
      (viewLoop hostKey xs (f.push hostKey).2).map ((f.push hostKey).1 ++ ·) := by
  rw [viewLoop.eq_def]
  exact if_neg hx

end Loop

theorem fileLoop_eq_viewLoop (hostKey str : Bytes) (tokens : List JsmnTok) (f : FileFields) :
    fileLoop hostKey str tokens f = viewLoop hostKey (tokens.map (JsmnTok.view str)) f := by
  induction tokens, f using fileLoop.induct hostKey str with
  | case1 f => rfl
  | case2 t f key hkey => exact (if_pos hkey).trans (if_pos hkey).symm
  | case3 t f key hkey v tokens statements f' hpush ih =>
    have hview : (f.setView ((t.view str).string, v.view str)).push hostKey = (statements, f') :=
      hpush
    have hloop : fileLoop hostKey str (t :: v :: tokens) f =
        (fileLoop hostKey str tokens ((f.set key (jsonGetString v str)
          (jsonGetInt v str)).push hostKey).2).map (((f.set key (jsonGetString v str)
            (jsonGetInt v str)).push hostKey).1 ++ ·) := if_pos hkey
    rw [hloop, List.map_cons, List.map_cons, viewLoop_key hkey, hview, hpush, ih]
  | case4 t tokens f key hkey statements f' hpush ih =>
    have hloop : fileLoop hostKey str (t :: tokens) f =
        (fileLoop hostKey str tokens (f.push hostKey).2).map ((f.push hostKey).1 ++ ·) := by
      rw [fileLoop.eq_def]
      exact if_neg hkey
    rw [hloop, List.map_cons, viewLoop_other hkey, hpush, ih]

/-! ### Fields -/

/-- What is read of a value, in its first token. -/
def valueView (v : Json) : JsonView := (valueViews v).headD (.container .undefined 0)

/-- The loop at a key and its value. -/
def FileFields.setField (f : FileFields) (field : List StringChar × Json) : FileFields :=
  f.setView (stringText field.1, valueView field.2)

/-- A key is one of the three names, as it is written. -/
def isFileKey (field : List StringChar × Json) : Bool := decide (stringText field.1 ∈ fileKeys)

/-- Nothing that is read of a value is one of the names. -/
def NoNames (v : Json) : Prop := ∀ x ∈ valueViews v, x.string ∉ fileKeys

instance (v : Json) : Decidable (NoNames v) :=
  inferInstanceAs (Decidable (∀ x ∈ valueViews v, x.string ∉ fileKeys))

/-- The names are nothing but keys with a value of one token, and such values. -/
def OnlyKeys (fields : Fields) : Prop :=
  ∀ field ∈ fields, if isFileKey field then Scalar field.2 else NoNames field.2

theorem onlyKeys_cons {field : List StringChar × Json} {fields : Fields}
    (hkey : isFileKey field = true) (hv : Scalar field.2) (h : OnlyKeys fields) :
    OnlyKeys (field :: fields) := by
  intro x hx
  rcases List.mem_cons.1 hx with rfl | hx
  · rwa [if_pos hkey]
  · exact h x hx

section Loop

variable {hostKey : Bytes} {f : FileFields}

theorem push_of_lt (hf : f.done < 3) : f.push hostKey = ([], f) := if_neg (by omega)

theorem push_of_eq (hf : f.done = 3) :
    f.push hostKey =
      ([fileStatement hostKey f.path f.size f.blocklist], { f with done := 0 }) := if_pos hf

theorem map_nil_append (x : Except CFault (List Bytes)) : x.map ([] ++ ·) = x := by
  cases x <;> rfl

theorem done_setField {field : List StringChar × Json} (h : isFileKey field = true) :
    (f.setField field).done = f.done + 1 := by
  have hkey : stringText field.1 ∈ fileKeys := of_decide_eq_true h
  simp only [fileKeys, List.mem_cons, List.not_mem_nil, or_false] at hkey
  rcases hkey with h | h | h <;>
    · rw [FileFields.setField, FileFields.setView, FileFields.set, h]
      rfl

theorem done_foldl_setField {fields : Fields} (h : ∀ field ∈ fields, isFileKey field = true) :
    (fields.foldl FileFields.setField f).done = f.done + fields.length := by
  induction fields generalizing f with
  | nil => rfl
  | cons field fields ih =>
    rw [List.foldl_cons, ih fun x hx ↦ h x (List.mem_cons_of_mem field hx),
      done_setField (h field List.mem_cons_self), List.length_cons]
    omega

/-- The loop does nothing where there are no names. -/
theorem viewLoop_append {xs : List JsonView} (h : ∀ x ∈ xs, x.string ∉ fileKeys) (hf : f.done < 3)
    (ys : List JsonView) : viewLoop hostKey (xs ++ ys) f = viewLoop hostKey ys f := by
  induction xs with
  | nil => rfl
  | cons x xs ih =>
    rw [List.cons_append, viewLoop_other (h x List.mem_cons_self), push_of_lt hf, map_nil_append,
      ih fun y hy ↦ h y (List.mem_cons_of_mem x hy)]

/-- A field with one of the names. -/
theorem viewLoop_field {field : List StringChar × Json} (hkey : isFileKey field = true)
    (hv : Scalar field.2) (R : List JsonView) :
    viewLoop hostKey (fieldViews [field] ++ R) f =
      (viewLoop hostKey R ((f.setField field).push hostKey).2).map
        (((f.setField field).push hostKey).1 ++ ·) := by
  obtain ⟨x, hx, -⟩ := exists_valueViews_of_scalar hv
  have hviews : fieldViews [field] ++ R = .chars 1 field.1 :: x :: R := by
    rw [fieldViews, List.flatMap_cons, hx]
    rfl
  have hset : f.setView (stringText field.1, x) = f.setField field := by
    rw [FileFields.setField, valueView, hx]
    rfl
  rw [hviews, viewLoop_key (x := .chars 1 field.1) (of_decide_eq_true hkey), ← hset]
  rfl

/-- A field with another name. -/
theorem viewLoop_otherField {field : List StringChar × Json} (hkey : isFileKey field = false)
    (hv : NoNames field.2) (hf : f.done < 3) (R : List JsonView) :
    viewLoop hostKey (fieldViews [field] ++ R) f = viewLoop hostKey R f := by
  refine viewLoop_append (fun x hx ↦ ?_) hf R
  rw [fieldViews, List.flatMap_singleton] at hx
  rcases List.mem_cons.1 hx with rfl | hx
  · exact of_decide_eq_false hkey
  · exact hv x hx

theorem fieldViews_cons (field : List StringChar × Json) (fields : Fields) :
    fieldViews (field :: fields) = fieldViews [field] ++ fieldViews fields := by
  rw [fieldViews, fieldViews, List.flatMap_cons, List.flatMap_singleton, fieldViews]

/-- Too few fields have one of the names for a statement. -/
theorem viewLoop_fields {fields : Fields} (h : OnlyKeys fields)
    (hfew : f.done + (fields.filter isFileKey).length < 3) (R : List JsonView) :
    viewLoop hostKey (fieldViews fields ++ R) f =
      viewLoop hostKey R ((fields.filter isFileKey).foldl FileFields.setField f) := by
  induction fields generalizing f with
  | nil => rfl
  | cons field fields ih =>
    have hfield := h field List.mem_cons_self
    have htail : OnlyKeys fields := fun x hx ↦ h x (List.mem_cons_of_mem field hx)
    rw [fieldViews_cons, List.append_assoc]
    by_cases hkey : isFileKey field = true
    · rw [List.filter_cons_of_pos hkey, List.length_cons] at hfew
      rw [if_pos hkey] at hfield
      have hdone := done_setField (f := f) hkey
      have htail' := ih (f := f.setField field) htail (by omega)
      rw [viewLoop_field hkey hfield, push_of_lt (by omega), map_nil_append, htail',
        List.filter_cons_of_pos hkey, List.foldl_cons]
    · rw [List.filter_cons_of_neg hkey] at hfew
      rw [if_neg hkey] at hfield
      rw [viewLoop_otherField (Bool.eq_false_iff.2 hkey) hfield (by omega), ih htail hfew,
        List.filter_cons_of_neg hkey]

/-- The last field with one of the names makes a statement. -/
theorem viewLoop_fields_of_complete {fields : Fields} (h : OnlyKeys fields) (hf : f.done < 3)
    (hall : f.done + (fields.filter isFileKey).length = 3) (R : List JsonView) :
    let g := (fields.filter isFileKey).foldl FileFields.setField f
    viewLoop hostKey (fieldViews fields ++ R) f =
      (viewLoop hostKey R { g with done := 0 }).map
        (fileStatement hostKey g.path g.size g.blocklist :: ·) := by
  induction fields generalizing f with
  | nil =>
    rw [List.filter_nil, List.length_nil] at hall
    omega
  | cons field fields ih =>
    have hfield := h field List.mem_cons_self
    have htail : OnlyKeys fields := fun x hx ↦ h x (List.mem_cons_of_mem field hx)
    rw [fieldViews_cons, List.append_assoc]
    by_cases hkey : isFileKey field = true
    · rw [List.filter_cons_of_pos hkey, List.length_cons] at hall
      rw [if_pos hkey] at hfield
      have hdone := done_setField (f := f) hkey
      rw [viewLoop_field hkey hfield, List.filter_cons_of_pos hkey, List.foldl_cons]
      by_cases hlast : (f.setField field).done = 3
      · -- the third field completes the statement, and the others are skipped
        have hfew : 0 + (fields.filter isFileKey).length < 3 := by omega
        have hnone : fields.filter isFileKey = [] := List.length_eq_zero_iff.1 (by omega)
        have hrest : viewLoop hostKey (fieldViews fields ++ R) { f.setField field with done := 0 } =
            viewLoop hostKey R _ := viewLoop_fields htail hfew R
        rw [push_of_eq hlast, hrest, hnone]
        rfl
      · have hrest := ih (f := f.setField field) htail (by omega) (by omega)
        rw [push_of_lt (by omega), map_nil_append, hrest]
    · rw [List.filter_cons_of_neg hkey] at hall
      rw [if_neg hkey] at hfield
      rw [viewLoop_otherField (Bool.eq_false_iff.2 hkey) hfield hf, ih htail hf hall,
        List.filter_cons_of_neg hkey]

end Loop

/-! ### Entries -/

/-- An entry with the three keys, and its row. -/
inductive FileEntry (hostKey : Bytes) : Json → Bytes → Prop where
  | mk {members : JsonMembers} {kp ks kb : List StringChar} {vp vs vb : Json}
    {path blocklist : Bytes} {size : ℤ} (hfields : OnlyKeys members.toList)
    (hkeys : (members.toList.filter isFileKey).Perm [(kp, vp), (ks, vs), (kb, vb)])
    (hkp : stringText kp = ascii "path") (hks : stringText ks = ascii "size")
    (hkb : stringText kb = ascii "blocklist") (hvp : TextValue vp path) (hvs : IntValue vs size)
    (hvb : TextValue vb blocklist) :
    FileEntry hostKey (.object members) (fileStatement hostKey path size blocklist)

/-- The fields of an entry with one of the names. -/
def entryKeys : Json → Fields
  | .object members => members.toList.filter isFileKey
  | _ => []

/-- The names are nothing but keys of an entry, and the values of such keys. -/
def PlainEntry : Json → Prop
  | .object members => OnlyKeys members.toList
  | v => NoNames v

/-- Entries with all three keys or none, and at the end some with fewer than three together; and the
rows of those with all three. -/
inductive FileEntries (hostKey : Bytes) : List Json → List Bytes → Prop where
  | file {v : Json} {items : List Json} {row : Bytes} {rows : List Bytes}
    (hv : FileEntry hostKey v row) (h : FileEntries hostKey items rows) :
    FileEntries hostKey (v :: items) (row :: rows)
  | other {v : Json} {items : List Json} {rows : List Bytes} (hv : NoNames v)
    (h : FileEntries hostKey items rows) : FileEntries hostKey (v :: items) rows
  | few {items : List Json} (hplain : ∀ v ∈ items, PlainEntry v)
    (hfew : (items.flatMap entryKeys).length < 3) : FileEntries hostKey items []

section Entries

variable {hostKey : Bytes} {f : FileFields}

theorem IntValue.int_valueView {v : Json} {n : ℤ} (h : IntValue v n) : (valueView v).int = n := by
  obtain ⟨x, hx, hint⟩ := h.exists_view
  rw [valueView, hx]
  exact hint

theorem TextValue.string_valueView {v : Json} {s : Bytes} (h : TextValue v s) :
    (valueView v).string = s := by
  obtain ⟨x, hx, hstring⟩ := h.exists_view
  rw [valueView, hx]
  exact hstring

theorem setField_path {k : List StringChar} (h : stringText k = ascii "path") (v : Json) :
    f.setField (k, v) = { f with path := (valueView v).string, done := f.done + 1 } := by
  rw [FileFields.setField, FileFields.setView, FileFields.set, h]
  rfl

theorem setField_size {k : List StringChar} (h : stringText k = ascii "size") (v : Json) :
    f.setField (k, v) = { f with size := (valueView v).int, done := f.done + 1 } := by
  rw [FileFields.setField, FileFields.setView, FileFields.set, h]
  rfl

theorem setField_blocklist {k : List StringChar} (h : stringText k = ascii "blocklist")
    (v : Json) :
    f.setField (k, v) = { f with blocklist := (valueView v).string, done := f.done + 1 } := by
  rw [FileFields.setField, FileFields.setView, FileFields.set, h]
  rfl

/-- The three keys may be set in any order. -/
theorem foldl_setField_of_perm {fields : Fields} {kp ks kb : List StringChar} {vp vs vb : Json}
    (hperm : fields.Perm [(kp, vp), (ks, vs), (kb, vb)]) (hkp : stringText kp = ascii "path")
    (hks : stringText ks = ascii "size") (hkb : stringText kb = ascii "blocklist") :
    fields.foldl FileFields.setField f = ⟨f.done + 3, (valueView vs).int, (valueView vp).string,
      (valueView vb).string⟩ := by
  rw [hperm.foldl_eq' fun x hx y hy g ↦ ?_]
  · rw [List.foldl_cons, List.foldl_cons, List.foldl_cons, List.foldl_nil, setField_path hkp,
      setField_size hks, setField_blocklist hkb]
  · have hmem : ∀ z ∈ fields, z = (kp, vp) ∨ z = (ks, vs) ∨ z = (kb, vb) := fun z hz ↦ by
      simpa using hperm.mem_iff.1 hz
    rcases hmem x hx with rfl | rfl | rfl <;> rcases hmem y hy with rfl | rfl | rfl <;>
      simp only [setField_path hkp, setField_size hks, setField_blocklist hkb]

/-- An object of which no field counts, and what is read of its fields. -/
theorem viewLoop_object (members : JsonMembers) (hf : f.done < 3) (R : List JsonView) :
    viewLoop hostKey (valueViews (.object members) ++ R) f =
      viewLoop hostKey (fieldViews members.toList ++ R) f := by
  have hobject : (JsonView.container .object members.toList.length).string ∉ fileKeys := by
    show [] ∉ fileKeys
    decide
  rw [valueViews, memberViews_eq_fieldViews, List.cons_append, viewLoop_other hobject,
    push_of_lt hf, map_nil_append]

/-- **A step of the loop**: an entry with the three keys makes one row, of its own values. -/
theorem viewLoop_fileEntry {v : Json} {row : Bytes} (h : FileEntry hostKey v row) (hf : f.done = 0)
    (R : List JsonView) :
    ∃ g : FileFields, g.done = 0 ∧ viewLoop hostKey (valueViews v ++ R) f =
      (viewLoop hostKey R g).map (row :: ·) := by
  cases h with
  | @mk members kp ks kb vp vs vb path blocklist size hfields hkeys hkp hks hkb hvp hvs hvb =>
    have hlength : (members.toList.filter isFileKey).length = 3 := hkeys.length_eq
    have hloop : viewLoop hostKey (fieldViews members.toList ++ R) f = _ :=
      viewLoop_fields_of_complete hfields (by omega) (by omega) R
    rw [foldl_setField_of_perm hkeys hkp hks hkb, hvs.int_valueView, hvp.string_valueView,
      hvb.string_valueView] at hloop
    exact ⟨_, rfl, (viewLoop_object members (by omega) R).trans hloop⟩

/-- Entries with too few keys together make no row. -/
theorem viewLoop_few {items : List Json} (hplain : ∀ v ∈ items, PlainEntry v)
    (hfew : f.done + (items.flatMap entryKeys).length < 3) :
    viewLoop hostKey (items.flatMap valueViews) f = .ok [] := by
  induction items generalizing f with
  | nil => rfl
  | cons v items ih =>
    have hv := hplain v List.mem_cons_self
    have hitems : ∀ w ∈ items, PlainEntry w := fun w hw ↦ hplain w (List.mem_cons_of_mem v hw)
    rw [List.flatMap_cons, List.length_append] at hfew
    rw [List.flatMap_cons]
    cases v with
    | object members =>
      have hkeys : ∀ field ∈ members.toList.filter isFileKey, isFileKey field = true :=
        fun field hfield ↦ (List.mem_filter.1 hfield).2
      have hdone := done_foldl_setField (f := f) hkeys
      rw [entryKeys] at hfew
      rw [viewLoop_object members (by omega), viewLoop_fields hv (by omega)]
      exact ih hitems (by omega)
    | literal l => exact (viewLoop_append hv (by omega) _).trans (ih hitems (by omega))
    | string s => exact (viewLoop_append hv (by omega) _).trans (ih hitems (by omega))
    | array entries => exact (viewLoop_append hv (by omega) _).trans (ih hitems (by omega))

/-- **The loop makes the rows of the entries.** -/
theorem viewLoop_entries {items : List Json} {rows : List Bytes}
    (h : FileEntries hostKey items rows) (hf : f.done = 0) :
    viewLoop hostKey (items.flatMap valueViews) f = .ok rows := by
  induction h generalizing f with
  | @file v items row rows hv h ih =>
    obtain ⟨g, hg, hloop⟩ := viewLoop_fileEntry hv hf (items.flatMap valueViews)
    rw [List.flatMap_cons, hloop, ih hg]
    rfl
  | @other v items rows hv h ih => rw [List.flatMap_cons, viewLoop_append hv (by omega), ih hf]
  | @few items hplain hfew => exact viewLoop_few hplain (by omega)

/-- **The statements for an array of files** are the rows of its entries. -/
theorem fileStatements_of_entries (junk : ℕ → JsmnTok) {items : JsonItems} {rows : List Bytes}
    (h : FileEntries hostKey items.toList rows) (before after : List White) :
    fileStatements junk hostKey (documentText before (.array items) after) = .ok rows := by
  have hviews := map_view_jsonReadTokens junk before after (.array items)
  have hnumber := jsonGetNrTokens_text before after (.array items)
  set js := documentText before (.array items) after
  have hpos : ¬ jsonGetNrTokens js ≤ 0 := by
    rw [hnumber, valueToks, List.length_cons]
    omega
  have hhead : (jsonReadTokens junk js (jsonGetNrTokens js)).head?.map JsmnTok.type =
      some .array := by
    have hview := congrArg (fun xs ↦ xs.head?.map JsonView.type) hviews
    simpa [List.head?_map, valueViews, JsonView.container, JsmnTok.view] using hview
  have harray : (JsonView.container .array items.toList.length).string ∉ fileKeys := by
    show [] ∉ fileKeys
    decide
  have hinit : FileFields.init.done < 3 := by decide
  have hpush : FileFields.init.push hostKey = ([], .init) := push_of_lt hinit
  simp only [fileStatements]
  rw [if_neg hpos, if_neg (not_not.2 hhead), fileLoop_eq_viewLoop, hviews, valueViews,
    viewLoop_other harray, hpush, map_nil_append, itemViews_eq_flatMap]
  exact viewLoop_entries h rfl

end Entries

/-! ### Requests and replies -/

/-- White space in front of the array is cut out with it. -/
theorem take_arrayEnd_document {items : JsonItems} {rest : Bytes}
    (h : EndsArray (Json.array items).text rest) (gap : List White) :
    let s := textOf (gap.map .white) ++ ((Json.array items).text ++ rest)
    s.take (arrayEnd 0 s + 1) = documentText gap (.array items) [] := by
  have htake := take_arrayEnd_eq_iff (textOf items.lexemes) rest
  rw [← text_array] at htake
  show List.take _ _ = _
  rw [arrayEnd_append_of_hasNoBrackets (hasNoBrackets_white gap), Nat.add_assoc,
    List.take_length_add_append, htake.2 h, documentText, textOf_append, List.map_nil,
    List.append_nil, Json.text]

/-- The array is found in a reply. -/
theorem listText_eq {content : Bytes} {p : ℕ} {w : White} {gap : List White} {items : JsonItems}
    {rest : Bytes} (hfind : find (ascii "\"list\":") content = some p)
    (hcontent : content.drop (p + 7) =
      w.byte :: (textOf (gap.map .white) ++ ((Json.array items).text ++ rest)))
    (hend : EndsArray (Json.array items).text rest) :
    listText content = .ok (documentText gap (.array items) []) := by
  have hdrop : content.drop (p + 8) =
      textOf (gap.map .white) ++ ((Json.array items).text ++ rest) := by
    have htail := congrArg List.tail hcontent
    rwa [List.tail_drop] at htail
  have hlength : ¬ content.length < p + 8 := by
    intro hlt
    have hlength := congrArg List.length hcontent
    rw [List.length_drop, List.length_cons] at hlength
    omega
  have hpos : posAdd (some p) 8 = p + 8 := rfl
  rw [listText, cutList, hfind, hpos, substr, if_neg hlength, hdrop]
  exact congrArg _ (take_arrayEnd_document hend gap)

/-- The array is found in the buffer, if a NUL stands behind it. -/
theorem commitInfoText_eq {stack : ℕ → UInt8} {before after : List White} {items : JsonItems}
    (hzero : ∃ i, (documentText before (.array items) after).length ≤ i ∧ i < 8192 ∧ stack i = 0)
    (hend : ∀ rest, EndsArray (Json.array items).text rest) :
    commitInfoText stack (documentText before (.array items) after) =
      .ok (documentText before (.array items) []) := by
  set js := documentText before (.array items) after
  set behind := ((List.range 8192).map stack).drop js.length
  have hmem : 0 ∈ behind := by
    obtain ⟨i, hi, hlt, hstack⟩ := hzero
    have hget : ((List.range 8192).map stack)[i]? = some 0 := by
      rw [List.getElem?_map, List.getElem?_range hlt, Option.map_some, hstack]
    refine List.mem_of_getElem? (i := i - js.length) ?_
    rw [List.getElem?_drop, Nat.add_sub_cancel' hi, hget]
  have hcstr : cStr (js ++ behind) = textOf (before.map .white) ++
      ((Json.array items).text ++ (textOf (after.map .white) ++ cStr behind)) := by
    have hjs : 0 ∉ js := zero_notMem_textOf _
    rw [cStr_append hjs]
    simp only [js, documentText, textOf_append, Json.text, List.append_assoc]
  rw [commitInfoText, stringAt, if_pos (List.mem_append_right js hmem), CFault.ok_bind, hcstr]
  exact congrArg _ (take_arrayEnd_document (hend _) before)

/-- Nothing is added to the statements for the files. -/
theorem parseList_eq {junk : ℕ → JsmnTok} {req hostKey : Bytes}
    (hhost : parameterIn (ascii "host_key=") req = .ok hostKey) (content : Bytes) :
    parseList junk req content = (listText content >>= fileStatements junk hostKey) := by
  rw [parseList, hhost, CFault.ok_bind]
  cases listText content with
  | error e => rfl
  | ok list =>
    rw [CFault.ok_bind, CFault.ok_bind]
    cases fileStatements junk hostKey list with
    | error e => rfl
    | ok statements => exact ite_self _

theorem plain_path : ∀ b ∈ ascii "path", b ≠ 0 ∧ b ≠ '"'.toUInt8 ∧ b ≠ '\\'.toUInt8 := by
  decide +kernel

theorem plain_size : ∀ b ∈ ascii "size", b ≠ 0 ∧ b ≠ '"'.toUInt8 ∧ b ≠ '\\'.toUInt8 := by
  decide +kernel

def pathField (path : Bytes) (h : ∀ b ∈ path, b ≠ 0 ∧ b ≠ '"'.toUInt8 ∧ b ≠ '\\'.toUInt8) :
    List StringChar × Json :=
  plainField (ascii "path") plain_path (.string (plainString path h))

def sizeField (size : ℤ) : List StringChar × Json :=
  plainField (ascii "size") plain_size (.literal (.int size))

def blocklistField (blocklist : Bytes)
    (h : ∀ b ∈ blocklist, b ≠ 0 ∧ b ≠ '"'.toUInt8 ∧ b ≠ '\\'.toUInt8) : List StringChar × Json :=
  plainField (ascii "blocklist") (by decide +kernel) (.string (plainString blocklist h))

/-- A file with all three keys. -/
def wholeFile : Json := .object (.compact
  [pathField (ascii "/b") (by decide +kernel), sizeField 1,
    blocklistField (ascii "y") (by decide +kernel)])

/-- A file of which only the path is known. -/
def pathOnlyFile : Json := .object (.compact [pathField (ascii "/c") (by decide +kernel)])

theorem fileEntry_wholeFile :
    FileEntry (ascii "K") wholeFile (fileStatement (ascii "K") (ascii "/b") 1 (ascii "y")) := by
  have hfields : OnlyKeys (JsonMembers.compact [pathField (ascii "/b") (by decide +kernel),
      sizeField 1, blocklistField (ascii "y") (by decide +kernel)]).toList := by
    rw [JsonMembers.toList_compact]
    exact onlyKeys_cons (by decide +kernel) (.string _) (onlyKeys_cons (by decide +kernel)
      (.literal _) (onlyKeys_cons (by decide +kernel) (.string _) (List.forall_mem_nil _)))
  have hkeys : ((JsonMembers.compact [pathField (ascii "/b") (by decide +kernel),
      sizeField 1, blocklistField (ascii "y") (by decide +kernel)]).toList.filter isFileKey).Perm
      [pathField (ascii "/b") (by decide +kernel), sizeField 1,
        blocklistField (ascii "y") (by decide +kernel)] := by
    rw [JsonMembers.toList_compact, List.filter_eq_self.2 (by decide +kernel)]
  exact .mk hfields hkeys (stringText_plainString _ _) (stringText_plainString _ _)
    (stringText_plainString _ _) (textValue_plainString _ _)
    (intValue_int (by decide) (by decide)) (textValue_plainString _ _)

/-- A file with all three keys, and one with the path alone. -/
def twoFiles : List Json := [wholeFile, pathOnlyFile]

/-- What zlib makes of the text of `twoFiles`. -/
def twoFilesCompressed : Bytes :=
  [120, 156, 139, 174, 86, 42, 72, 44, 201, 80, 178, 82, 210, 79, 82, 210, 81, 42, 206, 172, 74, 85,
    178, 50, 212, 81, 74, 202, 201, 79, 206, 206, 201, 44, 46, 1, 202, 84, 42, 213, 234, 32, 148,
    37, 43, 213, 198, 2, 0, 199, 181, 16, 154]

def uncompressTwoFiles (size : ℕ) (z : Bytes) : Option Bytes :=
  let files := documentText [] (.array (.compact twoFiles)) []
  if z = twoFilesCompressed ∧ files.length ≤ size then some files else none

theorem fileEntries_twoFiles :
    FileEntries (ascii "K") (JsonItems.compact twoFiles).toList
      [fileStatement (ascii "K") (ascii "/b") 1 (ascii "y")] := by
  have hfields : OnlyKeys
      (JsonMembers.compact [pathField (ascii "/c") (by decide +kernel)]).toList := by
    rw [JsonMembers.toList_compact]
    exact onlyKeys_cons (by decide +kernel) (.string _) (List.forall_mem_nil _)
  rw [JsonItems.toList_compact]
  refine .file fileEntry_wholeFile (.few (fun v hv ↦ ?_) (by decide +kernel))
  rw [List.mem_singleton.1 hv]
  exact hfields

end LibSeal
