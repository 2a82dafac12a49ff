import LibSeal.Auditing.JsonHelper
import LibSeal.OwnCloud.Docs
import Mathlib.Data.List.Chain

/-!
# The operations of a message

An element of the array of operations is an object whose first key is `optype`, and `updateDoc`
finds the next element as the next object that begins with this key. The values it reads are counted
from there: the position is the fourth, and the text, the length or the name comes behind it. With
the keys in this order the array is logged as it is meant (`updateDoc_eq`), whatever keys follow,
unless an object in their values begins with `optype`, too. In another order values are taken for
others (`not_updateDoc_eq_reordered`).
-/

namespace LibSeal

open Bytes Json

/-! ### Operations -/

/-- An operation of a supported type, as far as it is logged. -/
inductive Operation where
  | insertText (position : ℤ) (text : Bytes)
  | removeText (position length : ℤ)
  | splitParagraph (position : ℤ)
  | annotationAdded (position : ℤ) (name : Bytes)
  | annotationRemoved (position : ℤ)
  deriving DecidableEq

namespace Operation

/-- The value of `optype`. -/
def optype : Operation → Bytes
  | insertText .. => owncloudInsertText
  | removeText .. => owncloudRemoveText
  | splitParagraph .. => owncloudSplitParagraph
  | annotationAdded .. => owncloudAddAnnotation
  | annotationRemoved .. => owncloudRemoveAnnotation

def position : Operation → ℤ
  | insertText position _ | removeText position _ | splitParagraph position
  | annotationAdded position _ | annotationRemoved position => position

/-- The command without its brackets. -/
def body : Operation → Bytes
  | insertText position text => ascii "i," ++ toStr position ++ ascii "," ++ text
  | removeText position length => ascii "r," ++ toStr position ++ ascii "," ++ toStr length
  | splitParagraph position => ascii "i," ++ toStr position ++ ascii "," ++ pilcrow
  | annotationAdded position name => ascii "aa," ++ toStr position ++ ascii "," ++ name
  | annotationRemoved position => ascii "ar," ++ toStr position

/-- The command that is logged. -/
def command (op : Operation) : Bytes := ascii "(" ++ op.body ++ ascii ")"

end Operation

/-! ### Elements -/

/-- The fields that are behind the position in an operation's own. -/
inductive OwnFields : Operation → Fields → Prop where
  | insertText {position : ℤ} {text : Bytes} {key : List StringChar} {v : Json}
    (hkey : stringText key = ascii "text") (hv : TextValue v text) :
    OwnFields (.insertText position text) [(key, v)]
  | removeText {position length : ℤ} {key : List StringChar} {v : Json}
    (hkey : stringText key = owncloudLength) (hv : IntValue v length) :
    OwnFields (.removeText position length) [(key, v)]
  | splitParagraph (position : ℤ) : OwnFields (.splitParagraph position) []
  | annotationAdded {position : ℤ} {name : Bytes} {key : List StringChar} {v : Json}
    (hkey : stringText key = ascii "name") (hv : TextValue v name) :
    OwnFields (.annotationAdded position name) [(key, v)]
  | annotationAddedLength {position : ℤ} {name : Bytes} {key key' : List StringChar} {v v' : Json}
    (hkey' : stringText key' = owncloudLength) (hv' : Scalar v')
    (hkey : stringText key = ascii "name") (hv : TextValue v name) :
    OwnFields (.annotationAdded position name) [(key', v'), (key, v)]
  | annotationRemoved (position : ℤ) : OwnFields (.annotationRemoved position) []

/-- The four fields that every operation has. -/
inductive CommonFields : List StringChar → ℤ → Fields → Prop where
  | intro {key₁ key₂ key₃ key₄ optype : List StringChar} {memberid timestamp v : Json}
    {position : ℤ}
    (hoptype : stringText key₁ = owncloudOptype) (hmemberid : stringText key₂ = owncloudMemberid)
    (hmember : Scalar memberid) (htimestamp : stringText key₃ = ascii "timestamp")
    (htime : Scalar timestamp) (hposition : stringText key₄ = ascii "position")
    (hv : IntValue v position) :
    CommonFields optype position
      [(key₁, .string optype), (key₂, memberid), (key₃, timestamp), (key₄, v)]

/-- The values of `optype` that are supported. -/
def supported : List Bytes :=
  [owncloudInsertText, owncloudRemoveText, owncloudSplitParagraph, owncloudAddAnnotation,
    owncloudRemoveAnnotation]

/-- The fields of an element, and the operation if it is of a supported type: what an operation
needs stands in front. Of other elements the type is the first of four fields or more. -/
inductive Element : Fields → Option Operation → Prop where
  | operation {op : Operation} {optype : List StringChar} {common own further : Fields}
    (hoptype : stringText optype = op.optype) (hcommon : CommonFields optype op.position common)
    (hown : OwnFields op own) : Element (common ++ own ++ further) (some op)
  | other {key optype : List StringChar} {further : Fields}
    (hkey : stringText key = owncloudOptype) (hoptype : stringText optype ∉ supported)
    (hlength : 3 ≤ further.length) : Element ((key, .string optype) :: further) none

/-- A string `optype` does not come right behind the beginning of an object. -/
def NotOptypeObject (x y : JsonView) : Prop :=
  ¬ (x.type = .object ∧ y.type = .string ∧ y.string = owncloudOptype)

instance (x y : JsonView) : Decidable (NotOptypeObject x y) :=
  inferInstanceAs (Decidable (¬ (x.type = .object ∧ y.type = .string ∧ y.string = owncloudOptype)))

/-- Nothing in the values of an element is taken for another element. -/
def Quiet (fields : Fields) : Prop := (fieldViews fields).IsChain NotOptypeObject

/-- The values are the elements `ops`, in this order. -/
def Elements (items : List Json) (ops : List (Option Operation)) : Prop :=
  List.Forall₂ (fun v op ↦ ∃ members, v = .object members ∧ Element members.toList op ∧
    Quiet members.toList) items ops

/-! ### Reading tokens by what is read of them -/

section Reading

variable {tokens : List JsmnTok} {js : Bytes}

theorem tokenAt_of_views {i : ℕ} {x : JsonView}
    (h : (tokens.map (JsmnTok.view js))[i]? = some x) :
    ∃ tok, tokenAt tokens i = .ok tok ∧ tok.view js = x := by
  rw [List.getElem?_map, Option.map_eq_some_iff] at h
  obtain ⟨tok, htok, hview⟩ := h
  refine ⟨tok, ?_, hview⟩
  rw [tokenAt, if_neg (by omega), Int.toNat_natCast, htok]

theorem stringTokenAt_of_views {p i : ℕ} {pos : ℤ} {x : JsonView}
    (h : ((tokens.map (JsmnTok.view js)).drop p)[i]? = some x) (hpos : pos = p + i) :
    stringTokenAt tokens pos js = .ok x.string := by
  rw [List.getElem?_drop] at h
  obtain ⟨tok, htok, rfl⟩ := tokenAt_of_views h
  rw [hpos, ← Int.natCast_add, stringTokenAt, htok]
  rfl

theorem intTokenAt_of_views {p i : ℕ} {pos : ℤ} {x : JsonView}
    (h : ((tokens.map (JsmnTok.view js)).drop p)[i]? = some x) (hpos : pos = p + i) :
    intTokenAt tokens pos js = .ok x.int := by
  rw [List.getElem?_drop] at h
  obtain ⟨tok, htok, rfl⟩ := tokenAt_of_views h
  rw [hpos, ← Int.natCast_add, intTokenAt, htok]
  rfl

/-- The search passes over what does not look like an element. -/
theorem optypeObjectIn_of_views {S R : List JsonView} {x y : JsonView}
    (h : tokens.map (JsmnTok.view js) = S ++ x :: y :: R) (hS : S.IsChain NotOptypeObject)
    (hx : x.type = .object) (hy : y.type = .string) (hoptype : y.string = owncloudOptype) :
    optypeObjectIn js owncloudOptype tokens = .ok S.length := by
  induction S generalizing tokens with
  | nil =>
    obtain ⟨object, rest, rfl, rfl, hrest⟩ := List.map_eq_cons_iff.1 h
    obtain ⟨key, rest, rfl, rfl, -⟩ := List.map_eq_cons_iff.1 hrest
    have hobject : object.type = .object := hx
    have hkey : ¬ (key.type ≠ .string ∨ jsonGetString key js ≠ owncloudOptype) := by
      rw [not_or, not_not, not_not]
      exact ⟨hy, hoptype⟩
    rw [optypeObjectIn, if_neg (not_not.2 hobject), List.head?_cons]
    exact if_neg hkey
  | cons s S ih =>
    obtain ⟨tok, rest, rfl, rfl, hrest⟩ := List.map_eq_cons_iff.1 h
    have hnext := ih hrest hS.tail
    rw [optypeObjectIn, hnext]
    by_cases hobject : tok.type = .object
    · -- an object, but not followed by the key
      have hhead : ∃ key, rest.head? = some key ∧
          (key.type ≠ .string ∨ jsonGetString key js ≠ owncloudOptype) := by
        rcases S with - | ⟨s, S⟩
        · obtain ⟨key, rest, rfl, rfl, -⟩ := List.map_eq_cons_iff.1 hrest
          have hkey : key.type = .object := hx
          exact ⟨key, rfl, .inl (by rw [hkey]; decide)⟩
        · obtain ⟨key, rest, rfl, rfl, -⟩ := List.map_eq_cons_iff.1 hrest
          have hkey := (List.isChain_cons_cons.1 hS).1
          refine ⟨key, rfl, ?_⟩
          by_contra hboth
          rw [not_or, not_not, not_not] at hboth
          exact hkey ⟨hobject, hboth⟩
      obtain ⟨key, hkey, hother⟩ := hhead
      rw [if_neg (not_not.2 hobject), hkey]
      exact if_pos hother
    · rw [if_pos hobject]
      rfl

theorem skipToNextOptypeObject_of_views {p : ℕ} {S R : List JsonView} {x y : JsonView}
    (h : (tokens.map (JsmnTok.view js)).drop p = S ++ x :: y :: R)
    (hS : S.IsChain NotOptypeObject) (hx : x.type = .object) (hy : y.type = .string)
    (hoptype : y.string = owncloudOptype) :
    skipToNextOptypeObject tokens p js owncloudOptype = .ok (p + S.length : ℕ) := by
  rw [← List.map_drop] at h
  rw [skipToNextOptypeObject, if_neg (by omega), Int.toNat_natCast,
    optypeObjectIn_of_views h hS hx hy hoptype]
  rfl

/-! ### Commands -/

/-- The common fields are eight tokens. -/
theorem CommonFields.exists_views {optype : List StringChar} {position : ℤ} {common : Fields}
    (h : CommonFields optype position common) (more : Fields) :
    ∃ k₁ k₂ x₂ k₃ x₃ k₄ x₄ : JsonView,
      fieldViews (common ++ more) =
        k₁ :: .chars 0 optype :: k₂ :: x₂ :: k₃ :: x₃ :: k₄ :: x₄ :: fieldViews more ∧
      k₁.type = .string ∧ k₁.string = owncloudOptype ∧ x₄.int = position := by
  cases h with
  | @intro key₁ key₂ key₃ key₄ _ memberid timestamp v _ hoptype _ hmember _ htime _ hv =>
    obtain ⟨x₂, hx₂, -⟩ := exists_valueViews_of_scalar hmember
    obtain ⟨x₃, hx₃, -⟩ := exists_valueViews_of_scalar htime
    obtain ⟨x₄, hx₄, hint⟩ := hv.exists_view
    refine ⟨.chars 1 key₁, .chars 1 key₂, x₂, .chars 1 key₃, x₃, .chars 1 key₄, x₄, ?_, rfl,
      hoptype, hint⟩
    simp only [fieldViews, List.cons_append, List.nil_append, List.flatMap_cons, valueViews, hx₂,
      hx₃, hx₄]

/-- The views of a field in front of others. -/
theorem fieldViews_singleton_append {key : List StringChar} {v : Json} {x : JsonView}
    (h : valueViews v = [x]) (further : Fields) :
    fieldViews ([(key, v)] ++ further) = .chars 1 key :: x :: fieldViews further := by
  simp [fieldViews, h]

/-- What is computed for an operation. -/
theorem commandAt_operation {p : ℕ} {object k₁ x₁ k₂ x₂ k₃ x₃ k₄ x₄ : JsonView}
    {own further : Fields} {op : Operation} {R : List JsonView}
    (h : (tokens.map (JsmnTok.view js)).drop p = object :: k₁ :: x₁ :: k₂ :: x₂ :: k₃ :: x₃ ::
      k₄ :: x₄ :: (fieldViews (own ++ further) ++ R))
    (hoptype : x₁.string = op.optype) (hposition : x₄.int = op.position) (hown : OwnFields op own) :
    commandAt tokens (p + 1) js = .ok op.body := by
  -- the fields in front of the own ones are at fixed places behind the object
  have hstring : ∀ (i : ℕ) (pos : ℤ) (x : JsonView),
      (object :: k₁ :: x₁ :: k₂ :: x₂ :: k₃ :: x₃ :: k₄ :: x₄ ::
        (fieldViews (own ++ further) ++ R))[i]? = some x → pos = p + i →
      stringTokenAt tokens pos js = .ok x.string := by
    intro i pos x hx hpos
    rw [← h] at hx
    exact stringTokenAt_of_views hx hpos
  have hint : ∀ (i : ℕ) (pos : ℤ) (x : JsonView),
      (object :: k₁ :: x₁ :: k₂ :: x₂ :: k₃ :: x₃ :: k₄ :: x₄ ::
        (fieldViews (own ++ further) ++ R))[i]? = some x → pos = p + i →
      intTokenAt tokens pos js = .ok x.int := by
    intro i pos x hx hpos
    rw [← h] at hx
    exact intTokenAt_of_views hx hpos
  rw [commandAt, hstring 2 (p + 1 + 1) x₁ rfl (by omega), CFault.ok_bind,
    hint 8 (p + 1 + 7) x₄ rfl (by omega), CFault.ok_bind, hposition]
  have htype : ∀ {s : Bytes}, op.optype = s → x₁.string = s := hoptype.trans
  cases hown
  case insertText text key v hkey hv =>
    obtain ⟨x, hx, htext⟩ := hv.exists_view
    rw [fieldViews_singleton_append hx further] at hstring
    have hread := hstring 10 (p + 1 + 9) x rfl (by omega)
    rw [htype (s := owncloudInsertText) rfl, if_pos rfl, hread, htext]
    rfl
  case removeText length key v hkey hv =>
    obtain ⟨x, hx, hlength⟩ := hv.exists_view
    rw [fieldViews_singleton_append hx further] at hint
    have hread := hint 10 (p + 1 + 9) x rfl (by omega)
    rw [htype (s := owncloudRemoveText) rfl, if_neg (by decide), if_pos rfl, hread, hlength]
    rfl
  case splitParagraph =>
    rw [htype (s := owncloudSplitParagraph) rfl, if_neg (by decide), if_neg (by decide), if_pos rfl]
    rfl
  case annotationAdded name key v hkey hv =>
    obtain ⟨x, hx, hname⟩ := hv.exists_view
    rw [fieldViews_singleton_append hx further] at hstring
    have hreadKey := hstring 9 (p + 1 + 8) (.chars 1 key) rfl (by omega)
    have hread := hstring 10 (p + 1 + 9) x rfl (by omega)
    have hne : (JsonView.chars 1 key).string ≠ owncloudLength := by
      show stringText key ≠ owncloudLength
      rw [hkey]
      decide
    rw [htype (s := owncloudAddAnnotation) rfl, if_neg (by decide), if_neg (by decide),
      if_neg (by decide), if_pos rfl, hreadKey, CFault.ok_bind,
      if_neg hne, hread, hname]
    rfl
  case annotationAddedLength name key key' v v' hkey' hv' hkey hv =>
    obtain ⟨x', hx', -⟩ := exists_valueViews_of_scalar hv'
    obtain ⟨x, hx, hname⟩ := hv.exists_view
    have hviews : fieldViews ([(key', v'), (key, v)] ++ further) =
        .chars 1 key' :: x' :: .chars 1 key :: x :: fieldViews further := by
      rw [← List.singleton_append, List.append_assoc,
        fieldViews_singleton_append hx' ([(key, v)] ++ further),
        fieldViews_singleton_append hx further]
    rw [hviews] at hstring
    have hreadKey := hstring 9 (p + 1 + 8) (.chars 1 key') rfl (by omega)
    have hread := hstring 12 (p + 1 + 11) x rfl (by omega)
    -- the name is two tokens further on, behind the value of the length
    have heq : (JsonView.chars 1 key').string = owncloudLength := hkey'
    rw [htype (s := owncloudAddAnnotation) rfl, if_neg (by decide), if_neg (by decide),
      if_neg (by decide), if_pos rfl, hreadKey, CFault.ok_bind,
      if_pos heq, hread, hname]
    rfl
  case annotationRemoved =>
    rw [htype (s := owncloudRemoveAnnotation) rfl, if_neg (by decide), if_neg (by decide),
      if_neg (by decide), if_neg (by decide), if_pos rfl]
    rfl

/-- Of another element two values are read, and nothing is made of them. -/
theorem commandAt_other {p : ℕ} {key optype : List StringChar} {object : JsonView}
    {further : Fields} {R : List JsonView}
    (h : (tokens.map (JsmnTok.view js)).drop p =
      object :: .chars 1 key :: .chars 0 optype :: (fieldViews further ++ R))
    (hoptype : stringText optype ∉ supported) (hlength : 6 ≤ (fieldViews further).length) :
    commandAt tokens (p + 1) js = .ok [] := by
  have hstring : stringTokenAt tokens (p + 1 + 1) js = .ok (stringText optype) :=
    stringTokenAt_of_views (i := 2) (x := .chars 0 optype) (by rw [h]; rfl) (by omega)
  have hlt : 5 < (fieldViews further ++ R).length := by
    rw [List.length_append]
    omega
  have hint : intTokenAt tokens (p + 1 + 7) js = .ok (fieldViews further ++ R)[5].int :=
    intTokenAt_of_views (i := 8) (by rw [h]; exact List.getElem?_eq_getElem hlt) (by omega)
  simp only [supported, List.mem_cons, List.not_mem_nil, or_false, not_or] at hoptype
  obtain ⟨hinsert, hremove, hsplit, hadd, hremoveAnnotated⟩ := hoptype
  rw [commandAt, hstring, CFault.ok_bind, hint, CFault.ok_bind, if_neg hinsert, if_neg hremove,
    if_neg hsplit, if_neg hadd, if_neg hremoveAnnotated]
  rfl

/-- What is logged for an element. -/
def updateText : Option Operation → Bytes
  | none => []
  | some op => op.command

theorem inBrackets_body (op : Operation) : inBrackets op.body = op.command := by
  have hne : op.body ≠ [] := by
    cases op <;> exact List.cons_ne_nil _ _
  rw [inBrackets, if_neg hne, Operation.command]

theorem valueViews_ne_nil (v : Json) : valueViews v ≠ [] := by
  cases v <;> exact List.cons_ne_nil _ _

/-- A field has at least two tokens. -/
theorem length_fieldViews (fields : Fields) : fields.length * 2 ≤ (fieldViews fields).length := by
  induction fields with
  | nil => rfl
  | cons field fields ih =>
    have hvalue := List.length_pos_iff.2 (valueViews_ne_nil field.2)
    rw [fieldViews, List.flatMap_cons, List.length_append, ← fieldViews, List.length_cons,
      List.length_cons]
    omega

/-- An element begins with its type. -/
theorem Element.exists_key {fields : Fields} {op : Option Operation} (h : Element fields op) :
    ∃ (k : JsonView) (rest : List JsonView), fieldViews fields = k :: rest ∧ k.type = .string ∧
      k.string = owncloudOptype := by
  cases h with
  | @operation op optype common own further _ hcommon _ =>
    obtain ⟨k₁, k₂, x₂, k₃, x₃, k₄, x₄, hviews, htype, hstring, -⟩ :=
      hcommon.exists_views (own ++ further)
    rw [List.append_assoc, hviews]
    exact ⟨k₁, _, rfl, htype, hstring⟩
  | other hkey _ _ => exact ⟨_, _, rfl, rfl, hkey⟩

/-- **An element is logged by what it says.** -/
theorem updateDoc_1_of_views {p : ℕ} {fields : Fields} {op : Option Operation} {R : List JsonView}
    (h : (tokens.map (JsmnTok.view js)).drop p =
      .container .object fields.length :: (fieldViews fields ++ R)) (hop : Element fields op) :
    updateDoc_1 tokens p js = .ok (updateText op, (p + (1 + fields.length * 2) : ℕ)) := by
  have hhead := congrArg List.head? h
  rw [List.head?_drop] at hhead
  obtain ⟨tok, htok, hview⟩ := tokenAt_of_views hhead
  have hsize : tok.size = fields.length := congrArg JsonView.size hview
  have hcommand : commandAt tokens (p + 1) js = .ok ((op.map Operation.body).getD []) := by
    cases hop with
    | @operation op optype common own further hoptype hcommon hown =>
      obtain ⟨k₁, k₂, x₂, k₃, x₃, k₄, x₄, hviews, -, -, hint⟩ :=
        hcommon.exists_views (own ++ further)
      rw [List.append_assoc, hviews] at h
      exact commandAt_operation h hoptype hint hown
    | @other key optype further hkey hoptype hlength =>
      have hviews := length_fieldViews further
      exact commandAt_other h hoptype (by omega)
  have htext : inBrackets ((op.map Operation.body).getD []) = updateText op := by
    cases op with
    | none => rfl
    | some op => exact inBrackets_body op
  have hpos : (p : ℤ) + 1 + tok.size * 2 = (p + (1 + fields.length * 2) : ℕ) := by omega
  rw [updateDoc_1, htok, CFault.ok_bind, hcommand, CFault.ok_bind, htext, hpos]
  rfl

/-! ### Arrays -/

/-- What is left of an element when its keys and values have been counted over does not look like
another one, nor does it together with what follows. -/
theorem updateDocRounds_of_views {R : List JsonView} : ∀ (items : JsonItems)
    (ops : List (Option Operation)), Elements items.toList ops → ∀ (p : ℕ) (S : List JsonView),
    S.IsChain NotOptypeObject →
    (tokens.map (JsmnTok.view js)).drop p = S ++ (itemViews items ++ R) →
    ∃ pos, updateDocRounds tokens js items.toList.length p = .ok (ops.flatMap updateText, pos)
  | .nil _, ops, helements, p, S, _, _ => by
    cases helements
    exact ⟨p, rfl⟩
  | .cons _ value _ rest, ops, helements, p, S, hS, h => by
    rw [JsonItems.toList] at helements ⊢
    obtain ⟨op, ops, ⟨members, rfl, hop, hquiet⟩, hrest, rfl⟩ :=
      List.forall₂_cons_left_iff.1 helements
    have hlength := length_fieldViews members.toList
    obtain ⟨k, more, hviews, htype, hkey⟩ := hop.exists_key
    rw [itemViews, valueViews, memberViews_eq_fieldViews, List.cons_append, List.cons_append,
      List.append_assoc] at h
    have hskip : skipToNextOptypeObject tokens p js owncloudOptype = .ok (p + S.length : ℕ) := by
      have h' := h
      rw [hviews] at h'
      exact skipToNextOptypeObject_of_views h' hS rfl htype hkey
    have hobject : (tokens.map (JsmnTok.view js)).drop (p + S.length) =
        .container .object members.toList.length ::
          (fieldViews members.toList ++ (itemViews rest ++ R)) := by
      rw [← List.drop_drop, h, List.drop_left' rfl]
    have hupdate := updateDoc_1_of_views hobject hop
    -- the next round begins behind as many views as twice the members,
    -- which is the rest of this element, or the next one
    have hbehind : (tokens.map (JsmnTok.view js)).drop
          (p + S.length + (1 + members.toList.length * 2)) =
        (fieldViews members.toList).drop (members.toList.length * 2) ++
          (itemViews rest ++ R) := by
      rw [← List.drop_drop, hobject, Nat.add_comm 1, List.drop_succ_cons,
        List.drop_append_of_le_length hlength]
    obtain ⟨pos, hrounds⟩ :=
      updateDocRounds_of_views rest ops hrest _ _ (List.IsChain.drop hquiet _) hbehind
    refine ⟨pos, ?_⟩
    rw [List.length_cons, updateDocRounds, hskip, CFault.ok_bind, hupdate, CFault.ok_bind]
    dsimp only
    rw [hrounds, CFault.ok_bind]
    rfl

end Reading

/-- **Operations are logged by what they say**, each element of an array as one command, in their
order, wherever the array stands in a document. -/
theorem updateDoc_eq (junk : ℕ → JsmnTok) (before after : List White) {d : Json} {p : ℕ}
    {R : List JsonView} {items : JsonItems} {ops : List (Option Operation)}
    (harray : (valueViews d).drop p = valueViews (.array items) ++ R)
    (helements : Elements items.toList ops) :
    ∃ pos, updateDoc (jsonReadTokens junk (documentText before d after)
        (jsonGetNrTokens (documentText before d after))) p (documentText before d after) =
      .ok (ops.flatMap updateText, pos) := by
  have hviews := map_view_jsonReadTokens junk before after d
  set js := documentText before d after
  set tokens := jsonReadTokens junk js (jsonGetNrTokens js)
  have hdrop : (tokens.map (JsmnTok.view js)).drop p =
      [.container .array items.toList.length] ++ (itemViews items ++ R) := by
    rw [hviews, harray]
    rfl
  have hhead := congrArg List.head? hdrop
  rw [List.head?_drop] at hhead
  obtain ⟨tok, htok, hview⟩ := tokenAt_of_views hhead
  have hsize : tok.size = items.toList.length := congrArg JsonView.size hview
  obtain ⟨pos, hrounds⟩ :=
    updateDocRounds_of_views items ops helements p _ (List.isChain_singleton _) hdrop
  refine ⟨pos, ?_⟩
  rw [updateDoc, htok, CFault.ok_bind, hsize, Int.toNat_natCast, hrounds]

def optypeField (op : Bytes) (h : ∀ b ∈ op, b ≠ 0 ∧ b ≠ '"'.toUInt8 ∧ b ≠ '\\'.toUInt8) :
    List StringChar × Json :=
  plainField owncloudOptype (by decide +kernel) (.string (plainString op h))

def memberidField : List StringChar × Json :=
  plainField owncloudMemberid (by decide +kernel)
    (.string (plainString (ascii "1") (by decide +kernel)))

def timestampField : List StringChar × Json :=
  plainField (ascii "timestamp") (by decide +kernel) (.literal (.int 5))

def positionField : List StringChar × Json :=
  plainField (ascii "position") (by decide +kernel) (.literal (.int 7))

def lengthField : List StringChar × Json :=
  plainField owncloudLength (by decide +kernel) (.literal (.int 1))

/-- The removal of one character at 7. -/
def removal : Fields :=
  [optypeField owncloudRemoveText (by decide +kernel), memberidField, timestampField, positionField,
    lengthField]

theorem element_removal : Element removal (some (.removeText 7 1)) := by
  have hcommon : CommonFields (plainString owncloudRemoveText (by decide +kernel)) 7
      [optypeField owncloudRemoveText (by decide +kernel), memberidField, timestampField,
        positionField] :=
    .intro (by decide +kernel) (by decide +kernel) (.string _) (by decide +kernel) (.literal _)
      (by decide +kernel) (intValue_int (by decide) (by decide))
  have hown : OwnFields (.removeText 7 1) [lengthField] :=
    .removeText (by decide +kernel) (intValue_int (by decide) (by decide))
  exact (Element.operation (by decide +kernel) hcommon hown : Element (_ ++ _ ++ []) _)

/-- An element of a type that is not supported. -/
def cursorMove : Fields :=
  [optypeField (ascii "MoveCursor") (by decide +kernel), memberidField, timestampField,
    positionField]

def removalAndMove : JsonItems :=
  .compact [.object (.compact removal), .object (.compact cursorMove)]

/-- A document with both of them. -/
def clientOps : Json :=
  .object (.compact [plainField owncloudClientOps (by decide +kernel) (.array removalAndMove)])

theorem updateDoc_eq_clientOps :
    ∃ pos, updateDoc (jsonReadTokens (fun _ ↦ ⟨.undefined, 0, 0, 0⟩) (documentText [] clientOps [])
        (jsonGetNrTokens (documentText [] clientOps []))) (2 : ℕ) (documentText [] clientOps []) =
      .ok ([some (.removeText 7 1), none].flatMap updateText, pos) := by
  have harray : (valueViews clientOps).drop 2 = valueViews (.array removalAndMove) ++ [] := by
    decide +kernel
  refine updateDoc_eq (fun _ ↦ ⟨.undefined, 0, 0, 0⟩) [] [] harray ?_
  rw [removalAndMove, JsonItems.toList_compact]
  refine .cons ⟨_, rfl, ?_, ?_⟩ (.cons ⟨_, rfl, ?_, ?_⟩ .nil) <;> rw [JsonMembers.toList_compact]
  · exact element_removal
  · exact (by decide +kernel : (fieldViews removal).IsChain NotOptypeObject)
  · exact .other (by decide +kernel) (by decide +kernel) (by decide)
  · exact (by decide +kernel : (fieldViews cursorMove).IsChain NotOptypeObject)

/-- The same removal, with its keys in another order. -/
def reordered : Fields :=
  [optypeField owncloudRemoveText (by decide +kernel), positionField, memberidField, timestampField,
    lengthField]

/-- In another order the time is taken for the position. -/
theorem not_updateDoc_eq_reordered :
    ¬ ∀ (junk : ℕ → JsmnTok) (before after : List White) (items : JsonItems) (ops : List Operation),
      List.Forall₂ (fun v op ↦ ∃ members, v = .object members ∧
        ∃ fields, members.toList.Perm fields ∧ Element fields (some op)) items.toList ops →
      ∃ pos, updateDoc (jsonReadTokens junk (documentText before (.array items) after)
          (jsonGetNrTokens (documentText before (.array items) after))) 0
          (documentText before (.array items) after) =
        .ok (ops.flatMap Operation.command, pos) := by
  intro h
  have hperm : reordered.Perm removal := .cons _
    ((List.perm_append_singleton positionField [memberidField, timestampField]).symm.append_right
      [lengthField])
  obtain ⟨pos, hupdate⟩ := h (fun _ ↦ ⟨.undefined, 0, 0, 0⟩) [] []
    (.compact [.object (.compact reordered)]) [.removeText 7 1] (by
      rw [JsonItems.toList_compact]
      refine .cons ⟨_, rfl, removal, ?_, element_removal⟩ .nil
      rw [JsonMembers.toList_compact]
      exact hperm)
  have htext := congrArg (fun r ↦ r.toOption.map Prod.fst) hupdate
  change _ = some ([Operation.removeText 7 1].flatMap Operation.command) at htext
  exact absurd htext (by decide +kernel)

end LibSeal
