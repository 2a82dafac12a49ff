import LibSeal.Data.ClosedCode
import LibSeal.OwnCloud.Operations

/-!
# The operations in an update text

The audit compares what has been logged as one text, the commands of all messages one after the
other. Nothing in a command is escaped, so that a text typed by a user may end its command and begin
another one (`not_operations_eq_forged`), and the paragraph sign stands for a split paragraph.
Without such texts the operations are known from the text (`operations_eq_iff`). How the operations
are divided into messages is not.

The commands are a `ClosedCode`: where a bracket stands in a text, its command could have ended.
-/

namespace LibSeal

open Bytes Json

namespace Operation

/-- The letters in front of the position. -/
def kind : Operation → Bytes
  | insertText .. | splitParagraph .. => ascii "i"
  | removeText .. => ascii "r"
  | annotationAdded .. => ascii "aa"
  | annotationRemoved .. => ascii "ar"

/-- What stands behind the position. -/
def text : Operation → Option Bytes
  | insertText _ text => some text
  | removeText _ length => some (toStr length)
  | splitParagraph _ => some pilcrow
  | annotationAdded _ name => some name
  | annotationRemoved _ => none

/-- A command from the end of the position on. -/
def tail : Option Bytes → Bytes
  | none => [')'.toUInt8]
  | some text => ','.toUInt8 :: (text ++ [')'.toUInt8])

theorem command_eq (op : Operation) :
    op.command =
      '('.toUInt8 :: (op.kind ++ ','.toUInt8 :: (toStr op.position ++ tail op.text)) := by
  cases op <;> simp [command, body, kind, position, text, tail, ascii]

end Operation

/-! ### The code -/

theorem closing_notMem_toStr (n : ℤ) : ')'.toUInt8 ∉ toStr n := fun h ↦
  absurd (isDecimal_of_mem_ofInt h) (by decide)

/-- A closing bracket in a command that is not the last stands in a text or a name. -/
theorem exists_text_of_closing_mem {op : Operation} {u z : Bytes}
    (h : u ++ ')'.toUInt8 :: z = ascii "(" ++ op.body) :
    ∃ (front s : Bytes) (word : Bytes → Operation), u = front ++ s ∧
      ∀ t, (word t).command = front ++ t ++ [')'.toUInt8] := by
  have hmem : ')'.toUInt8 ∈ ascii "(" ++ op.body := by
    rw [← h]
    simp
  -- the bracket is not in what stands in front of the text, so it is in the text
  have hsplit : ∀ front text : Bytes, ')'.toUInt8 ∉ front →
      u ++ ')'.toUInt8 :: z = front ++ text → ∃ s, u = front ++ s := by
    intro front text hfront heq
    rcases List.append_eq_append_iff.1 heq with ⟨s, hs, hrest⟩ | ⟨s, hs, -⟩
    · rcases s with - | ⟨b, s⟩
      · exact ⟨[], by simpa using hs.symm⟩
      · rw [List.cons_append, List.cons_eq_cons] at hrest
        exact absurd (by rw [hs, ← hrest.1]; simp) hfront
    · exact ⟨s, hs⟩
  have hnumber := fun n ↦ closing_notMem_toStr n
  cases op with
  | insertText position text =>
    obtain ⟨s, hs⟩ := hsplit (ascii "(i," ++ toStr position ++ ascii ",") text
      (by simp [hnumber]; decide) (by rw [h]; simp [Operation.body, ascii])
    exact ⟨_, s, .insertText position, hs,
      fun t ↦ by simp [Operation.command, Operation.body, ascii]⟩
  | annotationAdded position name =>
    obtain ⟨s, hs⟩ := hsplit (ascii "(aa," ++ toStr position ++ ascii ",") name
      (by simp [hnumber]; decide) (by rw [h]; simp [Operation.body, ascii])
    exact ⟨_, s, .annotationAdded position, hs,
      fun t ↦ by simp [Operation.command, Operation.body, ascii]⟩
  | removeText position length =>
    exact absurd hmem (by simp [Operation.body, hnumber]; decide)
  | splitParagraph position =>
    exact absurd hmem (by simp [Operation.body, hnumber]; decide)
  | annotationRemoved position =>
    exact absurd hmem (by simp [Operation.body, hnumber]; decide)

/-- The commands. -/
def commandCode : ClosedCode UInt8 where
  IsWord w := ∃ op : Operation, w = op.command
  close := ')'.toUInt8
  ends := by
    rintro w ⟨op, rfl⟩
    exact ⟨ascii "(" ++ op.body, rfl⟩
  isWord_of_prefix := by
    rintro w u ⟨op, rfl⟩ ⟨z, hz⟩
    rcases List.eq_nil_or_concat z with rfl | ⟨z, b, rfl⟩
    · exact ⟨op, by rw [← hz, List.append_nil]⟩
    · rw [List.concat_eq_append, ← List.append_assoc] at hz
      obtain ⟨hbody, -⟩ := List.append_inj' hz rfl
      rw [List.append_assoc, List.singleton_append] at hbody
      obtain ⟨front, s, word, rfl, hword⟩ := exists_text_of_closing_mem hbody
      exact ⟨word s, (hword s).symm⟩

/-! ### Reading a command -/

namespace Operation

/-- What is logged for the operation tells it from others: its text or name does not end it, and the
text is not the sign for a split paragraph. -/
def Unambiguous : Operation → Prop
  | insertText _ text => commandCode.Plain text ∧ text ≠ pilcrow
  | annotationAdded _ name => commandCode.Plain name
  | _ => True

theorem plain_text {op : Operation} (h : op.Unambiguous) {s : Bytes} (hs : s ∈ op.text) :
    commandCode.Plain s := by
  cases op with
  | insertText position text =>
    cases hs
    exact h.1
  | annotationAdded position name =>
    cases hs
    exact h
  | removeText position length =>
    cases hs
    exact ClosedCode.plain_of_notMem (closing_notMem_toStr length)
  | splitParagraph position =>
    cases hs
    exact ClosedCode.plain_of_notMem (by decide)
  | annotationRemoved position => cases hs

/-- An operation is known from the three parts of its command. -/
theorem eq_of_parts {op op' : Operation} (h : op.Unambiguous) (h' : op'.Unambiguous)
    (hkind : op.kind = op'.kind) (hposition : op.position = op'.position)
    (htext : op.text = op'.text) : op = op' := by
  cases op with
  | insertText p s =>
    cases op' with
    | insertText q t => rw [show p = q from hposition, Option.some.inj htext]
    | splitParagraph q => exact absurd (Option.some.inj htext) h.2
    | _ => exact absurd hkind (by simp only [kind]; decide)
  | removeText p m =>
    cases op' with
    | removeText q n => rw [show p = q from hposition, ofInt_injective (Option.some.inj htext)]
    | _ => exact absurd hkind (by simp only [kind]; decide)
  | splitParagraph p =>
    cases op' with
    | insertText q t => exact absurd (Option.some.inj htext).symm h'.2
    | splitParagraph q => rw [show p = q from hposition]
    | _ => exact absurd hkind (by simp only [kind]; decide)
  | annotationAdded p s =>
    cases op' with
    | annotationAdded q t => rw [show p = q from hposition, Option.some.inj htext]
    | _ => exact absurd hkind (by simp only [kind]; decide)
  | annotationRemoved p =>
    cases op' with
    | annotationRemoved q => rw [show p = q from hposition]
    | _ => exact absurd hkind (by simp only [kind]; decide)

theorem exists_tail_eq (text : Option Bytes) :
    ∃ b s, tail text = b :: s ∧ isDecimal b = false := by
  cases text <;> exact ⟨_, _, rfl, by decide⟩

/-- **A command tells its operation**, and where it ends, in front of other commands. -/
theorem command_append_inj {op op' : Operation} (h : op.Unambiguous) (h' : op'.Unambiguous)
    {ws ws' : List Bytes} (hws : ∀ w ∈ ws, commandCode.IsWord w)
    (hws' : ∀ w ∈ ws', commandCode.IsWord w)
    (heq : op.command ++ ws.flatten = op'.command ++ ws'.flatten) :
    op = op' ∧ ws.flatten = ws'.flatten := by
  have hcomma : ∀ op : Operation, ∀ b ∈ op.kind, (b != ','.toUInt8) = true := by
    intro op
    cases op <;> simp only [kind] <;> decide +kernel
  have hdecimal : ∀ n : ℤ, ∀ b ∈ toStr n, isDecimal b = true := fun _ _ ↦ isDecimal_of_mem_ofInt
  rw [command_eq, command_eq] at heq
  simp only [List.cons_append, List.append_assoc, List.cons_eq_cons, true_and] at heq
  -- the commands agree from the front: kind, position and text
  obtain ⟨hkind, heq⟩ := append_cons_inj_of_forall heq (hcomma op) (hcomma op') rfl rfl
  have hbehind := (List.cons_eq_cons.1 heq).2
  obtain ⟨b, s, htail, hb⟩ := exists_tail_eq op.text
  obtain ⟨c, t, htail', hc⟩ := exists_tail_eq op'.text
  have hposition : toStr op.position = toStr op'.position ∧
      tail op.text ++ ws.flatten = tail op'.text ++ ws'.flatten := by
    rw [htail, htail'] at hbehind ⊢
    exact append_cons_inj_of_forall hbehind (hdecimal _) (hdecimal _) hb hc
  obtain ⟨hposition, hrest⟩ := hposition
  have htext : op.text = op'.text ∧ ws.flatten = ws'.flatten := by
    rcases hop : op.text with - | s <;> rcases hop' : op'.text with - | t <;>
      rw [hop, hop'] at hrest
    · exact ⟨rfl, (List.cons_eq_cons.1 hrest).2⟩
    · exact absurd (List.cons_eq_cons.1 hrest).1 (by decide)
    · exact absurd (List.cons_eq_cons.1 hrest).1 (by decide)
    · have hplain := plain_text h hop
      have hplain' := plain_text h' hop'
      simp only [tail, List.cons_append, List.append_assoc, List.cons_eq_cons,
        true_and] at hrest
      obtain ⟨rfl, hwords⟩ := ClosedCode.plain_append_inj hplain hplain' hws hws' hrest
      exact ⟨rfl, hwords⟩
  exact ⟨eq_of_parts h h' hkind (ofInt_injective hposition) htext.1, htext.2⟩

/-- **Commands tell their operations.** -/
theorem commands_inj {ops ops' : List Operation} (h : ∀ op ∈ ops, op.Unambiguous)
    (h' : ∀ op ∈ ops', op.Unambiguous) (heq : ops.flatMap command = ops'.flatMap command) :
    ops = ops' := by
  have hwords : ∀ ops : List Operation, ∀ w ∈ ops.map command, commandCode.IsWord w := by
    intro ops w hw
    obtain ⟨op, -, rfl⟩ := List.mem_map.1 hw
    exact ⟨op, rfl⟩
  have hne : ∀ (op : Operation) (s : Bytes), [] ≠ op.command ++ s := by
    intro op s hs
    exact absurd (congrArg List.head? hs) (by simp [command_eq])
  induction ops generalizing ops' with
  | nil =>
    rcases ops' with - | ⟨op', ops'⟩
    · rfl
    · exact absurd heq (hne op' _)
  | cons op ops ih =>
    rcases ops' with - | ⟨op', ops'⟩
    · exact absurd heq.symm (hne op _)
    · obtain ⟨hop, hops⟩ := List.forall_mem_cons.1 h
      obtain ⟨hop', hops'⟩ := List.forall_mem_cons.1 h'
      obtain ⟨rfl, hrest⟩ := command_append_inj hop hop' (hwords ops) (hwords ops') heq
      rw [ih hops hops' hrest]

/-- A text that is not plain ends its command and has another one behind it. -/
theorem exists_forged {text : Bytes} (h : ¬ commandCode.Plain text) (p : ℤ) :
    ∃ front op, (insertText p text).command = [insertText p front, op].flatMap command := by
  rw [ClosedCode.Plain] at h
  push Not at h
  obtain ⟨w, ⟨op, rfl⟩, front, hfront⟩ := h
  have htext : text ++ [')'.toUInt8] = front ++ ')'.toUInt8 :: op.command := hfront.symm
  refine ⟨front, op, ?_⟩
  simp only [command_eq (insertText p text), command_eq (insertText p front), Operation.text, tail,
    htext, List.flatMap_cons, List.flatMap_nil, List.append_nil, List.cons_append,
    List.append_assoc, List.nil_append]
  rfl

end Operation

/-! ### Messages -/

/-- A message with an array of operations. -/
structure UpdateMessage where
  junk : ℕ → JsmnTok
  before : List White
  document : Json
  after : List White
  /-- The index of the array among the tokens. -/
  pos : ℕ
  items : JsonItems
  rest : List JsonView
  elements : List (Option Operation)
  array : (valueViews document).drop pos = valueViews (.array items) ++ rest
  isElements : Elements items.toList elements

namespace UpdateMessage

variable (m : UpdateMessage)

def payload : Bytes := documentText m.before m.document m.after

/-- The text that is logged. -/
def update : Bytes :=
  match updateDoc (jsonReadTokens m.junk m.payload (jsonGetNrTokens m.payload)) m.pos m.payload with
  | .ok (update, _) => update
  | .error _ => []

/-- The operations of a supported type. -/
def operations : List Operation := m.elements.filterMap id

theorem update_eq : m.update = m.operations.flatMap Operation.command := by
  have htext : ∀ ops : List (Option Operation),
      ops.flatMap updateText = (ops.filterMap id).flatMap Operation.command := by
    intro ops
    induction ops with
    | nil => rfl
    | cons op ops ih => cases op <;> simp [updateText, ih]
  obtain ⟨pos, hupdate⟩ := updateDoc_eq m.junk m.before m.after m.array m.isElements
  rw [update, payload, hupdate]
  exact htext m.elements

/-- The array of some elements is a message. -/
def ofElements (fields : List Fields) (elements : List (Option Operation))
    (h : List.Forall₂ (fun f op ↦ Element f op ∧ Quiet f) fields elements) : UpdateMessage where
  junk := fun _ ↦ ⟨.undefined, 0, 0, 0⟩
  before := []
  document := .array (.compact (fields.map fun f ↦ .object (.compact f)))
  after := []
  pos := 0
  items := .compact (fields.map fun f ↦ .object (.compact f))
  rest := []
  elements := elements
  array := (List.append_nil _).symm
  isElements := by
    rw [Elements, JsonItems.toList_compact, List.forall₂_map_left_iff]
    refine h.imp fun f op hf ↦ ⟨_, rfl, ?_⟩
    rwa [JsonMembers.toList_compact]

end UpdateMessage

/-- **The update texts of messages tell their operations**, if each operation is unambiguous. -/
theorem operations_eq_iff {ms ms' : List UpdateMessage}
    (h : ∀ m ∈ ms, ∀ op ∈ m.operations, op.Unambiguous)
    (h' : ∀ m ∈ ms', ∀ op ∈ m.operations, op.Unambiguous) :
    ms.flatMap UpdateMessage.update = ms'.flatMap UpdateMessage.update ↔
      ms.flatMap UpdateMessage.operations = ms'.flatMap UpdateMessage.operations := by
  have hcommands : ∀ ms : List UpdateMessage, ms.flatMap UpdateMessage.update =
      (ms.flatMap UpdateMessage.operations).flatMap Operation.command := by
    intro ms
    rw [List.flatMap_assoc]
    exact List.flatMap_congr fun m _ ↦ m.update_eq
  have hall : ∀ ms : List UpdateMessage, (∀ m ∈ ms, ∀ op ∈ m.operations, op.Unambiguous) →
      ∀ op ∈ ms.flatMap UpdateMessage.operations, op.Unambiguous := by
    intro ms hms op hop
    obtain ⟨m, hm, hop⟩ := List.mem_flatMap.1 hop
    exact hms m hm op hop
  rw [hcommands, hcommands]
  constructor
  · exact Operation.commands_inj (hall ms h) (hall ms' h')
  · intro heq
    rw [heq]

/-- The insertion of a text at 7. -/
def insertion (text : List StringChar) : Fields :=
  [optypeField owncloudInsertText (by decide +kernel), memberidField, timestampField, positionField,
    plainField (ascii "text") (by decide +kernel) (.string text)]

theorem element_insertion (text : List StringChar) :
    Element (insertion text) (some (.insertText 7 (stringText text))) := by
  have hcommon : CommonFields (plainString owncloudInsertText (by decide +kernel)) 7
      [optypeField owncloudInsertText (by decide +kernel), memberidField, timestampField,
        positionField] :=
    .intro (by decide +kernel) (by decide +kernel) (.string _) (by decide +kernel) (.literal _)
      (by decide +kernel) (intValue_int (by decide) (by decide))
  have hown : OwnFields (.insertText 7 (stringText text))
      [plainField (ascii "text") (by decide +kernel) (.string text)] :=
    .insertText (by decide +kernel) (.string text)
  have hoptype : stringText (plainString owncloudInsertText (by decide +kernel)) =
      owncloudInsertText := by
    decide +kernel
  exact (Element.operation hoptype hcommon hown : Element (_ ++ _ ++ []) _)

theorem plain_inserted : ∀ b ∈ ascii "x", b ≠ 0 ∧ b ≠ '"'.toUInt8 ∧ b ≠ '\\'.toUInt8 := by
  decide +kernel

/-- A user inserts an `x` and then removes a character. -/
def insertAndRemove : UpdateMessage :=
  .ofElements [insertion (plainString (ascii "x") plain_inserted), removal]
    [some (.insertText 7 (stringText (plainString (ascii "x") plain_inserted))),
      some (.removeText 7 1)]
    (.cons ⟨element_insertion _, by unfold Quiet; decide +kernel⟩
      (.cons ⟨element_removal, by unfold Quiet; decide +kernel⟩ .nil))

/-- A user inserts what is logged for this. -/
def insertForged : UpdateMessage :=
  .ofElements [insertion (plainString (ascii "x)(r,7,1") (by decide +kernel))]
    [some (.insertText 7 (stringText (plainString (ascii "x)(r,7,1") (by decide +kernel))))]
    (.cons ⟨element_insertion _, by unfold Quiet; decide +kernel⟩ .nil)

theorem operations_eq_iff_insertAndRemove :
    [insertAndRemove].flatMap UpdateMessage.update =
        [insertAndRemove, insertAndRemove].flatMap UpdateMessage.update ↔
      [insertAndRemove].flatMap UpdateMessage.operations =
        [insertAndRemove, insertAndRemove].flatMap UpdateMessage.operations := by
  have h : ∀ op ∈ insertAndRemove.operations, op.Unambiguous := by
    have hoperations : insertAndRemove.operations =
        [.insertText 7 (stringText (plainString (ascii "x") plain_inserted)), .removeText 7 1] :=
      rfl
    rw [hoperations, List.forall_mem_cons, List.forall_mem_singleton]
    constructor
    · exact ⟨ClosedCode.plain_of_notMem (by decide +kernel), by decide +kernel⟩
    · trivial
  exact operations_eq_iff (by simpa using h) (by simpa using h)

/-- A text that ends its command is logged like two operations. -/
theorem not_operations_eq_forged :
    ¬ ∀ ms ms' : List UpdateMessage,
      ms.flatMap UpdateMessage.update = ms'.flatMap UpdateMessage.update →
      ms.flatMap UpdateMessage.operations = ms'.flatMap UpdateMessage.operations := by
  intro h
  have hoperations := h [insertForged] [insertAndRemove] (by decide +kernel)
  exact absurd hoperations (by decide +kernel)

end LibSeal
