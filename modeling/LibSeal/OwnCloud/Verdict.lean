import LibSeal.Data.SqlLikeUtf8
import LibSeal.OwnCloud.EndToEnd

/-!
# What the audit says about synchronisations

The query of the ownCloud auditor, asked of the table that some traffic has left, in terms of the
operations that were passed on (`owncloudVerdict_of_traffic`). For operations that the query can
tell apart it reports a batch of the server exactly if the server has received something in the
session by then and what the query takes for the operations of the member is no beginning of it, up
to the case of letters.

What the query takes for the member's has everything that is ever sent to a member of this number.
So it is right about the last batch to a member, if the number is used in one session. It reports
every other batch as soon as the member gets more than the server had received at the time
(`differs_of_length_lt`), whether it is relayed properly or not.
-/

namespace LibSeal

open Bytes Json SqlLike OwnCloudDatabase

/-! ### Texts that the query can tell apart -/

/-- A text in UTF-8 that is no pattern but its own. -/
def PatternText (s : Bytes) : Prop :=
  IsEncoded (fun c ↦ ReadAsItself c ∧ c ≠ '%' ∧ c ≠ '_') s

namespace PatternText

theorem of_ascii {s : Bytes} (h : ∀ b ∈ s, b < 0x80 ∧ b ≠ '%'.toUInt8 ∧ b ≠ '_'.toUInt8) :
    PatternText s := by
  have hbyte : ∀ b : UInt8, b < 0x80 ∧ b ≠ '%'.toUInt8 ∧ b ≠ '_'.toUInt8 →
      ReadAsItself (Char.ofNat b.toNat) ∧ Char.ofNat b.toNat ≠ '%' ∧ Char.ofNat b.toNat ≠ '_' :=
    forall_byte (by decide +kernel)
  exact IsEncoded.of_ascii fun b hb ↦ ⟨(h b hb).1, hbyte b (h b hb)⟩

theorem toStr (n : ℤ) : PatternText (LibSeal.toStr n) := by
  refine of_ascii fun b hb ↦ ?_
  have hbyte : ∀ b : UInt8, isDecimal b = true → b < 0x80 ∧ b ≠ '%'.toUInt8 ∧ b ≠ '_'.toUInt8 :=
    forall_byte (by decide +kernel)
  exact hbyte b (isDecimal_of_mem_ofInt hb)

end PatternText

theorem lowerByte_eq_closing_iff : ∀ b : UInt8, lowerByte b = ')'.toUInt8 ↔ b = ')'.toUInt8 :=
  forall_byte (by decide +kernel)

/-! ### Operations up to case -/

namespace Operation

/-- The operation with its text in lower case. -/
def toLower : Operation → Operation
  | insertText position text => insertText position (text.map lowerByte)
  | annotationAdded position name => annotationAdded position (name.map lowerByte)
  | op => op

/-- The operation is known from where its command stands: no bracket in its text. -/
structure Separable (op : Operation) : Prop where
  unambiguous : op.Unambiguous
  closing : ∀ s ∈ op.text, ')'.toUInt8 ∉ s

/-- The query can tell the operation from others. -/
structure Legible (op : Operation) : Prop extends op.Separable where
  pattern : ∀ s ∈ op.text, PatternText s

theorem map_lowerByte_toStr (n : ℤ) : (toStr n).map lowerByte = toStr n := by
  have hbyte : ∀ b : UInt8, isDecimal b = true → lowerByte b = b :=
    forall_byte (by decide +kernel)
  exact (List.map_congr_left fun b hb ↦ hbyte b (isDecimal_of_mem_ofInt hb)).trans (List.map_id _)

theorem kind_toLower (op : Operation) :
    op.toLower.kind = op.kind ∧ op.kind.map lowerByte = op.kind := by
  cases op <;> exact ⟨rfl, by simp only [kind]; decide +kernel⟩

theorem position_toLower (op : Operation) : op.toLower.position = op.position := by
  cases op <;> rfl

theorem text_toLower (op : Operation) : op.toLower.text = op.text.map (List.map lowerByte) := by
  cases op with
  | removeText position length => exact congrArg some (map_lowerByte_toStr length).symm
  | _ => rfl

/-- Nothing but the text has another case. -/
theorem command_toLower (op : Operation) : op.toLower.command = op.command.map lowerByte := by
  have hmarks : lowerByte '('.toUInt8 = '('.toUInt8 ∧ lowerByte ','.toUInt8 = ','.toUInt8 ∧
      lowerByte ')'.toUInt8 = ')'.toUInt8 := by
    decide +kernel
  obtain ⟨hopening, hcomma, hclosing⟩ := hmarks
  have htail : ∀ text : Option Bytes,
      tail (text.map (List.map lowerByte)) = (tail text).map lowerByte := by
    intro text
    cases text <;> simp only [Option.map_none, Option.map_some, tail, List.map_cons, List.map_nil,
      List.map_append, hcomma, hclosing]
  rw [command_eq, command_eq, (kind_toLower op).1, position_toLower, text_toLower, htail]
  simp only [List.map_cons, List.map_append, (kind_toLower op).2, map_lowerByte_toStr, hopening,
    hcomma]

theorem closing_notMem_map_lowerByte {s : Bytes} (h : ')'.toUInt8 ∉ s) :
    ')'.toUInt8 ∉ s.map lowerByte := by
  intro hmem
  obtain ⟨b, hb, heq⟩ := List.mem_map.1 hmem
  exact h ((lowerByte_eq_closing_iff b).1 heq ▸ hb)

/-- The sign for a split paragraph has no other case. -/
theorem map_lowerByte_ne_pilcrow {s : Bytes} (h : s ≠ pilcrow) : s.map lowerByte ≠ pilcrow := by
  have hsign : ∀ b : UInt8, (lowerByte b = 0xC2 → b = 0xC2) ∧ (lowerByte b = 0xB6 → b = 0xB6) :=
    forall_byte (by decide +kernel)
  intro heq
  rcases s with - | ⟨b, - | ⟨c, - | ⟨d, s⟩⟩⟩
  · exact absurd heq (by decide)
  · exact absurd (List.cons.inj heq).2 (List.cons_ne_nil _ _).symm
  · obtain ⟨hb, heq⟩ := List.cons.inj heq
    exact h (by rw [(hsign b).1 hb, (hsign c).2 (List.cons.inj heq).1]; rfl)
  · exact absurd (List.cons.inj (List.cons.inj heq).2).2 (List.cons_ne_nil _ _)

theorem Separable.toLower {op : Operation} (h : op.Separable) : op.toLower.Separable := by
  refine ⟨?_, fun s hs ↦ ?_⟩
  · have hclosing := h.closing
    have hunambiguous := h.unambiguous
    cases op with
    | insertText position text =>
      exact ⟨ClosedCode.plain_of_notMem (closing_notMem_map_lowerByte (hclosing text rfl)),
        map_lowerByte_ne_pilcrow hunambiguous.2⟩
    | annotationAdded position name =>
      exact ClosedCode.plain_of_notMem (closing_notMem_map_lowerByte (hclosing name rfl))
    | removeText position length => exact hunambiguous
    | splitParagraph position => exact hunambiguous
    | annotationRemoved position => exact hunambiguous
  · rw [text_toLower] at hs
    obtain ⟨t, ht, rfl⟩ := Option.map_eq_some_iff.1 hs
    exact closing_notMem_map_lowerByte (h.closing t ht)

/-- The only closing bracket is at the end of the command. -/
theorem exists_command_eq {op : Operation} (h : op.Separable) :
    ∃ u, op.command = u ++ [')'.toUInt8] ∧ ')'.toUInt8 ∉ u := by
  have hkind : ')'.toUInt8 ∉ op.kind := by
    cases op <;> simp only [kind] <;> decide +kernel
  have hmarks : ')'.toUInt8 ≠ '('.toUInt8 ∧ ')'.toUInt8 ≠ ','.toUInt8 := by decide
  have hposition := closing_notMem_toStr op.position
  rw [command_eq]
  rcases hs : op.text with - | s
  · refine ⟨'('.toUInt8 :: (op.kind ++ ','.toUInt8 :: toStr op.position), by simp [tail], ?_⟩
    simp only [List.mem_cons, List.mem_append, hmarks, hkind, hposition, or_self,
      not_false_eq_true]
  · refine ⟨'('.toUInt8 :: (op.kind ++ ','.toUInt8 :: (toStr op.position ++ ','.toUInt8 :: s)),
      by simp [tail], ?_⟩
    simp only [List.mem_cons, List.mem_append, hmarks, hkind, hposition, h.closing s hs, or_self,
      not_false_eq_true]

/-- **The beginnings of the commands are those of the operations.** -/
theorem flatMap_command_prefix_iff {ops ops' : List Operation} (h : ∀ op ∈ ops, op.Separable)
    (h' : ∀ op ∈ ops', op.Separable) :
    ops.flatMap command <+: ops'.flatMap command ↔ ops <+: ops' := by
  have hend : ∀ {u : Bytes}, ')'.toUInt8 ∉ u → ∀ b ∈ u, (b != ')'.toUInt8) = true :=
    fun hu b hb ↦ bne_iff_ne.2 fun heq ↦ hu (heq ▸ hb)
  constructor
  · intro hprefix
    induction ops generalizing ops' with
    | nil => exact List.nil_prefix
    | cons op ops ih =>
      obtain ⟨hop, hops⟩ := List.forall_mem_cons.1 h
      obtain ⟨u, hu, hopen⟩ := exists_command_eq hop
      obtain ⟨t, ht⟩ := hprefix
      rcases ops' with - | ⟨op', ops'⟩
      · rw [List.flatMap_cons, hu] at ht
        exact absurd ht (by simp)
      · obtain ⟨hop', hops'⟩ := List.forall_mem_cons.1 h'
        obtain ⟨v, hv, hopen'⟩ := exists_command_eq hop'
        rw [List.flatMap_cons, List.flatMap_cons, List.append_assoc] at ht
        -- the first commands end at the first closing bracket
        obtain rfl : u = v := by
          rw [hu, hv, List.append_assoc, List.append_assoc, List.singleton_append,
            List.singleton_append] at ht
          exact (append_cons_inj_of_forall ht (hend hopen) (hend hopen') (bne_self_eq_false _)
            (bne_self_eq_false _)).1
        have hcommand : op.command = op'.command := hu.trans hv.symm
        have hsame : [op] = [op'] := commands_inj
          (List.forall_mem_singleton.2 hop.unambiguous)
          (List.forall_mem_singleton.2 hop'.unambiguous) (by simp [hcommand])
        rw [hcommand] at ht
        exact List.cons_prefix_cons.2 ⟨(List.cons.inj hsame).1,
          ih hops hops' ⟨t, List.append_cancel_left ht⟩⟩
  · rintro ⟨rest, rfl⟩
    rw [List.flatMap_append]
    exact List.prefix_append _ _

theorem Legible.patternText {op : Operation} (h : op.Legible) : PatternText op.command := by
  have hmark : ∀ b ∈ ascii "(,)", PatternText [b] := by
    have hascii : ∀ b ∈ ascii "(,)", b < 0x80 ∧ b ≠ '%'.toUInt8 ∧ b ≠ '_'.toUInt8 := by
      decide +kernel
    exact fun b hb ↦ .of_ascii (List.forall_mem_singleton.2 (hascii b hb))
  obtain ⟨hopening, hmark⟩ := List.forall_mem_cons.1 hmark
  obtain ⟨hcomma, hmark⟩ := List.forall_mem_cons.1 hmark
  have hclosing := List.forall_mem_singleton.1 hmark
  have hkind : PatternText op.kind := by
    refine .of_ascii ?_
    cases op <;> simp only [kind] <;> decide +kernel
  have htail : PatternText (tail op.text) := by
    rcases hs : op.text with - | s
    · exact hclosing
    · exact hcomma.append ((h.pattern s hs).append hclosing)
  rw [command_eq]
  exact IsEncoded.append hopening
    (hkind.append (hcomma.append ((PatternText.toStr _).append htail)))

/-- **What the query compares**: operations, up to case. -/
theorem patternCompare_iff {ops ops' : List Operation} (h : ∀ op ∈ ops, op.Legible)
    (h' : ∀ op ∈ ops', op.Legible) :
    patternCompare false (chars (ops.flatMap command ++ ascii "%")) (ops'.flatMap command) =
        .matched ↔ ops.map toLower <+: ops'.map toLower := by
  obtain ⟨p, hp, hpattern⟩ := IsEncoded.flatMap fun op hop ↦ (h op hop).patternText
  obtain ⟨cs, hcs, htext⟩ := IsEncoded.flatMap fun op hop ↦ (h' op hop).patternText
  have hread : chars (encode p ++ ascii "%") = p.map Char.toNat ++ [percent] := by
    have hpercent : ascii "%" = encode ['%'] := by decide +kernel
    rw [hpercent, ← encode_append, chars_encode, List.map_append]
    · rfl
    · exact List.forall_mem_append.2
        ⟨fun c hc ↦ (hp c hc).1, List.forall_mem_singleton.2 (by decide)⟩
  have hlower : ∀ ops : List Operation, (ops.map toLower).flatMap command =
      (ops.flatMap command).map lowerByte := by
    intro ops
    rw [List.flatMap_map, List.map_flatMap]
    exact List.flatMap_congr fun op _ ↦ command_toLower op
  have hseparable : ∀ ops : List Operation, (∀ op ∈ ops, op.Legible) →
      ∀ op ∈ ops.map toLower, op.Separable :=
    fun ops hops ↦ List.forall_mem_map.2 fun op hop ↦ (hops op hop).toSeparable.toLower
  rw [hpattern, htext, hread, patternCompare_encode_iff (fun c hc ↦ (hp c hc).2)
      fun c hc ↦ (hcs c hc).1,
    ← flatMap_command_prefix_iff (hseparable ops h) (hseparable ops' h'), hlower, hlower, hpattern,
    htext, map_lowerByte_encode, map_lowerByte_encode, encode_prefix_encode_iff]

end Operation

/-! ### What is passed on -/

/-- The batches of some exchanges, with the numbers of the exchanges. -/
def batches (xs : List OwnCloudExchange) : List (ℕ × Batch) :=
  numberedRows (fun n x ↦ (x.batch.map fun b ↦ (n, b)).toList) 1 xs

section

variable (xs : List OwnCloudExchange)

/-- The operations of some batches, in their order. -/
def operationsOf (p : ℕ → Batch → Prop) [∀ n, DecidablePred (p n)] : List Operation :=
  ((batches xs).filter fun q ↦ p q.1 q.2).flatMap fun q ↦ q.2.operations

/-- What the server has received in a session, up to an exchange. -/
def serverOperations (n : ℕ) (esid : Bytes) : List Operation :=
  operationsOf xs fun m b ↦ (b.esid = esid ∧ m ≤ n) ∧ b.receiver = 0

/-- What a member has sent or received in a session, up to an exchange. -/
def memberOperations (n : ℕ) (esid : Bytes) (member : ℤ) : List Operation :=
  operationsOf xs fun m b ↦ (b.esid = esid ∧ m ≤ n) ∧ (b.sender = member ∨ b.receiver = member)

/-- What the query takes for it: whatever was sent to a member of this number is there, too. -/
def queriedOperations (n : ℕ) (esid : Bytes) (member : ℤ) : List Operation :=
  operationsOf xs fun m b ↦ (b.esid = esid ∧ m ≤ n) ∧ b.sender = member ∨ b.receiver = member

/-- **What the query can read**: it can tell all operations apart, and no pattern is too long. -/
structure LegibleBatches : Prop where
  legible : ∀ q ∈ batches xs, ∀ op ∈ q.2.operations, op.Legible
  length_lt : ((batches xs).flatMap fun q ↦ q.2.update).length < maxPatternLength

/-- The operations differ from the beginning of those that the server has received, and it has
received some. -/
def Differs (ops server : List Operation) : Prop :=
  server ≠ [] ∧ ¬ ops.map Operation.toLower <+: server.map Operation.toLower

end

section

variable {xs : List OwnCloudExchange} {db : OwnCloudDatabase}

theorem syncRows_eq : syncRows xs = (batches xs).map fun q ↦ q.2.syncRow q.1 := by
  rw [syncRows, batches, numberedRows, numberedRows, List.map_flatMap]
  refine List.flatMap_congr fun p _ ↦ ?_
  dsimp only
  cases p.1.batch <;> rfl

theorem operations_ne_nil_of_batch {x : OwnCloudExchange} {b : Batch} (h : x.batch = some b) :
    b.operations ≠ [] := by
  cases x with
  | added req rsp ops =>
    obtain ⟨hne, heq⟩ := Option.ite_none_left_eq_some.1 h
    exact Option.some.inj heq ▸ hne
  | served req rsp ops =>
    obtain ⟨hne, heq⟩ := Option.ite_none_left_eq_some.1 h
    exact Option.some.inj heq ▸ hne
  | refused req rsp => cases h
  | command req rsp => cases h
  | other req rsp => cases h

/-- A batch has operations, and its texts need no escaping. -/
theorem batch_of_mem (hxs : ∀ x ∈ xs, x.Readable) {n : ℕ} {b : Batch} (h : (n, b) ∈ batches xs) :
    b.operations ≠ [] ∧ 0 ∉ b.esid ∧ 0 ∉ b.update := by
  obtain ⟨m, x, hx, hb⟩ := mem_numberedRows.1 h
  obtain ⟨c, hc, heq⟩ := Option.map_eq_some_iff.1 (Option.mem_toList.1 hb)
  obtain ⟨-, rfl⟩ := Prod.mk.inj heq
  obtain ⟨hesid, hupdate⟩ := (hxs x (List.mem_of_getElem? hx)).quotable c hc
  exact ⟨operations_ne_nil_of_batch hc, hesid.2, hupdate.2⟩

/-- The rows are read in their order. -/
theorem scan_eq (hdb : db.sync.rows = syncRows xs) : db.scan = syncRows xs := by
  rw [OwnCloudDatabase.scan, SqlQuery.orderBy, hdb]
  exact ((pairwise_time_syncRows xs).imp fun h ↦ h.le).insertionSort_eq

/-- **The texts of rows are the commands of operations.** -/
theorem texts_eq (hdb : db.sync.rows = syncRows xs) (hxs : ∀ x ∈ xs, x.Readable)
    {p : SyncRow → Prop} [DecidablePred p] {p' : ℕ → Batch → Prop} [∀ n, DecidablePred (p' n)]
    (h : ∀ q ∈ batches xs, p (q.2.syncRow q.1) ↔ p' q.1 q.2) :
    db.texts p = (operationsOf xs p').flatMap Operation.command := by
  rw [OwnCloudDatabase.texts, scan_eq hdb, syncRows_eq, List.filter_map, List.flatMap_map,
    operationsOf, List.flatMap_assoc]
  have hfilter : (batches xs).filter ((fun s ↦ decide (p s)) ∘ fun q ↦ q.2.syncRow q.1) =
      (batches xs).filter fun q ↦ decide (p' q.1 q.2) :=
    List.filter_congr fun q hq ↦ decide_eq_decide.2 (h q hq)
  rw [hfilter]
  refine List.flatMap_congr fun q hq ↦ ?_
  exact cStr_eq_self (batch_of_mem hxs (List.mem_of_mem_filter hq)).2.2

theorem inSession_syncRow_iff (hxs : ∀ x ∈ xs, x.Readable) {n m : ℕ} {b c : Batch}
    (hb : (n, b) ∈ batches xs) (hc : (m, c) ∈ batches xs) :
    InSession (b.syncRow n) (c.syncRow m) ↔ c.esid = b.esid ∧ m ≤ n := by
  have hesid : (c.syncRow m).esid = (b.syncRow n).esid ↔ c.esid = b.esid := by
    refine ⟨fun h ↦ ?_, congrArg CString.ofBuffer⟩
    have hbytes : cStr c.esid = cStr b.esid := congrArg CString.bytes h
    rwa [cStr_eq_self (batch_of_mem hxs hc).2.1, cStr_eq_self (batch_of_mem hxs hb).2.1] at hbytes
  exact and_congr hesid Int.ofNat_le

section Batch

variable (hdb : db.sync.rows = syncRows xs) (hxs : ∀ x ∈ xs, x.Readable) {n : ℕ} {b : Batch}
  (hb : (n, b) ∈ batches xs)

include hdb hxs hb

theorem received_eq : db.received (b.syncRow n) =
    (serverOperations xs n b.esid).flatMap Operation.command :=
  texts_eq hdb hxs fun _ hq ↦ and_congr_left' (inSession_syncRow_iff hxs hb hq)

theorem queried_eq : db.queried (b.syncRow n) =
    (queriedOperations xs n b.esid b.receiver).flatMap Operation.command :=
  texts_eq hdb hxs fun _ hq ↦ or_congr_left (and_congr_left' (inSession_syncRow_iff hxs hb hq))

/-- The server has received something if it has received an operation. -/
theorem heard_iff : db.Heard (b.syncRow n) ↔ serverOperations xs n b.esid ≠ [] := by
  rw [OwnCloudDatabase.Heard, hdb, syncRows_eq, serverOperations, operationsOf, Ne,
    List.flatMap_eq_nil_iff, not_forall]
  constructor
  · rintro ⟨s, hs, hsession, hserver⟩
    obtain ⟨q, hq, rfl⟩ := List.mem_map.1 hs
    have hmem : q ∈ (batches xs).filter fun q ↦ decide ((q.2.esid = b.esid ∧ q.1 ≤ n) ∧
        q.2.receiver = 0) :=
      List.mem_filter.2 ⟨hq, decide_eq_true ⟨(inSession_syncRow_iff hxs hb hq).1 hsession, hserver⟩⟩
    exact ⟨q, fun hnil ↦ (batch_of_mem hxs hq).1 (hnil hmem)⟩
  · rintro ⟨q, hq⟩
    obtain ⟨hmem, -⟩ := not_forall.1 hq
    obtain ⟨hq, hp⟩ := List.mem_filter.1 hmem
    obtain ⟨hsession, hserver⟩ := of_decide_eq_true hp
    exact ⟨_, List.mem_map_of_mem hq, (inSession_syncRow_iff hxs hb hq).2 hsession, hserver⟩

end Batch

/-- No pattern is too long. -/
theorem not_aborted (hdb : db.sync.rows = syncRows xs) (hxs : ∀ x ∈ xs, x.Readable)
    (hlegible : LegibleBatches xs) (o : SyncRow) : ¬ db.Aborted o := by
  rintro ⟨s, hs, -, -, hlong⟩
  rw [hdb, syncRows_eq] at hs
  obtain ⟨q, hq, rfl⟩ := List.mem_map.1 hs
  rw [queried_eq hdb hxs hq, queriedOperations, operationsOf, List.flatMap_assoc] at hlong
  exact absurd hlong (Nat.not_le.2
    ((List.filter_sublist.flatMap _).length_le.trans_lt hlegible.length_lt))

theorem LegibleBatches.legible_operationsOf (h : LegibleBatches xs) (p : ℕ → Batch → Prop)
    [∀ n, DecidablePred (p n)] : ∀ op ∈ operationsOf xs p, op.Legible := by
  intro op hop
  obtain ⟨q, hq, hop⟩ := List.mem_flatMap.1 hop
  exact h.legible q (List.mem_of_mem_filter hq) op hop

/-- **What the query reports**, in terms of operations. -/
theorem mem_soundnessRows_syncRow_iff (hdb : db.sync.rows = syncRows xs)
    (hxs : ∀ x ∈ xs, x.Readable) (hlegible : LegibleBatches xs) {n : ℕ} {b : Batch}
    (hb : (n, b) ∈ batches xs) (hserver : b.sender = 0) :
    b.syncRow n ∈ db.soundnessRows ↔
      Differs (queriedOperations xs n b.esid b.receiver) (serverOperations xs n b.esid) := by
  have hmem : b.syncRow n ∈ db.sync.rows := by
    rw [hdb, syncRows_eq]
    exact List.mem_map_of_mem hb
  have hqueried : ∀ op ∈ queriedOperations xs n b.esid b.receiver, op.Legible :=
    hlegible.legible_operationsOf _
  have hreceived : ∀ op ∈ serverOperations xs n b.esid, op.Legible :=
    hlegible.legible_operationsOf _
  rw [mem_soundnessRows_iff hmem hserver, heard_iff hdb hxs hb, OwnCloudDatabase.Matches,
    queried_eq hdb hxs hb, received_eq hdb hxs hb,
    Operation.patternCompare_iff hqueried hreceived]
  exact and_iff_right (not_aborted hdb hxs hlegible _)

/-- Only batches of the server are reported. -/
theorem sender_of_mem_soundnessRows {o : SyncRow} (h : o ∈ db.soundnessRows) :
    o ∈ db.sync.rows ∧ o.sender = 0 := by
  rw [soundnessRows, OwnCloudDatabase.scan,
    SqlQuery.mem_selectUntilError_iff (SqlQuery.pairwise_lt_orderBy db.sync.nodup)] at h
  obtain ⟨hmem, hcond, -⟩ := h
  refine ⟨SqlQuery.mem_orderBy.1 hmem, ?_⟩
  by_contra hsender
  rw [unsound, if_neg hsender, Option.some.injEq, Option.some.injEq] at hcond
  exact Bool.false_ne_true hcond

/-- The row that reports a batch. -/
def Batch.reported (n : ℕ) (b : Batch) : ℤ × CString × ℤ × ℤ :=
  (n, .ofBuffer b.esid, b.sender, b.receiver)

theorem mem_soundnessQuery_iff (hdb : db.sync.rows = syncRows xs) (hxs : ∀ x ∈ xs, x.Readable)
    (hlegible : LegibleBatches xs) {row : ℤ × CString × ℤ × ℤ} :
    row ∈ db.soundnessQuery ↔ ∃ n b, (n, b) ∈ batches xs ∧ b.sender = 0 ∧ row = b.reported n ∧
      Differs (queriedOperations xs n b.esid b.receiver) (serverOperations xs n b.esid) := by
  constructor
  · intro h
    obtain ⟨o, ho, rfl⟩ := List.mem_map.1 h
    obtain ⟨hmem, hserver⟩ := sender_of_mem_soundnessRows ho
    rw [hdb, syncRows_eq] at hmem
    obtain ⟨⟨n, b⟩, hb, rfl⟩ := List.mem_map.1 hmem
    exact ⟨n, b, hb, hserver, rfl,
      (mem_soundnessRows_syncRow_iff hdb hxs hlegible hb hserver).1 ho⟩
  · rintro ⟨n, b, hb, hserver, rfl, hdiffers⟩
    exact List.mem_map.2 ⟨b.syncRow n,
      (mem_soundnessRows_syncRow_iff hdb hxs hlegible hb hserver).2 hdiffers, rfl⟩

/-- Numbers of exchanges tell batches apart. -/
theorem eq_of_reported_eq {n m : ℕ} {b c : Batch} (hb : (n, b) ∈ batches xs)
    (hc : (m, c) ∈ batches xs) (h : b.reported n = c.reported m) : n = m ∧ b = c := by
  obtain ⟨htime, -⟩ := Prod.mk.inj h
  obtain rfl := Int.ofNat.inj htime
  obtain ⟨i, x, hx, hb⟩ := mem_numberedRows.1 hb
  obtain ⟨j, y, hy, hc⟩ := mem_numberedRows.1 hc
  obtain ⟨b', hb', heq⟩ := Option.map_eq_some_iff.1 (Option.mem_toList.1 hb)
  obtain ⟨c', hc', heq'⟩ := Option.map_eq_some_iff.1 (Option.mem_toList.1 hc)
  obtain ⟨hi, rfl⟩ := Prod.mk.inj heq
  obtain ⟨hj, rfl⟩ := Prod.mk.inj heq'
  obtain rfl : i = j := by omega
  obtain rfl := Option.some.inj (hx.symm.trans hy)
  exact ⟨rfl, Option.some.inj (hb'.symm.trans hc')⟩

/-- For the last batch to a member of one session the query takes the right operations. -/
theorem queriedOperations_eq {n : ℕ} {b : Batch}
    (hlast : ∀ q ∈ batches xs, q.2.receiver = b.receiver → q.2.esid = b.esid ∧ q.1 ≤ n) :
    queriedOperations xs n b.esid b.receiver = memberOperations xs n b.esid b.receiver := by
  have hfilter : ((batches xs).filter fun q ↦ decide ((q.2.esid = b.esid ∧ q.1 ≤ n) ∧
        q.2.sender = b.receiver ∨ q.2.receiver = b.receiver)) =
      (batches xs).filter fun q ↦ decide ((q.2.esid = b.esid ∧ q.1 ≤ n) ∧
        (q.2.sender = b.receiver ∨ q.2.receiver = b.receiver)) := by
    refine List.filter_congr fun q hq ↦ decide_eq_decide.2 ?_
    have hq := hlast q hq
    tauto
  rw [queriedOperations, memberOperations, operationsOf, operationsOf, hfilter]

/-- More operations than the server has received are no beginning of these. -/
theorem differs_of_length_lt {ops server : List Operation} (hne : server ≠ [])
    (hlt : server.length < ops.length) : Differs ops server := by
  refine ⟨hne, fun hprefix ↦ ?_⟩
  have hle := hprefix.length_le
  rw [List.length_map, List.length_map] at hle
  omega

end

/-! ### The verdict -/

/-- **The audit of ownCloud traffic.** For any order of the callbacks of any number of connections
and any pieces, the run ends, and on the table it leaves the query returns exactly the batches of
the server where what the query takes for the member's operations differs from what the server has
received, if it can read all batches. So it is right about the last batch to a member whose number
is used in one session, and reports whatever is sent to a member who gets more in the end than the
server had received at the time. -/
theorem owncloudVerdict_of_traffic {K : Type} [DecidableEq K]
    (uncompress : ℕ → Bytes → Option Bytes) (T : Traffic owncloudWire K)
    (hcount : T.callbacks.length < 2147483647) {cfg : BuildConfig} (hdo : cfg.doInsert = true)
    (P : Platform) (mem : ℕ → AuditorMemory) (signs : ℕ → Option Signature)
    (hsigns : cfg.signs = true → ∀ n, (signs n).isSome = true) :
    ∃ ys st xs, T.LogsAs .owncloud uncompress owncloudStore .init cfg P mem signs ys st ∧
      xs = exchangesOf ys ∧ (LegibleBatches xs →
        (∀ row, row ∈ st.db.content.soundnessQuery ↔
          ∃ n b, (n, b) ∈ batches xs ∧ b.sender = 0 ∧ row = b.reported n ∧
            Differs (queriedOperations xs n b.esid b.receiver) (serverOperations xs n b.esid)) ∧
        ∀ n b, (n, b) ∈ batches xs → b.sender = 0 →
          ((∀ q ∈ batches xs, q.2.receiver = b.receiver → q.2.esid = b.esid ∧ q.1 ≤ n) →
            (b.reported n ∈ st.db.content.soundnessQuery ↔
              Differs (memberOperations xs n b.esid b.receiver)
                (serverOperations xs n b.esid))) ∧
          (serverOperations xs n b.esid ≠ [] →
            (serverOperations xs n b.esid).length <
              (queriedOperations xs n b.esid b.receiver).length →
            b.reported n ∈ st.db.content.soundnessQuery)) := by
  obtain ⟨ys, st, hlogs, hdb, -⟩ := T.exists_syncRows uncompress hcount hdo P mem signs hsigns
  have hxs : ∀ x ∈ exchangesOf ys, x.Readable := by
    intro x hx
    obtain ⟨y, -, rfl⟩ := List.mem_map.1 hx
    exact y.2.readable
  refine ⟨ys, st, _, hlogs, rfl, fun hlegible ↦ ⟨fun row ↦ mem_soundnessQuery_iff hdb hxs hlegible,
    fun n b hb hserver ↦ ?_⟩⟩
  have hreported : b.reported n ∈ st.db.content.soundnessQuery ↔
      Differs (queriedOperations (exchangesOf ys) n b.esid b.receiver)
        (serverOperations (exchangesOf ys) n b.esid) := by
    rw [mem_soundnessQuery_iff hdb hxs hlegible]
    constructor
    · rintro ⟨m, c, hc, -, heq, hdiffers⟩
      obtain ⟨rfl, rfl⟩ := eq_of_reported_eq hb hc heq
      exact hdiffers
    · exact fun hdiffers ↦ ⟨n, b, hb, hserver, rfl, hdiffers⟩
  refine ⟨fun hlast ↦ ?_, fun hne hlt ↦ hreported.2 (differs_of_length_lt hne hlt)⟩
  rw [hreported, queriedOperations_eq hlast]

/-! ### A batch that is sent twice -/

/-- A member's removal is sent twice to another member. -/
def addedThenServedTwice : WireConnection owncloudWire where
  answers := roomy
  exchanges := [.inPieces owncloudWire readable_removalAdded 50,
    .inPieces owncloudWire readable_removalServed 20,
    .inPieces owncloudWire readable_removalServed 20]
  succeed := roomy_succeed

theorem legible_removal : (Operation.removeText 7 1).Legible where
  unambiguous := trivial
  closing _ hs := Option.some.inj hs ▸ closing_notMem_toStr 1
  pattern _ hs := Option.some.inj hs ▸ PatternText.toStr 1

theorem legibleBatches_removals :
    LegibleBatches [removalAdded, removalServed, removalServed] where
  legible := by
    have hops : ∀ q ∈ batches [removalAdded, removalServed, removalServed],
        q.2.operations = [.removeText 7 1] := by
      decide +kernel
    intro q hq op hop
    rw [hops q hq, List.mem_singleton] at hop
    exact hop ▸ legible_removal
  length_lt := by decide +kernel

/-- Both times are reported: the first, as the query looks at what comes later, and the second. -/
theorem owncloudVerdict_of_traffic_keptAlive : ∃ ys st,
    addedThenServedTwice.traffic.LogsAs .owncloud (fun _ _ ↦ none) owncloudStore .init
      ⟨true, true, true, true⟩ twoRowPlatform (fun _ ↦ .zero) (fun _ ↦ some someSignature) ys st ∧
    (2, .ofBuffer (ascii "e"), 0, 8) ∈ st.db.content.soundnessQuery ∧
    (3, .ofBuffer (ascii "e"), 0, 8) ∈ st.db.content.soundnessQuery := by
  obtain ⟨ys, st, xs, hlogs, hxs, hquery⟩ := owncloudVerdict_of_traffic (fun _ _ ↦ none)
    addedThenServedTwice.traffic (by decide +kernel)
    (show (⟨true, true, true, true⟩ : BuildConfig).doInsert = true from rfl) twoRowPlatform
    (fun _ ↦ .zero) (fun _ ↦ some someSignature) fun _ _ ↦ rfl
  rw [exchangesOf_of_logsAs hlogs] at hxs
  obtain rfl : xs = [removalAdded, removalServed, removalServed] := hxs
  obtain ⟨-, hquery⟩ := hquery legibleBatches_removals
  have hsecond : (2, ⟨ascii "e", 0, 8, [.removeText 7 1], .inl rfl⟩) ∈
      batches [removalAdded, removalServed, removalServed] := .tail _ (.head _)
  have hthird : (3, ⟨ascii "e", 0, 8, [.removeText 7 1], .inl rfl⟩) ∈
      batches [removalAdded, removalServed, removalServed] := .tail _ (.tail _ (.head _))
  exact ⟨ys, st, hlogs, (hquery _ _ hsecond rfl).2 (by decide +kernel) (by decide +kernel),
    (hquery _ _ hthird rfl).2 (by decide +kernel) (by decide +kernel)⟩

end LibSeal
