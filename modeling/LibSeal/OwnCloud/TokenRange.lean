import LibSeal.OwnCloud.Docs

/-!
# Messages whose tokens are enough

`docsPoll` compares no index with the number of tokens but for the first. A search goes on behind
the last token if it finds nothing, and what follows a key, or the beginning of an operation, is
read at fixed distances from it. `PollFits` says of two arrays of tokens that everything that is
read is there, and `docsPoll_fits` that this is exactly when no access is out of range.

An access out of range is the only fault behind the reading of the tokens, and a search that finds
nothing is one, so that both are said of a computation by `FitsIff`.
-/

namespace LibSeal

open Bytes

/-! ### Computations with conditions -/

section Fits

variable {α β : Type}

/-- A computation stays in range exactly under a condition, and then it returns. -/
def FitsIff (x : Except CFault α) (P : Prop) : Prop :=
  (P → ∃ a, x = .ok a) ∧ (¬ P → x = .error .outOfBounds)

namespace FitsIff

theorem exists_ok_iff {x : Except CFault α} {P : Prop} (h : FitsIff x P) :
    (∃ a, x = .ok a) ↔ P := by
  refine ⟨fun ⟨a, ha⟩ ↦ ?_, h.1⟩
  by_contra hP
  rw [h.2 hP] at ha
  cases ha

theorem ne_outOfBounds_iff {x : Except CFault α} {P : Prop} (h : FitsIff x P) :
    x ≠ .error .outOfBounds ↔ P := by
  refine ⟨fun hx ↦ by_contra fun hP ↦ hx (h.2 hP), fun hP hx ↦ ?_⟩
  obtain ⟨a, ha⟩ := h.1 hP
  rw [ha] at hx
  cases hx

theorem congr {x : Except CFault α} {P Q : Prop} (h : FitsIff x P) (hPQ : P ↔ Q) : FitsIff x Q :=
  ⟨fun hQ ↦ h.1 (hPQ.2 hQ), fun hQ ↦ h.2 fun hP ↦ hQ (hPQ.1 hP)⟩

theorem pure (a : α) : FitsIff (Pure.pure a) True :=
  ⟨fun _ ↦ ⟨a, rfl⟩, fun h ↦ absurd trivial h⟩

theorem bind {x : Except CFault α} {f : α → Except CFault β} {P Q : Prop} (hx : FitsIff x P)
    (hf : ∀ a, x = .ok a → FitsIff (f a) Q) : FitsIff (x >>= f) (P ∧ Q) := by
  by_cases hP : P
  · obtain ⟨a, rfl⟩ := hx.1 hP
    exact (hf a rfl).congr (by simp [hP])
  · rw [hx.2 hP]
    exact ⟨fun h ↦ absurd h.1 hP, fun _ ↦ rfl⟩

theorem ite {x y : Except CFault α} {c P Q : Prop} [Decidable c] (hx : c → FitsIff x P)
    (hy : ¬ c → FitsIff y Q) : FitsIff (if c then x else y) ((c → P) ∧ (¬ c → Q)) := by
  by_cases hc : c
  · rw [if_pos hc]
    exact (hx hc).congr (by simp [hc])
  · rw [if_neg hc]
    exact (hy hc).congr (by simp [hc])

end FitsIff

end Fits

/-! ### Arrays of tokens -/

section Tokens

variable (tokens : List JsmnTok) (payload : Bytes)

/-- What `jsonGetString` reads of a token, if there is one. -/
def tokenString (i : ℕ) : Bytes := (tokens[i]?.map fun tok ↦ jsonGetString tok payload).getD []

def tokenType (i : ℕ) : JsmnType := (tokens[i]?.map JsmnTok.type).getD .undefined

def tokenSize (i : ℕ) : ℤ := (tokens[i]?.map JsmnTok.size).getD 0

/-- The field at `i` is in range: its name, and its value if it is the one that is looked for. -/
def FieldFits (field : Bytes) (i : ℕ) : Prop :=
  i < tokens.length ∧ (tokenString tokens payload i = field → i + 1 < tokens.length)

/-- The value of the field at `i`, which is empty if another one is there. -/
def fieldValue (field : Bytes) (i : ℕ) : Bytes :=
  if tokenString tokens payload i = field then tokenString tokens payload (i + 1) else []

/-- The first index from `p` on with a property. -/
def FirstFrom (P : ℕ → Prop) (p j : ℕ) : Prop := p ≤ j ∧ P j ∧ ∀ i, p ≤ i → i < j → ¬ P i

/-- An object that begins with the key `optype`. -/
def ElementAt (j : ℕ) : Prop :=
  tokenType tokens j = .object ∧ tokenType tokens (j + 1) = .string ∧
    tokenString tokens payload (j + 1) = owncloudOptype

/-- The last token that is read of the operation whose object is at `j`. -/
def lastOfOperation (j : ℕ) : ℕ :=
  let optype := tokenString tokens payload (j + 2)
  j + if optype = owncloudInsertText ∨ optype = owncloudRemoveText then 10
    else if optype = owncloudAddAnnotation then
      if tokenString tokens payload (j + 9) = owncloudLength then 12 else 10
    else 8

/-- So many operations are found from `pos` on, each of them in range. -/
def OperationsFit : ℕ → ℤ → Prop
  | 0, _ => True
  | n + 1, pos => 0 ≤ pos ∧ ∃ j, FirstFrom (ElementAt tokens payload) pos.toNat j ∧
      lastOfOperation tokens payload j < tokens.length ∧
      OperationsFit n (j + 1 + tokenSize tokens j * 2)

/-- A string that is `key`. -/
def KeyAt (key : Bytes) (i : ℕ) : Prop := i < tokens.length ∧ tokenString tokens payload i = key

/-- The key is found from `p` on, an array follows, and its operations are in range. -/
def UpdateFits (key : Bytes) (p : ℕ) : Prop :=
  ∃ j, FirstFrom (KeyAt tokens payload key) p j ∧ j + 1 < tokens.length ∧
    OperationsFit tokens payload (tokenSize tokens (j + 1)).toNat (j + 1)

/-- The arguments of a request, as far as they are read. -/
def ArgsFit : Prop :=
  3 < tokens.length ∧ (tokenString tokens payload 3 = owncloudArgs → 4 < tokens.length ∧
    (tokenType tokens 4 = .object →
      FieldFits tokens payload owncloudEsid 5 ∧ FieldFits tokens payload owncloudMemberId 7))

/-- Where the search in a request begins. -/
def argsEnd : ℕ :=
  if tokenString tokens payload 3 ≠ owncloudArgs then 4
  else if tokenType tokens 4 ≠ .object then 5 else 9

end Tokens

/-- Everything that is read in the tokens of a request and a response is there. -/
def PollFits (reqTokens rspTokens : List JsmnTok) (reqPayload rspPayload : Bytes) : Prop :=
  let command := fieldValue reqTokens reqPayload owncloudCommand 1
  let result := fieldValue rspTokens rspPayload owncloudResult 1
  tokenType reqTokens 0 = .object → tokenType rspTokens 0 = .object →
    FieldFits reqTokens reqPayload owncloudCommand 1 ∧
    FieldFits rspTokens rspPayload owncloudResult 1 ∧
    (command = owncloudSyncops → ArgsFit reqTokens reqPayload ∧
      (result = owncloudAdded →
        UpdateFits reqTokens reqPayload owncloudClientOps (argsEnd reqTokens reqPayload)) ∧
      (result = owncloudNewops ∨ result = owncloudConflict →
        UpdateFits rspTokens rspPayload owncloudOps 3))

/-! ### Single tokens -/

section Reads

variable {tokens : List JsmnTok} {payload : Bytes} {β : Type}

theorem tokenAt_of_lt {i : ℕ} (h : i < tokens.length) :
    ∃ tok, tokens[i]? = some tok ∧ tokenAt tokens i = .ok tok := by
  refine ⟨tokens[i], List.getElem?_eq_getElem h, ?_⟩
  rw [tokenAt, if_neg (by omega), Int.toNat_natCast, List.getElem?_eq_getElem h]

theorem tokenAt_of_not_lt {i : ℕ} (h : ¬ i < tokens.length) :
    tokenAt tokens i = .error .outOfBounds := by
  rw [tokenAt, if_neg (by omega), Int.toNat_natCast, List.getElem?_eq_none (not_lt.1 h)]

theorem fitsIff_tokenAt_bind {pos : ℤ} {i : ℕ} (hpos : pos = i) {f : JsmnTok → Except CFault β}
    {Q : Prop} (hf : ∀ tok, tokens[i]? = some tok → FitsIff (f tok) Q) :
    FitsIff (tokenAt tokens pos >>= f) (i < tokens.length ∧ Q) := by
  subst hpos
  by_cases h : i < tokens.length
  · obtain ⟨tok, hget, htok⟩ := tokenAt_of_lt h
    rw [htok]
    exact (hf tok hget).congr (by simp [h])
  · rw [tokenAt_of_not_lt h]
    exact ⟨fun hfits ↦ absurd hfits.1 h, fun _ ↦ rfl⟩

theorem fitsIff_stringTokenAt_bind {pos : ℤ} {i : ℕ} (hpos : pos = i)
    {f : Bytes → Except CFault β} {Q : Prop}
    (hf : i < tokens.length → FitsIff (f (tokenString tokens payload i)) Q) :
    FitsIff (stringTokenAt tokens pos payload >>= f) (i < tokens.length ∧ Q) := by
  subst hpos
  rw [stringTokenAt]
  by_cases h : i < tokens.length
  · obtain ⟨tok, hget, htok⟩ := tokenAt_of_lt h
    have hstring : tokenString tokens payload i = jsonGetString tok payload := by
      rw [tokenString, hget]
      rfl
    rw [htok]
    rw [hstring] at hf
    exact (hf h).congr (by simp [h])
  · rw [tokenAt_of_not_lt h]
    exact ⟨fun hfits ↦ absurd hfits.1 h, fun _ ↦ rfl⟩

theorem fitsIff_intTokenAt_bind {pos : ℤ} {i : ℕ} (hpos : pos = i) {f : ℤ → Except CFault β}
    {Q : Prop} (hf : ∀ n, FitsIff (f n) Q) :
    FitsIff (intTokenAt tokens pos payload >>= f) (i < tokens.length ∧ Q) := by
  subst hpos
  rw [intTokenAt]
  by_cases h : i < tokens.length
  · obtain ⟨tok, -, htok⟩ := tokenAt_of_lt h
    rw [htok]
    exact (hf _).congr (by simp [h])
  · rw [tokenAt_of_not_lt h]
    exact ⟨fun hfits ↦ absurd hfits.1 h, fun _ ↦ rfl⟩

/-- A field that is read. -/
theorem fitsIff_readField_bind {event : Event} {field : Bytes} {pos : ℤ} {i : ℕ} (hpos : pos = i)
    {f : Event × Bytes → Except CFault β} {Q : Prop}
    (hf : ∀ event, FitsIff (f (event, fieldValue tokens payload field i)) Q) :
    FitsIff (owncloudReadField event field tokens pos payload >>= f)
      (FieldFits tokens payload field i ∧ Q) := by
  have hread : owncloudReadField event field tokens pos payload >>= f =
      stringTokenAt tokens pos payload >>= fun name ↦
        if name ≠ field then f (event, [])
        else stringTokenAt tokens (pos + 1) payload >>= fun result ↦
          f (event.add ⟨.owncloud, field, .string result⟩, result) := by
    rw [owncloudReadField, bind_assoc]
    congr 1
    funext name
    split_ifs
    · rfl
    · rw [bind_assoc]
      rfl
  rw [hread]
  refine (fitsIff_stringTokenAt_bind hpos fun h ↦ FitsIff.ite (P := Q)
    (Q := i + 1 < tokens.length ∧ Q) (fun hne ↦ ?_) fun heq ↦ ?_).congr ?_
  · have hvalue := hf event
    rwa [fieldValue, if_neg hne] at hvalue
  · have hvalue := hf (event.add ⟨.owncloud, field, .string (tokenString tokens payload (i + 1))⟩)
    rw [fieldValue, if_pos (not_not.1 heq)] at hvalue
    exact fitsIff_stringTokenAt_bind (by omega) fun _ ↦ hvalue
  · rw [FieldFits]
    by_cases hname : tokenString tokens payload i = field <;> simp [hname, and_assoc]

/-! ### Operations -/

/-- An operation is in range if the last token is that is read of it. -/
theorem fitsIff_commandAt {pos : ℤ} {j : ℕ} (hpos : pos = j + 1) :
    FitsIff (commandAt tokens pos payload) (lastOfOperation tokens payload j < tokens.length) := by
  set optype := tokenString tokens payload (j + 2) with hoptype
  set nameIdx := j + if tokenString tokens payload (j + 9) = owncloudLength then 12 else 10
    with hnameIdx
  -- the reads of each branch, in the order of the source
  have hread : FitsIff (commandAt tokens pos payload) (j + 2 < tokens.length ∧
      j + 8 < tokens.length ∧
      (optype = owncloudInsertText → j + 10 < tokens.length ∧ True) ∧
      (¬ optype = owncloudInsertText →
        (optype = owncloudRemoveText → j + 10 < tokens.length ∧ True) ∧
        (¬ optype = owncloudRemoveText →
          (optype = owncloudSplitParagraph → True) ∧
          (¬ optype = owncloudSplitParagraph →
            (optype = owncloudAddAnnotation →
              j + 9 < tokens.length ∧ nameIdx < tokens.length ∧ True) ∧
            (¬ optype = owncloudAddAnnotation →
              (optype = owncloudRemoveAnnotation → True) ∧
              (¬ optype = owncloudRemoveAnnotation → True)))))) := by
    rw [commandAt]
    refine fitsIff_stringTokenAt_bind (by omega) fun _ ↦ ?_
    refine fitsIff_intTokenAt_bind (by omega) fun position ↦ ?_
    refine .ite (fun _ ↦ fitsIff_stringTokenAt_bind (by omega) fun _ ↦ .pure _) fun _ ↦ ?_
    refine .ite (fun _ ↦ fitsIff_intTokenAt_bind (by omega) fun _ ↦ .pure _) fun _ ↦ ?_
    refine .ite (fun _ ↦ .pure _) fun _ ↦ .ite (fun _ ↦ ?_) fun _ ↦
      .ite (fun _ ↦ .pure _) fun _ ↦ .pure _
    refine fitsIff_stringTokenAt_bind (by omega) fun _ ↦ ?_
    exact fitsIff_stringTokenAt_bind (by rw [hnameIdx]; split_ifs <;> omega) fun _ ↦ .pure _
  -- of the reads of a branch, the last one decides
  refine hread.congr ?_
  rw [lastOfOperation, ← hoptype]
  by_cases hinsert : optype = owncloudInsertText
  · simp only [eq_true hinsert, true_or, if_true, not_true_eq_false, false_implies, true_implies,
      and_true]
    omega
  · by_cases hremove : optype = owncloudRemoveText
    · simp only [eq_false hinsert, eq_true hremove, or_true, if_true, not_true_eq_false,
        not_false_eq_true, false_implies, true_implies, and_true, true_and]
      omega
    · by_cases hadd : optype = owncloudAddAnnotation
      · have hsplit : ¬ optype = owncloudSplitParagraph := by
          rw [hadd]
          decide
        simp only [eq_false hinsert, eq_false hremove, eq_false hsplit, eq_true hadd, or_self,
          if_false, if_true, not_true_eq_false, not_false_eq_true, false_implies, true_implies,
          and_true, true_and]
        split_ifs at hnameIdx ⊢ <;> omega
      · simp only [eq_false hinsert, eq_false hremove, eq_false hadd, or_self, if_false,
          not_false_eq_true, false_implies, implies_true, and_true]
        omega

theorem le_lastOfOperation (j : ℕ) : j ≤ lastOfOperation tokens payload j :=
  Nat.le_add_right _ _

theorem fitsIff_updateDoc_1_bind {j : ℕ} {f : Bytes × ℤ → Except CFault β} {Q : Prop}
    (hf : ∀ text, FitsIff (f (text, j + 1 + tokenSize tokens j * 2)) Q) :
    FitsIff (updateDoc_1 tokens j payload >>= f)
      (lastOfOperation tokens payload j < tokens.length ∧ Q) := by
  have hread : FitsIff (updateDoc_1 tokens j payload >>= f) (j < tokens.length ∧
      lastOfOperation tokens payload j < tokens.length ∧ Q) := by
    rw [updateDoc_1, bind_assoc]
    refine fitsIff_tokenAt_bind rfl fun tok htok ↦ ?_
    rw [bind_assoc]
    refine (fitsIff_commandAt rfl).bind fun command _ ↦ ?_
    have hsize : tokenSize tokens j = tok.size := by
      rw [tokenSize, htok]
      rfl
    have hnext := hf (inBrackets command)
    rwa [hsize] at hnext
  refine hread.congr ⟨fun h ↦ h.2, fun h ↦ ⟨?_, h⟩⟩
  exact (le_lastOfOperation j).trans_lt h.1

/-! ### Searches -/

/-- The first index from `p` on is `p` or behind it. -/
theorem firstFrom_succ_iff {P : ℕ → Prop} {p : ℕ} (hp : ¬ P p) {j : ℕ} :
    FirstFrom P (p + 1) j ↔ FirstFrom P p j := by
  constructor
  · rintro ⟨hle, hj, hbefore⟩
    refine ⟨by omega, hj, fun i hi hij ↦ ?_⟩
    rcases Nat.eq_or_lt_of_le hi with rfl | hi
    · exact hp
    · exact hbefore i hi hij
  · rintro ⟨hle, hj, hbefore⟩
    have hne : p ≠ j := fun heq ↦ hp (heq ▸ hj)
    exact ⟨by omega, hj, fun i hi hij ↦ hbefore i (by omega) hij⟩

theorem firstFrom_self {P : ℕ → Prop} {p : ℕ} (hp : P p) : FirstFrom P p p :=
  ⟨le_rfl, hp, fun i hi hip ↦ by omega⟩

theorem firstFrom_unique {P : ℕ → Prop} {p i j : ℕ} (hi : FirstFrom P p i) (hj : FirstFrom P p j) :
    i = j := by
  rcases lt_trichotomy i j with hlt | heq | hlt
  · exact absurd hi.2.1 (hj.2.2 i hi.1 hlt)
  · exact heq
  · exact absurd hj.2.1 (hi.2.2 j hj.1 hlt)

/-- A search that skips tokens up to one with a property, of which it reads `c` more, and fails
behind the last. -/
theorem search_spec {search : List JsmnTok → Except CFault ℕ} {P : ℕ → Prop} {c : ℕ}
    (hnil : search [] = .error .outOfBounds)
    (hfound : ∀ p < tokens.length, P p → search (tokens.drop p) = .ok c)
    (hskip : ∀ p < tokens.length, ¬ P p →
      search (tokens.drop p) = (search (tokens.drop (p + 1))).map (· + 1))
    (hlt : ∀ p, P p → p < tokens.length) (p : ℕ) :
    (∀ j, FirstFrom P p j → search (tokens.drop p) = .ok (j - p + c)) ∧
      ((¬ ∃ j, FirstFrom P p j) → search (tokens.drop p) = .error .outOfBounds) := by
  -- on the number of tokens that are left
  induction hn : tokens.length - p generalizing p with
  | zero =>
    have hnone : ∀ j, ¬ FirstFrom P p j := by
      rintro j ⟨hle, hj, -⟩
      have hjlt := hlt j hj
      omega
    refine ⟨fun j hj ↦ absurd hj (hnone j), fun _ ↦ ?_⟩
    rw [List.drop_eq_nil_of_le (by omega), hnil]
  | succ n ih =>
    by_cases hp : P p
    · refine ⟨fun j hj ↦ ?_, fun hnone ↦ absurd ⟨p, firstFrom_self hp⟩ hnone⟩
      rw [← firstFrom_unique (firstFrom_self hp) hj, Nat.sub_self, Nat.zero_add]
      exact hfound p (by omega) hp
    · obtain ⟨hok, herror⟩ := ih (p + 1) (by omega)
      rw [hskip p (by omega) hp]
      constructor
      · intro j hj
        have hj' := (firstFrom_succ_iff hp).2 hj
        have hle := hj'.1
        rw [hok j hj', Except.map]
        exact congrArg Except.ok (by omega)
      · intro hnone
        rw [herror fun hex ↦ hnone (hex.imp fun j hj ↦ (firstFrom_succ_iff hp).1 hj)]
        rfl

theorem keyIn_spec (tokens : List JsmnTok) (payload key : Bytes) (p : ℕ) :
    (∀ j, FirstFrom (KeyAt tokens payload key) p j →
      keyIn payload key (tokens.drop p) = .ok (j - p + 1)) ∧
      ((¬ ∃ j, FirstFrom (KeyAt tokens payload key) p j) →
        keyIn payload key (tokens.drop p) = .error .outOfBounds) := by
  have hstring : ∀ p (h : p < tokens.length),
      tokenString tokens payload p = jsonGetString tokens[p] payload := by
    intro p h
    rw [tokenString, List.getElem?_eq_getElem h]
    rfl
  refine search_spec rfl (fun p hp hkey ↦ ?_) (fun p hp hkey ↦ ?_) (fun p hp ↦ hp.1) p
  · rw [List.drop_eq_getElem_cons hp, keyIn, if_neg (not_not.2 ((hstring p hp).symm.trans hkey.2))]
  · rw [List.drop_eq_getElem_cons hp, keyIn, if_pos fun heq ↦ hkey ⟨hp, (hstring p hp).trans heq⟩]

theorem optypeObjectIn_spec (tokens : List JsmnTok) (payload : Bytes) (p : ℕ) :
    (∀ j, FirstFrom (ElementAt tokens payload) p j →
      optypeObjectIn payload owncloudOptype (tokens.drop p) = .ok (j - p + 0)) ∧
      ((¬ ∃ j, FirstFrom (ElementAt tokens payload) p j) →
        optypeObjectIn payload owncloudOptype (tokens.drop p) = .error .outOfBounds) := by
  have hhead : ∀ p, (tokens.drop (p + 1)).head? = tokens[p + 1]? := fun p ↦ List.head?_drop
  have htype : ∀ p (h : p < tokens.length), tokenType tokens p = tokens[p].type := by
    intro p h
    rw [tokenType, List.getElem?_eq_getElem h]
    rfl
  refine search_spec rfl (fun p hp helement ↦ ?_) (fun p hp helement ↦ ?_) (fun p helement ↦ ?_) p
  · obtain ⟨hobject, hstring, hoptype⟩ := helement
    rw [htype p hp] at hobject
    rw [List.drop_eq_getElem_cons hp, optypeObjectIn, if_neg (not_not.2 hobject), hhead]
    rw [tokenType] at hstring
    rw [tokenString] at hoptype
    rcases hkey : tokens[p + 1]? with - | key
    · rw [hkey] at hstring
      cases hstring
    · rw [hkey] at hstring hoptype
      exact if_neg (not_or.2 ⟨not_not.2 hstring, not_not.2 hoptype⟩)
  · rw [List.drop_eq_getElem_cons hp, optypeObjectIn]
    by_cases hobject : tokens[p].type = .object
    · rw [if_neg (not_not.2 hobject), hhead]
      rcases hkey : tokens[p + 1]? with - | key
      · -- an object that is the last token
        rw [List.drop_eq_nil_of_le (List.getElem?_eq_none_iff.1 hkey)]
        rfl
      · refine if_pos ?_
        by_contra hboth
        rw [not_or, not_not, not_not] at hboth
        refine helement ⟨(htype p hp).trans hobject, ?_, ?_⟩
        · rw [tokenType, hkey]
          exact hboth.1
        · rw [tokenString, hkey]
          exact hboth.2
    · exact if_pos hobject
  · by_contra hp
    have hobject := helement.1
    rw [tokenType, List.getElem?_eq_none (not_lt.1 hp)] at hobject
    cases hobject

/-! ### Updates -/

/-- **The operations of an array.** -/
theorem fitsIff_updateDocRounds (n : ℕ) (pos : ℤ) :
    FitsIff (updateDocRounds tokens payload n pos) (OperationsFit tokens payload n pos) := by
  induction n generalizing pos with
  | zero => exact .pure _
  | succ n ih =>
    rw [updateDocRounds, OperationsFit]
    by_cases hpos : 0 ≤ pos
    · have hspec := optypeObjectIn_spec tokens payload pos.toNat
      by_cases hex : ∃ j, FirstFrom (ElementAt tokens payload) pos.toNat j
      · obtain ⟨j, hj⟩ := hex
        have hle := hj.1
        have hskip : skipToNextOptypeObject tokens pos payload owncloudOptype = .ok (j : ℤ) := by
          have hj' : pos + (j - pos.toNat + 0 : ℕ) = j := by omega
          rw [skipToNextOptypeObject, if_neg (by omega), hspec.1 j hj]
          exact congrArg Except.ok hj'
        rw [hskip]
        have hround : FitsIff (updateDoc_1 tokens j payload >>= fun r ↦ do
            let rest ← updateDocRounds tokens payload n r.2
            return (r.1 ++ rest.1, rest.2)) (lastOfOperation tokens payload j < tokens.length ∧
              OperationsFit tokens payload n (j + 1 + tokenSize tokens j * 2) ∧ True) :=
          fitsIff_updateDoc_1_bind fun text ↦ (ih _).bind fun r _ ↦ .pure _
        refine hround.congr ⟨fun h ↦ ⟨hpos, j, hj, h.1, h.2.1⟩, ?_⟩
        rintro ⟨-, k, hk, hlast, hrest⟩
        rw [firstFrom_unique hj hk]
        exact ⟨hlast, hrest, trivial⟩
      · -- no element is left, and the search reads past the last token
        have hskip : skipToNextOptypeObject tokens pos payload owncloudOptype =
            .error .outOfBounds := by
          rw [skipToNextOptypeObject, if_neg (by omega), hspec.2 hex]
          rfl
        rw [hskip]
        exact ⟨fun h ↦ absurd (h.2.imp fun j hj ↦ hj.1) hex, fun _ ↦ rfl⟩
    · rw [skipToNextOptypeObject, if_pos (by omega)]
      exact ⟨fun h ↦ absurd h.1 hpos, fun _ ↦ rfl⟩

/-- A search and the update behind. -/
theorem fitsIff_updateBehind {key : Bytes} {event : Event} {pos : ℤ} {p : ℕ} (hpos : pos = p) :
    FitsIff (updateBehind key event tokens pos payload) (UpdateFits tokens payload key p) := by
  subst hpos
  obtain ⟨hok, herror⟩ := keyIn_spec tokens payload key p
  rw [updateBehind, Int.toNat_natCast]
  by_cases hex : ∃ j, FirstFrom (KeyAt tokens payload key) p j
  · obtain ⟨j, hj⟩ := hex
    have hle := hj.1
    rw [hok j hj]
    have hupdate : FitsIff (updateDoc tokens ((p : ℤ) + (j - p + 1 : ℕ)) payload >>= fun r ↦
        Pure.pure (event.add ⟨.owncloud, owncloudUpdate, .string r.1⟩))
        ((j + 1 < tokens.length ∧
          OperationsFit tokens payload (tokenSize tokens (j + 1)).toNat (j + 1)) ∧ True) := by
      refine FitsIff.bind ?_ fun r _ ↦ .pure _
      refine fitsIff_tokenAt_bind (by omega) fun tok htok ↦ ?_
      have hsize : tokenSize tokens (j + 1) = tok.size := by
        rw [tokenSize, htok]
        rfl
      have hat : (p : ℤ) + (j - p + 1 : ℕ) = j + 1 := by omega
      rw [hsize, hat]
      exact fitsIff_updateDocRounds _ _
    refine hupdate.congr ⟨fun h ↦ ⟨j, hj, h.1⟩, ?_⟩
    rintro ⟨k, hk, hfits⟩
    rw [firstFrom_unique hj hk]
    exact ⟨hfits, trivial⟩
  · rw [herror hex]
    exact ⟨fun h ↦ absurd (h.imp fun j hj ↦ hj.1) hex, fun _ ↦ rfl⟩

/-! ### Polls -/

/-- The arguments of a request. -/
theorem fitsIff_readArgs_bind {request : Event} {f : Event × ℤ → Except CFault β} {Q : Prop}
    (hf : ∀ request, FitsIff (f (request, argsEnd tokens payload)) Q) :
    FitsIff (readArgs request tokens payload >>= f) (ArgsFit tokens payload ∧ Q) := by
  -- the arguments are left out, are no object, or are an object whose fields are read
  have hread : readArgs request tokens payload >>= f =
      stringTokenAt tokens 3 payload >>= fun args ↦
        if args ≠ owncloudArgs then f (request, 4)
        else tokenAt tokens 4 >>= fun value ↦
          if value.type ≠ .object then f (request, 5)
          else owncloudReadField request owncloudEsid tokens 5 payload >>= fun r ↦
            owncloudReadField (r.1.add ⟨.owncloud, owncloudEsid, .string r.2⟩) owncloudMemberId
              tokens 7 payload >>= fun r ↦
                f (r.1.add ⟨.owncloud, owncloudMemberid, .string r.2⟩, 9) := by
    rw [readArgs, bind_assoc]
    congr 1
    funext args
    split_ifs
    · rfl
    · rw [bind_assoc]
      congr 1
      funext value
      split_ifs
      · rfl
      · rw [bind_assoc]
        congr 1
        funext r
        rw [bind_assoc]
        rfl
  have hfits : FitsIff (readArgs request tokens payload >>= f) (3 < tokens.length ∧
      (tokenString tokens payload 3 ≠ owncloudArgs → Q) ∧
      (¬ tokenString tokens payload 3 ≠ owncloudArgs → 4 < tokens.length ∧
        (tokenType tokens 4 ≠ .object → Q) ∧
        (¬ tokenType tokens 4 ≠ .object → FieldFits tokens payload owncloudEsid 5 ∧
          FieldFits tokens payload owncloudMemberId 7 ∧ Q))) := by
    rw [hread]
    refine fitsIff_stringTokenAt_bind rfl fun _ ↦ .ite (fun hargs ↦ ?_) fun hargs ↦
      fitsIff_tokenAt_bind rfl fun tok htok ↦ ?_
    · have hend := hf request
      rwa [argsEnd, if_pos hargs] at hend
    · have hvalue : tokenType tokens 4 = tok.type := by
        rw [tokenType, htok]
        rfl
      rw [hvalue]
      refine .ite (fun hobject ↦ ?_) fun hobject ↦
        fitsIff_readField_bind rfl fun _ ↦ fitsIff_readField_bind rfl fun _ ↦ ?_
      · have hend := hf request
        rwa [argsEnd, if_neg hargs, hvalue, if_pos hobject] at hend
      · have hend := hf
        rw [argsEnd, if_neg hargs, hvalue, if_neg hobject] at hend
        exact hend _
  refine hfits.congr ?_
  rw [ArgsFit]
  by_cases hargs : tokenString tokens payload 3 = owncloudArgs <;>
    by_cases hobject : tokenType tokens 4 = .object <;> simp [hargs, hobject, and_assoc]

end Reads

/-- **A poll stays in range exactly if the tokens are enough.** -/
theorem fitsIff_pollTokens (request response : Event) (reqTokens rspTokens : List JsmnTok)
    (reqPayload rspPayload : Bytes) :
    FitsIff (pollTokens request response reqTokens rspTokens reqPayload rspPayload)
      (PollFits reqTokens rspTokens reqPayload rspPayload) := by
  have htype : ∀ tokens : List JsmnTok,
      tokens.head?.map JsmnTok.type = some .object ↔ tokenType tokens 0 = .object := by
    intro tokens
    cases tokens <;> simp [tokenType]
  rw [pollTokens, PollFits]
  by_cases hobjects : tokenType reqTokens 0 = .object ∧ tokenType rspTokens 0 = .object
  · rw [if_neg (by simpa [htype] using hobjects)]
    refine FitsIff.congr ?_ ⟨fun h _ _ ↦ h, fun h ↦ h hobjects.1 hobjects.2⟩
    refine fitsIff_readField_bind rfl fun request ↦ fitsIff_readField_bind rfl fun response ↦ ?_
    set command := fieldValue reqTokens reqPayload owncloudCommand 1
    set result := fieldValue rspTokens rspPayload owncloudResult 1
    -- a result that is `added` is not one of the others
    have hresult : result = owncloudAdded →
        ¬ (result = owncloudNewops ∨ result = owncloudConflict) := by
      intro hadded
      rw [hadded]
      decide
    refine FitsIff.congr (P := (command ≠ owncloudSyncops → True) ∧
      (¬ command ≠ owncloudSyncops → ArgsFit reqTokens reqPayload ∧
        (result = owncloudAdded → UpdateFits reqTokens reqPayload owncloudClientOps
          (argsEnd reqTokens reqPayload) ∧ True) ∧
        (¬ result = owncloudAdded →
          (result = owncloudNewops ∨ result = owncloudConflict →
            UpdateFits rspTokens rspPayload owncloudOps 3 ∧ True) ∧
          (¬ (result = owncloudNewops ∨ result = owncloudConflict) → True)))) ?_ ?_
    · refine .ite (fun _ ↦ .pure _) fun _ ↦ fitsIff_readArgs_bind fun request ↦ ?_
      refine .ite (fun _ ↦ (fitsIff_updateBehind rfl).bind fun _ _ ↦ .pure _) fun _ ↦ ?_
      exact .ite (fun _ ↦ (fitsIff_updateBehind rfl).bind fun _ _ ↦ .pure _) fun _ ↦ .pure _
    · by_cases hadded : result = owncloudAdded
      · simp [eq_true hadded, eq_false (hresult hadded)]
      · simp [hadded]
  · rw [if_pos (by simpa [htype, imp_iff_not_or] using hobjects)]
    exact (FitsIff.pure _).congr
      (iff_of_true trivial fun hreq hrsp ↦ absurd ⟨hreq, hrsp⟩ hobjects)

section Exchange

variable (reqJunk rspJunk : ℕ → JsmnTok) {request response : Event} {reqPayload rspPayload : Bytes}
  {reqLength rspLength : ℤ} {reqTokens rspTokens : List JsmnTok}

theorem fitsIff_docsPoll
    (hreq : getHttpPayloadLength request = .ok (some (reqPayload, reqLength)))
    (hrsp : getHttpPayloadLength response = .ok (some (rspPayload, rspLength)))
    (hreqTokens : payloadTokens reqJunk reqPayload reqLength = .ok reqTokens)
    (hrspTokens : payloadTokens rspJunk rspPayload rspLength = .ok rspTokens) :
    FitsIff (docsPoll reqJunk rspJunk request response)
      (PollFits reqTokens rspTokens reqPayload rspPayload) := by
  rw [docsPoll, hreq, CFault.ok_bind]
  dsimp only
  rw [hrsp, CFault.ok_bind]
  dsimp only
  rw [hreqTokens, CFault.ok_bind, hrspTokens, CFault.ok_bind]
  exact fitsIff_pollTokens request response reqTokens rspTokens reqPayload rspPayload

/-- **Tokens are read in range exactly if they are enough**: for every exchange with payloads that
`jsmn` finds tokens in, the poll returns if everything that it reads is there, and leaves one of the
two arrays otherwise. -/
theorem docsPoll_fits
    (hreq : getHttpPayloadLength request = .ok (some (reqPayload, reqLength)))
    (hrsp : getHttpPayloadLength response = .ok (some (rspPayload, rspLength)))
    (hreqTokens : payloadTokens reqJunk reqPayload reqLength = .ok reqTokens)
    (hrspTokens : payloadTokens rspJunk rspPayload rspLength = .ok rspTokens) :
    ((∃ events, docsPoll reqJunk rspJunk request response = .ok events) ↔
        PollFits reqTokens rspTokens reqPayload rspPayload) ∧
      (docsPoll reqJunk rspJunk request response ≠ .error .outOfBounds ↔
        PollFits reqTokens rspTokens reqPayload rspPayload) := by
  have hfits := fitsIff_docsPoll reqJunk rspJunk hreq hrsp hreqTokens hrspTokens
  exact ⟨hfits.exists_ok_iff, hfits.ne_outOfBounds_iff⟩

end Exchange

/-- A message with a payload, which is stored with a NUL behind it. -/
def pollEvent (payload : Bytes) : Event :=
  Event.add .empty ⟨.http, httpHeaderPayload, .bytes (payload ++ [0]) payload.length⟩

theorem getHttpPayloadLength_pollEvent {payload : Bytes} (h : 4 < payload.length) :
    getHttpPayloadLength (pollEvent payload) = .ok (some (payload ++ [0], payload.length)) := by
  have hparam : (pollEvent payload).getParam .http httpHeaderPayload =
      some ⟨.http, httpHeaderPayload, .bytes (payload ++ [0]) payload.length⟩ :=
    Event.getParam_add_self _ _
  have hshort : ¬ (0 ≤ (payload.length : ℤ) ∧ (payload.length : ℤ) ≤ 4) := by omega
  rw [getHttpPayloadLength, hparam]
  dsimp only
  rw [getHttpPayload, hparam]
  dsimp only [Param.getValueBytesLength]
  rw [CFault.ok_bind, if_neg hshort]
  rfl

theorem payloadTokens_of_le (junk : ℕ → JsmnTok) {payload : Bytes}
    (h : 0 ≤ jsonGetNrTokens payload) :
    payloadTokens junk (payload ++ [0]) payload.length =
      .ok (jsonReadTokens junk payload (jsonGetNrTokens payload)) := by
  have htake : (payload ++ [0]).take (payload.length : ℤ).toNat = payload := by
    rw [Int.toNat_natCast, List.take_left' rfl]
  have hlength : ¬ (payload.length : ℤ) < 0 := by omega
  rw [payloadTokens, if_neg hlength, htake, if_neg (not_lt.2 h)]

/-- A request that has no operations. -/
def syncRequest : Bytes :=
  ascii "\x7b\"command\":\"sync_ops\",\"args\":\x7b\"es_id\":\"e\",\"member_id\":\"1\"\x7d\x7d"

/-- The response that there is nothing new. -/
def upToDate : Bytes := ascii "\x7b\"result\":\"ok\"\x7d"

/-- The response that operations have been added. -/
def added : Bytes := ascii "\x7b\"result\":\"added\"\x7d"

def noTok : ℕ → JsmnTok := fun _ ↦ ⟨.undefined, 0, 0, 0⟩

theorem docsPoll_fits_upToDate :
    ((∃ events, docsPoll noTok noTok (pollEvent syncRequest) (pollEvent upToDate) = .ok events) ↔
        PollFits (jsonReadTokens noTok syncRequest (jsonGetNrTokens syncRequest))
          (jsonReadTokens noTok upToDate (jsonGetNrTokens upToDate)) (syncRequest ++ [0])
          (upToDate ++ [0])) ∧
      (docsPoll noTok noTok (pollEvent syncRequest) (pollEvent upToDate) ≠ .error .outOfBounds ↔
        PollFits (jsonReadTokens noTok syncRequest (jsonGetNrTokens syncRequest))
          (jsonReadTokens noTok upToDate (jsonGetNrTokens upToDate)) (syncRequest ++ [0])
          (upToDate ++ [0])) :=
  docsPoll_fits noTok noTok (getHttpPayloadLength_pollEvent (by decide +kernel))
    (getHttpPayloadLength_pollEvent (by decide +kernel))
    (payloadTokens_of_le noTok (by decide +kernel)) (payloadTokens_of_le noTok (by decide +kernel))

/-- The search for operations leaves a request that has none. -/
theorem not_docsPoll_fits_added :
    ¬ ∀ (reqJunk rspJunk : ℕ → JsmnTok) (request response : Event) (reqPayload rspPayload : Bytes)
      (reqLength rspLength : ℤ) (reqTokens rspTokens : List JsmnTok),
      getHttpPayloadLength request = .ok (some (reqPayload, reqLength)) →
      getHttpPayloadLength response = .ok (some (rspPayload, rspLength)) →
      payloadTokens reqJunk reqPayload reqLength = .ok reqTokens →
      payloadTokens rspJunk rspPayload rspLength = .ok rspTokens →
      docsPoll reqJunk rspJunk request response ≠ .error .outOfBounds := by
  intro h
  have hreq : getHttpPayloadLength (pollEvent syncRequest) =
      .ok (some (syncRequest ++ [0], syncRequest.length)) :=
    getHttpPayloadLength_pollEvent (by decide +kernel)
  have hrsp : getHttpPayloadLength (pollEvent added) = .ok (some (added ++ [0], added.length)) :=
    getHttpPayloadLength_pollEvent (by decide +kernel)
  have hnonneg : 0 ≤ jsonGetNrTokens syncRequest ∧ 0 ≤ jsonGetNrTokens added := by decide +kernel
  have hreqTokens := payloadTokens_of_le noTok hnonneg.1
  have hrspTokens := payloadTokens_of_le noTok hnonneg.2
  have hfits := fitsIff_docsPoll noTok noTok hreq hrsp hreqTokens hrspTokens
  have hrange := h _ _ _ _ _ _ _ _ _ _ hreq hrsp hreqTokens hrspTokens
  obtain ⟨events, hevents⟩ := hfits.1 (hfits.ne_outOfBounds_iff.1 hrange)
  have hfault : (docsPoll noTok noTok (pollEvent syncRequest) (pollEvent added)).toBool =
      false := by decide +kernel
  rw [hevents] at hfault
  cases hfault

end LibSeal
