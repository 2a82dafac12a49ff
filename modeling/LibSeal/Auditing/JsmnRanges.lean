import LibSeal.Auditing.JsmnAccepts

/-!
# The ranges of the tokens

What the tokens say about the text, for any byte string and any room, and also where the tokeniser
has given up: `jsonReadTokens` does not look at its result, and those who read the tokens have
nothing but them.

A token that has an end is a string between its quotes, a run of bytes that is a literal, or what
stands between two brackets of its type; one that has none begins at a bracket
(`JsmnTok.OfText`). Their ranges nest in the order in which they are listed, and a token counts no
more tokens than there are behind it, so that a reader who takes as many steps as a token's size
says does not leave the array.
-/

namespace LibSeal

open Bytes Json Nesting

/-! ### Tokens of a text -/

/-- The brackets around an object or array. -/
inductive BracketBytes : JsmnType → UInt8 → UInt8 → Prop
  | object : BracketBytes .object '\x7b'.toUInt8 '\x7d'.toUInt8
  | array : BracketBytes .array '['.toUInt8 ']'.toUInt8

/-- A token, whatever its size, and the place in the text that it is for. -/
inductive JsmnTok.OfText (js : Bytes) : JsmnTok → Prop
  | string (before : Bytes) (s : List StringChar) (behind : Bytes) (size : ℤ) :
      js = before ++ ('"'.toUInt8 :: (stringText s ++ '"'.toUInt8 :: behind)) →
      OfText js ⟨.string, before.length + 1, before.length + 1 + (stringText s).length, size⟩
  | primitive (before : Bytes) (l : Literal) (behind : Bytes) (size : ℤ) :
      js = before ++ (l.bytes ++ behind) →
      OfText js ⟨.primitive, before.length, before.length + l.bytes.length, size⟩
  | opened {type : JsmnType} {b c : UInt8} (before behind : Bytes) (size : ℤ) :
      BracketBytes type b c → js = before ++ b :: behind →
      OfText js ⟨type, before.length, -1, size⟩
  | between {type : JsmnType} {b c : UInt8} (before inside behind : Bytes) (size : ℤ) :
      BracketBytes type b c → js = before ++ (b :: (inside ++ c :: behind)) →
      OfText js ⟨type, before.length, before.length + 1 + inside.length + 1, size⟩

theorem JsmnTok.OfText.start_nonneg {js : Bytes} {tok : JsmnTok} (h : tok.OfText js) :
    0 ≤ tok.start := by
  cases h <;> dsimp only <;> omega

/-- A token is for the same place whatever its size. -/
theorem JsmnTok.OfText.resize {js : Bytes} {tok : JsmnTok} (h : tok.OfText js) (size : ℤ) :
    JsmnTok.OfText js { tok with size := size } := by
  cases h with
  | string before s behind _ hjs => exact .string before s behind size hjs
  | primitive before l behind _ hjs => exact .primitive before l behind size hjs
  | opened before behind _ hbytes hjs => exact .opened before behind size hbytes hjs
  | between before inside behind _ hbytes hjs => exact .between before inside behind size hbytes hjs

/-- An open token, closed by a bracket of its type further on. -/
theorem JsmnTok.OfText.close {js done rest : Bytes} {tok : JsmnTok} {b c : UInt8}
    (h : tok.OfText js) (hopen : tok.isOpen = true) (hbytes : BracketBytes tok.type b c)
    (hjs : js = done ++ c :: rest) (hlt : tok.start < done.length) :
    JsmnTok.OfText js { tok with stop := (done.length : ℤ) + 1 } := by
  cases h with
  | string before s behind size hjs' =>
    rw [isClosed_of_stop_nonneg (by dsimp only; omega)] at hopen
    cases hopen
  | primitive before l behind size hjs' =>
    rw [isClosed_of_stop_nonneg (by dsimp only; omega)] at hopen
    cases hopen
  | between before inside behind size hbytes' hjs' =>
    rw [isClosed_of_stop_nonneg (by dsimp only; omega)] at hopen
    cases hopen
  | @opened type b' c' before behind size hbytes' hjs' =>
    obtain rfl : b = b' := by
      cases hbytes <;> cases hbytes' <;> rfl
    -- the text in front of the closing bracket begins with that up to the opening one
    have hprefix : before ++ [b] <+: done := by
      refine List.prefix_of_prefix_length_le ⟨behind, ?_⟩ ⟨c :: rest, hjs.symm⟩ ?_
      · rw [List.append_assoc, hjs']
        rfl
      · rw [List.length_append, List.length_singleton]
        have hlt' : (before.length : ℤ) < done.length := hlt
        omega
    obtain ⟨inside, rfl⟩ := hprefix
    have hlength : ((before ++ [b] ++ inside).length : ℤ) + 1 =
        before.length + 1 + inside.length + 1 := by
      simp only [List.length_append, List.length_singleton]
      omega
    dsimp only
    rw [hlength]
    exact .between before inside rest size hbytes (by rw [hjs]; simp)

/-! ### The invariant -/

/-- A token counts no more tokens than are behind it. -/
def SizesInRange (tokens : List JsmnTok) : Prop :=
  ∀ (i : ℕ) (tok : JsmnTok), tokens[i]? = some tok → 0 ≤ tok.size ∧ i + tok.size < tokens.length

/-- Where the tokeniser is in a text, and what its tokens say about the text so far. -/
structure JsmnParser.Consistent (js : Bytes) (parser : JsmnParser) : Prop where
  ofText : ∀ tok ∈ parser.tokens, tok.OfText js
  nested : Nested parser.pos parser.spans
  sizes : SizesInRange parser.tokens
  super : parser.SuperInRange

theorem JsmnParser.Consistent.started {js : Bytes} {parser : JsmnParser}
    (h : parser.Consistent js) : parser.Started := fun tok htok ↦ (h.ofText tok htok).start_nonneg

theorem JsmnParser.consistent_init (js : Bytes) : JsmnParser.init.Consistent js where
  ofText _ htok := (nomatch htok)
  nested := .nil 0
  sizes _ _ htok := (nomatch htok)
  super _ hi := (nomatch hi)

/-- A new token is counted in one in front of it. -/
theorem sizesInRange_sizeUp {toksuper : Option ℕ} {tokens : List JsmnTok} {tok : JsmnTok}
    (h : SizesInRange tokens) (hsuper : ∀ i ∈ toksuper, i < tokens.length) (htok : tok.size = 0) :
    SizesInRange (sizeUp toksuper (tokens ++ [tok])) := by
  have happend : ∀ (i : ℕ) (tok' : JsmnTok), (tokens ++ [tok])[i]? = some tok' →
      0 ≤ tok'.size ∧ i + tok'.size ≤ tokens.length ∧ (i < tokens.length →
        i + tok'.size < tokens.length) := by
    intro i tok' hget
    rcases lt_or_ge i tokens.length with hi | hi
    · rw [List.getElem?_append_left hi] at hget
      obtain ⟨hnonneg, hlt⟩ := h i tok' hget
      exact ⟨hnonneg, hlt.le, fun _ ↦ hlt⟩
    · obtain ⟨hlength, -⟩ := List.getElem?_eq_some_iff.1 hget
      rw [List.length_append, List.length_singleton] at hlength
      obtain rfl : i = tokens.length := by omega
      rw [List.getElem?_append_right le_rfl, Nat.sub_self] at hget
      obtain rfl := Option.some.inj hget
      exact ⟨htok.ge, by rw [htok, Int.add_zero], fun hlt ↦ absurd hlt (lt_irrefl _)⟩
  intro i tok' hget
  rw [length_sizeUp, List.length_append, List.length_singleton]
  rcases toksuper with - | j
  · obtain ⟨hnonneg, hle, -⟩ := happend i tok' hget
    omega
  · rw [sizeUp, List.getElem?_modify] at hget
    obtain ⟨tok₀, hget₀, rfl⟩ := Option.map_eq_some_iff.1 hget
    obtain ⟨hnonneg, hle, hlt⟩ := happend i tok₀ hget₀
    have hj := hsuper j rfl
    split_ifs with hij
    · have hlt' := hlt (hij ▸ hj)
      dsimp only
      omega
    · omega

section Step

variable {js : Bytes} {parser parser' : JsmnParser}

/-- A token that begins where the tokeniser is, or behind. -/
theorem JsmnParser.Consistent.added (h : parser.Consistent js) {tok : JsmnTok}
    (htok : tok.OfText js) (hsize : tok.size = 0) (hstart : parser.pos ≤ tok.start)
    (hpos : tok.start < parser'.pos)
    (hstop : ∀ e ∈ tok.span.stop, tok.span.start ≤ e ∧ e ≤ parser'.pos)
    (htokens : parser'.tokens = sizeUp parser.toksuper (parser.tokens ++ [tok]))
    (hsuper : parser'.toksuper = parser.toksuper ∨ parser'.toksuper = some parser.tokens.length) :
    parser'.Consistent js where
  ofText := by
    have hresize : ∀ tok : JsmnTok,
        JsmnTok.OfText js { tok with size := tok.size + 1 } ↔ tok.OfText js :=
      fun tok ↦ ⟨fun h ↦ h.resize tok.size, fun h ↦ h.resize (tok.size + 1)⟩
    rw [htokens, forall_mem_sizeUp hresize, List.forall_mem_append]
    exact ⟨h.ofText, List.forall_mem_singleton.2 htok⟩
  nested := by
    rw [JsmnParser.spans, htokens, map_sizeUp fun _ ↦ rfl, List.map_append]
    have hnonneg := htok.start_nonneg
    refine h.nested.concat ?_ ?_ hstop
    · show parser.pos ≤ tok.start.toNat
      omega
    · show tok.start.toNat < parser'.pos
      omega
  sizes := by
    rw [htokens]
    exact sizesInRange_sizeUp h.sizes h.super hsize
  super i hi := by
    rw [htokens, length_sizeUp, List.length_append, List.length_singleton]
    rcases hsuper with hsuper | hsuper
    · exact Nat.lt_succ_of_lt (h.super i (hsuper ▸ hi))
    · rw [hsuper] at hi
      obtain rfl := Option.some.inj hi
      exact Nat.lt_succ_self _

/-- Reading on without a change to the tokens. -/
theorem JsmnParser.Consistent.skip (h : parser.Consistent js) (hpos : parser.pos ≤ parser'.pos)
    (htokens : parser'.tokens = parser.tokens) (hsuper : parser'.SuperInRange) :
    parser'.Consistent js where
  ofText := htokens ▸ h.ofText
  nested := by
    rw [JsmnParser.spans, htokens]
    exact h.nested.mono hpos
  sizes := htokens ▸ h.sizes
  super := hsuper

/-- The last token that is open ends. -/
theorem JsmnParser.Consistent.closed (h : parser.Consistent js) {xs ys : List JsmnTok}
    {tok : JsmnTok} (htokens : parser.tokens = xs ++ tok :: ys) (hopen : tok.isOpen = true)
    (hys : ∀ tok' ∈ ys, tok'.span.stop ≠ none)
    (htok : JsmnTok.OfText js { tok with stop := (parser.pos : ℤ) + 1 })
    (hpos : parser'.pos = parser.pos + 1)
    (htokens' : parser'.tokens = xs ++ { tok with stop := parser.pos + 1 } :: ys)
    (hsuper : parser'.toksuper = lastToken JsmnTok.isOpen parser'.tokens) :
    parser'.Consistent js where
  ofText := by
    have hold := h.ofText
    rw [htokens] at hold
    rw [htokens']
    simp only [List.forall_mem_append, List.forall_mem_cons] at hold ⊢
    exact ⟨hold.1, htok, hold.2.2⟩
  nested := by
    have hold := h.nested
    have hstop : tok.span.stop = none := by
      rw [JsmnTok.isOpen, Bool.and_eq_true, decide_eq_true_eq, decide_eq_true_eq] at hopen
      exact if_pos hopen.2
    rw [JsmnParser.spans, htokens, List.map_append, List.map_cons] at hold
    rw [JsmnParser.spans, htokens', List.map_append, List.map_cons, hpos]
    have hend : JsmnTok.span { tok with stop := (parser.pos : ℤ) + 1 } =
        { tok.span with stop := some (parser.pos + 1) } := by
      have hne : (parser.pos : ℤ) + 1 ≠ -1 := by omega
      rw [JsmnTok.span, if_neg hne]
      rfl
    rw [hend]
    exact hold.close hstop (List.forall_mem_map.2 hys) (Nat.lt_succ_self _)
  sizes := by
    have hold := h.sizes
    intro i tok' hget
    rw [htokens'] at hget ⊢
    rw [htokens] at hold
    have hsizes : (xs ++ { tok with stop := (parser.pos : ℤ) + 1 } :: ys).map JsmnTok.size =
        (xs ++ tok :: ys).map JsmnTok.size := by
      rw [List.map_append, List.map_append, List.map_cons, List.map_cons]
    have hmap := congrArg (·[i]?) hsizes
    simp only [List.getElem?_map, hget, Option.map_some] at hmap
    obtain ⟨tok₀, hget₀, hsize⟩ := Option.map_eq_some_iff.1 hmap.symm
    have hlength : (xs ++ { tok with stop := (parser.pos : ℤ) + 1 } :: ys).length =
        (xs ++ tok :: ys).length := by
      rw [List.length_append, List.length_append, List.length_cons, List.length_cons]
    rw [hlength, ← hsize]
    exact hold i tok₀ hget₀
  super i hi := by
    rw [hsuper] at hi
    by_contra hge
    have hget := map_of_lastToken hi
    rw [List.getElem?_eq_none (not_lt.1 hge)] at hget
    cases hget

end Step

/-! ### Reading -/

section Read

variable {n : ℕ} {js done rest : Bytes} {parser parser' : JsmnParser}

theorem eq_of_addToken_map {tok : JsmnTok} {f : JsmnParser → JsmnParser}
    (h : (parser.addToken (some n) tok).map f = .ok parser') :
    parser' = f { parser with
      tokens := sizeUp parser.toksuper (parser.tokens ++ [tok]), count := parser.count + 1 } := by
  rcases lt_or_ge parser.tokens.length n with hroom | hroom
  · rw [addToken_of_lt hroom] at h
    exact (Except.ok.inj h).symm
  · rw [addToken_of_ge hroom] at h
    cases h

theorem span_stop_of_nonneg {type : JsmnType} {p q size : ℤ} (hq : 0 ≤ q) :
    JsmnTok.span ⟨type, p, q, size⟩ = ⟨type, p.toNat, some q.toNat⟩ := by
  have hne : q ≠ -1 := by omega
  rw [JsmnTok.span, if_neg hne]

theorem JsmnParser.Consistent.begin (h : parser.Consistent js) {type : JsmnType} {b c : UInt8}
    (hbytes : BracketBytes type b c) (hjs : js = done ++ b :: rest)
    (hpos : parser.pos = done.length)
    (hread : (parser.begin (some n) type).map
      (fun parser' ↦ { parser' with pos := parser.pos + 1 }) = .ok parser') :
    parser'.Consistent js := by
  have hmap : (parser.addToken (some n) ⟨type, parser.pos, -1, 0⟩).map (fun parser' ↦
      { parser' with toksuper := some parser.tokens.length, pos := parser.pos + 1 }) =
        .ok parser' := by
    rw [← hread, JsmnParser.begin]
    rcases parser.addToken (some n) ⟨type, parser.pos, -1, 0⟩ with e | p <;> rfl
  have heq := eq_of_addToken_map hmap
  have htok : JsmnTok.OfText js ⟨type, parser.pos, -1, 0⟩ := by
    rw [hpos]
    exact .opened done rest 0 hbytes hjs
  rw [heq]
  exact h.added htok rfl le_rfl (by dsimp only; omega)
    (fun e he ↦ absurd he (Option.some_ne_none e).symm) rfl (Or.inr rfl)

theorem JsmnParser.Consistent.close (h : parser.Consistent js) {type : JsmnType} {b c : UInt8}
    (hbytes : BracketBytes type b c) (hjs : js = done ++ c :: rest)
    (hpos : parser.pos = done.length)
    (hread : (parser.close (some n) type).map
      (fun parser' ↦ { parser' with pos := parser.pos + 1 }) = .ok parser') :
    parser'.Consistent js := by
  rcases close_cases n h.started type with
    ⟨-, hclose⟩ | ⟨xs, tok, ys, htokens, hopen, hys, rfl, -, hclose⟩
  · rw [hclose] at hread
    cases hread
  · rw [hclose] at hread
    obtain rfl := (Except.ok.inj hread).symm
    have hmem : tok ∈ parser.tokens := by
      rw [htokens]
      exact List.mem_append_right xs List.mem_cons_self
    have hstart : tok.start < done.length := by
      have hbefore : tok.start.toNat < parser.pos :=
        (h.nested.before tok.span (List.mem_map_of_mem hmem)).1
      have hnonneg := (h.ofText tok hmem).start_nonneg
      omega
    refine h.closed htokens hopen hys ?_ rfl rfl rfl
    rw [hpos]
    exact (h.ofText tok hmem).close hopen hbytes hjs hstart

theorem superInRange_comma (hsuper : parser.SuperInRange) :
    (parser.comma (some n)).SuperInRange := by
  rcases hi : parser.toksuper with - | i
  · rcases parser with ⟨pos, tokens, toksuper, count⟩
    cases hi
    exact hsuper
  · rw [comma_eq hi]
    split_ifs
    · rcases hlast : lastToken (fun tok ↦ tok.isContainer && tok.isOpen) parser.tokens with - | j
      · exact hsuper
      · intro k hk
        obtain rfl := Option.some.inj hk
        obtain ⟨xs, tok, ys, htokens, rfl, -⟩ := exists_split_of_lastToken hlast
        show xs.length < parser.tokens.length
        rw [htokens, List.length_append, List.length_cons]
        omega
    · exact hsuper

/-- **Every lexeme keeps the invariant.** -/
theorem JsmnParser.Consistent.read (h : parser.Consistent js) {x : Lexeme}
    (hjs : js = done ++ (x.text ++ rest)) (hpos : parser.pos = done.length)
    (hread : parser.read (some n) x = .ok parser') : parser'.Consistent js := by
  cases x with
  | openArray => exact h.begin .array hjs hpos hread
  | closeArray => exact h.close (n := n) .array hjs hpos hread
  | openObject => exact h.begin .object hjs hpos hread
  | closeObject => exact h.close (n := n) .object hjs hpos hread
  | comma =>
    obtain rfl := (Except.ok.inj hread).symm
    exact h.skip (Nat.le_add_right _ _) (comma_frame (some n) parser).1
      (fun i hi ↦ (comma_frame (some n) parser).1.symm ▸ superInRange_comma h.super i hi)
  | colon =>
    obtain rfl := (Except.ok.inj hread).symm
    refine h.skip (Nat.le_add_right _ _) rfl fun i hi ↦ ?_
    simp only [JsmnParser.colon] at hi ⊢
    split_ifs at hi with hnil
    · cases hi
    · obtain rfl := Option.some.inj hi
      have hlength := List.length_pos_iff.2 hnil
      omega
  | white w =>
    obtain rfl := (Except.ok.inj hread).symm
    exact h.skip (Nat.le_add_right _ _) rfl h.super
  | string s =>
    have heq := eq_of_addToken_map hread
    have htext : (Lexeme.string s).text.length = (stringText s).length + 2 := by
      rw [Lexeme.text, List.length_cons, List.length_append, List.length_singleton]
    have htok : JsmnTok.OfText js
        ⟨.string, parser.pos + 1, parser.pos + 1 + (stringText s).length, 0⟩ := by
      rw [hpos]
      refine .string done s rest 0 ?_
      rw [hjs, Lexeme.text, List.cons_append, List.append_assoc, List.singleton_append]
    rw [heq]
    refine h.added htok rfl (by dsimp only; omega) (by dsimp only; omega) (fun e he ↦ ?_) rfl
      (Or.inl rfl)
    rw [span_stop_of_nonneg (by omega)] at he ⊢
    obtain rfl := Option.some.inj he
    dsimp only
    omega
  | literal l =>
    have heq := eq_of_addToken_map hread
    have hne := List.length_pos_iff.2 l.ne_nil
    have htext : (Lexeme.literal l).text.length = l.bytes.length := rfl
    have htok : JsmnTok.OfText js ⟨.primitive, parser.pos, parser.pos + l.bytes.length, 0⟩ := by
      rw [hpos]
      exact .primitive done l rest 0 hjs
    rw [heq]
    refine h.added htok rfl le_rfl (by dsimp only; omega) (fun e he ↦ ?_) rfl (Or.inl rfl)
    rw [span_stop_of_nonneg (by omega)] at he ⊢
    obtain rfl := Option.some.inj he
    dsimp only
    omega

end Read

/-- What has been read keeps it, wherever the tokeniser is in the text. -/
theorem consistent_of_foldlM {n : ℕ} {js done rest : Bytes} {ls : List Lexeme}
    {parser parser' : JsmnParser} (h : parser.Consistent js)
    (hjs : js = done ++ (textOf ls ++ rest)) (hpos : parser.pos = done.length)
    (hread : ls.foldlM (JsmnParser.read (some n)) parser = .ok parser') :
    parser'.Consistent js ∧ parser'.pos = (done ++ textOf ls).length := by
  induction ls generalizing parser done with
  | nil =>
    cases hread
    rw [textOf_nil, List.append_nil]
    exact ⟨h, hpos⟩
  | cons x ls ih =>
    rw [List.foldlM_cons] at hread
    obtain ⟨p, hx, hls⟩ := exists_of_bind_eq_ok hread
    rw [textOf_cons, List.append_assoc] at hjs
    have hp : p.pos = (done ++ x.text).length := by
      rw [JsmnParser.read] at hx
      rcases hlexeme : parser.lexeme (some n) x with e | q
      · rw [hlexeme] at hx
        cases hx
      · rw [hlexeme] at hx
        cases hx
        rw [List.length_append, hpos]
    obtain ⟨hconsistent, hpos'⟩ := ih (h.read hjs hpos hx) (by rw [hjs, List.append_assoc]) hp hls
    exact ⟨hconsistent, by rw [hpos', textOf_cons, List.append_assoc]⟩

/-- What is known of the tokens of a byte string. -/
structure TokensOf (js : Bytes) (tokens : List JsmnTok) : Prop where
  ofText : ∀ tok ∈ tokens, tok.OfText js
  nested : Nested js.length (tokens.map JsmnTok.span)
  sizes : SizesInRange tokens

/-- **The tokens of any byte string**, with any room and whatever is returned: each one is for a
place in the text, their ranges nest, and none counts more tokens than are behind it. When the text
is accepted there are as many as are returned, and all have ends. -/
theorem tokensOf_jsmnParse (n : ℕ) (js : Bytes) :
    TokensOf js (jsmnParse (some n) js).2 ∧ (jsmnParse (some n) js).2.length ≤ n ∧
      (0 ≤ (jsmnParse (some n) js).1 →
        (jsmnParse (some n) js).1 = (jsmnParse (some n) js).2.length ∧
          ∀ tok ∈ (jsmnParse (some n) js).2, tok.IsClosed) := by
  obtain ⟨ls, t, parser, hjs, -, hfold, htokens, hresult⟩ := exists_stop (some n) js
  obtain ⟨hconsistent, hpos⟩ := consistent_of_foldlM (JsmnParser.consistent_init js)
    (show js = [] ++ (textOf ls ++ t) from hjs) rfl hfold
  obtain ⟨hbehind, hn⟩ := behind_of_foldlM JsmnParser.started_init (Nat.zero_le n) hfold
  have hle : parser.pos ≤ js.length := by
    rw [hpos, hjs, List.nil_append, List.length_append]
    exact Nat.le_add_right _ _
  rw [htokens]
  refine ⟨⟨hconsistent.ofText, hconsistent.nested.mono hle, hconsistent.sizes⟩, hn, fun h ↦ ?_⟩
  rcases hresult with ⟨-, hresult⟩ | ⟨e, -, he⟩
  · have hclosed : parser.tokens.any JsmnTok.isOpen = false := by
      by_contra hopen
      rw [hresult, JsmnParser.result, if_pos (by simpa using hopen)] at h
      exact absurd h (not_le.2 (JsmnError.code_neg .part))
    have hcount : parser.count = 0 + tokenCount ls := hbehind.count
    have hlength : parser.tokens.length = 0 + tokenCount ls := hbehind.length
    rw [hresult, JsmnParser.result, hclosed]
    refine ⟨?_, fun tok htok ↦ ?_⟩
    · show parser.count = _
      omega
    · simpa [JsmnTok.IsClosed] using List.any_eq_false.1 hclosed tok htok
  · rw [he] at h
    exact absurd h (not_le.2 e.code_neg)

end LibSeal
