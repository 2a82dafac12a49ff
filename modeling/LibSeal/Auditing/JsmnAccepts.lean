import LibSeal.Auditing.JsmnTokens
import LibSeal.Data.Nesting

/-!
# What the tokeniser accepts

`jsmn` on any byte string, JSON or not. A round that goes on has read a lexeme
(`exists_lexeme_of_goes`), so what has been read of a string, wherever the tokeniser stops, is the
text of a list of lexemes (`exists_stop`).

The tokeniser keeps no stack: it looks for the last token without an end. The tokens without an end,
read as ranges, are a stack all the same, on which each lexeme does what the stack machine of
`LibSeal.Data.Nesting` does with its bracket (`reads`). So the strings that are accepted are those
whose brackets are a word of the grammar (`jsmnParse_nonneg_iff`), whatever stands between them: a
comma may be missing, a colon may follow a bracket, and there may be any number of values.

The pass that counts does not look at the nesting, and the pass that fills in the tokens stops at a
bracket that does not match. `passes_agree` is what holds between them nevertheless.
-/

namespace LibSeal

open Bytes Json Nesting

/-! ### What has been read is a lexeme -/

theorem exists_of_map_add_one {ε : Type} {x : Except ε ℕ} {n : ℕ} (h : x.map (· + 1) = .ok n) :
    ∃ m, x = .ok m ∧ n = m + 1 := by
  rcases x with e | m
  · cases h
  · exact ⟨m, rfl, (Except.ok.inj h).symm⟩

theorem exists_of_bind_eq_ok {ε α β : Type} {x : Except ε α} {f : α → Except ε β} {b : β}
    (h : (x >>= f) = .ok b) : ∃ a, x = .ok a ∧ f a = .ok b := by
  rcases x with e | a
  · cases h
  · exact ⟨a, rfl, h⟩

/-- The digits behind `\u`. -/
theorem exists_of_stringLength_digits {more : ℕ} {js : Bytes} {n : ℕ}
    (h : stringLength (.digits more) js = .ok n) :
    ∃ (ds t : Bytes) (m : ℕ), js = ds ++ t ∧ ds.length = more + 1 ∧
      (∀ d ∈ ds, (hexValue d).isSome = true) ∧ stringLength .plain t = .ok m ∧
        n = m + (more + 1) := by
  induction more generalizing js n with
  | zero =>
    rcases js with - | ⟨b, js⟩
    · cases h
    · rw [stringLength] at h
      split_ifs at h with hzero hhex
      obtain ⟨m, hm, rfl⟩ := exists_of_map_add_one h
      exact ⟨[b], js, m, rfl, rfl, List.forall_mem_singleton.2 hhex, hm, rfl⟩
  | succ more ih =>
    rcases js with - | ⟨b, js⟩
    · cases h
    · rw [stringLength] at h
      split_ifs at h with hzero hhex
      obtain ⟨k, hk, rfl⟩ := exists_of_map_add_one h
      obtain ⟨ds, t, m, rfl, hlength, hds, hm, rfl⟩ := ih hk
      exact ⟨b :: ds, t, m, rfl, by rw [List.length_cons, hlength],
        List.forall_mem_cons.2 ⟨hhex, hds⟩, hm, rfl⟩

theorem stringText_cons (x : StringChar) (s : List StringChar) :
    stringText (x :: s) = x.text ++ stringText s := List.flatMap_cons

/-- What stands between quotes. -/
theorem exists_of_stringLength {js : Bytes} {n : ℕ} (h : stringLength .plain js = .ok n) :
    ∃ (s : List StringChar) (t : Bytes), js = stringText s ++ '"'.toUInt8 :: t ∧
      n = (stringText s).length := by
  induction hlen : js.length using Nat.strong_induction_on generalizing js n with
  | _ len ih =>
    subst hlen
    -- a character in front of a string
    have hcons : ∀ (x : StringChar) (t : Bytes) (m : ℕ), js = x.text ++ t →
        t.length < js.length → stringLength .plain t = .ok m → n = m + x.text.length →
          ∃ (s : List StringChar) (t : Bytes), js = stringText s ++ '"'.toUInt8 :: t ∧
            n = (stringText s).length := by
      intro x t m hjs hlt hm hn
      obtain ⟨s, t', rfl, rfl⟩ := ih t.length hlt hm rfl
      refine ⟨x :: s, t', ?_, ?_⟩
      · rw [hjs, stringText_cons, List.append_assoc]
      · rw [hn, stringText_cons, List.length_append, Nat.add_comm]
    rcases js with - | ⟨b, js⟩
    · cases h
    · rw [stringLength] at h
      split_ifs at h with hzero hquote hslash
      · cases h
        exact ⟨[], js, by rw [hquote]; rfl, rfl⟩
      · obtain ⟨k, hk, rfl⟩ := exists_of_map_add_one h
        rcases js with - | ⟨c, js⟩
        · cases hk
        · rw [stringLength] at hk
          split_ifs at hk with hescape hunicode
          · obtain ⟨m, hm, rfl⟩ := exists_of_map_add_one hk
            refine hcons (.escape c hescape) js m ?_ (by simp only [List.length_cons]; omega) hm rfl
            rw [hslash]
            rfl
          · obtain ⟨m', hm', rfl⟩ := exists_of_map_add_one hk
            obtain ⟨ds, t, m, rfl, hlength, hds, hm, rfl⟩ := exists_of_stringLength_digits hm'
            obtain ⟨d₁, d₂, d₃, d₄, rfl⟩ := List.length_eq_four.1 hlength
            refine hcons (.unicode d₁ d₂ d₃ d₄ hds) t m ?_
              (by simp only [List.length_cons, List.length_append]; omega) hm rfl
            rw [hslash, hunicode]
            rfl
      · obtain ⟨m, hm, rfl⟩ := exists_of_map_add_one h
        exact hcons (.plain b ⟨hzero, hquote, hslash⟩) js m rfl (Nat.lt_succ_self _) hm rfl

/-- The bytes of a primitive, and what ends it. -/
theorem of_primitiveLength {js : Bytes} {n : ℕ} (h : primitiveLength js = .ok n) :
    ∃ s t, js = s ++ t ∧ n = s.length ∧
      (∀ b ∈ s, 32 < b ∧ b < 127 ∧ isDelimiter b = false) ∧ EndsLiteral t := by
  induction js generalizing n with
  | nil =>
    cases h
    exact ⟨[], [], rfl, rfl, by simp, fun b hb ↦ by cases hb⟩
  | cons b js ih =>
    rw [primitiveLength] at h
    split_ifs at h with hend hprintable
    · cases h
      refine ⟨[], b :: js, rfl, rfl, by simp, fun c hc ↦ ?_⟩
      obtain rfl := Option.some.inj hc
      exact hend
    · obtain ⟨m, hm, rfl⟩ := exists_of_map_add_one h
      obtain ⟨s, t, rfl, rfl, hs, ht⟩ := ih hm
      rw [not_or, not_lt, not_le] at hprintable
      rw [not_or, Bool.not_eq_true] at hend
      refine ⟨b :: s, t, rfl, rfl, List.forall_mem_cons.2 ⟨⟨?_, hprintable.2, hend.2⟩, hs⟩, ht⟩
      refine lt_of_le_of_ne hprintable.1 ?_
      rintro rfl
      exact absurd hend.2 (by decide)

/-- White space, as a byte. -/
theorem exists_white {c : UInt8} (h : c = 9 ∨ c = 13 ∨ c = 10 ∨ c = 32) :
    ∃ w : White, w.byte = c := by
  rcases h with rfl | rfl | rfl | rfl
  · exact ⟨.tab, rfl⟩
  · exact ⟨.return, rfl⟩
  · exact ⟨.newline, rfl⟩
  · exact ⟨.space, rfl⟩

/-- **What the `switch` reads is a lexeme**, and it does with it what the lexeme asks for. -/
theorem exists_lexeme_of_switch {room : Option ℕ} {c : UInt8} {js : Bytes}
    {parser parser' : JsmnParser} {n : ℕ} (hc : c ≠ 0)
    (h : jsmnSwitch room c js parser = .ok (parser', n)) :
    ∃ (x : Lexeme) (t : Bytes), c :: js = x.text ++ t ∧ x.text.length = n + 1 ∧
      (∀ l, x = .literal l → EndsLiteral t) ∧ parser.lexeme room x = .ok parser' := by
  rw [jsmnSwitch] at h
  by_cases hopen : c = '\x7b'.toUInt8 ∨ c = '['.toUInt8
  · rw [if_pos hopen] at h
    obtain ⟨p, hp, hret⟩ := exists_of_bind_eq_ok h
    cases hret
    rcases hopen with rfl | rfl
    · exact ⟨.openObject, js, rfl, rfl, fun l hl ↦ Lexeme.noConfusion hl, hp⟩
    · exact ⟨.openArray, js, rfl, rfl, fun l hl ↦ Lexeme.noConfusion hl, hp⟩
  by_cases hclose : c = '\x7d'.toUInt8 ∨ c = ']'.toUInt8
  · rw [if_neg hopen, if_pos hclose] at h
    obtain ⟨p, hp, hret⟩ := exists_of_bind_eq_ok h
    cases hret
    rcases hclose with rfl | rfl
    · exact ⟨.closeObject, js, rfl, rfl, fun l hl ↦ Lexeme.noConfusion hl, hp⟩
    · exact ⟨.closeArray, js, rfl, rfl, fun l hl ↦ Lexeme.noConfusion hl, hp⟩
  rw [if_neg hopen, if_neg hclose] at h
  by_cases hquote : c = '"'.toUInt8
  · rw [if_pos hquote] at h
    obtain ⟨length, hlength, hrest⟩ := exists_of_bind_eq_ok h
    obtain ⟨p, hp, hret⟩ := exists_of_bind_eq_ok hrest
    cases hret
    obtain ⟨s, t, rfl, rfl⟩ := exists_of_stringLength hlength
    refine ⟨.string s, t, ?_, ?_, fun l hl ↦ Lexeme.noConfusion hl, hp⟩
    · rw [hquote, Lexeme.text, List.cons_append, List.append_assoc, List.singleton_append]
    · rw [Lexeme.text, List.length_cons, List.length_append, List.length_singleton]
  rw [if_neg hquote] at h
  by_cases hwhite : c = 9 ∨ c = 13 ∨ c = 10 ∨ c = 32
  · rw [if_pos hwhite] at h
    cases h
    obtain ⟨w, rfl⟩ := exists_white hwhite
    exact ⟨.white w, js, rfl, rfl, fun l hl ↦ Lexeme.noConfusion hl, rfl⟩
  rw [if_neg hwhite] at h
  by_cases hcolon : c = ':'.toUInt8
  · rw [if_pos hcolon] at h
    cases h
    exact ⟨.colon, js, by rw [hcolon]; rfl, rfl, fun l hl ↦ Lexeme.noConfusion hl, rfl⟩
  rw [if_neg hcolon] at h
  by_cases hcomma : c = ','.toUInt8
  · rw [if_pos hcomma] at h
    cases h
    exact ⟨.comma, js, by rw [hcomma]; rfl, rfl, fun l hl ↦ Lexeme.noConfusion hl, rfl⟩
  rw [if_neg hcomma] at h
  obtain ⟨length, hlength, hrest⟩ := exists_of_bind_eq_ok h
  obtain ⟨p, hp, hret⟩ := exists_of_bind_eq_ok hrest
  cases hret
  obtain ⟨s, t, hjs, rfl, hs, ht⟩ := of_primitiveLength hlength
  -- the first byte is no delimiter, so the literal is not empty
  have hdelim : isDelimiter c = false := by
    simp only [not_or] at hclose hwhite
    simp only [isDelimiter, Bool.or_eq_false_iff, beq_eq_false_iff_ne]
    exact ⟨⟨⟨⟨⟨⟨⟨hcolon, hwhite.1⟩, hwhite.2.1⟩, hwhite.2.2.1⟩, hwhite.2.2.2⟩, hcomma⟩, hclose.2⟩,
      hclose.1⟩
  rcases s with - | ⟨b, s⟩
  · rw [List.nil_append] at hjs
    have hends := ht c (by rw [← hjs]; rfl)
    rw [hdelim] at hends
    rcases hends with hzero | hfalse
    · exact absurd hzero hc
    · exact absurd hfalse Bool.false_ne_true
  · obtain ⟨rfl, rfl⟩ := List.cons.inj hjs
    rw [not_or] at hopen
    refine ⟨.literal ⟨c :: s, List.cons_ne_nil c s, hs, fun b hb ↦ ?_⟩, t, rfl, rfl,
      fun l _ ↦ ht, hp⟩
    obtain rfl := Option.some.inj hb
    exact ⟨hquote, hopen.2, hopen.1⟩

theorem exists_lexeme_of_goes {room : Option ℕ} {js js' : Bytes} {parser parser' : JsmnParser}
    (h : Loop.Goes (jsmnRound room) (js, parser) (js', parser')) :
    ∃ x : Lexeme, js = x.text ++ js' ∧ (∀ l, x = .literal l → EndsLiteral js') ∧
      parser.read room x = .ok parser' := by
  rcases js with - | ⟨c, js⟩
  · cases h
  · rw [Loop.Goes, jsmnRound] at h
    split_ifs at h with hc
    · cases h
    · rcases hswitch : jsmnSwitch room c js parser with e | ⟨p, n⟩
      · rw [hswitch] at h
        cases h
      · rw [hswitch] at h
        cases h
        obtain ⟨x, t, htext, hlength, hend, hlexeme⟩ := exists_lexeme_of_switch hc hswitch
        have ht : js.drop n = t := by
          have hdrop := congrArg (List.drop (n + 1)) htext
          rwa [List.drop_succ_cons, ← hlength, List.drop_left] at hdrop
        refine ⟨x, by rw [ht, htext], fun l hl ↦ by rw [ht]; exact hend l hl, ?_⟩
        rw [JsmnParser.read, hlexeme, hlength, Nat.add_assoc, Nat.add_comm 1]
        rfl

/-- Rounds that go on have read lexemes. -/
theorem exists_lexemes_of_reflTransGen {room : Option ℕ} {s s' : Bytes × JsmnParser}
    (h : Relation.ReflTransGen (Loop.Goes (jsmnRound room)) s s') :
    ∃ ls, s.1 = textOf ls ++ s'.1 ∧ LiteralsEnd s'.1 ls ∧
      ls.foldlM (JsmnParser.read room) s.2 = .ok s'.2 := by
  induction h using Relation.ReflTransGen.head_induction_on with
  | refl => exact ⟨[], rfl, fun l ms hms ↦ (nomatch List.suffix_nil.1 hms), rfl⟩
  | @head s₁ s₂ hgoes _ ih =>
    obtain ⟨ls, htext, hend, hfold⟩ := ih
    obtain ⟨x, hx, hliteral, hread⟩ := exists_lexeme_of_goes hgoes
    refine ⟨x :: ls, by rw [hx, htext, textOf_cons, List.append_assoc], fun l ms hms ↦ ?_, ?_⟩
    · rcases List.suffix_cons_iff.1 hms with heq | hms
      · obtain ⟨rfl, rfl⟩ := List.cons.inj heq
        rw [← htext]
        exact hliteral l rfl
      · exact hend l ms hms
    · rw [List.foldlM_cons, hread]
      exact hfold

/-! ### The end of the text -/

theorem eq_zero_of_cStr_eq_nil {b : UInt8} {t : Bytes} (h : cStr (b :: t) = []) : b = 0 := by
  by_contra hb
  rw [cStr, List.takeWhile_cons_of_pos (by simpa using hb)] at h
  cases h

/-- In front of the end of the text, a literal ends where there is nothing or a delimiter. -/
theorem literalsEnd_iff_delimited {t : Bytes} (ht : cStr t = []) {ls : List Lexeme} :
    LiteralsEnd t ls ↔ Delimited [] ls := by
  have hhead : ∀ b ∈ t.head?, b = 0 := by
    intro b hb
    rcases t with - | ⟨c, t⟩
    · cases hb
    · obtain rfl := Option.some.inj hb
      exact eq_zero_of_cStr_eq_nil ht
  constructor
  · intro h
    induction ls with
    | nil => trivial
    | cons x ls ih =>
      have hls := ih fun l ms hms ↦ h l ms (hms.trans (List.suffix_cons x ls))
      cases x with
      | literal l =>
        refine ⟨fun b hb ↦ ?_, hls⟩
        rw [List.append_nil] at hb
        have hmem : b ∈ textOf ls := List.mem_of_mem_head? hb
        rcases h l ls List.suffix_rfl b (by rw [List.head?_append, hb]; rfl) with rfl | hdelim
        · exact absurd hmem (zero_notMem_textOf ls)
        · exact hdelim
      | _ => exact hls
  · rintro h l ms ⟨pre, rfl⟩ b hb
    have hms := (delimited_append.1 h).2.1
    rw [List.append_nil] at hms
    rw [List.head?_append] at hb
    rcases hfirst : (textOf ms).head? with - | c
    · rw [hfirst] at hb
      exact Or.inl (hhead b hb)
    · rw [hfirst] at hb
      obtain rfl := Option.some.inj hb
      exact Or.inr (hms c hfirst)

theorem jsmnRound_end {room : Option ℕ} {t : Bytes} (ht : cStr t = []) (parser : JsmnParser) :
    jsmnRound room (t, parser) = .ok (.inr parser) := by
  rcases t with - | ⟨b, t⟩
  · rfl
  · rw [jsmnRound, if_pos (eq_zero_of_cStr_eq_nil ht)]

/-- What is left of a text without the lexemes at its beginning. -/
theorem cStr_textOf_append (ls : List Lexeme) (t : Bytes) :
    cStr (textOf ls ++ t) = textOf ls ++ cStr t := cStr_append (zero_notMem_textOf ls) t

theorem exists_rest_of_cStr {js : Bytes} {ls : List Lexeme} (h : cStr js = textOf ls) :
    ∃ t, js = textOf ls ++ t ∧ cStr t = [] := by
  refine ⟨js.drop (textOf ls).length, ?_, ?_⟩
  · have htake : textOf ls <+: js := h ▸ List.takeWhile_prefix _
    exact (List.prefix_iff_eq_append.1 htake).symm
  · have hsplit : textOf ls ++ js.drop (textOf ls).length = js :=
      List.prefix_iff_eq_append.1 (h ▸ List.takeWhile_prefix _)
    have hcStr := cStr_textOf_append ls (js.drop (textOf ls).length)
    rw [hsplit, h] at hcStr
    exact List.append_right_eq_self.1 hcStr.symm

/-! ### What the tokeniser returns -/

/-- What is returned behind the last byte. -/
def JsmnParser.result (parser : JsmnParser) : ℤ :=
  if parser.tokens.any JsmnTok.isOpen then JsmnError.part.code else parser.count

/-- What is returned, with the tokens, when the loop is over. -/
def jsmnOutcome : Except (JsmnError × JsmnParser) JsmnParser → ℤ × List JsmnTok
  | .error (e, parser) => (e.code, parser.tokens)
  | .ok parser => (parser.result, parser.tokens)

theorem jsmnParse_of_run {room : Option ℕ} {js : Bytes} {n : ℕ}
    {r : Except (JsmnError × JsmnParser) JsmnParser}
    (h : Loop.run (jsmnRound room) n (js, .init) = some r) :
    jsmnParse room js = jsmnOutcome r := by
  have hrun := Loop.run_eq_of_isSome (isSome_run_jsmnRound room js) (by rw [h]; rfl)
  rw [jsmnParse, hrun, h]
  rcases r with ⟨e, parser⟩ | parser
  · rfl
  · dsimp only
    rw [jsmnOutcome, JsmnParser.result]
    split_ifs <;> rfl

/-- **Where the tokeniser stops**: behind lexemes that it has read, at the end of the text or at
something that it cannot read. -/
theorem exists_stop (room : Option ℕ) (js : Bytes) :
    ∃ ls t parser, js = textOf ls ++ t ∧ LiteralsEnd t ls ∧
      ls.foldlM (JsmnParser.read room) JsmnParser.init = .ok parser ∧
        (jsmnParse room js).2 = parser.tokens ∧
          ((cStr t = [] ∧ (jsmnParse room js).1 = parser.result) ∨
            ∃ e, jsmnRound room (t, parser) = .error (e, parser) ∧
              (jsmnParse room js).1 = e.code) := by
  obtain ⟨r, hr⟩ := Option.isSome_iff_exists.1 (isSome_run_jsmnRound room js)
  obtain ⟨⟨t, parser⟩, hreach, hlast⟩ := Loop.exists_last_round hr
  obtain ⟨ls, hjs, hend, hfold⟩ := exists_lexemes_of_reflTransGen hreach
  refine ⟨ls, t, parser, hjs, hend, hfold, ?_⟩
  rw [jsmnParse_of_run hr]
  rw [Loop.run] at hlast
  rcases t with - | ⟨c, t⟩
  · obtain rfl := Option.some.inj hlast
    exact ⟨rfl, Or.inl ⟨rfl, rfl⟩⟩
  · by_cases hc : c = 0
    · rw [jsmnRound, if_pos hc] at hlast
      obtain rfl := Option.some.inj hlast
      refine ⟨rfl, Or.inl ⟨?_, rfl⟩⟩
      rw [hc]
      rfl
    · rw [jsmnRound, if_neg hc] at hlast ⊢
      rcases hswitch : jsmnSwitch room c t parser with e | ⟨p, n⟩
      · rw [hswitch] at hlast
        obtain rfl := Option.some.inj hlast
        exact ⟨rfl, Or.inr ⟨e, rfl, rfl⟩⟩
      · rw [hswitch] at hlast
        cases hlast

/-- Lexemes that make up the text are read to the end. -/
theorem jsmnParse_of_read {room : Option ℕ} {js : Bytes} {ls : List Lexeme} {parser : JsmnParser}
    (htext : cStr js = textOf ls) (hls : Delimited [] ls)
    (h : ls.foldlM (JsmnParser.read room) JsmnParser.init = .ok parser) :
    jsmnParse room js = (parser.result, parser.tokens) := by
  obtain ⟨t, rfl, ht⟩ := exists_rest_of_cStr htext
  have hreach := reflTransGen_goes_of_foldlM ((literalsEnd_iff_delimited ht).2 hls) h
  obtain ⟨n, hn⟩ := Loop.exists_run_of_reflTransGen hreach
    (Loop.run_of_leave (jsmnRound_end ht parser) 0)
  exact jsmnParse_of_run hn

/-- A lexeme that cannot be read ends the run. -/
theorem jsmnParse_of_read_error {room : Option ℕ} {js : Bytes} {ls ms : List Lexeme} {x : Lexeme}
    {parser : JsmnParser} {e : JsmnError} (htext : cStr js = textOf (ls ++ x :: ms))
    (hls : Delimited [] (ls ++ x :: ms))
    (h : ls.foldlM (JsmnParser.read room) JsmnParser.init = .ok parser)
    (hx : parser.read room x = .error e) :
    jsmnParse room js = (e.code, parser.tokens) := by
  obtain ⟨t, rfl, ht⟩ := exists_rest_of_cStr htext
  have hend := (literalsEnd_iff_delimited ht).2 hls
  rw [textOf_append, List.append_assoc, textOf_cons, List.append_assoc]
  have hprefix : LiteralsEnd (x.text ++ (textOf ms ++ t)) ls := by
    rintro l ks ⟨pre, hpre⟩
    have hsuffix := hend l (ks ++ x :: ms) ⟨pre, by rw [← hpre]; simp⟩
    rwa [textOf_append, List.append_assoc, textOf_cons, List.append_assoc] at hsuffix
  have hliteral : ∀ l, x = .literal l → EndsLiteral (textOf ms ++ t) := by
    rintro l rfl
    exact hend l ms (List.suffix_append ls _)
  obtain ⟨c, js, hc, hzero, hswitch⟩ := jsmnSwitch_lexeme room parser hliteral
  have hround : jsmnRound room (x.text ++ (textOf ms ++ t), parser) = .error (e, parser) := by
    rw [JsmnParser.read] at hx
    rw [hc, List.cons_append, jsmnRound, if_neg hzero, hswitch]
    rcases hlexeme : parser.lexeme room x with e' | p
    · rw [hlexeme] at hx
      cases hx
      rfl
    · rw [hlexeme] at hx
      cases hx
  obtain ⟨n, hn⟩ := Loop.exists_run_of_reflTransGen (reflTransGen_goes_of_foldlM hprefix h)
    (Loop.run_of_error hround 0)
  exact jsmnParse_of_run hn

/-! ### The tokens as ranges -/

/-- A token without its size, as a range. -/
def JsmnTok.span (tok : JsmnTok) : Span JsmnType :=
  ⟨tok.type, tok.start.toNat, if tok.stop = -1 then none else some tok.stop.toNat⟩

theorem JsmnTok.span_stop_ne_none_iff {tok : JsmnTok} (h : 0 ≤ tok.start) :
    tok.span.stop ≠ none ↔ tok.IsClosed := by
  have hstart : tok.start ≠ -1 := by omega
  simp [span, IsClosed, isOpen, hstart]

def JsmnParser.spans (parser : JsmnParser) : List (Span JsmnType) := parser.tokens.map JsmnTok.span

/-- The objects and arrays that are open, the innermost first. -/
def JsmnParser.stack (parser : JsmnParser) : List JsmnType := openKinds parser.spans

/-- Every token has begun. -/
def JsmnParser.Started (parser : JsmnParser) : Prop := ∀ tok ∈ parser.tokens, 0 ≤ tok.start

theorem map_modify_of_eq {α β : Type} {f : α → α} {g : α → β} (h : ∀ a, g (f a) = g a)
    (xs : List α) (i : ℕ) : (xs.modify i f).map g = xs.map g := by
  induction xs generalizing i with
  | nil => rw [List.modify_nil]
  | cons x xs ih =>
    rcases i with - | i
    · rw [List.modify_zero_cons, List.map_cons, List.map_cons, h]
    · rw [List.modify_succ_cons, List.map_cons, List.map_cons, ih]

/-- What does not depend on the sizes is not changed by counting. -/
theorem map_sizeUp {β : Type} {g : JsmnTok → β}
    (hg : ∀ tok : JsmnTok, g { tok with size := tok.size + 1 } = g tok) (toksuper : Option ℕ)
    (tokens : List JsmnTok) : (sizeUp toksuper tokens).map g = tokens.map g := by
  rcases toksuper with - | i
  · rfl
  · exact map_modify_of_eq hg tokens i

theorem forall_mem_sizeUp {P : JsmnTok → Prop}
    (hP : ∀ tok : JsmnTok, P { tok with size := tok.size + 1 } ↔ P tok) (toksuper : Option ℕ)
    (tokens : List JsmnTok) : (∀ tok ∈ sizeUp toksuper tokens, P tok) ↔ ∀ tok ∈ tokens, P tok := by
  have hmap := map_sizeUp (fun tok ↦ propext (hP tok)) toksuper tokens
  have hforall : ∀ toks : List JsmnTok, (∀ tok ∈ toks, P tok) ↔ ∀ p ∈ toks.map P, p := by
    refine fun toks ↦ ⟨fun h p hp ↦ ?_, fun h tok htok ↦ h _ (List.mem_map_of_mem htok)⟩
    obtain ⟨tok, htok, rfl⟩ := List.mem_map.1 hp
    exact h tok htok
  rw [hforall, hmap, ← hforall]

/-- The token that is last with a property, and those behind it. -/
theorem exists_split_of_lastToken {p : JsmnTok → Bool} {xs : List JsmnTok} {i : ℕ}
    (h : lastToken p xs = some i) :
    ∃ ys tok zs, xs = ys ++ tok :: zs ∧ ys.length = i ∧ p tok = true ∧
      ∀ tok' ∈ zs, p tok' = false := by
  induction xs generalizing i with
  | nil => cases h
  | cons x xs ih =>
    rw [lastToken] at h
    rcases hxs : lastToken p xs with - | j
    · rw [hxs] at h
      dsimp only at h
      split_ifs at h with hx
      cases h
      exact ⟨[], x, xs, rfl, rfl, hx, lastToken_eq_none_iff.1 hxs⟩
    · rw [hxs] at h
      cases h
      obtain ⟨ys, tok, zs, rfl, rfl, htok, hzs⟩ := ih hxs
      exact ⟨x :: ys, tok, zs, rfl, rfl, htok, hzs⟩

/-! ### What each lexeme does to the tokens -/

theorem addToken_of_ge {n : ℕ} {parser : JsmnParser} (h : n ≤ parser.tokens.length)
    (tok : JsmnTok) : parser.addToken (some n) tok = .error .nomem := by
  rw [JsmnParser.addToken]
  exact if_pos h

/-- The last token that is open, if there is one, is the top of the stack. -/
theorem lastToken_isOpen_cases {parser : JsmnParser} (hstarted : parser.Started) :
    (lastToken JsmnTok.isOpen parser.tokens = none ∧ parser.stack = []) ∨
      ∃ (xs : List JsmnTok) (tok : JsmnTok) (ys : List JsmnTok), parser.tokens = xs ++ tok :: ys ∧
        lastToken JsmnTok.isOpen parser.tokens = some xs.length ∧ tok.isOpen = true ∧
        (∀ tok' ∈ ys, tok'.span.stop ≠ none) ∧
        parser.stack = tok.type :: openKinds (xs.map JsmnTok.span) := by
  rcases hlast : lastToken JsmnTok.isOpen parser.tokens with - | i
  · refine Or.inl ⟨rfl, ?_⟩
    rw [JsmnParser.stack, openKinds_eq_nil_iff, JsmnParser.spans, List.forall_mem_map]
    intro tok htok
    rw [JsmnTok.span_stop_ne_none_iff (hstarted tok htok)]
    exact lastToken_eq_none_iff.1 hlast tok htok
  · obtain ⟨xs, tok, ys, htokens, rfl, hopen, hys⟩ := exists_split_of_lastToken hlast
    have hmem : ∀ tok' ∈ tok :: ys, tok' ∈ parser.tokens := fun tok' htok' ↦ by
      rw [htokens]
      exact List.mem_append_right xs htok'
    have hclosed : ∀ tok' ∈ ys, tok'.span.stop ≠ none := fun tok' htok' ↦
      (JsmnTok.span_stop_ne_none_iff (hstarted tok'
        (hmem tok' (List.mem_cons_of_mem tok htok')))).2 (hys tok' htok')
    have hstop : tok.span.stop = none := by
      by_contra hstop
      rw [← ne_eq, JsmnTok.span_stop_ne_none_iff (hstarted tok (hmem tok List.mem_cons_self)),
        JsmnTok.IsClosed, hopen] at hstop
      exact Bool.false_ne_true hstop.symm
    refine Or.inr ⟨xs, tok, ys, htokens, rfl, hopen, hclosed, ?_⟩
    rw [JsmnParser.stack, JsmnParser.spans, htokens, List.map_append, List.map_cons]
    exact openKinds_append_open hstop (List.forall_mem_map.2 hclosed)

/-- **A closing bracket** ends the token on top of the stack, if it is of its type. -/
theorem close_cases (n : ℕ) {parser : JsmnParser} (hstarted : parser.Started) (type : JsmnType) :
    (Bracket.step parser.stack (.closing type) = none ∧
      parser.close (some n) type = .error .inval) ∨
    ∃ (xs : List JsmnTok) (tok : JsmnTok) (ys : List JsmnTok), parser.tokens = xs ++ tok :: ys ∧
      tok.isOpen = true ∧ (∀ tok' ∈ ys, tok'.span.stop ≠ none) ∧ tok.type = type ∧
      parser.stack = type :: openKinds (xs.map JsmnTok.span) ∧
      parser.close (some n) type = .ok { parser with
        tokens := xs ++ { tok with stop := parser.pos + 1 } :: ys
        toksuper := lastToken JsmnTok.isOpen
          (xs ++ { tok with stop := (parser.pos : ℤ) + 1 } :: ys) } := by
  rcases lastToken_isOpen_cases hstarted with
    ⟨hlast, hstack⟩ | ⟨xs, tok, ys, htokens, hlast, hopen, hys, hstack⟩
  · refine Or.inl ⟨by rw [hstack]; rfl, ?_⟩
    rw [JsmnParser.close, hlast]
  · by_cases htype : tok.type = type
    · cases htype
      exact Or.inr ⟨xs, tok, ys, htokens, hopen, hys, rfl, hstack, close_of_last tok htokens hlast⟩
    · refine Or.inl ⟨by rw [hstack]; exact if_neg htype, ?_⟩
      have hget : parser.tokens[xs.length]?.map JsmnTok.type = some tok.type := by
        rw [htokens, List.getElem?_append_right le_rfl, Nat.sub_self]
        rfl
      rw [JsmnParser.close, hlast]
      dsimp only
      rw [hget]
      exact if_pos fun heq ↦ htype (Option.some.inj heq)

/-! ### The stack behind a lexeme -/

/-- The bracket that a lexeme is. -/
def brackets : List Lexeme → List (Bracket JsmnType)
  | [] => []
  | .openObject :: ls => .opening .object :: brackets ls
  | .openArray :: ls => .opening .array :: brackets ls
  | .closeObject :: ls => .closing .object :: brackets ls
  | .closeArray :: ls => .closing .array :: brackets ls
  | _ :: ls => brackets ls

theorem brackets_cons (x : Lexeme) (ls : List Lexeme) :
    brackets (x :: ls) = brackets [x] ++ brackets ls := by
  cases x <;> rfl

theorem brackets_append (ls ms : List Lexeme) :
    brackets (ls ++ ms) = brackets ls ++ brackets ms := by
  induction ls with
  | nil => rfl
  | cons x ls ih => rw [List.cons_append, brackets_cons, ih, brackets_cons x ls, List.append_assoc]

/-- What the tokens say that a lexeme has been read. -/
structure JsmnParser.Behind (parser : JsmnParser) (ls : List Lexeme) (parser' : JsmnParser) :
    Prop where
  started : parser'.Started
  stack : Bracket.run parser.stack (brackets ls) = some parser'.stack
  length : parser'.tokens.length = parser.tokens.length + tokenCount ls
  count : parser'.count = parser.count + tokenCount ls

theorem JsmnParser.Behind.refl {parser : JsmnParser} (h : parser.Started) :
    parser.Behind [] parser := ⟨h, rfl, rfl, (Int.add_zero _).symm⟩

theorem JsmnParser.Behind.trans {parser parser' parser'' : JsmnParser} {ls ms : List Lexeme}
    (h : parser.Behind ls parser') (h' : parser'.Behind ms parser'') :
    parser.Behind (ls ++ ms) parser'' where
  started := h'.started
  stack := by rw [brackets_append, Bracket.run_append, h.stack, Option.bind_some, h'.stack]
  length := by rw [h'.length, h.length, tokenCount_append, Nat.add_assoc]
  count := by rw [h'.count, h.count, tokenCount_append, Int.natCast_add, Int.add_assoc]

/-- A lexeme that changes neither the tokens nor their number. -/
theorem behind_of_eq {parser parser' : JsmnParser} {x : Lexeme} (hstarted : parser.Started)
    (htokens : parser'.tokens = parser.tokens) (hcount : parser'.count = parser.count)
    (hbrackets : brackets [x] = []) (hx : tokenCount [x] = 0) : parser.Behind [x] parser' where
  started tok htok := hstarted tok (htokens ▸ htok)
  stack := by
    rw [hbrackets, JsmnParser.stack, JsmnParser.stack, JsmnParser.spans, JsmnParser.spans, htokens]
    rfl
  length := by rw [htokens, hx, Nat.add_zero]
  count := by rw [hcount, hx]; exact (Int.add_zero _).symm

/-- The tokens behind one that has been added. -/
theorem behind_of_added {parser parser' : JsmnParser} {tok : JsmnTok} {x : Lexeme}
    (hstarted : parser.Started) (hstart : 0 ≤ tok.start)
    (htokens : parser'.tokens = sizeUp parser.toksuper (parser.tokens ++ [tok]))
    (hcount : parser'.count = parser.count + 1) (hx : tokenCount [x] = 1)
    (hbrackets : brackets [x] = if tok.isOpen then [.opening tok.type] else []) :
    parser.Behind [x] parser' := by
  have hspans : parser'.spans = parser.spans ++ [tok.span] := by
    rw [JsmnParser.spans, htokens, map_sizeUp fun _ ↦ rfl, List.map_append]
    rfl
  refine ⟨?_, ?_, ?_, by rw [hcount, hx]; rfl⟩
  · rw [JsmnParser.Started, htokens, forall_mem_sizeUp fun _ ↦ Iff.rfl, List.forall_mem_append]
    exact ⟨hstarted, List.forall_mem_singleton.2 hstart⟩
  · rw [JsmnParser.stack, JsmnParser.stack, hspans, hbrackets]
    have hclosed := JsmnTok.span_stop_ne_none_iff hstart
    split_ifs with hopen
    · rw [JsmnTok.IsClosed, hopen] at hclosed
      rw [openKinds_concat_open _ (by simpa using hclosed)]
      rfl
    · rw [openKinds_concat_closed _ (hclosed.2 (by simpa [JsmnTok.IsClosed] using hopen))]
      rfl
  · rw [htokens, length_sizeUp, List.length_append, hx]
    rfl

/-- The tokens behind a bracket that has been closed. -/
theorem behind_of_closed {parser parser' : JsmnParser} {xs ys : List JsmnTok} {tok : JsmnTok}
    {x : Lexeme} (hstarted : parser.Started) (htokens : parser.tokens = xs ++ tok :: ys)
    (hys : ∀ tok' ∈ ys, tok'.span.stop ≠ none)
    (hstack : parser.stack = tok.type :: openKinds (xs.map JsmnTok.span))
    (htokens' : parser'.tokens = xs ++ { tok with stop := parser.pos + 1 } :: ys)
    (hcount : parser'.count = parser.count) (hx : tokenCount [x] = 0)
    (hbrackets : brackets [x] = [.closing tok.type]) : parser.Behind [x] parser' := by
  have hstop : (parser.pos : ℤ) + 1 ≠ -1 := by omega
  refine ⟨?_, ?_, ?_, by rw [hcount, hx]; exact (Int.add_zero _).symm⟩
  · rw [JsmnParser.Started, htokens] at hstarted
    rw [JsmnParser.Started, htokens']
    simpa only [List.forall_mem_append, List.forall_mem_cons] using hstarted
  · have hclose : Bracket.step (tok.type :: openKinds (xs.map JsmnTok.span)) (.closing tok.type) =
        some (openKinds (xs.map JsmnTok.span)) := if_pos rfl
    have hstack' : parser'.stack = openKinds (xs.map JsmnTok.span) := by
      rw [JsmnParser.stack, JsmnParser.spans, htokens', List.map_append, List.map_cons]
      exact openKinds_append_closed (by simp [JsmnTok.span, hstop]) (List.forall_mem_map.2 hys)
    rw [hbrackets, Bracket.run_cons, hstack, hclose, hstack']
    rfl
  · rw [htokens', htokens, hx]
    simp

/-- What may happen to a lexeme: the stack of the tokens does what the stack machine does. The array
may be full, and nothing else stops a lexeme but what stops the machine. -/
inductive JsmnParser.Reads (n : ℕ) (parser : JsmnParser) (x : Lexeme) : Prop
  | ok (parser' : JsmnParser) : parser.read (some n) x = .ok parser' → parser.Behind [x] parser' →
      (parser.tokens.length ≤ n → parser'.tokens.length ≤ n) → Reads n parser x
  | nomem : parser.read (some n) x = .error .nomem → n < parser.tokens.length + tokenCount [x] →
      Reads n parser x
  | inval : parser.read (some n) x = .error .inval →
      Bracket.run parser.stack (brackets [x]) = none → Reads n parser x

section Reads

variable {n : ℕ} {parser : JsmnParser} {x : Lexeme}

/-- A lexeme that begins a token, by what it does with the parser behind `addToken`. -/
theorem reads_of_addToken (hstarted : parser.Started) (tok : JsmnTok) {f : JsmnParser → JsmnParser}
    (hread : parser.read (some n) x = (parser.addToken (some n) tok).map f)
    (hf : ∀ p, (f p).tokens = p.tokens ∧ (f p).count = p.count) (hstart : 0 ≤ tok.start)
    (hx : tokenCount [x] = 1)
    (hbrackets : brackets [x] = if tok.isOpen then [.opening tok.type] else []) :
    parser.Reads n x := by
  rcases lt_or_ge parser.tokens.length n with hroom | hroom
  · rw [addToken_of_lt hroom] at hread
    refine .ok _ hread (behind_of_added hstarted hstart (hf _).1 (hf _).2 hx hbrackets)
      fun _ ↦ ?_
    rw [(hf _).1, length_sizeUp, List.length_append]
    exact hroom
  · rw [addToken_of_ge hroom] at hread
    exact .nomem hread (by omega)

theorem reads_of_begin (hstarted : parser.Started) (type : JsmnType)
    (hread : parser.read (some n) x = (parser.begin (some n) type).map
      fun parser' ↦ { parser' with pos := parser.pos + 1 })
    (hx : tokenCount [x] = 1) (hbrackets : brackets [x] = [.opening type]) :
    parser.Reads n x := by
  have hstart : (parser.pos : ℤ) ≠ -1 := by omega
  refine reads_of_addToken hstarted ⟨type, parser.pos, -1, 0⟩ (f := fun parser' ↦
    { parser' with toksuper := some parser.tokens.length, pos := parser.pos + 1 }) ?_
    (fun _ ↦ ⟨rfl, rfl⟩) (Int.natCast_nonneg _) hx ?_
  · rw [hread, JsmnParser.begin]
    rcases parser.addToken (some n) ⟨type, parser.pos, -1, 0⟩ with e | p <;> rfl
  · rw [hbrackets, JsmnTok.isOpen]
    simp [hstart]

theorem reads_of_close (hstarted : parser.Started) (type : JsmnType)
    (hread : parser.read (some n) x = (parser.close (some n) type).map
      fun parser' ↦ { parser' with pos := parser.pos + 1 })
    (hx : tokenCount [x] = 0) (hbrackets : brackets [x] = [.closing type]) :
    parser.Reads n x := by
  rcases close_cases n hstarted type with
    ⟨hstep, hclose⟩ | ⟨xs, tok, ys, htokens, -, hys, rfl, hstack, hclose⟩
  · rw [hclose] at hread
    refine .inval hread ?_
    rw [hbrackets, Bracket.run_cons, hstep]
    rfl
  · rw [hclose] at hread
    refine .ok _ hread (behind_of_closed hstarted htokens hys hstack rfl rfl hx hbrackets)
      fun hle ↦ ?_
    simpa [htokens] using hle

end Reads

theorem comma_frame (room : Option ℕ) (parser : JsmnParser) :
    (parser.comma room).tokens = parser.tokens ∧ (parser.comma room).count = parser.count := by
  rcases room with - | n
  · exact ⟨rfl, rfl⟩
  rcases hsuper : parser.toksuper with - | i
  · rcases parser with ⟨pos, tokens, toksuper, count⟩
    cases hsuper
    exact ⟨rfl, rfl⟩
  · rw [comma_eq hsuper]
    split_ifs
    · rcases lastToken (fun tok ↦ tok.isContainer && tok.isOpen) parser.tokens with - | j <;>
        exact ⟨rfl, rfl⟩
    · exact ⟨rfl, rfl⟩

/-- **Every lexeme is read as the stack machine says.** -/
theorem reads (n : ℕ) {parser : JsmnParser} (hstarted : parser.Started) (x : Lexeme) :
    parser.Reads n x := by
  have hclosed : ∀ type, ∀ p q : ℤ, 0 ≤ q → JsmnTok.isOpen ⟨type, p, q, 0⟩ = false := by
    intro type p q hq
    exact isClosed_of_stop_nonneg hq
  cases x with
  | openArray => exact reads_of_begin hstarted .array rfl rfl rfl
  | closeArray => exact reads_of_close hstarted .array rfl rfl rfl
  | openObject => exact reads_of_begin hstarted .object rfl rfl rfl
  | closeObject => exact reads_of_close hstarted .object rfl rfl rfl
  | comma =>
    obtain ⟨htokens, hcount⟩ := comma_frame (some n) parser
    exact .ok _ rfl (behind_of_eq hstarted htokens hcount rfl rfl) fun hle ↦ htokens.symm ▸ hle
  | colon => exact .ok _ rfl (behind_of_eq hstarted rfl rfl rfl rfl) id
  | white w => exact .ok _ rfl (behind_of_eq hstarted rfl rfl rfl rfl) id
  | string s =>
    refine reads_of_addToken hstarted
      ⟨.string, parser.pos + 1, parser.pos + 1 + (stringText s).length, 0⟩ rfl
      (fun _ ↦ ⟨rfl, rfl⟩) (by dsimp only; omega) rfl ?_
    rw [hclosed _ _ _ (by omega)]
    rfl
  | literal l =>
    refine reads_of_addToken hstarted
      ⟨.primitive, parser.pos, parser.pos + l.bytes.length, 0⟩ rfl (fun _ ↦ ⟨rfl, rfl⟩)
      (by dsimp only; omega) rfl ?_
    rw [hclosed _ _ _ (by omega)]
    rfl

/-! ### Texts -/

theorem foldlM_eq_error {σ α ε : Type} {f : σ → α → Except ε σ} {xs : List α} {s : σ} {e : ε}
    (h : xs.foldlM f s = .error e) :
    ∃ ys y zs s', xs = ys ++ y :: zs ∧ ys.foldlM f s = .ok s' ∧ f s' y = .error e := by
  induction xs generalizing s with
  | nil => cases h
  | cons x xs ih =>
    rw [List.foldlM_cons] at h
    rcases hx : f s x with e' | s'
    · rw [hx] at h
      cases h
      exact ⟨[], x, xs, s, rfl, rfl, hx⟩
    · rw [hx] at h
      obtain ⟨ys, y, zs, t, rfl, hys, hy⟩ := ih h
      refine ⟨x :: ys, y, zs, t, rfl, ?_, hy⟩
      rw [List.foldlM_cons, hx]
      exact hys

/-- What has been read is what the stack machine has read, and has had room. -/
theorem behind_of_foldlM {n : ℕ} {ls : List Lexeme} {parser parser' : JsmnParser}
    (hstarted : parser.Started) (hn : parser.tokens.length ≤ n)
    (h : ls.foldlM (JsmnParser.read (some n)) parser = .ok parser') :
    parser.Behind ls parser' ∧ parser'.tokens.length ≤ n := by
  induction ls generalizing parser with
  | nil =>
    cases h
    exact ⟨.refl hstarted, hn⟩
  | cons x ls ih =>
    rw [List.foldlM_cons] at h
    obtain ⟨p, hread, hrest⟩ := exists_of_bind_eq_ok h
    rcases reads n hstarted x with ⟨q, hq, hbehind, hroom⟩ | ⟨hnomem, -⟩ | ⟨hinval, -⟩
    · obtain rfl : p = q := Except.ok.inj (hread.symm.trans hq)
      obtain ⟨hls, hn'⟩ := ih hbehind.started (hroom hn) hrest
      exact ⟨hbehind.trans hls, hn'⟩
    · rw [hnomem] at hread
      cases hread
    · rw [hinval] at hread
      cases hread

theorem JsmnParser.started_init : JsmnParser.init.Started := fun _ htok ↦ (nomatch htok)

/-- A text is over with tokens open exactly if the stack is not empty. -/
theorem any_isOpen_eq_false_iff {parser : JsmnParser} (hstarted : parser.Started) :
    parser.tokens.any JsmnTok.isOpen = false ↔ parser.stack = [] := by
  rw [JsmnParser.stack, openKinds_eq_nil_iff, JsmnParser.spans, List.forall_mem_map,
    List.any_eq_false]
  refine forall₂_congr fun tok htok ↦ ?_
  rw [JsmnTok.span_stop_ne_none_iff (hstarted tok htok), JsmnTok.IsClosed, Bool.not_eq_true]

/-- What the stack machine makes of the lexemes of a text. -/
def nestingResult (ls : List Lexeme) : ℤ :=
  match Bracket.run [] (brackets ls) with
  | none => JsmnError.inval.code
  | some [] => tokenCount ls
  | some (_ :: _) => JsmnError.part.code

/-- **With room for its tokens**, the tokeniser returns for a text what the stack machine does. -/
theorem jsmnParse_of_room {n : ℕ} {js : Bytes} {ls : List Lexeme} (htext : cStr js = textOf ls)
    (hls : Delimited [] ls) (hroom : tokenCount ls ≤ n) :
    (jsmnParse (some n) js).1 = nestingResult ls := by
  rcases hfold : ls.foldlM (JsmnParser.read (some n)) JsmnParser.init with e | parser
  · obtain ⟨ms, x, ks, parser, rfl, hms, hx⟩ := foldlM_eq_error hfold
    have hbehind := (behind_of_foldlM JsmnParser.started_init (Nat.zero_le n) hms).1
    rw [jsmnParse_of_read_error htext hls hms hx, nestingResult, brackets_append,
      Bracket.run_append]
    have hstack : Bracket.run [] (brackets ms) = some parser.stack := hbehind.stack
    rw [hstack, Option.bind_some, brackets_cons, Bracket.run_append]
    rcases reads n hbehind.started x with
      ⟨p, hp, -, -⟩ | ⟨-, hfull⟩ | ⟨hinval, hrun⟩
    · rw [hp] at hx
      cases hx
    · have hlength : parser.tokens.length = 0 + tokenCount ms := hbehind.length
      rw [tokenCount_append, tokenCount_cons] at hroom
      omega
    · obtain rfl : e = .inval := Except.error.inj (hx.symm.trans hinval)
      rw [hrun]
      rfl
  · have hbehind := (behind_of_foldlM JsmnParser.started_init (Nat.zero_le n) hfold).1
    have hstack : Bracket.run [] (brackets ls) = some parser.stack := hbehind.stack
    have hcount : parser.count = 0 + tokenCount ls := hbehind.count
    have hopen := any_isOpen_eq_false_iff hbehind.started
    rw [jsmnParse_of_read htext hls hfold, nestingResult, hstack, JsmnParser.result]
    rcases hs : parser.stack with - | ⟨type, stack⟩
    · rw [hopen.2 hs, hcount, Int.zero_add]
      rfl
    · have hany : parser.tokens.any JsmnTok.isOpen = true := by
        rw [← Bool.not_eq_false, hopen, hs]
        exact List.cons_ne_nil _ _
      rw [hany]
      rfl

theorem JsmnError.code_neg (e : JsmnError) : e.code < 0 := by
  cases e <;> decide

/-- What has been accepted has been read to the end. -/
theorem exists_lexemes_of_nonneg {room : Option ℕ} {js : Bytes} (h : 0 ≤ (jsmnParse room js).1) :
    ∃ ls parser, cStr js = textOf ls ∧ Delimited [] ls ∧
      ls.foldlM (JsmnParser.read room) JsmnParser.init = .ok parser ∧
        (jsmnParse room js).1 = parser.result := by
  obtain ⟨ls, t, parser, rfl, hls, hfold, -, ⟨ht, hresult⟩ | ⟨e, -, he⟩⟩ := exists_stop room js
  · refine ⟨ls, parser, ?_, (literalsEnd_iff_delimited ht).1 hls, hfold, hresult⟩
    rw [cStr_textOf_append, ht, List.append_nil]
  · rw [he] at h
    exact absurd h (not_le.2 e.code_neg)

/-- What has been accepted is accepted with a NUL behind it, whatever follows there. -/
theorem jsmnParse_append_zero {room : Option ℕ} {s : Bytes} (hs : 0 ∉ s)
    (h : 0 ≤ (jsmnParse room s).1) (t : Bytes) :
    jsmnParse room (s ++ 0 :: t) = jsmnParse room s := by
  obtain ⟨ls, parser, htext, hls, hfold, -⟩ := exists_lexemes_of_nonneg h
  have htext' : cStr (s ++ 0 :: t) = textOf ls := by
    rw [cStr_append_zero hs, ← htext, cStr_eq_self hs]
  rw [jsmnParse_of_read htext' hls hfold, jsmnParse_of_read htext hls hfold]

/-- Counting the tokens of a text. -/
theorem jsmnParse_none_of_text {js : Bytes} {ls : List Lexeme} (htext : cStr js = textOf ls)
    (hls : Delimited [] ls) : jsmnParse none js = ((tokenCount ls : ℤ), []) := by
  rw [jsmnParse_of_read htext hls (foldlM_read_none ls .init rfl rfl)]
  simp [JsmnParser.result, JsmnParser.init]

theorem nestingResult_nonneg_iff {ls : List Lexeme} :
    0 ≤ nestingResult ls ↔ Bracket.Balanced (brackets ls) := by
  rw [← Bracket.run_eq_nil_iff, nestingResult]
  rcases Bracket.run [] (brackets ls) with - | - | ⟨type, stack⟩
  · exact iff_of_false (not_le.2 (JsmnError.code_neg .inval)) (nomatch ·)
  · exact iff_of_true (Int.natCast_nonneg _) rfl
  · refine iff_of_false (not_le.2 (JsmnError.code_neg .part)) fun h ↦ ?_
    cases h

theorem nestingResult_of_nonneg {ls : List Lexeme} (h : 0 ≤ nestingResult ls) :
    nestingResult ls = tokenCount ls := by
  rw [nestingResult_nonneg_iff, ← Bracket.run_eq_nil_iff] at h
  rw [nestingResult, h]

/-- **What the tokeniser accepts**, given room for `n` tokens, of all byte strings: up to the first
NUL they are lexemes, the brackets among the lexemes are a word of the grammar, and there is room
for the tokens. -/
theorem jsmnParse_nonneg_iff (n : ℕ) (js : Bytes) :
    0 ≤ (jsmnParse (some n) js).1 ↔
      ∃ ls, cStr js = textOf ls ∧ Delimited [] ls ∧ Bracket.Balanced (brackets ls) ∧
        tokenCount ls ≤ n := by
  constructor
  · intro h
    obtain ⟨ls, parser, htext, hls, hfold, -⟩ := exists_lexemes_of_nonneg h
    obtain ⟨hbehind, hn⟩ := behind_of_foldlM JsmnParser.started_init (Nat.zero_le n) hfold
    have hroom : tokenCount ls ≤ n := by
      have hlength : parser.tokens.length = 0 + tokenCount ls := hbehind.length
      omega
    rw [jsmnParse_of_room htext hls hroom] at h
    exact ⟨ls, htext, hls, nestingResult_nonneg_iff.1 h, hroom⟩
  · rintro ⟨ls, htext, hls, hbalanced, hroom⟩
    rw [jsmnParse_of_room htext hls hroom]
    exact nestingResult_nonneg_iff.2 hbalanced

/-- **The two passes**, over all byte strings. What is accepted with any room has been counted to
the same number of tokens; what has been counted is not refused for want of room; and if it is
accepted, the array holds nothing but tokens that have been filled in. -/
theorem passes_agree (junk : ℕ → JsmnTok) (js : Bytes) :
    (∀ n, 0 ≤ (jsmnParse (some n) js).1 → (jsmnParse (some n) js).1 = jsonGetNrTokens js) ∧
      (0 ≤ jsonGetNrTokens js →
        (jsmnParse (some (jsonGetNrTokens js).toNat) js).1 ≠ JsmnError.nomem.code) ∧
      (0 ≤ (jsmnParse (some (jsonGetNrTokens js).toNat) js).1 →
        jsonReadTokens junk js (jsonGetNrTokens js) =
          (jsmnParse (some (jsonGetNrTokens js).toNat) js).2) := by
  have hcount : ∀ n, 0 ≤ (jsmnParse (some n) js).1 →
      (jsmnParse (some n) js).1 = jsonGetNrTokens js ∧
        (jsmnParse (some n) js).2.length = (jsonGetNrTokens js).toNat := by
    intro n h
    obtain ⟨ls, parser, htext, hls, hfold, hresult⟩ := exists_lexemes_of_nonneg h
    obtain ⟨hbehind, hn⟩ := behind_of_foldlM JsmnParser.started_init (Nat.zero_le n) hfold
    have hlength : parser.tokens.length = 0 + tokenCount ls := hbehind.length
    have hroom : tokenCount ls ≤ n := by omega
    rw [jsonGetNrTokens, jsmnParse_none_of_text htext hls, jsmnParse_of_read htext hls hfold]
    refine ⟨?_, by rw [hlength, Nat.zero_add]; rfl⟩
    rw [jsmnParse_of_room htext hls hroom] at h hresult
    exact hresult.symm.trans (nestingResult_of_nonneg h)
  refine ⟨fun n h ↦ (hcount n h).1, fun h ↦ ?_, fun h ↦ ?_⟩
  · obtain ⟨ls, -, htext, hls, -, -⟩ := exists_lexemes_of_nonneg h
    have hnumber : jsonGetNrTokens js = tokenCount ls := by
      rw [jsonGetNrTokens, jsmnParse_none_of_text htext hls]
    rw [hnumber, Int.toNat_natCast, jsmnParse_of_room htext hls le_rfl, nestingResult]
    rcases Bracket.run [] (brackets ls) with - | - | ⟨type, stack⟩
    · exact show JsmnError.inval.code ≠ JsmnError.nomem.code by decide
    · dsimp only [JsmnError.code]
      omega
    · exact show JsmnError.part.code ≠ JsmnError.nomem.code by decide
  · rw [jsonReadTokens, List.drop_eq_nil_of_le, List.append_nil]
    rw [List.length_map, List.length_range, (hcount _ h).2]

end LibSeal
