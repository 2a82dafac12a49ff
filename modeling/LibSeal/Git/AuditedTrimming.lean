import LibSeal.Git.TrimmedLog
import LibSeal.Logpoint.PeriodicCheck

/-!
# Audits and trimmings of several threads

The statements of an audit and of the trimming that follows it are transactions of their own, and
nothing keeps the rows of other threads from coming in between. An advertisement that is stored
after the soundness query has been executed, and before the trimming, is deleted although no audit
has seen it (`not_trimsAudited_of_late_insert`).

A trimming that is executed before any further advertisement has been added deletes nothing but what
the latest soundness query has seen. If every trimming of a run is like that, nothing is trimmed
unaudited, whatever else the threads do (`trimsAudited_of_reaches`). The argument looks at the
record of the transactions: what the soundness query found leads to what the trimming found.
-/

namespace LibSeal

open Bytes Interleaving

variable {D S T : Type} (E : SqlEngine D S) (advertisements : D → List AdvertisementRow)

/-- The text of the completeness query of `libseal_do_audit`. -/
def completenessText : Bytes := ascii "SELECT * FROM incomplete2;"

/-- The text of the soundness query of `libseal_do_audit`. -/
def soundnessText : Bytes :=
  ascii "SELECT * FROM advertisements a WHERE cid <> \t\t\t\t(     \t\t\t\t\t\t" ++
    ascii "SELECT u.cid \t\t\t\t\t\tFROM updates u \t\t\t\t\t\t" ++
    ascii "WHERE u.repo = a.repo AND \t\t\t\t\t\tu.branch = a.branch AND \t\t\t\t\t\t" ++
    ascii "u.time < a.time \t\t\t\t\t\tORDER BY u.time DESC \t\t\t\t\t\tLIMIT 1 \t\t\t\t) \t\t\t\t;"

/-- The queries of the audit are no trimmings. -/
theorem cStr_ne_trimmingText :
    cStr completenessText ≠ trimmingText ∧ cStr soundnessText ≠ trimmingText := by
  decide +kernel

/-- A build that checks and trims the log of the Git auditor. -/
def gitConfig (build : BuildConfig) (checkAfter : ℤ) (hpos : 0 < checkAfter)
    (hlt : checkAfter < 2147483648) : LogpointConfig where
  toBuildConfig := build
  doCheck := true
  doTrimming := true
  checkAfter := checkAfter
  checkAfter_pos := hpos
  checkAfter_lt := hlt
  auditStatements := [completenessText, soundnessText]
  trimmingStatements := [trimmingText]

/-- A transaction stores an advertisement that was not there. -/
def AddsAdvertisement (d : D) (text : Bytes) : Prop :=
  ∃ a ∈ advertisements (E.exec d text).1, a ∉ advertisements d

/-- No advertisement has been added since the latest soundness query. -/
def NothingAddedSinceAudit (transactions : List (Bytes × D)) : Prop :=
  ∃ pre d post, transactions = pre ++ (soundnessText, d) :: post ∧
    ∀ r ∈ (soundnessText, d) :: post, ¬ AddsAdvertisement E advertisements r.2 r.1

/-- A trimming is executed only if no advertisement has been added since the latest soundness
query. -/
def TrimsAfterAudit (c : Config T (LogpointState .git D) (Instruction .git)) (_ : T)
    (i : Instruction .git) : Prop :=
  ∀ stmt row, i = .executeStmtTx stmt row → cStr stmt = trimmingText →
    NothingAddedSinceAudit E advertisements c.shared.transactions

/-- **Nothing is trimmed unaudited**: what a trimming deletes was there when an earlier soundness
query was executed. -/
def TrimsAudited (transactions : List (Bytes × D)) : Prop :=
  ∀ pre d post, transactions = pre ++ (trimmingText, d) :: post →
    ∀ a ∈ advertisements d, a ∉ advertisements (E.exec d trimmingText).1 →
      ∃ d', (soundnessText, d') ∈ pre ∧ a ∈ advertisements d'

variable {E advertisements}

/-- While no transaction adds advertisements, those that are there have been there. -/
theorem Replays.mem_of_not_adds {d e : D} {transactions : List (Bytes × D)}
    (h : Replays E d transactions e)
    (hnot : ∀ r ∈ transactions, ¬ AddsAdvertisement E advertisements r.2 r.1)
    {a : AdvertisementRow} (ha : a ∈ advertisements e) : a ∈ advertisements d := by
  induction transactions generalizing d with
  | nil =>
    cases h
    exact ha
  | cons r transactions ih =>
    obtain ⟨text, d'⟩ := r
    obtain ⟨rfl, h⟩ := h
    have hmem := ih h fun r hr ↦ hnot r (List.mem_cons_of_mem _ hr)
    by_contra hna
    exact hnot _ List.mem_cons_self ⟨a, hmem, hna⟩

/-- A further transaction. -/
theorem TrimsAudited.concat {d₀ d : D} {transactions : List (Bytes × D)}
    (h : TrimsAudited E advertisements transactions) (hreplays : Replays E d₀ transactions d)
    {text : Bytes}
    (htext : text = trimmingText → NothingAddedSinceAudit E advertisements transactions) :
    TrimsAudited E advertisements (transactions ++ [(text, d)]) := by
  intro pre d' post hsplit a ha hdel
  rcases post.eq_nil_or_concat with rfl | ⟨post, r, rfl⟩
  · -- the transaction is the trimming
    obtain ⟨rfl, hlast⟩ := List.append_inj' hsplit rfl
    cases hlast
    obtain ⟨pre', d', post, rfl, hnot⟩ := htext rfl
    have hmem := (hreplays.of_append).mem_of_not_adds hnot ha
    exact ⟨d', List.mem_append_right _ List.mem_cons_self, hmem⟩
  · rw [List.concat_eq_append, ← List.cons_append, ← List.append_assoc] at hsplit
    obtain ⟨rfl, -⟩ := List.append_inj' hsplit rfl
    exact h pre d' post rfl a ha hdel

/-- **A run whose trimmings come before further advertisements trims nothing unaudited**, whatever
the number of threads and the order of their steps. -/
theorem trimsAudited_of_reaches [DecidableEq T] {cfg : LogpointConfig} {P : Platform} {d : D}
    {c : Config T (LogpointState .git D) (Instruction .git)}
    (h : Interleaving.Reaches (logpointSystem cfg P E) (TrimsAfterAudit E advertisements)
      (.init d) c) :
    TrimsAudited E advertisements c.shared.transactions := by
  have hinv : c.shared.Recorded E d ∧ TrimsAudited E advertisements c.shared.transactions := by
    refine h.invariant (I := fun c ↦ c.shared.Recorded E d ∧
      TrimsAudited E advertisements c.shared.transactions) ⟨⟨⟨rfl, rfl⟩, rfl⟩, ?_⟩ ?_ ?_
    · intro pre d' post hsplit
      exact absurd hsplit (by simp [Config.init, LogpointState.init])
    · intro c t l hc _ _
      exact hc
    · intro c t i rest hc _ hok
      obtain ⟨hrecorded, haudited⟩ := hc
      refine ⟨hrecorded.exec i cfg P, ?_⟩
      show TrimsAudited E advertisements (i.exec cfg P E c.shared).1.transactions
      obtain ⟨-, ⟨-, htransactions⟩ | ⟨stmt, row, hi, -, htransactions⟩⟩ :=
        i.exec_content cfg P E hrecorded.1
      · rw [htransactions]
        exact haudited
      · rw [htransactions]
        exact haudited.concat hrecorded.2 (hok stmt row hi)
  exact hinv.2

/-! ### Inserts outside of audits -/

/-- A call has executed its soundness query and not yet its trimming. -/
def PastSoundness (l : List (Instruction .git)) : Prop :=
  .executeStmtTx trimmingText none ∈ l ∧ .executeStmtTx soundnessText none ∉ l

/-- No advertisement is added while some call is past its soundness query. -/
def AddsOutsideAudits (E : SqlEngine D S) (advertisements : D → List AdvertisementRow)
    (c : Config T (LogpointState .git D) (Instruction .git)) (_ : T) (i : Instruction .git) :
    Prop :=
  ∀ stmt row, i = .executeStmtTx stmt row →
    AddsAdvertisement E advertisements c.shared.log.db.content (cStr stmt) →
      ∀ u, ¬ PastSoundness (c.code u)

/-- What an instruction has to do with an audit: it starts one, or is one of its statements. -/
def Instruction.auditText? : Instruction .git → Option (Option Bytes)
  | .executeStmtTx text none => some (some text)
  | .compareExchange => some none
  | _ => none

/-- What a thread of the Git auditor has to do: at most one audit, and its statements in order; and
the transactions of rows are no trimmings. -/
structure GitCode (l : List (Instruction .git)) : Prop where
  audit : l.filterMap Instruction.auditText? <:+ [none] ∨ l.filterMap Instruction.auditText? <:+
    [some completenessText, some soundnessText, some trimmingText]
  row : ∀ stmt n, .executeStmtTx stmt (some n) ∈ l → cStr stmt ≠ trimmingText

/-- The statement of a row is no trimming. -/
theorem statementText_ne_trimmingText (cfg : BuildConfig) (P : Platform) (lasthash : HashText)
    (table tuple : CString) : statementText cfg P lasthash table tuple ≠ trimmingText := by
  have hhead : ∀ rest, insertInto ++ rest ≠ trimmingText := by
    intro rest h
    have := congrArg (List.take 13) h
    rw [List.take_append_of_le_length (by rw [length_insertInto])] at this
    exact absurd this (by decide +kernel)
  rw [statementText]
  split_ifs
  · simp only [insertWithHash, List.append_assoc]
    exact hhead _
  · simp only [insertWithoutHash, List.append_assoc]
    exact hhead _

variable {build : BuildConfig} {checkAfter : ℤ} {hpos : 0 < checkAfter}
  {hlt : checkAfter < 2147483648} {P : Platform}

theorem gitCode_logpointLog (calls : List (InsertCall .git × Option Signature)) :
    GitCode (logpointLog (gitConfig build checkAfter hpos hlt) calls) := by
  have hcall : logpointLog (gitConfig build checkAfter hpos hlt) calls =
      calls.map (fun (c, sign) ↦ .insertStatement c sign) ++
        [.fetchAdd, .compareExchange, .logpointLogReturns] := by
    rw [logpointLog, List.append_assoc]
    rfl
  rw [hcall]
  constructor
  · have hinserts : (calls.map fun (c, sign) ↦ Instruction.insertStatement c sign).filterMap
        Instruction.auditText? = [] := by
      rw [List.filterMap_eq_nil_iff]
      intro i hi
      obtain ⟨c, -, rfl⟩ := List.mem_map.1 hi
      rfl
    rw [List.filterMap_append, hinserts]
    exact Or.inl (List.suffix_refl _)
  · intro stmt n h
    simp at h

/-- **A step** keeps the audit in order. -/
theorem GitCode.exec {i : Instruction .git} {rest : List (Instruction .git)}
    (h : GitCode (i :: rest)) (s : LogpointState .git D) :
    GitCode ((i.exec (gitConfig build checkAfter hpos hlt) P E s).2 ++ rest) := by
  have hrest : GitCode rest := by
    refine ⟨?_, fun stmt n hmem ↦ h.row stmt n (List.mem_cons_of_mem _ hmem)⟩
    have hsuffix : rest.filterMap Instruction.auditText? <:+
        (i :: rest).filterMap Instruction.auditText? :=
      (List.suffix_cons i rest).filterMap _
    exact h.audit.imp hsuffix.trans hsuffix.trans
  rcases i.exec_code (gitConfig build checkAfter hpos hlt) P E s with
    hnil | hself | ⟨c, sign, stmt, rfl, htext, hrow⟩ | ⟨rfl, hcheck⟩
  · rw [hnil]
    exact hrest
  · rw [hself]
    exact h
  · -- the transaction of a row is none of the audit
    rw [hrow]
    refine ⟨hrest.audit, fun stmt' n hmem ↦ ?_⟩
    rcases List.mem_cons.1 hmem with heq | hmem
    · cases heq
      rw [htext]
      exact statementText_ne_trimmingText _ _ _ _ _
    · exact hrest.row stmt' n hmem
  · -- the audit is the one of this call
    have hnone : rest.filterMap Instruction.auditText? = [] := by
      have hcons : (.compareExchange :: rest).filterMap Instruction.auditText? =
          none :: rest.filterMap Instruction.auditText? := rfl
      have haudit := h.audit
      rw [hcons] at haudit
      rcases haudit with haudit | haudit
      · simpa [List.suffix_cons_iff] using haudit
      · simp [List.suffix_cons_iff] at haudit
    rw [hcheck]
    refine ⟨Or.inr ?_, fun stmt n hmem ↦ ?_⟩
    · rw [List.filterMap_append, hnone, List.append_nil]
      exact List.suffix_refl _
    · rcases List.mem_append.1 hmem with hmem | hmem
      · simp [checkCode, gitConfig] at hmem
      · exact hrest.row stmt n hmem

/-- **A call that is about to trim** is past its soundness query. -/
theorem GitCode.pastSoundness {stmt : Bytes} {row : Option ℕ} {rest : List (Instruction .git)}
    (h : GitCode (.executeStmtTx stmt row :: rest)) (hstmt : cStr stmt = trimmingText) :
    PastSoundness (.executeStmtTx stmt row :: rest) := by
  cases row with
  | some n => exact absurd hstmt (h.row stmt n List.mem_cons_self)
  | none =>
    have hcons : (.executeStmtTx stmt none :: rest).filterMap Instruction.auditText? =
        some stmt :: rest.filterMap Instruction.auditText? := rfl
    have haudit := h.audit
    rw [hcons] at haudit
    have hcompleteness : stmt ≠ completenessText := by
      rintro rfl
      exact cStr_ne_trimmingText.1 hstmt
    have hsoundness : stmt ≠ soundnessText := by
      rintro rfl
      exact cStr_ne_trimmingText.2 hstmt
    obtain ⟨rfl, hnone⟩ : stmt = trimmingText ∧ rest.filterMap Instruction.auditText? = [] := by
      simpa [List.suffix_cons_iff, hcompleteness, hsoundness] using haudit
    refine ⟨List.mem_cons_self, fun hmem ↦ ?_⟩
    rcases List.mem_cons.1 hmem with heq | hmem
    · exact hsoundness (Instruction.executeStmtTx.inj heq).1.symm
    · have hpending : some soundnessText ∈ rest.filterMap Instruction.auditText? :=
        List.mem_filterMap.2 ⟨_, hmem, rfl⟩
      rw [hnone] at hpending
      exact absurd hpending List.not_mem_nil

/-- A further transaction that adds nothing. -/
theorem NothingAddedSinceAudit.concat {transactions : List (Bytes × D)}
    (h : NothingAddedSinceAudit E advertisements transactions) {text : Bytes} {d : D}
    (hnot : ¬ AddsAdvertisement E advertisements d text) :
    NothingAddedSinceAudit E advertisements (transactions ++ [(text, d)]) := by
  obtain ⟨pre, d', post, rfl, hpost⟩ := h
  refine ⟨pre, d', post ++ [(text, d)], by simp, ?_⟩
  rw [← List.cons_append, List.forall_mem_append]
  exact ⟨hpost, by simpa using hnot⟩

/-- What holds while no advertisement is added during an audit. -/
structure AuditInvariant (E : SqlEngine D S) (advertisements : D → List AdvertisementRow) (d : D)
    (c : Config T (LogpointState .git D) (Instruction .git)) : Prop where
  recorded : c.shared.Recorded E d
  code : ∀ t, GitCode (c.code t)
  past : ∀ t, PastSoundness (c.code t) →
    NothingAddedSinceAudit E advertisements c.shared.transactions

/-- **A step** keeps the invariant, and every trimming comes after an audit. -/
theorem AuditInvariant.step [DecidableEq T] {d : D}
    {c : Config T (LogpointState .git D) (Instruction .git)}
    (h : AuditInvariant E advertisements d c) (hdo : build.doInsert = true)
    (hselect : ∀ d, ¬ AddsAdvertisement E advertisements d soundnessText) {t : T}
    {i : Instruction .git} {rest : List (Instruction .git)} (hcode : c.code t = i :: rest)
    (hok : AddsOutsideAudits E advertisements c t i) :
    AuditInvariant E advertisements d (c.resume t
      (i.exec (gitConfig build checkAfter hpos hlt) P E c.shared).1
      ((i.exec (gitConfig build checkAfter hpos hlt) P E c.shared).2 ++ rest)) := by
  have hgit : GitCode (i :: rest) := hcode ▸ h.code t
  have hcontent := i.exec_content (gitConfig build checkAfter hpos hlt) P E h.recorded.1
  -- a call that is past its soundness query has been so before, and nothing has been added since
  have hpast : ∀ u, PastSoundness (c.code u) → NothingAddedSinceAudit E advertisements
      (i.exec (gitConfig build checkAfter hpos hlt) P E c.shared).1.transactions := by
    intro u hu
    obtain ⟨-, ⟨-, htransactions⟩ | ⟨stmt, row, hi, -, htransactions⟩⟩ := hcontent
    · rw [htransactions]
      exact h.past u hu
    · rw [htransactions]
      exact (h.past u hu).concat fun hadds ↦ hok stmt row hi hadds u hu
  refine ⟨h.recorded.exec i _ P, fun u ↦ ?_, fun u hu ↦ ?_⟩
  · rcases eq_or_ne u t with rfl | hne
    · rw [Config.code_resume_self]
      exact hgit.exec c.shared
    · rw [Config.code_resume_of_ne c hne]
      exact h.code u
  · rcases eq_or_ne u t with rfl | hne
    · rw [Config.code_resume_self] at hu
      by_cases hi : i = .executeStmtTx soundnessText none
      · -- the audit has just been executed
        subst hi
        have htext : cStr soundnessText = soundnessText := cStr_eq_self (by decide +kernel)
        rw [Config.shared_resume, Instruction.exec_executeStmtTx _ hdo P E h.recorded.1, htext]
        exact ⟨_, _, [], rfl, by simpa using hselect _⟩
      · refine hpast u (hcode ▸ ?_)
        have hrest : PastSoundness rest → PastSoundness (i :: rest) := fun hrest ↦
          ⟨List.mem_cons_of_mem i hrest.1, fun hmem ↦
            (List.mem_cons.1 hmem).elim (fun heq ↦ hi heq.symm) hrest.2⟩
        rcases i.exec_code (gitConfig build checkAfter hpos hlt) P E c.shared with
          hnil | hself | ⟨_, _, stmt, -, -, hrow⟩ | ⟨-, hcheck⟩
        · rw [hnil] at hu
          exact hrest hu
        · rw [hself] at hu
          exact hu
        · rw [hrow] at hu
          refine hrest ⟨?_, fun hmem ↦ hu.2 (List.mem_cons_of_mem _ hmem)⟩
          exact (List.mem_cons.1 hu.1).resolve_left fun heq ↦ nomatch heq
        · rw [hcheck] at hu
          refine absurd (List.mem_append_left _ ?_) hu.2
          simp [checkCode, gitConfig]
    · rw [Config.code_resume_of_ne c hne] at hu
      exact hpast u hu

/-- **If no advertisement is added during an audit, every trimming comes right after one.** In
particular a single thread never trims what it has not audited. -/
theorem trimsAfterAudit_of_addsOutsideAudits [DecidableEq T] (hdo : build.doInsert = true)
    (hselect : ∀ d, ¬ AddsAdvertisement E advertisements d soundnessText) {d : D}
    {c : Config T (LogpointState .git D) (Instruction .git)}
    (h : Interleaving.Reaches (logpointSystem (gitConfig build checkAfter hpos hlt) P E)
      (AddsOutsideAudits E advertisements) (.init d) c) :
    Interleaving.Reaches (logpointSystem (gitConfig build checkAfter hpos hlt) P E)
      (TrimsAfterAudit E advertisements) (.init d) c := by
  -- the invariant and the conclusion are carried along the run together
  have hinv : AuditInvariant E advertisements d c ∧
      Interleaving.Reaches (logpointSystem (gitConfig build checkAfter hpos hlt) P E)
        (TrimsAfterAudit E advertisements) (.init d) c := by
    refine h.invariant (I := fun c ↦ AuditInvariant E advertisements d c ∧
      Interleaving.Reaches (logpointSystem (gitConfig build checkAfter hpos hlt) P E)
        (TrimsAfterAudit E advertisements) (.init d) c) ⟨⟨⟨⟨rfl, rfl⟩, rfl⟩, ?_, ?_⟩, .init⟩ ?_ ?_
    · exact fun t ↦ ⟨Or.inl (List.nil_suffix), fun _ _ hmem ↦ absurd hmem List.not_mem_nil⟩
    · exact fun t hpast ↦ absurd hpast.1 List.not_mem_nil
    · rintro c t l ⟨hc, hreaches⟩ hidle ⟨calls, rfl⟩
      refine ⟨⟨hc.recorded, fun u ↦ ?_, fun u hu ↦ ?_⟩, hreaches.call t _ hidle ⟨calls, rfl⟩⟩
      · rcases eq_or_ne u t with rfl | hne
        · rw [Config.code_resume_self]
          exact gitCode_logpointLog calls
        · rw [Config.code_resume_of_ne c hne]
          exact hc.code u
      · rcases eq_or_ne u t with rfl | hne
        · rw [Config.code_resume_self] at hu
          have hmem := hu.1
          simp [logpointLog, gitConfig] at hmem
        · rw [Config.code_resume_of_ne c hne] at hu
          exact hc.past u hu
    · rintro c t i rest ⟨hc, hreaches⟩ hcode hok
      refine ⟨hc.step hdo hselect hcode hok, hreaches.step t i rest hcode ?_⟩
      rintro stmt row rfl hstmt
      exact hc.past t (hcode ▸ (hcode ▸ hc.code t).pastSoundness hstmt)
  exact hinv.2

/-! ### Concrete runs -/

/-- The audit and the trimming after every call. -/
def trimEveryCall : LogpointConfig :=
  gitConfig ⟨true, true, true, false⟩ 1 Int.one_pos one_lt_checkAfter_bound

/-- Threads that audit and trim after every call. -/
def trimmingSystem :
    System (LogpointState .git (List (InsertCall .git × HashText))) (Instruction .git) :=
  logpointSystem trimEveryCall twoRowPlatform (trimmingEngine storedRow)

/-- The advertisements among some stored rows. -/
def storedAdvertisements (log : List (InsertCall .git × HashText)) : List AdvertisementRow :=
  log.filterMap fun r ↦ (storedRow r.1).advertisement?

/-- An advertisement that was there before the audit is trimmed after it. -/
theorem trimsAudited_of_stored_advertisement :
    ∃ c : Config Unit (LogpointState .git (List (InsertCall .git × HashText))) (Instruction .git),
      Interleaving.Reaches trimmingSystem
        (TrimsAfterAudit (trimmingEngine storedRow) storedAdvertisements)
        (.init [(advertisementCall, HashText.empty)]) c ∧
      c.shared.log.db.content = [] ∧
      TrimsAudited (trimmingEngine storedRow) storedAdvertisements c.shared.transactions := by
  have h1 : Interleaving.Reaches trimmingSystem
      (TrimsAfterAudit (trimmingEngine storedRow) storedAdvertisements)
      (.init [(advertisementCall, HashText.empty)]) _ :=
    .call () (logpointLog trimEveryCall []) .init rfl ⟨[], rfl⟩
  have h2 := h1.step () .fetchAdd _ rfl fun _ _ h ↦ nomatch h
  have h3 := h2.step () .compareExchange _ rfl fun _ _ h ↦ nomatch h
  have h4 := h3.step () (.executeStmtTx completenessText none) _ rfl (by
    rintro stmt row hi htext
    cases hi
    exact absurd htext cStr_ne_trimmingText.1)
  have h5 := h4.step () (.executeStmtTx soundnessText none) _ rfl (by
    rintro stmt row hi htext
    cases hi
    exact absurd htext cStr_ne_trimmingText.2)
  have h6 := h5.step () .doAuditReturns _ rfl fun _ _ h ↦ nomatch h
  have h7 := h6.step () (.executeStmtTx trimmingText none) _ rfl (by
    rintro stmt row hi -
    refine ⟨[(completenessText, [(advertisementCall, HashText.empty)])],
      [(advertisementCall, HashText.empty)], [], by decide +kernel, ?_⟩
    unfold AddsAdvertisement
    decide +kernel)
  exact ⟨_, h7, by decide +kernel, trimsAudited_of_reaches h7⟩

/-- The row of an advertisement, the first of its log. -/
def advertisementStored : InsertCall .git × HashText :=
  (advertisementCall,
    nextHash twoRowPlatform HashText.empty advertisementCall.name advertisementCall.tuple)

/-- The statement that stores it. -/
def advertisementText : Bytes :=
  statementText trimEveryCall.toBuildConfig twoRowPlatform HashText.empty advertisementCall.name
    advertisementCall.tuple

/-- A schedule: an advertisement is stored between the soundness query and the trimming. -/
def lateInsert : List (Turn Bool (Instruction .git)) :=
  [.call false (logpointLog trimEveryCall []), .step false, .step false, .step false, .step false,
    .call true (logpointLog trimEveryCall [(advertisementCall, none)]), .step true, .step true,
    .step false, .step false]

/-- The advertisement is trimmed although no audit has seen it. -/
theorem not_trimsAudited_of_late_insert :
    Interleaving.Reaches trimmingSystem (fun _ _ _ ↦ True) (.init [])
        ((Config.init (.init [])).run trimmingSystem lateInsert) ∧
      ¬ TrimsAudited (trimmingEngine storedRow) storedAdvertisements
        ((Config.init (.init [])).run trimmingSystem lateInsert).shared.transactions := by
  constructor
  · refine Interleaving.Reaches.init.run fun t l hmem ↦ ?_
    simp only [lateInsert, List.mem_cons, Turn.call.injEq, reduceCtorEq, List.not_mem_nil,
      or_false, false_or] at hmem
    rcases hmem with ⟨-, rfl⟩ | ⟨-, rfl⟩
    · exact ⟨[], rfl⟩
    · exact ⟨[(advertisementCall, none)], rfl⟩
  · have htransactions :
        ((Config.init (.init [])).run trimmingSystem lateInsert).shared.transactions =
          [(completenessText, []), (soundnessText, []), (advertisementText, [])] ++
            [(trimmingText, [advertisementStored])] := by decide +kernel
    rw [htransactions]
    intro h
    obtain ⟨d', hmem, ha⟩ := h _ _ [] rfl ⟨1, ascii "r", ascii "b", ascii "0123"⟩
      (by decide +kernel) (by decide +kernel)
    -- the soundness query has found nothing
    have hempty : ∀ r ∈ [(completenessText, []), (soundnessText, []), (advertisementText, [])],
        r.2 = ([] : List (InsertCall .git × HashText)) := by simp
    have hd' : d' = [] := hempty _ hmem
    rw [hd'] at ha
    exact absurd ha List.not_mem_nil

end LibSeal
