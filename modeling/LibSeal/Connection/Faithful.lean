import LibSeal.Connection.Blocks

/-!
# No bytes lost, duplicated or mixed

The connection log as a whole, with any number of connections: a run of callbacks is a run of the
family of connections, followed by `add_entry_to_list` for what they pass on, in order
(`run_iff_runKeyed`). For the connections the interleaving does not matter, since they share
nothing. What they share is `initialized`, and outside the enclave this is what breaks: the first
entry sets it to -1, the second finds -1, adds one, and waits for -1.

The result (`run_faithful_iff`) is therefore an equivalence: every connection's blocks are handed on
exactly as they are, in any interleaving, if and only if no block is too large for the integers that
count it and, outside the enclave, there is at most one entry to hand on.
-/

namespace LibSeal

open KeyedMachine

variable {K : Type} [DecidableEq K]

/-- The entries that a run passes to `add_entry_to_list`, with their connections. -/
def passedEntries (out : List (K × LogEntry × LogEntry)) : List (K × LogEntry) :=
  out.map fun o ↦ (o.1, o.2.1)

/-- The callbacks of one connection among those of all. -/
def callbacksOf (k : K) (cbs : List (K × Callback)) : List (K × Callback) :=
  cbs.filter fun cb ↦ cb.1 = k

/-- All the callbacks of a connection: none, or those of one lifetime. -/
def lifeCallbacks : Option (Answers × List Transfer) → List Callback
  | none => []
  | some (answers, ts) => lifetime answers ts

/-- The blocks of a connection that may not exist. -/
def lifeBlocks : Option (Answers × List Transfer) → List (List Transfer)
  | none => []
  | some (_, ts) => blocks ts

/-- The entries that a connection is to hand on. -/
def lifeEntries (sgx : Bool) (life : Option (Answers × List Transfer)) : List LogEntry :=
  ((lifeBlocks life).drop (ignoreSlots sgx)).map blockEntry

/-- All allocations during a callback succeed. -/
def Callback.Succeeds : Callback → Prop
  | .newConnection answers => answers.Succeed
  | .request _ answers => answers.Succeed
  | .reply _ answers => answers.Succeed
  | .freeConnection => True

/-! ### `add_entry_to_list` -/

/-- The reply buffer is as long as the entry says. -/
def LogEntry.WellFormed (e : LogEntry) : Prop := (e.rep.getD []).length = e.repLen

/-- A well-formed entry can be looked at from its end. -/
theorem exists_stripReply (sgx : Bool) {e : LogEntry} (h : e.WellFormed) :
    ∃ e', stripReply sgx e = .ok e' := by
  rw [stripReply]
  split_ifs with hshort
  · exact ⟨_, rfl⟩
  · have hlen : 2 ≤ e.repLen := by
      simp only [Bool.or_eq_true, decide_eq_true_eq, not_or, not_lt] at hshort
      exact hshort.2
    rcases hrep : e.rep with - | rep
    · rw [LogEntry.WellFormed, hrep] at h
      exact absurd (h ▸ hlen) (by decide)
    · have hsize : rep.length = e.repLen := by rw [LogEntry.WellFormed, hrep] at h; exact h
      dsimp only
      rw [List.getElem?_eq_getElem (show e.repLen - 2 < rep.length by omega),
        List.getElem?_eq_getElem (show e.repLen - 1 < rep.length by omega)]
      exact ⟨_, rfl⟩

theorem addEntries_cons {sgx : Bool} {i i' : ℤ} {e : LogEntry} {es ls : List LogEntry} :
    addEntries sgx i (e :: es) = .ok (i', ls) ↔
      ∃ j l ls', addEntryToList sgx i e = .ok (j, l) ∧ addEntries sgx j es = .ok (i', ls') ∧
        ls = l :: ls' := by
  rw [addEntries]
  rcases addEntryToList sgx i e with f | ⟨j, l⟩
  · simp [bind, Except.bind]
  · rcases hadd : addEntries sgx j es with f | ⟨j', ls'⟩
    · simp [bind, Except.bind, hadd]
    · simp [bind, Except.bind, pure, Except.pure, hadd, eq_comm]

theorem addEntries_append {sgx : Bool} {i i' : ℤ} {es es' ls : List LogEntry} :
    addEntries sgx i (es ++ es') = .ok (i', ls) ↔
      ∃ j ls₁ ls₂, addEntries sgx i es = .ok (j, ls₁) ∧ addEntries sgx j es' = .ok (i', ls₂) ∧
        ls = ls₁ ++ ls₂ := by
  induction es generalizing i ls with
  | nil =>
    constructor
    · exact fun h ↦ ⟨i, [], ls, rfl, h, rfl⟩
    · rintro ⟨j, ls₁, ls₂, hnil, h, rfl⟩
      obtain ⟨rfl, rfl⟩ := Prod.mk.inj (Except.ok.inj hnil)
      exact h
  | cons e es ih =>
    rw [List.cons_append, addEntries_cons]
    constructor
    · rintro ⟨j, l, ls', hadd, hrest, rfl⟩
      obtain ⟨j', ls₁, ls₂, hes, hes', rfl⟩ := ih.1 hrest
      exact ⟨j', l :: ls₁, ls₂, addEntries_cons.2 ⟨j, l, ls₁, hadd, hes, rfl⟩, hes', rfl⟩
    · rintro ⟨j', ls₁, ls₂, hcons, hes', rfl⟩
      obtain ⟨j, l, ls', hadd, hes, rfl⟩ := addEntries_cons.1 hcons
      exact ⟨j, l, ls' ++ ls₂, hadd, ih.2 ⟨j', ls', ls₂, hes, hes', rfl⟩, rfl⟩

theorem length_of_addEntries {sgx : Bool} {i i' : ℤ} {es ls : List LogEntry}
    (h : addEntries sgx i es = .ok (i', ls)) : ls.length = es.length := by
  induction es generalizing i ls with
  | nil =>
    obtain ⟨-, rfl⟩ := Prod.mk.inj (Except.ok.inj h)
    rfl
  | cons e es ih =>
    obtain ⟨j, l, ls', -, hes, rfl⟩ := addEntries_cons.1 h
    rw [List.length_cons, List.length_cons, ih hes]

/-- In the enclave an entry is handed on as it is. -/
theorem addEntries_sgx (i : ℤ) (es : List LogEntry) : addEntries true i es = .ok (i, es) := by
  induction es with
  | nil => rfl
  | cons e es ih => exact addEntries_cons.2 ⟨i, e, es, rfl, ih, rfl⟩

/-- **The second entry is one too many** outside the enclave. -/
theorem exists_addEntries_iff {sgx : Bool} {es : List LogEntry} (hes : ∀ e ∈ es, e.WellFormed) :
    (∃ r, addEntries sgx 0 es = .ok r) ↔ sgx = true ∨ es.length ≤ 1 := by
  rcases sgx with - | -
  · have hadd : ∀ i e, e ∈ es → ∃ e', addEntryToList false i e =
        (awaitInitialized false i).map fun j ↦ (j, e') := by
      intro i e he
      obtain ⟨e', hstrip⟩ := exists_stripReply false (hes e he)
      refine ⟨e', ?_⟩
      rw [addEntryToList, hstrip]
      rcases awaitInitialized false i with f | j <;> rfl
    rcases es with - | ⟨e, - | ⟨e', es⟩⟩
    · exact iff_of_true ⟨_, rfl⟩ (Or.inr (Nat.zero_le 1))
    · obtain ⟨l, hl⟩ := hadd 0 e List.mem_cons_self
      exact iff_of_true ⟨(-1, [l]), addEntries_cons.2 ⟨-1, l, [], hl, rfl, rfl⟩⟩ (Or.inr le_rfl)
    · refine iff_of_false ?_ (by simp)
      rintro ⟨⟨i', ls⟩, hr⟩
      obtain ⟨j, l, ls', hfirst, hrest, -⟩ := addEntries_cons.1 hr
      obtain ⟨l', hl'⟩ := hadd 0 e List.mem_cons_self
      rw [hl'] at hfirst
      obtain ⟨rfl, -⟩ := Prod.mk.inj (Except.ok.inj hfirst)
      obtain ⟨i₂, l₂, -, hsecond, -⟩ := addEntries_cons.1 hrest
      obtain ⟨k₂, hk₂⟩ := hadd (-1) e' (List.mem_cons_of_mem _ List.mem_cons_self)
      rw [hk₂] at hsecond
      exact absurd hsecond (by simp [awaitInitialized, Except.map])
  · exact iff_of_true ⟨_, addEntries_sgx 0 es⟩ (Or.inl rfl)

/-! ### Well-formed entries -/

/-- The slot of a connection, if it has one, is well formed. -/
def SlotWellFormed (c : Option LogConnection) : Prop :=
  ∀ d ∈ c, ∀ e ∈ d.slot, e.WellFormed

theorem wellFormed_handOver {c : LogConnection} (h : SlotWellFormed (some c)) :
    ∀ e ∈ (handOver c).2, e.WellFormed := by
  intro e he
  rw [handOver] at he
  split at he
  · exact absurd he List.not_mem_nil
  next e' hslot =>
    split_ifs at he
    · exact absurd he List.not_mem_nil
    · rw [List.mem_singleton.1 he]
      exact h c rfl e' hslot

/-- The connection whose slot a request is logged to. -/
theorem exists_slotWellFormed {c : LogConnection} (h : SlotWellFormed (some c))
    (answers : Answers) :
    ∃ d es', SlotWellFormed (some d) ∧ (∀ e ∈ es', e.WellFormed) ∧
      (if !c.logRequest then
        let (c, passed) := handOver c
        ({ c with slot := newSlot answers }, passed)
      else (c, [])) = (d, es') := by
  split_ifs
  · refine ⟨_, _, ?_, wellFormed_handOver h, rfl⟩
    intro d hd e he
    obtain rfl := Option.some.inj hd
    dsimp only at he
    rw [newSlot] at he
    split_ifs at he
    · obtain rfl := Option.some.inj he
      rfl
    · exact absurd he (by simp)
  · exact ⟨c, [], h, List.forall_mem_nil _, rfl⟩

/-- A request changes no reply buffer, except that it may start with a new slot. -/
theorem wellFormed_logHttpsRequest {c c' : Option LogConnection} {req : Chunk} {answers : Answers}
    {es : List LogEntry} (h : SlotWellFormed c)
    (hcall : logHttpsRequest c req answers = .ok (c', es)) :
    SlotWellFormed c' ∧ ∀ e ∈ es, e.WellFormed := by
  rcases c with - | c
  · obtain ⟨rfl, rfl⟩ := Prod.mk.inj (Except.ok.inj hcall)
    exact ⟨h, List.forall_mem_nil _⟩
  obtain ⟨d, es', hd, hes', hd'⟩ := exists_slotWellFormed h answers
  rw [logHttpsRequest] at hcall
  simp only [hd'] at hcall
  split at hcall
  · exact absurd hcall (by simp)
  next e hslot =>
    have he : e.WellFormed := hd d rfl e hslot
    rcases hgrow : growBuffer e.req e.reqLen req answers with f | (- | block)
    · simp [hgrow, bind, Except.bind] at hcall
    · simp only [hgrow, bind, Except.bind] at hcall
      obtain ⟨rfl, rfl⟩ := Prod.mk.inj (Except.ok.inj hcall)
      refine ⟨?_, hes'⟩
      rintro _ ⟨rfl⟩ _ ⟨rfl⟩
      exact he
    · simp only [hgrow, bind, Except.bind] at hcall
      obtain ⟨rfl, rfl⟩ := Prod.mk.inj (Except.ok.inj hcall)
      refine ⟨?_, hes'⟩
      rintro _ ⟨rfl⟩ _ ⟨rfl⟩
      exact he

theorem wellFormed_logHttpsReply {c c' : Option LogConnection} {rep : Chunk} {answers : Answers}
    {es : List LogEntry} (halloc : answers.Succeed) (h : SlotWellFormed c)
    (hcall : logHttpsReply c rep answers = .ok (c', es)) :
    SlotWellFormed c' ∧ ∀ e ∈ es, e.WellFormed := by
  rcases c with - | c
  · obtain ⟨rfl, rfl⟩ := Prod.mk.inj (Except.ok.inj hcall)
    exact ⟨h, List.forall_mem_nil _⟩
  rw [logHttpsReply] at hcall
  dsimp only at hcall
  split at hcall
  · obtain ⟨rfl, rfl⟩ := Prod.mk.inj (Except.ok.inj hcall)
    exact ⟨h, List.forall_mem_nil _⟩
  next e hslot =>
    have he : (e.rep.getD []).length = e.repLen := h c rfl e hslot
    rw [growBuffer_eq he rep halloc.2] at hcall
    split_ifs at hcall with hfit
    · simp only [bind, Except.bind] at hcall
      obtain ⟨rfl, rfl⟩ := Prod.mk.inj (Except.ok.inj hcall)
      refine ⟨?_, List.forall_mem_nil _⟩
      rintro _ ⟨rfl⟩ _ ⟨rfl⟩
      show (e.rep.getD [] ++ rep.bytes).length = (e.repLen + rep.bytes.length) % uintSize
      rw [Nat.mod_eq_of_lt hfit, List.length_append, he]
    · simp [bind, Except.bind] at hcall

/-- **Slots stay well formed**, and so entries are passed on well formed. -/
theorem wellFormed_callback {sgx : Bool} {c c' : Option LogConnection} {cb : Callback}
    {es : List LogEntry} (halloc : cb.Succeeds) (h : SlotWellFormed c)
    (hcall : callback sgx c cb = .ok (c', es)) : SlotWellFormed c' ∧ ∀ e ∈ es, e.WellFormed := by
  rcases cb with answers | ⟨req, answers⟩ | ⟨rep, answers⟩ | -
  · obtain ⟨rfl, rfl⟩ := Prod.mk.inj (Except.ok.inj hcall)
    refine ⟨?_, List.forall_mem_nil _⟩
    rw [logNewConnection, if_pos halloc.1]
    rintro _ ⟨rfl⟩ e he
    exact absurd he (by simp)
  · exact wellFormed_logHttpsRequest h hcall
  · exact wellFormed_logHttpsReply halloc h hcall
  · obtain ⟨rfl, rfl⟩ := Prod.mk.inj (Except.ok.inj hcall)
    rcases c with - | c
    · exact ⟨h, List.forall_mem_nil _⟩
    · refine ⟨?_, wellFormed_handOver h⟩
      intro d hd
      exact absurd hd (by simp)

theorem wellFormed_runKeyed {sgx : Bool} {s s' : K → Option LogConnection}
    {cbs : List (K × Callback)} {os : List (K × LogEntry)} (halloc : ∀ cb ∈ cbs, cb.2.Succeeds)
    (h : ∀ k, SlotWellFormed (s k)) (hrun : runKeyed (callback sgx) s cbs = .ok (s', os)) :
    ∀ o ∈ os, o.2.WellFormed := by
  induction cbs generalizing s os with
  | nil =>
    obtain ⟨-, rfl⟩ := Prod.mk.inj (Except.ok.inj hrun)
    exact List.forall_mem_nil _
  | cons cb cbs ih =>
    obtain ⟨hcb, hcbs⟩ := List.forall_mem_cons.1 halloc
    obtain ⟨c', es, hcall, os', hrest, rfl⟩ := runKeyed_cons.1 hrun
    obtain ⟨hc', hes⟩ := wellFormed_callback hcb (h cb.1) hcall
    have hupdate : ∀ k, SlotWellFormed (Function.update s cb.1 c' k) := by
      intro k
      rcases eq_or_ne k cb.1 with rfl | hk
      · rw [Function.update_self]
        exact hc'
      · rw [Function.update_of_ne hk]
        exact h k
    intro o ho
    rcases List.mem_append.1 ho with ho | ho
    · obtain ⟨e, he, rfl⟩ := List.mem_map.1 ho
      exact hes e he
    · exact ih hcbs hupdate hrest o ho

/-! ### The log as a family of connections -/

theorem run_cons_iff {sgx : Bool} {log log' : ConnectionLog K} {cb : K × Callback}
    {cbs : List (K × Callback)} {out : List (K × LogEntry × LogEntry)} :
    log.run sgx (cb :: cbs) = .ok (log', out) ↔
      ∃ c es i ls out', callback sgx (log.connections cb.1) cb.2 = .ok (c, es) ∧
        addEntries sgx log.initialized es = .ok (i, ls) ∧
        ConnectionLog.run sgx ⟨Function.update log.connections cb.1 c, i⟩ cbs = .ok (log', out') ∧
        out = (es.zip ls).map (fun e ↦ (cb.1, e)) ++ out' := by
  rw [ConnectionLog.run, ConnectionLog.step]
  rcases callback sgx (log.connections cb.1) cb.2 with f | ⟨c, es⟩
  · simp [bind, Except.bind]
  rcases hadd : addEntries sgx log.initialized es with f | ⟨i, ls⟩
  · simp [bind, Except.bind, hadd]
  rcases hrun : ConnectionLog.run sgx ⟨Function.update log.connections cb.1 c, i⟩ cbs with
    f | ⟨log'', out'⟩
  · simp [bind, Except.bind, pure, Except.pure, hadd, hrun]
  · simp [bind, Except.bind, pure, Except.pure, hadd, hrun, eq_comm]

omit [DecidableEq K] in
theorem map_snd_append (k : K) (es : List LogEntry) (os : List (K × LogEntry)) :
    (es.map (fun e ↦ (k, e)) ++ os).map Prod.snd = es ++ os.map Prod.snd := by
  rw [List.map_append, List.map_map]
  exact congrArg (· ++ os.map Prod.snd) (List.map_id es)

omit [DecidableEq K] in
theorem zip_tag_append {k : K} {es ls ls' : List LogEntry} {os : List (K × LogEntry)}
    (h : es.length = ls.length) :
    (es.zip ls).map (fun e ↦ (k, e)) ++ (os.zip ls').map (fun p ↦ (p.1.1, p.1.2, p.2)) =
      ((es.map (fun e ↦ (k, e)) ++ os).zip (ls ++ ls')).map fun p ↦ (p.1.1, p.1.2, p.2) := by
  rw [List.zip_append (by rw [List.length_map, h]), List.map_append, List.zip_map_left,
    List.map_map]
  rfl

/-- **A run of the log** is a run of the family of connections, followed by `add_entry_to_list` for
what they pass on. -/
theorem run_iff_runKeyed {sgx : Bool} {log log' : ConnectionLog K} {cbs : List (K × Callback)}
    {out : List (K × LogEntry × LogEntry)} :
    log.run sgx cbs = .ok (log', out) ↔
      ∃ os ls, runKeyed (callback sgx) log.connections cbs = .ok (log'.connections, os) ∧
        addEntries sgx log.initialized (os.map Prod.snd) = .ok (log'.initialized, ls) ∧
        out = (os.zip ls).map fun p ↦ (p.1.1, p.1.2, p.2) := by
  obtain ⟨conns', init'⟩ := log'
  -- on the callbacks: each is one of its connection and the entries that it hands over
  induction cbs generalizing log out with
  | nil =>
    constructor
    · intro h
      obtain ⟨rfl, rfl⟩ := Prod.mk.inj (Except.ok.inj h)
      exact ⟨[], [], rfl, rfl, rfl⟩
    · rintro ⟨os, ls, hrun, hadd, rfl⟩
      obtain ⟨hconns, rfl⟩ := Prod.mk.inj (Except.ok.inj hrun)
      obtain ⟨hinit, rfl⟩ := Prod.mk.inj (Except.ok.inj hadd)
      obtain ⟨conns, init⟩ := log
      obtain rfl : conns = conns' := hconns
      obtain rfl : init = init' := hinit
      rfl
  | cons cb cbs ih =>
    rw [run_cons_iff]
    constructor
    · rintro ⟨c, es, i, ls, out', hcall, hadd, hrun, rfl⟩
      obtain ⟨os', ls', hkeyed, hadd', rfl⟩ := ih.1 hrun
      refine ⟨es.map (fun e ↦ (cb.1, e)) ++ os', ls ++ ls',
        runKeyed_cons.2 ⟨c, es, hcall, os', hkeyed, rfl⟩, ?_, ?_⟩
      · rw [map_snd_append]
        exact addEntries_append.2 ⟨i, ls, ls', hadd, hadd', rfl⟩
      · rw [zip_tag_append (length_of_addEntries hadd).symm]
    · rintro ⟨os, ls, hkeyed, hadd, rfl⟩
      obtain ⟨c, es, hcall, os', hkeyed', rfl⟩ := runKeyed_cons.1 hkeyed
      rw [map_snd_append] at hadd
      obtain ⟨i, ls₁, ls₂, hadd₁, hadd₂, rfl⟩ := addEntries_append.1 hadd
      refine ⟨c, es, i, ls₁, _, hcall, hadd₁, ih.2 ⟨os', ls₂, hkeyed', hadd₂, rfl⟩, ?_⟩
      rw [zip_tag_append (length_of_addEntries hadd₁).symm]

/-- What is passed on is what the connections pass on. -/
theorem runKeyed_of_run {sgx : Bool} {log log' : ConnectionLog K} {cbs : List (K × Callback)}
    {out : List (K × LogEntry × LogEntry)} (h : log.run sgx cbs = .ok (log', out)) :
    runKeyed (callback sgx) log.connections cbs = .ok (log'.connections, passedEntries out) := by
  obtain ⟨os, ls, hkeyed, hadd, rfl⟩ := run_iff_runKeyed.1 h
  have hlen : os.length = ls.length := by
    rw [length_of_addEntries hadd, List.length_map]
  have hfst : passedEntries ((os.zip ls).map fun p ↦ (p.1.1, p.1.2, p.2)) = os := by
    rw [passedEntries, List.map_map]
    exact List.map_fst_zip hlen.le
  rw [hfst]
  exact hkeyed

/-- **When a run from the empty log returns**: the family of connections returns, and outside the
enclave it passes on one entry at most. -/
theorem exists_run_iff {sgx : Bool} {cbs : List (K × Callback)}
    (halloc : ∀ cb ∈ cbs, cb.2.Succeeds) :
    (∃ r, ConnectionLog.init.run sgx cbs = .ok r) ↔
      ∃ s os, runKeyed (callback sgx) (fun _ ↦ none) cbs = .ok (s, os) ∧
        (sgx = true ∨ os.length ≤ 1) := by
  have hnone : ∀ _ : K, SlotWellFormed none := fun _ d hd ↦ absurd hd (by simp)
  have hadd : ∀ {s : K → Option LogConnection} {os : List (K × LogEntry)},
      runKeyed (callback sgx) (fun _ ↦ none) cbs = .ok (s, os) →
      ((∃ r, addEntries sgx 0 (os.map Prod.snd) = .ok r) ↔ sgx = true ∨ os.length ≤ 1) := by
    intro s os hkeyed
    have hwf := wellFormed_runKeyed halloc hnone hkeyed
    rw [exists_addEntries_iff (List.forall_mem_map.2 hwf), List.length_map]
  constructor
  · rintro ⟨⟨log, out⟩, hrun⟩
    obtain ⟨os, ls, hkeyed, hes, -⟩ := run_iff_runKeyed.1 hrun
    exact ⟨log.connections, os, hkeyed, (hadd hkeyed).1 ⟨_, hes⟩⟩
  · rintro ⟨s, os, hkeyed, hcount⟩
    obtain ⟨⟨i, ls⟩, hes⟩ := (hadd hkeyed).2 hcount
    exact ⟨(⟨s, i⟩, _), run_iff_runKeyed.2 ⟨os, ls, hkeyed, hes, rfl⟩⟩

/-! ### Interleavings -/

/-- A connection that lives once, or not at all, passes on its entries exactly when its blocks
fit. -/
theorem run_lifeCallbacks (sgx : Bool) {life : Option (Answers × List Transfer)}
    (halloc : ∀ cb ∈ lifeCallbacks life, cb.Succeeds) :
    run (callback sgx) none (lifeCallbacks life) =
      if ∀ b ∈ lifeBlocks life, BlockFits b then .ok (none, lifeEntries sgx life)
      else .error .outOfBounds := by
  rcases life with - | ⟨answers, ts⟩
  · have hnone : ∀ b ∈ lifeBlocks none, BlockFits b := List.forall_mem_nil _
    rw [if_pos hnone, lifeEntries, lifeBlocks, List.drop_nil]
    rfl
  · have hanswers : answers.Succeed := halloc (.newConnection answers) List.mem_cons_self
    have hts : ∀ t ∈ ts, t.answers.Succeed := by
      intro t ht
      have hcb := halloc t.callback
        (List.mem_cons_of_mem _ (List.mem_append_left _ (List.mem_map_of_mem ht)))
      rw [Transfer.callback] at hcb
      split at hcb <;> exact hcb
    exact run_lifetime sgx none hanswers ts hts

/-- At most one thing is tagged, in terms of what each key has. -/
theorem length_le_one_iff {X : Type} {os : List (K × X)} :
    os.length ≤ 1 ↔
      ∀ j k, (proj j os).length ≤ 1 ∧ (proj j os ≠ [] → proj k os ≠ [] → j = k) := by
  constructor
  · intro h j k
    rcases os with - | ⟨⟨i, x⟩, - | ⟨p, os⟩⟩
    · exact ⟨Nat.zero_le 1, fun hj ↦ absurd rfl hj⟩
    · refine ⟨(List.length_map _).le.trans (List.length_filter_le _ _), fun hj hk ↦ ?_⟩
      have htag : ∀ {j}, proj j [(i, x)] ≠ [] → i = j := by
        intro j hj
        by_contra hne
        exact hj (proj_cons_of_ne hne x [])
      rw [← htag hj, htag hk]
    · simp at h
  · intro h
    rcases os with - | ⟨⟨i, x⟩, - | ⟨⟨j, y⟩, os⟩⟩
    · exact Nat.zero_le 1
    · exact le_rfl
    · have hi : proj i ((i, x) :: (j, y) :: os) ≠ [] := by
        rw [proj_cons_self]
        exact List.cons_ne_nil _ _
      have hj : proj j ((i, x) :: (j, y) :: os) ≠ [] := by
        rcases eq_or_ne i j with rfl | hij
        · exact hi
        · rw [proj_cons_of_ne hij, proj_cons_self]
          exact List.cons_ne_nil _ _
      -- two entries are of one connection, which has one at most
      obtain rfl := (h i j).2 hi hj
      have hlen := (h i i).1
      rw [proj_cons_self, proj_cons_self] at hlen
      simp at hlen

/-- **Complete connections, interleaved in any way.** The run returns, and every connection hands on
the entries of its blocks, exactly when all blocks fit and, outside the enclave, there is one entry
at most. -/
theorem exists_run_lives_iff {sgx : Bool} {cbs : List (K × Callback)}
    (halloc : ∀ cb ∈ cbs, cb.2.Succeeds) (lives : K → Option (Answers × List Transfer))
    (hlives : ∀ k, proj k cbs = lifeCallbacks (lives k)) :
    (∃ log out, ConnectionLog.init.run sgx cbs = .ok (log, out) ∧
        ∀ k, proj k (passedEntries out) = lifeEntries sgx (lives k)) ↔
      (∀ k, ∀ b ∈ lifeBlocks (lives k), BlockFits b) ∧
        (sgx = true ∨ ∀ j k, (lifeEntries sgx (lives j)).length ≤ 1 ∧
          (lifeEntries sgx (lives j) ≠ [] → lifeEntries sgx (lives k) ≠ [] → j = k)) := by
  -- alone, a connection hands on its blocks exactly if they fit
  have hlocal : ∀ k, run (callback sgx) none (proj k cbs) =
      if ∀ b ∈ lifeBlocks (lives k), BlockFits b then .ok (none, lifeEntries sgx (lives k))
      else .error .outOfBounds := by
    intro k
    rw [hlives k]
    refine run_lifeCallbacks sgx fun cb hcb ↦ ?_
    rw [← hlives k] at hcb
    obtain ⟨⟨j, cb'⟩, hmem, rfl⟩ := List.mem_map.1 hcb
    exact halloc _ (List.mem_filter.1 hmem).1
  constructor
  · rintro ⟨log, out, hrun, hentries⟩
    obtain ⟨s, os, hkeyed, hcount⟩ := (exists_run_iff halloc).1 ⟨_, hrun⟩
    have hpassed := runKeyed_of_run hrun
    rw [ConnectionLog.init, hkeyed] at hpassed
    obtain ⟨-, rfl⟩ := Prod.mk.inj (Except.ok.inj hpassed)
    refine ⟨fun k ↦ ?_, hcount.imp id fun hone ↦ ?_⟩
    · have hk := run_of_runKeyed hkeyed k
      rw [hlocal k] at hk
      by_contra hfits
      rw [if_neg hfits] at hk
      exact absurd hk (by simp)
    · simpa only [hentries] using length_le_one_iff.1 hone
  · rintro ⟨hfits, hcount⟩
    have hok : ∀ k, run (callback sgx) none (proj k cbs) = .ok (none, lifeEntries sgx (lives k)) :=
      fun k ↦ by rw [hlocal k, if_pos (hfits k)]
    obtain ⟨⟨s, os⟩, hkeyed⟩ := exists_runKeyed (s := fun _ ↦ none) fun k ↦ ⟨_, hok k⟩
    have hos : ∀ k, proj k os = lifeEntries sgx (lives k) := by
      intro k
      have hk := run_of_runKeyed hkeyed k
      rw [hok k] at hk
      exact (Prod.mk.inj (Except.ok.inj hk)).2.symm
    have hone : sgx = true ∨ os.length ≤ 1 := by
      refine hcount.imp id fun h ↦ length_le_one_iff.2 ?_
      simpa only [hos] using h
    obtain ⟨⟨log, out⟩, hrun⟩ := (exists_run_iff halloc).2 ⟨s, os, hkeyed, hone⟩
    have hpassed := runKeyed_of_run hrun
    rw [ConnectionLog.init, hkeyed] at hpassed
    obtain ⟨-, rfl⟩ := Prod.mk.inj (Except.ok.inj hpassed)
    exact ⟨log, out, hrun, hos⟩

/-- **No interference**: what a connection hands on in a run is what it hands on when its callbacks
run alone. -/
theorem exists_run_callbacksOf {sgx : Bool} {cbs : List (K × Callback)}
    (halloc : ∀ cb ∈ cbs, cb.2.Succeeds) {log : ConnectionLog K}
    {out : List (K × LogEntry × LogEntry)} (hrun : ConnectionLog.init.run sgx cbs = .ok (log, out))
    (k : K) :
    ∃ log' out', ConnectionLog.init.run sgx (callbacksOf k cbs) = .ok (log', out') ∧
      passedEntries out' = (proj k (passedEntries out)).map fun e ↦ (k, e) := by
  obtain ⟨s, os, hkeyed, hcount⟩ := (exists_run_iff halloc).1 ⟨_, hrun⟩
  have hpassed := runKeyed_of_run hrun
  rw [ConnectionLog.init, hkeyed] at hpassed
  obtain ⟨-, rfl⟩ := Prod.mk.inj (Except.ok.inj hpassed)
  have halone := runKeyed_map_tag (k := k) (s := fun _ ↦ none) (run_of_runKeyed hkeyed k)
  rw [← filter_eq_map_proj] at halone
  have hlen : sgx = true ∨ ((proj k (passedEntries out)).map fun e ↦ (k, e)).length ≤ 1 := by
    refine hcount.imp id fun h ↦ ?_
    rw [List.length_map]
    exact ((length_le_one_iff.1 h) k k).1
  obtain ⟨⟨log', out'⟩, hrun'⟩ := (exists_run_iff fun cb hcb ↦
    halloc cb (List.mem_filter.1 hcb).1).2 ⟨_, _, halone, hlen⟩
  have hpassed' := runKeyed_of_run hrun'
  rw [ConnectionLog.init, halone] at hpassed'
  exact ⟨log', out', hrun', (Prod.mk.inj (Except.ok.inj hpassed')).2.symm⟩

/-- In the enclave an interleaving of connections that return alone returns. -/
theorem exists_run_of_callbacksOf {cbs : List (K × Callback)}
    (halloc : ∀ cb ∈ cbs, cb.2.Succeeds)
    (halone : ∀ k, ∃ r, ConnectionLog.init.run true (callbacksOf k cbs) = .ok r) :
    ∃ r, ConnectionLog.init.run true cbs = .ok r := by
  have hlocal : ∀ k, ∃ r, run (callback true) none (proj k cbs) = .ok r := by
    intro k
    obtain ⟨s, os, hkeyed, -⟩ := (exists_run_iff fun cb hcb ↦
      halloc cb (List.mem_filter.1 hcb).1).1 (halone k)
    have hk := run_of_runKeyed hkeyed k
    rw [filter_eq_map_proj, proj_map_self] at hk
    exact ⟨_, hk⟩
  obtain ⟨⟨s, os⟩, hkeyed⟩ := exists_runKeyed (s := fun _ ↦ none) hlocal
  exact (exists_run_iff halloc).2 ⟨s, os, hkeyed, Or.inl rfl⟩

/-- **No bytes are lost, duplicated or mixed exactly when the integers hold out.** First,
connections that live once, interleaved in any way, hand on the entries of their blocks if and only
if every block fits and, outside the enclave, there is one entry at most. Second, whatever the other
connections do, a connection hands on what it hands on alone, and in the enclave the run returns if
every connection alone does. -/
theorem run_faithful_iff (sgx : Bool) :
    (∀ (cbs : List (K × Callback)) (lives : K → Option (Answers × List Transfer)),
      (∀ cb ∈ cbs, cb.2.Succeeds) → (∀ k, proj k cbs = lifeCallbacks (lives k)) →
      ((∃ log out, ConnectionLog.init.run sgx cbs = .ok (log, out) ∧
          ∀ k, proj k (passedEntries out) = lifeEntries sgx (lives k)) ↔
        (∀ k, ∀ b ∈ lifeBlocks (lives k), BlockFits b) ∧
          (sgx = true ∨ ∀ j k, (lifeEntries sgx (lives j)).length ≤ 1 ∧
            (lifeEntries sgx (lives j) ≠ [] → lifeEntries sgx (lives k) ≠ [] → j = k)))) ∧
    ∀ cbs : List (K × Callback), (∀ cb ∈ cbs, cb.2.Succeeds) →
      (∀ log out, ConnectionLog.init.run sgx cbs = .ok (log, out) → ∀ k,
        ∃ log' out', ConnectionLog.init.run sgx (callbacksOf k cbs) = .ok (log', out') ∧
          passedEntries out' = (proj k (passedEntries out)).map fun e ↦ (k, e)) ∧
      (sgx = true → (∀ k, ∃ r, ConnectionLog.init.run sgx (callbacksOf k cbs) = .ok r) →
        ∃ r, ConnectionLog.init.run sgx cbs = .ok r) := by
  refine ⟨fun cbs lives halloc hlives ↦ exists_run_lives_iff halloc lives hlives,
    fun cbs halloc ↦ ⟨?_, ?_⟩⟩
  · exact fun log out hrun k ↦ exists_run_callbacksOf halloc hrun k
  · rintro rfl halone
    exact exists_run_of_callbacksOf halloc halone

/-! ### Three concrete runs -/

/-- An allocator that always finds room. -/
def roomy : Answers := ⟨true, some fun _ ↦ 0⟩

/-- A transfer of a short text. -/
def transfer (side : Side) (b : UInt8) : Transfer :=
  ⟨side, ⟨[b], Nat.one_lt_two_pow (by decide : 32 ≠ 0)⟩, roomy⟩

/-- Two connections, with an exchange on each. -/
def twoLives (k : Bool) : Option (Answers × List Transfer) :=
  some (roomy, if k then [transfer .request 1, transfer .reply 2]
    else [transfer .request 3, transfer .reply 4])

/-- Their callbacks, interleaved. -/
def twoConnections : List (Bool × Callback) :=
  [(true, .newConnection roomy), (false, .newConnection roomy),
    (true, (transfer .request 1).callback), (false, (transfer .request 3).callback),
    (false, (transfer .reply 4).callback), (true, (transfer .reply 2).callback),
    (true, .freeConnection), (false, .freeConnection)]

/-- Both exchanges are handed on whole. -/
theorem run_twoConnections :
    ∃ log out, ConnectionLog.init.run true twoConnections = .ok (log, out) ∧
      ∀ k, proj k (passedEntries out) = lifeEntries true (twoLives k) := by
  have halloc : ∀ cb ∈ twoConnections, cb.2.Succeeds := by
    simp [twoConnections, transfer, Transfer.callback, Callback.Succeeds, Answers.Succeed, roomy]
  have hlives : ∀ k, proj k twoConnections = lifeCallbacks (twoLives k) := by
    rintro (- | -) <;> rfl
  exact ((run_faithful_iff true).1 twoConnections twoLives halloc hlives).2
    ⟨by decide, Or.inl rfl⟩

/-- An upload of four gigabytes, in the pieces of a TLS record. -/
def largeUpload : List Transfer :=
  List.replicate 262144 ⟨.request, ⟨List.replicate 16384 0, by decide +kernel⟩, roomy⟩

/-- Five exchanges, one after the other. -/
def fiveExchanges : List Transfer :=
  [1, 3, 5, 7, 9].flatMap fun b ↦ [transfer .request b, transfer .reply (b + 1)]

theorem blocks_largeUpload : blocks largeUpload = [largeUpload] := by
  have hchain : largeUpload.IsChain fun t u ↦ sameBlock t u :=
    List.isChain_replicate_of_rel _ rfl
  have hne : largeUpload ≠ [] := by
    refine List.ne_nil_of_length_pos ?_
    rw [largeUpload, List.length_replicate]
    decide
  have hdrop : (largeUpload.dropWhile fun t ↦ t.side = .reply) = largeUpload := by
    rw [largeUpload, List.dropWhile_replicate]
    rfl
  rw [blocks, hdrop, List.splitBy_of_isChain hne hchain]

theorem length_sideBytes_largeUpload : (sideBytes .request largeUpload).length = uintSize := by
  rw [sideBytes, largeUpload, List.filter_replicate_of_pos (by rfl), List.length_flatMap,
    List.map_replicate, List.sum_replicate_nat, List.length_replicate]

theorem succeeds_lifetime {ts : List Transfer} (h : ∀ t ∈ ts, t.answers = roomy) :
    ∀ cb ∈ (lifetime roomy ts).map fun cb ↦ ((), cb), cb.2.Succeeds := by
  have hroomy : roomy.Succeed := ⟨rfl, rfl⟩
  refine List.forall_mem_map.2 (List.forall_mem_cons.2 ⟨hroomy, List.forall_mem_append.2 ⟨?_, ?_⟩⟩)
  · refine List.forall_mem_map.2 fun t ht ↦ ?_
    rw [Transfer.callback]
    split
    · exact (h t ht).symm ▸ hroomy
    · exact (h t ht).symm ▸ hroomy
  · exact List.forall_mem_singleton.2 trivial

/-- The entry of a large upload is not handed on, and neither are, outside the enclave, the entries
of five exchanges less the two ignored. -/
theorem not_faithful_of_large_or_many :
    (¬ ∃ log out, ConnectionLog.init.run true
        ((lifetime roomy largeUpload).map fun cb ↦ ((), cb)) = .ok (log, out) ∧
          proj () (passedEntries out) = lifeEntries true (some (roomy, largeUpload))) ∧
      ¬ ∃ log out, ConnectionLog.init.run false
        ((lifetime roomy fiveExchanges).map fun cb ↦ ((), cb)) = .ok (log, out) ∧
          proj () (passedEntries out) = lifeEntries false (some (roomy, fiveExchanges)) := by
  have hall : ∀ {sgx : Bool} {ts : List Transfer}, (∀ t ∈ ts, t.answers = roomy) →
      (∃ log out, ConnectionLog.init.run sgx ((lifetime roomy ts).map fun cb ↦ ((), cb)) =
        .ok (log, out) ∧ proj () (passedEntries out) = lifeEntries sgx (some (roomy, ts))) →
      (∀ b ∈ blocks ts, BlockFits b) ∧
        (sgx = true ∨ (lifeEntries sgx (some (roomy, ts))).length ≤ 1) := by
    rintro sgx ts hts ⟨log, out, hrun, hout⟩
    have h := (exists_run_lives_iff (succeeds_lifetime hts) (fun _ ↦ some (roomy, ts))
      fun _ ↦ proj_map_self () _).1 ⟨log, out, hrun, fun _ ↦ hout⟩
    exact ⟨h.1 (), h.2.imp id fun h ↦ (h () ()).1⟩
  constructor
  · intro h
    have hfits := (hall (fun t ht ↦ by rw [List.eq_of_mem_replicate ht]) h).1 largeUpload
      (by rw [blocks_largeUpload]; exact List.mem_singleton_self _)
    rw [BlockFits, length_sideBytes_largeUpload] at hfits
    exact absurd hfits.1 (lt_irrefl _)
  · intro h
    have hroomy : ∀ t ∈ fiveExchanges, t.answers = roomy := by simp [fiveExchanges, transfer]
    have hmany := (hall hroomy h).2
    revert hmany
    decide

end LibSeal
