import LibSeal.Data.KeyedMachine
import LibSeal.Dropbox.Main
import LibSeal.Git.Push
import LibSeal.Git.Relations
import LibSeal.OwnCloud.Main

/-!
# The times of rows

Every row begins with its `time`, and the queries of the auditors order the events by it. The number
is the auditor's counter, an `unsigned long long` that moves on by one: with every exchange in
ownCloud, with every exchange that has a service in Git, and with every exchange that has rows in
Dropbox.

ownCloud prints the counter as it is. In Git it is kept as an `int`, and in Dropbox it is handed to
`to_str`, which takes one. So their times are the counter modulo `2 ^ 32`, in two's complement: in
order as long as the counter is an `int` (`timesIncrease_iff`), while the exchange after that has
the smallest time of all (`not_timesIncrease_of_many`).
-/

namespace LibSeal

open Bytes

/-! ### The time of a row -/

/-- The text of a row's first field. -/
def InsertCall.timeText {A : Auditor} (c : InsertCall A) : Bytes :=
  c.tuple.bytes.takeWhile (· ≠ ','.toUInt8)

/-- A text that begins with a number and a comma. -/
def StartsWithTime (time : ℤ) (s : Bytes) : Prop := ∃ rest, s = ofInt time ++ ','.toUInt8 :: rest

/-- The number that a row begins with is its time. -/
theorem StartsWithTime.takeWhile_cStr {time : ℤ} {s : Bytes} (h : StartsWithTime time s) :
    (cStr s).takeWhile (· ≠ ','.toUInt8) = ofInt time := by
  obtain ⟨rest, rfl⟩ := h
  have hzero : 0 ∉ ofInt time := fun h ↦ absurd (isDecimal_of_mem_ofInt h) (by decide)
  have hdigits : ∀ b ∈ ofInt time, decide (b ≠ ','.toUInt8) = true := by
    intro b hb
    refine decide_eq_true fun hcomma ↦ ?_
    exact absurd (isDecimal_of_mem_ofInt (hcomma ▸ hb)) (by decide)
  have hrest : cStr (','.toUInt8 :: rest) = ','.toUInt8 :: cStr rest :=
    List.takeWhile_cons_of_pos (by decide)
  rw [cStr_append hzero, List.takeWhile_append_of_pos hdigits, hrest,
    List.takeWhile_cons_of_neg (by simp), List.append_nil]

/-- A number is followed by a text that begins with a comma. -/
theorem startsWithTime_append {time : ℤ} {separator : Bytes} (s : Bytes)
    (h : separator.head? = some ','.toUInt8) :
    StartsWithTime time (toStr time ++ (separator ++ s)) := by
  obtain ⟨rest, rfl⟩ := List.head?_eq_some_iff.1 h
  exact ⟨rest ++ s, rfl⟩

theorem startsWithTime_updateTuple (id : ℤ) (repo branch ref2 : Bytes) (type : UpdateType)
    (result : ℤ) : StartsWithTime id (updateTuple id repo branch ref2 type result) := by
  simp only [updateTuple, List.append_assoc]
  exact startsWithTime_append _ rfl

theorem startsWithTime_advertisementTuple (id : ℤ) (repo branch cid : Bytes) :
    StartsWithTime id (advertisementTuple id repo branch cid) := by
  simp only [advertisementTuple, List.append_assoc]
  exact startsWithTime_append _ rfl

theorem startsWithTime_syncTuple (id : ℕ) (esid sender receiver update : Bytes) :
    StartsWithTime id (syncTuple id esid sender receiver update) := by
  simp only [syncTuple, List.append_assoc]
  exact startsWithTime_append _ rfl

theorem startsWithTime_fileTuple (counter : ℤ) (statement : Bytes) :
    StartsWithTime counter (fileTuple counter statement) := by
  simp only [fileTuple, List.append_assoc]
  exact startsWithTime_append _ rfl

/-! ### The auditors -/

/-- Two messages as an auditor gets them, and what it finds in memory that it has not written:
behind the messages, on its stack, and in tokens that `jsmn` has not filled in. -/
structure RawExchange where
  req : Bytes
  rsp : Bytes
  junk : ℕ → UInt8
  stack : ℕ → UInt8
  reqJunk : ℕ → JsmnTok
  rspJunk : ℕ → JsmnTok

/-- An exchange that an auditor has processed. -/
structure AuditedExchange (A : Auditor) where
  /-- The value of the counter when the auditor got it. -/
  counter : ℕ
  calls : List (InsertCall A)

variable (uncompress : ℕ → Bytes → Option Bytes)

namespace Auditor

/-- `unsigned long long logictime = 1;` and `static unsigned long long monotonic_counter = 0;` -/
def counterInit : Auditor → ℕ
  | .git | .owncloud => 1
  | .dropbox => 0

/-- `libseal_process_log_at_runtime` of each module. -/
def libsealProcessLogAtRuntime : (A : Auditor) → ℕ → RawExchange →
    Except CFault (ℕ × List (InsertCall A))
  | .git, logictime, x => LibSeal.libsealProcessLogAtRuntime x.junk logictime x.req x.rsp
  | .owncloud, logictime, x =>
    OwnCloud.libsealProcessLogAtRuntime x.junk x.reqJunk x.rspJunk logictime x.req x.rsp
  | .dropbox, monotonicCounter, x =>
    Dropbox.libsealProcessLogAtRuntime (dropboxParsers uncompress x.stack x.reqJunk) x.junk
      monotonicCounter x.req x.rsp

/-- An exchange is processed. -/
def step (A : Auditor) (counter : ℕ) (x : RawExchange) :
    Except CFault (ℕ × List (AuditedExchange A)) := do
  let (next, calls) ← A.libsealProcessLogAtRuntime uncompress counter x
  return (next, [⟨counter, calls⟩])

/-- Exchanges are processed, one after the other. -/
def run (A : Auditor) (counter : ℕ) (xs : List RawExchange) :
    Except CFault (ℕ × List (AuditedExchange A)) :=
  KeyedMachine.run (A.step uncompress) counter xs

/-- The number of an exchange: the counter before it, or in Dropbox behind it. -/
def number : Auditor → ℕ → ℕ
  | .git, counter | .owncloud, counter => counter
  | .dropbox, counter => counter + 1

/-- What is printed for it. -/
def time : Auditor → ℕ → ℤ
  | .owncloud, counter => counter
  | A, counter => toInt32 (A.number counter)

end Auditor

/-- **Times increase**: in the texts of the rows of an earlier exchange and of a later one stands a
smaller number and a greater one. -/
def TimesIncrease {A : Auditor} (out : List (AuditedExchange A)) : Prop :=
  out.Pairwise fun X Y ↦ ∀ c ∈ X.calls, ∀ d ∈ Y.calls, ∃ s t : ℤ,
    c.timeText = ofInt s ∧ d.timeText = ofInt t ∧ s < t

/-! ### One exchange -/

theorem timeText_call (r : GitRow) : r.call.timeText = ofInt r.time := by
  cases r with
  | update u => exact (startsWithTime_updateTuple _ _ _ _ _ _).takeWhile_cStr
  | advertisement a => exact (startsWithTime_advertisementTuple _ _ _ _).takeWhile_cStr

theorem timeText_insertFile (table : ℕ) (t : Bytes) :
    (insertFile table t).timeText = (cStr t).takeWhile (· ≠ ','.toUInt8) := rfl

theorem startsWithTime_of_syncOf {id : ℕ} {res esid memberid requestUpdate responseUpdate t : Bytes}
    (h : syncOf id res esid memberid requestUpdate responseUpdate = some t) :
    StartsWithTime id t := by
  obtain ⟨-, h⟩ := Option.ite_none_left_eq_some.1 h
  cases h
  exact startsWithTime_syncTuple _ _ _ _ _

namespace Auditor

variable {uncompress} {A : Auditor}

/-- **What an auditor makes of an exchange**: its rows have the time of the exchange, and the
counter moves on if there are any. -/
theorem spec_of_processLog {counter next : ℕ} {x : RawExchange} {calls : List (InsertCall A)}
    (h : A.libsealProcessLogAtRuntime uncompress counter x = .ok (next, calls)) :
    (∀ c ∈ calls, c.timeText = ofInt (A.time counter)) ∧
      (next = counter ∧ calls = [] ∨ next = (counter + 1) % 18446744073709551616) := by
  cases A with
  | git =>
    obtain ⟨evReq, -, h⟩ := CFault.bind_eq_ok.1 h
    obtain ⟨evRsp, -, h⟩ := CFault.bind_eq_ok.1 h
    obtain ⟨⟨rows, hrows, rfl⟩, hnext⟩ := areRowsAt_of_processEvents h
    refine ⟨List.forall_mem_map.2 fun r hr ↦ ?_, hnext⟩
    rw [timeText_call, hrows r hr]
    rfl
  | owncloud =>
    obtain ⟨hnext, res, esid, memberid, requestUpdate, responseUpdate, rfl⟩ :=
      exists_syncOf_of_exchange h
    refine ⟨List.forall_mem_map.2 fun t ht ↦ ?_, Or.inr hnext⟩
    exact (startsWithTime_of_syncOf (Option.mem_toList.1 ht)).takeWhile_cStr
  | dropbox =>
    obtain ⟨evReq, -, h⟩ := CFault.bind_eq_ok.1 h
    obtain ⟨evRsp, -, h⟩ := CFault.bind_eq_ok.1 h
    obtain ⟨⟨table, statements⟩, -, h⟩ := CFault.bind_eq_ok.1 h
    dsimp only at h
    split_ifs at h with hempty
    · cases h
      exact ⟨List.forall_mem_nil _, Or.inl ⟨rfl, rfl⟩⟩
    · obtain ⟨hnext, hcalls⟩ := Prod.mk.inj (Except.ok.inj h)
      have htime : toInt32 ((counter + 1) % 18446744073709551616 : ℕ) =
          time .dropbox counter := by
        rw [show time .dropbox counter = toInt32 (counter + 1 : ℕ) from rfl, toInt32_eq_iff]
        omega
      rw [htime] at hcalls
      subst hcalls
      refine ⟨List.forall_mem_map.2 fun statement _ ↦ ?_, Or.inr hnext.symm⟩
      have hstarts := startsWithTime_fileTuple (time .dropbox counter) statement
      rw [timeText_insertFile, hstarts.takeWhile_cStr]

/-! ### Runs -/

theorem step_eq_ok {counter next : ℕ} {x : RawExchange} {out : List (AuditedExchange A)}
    (h : A.step uncompress counter x = .ok (next, out)) :
    ∃ calls, A.libsealProcessLogAtRuntime uncompress counter x = .ok (next, calls) ∧
      out = [⟨counter, calls⟩] := by
  obtain ⟨⟨next', calls⟩, hprocess, h⟩ := CFault.bind_eq_ok.1 h
  cases h
  exact ⟨calls, hprocess, rfl⟩

/-- **In a run** the rows of every exchange have its time, and the counter of a later exchange is
greater than that of an earlier one with rows. -/
theorem counters_of_run {counter last : ℕ} {xs : List RawExchange} {out : List (AuditedExchange A)}
    (h : A.run uncompress counter xs = .ok (last, out))
    (hlt : counter + xs.length < 18446744073709551616) :
    (∀ X ∈ out, (counter ≤ X.counter ∧ X.counter < counter + xs.length) ∧
        ∀ c ∈ X.calls, c.timeText = ofInt (A.time X.counter)) ∧
      out.Pairwise fun X Y ↦ X.calls ≠ [] → X.counter < Y.counter := by
  induction xs generalizing counter out with
  | nil =>
    obtain ⟨rfl, rfl⟩ := Prod.mk.inj (Except.ok.inj h)
    exact ⟨List.forall_mem_nil _, List.Pairwise.nil⟩
  | cons x xs ih =>
    obtain ⟨next, os, hstep, out', hrun, rfl⟩ := KeyedMachine.run_cons.1 h
    obtain ⟨calls, hprocess, rfl⟩ := step_eq_ok hstep
    rw [List.length_cons] at hlt ⊢
    obtain ⟨htimes, hnext⟩ := spec_of_processLog hprocess
    obtain ⟨hlater, hpairwise⟩ := ih hrun (by omega)
    refine ⟨List.forall_mem_cons.2 ⟨⟨⟨le_rfl, by dsimp only; omega⟩, htimes⟩, fun X hX ↦ ?_⟩,
      List.pairwise_cons.2 ⟨fun X hX hrows ↦ ?_, hpairwise⟩⟩
    · obtain ⟨⟨hle, hlt'⟩, htimes'⟩ := hlater X hX
      exact ⟨⟨by omega, by omega⟩, htimes'⟩
    · have hle := (hlater X hX).1.1
      rcases hnext with ⟨-, hnil⟩ | hnext
      · exact absurd hnil hrows
      · dsimp only
        omega

/-- Times increase if what is printed for the exchanges with rows does. -/
theorem timesIncrease_iff_time {counter last : ℕ} {xs : List RawExchange}
    {out : List (AuditedExchange A)} (h : A.run uncompress counter xs = .ok (last, out))
    (hlt : counter + xs.length < 18446744073709551616) :
    TimesIncrease out ↔ out.Pairwise fun X Y ↦ X.calls ≠ [] → Y.calls ≠ [] →
      A.time X.counter < A.time Y.counter := by
  obtain ⟨htimes, -⟩ := counters_of_run h hlt
  refine List.Pairwise.iff_of_mem fun {X Y} hX hY ↦ ⟨fun h hrowsX hrowsY ↦ ?_, fun h c hc d hd ↦ ?_⟩
  · obtain ⟨c, hc⟩ := List.exists_mem_of_ne_nil _ hrowsX
    obtain ⟨d, hd⟩ := List.exists_mem_of_ne_nil _ hrowsY
    obtain ⟨s, t, hs, ht, hlt⟩ := h c hc d hd
    rw [(htimes X hX).2 c hc] at hs
    rw [(htimes Y hY).2 d hd] at ht
    rwa [ofInt_injective hs, ofInt_injective ht]
  · exact ⟨_, _, (htimes X hX).2 c hc, (htimes Y hY).2 d hd,
      h (List.ne_nil_of_mem hc) (List.ne_nil_of_mem hd)⟩

end Auditor

/-- The order of two numbers that have been converted to `int`. -/
theorem toInt32_lt_toInt32_iff {m n : ℕ} : toInt32 m < toInt32 n ↔
    (m + 2147483648) % 4294967296 < (n + 2147483648) % 4294967296 := by
  rw [toInt32, toInt32]
  split_ifs <;> omega

theorem Auditor.time_lt_iff {A : Auditor} (hA : A ≠ .owncloud) {m n : ℕ} :
    A.time m < A.time n ↔
      (A.number m + 2147483648) % 4294967296 < (A.number n + 2147483648) % 4294967296 := by
  rw [← toInt32_lt_toInt32_iff]
  cases A with
  | git => rfl
  | owncloud => exact absurd rfl hA
  | dropbox => rfl

theorem Auditor.number_lt {A : Auditor} {m n : ℕ} (h : m < n) : A.number m < A.number n := by
  cases A with
  | git => exact h
  | owncloud => exact h
  | dropbox => exact Nat.succ_lt_succ h

/-- The exchanges are numbered from 1. -/
theorem Auditor.number_counterInit (A : Auditor) (n : ℕ) :
    A.number (A.counterInit + n) = n + 1 := by
  cases A with
  | git => exact Nat.add_comm 1 n
  | owncloud => exact Nat.add_comm 1 n
  | dropbox => exact congrArg Nat.succ (Nat.zero_add n)

/-! ### One exchange over and over -/

variable {A : Auditor} {uncompress}

/-- An exchange that yields rows, whatever the counter. -/
def AlwaysLogs (uncompress : ℕ → Bytes → Option Bytes) (A : Auditor) (x : RawExchange) : Prop :=
  ∀ counter, ∃ calls, calls ≠ [] ∧ A.libsealProcessLogAtRuntime uncompress counter x =
    .ok ((counter + 1) % 18446744073709551616, calls)

/-- Such an exchange over and over: the counters are one number after the other. -/
theorem AlwaysLogs.exists_run {x : RawExchange} (hx : AlwaysLogs uncompress A x) (counter n : ℕ)
    (hlt : counter + n < 18446744073709551616) :
    ∃ out, A.run uncompress counter (List.replicate n x) = .ok (counter + n, out) ∧
      out.map AuditedExchange.counter = List.range' counter n ∧ ∀ X ∈ out, X.calls ≠ [] := by
  induction n generalizing counter with
  | zero => exact ⟨[], rfl, rfl, List.forall_mem_nil _⟩
  | succ n ih =>
    obtain ⟨calls, hcalls, hprocess⟩ := hx counter
    rw [Nat.mod_eq_of_lt (by omega)] at hprocess
    obtain ⟨out, hrun, hcounters, hrows⟩ := ih (counter + 1) (by omega)
    have hstep : A.step uncompress counter x = .ok (counter + 1, [⟨counter, calls⟩]) := by
      rw [Auditor.step, hprocess]
      rfl
    refine ⟨⟨counter, calls⟩ :: out, ?_, ?_, List.forall_mem_cons.2 ⟨hcalls, hrows⟩⟩
    · rw [List.replicate_succ]
      refine KeyedMachine.run_cons.2 ⟨_, _, hstep, out, ?_, rfl⟩
      rw [show counter + (n + 1) = counter + 1 + n by omega]
      exact hrun
    · rw [List.map_cons, hcounters, List.range'_succ]

/-- **After `2 ^ 31` exchanges with rows** the time goes back, in Git and in Dropbox. -/
theorem AlwaysLogs.not_timesIncrease {x : RawExchange} (hx : AlwaysLogs uncompress A x)
    (hA : A ≠ .owncloud) :
    ∃ last out, A.run uncompress A.counterInit (List.replicate 2147483648 x) = .ok (last, out) ∧
      ¬ TimesIncrease out := by
  have hinit : A.counterInit ≤ 1 := by cases A <;> decide
  obtain ⟨out, hrun, hcounters, hrows⟩ :=
    hx.exists_run A.counterInit 2147483648 (by omega)
  refine ⟨_, out, hrun, fun h ↦ ?_⟩
  rw [Auditor.timesIncrease_iff_time hrun (by rw [List.length_replicate]; omega)] at h
  have hlength : out.length = 2147483648 := by
    rw [← List.length_map, hcounters, List.length_range']
  have hget : ∀ i (hi : i < out.length), out[i].counter = A.counterInit + i := by
    intro i hi
    have hmap : (out.map AuditedExchange.counter)[i]? =
        (List.range' A.counterInit 2147483648)[i]? := by rw [hcounters]
    rw [List.getElem?_map, List.getElem?_eq_getElem hi, List.getElem?_range' (by omega),
      Nat.one_mul] at hmap
    exact Option.some.inj hmap
  have hi : 2147483646 < out.length := by omega
  have hj : 2147483647 < out.length := by omega
  have hback := List.pairwise_iff_getElem.1 h 2147483646 2147483647 hi hj (by omega)
    (hrows _ (List.getElem_mem hi)) (hrows _ (List.getElem_mem hj))
  rw [Auditor.time_lt_iff hA, hget _ hi, hget _ hj, Auditor.number_counterInit,
    Auditor.number_counterInit] at hback
  omega

/-- A push, and the report on it. -/
def pushExchange : RawExchange where
  req := pushMaster.message.text
  rsp := plainResult.message.text
  junk _ := 0
  stack _ := 0
  reqJunk _ := ⟨.undefined, 0, 0, 0⟩
  rspJunk _ := ⟨.undefined, 0, 0, 0⟩

theorem alwaysLogs_pushExchange (uncompress : ℕ → Bytes → Option Bytes) :
    AlwaysLogs uncompress .git pushExchange := by
  intro logictime
  obtain ⟨sorted, hperm, -, hprocess⟩ := @exists_libsealProcessLogAtRuntime_of_isTerminated
    pushExchange.junk logictime pushMaster plainResult (by decide +kernel) (by decide +kernel)
    (Or.inl rfl)
  refine ⟨_, fun hnil ↦ ?_, hprocess⟩
  rw [List.map_eq_nil_iff.1 hnil] at hperm
  exact List.cons_ne_nil _ _ hperm.nil_eq.symm

/-- A request for a listing, and one of two files. -/
def listExchange : RawExchange where
  req := ascii "POST /list HTTP/1.1\r\nContent-Length: 11\r\n\r\nhost_key=K&"
  rsp := ascii "HTTP/1.1 200 OK\r\nContent-Length: 101\r\n\r\n" ++ listingText
  junk _ := 0
  stack _ := 0
  reqJunk _ := ⟨.undefined, 0, 0, 0⟩
  rspJunk _ := ⟨.undefined, 0, 0, 0⟩

/-- What is found in them. -/
theorem eventStatements_listExchange :
    (do
      let evReq ← httpToEvent listExchange.junk listExchange.req
      let evRsp ← httpToEvent listExchange.junk listExchange.rsp
      eventStatements (dropboxParsers (fun _ _ ↦ none) listExchange.stack listExchange.reqJunk)
        evReq evRsp) = .ok (0, listedStatements) := by
  decide +kernel

theorem alwaysLogs_listExchange : AlwaysLogs (fun _ _ ↦ none) .dropbox listExchange := by
  intro monotonicCounter
  obtain ⟨evReq, hevReq, h⟩ := CFault.bind_eq_ok.1 eventStatements_listExchange
  obtain ⟨evRsp, hevRsp, hstatements⟩ := CFault.bind_eq_ok.1 h
  refine ⟨listedStatements.map fun statement ↦ insertFile 0 (fileTuple
    (toInt32 ((monotonicCounter + 1) % 18446744073709551616 : ℕ)) statement), ?_, ?_⟩
  · exact List.cons_ne_nil _ _
  · rw [Auditor.libsealProcessLogAtRuntime, Dropbox.libsealProcessLogAtRuntime, hevReq, hevRsp]
    simp only [bind, Except.bind]
    rw [eventCalls, hstatements]
    rfl

/-! ### When times increase -/

/-- **Times increase**, in a run from the start of an auditor, in ownCloud always, and in Git and
Dropbox exactly if the numbers of the exchanges with rows increase in the order of an `int`; so they
do as long as each of these numbers is an `int`, as in a run of less than `2 ^ 31` exchanges. -/
theorem timesIncrease_iff {last : ℕ} {xs : List RawExchange} {out : List (AuditedExchange A)}
    (h : A.run uncompress A.counterInit xs = .ok (last, out))
    (hlength : xs.length < 9223372036854775808) :
    (TimesIncrease out ↔ A ≠ .owncloud → out.Pairwise fun X Y ↦ X.calls ≠ [] → Y.calls ≠ [] →
      (A.number X.counter + 2147483648) % 4294967296 <
        (A.number Y.counter + 2147483648) % 4294967296) ∧
    ((∀ X ∈ out, X.calls ≠ [] → A.number X.counter < 2147483648) → TimesIncrease out) ∧
    (xs.length < 2147483648 → TimesIncrease out) := by
  have hinit : A.counterInit ≤ 1 := by cases A <;> decide
  have hlt : A.counterInit + xs.length < 18446744073709551616 := by omega
  obtain ⟨hbounds, hcounters⟩ := Auditor.counters_of_run h hlt
  have hiff : TimesIncrease out ↔ A ≠ .owncloud → out.Pairwise fun X Y ↦
      X.calls ≠ [] → Y.calls ≠ [] → (A.number X.counter + 2147483648) % 4294967296 <
        (A.number Y.counter + 2147483648) % 4294967296 := by
    rw [Auditor.timesIncrease_iff_time h hlt]
    by_cases hA : A = .owncloud
    · -- the times of ownCloud are the counter itself, which does not wrap around
      refine iff_of_true ?_ fun h ↦ absurd hA h
      subst hA
      exact hcounters.imp fun h hX _ ↦ Int.ofNat_lt.2 (h hX)
    · simp only [Auditor.time_lt_iff hA, ne_eq, hA, not_false_eq_true, true_implies]
  have hfits : (∀ X ∈ out, X.calls ≠ [] → A.number X.counter < 2147483648) →
      TimesIncrease out := by
    refine fun hfits ↦ hiff.2 fun _ ↦ ?_
    refine hcounters.imp_of_mem fun {X Y} hX hY h hrowsX hrowsY ↦ ?_
    have hlt := A.number_lt (h hrowsX)
    have hfitsX := hfits X hX hrowsX
    have hfitsY := hfits Y hY hrowsY
    omega
  refine ⟨hiff, hfits, fun hfew ↦ hfits fun X hX _ ↦ ?_⟩
  have hnumber := A.number_lt (hbounds X hX).1.2
  rw [Auditor.number_counterInit] at hnumber
  omega

/-- A run of two listings. -/
theorem timesIncrease_twoListings :
    ∃ last out, Auditor.run (fun _ _ ↦ none) .dropbox 0 (List.replicate 2 listExchange) =
        .ok (last, out) ∧ (∀ X ∈ out, X.calls ≠ []) ∧ TimesIncrease out := by
  obtain ⟨out, hrun, -, hrows⟩ := alwaysLogs_listExchange.exists_run 0 2 (by decide)
  exact ⟨_, out, hrun, hrows, (timesIncrease_iff hrun (by decide)).2.2 (by decide)⟩

/-- **Times go back**: the last of `2 ^ 31` pushes, or of `2 ^ 31` listings, has the smallest
time. -/
theorem not_timesIncrease_of_many :
    (∃ last out, Auditor.run (fun _ _ ↦ none) .git 1 (List.replicate 2147483648 pushExchange) =
      .ok (last, out) ∧ ¬ TimesIncrease out) ∧
    ∃ last out, Auditor.run (fun _ _ ↦ none) .dropbox 0
      (List.replicate 2147483648 listExchange) = .ok (last, out) ∧ ¬ TimesIncrease out :=
  ⟨(alwaysLogs_pushExchange _).not_timesIncrease (by decide),
    alwaysLogs_listExchange.not_timesIncrease (by decide)⟩

end LibSeal
