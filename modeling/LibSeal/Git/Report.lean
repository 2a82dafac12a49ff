import LibSeal.Git.PktLine
import Mathlib.Data.List.Nodup

/-!
# The status report of a push

A server answers a push with a report: how the unpacking went, and one line for each reference, `ok`
or `ng` with a reason. The report is sent on side band 1, behind any number of packets for the user
on other bands.

The lines are read as C strings. `initResults` first takes everything up to the next NUL and then
cuts the line out of it, so there has to be a NUL somewhere behind the name. A body that is sent by
its length has been given one; a body that is sent in chunks has not, and unless one happens to be
in it the read leaves the block (`Terminated`, `parseGitReceivePackResult_of_payload`).
-/

namespace LibSeal

open Bytes

/-! ### The encoding -/

/-- A line of the report. -/
inductive ReportLine where
  | ok (name : RefName)
  | ng (name : RefName) (reason : Bytes)
  deriving DecidableEq

namespace ReportLine

/-- The reference the line is about. -/
def name : ReportLine → RefName
  | ok name => name
  | ng name _ => name

/-- The server has accepted the command. -/
def isOk : ReportLine → Bool
  | ok _ => true
  | ng _ _ => false

/-- What follows the name, up to the newline. -/
def rest : ReportLine → Bytes
  | ok _ => []
  | ng _ reason => ascii " " ++ reason

/-- The word in front of the name. -/
def word : ReportLine → Bytes
  | ok _ => ascii "ok "
  | ng _ _ => ascii "ng "

/-- The line as it is sent. -/
def data (l : ReportLine) : Bytes := l.word ++ (l.name.bytes ++ l.rest ++ [10])

/-- The entry of the line in the map of results. -/
def entry (l : ReportLine) : Bytes × Bool := (l.name.bytes, l.isOk)

theorem length_word (l : ReportLine) : l.word.length = 3 := by
  rcases l with name | ⟨name, reason⟩ <;> rfl

theorem length_data (l : ReportLine) : l.data.length = l.name.bytes.length + l.rest.length + 4 := by
  rw [data, List.length_append, List.length_append, List.length_append, length_word]
  show 3 + (_ + _ + 1) = _
  omega

end ReportLine

/-- A packet of another side band. -/
structure Information where
  band : UInt8
  text : Bytes
  band_ne : band ≠ 1
  fits : (band :: text).length + 4 < 65536

/-- The packet of some information. -/
def Information.packet (i : Information) : Bytes := pktLine (i.band :: i.text)

/-- A report, and what the server sends before and after it. -/
structure StatusReport where
  information : List Information
  unpackStatus : Bytes
  lines : List ReportLine
  trailing : Bytes
  nodup : (lines.map ReportLine.name).Nodup
  unpack_fits : (ascii "unpack " ++ (unpackStatus ++ [10])).length + 4 < 65536
  fits : ∀ l ∈ lines, l.data.length + 4 < 65536

namespace StatusReport

variable (s : StatusReport)

/-- The packets of the report, without the `0000` behind them. -/
def packets : Bytes :=
  pktLine (ascii "unpack " ++ (s.unpackStatus ++ [10])) ++ s.lines.flatMap fun l ↦ pktLine l.data

/-- What is sent before the last `0000` of the report. The length of the packet on side band 1 is
never read. -/
def leading : Bytes :=
  s.information.flatMap Information.packet ++
    (pktLength ((s.packets ++ flushPkt).length + 5) ++ 1 :: s.packets)

/-- The body of the reply. -/
def payload : Bytes := s.leading ++ (flushPkt ++ s.trailing)

/-- The results that the parser is to collect. -/
def results : OrderedMap Bytes Bool := OrderedMap.empty.insertAll (s.lines.map ReportLine.entry)

end StatusReport

/-- A NUL follows the name in the last line, where the memory ends with `stop`. -/
def Terminated (lines : List ReportLine) (stop : Bytes) : Prop :=
  ∀ l ∈ lines.getLast?, 0 ∈ l.rest ++ stop

instance (lines : List ReportLine) (stop : Bytes) : Decidable (Terminated lines stop) :=
  inferInstanceAs (Decidable (∀ l ∈ lines.getLast?, 0 ∈ l.rest ++ stop))

/-- What follows the name of the first line, for lines in front of `stop`. -/
def behindName (l : ReportLine) (lines : List ReportLine) (stop : Bytes) : Bytes :=
  l.rest ++ 10 :: (lines.flatMap (fun l ↦ pktLine l.data) ++ stop)

/-- There is a NUL behind every name exactly when there is one behind the last. -/
theorem terminated_cons {l : ReportLine} {lines : List ReportLine} {stop : Bytes} :
    Terminated (l :: lines) stop ↔ 0 ∈ behindName l lines stop ∧ Terminated lines stop := by
  rcases hlast : lines.getLast? with - | last
  · rw [List.getLast?_eq_none_iff] at hlast
    subst hlast
    simp [Terminated, behindName]
  · have hcons : (l :: lines).getLast? = some last := by
      rw [List.getLast?_cons, hlast]
      rfl
    have hmem : last ∈ lines := List.mem_of_getLast? hlast
    rw [Terminated, Terminated, hcons, hlast]
    refine ⟨fun h ↦ ⟨?_, h⟩, fun h ↦ h.2⟩
    -- what follows the last name follows the first as well
    have hinfix : 0 ∈ lines.flatMap (fun l ↦ pktLine l.data) ++ stop := by
      rcases List.mem_append.1 (h last rfl) with hrest | hstop
      · refine List.mem_append_left _ (List.mem_flatMap.2 ⟨last, hmem, ?_⟩)
        rw [pktLine, ReportLine.data]
        simp [hrest]
      · exact List.mem_append_right _ hstop
    rw [behindName]
    exact List.mem_append_right _ (List.mem_cons_of_mem _ hinfix)

/-! ### Reading the lines -/

theorem gitIsOk_of_memory {ptr : CPtr} (hpos : 0 ≤ ptr.pos) {l : ReportLine} {t : Bytes}
    (hmem : ptr.memory = l.data ++ t) : gitIsOk ptr = .ok l.isOk := by
  rcases l with name | ⟨name, reason⟩
  · have hread : ptr.read = .ok 'o'.toUInt8 := CPtr.read_of_memory hmem
    have hmem₁ : (ptr.add (1 : ℕ)).memory = _ := CPtr.memory_add hpos 1
    rw [hmem] at hmem₁
    have hread₁ : (ptr.add 1).read = .ok 'k'.toUInt8 := CPtr.read_of_memory hmem₁
    rw [gitIsOk, hread]
    simp only [bind, Except.bind, hread₁]
    rfl
  · have hread : ptr.read = .ok 'n'.toUInt8 := CPtr.read_of_memory hmem
    rw [gitIsOk, hread]
    rfl

/-- Whatever the status of the unpacking, it is read without leaving the line. -/
theorem exists_gitIsOk {ptr : CPtr} (hpos : 0 ≤ ptr.pos) {s t : Bytes}
    (hmem : ptr.memory = s ++ 10 :: t) : ∃ b, gitIsOk ptr = .ok b := by
  rcases s with - | ⟨c, s⟩
  · exact ⟨false, by rw [gitIsOk, CPtr.read_of_memory hmem]; rfl⟩
  · have hmem₁ : (ptr.add (1 : ℕ)).memory = s ++ 10 :: t := by
      rw [CPtr.memory_add hpos, hmem]
      rfl
    obtain ⟨d, u, hu⟩ := List.exists_cons_of_ne_nil
      (List.append_ne_nil_of_right_ne_nil s (List.cons_ne_nil (10 : UInt8) t))
    have hread₁ : (ptr.add 1).read = .ok d := CPtr.read_of_memory (hmem₁.trans hu)
    rw [gitIsOk, CPtr.read_of_memory hmem]
    simp only [bind, Except.bind, hread₁]
    by_cases hc : c ≠ 'o'.toUInt8
    · exact ⟨false, if_pos hc⟩
    · exact ⟨decide (d = 'k'.toUInt8), if_neg hc⟩

/-- **A name is read if a NUL follows it.** -/
theorem reportedName_of_memory (l : ReportLine) (t : Bytes) :
    reportedName l.isOk (l.name.bytes ++ (l.rest ++ t)) ↑(l.data.length + 4) =
      if 0 ∈ l.rest ++ t then .ok l.name.bytes else .error .outOfBounds := by
  have hzero : 0 ∈ l.name.bytes ++ (l.rest ++ t) ↔ 0 ∈ l.rest ++ t := by
    rw [List.mem_append, or_iff_right l.name.zero_notMem]
  have hlength := l.length_data
  have hcount : ((↑(l.data.length + 4) : ℤ) - 8).toNat = l.name.bytes.length + l.rest.length := by
    omega
  have hnonneg : ¬ (↑(l.data.length + 4) : ℤ) < 8 := by omega
  rw [reportedName, stringAt, if_neg hnonneg, hcount]
  by_cases h : 0 ∈ l.rest ++ t
  · rw [if_pos h, if_pos (hzero.2 h), cStr_append l.name.zero_notMem]
    rcases l with name | ⟨name, reason⟩
    · -- the line ends with the name
      have hcut := substr_append_append [] name.bytes (cStr t)
      exact hcut
    · -- what is cut out still has the space behind the name
      set tail := (cStr (reason ++ t)).take reason.length with htail
      have hcut : substr (name.bytes ++ cStr (ascii " " ++ reason ++ t)) 0
          (some (name.bytes.length + (ascii " " ++ reason).length)) =
            .ok (name.bytes ++ ' '.toUInt8 :: tail) := by
        rw [substr, if_neg (Nat.not_lt_zero _), List.drop_zero, List.take_length_add_append,
          List.append_assoc, cStr_append (by decide), List.length_append,
          List.take_length_add_append]
        rfl
      have hspace := idxOf?_append_cons name.space_notMem tail
      have hname := substr_append_append [] name.bytes (' '.toUInt8 :: tail)
      show (do
        let rest ← substr (name.bytes ++ cStr (ascii " " ++ reason ++ t)) 0
          (some (name.bytes.length + (ascii " " ++ reason).length))
        substr rest 0 (rest.idxOf? ' '.toUInt8)) = .ok name.bytes
      rw [hcut]
      show substr _ 0 (List.idxOf? _ _) = _
      rw [hspace]
      exact hname
  · rw [if_neg h, if_neg (hzero.not.2 h)]
    rfl

/-- **The loop over the lines** collects their results, or leaves the memory if there is no NUL
behind the last name. -/
theorem initResultsLoop_of_memory {stop : Bytes} (hstop : Stops stop) (lines : List ReportLine)
    (hfits : ∀ l ∈ lines, l.data.length + 4 < 65536) {fuel : ℕ} (hfuel : lines.length < fuel)
    {ptr : CPtr} (hpos : 0 ≤ ptr.pos)
    (hmem : ptr.memory = lines.flatMap (fun l ↦ pktLine l.data) ++ stop)
    (results : OrderedMap Bytes Bool) :
    initResultsLoop fuel ptr results =
      if Terminated lines stop then .ok (results.insertAll (lines.map ReportLine.entry))
      else .error .outOfBounds := by
  induction lines generalizing fuel ptr results with
  | nil =>
    obtain ⟨fuel, rfl⟩ := Nat.exists_eq_succ_of_ne_zero (Nat.ne_zero_of_lt hfuel)
    obtain ⟨n, hread, hle⟩ := exists_intLengthField_of_stops ptr (hmem ▸ hstop)
    rw [initResultsLoop, hread, if_pos (show Terminated [] stop from fun _ h ↦ nomatch h)]
    simp only [bind, Except.bind, if_neg hle]
    rfl
  | cons l lines ih =>
    obtain ⟨fuel, rfl⟩ := Nat.exists_eq_succ_of_ne_zero (Nat.ne_zero_of_lt hfuel)
    obtain ⟨hl, hlines⟩ := List.forall_mem_cons.1 hfits
    rw [List.flatMap_cons, List.append_assoc] at hmem
    set more := lines.flatMap (fun l ↦ pktLine l.data) ++ stop with hmore
    have hread := intLengthField_of_memory hl hmem
    have hmem₄ := memory_add_four hpos hmem
    have hstatus := gitIsOk_of_memory (CPtr.pos_add_nonneg hpos 4) hmem₄
    have hmem₇ : (ptr.add 7).memory = l.name.bytes ++ (l.rest ++ 10 :: more) := by
      have h := CPtr.memory_add (CPtr.pos_add_nonneg hpos 4) l.word.length
      rw [show ptr.add (4 : ℕ) = ptr.add 4 from rfl, hmem₄, ReportLine.data, List.append_assoc,
        List.drop_left, List.append_assoc, List.append_assoc, l.length_word] at h
      rw [show ptr.add 7 = (ptr.add 4).add (3 : ℕ) by simp only [CPtr.add]; congr 1; omega, h]
      rfl
    have hname := reportedName_of_memory l (10 :: more)
    have hnext := memory_add_pktLine hpos hmem
    have hrest := ih hlines (by simpa using hfuel) (CPtr.pos_add_nonneg hpos _) hnext
      (results.insert l.entry.1 l.entry.2)
    rw [initResultsLoop, hread]
    simp only [bind, Except.bind]
    rw [if_pos (show (0 : ℤ) < ↑(l.data.length + 4) by omega)]
    simp only [show gitIsOk (ptr.add 4) = .ok l.isOk from hstatus, hmem₇, hname]
    by_cases hzero : 0 ∈ l.rest ++ 10 :: more
    · rw [if_pos hzero]
      have hiff : Terminated (l :: lines) stop ↔ Terminated lines stop :=
        terminated_cons.trans (and_iff_right hzero)
      simp only [hiff]
      exact hrest
    · have hnot : ¬ Terminated (l :: lines) stop := fun h ↦ hzero (terminated_cons.1 h).1
      rw [if_neg hzero, if_neg hnot]

/-- The packets of other side bands are skipped. -/
theorem exists_skipInformation (information : List Information) {fuel : ℕ}
    (hfuel : information.length < fuel) {ptr : CPtr} (hpos : 0 ≤ ptr.pos) {n : ℕ} {t : Bytes}
    (hmem : ptr.memory = information.flatMap Information.packet ++ (pktLength n ++ 1 :: t)) :
    ∃ ptr', skipInformation fuel ptr = .ok ptr' ∧ 0 ≤ ptr'.pos ∧
      ptr'.memory = pktLength n ++ 1 :: t := by
  induction information generalizing fuel ptr with
  | nil =>
    obtain ⟨fuel, rfl⟩ := Nat.exists_eq_succ_of_ne_zero (Nat.ne_zero_of_lt hfuel)
    have hband : (ptr.add 4).read = .ok 1 := by
      have hmem₀ : ptr.memory = pktLength n ++ 1 :: t := hmem
      exact CPtr.read_of_memory (CPtr.memory_add_length hpos hmem₀)
    refine ⟨ptr, ?_, hpos, hmem⟩
    rw [skipInformation, hband]
    rfl
  | cons i information ih =>
    obtain ⟨fuel, rfl⟩ := Nat.exists_eq_succ_of_ne_zero (Nat.ne_zero_of_lt hfuel)
    rw [List.flatMap_cons, List.append_assoc, Information.packet] at hmem
    have hband : (ptr.add 4).read = .ok i.band := CPtr.read_of_memory (memory_add_four hpos hmem)
    have hread := gitReadLengthField_of_memory i.fits hmem
    obtain ⟨ptr', hskip, hpos', hmem'⟩ := ih (by simpa using hfuel) (CPtr.pos_add_nonneg hpos _)
      (memory_add_pktLine hpos hmem)
    refine ⟨ptr', ?_, hpos', hmem'⟩
    rw [skipInformation, hband]
    simp only [bind, Except.bind, if_pos i.band_ne, hread]
    exact hskip

/-- **The report is parsed to a map of its results**, or the parser leaves the block. -/
theorem exists_parseGitReceivePackResult {s : StatusReport} {result : Event} {stop : Bytes}
    (hstop : Stops stop) {n : ℕ} (hn : 4 < n)
    (hpayload : result.getParam .http httpHeaderPayload =
      some ⟨.http, httpHeaderPayload, .bytes (s.leading ++ stop) n⟩) :
    ∃ b, parseGitReceivePackResult result =
      if Terminated s.lines stop then .ok (b, s.results) else .error .outOfBounds := by
  set ptr : CPtr := ⟨s.leading ++ stop, 0⟩ with hptr
  have hmem : ptr.memory = s.information.flatMap Information.packet ++
      (pktLength ((s.packets ++ flushPkt).length + 5) ++ 1 :: (s.packets ++ stop)) := by
    show (s.leading ++ stop).drop 0 = _
    rw [List.drop_zero, StatusReport.leading]
    simp only [List.append_assoc, List.cons_append]
  obtain ⟨ptr₁, hskip, hpos₁, hmem₁⟩ := exists_skipInformation s.information
    (length_lt_of_memory le_rfl hmem) le_rfl hmem
  -- behind the band, where the report begins
  have hpos₅ : 0 ≤ (ptr₁.add 5).pos := CPtr.pos_add_nonneg hpos₁ 5
  have hmem₅ : (ptr₁.add 5).memory = pktLine (ascii "unpack " ++ (s.unpackStatus ++ [10])) ++
      (s.lines.flatMap (fun l ↦ pktLine l.data) ++ stop) := by
    have h := CPtr.memory_add hpos₁ 5
    rw [hmem₁] at h
    rw [← List.append_assoc, ← StatusReport.packets]
    exact h
  have hmem₁₆ : ((ptr₁.add 5).add 11).memory =
      s.unpackStatus ++ 10 :: (s.lines.flatMap (fun l ↦ pktLine l.data) ++ stop) := by
    have h := CPtr.memory_add hpos₅ 11
    rw [hmem₅, pktLine, List.append_assoc, List.append_assoc, List.append_assoc] at h
    exact h
  have hpos₁₆ : 0 ≤ ((ptr₁.add 5).add 11).pos := CPtr.pos_add_nonneg hpos₅ 11
  obtain ⟨b, hunpack⟩ := exists_gitIsOk hpos₁₆ hmem₁₆
  have hread := gitReadLengthField_of_memory s.unpack_fits hmem₅
  have hloop := initResultsLoop_of_memory hstop s.lines s.fits
    (length_lt_of_memory (CPtr.pos_add_nonneg hpos₅ _) (memory_add_pktLine hpos₅ hmem₅))
    (CPtr.pos_add_nonneg hpos₅ _) (memory_add_pktLine hpos₅ hmem₅) .empty
  refine ⟨b, ?_⟩
  rw [parseGitReceivePackResult, hpayload]
  show (if (0 : ℤ) ≤ n ∧ (n : ℤ) ≤ 4 then _ else _) = _
  rw [if_neg (by omega)]
  show (do
    let ptr' ← skipInformation (ptr.block.length + 1) ptr
    let unpackStatus ← gitIsOk ((ptr'.add 5).add 11)
    let results ← initResults ((ptr'.add 5).add (← gitReadLengthField (ptr'.add 5))) .empty
    return (unpackStatus, results)) = _
  rw [hskip]
  simp only [bind, Except.bind, hunpack, hread, initResults]
  rw [hloop]
  split_ifs <;> rfl

/-! ### Looking results up -/

/-- A reference is looked up as accepted exactly when the report has an `ok` line for it. -/
theorem StatusReport.getD_get?_results (s : StatusReport) (name : RefName) :
    (s.results.get? name.bytes).getD false = decide (ReportLine.ok name ∈ s.lines) := by
  have hnd : ((s.lines.map ReportLine.entry).map Prod.fst).Nodup := by
    have hinj : Function.Injective RefName.bytes := fun _ _ ↦ RefName.ext
    have h := List.Nodup.map hinj s.nodup
    rw [List.map_map] at h ⊢
    exact h
  by_cases hmem : ∃ l ∈ s.lines, l.name = name
  · obtain ⟨l, hl, rfl⟩ := hmem
    have hget : s.results.get? l.name.bytes = some l.isOk :=
      OrderedMap.get?_insertAll_of_mem _ hnd (List.mem_map_of_mem hl)
    rw [hget, Option.getD_some]
    rcases l with name | ⟨name, reason⟩
    · exact (decide_eq_true hl).symm
    · -- a reference has one line only
      refine (decide_eq_false fun hok ↦ ?_).symm
      have heq := List.inj_on_of_nodup_map s.nodup hl hok rfl
      exact nomatch heq
  · have hnone : s.results.get? name.bytes = none := by
      refine (OrderedMap.get?_insertAll_of_notMem _ fun hkey ↦ hmem ?_).trans
        (OrderedMap.get?_empty _)
      rw [List.map_map] at hkey
      obtain ⟨l, hl, hname⟩ := List.mem_map.1 hkey
      exact ⟨l, hl, RefName.ext hname⟩
    rw [hnone, Option.getD_none]
    exact (decide_eq_false fun hok ↦ hmem ⟨_, hok, rfl⟩).symm

end LibSeal
