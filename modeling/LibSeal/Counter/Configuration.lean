import LibSeal.Data.Bytes
import LibSeal.Data.CxxString

/-!
# The servers of the counter service

`mcservice_initialize` reads the addresses of the servers from a file, one in a line. A line of more
than 16 bytes is skipped, and so is what comes after the last line break, so that a file whose only
line is not ended makes a quorum of nobody. Every file is read without leaving the memory of an
address, and makes the servers of its lines (`mcserviceInitialize_lines`).
-/

namespace LibSeal

open Bytes

/-- `'\n'` -/
def lineBreak : UInt8 := 10

/-- `char ip[17]` -/
def ipSize : ℕ := 17

/-- `memcpy` of an address into the memory of a new server, with the NUL behind it. -/
def copyIp (text : Bytes) : Except CFault Bytes :=
  if text.length < ipSize then .ok (text ++ [0]) else .error .outOfBounds

/-- The variable `start` and the array `servers`, of which the addresses are kept. -/
structure ServerList where
  start : ℕ
  servers : List Bytes

/-- An iteration of the loop over the characters. -/
def ServerList.round (allchars : Bytes) (s : ServerList) (i : ℕ) : Except CFault ServerList :=
  if allchars[i]? = some lineBreak then
    if 16 < i - s.start then .ok { s with start := i + 1 }
    else do
      let ip ← copyIp ((allchars.drop s.start).take (i - s.start))
      return ⟨i + 1, s.servers ++ [ip]⟩
  else .ok s

/-- `mcservice_initialize`, of a file that has been read. -/
def mcserviceInitialize (allchars : Bytes) : Except CFault (List Bytes) := do
  let s ← (List.range allchars.length).foldlM (ServerList.round allchars) ⟨0, []⟩
  return s.servers

/-! ### Lines -/

/-- The lines that are ended by a line break. -/
def endedLines (s : Bytes) : List Bytes := (s.splitOn lineBreak).dropLast

/-- The addresses in some lines, as they are stored. -/
def addresses (lines : List Bytes) : List Bytes :=
  (lines.filter fun line ↦ line.length ≤ 16).map (· ++ [0])

theorem endedLines_of_notMem {s : Bytes} (h : lineBreak ∉ s) : endedLines s = [] := by
  rw [endedLines, List.splitOn_eq_singleton h]
  rfl

theorem endedLines_append_cons {line : Bytes} (h : lineBreak ∉ line) (s : Bytes) :
    endedLines (line ++ lineBreak :: s) = line :: endedLines s := by
  rw [endedLines, List.splitOn_append_cons_self, List.splitOn_eq_singleton h,
    List.singleton_append, List.dropLast_cons_of_ne_nil (List.splitOn_ne_nil _ _), endedLines]

/-- A file with some lines. -/
def fileOf (lines : List Bytes) (rest : Bytes) : Bytes := lines.flatMap (· ++ [lineBreak]) ++ rest

theorem fileOf_cons (line : Bytes) (lines : List Bytes) (rest : Bytes) :
    fileOf (line :: lines) rest = line ++ lineBreak :: fileOf lines rest := by
  rw [fileOf, fileOf, List.flatMap_cons, List.append_assoc, List.append_assoc,
    List.singleton_append]

theorem endedLines_fileOf {lines : List Bytes} (h : ∀ line ∈ lines, lineBreak ∉ line) {rest : Bytes}
    (hrest : lineBreak ∉ rest) : endedLines (fileOf lines rest) = lines := by
  induction lines with
  | nil => exact endedLines_of_notMem hrest
  | cons line lines ih =>
    obtain ⟨hline, hlines⟩ := List.forall_mem_cons.1 h
    rw [fileOf_cons, endedLines_append_cons hline, ih hlines]

/-- Every file has lines, and something behind the last line break. -/
theorem exists_fileOf (s : Bytes) : ∃ lines rest, s = fileOf lines rest ∧
    (∀ line ∈ lines, lineBreak ∉ line) ∧ lineBreak ∉ rest := by
  induction s with
  | nil => exact ⟨[], [], rfl, List.forall_mem_nil _, List.not_mem_nil⟩
  | cons b s ih =>
    obtain ⟨lines, rest, rfl, hlines, hrest⟩ := ih
    by_cases hb : b = lineBreak
    · exact ⟨[] :: lines, rest, by rw [hb, fileOf_cons, List.nil_append],
        List.forall_mem_cons.2 ⟨List.not_mem_nil, hlines⟩, hrest⟩
    · have hcons : ∀ {t : Bytes}, lineBreak ∉ t → lineBreak ∉ b :: t := fun ht ↦
        List.not_mem_cons_of_ne_of_not_mem (fun heq ↦ hb heq.symm) ht
      rcases lines with - | ⟨line, lines⟩
      · exact ⟨[], b :: rest, rfl, List.forall_mem_nil _, hcons hrest⟩
      · obtain ⟨hline, hlines⟩ := List.forall_mem_cons.1 hlines
        exact ⟨(b :: line) :: lines, rest, by rw [fileOf_cons, fileOf_cons, List.cons_append],
          List.forall_mem_cons.2 ⟨hcons hline, hlines⟩, hrest⟩

/-- No line is skipped if none is too long. -/
theorem addresses_eq_map_iff {lines : List Bytes} :
    addresses lines = lines.map (· ++ [0]) ↔ ∀ line ∈ lines, line.length ≤ 16 := by
  have hinjective : Function.Injective fun line : Bytes ↦ line ++ [0] :=
    fun _ _ h ↦ List.append_cancel_right h
  rw [addresses, (List.map_injective_iff.2 hinjective).eq_iff, List.filter_eq_self]
  simp only [decide_eq_true_eq]

/-! ### The loop -/

/-- At a line break the line is read. -/
theorem round_lineBreak {allchars before line after : Bytes} (servers : List Bytes)
    (h : allchars = before ++ line ++ lineBreak :: after) :
    ServerList.round allchars ⟨before.length, servers⟩ (before ++ line).length =
      .ok ⟨(before ++ line ++ [lineBreak]).length, servers ++ addresses [line]⟩ := by
  have hchar : allchars[(before ++ line).length]? = some lineBreak := by
    rw [h, List.getElem?_append_right le_rfl, Nat.sub_self]
    rfl
  have hlength : (before ++ line).length - before.length = line.length := by
    rw [List.length_append, Nat.add_sub_cancel_left]
  have htext : (allchars.drop before.length).take line.length = line := by
    rw [h, List.append_assoc, List.drop_left, List.take_left]
  have hnext : (before ++ line ++ [lineBreak]).length = (before ++ line).length + 1 :=
    List.length_append
  rw [ServerList.round, if_pos hchar, hnext]
  dsimp only
  rw [hlength, htext, addresses]
  by_cases hlong : 16 < line.length
  · rw [if_pos hlong, List.filter_cons_of_neg (by simpa using hlong), List.filter_nil, List.map_nil,
      List.append_nil]
  · have hfits : line.length < ipSize := Nat.lt_succ_of_le (Nat.not_lt.1 hlong)
    rw [if_neg hlong, List.filter_cons_of_pos (by simpa using hlong), copyIp, if_pos hfits]
    rfl

/-- Any other character is passed over. -/
theorem round_other {allchars before line after : Bytes} {b : UInt8}
    (h : allchars = before ++ line ++ b :: after)
    (hb : b ≠ lineBreak) (s : ServerList) :
    ServerList.round allchars s (before ++ line).length = .ok s := by
  have hchar : allchars[(before ++ line).length]? = some b := by
    rw [h, List.getElem?_append_right le_rfl, Nat.sub_self]
    rfl
  rw [ServerList.round, hchar, if_neg fun heq ↦ hb (Option.some.inj heq)]

/-- **The rest of the file**, from anywhere in a line: the line goes on, and other lines follow. -/
theorem foldlM_round {allchars after : Bytes} (before line : Bytes) (servers : List Bytes)
    (h : allchars = before ++ line ++ after) (hline : lineBreak ∉ line) :
    ∃ start, (List.range' (before ++ line).length after.length).foldlM (ServerList.round allchars)
        ⟨before.length, servers⟩ =
      .ok ⟨start, servers ++ addresses (endedLines (line ++ after))⟩ := by
  induction after generalizing before line servers with
  | nil =>
    refine ⟨before.length, ?_⟩
    rw [List.append_nil, endedLines_of_notMem hline, addresses, List.filter_nil, List.map_nil,
      List.append_nil]
    rfl
  | cons b after ih =>
    rw [List.length_cons, List.range'_succ, List.foldlM_cons]
    by_cases hb : b = lineBreak
    · subst hb
      rw [round_lineBreak servers h, CFault.ok_bind]
      have hrest : allchars = before ++ line ++ [lineBreak] ++ [] ++ after := by
        rw [h, List.append_nil, List.append_assoc _ [lineBreak], List.singleton_append]
      have hlength : (before ++ line ++ [lineBreak] ++ []).length =
          (before ++ line).length + 1 := by
        rw [List.append_nil, List.length_append]
        rfl
      have hlines : addresses (endedLines (line ++ lineBreak :: after)) =
          addresses [line] ++ addresses (endedLines after) := by
        rw [endedLines_append_cons hline, addresses, addresses, addresses, ← List.map_append,
          ← List.filter_append, List.singleton_append]
      obtain ⟨start, hstart⟩ := ih (before ++ line ++ [lineBreak]) [] (servers ++ addresses [line])
        hrest List.not_mem_nil
      rw [hlength, List.nil_append, List.append_assoc servers, ← hlines] at hstart
      exact ⟨start, hstart⟩
    · rw [round_other h hb, CFault.ok_bind]
      have hrest : allchars = before ++ (line ++ [b]) ++ after := by
        rw [h, List.append_assoc, List.append_assoc, List.append_assoc, List.singleton_append]
      have hmem : lineBreak ∉ line ++ [b] := by
        rw [List.mem_append, List.mem_singleton, not_or]
        exact ⟨hline, fun heq ↦ hb heq.symm⟩
      have hlength : (before ++ (line ++ [b])).length = (before ++ line).length + 1 := by
        rw [← List.append_assoc, List.length_append]
        rfl
      obtain ⟨start, hstart⟩ := ih before (line ++ [b]) servers hrest hmem
      rw [hlength, List.append_assoc, List.singleton_append] at hstart
      exact ⟨start, hstart⟩

/-- The servers are those of the lines. -/
theorem mcserviceInitialize_eq (allchars : Bytes) :
    mcserviceInitialize allchars = .ok (addresses (endedLines allchars)) := by
  have hwhole : allchars = [] ++ [] ++ allchars := rfl
  obtain ⟨start, hstart⟩ := foldlM_round [] [] [] hwhole List.not_mem_nil
  rw [mcserviceInitialize, List.range_eq_range']
  exact congrArg (· >>= fun s ↦ .ok s.servers) hstart

/-- **Every file is read**, and no address leaves its memory: the servers are those whose addresses
are lines of at most 16 bytes, in their order. What comes after the last line break is not read. All
lines are servers exactly if none is longer. -/
theorem mcserviceInitialize_lines (allchars : Bytes) : ∃ lines rest,
    allchars = fileOf lines rest ∧ (∀ line ∈ lines, lineBreak ∉ line) ∧ lineBreak ∉ rest ∧
      mcserviceInitialize allchars = .ok (addresses lines) ∧
      (mcserviceInitialize allchars = .ok (lines.map (· ++ [0])) ↔
        ∀ line ∈ lines, line.length ≤ 16) := by
  obtain ⟨lines, rest, rfl, hlines, hrest⟩ := exists_fileOf allchars
  have hread := mcserviceInitialize_eq (fileOf lines rest)
  rw [endedLines_fileOf hlines hrest] at hread
  refine ⟨lines, rest, rfl, hlines, hrest, hread, ?_⟩
  rw [hread, Except.ok.injEq, addresses_eq_map_iff]

/-- The only line is not ended, so there is no server. -/
example : mcserviceInitialize (ascii "127.0.0.1") = .ok [] := by
  rw [mcserviceInitialize_eq]
  decide +kernel

end LibSeal
