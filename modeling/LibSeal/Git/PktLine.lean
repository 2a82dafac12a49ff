import LibSeal.Auditing.HttpMessage
import LibSeal.Git.Main

/-!
# Packets

The encoding of the Git protocol, and what the parsers of `Git.Pack` read of it. A packet is its
length in four hexadecimal digits, itself included, and its data (`pktLine`); `0000` ends a sequence
of packets.

The parsers need less than a `0000` to stop, and that is as well: of a body sent by its length the
last byte is overwritten by a NUL, and with it the last digit of a `0000` at the end. What is left
reads as -1, which ends the loop as well (`Stops`).
-/

namespace LibSeal

open Bytes

/-! ### Identifiers and names -/

/-- An object id. -/
structure ObjectId where
  bytes : Bytes
  length_bytes : bytes.length = 40
  isHex_bytes : ∀ b ∈ bytes, isHex b = true
  deriving DecidableEq

/-- The name of a reference. -/
@[ext]
structure RefName where
  bytes : Bytes
  ne_nil : bytes ≠ []
  space_notMem : ' '.toUInt8 ∉ bytes
  zero_notMem : 0 ∉ bytes
  newline_notMem : 10 ∉ bytes

instance : DecidableEq RefName := fun _ _ ↦ decidable_of_iff _ RefName.ext_iff.symm

theorem ObjectId.zero_notMem (id : ObjectId) : 0 ∉ id.bytes :=
  fun h ↦ absurd (id.isHex_bytes 0 h) (by decide)

/-! ### Lengths -/

/-- A length in four hexadecimal digits. -/
def pktLength (n : ℕ) : Bytes :=
  [hexDigit (n / 4096 % 16), hexDigit (n / 256 % 16), hexDigit (n / 16 % 16), hexDigit (n % 16)]

/-- A packet. -/
def pktLine (data : Bytes) : Bytes := pktLength (data.length + 4) ++ data

/-- The end of a sequence of packets. -/
def flushPkt : Bytes := ascii "0000"

theorem length_pktLine (data : Bytes) : (pktLine data).length = data.length + 4 := by
  rw [pktLine, List.length_append, pktLength]
  exact Nat.add_comm _ _

/-- A length is read back. -/
theorem hexToInt_pktLength {n : ℕ} (h : n < 65536) (s : Bytes) :
    hexToInt (pktLength n ++ s) 4 = .ok n := by
  have hdigit : ∀ k, hexValue (hexDigit (k % 16)) = some (k % 16) := fun k ↦
    hexValue_hexDigit (Nat.mod_lt _ (by decide))
  rw [hexToInt, pktLength, List.cons_append, List.cons_append, List.cons_append, List.cons_append]
  simp only [hexToIntFrom, hdigit]
  refine congrArg Except.ok ?_
  omega

/-- The loops over packets stop here. -/
def Stops (s : Bytes) : Prop :=
  ∃ n : ℤ, (hexToInt s 4).map (fun length ↦ toInt32 length) = .ok n ∧ n ≤ 0

theorem stops_flushPkt (s : Bytes) : Stops (flushPkt ++ s) := by
  have h := hexToInt_pktLength (n := 0) (by decide) s
  rw [show pktLength 0 = flushPkt by decide] at h
  exact ⟨0, by rw [h]; rfl, le_rfl⟩

/-- Also where the last digit of the length has been overwritten. -/
theorem stops_overwritten (s : Bytes) : Stops (ascii "000" ++ 0 :: s) :=
  ⟨-1, rfl, by decide⟩

/-- **The end of the packets in a stored body**: whatever comes behind the `0000`, and however the
body was sent, the loops over the packets stop there. A NUL is there if the body was sent by its
length, or came with it. -/
theorem exists_stops_block (junk : ℕ → UInt8) (body : HttpBody) {s t : Bytes}
    (hbytes : body.bytes = s ++ (flushPkt ++ t)) :
    ∃ stop, body.block junk = some (s ++ stop) ∧ Stops stop ∧
      (0 ∈ stop ↔ body.isTerminated = true ∨ 0 ∈ t) := by
  rcases body with - | bytes | chunks
  · exact absurd hbytes.symm (List.append_ne_nil_of_right_ne_nil _ (by simp [flushPkt, ascii]))
  · have hbytes' : bytes = s ++ (flushPkt ++ t) := hbytes
    rcases List.eq_nil_or_concat t with rfl | ⟨t, b, rfl⟩
    · refine ⟨ascii "000" ++ 0 :: [junk bytes.length], ?_, stops_overwritten _,
        ⟨fun _ ↦ Or.inl rfl, fun _ ↦ by simp⟩⟩
      have hlast : s ++ (flushPkt ++ []) = s ++ ascii "000" ++ ['0'.toUInt8] := by
        rw [List.append_nil, List.append_assoc]
        rfl
      rw [HttpBody.block, hbytes', hlast, List.dropLast_concat]
      simp
    · refine ⟨flushPkt ++ (t ++ [0, junk bytes.length]), ?_, stops_flushPkt _,
        ⟨fun _ ↦ Or.inl rfl, fun _ ↦ by simp⟩⟩
      have hlast : s ++ (flushPkt ++ t.concat b) = s ++ flushPkt ++ t ++ [b] := by
        simp
      rw [HttpBody.block, hbytes', hlast, List.dropLast_concat]
      simp
  · have hflush : 0 ∉ flushPkt := by decide
    refine ⟨flushPkt ++ t, ?_, stops_flushPkt t, ?_⟩
    · rw [HttpBody.block]
      exact congrArg some hbytes
    · simp [hflush, HttpBody.isTerminated]

/-! ### Walking over packets -/

theorem gitReadLengthField_of_memory {ptr : CPtr} {data t : Bytes} (h : data.length + 4 < 65536)
    (hmem : ptr.memory = pktLine data ++ t) : gitReadLengthField ptr = .ok (data.length + 4) := by
  rw [gitReadLengthField, hmem, pktLine, List.append_assoc]
  exact hexToInt_pktLength h _

theorem intLengthField_of_memory {ptr : CPtr} {data t : Bytes} (h : data.length + 4 < 65536)
    (hmem : ptr.memory = pktLine data ++ t) : intLengthField ptr = .ok ↑(data.length + 4) := by
  rw [intLengthField, gitReadLengthField_of_memory h hmem]
  exact congrArg Except.ok (toInt32_of_lt (by omega))

theorem exists_intLengthField_of_stops (ptr : CPtr) (h : Stops ptr.memory) :
    ∃ n : ℤ, intLengthField ptr = .ok n ∧ ¬ 0 < n := by
  obtain ⟨n, hn, hle⟩ := h
  exact ⟨n, hn, not_lt.2 hle⟩

/-- The data of the packet at a pointer. -/
theorem memory_add_four {ptr : CPtr} (hpos : 0 ≤ ptr.pos) {data t : Bytes}
    (hmem : ptr.memory = pktLine data ++ t) : (ptr.add 4).memory = data ++ t := by
  rw [pktLine, List.append_assoc] at hmem
  exact CPtr.memory_add_length hpos hmem

/-- The memory behind the packet at a pointer. -/
theorem memory_add_pktLine {ptr : CPtr} (hpos : 0 ≤ ptr.pos) {data t : Bytes}
    (hmem : ptr.memory = pktLine data ++ t) : (ptr.add ↑(data.length + 4)).memory = t := by
  rw [← length_pktLine]
  exact CPtr.memory_add_length hpos hmem

/-- **A loop over packets** adds the entry of each of them. -/
theorem walkPackets_of_memory {X : Type} {trim : ℕ}
    {add : OrderedMap Bytes Bytes → Bytes → Except CFault (OrderedMap Bytes Bytes)}
    {kept dropped : X → Bytes} {entry : X → Bytes × Bytes}
    (hadd : ∀ x m, add m (kept x) = .ok (m.insert (entry x).1 (entry x).2))
    (htrim : ∀ x, (dropped x).length + 4 = trim) {stop : Bytes} (hstop : Stops stop) (xs : List X)
    (hfits : ∀ x ∈ xs, (kept x ++ dropped x).length + 4 < 65536) {fuel : ℕ}
    (hfuel : xs.length < fuel) {ptr : CPtr} (hpos : 0 ≤ ptr.pos)
    (hmem : ptr.memory = xs.flatMap (fun x ↦ pktLine (kept x ++ dropped x)) ++ stop)
    (m : OrderedMap Bytes Bytes) :
    walkPackets trim add fuel ptr m = .ok (m.insertAll (xs.map entry)) := by
  induction xs generalizing fuel ptr m with
  | nil =>
    obtain ⟨fuel, rfl⟩ := Nat.exists_eq_succ_of_ne_zero (Nat.ne_zero_of_lt hfuel)
    obtain ⟨n, hread, hle⟩ := exists_intLengthField_of_stops ptr (hmem ▸ hstop)
    rw [walkPackets, hread]
    simp only [bind, Except.bind, if_neg hle]
    rfl
  | cons x xs ih =>
    obtain ⟨fuel, rfl⟩ := Nat.exists_eq_succ_of_ne_zero (Nat.ne_zero_of_lt hfuel)
    obtain ⟨hx, hxs⟩ := List.forall_mem_cons.1 hfits
    rw [List.flatMap_cons, List.append_assoc] at hmem
    have hread := intLengthField_of_memory hx hmem
    have hdata : stringOfLength (ptr.add 4).memory
        (↑((kept x ++ dropped x).length + 4) - (trim : ℤ)) = .ok (kept x) := by
      have hlen : (↑((kept x ++ dropped x).length + 4) - (trim : ℤ)) = (kept x).length := by
        rw [List.length_append, ← htrim x]
        omega
      rw [memory_add_four hpos hmem, hlen, List.append_assoc]
      exact stringOfLength_append _ _
    have hnext := memory_add_pktLine hpos hmem
    have hpos' := CPtr.pos_add_nonneg hpos ((kept x ++ dropped x).length + 4)
    have hrest := ih hxs (by simpa using hfuel) hpos' hnext (m.insert (entry x).1 (entry x).2)
    rw [walkPackets, hread]
    simp only [bind, Except.bind, hdata, hadd, hrest]
    rw [if_pos (by omega), List.map_cons, OrderedMap.insertAll_cons]

/-- The block is long enough to count the packets in it. -/
theorem length_lt_of_memory {X : Type} {data : X → Bytes} {xs : List X} {stop : Bytes} {ptr : CPtr}
    (hpos : 0 ≤ ptr.pos) (hmem : ptr.memory = xs.flatMap (fun x ↦ pktLine (data x)) ++ stop) :
    xs.length < ptr.block.length + 1 := by
  have hcount : ∀ xs : List X, xs.length ≤ (xs.flatMap fun x ↦ pktLine (data x)).length := by
    intro xs
    induction xs with
    | nil => exact le_rfl
    | cons x xs ih =>
      rw [List.flatMap_cons, List.length_append, List.length_cons, length_pktLine]
      omega
  have hlen := congrArg List.length hmem
  rw [CPtr.memory, if_neg (not_lt.2 hpos), List.length_drop, List.length_append] at hlen
  have := hcount xs
  omega

/-! ### Maps of collected entries -/

/-- What is read out of a map that has collected the entries of things with distinct keys: the
things, in the order of their keys. -/
theorem exists_sorted {X : Type} {α : Type} (key : X → Bytes) (val : X → α) {xs : List X}
    (hnd : (xs.map key).Nodup) :
    ∃ ys : List X, ys.Perm xs ∧ ys.Pairwise (fun x y ↦ key x < key y) ∧
      ((OrderedMap.empty : OrderedMap Bytes α).insertAll (xs.map fun x ↦ (key x, val x))).toList =
        ys.map fun x ↦ (key x, val x) := by
  set m := (OrderedMap.empty : OrderedMap Bytes α).insertAll (xs.map fun x ↦ (key x, val x)) with hm
  have hkeys : (xs.map fun x ↦ (key x, val x)).map Prod.fst = xs.map key := by
    rw [List.map_map]
    rfl
  have hperm : m.toList.Perm (xs.map fun x ↦ (key x, val x)) :=
    OrderedMap.toList_perm_of_nodup (hkeys ▸ hnd)
  have hexists : ∃ ys : List X, m.toList = ys.map (fun x ↦ (key x, val x)) ∧ ys.Perm xs := by
    have h := congrFun (congrFun (List.eq_map_comp_perm fun x ↦ (key x, val x)) m.toList) xs
    exact h.mpr hperm
  obtain ⟨ys, hys, hyperm⟩ := hexists
  refine ⟨ys, hyperm, ?_, hys⟩
  have hsorted := m.sorted
  rw [hys, List.pairwise_map] at hsorted
  exact hsorted

/-! ### Messages that are parsed -/

/-- Rows are only logged if both messages are parsed. -/
theorem exists_events {junk : ℕ → UInt8} {time : ℕ} {req rsp : Bytes}
    {r : ℕ × List (InsertCall .git)} (h : libsealProcessLogAtRuntime junk time req rsp = .ok r) :
    ∃ evReq evRsp, httpToEvent junk req = .ok evReq ∧ httpToEvent junk rsp = .ok evRsp ∧
      processEvents time evReq evRsp = .ok r := by
  rw [libsealProcessLogAtRuntime] at h
  rcases hreq : httpToEvent junk req with f | evReq
  · rw [hreq] at h
    exact nomatch h
  · rcases hrsp : httpToEvent junk rsp with f | evRsp
    · rw [hreq, hrsp] at h
      exact nomatch h
    · rw [hreq, hrsp] at h
      exact ⟨evReq, evRsp, rfl, rfl, h⟩

end LibSeal
