import LibSeal.Git.Pack

/-!
# Packets that the parsers can walk over

The parsers of `Git.Pack` trust the payload. They follow its length fields without a look at its
end, cut the data of a packet at fixed columns (`substr` behind the end of a string throws), and
read the first reference and the first command as C strings. Only the value of a length field is
tested, against zero, for the end of a sequence.

Here is what they need of the payload not to fail: `AdvertisementFits`, `CommandsFit` and
`ResultsFit` look at nothing but the length fields that are reached from the front, the room behind
them and the NUL bytes (`parse_ok_iff`).
-/

namespace LibSeal

open Bytes

variable {α : Type}

/-! ### The faults of a parser -/

/-- The faults of a parser that trusts its payload. -/
def payloadFaults : List CFault := [.outOfBounds, .lengthError, .outOfRange]

/-- A computation neither leaves its memory nor throws. -/
def Safe (x : Except CFault α) : Prop := ∀ f ∈ payloadFaults, x ≠ .error f

/-- A computation has no other fault. -/
def OnlyPayloadFaults (x : Except CFault α) : Prop := ∀ f, x = .error f → f ∈ payloadFaults

/-- A computation without another fault is safe exactly if it returns. -/
theorem OnlyPayloadFaults.safe_iff {x : Except CFault α} (h : OnlyPayloadFaults x) :
    Safe x ↔ ∃ a, x = .ok a := by
  rcases x with f | a
  · refine iff_of_false (fun hsafe ↦ hsafe f (h f rfl) rfl) ?_
    simp
  · exact iff_of_true (fun f _ ↦ by simp) ⟨a, rfl⟩

theorem OnlyPayloadFaults.pure (a : α) : OnlyPayloadFaults (Pure.pure a) := by
  intro f h
  cases h

theorem OnlyPayloadFaults.bind {β : Type} {x : Except CFault α} {f : α → Except CFault β}
    (hx : OnlyPayloadFaults x) (hf : ∀ a, x = .ok a → OnlyPayloadFaults (f a)) :
    OnlyPayloadFaults (x >>= f) := by
  rcases x with e | a
  · intro e' h
    cases h
    exact hx e rfl
  · exact hf a rfl

theorem onlyPayloadFaults_substr (s : Bytes) (pos : ℕ) (n : Option ℕ) :
    OnlyPayloadFaults (substr s pos n) := by
  intro f h
  rw [substr.eq_def] at h
  split_ifs at h
  · cases h
    decide
  · rcases n with - | n <;> cases h

theorem onlyPayloadFaults_stringAt (p : Bytes) : OnlyPayloadFaults (stringAt p) := by
  intro f h
  rw [stringAt] at h
  split_ifs at h
  · cases h
    decide

theorem onlyPayloadFaults_stringOfLength (p : Bytes) (n : ℤ) :
    OnlyPayloadFaults (stringOfLength p n) := by
  intro f h
  rw [stringOfLength] at h
  split_ifs at h
  · cases h
    decide
  · cases h
    decide

theorem onlyPayloadFaults_read (ptr : CPtr) : OnlyPayloadFaults ptr.read := by
  intro f h
  rw [CPtr.read] at h
  rcases hmem : ptr.memory with - | ⟨b, s⟩
  · rw [hmem] at h
    cases h
    decide
  · rw [hmem] at h
    cases h

theorem onlyPayloadFaults_hexToIntFrom (n result : ℕ) (bytes : Bytes) :
    OnlyPayloadFaults (hexToIntFrom result n bytes) := by
  induction n generalizing result bytes with
  | zero => exact .pure result
  | succ n ih =>
    rcases bytes with - | ⟨b, bytes⟩
    · intro f h
      cases h
      decide
    · rw [hexToIntFrom]
      rcases hexValue b with - | d
      · exact .pure _
      · exact ih _ _

theorem onlyPayloadFaults_gitReadLengthField (ptr : CPtr) :
    OnlyPayloadFaults (gitReadLengthField ptr) :=
  onlyPayloadFaults_hexToIntFrom 4 0 ptr.memory

theorem onlyPayloadFaults_intLengthField (ptr : CPtr) :
    OnlyPayloadFaults (intLengthField ptr) := by
  intro f h
  rw [intLengthField] at h
  rcases hfield : gitReadLengthField ptr with e | length
  · rw [hfield] at h
    cases h
    exact onlyPayloadFaults_gitReadLengthField ptr _ hfield
  · rw [hfield] at h
    cases h

theorem onlyPayloadFaults_gitIsOk (ptr : CPtr) : OnlyPayloadFaults (gitIsOk ptr) := by
  refine .bind (onlyPayloadFaults_read ptr) fun o _ ↦ ?_
  split_ifs
  · exact .pure _
  · exact .bind (onlyPayloadFaults_read _) fun k _ ↦ .pure _

/-! ### A walk over packets -/

/-- The loops over packets: as long as a packet follows, `step` is taken with it. -/
def walk (step : CPtr → ℤ → α → Except CFault α) : ℕ → CPtr → α → Except CFault α
  | 0, _, _ => .error .diverged
  | fuel + 1, ptr, a => do
    let length ← intLengthField ptr
    if 0 < length then
      let a ← step ptr length a
      walk step fuel (ptr.add length) a
    else return a

/-- A step of `walkPackets`. -/
def packetStep (trim : ℤ)
    (add : OrderedMap Bytes Bytes → Bytes → Except CFault (OrderedMap Bytes Bytes))
    (ptr : CPtr) (length : ℤ) (m : OrderedMap Bytes Bytes) :
    Except CFault (OrderedMap Bytes Bytes) := do
  let data ← stringOfLength (ptr.add 4).memory (length - trim)
  add m data

/-- A step of `initResults`. -/
def resultStep (ptr : CPtr) (length : ℤ) (results : OrderedMap Bytes Bool) :
    Except CFault (OrderedMap Bytes Bool) := do
  let status ← gitIsOk (ptr.add 4)
  let refname ← reportedName status (ptr.add 7).memory length
  return results.insert refname status

theorem walkPackets_eq_walk (trim : ℤ)
    (add : OrderedMap Bytes Bytes → Bytes → Except CFault (OrderedMap Bytes Bytes)) (fuel : ℕ)
    (ptr : CPtr) (m : OrderedMap Bytes Bytes) :
    walkPackets trim add fuel ptr m = walk (packetStep trim add) fuel ptr m := by
  induction fuel generalizing ptr m with
  | zero => rfl
  | succ fuel ih => simp only [walkPackets, walk, packetStep, bind_assoc, ih]

theorem initResultsLoop_eq_walk (fuel : ℕ) (ptr : CPtr) (results : OrderedMap Bytes Bool) :
    initResultsLoop fuel ptr results = walk resultStep fuel ptr results := by
  induction fuel generalizing ptr results with
  | zero => rfl
  | succ fuel ih => simp only [initResultsLoop, walk, resultStep, bind_assoc, pure_bind, ih]

/-- The length fields lead from a pointer over packets that are `good` to the end of a sequence. -/
inductive Walkable (good : CPtr → ℤ → Prop) : CPtr → Prop
  | stop {ptr : CPtr} {length : ℤ} (hfield : intLengthField ptr = .ok length) (hle : length ≤ 0) :
    Walkable good ptr
  | packet {ptr : CPtr} {length : ℤ} (hfield : intLengthField ptr = .ok length) (hpos : 0 < length)
    (hgood : good ptr length) (hrest : Walkable good (ptr.add length)) : Walkable good ptr

/-- A length field is read inside the block. -/
theorem pos_of_intLengthField {ptr : CPtr} {length : ℤ} (h : intLengthField ptr = .ok length) :
    0 ≤ ptr.pos ∧ ptr.pos.toNat < ptr.block.length := by
  have hne : ptr.memory ≠ [] := by
    intro hnil
    rw [intLengthField, gitReadLengthField, hnil] at h
    exact absurd h (by simp [hexToInt, hexToIntFrom, Except.map])
  rw [CPtr.memory] at hne
  split_ifs at hne with hneg
  · exact absurd rfl hne
  · exact ⟨by omega, List.drop_eq_nil_iff.not.1 hne |> not_le.1⟩

/-- Every packet makes what is left of the block smaller. -/
theorem left_add_lt {ptr : CPtr} {length : ℤ} (h : intLengthField ptr = .ok length)
    (hpos : 0 < length) {fuel : ℕ} (hfuel : ptr.block.length - ptr.pos.toNat < fuel + 1) :
    (ptr.add length).block.length - (ptr.add length).pos.toNat < fuel := by
  have hinside := pos_of_intLengthField h
  simp only [CPtr.add]
  omega

section Walk

variable {step : CPtr → ℤ → α → Except CFault α} {good : CPtr → ℤ → Prop}

/-- **A walk succeeds exactly over packets that its steps accept.** What is left of the block bounds
the number of rounds. -/
theorem exists_walk_iff
    (hstep : ∀ ptr length a, intLengthField ptr = .ok length → 0 < length →
      ((∃ a', step ptr length a = .ok a') ↔ good ptr length))
    {fuel : ℕ} {ptr : CPtr} (hfuel : ptr.block.length - ptr.pos.toNat < fuel) (a : α) :
    (∃ a', walk step fuel ptr a = .ok a') ↔ Walkable good ptr := by
  induction fuel generalizing ptr a with
  | zero => omega
  | succ fuel ih =>
    constructor
    · rintro ⟨a', hwalk⟩
      obtain ⟨length, hfield, hwalk⟩ := CFault.bind_eq_ok.1 hwalk
      split_ifs at hwalk with hpos
      · obtain ⟨b, hb, hwalk⟩ := CFault.bind_eq_ok.1 hwalk
        exact .packet hfield hpos ((hstep ptr length a hfield hpos).1 ⟨b, hb⟩)
          ((ih (left_add_lt hfield hpos hfuel) b).1 ⟨a', hwalk⟩)
      · exact .stop hfield (not_lt.1 hpos)
    · intro hwalkable
      rcases hwalkable with ⟨hfield, hle⟩ | ⟨hfield, hpos, hgood, hrest⟩
      · exact ⟨a, by rw [walk, hfield]; exact if_neg (not_lt.2 hle)⟩
      · obtain ⟨b, hb⟩ := (hstep _ _ a hfield hpos).2 hgood
        obtain ⟨a', ha'⟩ := (ih (left_add_lt hfield hpos hfuel) b).2 hrest
        refine ⟨a', ?_⟩
        rw [walk, hfield]
        simp only [bind, Except.bind, if_pos hpos, hb, ha']

/-- **A walk ends**, and fails only as its steps do. -/
theorem OnlyPayloadFaults.walk (hstep : ∀ ptr length a, OnlyPayloadFaults (step ptr length a))
    {fuel : ℕ} {ptr : CPtr} (hfuel : ptr.block.length - ptr.pos.toNat < fuel) (a : α) :
    OnlyPayloadFaults (walk step fuel ptr a) := by
  induction fuel generalizing ptr a with
  | zero => omega
  | succ fuel ih =>
    refine .bind (onlyPayloadFaults_intLengthField ptr) fun length hfield ↦ ?_
    split_ifs with hpos
    · exact .bind (hstep ptr length a) fun b _ ↦ ih (left_add_lt hfield hpos hfuel) b
    · exact .pure a

end Walk

/-! ### What the steps need -/

theorem exists_substr_iff {s : Bytes} {pos : ℕ} {n : Option ℕ} :
    (∃ t, substr s pos n = .ok t) ↔ pos ≤ s.length := by
  rw [substr.eq_def]
  split_ifs with h
  · simp only [exists_const, false_iff, not_le]
    exact h
  · rcases n with - | n <;> simp [not_lt.1 h]

theorem exists_stringAt_iff {p : Bytes} : (∃ s, stringAt p = .ok s) ↔ 0 ∈ p := by
  rw [stringAt]
  split_ifs with h <;> simp [h]

theorem stringOfLength_eq_ok_iff {p s : Bytes} {n : ℤ} :
    stringOfLength p n = .ok s ↔ 0 ≤ n ∧ n.toNat ≤ p.length ∧ s = p.take n.toNat := by
  rw [stringOfLength]
  split_ifs with hneg hlong
  · simp [not_le.2 hneg]
  · simp [not_le.2 hlong]
  · simp [not_lt.1 hneg, not_lt.1 hlong, eq_comm]

/-- A reference needs its id and the space behind it. -/
theorem exists_addRef_iff (refs : OrderedMap Bytes Bytes) (ref : Bytes) :
    (∃ refs', addRef refs ref = .ok refs') ↔ 41 ≤ ref.length := by
  constructor
  · rintro ⟨refs', h⟩
    obtain ⟨name, hname, -⟩ := CFault.bind_eq_ok.1 h
    exact exists_substr_iff.1 ⟨name, hname⟩
  · intro h
    obtain ⟨name, hname⟩ := exists_substr_iff (n := none) |>.2 h
    obtain ⟨id, hid⟩ := exists_substr_iff (n := some 40) |>.2 (Nat.zero_le ref.length)
    exact ⟨_, CFault.bind_eq_ok.2 ⟨name, hname, CFault.bind_eq_ok.2 ⟨id, hid, rfl⟩⟩⟩

/-- A command needs its two ids and the spaces behind them. -/
theorem exists_addCommand_iff (commands : OrderedMap Bytes Bytes) (cmd : Bytes) :
    (∃ commands', addCommand commands cmd = .ok commands') ↔ 82 ≤ cmd.length := by
  constructor
  · rintro ⟨commands', h⟩
    obtain ⟨name, hname, -⟩ := CFault.bind_eq_ok.1 h
    exact exists_substr_iff.1 ⟨name, hname⟩
  · intro h
    obtain ⟨name, hname⟩ := exists_substr_iff (n := none) |>.2 h
    obtain ⟨ids, hids⟩ := exists_substr_iff (n := some 81) |>.2 (Nat.zero_le cmd.length)
    exact ⟨_, CFault.bind_eq_ok.2 ⟨name, hname, CFault.bind_eq_ok.2 ⟨ids, hids, rfl⟩⟩⟩

/-- The data of a packet, without `trim` of its bytes, lies in the block and is long enough: the
whole packet has at least `least` bytes. -/
def PacketFits (trim least : ℕ) (ptr : CPtr) (length : ℤ) : Prop :=
  least ≤ length ∧ length - trim ≤ (ptr.add 4).memory.length

theorem exists_packetStep_iff {trim cols : ℕ}
    {add : OrderedMap Bytes Bytes → Bytes → Except CFault (OrderedMap Bytes Bytes)}
    (hadd : ∀ m data, (∃ m', add m data = .ok m') ↔ cols ≤ data.length) (ptr : CPtr) (length : ℤ)
    (m : OrderedMap Bytes Bytes) :
    (∃ m', packetStep trim add ptr length m = .ok m') ↔
      PacketFits trim (trim + cols) ptr length := by
  constructor
  · rintro ⟨m', h⟩
    obtain ⟨data, hdata, hm'⟩ := CFault.bind_eq_ok.1 h
    have hcols : cols ≤ data.length := (hadd m data).1 ⟨m', hm'⟩
    obtain ⟨hneg, hfits, rfl⟩ := stringOfLength_eq_ok_iff.1 hdata
    rw [List.length_take] at hcols
    exact ⟨by push_cast; omega, by omega⟩
  · rintro ⟨hleast, hfits⟩
    push_cast at hleast
    have hdata : stringOfLength (ptr.add 4).memory (length - trim) = .ok _ :=
      stringOfLength_eq_ok_iff.2 ⟨by omega, by omega, rfl⟩
    obtain ⟨m', hm'⟩ := (hadd m ((ptr.add 4).memory.take (length - trim).toNat)).2 (by
      rw [List.length_take]
      omega)
    exact ⟨m', CFault.bind_eq_ok.2 ⟨_, hdata, hm'⟩⟩

/-- A line of the report needs a NUL behind the status. -/
def ResultFits (ptr : CPtr) (_ : ℤ) : Prop := 0 ∈ (ptr.add 7).memory

/-- Two bytes are enough for a status. -/
theorem exists_gitIsOk_of_read {ptr : CPtr} {c d : UInt8} (hc : ptr.read = .ok c)
    (hd : (ptr.add 1).read = .ok d) : ∃ b, gitIsOk ptr = .ok b := by
  by_cases ho : c = 'o'.toUInt8
  · refine ⟨decide (d = 'k'.toUInt8), CFault.bind_eq_ok.2 ⟨c, hc, ?_⟩⟩
    rw [if_neg (not_not.2 ho)]
    exact CFault.bind_eq_ok.2 ⟨d, hd, rfl⟩
  · exact ⟨false, CFault.bind_eq_ok.2 ⟨c, hc, if_pos ho⟩⟩

/-- A byte is read in front of memory. -/
theorem exists_read_of_mem {ptr : CPtr} (hpos : 0 ≤ ptr.pos) {n : ℕ} {b : UInt8}
    (h : b ∈ (ptr.add n).memory) : ∃ c, ptr.read = .ok c := by
  rw [CPtr.memory_add hpos] at h
  rcases hmem : ptr.memory with - | ⟨c, s⟩
  · rw [hmem, List.drop_nil] at h
    exact absurd h List.not_mem_nil
  · exact ⟨c, CPtr.read_of_memory hmem⟩

theorem exists_reportedName_iff {status : Bool} {text : Bytes} {length : ℤ} :
    (∃ name, reportedName status text length = .ok name) ↔ 0 ∈ text := by
  constructor
  · rintro ⟨name, h⟩
    obtain ⟨line, hline, -⟩ := CFault.bind_eq_ok.1 h
    exact exists_stringAt_iff.1 ⟨line, hline⟩
  · intro h
    obtain ⟨line, hline⟩ := exists_stringAt_iff.2 h
    obtain ⟨rest, hrest⟩ := exists_substr_iff
      (n := if length < 8 then none else some (length - 8).toNat) |>.2 (Nat.zero_le line.length)
    obtain ⟨name, hname⟩ := exists_substr_iff (n := rest.idxOf? ' '.toUInt8) |>.2
      (Nat.zero_le rest.length)
    refine ⟨if status then rest else name, CFault.bind_eq_ok.2 ⟨line, hline,
      CFault.bind_eq_ok.2 ⟨rest, hrest, ?_⟩⟩⟩
    split_ifs
    · rfl
    · exact hname

theorem exists_resultStep_iff {ptr : CPtr} {length : ℤ} (hfield : intLengthField ptr = .ok length)
    (results : OrderedMap Bytes Bool) :
    (∃ results', resultStep ptr length results = .ok results') ↔ ResultFits ptr length := by
  constructor
  · rintro ⟨results', h⟩
    obtain ⟨status, -, h⟩ := CFault.bind_eq_ok.1 h
    obtain ⟨name, hname, -⟩ := CFault.bind_eq_ok.1 h
    exact exists_reportedName_iff.1 ⟨name, hname⟩
  · intro hzero
    have hpos : 0 ≤ ptr.pos := (pos_of_intLengthField hfield).1
    -- the status stands in front of the NUL
    obtain ⟨c, hc⟩ : ∃ c, (ptr.add 4).read = .ok c :=
      exists_read_of_mem (CPtr.pos_add_nonneg hpos 4) (n := 3) (by rwa [CPtr.add_add])
    obtain ⟨d, hd⟩ : ∃ d, ((ptr.add 4).add 1).read = .ok d :=
      exists_read_of_mem (CPtr.pos_add_nonneg (CPtr.pos_add_nonneg hpos 4) 1) (n := 2)
        (by rwa [CPtr.add_add, CPtr.add_add])
    obtain ⟨status, hstatus⟩ := exists_gitIsOk_of_read hc hd
    obtain ⟨name, hname⟩ := exists_reportedName_iff.2 hzero
    exact ⟨_, CFault.bind_eq_ok.2 ⟨status, hstatus, CFault.bind_eq_ok.2 ⟨name, hname, rfl⟩⟩⟩

/-! ### The parsers -/

/-- A C string of at least `cols` bytes is behind the length field. -/
def LineFits (cols : ℕ) (ptr : CPtr) : Prop :=
  0 ∈ (ptr.add 4).memory ∧ cols ≤ (cStr (ptr.add 4).memory).length

theorem exists_line_iff {cols : ℕ} {X : Type} {f : Bytes → Except CFault X}
    (hf : ∀ s, (∃ x, f s = .ok x) ↔ cols ≤ s.length) (ptr : CPtr) :
    (∃ x, (stringAt (ptr.add 4).memory >>= f) = .ok x) ↔ LineFits cols ptr := by
  constructor
  · rintro ⟨x, h⟩
    obtain ⟨s, hs, hx⟩ := CFault.bind_eq_ok.1 h
    have hzero := exists_stringAt_iff.1 ⟨s, hs⟩
    rw [stringAt, if_pos hzero] at hs
    cases hs
    exact ⟨hzero, (hf _).1 ⟨x, hx⟩⟩
  · rintro ⟨hzero, hcols⟩
    obtain ⟨x, hx⟩ := (hf _).2 hcols
    exact ⟨x, CFault.bind_eq_ok.2 ⟨_, if_pos hzero, hx⟩⟩

/-- The references behind a pointer: a first one, if its length field is not zero, and others. An
unreadable length, -1, counts as a first reference, behind which the walk goes on one byte further
back. -/
def RefsFit (ptr : CPtr) : Prop :=
  ∃ length, intLengthField ptr = .ok length ∧ (length ≠ 0 → LineFits 41 ptr) ∧
    Walkable (PacketFits 5 46) (ptr.add length)

/-- What `parseGitPackAdvertisement` needs of a payload. -/
def AdvertisementFits (block : Bytes) : Prop :=
  ∃ length, gitReadLengthField ⟨block, 0⟩ = .ok length ∧
    RefsFit ((CPtr.add ⟨block, 0⟩ length).add 4)

/-- What `parseGitReceivePackRequest` needs of a payload. -/
def CommandsFit (block : Bytes) : Prop :=
  ∃ length, intLengthField ⟨block, 0⟩ = .ok length ∧
    (0 < length → LineFits 82 ⟨block, 0⟩ ∧ Walkable (PacketFits 4 86) (CPtr.add ⟨block, 0⟩ length))

/-- What `initResults` needs of the memory at a pointer. -/
def ResultsFit (ptr : CPtr) : Prop := Walkable ResultFits ptr

/-- What is left of a block is not more than the block. -/
theorem left_lt (ptr : CPtr) : ptr.block.length - ptr.pos.toNat < ptr.block.length + 1 :=
  Nat.lt_succ_of_le (Nat.sub_le _ _)

theorem exists_initOtherRefs_iff (ptr : CPtr) (refs : OrderedMap Bytes Bytes) :
    (∃ refs', initOtherRefs ptr refs = .ok refs') ↔ Walkable (PacketFits 5 46) ptr := by
  rw [initOtherRefs, walkPackets_eq_walk]
  exact exists_walk_iff (fun ptr length refs _ _ ↦
    exists_packetStep_iff exists_addRef_iff ptr length refs) (left_lt ptr) refs

theorem exists_initOtherCommands_iff (ptr : CPtr) (commands : OrderedMap Bytes Bytes) :
    (∃ commands', initOtherCommands ptr commands = .ok commands') ↔
      Walkable (PacketFits 4 86) ptr := by
  rw [initOtherCommands, walkPackets_eq_walk]
  exact exists_walk_iff (fun ptr length commands _ _ ↦
    exists_packetStep_iff exists_addCommand_iff ptr length commands) (left_lt ptr) commands

theorem exists_initResults_iff (ptr : CPtr) (results : OrderedMap Bytes Bool) :
    (∃ results', initResults ptr results = .ok results') ↔ ResultsFit ptr := by
  rw [initResults, initResultsLoop_eq_walk]
  exact exists_walk_iff (fun ptr length results hfield _ ↦
    exists_resultStep_iff hfield results) (left_lt ptr) results

/-- The line that says that there are no references is long enough for one. -/
theorem exists_addFirstRef_iff (refs : OrderedMap Bytes Bytes) (ref : Bytes) :
    (∃ refs', addFirstRef refs ref = .ok refs') ↔ 41 ≤ ref.length := by
  rw [addFirstRef]
  split_ifs with h
  · exact exists_addRef_iff refs ref
  · rw [not_not.1 h]
    exact iff_of_true ⟨refs, rfl⟩ (by decide +kernel)

theorem exists_initRefs_iff (ptr : CPtr) (refs : OrderedMap Bytes Bytes) :
    (∃ refs', initRefs ptr refs = .ok refs') ↔ RefsFit ptr := by
  have hline := exists_line_iff (exists_addFirstRef_iff refs) ptr
  constructor
  · rintro ⟨refs', h⟩
    obtain ⟨⟨ptr', refs₁⟩, hfirst, hother⟩ := CFault.bind_eq_ok.1 h
    obtain ⟨length, hfield, hfirst⟩ := CFault.bind_eq_ok.1 hfirst
    have hwalk := (exists_initOtherRefs_iff ptr' refs₁).1 ⟨refs', hother⟩
    split_ifs at hfirst with hne
    · obtain ⟨ref, href, hfirst⟩ := CFault.bind_eq_ok.1 hfirst
      obtain ⟨refs₂, hadd, heq⟩ := CFault.bind_eq_ok.1 hfirst
      cases heq
      exact ⟨length, hfield, fun _ ↦ hline.1 ⟨_, CFault.bind_eq_ok.2 ⟨ref, href, hadd⟩⟩, hwalk⟩
    · cases hfirst
      exact ⟨length, hfield, fun h ↦ absurd h hne, hwalk⟩
  · rintro ⟨length, hfield, hfirst, hwalk⟩
    by_cases hne : length ≠ 0
    · obtain ⟨refs₁, hrefs₁⟩ := hline.2 (hfirst hne)
      obtain ⟨ref, href, hadd⟩ := CFault.bind_eq_ok.1 hrefs₁
      obtain ⟨refs', hrefs'⟩ := (exists_initOtherRefs_iff (ptr.add length) refs₁).2 hwalk
      refine ⟨refs', CFault.bind_eq_ok.2 ⟨(ptr.add length, refs₁), ?_, hrefs'⟩⟩
      refine CFault.bind_eq_ok.2 ⟨length, hfield, ?_⟩
      rw [if_pos hne]
      exact CFault.bind_eq_ok.2 ⟨ref, href, CFault.bind_eq_ok.2 ⟨refs₁, hadd, rfl⟩⟩
    · obtain ⟨refs', hrefs'⟩ := (exists_initOtherRefs_iff (ptr.add length) refs).2 hwalk
      refine ⟨refs', CFault.bind_eq_ok.2 ⟨(ptr.add length, refs), ?_, hrefs'⟩⟩
      exact CFault.bind_eq_ok.2 ⟨length, hfield, if_neg hne⟩

theorem exists_initCommands_iff (block : Bytes) (commands : OrderedMap Bytes Bytes) :
    (∃ commands', initCommands ⟨block, 0⟩ commands = .ok commands') ↔ CommandsFit block := by
  -- the first line is a C string, which ends in front of the capabilities
  have hline := exists_line_iff (exists_addCommand_iff commands) ⟨block, 0⟩
  constructor
  · rintro ⟨commands', h⟩
    obtain ⟨⟨ptr', commands₁⟩, hfirst, hother⟩ := CFault.bind_eq_ok.1 h
    obtain ⟨length, hfield, hfirst⟩ := CFault.bind_eq_ok.1 hfirst
    have hwalk := (exists_initOtherCommands_iff ptr' commands₁).1 ⟨commands', hother⟩
    refine ⟨length, hfield, fun hpos ↦ ?_⟩
    rw [if_pos hpos] at hfirst
    obtain ⟨cmd, hcmd, hfirst⟩ := CFault.bind_eq_ok.1 hfirst
    obtain ⟨commands₂, hcommands₂, heq⟩ := CFault.bind_eq_ok.1 hfirst
    cases heq
    exact ⟨hline.1 ⟨_, CFault.bind_eq_ok.2 ⟨cmd, hcmd, hcommands₂⟩⟩, hwalk⟩
  · rintro ⟨length, hfield, hrest⟩
    by_cases hpos : 0 < length
    · obtain ⟨hfirst, hwalk⟩ := hrest hpos
      obtain ⟨commands₁, h₁⟩ := hline.2 hfirst
      obtain ⟨cmd, hcmd, hcommands₁⟩ := CFault.bind_eq_ok.1 h₁
      obtain ⟨commands', h'⟩ := (exists_initOtherCommands_iff _ commands₁).2 hwalk
      refine ⟨commands', CFault.bind_eq_ok.2 ⟨(_, commands₁), ?_, h'⟩⟩
      refine CFault.bind_eq_ok.2 ⟨length, hfield, ?_⟩
      rw [if_pos hpos]
      exact CFault.bind_eq_ok.2 ⟨cmd, hcmd, CFault.bind_eq_ok.2 ⟨commands₁, hcommands₁, rfl⟩⟩
    · obtain ⟨commands', h'⟩ := (exists_initOtherCommands_iff ⟨block, 0⟩ commands).2
        (.stop hfield (not_lt.1 hpos))
      refine ⟨commands', CFault.bind_eq_ok.2 ⟨(⟨block, 0⟩, commands), ?_, h'⟩⟩
      exact CFault.bind_eq_ok.2 ⟨length, hfield, if_neg hpos⟩

/-! ### The faults of the parsers -/

theorem onlyPayloadFaults_addRef (refs : OrderedMap Bytes Bytes) (ref : Bytes) :
    OnlyPayloadFaults (addRef refs ref) :=
  .bind (onlyPayloadFaults_substr ref 41 none) fun _ _ ↦
    .bind (onlyPayloadFaults_substr ref 0 (some 40)) fun _ _ ↦ .pure _

theorem onlyPayloadFaults_addCommand (commands : OrderedMap Bytes Bytes) (cmd : Bytes) :
    OnlyPayloadFaults (addCommand commands cmd) :=
  .bind (onlyPayloadFaults_substr cmd 82 none) fun _ _ ↦
    .bind (onlyPayloadFaults_substr cmd 0 (some 81)) fun _ _ ↦ .pure _

theorem onlyPayloadFaults_walkPackets {trim : ℤ}
    {add : OrderedMap Bytes Bytes → Bytes → Except CFault (OrderedMap Bytes Bytes)}
    (hadd : ∀ m data, OnlyPayloadFaults (add m data)) (ptr : CPtr) (m : OrderedMap Bytes Bytes) :
    OnlyPayloadFaults (walkPackets trim add (ptr.block.length + 1) ptr m) := by
  rw [walkPackets_eq_walk]
  refine .walk (fun ptr length m ↦ ?_) (left_lt ptr) m
  exact .bind (onlyPayloadFaults_stringOfLength _ _) fun data _ ↦ hadd m data

theorem onlyPayloadFaults_reportedName (status : Bool) (text : Bytes) (length : ℤ) :
    OnlyPayloadFaults (reportedName status text length) := by
  refine .bind (onlyPayloadFaults_stringAt text) fun line _ ↦ ?_
  refine .bind (onlyPayloadFaults_substr line 0 _) fun rest _ ↦ ?_
  split_ifs
  · exact .pure rest
  · exact onlyPayloadFaults_substr rest 0 _

theorem onlyPayloadFaults_initResults (ptr : CPtr) (results : OrderedMap Bytes Bool) :
    OnlyPayloadFaults (initResults ptr results) := by
  rw [initResults, initResultsLoop_eq_walk]
  refine .walk (fun ptr length results ↦ ?_) (left_lt ptr) results
  exact .bind (onlyPayloadFaults_gitIsOk _) fun status _ ↦
    .bind (onlyPayloadFaults_reportedName status _ length) fun _ _ ↦ .pure _

theorem onlyPayloadFaults_initRefs (ptr : CPtr) (refs : OrderedMap Bytes Bytes) :
    OnlyPayloadFaults (initRefs ptr refs) := by
  refine .bind (.bind (onlyPayloadFaults_intLengthField ptr) fun length _ ↦ ?_) fun first _ ↦
    onlyPayloadFaults_walkPackets onlyPayloadFaults_addRef first.1 first.2
  split_ifs
  · refine .bind (onlyPayloadFaults_stringAt _) fun ref _ ↦ .bind ?_ fun _ _ ↦ .pure _
    rw [addFirstRef]
    split_ifs
    · exact onlyPayloadFaults_addRef refs ref
    · exact .pure refs
  · exact .pure _

theorem onlyPayloadFaults_initCommands (ptr : CPtr) (commands : OrderedMap Bytes Bytes) :
    OnlyPayloadFaults (initCommands ptr commands) := by
  refine .bind (.bind (onlyPayloadFaults_intLengthField ptr) fun length _ ↦ ?_) fun first _ ↦
    onlyPayloadFaults_walkPackets onlyPayloadFaults_addCommand first.1 first.2
  split_ifs
  · exact .bind (onlyPayloadFaults_stringAt _) fun cmd _ ↦
      .bind (onlyPayloadFaults_addCommand commands cmd) fun _ _ ↦ .pure _
  · exact .pure _

/-! ### Payloads -/

/-- The payload of an event is in the block, and has more than four bytes. -/
def HasPayload (event : Event) (block : Bytes) : Prop :=
  ∃ length : ℤ, 4 < length ∧
    event.getParam .http httpHeaderPayload = some ⟨.http, httpHeaderPayload, .bytes block length⟩

theorem HasPayload.getHttpPayload_eq {event : Event} {block : Bytes} (h : HasPayload event block) :
    getHttpPayload event = .ok (some block) := by
  obtain ⟨length, hlength, hparam⟩ := h
  rw [getHttpPayload, hparam]
  exact congrArg Except.ok (if_neg (by omega))

theorem HasPayload.parseGitPackAdvertisement_eq {event : Event} {block : Bytes}
    (h : HasPayload event block) :
    parseGitPackAdvertisement event = (do
      let length ← gitReadLengthField ⟨block, 0⟩
      initRefs ((CPtr.add ⟨block, 0⟩ length).add 4) .empty) := by
  rw [parseGitPackAdvertisement, h.getHttpPayload_eq]
  rfl

theorem HasPayload.parseGitReceivePackRequest_eq {event : Event} {block : Bytes}
    (h : HasPayload event block) :
    parseGitReceivePackRequest event = initCommands ⟨block, 0⟩ .empty := by
  rw [parseGitReceivePackRequest, h.getHttpPayload_eq]
  rfl

/-- **What the parsers need of a payload**: the first lines and the packets that its length fields
lead to fit. -/
theorem parsers_safe_iff {event : Event} {block : Bytes} (h : HasPayload event block) :
    (Safe (parseGitPackAdvertisement event) ↔ AdvertisementFits block) ∧
      (Safe (parseGitReceivePackRequest event) ↔ CommandsFit block) ∧
      ∀ (pos : ℤ) (results : OrderedMap Bytes Bool),
        Safe (initResults ⟨block, pos⟩ results) ↔ ResultsFit ⟨block, pos⟩ := by
  refine ⟨?_, ?_, fun pos results ↦ ?_⟩
  · rw [h.parseGitPackAdvertisement_eq, OnlyPayloadFaults.safe_iff
      (.bind (onlyPayloadFaults_gitReadLengthField _) fun _ _ ↦ onlyPayloadFaults_initRefs _ _)]
    constructor
    · rintro ⟨refs, hrefs⟩
      obtain ⟨length, hfield, hrefs⟩ := CFault.bind_eq_ok.1 hrefs
      exact ⟨length, hfield, (exists_initRefs_iff _ _).1 ⟨refs, hrefs⟩⟩
    · rintro ⟨length, hfield, hfits⟩
      obtain ⟨refs, hrefs⟩ := (exists_initRefs_iff _ .empty).2 hfits
      exact ⟨refs, CFault.bind_eq_ok.2 ⟨length, hfield, hrefs⟩⟩
  · rw [h.parseGitReceivePackRequest_eq, (onlyPayloadFaults_initCommands _ _).safe_iff]
    exact exists_initCommands_iff block .empty
  · rw [(onlyPayloadFaults_initResults _ _).safe_iff]
    exact exists_initResults_iff ⟨block, pos⟩ results

/-- A push from a clone with two shallow commits. -/
def shallowPush : Bytes :=
  ascii "0034shallow " ++ gitZeroId ++ (ascii "0034shallow " ++ gitZeroId) ++
    (ascii "0070" ++ gitZeroId ++ ascii " " ++ gitZeroId ++ ascii " refs/heads/b" ++
      0 :: ascii "report-status") ++ ascii "0000"

/-- The event of a body that was sent in chunks. -/
def chunkedEvent (body : Bytes) : Event :=
  Event.add .empty ⟨.http, httpHeaderPayload, .bytes body body.length⟩

theorem hasPayload_chunkedEvent {body : Bytes} (h : 4 < body.length) :
    HasPayload (chunkedEvent body) body :=
  ⟨body.length, by omega, Event.getParam_add_self _ _⟩

/-- **A line that is no command ends the server**: the second `shallow` line is cut behind its
end. -/
theorem not_parsers_safe_shallowPush :
    ¬ ∀ (event : Event) (block : Bytes), HasPayload event block →
      Safe (parseGitPackAdvertisement event) ∧ Safe (parseGitReceivePackRequest event) := by
  intro h
  have hpayload : HasPayload (chunkedEvent shallowPush) shallowPush :=
    hasPayload_chunkedEvent (by decide +kernel)
  have hsafe := (h _ _ hpayload).2
  rw [hpayload.parseGitReceivePackRequest_eq,
    (onlyPayloadFaults_initCommands _ _).safe_iff] at hsafe
  obtain ⟨commands, hcommands⟩ := hsafe
  have hfault : (initCommands ⟨shallowPush, 0⟩ .empty).toBool = false := by decide +kernel
  rw [hcommands] at hfault
  cases hfault

theorem parsers_safe_shallowPush :
    (Safe (parseGitPackAdvertisement (chunkedEvent shallowPush)) ↔
        AdvertisementFits shallowPush) ∧
      (Safe (parseGitReceivePackRequest (chunkedEvent shallowPush)) ↔ CommandsFit shallowPush) ∧
      ∀ (pos : ℤ) (results : OrderedMap Bytes Bool),
        Safe (initResults ⟨shallowPush, pos⟩ results) ↔ ResultsFit ⟨shallowPush, pos⟩ :=
  parsers_safe_iff (hasPayload_chunkedEvent (by decide +kernel))

end LibSeal
