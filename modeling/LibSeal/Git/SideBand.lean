import LibSeal.Data.Loop
import LibSeal.Git.Pack

/-!
# Skipping the other side bands

Before the report of a push a server may send packets for the user. `parseGitReceivePackResult`
skips packets until the byte behind a length field is 1, the side band of the report. The loop has
no other exit: it looks neither at the end of the payload nor for a length of zero, for which the
loops over the other packets look (`0 < length`).

So a `0000` in front of the report is skipped for ever (`not_ends_skipRound_iff`), and a payload
without a report is left at its end. The loop does what it is for exactly if the length fields lead
to a report (`skips_iff`).
-/

namespace LibSeal

/-- A round of the loop of `parseGitReceivePackResult`: `while (*(ptr + 4) != 0x01)`. -/
def skipRound (ptr : CPtr) : Except CFault (CPtr ⊕ CPtr) := do
  let band ← (ptr.add 4).read
  if band ≠ 1 then
    let length ← gitReadLengthField ptr
    return .inl (ptr.add length)
  else return .inr ptr

/-- The rounds are those of `skipInformation`. -/
theorem skipInformation_eq_run (fuel : ℕ) (ptr : CPtr) :
    skipInformation fuel ptr = (Loop.run skipRound fuel ptr).getD (.error .diverged) := by
  induction fuel generalizing ptr with
  | zero => rfl
  | succ fuel ih =>
    rw [skipInformation, Loop.run, skipRound]
    rcases (ptr.add 4).read with f | band
    · rfl
    · simp only [bind, Except.bind]
      split_ifs
      · rcases gitReadLengthField ptr with f | length
        · rfl
        · exact ih (ptr.add length)
      · rfl

/-! ### Packets for the user -/

/-- The packet at `p` is for the user, and its length field leads to `q`. -/
structure UserPacket (block : Bytes) (p q : ℕ) : Prop where
  band : ∃ b, block[p + 4]? = some b ∧ b ≠ 1
  length : ∃ length, hexToInt (block.drop p) 4 = .ok length ∧ 0 < length ∧ q = p + length

/-- The packet at `p` is for the user, and its length field is zero. -/
structure EmptyUserPacket (block : Bytes) (p : ℕ) : Prop where
  band : ∃ b, block[p + 4]? = some b ∧ b ≠ 1
  length : hexToInt (block.drop p) 4 = .ok 0

/-- A report begins within the first `n` bytes, behind packets for the user. -/
def HasReport (block : Bytes) (n : ℕ) : Prop :=
  ∃ p < n, Relation.ReflTransGen (UserPacket block) 0 p ∧ block[p + 4]? = some 1

/-- The loop ends with its pointer inside the payload, the first `n` bytes of a block. -/
def Skips (block : Bytes) (n : ℕ) : Prop :=
  ∃ rounds p, Loop.run skipRound rounds ⟨block, 0⟩ = some (.ok ⟨block, p⟩) ∧ 0 ≤ p ∧ p < n

/-! ### One round -/

theorem read_add_four (block : Bytes) (p : ℕ) :
    (CPtr.add ⟨block, p⟩ 4).read =
      match block[p + 4]? with
      | none => .error .outOfBounds
      | some b => .ok b := by
  have hmem : (CPtr.add ⟨block, p⟩ 4).memory = block.drop (p + 4) :=
    if_neg (not_lt.2 (CPtr.pos_add_nonneg (Int.natCast_nonneg p) 4))
  rw [CPtr.read, hmem]
  rcases h : block[p + 4]? with - | b
  · rw [List.drop_eq_nil_of_le (List.getElem?_eq_none_iff.1 h)]
  · obtain ⟨hlt, rfl⟩ := List.getElem?_eq_some_iff.1 h
    rw [List.drop_eq_getElem_cons hlt]

/-- What a round does at a position of the block. -/
theorem skipRound_of_getElem? (block : Bytes) (p : ℕ) :
    skipRound ⟨block, p⟩ =
      match block[p + 4]? with
      | none => .error .outOfBounds
      | some b => if b ≠ 1 then
            (hexToInt (block.drop p) 4).map fun length ↦ .inl ⟨block, ↑(p + length)⟩
          else .ok (.inr ⟨block, p⟩) := by
  have hfield : gitReadLengthField ⟨block, p⟩ = hexToInt (block.drop p) 4 := by
    rw [gitReadLengthField, CPtr.memory, if_neg (by simp)]
    rfl
  rw [skipRound, read_add_four, hfield]
  rcases block[p + 4]? with - | b
  · rfl
  · simp only [bind, Except.bind]
    split_ifs
    · rcases hexToInt (block.drop p) 4 with f | length
      · rfl
      · show Except.ok (Sum.inl (CPtr.mk block (p + length))) = _
        rw [← Int.natCast_add]
        rfl
    · rfl

/-- A round leaves the loop at a report. -/
theorem skipRound_eq_inr_iff {block : Bytes} {p : ℕ} {ptr : CPtr} :
    skipRound ⟨block, p⟩ = .ok (.inr ptr) ↔ block[p + 4]? = some 1 ∧ ptr = ⟨block, p⟩ := by
  rw [skipRound_of_getElem?]
  rcases block[p + 4]? with - | b
  · simp
  · dsimp only
    split_ifs with hb
    · rcases hexToInt (block.drop p) 4 with f | length <;> simp [Except.map, hb]
    · rw [not_not.1 hb]
      simp [eq_comm]

/-- A round goes on behind a packet for the user, or stays at an empty one. -/
theorem goes_skipRound_iff {block : Bytes} {p : ℕ} {ptr : CPtr} :
    Loop.Goes skipRound ⟨block, p⟩ ptr ↔
      (∃ q, UserPacket block p q ∧ ptr = ⟨block, q⟩) ∨
        EmptyUserPacket block p ∧ ptr = ⟨block, p⟩ := by
  rw [Loop.Goes, skipRound_of_getElem?]
  constructor
  · intro h
    rcases hband : block[p + 4]? with - | b
    · rw [hband] at h
      exact absurd h (by simp)
    · rw [hband] at h
      dsimp only at h
      split_ifs at h with hb
      · rcases hfield : hexToInt (block.drop p) 4 with f | length
        · rw [hfield] at h
          exact absurd h (by simp [Except.map])
        · rw [hfield] at h
          cases h
          rcases Nat.eq_zero_or_pos length with rfl | hpos
          · exact Or.inr ⟨⟨⟨b, hband, hb⟩, hfield⟩, rfl⟩
          · exact Or.inl ⟨_, ⟨⟨b, hband, hb⟩, length, hfield, hpos, rfl⟩, rfl⟩
      · exact absurd h (by simp)
  · rintro (⟨q, ⟨⟨b, hband, hb⟩, length, hfield, -, rfl⟩, rfl⟩ | ⟨⟨⟨b, hband, hb⟩, hfield⟩, rfl⟩)
    · rw [hband, hfield]
      exact if_pos hb
    · rw [hband, hfield]
      exact if_pos hb

/-! ### The loop -/

/-- The packets for the user are skipped. -/
theorem reflTransGen_goes_of_userPacket {block : Bytes} {p q : ℕ}
    (h : Relation.ReflTransGen (UserPacket block) p q) :
    Relation.ReflTransGen (Loop.Goes skipRound) ⟨block, p⟩ ⟨block, q⟩ := by
  induction h with
  | refl => exact .refl
  | tail _ hlast ih => exact ih.tail (goes_skipRound_iff.2 (Or.inl ⟨_, hlast, rfl⟩))

/-- The rounds lead along packets for the user only. -/
theorem exists_userPacket_of_goes {block : Bytes} {p : ℕ} {ptr : CPtr}
    (h : Relation.ReflTransGen (Loop.Goes skipRound) ⟨block, p⟩ ptr) :
    ∃ q : ℕ, ptr = ⟨block, q⟩ ∧ Relation.ReflTransGen (UserPacket block) p q := by
  induction h with
  | refl => exact ⟨p, rfl, .refl⟩
  | tail _ hlast ih =>
    obtain ⟨q, rfl, hreach⟩ := ih
    rcases goes_skipRound_iff.1 hlast with ⟨r, hpacket, rfl⟩ | ⟨-, rfl⟩
    · exact ⟨r, rfl, hreach.tail hpacket⟩
    · exact ⟨q, rfl, hreach⟩

/-- **The loop finds the report exactly if there is one**: if the length fields lead from the first
packet over packets for the user to one on side band 1. -/
theorem skips_iff (block : Bytes) (n : ℕ) : Skips block n ↔ HasReport block n := by
  constructor
  · rintro ⟨rounds, p, hrun, hpos, hlt⟩
    obtain ⟨ptr, hreach, hleave⟩ := Loop.exists_run_iff.1 ⟨rounds, hrun⟩
    obtain ⟨q, rfl, hpackets⟩ := exists_userPacket_of_goes hreach
    obtain ⟨hband, heq⟩ := skipRound_eq_inr_iff.1 hleave
    obtain rfl : p = q := congrArg CPtr.pos heq
    exact ⟨q, by omega, hpackets, hband⟩
  · rintro ⟨p, hlt, hpackets, hband⟩
    obtain ⟨rounds, hrun⟩ := Loop.exists_run_iff.2
      ⟨_, reflTransGen_goes_of_userPacket hpackets, skipRound_eq_inr_iff.2 ⟨hband, rfl⟩⟩
    exact ⟨rounds, p, hrun, Int.natCast_nonneg p, by omega⟩

/-- **A reply that stops the server**: the `0000` in front of the report is skipped for ever. -/
theorem not_skips_flushPkt :
    ¬ ∀ (block : Bytes) (n : ℕ), 4 < n → n ≤ block.length → Skips block n := by
  intro h
  obtain ⟨rounds, p, hrun, -⟩ := h (Bytes.ascii "0000" ++ [2]) 5 (by decide) (by decide)
  have hstuck : Loop.Goes skipRound ⟨Bytes.ascii "0000" ++ [2], 0⟩ ⟨_, 0⟩ :=
    goes_skipRound_iff.2 (Or.inr ⟨⟨⟨2, rfl, by decide⟩, rfl⟩, rfl⟩)
  rw [Loop.run_of_stuck hstuck] at hrun
  exact absurd hrun (by simp)

/-- **The loop ends on every other reply**: only a packet for the user of length zero keeps it. -/
theorem not_ends_skipRound_iff (block : Bytes) :
    ¬ Loop.Ends skipRound ⟨block, 0⟩ ↔
      ∃ p, Relation.ReflTransGen (UserPacket block) 0 p ∧ EmptyUserPacket block p := by
  have hbody : ∀ s s', (∃ p : ℕ, s = CPtr.mk block p) → Loop.Goes skipRound s s' →
      (∃ p : ℕ, s' = CPtr.mk block p) ∧
        (s' = s ∨ block.length - s'.pos.toNat < block.length - s.pos.toNat) := by
    rintro s s' ⟨p, rfl⟩ hgoes
    rcases goes_skipRound_iff.1 hgoes with ⟨q, ⟨⟨b, hband, -⟩, hlength⟩, rfl⟩ | ⟨-, rfl⟩
    · obtain ⟨length, -, hpos, rfl⟩ := hlength
      -- the band has been read, so the packet begins inside the block
      obtain ⟨hlt, -⟩ := List.getElem?_eq_some_iff.1 hband
      refine ⟨⟨_, rfl⟩, Or.inr ?_⟩
      simp only [Int.toNat_natCast]
      omega
    · exact ⟨⟨p, rfl⟩, Or.inl rfl⟩
  rw [Loop.not_ends_iff_of_measure (fun s ↦ block.length - s.pos.toNat) hbody ⟨0, rfl⟩]
  constructor
  · rintro ⟨s, hreach, hstuck⟩
    obtain ⟨p, rfl, hpackets⟩ := exists_userPacket_of_goes hreach
    rcases goes_skipRound_iff.1 hstuck with ⟨q, ⟨-, length, -, hpos, rfl⟩, heq⟩ | ⟨hempty, -⟩
    · have hpos_eq : (↑p : ℤ) = ↑(p + length) := congrArg CPtr.pos heq
      omega
    · exact ⟨p, hpackets, hempty⟩
  · rintro ⟨p, hpackets, hempty⟩
    exact ⟨_, reflTransGen_goes_of_userPacket hpackets,
      goes_skipRound_iff.2 (Or.inr ⟨hempty, rfl⟩)⟩

end LibSeal
