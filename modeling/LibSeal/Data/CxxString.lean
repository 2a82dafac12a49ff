import LibSeal.Data.Bytes

/-!
# `std::string` operations and the ways a C++ computation fails

The string operations are total functions of the byte string except where the standard makes them
throw; the failures of the surrounding C and C++ code are one type, `CFault`, so that a function is
modelled in `Except CFault` exactly when it can fail.

## Positions

`std::string::find` answers `npos`, the largest `size_t`, when nothing is found. A position is
therefore an `Option ℕ` here, with `none` for `npos`, and the one place where the difference shows
— arithmetic on an unchecked answer, where `npos` wraps around — is `Bytes.posAdd`.
-/

/-- The ways a C++ computation can fail to return a value. -/
inductive CFault where
  /-- `std::out_of_range` is thrown. -/
  | outOfRange
  /-- `std::length_error` is thrown. -/
  | lengthError
  /-- Memory outside an object is read or written. -/
  | outOfBounds
  /-- A null pointer is dereferenced. -/
  | nullDereference
  /-- A value that was never initialised is used. -/
  | uninitialized
  /-- The process is ended. -/
  | exited
  /-- A loop repeats the same state for ever. -/
  | diverged
  /-- A mutex that is never released is waited for. -/
  | blocked
  deriving DecidableEq, Repr

theorem CFault.ok_bind {α β : Type} (a : α) (f : α → Except CFault β) : (.ok a >>= f) = f a := rfl

/-- A computation returns only if all its parts do. -/
theorem CFault.bind_eq_ok {α β : Type} {x : Except CFault α} {f : α → Except CFault β} {b : β} :
    (x >>= f) = .ok b ↔ ∃ a, x = .ok a ∧ f a = .ok b := by
  rcases x with e | a
  · constructor
    · intro h
      exact nomatch h
    · rintro ⟨_, h, -⟩
      exact nomatch h
  · constructor
    · intro h
      exact ⟨a, rfl, h⟩
    · rintro ⟨_, ⟨⟩, h⟩
      exact h

namespace Bytes

/-! ### Searching -/

/-- `s.find(pat)`: the first position at which `pat` occurs. -/
def find (pat : Bytes) : Bytes → Option ℕ
  | [] => if pat.isEmpty then some 0 else none
  | b :: s => if pat.isPrefixOf (b :: s) then some 0 else (find pat s).map (· + 1)

/-- `s.find(pat) == 0`. -/
def startsWith (s pat : Bytes) : Bool := find pat s == some 0

/-- `s.find(pat) != std::string::npos`. -/
def contains (s pat : Bytes) : Bool := (find pat s).isSome

theorem startsWith_iff {s pat : Bytes} : startsWith s pat = true ↔ pat <+: s := by
  cases s with
  | nil => simp [startsWith, find]
  | cons b s =>
    rw [startsWith, find, ← List.isPrefixOf_iff_prefix]
    split
    · next h => simp [h]
    · next h => cases hf : find pat s <;> simp [h]

/-- A string that begins with one pattern does not begin with another, unless one of the patterns
begins with the other. -/
theorem startsWith_eq_false {s p q : Bytes} (h : p <+: s) (hpq : ¬ p <+: q) (hqp : ¬ q <+: p) :
    startsWith s q = false := by
  rw [← Bool.not_eq_true, startsWith_iff]
  intro hq
  rcases List.prefix_or_prefix_of_prefix h hq with hp | hp
  · exact hpq hp
  · exact hqp hp

/-- A pattern without a byte is looked for in front of that byte. -/
theorem startsWith_append_cons {s pat t : Bytes} {b : UInt8} (h : b ∉ pat) :
    startsWith (s ++ b :: t) pat = startsWith s pat := by
  rw [Bool.eq_iff_iff, startsWith_iff, startsWith_iff]
  constructor
  · intro hpat
    rcases List.prefix_or_prefix_of_prefix hpat (List.prefix_append s _) with hp | ⟨r, rfl⟩
    · exact hp
    · rcases r with - | ⟨c, r⟩
      · exact ⟨[], by rw [List.append_nil, List.append_nil]⟩
      · -- the pattern would have to go on with the byte
        obtain ⟨u, hu⟩ := hpat
        rw [List.append_assoc] at hu
        obtain ⟨rfl, -⟩ := List.cons.inj (List.append_cancel_left hu)
        exact absurd (List.mem_append_right _ List.mem_cons_self) h
  · exact fun hp ↦ hp.trans (List.prefix_append _ _)

theorem contains_iff {s pat : Bytes} : contains s pat = true ↔ pat <:+: s := by
  induction s with
  | nil =>
    rw [contains, find, List.infix_nil]
    rcases pat with - | ⟨b, pat⟩ <;> simp
  | cons b s ih =>
    rw [contains] at ih
    rw [contains, find, List.infix_cons_iff, ← List.isPrefixOf_iff_prefix, ← ih]
    split_ifs with hpre
    · simp [hpre]
    · simp [hpre]

theorem find_eq_none_iff {s pat : Bytes} : find pat s = none ↔ ¬ pat <:+: s := by
  rw [← contains_iff, contains, Bool.not_eq_true, Option.isSome_eq_false_iff,
    Option.isNone_iff_eq_none]

/-- What is found at the front. -/
theorem find_append_self (pat t : Bytes) : find pat (pat ++ t) = some 0 := by
  have h : startsWith (pat ++ t) pat = true := startsWith_iff.2 (List.prefix_append _ _)
  simpa [startsWith] using h

/-- Nothing is found behind the end. -/
theorem find_lt {s pat : Bytes} {i : ℕ} (hne : pat ≠ []) (h : find pat s = some i) :
    i < s.length := by
  induction s generalizing i with
  | nil => simp [find, hne] at h
  | cons b s ih =>
    rw [find] at h
    split_ifs at h
    · cases h
      exact Nat.zero_lt_succ _
    · obtain ⟨j, hj, rfl⟩ := Option.map_eq_some_iff.1 h
      exact Nat.succ_lt_succ (ih hj)

/-- **Searching a concatenation**: where no occurrence reaches over the boundary, the first one is
the first in the front part, or else the first in the rest. -/
theorem find_append {pat s t : Bytes}
    (h : ∀ u, u <:+ s → u ≠ [] → pat <+: u ++ t → pat <+: u) :
    find pat (s ++ t) = (find pat s).or ((find pat t).map (· + s.length)) := by
  induction s with
  | nil =>
    rw [List.nil_append, find]
    split_ifs with hnil
    · rw [List.isEmpty_iff.1 hnil]
      cases t <;> rfl
    · simp
  | cons b s ih =>
    have ih := ih fun u hu ↦ h u (hu.trans (List.suffix_cons b s))
    rw [List.cons_append, find, find]
    by_cases hpre : pat <+: b :: s
    · have hpre' : pat <+: b :: (s ++ t) := hpre.trans (List.prefix_append (b :: s) t)
      rw [if_pos (List.isPrefixOf_iff_prefix.2 hpre), if_pos (List.isPrefixOf_iff_prefix.2 hpre')]
      rfl
    · have hpre' : ¬ pat <+: b :: (s ++ t) := fun hp ↦
        hpre (h (b :: s) List.suffix_rfl (List.cons_ne_nil b s) hp)
      rw [if_neg (List.isPrefixOf_iff_prefix.not.2 hpre),
        if_neg (List.isPrefixOf_iff_prefix.not.2 hpre'), ih]
      rcases find pat s with - | i
      · simp [Option.map_map, Function.comp_def, Nat.add_assoc]
      · rfl

/-- A pattern without a byte does not reach over it. -/
theorem prefix_append_cons_iff {pat s t : Bytes} {b : UInt8} (h : b ∉ pat) :
    pat <+: s ++ b :: t ↔ pat <+: s := by
  rw [← startsWith_iff, ← startsWith_iff, startsWith_append_cons h]

/-- Searching on both sides of a byte that the pattern does not have. -/
theorem find_append_cons {pat s t : Bytes} {b : UInt8} (h : b ∉ pat) (hne : pat ≠ []) :
    find pat (s ++ b :: t) = (find pat s).or ((find pat t).map (· + (s.length + 1))) := by
  have hb : find pat (b :: t) = (find pat t).map (· + 1) := by
    rw [find, if_neg]
    rw [List.isPrefixOf_iff_prefix]
    rintro ⟨r, hr⟩
    rcases pat with - | ⟨c, pat⟩
    · exact hne rfl
    · cases hr
      exact h List.mem_cons_self
  rw [find_append fun u _ _ hp ↦ (prefix_append_cons_iff h).1 hp, hb, Option.map_map]
  simp only [Function.comp_def, Nat.add_assoc, Nat.add_comm 1]

/-- The first occurrence of a byte, when nothing before it equals it. -/
theorem idxOf?_append_cons {s : Bytes} {b : UInt8} (h : b ∉ s) (t : Bytes) :
    (s ++ b :: t).idxOf? b = some s.length := by
  induction s with
  | nil => simp [List.idxOf?_cons]
  | cons c s ih =>
    have hc : (c == b) = false := by
      simpa using fun hcb : c = b ↦ h (hcb ▸ List.mem_cons_self)
    rw [List.cons_append, List.idxOf?_cons, hc, ih (fun hm ↦ h (List.mem_cons_of_mem _ hm))]
    rfl

/-! ### Substrings -/

/-- `size_t` arithmetic on the answer of a search: `npos` is the largest `size_t`, so adding to it
wraps around. -/
def posAdd : Option ℕ → ℕ → ℕ
  | some i, k => i + k
  | none, k => k - 1

/-- `s.substr(pos, n)`, with `none` for a count of `npos`. -/
def substr (s : Bytes) (pos : ℕ) (n : Option ℕ) : Except CFault Bytes :=
  if s.length < pos then .error .outOfRange
  else match n with
    | some n => .ok ((s.drop pos).take n)
    | none => .ok (s.drop pos)

/-- Cutting at a boundary of a concatenation takes the middle piece. -/
theorem substr_append_append (s t u : Bytes) :
    substr (s ++ t ++ u) s.length (some t.length) = .ok t := by
  rw [substr, if_neg (by simp only [List.length_append]; omega)]
  simp

/-- Cutting at a boundary of a concatenation leaves the rest. -/
theorem substr_append_none (s t : Bytes) : substr (s ++ t) s.length none = .ok t := by
  rw [substr, if_neg (by simp only [List.length_append]; omega)]
  simp

/-! ### Building strings from memory -/

/-- `std::string(p)`: the C string at `p`. Without a terminator in the object the read runs past its
end. -/
def stringAt (p : Bytes) : Except CFault Bytes :=
  if 0 ∈ p then .ok (cStr p) else .error .outOfBounds

/-- `std::string(p, n)`: `n` bytes from `p`. A negative count, converted to `size_t`, is larger than
any string can be. -/
def stringOfLength (p : Bytes) (n : ℤ) : Except CFault Bytes :=
  if n < 0 then .error .lengthError
  else if p.length < n.toNat then .error .outOfBounds
  else .ok (p.take n.toNat)

theorem stringAt_append_zero {s : Bytes} (h : 0 ∉ s) (t : Bytes) :
    stringAt (s ++ 0 :: t) = .ok s := by
  rw [stringAt, if_pos (by simp), cStr_append_zero h]

theorem stringOfLength_append (s t : Bytes) : stringOfLength (s ++ t) s.length = .ok s := by
  rw [stringOfLength, if_neg (by omega), if_neg (by simp)]
  simp

/-! ### Narrowing conversions -/

/-- The conversion of an integer to a 32-bit `int`: its residue modulo `2 ^ 32`, read in two's
complement. -/
def toInt32 (n : ℤ) : ℤ :=
  if n % 4294967296 < 2147483648 then n % 4294967296 else n % 4294967296 - 4294967296

theorem toInt32_eq_self {n : ℤ} (h0 : 0 ≤ n) (h : n < 2147483648) : toInt32 n = n := by
  rw [toInt32, if_pos (by omega)]
  omega

/-- The conversion keeps the residue modulo `2 ^ 32`, and nothing else. -/
theorem toInt32_eq_iff {m n : ℤ} : toInt32 m = toInt32 n ↔ m % 4294967296 = n % 4294967296 := by
  constructor
  · intro h
    rw [toInt32, toInt32] at h
    split_ifs at h <;> omega
  · intro h
    rw [toInt32, toInt32, h]

theorem toInt32_of_lt {n : ℕ} (h : n < 2147483648) : toInt32 n = n :=
  toInt32_eq_self (Int.natCast_nonneg n) (by omega)

end Bytes
