import Mathlib.Data.List.GetD
import Mathlib.Data.Nat.Notation

/-!
# Messages on a byte stream

A stream that carries messages of one length `L`, the `r`-th of which is `m r`, one behind the other
and without anything in between. Nothing on the stream says where a message begins; what somebody
takes off it is a part between two offsets (`Wire.part`), and parts that follow each other make a
longer one (`part_append`). A part within one message is cut out of that message (`part_within`).

What is in flight between two ends of a stream is the part between what has been taken off and what
has been put on it (`InFlight`).
-/

namespace Wire

variable {α : Type*} [Inhabited α]

/-- The element at an offset. -/
def item (L : ℕ) (m : ℕ → List α) (a : ℕ) : α := (m (a / L)).getD (a % L) default

/-- The part of the stream from the offset `a` up to the offset `b`. -/
def part (L : ℕ) (m : ℕ → List α) (a b : ℕ) : List α := (List.range' a (b - a)).map (item L m)

variable {L : ℕ} {m : ℕ → List α} {a b c : ℕ}

@[simp] theorem length_part : (part L m a b).length = b - a := by
  rw [part, List.length_map, List.length_range']

@[simp] theorem part_self : part L m a a = [] := by
  rw [part, Nat.sub_self]
  rfl

theorem part_append (hab : a ≤ b) (hbc : b ≤ c) :
    part L m a b ++ part L m b c = part L m a c := by
  have hrange : List.range' a (c - a) = List.range' a (b - a) ++ List.range' b (c - b) := by
    rw [show c - a = (b - a) + (c - b) by omega, ← List.range'_append_1]
    congr 2
    omega
  rw [part, part, part, ← List.map_append, hrange]

/-- What is taken off the front of a part. -/
theorem take_part {n : ℕ} (h : a + n ≤ b) : (part L m a b).take n = part L m a (a + n) := by
  rw [← part_append (Nat.le_add_right a n) h, List.take_left']
  rw [length_part]
  omega

theorem drop_part {n : ℕ} (h : a + n ≤ b) : (part L m a b).drop n = part L m (a + n) b := by
  rw [← part_append (Nat.le_add_right a n) h, List.drop_left']
  rw [length_part]
  omega

/-- **A part within one message** is cut out of that message. -/
theorem part_within {r t n : ℕ} (hm : (m r).length = L) (h : t + n ≤ L) :
    part L m (L * r + t) (L * r + t + n) = ((m r).drop t).take n := by
  refine List.ext_getElem ?_ fun j h₁ h₂ ↦ ?_
  · rw [length_part, List.length_take, List.length_drop, hm]
    omega
  · have hj : j < n := by simpa using h₁
    have hdiv : (L * r + t + j) / L = r := by
      rw [Nat.add_assoc, Nat.mul_add_div (by omega), Nat.div_eq_of_lt (by omega), Nat.add_zero]
    have hmod : (L * r + t + j) % L = t + j := by
      rw [Nat.add_assoc, Nat.mul_add_mod, Nat.mod_eq_of_lt (by omega)]
    simp only [part, List.getElem_map, List.getElem_range', Nat.one_mul, item, hdiv, hmod,
      List.getElem_take, List.getElem_drop]
    rw [List.getD_eq_getElem _ _ (by rw [hm]; omega)]

/-- A whole message. -/
theorem part_message {r : ℕ} (hm : (m r).length = L) :
    part L m (L * r) (L * (r + 1)) = m r := by
  have h := part_within (t := 0) hm (Nat.le_of_eq (Nat.zero_add L))
  rw [List.drop_zero, ← hm, List.take_length, hm] at h
  rw [Nat.mul_succ]
  exact h

/-! ### What is in flight -/

/-- A queue holds what has been put on the stream, up to the offset `b`, and not yet been taken off,
up to the offset `a`. -/
structure InFlight (L : ℕ) (m : ℕ → List α) (a b : ℕ) (queue : List α) : Prop where
  le : a ≤ b
  eq : queue = part L m a b

namespace InFlight

variable {queue : List α} {n : ℕ}

theorem nil : InFlight L m a a ([] : List α) := ⟨Nat.le_refl a, part_self.symm⟩

theorem length_add (h : InFlight L m a b queue) : queue.length + a = b := by
  have hle := h.le
  rw [h.eq, length_part]
  omega

theorem ne_nil_iff (h : InFlight L m a b queue) : queue ≠ [] ↔ a < b := by
  have hlength := h.length_add
  rw [← List.length_pos_iff]
  omega

/-- The next part is put on. -/
theorem push (h : InFlight L m a b queue) {new : List α} (hnew : new = part L m b (b + n)) :
    InFlight L m a (b + n) (queue ++ new) := by
  refine ⟨Nat.le_add_right_of_le h.le, ?_⟩
  rw [h.eq, hnew, part_append h.le (Nat.le_add_right b n)]

/-- Some of it is taken off. -/
theorem pop (h : InFlight L m a b queue) (hn : n ≤ queue.length) :
    InFlight L m (a + n) b (queue.drop n) := by
  have hlength := h.length_add
  refine ⟨by omega, ?_⟩
  rw [h.eq, drop_part (by omega)]

theorem take_eq (h : InFlight L m a b queue) (hn : n ≤ queue.length) :
    queue.take n = part L m a (a + n) := by
  have hlength := h.length_add
  rw [h.eq, take_part (by omega)]

end InFlight

end Wire
