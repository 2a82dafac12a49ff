import Mathlib.Data.List.Induction
import Mathlib.Data.Set.Function

/-!
# Hash chains

A hash chain folds a list of entries into one digest, its **head**: from a start value, each entry
is linked to the head so far (`link`), and the digest of the linked message becomes the new head.

## Tamper evidence

Two histories with the same head are equal (`eq_of_head_eq`). The argument walks both chains
backwards and rests on three facts, kept apart because they come from different places:

* the hash has no collision **on the messages the two chains hash** — the cryptographic assumption,
  asked of those messages and of no others;
* `link` can be taken apart again on heads that occur (`LinkInjective`) — a property of the message
  format;
* no digest is the start value (`hstart`) — without it a chain could be extended in front.

## Verification

`Linked` is what a verifier checks of a stored log: every stored digest is the digest of its entry
linked to the stored digest before it. It is kept by appending (`Linked.concat`), and a log that
passes ends in the head of its entries (`Linked.eq_head`).
-/

namespace HashChain

variable {M D X : Type*} (H : M → D) (link : D → X → M) (d₀ : D)

/-- The head after a list of entries. -/
def head (xs : List X) : D := xs.foldl (fun d x ↦ H (link d x)) d₀

/-- The messages hashed on the way to the head. -/
def messages : List X → D → List M
  | [], _ => []
  | x :: xs, d => link d x :: messages xs (H (link d x))

@[simp] theorem head_nil : head H link d₀ [] = d₀ := rfl

theorem head_cons (x : X) (xs : List X) :
    head H link d₀ (x :: xs) = head H link (H (link d₀ x)) xs := rfl

@[simp]
theorem head_concat (xs : List X) (x : X) :
    head H link d₀ (xs ++ [x]) = H (link (head H link d₀ xs) x) := by
  simp [head]

theorem messages_concat (xs : List X) (x : X) :
    messages H link (xs ++ [x]) d₀ = messages H link xs d₀ ++ [link (head H link d₀ xs) x] := by
  induction xs generalizing d₀ with
  | nil => rfl
  | cons y ys ih => simp [messages, ih, head_cons]

/-- The values a head can take: the start value, and digests. -/
def IsHead (d : D) : Prop := d = d₀ ∨ ∃ m, H m = d

theorem isHead_head (xs : List X) : IsHead H d₀ (head H link d₀ xs) := by
  induction xs using List.reverseRecOn with
  | nil => exact Or.inl rfl
  | append_singleton xs x _ => exact Or.inr ⟨_, (head_concat H link d₀ xs x).symm⟩

/-- Linked messages can be taken apart: on values that are heads, the message determines both the
head it extends and the entry it adds. -/
def LinkInjective : Prop :=
  ∀ ⦃d e : D⦄ ⦃x y : X⦄, IsHead H d₀ d → IsHead H d₀ e → link d x = link e y → d = e ∧ x = y

variable {H link d₀}

/-- **Tamper evidence.** Two histories with the same head are the same history. -/
theorem eq_of_head_eq (hlink : LinkInjective H link d₀) (hstart : ∀ m, H m ≠ d₀)
    {xs ys : List X}
    (hinj : ∀ m ∈ messages H link xs d₀, ∀ n ∈ messages H link ys d₀, H m = H n → m = n)
    (h : head H link d₀ xs = head H link d₀ ys) : xs = ys := by
  induction xs using List.reverseRecOn generalizing ys with
  | nil =>
    rcases ys.eq_nil_or_concat with rfl | ⟨ys', y, rfl⟩
    · rfl
    · rw [List.concat_eq_append, head_concat] at h
      exact absurd h.symm (hstart _)
  | append_singleton xs x ih =>
    rcases ys.eq_nil_or_concat with rfl | ⟨ys', y, rfl⟩
    · rw [head_concat] at h
      exact absurd h (hstart _)
    · rw [List.concat_eq_append] at h hinj ⊢
      simp only [messages_concat] at hinj
      -- the last messages collide, so they are one message
      have hlast : link (head H link d₀ xs) x = link (head H link d₀ ys') y := by
        refine hinj _ (by simp) _ (by simp) ?_
        simpa only [head_concat] using h
      obtain ⟨hhead, rfl⟩ :=
        hlink (isHead_head H link d₀ xs) (isHead_head H link d₀ ys') hlast
      rw [ih (fun m hm n hn ↦ hinj m (List.mem_append_left _ hm) n (List.mem_append_left _ hn))
        hhead]

/-! ### Stored chains -/

variable (H link)

/-- What a verifier checks of a stored log, from the digest `d` before its first row: every row
carries the digest of its entry linked to the digest before it, and the last digest is `e`. -/
def Linked : D → List (X × D) → D → Prop
  | d, [], e => d = e
  | d, (x, h) :: rows, e => h = H (link d x) ∧ Linked h rows e

theorem Linked.concat {d e : D} {rows : List (X × D)} (h : Linked H link d rows e) (x : X) :
    Linked H link d (rows ++ [(x, H (link e x))]) (H (link e x)) := by
  induction rows generalizing d with
  | nil => cases h; exact ⟨rfl, rfl⟩
  | cons r rows ih => exact ⟨h.1, ih h.2⟩

/-- A log that passes verification ends in the head of its entries. -/
theorem Linked.eq_head {d e : D} {rows : List (X × D)} (h : Linked H link d rows e) :
    e = head H link d (rows.map Prod.fst) := by
  induction rows generalizing d with
  | nil => exact Eq.symm h
  | cons r rows ih =>
    obtain ⟨x, c⟩ := r
    obtain ⟨rfl, h'⟩ := h
    exact ih h'

/-- A log that passes verification passes it up to any of its rows. -/
theorem Linked.take {d e : D} {rows : List (X × D)} (h : Linked H link d rows e) (k : ℕ) :
    ∃ e', Linked H link d (rows.take k) e' := by
  induction rows generalizing d k with
  | nil => exact ⟨d, by rw [List.take_nil]; rfl⟩
  | cons r rows ih =>
    cases k with
    | zero => exact ⟨d, rfl⟩
    | succ k =>
      obtain ⟨e', he'⟩ := ih h.2 k
      exact ⟨e', h.1, he'⟩

end HashChain
