import Mathlib.Data.List.Perm.Basic
import Mathlib.Order.Lattice

/-!
# Ordered maps

`OrderedMap κ α` is the observable behaviour of `std::map`: a finite map over a linear order that is
iterated in increasing key order. It is the list of its entries together with the proof that the
keys increase strictly, so an ill-sorted map or one with a repeated key cannot be built, and two
maps with the same entries are equal.

Two facts carry the uses of such a map as a *collector* — a loop assigns to it, another loop reads
it out:

* `get?_insert` — lookup after an assignment;
* `toList_perm_of_nodup` — assigning pairwise distinct keys and reading the map out yields a
  permutation of what was assigned, and `sorted` says which.
-/

variable {κ α β : Type*} [LinearOrder κ]

/-- A finite map, as the list of its entries in strictly increasing key order. -/
structure OrderedMap (κ α : Type*) [LinearOrder κ] where
  /-- The entries, in iteration order. -/
  toList : List (κ × α)
  /-- Iteration goes through the keys in strictly increasing order. -/
  sorted : toList.Pairwise fun p q ↦ p.1 < q.1

namespace OrderedMap

@[ext]
theorem ext {m n : OrderedMap κ α} (h : m.toList = n.toList) : m = n := by
  cases m; cases n; cases h; rfl

/-- The empty map. -/
def empty : OrderedMap κ α := ⟨[], List.Pairwise.nil⟩

@[simp] theorem toList_empty : (empty : OrderedMap κ α).toList = [] := rfl

/-! ### Assignment -/

/-- Assignment on a list of entries: replace the entry with this key, or put a new one in its
place. -/
def insertEntry (k : κ) (v : α) : List (κ × α) → List (κ × α)
  | [] => [(k, v)]
  | p :: l =>
    if k < p.1 then (k, v) :: p :: l
    else if k = p.1 then (k, v) :: l
    else p :: insertEntry k v l

theorem mem_insertEntry_key {k : κ} {v : α} {l : List (κ × α)} {p : κ × α}
    (h : p ∈ insertEntry k v l) : p = (k, v) ∨ p ∈ l := by
  induction l with
  | nil => exact Or.inl (List.mem_singleton.1 h)
  | cons q l ih =>
    rw [insertEntry] at h
    split_ifs at h
    · rcases List.mem_cons.1 h with rfl | h'
      · exact Or.inl rfl
      · exact Or.inr h'
    · rcases List.mem_cons.1 h with rfl | h'
      · exact Or.inl rfl
      · exact Or.inr (List.mem_cons_of_mem _ h')
    · rcases List.mem_cons.1 h with rfl | h'
      · exact Or.inr List.mem_cons_self
      · exact (ih h').imp id (List.mem_cons_of_mem _)

theorem pairwise_insertEntry {k : κ} {v : α} {l : List (κ × α)}
    (hl : l.Pairwise fun p q ↦ p.1 < q.1) :
    (insertEntry k v l).Pairwise fun p q ↦ p.1 < q.1 := by
  induction l with
  | nil => exact List.pairwise_singleton _ _
  | cons p l ih =>
    obtain ⟨hp, hl'⟩ := List.pairwise_cons.1 hl
    rw [insertEntry]
    split_ifs with hlt heq
    · refine List.pairwise_cons.2 ⟨fun q hq ↦ ?_, hl⟩
      rcases List.mem_cons.1 hq with rfl | hq'
      · exact hlt
      · exact hlt.trans (hp q hq')
    · exact List.pairwise_cons.2 ⟨fun q hq ↦ heq ▸ hp q hq, hl'⟩
    · refine List.pairwise_cons.2 ⟨fun q hq ↦ ?_, ih hl'⟩
      rcases mem_insertEntry_key hq with rfl | hq'
      · exact lt_of_le_of_ne (not_lt.1 hlt) (Ne.symm heq)
      · exact hp q hq'

/-- `m[k] = v`. -/
def insert (m : OrderedMap κ α) (k : κ) (v : α) : OrderedMap κ α :=
  ⟨insertEntry k v m.toList, pairwise_insertEntry m.sorted⟩

/-! ### Lookup -/

/-- `m.find(k)`. -/
def get? (m : OrderedMap κ α) (k : κ) : Option α :=
  (m.toList.find? fun p ↦ p.1 = k).map Prod.snd

@[simp] theorem get?_empty (k : κ) : (empty : OrderedMap κ α).get? k = none := rfl

theorem find?_insertEntry {k k' : κ} {v : α} {l : List (κ × α)} :
    (insertEntry k v l).find? (fun p ↦ p.1 = k') =
      if k = k' then some (k, v) else l.find? fun p ↦ p.1 = k' := by
  induction l with
  | nil => by_cases h : k = k' <;> simp [insertEntry, h]
  | cons p l ih =>
    rw [insertEntry]
    by_cases hlt : k < p.1
    · rw [if_pos hlt]
      by_cases hkk : k = k' <;> simp [List.find?_cons, hkk]
    · rw [if_neg hlt]
      by_cases heq : k = p.1
      · -- the entry replaced had the key assigned
        rw [if_pos heq]
        by_cases hkk : k = k'
        · simp [hkk]
        · simp [hkk, show p.1 ≠ k' from heq ▸ hkk]
      · rw [if_neg heq]
        by_cases hkk : k = k'
        · have hpk : p.1 ≠ k' := fun h ↦ heq (hkk.trans h.symm)
          rw [List.find?_cons_of_neg (by simpa using hpk), ih, if_pos hkk, if_pos hkk]
        · rw [List.find?_cons, List.find?_cons, ih, if_neg hkk, if_neg hkk]

/-- **Lookup after an assignment.** -/
theorem get?_insert (m : OrderedMap κ α) (k k' : κ) (v : α) :
    (m.insert k v).get? k' = if k = k' then some v else m.get? k' := by
  rw [get?, insert, find?_insertEntry]
  split_ifs <;> rfl

@[simp]
theorem get?_insert_self (m : OrderedMap κ α) (k : κ) (v : α) : (m.insert k v).get? k = some v := by
  rw [get?_insert, if_pos rfl]

theorem get?_insert_of_ne (m : OrderedMap κ α) {k k' : κ} (v : α) (h : k ≠ k') :
    (m.insert k v).get? k' = m.get? k' := by
  rw [get?_insert, if_neg h]

/-! ### Collecting -/

/-- Assign a list of entries, one after the other. -/
def insertAll (m : OrderedMap κ α) (es : List (κ × α)) : OrderedMap κ α :=
  es.foldl (fun m e ↦ m.insert e.1 e.2) m

@[simp] theorem insertAll_nil (m : OrderedMap κ α) : m.insertAll [] = m := rfl

@[simp]
theorem insertAll_cons (m : OrderedMap κ α) (e : κ × α) (es : List (κ × α)) :
    m.insertAll (e :: es) = (m.insert e.1 e.2).insertAll es := rfl

theorem insertEntry_perm {k : κ} {v : α} {l : List (κ × α)} (hk : ∀ p ∈ l, p.1 ≠ k) :
    (insertEntry k v l).Perm ((k, v) :: l) := by
  induction l with
  | nil => exact List.Perm.refl _
  | cons p l ih =>
    have hne : k ≠ p.1 := Ne.symm (hk p List.mem_cons_self)
    rw [insertEntry, if_neg hne]
    split_ifs
    · exact List.Perm.refl _
    · exact ((ih fun q hq ↦ hk q (List.mem_cons_of_mem _ hq)).cons p).trans (List.Perm.swap _ _ _)

/-- **Distinct keys are all kept**: what is read out is a permutation of what was there and what was
assigned. -/
theorem insertAll_perm (m : OrderedMap κ α) (es : List (κ × α))
    (hnd : ((m.toList ++ es).map Prod.fst).Nodup) :
    (m.insertAll es).toList.Perm (m.toList ++ es) := by
  induction es generalizing m with
  | nil => simp
  | cons e es ih =>
    have hfresh : ∀ p ∈ m.toList, p.1 ≠ e.1 := by
      intro p hp heq
      rw [List.map_append, List.nodup_append] at hnd
      exact hnd.2.2 _ (List.mem_map_of_mem hp) _ (List.mem_map_of_mem List.mem_cons_self) heq
    have hperm : (m.insert e.1 e.2).toList.Perm (e :: m.toList) := insertEntry_perm hfresh
    have happ : ((m.insert e.1 e.2).toList ++ es).Perm (m.toList ++ e :: es) :=
      (hperm.append_right es).trans List.perm_middle.symm
    exact (ih _ (((happ.map _).nodup_iff).2 hnd)).trans happ

/-- Collecting pairwise distinct keys in an empty map. -/
theorem toList_perm_of_nodup {es : List (κ × α)} (hnd : (es.map Prod.fst).Nodup) :
    ((empty : OrderedMap κ α).insertAll es).toList.Perm es :=
  insertAll_perm empty es hnd

/-- A key that is not assigned keeps its value. -/
theorem get?_insertAll_of_notMem (m : OrderedMap κ α) {es : List (κ × α)} {k : κ}
    (hk : k ∉ es.map Prod.fst) : (m.insertAll es).get? k = m.get? k := by
  induction es generalizing m with
  | nil => rfl
  | cons e es ih =>
    rw [List.map_cons, List.mem_cons, not_or] at hk
    rw [insertAll_cons, ih _ hk.2, get?_insert_of_ne _ _ (Ne.symm hk.1)]

/-- With distinct keys, an assigned key is found with its value. -/
theorem get?_insertAll_of_mem (m : OrderedMap κ α) {es : List (κ × α)}
    (hnd : (es.map Prod.fst).Nodup) {k : κ} {v : α} (h : (k, v) ∈ es) :
    (m.insertAll es).get? k = some v := by
  induction es generalizing m with
  | nil => exact absurd h List.not_mem_nil
  | cons e es ih =>
    rw [List.map_cons, List.nodup_cons] at hnd
    rcases List.mem_cons.1 h with rfl | h'
    · rw [insertAll_cons, get?_insertAll_of_notMem _ hnd.1, get?_insert_self]
    · exact ih _ hnd.2 h'

end OrderedMap
