import Mathlib.Data.Finset.Max
import Mathlib.Data.List.Dedup
import Mathlib.Data.List.Nodup
import Mathlib.Data.List.ProdSigma
import Mathlib.Data.List.Sort

/-!
# SQL queries

The clauses of a `SELECT`, as functions on lists of rows: `WHERE` with conditions that may be
unknown, `ORDER BY .. DESC`, `LIMIT`, a query in the place of a value, `JOIN .. ON`, `GROUP BY` and
`DISTINCT`.

A value that may be `NULL` is an `Option`, and so is a condition; a row is kept only if the
condition is known to hold. A query in the place of a value is `NULL` when it has no rows.

A `Table` carries the proof that its primary key is one. It decides what a query leaves open: the
order of rows that `ORDER BY` does not tell apart. Where the rows selected differ in the column they
are ordered by, the first is the greatest (`head?_orderByDesc_eq_some_iff`, `IsLatest`).
-/

variable {α β κ γ : Type*}

/-- A table with its primary key. All columns are `NOT NULL`. -/
structure Table (α κ : Type*) (key : α → κ) where
  rows : List α
  nodup : (rows.map key).Nodup

namespace Table

variable {key : α → κ}

/-- The table without rows. -/
def empty : Table α κ key := ⟨[], List.nodup_nil⟩

/-- `INSERT`: it fails if there is a row with this key. -/
def insert [DecidableEq κ] (t : Table α κ key) (r : α) : Option (Table α κ key) :=
  if h : key r ∈ t.rows.map key then none
  else some ⟨t.rows ++ [r], by
    rw [List.map_append, List.nodup_append_comm]
    exact List.nodup_cons.2 ⟨h, t.nodup⟩⟩

/-- Insert rows one after the other, skipping those that are refused. -/
def insertAll [DecidableEq κ] (t : Table α κ key) (rs : List α) : Table α κ key :=
  rs.foldl (fun t r ↦ (t.insert r).getD t) t

/-- **Rows with distinct new keys are all taken.** -/
theorem rows_insertAll [DecidableEq κ] (t : Table α κ key) {rs : List α}
    (hnd : ((t.rows ++ rs).map key).Nodup) : (t.insertAll rs).rows = t.rows ++ rs := by
  induction rs generalizing t with
  | nil => exact (List.append_nil _).symm
  | cons r rs ih =>
    have hfresh : key r ∉ t.rows.map key := by
      intro hmem
      rw [List.map_append, List.nodup_append] at hnd
      exact hnd.2.2 _ hmem _ (List.mem_map_of_mem List.mem_cons_self) rfl
    have hinsert : ((t.insert r).getD t).rows = t.rows ++ [r] := by
      rw [insert, dif_neg hfresh]
      rfl
    have hnd' : ((((t.insert r).getD t).rows ++ rs).map key).Nodup := by
      rw [hinsert, List.append_assoc]
      exact hnd
    have hrest := ih _ hnd'
    rw [hinsert, List.append_assoc] at hrest
    exact hrest

/-- `DELETE FROM .. WHERE` -/
def deleteWhere (t : Table α κ key) (cond : α → Option Bool) : Table α κ key :=
  ⟨t.rows.filter fun r ↦ cond r ≠ some true,
    t.nodup.sublist (List.Sublist.map key List.filter_sublist)⟩

theorem mem_rows_deleteWhere {t : Table α κ key} {cond : α → Option Bool} {r : α} :
    r ∈ (t.deleteWhere cond).rows ↔ r ∈ t.rows ∧ cond r ≠ some true := by
  rw [deleteWhere, List.mem_filter, decide_eq_true_eq]

/-- Rows are told apart by their keys. -/
theorem eq_of_key_eq (t : Table α κ key) {r s : α} (hr : r ∈ t.rows) (hs : s ∈ t.rows)
    (h : key r = key s) : r = s :=
  List.inj_on_of_nodup_map t.nodup hr hs h

end Table

namespace SqlQuery

/-! ### Conditions -/

/-- `x = y` -/
def eq [DecidableEq α] (x y : Option α) : Option Bool := x.bind fun x ↦ y.map fun y ↦ decide (x = y)

/-- `x <> y` -/
def ne [DecidableEq α] (x y : Option α) : Option Bool := (eq x y).map not

/-- `x < y` -/
def lt [LinearOrder α] (x y : Option α) : Option Bool := x.bind fun x ↦ y.map fun y ↦ decide (x < y)

/-- `x <= y` -/
def le [LinearOrder α] (x y : Option α) : Option Bool := x.bind fun x ↦ y.map fun y ↦ decide (x ≤ y)

/-- `p AND q` -/
def and : Option Bool → Option Bool → Option Bool
  | some false, _ | _, some false => some false
  | some true, some true => some true
  | _, _ => none

@[simp] theorem eq_some_some [DecidableEq α] (x y : α) :
    eq (some x) (some y) = some (decide (x = y)) := rfl

@[simp] theorem lt_some_some [LinearOrder α] (x y : α) :
    lt (some x) (some y) = some (decide (x < y)) := rfl

@[simp] theorem ne_some_some [DecidableEq α] (x y : α) :
    ne (some x) (some y) = some (decide (x ≠ y)) := by
  rw [ne, eq_some_some, Option.map_some, decide_not]

@[simp] theorem le_some_some [LinearOrder α] (x y : α) :
    le (some x) (some y) = some (decide (x ≤ y)) := rfl

@[simp] theorem and_some_some (p q : Bool) : and (some p) (some q) = some (p && q) := by
  cases p <;> cases q <;> rfl

theorem and_eq_some_true_iff {p q : Option Bool} :
    and p q = some true ↔ p = some true ∧ q = some true := by
  rcases p with - | - | - <;> rcases q with - | - | - <;> simp [and]

/-- `p OR q` -/
def or : Option Bool → Option Bool → Option Bool
  | some true, _ | _, some true => some true
  | some false, some false => some false
  | _, _ => none

theorem or_eq_some_true_iff {p q : Option Bool} :
    or p q = some true ↔ p = some true ∨ q = some true := by
  rcases p with - | - | - <;> rcases q with - | - | - <;> simp [or]

/-- `x IS NULL` -/
def isNull (x : Option α) : Option Bool := some x.isNone

theorem isNull_eq_some_true_iff {x : Option α} : isNull x = some true ↔ x = none := by
  cases x <;> simp [isNull]

/-- `x < y`, for an `x` that is not `NULL`. -/
theorem lt_eq_some_true_iff [LinearOrder α] {x : α} {y : Option α} :
    lt (some x) y = some true ↔ ∃ z, y = some z ∧ x < z := by
  cases y <;> simp [lt]

/-- A comparison with `NULL` does not hold. -/
theorem ne_eq_some_true_iff [DecidableEq α] {x : α} {y : Option α} :
    ne (some x) y = some true ↔ ∃ z, y = some z ∧ x ≠ z := by
  cases y <;> simp [ne, eq]

/-! ### Selection -/

/-- `WHERE` -/
def selectWhere (cond : α → Option Bool) (rows : List α) : List α :=
  rows.filter fun r ↦ cond r = some true

@[simp] theorem mem_selectWhere {cond : α → Option Bool} {rows : List α} {r : α} :
    r ∈ selectWhere cond rows ↔ r ∈ rows ∧ cond r = some true := by
  simp [selectWhere]

/-- A condition that says when it holds selects like any other that says so. -/
theorem selectWhere_eq_filter {cond : α → Option Bool} {p : α → Prop} [DecidablePred p]
    (h : ∀ r, cond r = some true ↔ p r) (rows : List α) :
    selectWhere cond rows = rows.filter fun r ↦ p r :=
  List.filter_congr fun r _ ↦ decide_eq_decide.2 (h r)

/-- `ORDER BY col DESC` -/
def orderByDesc [LinearOrder κ] (col : α → κ) (rows : List α) : List α :=
  rows.insertionSort fun r s ↦ col s ≤ col r

/-- `ORDER BY col` -/
def orderBy [LinearOrder κ] (col : α → κ) (rows : List α) : List α :=
  rows.insertionSort fun r s ↦ col r ≤ col s

@[simp] theorem mem_orderBy [LinearOrder κ] {col : α → κ} {rows : List α} {r : α} :
    r ∈ orderBy col rows ↔ r ∈ rows := (List.perm_insertionSort _ rows).mem_iff

/-- A column without repetitions orders the rows strictly. -/
theorem pairwise_lt_orderBy [LinearOrder κ] {col : α → κ} {rows : List α}
    (h : (rows.map col).Nodup) : (orderBy col rows).Pairwise fun r s ↦ col r < col s := by
  have htotal : Std.Total fun r s : α ↦ col r ≤ col s := ⟨fun r s ↦ le_total _ _⟩
  have htrans : IsTrans α fun r s ↦ col r ≤ col s := ⟨fun _ _ _ h h' ↦ h.trans h'⟩
  have hsorted := List.pairwise_insertionSort (fun r s ↦ col r ≤ col s) rows
  have hnodup : ((orderBy col rows).map col).Nodup :=
    ((List.perm_insertionSort _ rows).map col).nodup_iff.2 h
  exact hsorted.imp₂ (fun _ _ hle hne ↦ lt_of_le_of_ne hle hne) (List.pairwise_map.1 hnodup)

/-- `LIMIT n` -/
def limit (n : ℕ) (rows : List α) : List α := rows.take n

/-- A query for one column in the place of a value. -/
def scalar (col : α → β) (rows : List α) : Option β := rows.head?.map col

/-- `EXISTS` -/
def hasRows (rows : List α) : Bool := !rows.isEmpty

/-- `NOT EXISTS` -/
theorem hasRows_selectWhere_eq_false_iff {cond : α → Option Bool} {rows : List α} :
    hasRows (selectWhere cond rows) = false ↔ ∀ r ∈ rows, ¬ cond r = some true := by
  rw [hasRows, Bool.not_eq_false', List.isEmpty_iff, List.eq_nil_iff_forall_not_mem]
  simp only [mem_selectWhere, not_and]

/-- `EXISTS` -/
theorem hasRows_selectWhere_iff {cond : α → Option Bool} {rows : List α} :
    hasRows (selectWhere cond rows) = true ↔ ∃ r ∈ rows, cond r = some true := by
  rw [← Bool.not_eq_false, hasRows_selectWhere_eq_false_iff]
  simp

/-- `JOIN .. ON` -/
def join (cond : α → β → Option Bool) (rows : List α) (rows' : List β) : List (α × β) :=
  selectWhere (fun p ↦ cond p.1 p.2) (rows ×ˢ rows')

@[simp] theorem mem_join {cond : α → β → Option Bool} {rows : List α} {rows' : List β} {p : α × β} :
    p ∈ join cond rows rows' ↔ (p.1 ∈ rows ∧ p.2 ∈ rows') ∧ cond p.1 p.2 = some true := by
  rw [join, mem_selectWhere, List.mem_product]

/-- `LEFT JOIN .. ON`: a row without a partner is kept, with `NULL`s in the place of one. -/
def leftJoin (cond : α → β → Option Bool) (rows : List α) (rows' : List β) : List (α × Option β) :=
  rows.flatMap fun r ↦
    match selectWhere (cond r) rows' with
    | [] => [(r, none)]
    | partners => partners.map fun s ↦ (r, some s)

/-- **What a left join finds**: the partners of a row, or that it has none. -/
theorem mem_leftJoin {cond : α → β → Option Bool} {rows : List α} {rows' : List β} {r : α}
    {s : Option β} :
    (r, s) ∈ leftJoin cond rows rows' ↔ r ∈ rows ∧
      ((∃ s' ∈ rows', cond r s' = some true ∧ s = some s') ∨
        (∀ s' ∈ rows', ¬ cond r s' = some true) ∧ s = none) := by
  -- what the join gives for one row of the left table
  have hrow : ∀ r', (r, s) ∈ (match selectWhere (cond r') rows' with
      | [] => [(r', none)]
      | partners => partners.map fun s ↦ (r', some s)) ↔ r = r' ∧
        ((∃ s' ∈ rows', cond r s' = some true ∧ s = some s') ∨
          (∀ s' ∈ rows', ¬ cond r s' = some true) ∧ s = none) := by
    intro r'
    split
    · next hnone =>
      have hall : ∀ s' ∈ rows', ¬ cond r' s' = some true := fun s' hs' hcond ↦
        List.not_mem_nil (hnone ▸ mem_selectWhere.2 ⟨hs', hcond⟩)
      rw [List.mem_singleton, Prod.mk.injEq]
      refine and_congr_right fun hr ↦ ?_
      subst hr
      constructor
      · exact fun hs ↦ Or.inr ⟨hall, hs⟩
      · rintro (⟨s', hs', hcond, -⟩ | ⟨-, hs⟩)
        · exact absurd hcond (hall s' hs')
        · exact hs
    · next hsome =>
      obtain ⟨first, hfirst⟩ := List.exists_mem_of_ne_nil _ hsome
      obtain ⟨hmem, hcond⟩ := mem_selectWhere.1 hfirst
      simp only [List.mem_map, mem_selectWhere, Prod.mk.injEq]
      constructor
      · rintro ⟨s', ⟨hs', hcond'⟩, rfl, rfl⟩
        exact ⟨rfl, Or.inl ⟨s', hs', hcond', rfl⟩⟩
      · rintro ⟨rfl, ⟨s', hs', hcond', rfl⟩ | ⟨hall, -⟩⟩
        · exact ⟨s', ⟨hs', hcond'⟩, rfl, rfl⟩
        · exact absurd hcond (hall first hmem)
  rw [leftJoin, List.mem_flatMap]
  simp only [hrow]
  constructor
  · rintro ⟨r', hr', rfl, h⟩
    exact ⟨hr', h⟩
  · rintro ⟨hr, h⟩
    exact ⟨r, hr, rfl, h⟩

/-- **A left join keeps every row.** -/
theorem exists_mem_leftJoin (cond : α → β → Option Bool) {rows : List α} (rows' : List β) {r : α}
    (h : r ∈ rows) : ∃ s, (r, s) ∈ leftJoin cond rows rows' := by
  by_cases hpartner : ∃ s ∈ rows', cond r s = some true
  · obtain ⟨s, hs, hcond⟩ := hpartner
    exact ⟨some s, mem_leftJoin.2 ⟨h, Or.inl ⟨s, hs, hcond, rfl⟩⟩⟩
  · exact ⟨none, mem_leftJoin.2 ⟨h, Or.inr ⟨fun s hs hcond ↦ hpartner ⟨s, hs, hcond⟩, rfl⟩⟩⟩

/-- `GROUP BY`: the groups, each with its key. -/
def groupBy [DecidableEq κ] (key : α → κ) (rows : List α) : List (κ × List α) :=
  (rows.map key).dedup.map fun k ↦ (k, rows.filter fun r ↦ key r = k)

theorem mem_groupBy [DecidableEq κ] {key : α → κ} {rows : List α} {g : κ × List α} :
    g ∈ groupBy key rows ↔
      (∃ r ∈ rows, key r = g.1) ∧ g.2 = rows.filter fun r ↦ key r = g.1 := by
  obtain ⟨k, l⟩ := g
  simp only [groupBy, List.mem_map, List.mem_dedup, Prod.mk.injEq]
  constructor
  · rintro ⟨k, hk, rfl, rfl⟩
    exact ⟨hk, rfl⟩
  · rintro ⟨hk, hl⟩
    exact ⟨k, hk, rfl, hl.symm⟩

/-- `MAX(col)` -/
def max [LinearOrder κ] (col : α → κ) (rows : List α) : Option κ := (rows.map col).max?

theorem max_eq_some_iff [LinearOrder κ] {col : α → κ} {rows : List α} {k : κ} :
    max col rows = some k ↔ (∃ r ∈ rows, col r = k) ∧ ∀ r ∈ rows, col r ≤ k := by
  rw [max, List.max?_eq_some_iff, List.mem_map]
  simp only [List.mem_map, forall_exists_index, and_imp, forall_apply_eq_imp_iff₂]

/-- `MIN(col)` -/
def min [LinearOrder κ] (col : α → κ) (rows : List α) : Option κ := (rows.map col).min?

theorem min_eq_some_iff [LinearOrder κ] {col : α → κ} {rows : List α} {k : κ} :
    min col rows = some k ↔ (∃ r ∈ rows, col r = k) ∧ ∀ r ∈ rows, k ≤ col r := by
  rw [min, List.min?_eq_some_iff, List.mem_map]
  simp only [List.mem_map, forall_exists_index, and_imp, forall_apply_eq_imp_iff₂]

/-- The minimum is `NULL` for no rows only. -/
theorem exists_min_eq_some [LinearOrder κ] (col : α → κ) {rows : List α} {r : α} (h : r ∈ rows) :
    ∃ k, min col rows = some k := by
  rw [← Option.ne_none_iff_exists', min, Ne, List.min?_eq_none_iff, List.map_eq_nil_iff]
  exact List.ne_nil_of_mem h

/-- `x NOT IN (..)` -/
def notIn [DecidableEq α] (x : Option α) (values : List (Option α)) : Option Bool :=
  values.foldr (fun y r ↦ and (ne x y) r) (some true)

/-- `NOT IN` holds if there is neither the value nor a `NULL`. -/
theorem notIn_eq_some_true_iff [DecidableEq α] {x : α} {values : List (Option α)} :
    notIn (some x) values = some true ↔ none ∉ values ∧ some x ∉ values := by
  induction values with
  | nil => simp [notIn]
  | cons y values ih =>
    rw [notIn, List.foldr_cons, ← notIn, and_eq_some_true_iff, ih, ne_eq_some_true_iff]
    cases y with
    | none => simp
    | some y =>
      simp only [Option.some.injEq, exists_eq_left', List.mem_cons, reduceCtorEq, false_or, not_or]
      tauto

/-- `SELECT DISTINCT` -/
def distinct [DecidableEq α] (rows : List α) : List α := rows.dedup

/-- `EXISTS` does not look at what is selected. -/
theorem hasRows_distinct_map [DecidableEq β] (col : α → β) (rows : List α) :
    hasRows (distinct (rows.map col)) = hasRows rows := by
  cases rows with
  | nil => rfl
  | cons r rows =>
    have hne : distinct ((r :: rows).map col) ≠ [] := by
      rw [distinct, Ne, List.dedup_eq_nil]
      exact List.cons_ne_nil _ _
    rw [hasRows, hasRows, List.isEmpty_eq_false_iff.2 hne]
    rfl

/-- `GROUP_CONCAT(col, '')`, `NULL` for no rows. -/
def groupConcat (col : α → List β) (rows : List α) : Option (List β) :=
  if rows.isEmpty then none else some (rows.flatMap col)

theorem groupConcat_of_mem {col : α → List β} {rows : List α} {r : α} (h : r ∈ rows) :
    groupConcat col rows = some (rows.flatMap col) := by
  rw [groupConcat, List.isEmpty_eq_false_iff.2 (List.ne_nil_of_mem h)]
  rfl

/-! ### Errors -/

/-- `WHERE`, with a condition that may be an error, for which it is `none`. The rows come one after
the other, and an error ends the statement. -/
def selectUntilError (cond : α → Option (Option Bool)) : List α → List α
  | [] => []
  | r :: rows =>
    match cond r with
    | none => []
    | some b => if b = some true then r :: selectUntilError cond rows
      else selectUntilError cond rows

/-- **A row is selected if its condition holds and no row before it is an error**, for rows that
come in the order of a column. -/
theorem mem_selectUntilError_iff [LinearOrder κ] {col : α → κ} {cond : α → Option (Option Bool)}
    {rows : List α} (hrows : rows.Pairwise fun r s ↦ col r < col s) {r : α} :
    r ∈ selectUntilError cond rows ↔
      r ∈ rows ∧ cond r = some (some true) ∧ ∀ s ∈ rows, col s < col r → cond s ≠ none := by
  induction rows with
  | nil => simp [selectUntilError]
  | cons first rows ih =>
    obtain ⟨hfirst, hrows⟩ := List.pairwise_cons.1 hrows
    rw [selectUntilError]
    split
    · next herror =>
      refine iff_of_false List.not_mem_nil ?_
      rintro ⟨hr, hcond, hbefore⟩
      rcases List.mem_cons.1 hr with rfl | hr
      · rw [herror] at hcond
        exact nomatch hcond
      · exact hbefore first List.mem_cons_self (hfirst r hr) herror
    · next b hb =>
      -- an error at the first row would have ended the query
      have hrest : r ∈ selectUntilError cond rows ↔ r ∈ rows ∧ cond r = some (some true) ∧
          ∀ s ∈ first :: rows, col s < col r → cond s ≠ none := by
        rw [ih hrows, List.forall_mem_cons]
        simp [hb]
      split_ifs with htrue
      · rw [List.mem_cons, hrest, List.mem_cons]
        constructor
        · rintro (rfl | ⟨hr, h⟩)
          · refine ⟨Or.inl rfl, htrue ▸ hb, List.forall_mem_cons.2 ⟨fun h ↦ ?_, fun s hs h ↦ ?_⟩⟩
            · exact absurd h (lt_irrefl _)
            · exact absurd (h.trans (hfirst s hs)) (lt_irrefl _)
          · exact ⟨Or.inr hr, h⟩
        · rintro ⟨rfl | hr, h⟩
          · exact Or.inl rfl
          · exact Or.inr ⟨hr, h⟩
      · rw [hrest, List.mem_cons]
        constructor
        · rintro ⟨hr, h⟩
          exact ⟨Or.inr hr, h⟩
        · rintro ⟨rfl | hr, hcond, h⟩
          · rw [hb, Option.some.injEq] at hcond
            exact absurd hcond htrue
          · exact ⟨hr, hcond, h⟩

/-! ### The latest row -/

/-- A row is the latest of those with a property. -/
def IsLatest [LinearOrder κ] (col : α → κ) (rows : List α) (p : α → Prop) (r : α) : Prop :=
  (r ∈ rows ∧ p r) ∧ ∀ s ∈ rows, p s → col s ≤ col r

/-- There is a latest row as soon as there is one at all. -/
theorem exists_isLatest [LinearOrder κ] (col : α → κ) {rows : List α} {p : α → Prop} {r : α}
    (hr : r ∈ rows) (hp : p r) : ∃ s, IsLatest col rows p s := by
  classical
  have hne : (rows.filter fun r ↦ p r).toFinset.Nonempty :=
    ⟨r, by simpa using ⟨hr, hp⟩⟩
  obtain ⟨s, hs, hmax⟩ := Finset.exists_max_image _ col hne
  refine ⟨s, by simpa using hs, fun t ht hpt ↦ hmax t ?_⟩
  simpa using ⟨ht, hpt⟩

/-- **`ORDER BY .. DESC LIMIT 1`** finds the latest row, if no two rows are equally late. -/
theorem head?_orderByDesc_eq_some_iff [LinearOrder κ] {col : α → κ} {rows : List α}
    (hinj : ∀ r ∈ rows, ∀ s ∈ rows, col r = col s → r = s) {r : α} :
    (limit 1 (orderByDesc col rows)).head? = some r ↔ r ∈ rows ∧ ∀ s ∈ rows, col s ≤ col r := by
  have hperm := List.perm_insertionSort (fun r s ↦ col s ≤ col r) rows
  have htotal : Std.Total fun r s : α ↦ col s ≤ col r := ⟨fun r s ↦ le_total _ _⟩
  have htrans : IsTrans α fun r s ↦ col s ≤ col r := ⟨fun _ _ _ h h' ↦ h'.trans h⟩
  have hsorted := List.pairwise_insertionSort (fun r s ↦ col s ≤ col r) rows
  rw [limit, orderByDesc]
  rcases hrows : rows.insertionSort fun r s ↦ col s ≤ col r with - | ⟨first, rest⟩
  · rw [hrows] at hperm
    rw [hperm.nil_eq.symm]
    simp
  · rw [hrows] at hperm hsorted
    obtain ⟨hfirst, -⟩ := List.pairwise_cons.1 hsorted
    have hmem : first ∈ rows := hperm.mem_iff.1 List.mem_cons_self
    have hle : ∀ s ∈ rows, col s ≤ col first := by
      intro s hs
      rcases List.mem_cons.1 (hperm.mem_iff.2 hs) with rfl | hrest
      · exact le_rfl
      · exact hfirst s hrest
    rw [List.take_succ_cons, List.head?_cons, Option.some.injEq]
    constructor
    · rintro rfl
      exact ⟨hmem, hle⟩
    · rintro ⟨hr, hr'⟩
      exact hinj _ hmem _ hr (le_antisymm (hr' _ hmem) (hle _ hr))

end SqlQuery
