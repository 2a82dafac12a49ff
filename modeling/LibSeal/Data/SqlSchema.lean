import LibSeal.Data.OrderedMap
import LibSeal.Data.SqlConnection

/-!
# Tables and their primary keys

The part of a database that decides whether a statement is refused: which tables and views there
are, the columns and the primary key of a table, and its rows. A name that is taken cannot be
created again, a column that is there cannot be added again, and a row is refused if its table holds
a row with the same key (`SqlTable.insert`). A primary key that is one column of type `INTEGER` is
the number of the row, and takes integers only. A refused statement changes nothing.

Values are compared as they are written; where a number has one way to be written, this is its
value. A column added to a table is `NULL` in the rows that are there already.
-/

variable {V : Type} [DecidableEq V] (isInteger : V → Bool)

/-- A table. The rows are in the order in which they were inserted. -/
structure SqlTable (V : Type) where
  columns : List Bytes
  primaryKey : List Bytes
  /-- Whether the primary key is a column of type `INTEGER`. -/
  integerKey : Bool
  rows : List (List (Option V))
  deriving DecidableEq

namespace SqlTable

/-- The key of a row: its values in the columns of the primary key. -/
def keyOf (t : SqlTable V) (row : List (Option V)) : List (Option V) :=
  t.primaryKey.map fun column ↦ (row[t.columns.idxOf column]?).join

/-- The table holds a row with the key of this one. -/
def HasKey (t : SqlTable V) (row : List (Option V)) : Prop :=
  ∃ stored ∈ t.rows, t.keyOf stored = t.keyOf row

instance (t : SqlTable V) (row : List (Option V)) : Decidable (t.HasKey row) :=
  inferInstanceAs (Decidable (∃ stored ∈ t.rows, t.keyOf stored = t.keyOf row))

/-- The key of this row can be stored. -/
def TakesKey (t : SqlTable V) (row : List (Option V)) : Prop :=
  t.integerKey = true → ∀ v ∈ t.keyOf row, v.any isInteger = true

instance (t : SqlTable V) (row : List (Option V)) : Decidable (t.TakesKey isInteger row) :=
  inferInstanceAs (Decidable (_ → _))

/-- `INSERT INTO .. VALUES (..)` -/
def insert (t : SqlTable V) (values : List V) : Option (SqlTable V) :=
  if values.length ≠ t.columns.length ∨ ¬ t.TakesKey isInteger (values.map some) ∨
      t.HasKey (values.map some) then none
  else some { t with rows := t.rows ++ [values.map some] }

/-- `ALTER TABLE .. ADD ..` -/
def addColumn (t : SqlTable V) (column : Bytes) : Option (SqlTable V) :=
  if column ∈ t.columns then none
  else some { t with columns := t.columns ++ [column], rows := t.rows.map (· ++ [none]) }

/-- What an `INSERT` of a full row leaves: the row is there if its key can be stored and was not. -/
def afterInsert (t : SqlTable V) (values : List V) : SqlTable V :=
  { t with
    rows :=
      if ¬ t.TakesKey isInteger (values.map some) ∨ t.HasKey (values.map some) then t.rows
      else t.rows ++ [values.map some] }

variable {isInteger}

omit [DecidableEq V] in
/-- Where the key is the first column, the value there decides. -/
theorem takesKey_cons_iff {column : Bytes} {columns : List Bytes} {rows : List (List (Option V))}
    {v : V} {values : List (Option V)} :
    TakesKey isInteger ⟨column :: columns, [column], true, rows⟩ (some v :: values) ↔
      isInteger v = true := by
  have hkey : (SqlTable.mk (column :: columns) [column] true rows).keyOf (some v :: values) =
      [some v] := by
    rw [keyOf, List.map_singleton, List.idxOf_cons_self]
    rfl
  rw [TakesKey, hkey, List.forall_mem_singleton]
  exact forall_prop_of_true rfl

theorem getD_insert {t : SqlTable V} {values : List V} (h : values.length = t.columns.length) :
    (t.insert isInteger values).getD t = t.afterInsert isInteger values := by
  rw [insert, afterInsert]
  split_ifs with hor hkey hkey
  · rfl
  · exact absurd (hor.resolve_left fun hne ↦ hne h) hkey
  · exact absurd (Or.inr hkey) hor
  · rfl

end SqlTable

/-- What a name stands for. -/
inductive SqlObject (V : Type) where
  | table (t : SqlTable V)
  | view
  deriving DecidableEq

/-- A database, by the names in it. -/
abbrev SqlDatabase (V : Type) := OrderedMap Bytes (SqlObject V)

/-- A statement. -/
inductive SqlStatement (V : Type) where
  | createTable (name : Bytes) (columns primaryKey : List Bytes) (integerKey : Bool)
  | createView (name : Bytes)
  | addColumn (table column : Bytes)
  | insert (table : Bytes) (values : List V)
  deriving DecidableEq

namespace SqlDatabase

/-- `CREATE` -/
def create (d : SqlDatabase V) (name : Bytes) (object : SqlObject V) : Option (SqlDatabase V) :=
  match d.get? name with
  | some _ => none
  | none => some (d.insert name object)

/-- A change to one table. -/
def onTable (d : SqlDatabase V) (name : Bytes) (change : SqlTable V → Option (SqlTable V)) :
    Option (SqlDatabase V) :=
  match d.get? name with
  | some (.table t) => (change t).map fun t' ↦ d.insert name (.table t')
  | _ => none

/-- The effect of a statement; `none` when it is refused. -/
def step (d : SqlDatabase V) : SqlStatement V → Option (SqlDatabase V)
  | .createTable name columns primaryKey integerKey =>
    d.create name (.table ⟨columns, primaryKey, integerKey, []⟩)
  | .createView name => d.create name .view
  | .addColumn table column => d.onTable table (·.addColumn column)
  | .insert table values => d.onTable table (·.insert isInteger values)

/-- The engine, for a way to read texts as statements. -/
def engine (statements : Bytes → List (SqlStatement V)) :
    SqlEngine (SqlDatabase V) (SqlStatement V) where
  statements := statements
  step := step isInteger

/-- There is a table with these columns and this key. -/
def HasTable (d : SqlDatabase V) (name : Bytes) (columns primaryKey : List Bytes)
    (integerKey : Bool) : Prop :=
  ∃ rows, d.get? name = some (.table ⟨columns, primaryKey, integerKey, rows⟩)

variable {isInteger} {d : SqlDatabase V} {name : Bytes} {columns primaryKey : List Bytes}
  {integerKey : Bool}

omit [DecidableEq V] in
theorem HasTable.isSome (h : HasTable d name columns primaryKey integerKey) :
    (d.get? name).isSome = true := by
  obtain ⟨rows, hget⟩ := h
  rw [hget]
  rfl

omit [DecidableEq V] in
/-- A name is not created again. -/
theorem create_of_isSome (h : (d.get? name).isSome = true) (object : SqlObject V) :
    d.create name object = none := by
  obtain ⟨old, hold⟩ := Option.isSome_iff_exists.1 h
  rw [create, hold]

theorem step_createTable_of_isSome (h : (d.get? name).isSome = true) :
    d.step isInteger (.createTable name columns primaryKey integerKey) = none :=
  create_of_isSome h _

/-- A column is not added again. -/
theorem step_addColumn_of_mem (h : HasTable d name columns primaryKey integerKey) {column : Bytes}
    (hcolumn : column ∈ columns) : d.step isInteger (.addColumn name column) = none := by
  obtain ⟨rows, hget⟩ := h
  rw [step, onTable, hget]
  simp only [SqlTable.addColumn, if_pos hcolumn, Option.map_none]

/-- **What an `INSERT` of a full row does**: it leaves the other names alone, and its table has the
row if the key can be stored and was not there. -/
theorem get?_insert {t : SqlTable V} (h : d.get? name = some (.table t)) {values : List V}
    (hlen : values.length = t.columns.length) (other : Bytes) :
    ((d.step isInteger (.insert name values)).getD d).get? other =
      if name = other then some (.table (t.afterInsert isInteger values)) else d.get? other := by
  rw [step, onTable, h, ← SqlTable.getD_insert hlen]
  dsimp only
  rcases hinsert : t.insert isInteger values with - | t'
  · -- the row is refused
    rw [Option.map_none, Option.getD_none, Option.getD_none]
    split_ifs with hname
    · rw [← hname, h]
    · rfl
  · rw [Option.map_some, Option.getD_some, Option.getD_some]
    split_ifs with hname
    · rw [hname, OrderedMap.get?_insert_self]
    · rw [OrderedMap.get?_insert_of_ne _ _ hname]

/-- An `INSERT` keeps the tables. -/
theorem HasTable.insert {table : Bytes} {t : SqlTable V} (ht : d.get? table = some (.table t))
    {values : List V} (hlen : values.length = t.columns.length)
    (h : HasTable d name columns primaryKey integerKey) :
    HasTable ((d.step isInteger (.insert table values)).getD d) name columns primaryKey
      integerKey := by
  obtain ⟨rows, hget⟩ := h
  rw [HasTable]
  simp only [get?_insert ht hlen]
  split_ifs with hname
  · obtain rfl : t = ⟨columns, primaryKey, integerKey, rows⟩ := by
      rw [← hname, ht] at hget
      cases hget
      rfl
    exact ⟨_, rfl⟩
  · exact ⟨rows, hget⟩

end SqlDatabase
