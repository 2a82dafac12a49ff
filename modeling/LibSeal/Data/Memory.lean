import LibSeal.Data.CxxString

/-!
# Memory blocks

A heap or stack object is the list of its bytes; writing outside it is the fault `outOfBounds`.
Allocation is the one operation whose outcome the program does not determine: an `Allocation` says
whether the allocator answers with a block or with a null pointer, and in the first case what the
bytes nobody has written yet happen to be. Quantifying over it covers every allocator.
-/

/-- The answer of the allocator to one request: `none` is a null pointer, `some junk` a block whose
unwritten byte `i` reads `junk i`. -/
abbrev Allocation := Option (ℕ → UInt8)

namespace Memory

/-! ### Writing -/

/-- `memcpy(block + off, src, src_len)`. -/
def memcpy (block : Bytes) (off : ℕ) (src : Bytes) : Except CFault Bytes :=
  if block.length < off + src.length then .error .outOfBounds
  else .ok (block.take off ++ src ++ block.drop (off + src.length))

/-- What `snprintf(p, size, ..)` writes for a formatted text: at most `size - 1` of its characters,
and the terminator. -/
def snprintf (size : ℕ) (text : Bytes) : Bytes := text.take (size - 1) ++ [0]

/-- A text that fits is written whole. -/
theorem snprintf_of_lt {size : ℕ} {text : Bytes} (h : text.length < size) :
    snprintf size text = text ++ [0] := by
  rw [snprintf, List.take_of_length_le (by omega)]

theorem memcpy_of_le {block src : Bytes} {off : ℕ} (h : off + src.length ≤ block.length) :
    memcpy block off src = .ok (block.take off ++ src ++ block.drop (off + src.length)) := by
  rw [memcpy, if_neg (by omega)]

/-! ### Allocation -/

/-- `realloc(p, size)`: the bytes of the old block as far as they fit, and unwritten bytes behind
them. A null `p` is an old block without bytes. -/
def realloc (a : Allocation) (p : Option Bytes) (size : ℕ) : Option Bytes :=
  a.map fun junk ↦
    (p.getD []).take size ++ (List.range (size - (p.getD []).length)).map junk

theorem length_realloc (junk : ℕ → UInt8) (p : Option Bytes) (size : ℕ) :
    ∀ b ∈ realloc (some junk) p size, b.length = size := by
  intro b hb
  cases hb
  simp only [List.length_append, List.length_take, List.length_map, List.length_range]
  omega

/-- Growing a block and filling the new end is appending. -/
theorem memcpy_realloc (junk : ℕ → UInt8) (p : Option Bytes) (src : Bytes) :
    ∃ b, realloc (some junk) p ((p.getD []).length + src.length) = some b ∧
      memcpy b (p.getD []).length src = .ok (p.getD [] ++ src) := by
  refine ⟨_, rfl, ?_⟩
  have hlen := length_realloc junk p ((p.getD []).length + src.length) _ rfl
  rw [memcpy_of_le hlen.ge, List.drop_eq_nil_of_le hlen.le, List.append_nil,
    List.take_of_length_le (Nat.le_add_right _ _), List.take_left]

end Memory

/-! ### Pointers -/

/-- A pointer into a block, wherever its arithmetic has taken it. -/
structure CPtr where
  block : Bytes
  pos : ℤ

namespace CPtr

/-- `ptr + n` -/
def add (ptr : CPtr) (n : ℤ) : CPtr := { ptr with pos := ptr.pos + n }

/-- The memory from a pointer on. Outside the block there is none. -/
def memory (ptr : CPtr) : Bytes := if ptr.pos < 0 then [] else ptr.block.drop ptr.pos.toNat

/-- `*ptr` -/
def read (ptr : CPtr) : Except CFault UInt8 :=
  match ptr.memory with
  | [] => .error .outOfBounds
  | b :: _ => .ok b

theorem add_add (ptr : CPtr) (m n : ℤ) : (ptr.add m).add n = ptr.add (m + n) := by
  simp only [add, Int.add_assoc]

/-- Moving on skips memory. -/
theorem memory_add {ptr : CPtr} (h : 0 ≤ ptr.pos) (n : ℕ) :
    (ptr.add n).memory = ptr.memory.drop n := by
  rw [memory, memory, if_neg (by simp only [add]; omega), if_neg (by omega), List.drop_drop]
  congr 1
  simp only [add]
  omega

theorem pos_add_nonneg {ptr : CPtr} (h : 0 ≤ ptr.pos) (n : ℕ) : 0 ≤ (ptr.add n).pos := by
  simp only [add]
  omega

/-- Moving on over what is there. -/
theorem memory_add_length {ptr : CPtr} (h : 0 ≤ ptr.pos) {s t : Bytes}
    (hmem : ptr.memory = s ++ t) :
    (ptr.add s.length).memory = t := by
  rw [memory_add h, hmem, List.drop_left]

theorem read_of_memory {ptr : CPtr} {b : UInt8} {s : Bytes} (h : ptr.memory = b :: s) :
    ptr.read = .ok b := by
  rw [read, h]

end CPtr
