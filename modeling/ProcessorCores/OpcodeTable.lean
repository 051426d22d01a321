/-!
# Opcode tables

A table maps an opcode index to a handler and its base cost. Every index has an entry: a table is
never empty, and an index past its end wraps round.
-/

namespace ProcessorCores

/-- One slot of a table: what to do, and what it costs before its handler adds more. -/
structure OpcodeEntry (H : Type) where
  handler : H
  cycles : Nat
  deriving DecidableEq, Repr

/-- A full table of `n` entries. -/
structure OpcodeTable (H : Type) (n : Nat) where
  entries : Vector (OpcodeEntry H) n
  nonempty : 0 < n

namespace OpcodeTable

/-- A table keyed by a byte has entries. -/
theorem pos_of_byte : 0 < 256 := by decide

/-- A table keyed by three bits has entries. -/
theorem pos_of_three_bits : 0 < 8 := by decide

variable {H : Type} {n : Nat}

/-- The entry for an index, which wraps at the size of the table. -/
def get (table : OpcodeTable H n) (index : Nat) : OpcodeEntry H :=
  table.entries.get ⟨index % n, Nat.mod_lt index table.nonempty⟩

/-- All entries in index order. -/
def toList (table : OpcodeTable H n) : List (OpcodeEntry H) := table.entries.toList

/-- Whatever the index, the answer is one of the entries. -/
theorem get_mem_toList (table : OpcodeTable H n) (index : Nat) : table.get index ∈ table.toList := by
  simp [get, toList, Vector.get]

/-- The entry for an index of the table stands at that index. -/
theorem get_mem_zipIdx (table : OpcodeTable H n) {index : Nat} (h : index < n) :
    (table.get index, index) ∈ table.toList.zipIdx := by
  rw [List.mem_zipIdx_iff_getElem?]
  simp [get, toList, Vector.get, Nat.mod_eq_of_lt h, h]

end OpcodeTable

end ProcessorCores
