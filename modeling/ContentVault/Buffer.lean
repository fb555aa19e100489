import ContentVault.Bytes

/-!
# Buffers

Bytes that are collected piece by piece.  They are kept with the last one first, so
that a piece is added without going through the bytes that are there already; a
buffer is seen through `toList`, which gives the bytes in order.
-/

namespace ContentVault

structure Buffer where
  /-- The bytes, the last one first. -/
  reversed : Bytes
  size : Nat
  size_eq : size = reversed.length
  deriving DecidableEq, Repr

namespace Buffer

def empty : Buffer := ⟨[], 0, rfl⟩

def toList (buffer : Buffer) : Bytes := buffer.reversed.reverse

def append (buffer : Buffer) (bytes : Bytes) : Buffer where
  reversed := bytes.reverseAux buffer.reversed
  size := buffer.size + bytes.length
  size_eq := by
    rw [List.reverseAux_eq, List.length_append, List.length_reverse, buffer.size_eq, Nat.add_comm]

@[simp]
theorem toList_empty : empty.toList = [] := rfl

@[simp]
theorem toList_append (buffer : Buffer) (bytes : Bytes) :
    (buffer.append bytes).toList = buffer.toList ++ bytes := by
  simp [toList, append, List.reverseAux_eq]

@[simp]
theorem length_toList (buffer : Buffer) : buffer.toList.length = buffer.size := by
  rw [toList, List.length_reverse, buffer.size_eq]

/-- A buffer is determined by its bytes. -/
theorem toList_injective {left right : Buffer} (heq : left.toList = right.toList) :
    left = right := by
  obtain ⟨reversed, size, hsize⟩ := left
  obtain ⟨reversed', size', hsize'⟩ := right
  obtain rfl : reversed = reversed' := List.reverse_inj.1 heq
  rw [← hsize'] at hsize
  subst hsize
  rfl

theorem append_append (buffer : Buffer) (first second : Bytes) :
    (buffer.append first).append second = buffer.append (first ++ second) := by
  apply toList_injective
  rw [toList_append, toList_append, toList_append, List.append_assoc]

end Buffer

end ContentVault
