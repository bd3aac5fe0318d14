import Mathlib.Data.List.Basic

namespace Buffer
variable {α : Type}

/-- Bytes written into a buffer at an offset; `none` if they reach beyond its end. -/
def store (buffer : List α) (offset : Nat) (bytes : List α) : Option (List α) :=
  if offset + bytes.length ≤ buffer.length then
    some (buffer.take offset ++ bytes ++ buffer.drop (offset + bytes.length))
  else none

/-- A buffer cut to a size, or filled up to it. -/
def resize (fill : α) (buffer : List α) (size : Nat) : List α :=
  buffer.take size ++ List.replicate (size - buffer.length) fill

theorem store_start {buffer bytes : List α} (fits : bytes.length ≤ buffer.length) :
    store buffer 0 bytes = some (bytes ++ buffer.drop bytes.length) := by
  rw [store, Nat.zero_add, if_pos fits, List.take_zero, List.nil_append]

theorem store_nil {buffer : List α} {offset : Nat} (within : offset ≤ buffer.length) :
    store buffer offset [] = some buffer := by
  rw [store, List.length_nil, Nat.add_zero, if_pos within, List.append_nil, List.take_append_drop]

theorem resize_append (fill : α) (bytes rest : List α) : resize fill (bytes ++ rest) bytes.length = bytes := by
  have enough : bytes.length - (bytes ++ rest).length = 0 := by
    rw [List.length_append]
    omega
  rw [resize, List.take_left, enough, List.replicate_zero, List.append_nil]

end Buffer
