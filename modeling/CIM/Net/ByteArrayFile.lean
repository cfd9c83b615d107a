import CIM.Net.ByteArrayViews

/-!
# Files

`writeToFile` goes from node to node, and `readFromFile` takes a file in pieces of the size of a
node. The nodes of the two arrays need not have the same size.
-/
namespace CIM.ByteArray

open Patch Exec

/-- The array has taken in the bytes at its position, and has nothing else changed. -/
structure Took (ba : ByteArray) (content : List UInt8) (ba' : ByteArray) : Prop where
  position : ba'.position = ba.position + content.length
  dataSize : ba'.dataSize = max ba.dataSize (ba.position + content.length)
  bytes : slice (storage ba'.nodes) ba.position content.length = content
  beside : ∀ i n, i + n ≤ ba.position ∨ ba.position + content.length ≤ i → i + n ≤ ba.dataSize →
    slice (storage ba'.nodes) i n = slice (storage ba.nodes) i n

variable {ba bb bc : ByteArray} {base : Nat} {content rest : List UInt8}

/-! ## Writing a file -/

theorem slice_add (xs : List UInt8) (i m n : Nat) :
    slice xs i (m + n) = slice xs i m ++ slice xs (i + m) n := by
  simp only [slice, List.take_add, List.drop_drop]

theorem Took.trans (h : Took ba content bb) (k : Took bb rest bc) :
    Took ba (content ++ rest) bc where
  position := by rw [k.position, h.position, List.length_append, Nat.add_assoc]
  dataSize := by
    rw [k.dataSize, h.dataSize, h.position, List.length_append]
    omega
  bytes := by
    have hfirst := k.beside ba.position content.length (.inl (Nat.le_of_eq h.position.symm))
      (by rw [h.dataSize]; omega)
    rw [List.length_append, slice_add, hfirst, h.bytes, ← h.position, k.bytes]
  beside i n hi hn := by
    rw [List.length_append] at hi
    rw [k.beside i n (by rw [h.position]; omega) (by rw [h.dataSize]; omega)]
    exact h.beside i n (by omega) hn

end CIM.ByteArray
