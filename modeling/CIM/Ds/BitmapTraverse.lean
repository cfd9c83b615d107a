import CIM.Ds.BitmapCount

/-!
# Going through the set positions

Upwards by blocks of four words and then by words, downwards by words and then by blocks. A block or
a word that is zero is skipped. The loops do not look at what a callback did but to stop.
-/
namespace CIM.ds.Bitmap

variable {b : Bitmap} {v : Bool} {w : UInt16} {n m k p size : Nat} {ws rest data : List UInt16}

/-- What a loop comes to: a position, or a word that is not there. -/
abbrev Event := Except BitmapFailure Nat

section Visit

variable {σ : Type}

/-- The callback is called at one position after the other until it returns false. -/
def visit (cb : σ → Nat → σ × Bool) : σ → List Nat → σ
  | s, [] => s
  | s, p :: ps => if (cb s p).2 then visit cb (cb s p).1 ps else (cb s p).1

def visitEvents (cb : σ → Nat → σ × Bool) : σ → List Event → Except BitmapFailure σ
  | s, [] => .ok s
  | _, .error e :: _ => .error e
  | s, .ok p :: es => if (cb s p).2 then visitEvents cb (cb s p).1 es else .ok (cb s p).1

/-- The callback of a loop that only collects. -/
def push (pos : List Nat) (p : Nat) : List Nat × Bool := (pos ++ [p], true)

end Visit

/-! ## The loops upwards -/

/-- `for (n = 0; n < VALUE_SIZE && cur_pos < m_size; ++n, ++cur_pos)` -/
def wordAsc (size cur_pos : Nat) (tmp : UInt16) : List Nat :=
  ((List.range (min VALUE_SIZE (size - cur_pos))).filter (bitAt tmp)).map (cur_pos + ·)

/-- The four words of a block. -/
def blockAsc (size : Nat) : Nat → List UInt16 → List Nat × Nat
  | cur_pos, [] => ([], cur_pos)
  | cur_pos, tmp :: rest =>
      let r := blockAsc size (cur_pos + min VALUE_SIZE (size - cur_pos)) rest
      (wordAsc size cur_pos tmp ++ r.1, r.2)

/-- The words behind the blocks. -/
def wordsAsc (size : Nat) : Nat → List UInt16 → List Nat
  | _, [] => []
  | cur_pos, tmp :: rest =>
      if tmp = 0 then wordsAsc size ((cur_pos + VALUE_SIZE) % 4294967296) rest
      else wordAsc size cur_pos tmp ++
        wordsAsc size (cur_pos + min VALUE_SIZE (size - cur_pos)) rest

/-- The blocks that are left, then the words behind them. -/
def blocksAsc (size : Nat) : Nat → Nat → List UInt16 → List Event
  | 0, cur_pos, ws => (wordsAsc size cur_pos ws).map .ok
  | i + 1, cur_pos, ws =>
      if ws.length < U64_DIV_BASE then [.error .undefined]
      else if (ws.take U64_DIV_BASE).all (· == 0) then
        blocksAsc size i ((cur_pos + U64_VALUE_SIZE) % 4294967296) (ws.drop U64_DIV_BASE)
      else
        let r := blockAsc size cur_pos (ws.take U64_DIV_BASE)
        r.1.map .ok ++ blocksAsc size i r.2 (ws.drop U64_DIV_BASE)

def ascending (b : Bitmap) : List Event :=
  blocksAsc b.m_size.toNat (b.m_size.toNat / U64_VALUE_SIZE) 0 b.m_data

def foreach {σ : Type} (b : Bitmap) (cb : σ → Nat → σ × Bool) (s : σ) : Except BitmapFailure σ :=
  visitEvents cb s b.ascending

/-- `for (n = top; n >= 0; --n, --cur_pos)` -/
def wordDesc (cur_pos : UInt32) (top : Nat) (tmp : UInt16) : List Nat :=
  ((List.range (top + 1)).reverse.filter (bitAt tmp)).map fun n =>
    (cur_pos - UInt32.ofNat (top - n)).toNat

/-- The last word, which may be read one place above the size. -/
def startDesc (m_size cur_pos : UInt32) (tmp : UInt16) : List Nat × UInt32 :=
  let left := m_size.toNat % VALUE_SIZE
  if tmp = 0 then
    ([], if left = 0 then cur_pos - UInt32.ofNat VALUE_SIZE else cur_pos - UInt32.ofNat left)
  else if left = 0 then
    (wordDesc cur_pos (VALUE_SIZE - 1) tmp, cur_pos - UInt32.ofNat VALUE_SIZE)
  else (wordDesc (cur_pos + 1) left tmp, cur_pos + 1 - UInt32.ofNat (left + 1))

/-- The words from the last one down. -/
def wordsDesc : UInt32 → List UInt16 → List Nat × UInt32
  | cur_pos, [] => ([], cur_pos)
  | cur_pos, tmp :: rest =>
      let r := wordsDesc (cur_pos - UInt32.ofNat VALUE_SIZE) rest
      ((if tmp = 0 then [] else wordDesc cur_pos (VALUE_SIZE - 1) tmp) ++ r.1, r.2)

/-- The four words of a block; a zero word has no positions. -/
def blockDesc : UInt32 → List UInt16 → List Nat × UInt32
  | cur_pos, [] => ([], cur_pos)
  | cur_pos, tmp :: rest =>
      let r := blockDesc (cur_pos - UInt32.ofNat VALUE_SIZE) rest
      (wordDesc cur_pos (VALUE_SIZE - 1) tmp ++ r.1, r.2)

def blocksDesc : Nat → UInt32 → List UInt16 → List Nat
  | 0, _, _ => []
  | i + 1, cur_pos, ws =>
      if (ws.take U64_DIV_BASE).all (· == 0) then
        blocksDesc i (cur_pos - UInt32.ofNat U64_VALUE_SIZE) (ws.drop U64_DIV_BASE)
      else
        let r := blockDesc cur_pos (ws.take U64_DIV_BASE)
        r.1 ++ blocksDesc i r.2 (ws.drop U64_DIV_BASE)

/-- The words above the blocks, from the last one down; none if the size is one of whole blocks. -/
def tailDesc (b : Bitmap) : List Nat × UInt32 :=
  if b.m_size.toNat % U64_VALUE_SIZE = 0 then ([], b.m_size - 1)
  else
    match (b.m_data.drop (b.m_size.toNat / U64_VALUE_SIZE * U64_DIV_BASE)).reverse with
    | [] => ([], b.m_size - 1)
    | tmp :: rest =>
        let r := startDesc b.m_size (b.m_size - 1) tmp
        let r' := wordsDesc r.2 rest
        (r.1 ++ r'.1, r'.2)

/-- The highest block is read first, so that none is read if it is not there. -/
def descending (b : Bitmap) : List Event :=
  let max_size := b.m_size.toNat / U64_VALUE_SIZE
  b.tailDesc.1.map .ok ++
    if b.m_data.length < max_size * U64_DIV_BASE then [.error .undefined]
    else (blocksDesc max_size b.tailDesc.2
      (b.m_data.take (max_size * U64_DIV_BASE)).reverse).map .ok

def rforeach {σ : Type} (b : Bitmap) (cb : σ → Nat → σ × Bool) (s : σ) : Except BitmapFailure σ :=
  visitEvents cb s b.descending

/-! ## Set positions -/

/-- The position below a number; below zero there is the largest. -/
def below (m : Nat) : UInt32 := UInt32.ofNat m - 1

end CIM.ds.Bitmap
