import SolidityAst.Text.Quoted

/-!
Keccak-256, the hash by which the ledger knows a source.

The state is twenty-five 64-bit lanes, lane `(x, y)` at place `x + 5 y`. A message is padded to whole
blocks of 136 bytes, each block is added to the state before a permutation of twenty-four rounds, and
the first 32 bytes of the last state are the hash.
-/
namespace SolidityAst.Hash.Keccak

abbrev State := Array UInt64

/-- The lane at `(x, y)`, both taken modulo five. -/
def lane (s : State) (x y : Nat) : UInt64 := s.getD (x % 5 + 5 * (y % 5)) 0

def ofLanes (f : Nat → Nat → UInt64) : State :=
  ((List.range 25).map fun i => f (i % 5) (i / 5)).toArray

def rotate (w : UInt64) (n : Nat) : UInt64 :=
  if n = 0 then w else (w <<< n.toUInt64) ||| (w >>> (64 - n).toUInt64)

def rotations : Array Nat :=
  #[0, 1, 62, 28, 27, 36, 44, 6, 55, 20, 3, 10, 43, 25, 39, 41, 45, 15, 21, 8, 18, 2, 61, 56, 14]

def roundConstants : List UInt64 := [
  0x0000000000000001, 0x0000000000008082, 0x800000000000808A, 0x8000000080008000,
  0x000000000000808B, 0x0000000080000001, 0x8000000080008081, 0x8000000000008009,
  0x000000000000008A, 0x0000000000000088, 0x0000000080008009, 0x000000008000000A,
  0x000000008000808B, 0x800000000000008B, 0x8000000000008089, 0x8000000000008003,
  0x8000000000008002, 0x8000000000000080, 0x000000000000800A, 0x800000008000000A,
  0x8000000080008081, 0x8000000000008080, 0x0000000080000001, 0x8000000080008008]

def theta (s : State) : State :=
  let columns : State := ((List.range 5).map fun x =>
    lane s x 0 ^^^ lane s x 1 ^^^ lane s x 2 ^^^ lane s x 3 ^^^ lane s x 4).toArray
  let column (x : Nat) : UInt64 := columns.getD (x % 5) 0
  ofLanes fun x y => lane s x y ^^^ column (x + 4) ^^^ rotate (column (x + 1)) 1

def rhoPi (s : State) : State :=
  ofLanes fun x y =>
    -- lane (x, y) comes from (x + 3 y, x)
    let column := (x + 3 * y) % 5
    rotate (lane s column x) (rotations.getD (column + 5 * x) 0)

def chi (s : State) : State :=
  ofLanes fun x y => lane s x y ^^^ (~~~ lane s (x + 1) y &&& lane s (x + 2) y)

def round (s : State) (constant : UInt64) : State :=
  (chi (rhoPi (theta s))).modify 0 (· ^^^ constant)

def permute (s : State) : State := roundConstants.foldl round s

def rate : Nat := 136

/-- A message with its padding: a one bit first and a one bit last. -/
def pad (message : Bytes) : Bytes :=
  let free := rate - message.length % rate
  if free = 1 then message ++ [0x81]
  else message ++ 0x01 :: List.replicate (free - 2) 0 ++ [0x80]

def blocks (padded : Bytes) : List Bytes :=
  (List.range (padded.length / rate)).map fun i => (padded.drop (i * rate)).take rate

/-- A lane from its bytes, the lowest first. -/
def laneOf (bs : Bytes) : UInt64 := bs.foldr (fun b w => (w <<< 8) ||| b.toUInt64) 0

/-- The bytes of a lane, the lowest first. -/
def laneBytes (w : UInt64) : Bytes :=
  (List.range 8).map fun i => (w >>> (8 * i).toUInt64).toUInt8

def absorb (s : State) (block : Bytes) : State :=
  permute (ofLanes fun x y => lane s x y ^^^ laneOf ((block.drop (8 * (x + 5 * y))).take 8))

def hash (message : Bytes) : Bytes :=
  let s := (blocks (pad message)).foldl absorb (ofLanes fun _ _ => 0)
  (List.range 4).flatMap fun i => laneBytes (lane s i 0)

/-- The hash of a message in hexadecimal, after `0x`. -/
def hashText (message : Bytes) : String := "0x" ++ Text.hex (hash message)

end SolidityAst.Hash.Keccak
