import SszArchive.Compression.Bits

/-!
Canonical prefix codes. A code is given by the length of every symbol's codeword, 0 for a symbol
without one; codewords of one length are consecutive numbers in symbol order, and shorter ones
come first.
-/

namespace SszArchive.Deflate

def longestCode : Nat := 15

/-- How much of the code space the lengths take, in units of the longest codeword. -/
def codeSpace (lengths : List Nat) : Nat :=
  totalSize (lengths.map fun l => if l = 0 then 0 else 1 <<< (longestCode - l))

def longest (lengths : List Nat) : Nat := lengths.foldl max 0

/-- Every bit string of the longest length starts with a codeword. -/
def complete (lengths : List Nat) : Bool := codeSpace lengths == 1 <<< longestCode

/-- No codeword starts another, and the code has gaps only when it has codewords of length 1
alone. A code without any codeword is allowed; nothing can be read with it. -/
def usable (lengths : List Nat) : Bool :=
  longest lengths == 0 || complete lengths ||
    (codeSpace lengths < 1 <<< longestCode && longest lengths == 1)

/-! ## Decoding table -/

/-- The number of codewords of every length from 1 on, and the symbols in codeword order. -/
structure Code where
  counts : List Nat
  symbols : Array Nat

def symbolsOfLength (used : List (Nat × Nat)) (l : Nat) : List Nat :=
  used.filterMap fun (n, symbol) => if n = l then some symbol else none

def Code.ofLengths (lengths : List Nat) : Code :=
  let used := lengths.zipIdx.filter fun (n, _) => 0 < n
  let byLength := (List.range longestCode).map fun l => symbolsOfLength used (l + 1)
  ⟨byLength.map List.length, byLength.flatten.toArray⟩

/-! ## Codewords -/

/-- The number of the first codeword of length `l`. -/
def firstCode (lengths : List Nat) : Nat → Nat
  | 0 => 0
  | l + 1 => 2 * (firstCode lengths l + if l = 0 then 0 else lengths.count l)

/-- The codeword of a symbol, most significant bit first. -/
def codeword (lengths : List Nat) (symbol : Nat) : Bits :=
  let l := lengths.getD symbol 0
  (Bits.ofNat l (firstCode lengths l + (lengths.take symbol).count l)).reverse

/-- All codewords by symbol. -/
def codewords (lengths : List Nat) : Array Bits :=
  ((List.range lengths.length).map (codeword lengths)).toArray

/-! ## The fixed codes -/

def fixedLengths : List Nat :=
  List.replicate 144 8 ++ List.replicate 112 9 ++ List.replicate 24 7 ++ List.replicate 8 8

def fixedDistances : List Nat := List.replicate 32 5

/-! ## Lengths and distances of copies -/

/-- The smallest length of every length symbol from 257 on, and the number of extra bits. -/
def lengthSteps : List (Nat × Nat) :=
  [(3, 0), (4, 0), (5, 0), (6, 0), (7, 0), (8, 0), (9, 0), (10, 0), (11, 1), (13, 1), (15, 1),
   (17, 1), (19, 2), (23, 2), (27, 2), (31, 2), (35, 3), (43, 3), (51, 3), (59, 3), (67, 4),
   (83, 4), (99, 4), (115, 4), (131, 5), (163, 5), (195, 5), (227, 5), (258, 0)]

/-- The same for distances, from symbol 0 on. -/
def distanceSteps : List (Nat × Nat) :=
  [(1, 0), (2, 0), (3, 0), (4, 0), (5, 1), (7, 1), (9, 2), (13, 2), (17, 3), (25, 3), (33, 4),
   (49, 4), (65, 5), (97, 5), (129, 6), (193, 6), (257, 7), (385, 7), (513, 8), (769, 8),
   (1025, 9), (1537, 9), (2049, 10), (3073, 10), (4097, 11), (6145, 11), (8193, 12),
   (12289, 12), (16385, 13), (24577, 13)]

/-- The order in which the lengths of the code for lengths are sent. -/
def lengthOrder : List Nat :=
  [16, 17, 18, 0, 8, 7, 9, 6, 10, 5, 11, 4, 12, 3, 13, 2, 14, 1, 15]

end SszArchive.Deflate
