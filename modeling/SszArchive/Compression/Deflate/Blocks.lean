import SszArchive.Compression.Deflate.Huffman
import SszArchive.Compression.Deflate.Token

/-!
Writing DEFLATE data: the shortest of stored blocks, one block with the fixed codes, and one
block with codes made for the data.
-/

namespace SszArchive.Deflate

/-! ## Stored blocks -/

def storedMost : Nat := 65535

/-- A stored block as bytes. It starts at a byte, so that the rest of the byte of its head is
empty. -/
def storedBytes (last : Bool) (content : Bytes) : Bytes :=
  (if last then 1 else 0) :: littleEndian 2 content.length
    ++ littleEndian 2 (storedMost - content.length) ++ content

def storedBlocks (data : Bytes) : Bytes :=
  if storedMost < data.length then
    storedBytes false (data.take storedMost) ++ storedBlocks (data.drop storedMost)
  else storedBytes true data
termination_by data.length
decreasing_by simp only [List.length_drop, storedMost] at *; omega

/-! ## Coded blocks -/

/-- A symbol, and a number of extra bits behind it. -/
structure Coded where
  symbol : Nat
  width : Nat := 0
  extra : Nat := 0

def stepOf (steps : List (Nat × Nat)) (value : Nat) : Coded :=
  let index := (steps.takeWhile (·.1 ≤ value)).length - 1
  let (least, width) := steps.getD index (0, 0)
  ⟨index, width, value - least⟩

def lengthSymbol (length : Nat) : Coded :=
  let step := stepOf lengthSteps length
  { step with symbol := 257 + step.symbol }

def Coded.bits (words : Array Bits) (c : Coded) : Bits :=
  words.getD c.symbol [] ++ Bits.ofNat c.width c.extra

def endOfBlock : Nat := 256

def tokenBits (literals distances : Array Bits) : Token → Bits
  | .literal b => literals.getD b.toNat []
  | .copy length distance =>
      (lengthSymbol length).bits literals ++ (stepOf distanceSteps distance).bits distances

def tokensBits (literalLengths distanceLengths : List Nat) (tokens : List Token) : Bits :=
  let literals := codewords literalLengths
  tokens.flatMap (tokenBits literals (codewords distanceLengths)) ++ literals.getD endOfBlock []

def fixedBlock (tokens : List Token) : Bits :=
  [true] ++ Bits.ofNat 2 1 ++ tokensBits fixedLengths fixedDistances tokens

/-! ## Codes made for the data -/

def weights (size : Nat) (symbols : List Nat) : List Nat :=
  (symbols.foldl (fun counts s => counts.setIfInBounds s (counts.getD s 0 + 1))
    (Array.replicate size 0)).toList

def literalSymbols (tokens : List Token) : List Nat :=
  tokens.map (fun
    | .literal b => b.toNat
    | .copy length _ => (lengthSymbol length).symbol) ++ [endOfBlock]

def distanceSymbols (tokens : List Token) : List Nat :=
  tokens.filterMap fun
    | .literal _ => none
    | .copy _ distance => some (stepOf distanceSteps distance).symbol

/-- Without the zeros at the end, but of the least size. -/
def shortened (least : Nat) (lengths : List Nat) : List Nat :=
  lengths.take (max least (lengths.reverse.dropWhile (· == 0)).length)

/-- `times` equal code lengths in one symbol: 16 repeats the one before, 17 and 18 are zeros. -/
def repetition (value times : Nat) : Coded :=
  if value ≠ 0 then ⟨16, 2, times - 3⟩
  else if times ≤ 10 then ⟨17, 3, times - 3⟩
  else ⟨18, 7, times - 11⟩

def runSymbols (value times : Nat) : List Coded :=
  let plain : Coded := { symbol := value }
  let most := if value = 0 then 138 else 6
  let first := if value = 0 then 0 else 1
  let others := times - first
  let left := others % most
  List.replicate first plain ++ List.replicate (others / most) (repetition value most)
    ++ if 3 ≤ left then [repetition value left] else List.replicate left plain

def runs : List Nat → List (Nat × Nat)
  | [] => []
  | l :: rest =>
      match runs rest with
      | (value, times) :: others =>
          if value = l then (value, times + 1) :: others else (l, 1) :: (value, times) :: others
      | [] => [(l, 1)]

def ownBlock (tokens : List Token) : Bits :=
  let literals := huffmanLengths longestCode (weights 286 (literalSymbols tokens))
  let distances := huffmanLengths longestCode (weights 30 (distanceSymbols tokens))
  let literals := shortened 257 literals
  let distances := shortened 1 distances
  let symbols := (runs (literals ++ distances)).flatMap fun (value, times) => runSymbols value times
  let forLengths := huffmanLengths 7 (weights 19 (symbols.map Coded.symbol))
  let sent := shortened 4 (lengthOrder.map fun symbol => forLengths.getD symbol 0)
  [true] ++ Bits.ofNat 2 2 ++ Bits.ofNat 5 (literals.length - 257)
    ++ Bits.ofNat 5 (distances.length - 1) ++ Bits.ofNat 4 (sent.length - 4)
    ++ sent.flatMap (Bits.ofNat 3) ++ symbols.flatMap (Coded.bits (codewords forLengths))
    ++ tokensBits literals distances tokens

/-- Level 0 stores; all others look for the shortest form. -/
def deflate (level : Nat) (data : Bytes) : Bytes :=
  let stored := storedBlocks data
  if level = 0 then stored
  else
    let found := tokens data
    let shorter (a b : Bytes) := if b.length < a.length then b else a
    shorter (shorter stored (Bits.toBytes (fixedBlock found))) (Bits.toBytes (ownBlock found))

end SszArchive.Deflate
