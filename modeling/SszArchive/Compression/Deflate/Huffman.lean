import SszArchive.Compression.Deflate.Code

/-!
Code lengths from weights: the two lightest trees are joined until one is left, and a symbol's
length is its depth in it.
-/

namespace SszArchive.Deflate

inductive Tree where
  | leaf (symbol : Nat)
  | node (left right : Tree)

namespace Tree

/-- The symbols with their depths, for a tree that itself stands at depth `depth`. -/
def depths (depth : Nat) : Tree → List (Nat × Nat)
  | leaf symbol => [(symbol, depth)]
  | node left right => depths (depth + 1) left ++ depths (depth + 1) right

def insertByWeight (x : Nat × Tree) : List (Nat × Tree) → List (Nat × Tree)
  | [] => [x]
  | y :: rest => if x.1 ≤ y.1 then x :: y :: rest else y :: insertByWeight x rest

/-- Joins trees, lightest first. Every step leaves one tree fewer. -/
def join : Nat → List (Nat × Tree) → List Tree
  | n + 1, (v, a) :: (w, b) :: rest => join n (insertByWeight (v + w, node a b) rest)
  | _, trees => trees.map Prod.snd

end Tree

/-- Symbols of weight 0 get no codeword. -/
def depthLengths (weights : List Nat) : List Nat :=
  let leaves := weights.zipIdx.foldl (fun trees (w, symbol) =>
    if w = 0 then trees else Tree.insertByWeight (w, .leaf symbol) trees) []
  let depths := (Tree.join leaves.length leaves).flatMap (Tree.depths 0)
  (depths.foldl (fun lengths (symbol, depth) => lengths.setIfInBounds symbol depth)
    (Array.replicate weights.length 0)).toList

/-- Gives the first symbols a weight until at least two have one, so that the code is complete. -/
def atLeastTwo (weights : List Nat) : List Nat :=
  let one (ws : List Nat) := match ws with
    | 0 :: rest => 1 :: rest
    | w :: 0 :: rest => w :: 1 :: rest
    | ws => ws
  let used := weights.countP (· != 0)
  if used = 0 then one (one weights) else if used = 1 then one weights else weights

/-- Lengths of at most `limit`: weights are halved until no codeword is longer. -/
def boundedLengths (limit : Nat) : Nat → List Nat → List Nat
  | 0, weights => depthLengths weights
  | n + 1, weights =>
      let lengths := depthLengths weights
      if longest lengths ≤ limit then lengths
      else boundedLengths limit n (weights.map fun w => (w + 1) / 2)

def huffmanLengths (limit : Nat) (weights : List Nat) : List Nat :=
  boundedLengths limit 64 (atLeastTwo weights)

end SszArchive.Deflate
