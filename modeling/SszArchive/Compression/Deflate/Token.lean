import SszArchive.Bytes
import Std.Data.TreeMap

/-!
Data as literal bytes and copies of earlier data. A copy is 3 to 258 bytes long and starts at
most 32768 bytes back; it may run into the bytes that it produces.
-/

namespace SszArchive.Deflate

inductive Token where
  | literal (byte : UInt8)
  | copy (length distance : Nat)
  deriving DecidableEq, Repr

def longestCopy : Nat := 258

def farthestCopy : Nat := 32768

/-- How many of the next `n` bytes from `i` and from `j` on agree. -/
def agreement (data : Array UInt8) (i j : Nat) : Nat → Nat
  | 0 => 0
  | n + 1 =>
      if data.getD i 0 = data.getD j 0 then agreement data (i + 1) (j + 1) n + 1 else 0

/-- The longest copy at `here` among the earlier positions, the nearest if there are several.
A copy of three bytes from far away takes more bits than the bytes themselves. -/
def bestCopy (data : Array UInt8) (here : Nat) (earlier : List Nat) : Option (Nat × Nat) :=
  earlier.foldl (fun best place =>
    let distance := here - place
    let length := agreement data place here (min longestCopy (data.size - here))
    let useful := 3 < length || (length == 3 && distance ≤ 4096)
    let longer := match best with
      | none => true
      | some (known, _) => known < length
    if useful && longer && distance ≤ farthestCopy then some (length, distance) else best) none

/-- The positions of the last occurrences of every three bytes. -/
abbrev Occurrences := Std.TreeMap Nat (List Nat)

def threeBytes (data : Array UInt8) (i : Nat) : Nat :=
  (data.getD i 0).toNat + 256 * (data.getD (i + 1) 0).toNat
    + 65536 * (data.getD (i + 2) 0).toNat

def remembered : Nat := 64

/-- The tokens of the last `n` bytes, of which a copy covers the first `covered` already. -/
def tokensFrom (data : Array UInt8) : Nat → Nat → Occurrences → Array Token → Array Token
  | 0, _, _, tokens => tokens
  | n + 1, covered, seen, tokens =>
      let here := data.size - (n + 1)
      let key := threeBytes data here
      let earlier := seen.getD key []
      let seen := seen.insert key ((here :: earlier).take remembered)
      match covered with
      | k + 1 => tokensFrom data n k seen tokens
      | 0 =>
          match bestCopy data here earlier with
          | none => tokensFrom data n 0 seen (tokens.push (.literal (data.getD here 0)))
          | some (length, distance) =>
              tokensFrom data n (length - 1) seen (tokens.push (.copy length distance))

def tokens (data : Bytes) : List Token :=
  let data := data.toArray
  (tokensFrom data data.size 0 ∅ #[]).toList

end SszArchive.Deflate
