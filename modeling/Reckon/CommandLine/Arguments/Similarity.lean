/-!
How much two texts have in common.

The longest block that both texts hold is matched, then the same is done on either side of it. The
likeness of two texts is the share of their characters that is matched. It tells which options may
have been meant by one that does not exist.

    --warnigs        matched  --warni │ gs           likeness  2 * 9 / (10 + 9)
    --warnings                --warni │n│ gs
-/

namespace Reckon.Similarity

/-- The length of the longest common beginning. -/
def commonLength : List Char → List Char → Nat
  | a :: as, b :: bs => if a = b then commonLength as bs + 1 else 0
  | _, _ => 0

/-- A block that two texts share: where it starts in each, and its length. -/
structure Block where
  left : Nat
  right : Nat
  length : Nat

/-- The longest block two texts share; of several, the one that starts first. -/
def longestBlock (as bs : List Char) : Block :=
  let blocks := (List.range as.length).flatMap fun i =>
    (List.range bs.length).map fun j => Block.mk i j (commonLength (as.drop i) (bs.drop j))
  blocks.foldl (fun best block => if best.length < block.length then block else best) ⟨0, 0, 0⟩

/-- The number of characters that are matched, within `fuel` nested blocks. -/
def matchedWithin : Nat → List Char → List Char → Nat
  | 0, _, _ => 0
  | fuel + 1, as, bs =>
    let block := longestBlock as bs
    if block.length = 0 then 0
    else
      matchedWithin fuel (as.take block.left) (bs.take block.right) + block.length +
        matchedWithin fuel (as.drop (block.left + block.length))
          (bs.drop (block.right + block.length))

/-- The number of characters that are matched; each block takes at least one of the first text. -/
def matched (as bs : List Char) : Nat := matchedWithin as.length as bs

/-- Whether three fifths of the characters of two texts are matched. -/
def isClose (a b : String) : Bool :=
  3 * (a.length + b.length) ≤ 10 * matched a.toList b.toList

/-- Whether `a` is at least as like a word as `b`; of two that are equally like it, the later one in
the order of texts comes first. -/
def isAtLeastAsClose (word a b : String) : Bool :=
  let share := matched a.toList word.toList * (b.length + word.length)
  let other := matched b.toList word.toList * (a.length + word.length)
  other < share || (share == other && !decide (a < b))

/-- How many candidates are told at most. -/
def told : Nat := 3

/-- The candidates that are closest to a word among those that are close to it, in ascending order. -/
def closest (word : String) (candidates : List String) : List String :=
  let close := candidates.filter fun c => isClose c word
  ((close.mergeSort (isAtLeastAsClose word)).take told).mergeSort fun a b => !decide (b < a)

end Reckon.Similarity
