import LuaChecker.Similarity.Run

/-!
# How alike two words are

The ratio of two words is twice the number of their matching characters, divided by the
number of all their characters. A word is read as a misspelling of another one if their
ratio exceeds a threshold; a ratio equal to it does not count. A `Speller` gathers the two
questions that a parser asks about the words that it meets.
-/

namespace LuaChecker.Similarity

/-- The number of characters of two words in matching blocks. -/
def matching (a b : String) : Nat :=
  matchingCharacters a.toList.toArray b.toList.toArray

/-- The share of matching characters: 1 for equal words, 0 for words with no character in
common. -/
def ratio (a b : String) : Float :=
  let total := a.toList.length + b.toList.length
  if total = 0 then 1.0
  else 2.0 * (matching a b).toFloat / total.toFloat

/-- Whether `found` is read as a misspelling of `wanted`. -/
def isTypoOf (found wanted : String) (threshold : Float) : Bool :=
  threshold < ratio found wanted

/-- The better of the best candidate so far and the next one; of equals the earlier. -/
def better (found : String) (best : Option (Nat × Float)) (next : String × Nat) :
    Option (Nat × Float) :=
  let score := ratio found next.1
  match best with
  | none => some (next.2, score)
  | some (_, top) => if top < score then some (next.2, score) else best

/-- The index and the ratio of the first candidate that is most like `found`. -/
def mostAlike (found : String) (candidates : List String) : Option (Nat × Float) :=
  candidates.zipIdx.foldl (better found) none

/-- The index of the first candidate that is most like `found`, if its ratio exceeds the
threshold. -/
def bestMatch (found : String) (candidates : List String) (threshold : Float) : Option Nat :=
  match mostAlike found candidates with
  | some (index, score) => if threshold < score then some index else none
  | none => none

/-- The threshold used where none is given. -/
def defaultThreshold : Float := 0.65

end LuaChecker.Similarity

namespace LuaChecker

structure Speller where
  /-- Whether the first word is read as a misspelling of the second. -/
  resembles : String → String → Bool
  /-- The index of the candidate that a word is read as a misspelling of. -/
  closest : String → List String → Option Nat

def Speller.ofThreshold (threshold : Float) : Speller :=
  ⟨fun found wanted => Similarity.isTypoOf found wanted threshold,
    fun found candidates => Similarity.bestMatch found candidates threshold⟩

end LuaChecker
