import OrderedIndex.Number.Basic
/-!
# Signed words of 32 bits

A number becomes a word by dropping its fraction and wrapping; what is not finite becomes zero.
-/

namespace OrderedIndex

namespace Number

def wordCount : Nat := 4294967296

/-- The whole part of a number, wrapped into the range of a signed word. -/
def toWord (x : Number) : Int := x.truncate.bmod wordCount

/-- Half of the word, rounded down: the word shifted right by one place. -/
def halfWord (x : Number) : Int := x.toWord / 2

/-- Below half the word range, halving a whole number does not wrap. -/
theorem halfWord_ofNat {n : Nat} (small : 2 * n < wordCount) : (ofNat n).halfWord = (n / 2 : Nat) := by
  have wrap : (ofNat n).toWord = n := by
    rw [toWord, truncate_ofNat]
    unfold wordCount at *
    apply Int.bmod_eq_of_le <;> omega
  rw [halfWord, wrap]
  omega

end Number

def wordXor (a b : Int) : Int := (BitVec.ofInt 32 a ^^^ BitVec.ofInt 32 b).toInt

end OrderedIndex
