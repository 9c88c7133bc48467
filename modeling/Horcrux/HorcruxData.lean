import Horcrux.Utils
import Mathlib.Algebra.Group.Nat.Defs

namespace Horcrux

structure HorcruxData where
  mContent : Bytes
  mChecksum : Bytes
  deriving DecidableEq

namespace Client

/-- `ChecksumInterface::getChecksum`, a stub in the source. -/
def getChecksum (_ : Bytes) : Bytes := []

namespace BasicFileSplitter

/-- `std::string(begin() + first, begin() + last)`. An inverted range or one past the
end has no meaning. -/
def range (binaryData : Bytes) (first last : Nat) : Option Bytes :=
  if first ≤ last ∧ last ≤ binaryData.length then
    some ((binaryData.drop first).take (last - first))
  else none

/-- One turn of split's loop. The counter is an `int32_t`, whose increment must not
overflow; the products are `uint32_t` and wrap. -/
def piece (mNumSplits horcruxSize : UInt32) (binaryData : Bytes) (idx : Nat) :
    Option HorcruxData := do
  guard (idx + 1 < 2 ^ 31)
  let beginIt := (UInt32.ofNat idx * horcruxSize).toNat
  let endIt := if UInt32.ofNat idx ≠ mNumSplits - 1 then
    (UInt32.ofNat (idx + 1) * horcruxSize).toNat else binaryData.length
  let horcruxContent ← range binaryData beginIt endIt
  pure ⟨horcruxContent, getChecksum horcruxContent⟩

/-- `none` is the undefined behaviour of an invalid iterator range or of a counter
overflow; the empty list is the source's own refusal. -/
def split (mNumSplits : UInt32) (binaryData : Bytes) : Option (List HorcruxData) :=
  if mNumSplits = 0 then
    some []
  else if binaryData.length < mNumSplits.toNat then
    some []
  else
    let horcruxSize := UInt32.ofNat (binaryData.length / mNumSplits.toNat)
    (List.range mNumSplits.toNat).mapM (piece mNumSplits horcruxSize binaryData)

def join (horcrux : List HorcruxData) : Bytes :=
  horcrux.foldl (fun joinedHorcrux h => joinedHorcrux ++ h.mContent) []

end BasicFileSplitter
end Client
end Horcrux
