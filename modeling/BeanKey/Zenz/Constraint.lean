import BeanKey.Text

/-! The prefix constraint the model's review puts on the words of a conversion. -/
namespace BeanKey.Zenz

structure FixedPrefix where
  byteCount : Nat
  rubyCount : Nat
  deriving DecidableEq

structure PrefixConstraint where
  bytes : List UInt8 := []
  hasEos : Bool := false
  ignoreMemoryAndUserDictionary : Bool := false
  fixedPrefix : Option FixedPrefix := none
  deriving DecidableEq

namespace PrefixConstraint

def isEmpty (constraint : PrefixConstraint) : Bool :=
  constraint.bytes.isEmpty && !constraint.hasEos

def canContinue (constraint : PrefixConstraint) (candidate : List UInt8) : Bool :=
  if constraint.hasEos then
    candidate.length ≤ constraint.bytes.length && candidate.isPrefixOf constraint.bytes
  else candidate.isPrefixOf constraint.bytes || constraint.bytes.isPrefixOf candidate

def isSatisfiedBy (constraint : PrefixConstraint) (candidate : List UInt8) : Bool :=
  if constraint.hasEos then candidate = constraint.bytes
  else constraint.bytes.isPrefixOf candidate

def matchesFixedPrefix (constraint : PrefixConstraint) (candidate : List UInt8) : Bool :=
  match constraint.fixedPrefix with
  | none => true
  | some fixedPrefix =>
    if fixedPrefix.byteCount ≤ constraint.bytes.length then
      let compared := min candidate.length fixedPrefix.byteCount
      (constraint.bytes.take fixedPrefix.byteCount).take compared = candidate.take compared
    else false

end PrefixConstraint

end BeanKey.Zenz
