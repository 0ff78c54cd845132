/-!
# Misuse

The operations of this library are total, but each is meant for arguments of a certain shape. A
checked operation tests its arguments first and answers with a `Misuse` where they do not have that
shape; where they do, it answers as the operation does.
-/

namespace BitEnvelope

/-- What is wrong with the arguments of an operation. -/
inductive Misuse where
  | unequalLengths
  /-- A position or a word lies outside a storage. -/
  | outsideStorage
  | unequalWordCounts
  | emptyWidth
  | emptyChoice
deriving DecidableEq, Repr

/-- Goes on only if the arguments are right. -/
def Misuse.unless (m : Misuse) (right : Bool) : Except Misuse Unit :=
  if right then .ok () else .error m

end BitEnvelope
