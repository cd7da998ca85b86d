import PiecewiseNet.Text.Numeral

/-!
# Label prefixes

Networks that are imported in one session get labels that start with a prefix of their own.

## Main definitions

- `NameSupply`: how many prefixes of each kind were given out.
- `NameSupply.nnet`, `NameSupply.ipq`: the next prefix of each kind.
-/

namespace PiecewiseNet

/-- How many prefixes were given out. -/
structure NameSupply where
  /-- The number of weight files that were built. -/
  nnetCount : Nat := 0
  /-- The number of query files that were rebuilt. -/
  ipqCount : Nat := 0
deriving DecidableEq, Repr

namespace NameSupply

/-- The prefix for the next weight file. -/
def nnet (s : NameSupply) : String × NameSupply :=
  ("nnet" ++ toString s.nnetCount ++ "_", { s with nnetCount := s.nnetCount + 1 })

/-- The prefix for the next query file. -/
def ipq (s : NameSupply) : String × NameSupply :=
  ("ipq" ++ toString s.ipqCount ++ "_", { s with ipqCount := s.ipqCount + 1 })

end NameSupply

/-- An index in a label: two digits at least. -/
def labelIndex (n : Nat) : String :=
  Text.padded 2 n

end PiecewiseNet
