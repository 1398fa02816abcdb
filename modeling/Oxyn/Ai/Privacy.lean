/-
# `Oxyn.Ai.Privacy` — what may leave

A connection's tier says whether row values may reach a prompt.
-/

namespace Oxyn.Ai

/-- The privacy tier of a connection, from the most restrictive to the least. -/
inductive PrivacyTier where
  /-- Nothing leaves the machine. -/
  | local
  /-- Structure, and no row value. -/
  | metadata
  /-- The same, and rows the user approved. -/
  | sampled
deriving DecidableEq, Repr

namespace PrivacyTier

def allowsRowValues : PrivacyTier → Bool
  | .sampled => true
  | _ => false

/-- Stable name. -/
def asStr : PrivacyTier → String
  | .local => "local"
  | .metadata => "metadata"
  | .sampled => "sampled"

def describe : PrivacyTier → String
  | .local => "nothing leaves this machine; local model only"
  | .metadata => "schema only: names, types, indexes, cardinalities — no row values"
  | .sampled => "schema, plus row samples you approved column by column"

end PrivacyTier

end Oxyn.Ai
