/-
# `Oxyn.Core.Capabilities` — what a session declares it knows

Flags, one bit each.  A missing one means that the source does not know how.
-/
import Oxyn.Lib.Text

namespace Oxyn

open Text

structure Capabilities where
  bits : Nat
deriving DecidableEq, Repr

namespace Capabilities

/-- The names of the bits, in the order they are declared. -/
def flags : List (String × Nat) :=
  [("SCHEMAS", 0), ("TABLES", 1), ("VIEWS", 2), ("MATERIALIZED_VIEWS", 3), ("INDEXES", 4),
    ("CONSTRAINTS", 5), ("FOREIGN_KEYS", 6), ("ROUTINES", 7), ("TRIGGERS", 8), ("SEQUENCES", 9),
    ("USER_TYPES", 10), ("COMMENTS", 11), ("PERMISSIONS", 12), ("ROW_COUNT_ESTIMATE", 13),
    ("INCOMING_FOREIGN_KEYS", 14), ("OBJECT_DEFINITION", 15), ("TRANSACTIONS", 16),
    ("SAVEPOINTS", 17), ("PREPARED_STATEMENTS", 18), ("NAMED_CURSORS", 19),
    ("MULTIPLE_STATEMENTS", 20), ("SERVER_SIDE_CANCEL", 21), ("STREAMING", 22),
    ("AFFECTED_ROWS", 23), ("EXPLAIN", 24), ("EXPLAIN_ANALYZE", 25), ("DDL", 26), ("DML", 27),
    ("GRANT_REVOKE", 28), ("BULK_LOAD", 29), ("READ_ONLY_SESSION", 30), ("SESSION_CONTEXT", 31),
    ("PREVIEW_SORT", 42), ("PREVIEW_FILTER", 43), ("TRUNCATE", 44), ("TRANSACTIONAL_DDL", 45),
    ("RESTRICT_DEPENDENTS", 46), ("SQL", 32), ("CYPHER", 33), ("GREMLIN", 34),
    ("MONGO_QUERY", 35), ("REDIS_COMMAND", 36), ("SEARCH_DSL", 37), ("CQL", 38), ("PARTIQL", 39),
    ("INFLUXQL", 40), ("FLUX", 41), ("RELATIONAL", 48), ("DOCUMENT", 49), ("KEY_VALUE", 50),
    ("GRAPH", 51), ("TIME_SERIES", 52), ("SCHEMALESS", 53), ("INFERRED_SCHEMA", 54),
    ("VECTOR_SEARCH", 55), ("FULL_TEXT_SEARCH", 56)]

/-- `SCHEMAS`: the source has a schema level. -/
def schemas : Nat := 0

def indexes : Nat := 4

def constraints : Nat := 5

def foreignKeys : Nat := 6

def incomingForeignKeys : Nat := 14

def objectDefinition : Nat := 15

def contains (c : Capabilities) (flag : Nat) : Bool := c.bits.testBit flag

def names (c : Capabilities) : List Str :=
  (flags.filter fun flag => c.contains flag.2).map fun flag => flag.1.toList

def unknown (c : Capabilities) : Nat :=
  flags.foldl (fun bits flag => bits - if bits.testBit flag.2 then 2 ^ flag.2 else 0) c.bits

/-- `Display`: the names, and the bits that have none. -/
def display (c : Capabilities) : Str :=
  if c.bits = 0 then "(none)".toList
  else
    List.intercalate " | ".toList
      (c.names ++
        if c.unknown = 0 then []
        else ["(unknown: 0x".toList ++ Nat.toDigits 16 c.unknown ++ ")".toList])

end Capabilities

end Oxyn
