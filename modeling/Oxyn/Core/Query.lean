/-
# `Oxyn.Core.Query` — what is asked of a database

Languages and dialects, the intent and the risk the gate decides on, the limits an execution
carries and the request that holds them all.
-/
import Oxyn.Lib.Text

namespace Oxyn

open Text

inductive SqlDialect where
  | ansi | postgres | mySql | sqlite | sqlServer | oracle | clickHouse | duckDb | snowflake
  | bigQuery | redshift
deriving DecidableEq, Repr

inductive QueryLanguage where
  | sql (dialect : SqlDialect)
  | cypher | gremlin | mongoQuery | redisCommand | searchDsl | cql | partiQl | influxQl | flux
deriving DecidableEq, Repr

/-- Stable name of the dialect. -/
def SqlDialect.asStr : SqlDialect → String
  | .ansi => "ansi"
  | .postgres => "postgres"
  | .mySql => "mysql"
  | .sqlite => "sqlite"
  | .sqlServer => "sqlserver"
  | .oracle => "oracle"
  | .clickHouse => "clickhouse"
  | .duckDb => "duckdb"
  | .snowflake => "snowflake"
  | .bigQuery => "bigquery"
  | .redshift => "redshift"

def QueryLanguage.display : QueryLanguage → String
  | .sql d => "sql/" ++ d.asStr
  | .cypher => "cypher"
  | .gremlin => "gremlin"
  | .mongoQuery => "mongo"
  | .redisCommand => "redis"
  | .searchDsl => "search-dsl"
  | .cql => "cql"
  | .partiQl => "partiql"
  | .influxQl => "influxql"
  | .flux => "flux"

def QueryLanguage.sqlDialect : QueryLanguage → Option SqlDialect
  | .sql d => some d
  | _ => none

/-- What a statement does, from the database's point of view. -/
inductive StatementIntent where
  | read | write | ddl | grant | unknown
deriving DecidableEq, Repr

namespace StatementIntent

/-- Everything but a read may modify something, `unknown` included. -/
def isMutating : StatementIntent → Bool
  | .read => false
  | _ => true

def isReadOnly : StatementIntent → Bool
  | .read => true
  | _ => false

def asStr : StatementIntent → String
  | .read => "read"
  | .write => "write"
  | .ddl => "ddl"
  | .grant => "grant"
  | .unknown => "unknown"

@[simp] theorem isReadOnly_eq_not (i : StatementIntent) : i.isReadOnly = !i.isMutating := by
  cases i <;> rfl

end StatementIntent

/-- A mutation form whose scope the statement does not bound. -/
inductive MutationRisk where
  | none | unboundedUpdate | unboundedDelete | truncate | dropObject | copyToServerFile
  | copyServerProgram
deriving DecidableEq, Repr

namespace MutationRisk

def isSome : MutationRisk → Bool
  | .none => false
  | _ => true

/-- The approval reason, showable as it is. -/
def reason : MutationRisk → Option String
  | .none => Option.none
  | .unboundedUpdate => some "UPDATE without a WHERE clause: every row"
  | .unboundedDelete => some "DELETE without a WHERE clause: every row"
  | .truncate => some "TRUNCATE: the table is emptied"
  | .dropObject => some "DROP: the object and its data are removed"
  | .copyToServerFile => some "COPY: writes a file on the database server"
  | .copyServerProgram => some "COPY: runs a program on the database server"

theorem isSome_reason (r : MutationRisk) : r.reason.isSome = r.isSome := by
  cases r <;> rfl

end MutationRisk

/-- The bounds imposed on an execution. -/
structure ExecLimits where
  maxRows : Option Nat
  timeout : Option Nat
  /-- Forbids any write for this execution. -/
  readOnly : Bool
deriving DecidableEq, Repr

namespace ExecLimits

/-- Thirty seconds. -/
def defaultTimeout : Nat := 30 * 1000000000

def defaultMaxRows : Nat := 10000

/-- The default is the cautious one: bounded in rows, bounded in time, read-only. -/
def default : ExecLimits := ⟨some defaultMaxRows, some defaultTimeout, true⟩

end ExecLimits

/-- A complete execution request.  Everything but `language` and `text` may be
declared by the caller. -/
structure ExecRequest where
  language : QueryLanguage
  text : Str
  intent : StatementIntent
  risk : MutationRisk
  limits : ExecLimits
  transactionControl : Bool
  contextChange : Bool
deriving DecidableEq, Repr

namespace ExecRequest

def isMutating (r : ExecRequest) : Bool := r.intent.isMutating || r.risk.isSome

def withIntent (r : ExecRequest) (i : StatementIntent) : ExecRequest := { r with intent := i }

def withRisk (r : ExecRequest) (k : MutationRisk) : ExecRequest := { r with risk := k }

end ExecRequest

end Oxyn
