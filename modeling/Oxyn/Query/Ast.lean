/-
# `Oxyn.Query.Ast` — what the parser answers

The part of the syntax tree of `sqlparser` that classification reads.  A statement whose form
alone is looked at is a `Form`; the others carry what is read of them.
-/
import Oxyn.Core.Query

namespace Oxyn

open Text

/-! ## Expressions -/

inductive Value where
  | boolean (state : Bool)
  | number (text : String)
  | other (text : String)
deriving DecidableEq, Repr

inductive UnaryOperator where
  | not | minus | plus | other
deriving DecidableEq, Repr

inductive BinaryOperator where
  | or | and | eq | notEq | gt | lt | gtEq | ltEq | other
deriving DecidableEq, Repr

inductive Expr where
  | nested (inner : Expr)
  | value (value : Value)
  | unaryOp (op : UnaryOperator) (expr : Expr)
  | binaryOp (left : Expr) (op : BinaryOperator) (right : Expr)
  | identifier (name : String)
  | compoundIdentifier (parts : List String)
  | other (text : String)
deriving DecidableEq, Repr

/-! ## Statements -/

/-- The statements of which nothing but the form is read. -/
inductive Form where
  | explainTable
  | showFunctions | showVariable | showStatus | showVariables | showCreate | showColumns
  | showCatalogs | showDatabases | showProcessList | showSchemas | showCharset | showObjects
  | showTables | showViews | showCollation
  | commit | rollback | savepoint | releaseSavepoint
  | merge | truncate
  | dropFunction | dropDomain | dropProcedure | dropSecret | dropPolicy | dropConnector
  | dropExtension | dropOperator | dropOperatorFamily | dropOperatorClass | dropTrigger
  | createView | createTable | createVirtualTable | createIndex | createSecret | createServer
  | createPolicy | createConnector | createOperator | createOperatorFamily | createOperatorClass
  | createExtension | createCollation | createSchema | createDatabase | createFunction
  | createTrigger | createProcedure | createMacro | createStage | createSequence | createDomain
  | createType
  | alterTable | alterSchema | alterIndex | alterView | alterFunction | alterType
  | alterCollation | alterOperator | alterOperatorFamily | alterOperatorClass | alterPolicy
  | alterConnector | renameTable | comment | attachDatabase | attachDuckDbDatabase
  | detachDuckDbDatabase
  | grant | revoke | deny | createRole | alterRole | createUser | alterUser
  | use
  /-- Every form that classification does not name. -/
  | other
deriving DecidableEq, Repr

/-- What `DROP` drops, where it matters. -/
inductive ObjectType where
  | role | user | other
deriving DecidableEq, Repr

inductive CopyTarget where
  | stdin | stdout | file | program
deriving DecidableEq, Repr

inductive CopyIntoSnowflakeKind where
  | table | location
deriving DecidableEq, Repr

inductive SetForm where
  | setRole | setSessionAuthorization | other
deriving DecidableEq, Repr

mutual

/-- A query: the queries of its `WITH` clause, none when it has no such clause, and
its body. -/
inductive Query where
  | mk (cteTables : List Query) (body : SetExpr)

/-- The body of a query.  Of a `SELECT`, whether it has an `INTO` is read. -/
inductive SetExpr where
  | select (into : Bool)
  | values
  | table
  | query (inner : Query)
  | setOperation (left right : SetExpr)
  | insert (statement : Statement)
  | update (statement : Statement)
  | delete (statement : Statement)
  | merge (statement : Statement)

inductive CopySource where
  | table
  | query (query : Query)

inductive Statement where
  | query (query : Query)
  | explain (analyze : Bool) (options : Option (List String)) (statement : Statement)
  | startTransaction (statements : List Statement) (exception hasEndKeyword : Bool)
  | insert (source : Option Query)
  | update (selection : Option Expr)
  | delete (selection : Option Expr)
  | copy (source : CopySource) (isTo : Bool) (target : CopyTarget)
  | copyIntoSnowflake (kind : CopyIntoSnowflakeKind)
  | drop (objectType : ObjectType)
  | set (form : SetForm)
  | form (form : Form)

end

/-! ## The parser -/

/-- The grammars of `sqlparser`. -/
inductive Grammar where
  | generic | postgreSql | mySql | sqlite | msSql | clickHouse | duckDb | snowflake | bigQuery
deriving DecidableEq, Repr

def parserDialect : SqlDialect → Grammar
  | .postgres | .redshift => .postgreSql
  | .mySql => .mySql
  | .sqlite => .sqlite
  | .sqlServer => .msSql
  | .clickHouse => .clickHouse
  | .duckDb => .duckDb
  | .snowflake => .snowflake
  | .bigQuery => .bigQuery
  | .ansi | .oracle => .generic

/-- `Parser::parse_sql`: the message of a refusal, or the statements read. -/
abbrev Parser := Grammar → Str → Except String (List Statement)

end Oxyn
