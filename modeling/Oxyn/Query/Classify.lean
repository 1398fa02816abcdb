/-
# `Oxyn.Query.Classify` — what a text does, from its text

The intent and the risk the gate decides on.
-/
import Oxyn.Query.Ast
import Oxyn.Query.Mysql
import Oxyn.Query.Executable
import Mathlib.Order.Lattice
import Mathlib.Order.Basic

namespace Oxyn

open Text

/-! ## Facts -/

/-- `Read < Write < {Ddl, Unknown} < Grant`. -/
def intentRank : StatementIntent → Nat
  | .read => 0
  | .write => 1
  | .ddl | .unknown => 2
  | .grant => 3

def maxIntent (a b : StatementIntent) : StatementIntent :=
  match compare (intentRank a) (intentRank b) with
  | .gt => a
  | .lt => b
  -- at equal rank, `unknown` wins: as restrictive, and more honest
  | .eq => if a = .unknown ∨ b = .unknown then .unknown else a

/-- Seriousness of a risk, from least to most serious. -/
def riskRank : MutationRisk → Nat
  | .none => 0
  | .unboundedUpdate => 1
  | .unboundedDelete => 2
  | .truncate => 3
  | .dropObject => 4
  | .copyToServerFile => 5
  | .copyServerProgram => 6

def maxRisk (a b : MutationRisk) : MutationRisk := if riskRank a < riskRank b then b else a

/-- Intent and risk, deduced together and aggregated together. -/
@[ext] structure Facts where
  intent : StatementIntent
  risk : MutationRisk
deriving DecidableEq, Repr

namespace Facts

def read : Facts := ⟨.read, .none⟩
def write : Facts := ⟨.write, .none⟩
def ddl : Facts := ⟨.ddl, .none⟩
def grant : Facts := ⟨.grant, .none⟩
def unknown : Facts := ⟨.unknown, .none⟩

/-- The worse of the two, field by field. -/
def merge (a b : Facts) : Facts := ⟨maxIntent a.intent b.intent, maxRisk a.risk b.risk⟩

end Facts

/-! ## The scope of a mutation -/

/-- What classification asks of `f64`. -/
structure Floats where
  Number : Type
  /-- `str::parse`. -/
  parse : String → Option Number
  neg : Number → Number
  partialCmp : Number → Number → Option Ordering
  /-- `number != 0.0`. -/
  isNonzero : Number → Bool

section Scope

variable (floats : Floats) (render : Expr → String)

/-- `NULL` is neither true nor false. -/
def literalTruth : Value → Option Bool
  | .boolean state => some state
  | .number text => (floats.parse text).map floats.isNonzero
  | .other _ => none

/-- An identical function call on both sides is not the same value. -/
def isPure : Expr → Bool
  | .identifier _ | .compoundIdentifier _ | .value _ => true
  | .nested inner => isPure inner
  | _ => false

def samePureExpr (left right : Expr) : Bool :=
  isPure left && isPure right && render left == render right

def numericLiteral : Expr → Option floats.Number
  | .nested inner => numericLiteral inner
  | .unaryOp .minus inner => (numericLiteral inner).map floats.neg
  | .unaryOp .plus inner => numericLiteral inner
  | .value (.number text) => floats.parse text
  | _ => none

def compareNumbers (left right : Expr) : Option Ordering :=
  match numericLiteral floats left, numericLiteral floats right with
  | some l, some r => floats.partialCmp l r
  | _, _ => none

mutual

def isTriviallyTrue : Expr → Bool
  | .nested inner => isTriviallyTrue inner
  | .value value => literalTruth floats value == some true
  | .unaryOp .not inner => isTriviallyFalse inner
  | .binaryOp left op right =>
    match op with
    | .or => isTriviallyTrue left || isTriviallyTrue right
    | .and => isTriviallyTrue left && isTriviallyTrue right
    | .eq => samePureExpr render left right ||
        (compareNumbers floats left right).any Ordering.isEq
    | .notEq => (compareNumbers floats left right).any Ordering.isNe
    | .gt => (compareNumbers floats left right).any Ordering.isGT
    | .lt => (compareNumbers floats left right).any Ordering.isLT
    | .gtEq => (compareNumbers floats left right).any Ordering.isGE
    | .ltEq => (compareNumbers floats left right).any Ordering.isLE
    | .other => false
  | _ => false

def isTriviallyFalse : Expr → Bool
  | .nested inner => isTriviallyFalse inner
  | .value value => literalTruth floats value == some false
  | .unaryOp .not inner => isTriviallyTrue inner
  | .binaryOp left op right =>
    match op with
    | .or => isTriviallyFalse left && isTriviallyFalse right
    | .and => isTriviallyFalse left || isTriviallyFalse right
    | .eq => (compareNumbers floats left right).any Ordering.isNe
    | .notEq => samePureExpr render left right ||
        (compareNumbers floats left right).any Ordering.isEq
    | _ => false
  | _ => false

end

/-- Does the `WHERE` clause let every row through? -/
def whereIsUnbounded : Option Expr → Bool
  | none => true
  | some expr => isTriviallyTrue floats render expr

end Scope

/-! ## What a statement does -/

/-- The options of a parenthesized `EXPLAIN` that only shape the plan shown. -/
def planOnlyExplainOptions : List String :=
  ["verbose", "costs", "settings", "generic_plan", "buffers", "serialize", "wal", "timing",
    "summary", "memory", "format"]

/-- Does an `EXPLAIN` run the statement it explains?  Any option not known to shape
the plan counts as running it. -/
def explainExecutes (analyze : Bool) (options : Option (List String)) : Bool :=
  analyze || options.any fun options => options.any fun option =>
    !planOnlyExplainOptions.any fun known => isKeyword option.toList known

def formFacts : Form → Facts
  | .explainTable | .showFunctions | .showVariable | .showStatus | .showVariables | .showCreate
  | .showColumns | .showCatalogs | .showDatabases | .showProcessList | .showSchemas
  | .showCharset | .showObjects | .showTables | .showViews | .showCollation => .read
  | .commit | .rollback | .savepoint | .releaseSavepoint => .read
  -- `MERGE` is bounded by its `ON` condition
  | .merge => .write
  | .truncate => ⟨.ddl, .truncate⟩
  | .dropFunction | .dropDomain | .dropProcedure | .dropSecret | .dropPolicy | .dropConnector
  | .dropExtension | .dropOperator | .dropOperatorFamily | .dropOperatorClass
  | .dropTrigger => ⟨.ddl, .dropObject⟩
  | .createView | .createTable | .createVirtualTable | .createIndex | .createSecret
  | .createServer | .createPolicy | .createConnector | .createOperator | .createOperatorFamily
  | .createOperatorClass | .createExtension | .createCollation | .createSchema
  | .createDatabase | .createFunction | .createTrigger | .createProcedure | .createMacro
  | .createStage | .createSequence | .createDomain | .createType | .alterTable | .alterSchema
  | .alterIndex | .alterView | .alterFunction | .alterType | .alterCollation | .alterOperator
  | .alterOperatorFamily | .alterOperatorClass | .alterPolicy | .alterConnector | .renameTable
  | .comment | .attachDatabase | .attachDuckDbDatabase | .detachDuckDbDatabase => .ddl
  | .grant | .revoke | .deny | .createRole | .alterRole | .createUser | .alterUser => .grant
  -- what every statement after a `USE` means depends on it
  | .use => .unknown
  | .other => .unknown

section Statements

variable (floats : Floats) (render : Expr → String)

mutual

/-- What a query does, `WITH` clauses included. -/
def queryFacts : Query → Facts
  | .mk cteTables body => (ctesFacts .read cteTables).merge (setExprFacts body)

def ctesFacts (facts : Facts) : List Query → Facts
  | [] => facts
  | cte :: rest => ctesFacts (facts.merge (queryFacts cte)) rest

def setExprFacts : SetExpr → Facts
  -- `SELECT … INTO t` creates the table `t`
  | .select into => if into then .ddl else .read
  | .values | .table => .read
  | .query inner => queryFacts inner
  | .setOperation left right => (setExprFacts left).merge (setExprFacts right)
  | .insert statement => statementFacts statement
  | .update statement => statementFacts statement
  | .delete statement => statementFacts statement
  | .merge statement => statementFacts statement

def copySourceFacts (target : Facts) : CopySource → Facts
  | .query query => target.merge (queryFacts query)
  | .table => target

def statementFacts : Statement → Facts
  | .query query => queryFacts query
  | .explain analyze options inner =>
    if explainExecutes analyze options then statementFacts inner else .read
  | .startTransaction _ _ _ => .read
  | .insert none => .write
  | .insert (some source) => Facts.write.merge (queryFacts source)
  | .update selection =>
    ⟨.write, if whereIsUnbounded floats render selection then .unboundedUpdate else .none⟩
  | .delete selection =>
    ⟨.write, if whereIsUnbounded floats render selection then .unboundedDelete else .none⟩
  | .copy source isTo target =>
    let facts : Facts :=
      match isTo, target with
      | true, .stdout => .read
      | true, .file => ⟨.write, .copyToServerFile⟩
      | _, .program => ⟨.write, .copyServerProgram⟩
      | _, _ => .write
    -- the query of a copy runs, whatever the target
    copySourceFacts facts source
  | .copyIntoSnowflake .table => .write
  | .copyIntoSnowflake .location => .read
  | .drop .role | .drop .user => .grant
  | .drop .other => ⟨.ddl, .dropObject⟩
  | .set .setRole | .set .setSessionAuthorization => .grant
  | .set .other => .unknown
  | .form form => formFacts form

end

end Statements

/-! ## The safety net -/

def mutatingWords : List String :=
  ["delete", "update", "insert", "merge", "truncate", "drop", "grant", "revoke"]

/-- `FOR UPDATE`, and `FOR NO KEY UPDATE`: three words backwards. -/
def lockedForUpdate (words : List Word) (index : Nat) : Bool :=
  ((words.take index).drop (index - 3)).any (isKeyword ·.text "for")

/-- Is a word of the statement a mutation: bare, no function call and no lock? -/
def betrays (words : List Word) (index : Nat) (word : Word) : Bool :=
  !word.call && mutatingWords.any (isKeyword word.text ·) &&
    !(isKeyword word.text "update" && lockedForUpdate words index)

/-- Does a statement judged a read hide a mutation? -/
def hidesAMutation (text : Str) (d : SqlDialect) : Bool :=
  let ws := words text d
  (ws.any (isKeyword ·.text "copy") && (ws.zip ws.tail).any fun pair =>
      isKeyword pair.1.text "to" && isKeyword pair.2.text "program") ||
    (ws.zipIdx).any fun (word, index) => betrays ws index word

/-! ## Transactions and contexts -/

/-- Verbs that, leading a statement, always control a transaction. -/
def transactionVerbs : List String :=
  ["begin", "commit", "end", "rollback", "abort", "savepoint", "release", "xa"]

/-- Does the statement begin, end or mark a transaction? -/
def controlsATransaction (text : Str) (d : SqlDialect) : Bool :=
  match words text d with
  | [] => false
  | verb :: leading =>
    transactionVerbs.any (isKeyword verb.text ·) ||
      ((isKeyword verb.text "start" || isKeyword verb.text "prepare" ||
          isKeyword verb.text "save") &&
        leading.head?.any fun second => ["transaction", "tran"].any (isKeyword second.text ·))

/-- Does the statement open with `USE`? -/
def leadsWithUse (text : Str) (d : SqlDialect) : Bool :=
  (words text d).head?.any (isKeyword ·.text "use")

/-! ## A statement of a batch -/

/-- What the classification of a statement rests on. -/
inductive Basis where
  | ast | unparsed | keywordSweep
deriving DecidableEq, Repr

/-- A statement of a batch, classified. -/
structure StatementInfo where
  text : Str
  start : Nat
  stop : Nat
  intent : StatementIntent
  risk : MutationRisk
  basis : Basis
  error : Option String
  transactionControl : Bool
  contextChange : Bool
deriving DecidableEq, Repr

def StatementInfo.facts (info : StatementInfo) : Facts := ⟨info.intent, info.risk⟩

/-- The result of analyzing a batch. -/
structure Classification where
  intent : StatementIntent
  risk : MutationRisk
  transactionControl : Bool
  contextChange : Bool
  statements : List StatementInfo
deriving DecidableEq, Repr

def Classification.facts (c : Classification) : Facts := ⟨c.intent, c.risk⟩

def Classification.isReadOnly (c : Classification) : Bool :=
  c.intent.isReadOnly && !c.risk.isSome

/-- `Iterator::reduce(Facts::merge)`, and the loop of `classify_text`. -/
def mergeAll (facts : List Facts) : Option Facts :=
  facts.foldl (fun acc f => some (match acc with
    | some previous => previous.merge f
    | none => f)) none

def unreadableCommentMessage : String :=
  "a line comment contains a carriage return followed by text; " ++
    "whether it ends there depends on the server, so the statements it holds cannot be known"

section Parser

variable (parse : Parser) (floats : Floats) (render : Expr → String)

/-- The net is let act on everything but an `EXPLAIN` that only computes a plan. -/
def sweepable : Statement → Bool
  | .explain analyze options _ => explainExecutes analyze options
  | .form .explainTable => false
  | _ => true

def readFragment (text : Str) (d : SqlDialect) : Facts × Basis × Option String :=
  match parse (parserDialect d) text with
  | .error message => (.unknown, .unparsed, some message)
  | .ok [] => (.unknown, .unparsed, some "no statement was read")
  | .ok parsed =>
    let facts := (mergeAll (parsed.map (statementFacts floats render))).getD .unknown
    if facts = .read && parsed.all sweepable && hidesAMutation text d then
      (.unknown, .keywordSweep, none)
    else (facts, .ast, none)

def classifyFragment (f : Fragment) (d : SqlDialect) : StatementInfo :=
  if f.unreadableComment then
    -- what cannot be read counts as the worst it could be
    ⟨f.text, f.start, f.stop, .unknown, .none, .unparsed, some unreadableCommentMessage, true, true⟩
  else
    let read := readFragment parse floats render f.text d
    ⟨f.text, f.start, f.stop, read.1.intent, read.1.risk, read.2.1, read.2.2,
      controlsATransaction f.text d, leadsWithUse f.text d⟩

theorem classifyFragment_facts (f : Fragment) (d : SqlDialect) :
    (classifyFragment parse floats render f d).facts =
      if f.unreadableComment then .unknown else (readFragment parse floats render f.text d).1 := by
  unfold classifyFragment
  split <;> rfl

/-- The classification of one reading of the text; no statement is no proof of read-only. -/
def classifyText (text : Str) (d : SqlDialect) : Classification :=
  let statements := (split text d).map (classifyFragment parse floats render · d)
  let facts := (mergeAll (statements.map StatementInfo.facts)).getD .unknown
  ⟨facts.intent, facts.risk, statements.any (·.transactionControl),
    statements.any (·.contextChange), statements⟩

/-- The worst of two readings; one that found no statement says nothing. -/
def Classification.atLeast (c other : Classification) : Classification :=
  let facts := if other.statements.isEmpty then c.facts else c.facts.merge other.facts
  { c with
    intent := facts.intent
    risk := facts.risk
    transactionControl := c.transactionControl || other.transactionControl
    contextChange := c.contextChange || other.contextChange }

/-- The view of the text the server runs, when it differs from the text. -/
def executableView (sql : Str) (d : SqlDialect) : Option Str :=
  if d = .mySql then executableSql sql (.forDialect d) else none

/-- The text as the server runs it. -/
def runnableText (sql : Str) (d : SqlDialect) : Str := (executableView sql d).getD sql

/-- Analyzes a batch and deduces intent and risk from it. -/
def classify (sql : Str) (d : SqlDialect) : Classification :=
  let outcome := classifyText parse floats render (runnableText sql d) d
  match executableView sql d with
  | none => outcome
  | some _ =>
    -- the span leads back to what was typed
    let typed := outcome.statements.map fun info =>
      { info with text := (get? sql info.start info.stop).getD info.text }
    -- and the text as typed is the floor
    { outcome with statements := typed }.atLeast (classifyText parse floats render sql d)

/-- Does the text change the session's current database or schema? -/
def changesContext (text : Str) (d : SqlDialect) : Bool :=
  let leadsWithAUse := fun text => (split text d).any fun f => leadsWithUse f.text d
  leadsWithAUse (runnableText text d) || leadsWithAUse text

def isBareTransactionVerb : Statement → Bool
  | .startTransaction statements exception hasEndKeyword =>
    statements.isEmpty && !exception && !hasEndKeyword
  | .form .commit | .form .rollback | .form .savepoint | .form .releaseSavepoint => true
  | _ => false

/-- Does the text do nothing but begin, end or mark a transaction? -/
def onlyControlsTransactions (text : Str) (d : SqlDialect) : Bool :=
  let fragments := split text d
  !fragments.isEmpty && fragments.all fun f =>
    !f.unreadableComment &&
      match parse (parserDialect d) f.text with
      | .ok parsed => !parsed.isEmpty && parsed.all isBareTransactionVerb
      | .error _ => false

end Parser

end Oxyn
