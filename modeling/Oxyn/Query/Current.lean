/-
# `Oxyn.Query.Current` — the statement under the cursor

`current_statement` and what it is made of: the split of a SQLite text, which
keeps a trigger in one piece by following its header and body word by word, and
the checks a fragment goes through before it is returned.
-/
import Oxyn.Query.Classify

namespace Oxyn

open Text Cursor

/-- What prevents reading a query text. -/
inductive QueryError where
  | selection (cursor : Nat) (message : String)
  | syntaxError (message : String) (start stop : Nat)
deriving DecidableEq, Repr

/-! ## SQLite triggers -/

/-- The loop of `end_closes_trigger`: comments are stepped over. -/
def skipTrailingComments : Nat → Str → Option Str
  | 0, tail => some tail
  | fuel + 1, tail =>
    if ['-', '-'].isPrefixOf tail then
      -- what follows the line feed, or nothing
      skipTrailingComments fuel (trimStart (((tail.drop 2).dropWhile (· != '\n')).drop 1))
    else if ['/', '*'].isPrefixOf tail then
      match afterClose (tail.drop 2) with
      | none => none
      | some after => skipTrailingComments fuel (trimStart after)
    else some tail
where
  /-- `rest.split_once("*/")`, the second half. -/
  afterClose : Str → Option Str
    | '*' :: '/' :: rest => some rest
    | _ :: rest => afterClose rest
    | [] => none

/-- Is the `END` before `from` the last word of its statement? Every turn takes two characters off.
-/
def endClosesTrigger (sql : Str) (from_ : Nat) : Bool :=
  let tail := trimStart ((get? sql from_ (size sql)).getD [])
  match skipTrailingComments tail.length tail with
  | none => false
  | some tail => tail.isEmpty || tail.head? == some ';'

/-- The flags of `sqlite_statements` beside the statement being read. -/
structure TriggerFlags where
  /-- How much of `CREATE [TEMP] TRIGGER` was read: 0 to 3. -/
  prefixRead : Nat
  trigger : Bool
  seenOn : Bool
  relationSeen : Bool
  body : Bool
  bodyStatementStart : Bool
  ended : Bool
deriving DecidableEq, Repr

namespace TriggerFlags

def initial : TriggerFlags := ⟨0, false, false, false, false, false, false⟩

def inBody (f : TriggerFlags) : Bool := f.body && !f.ended

/-- What a word says of the opening of its statement. -/
def readPrefix (f : TriggerFlags) (hasCode : Bool) (word : Str) : TriggerFlags :=
  if !hasCode then { f with prefixRead := if isKeyword word "create" then 1 else 0 }
  else if f.prefixRead = 1 then
    if isKeyword word "temp" || isKeyword word "temporary" then { f with prefixRead := 2 }
    else if isKeyword word "trigger" then { f with prefixRead := 3, trigger := true }
    else { f with prefixRead := 0 }
  else if f.prefixRead = 2 then
    if isKeyword word "trigger" then { f with prefixRead := 3, trigger := true }
    else { f with prefixRead := 0 }
  else f

def afterCode (f : TriggerFlags) : TriggerFlags :=
  if f.inBody then { f with bodyStatementStart := false } else f

/-- What a word does once the opening is read.  `closes` is the answer of
`end_closes_trigger` past the word. -/
def readHeader (f : TriggerFlags) (word : Str) (closes : Bool) : TriggerFlags :=
  if f.trigger && isKeyword word "on" then
    ({ f with seenOn := true }).afterCode
  else if f.seenOn && !f.relationSeen then
    ({ f with relationSeen := true }).afterCode
  else if f.trigger && f.relationSeen && isKeyword word "begin" then
    { f with body := true, bodyStatementStart := true }
  else if f.inBody && isKeyword word "end" && f.bodyStatementStart && closes then
    { f with ended := true }
  else f.afterCode

section Fields

variable (f : TriggerFlags)

@[simp] theorem afterCode_trigger : f.afterCode.trigger = f.trigger := by
  unfold afterCode; split <;> rfl

@[simp] theorem afterCode_prefixRead : f.afterCode.prefixRead = f.prefixRead := by
  unfold afterCode; split <;> rfl

@[simp] theorem afterCode_seenOn : f.afterCode.seenOn = f.seenOn := by
  unfold afterCode; split <;> rfl

@[simp] theorem afterCode_relationSeen : f.afterCode.relationSeen = f.relationSeen := by
  unfold afterCode; split <;> rfl

@[simp] theorem afterCode_body : f.afterCode.body = f.body := by
  unfold afterCode; split <;> rfl

@[simp] theorem afterCode_ended : f.afterCode.ended = f.ended := by
  unfold afterCode; split <;> rfl

@[simp] theorem afterCode_inBody : f.afterCode.inBody = f.inBody := by
  simp [inBody]

theorem afterCode_start (h : f.inBody = true) : f.afterCode.bodyStatementStart = false := by
  simp [afterCode, h]

end Fields

/-- What a piece of code does to the flags; a `;` is read in an open body only. -/
def read (sql : Str) (hasCode : Bool) (f : TriggerFlags) (x : Item Tok) : TriggerFlags :=
  match x.kind with
  | .word =>
    let word := (get? sql x.start x.stop).getD []
    (f.readPrefix hasCode word).readHeader word (endClosesTrigger sql x.stop)
  | .semicolon => { f with bodyStatementStart := true }
  | .quoted | .singleQuoted | .symbol => f.afterCode
  | .comment | .unreadableComment => f

end TriggerFlags

/-- The variables of `sqlite_statements`. -/
structure SqliteState where
  fragments : List Fragment
  pending : Pending
  flags : TriggerFlags
deriving DecidableEq, Repr

namespace SqliteState

def initial : SqliteState := ⟨[], .startingAt 0, .initial⟩

/-- The callback of `sqlite_statements`.  The profile knows no unreadable comment. -/
def read (sql : Str) (s : SqliteState) (x : Item Tok) : SqliteState :=
  match x.kind with
  | .comment | .unreadableComment => { s with pending := s.pending.withComment true }
  | .semicolon =>
    if s.flags.inBody then { s with flags := s.flags.read sql s.pending.hasCode x }
    else ⟨s.pending.flush sql x.start true s.fragments, .startingAt x.stop, .initial⟩
  | .word | .quoted | .singleQuoted | .symbol =>
    { s with
      pending := s.pending.withCode
      flags := s.flags.read sql s.pending.hasCode x }

end SqliteState

def sqliteStatements (sql : Str) (cursor : Nat) : Except QueryError (List Fragment) :=
  let s := (scan sql .sqlite).foldl (SqliteState.read sql) .initial
  if s.flags.trigger && !s.flags.body then
    .error (.selection cursor "SQLite trigger body cannot be established")
  else .ok (s.pending.flush sql (size sql) false s.fragments)

def isSqliteTrigger (sql : Str) : Bool :=
  match words sql .sqlite with
  | [] => false
  | first :: rest =>
    isKeyword first.text "create" &&
      let trigger := match rest with
        | second :: rest' =>
          if isKeyword second.text "temp" || isKeyword second.text "temporary" then rest'.head?
          else some second
        | [] => none
      trigger.any (isKeyword ·.text "trigger")

def sqliteTriggerIsAmbiguous (sql : Str) : Bool :=
  let ws := words sql .sqlite
  match ws.findIdx? (isKeyword ·.text "trigger") with
  | none => false
  | some trigger =>
    (ws[trigger + 1]?).any (isKeyword ·.text "begin") ||
      (ws.filter (isKeyword ·.text "case")).any fun word =>
        (get? sql word.stop (size sql)).any fun tail => (trimStart tail).head? == some '='

/-! ## The statement under the cursor -/

def startsWithComment (sql : Str) (d : SqlDialect) : Bool :=
  ['-', '-'].isPrefixOf sql || ['/', '*'].isPrefixOf sql ||
    (d == .mySql && sql.head? == some '#')

/-- The `;` that follows a fragment, white space apart. -/
def terminatorAfter (sql : Str) (from_ : Nat) : Option Nat :=
  (get? sql from_ (size sql)).bind fun tail =>
    let position := from_ + (size tail - size (trimStart tail))
    if (bytes sql)[position]? == some Byte.semicolon then some position else none

/-- The loop of `program_is_complete`: the scanner, the body, and whether the text
holds one statement so far. -/
def Mysql.programStep (s : Scanner × Body × Bool) : Option (Scanner × Body × Bool) :=
  s.1.next.map fun (x, ahead) =>
    match x.kind with
    | .semicolon =>
      if s.2.1.isOpen then (ahead, s.2.1.separator, s.2.2) else (ahead, s.2.1, false)
    | .word =>
      let read := s.2.1.word x.start x.stop ahead
      (read.2, read.1, s.2.2)
    | .quoted | .singleQuoted | .symbol => (ahead, s.2.1.other (isColon s.1.sql x), s.2.2)
    | .comment | .unreadableComment => (ahead, s.2.1, s.2.2)

theorem Mysql.programStep_forward {s t : Scanner × Body × Bool} (h : programStep s = some t) :
    size t.1.sql - t.1.pos < size s.1.sql - s.1.pos := by
  obtain ⟨⟨x, ahead⟩, hnext, rfl⟩ := Option.map_eq_some_iff.mp h
  obtain ⟨hread, rfl⟩ := Scanner.next_eq_some.mp hnext
  have hf := reader_forward hread
  have hw := s.2.1.word_ahead x.start x.stop { s.1 with pos := x.stop }
  have hsql := hw.sql
  have hpos := hw.pos_le
  simp only [length_bytes] at hf hsql hpos
  cases hk : x.kind
  case semicolon => simp only [hk]; split <;> dsimp only <;> omega
  case word => simp only [hk]; rw [hsql]; omega
  all_goals simp only [hk]; omega

def Mysql.programLoop : Loop (Scanner × Body × Bool) where
  step := programStep
  measure := fun s => size s.1.sql - s.1.pos
  decreases := programStep_forward

/-- Is the fragment a stored program, and is its body closed where it ends? -/
def Mysql.programIsComplete (text : Str) : Option Bool :=
  let s := programLoop.final (.start text .mySql, .empty, true)
  if s.2.1.isProgram then some (s.2.2 && !s.2.1.isOpen) else none

def mysqlProgram (f : Fragment) (d : SqlDialect) : Option Bool :=
  if d ≠ .mySql || f.unreadableComment then none else Mysql.programIsComplete f.text

section Parser

variable (parse : Parser)

def validate (sql : Str) (d : SqlDialect) : Except QueryError Unit :=
  (split sql d).forM fun f =>
    if f.unreadableComment then .error (.syntaxError unreadableCommentMessage f.start f.stop)
    else
      match parse (parserDialect d) f.text with
      | .error message => .error (.syntaxError message f.start f.stop)
      | .ok _ => .ok ()

def selected (sql : Str) (d : SqlDialect) (cursor : Nat) (fragments : List Fragment) :
    Option Fragment :=
  let under := fragments.find? fun f =>
    (f.start ≤ cursor && cursor < f.stop) || (f.stop == size sql && cursor == size sql)
  match under.filter fun f => cursor != f.start || !startsWithComment f.text d with
  | some f => some f
  | none => fragments.reverse.find? fun f =>
    f.terminated && (terminatorAfter sql f.stop).any fun separator =>
      cursor == separator || cursor == separator + 1

def checkSelected (d : SqlDialect) (cursor : Nat) (f : Fragment) : Except QueryError Unit :=
  if d = .sqlite && isSqliteTrigger f.text then
    if sqliteTriggerIsAmbiguous f.text then
      .error (.selection cursor "SQLite trigger contains an ambiguous unquoted keyword")
    else if !(words f.text .sqlite).getLast?.any (isKeyword ·.text "end") then
      .error (.selection cursor "SQLite trigger body is incomplete")
    else .ok ()
  else
    match mysqlProgram f d with
    | some complete =>
      if complete then .ok ()
      else .error (.selection cursor
        "MySQL stored program body is not closed where the statement ends")
    | none =>
      (validate parse f.text d).mapError fun
        | .syntaxError message start stop => .syntaxError message (f.start + start) (f.start + stop)
        | other => other

def currentStatement (sql : Str) (d : SqlDialect) (cursor : Nat) :
    Except QueryError (Option Fragment) :=
  if !isCharBoundary sql cursor then
    .error (.selection cursor "cursor is not on a UTF-8 boundary")
  else do
    let fragments ← if d = .sqlite then sqliteStatements sql cursor else pure (split sql d)
    match selected sql d cursor fragments with
    | none => pure none
    | some f =>
      checkSelected parse d cursor f
      pure (some f)

end Parser

end Oxyn
