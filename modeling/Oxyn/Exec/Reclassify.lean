/-
# `Oxyn.Exec.Reclassify` — what a command becomes before it is judged

A request is reclassified from its text: SQL by `classify`, any other language by what the
session's driver proves.  Nothing the caller declared survives it (`reclassifiedRequest_congr`).
-/
import Oxyn.Catalog.Path
import Oxyn.Core.Policy
import Oxyn.Query.Classify

namespace Oxyn

open Text

/-! ## Errors -/

/-- The failures of an execution, as far as they are raised before the driver is
reached. -/
inductive OxynError where
  | config (detail : String)
  | connection (detail : String)
  | notSupported (capability : String)
  | policyDenied (reason : String)
  | internal (detail : String)
  /-- Any error the driver returns. -/
  | driver
deriving DecidableEq, Repr

/-! ## Sessions -/

/-- What the driver of a session answers at an instant. -/
structure Driver where
  /-- What it proves a request outside SQL to do. -/
  classifyIntent : ExecRequest → Option StatementIntent
  /-- What it tells of such a request's risk. -/
  classifyRisk : ExecRequest → Option MutationRisk
  /-- The request it composes for a preview, identifiers quoted. -/
  previewRequest : CatalogPath → Nat → PreviewShape → Option ExecRequest

/-- An open session: the connection it comes from, and the two capabilities a preview
asks about. -/
structure SessionSlot where
  connection : ConnectionId
  previewSort : Bool
  previewFilter : Bool
deriving DecidableEq, Repr

/-! ## Reclassification -/

/-- What the readings of a text rest on: the SQL parser, its numbers, and how it
writes an expression back. -/
structure SqlReader where
  parse : Parser
  floats : Floats
  render : Expr → String

/-- The batch nothing is known about: one statement, `Unknown`. -/
def Classification.unreadBatch (text : Str) (error : String) : Classification :=
  let trimmed := trim text
  let start := size text - size (trimStart text)
  ⟨.unknown, .none, false, false,
    [⟨trimmed, start, start + size trimmed, .unknown, .none, .unparsed, some error, false, false⟩]⟩

variable (reader : SqlReader)

def classifyLanguage (language : QueryLanguage) (text : Str) : Classification :=
  match language.sqlDialect with
  | some d => classify reader.parse reader.floats reader.render text d
  | none =>
    .unreadBatch text ("language not parsed by oxyn-query: " ++ language.display)

/-- Replaces what the caller declared by what the text says. -/
def Classification.qualify (c : Classification) (request : ExecRequest) : ExecRequest :=
  { (request.withIntent c.intent).withRisk c.risk with
    transactionControl := c.transactionControl
    contextChange := c.contextChange }

def reclassify (request : ExecRequest) : Classification :=
  classifyLanguage reader request.language request.text

/-- Does the request do nothing but begin, end or mark a transaction? -/
def ExecRequest.onlyControlsTransactions (request : ExecRequest) : Bool :=
  match request.language.sqlDialect with
  | none => false
  | some d => Oxyn.onlyControlsTransactions reader.parse request.text d

/-- Reclassifies a request: SQL by its text, any other language by what the session's
driver proves, `Unknown` without a proof.  A proven read is given no risk. -/
def reclassifiedRequest (request : ExecRequest) (slot : Option Driver) : ExecRequest :=
  let request := (reclassify reader request).qualify request
  if request.language.sqlDialect.isSome then request
  else
    match slot with
    | none => request
    | some driver =>
      match driver.classifyIntent request with
      | none => request
      | some intent =>
        let risk :=
          match intent with
          | .write | .ddl | .grant => (driver.classifyRisk request).getD .none
          | _ => .none
        { (request.withIntent intent).withRisk risk with
          transactionControl := false
          contextChange := false }

def reclassified (command : Command) (slot : Option Driver) : Command :=
  match command with
  | .execute c s request => .execute c s (reclassifiedRequest reader request slot)
  | other => other

/-! ## The read-only bound -/

def ExecRequest.bounded (r : ExecRequest) : ExecRequest :=
  { r with limits := { r.limits with readOnly := true } }

/-- A read the bound is meant for: one made only of transaction verbs is not. -/
def ExecRequest.isBoundedRead (request : ExecRequest) : Bool :=
  !request.isMutating
    && !(request.transactionControl && request.onlyControlsTransactions reader)

def boundedTo (command : Command) (env : Environment) (readOnly : Bool) : Command :=
  match command with
  | .execute c s request =>
    if (env.isProduction || readOnly) && request.isBoundedRead reader then
      .execute c s request.bounded
    else .execute c s request
  | other => other

theorem boundedTo_cases (command : Command) (env : Environment) (readOnly : Bool) :
    boundedTo reader command env readOnly = command ∨
      ∃ c s r, command = .execute c s r ∧ boundedTo reader command env readOnly
        = .execute c s r.bounded := by
  cases command with
  | execute c s r =>
    unfold boundedTo
    dsimp only
    split_ifs
    · exact Or.inr ⟨c, s, r, rfl, rfl⟩
    · exact Or.inl rfl
  | _ => exact Or.inl rfl

variable {c : ConnectionId}

variable {s : SessionId} {command : Command} {r : ExecRequest}

theorem readOnly_of_boundedTo {env : Environment} {readOnly : Bool}
    (h : boundedTo reader command env readOnly = .execute c s r)
    (hbound : env = .production ∨ readOnly = true) (hread : r.isBoundedRead reader = true) :
    r.limits.readOnly = true := by
  have henv : (env.isProduction || readOnly) = true := by
    rw [Bool.or_eq_true, Environment.isProduction_iff]
    exact hbound
  cases command with
  | execute c' s' r' =>
    unfold boundedTo at h
    dsimp only at h
    rw [henv, Bool.true_and] at h
    split_ifs at h with hr
    · cases h
      rfl
    · cases h
      exact absurd hread hr
  | _ => cases h

@[simp] theorem targetConnection_boundedTo (command : Command) (env : Environment)
    (readOnly : Bool) :
    (boundedTo reader command env readOnly).targetConnection = command.targetConnection := by
  rcases boundedTo_cases reader command env readOnly with h | ⟨c, s, r, rfl, h⟩ <;> rw [h]
  rfl

/-- A command whose request was reclassified from its text, and at most bounded
since. -/
def Prepared : Command → Prop
  | .execute _ _ r => ∃ r₀ slot, r = reclassifiedRequest reader r₀ slot ∨
      r = (reclassifiedRequest reader r₀ slot).bounded
  | _ => True

theorem prepared_reclassified (command : Command) (slot : Option Driver) :
    Prepared reader (reclassified reader command slot) := by
  cases command with
  | execute c s r => exact ⟨r, slot, Or.inl rfl⟩
  | _ => trivial

theorem prepared_boundedTo (h : Prepared reader command) (env : Environment)
    (readOnly : Bool) : Prepared reader (boundedTo reader command env readOnly) := by
  rcases boundedTo_cases reader command env readOnly with hb | ⟨c, s, r, rfl, hb⟩
  · rwa [hb]
  · rw [hb]
    obtain ⟨r₀, slot, rfl | rfl⟩ := h
    · exact ⟨r₀, slot, Or.inr rfl⟩
    · exact ⟨r₀, slot, Or.inr rfl⟩

/-! ## Reaching a session -/

/-- The sessions open at an instant. -/
abbrev Sessions := SessionId → Option SessionSlot

/-- The request a preview executes: composed by the driver, refused if it could modify something,
and held to the limits of the command. -/
def previewStatement (sessions : Sessions) (driver : Driver) (connection : ConnectionId)
    (session : SessionId) (catalog «namespace» : Option Str) (relation : Str) (limit : Nat)
    (shape : PreviewShape) : Except OxynError ExecRequest :=
  if ¬ (1 ≤ limit ∧ limit ≤ 1000) then .error (.config "preview limit must be in 1..=1000")
  else
    match CatalogPath.forRelation catalog «namespace» relation with
    | .error e => .error (.config ("invalid catalog path: " ++ e.detail))
    | .ok path =>
      match sessions session with
      | none => .error (.connection "preview session is not open")
      | some slot =>
        if slot.connection ≠ connection then
          .error (.config "preview session belongs to another connection")
        else if !shape.sort.isEmpty && !slot.previewSort then
          .error (.notSupported "preview sort")
        else if shape.predicate?.isSome && !slot.previewFilter then
          .error (.notSupported "preview filter")
        else
          match driver.previewRequest path limit shape with
          | none => .error .driver
          | some composed =>
            let request := reclassifiedRequest reader composed (some driver)
            if request.isMutating then
              .error (.policyDenied (
                if request.intent = .unknown then
                  "this preview filter could not be read as a condition; check its syntax"
                else "driver preview request is not read-only"))
            else
              .ok { request with
                limits :=
                  { maxRows := some (limit + 1)
                    timeout := some (match request.limits.timeout with
                      | none => ExecLimits.defaultTimeout
                      | some asked => min asked ExecLimits.defaultTimeout)
                    readOnly := true } }

/-- The last barrier before the driver. -/
def executeStatement (sessions : Sessions) (connection : ConnectionId) (session : SessionId)
    (request : ExecRequest) : Except OxynError ExecRequest :=
  if request.isMutating && request.limits.readOnly then
    .error (.policyDenied ("this execution is bounded to read-only: "
      ++ "a write must lift that bound explicitly"))
  else
    match sessions session with
    | none => .error (.connection "no session is open under this identifier")
    | some slot =>
      if slot.connection ≠ connection then
        .error (.internal "the target session does not belong to the command's connection")
      else .ok request

def executeCommand (sessions : Sessions) (driver : Driver) :
    Command → Except OxynError (Option (ConnectionId × SessionId × ExecRequest))
  | .execute c s request => do
      let request ← executeStatement sessions c s request
      return some (c, s, request)
  | .previewRelation c s catalog «namespace» relation limit shape => do
      let request ← previewStatement reader sessions driver c s catalog «namespace» relation
        limit shape
      let request ← executeStatement sessions c s request
      return some (c, s, request)
  | _ => .ok none

variable {sessions : Sessions}

theorem executeStatement_eq_ok {r r' : ExecRequest} (h : executeStatement sessions c s r = .ok r') :
    r' = r ∧ ¬ (r.isMutating = true ∧ r.limits.readOnly = true) := by
  unfold executeStatement at h
  split_ifs at h with hbarrier
  rw [Bool.and_eq_true] at hbarrier
  split at h
  · cases h
  · split_ifs at h
    cases h
    exact ⟨rfl, hbarrier⟩

theorem previewStatement_eq_ok {driver : Driver}
    {catalog schema : Option Str} {relation : Str} {limit : Nat} {shape : PreviewShape}
    (h : previewStatement reader sessions driver c s catalog schema relation limit shape = .ok r) :
    r.isMutating = false ∧ r.limits.readOnly = true ∧ r.limits.maxRows = some (limit + 1) ∧
      ∃ composed limits, r = { reclassifiedRequest reader composed (some driver) with
        limits := limits } := by
  unfold previewStatement at h
  split_ifs at h
  split at h
  · cases h
  split at h
  · cases h
  split_ifs at h
  split at h
  · cases h
  dsimp only at h
  split_ifs at h with hmutating
  cases h
  exact ⟨Bool.eq_false_iff.mpr hmutating, rfl, rfl, _, _, rfl⟩

theorem executeCommand_eq_some {driver : Driver}
    (h : executeCommand reader sessions driver command = .ok (some (c, s, r))) :
    (command = .execute c s r ∧ ¬ (r.isMutating = true ∧ r.limits.readOnly = true)) ∨
      (∃ catalog schema relation limit shape,
        command = .previewRelation c s catalog schema relation limit shape ∧
        r.isMutating = false ∧ r.limits.readOnly = true ∧
        ∃ composed limits, r = { reclassifiedRequest reader composed (some driver) with
          limits := limits }) := by
  cases command with
  | execute c' s' r' =>
    simp only [executeCommand] at h
    cases he : executeStatement sessions c' s' r' with
    | error e =>
      rw [he] at h
      cases h
    | ok r'' =>
      rw [he] at h
      cases h
      obtain ⟨rfl, hbarrier⟩ := executeStatement_eq_ok he
      exact Or.inl ⟨rfl, hbarrier⟩
  | previewRelation c' s' catalog schema relation limit shape =>
    simp only [executeCommand] at h
    cases hp : previewStatement reader sessions driver c' s' catalog schema relation limit
        shape with
    | error e =>
      rw [hp] at h
      cases h
    | ok composed =>
      rw [hp] at h
      cases he : executeStatement sessions c' s' composed with
      | error e =>
        simp only [bind, Except.bind, he] at h
        cases h
      | ok r'' =>
        simp only [bind, Except.bind, he] at h
        cases h
        obtain ⟨rfl, -⟩ := executeStatement_eq_ok he
        obtain ⟨hm, hro, -, hcomposed⟩ := previewStatement_eq_ok reader hp
        exact Or.inr ⟨catalog, schema, relation, limit, shape, rfl, hm, hro, hcomposed⟩
  | _ => cases h

end Oxyn
