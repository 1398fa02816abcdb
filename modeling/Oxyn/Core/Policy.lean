/-
# `Oxyn.Core.Policy` — the single gateway of every command

`authorize` is the chain of refusals and approvals of the default policy, return for return.
-/
import Oxyn.Core.Command

namespace Oxyn

open Text

/-! ## Decisions -/

/-- What is shown to the user before they decide. -/
structure Preview where
  /-- The exact statement, as it was written. -/
  statement : Str
  /-- The connection's name, never its identifier. -/
  connection : String
  estimatedRows : Option Nat
deriving DecidableEq, Repr

/-- What the gate answers. -/
inductive Decision where
  | allow
  | requireApproval (reason : String) (preview : Option Preview)
  | deny (reason : String)
deriving DecidableEq, Repr

namespace Decision

def isAllowed : Decision → Bool
  | .allow => true
  | _ => false

def isDenied : Decision → Bool
  | .deny _ => true
  | _ => false

/-- Degree of restriction: `allow < requireApproval < deny`. -/
def restrictiveness : Decision → Nat
  | .allow => 0
  | .requireApproval _ _ => 1
  | .deny _ => 2

@[simp] theorem restrictiveness_allow : allow.restrictiveness = 0 := rfl

@[simp] theorem restrictiveness_deny (r : String) : (deny r).restrictiveness = 2 := rfl

@[simp] theorem restrictiveness_requireApproval (r : String) (p : Option Preview) :
    (requireApproval r p).restrictiveness = 1 := rfl

theorem isAllowed_iff (d : Decision) : d.isAllowed = true ↔ d.restrictiveness = 0 := by
  cases d <;> simp [isAllowed, restrictiveness]

theorem isDenied_iff (d : Decision) : d.isDenied = true ↔ d.restrictiveness = 2 := by
  cases d <;> simp [isDenied, restrictiveness]

end Decision

/-! ## The default policy -/

def factsOf (reg : Registry ConnectionFacts) (cmd : Command) : Option ConnectionFacts :=
  cmd.targetConnection.bind reg

/-- The more restrictive of the announced environment and the marking. -/
def retain (announced : Environment) : Option ConnectionFacts → Environment
  | none => announced
  | some f => max announced f.environment

def retainedEnvironment (reg : Registry ConnectionFacts) (cmd : Command)
    (announced : Environment) : Environment :=
  retain announced (factsOf reg cmd)

/-- Whether the target of a command is held to be marked read-only. -/
def retainedReadOnly (reg : Registry ConnectionFacts) (cmd : Command) (announced : Bool) : Bool :=
  announced || (factsOf reg cmd).any (·.readOnly)

def displayName (cmd : Command) : Option ConnectionFacts → String
  | some f => f.name
  | none =>
    match cmd with
    | .createConnection config | .updateConnection config | .testConnection config =>
      config.name
    | _ => "unknown connection"

def previewOf (cmd : Command) (facts : Option ConnectionFacts) : Option Preview :=
  some ⟨cmd.statementText.getD cmd.name.toList, displayName cmd facts, none⟩

/-- What the marking of the target opposes to a mutation, human included. -/
def markingRefusal (cmd : Command) (facts : Option ConnectionFacts) : Option String :=
  match cmd.targetConnection, facts with
  | some _, none => some "connection unknown to the policy: its markings cannot be checked"
  | some _, some f =>
    if f.readOnly then some ("connection \"" ++ f.name ++ "\" is marked read-only") else none
  | none, _ => none

def authorize (reg : Registry ConnectionFacts) (actor : Actor) (cmd : Command)
    (env : Environment) : Decision :=
  if actor.isAgent && cmd matches .writeWorkspacePreferences then
    .deny "only the human may change workspace display preferences"
  else if actor.isAgent && cmd matches .writeWindowLayout then
    .deny "only the human may arrange the windows"
  else if actor.isAgent &&
      cmd matches .saveAiProvider | .removeAiProvider | .saveExternalAgent
        | .removeExternalAgent then
    .deny "only the human may declare or remove an AI provider"
  else if actor.isAgent && cmd matches .testConnection _ then
    .deny "only the human may test a connection configuration"
  else if actor.isAgent && cmd matches .createConnection _ | .updateConnection _ then
    .deny "only the human may create or change a connection"
  else if actor.isAgent && cmd matches .reconcileHistoryEntry then
    .deny "only the human may declare an interrupted write reconciled"
  else
    let intent := cmd.intent
    let mutating := cmd.isMutating
    let facts := factsOf reg cmd
    let env := retain env facts
    -- Refusals.
    if actor.isAgent && intent == .grant then
      .deny "an agent may not change privileges (GRANT / REVOKE)"
    else if actor.isAgent && cmd matches .setSessionContext _ _ then
      .deny ("an agent may not change the session context: "
        ++ "it changes the meaning of the statements that follow")
    else if actor.isAgent && cmd.changesContext then
      .deny ("an agent may not change the session context by typing it (USE): "
        ++ "it changes the meaning of the statements that follow; "
        ++ "the user changes it with the context selector")
    else if actor.isAgent && cmd.controlsTransaction then
      .deny ("an agent may not begin, commit or roll back a transaction: "
        ++ "the session may hold one the user opened")
    else
      match (if mutating && cmd.touchesDatabase then markingRefusal cmd facts else none) with
      | some reason => .deny reason
      | none =>
        if actor.isAgent && mutating && env.isProduction then
          .deny ("an agent is strictly read-only on \"" ++ displayName cmd facts
            ++ "\" (production)")
        else
          -- Approvals.  The risk comes first: its reason is the most informative.
          match cmd.mutationRisk.reason with
          | some reason => .requireApproval reason (previewOf cmd facts)
          | none =>
            if actor.isAgent && mutating then
              .requireApproval ("an agent is requesting a " ++ intent.asStr
                ++ " operation on \"" ++ displayName cmd facts ++ "\"") (previewOf cmd facts)
            else if mutating && env.isProduction then
              .requireApproval (intent.asStr ++ " operation on \"" ++ displayName cmd facts
                ++ "\", marked production") (previewOf cmd facts)
            else .allow

/-! ## What a decision rests on -/

/-- What an agent is refused whatever the markings. -/
def Command.barred (cmd : Command) : Bool :=
  (cmd matches .writeWorkspacePreferences | .writeWindowLayout | .saveAiProvider
    | .removeAiProvider | .saveExternalAgent | .removeExternalAgent | .testConnection _
    | .createConnection _ | .updateConnection _ | .reconcileHistoryEntry
    | .setSessionContext _ _)
    || cmd.intent == .grant || cmd.changesContext || cmd.controlsTransaction

/-- All a decision depends on, its texts apart. -/
structure Standing where
  /-- The actor is an agent. -/
  agent : Bool
  /-- The command is one no agent may send. -/
  barred : Bool
  /-- The command can modify something. -/
  mutating : Bool
  /-- The command reaches a server whose marking is unknown or read-only. -/
  shut : Bool
  /-- The retained environment is production. -/
  production : Bool
  /-- The command carries a risk. -/
  risky : Bool
deriving DecidableEq, Repr

namespace Standing

def Denied (s : Standing) : Prop :=
  (s.agent ∧ s.barred) ∨ (s.mutating ∧ s.shut) ∨ (s.agent ∧ s.mutating ∧ s.production)

def Asked (s : Standing) : Prop := s.risky ∨ (s.mutating ∧ (s.agent ∨ s.production))

instance (s : Standing) : Decidable s.Denied := inferInstanceAs (Decidable (_ ∨ _))

instance (s : Standing) : Decidable s.Asked := inferInstanceAs (Decidable (_ ∨ _))

def level (s : Standing) : Nat := if s.Denied then 2 else if s.Asked then 1 else 0

/-- No bit of the first is lost in the second. -/
structure Raised (s t : Standing) : Prop where
  agent : s.agent → t.agent
  barred : s.agent → s.barred → t.barred
  mutating : s.mutating → t.mutating
  shut : s.shut → t.shut
  production : s.production → t.production
  risky : s.risky → t.risky

variable {s t : Standing}

theorem Raised.denied (h : s.Raised t) : s.Denied → t.Denied := by
  rintro (⟨ha, hb⟩ | ⟨hm, hs⟩ | ⟨ha, hm, hp⟩)
  · exact Or.inl ⟨h.agent ha, h.barred ha hb⟩
  · exact Or.inr (Or.inl ⟨h.mutating hm, h.shut hs⟩)
  · exact Or.inr (Or.inr ⟨h.agent ha, h.mutating hm, h.production hp⟩)

theorem Raised.asked (h : s.Raised t) : s.Asked → t.Asked := by
  rintro (hr | ⟨hm, ha⟩)
  · exact Or.inl (h.risky hr)
  · exact Or.inr ⟨h.mutating hm, ha.imp h.agent h.production⟩

theorem Raised.level (h : s.Raised t) : s.level ≤ t.level := by
  unfold Standing.level
  have hd := h.denied
  have ha := h.asked
  split_ifs <;> first | omega | (exfalso; tauto)

theorem level_eq (s : Standing) :
    s.level =
      if s.agent && s.barred then 2
      else if s.mutating && s.shut then 2
      else if s.agent && s.mutating && s.production then 2
      else if s.risky then 1
      else if s.agent && s.mutating then 1
      else if s.mutating && s.production then 1
      else 0 := by
  obtain ⟨agent, barred, mutating, shut, production, risky⟩ := s
  revert agent barred mutating shut production risky
  decide

theorem level_eq_two : s.level = 2 ↔ s.Denied := by
  unfold level
  split_ifs <;> simp_all

theorem level_eq_zero : s.level = 0 ↔ ¬ s.Denied ∧ ¬ s.Asked := by
  unfold level
  split_ifs <;> simp_all

end Standing

def standing (reg : Registry ConnectionFacts) (actor : Actor) (cmd : Command)
    (env : Environment) : Standing where
  agent := actor.isAgent
  barred := cmd.barred
  mutating := cmd.isMutating
  shut := cmd.touchesDatabase && (markingRefusal cmd (factsOf reg cmd)).isSome
  production := (retainedEnvironment reg cmd env).isProduction
  risky := cmd.mutationRisk.isSome

theorem authorize_level (reg : Registry ConnectionFacts) (actor : Actor) (cmd : Command)
    (env : Environment) :
    (authorize reg actor cmd env).restrictiveness = (standing reg actor cmd env).level := by
  simp only [authorize, apply_ite Decision.restrictiveness, Decision.restrictiveness_deny,
    ← ite_or, ← Bool.or_eq_true, ← Bool.and_or_distrib_left]
  -- Of the refusals aimed at agents, all that matters is whether one applies.
  refine (if_congr (?_ : _ ↔ (actor.isAgent && cmd.barred) = true) rfl rfl).trans ?_
  · rw [Bool.and_eq_true, Bool.and_eq_true, and_congr_right_iff]
    intro _
    cases cmd <;> simp [Command.barred, Command.intent, Command.changesContext,
      Command.controlsTransaction, or_assoc]
  · rw [Standing.level_eq]
    refine if_congr Iff.rfl rfl ?_
    have hshut : ((if cmd.isMutating && cmd.touchesDatabase then
        markingRefusal cmd (factsOf reg cmd) else none).isSome
          = (cmd.isMutating && (standing reg actor cmd env).shut)) := by
      cases hm : cmd.isMutating <;> cases ht : cmd.touchesDatabase <;> simp [standing, ht]
    cases hm : (if cmd.isMutating && cmd.touchesDatabase then
        markingRefusal cmd (factsOf reg cmd) else none) with
    | some reason =>
      rw [hm] at hshut
      exact (if_pos hshut.symm).symm
    | none =>
      rw [hm] at hshut
      refine Eq.trans ?_ (if_neg (Bool.eq_false_iff.mp hshut.symm)).symm
      have hrisk := MutationRisk.isSome_reason cmd.mutationRisk
      cases hr : cmd.mutationRisk.reason with
      | some reason =>
        rw [hr] at hrisk
        simp only [apply_ite Decision.restrictiveness]
        exact if_congr Iff.rfl rfl (if_pos hrisk.symm).symm
      | none =>
        rw [hr] at hrisk
        simp only [apply_ite Decision.restrictiveness]
        exact if_congr Iff.rfl rfl (if_neg (Bool.eq_false_iff.mp hrisk.symm)).symm

/-! ## Monotonicity -/

theorem factsOf_raised {reg reg' : Registry ConnectionFacts} (h : RaisedMarkings reg reg')
    (cmd : Command) : Option.Rel ConnectionFacts.Raised (factsOf reg cmd) (factsOf reg' cmd) := by
  unfold factsOf
  cases cmd.targetConnection with
  | none => exact .none
  | some id => exact h id

theorem retain_mono {env env' : Environment} {f g : Option ConnectionFacts} (henv : env ≤ env')
    (h : Option.Rel ConnectionFacts.Raised f g) : retain env f ≤ retain env' g := by
  cases h with
  | none => exact henv
  | some h => exact max_le_max henv h.environment

theorem le_retain (env : Environment) (f : Option ConnectionFacts) : env ≤ retain env f := by
  cases f with
  | none => exact le_refl env
  | some f => exact le_max_left _ _

theorem environment_le_retain (env : Environment) (f : ConnectionFacts) :
    f.environment ≤ retain env (some f) := le_max_right _ _

theorem markingRefusal_mono {f g : Option ConnectionFacts} (cmd : Command)
    (h : Option.Rel ConnectionFacts.Raised f g) :
    (markingRefusal cmd f).isSome = true → (markingRefusal cmd g).isSome = true := by
  unfold markingRefusal
  cases cmd.targetConnection with
  | none => exact id
  | some c =>
    cases h with
    | none => exact id
    | @some f g h =>
      cases hf : f.readOnly with
      | false => simp [hf]
      | true => simp [h.readOnly hf]

/-- A request that can modify something, and drops no risk, grant or flag that the gate refuses or
asks about. -/
structure ExecRequest.Escalates (actor : Actor) (r r' : ExecRequest) : Prop where
  mutating : r'.intent.isMutating = true ∨ r'.risk.isSome = true
  risk : r.risk.isSome = true → r'.risk.isSome = true
  grant : actor.isAgent = true → r.intent = .grant → r'.intent = .grant
  transactionControl : actor.isAgent = true → r.transactionControl = true →
    r'.transactionControl = true
  contextChange : actor.isAgent = true → r.contextChange = true → r'.contextChange = true

/-- The same command, or an `Execute` whose request escalates. -/
inductive Command.Escalates (actor : Actor) : Command → Command → Prop
  | refl (cmd : Command) : Escalates actor cmd cmd
  | execute (c : ConnectionId) (s : SessionId) {r r' : ExecRequest} :
      r.Escalates actor r' → Escalates actor (.execute c s r) (.execute c s r')

section

variable {reg reg' : Registry ConnectionFacts} {actor actor' : Actor} {cmd cmd' : Command}
  {env env' : Environment}

theorem Command.barred_execute {c : ConnectionId} {s : SessionId} {r : ExecRequest} :
    (Command.execute c s r).barred = true ↔
      r.intent = .grant ∨ r.contextChange = true ∨ r.transactionControl = true := by
  simp [Command.barred, Command.intent, Command.changesContext, Command.controlsTransaction,
    or_assoc]

theorem standing_raised (hreg : RaisedMarkings reg reg')
    (hactor : actor.isAgent = true → actor'.isAgent = true) (henv : env ≤ env')
    (hcmd : cmd.Escalates actor cmd') :
    (standing reg actor cmd env).Raised (standing reg' actor' cmd' env') := by
  have hf := factsOf_raised hreg cmd
  have hp := Environment.isProduction_mono (retain_mono henv hf)
  have hm := markingRefusal_mono cmd hf
  cases hcmd with
  | refl =>
    refine ⟨hactor, fun _ => id, id, ?_, hp, id⟩
    simp only [standing, Bool.and_eq_true]
    exact And.imp_right hm
  | execute c s h =>
    refine ⟨hactor, ?_, ?_, ?_, hp, h.risk⟩
    · intro ha hb
      rw [standing, Command.barred_execute] at hb ⊢
      rcases hb with hb | hb | hb
      · exact Or.inl (h.grant ha hb)
      · exact Or.inr (Or.inl (h.contextChange ha hb))
      · exact Or.inr (Or.inr (h.transactionControl ha hb))
    · intro _
      simpa [standing, ExecRequest.isMutating] using h.mutating
    · simp only [standing, Bool.and_eq_true]
      exact And.imp_right hm

theorem authorize_mono (hreg : RaisedMarkings reg reg')
    (hactor : actor.isAgent = true → actor'.isAgent = true) (henv : env ≤ env')
    (hcmd : cmd.Escalates actor cmd') :
    (authorize reg actor cmd env).restrictiveness
      ≤ (authorize reg' actor' cmd' env').restrictiveness := by
  rw [authorize_level, authorize_level]
  exact (standing_raised hreg hactor henv hcmd).level

theorem not_isAllowed_of_agent (ha : actor.isAgent = true) (hm : cmd.isMutating = true) :
    (authorize reg actor cmd env).isAllowed = false := by
  rw [Bool.eq_false_iff, Ne, Decision.isAllowed_iff, authorize_level, Standing.level_eq_zero]
  exact fun h => h.2 (Or.inr ⟨hm, Or.inl ha⟩)

theorem isDenied_of_production (ha : actor.isAgent = true) (hm : cmd.isMutating = true)
    (hp : retainedEnvironment reg cmd env = .production) :
    (authorize reg actor cmd env).isDenied = true := by
  rw [Decision.isDenied_iff, authorize_level, Standing.level_eq_two]
  exact Or.inr (Or.inr ⟨ha, hm, Environment.isProduction_iff.mpr hp⟩)

/-- A mutation that is not denied: its connection is known and writable, and no agent sent it to
production. -/
theorem open_of_not_isDenied {c : ConnectionId} (hd : (authorize reg actor cmd env).isDenied = false)
    (hm : cmd.isMutating = true) (htouch : cmd.touchesDatabase = true)
    (htarget : cmd.targetConnection = some c) :
    (actor.isAgent = true → retainedEnvironment reg cmd env ≠ .production) ∧
      ∃ f, reg c = some f ∧ f.readOnly = false := by
  rw [Bool.eq_false_iff, Ne, Decision.isDenied_iff, authorize_level, Standing.level_eq_two] at hd
  refine ⟨fun ha hp => hd (Or.inr (Or.inr ⟨ha, hm, Environment.isProduction_iff.mpr hp⟩)), ?_⟩
  have hshut : ¬ (markingRefusal cmd (factsOf reg cmd)).isSome = true := by
    intro hs
    refine hd (Or.inr (Or.inl ⟨hm, ?_⟩))
    simp only [standing, htouch, hs, Bool.and_self]
  simp only [markingRefusal, factsOf, htarget, Option.bind_some] at hshut
  cases hf : reg c with
  | none => simp [hf] at hshut
  | some f =>
    cases hro : f.readOnly with
    | false => exact ⟨f, rfl, hro⟩
    | true => simp [hf, hro] at hshut

end

theorem retainedEnvironment_eq_production {reg : Registry ConnectionFacts} {cmd : Command}
    {env : Environment}
    (h : env = .production ∨ ∃ f, factsOf reg cmd = some f ∧ f.environment = .production) :
    retainedEnvironment reg cmd env = .production := by
  refine le_antisymm (Environment.le_production _) ?_
  rcases h with rfl | ⟨f, hf, he⟩
  · exact le_retain _ _
  · rw [retainedEnvironment, hf, ← he]
    exact environment_le_retain env f

/-- The gate is at least as restrictive for an agent as for a human, and never less so when an
environment is raised, announced or marked, a connection is marked read-only, or a request
escalates. It answers no agent `allow` for a mutation, and `deny` in production. -/
theorem policy_gate_monotone (reg : Registry ConnectionFacts) (cmd : Command)
    (env : Environment) :
    (∀ id session, (authorize reg .human cmd env).restrictiveness
        ≤ (authorize reg (.agent id session) cmd env).restrictiveness) ∧
    (∀ actor env', env ≤ env' → (authorize reg actor cmd env).restrictiveness
        ≤ (authorize reg actor cmd env').restrictiveness) ∧
    (∀ actor id f g, reg id = some f → f.environment ≤ g.environment →
        (f.readOnly = true → g.readOnly = true) →
        (authorize reg actor cmd env).restrictiveness
          ≤ (authorize (reg.insert id g) actor cmd env).restrictiveness) ∧
    (∀ actor c s r r', r.Escalates actor r' →
        (authorize reg actor (.execute c s r) env).restrictiveness
          ≤ (authorize reg actor (.execute c s r') env).restrictiveness) ∧
    (∀ id session, cmd.isMutating = true →
        (authorize reg (.agent id session) cmd env).isAllowed = false) ∧
    (∀ id session, cmd.isMutating = true →
        (env = .production ∨ ∃ f, factsOf reg cmd = some f ∧ f.environment = .production) →
        (authorize reg (.agent id session) cmd env).isDenied = true) := by
  have hreg := RaisedMarkings.refl reg
  refine ⟨?_, ?_, ?_, ?_, ?_, ?_⟩
  · intro id session
    exact authorize_mono hreg (fun h => nomatch h) (le_refl env) (.refl cmd)
  · intro actor env' henv
    exact authorize_mono hreg (fun h => h) henv (.refl cmd)
  · intro actor id f g hf he hr
    exact authorize_mono (RaisedMarkings.insert hf ⟨he, hr⟩) (fun h => h) (le_refl env) (.refl cmd)
  · intro actor c s r r' h
    exact authorize_mono hreg (fun h => h) (le_refl env) (.execute c s h)
  · intro id session hm
    exact not_isAllowed_of_agent rfl hm
  · intro id session hm hp
    exact isDenied_of_production rfl hm (retainedEnvironment_eq_production hp)

/-! ## A request that escalates and lowers the gate -/

/-- A development connection, registered and writable. -/
def devConnection : ConnectionId := ⟨1⟩

def devMarkings : Registry ConnectionFacts :=
  Registry.empty.insert devConnection ⟨"dev", .development, false⟩

def declared (text : String) (intent : StatementIntent) (risk : MutationRisk) : ExecRequest :=
  ⟨.sql .postgres, text.toList, intent, risk, ExecLimits.default, false, false⟩

/-- A `GRANT` is refused to an agent where a write is only reviewed; a `DELETE` without
`WHERE` is reviewed where a bounded write is not, whose intent mutates too. -/
theorem gate_lowered_by_a_mutating_request :
    ¬ ∀ (reg : Registry ConnectionFacts) (actor : Actor) (c : ConnectionId) (s : SessionId)
      (r r' : ExecRequest) (env : Environment),
      (r'.intent.isMutating = true ∨ (r.risk.isSome = false ∧ r'.risk.isSome = true)) →
        (authorize reg actor (.execute c s r) env).restrictiveness
          ≤ (authorize reg actor (.execute c s r') env).restrictiveness := by
  intro h
  have hgrant := h devMarkings (.agent ⟨2⟩ ⟨3⟩) devConnection ⟨4⟩
    (declared "GRANT ALL ON t TO u" .grant .none) (declared "INSERT INTO t VALUES (1)" .write .none)
    .development (Or.inl rfl)
  revert hgrant
  decide

/-- The gate before an agent that inserts, its connection re-marked production. -/
theorem policy_gate_monotone_on_an_insert :
    (authorize devMarkings (.agent ⟨2⟩ ⟨3⟩)
        (.execute devConnection ⟨4⟩ (declared "INSERT INTO t VALUES (1)" .write .none))
        .development).restrictiveness
      ≤ (authorize (devMarkings.insert devConnection ⟨"dev", .production, true⟩)
        (.agent ⟨2⟩ ⟨3⟩)
        (.execute devConnection ⟨4⟩ (declared "INSERT INTO t VALUES (1)" .write .none))
        .development).restrictiveness :=
  (policy_gate_monotone devMarkings _ .development).2.2.1 (.agent ⟨2⟩ ⟨3⟩) devConnection
    ⟨"dev", .development, false⟩ ⟨"dev", .production, true⟩ (by decide) (by decide) (by decide)

end Oxyn
