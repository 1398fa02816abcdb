/-
# `Oxyn.Desktop.Openings` — what a window holds is not taken from under it

The registry among the tasks that call it: each keeps the guards it was given (of an opening, of a
connection being disconnected or deleted) and drops them when it will, and the tasks of a closed
window still call.
-/
import Oxyn.Desktop.Windows
import Oxyn.Lib.Runs

open Runs

namespace Oxyn.Desktop

open List

/-! ## Calls -/

/-- A call under the lock that gives no guard. -/
inductive Call where
  | focus (key : WindowKey) (focused : Bool)
  | claimCommand (window : WindowKey) (command : CommandId)
  | releaseCommand (window : WindowKey) (command : CommandId)
  | claimSession (window : WindowKey) (connection : ConnectionId) (session : SessionId)
  | releaseSession (session : SessionId)
  | handOver (source target : WindowKey) (connection : ConnectionId) (session : SessionId)
      (document : DocumentId) (catalog : Option SessionId)
  | claimResult (window : WindowKey) (result : ResultId) (view : Bool)
  | checkResult (window : WindowKey) (result : ResultId)
  | forgetResult (window : WindowKey) (result : ResultId)
  | claimDocument (window : WindowKey) (document : DocumentId)
  | releaseDocument (window : WindowKey) (document : DocumentId)
  | claimAssistant (window : WindowKey) (connection : ConnectionId)
  | releaseAssistant (window : WindowKey) (connection : ConnectionId)
  | route (window : WindowKey) (command : CommandId) (event : State.Routed)

namespace State

/-- What a call that may be refused leaves. -/
def settled {ε : Type} (s : State) : Except ε State → State
  | .ok s' => s'
  | .error _ => s

def call (s : State) : Call → State
  | .focus key focused => s.focus key focused
  | .claimCommand window command => s.settled (s.claimCommand window command)
  | .releaseCommand window command => s.releaseCommand window command
  | .claimSession window connection session =>
    s.settled (s.claimSession window connection session)
  | .releaseSession session => s.releaseSession session
  | .handOver source target connection session document catalog =>
    s.settled (s.handOver source target connection session document catalog)
  | .claimResult window result view => s.settled (s.claimResult window result view)
  | .checkResult window result => s.settled (s.checkResult window result)
  | .forgetResult window result => s.forgetResult window result
  | .claimDocument window document => s.settled (s.claimDocument window document)
  | .releaseDocument window document => s.releaseDocument window document
  | .claimAssistant window connection => s.settled (s.claimAssistant window connection)
  | .releaseAssistant window connection => s.releaseAssistant window connection
  | .route window command event => (s.route window command event).1

end State

/-- A call not of a window that is gone, nor on a connection being disconnected, where the registry
does not look. -/
def Call.Timely (s : State) : Call → Prop
  | .claimSession window connection _ => window ∈ s.windows → connection ∉ s.disconnecting
  | .handOver source target connection session document _ =>
    target ∈ s.windows → s.sessions.get session = some (source, connection) →
      (s.documents.get document).any (· ≠ source) = false → connection ∉ s.disconnecting
  | .checkResult window result =>
    window ∈ s.windows ∨ ((s.results.get result).getD .empty).entries ≠ []
  | .claimDocument window document =>
    window ∈ s.windows ∨ (s.documents.get document).any (· ≠ window) = true
  | .claimAssistant window connection =>
    window ∈ s.windows ∨ (s.assistants.get connection).any (· ≠ window) = true
  | _ => True

/-! ## The records -/

/-- Every record names a window that is there; those of openings are told apart. -/
structure Recorded (s : State) : Prop where
  focused : ∀ key, s.focused = some key → key ∈ s.windows
  sessions : s.sessions.All fun _ owner => owner.1 ∈ s.windows
  commands : s.commands.All fun _ owner => owner ∈ s.windows
  results : s.results.All fun _ readers => readers.All fun key _ => key ∈ s.windows
  assistants : s.assistants.All fun _ owner => owner ∈ s.windows
  connections : s.connections.All fun key _ => key ∈ s.windows
  documents : s.documents.All fun _ owner => owner ∈ s.windows

/-- No connection that a window holds is being disconnected. -/
def Kept (s : State) : Prop :=
  s.connections.All fun _ held => ∀ connection ∈ held, connection ∉ s.disconnecting

/-- No connection that an opening of a window that is there has named is being disconnected or
deleted. -/
def Live (s : State) : Prop :=
  s.openings.All fun _ opening => opening.1 ∈ s.windows →
    ∀ connection, opening.2 = some connection →
      connection ∉ s.disconnecting ∧ connection ∉ s.deleting

/-- What a call does not touch. -/
structure Frame (s s' : State) : Prop where
  windows : s'.windows = s.windows
  openings : s'.openings = s.openings
  disconnecting : s'.disconnecting = s.disconnecting
  deleting : s'.deleting = s.deleting

section

variable {s : State}

theorem isRegistered_iff {key : WindowKey} : s.isRegistered key = true ↔ key ∈ s.windows :=
  decide_eq_true_iff

theorem registered_of_not {key : WindowKey} (h : ¬ (!s.isRegistered key) = true) :
    key ∈ s.windows := by
  rw [Bool.not_eq_true', Bool.not_eq_false] at h
  exact isRegistered_iff.mp h

theorem settled_cases {ε : Type} {P : State → Prop} {answer : Except ε State} (hs : P s)
    (hok : ∀ s', answer = .ok s' → P s') : P (s.settled answer) := by
  cases answer with
  | error e => exact hs
  | ok s' => exact hok s' rfl

variable {window : WindowKey}

theorem Recorded.reading (h : Recorded s) (hwindow : window ∈ s.windows)
    (result : ResultId) (view : Bool) :
    (s.reading window result view).All fun _ readers => readers.All fun key _ => key ∈ s.windows := by
  refine h.results.insert ?_
  cases hreaders : s.results.get result with
  | none => exact IndexMap.All.empty.insert hwindow
  | some readers => exact (h.results result readers hreaders).insert hwindow

theorem Recorded.hold (h : Recorded s) (hwindow : window ∈ s.windows)
    (connection : ConnectionId) : (s.hold window connection).All fun key _ => key ∈ s.windows :=
  h.connections.insert hwindow

variable {connection : ConnectionId}

theorem Kept.hold (h : Kept s) (hconnection : connection ∉ s.disconnecting) :
    (s.hold window connection).All fun _ held => ∀ c ∈ held, c ∉ s.disconnecting := by
  refine h.insert fun c hc => ?_
  rcases mem_insert_iff.mp hc with rfl | hc
  · exact hconnection
  · cases hheld : s.connections.get window with
    | none => rw [hheld] at hc; cases hc
    | some held => exact h window held hheld c (by rwa [hheld] at hc)

/-! ### What a call keeps -/

/-- What is left of the records by a call that keeps them in order. -/
structure Fine (s s' : State) : Prop where
  frame : Frame s s'
  recorded : Recorded s'
  kept : Kept s'

variable (hr : Recorded s) (hk : Kept s)

include hr hk

theorem fine_self : Fine s s := ⟨⟨rfl, rfl, rfl, rfl⟩, hr, hk⟩

theorem fine_focus (key : WindowKey) (focused : Bool) : Fine s (s.focus key focused) := by
  unfold State.focus
  split
  next h =>
    have hkey := isRegistered_iff.mp (Bool.and_eq_true_iff.mp h).2
    refine ⟨⟨rfl, rfl, rfl, rfl⟩, ⟨fun key' heq => ?_, hr.sessions, hr.commands, hr.results,
      hr.assistants, hr.connections, hr.documents⟩, hk⟩
    exact Option.some.inj heq ▸ hkey
  next => exact fine_self hr hk

theorem fine_sessions {sessions : IndexMap SessionId (WindowKey × ConnectionId)}
    (h : sessions.All fun _ owner => owner.1 ∈ s.windows) :
    Fine s { s with sessions := sessions } :=
  ⟨⟨rfl, rfl, rfl, rfl⟩, { hr with sessions := h }, hk⟩

theorem fine_commands {commands : IndexMap CommandId WindowKey}
    (h : commands.All fun _ owner => owner ∈ s.windows) :
    Fine s { s with commands := commands } :=
  ⟨⟨rfl, rfl, rfl, rfl⟩, { hr with commands := h }, hk⟩

theorem fine_results {results : IndexMap ResultId (IndexMap WindowKey Nat)}
    (h : results.All fun _ readers => readers.All fun key _ => key ∈ s.windows) :
    Fine s { s with results := results } :=
  ⟨⟨rfl, rfl, rfl, rfl⟩, { hr with results := h }, hk⟩

theorem fine_assistants {assistants : IndexMap ConnectionId WindowKey}
    (h : assistants.All fun _ owner => owner ∈ s.windows) :
    Fine s { s with assistants := assistants } :=
  ⟨⟨rfl, rfl, rfl, rfl⟩, { hr with assistants := h }, hk⟩

theorem fine_documents {documents : IndexMap DocumentId WindowKey}
    (h : documents.All fun _ owner => owner ∈ s.windows) :
    Fine s { s with documents := documents } :=
  ⟨⟨rfl, rfl, rfl, rfl⟩, { hr with documents := h }, hk⟩

theorem fine_session (hwindow : window ∈ s.windows) (hconnection : connection ∉ s.disconnecting)
    (session : SessionId) :
    Fine s { s with
      sessions := s.sessions.insert session (window, connection)
      connections := s.hold window connection } :=
  ⟨⟨rfl, rfl, rfl, rfl⟩, { hr with
    sessions := hr.sessions.insert hwindow
    connections := hr.hold hwindow connection }, hk.hold hconnection⟩

theorem fine_handOver {source target : WindowKey}
    {session : SessionId} {document : DocumentId} {catalog : Option SessionId}
    (h : (Call.handOver source target connection session document catalog).Timely s) :
    Fine s (s.settled (s.handOver source target connection session document catalog)) := by
  refine settled_cases (fine_self hr hk) fun s' hs' => ?_
  unfold State.handOver at hs'
  split at hs'
  · cases hs'
  next htarget =>
    split at hs'
    · cases hs'
    next howned =>
      split at hs'
      · cases hs'
      next hdocument =>
        obtain rfl := Except.ok.inj hs'
        have htarget := registered_of_not htarget
        have hconnection := h htarget (not_not.mp howned) (Bool.not_eq_true _ ▸ hdocument)
        have hmoved : (s.sessions.insert session (target, connection)).All
            fun _ owner => owner.1 ∈ s.windows := hr.sessions.insert htarget
        refine ⟨⟨rfl, rfl, rfl, rfl⟩, ⟨hr.focused, ?_, hr.commands, hr.results, hr.assistants,
          hr.hold htarget connection, hr.documents.insert htarget⟩, hk.hold hconnection⟩
        cases catalog with
        | none => exact hmoved
        | some catalog => exact hmoved.insert htarget

theorem fine_forgetResult (window : WindowKey) (result : ResultId) :
    Fine s (s.forgetResult window result) := by
  unfold State.forgetResult
  split
  · exact fine_self hr hk
  next readers hreaders =>
    have hall := hr.results result readers hreaders
    refine fine_results hr hk ?_
    split
    · exact hr.results.remove result
    · refine hr.results.insert ?_
      unfold State.unread
      split
      next views hviews =>
        split
        · exact hall.remove window
        · exact hall.insert (hall window views hviews)
      next => exact hall

theorem fine_call {c : Call} (hc : c.Timely s) : Fine s (s.call c) := by
  have hself := fine_self hr hk
  cases c with
  | focus key focused => exact fine_focus hr hk key focused
  | claimCommand window command =>
    refine settled_cases hself fun s' hs' => ?_
    unfold State.claimCommand at hs'
    split_ifs at hs' with hwindow howner
    obtain rfl := Except.ok.inj hs'
    exact fine_commands hr hk (hr.commands.insert (registered_of_not hwindow))
  | releaseCommand window command =>
    show Fine s (s.releaseCommand window command)
    unfold State.releaseCommand
    split
    · exact fine_commands hr hk (hr.commands.remove command)
    · exact hself
  | claimSession window connection session =>
    refine settled_cases hself fun s' hs' => ?_
    unfold State.claimSession at hs'
    split_ifs at hs' with hwindow
    obtain rfl := Except.ok.inj hs'
    have hwindow := registered_of_not hwindow
    exact fine_session hr hk hwindow (hc hwindow) session
  | releaseSession session => exact fine_sessions hr hk (hr.sessions.remove session)
  | handOver source target connection session document catalog => exact fine_handOver hr hk hc
  | claimResult window result view =>
    refine settled_cases hself fun s' hs' => ?_
    unfold State.claimResult at hs'
    split_ifs at hs' with hwindow
    obtain rfl := Except.ok.inj hs'
    exact fine_results hr hk (hr.reading (registered_of_not hwindow) result view)
  | checkResult window result =>
    refine settled_cases hself fun s' hs' => ?_
    unfold State.checkResult at hs'
    dsimp only at hs'
    split_ifs at hs' with hempty hreads
    · obtain rfl := Except.ok.inj hs'
      rcases hc with hwindow | hreaders
      · exact fine_results hr hk (hr.reading hwindow result false)
      · exact absurd (List.isEmpty_iff.mp hempty) hreaders
    · obtain rfl := Except.ok.inj hs'
      exact hself
  | forgetResult window result => exact fine_forgetResult hr hk window result
  | claimDocument window document =>
    refine settled_cases hself fun s' hs' => ?_
    unfold State.claimDocument at hs'
    split_ifs at hs' with howner
    obtain rfl := Except.ok.inj hs'
    exact fine_documents hr hk (hr.documents.insert (hc.resolve_right howner))
  | releaseDocument window document =>
    show Fine s (s.releaseDocument window document)
    unfold State.releaseDocument
    split
    · exact fine_documents hr hk (hr.documents.remove document)
    · exact hself
  | claimAssistant window connection =>
    refine settled_cases hself fun s' hs' => ?_
    unfold State.claimAssistant at hs'
    cases howner : s.assistants.get connection with
    | none =>
      rw [howner] at hs'
      obtain rfl := Except.ok.inj hs'
      refine fine_assistants hr hk (hr.assistants.insert (hc.resolve_right ?_))
      rw [howner]
      rintro ⟨⟩
    | some owner =>
      rw [howner] at hs'
      dsimp only at hs'
      by_cases hne : owner ≠ window
      · rw [if_pos hne] at hs'
        cases hs'
      · rw [if_neg hne] at hs'
        obtain rfl := Except.ok.inj hs'
        have hwindow := hr.assistants connection owner howner
        exact fine_assistants hr hk (hr.assistants.insert (not_not.mp hne ▸ hwindow))
  | releaseAssistant window connection =>
    show Fine s (s.releaseAssistant window connection)
    unfold State.releaseAssistant
    split
    · exact fine_assistants hr hk (hr.assistants.remove connection)
    · exact hself
  | route window command event =>
    show Fine s (s.route window command event).1
    unfold State.route
    cases event with
    | transactionState session => exact hself
    | other => exact hself
    | announces result =>
      dsimp only
      split
      · exact hself
      next howner =>
        have hwindow := hr.commands command window (not_not.mp howner)
        exact fine_results hr hk (hr.reading hwindow result false)

omit hr hk

end

/-! ## Guards -/

/-- The guard of an opening: bound once the opening has named its connection, and adopted between
the adoption and the drop that ends it. -/
structure Opening where
  command : CommandId
  window : WindowKey
  bound : Option ConnectionId
  adopted : Bool
deriving DecidableEq

/-- The registry, the guards that have not been dropped, and the keys of all windows there were. -/
structure World where
  state : State
  openings : List Opening
  disconnecting : List ConnectionId
  deleting : List ConnectionId
  known : List WindowKey

def World.new : World := ⟨.new, [], [], [], []⟩

inductive Event where
  | reserve (key : WindowKey)
  | forget (key : WindowKey)
  | call (c : Call)
  | releaseConnection (window : WindowKey) (connection : ConnectionId)
  | disconnectIfUnused (connection : ConnectionId)
  | dropDisconnecting (connection : ConnectionId)
  | beginDeletion (command : CommandId) (connection : ConnectionId)
  | dropDeletion (connection : ConnectionId)
  | beginOpening (window : WindowKey) (command : CommandId)
  | bindOpening (opening : Opening) (connection : ConnectionId)
  | adopt (opening : Opening) (connection : ConnectionId) (sessions : List SessionId)
  | dropOpening (opening : Opening)

def change (opening after : Opening) (openings : List Opening) : List Opening :=
  openings.map fun other => if other = opening then after else other

/-- One section under the lock; a task only uses a guard it was given, and a refusal leaves what is
there. -/
def World.step (w : World) : Event → Option World
  | .reserve key =>
    match w.state.reserve key with
    | .ok s => some { w with state := s, known := key :: w.known }
    | .error _ => some w
  | .forget key =>
    let gone := w.state.forget key
    some { w with state := gone.1, disconnecting := gone.2.released ++ w.disconnecting }
  | .call c => some { w with state := w.state.call c }
  | .releaseConnection window connection =>
    let left := w.state.releaseConnection window connection
    some { w with state := left.1, disconnecting := left.2.toList ++ w.disconnecting }
  | .disconnectIfUnused connection =>
    let marked := w.state.markUnused connection
    some { w with state := marked.1, disconnecting := marked.2.toList ++ w.disconnecting }
  | .dropDisconnecting connection =>
    if connection ∈ w.disconnecting then
      some { w with
        state := w.state.dropDisconnecting connection
        disconnecting := w.disconnecting.erase connection }
    else none
  | .beginDeletion command connection =>
    match w.state.beginDeletion command connection with
    | .ok s => some { w with state := s, deleting := connection :: w.deleting }
    | .error _ => some w
  | .dropDeletion connection =>
    if connection ∈ w.deleting then
      some { w with
        state := w.state.dropDeletion connection
        deleting := w.deleting.erase connection }
    else none
  | .beginOpening window command =>
    match w.state.beginOpening window command with
    | .ok s => some { w with state := s, openings := ⟨command, window, none, false⟩ :: w.openings }
    | .error _ => some w
  | .bindOpening opening connection =>
    if opening ∈ w.openings ∧ opening.adopted = false then
      match w.state.bindOpening opening.command connection with
      | .done s =>
        some { w with
          state := s
          openings := change opening { opening with bound := some connection } w.openings }
      | .refused _ => some w
      | .wait => some w
    else none
  | .adopt opening connection sessions =>
    if opening ∈ w.openings ∧ opening.adopted = false then
      some { w with
        state := (w.state.adopt opening.command connection sessions).1
        openings := change opening { opening with adopted := true } w.openings }
    else none
  | .dropOpening opening =>
    if opening ∈ w.openings then
      some { w with
        state := w.state.dropOpening opening.command
        openings := w.openings.erase opening }
    else none

def Step (w : World) (ev : Event) (w' : World) : Prop := w.step ev = some w'

/-- A step that is not late: its call is timely, a window is new, an opening is adopted on the
connection it named, and no opening begins under the command of one that was adopted and is not
dropped yet. -/
def Timely (w : World) : Event → Prop
  | .call c => c.Timely w.state
  | .reserve key => key ∉ w.known
  | .beginOpening _ command =>
    ∀ opening ∈ w.openings, opening.adopted = true → opening.command ≠ command
  | .adopt opening connection _ => opening.bound = some connection
  | _ => True

def TimelyStep (w : World) (ev : Event) (w' : World) : Prop := Step w ev w' ∧ Timely w ev

/-! ## What is held -/

/-- What a window holds is not taken from under it, and one that is gone leaves no record once its
openings have ended. -/
structure Untaken (w : World) : Prop where
  /-- No connection is being disconnected or deleted that a live opening has named. -/
  opened : ∀ opening ∈ w.openings, opening.adopted = false → opening.window ∈ w.state.windows →
    ∀ connection, opening.bound = some connection →
      connection ∉ w.state.disconnecting ∧ connection ∉ w.state.deleting
  /-- No connection is being disconnected that a window holds. -/
  held : ∀ key ∈ w.state.windows, ∀ held, w.state.connections.get key = some held →
    ∀ connection ∈ held, connection ∉ w.state.disconnecting
  /-- A connection has one mark at most, and is marked as long as it is not dropped. -/
  marks : w.disconnecting.Nodup ∧
    ∀ connection, connection ∈ w.state.disconnecting ↔ connection ∈ w.disconnecting
  /-- What is owned has one owner. -/
  owners : (w.state.sessions.entries.map Prod.fst).Nodup ∧
    (w.state.documents.entries.map Prod.fst).Nodup ∧
    (w.state.commands.entries.map Prod.fst).Nodup ∧
    (w.state.assistants.entries.map Prod.fst).Nodup
  gone : ∀ key, key ∉ w.state.windows → (∀ opening ∈ w.openings, opening.window ≠ key) →
    w.state.names key = false ∧ w.state.focused ≠ some key

/-- The invariant. -/
structure Inv (w : World) : Prop where
  recorded : Recorded w.state
  kept : Kept w.state
  live : Live w.state
  guarded : w.state.openings.All fun command record =>
    ∃ opening ∈ w.openings, opening.command = command ∧ opening.adopted = false ∧
      opening.window = record.1
  noted : ∀ opening ∈ w.openings, opening.adopted = false →
    w.state.openings.get opening.command = some (opening.window, opening.bound)
  distinct : (w.openings.map (·.command)).Nodup
  windowsKnown : ∀ key ∈ w.state.windows, key ∈ w.known
  openingsKnown : ∀ opening ∈ w.openings, opening.window ∈ w.known
  nodup : w.disconnecting.Nodup
  marked : ∀ connection, connection ∈ w.state.disconnecting ↔ connection ∈ w.disconnecting

theorem Inv.new : Inv .new where
  recorded :=
    { focused := fun _ h => nomatch h
      sessions := IndexMap.All.empty
      commands := IndexMap.All.empty
      results := IndexMap.All.empty
      assistants := IndexMap.All.empty
      connections := IndexMap.All.empty
      documents := IndexMap.All.empty }
  kept := IndexMap.All.empty
  live := IndexMap.All.empty
  guarded := IndexMap.All.empty
  noted := fun _ h => nomatch h
  distinct := nodup_nil
  windowsKnown := fun _ h => nomatch h
  openingsKnown := fun _ h => nomatch h
  nodup := nodup_nil
  marked := fun _ => Iff.rfl

theorem Inv.untaken {w : World} (h : Inv w) : Untaken w where
  opened := by
    intro opening hopening hadopted hwindow connection hbound
    exact h.live _ _ (h.noted opening hopening hadopted) hwindow connection hbound
  held := fun key _ held hheld => h.kept key held hheld
  marks := ⟨h.nodup, h.marked⟩
  owners := ⟨w.state.sessions.nodup, w.state.documents.nodup, w.state.commands.nodup,
    w.state.assistants.nodup⟩
  gone := by
    intro key hkey hended
    refine ⟨?_, fun hfocused => hkey (h.recorded.focused key hfocused)⟩
    rw [Bool.eq_false_iff]
    intro hnames
    unfold State.names at hnames
    simp only [Bool.or_eq_true, IndexMap.any_values, decide_eq_true_eq] at hnames
    rcases hnames with ((((((hreg | hsession) | hcommand) | hresult) | hassistant) | hconnection) |
      hdocument) | hopening
    · exact hkey (isRegistered_iff.mp hreg)
    · obtain ⟨session, owner, hget, rfl⟩ := hsession
      exact hkey (h.recorded.sessions session owner hget)
    · obtain ⟨command, owner, hget, rfl⟩ := hcommand
      exact hkey (h.recorded.commands command owner hget)
    · obtain ⟨result, readers, hget, hreads⟩ := hresult
      obtain ⟨views, hviews⟩ := Option.isSome_iff_exists.mp hreads
      exact hkey (h.recorded.results result readers hget key views hviews)
    · obtain ⟨connection, owner, hget, rfl⟩ := hassistant
      exact hkey (h.recorded.assistants connection owner hget)
    · obtain ⟨held, hheld⟩ := Option.isSome_iff_exists.mp hconnection
      exact hkey (h.recorded.connections key held hheld)
    · obtain ⟨document, owner, hget, rfl⟩ := hdocument
      exact hkey (h.recorded.documents document owner hget)
    · obtain ⟨command, record, hget, rfl⟩ := hopening
      obtain ⟨opening, hmem, -, -, hwindow⟩ := h.guarded command record hget
      exact hended opening hmem hwindow

/-! ## Marking -/

/-- The connections that were marked, none of which was, and what the marking keeps. -/
structure Marks (s s' : State) (new : List ConnectionId) : Prop where
  recorded : Recorded s'
  kept : Kept s'
  live : Live s'
  windows : s'.windows = s.windows
  openings : s'.openings = s.openings
  fresh : new.Nodup ∧ ∀ connection ∈ new, connection ∉ s.disconnecting
  disconnecting : ∀ connection,
    connection ∈ s'.disconnecting ↔ connection ∈ new ∨ connection ∈ s.disconnecting

section

variable {s s' s'' : State}

theorem openedLive_eq_false {connection : ConnectionId} (h : s.openedLive connection = false) :
    s.openings.All fun _ opening => opening.1 ∈ s.windows → opening.2 ≠ some connection := by
  intro command opening hget hwindow hbound
  refine absurd (IndexMap.any_values.mpr ⟨command, opening, hget, ?_⟩) (Bool.eq_false_iff.mp h)
  rw [Bool.and_eq_true]
  exact ⟨decide_eq_true hbound, isRegistered_iff.mpr hwindow⟩

theorem inUse_eq_false {connection : ConnectionId} (h : s.inUse connection = false) :
    (s.connections.All fun _ held => connection ∉ held) ∧ s.openedLive connection = false := by
  obtain ⟨hheld, hopened⟩ := Bool.or_eq_false_iff.mp h
  refine ⟨fun key held hget hmem => ?_, hopened⟩
  exact absurd (IndexMap.any_values.mpr ⟨key, held, hget, decide_eq_true hmem⟩)
    (Bool.eq_false_iff.mp hheld)

theorem Marks.none (hr : Recorded s) (hk : Kept s) (hl : Live s) : Marks s s [] :=
  ⟨hr, hk, hl, rfl, rfl, ⟨nodup_nil, fun _ h => nomatch h⟩, fun _ => by simp⟩

theorem Marks.trans {new new' : List ConnectionId} (h : Marks s s' new) (h' : Marks s' s'' new') :
    Marks s s'' (new ++ new') := by
  refine ⟨h'.recorded, h'.kept, h'.live, h'.windows.trans h.windows, h'.openings.trans h.openings,
    ⟨List.nodup_append.mpr ⟨h.fresh.1, h'.fresh.1, fun a ha b hb hab => ?_⟩, fun c hc => ?_⟩,
    fun c => ?_⟩
  · exact h'.fresh.2 b hb ((h.disconnecting b).mpr (.inl (hab ▸ ha)))
  · rcases mem_append.mp hc with hc | hc
    · exact h.fresh.2 c hc
    · exact fun hdisconnecting =>
        h'.fresh.2 c hc ((h.disconnecting c).mpr (.inr hdisconnecting))
  · rw [h'.disconnecting, h.disconnecting, mem_append]
    tauto

theorem marks_markUnused (hr : Recorded s) (hk : Kept s) (hl : Live s)
    (connection : ConnectionId) :
    Marks s (s.markUnused connection).1 (s.markUnused connection).2.toList := by
  unfold State.markUnused
  split
  · exact .none hr hk hl
  next h =>
    simp only [Bool.or_eq_true, not_or, Bool.not_eq_true, decide_eq_true_eq] at h
    obtain ⟨huse, hmarked⟩ := h
    obtain ⟨hunheld, hunopened⟩ := inUse_eq_false huse
    have hunopened := openedLive_eq_false hunopened
    refine ⟨{ hr with }, fun key held hget c hc hmem => ?_,
      fun command opening hget hwindow c hbound => ⟨fun hmem => ?_, ?_⟩, rfl, rfl,
      ⟨nodup_singleton _, fun c hc => ?_⟩, fun c => ?_⟩
    · rcases mem_cons.mp hmem with rfl | hmem
      · exact hunheld key held hget hc
      · exact hk key held hget c hc hmem
    · rcases mem_cons.mp hmem with rfl | hmem
      · exact hunopened command opening hget hwindow hbound
      · exact (hl command opening hget hwindow c hbound).1 hmem
    · exact (hl command opening hget hwindow c hbound).2
    · exact mem_singleton.mp hc ▸ hmarked
    · rw [Option.toList_some, mem_singleton]
      exact mem_cons

theorem marks_markAll (hr : Recorded s) (hk : Kept s) (hl : Live s)
    (connections : List ConnectionId) :
    Marks s (State.markAll connections s).1 (State.markAll connections s).2 := by
  induction connections generalizing s with
  | nil => exact .none hr hk hl
  | cons connection rest ih =>
    have hone := marks_markUnused hr hk hl connection
    exact hone.trans (ih hone.recorded hone.kept hone.live)

/-- Without a window, nothing names it but its openings. -/
theorem recorded_without (hr : Recorded s) (key : WindowKey) : Recorded (s.without key) := by
  have hleft {owner : WindowKey} (hwindow : owner ∈ s.windows) (hne : decide (owner ≠ key) = true) :
      owner ∈ s.windows.filter (· ≠ key) := mem_filter.mpr ⟨hwindow, hne⟩
  refine ⟨fun key' hfocused => ?_, (hr.sessions.filter _).imp fun _ _ h => hleft h.1 h.2,
    (hr.commands.filter _).imp fun _ _ h => hleft h.1 h.2, ?_,
    (hr.assistants.filter _).imp fun _ _ h => hleft h.1 h.2,
    (hr.connections.remove_ne key).imp fun _ _ h => hleft h.2 (decide_eq_true h.1),
    (hr.documents.filter _).imp fun _ _ h => hleft h.1 h.2⟩
  · have hfocused : (if s.focused = some key then none else s.focused) = some key' := hfocused
    split at hfocused
    · cases hfocused
    next hne =>
      refine hleft (hr.focused key' hfocused) (decide_eq_true fun heq => hne ?_)
      rw [hfocused, heq]
  · have hreaders : (s.results.mapValues (·.remove key)).All
        fun _ readers => readers.All fun reader _ => reader ≠ key ∧ reader ∈ s.windows :=
      hr.results.mapValues fun _ readers h => h.remove_ne key
    refine (hreaders.filter _).imp fun _ readers h => ?_
    exact h.1.imp fun _ _ h => hleft h.2 (decide_eq_true h.1)

theorem kept_without (hk : Kept s) (key : WindowKey) : Kept (s.without key) := hk.remove key

theorem live_without (hl : Live s) (key : WindowKey) : Live (s.without key) :=
  hl.imp fun _ _ h hwindow => h (mem_filter.mp hwindow).1

theorem marks_forget (hr : Recorded s) (hk : Kept s) (hl : Live s) (key : WindowKey) :
    Marks (s.without key) (s.forget key).1 (s.forget key).2.released :=
  marks_markAll (recorded_without hr key) (kept_without hk key) (live_without hl key) _

end

/-! ## Steps -/

theorem commands_change (opening after : Opening) (h : after.command = opening.command)
    (openings : List Opening) :
    (change opening after openings).map (·.command) = openings.map (·.command) := by
  unfold change
  rw [map_map]
  refine map_congr_left fun other _ => ?_
  show (if other = opening then after else other).command = other.command
  split
  next heq => rw [h, heq]
  next => rfl

variable {openings : List Opening}

theorem mem_change {opening after other : Opening} (h : other ∈ change opening after openings) :
    (other = after ∧ opening ∈ openings) ∨ (other ∈ openings ∧ other ≠ opening) := by
  obtain ⟨old, hold, rfl⟩ := mem_map.mp h
  split
  next heq => exact .inl ⟨rfl, heq ▸ hold⟩
  next hne => exact .inr ⟨hold, hne⟩

theorem mem_change_self {opening after : Opening}
    (h : opening ∈ openings) : after ∈ change opening after openings :=
  mem_map.mpr ⟨opening, h, if_pos rfl⟩

theorem mem_change_of_ne {opening after other : Opening}
    (h : other ∈ openings) (hne : other ≠ opening) : other ∈ change opening after openings :=
  mem_map.mpr ⟨other, h, if_neg hne⟩

section

variable {w w' : World}

theorem Inv.eq_of_command (h : Inv w) {opening other : Opening} (hopening : opening ∈ w.openings)
    (hother : other ∈ w.openings) (hcommand : other.command = opening.command) :
    other = opening :=
  inj_on_of_nodup_map h.distinct hother hopening hcommand

theorem Inv.fine (h : Inv w) {s : State} (hs : Fine w.state s) : Inv { w with state := s } := by
  obtain ⟨⟨hwindows, hopenings, hdisconnecting, hdeleting⟩, hrecorded, hkept⟩ := hs
  refine ⟨hrecorded, hkept, ?_, ?_, ?_, h.distinct, ?_, h.openingsKnown, h.nodup, ?_⟩
  · show s.openings.All _
    rw [hopenings, hwindows, hdisconnecting, hdeleting]
    exact h.live
  · show s.openings.All _
    rw [hopenings]
    exact h.guarded
  · intro opening hmem hadopted
    show s.openings.get _ = _
    rw [hopenings]
    exact h.noted opening hmem hadopted
  · intro key hkey
    exact h.windowsKnown key (hwindows ▸ hkey)
  · intro connection
    show connection ∈ s.disconnecting ↔ _
    rw [hdisconnecting]
    exact h.marked connection

theorem Inv.marks (h : Inv w) {s s' : State} {new : List ConnectionId} (hs : Marks s s' new)
    (hopenings : s.openings = w.state.openings) (hwindows : ∀ key ∈ s.windows, key ∈ w.state.windows)
    (hdisconnecting : s.disconnecting = w.state.disconnecting) :
    Inv { w with state := s', disconnecting := new ++ w.disconnecting } := by
  refine ⟨hs.recorded, hs.kept, hs.live, ?_, ?_, h.distinct, ?_, h.openingsKnown, ?_, ?_⟩
  · show s'.openings.All _
    rw [hs.openings, hopenings]
    exact h.guarded
  · intro opening hmem hadopted
    show s'.openings.get _ = _
    rw [hs.openings, hopenings]
    exact h.noted opening hmem hadopted
  · intro key hkey
    exact h.windowsKnown key (hwindows key (hs.windows ▸ hkey))
  · refine List.nodup_append.mpr ⟨hs.fresh.1, h.nodup, fun a ha b hb hab => ?_⟩
    exact hs.fresh.2 a ha (hdisconnecting ▸ (h.marked a).mpr (hab ▸ hb))
  · intro connection
    show connection ∈ s'.disconnecting ↔ connection ∈ new ++ w.disconnecting
    rw [hs.disconnecting, hdisconnecting, h.marked, mem_append]

theorem Inv.reserve (h : Inv w) {key : WindowKey} (hkey : key ∉ w.known) {s : State}
    (hs : w.state.reserve key = .ok s) : Inv { w with state := s, known := key :: w.known } := by
  unfold State.reserve at hs
  split_ifs at hs
  obtain rfl := Except.ok.inj hs
  have hr := h.recorded
  have hmore {other : WindowKey} (hother : other ∈ w.state.windows) :
      other ∈ w.state.windows ++ [key] := mem_append_left _ hother
  refine ⟨⟨fun other ho => hmore (hr.focused other ho), hr.sessions.imp fun _ _ => hmore,
    hr.commands.imp fun _ _ => hmore, hr.results.imp fun _ _ hall => hall.imp fun _ _ => hmore,
    hr.assistants.imp fun _ _ => hmore, hr.connections.imp fun _ _ => hmore,
    hr.documents.imp fun _ _ => hmore⟩, h.kept, fun command record hget hwindow => ?_, h.guarded,
    h.noted, h.distinct, fun other hother => ?_, fun opening hmem => ?_, h.nodup, h.marked⟩
  · rcases mem_append.mp hwindow with hwindow | hwindow
    · exact h.live command record hget hwindow
    · -- an opening of this window would have been known
      obtain ⟨opening, hmem, -, -, hof⟩ := h.guarded command record hget
      have hknown := h.openingsKnown opening hmem
      rw [hof, mem_singleton.mp hwindow] at hknown
      exact absurd hknown hkey
  · rcases mem_append.mp hother with hother | hother
    · exact mem_cons_of_mem _ (h.windowsKnown other hother)
    · exact mem_singleton.mp hother ▸ mem_cons_self
  · exact mem_cons_of_mem _ (h.openingsKnown opening hmem)

theorem Inv.releaseConnection (h : Inv w) (window : WindowKey) (connection : ConnectionId) :
    Inv { w with
      state := (w.state.releaseConnection window connection).1
      disconnecting :=
        (w.state.releaseConnection window connection).2.toList ++ w.disconnecting } := by
  have hr := h.recorded
  have hrecorded : Recorded { w.state with
      connections := w.state.connections.modify window (·.filter (· ≠ connection)) } :=
    { hr with connections := hr.connections.modify fun _ hkey => hkey }
  have hkept : Kept { w.state with
      connections := w.state.connections.modify window (·.filter (· ≠ connection)) } :=
    h.kept.modify fun _ hheld c hc => hheld c (mem_of_mem_filter hc)
  exact h.marks (marks_markUnused hrecorded hkept h.live connection) rfl (fun _ hkey => hkey) rfl

theorem Inv.dropDisconnecting (h : Inv w) (connection : ConnectionId) :
    Inv { w with
      state := w.state.dropDisconnecting connection
      disconnecting := w.disconnecting.erase connection } := by
  refine { h with
    recorded := { h.recorded with }
    kept := h.kept.imp fun _ _ hheld c hc hmem => ?_
    live := h.live.imp fun _ _ hlive hwindow c hbound => ⟨fun hmem => ?_, ?_⟩
    nodup := h.nodup.erase connection
    marked := fun c => ?_ }
  · exact hheld c hc (mem_of_mem_filter hmem)
  · exact (hlive hwindow c hbound).1 (mem_of_mem_filter hmem)
  · exact (hlive hwindow c hbound).2
  · show c ∈ w.state.disconnecting.filter (· ≠ connection) ↔ _
    rw [mem_filter, decide_eq_true_iff, h.nodup.mem_erase_iff, h.marked, and_comm]

variable {connection : ConnectionId}

theorem Inv.beginDeletion (h : Inv w) {command : CommandId} {s : State}
    (hs : w.state.beginDeletion command connection = .ok s) (deleting : List ConnectionId) :
    Inv { w with state := s, deleting := deleting } := by
  unfold State.beginDeletion at hs
  split_ifs at hs with hheld
  obtain rfl := Except.ok.inj hs
  have hopened := openedLive_eq_false
    (Bool.or_eq_false_iff.mp (Bool.eq_false_iff.mpr hheld)).2
  refine { h with
    recorded := { h.recorded with }
    live := fun command record hget hwindow c hbound => ⟨?_, fun hmem => ?_⟩ }
  · exact (h.live command record hget hwindow c hbound).1
  · rcases mem_insert_iff.mp hmem with rfl | hmem
    · exact hopened command record hget hwindow hbound
    · exact (h.live command record hget hwindow c hbound).2 hmem

theorem Inv.dropDeletion (h : Inv w) (connection : ConnectionId) (deleting : List ConnectionId) :
    Inv { w with state := w.state.dropDeletion connection, deleting := deleting } := by
  refine { h with
    recorded := { h.recorded with }
    live := h.live.imp fun _ _ hlive hwindow c hbound => ⟨?_, fun hmem => ?_⟩ }
  · exact (hlive hwindow c hbound).1
  · exact (hlive hwindow c hbound).2 (mem_of_mem_filter hmem)

theorem Inv.beginOpening (h : Inv w) {window : WindowKey} {command : CommandId}
    (hended : ∀ opening ∈ w.openings, opening.adopted = true → opening.command ≠ command)
    {s : State} (hs : w.state.beginOpening window command = .ok s) :
    Inv { w with state := s, openings := ⟨command, window, none, false⟩ :: w.openings } := by
  unfold State.beginOpening at hs
  split_ifs at hs with hwindow hopens
  obtain rfl := Except.ok.inj hs
  -- a guard that is not adopted is recorded, and the registry has looked for its record
  have hnew : ∀ opening ∈ w.openings, opening.command ≠ command := by
    intro opening hmem
    by_cases hadopted : opening.adopted = true
    · exact hended opening hmem hadopted
    · rintro rfl
      rw [h.noted opening hmem (Bool.not_eq_true _ ▸ hadopted)] at hopens
      exact hopens rfl
  refine { h with
    recorded := { h.recorded with }
    live := h.live.insert (fun _ c hbound => by cases hbound)
    guarded := ?_
    noted := fun opening hmem hadopted => ?_
    distinct := ?_
    openingsKnown := fun opening hmem => ?_ }
  · refine (h.guarded.imp fun _ _ hguard => ?_).insert
      ⟨_, mem_cons_self, rfl, rfl, rfl⟩
    obtain ⟨opening, hmem, hof⟩ := hguard
    exact ⟨opening, mem_cons_of_mem _ hmem, hof⟩
  · show (w.state.openings.insert command (window, none)).get opening.command = _
    rw [IndexMap.get_insert]
    rcases mem_cons.mp hmem with rfl | hmem
    · exact if_pos rfl
    · rw [if_neg (hnew opening hmem)]
      exact h.noted opening hmem hadopted
  · refine nodup_cons.mpr ⟨fun hmem => ?_, h.distinct⟩
    obtain ⟨opening, hmem, heq⟩ := mem_map.mp hmem
    exact hnew opening hmem heq
  · rcases mem_cons.mp hmem with rfl | hmem
    · exact h.windowsKnown window (registered_of_not hwindow)
    · exact h.openingsKnown opening hmem

variable {opening : Opening}

theorem Inv.bindOpening (h : Inv w)
    (hopening : opening ∈ w.openings) (hadopted : opening.adopted = false) {s : State}
    (hs : w.state.bindOpening opening.command connection = .done s) :
    Inv { w with
      state := s
      openings := change opening { opening with bound := some connection } w.openings } := by
  unfold State.bindOpening at hs
  rw [h.noted opening hopening hadopted] at hs
  dsimp only at hs
  split_ifs at hs with hwindow hdeleting hdisconnecting
  obtain rfl := State.BindTurn.done.inj hs
  refine { h with
    recorded := { h.recorded with }
    live := h.live.insert fun _ c hbound => ?_
    guarded := ?_
    noted := fun other hmem hother => ?_
    distinct := ?_
    openingsKnown := fun other hmem => ?_ }
  · obtain rfl := Option.some.inj hbound
    exact ⟨hdisconnecting, hdeleting⟩
  · refine (h.guarded.imp fun _ _ hguard => ?_).insert
      ⟨_, mem_change_self hopening, rfl, hadopted, rfl⟩
    obtain ⟨other, hmem, hof⟩ := hguard
    by_cases heq : other = opening
    · subst heq
      exact ⟨_, mem_change_self hopening, hof⟩
    · exact ⟨other, mem_change_of_ne hmem heq, hof⟩
  · show (w.state.openings.insert opening.command (opening.window, some connection)).get
      other.command = _
    rw [IndexMap.get_insert]
    rcases mem_change hmem with ⟨rfl, -⟩ | ⟨hmem, hne⟩
    · exact if_pos rfl
    · rw [if_neg fun heq => hne (h.eq_of_command hopening hmem heq)]
      exact h.noted other hmem hother
  · show ((change opening _ w.openings).map (·.command)).Nodup
    rw [commands_change opening { opening with bound := some connection } rfl]
    exact h.distinct
  · rcases mem_change hmem with ⟨rfl, -⟩ | ⟨hmem, -⟩
    · exact h.openingsKnown opening hopening
    · exact h.openingsKnown other hmem

theorem Inv.adopted (h : Inv w) (hopening : opening ∈ w.openings) {s : State}
    (hr : Recorded s) (hk : Kept s) (hopenings : s.openings = w.state.openings.remove opening.command)
    (hwindows : s.windows = w.state.windows) (hdisconnecting : s.disconnecting = w.state.disconnecting)
    (hdeleting : s.deleting = w.state.deleting) :
    Inv { w with
      state := s
      openings := change opening { opening with adopted := true } w.openings } := by
  refine ⟨hr, hk, ?_, ?_, fun other hmem hother => ?_, ?_, fun key hkey => ?_,
    fun other hmem => ?_, h.nodup, fun c => ?_⟩
  · show s.openings.All _
    rw [hopenings, hwindows, hdisconnecting, hdeleting]
    exact h.live.remove _
  · show s.openings.All _
    rw [hopenings]
    refine (h.guarded.remove_ne _).imp fun command _ ⟨hne, other, hmem, hcommand, hof⟩ => ?_
    refine ⟨other, mem_change_of_ne hmem ?_, hcommand, hof⟩
    rintro rfl
    exact hne hcommand.symm
  · show s.openings.get other.command = _
    rcases mem_change hmem with ⟨rfl, -⟩ | ⟨hmem, hne⟩
    · cases hother
    · rw [hopenings, IndexMap.get_remove, if_neg fun heq => hne (h.eq_of_command hopening hmem heq)]
      exact h.noted other hmem hother
  · show ((change opening _ w.openings).map (·.command)).Nodup
    rw [commands_change opening { opening with adopted := true } rfl]
    exact h.distinct
  · exact h.windowsKnown key (hwindows ▸ hkey)
  · rcases mem_change hmem with ⟨rfl, -⟩ | ⟨hmem, -⟩
    · exact h.openingsKnown opening hopening
    · exact h.openingsKnown other hmem
  · show c ∈ s.disconnecting ↔ _
    rw [hdisconnecting]
    exact h.marked c

theorem Inv.adopt (h : Inv w) (hopening : opening ∈ w.openings) (hadopted : opening.adopted = false)
    (hbound : opening.bound = some connection) (sessions : List SessionId) :
    Inv { w with
      state := (w.state.adopt opening.command connection sessions).1
      openings := change opening { opening with adopted := true } w.openings } := by
  have hr := h.recorded
  have hnoted := h.noted opening hopening hadopted
  have hleft : Recorded { w.state with openings := w.state.openings.remove opening.command } :=
    { hr with }
  by_cases hwindow : (!w.state.isRegistered opening.window) = true
  · have hstate : (w.state.adopt opening.command connection sessions).1 =
        { w.state with openings := w.state.openings.remove opening.command } := by
      unfold State.adopt
      rw [hnoted]
      dsimp only
      rw [if_pos hwindow]
    rw [hstate]
    exact h.adopted hopening hleft h.kept rfl rfl rfl rfl
  · have hregistered := registered_of_not hwindow
    have hfree := (h.live _ _ hnoted hregistered connection hbound).1
    have hsessions : ∀ (given : List SessionId) (all : IndexMap SessionId (WindowKey × ConnectionId)),
        (all.All fun _ owner => owner.1 ∈ w.state.windows) →
          (given.foldl (fun all session => all.insert session (opening.window, connection)) all).All
            fun _ owner => owner.1 ∈ w.state.windows := by
      intro given
      induction given with
      | nil => exact fun _ hall => hall
      | cons session rest ih => exact fun _ hall => ih _ (hall.insert hregistered)
    have hstate : (w.state.adopt opening.command connection sessions).1 =
        { w.state with
          openings := w.state.openings.remove opening.command
          connections := w.state.hold opening.window connection
          sessions := sessions.foldl
            (fun all session => all.insert session (opening.window, connection)) w.state.sessions } := by
      unfold State.adopt
      rw [hnoted]
      dsimp only
      rw [if_neg hwindow]
    rw [hstate]
    exact h.adopted hopening { hr with
      sessions := hsessions sessions _ hr.sessions
      connections := hr.hold hregistered connection } (h.kept.hold hfree) rfl rfl rfl rfl

theorem Inv.dropOpening (h : Inv w) (hopening : opening ∈ w.openings) :
    Inv { w with
      state := w.state.dropOpening opening.command
      openings := w.openings.erase opening } := by
  have hnodup : w.openings.Nodup := h.distinct.of_map
  refine { h with
    recorded := { h.recorded with }
    live := h.live.remove _
    guarded := ?_
    noted := fun other hmem hother => ?_
    distinct := ?_
    openingsKnown := fun other hmem => h.openingsKnown other (mem_of_mem_erase hmem) }
  · refine (h.guarded.remove_ne _).imp fun command _ ⟨hne, other, hmem, hcommand, hof⟩ => ?_
    refine ⟨other, (mem_erase_of_ne ?_).mpr hmem, hcommand, hof⟩
    rintro rfl
    exact hne hcommand.symm
  · obtain ⟨hne, hmem⟩ := hnodup.mem_erase_iff.mp hmem
    show (w.state.openings.remove opening.command).get other.command = _
    rw [IndexMap.get_remove, if_neg fun heq => hne (h.eq_of_command hopening hmem heq)]
    exact h.noted other hmem hother
  · exact h.distinct.sublist (erase_sublist.map _)

theorem Inv.step (h : Inv w) {ev : Event} (hstep : TimelyStep w ev w') : Inv w' := by
  obtain ⟨hstep, htimely⟩ := hstep
  unfold Step World.step at hstep
  cases ev with
  | reserve key =>
    dsimp only at hstep
    split at hstep
    next s hs =>
      cases hstep
      exact h.reserve htimely hs
    next => cases hstep; exact h
  | forget key =>
    cases hstep
    exact h.marks (marks_forget h.recorded h.kept h.live key) rfl
      (fun _ hkey => (mem_filter.mp hkey).1) rfl
  | call c =>
    cases hstep
    exact h.fine (fine_call h.recorded h.kept htimely)
  | releaseConnection window connection =>
    cases hstep
    exact h.releaseConnection window connection
  | disconnectIfUnused connection =>
    cases hstep
    exact h.marks (marks_markUnused h.recorded h.kept h.live connection) rfl (fun _ hkey => hkey) rfl
  | dropDisconnecting connection =>
    dsimp only at hstep
    split at hstep
    · cases hstep
      exact h.dropDisconnecting connection
    · cases hstep
  | beginDeletion command connection =>
    dsimp only at hstep
    split at hstep
    next s hs =>
      cases hstep
      exact h.beginDeletion hs _
    next => cases hstep; exact h
  | dropDeletion connection =>
    dsimp only at hstep
    split at hstep
    · cases hstep
      exact h.dropDeletion connection _
    · cases hstep
  | beginOpening window command =>
    dsimp only at hstep
    split at hstep
    next s hs =>
      cases hstep
      exact h.beginOpening htimely hs
    next => cases hstep; exact h
  | bindOpening opening connection =>
    dsimp only at hstep
    split at hstep
    next hopening =>
      split at hstep
      next s hs =>
        cases hstep
        exact h.bindOpening hopening.1 hopening.2 hs
      next => cases hstep; exact h
      next => cases hstep; exact h
    next => cases hstep
  | adopt opening connection sessions =>
    dsimp only at hstep
    split at hstep
    next hopening =>
      cases hstep
      exact h.adopt hopening.1 hopening.2 htimely sessions
    next => cases hstep
  | dropOpening opening =>
    dsimp only at hstep
    split at hstep
    next hopening =>
      cases hstep
      exact h.dropOpening hopening
    next => cases hstep

end

/-! ## What is handed over -/

structure HandedOver (target : WindowKey) (connection : ConnectionId) (session : SessionId)
    (document : DocumentId) (catalog : Option SessionId) (s : State) : Prop where
  session : s.sessions.get session = some (target, connection)
  catalog : ∀ other ∈ catalog, s.sessions.get other = some (target, connection)
  document : s.documents.get document = some target
  connection : ∃ held, s.connections.get target = some held ∧ connection ∈ held

theorem handOver_whole (s : State) (source target : WindowKey) (connection : ConnectionId)
    (session : SessionId) (document : DocumentId) (catalog : Option SessionId) :
    s.call (.handOver source target connection session document catalog) = s ∨
      HandedOver target connection session document catalog
        (s.call (.handOver source target connection session document catalog)) := by
  unfold State.call State.handOver
  dsimp only
  split_ifs with htarget howned hdocument
  · exact .inl rfl
  · exact .inl rfl
  · exact .inl rfl
  · refine .inr ⟨?_, fun other hother => ?_, ?_, ?_⟩
    · cases catalog with
      | none => exact IndexMap.get_insert.trans (if_pos rfl)
      | some catalog =>
        refine IndexMap.get_insert.trans ?_
        split
        · rfl
        · exact IndexMap.get_insert.trans (if_pos rfl)
    · cases hother
      exact IndexMap.get_insert.trans (if_pos rfl)
    · exact IndexMap.get_insert.trans (if_pos rfl)
    · exact ⟨_, IndexMap.get_insert.trans (if_pos rfl), mem_insert_self⟩

/-! ## Runs -/

theorem Inv.run {tr : List Event} {w : World} (hrun : Steps TimelyStep .new tr w) : Inv w :=
  hrun.invariant (fun _ _ _ h hstep => h.step hstep) .new

def World.run (w : World) : List Event → Option World
  | [] => some w
  | ev :: rest => (w.step ev).bind fun w' => World.run w' rest

theorem steps_of_run {w w' : World} {events : List Event} (h : w.run events = some w') :
    Steps Step w events w' := by
  induction events generalizing w with
  | nil =>
    cases h
    exact .nil
  | cons ev rest ih =>
    obtain ⟨next, hstep, hrest⟩ := Option.bind_eq_some_iff.mp h
    exact (Steps.nil.snoc hstep).trans (ih hrest)

/-- In a run without late steps nothing that a window holds is taken from under it, and what is
handed over is handed over whole. -/
theorem registry_takes_nothing_held {tr : List Event} {w : World}
    (hrun : Steps TimelyStep .new tr w) :
    Untaken w ∧ ∀ source target connection session document catalog,
      w.state.call (.handOver source target connection session document catalog) = w.state ∨
        HandedOver target connection session document catalog
          (w.state.call (.handOver source target connection session document catalog)) :=
  ⟨(Inv.run hrun).untaken, fun source target connection session document catalog =>
    handOver_whole w.state source target connection session document catalog⟩

def closedWhileOpening : List Event :=
  [.reserve 1, .beginOpening 1 7, .bindOpening ⟨7, 1, none, false⟩ 3, .forget 1,
    .adopt ⟨7, 1, some 3, false⟩ 3 [5], .dropOpening ⟨7, 1, some 3, true⟩]

def openingAt (n : Nat) : World := (World.new.run (closedWhileOpening.take n)).getD .new

theorem closed_while_opening :
    ∃ w, Steps TimelyStep .new closedWhileOpening w ∧ Untaken w ∧ w.state.names 1 = false := by
  have hreserved : TimelyStep .new (.reserve 1) (openingAt 1) := ⟨rfl, fun hknown => nomatch hknown⟩
  have hbegun : TimelyStep (openingAt 1) (.beginOpening 1 7) (openingAt 2) :=
    ⟨rfl, fun _ hopening => nomatch hopening⟩
  have hbound : TimelyStep (openingAt 2) (.bindOpening ⟨7, 1, none, false⟩ 3) (openingAt 3) :=
    ⟨rfl, trivial⟩
  have hforgotten : TimelyStep (openingAt 3) (.forget 1) (openingAt 4) := ⟨rfl, trivial⟩
  have hadopted : TimelyStep (openingAt 4) (.adopt ⟨7, 1, some 3, false⟩ 3 [5]) (openingAt 5) :=
    ⟨rfl, rfl⟩
  have hdropped : TimelyStep (openingAt 5) (.dropOpening ⟨7, 1, some 3, true⟩) (openingAt 6) :=
    ⟨rfl, trivial⟩
  have hrun : Steps TimelyStep .new closedWhileOpening (openingAt 6) :=
    (((((Steps.nil.snoc hreserved).snoc hbegun).snoc hbound).snoc hforgotten).snoc hadopted).snoc
      hdropped
  have huntaken := (registry_takes_nothing_held hrun).1
  exact ⟨_, hrun, huntaken, (huntaken.gone 1 (by decide) fun _ hmem => nomatch hmem).1⟩

/-- A window takes a document once it is gone. -/
def lateDocument : List Event := [.reserve 1, .forget 1, .call (.claimDocument 1 9)]

/-- A window records a session on a connection it has let go. -/
def lateSession : List Event :=
  [.reserve 1, .call (.claimSession 1 3 5), .releaseConnection 1 3, .call (.claimSession 1 3 6)]

/-- A document taken late names a window that is gone; a session recorded late holds a connection
that is being disconnected. -/
theorem late_calls_break_the_registry :
    (∃ w, Steps Step .new lateDocument w ∧ ¬ Untaken w) ∧
      ∃ w, Steps Step .new lateSession w ∧ ¬ Untaken w := by
  refine ⟨⟨_, steps_of_run rfl, fun h => ?_⟩, ⟨_, steps_of_run rfl, fun h => ?_⟩⟩
  · have hgone := h.gone 1 (by decide) (fun _ hmem => nomatch hmem)
    exact absurd hgone.1 (by decide)
  · exact h.held 1 (by decide) [3] rfl 3 (by decide) (by decide)

/-- In a run without late steps an opening is recorded exactly as long as its guard is held and not
adopted, no two guards share a command, and every record names a window that is there. -/
theorem openings_are_guarded {tr : List Event} {w : World} (hrun : Steps TimelyStep .new tr w) :
    (∀ command window bound, w.state.openings.get command = some (window, bound) ↔
      ⟨command, window, bound, false⟩ ∈ w.openings) ∧
    (w.openings.map (·.command)).Nodup ∧ Recorded w.state := by
  have h := Inv.run hrun
  refine ⟨fun command window bound => ⟨fun hget => ?_, fun hheld => h.noted _ hheld rfl⟩,
    h.distinct, h.recorded⟩
  obtain ⟨opening, hheld, rfl, hadopted, hwindow⟩ := h.guarded _ _ hget
  have hbound := hget.symm.trans (h.noted opening hheld hadopted)
  obtain ⟨rfl, rfl⟩ := Prod.mk.inj (Option.some.inj hbound)
  rwa [← hadopted]

/-- An opening that has begun is recorded, and the registry refuses a second one under its
command. -/
theorem opening_recorded :
    ∃ w, Steps TimelyStep .new [.reserve 1, .beginOpening 1 7, .beginOpening 1 7] w ∧
      w.state.openings.get 7 = some (1, none) ∧ (w.openings.map (·.command)).Nodup := by
  have hreserved : TimelyStep .new (.reserve 1) (openingAt 1) := ⟨rfl, fun hknown => nomatch hknown⟩
  have hbegun : TimelyStep (openingAt 1) (.beginOpening 1 7) (openingAt 2) :=
    ⟨rfl, fun _ hopening => nomatch hopening⟩
  have hrefused : TimelyStep (openingAt 2) (.beginOpening 1 7) (openingAt 2) :=
    ⟨rfl, fun opening hmem hadopted => by
      obtain rfl := mem_singleton.mp hmem
      cases hadopted⟩
  have hrun := ((Steps.nil.snoc hreserved).snoc hbegun).snoc hrefused
  obtain ⟨hrecorded, hdistinct, -⟩ := openings_are_guarded hrun
  exact ⟨_, hrun, (hrecorded 7 1 none).mpr (by decide), hdistinct⟩

end Oxyn.Desktop
