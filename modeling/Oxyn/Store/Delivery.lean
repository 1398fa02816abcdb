/-
# `Oxyn.Store.Delivery` — updates of a query document, in whatever order they come

The working copy takes each update, the named copy each update that saves a name, and both keep
the latest revision (`Copy.take`).
-/
import Oxyn.Store.Versions

open Runs

namespace Oxyn.Store

open List

open Text Fallible Latest

/-! ## The two copies -/

def workingOf (stored : Option Row) : Copy (Str × Str) :=
  stored.elim ⟨0, ([], [])⟩ fun row => ⟨row.revision, (row.content, row.title)⟩

def savedOf (stored : Option Row) : Copy (Option Str × Option Str) :=
  stored.elim ⟨0, (none, none)⟩ fun row => ⟨row.savedRevision, (row.savedContent, row.savedTitle)⟩

theorem revisionOf_eq (stored : Option Row) : revisionOf stored = (workingOf stored).revision := by
  cases stored <;> rfl

theorem savedRevisionOf_eq (stored : Option Row) :
    savedRevisionOf stored = (savedOf stored).revision := by
  cases stored <;> rfl

namespace QueryDocumentUpdate

variable (update : QueryDocumentUpdate)

def working : Copy (Str × Str) := ⟨update.revision, (update.text, update.title)⟩

def saved : Copy (Option Str × Option Str) :=
  ⟨update.revision, (some update.text, some update.title)⟩

def applied (workspace : WorkspaceId) (stored : Option Row) : Row :=
  stored.elim (update.row workspace) (·.amended update)

end QueryDocumentUpdate

theorem amended_working (prior : Row) (update : QueryDocumentUpdate) :
    workingOf (some (prior.amended update)) = (workingOf (some prior)).take update.working := by
  have hdrafted : workingOf (some (prior.amended update)) =
      workingOf (some (prior.drafted update)) := by
    unfold Row.amended
    split <;> rfl
  rw [hdrafted]
  unfold Row.drafted Copy.take
  show workingOf (some _) = if prior.revision < update.revision then _ else _
  split <;> rfl

theorem amended_saved (prior : Row) (update : QueryDocumentUpdate) :
    savedOf (some (prior.amended update)) =
      if update.saveNamed then (savedOf (some prior)).take update.saved
      else savedOf (some prior) := by
  have hdrafted : savedOf (some (prior.drafted update)) = savedOf (some prior) := by
    unfold Row.drafted
    split <;> rfl
  unfold Row.amended
  cases update.saveNamed with
  | false => exact hdrafted
  | true =>
    simp only [Bool.true_and, decide_eq_true_eq, if_true]
    unfold Copy.take
    show savedOf (some _) = if prior.savedRevision < update.revision then _ else _
    split
    · rfl
    · exact hdrafted

theorem applied_working {update : QueryDocumentUpdate} (hpositive : 0 < update.revision)
    (workspace : WorkspaceId) (stored : Option Row) :
    workingOf (some (update.applied workspace stored)) =
      (workingOf stored).take update.working := by
  cases stored with
  | none => exact (Copy.take_of_lt hpositive).symm
  | some prior => exact amended_working prior update

theorem applied_saved {update : QueryDocumentUpdate} (hpositive : 0 < update.revision)
    (workspace : WorkspaceId) (stored : Option Row) :
    savedOf (some (update.applied workspace stored)) =
      if update.saveNamed then (savedOf stored).take update.saved else savedOf stored := by
  cases stored with
  | none =>
    show savedOf (some (update.row workspace)) = _
    cases hnamed : update.saveNamed with
    | false => simp [savedOf, QueryDocumentUpdate.row, hnamed]
    | true =>
      have htake : (savedOf none).take update.saved = update.saved :=
        Copy.take_of_lt hpositive
      rw [if_pos rfl, htake]
      simp [savedOf, QueryDocumentUpdate.row, hnamed, QueryDocumentUpdate.saved]
  | some prior => exact amended_saved prior update

/-! ## Updates that are accepted -/

/-- The texts of the row are within what is read. -/
structure Row.Fits (row : Row) : Prop where
  title : size row.title ≤ 4096
  content : size row.content ≤ maxQueryDocumentBytes
  saved : row.isSaved = true → ∃ content title, row.savedContent = some content ∧
    size content ≤ maxQueryDocumentBytes ∧ row.savedTitle = some title ∧ size title ≤ 4096

structure Row.Receives (workspace : WorkspaceId) (language : QueryLanguage)
    (connection : Option Nat) (row : Row) : Prop where
  fits : row.Fits
  workspace : row.workspace = workspace
  live : row.isDeleted = false
  language : row.language = language
  connection : row.connection = connection

structure Env.Calm (env : Env) (workspace : WorkspaceId) (connection : Option Nat) : Prop where
  cancelled : env.cancelled = false
  fails : ∀ statement, env.fails statement = false
  belongs : ∀ id ∈ connection, env.belongs id workspace = true

/-- An update that passes its own checks, and names no expected revision. -/
structure QueryDocumentUpdate.Valid (language : QueryLanguage) (connection : Option Nat)
    (update : QueryDocumentUpdate) : Prop where
  prepare : update.prepare = .ok ()
  free : update.expectedRevision = none
  language : update.language = language
  connection : update.connection = connection

variable {row : Row}

theorem fromRow_of_fits (h : row.Fits) : ∃ current, fromRow row = .ok current := by
  obtain ⟨htitle, hcontent, hsaved⟩ := h
  have hread : (row.isSaved && ((row.savedContent.bind (bounded maxQueryDocumentBytes)).isNone ||
      (row.savedTitle.bind (bounded 4096)).isNone)) = false := by
    cases hnamed : row.isSaved with
    | false => rfl
    | true =>
      obtain ⟨content, title, hstored, hsize, hstored', hsize'⟩ := hsaved hnamed
      rw [hstored, hstored']
      simp [bounded, hsize, hsize']
  simp only [fromRow, bind_eq_ok, refuse_eq_ok, pure_eq_ok]
  refine ⟨_, (), hread, (), ?_, (), ?_, rfl⟩
  · rw [bounded, if_pos htitle, Option.isNone_some]
  · rw [bounded, if_pos hcontent, Option.isNone_some]

theorem sizes_of_prepare {update : QueryDocumentUpdate} (h : update.prepare = .ok ()) :
    size update.title ≤ 256 ∧ size update.text ≤ maxQueryDocumentBytes := by
  obtain ⟨u, hvalid, -⟩ := bind_eq_ok.mp h
  cases hcheck : update.validate with
  | error e =>
    rw [hcheck] at hvalid
    cases hvalid
  | ok _ =>
    simp only [QueryDocumentUpdate.validate, bind_eq_ok, refuse_eq_ok, Bool.or_eq_false_iff,
      decide_eq_false_iff_not, Nat.not_lt] at hcheck
    obtain ⟨-, -, -, ⟨-, htitle⟩, htext⟩ := hcheck
    exact ⟨htitle, htext⟩

variable {workspace : WorkspaceId} {connection : Option Nat} {language : QueryLanguage}

theorem receives_applied {update : QueryDocumentUpdate} {stored : Option Row}
    (hvalid : update.Valid language connection)
    (hstored : ∀ row ∈ stored, row.Receives workspace language connection) :
    (update.applied workspace stored).Receives workspace language connection := by
  obtain ⟨htitle, htext⟩ := sizes_of_prepare hvalid.prepare
  have htitle' : size update.title ≤ 4096 := Nat.le_trans htitle (by omega)
  cases stored with
  | none =>
    refine ⟨⟨htitle', htext, fun hnamed => ?_⟩, rfl, rfl, hvalid.language, hvalid.connection⟩
    have hsave : update.saveNamed = true := hnamed
    exact ⟨update.text, update.title, if_pos hsave, htext, if_pos hsave, htitle'⟩
  | some prior =>
    obtain ⟨⟨hptitle, hpcontent, hpsaved⟩, hworkspace, hlive, hlanguage, hconnection⟩ :=
      hstored prior rfl
    have hdrafted : (prior.drafted update).Receives workspace language connection := by
      unfold Row.drafted
      split
      · exact ⟨⟨htitle', htext, hpsaved⟩, hworkspace, hlive, hlanguage, hconnection⟩
      · exact hstored prior rfl
    show (prior.amended update).Receives workspace language connection
    unfold Row.amended
    split
    · exact ⟨⟨hdrafted.fits.title, hdrafted.fits.content,
        fun _ => ⟨_, _, rfl, htext, rfl, htitle'⟩⟩,
        hdrafted.workspace, hdrafted.live, hdrafted.language, hdrafted.connection⟩
    · exact hdrafted

variable {env : Env}

theorem Env.Calm.run
    (h : env.Calm workspace connection) (statement : Statement) : env.run statement = .ok () := by
  rw [Env.run, h.fails, refuse_false]

theorem amend_of_valid {update : QueryDocumentUpdate} {prior : Row}
    (hcalm : env.Calm workspace connection) (hvalid : update.Valid language connection)
    (hprior : prior.Receives workspace language connection)
    (hrevision : update.revision ≠ prior.revision)
    (hsaved : update.revision ≠ prior.savedRevision) :
    amend env workspace update prior = .ok (prior.amended update) := by
  obtain ⟨current, hcurrent⟩ := fromRow_of_fits hprior.fits
  obtain ⟨-, -, hlanguage, -, hconnection, hcurrent', hsaved', -⟩ := fromRow_eq_ok hcurrent
  have howner : (prior.workspace != workspace) = false := by simp [hprior.workspace]
  have hkeys : (current.connection != update.connection ||
      current.language != update.language) = false := by
    rw [hconnection, hlanguage, hprior.connection, hprior.language, hvalid.connection,
      hvalid.language]
    simp
  have hrevision' : (current.revision == update.revision) = false := by
    simpa [hcurrent'] using hrevision.symm
  have hsavedRevision : (current.savedRevision == update.revision) = false := by
    simpa [hsaved'] using hsaved.symm
  have hworking : writeWorking env update current prior = .ok (prior.drafted update) := by
    unfold writeWorking Row.drafted
    rw [hcurrent', hcalm.run]
    split <;> rfl
  have hnamed : writeNamed env update current (prior.drafted update) =
      .ok (prior.amended update) := by
    unfold writeNamed Row.amended
    rw [hsaved', hcalm.run]
    split <;> rfl
  simp only [amend, howner, hprior.live, hcalm.run, hcurrent, hvalid.free, Option.any_none, hkeys,
    hrevision', hsavedRevision, Bool.and_false, Bool.false_and, refuse_false, ok_bind, hworking,
    hnamed]

theorem updateQuery_of_valid {update : QueryDocumentUpdate} {stored : Option Row}
    (hcalm : env.Calm workspace connection) (hvalid : update.Valid language connection)
    (hstored : ∀ row ∈ stored, row.Receives workspace language connection)
    (hrevision : update.revision ≠ revisionOf stored)
    (hsaved : update.revision ≠ savedRevisionOf stored) :
    (updateQuery env workspace update stored).2 = some (update.applied workspace stored) := by
  have hwrite : writeRow env workspace update stored = .ok (update.applied workspace stored) := by
    cases stored with
    | none =>
      simp only [writeRow, create, hvalid.free, Option.any_none, refuse_false, ok_bind,
        hcalm.run]
      rfl
    | some prior =>
      exact amend_of_valid hcalm hvalid (hstored prior rfl) hrevision hsaved
  obtain ⟨document, hread⟩ := fromRow_of_fits (receives_applied hvalid hstored).fits
  have hconnection : checkConnection env workspace update.connection = .ok () := by
    rw [hvalid.connection]
    cases connection with
    | none => rfl
    | some id =>
      rw [checkConnection, hcalm.run, ok_bind, hcalm.belongs id rfl, Bool.not_true, refuse_false]
  have hbody : updateRow env workspace update stored =
      .ok (document, some (update.applied workspace stored)) := by
    simp only [updateRow, hcalm.run, ok_bind, hconnection, hwrite, hread]
    rfl
  have hdone := transaction_eq_ok.mpr hbody
  simp only [updateQuery, hvalid.prepare, Env.withConnection, hcalm.cancelled, hdone]
  rfl

/-! ## Deliveries -/

/-- Updates that come one after the other, each with its environment. -/
def deliver (workspace : WorkspaceId) (stored : Option Row)
    (deliveries : List (Env × QueryDocumentUpdate)) : Option Row :=
  deliveries.foldl (fun stored delivery =>
    (updateQuery delivery.1 workspace delivery.2 stored).2) stored

theorem deliver_copies {deliveries : List (Env × QueryDocumentUpdate)} {stored : Option Row}
    (hstored : ∀ row ∈ stored, row.Receives workspace language connection)
    (hvalid : ∀ delivery ∈ deliveries, delivery.1.Calm workspace connection ∧
      delivery.2.Valid language connection)
    (hdistinct : (deliveries.map (·.2.revision)).Nodup)
    (hnew : ∀ delivery ∈ deliveries, delivery.2.revision ≠ revisionOf stored ∧
      delivery.2.revision ≠ savedRevisionOf stored) :
    workingOf (deliver workspace stored deliveries) =
        (workingOf stored).takeAll (deliveries.map (·.2.working)) ∧
      savedOf (deliver workspace stored deliveries) =
        (savedOf stored).takeAll ((deliveries.filter (·.2.saveNamed)).map (·.2.saved)) := by
  induction deliveries generalizing stored with
  | nil => exact ⟨rfl, rfl⟩
  | cons delivery deliveries ih =>
    obtain ⟨env, update⟩ := delivery
    obtain ⟨hcalm, hupdate⟩ := hvalid _ mem_cons_self
    obtain ⟨hrevision, hsaved⟩ := hnew _ mem_cons_self
    obtain ⟨hfresh, hdistinct⟩ := nodup_cons.mp hdistinct
    have hpositive := prepare_eq_ok hupdate.prepare
    have hstep : deliver workspace stored ((env, update) :: deliveries) =
        deliver workspace (some (update.applied workspace stored)) deliveries := by
      rw [deliver, foldl_cons, updateQuery_of_valid hcalm hupdate hstored hrevision hsaved]
      rfl
    have hworking := applied_working hpositive workspace stored
    have hnamed := applied_saved hpositive workspace stored
    have hnew' : ∀ other ∈ deliveries,
        other.2.revision ≠ revisionOf (some (update.applied workspace stored)) ∧
        other.2.revision ≠ savedRevisionOf (some (update.applied workspace stored)) := by
      intro other hmem
      obtain ⟨hother, hother'⟩ := hnew other (mem_cons_of_mem _ hmem)
      have hne : other.2.revision ≠ update.revision := fun heq =>
        hfresh (mem_map.mpr ⟨other, hmem, heq⟩)
      rw [revisionOf_eq, savedRevisionOf_eq, hworking, hnamed]
      refine ⟨?_, ?_⟩
      · rcases Copy.take_mem (workingOf stored) update.working with h | h
        · rwa [h, ← revisionOf_eq]
        · rwa [h]
      · split
        · rcases Copy.take_mem (savedOf stored) update.saved with h | h
          · rwa [h, ← savedRevisionOf_eq]
          · rwa [h]
        · rwa [← savedRevisionOf_eq]
    obtain ⟨ihworking, ihsaved⟩ := ih
      (fun row hmem => Option.some.inj hmem ▸ receives_applied hupdate hstored)
      (fun other hmem => hvalid other (mem_cons_of_mem _ hmem)) hdistinct hnew'
    rw [hstep, ihworking, ihsaved, hworking, hnamed]
    refine ⟨rfl, ?_⟩
    cases hsave : update.saveNamed with
    | false => simp [hsave]
    | true =>
      simp only [filter_cons, hsave, if_true, map_cons]
      rfl

/-- Both copies end with the greatest revision that came for them. -/
theorem deliver_latest {deliveries : List (Env × QueryDocumentUpdate)} {stored : Option Row}
    (hstored : ∀ row ∈ stored, row.Receives workspace language connection ∧ row.Tidy)
    (hvalid : ∀ delivery ∈ deliveries, delivery.1.Calm workspace connection ∧
      delivery.2.Valid language connection)
    (hdistinct : (deliveries.map (·.2.revision)).Nodup)
    (hnew : ∀ delivery ∈ deliveries, revisionOf stored < delivery.2.revision)
    {delivery : Env × QueryDocumentUpdate} (hmem : delivery ∈ deliveries) :
    ((∀ other ∈ deliveries, other.2.revision ≤ delivery.2.revision) →
      workingOf (deliver workspace stored deliveries) = delivery.2.working) ∧
    (delivery.2.saveNamed = true →
      (∀ other ∈ deliveries, other.2.saveNamed = true →
        other.2.revision ≤ delivery.2.revision) →
      savedOf (deliver workspace stored deliveries) = delivery.2.saved) := by
  have hsaved : savedRevisionOf stored ≤ revisionOf stored := by
    cases stored with
    | none => exact Nat.le_refl 0
    | some row => exact (hstored row rfl).2.saved_le
  obtain ⟨hworking, hnamed⟩ := deliver_copies (fun row hrow => (hstored row hrow).1) hvalid hdistinct
    fun other hother => by
      have := hnew other hother
      omega
  refine ⟨fun hgreatest => ?_, fun hsave hgreatest => ?_⟩
  · rw [hworking]
    refine Copy.takeAll_of_greatest ?_ (mem_map_of_mem hmem) ?_ ?_
    · rw [map_map]
      exact hdistinct
    · rw [← revisionOf_eq]
      exact hnew delivery hmem
    · intro copy hcopy
      obtain ⟨other, hother, rfl⟩ := mem_map.mp hcopy
      exact hgreatest other hother
  · rw [hnamed]
    refine Copy.takeAll_of_greatest ?_
      (mem_map_of_mem (mem_filter.mpr ⟨hmem, hsave⟩)) ?_ ?_
    · rw [map_map]
      exact hdistinct.sublist (List.Sublist.map _ filter_sublist)
    · rw [← savedRevisionOf_eq]
      exact Nat.lt_of_le_of_lt hsaved (hnew delivery hmem)
    · intro copy hcopy
      obtain ⟨other, hother, rfl⟩ := mem_map.mp hcopy
      obtain ⟨hother, hsave'⟩ := mem_filter.mp hother
      exact hgreatest other hother hsave'

/-! ## Runs -/

variable {stored stored' : Option Row}

theorem step_tidy {event : DocumentOp × Except StoreError DocumentReply}
    (hstep : DocumentStep stored event stored') (htidy : ∀ row ∈ stored, row.Tidy) :
    ∀ row ∈ stored', row.Tidy := by
  obtain ⟨op, reply⟩ := event
  cases reply with
  | error e => exact unchanged_of_failure hstep ▸ htidy
  | ok reply => exact (did_of_step hstep).tidy htidy

theorem step_le {event : DocumentOp × Except StoreError DocumentReply}
    (hstep : DocumentStep stored event stored') (htidy : ∀ row ∈ stored, row.Tidy) :
    revisionOf stored ≤ revisionOf stored' ∧ savedRevisionOf stored ≤ savedRevisionOf stored' := by
  obtain ⟨op, reply⟩ := event
  cases reply with
  | error e =>
    rw [unchanged_of_failure hstep]
    exact ⟨Nat.le_refl _, Nat.le_refl _⟩
  | ok reply => exact (did_of_step hstep).le htidy

variable {tr : List (DocumentOp × Except StoreError DocumentReply)}

theorem steps_tidy
    (hrun : Steps DocumentStep stored tr stored') (htidy : ∀ row ∈ stored, row.Tidy) :
    ∀ row ∈ stored', row.Tidy :=
  hrun.invariant (P := fun stored => ∀ row ∈ stored, row.Tidy)
    (fun _ _ _ h hstep => step_tidy hstep h) htidy

theorem steps_le (hrun : Steps DocumentStep stored tr stored') (htidy : ∀ row ∈ stored, row.Tidy) :
    revisionOf stored ≤ revisionOf stored' ∧ savedRevisionOf stored ≤ savedRevisionOf stored' := by
  induction hrun with
  | nil => exact ⟨Nat.le_refl _, Nat.le_refl _⟩
  | snoc hrun hstep ih =>
    have hle := step_le hstep (steps_tidy hrun htidy)
    exact ⟨Nat.le_trans ih.1 hle.1, Nat.le_trans ih.2 hle.2⟩

def BarredUpTo (revision : Nat) (stored : Option Row) : Prop :=
  ∀ tr later, Steps DocumentStep stored tr later →
    ∀ workspace update reply later', update.revision ≤ revision →
      DocumentStep later (.update workspace update, reply) later' → later' = later

theorem barred_of_reached {revision : Nat} (htidy : row.Tidy)
    (hrevision : revision ≤ row.revision) (hsaved : revision ≤ row.savedRevision) :
    BarredUpTo revision (some row) := by
  intro tr later hrun workspace update reply later' hupdate hstep
  have htidy' : ∀ row' ∈ some row, row'.Tidy := fun row' hmem => Option.some.inj hmem ▸ htidy
  obtain ⟨hle, hle'⟩ := steps_le hrun htidy'
  cases reply with
  | error e => exact unchanged_of_failure hstep
  | ok reply =>
    have hdid := did_of_step hstep
    cases later with
    | none =>
      cases hdid with
      | created hpositive _ =>
        have hzero : row.revision ≤ 0 := hle
        omega
    | some row' =>
      exact hdid.late (Nat.le_trans hupdate (Nat.le_trans hrevision hle))
        (Nat.le_trans hupdate (Nat.le_trans hsaved hle'))

theorem barred_of_close {revision : DocumentRevision} {discard gone : Bool} {reply : DocumentReply}
    (hstep : DocumentStep stored (.closeChecked workspace revision discard gone, .ok reply) stored')
    (htidy : ∀ row ∈ stored, row.Tidy) : BarredUpTo revision.next stored' := by
  have htidy' := step_tidy hstep htidy
  have hdid := did_of_step hstep
  cases hdid with
  | barred | closed =>
    exact barred_of_reached (htidy' _ rfl) (Nat.le_refl _) (Nat.le_refl _)

theorem erased_of_deleted (hstep : DocumentStep stored (.delete, .ok (.deleted true)) stored') :
    ∃ row, stored = some row ∧ stored' = some row.erase := by
  obtain ⟨env, hrun⟩ := hstep
  have hdelete : (Documents.delete env stored).map (Except.map DocumentReply.deleted) id =
      (.ok (.deleted true), stored') := hrun
  unfold Documents.delete at hdelete
  split at hdelete
  · cases (Prod.mk.inj hdelete).1
  · split at hdelete
    next row hsome =>
      obtain ⟨rfl, -⟩ := Option.filter_eq_some_iff.mp hsome
      exact ⟨row, rfl, (Prod.mk.inj hdelete).2.symm⟩
    · cases (Prod.mk.inj hdelete).1

theorem steps_deleted {later : Option Row}
    (hrun : Steps DocumentStep (some row) tr later) (hdeleted : row.isDeleted = true) :
    later = some row := by
  refine hrun.invariant (P := fun stored => stored = some row)
    (fun stored event stored' h hstep => ?_) rfl
  subst h
  obtain ⟨op, reply⟩ := event
  cases reply with
  | error e => exact unchanged_of_failure hstep
  | ok reply => exact (did_of_step hstep).deleted hdeleted

/-- In every run of the operations on a document: revisions only grow, a failure changes nothing, an
expected revision is the current one, a close or a deletion is final for what comes late, a plain
close finds nothing unsaved, and updates end with the greatest revision, whatever their order. -/
theorem documents_lose_nothing {start stored : Option Row}
    {tr : List (DocumentOp × Except StoreError DocumentReply)} (hstart : Unversioned start)
    (hrun : Steps DocumentStep start tr stored) :
    (∀ op reply stored', DocumentStep stored (op, reply) stored' →
      revisionOf stored ≤ revisionOf stored' ∧ savedRevisionOf stored ≤ savedRevisionOf stored' ∧
      savedRevisionOf stored' ≤ revisionOf stored' ∧
      ∀ e, reply = .error e → stored' = stored) ∧
    (∀ op reply stored' seen, DocumentStep stored (op, .ok reply) stored' →
      op.expected = some seen → revisionOf stored = seen ∧
      ∀ before middle earlier later now, Steps DocumentStep start before middle →
        revisionOf middle = seen → Steps DocumentStep middle earlier now →
        Steps DocumentStep now later stored → revisionOf now = seen) ∧
    (∀ workspace revision discard gone reply stored',
      DocumentStep stored (.closeChecked workspace revision discard gone, .ok reply) stored' →
      BarredUpTo revision.next stored') ∧
    (∀ workspace revision discard gone reply stored',
      DocumentStep stored (.close workspace revision discard gone, .ok reply) stored' →
      BarredUpTo revision stored') ∧
    (∀ stored', DocumentStep stored (.delete, .ok (.deleted true)) stored' →
      BarredUpTo (revisionOf stored') stored' ∧ ∀ row ∈ stored', row.isDeleted = true) ∧
    (∀ row ∈ stored, row.isDeleted = true → ∀ later after,
      Steps DocumentStep stored later after → after = some row) ∧
    (∀ op workspace revision reply stored',
      op = .close workspace revision.next false false ∨
        op = .closeChecked workspace revision false false →
      DocumentStep stored (op, .ok reply) stored' →
      ∃ row, stored = some row ∧
        ((row.isSaved = true ∧ row.savedContent = some row.content ∧
            row.savedTitle = some row.title) ∨
          (row.isSaved = false ∧ row.savedContent = none ∧ row.savedTitle = none ∧
            row.content = []))) ∧
    (∀ workspace language connection (deliveries : List (Env × QueryDocumentUpdate)),
      (∀ row ∈ stored, row.Receives workspace language connection) →
      (∀ delivery ∈ deliveries, delivery.1.Calm workspace connection ∧
        delivery.2.Valid language connection) →
      (deliveries.map (·.2.revision)).Nodup →
      (∀ delivery ∈ deliveries, revisionOf stored < delivery.2.revision) →
      ∀ delivery ∈ deliveries,
        ((∀ other ∈ deliveries, other.2.revision ≤ delivery.2.revision) →
          workingOf (deliver workspace stored deliveries) = delivery.2.working) ∧
        (delivery.2.saveNamed = true →
          (∀ other ∈ deliveries, other.2.saveNamed = true →
            other.2.revision ≤ delivery.2.revision) →
          savedOf (deliver workspace stored deliveries) = delivery.2.saved)) := by
  have htidy := steps_tidy hrun (tidy_of_unversioned hstart)
  refine ⟨fun op reply stored' hstep => ?_, fun op reply stored' seen hstep hseen => ?_,
    fun workspace revision discard gone reply stored' hstep => ?_, ?_, fun stored' hstep => ?_,
    ?_, ?_, ?_⟩
  · obtain ⟨hle, hle'⟩ := step_le hstep htidy
    refine ⟨hle, hle', ?_, fun e he => unchanged_of_failure (he ▸ hstep)⟩
    have htidy' := step_tidy hstep htidy
    cases stored' with
    | none => exact Nat.le_refl 0
    | some row => exact (htidy' row rfl).saved_le
  · have hexpected : seen ∈ op.checked.expected := by
      cases op with
      | close => cases hseen
      | _ => exact hseen
    have hcurrent := (did_of_step hstep).expected seen hexpected
    refine ⟨hcurrent.symm, fun before middle earlier later now hbefore hmiddle hearlier hlater => ?_⟩
    have htidy' := steps_tidy hbefore (tidy_of_unversioned hstart)
    have hle := (steps_le hearlier htidy').1
    have hle' := (steps_le hlater (steps_tidy hearlier htidy')).1
    omega
  · exact barred_of_close hstep htidy
  · intro workspace revision discard gone reply stored' hstep
    have hchecked : DocumentStep stored
        (.closeChecked workspace ⟨revision, none⟩ discard gone, .ok reply) stored' := hstep
    exact barred_of_close hchecked htidy
  · obtain ⟨row, rfl, rfl⟩ := erased_of_deleted hstep
    have htidy' := step_tidy hstep htidy
    refine ⟨barred_of_reached (htidy' _ rfl) (Nat.le_refl _) (Nat.le_refl _), fun row' hmem => ?_⟩
    obtain rfl := Option.some.inj hmem
    rfl
  · rintro row rfl hdeleted later after hlater
    exact steps_deleted hlater hdeleted
  · rintro op workspace revision reply stored' (rfl | rfl) hstep
    · exact (did_of_step hstep).clean htidy
    · exact (did_of_step hstep).clean htidy
  · intro workspace language connection deliveries hreceives hvalid hdistinct hnew delivery hmem
    exact deliver_latest (fun row hrow => ⟨hreceives row hrow, htidy row hrow⟩) hvalid hdistinct
      hnew hmem

/-- Nothing fails, and every connection is one of the workspace. -/
def calmEnv : Env := ⟨false, fun _ _ => true, fun _ => false, false⟩

def draftOf (revision : Nat) (text : String) (saveNamed : Bool) : QueryDocumentUpdate :=
  ⟨revision, none, ['t'], .sql .ansi, text.toList, none, saveNamed, true, none⟩

/-- The save of a first text comes after the draft of a second. -/
theorem late_save_is_kept :
    workingOf (deliver 0 none [(calmEnv, draftOf 2 "b" false), (calmEnv, draftOf 1 "a" true)]) =
        (draftOf 2 "b" false).working ∧
      savedOf (deliver 0 none [(calmEnv, draftOf 2 "b" false), (calmEnv, draftOf 1 "a" true)]) =
        (draftOf 1 "a" true).saved := by
  have hcalm : calmEnv.Calm 0 none := ⟨rfl, fun _ => rfl, nofun⟩
  have hlaws := (documents_lose_nothing .absent .nil).2.2.2.2.2.2.2 0 (.sql .ansi) none
    [(calmEnv, draftOf 2 "b" false), (calmEnv, draftOf 1 "a" true)]
    (fun _ hrow => absurd hrow (Option.not_mem_none _))
    (forall_mem_cons.mpr ⟨⟨hcalm, rfl, rfl, rfl, rfl⟩,
      forall_mem_singleton.mpr ⟨hcalm, rfl, rfl, rfl, rfl⟩⟩)
    (by decide) (by decide)
  exact ⟨(hlaws (calmEnv, draftOf 2 "b" false) mem_cons_self).1 (by decide),
    (hlaws (calmEnv, draftOf 1 "a" true) (mem_cons_of_mem _ mem_cons_self)).2 rfl
      (by decide)⟩

end Oxyn.Store
