/-
# `Oxyn.Store.Versions` — query documents lose nothing silently

What an operation that succeeds does to the row is said once (`Did`); what fails leaves it as it
was.
-/
import Oxyn.Store.Documents

open Runs

namespace Oxyn.Store

open Text Fallible Latest

/-! ## Operations -/

inductive DocumentOp where
  | update (workspace : WorkspaceId) (update : QueryDocumentUpdate)
  | close (workspace : WorkspaceId) (revision : Nat) (discard delete : Bool)
  | closeChecked (workspace : WorkspaceId) (revision : DocumentRevision) (discard delete : Bool)
  | delete

inductive DocumentReply where
  | document (document : Document)
  | closed
  | deleted (done : Bool)

def DocumentOp.run (env : Env) (stored : Option Row) :
    DocumentOp → Except StoreError DocumentReply × Option Row
  | .update workspace given => (updateQuery env workspace given stored).map (.map .document) id
  | .close workspace revision discard gone =>
    (closeQuery env workspace revision discard gone stored).map (.map fun _ => .closed) id
  | .closeChecked workspace revision discard gone =>
    (closeQueryChecked env workspace revision discard gone stored).map (.map fun _ => .closed) id
  | .delete => (Documents.delete env stored).map (.map .deleted) id

/-- The revision the writer has seen. -/
def DocumentOp.expected : DocumentOp → Option Nat
  | .update _ given => given.expectedRevision
  | .closeChecked _ revision _ _ => revision.expected
  | _ => none

def DocumentStep (stored : Option Row) (event : DocumentOp × Except StoreError DocumentReply)
    (stored' : Option Row) : Prop :=
  ∃ env : Env, event.1.run env stored = (event.2, stored')

/-! ## What an operation does -/

def Row.drafted (prior : Row) (update : QueryDocumentUpdate) : Row :=
  if prior.revision < update.revision then prior.setWorking update else prior

def Row.amended (prior : Row) (update : QueryDocumentUpdate) : Row :=
  if update.saveNamed && prior.savedRevision < update.revision then
    (prior.drafted update).setNamed update
  else prior.drafted update

/-- What an operation that succeeds does. -/
inductive Did : DocumentOp → Option Row → Option Row → Prop
  | created {workspace : WorkspaceId} {update : QueryDocumentUpdate} :
      0 < update.revision → (∀ expected ∈ update.expectedRevision, expected = 0) →
      Did (.update workspace update) none (some (update.row workspace))
  | amended {workspace : WorkspaceId} {update : QueryDocumentUpdate} {prior : Row} :
      prior.isDeleted = false → (∀ expected ∈ update.expectedRevision, expected = prior.revision) →
      Did (.update workspace update) (some prior) (some (prior.amended update))
  | barred {workspace : WorkspaceId} {revision : DocumentRevision} {discard delete : Bool} :
      0 < revision.next → (∀ expected ∈ revision.expected, expected = 0) →
      (discard = true ∨ delete = true) →
      Did (.closeChecked workspace revision discard delete) none
        (some (tombstone workspace revision.next))
  | closed {workspace : WorkspaceId} {revision : DocumentRevision} {discard delete : Bool}
      {row : Row} {current : Document} :
      row.isDeleted = false → fromRow row = .ok current →
      (∀ expected ∈ revision.expected, expected = row.revision) → row.revision < revision.next →
      (current.dirty = true → discard = true ∨ delete = true) →
      Did (.closeChecked workspace revision discard delete) (some row)
        (some (row.close current revision.next delete))
  | erased {row : Row} : row.isDeleted = false → Did .delete (some row) (some row.erase)
  | absent {stored : Option Row} : Did .delete stored stored

def DocumentOp.checked : DocumentOp → DocumentOp
  | .close workspace revision discard gone => .closeChecked workspace ⟨revision, none⟩ discard gone
  | op => op

variable {stored stored' : Option Row} {env : Env}

theorem withConnection_eq_ok {α : Type}
    {body : Option Row → Except StoreError (α × Option Row)} {a : α}
    (h : env.withConnection body stored = (.ok a, stored')) : body stored = .ok (a, stored') := by
  unfold Env.withConnection at h
  split at h
  · cases (Prod.mk.inj h).1
  · split at h
    · cases (Prod.mk.inj h).1
    · exact transaction_eq_ok.mp h

variable {e : StoreError}

theorem withConnection_eq_error {α : Type} {body : Option Row → Except StoreError (α × Option Row)}
    (h : env.withConnection body stored = (.error e, stored')) :
    stored' = stored := by
  unfold Env.withConnection at h
  split at h
  · exact (Prod.mk.inj h).2.symm
  · split at h
    next hbody =>
      rw [← (Prod.mk.inj h).2]
      exact transaction_eq_error hbody
    · exact transaction_eq_error h

variable {row : Row}

theorem fromRow_eq_ok {current : Document} (h : fromRow row = .ok current) :
    current.workspace = row.workspace ∧ current.title = row.title ∧
      current.language = row.language ∧ current.content = row.content ∧
      current.connection = row.connection ∧ current.revision = row.revision ∧
      current.savedRevision = row.savedRevision ∧ current.isSaved = row.isSaved ∧
      current.isOpen = row.isOpen ∧
      current.savedContent = row.savedContent.bind (bounded maxQueryDocumentBytes) ∧
      current.savedTitle = row.savedTitle.bind (bounded 4096) := by
  simp only [fromRow, bind_eq_ok, refuse_eq_ok, pure_eq_ok] at h
  obtain ⟨-, -, -, -, -, -, rfl⟩ := h
  exact ⟨rfl, rfl, rfl, rfl, rfl, rfl, rfl, rfl, rfl, rfl, rfl⟩

theorem bounded_eq_some {limit : Nat} {text text' : Str} (h : bounded limit text = some text') :
    text' = text := by
  unfold bounded at h
  split at h
  · exact (Option.some.inj h).symm
  · cases h

/-- A named copy that can be read is whole. -/
theorem saved_of_fromRow {current : Document} (h : fromRow row = .ok current)
    (hsaved : row.isSaved = true) :
    ∃ content title, current.savedContent = some content ∧ row.savedContent = some content ∧
      current.savedTitle = some title ∧ row.savedTitle = some title := by
  obtain ⟨-, -, -, -, -, -, -, -, -, hcontent, htitle⟩ := fromRow_eq_ok h
  simp only [fromRow, bind_eq_ok, refuse_eq_ok, hsaved, Bool.true_and, Bool.or_eq_false_iff,
    Option.isNone_eq_false_iff, Option.isSome_iff_exists] at h
  obtain ⟨-, ⟨⟨content, hread⟩, title, hread'⟩, -⟩ := h
  obtain ⟨stored, hstored, hbound⟩ := Option.bind_eq_some_iff.mp hread
  obtain ⟨stored', hstored', hbound'⟩ := Option.bind_eq_some_iff.mp hread'
  exact ⟨content, title, hcontent.trans hread, bounded_eq_some hbound ▸ hstored,
    htitle.trans hread', bounded_eq_some hbound' ▸ hstored'⟩

theorem prepare_eq_ok {update : QueryDocumentUpdate} (h : update.prepare = .ok ()) :
    0 < update.revision := by
  cases hrevision : update.revision with
  | zero =>
    unfold QueryDocumentUpdate.prepare QueryDocumentUpdate.validate at h
    rw [hrevision] at h
    cases h
  | succ n => exact Nat.succ_pos n

theorem expected_of_not_any {expected : Option Nat} {revision : Nat}
    (h : expected.any (· != revision) = false) : ∀ seen ∈ expected, seen = revision := by
  intro seen hmem
  rw [Option.mem_def.mp hmem] at h
  simpa using h

variable {workspace : WorkspaceId}

theorem amend_eq_ok {update : QueryDocumentUpdate}
    {prior row : Row} (h : amend env workspace update prior = .ok row) :
    prior.isDeleted = false ∧
      (∀ expected ∈ update.expectedRevision, expected = prior.revision) ∧
      row = prior.amended update := by
  simp only [amend, bind_eq_ok, refuse_eq_ok] at h
  obtain ⟨-, -, -, hdeleted, -, -, current, hcurrent, -, hexpected, -, -, -, -, -, -, moved, hmoved,
    h⟩ := h
  obtain ⟨-, -, -, -, -, hrevision, hsaved, -⟩ := fromRow_eq_ok hcurrent
  refine ⟨hdeleted, expected_of_not_any (hrevision ▸ hexpected), ?_⟩
  have hworking : moved = prior.drafted update := by
    rw [writeWorking, hrevision] at hmoved
    rw [Row.drafted]
    split at hmoved
    next hlt =>
      obtain ⟨-, -, hmoved⟩ := bind_eq_ok.mp hmoved
      rw [if_pos hlt, pure_eq_ok.mp hmoved]
    next hle => rw [if_neg hle, pure_eq_ok.mp hmoved]
  rw [writeNamed, hsaved] at h
  rw [Row.amended, ← hworking]
  split at h
  next hnamed =>
    obtain ⟨-, -, h⟩ := bind_eq_ok.mp h
    rw [if_pos hnamed, pure_eq_ok.mp h]
  next hnamed => rw [if_neg hnamed, pure_eq_ok.mp h]

theorem updateRow_eq_ok {update : QueryDocumentUpdate}
    {document : Document} (hpositive : 0 < update.revision)
    (h : updateRow env workspace update stored = .ok (document, stored')) :
    Did (.update workspace update) stored stored' := by
  simp only [updateRow, bind_eq_ok, pure_eq_ok] at h
  obtain ⟨-, -, -, -, -, -, row, hrow, -, -, document', -, -, -, h⟩ := h
  obtain ⟨-, rfl⟩ := Prod.mk.inj h
  cases stored with
  | none =>
    simp only [writeRow, create, bind_eq_ok, refuse_eq_ok, pure_eq_ok] at hrow
    obtain ⟨-, hexpected, -, -, rfl⟩ := hrow
    exact .created hpositive (expected_of_not_any hexpected)
  | some prior =>
    obtain ⟨hdeleted, hexpected, rfl⟩ := amend_eq_ok hrow
    exact .amended hdeleted hexpected

theorem not_refused {condition discard gone : Bool}
    (h : (condition && !discard && !gone) = false) (hset : condition = true) :
    discard = true ∨ gone = true := by
  cases discard with
  | true => exact .inl rfl
  | false =>
    cases gone with
    | true => exact .inr rfl
    | false =>
      rw [hset] at h
      cases h

variable {revision : DocumentRevision}

variable {discard gone : Bool}

theorem closeRow_eq_ok {u : Unit} (hpositive : 0 < revision.next)
    (h : closeRow env workspace revision discard gone stored = .ok (u, stored')) :
    Did (.closeChecked workspace revision discard gone) stored stored' := by
  simp only [closeRow, bind_eq_ok, pure_eq_ok] at h
  obtain ⟨-, -, -, -, row, hrow, -, -, h⟩ := h
  obtain ⟨-, rfl⟩ := Prod.mk.inj h
  cases hlive : stored.filter (Row.isLive workspace) with
  | none =>
    rw [hlive] at hrow
    simp only [Option.elim, closeAbsent, bind_eq_ok, refuse_eq_ok, pure_eq_ok,
      Bool.or_eq_false_iff, Option.isSome_eq_false_iff, Option.isNone_iff_eq_none] at hrow
    obtain ⟨-, -, -, ⟨⟨rfl, hexpected⟩, hkind⟩, -, -, rfl⟩ := hrow
    have hkind' : (true && !discard && !gone) = false := hkind
    exact .barred hpositive (expected_of_not_any hexpected) (not_refused hkind' rfl)
  | some live =>
    rw [hlive] at hrow
    obtain ⟨rfl, hthere⟩ := Option.filter_eq_some_iff.mp hlive
    simp only [Option.elim, closePresent, bind_eq_ok, refuse_eq_ok, pure_eq_ok] at hrow
    obtain ⟨current, hcurrent, -, hexpected, -, hlate, -, hdirty, -, -, rfl⟩ := hrow
    obtain ⟨-, -, -, -, -, hrevision, -⟩ := fromRow_eq_ok hcurrent
    rw [hrevision] at hexpected hlate
    refine .closed ?_ hcurrent (expected_of_not_any hexpected) ?_ (not_refused hdirty)
    · simpa using (Bool.and_eq_true_iff.mp hthere).2
    · simpa using hlate

/-! ## A step -/

theorem closeQueryChecked_eq_ok {u : Unit}
    (h : closeQueryChecked env workspace revision discard gone stored = (.ok u, stored')) :
    Did (.closeChecked workspace revision discard gone) stored stored' := by
  unfold closeQueryChecked at h
  split at h
  · cases (Prod.mk.inj h).1
  · split at h
    · cases (Prod.mk.inj h).1
    next hzero => exact closeRow_eq_ok (Nat.pos_of_ne_zero hzero) (withConnection_eq_ok h)

theorem closeQueryChecked_eq_error
    (h : closeQueryChecked env workspace revision discard gone stored = (.error e, stored')) :
    stored' = stored := by
  unfold closeQueryChecked at h
  split at h
  · exact (Prod.mk.inj h).2.symm
  · split at h
    · exact (Prod.mk.inj h).2.symm
    · exact withConnection_eq_error h

variable {op : DocumentOp}

theorem did_of_step {reply : DocumentReply}
    (h : DocumentStep stored (op, .ok reply) stored') : Did op.checked stored stored' := by
  obtain ⟨env, h⟩ := h
  cases op with
  | update workspace given =>
    obtain ⟨document, hupdate, -⟩ : ∃ document,
        updateQuery env workspace given stored = (.ok document, stored') ∧
        DocumentReply.document document = reply := map_eq_ok h
    unfold updateQuery at hupdate
    split at hupdate
    · cases (Prod.mk.inj hupdate).1
    next hprepare =>
      exact updateRow_eq_ok (prepare_eq_ok hprepare) (withConnection_eq_ok hupdate)
  | close workspace revision discard gone | closeChecked workspace revision discard gone =>
    obtain ⟨_, hclose, -⟩ := map_eq_ok h
    exact closeQueryChecked_eq_ok hclose
  | delete =>
    obtain ⟨done, hdelete, -⟩ : ∃ done, Documents.delete env stored = (.ok done, stored') ∧
        DocumentReply.deleted done = reply := map_eq_ok h
    unfold Documents.delete at hdelete
    split at hdelete
    · cases (Prod.mk.inj hdelete).1
    · split at hdelete
      next row hsome =>
        obtain ⟨rfl, hlive⟩ := Option.filter_eq_some_iff.mp hsome
        obtain rfl := (Prod.mk.inj hdelete).2
        exact .erased (by simpa using (Bool.and_eq_true_iff.mp hlive).1)
      · obtain rfl := (Prod.mk.inj hdelete).2
        exact .absent

theorem unchanged_of_failure
    (h : DocumentStep stored (op, .error e) stored') : stored' = stored := by
  obtain ⟨env, h⟩ := h
  cases op with
  | update workspace given =>
    have hupdate : updateQuery env workspace given stored = (.error e, stored') := map_eq_error h
    unfold updateQuery at hupdate
    split at hupdate
    · exact (Prod.mk.inj hupdate).2.symm
    · exact withConnection_eq_error hupdate
  | close workspace revision discard gone => exact closeQueryChecked_eq_error (map_eq_error h)
  | closeChecked workspace revision discard gone =>
    exact closeQueryChecked_eq_error (map_eq_error h)
  | delete =>
    have hdelete : Documents.delete env stored = (.error e, stored') := map_eq_error h
    unfold Documents.delete at hdelete
    split at hdelete
    · exact (Prod.mk.inj hdelete).2.symm
    · split at hdelete
      · cases (Prod.mk.inj hdelete).1
      · cases (Prod.mk.inj hdelete).1

/-! ## What the row always says -/

def Row.Named (row : Row) : Prop :=
  (row.isSaved = true ∧ ∃ content title,
    row.savedContent = some content ∧ row.savedTitle = some title) ∨
  (row.isSaved = false ∧ row.savedContent = none ∧ row.savedTitle = none)

structure Row.Tidy (row : Row) : Prop where
  saved_le : row.savedRevision ≤ row.revision
  named : row.Named

def revisionOf (stored : Option Row) : Nat := stored.elim 0 (·.revision)

def savedRevisionOf (stored : Option Row) : Nat := stored.elim 0 (·.savedRevision)

/-- A document that was never versioned: it is not there, or is a saved text of revision 0. -/
inductive Unversioned : Option Row → Prop
  | absent : Unversioned none
  | legacy {row : Row} : row.revision = 0 → row.savedRevision = 0 → row.isSaved = true →
      row.isDeleted = false → row.savedContent = some row.content →
      row.savedTitle = some row.title → Unversioned (some row)

theorem tidy_of_unversioned (h : Unversioned stored) :
    ∀ row ∈ stored, row.Tidy := by
  intro row hmem
  cases h with
  | absent => cases hmem
  | legacy hrevision hsaved hnamed _ hcontent htitle =>
    obtain rfl := Option.some.inj hmem
    exact ⟨by rw [hrevision, hsaved], .inl ⟨hnamed, _, _, hcontent, htitle⟩⟩

namespace Row

variable (prior : Row) (update : QueryDocumentUpdate)

@[simp] theorem drafted_savedRevision :
    (prior.drafted update).savedRevision = prior.savedRevision := by
  unfold drafted
  split <;> rfl

theorem drafted_revision :
    (prior.drafted update).revision = max prior.revision update.revision := by
  unfold drafted
  split
  next hlt => exact (Nat.max_eq_right (Nat.le_of_lt hlt)).symm
  next hle => exact (Nat.max_eq_left (Nat.not_lt.mp hle)).symm

theorem amended_revision :
    (prior.amended update).revision = max prior.revision update.revision := by
  rw [← drafted_revision]
  unfold amended
  split <;> rfl

theorem amended_savedRevision : (prior.amended update).savedRevision =
    if update.saveNamed then max prior.savedRevision update.revision else prior.savedRevision := by
  unfold amended
  cases update.saveNamed with
  | false => simp
  | true =>
    simp only [Bool.true_and, decide_eq_true_eq, if_true]
    split
    next hlt => exact (Nat.max_eq_right (Nat.le_of_lt hlt)).symm
    next hle =>
      exact (drafted_savedRevision ..).trans (Nat.max_eq_left (Nat.not_lt.mp hle)).symm

theorem named_drafted : (prior.drafted update).Named ↔ prior.Named := by
  unfold drafted
  split <;> rfl

end Row

theorem Did.tidy (h : Did op stored stored')
    (htidy : ∀ row ∈ stored, row.Tidy) : ∀ row ∈ stored', row.Tidy := by
  intro row hmem
  cases h with
  | @created workspace update hpositive =>
    obtain rfl := Option.some.inj hmem
    cases hnamed : update.saveNamed with
    | true => exact ⟨by simp [QueryDocumentUpdate.row, hnamed],
        .inl ⟨hnamed, update.text, update.title, by simp [QueryDocumentUpdate.row, hnamed]⟩⟩
    | false => exact ⟨by simp [QueryDocumentUpdate.row, hnamed],
        .inr ⟨hnamed, by simp [QueryDocumentUpdate.row, hnamed]⟩⟩
  | @amended workspace update prior hlive hexpected =>
    obtain rfl := Option.some.inj hmem
    obtain ⟨hle, hnamed⟩ := htidy prior rfl
    refine ⟨?_, ?_⟩
    · rw [Row.amended_revision, Row.amended_savedRevision]
      split <;> omega
    · unfold Row.amended
      split
      · exact .inl ⟨rfl, _, _, rfl, rfl⟩
      · exact (Row.named_drafted ..).mpr hnamed
  | barred =>
    obtain rfl := Option.some.inj hmem
    exact ⟨Nat.le_refl _, .inr ⟨rfl, rfl, rfl⟩⟩
  | @closed workspace revision discard gone row' current hlive hcurrent hexpected hlate hdirty =>
    obtain rfl := Option.some.inj hmem
    refine ⟨Nat.le_refl _, ?_⟩
    cases gone with
    | true => exact .inr ⟨rfl, rfl, rfl⟩
    | false => exact (htidy row' rfl).named
  | erased =>
    obtain rfl := Option.some.inj hmem
    exact ⟨Nat.le_refl _, .inr ⟨rfl, rfl, rfl⟩⟩
  | absent => exact htidy row hmem

theorem Did.le (h : Did op stored stored')
    (htidy : ∀ row ∈ stored, row.Tidy) : revisionOf stored ≤ revisionOf stored' ∧
      savedRevisionOf stored ≤ savedRevisionOf stored' := by
  cases h with
  | created => exact ⟨Nat.zero_le _, Nat.zero_le _⟩
  | @amended workspace update prior hlive hexpected =>
    simp only [revisionOf, savedRevisionOf, Option.elim, Row.amended_revision,
      Row.amended_savedRevision]
    refine ⟨Nat.le_max_left _ _, ?_⟩
    split <;> omega
  | barred => exact ⟨Nat.zero_le _, Nat.zero_le _⟩
  | @closed workspace revision discard gone row current hlive hcurrent hexpected hlate hdirty =>
    exact ⟨Nat.le_of_lt hlate, Nat.le_trans (htidy row rfl).saved_le (Nat.le_of_lt hlate)⟩
  | @erased row hlive =>
    exact ⟨Nat.le_succ _, Nat.le_trans (htidy row rfl).saved_le (Nat.le_succ _)⟩
  | absent => exact ⟨Nat.le_refl _, Nat.le_refl _⟩

theorem Did.expected (h : Did op stored stored') :
    ∀ seen ∈ op.expected, seen = revisionOf stored := by
  cases h with
  | created _ hexpected | amended _ hexpected | barred _ hexpected _
  | closed _ _ hexpected _ _ => exact hexpected
  | erased => nofun
  | absent => nofun

theorem Did.deleted
    (h : Did op (some row) stored') (hdeleted : row.isDeleted = true) : stored' = some row := by
  cases h with
  | amended hlive | closed hlive | erased hlive => cases hlive.symm.trans hdeleted
  | absent => rfl

/-- A draft or a save of a revision that both copies have reached changes nothing. -/
theorem Did.late {update : QueryDocumentUpdate}
    (h : Did (.update workspace update) (some row) stored')
    (hrevision : update.revision ≤ row.revision)
    (hsaved : update.revision ≤ row.savedRevision) : stored' = some row := by
  cases h with
  | amended _ _ =>
    rw [Row.amended, Row.drafted, if_neg (Nat.not_lt.mpr hrevision), if_neg]
    simp [hsaved]

/-- A close that neither discards nor deletes finds nothing to lose. -/
theorem Did.clean (h : Did (.closeChecked workspace revision false false) stored stored')
    (htidy : ∀ row ∈ stored, row.Tidy) :
    ∃ row, stored = some row ∧
      ((row.isSaved = true ∧ row.savedContent = some row.content ∧
          row.savedTitle = some row.title) ∨
        (row.isSaved = false ∧ row.savedContent = none ∧ row.savedTitle = none ∧
          row.content = [])) := by
  cases h with
  | barred _ _ hkind => rcases hkind with h | h <;> cases h
  | @closed _ _ _ _ row current hlive hcurrent hexpected hlate hdirty =>
    refine ⟨row, rfl, ?_⟩
    have hclean : current.dirty = false := eq_false_of_ne_true fun hset => by
      rcases hdirty hset with h | h <;> cases h
    simp only [Document.dirty, Bool.or_eq_false_iff, bne_eq_false_iff_eq] at hclean
    obtain ⟨-, htitle, -, hcontent, -, -, -, -, -, hread, -⟩ := fromRow_eq_ok hcurrent
    rw [htitle, hcontent] at hclean
    rcases (htidy row rfl).named with ⟨hsaved, -⟩ | ⟨hsaved, hnone, hnone'⟩
    · obtain ⟨content, title, hcopy, hstored, hcopy', hstored'⟩ := saved_of_fromRow hcurrent hsaved
      rw [hcopy, hcopy'] at hclean
      exact .inl ⟨hsaved, hstored.trans (congrArg some hclean.1),
        hstored'.trans (congrArg some hclean.2)⟩
    · rw [hread, hnone] at hclean
      exact .inr ⟨hsaved, hnone, hnone', hclean.1.symm⟩

end Oxyn.Store
