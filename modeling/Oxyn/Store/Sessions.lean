/-
# `Oxyn.Store.Sessions` — a crash is announced once, or was announced too early

A launch begins, beats while it works, and records its closing.  The launch that begins after
another has been silent for too long announces it, and marks it, in one transaction.
-/
import Oxyn.Lib.Keyed
import Oxyn.Lib.Runs

open Runs

namespace Oxyn.Sessions

open List

open Keyed

/-! ## The data -/

abbrev AppSessionId := Nat

abbrev WorkspaceId := Nat

abbrev Date := Int

def abandonedAfter : Int := 120 * 1000000000

/-- How the previous launch ended. -/
inductive PreviousShutdown where
  | never | clean | abnormal
deriving DecidableEq

/-- A row of `app_sessions`. -/
structure Session where
  id : AppSessionId
  workspace : WorkspaceId
  startedAt : Date
  heartbeatAt : Date
  closedAt : Option Date
  reportedAt : Option Date

def Session.abandoned (workspace : WorkspaceId) (cutoff : Date) (row : Session) : Bool :=
  row.workspace = workspace && row.closedAt.isNone && row.reportedAt.isNone &&
    row.heartbeatAt < cutoff

/-- `SET reported_at = now`, on the abandoned ones. -/
def Session.observe (workspace : WorkspaceId) (cutoff now : Date) (row : Session) : Session :=
  if row.abandoned workspace cutoff then { row with reportedAt := some now } else row

/-! ## Operations -/

def announced (rows : List Session) (workspace : WorkspaceId) (cutoff : Date) :
    List AppSessionId := (rows.filter (Session.abandoned workspace cutoff)).map (·.id)

def previous (rows : List Session) (workspace : WorkspaceId) (cutoff now : Date) :
    PreviousShutdown × List Session :=
  let observed := rows.map (Session.observe workspace cutoff now)
  if 0 < (announced rows workspace cutoff).length then (.abnormal, observed)
  else if 0 < (observed.filter (·.workspace = workspace)).length then (.clean, observed)
  else (.never, observed)

def newSession (id : AppSessionId) (workspace : WorkspaceId) (now : Date) : Session where
  id := id
  workspace := workspace
  startedAt := now
  heartbeatAt := now
  closedAt := none
  reportedAt := none

/-- `Sessions::begin`. -/
def beginSession (rows : List Session) (id : AppSessionId) (workspace : WorkspaceId) (now : Date) :
    PreviousShutdown × List Session :=
  let (verdict, observed) := previous rows workspace (now - abandonedAfter) now
  (verdict, observed ++ [newSession id workspace now])

def Session.beat (now : Date) (row : Session) : Session :=
  if row.closedAt.isNone then { row with heartbeatAt := now } else row

def Session.close (now : Date) (row : Session) : Session :=
  if row.closedAt.isNone then { row with closedAt := some now } else row

def heartbeat (rows : List Session) (id : AppSessionId) (now : Date) : List Session :=
  rows.map fun row => if row.id = id then row.beat now else row

/-- `Sessions::close`. -/
def closeSession (rows : List Session) (id : AppSessionId) (now : Date) : List Session :=
  rows.map fun row => if row.id = id then row.close now else row

def Session.kept (keep : Date) (row : Session) : Bool := row.closedAt.all (keep ≤ ·)

def forgetClosedBefore (rows : List Session) (keep : Date) : List Session :=
  rows.filter (Session.kept keep)

/-! ## Runs -/

/-- The table, the identifiers drawn so far, and the clock. -/
structure Launches where
  rows : List Session
  issued : List AppSessionId
  clock : Date

def Launches.new (clock : Date) : Launches := ⟨[], [], clock⟩

/-- What a launch does; one that begins says what it announces, and how the previous one ended. -/
inductive SessionEvent where
  | began (id : AppSessionId) (workspace : WorkspaceId) (now : Date) (verdict : PreviousShutdown)
      (announced : List AppSessionId)
  | beat (id : AppSessionId) (now : Date)
  | closed (id : AppSessionId) (now : Date)
  | forgot (keep now : Date)

/-- The clock never goes back, and an identifier is drawn once. -/
inductive SessionStep : Launches → SessionEvent → Launches → Prop
  | began {s : Launches} {id : AppSessionId} {workspace : WorkspaceId} {now : Date} :
      s.clock ≤ now → id ∉ s.issued →
      SessionStep s
        (.began id workspace now (beginSession s.rows id workspace now).1
          (announced s.rows workspace (now - abandonedAfter)))
        ⟨(beginSession s.rows id workspace now).2, s.issued ++ [id], now⟩
  | beat {s : Launches} {id : AppSessionId} {now : Date} : s.clock ≤ now →
      SessionStep s (.beat id now) ⟨heartbeat s.rows id now, s.issued, now⟩
  | closed {s : Launches} {id : AppSessionId} {now : Date} : s.clock ≤ now →
      SessionStep s (.closed id now) ⟨closeSession s.rows id now, s.issued, now⟩
  | forgot {s : Launches} {keep now : Date} : s.clock ≤ now →
      SessionStep s (.forgot keep now) ⟨forgetClosedBefore s.rows keep, s.issued, now⟩

/-- A launch that begins announces another, which ended abnormally. -/
def SessionEvent.Announces (id : AppSessionId) : SessionEvent → Prop
  | .began _ _ _ verdict announced => verdict = .abnormal ∧ id ∈ announced
  | _ => False

def SessionEvent.Starts (id : AppSessionId) (workspace : WorkspaceId) : SessionEvent → Prop
  | .began id' workspace' _ _ _ => id' = id ∧ workspace' = workspace
  | _ => False

/-- A sign of life of a launch: its start, or a heartbeat. -/
def SessionEvent.SignOf (id : AppSessionId) (t : Date) : SessionEvent → Prop
  | .began id' _ now _ _ => id' = id ∧ now = t
  | .beat id' now => id' = id ∧ now = t
  | _ => False

def SessionEvent.effect (id : AppSessionId) : SessionEvent → Option Session → Option Session
  | .began id' workspace now _ _, row =>
    if id = id' then some (newSession id workspace now)
    else row.map (Session.observe workspace (now - abandonedAfter) now)
  | .beat id' now, row => if id = id' then row.map (Session.beat now) else row
  | .closed id' now, row => if id = id' then row.map (Session.close now) else row
  | .forgot keep _, row => row.filter (Session.kept keep)

def Launches.row (s : Launches) (id : AppSessionId) : Option Session := lookup (·.id) s.rows id

structure Launches.Keyed (s : Launches) : Prop where
  distinct : (s.rows.map (·.id)).Nodup
  drawn : ∀ row ∈ s.rows, row.id ∈ s.issued

section Step

variable {s s' : Launches} {event : SessionEvent} {id : AppSessionId}

theorem observe_id {workspace : WorkspaceId} {cutoff now : Date} (row : Session) :
    (row.observe workspace cutoff now).id = row.id := by
  unfold Session.observe
  split <;> rfl

variable {now : Date}

theorem beat_id (row : Session) : (row.beat now).id = row.id := by
  unfold Session.beat
  split <;> rfl

theorem close_id (row : Session) : (row.close now).id = row.id := by
  unfold Session.close
  split <;> rfl

theorem beginSession_rows (rows : List Session) (workspace : WorkspaceId) (now : Date) :
    (beginSession rows id workspace now).2 =
      rows.map (Session.observe workspace (now - abandonedAfter) now) ++
        [newSession id workspace now] := by
  unfold beginSession previous
  dsimp only
  split
  · rfl
  · split <;> rfl

theorem verdict_abnormal (rows : List Session) (workspace : WorkspaceId) (now : Date) :
    (beginSession rows id workspace now).1 = .abnormal ↔
      announced rows workspace (now - abandonedAfter) ≠ [] := by
  unfold beginSession previous
  dsimp only
  split
  next hsome => simp [ne_nil_of_length_pos hsome]
  next hnone =>
    have hnil : announced rows workspace (now - abandonedAfter) = [] :=
      eq_nil_of_length_eq_zero (Nat.eq_zero_of_not_pos hnone)
    rw [hnil]
    split <;> simp

theorem Launches.Keyed.fresh (h : s.Keyed) (hfresh : id ∉ s.issued) :
    ∀ row ∈ s.rows, row.id ≠ id := fun row hmem heq => hfresh (heq ▸ h.drawn row hmem)

theorem Launches.Keyed.step (h : s.Keyed) (hstep : SessionStep s event s') : s'.Keyed := by
  obtain ⟨hdistinct, hdrawn⟩ := h
  have hchanged (change : Session → Session) (hkeep : ∀ row, (change row).id = row.id) :
      ((s.rows.map change).map (·.id)).Nodup ∧
        ∀ row ∈ s.rows.map change, row.id ∈ s.issued := by
    refine ⟨(map_key hkeep).symm ▸ hdistinct, fun row hmem => ?_⟩
    obtain ⟨old, hold, rfl⟩ := mem_map.mp hmem
    exact (hkeep old).symm ▸ hdrawn old hold
  have hat (change : Session → Session) (hkeep : ∀ row, (change row).id = row.id)
      (id : AppSessionId) (row : Session) :
      (if row.id = id then change row else row).id = row.id := by
    split
    · exact hkeep row
    · rfl
  cases hstep with
  | @began id workspace now hclock hfresh =>
    obtain ⟨hdistinct', hdrawn'⟩ :=
      hchanged (Session.observe workspace (now - abandonedAfter) now) observe_id
    refine ⟨?_, ?_⟩
    · show ((beginSession s.rows id workspace now).2.map (·.id)).Nodup
      rw [beginSession_rows]
      refine nodup_append hdistinct' fun old hold heq => hfresh ?_
      have heq : old.id = id := heq
      exact heq ▸ hdrawn' old hold
    · intro row hmem
      have hmem : row ∈ (beginSession s.rows id workspace now).2 := hmem
      rw [beginSession_rows] at hmem
      rcases mem_append.mp hmem with hmem | hmem
      · exact mem_append_left _ (hdrawn' row hmem)
      · exact mem_append_right _ (mem_singleton.mp hmem ▸ mem_singleton.mpr rfl)
  | @beat id now hclock =>
    obtain ⟨hdistinct', hdrawn'⟩ := hchanged _ (hat _ beat_id id)
    exact ⟨hdistinct', hdrawn'⟩
  | @closed id now hclock =>
    obtain ⟨hdistinct', hdrawn'⟩ := hchanged _ (hat _ close_id id)
    exact ⟨hdistinct', hdrawn'⟩
  | @forgot keep now hclock =>
    exact ⟨hdistinct.sublist (filter_sublist.map _),
      fun row hmem => hdrawn row (mem_of_mem_filter hmem)⟩

theorem row_of_step (h : s.Keyed) (hstep : SessionStep s event s') (id : AppSessionId) :
    s'.row id = event.effect id (s.row id) := by
  cases hstep with
  | @began id' workspace now hclock hfresh =>
    show lookup (·.id) (beginSession s.rows id' workspace now).2 id = _
    have hnew : ∀ old ∈ s.rows.map (Session.observe workspace (now - abandonedAfter) now),
        old.id ≠ (newSession id' workspace now).id := by
      intro old hold
      obtain ⟨row, hrow, rfl⟩ := mem_map.mp hold
      rw [observe_id]
      exact h.fresh hfresh row hrow
    rw [beginSession_rows, lookup_append _ hnew, lookup_map observe_id]
    show (if id = id' then _ else _) = (if id = id' then _ else _)
    split
    next heq => rw [heq]
    · rfl
  | @beat id' now hclock => exact lookup_map_at beat_id
  | @closed id' now hclock => exact lookup_map_at close_id
  | @forgot keep now hclock => exact lookup_filter h.distinct

theorem announces_of_step (h : s.Keyed) (hstep : SessionStep s event s') :
    event.Announces id ↔ ∃ id' workspace now verdict list,
      event = .began id' workspace now verdict list ∧
        ∃ row, s.row id = some row ∧ row.abandoned workspace (now - abandonedAfter) = true := by
  cases hstep with
  | @began id' workspace now hclock hfresh =>
    constructor
    · rintro ⟨-, hmem⟩
      obtain ⟨row, hrow, rfl⟩ := mem_map.mp hmem
      obtain ⟨hrow, habandoned⟩ := mem_filter.mp hrow
      exact ⟨_, _, _, _, _, rfl, row, lookup_of_mem h.distinct hrow, habandoned⟩
    · rintro ⟨_, _, _, _, _, heq, row, hrow, habandoned⟩
      cases heq
      obtain rfl : row.id = id := key_of_lookup hrow
      have hmem : row.id ∈ announced s.rows workspace (now - abandonedAfter) :=
        mem_map.mpr ⟨row, mem_filter.mpr ⟨mem_of_lookup hrow, habandoned⟩, rfl⟩
      exact ⟨(verdict_abnormal ..).mpr (ne_nil_of_mem hmem), hmem⟩
  | beat | closed | forgot => exact ⟨nofun, fun ⟨_, _, _, _, _, heq, _⟩ => by cases heq⟩

theorem abandoned_iff {workspace : WorkspaceId} {cutoff : Date} {row : Session} :
    row.abandoned workspace cutoff = true ↔ row.workspace = workspace ∧ row.closedAt = none ∧
      row.reportedAt = none ∧ row.heartbeatAt < cutoff := by
  simp [Session.abandoned, and_assoc]

/-- What a step leaves of the row of a launch. -/
structure Carried (event : SessionEvent) (id : AppSessionId) (row row' : Session) : Prop where
  workspace : row'.workspace = row.workspace
  reported : row'.reportedAt.isSome = true ↔ row.reportedAt.isSome = true ∨ event.Announces id
  shut : row'.closedAt.isSome = true ↔ row.closedAt.isSome = true ∨ ∃ t, event = .closed id t
  beats : ∀ t, event = .beat id t → row.closedAt = none → row'.heartbeatAt = t
  still : (∀ t, event ≠ .beat id t) → row'.heartbeatAt = row.heartbeatAt

theorem row_of_start {workspace : WorkspaceId} {verdict : PreviousShutdown}
    {list : List AppSessionId} (h : s.Keyed)
    (hstep : SessionStep s (.began id workspace now verdict list) s') :
    id ∉ s.issued ∧ s.row id = none ∧ s'.row id = some (newSession id workspace now) ∧
      id ∈ s'.issued := by
  have hrow := row_of_step h hstep id
  rw [SessionEvent.effect, if_pos rfl] at hrow
  cases hstep with
  | began hclock hfresh =>
    exact ⟨hfresh, lookup_eq_none.mpr (h.fresh hfresh), hrow,
      mem_append_right _ (mem_singleton.mpr rfl)⟩

theorem carried_of_step (h : s.Keyed) (hstep : SessionStep s event s') {row row' : Session}
    (hrow : s.row id = some row) (hrow' : s'.row id = some row') : Carried event id row row' := by
  have hreported : event.Announces id ↔ _ := announces_of_step h hstep
  have heffect := row_of_step h hstep id
  rw [hrow, hrow'] at heffect
  cases event with
  | began id' workspace now verdict list =>
    have hne : id ≠ id' := by
      rintro rfl
      cases hrow.symm.trans (row_of_start h hstep).2.1
    rw [SessionEvent.effect, if_neg hne] at heffect
    obtain rfl := Option.some.inj heffect
    have hiff : SessionEvent.Announces id (.began id' workspace now verdict list) ↔
        row.abandoned workspace (now - abandonedAfter) = true := by
      rw [hreported]
      constructor
      · rintro ⟨_, _, _, _, _, heq, other, hother, habandoned⟩
        cases heq
        obtain rfl := Option.some.inj (hrow.symm.trans hother)
        exact habandoned
      · exact fun habandoned => ⟨_, _, _, _, _, rfl, row, hrow, habandoned⟩
    unfold Session.observe
    split
    next habandoned =>
      exact ⟨rfl, ⟨fun _ => .inr (hiff.mpr habandoned), fun _ => rfl⟩,
        ⟨.inl, fun h => h.resolve_right nofun⟩, nofun, fun _ => rfl⟩
    next hspared =>
      exact ⟨rfl, ⟨.inl, fun h => h.resolve_right fun hmem => hspared (hiff.mp hmem)⟩,
        ⟨.inl, fun h => h.resolve_right nofun⟩, nofun, fun _ => rfl⟩
  | beat id' now =>
    have hnot : ¬ SessionEvent.Announces id (.beat id' now) := fun h => h
    rw [SessionEvent.effect] at heffect
    split at heffect
    next heq =>
      obtain rfl := heq
      obtain rfl := Option.some.inj heffect
      unfold Session.beat
      split
      next hopen =>
        refine ⟨rfl, ⟨.inl, fun h => h.resolve_right hnot⟩,
          ⟨.inl, fun h => h.resolve_right nofun⟩, fun t heq _ => ?_, fun hne => ?_⟩
        · cases heq
          rfl
        · exact absurd rfl (hne now)
      next hshut =>
        refine ⟨rfl, ⟨.inl, fun h => h.resolve_right hnot⟩,
          ⟨.inl, fun h => h.resolve_right nofun⟩, fun t _ hopen => ?_, fun _ => rfl⟩
        rw [hopen] at hshut
        exact absurd rfl hshut
    next hne =>
      obtain rfl := Option.some.inj heffect
      refine ⟨rfl, ⟨.inl, fun h => h.resolve_right hnot⟩,
        ⟨.inl, fun h => h.resolve_right nofun⟩, fun t heq => ?_, fun _ => rfl⟩
      cases heq
      exact absurd rfl hne
  | closed id' now =>
    have hnot : ¬ SessionEvent.Announces id (.closed id' now) := fun h => h
    rw [SessionEvent.effect] at heffect
    split at heffect
    next heq =>
      obtain rfl := heq
      obtain rfl := Option.some.inj heffect
      unfold Session.close
      split
      · exact ⟨rfl, ⟨.inl, fun h => h.resolve_right hnot⟩,
          ⟨fun _ => .inr ⟨now, rfl⟩, fun _ => rfl⟩, nofun, fun _ => rfl⟩
      next hshut =>
        have hshut : row.closedAt.isSome = true := by
          simpa [Option.isNone_iff_eq_none, Option.isSome_iff_ne_none] using hshut
        exact ⟨rfl, ⟨.inl, fun h => h.resolve_right hnot⟩, ⟨.inl, fun _ => hshut⟩, nofun,
          fun _ => rfl⟩
    next hne =>
      obtain rfl := Option.some.inj heffect
      refine ⟨rfl, ⟨.inl, fun h => h.resolve_right hnot⟩, ⟨.inl, fun h => ?_⟩, nofun, fun _ => rfl⟩
      rcases h with h | ⟨t, heq⟩
      · exact h
      · cases heq
        exact absurd rfl hne
  | forgot keep now =>
    have hnot : ¬ SessionEvent.Announces id (.forgot keep now) := fun h => h
    have hkept : (some row).filter (Session.kept keep) = some row' := heffect.symm
    obtain ⟨hsame, -⟩ := Option.filter_eq_some_iff.mp hkept
    obtain rfl := Option.some.inj hsame
    exact ⟨rfl, ⟨.inl, fun h => h.resolve_right hnot⟩, ⟨.inl, fun h => h.resolve_right nofun⟩,
      nofun, fun _ => rfl⟩

theorem survives (h : s.Keyed) (hstep : SessionStep s event s') {row : Session}
    (hrow : s.row id = some row) (hopen : row.closedAt = none) :
    ∃ row', s'.row id = some row' := by
  have heffect := row_of_step h hstep id
  rw [hrow] at heffect
  cases event with
  | began id' workspace now verdict list | beat id' now | closed id' now =>
    rw [heffect, SessionEvent.effect]
    split
    · exact ⟨_, rfl⟩
    · exact ⟨_, rfl⟩
  | forgot keep now =>
    refine ⟨row, heffect.trans ?_⟩
    rw [SessionEvent.effect, Option.filter_some, if_pos]
    rw [Session.kept, hopen]
    rfl

theorem row_was (h : s.Keyed) (hstep : SessionStep s event s') {row' : Session}
    (hrow' : s'.row id = some row') :
    (∃ workspace now verdict list, event = .began id workspace now verdict list) ∨
      ∃ row, s.row id = some row := by
  have heffect := row_of_step h hstep id
  rw [hrow'] at heffect
  cases hrow : s.row id with
  | some row => exact .inr ⟨row, rfl⟩
  | none =>
    rw [hrow] at heffect
    cases event with
    | began id' workspace now verdict list =>
      rw [SessionEvent.effect] at heffect
      split at heffect
      next heq => exact .inl ⟨workspace, now, verdict, list, heq ▸ rfl⟩
      · cases heffect
    | beat id' now | closed id' now =>
      rw [SessionEvent.effect] at heffect
      split at heffect <;> cases heffect
    | forgot keep now => cases heffect

theorem issued_mono (hstep : SessionStep s event s') (hdrawn : id ∈ s.issued) : id ∈ s'.issued := by
  cases hstep with
  | began => exact mem_append_left _ hdrawn
  | beat => exact hdrawn
  | closed => exact hdrawn
  | forgot => exact hdrawn

end Step

/-! ## One launch, over a run -/

section Launch

variable {clock : Date} {s s' : Launches} {tr : List SessionEvent} {id : AppSessionId}
  {workspace : WorkspaceId} {t : Date}

theorem keyed_new (clock : Date) : (Launches.new clock).Keyed := ⟨nodup_nil, nofun⟩

structure Told (id : AppSessionId) (tr : List SessionEvent) (s : Launches) : Prop where
  keyed : s.Keyed
  drawn : ∀ event ∈ tr, ∀ workspace, event.Starts id workspace → id ∈ s.issued
  unborn : id ∉ s.issued → ∀ event ∈ tr, ¬ event.Announces id
  mark : ∀ row, s.row id = some row →
    (row.reportedAt.isSome = true ↔ ∃ event ∈ tr, event.Announces id)
  alive : ∀ workspace, (∃ event ∈ tr, event.Starts id workspace) → (∀ now, .closed id now ∉ tr) →
    ∃ row, s.row id = some row ∧ row.closedAt = none ∧ row.workspace = workspace

theorem not_announces_of_none {event : SessionEvent} (h : s.Keyed)
    (hstep : SessionStep s event s') (hnone : s.row id = none) : ¬ event.Announces id := by
  intro hannounces
  obtain ⟨_, _, _, _, _, _, row, hrow, _⟩ := (announces_of_step h hstep).mp hannounces
  cases hnone.symm.trans hrow

theorem Told.step {event : SessionEvent} (h : Told id tr s) (hstep : SessionStep s event s') :
    Told id (tr ++ [event]) s' := by
  have hlast {P : SessionEvent → Prop} :
      (∃ ev ∈ tr ++ [event], P ev) ↔ (∃ ev ∈ tr, P ev) ∨ P event := by
    simp only [mem_append, mem_singleton, or_and_right, exists_or, exists_eq_left]
  refine ⟨h.keyed.step hstep, fun ev hmem w hstarts => ?_, fun hunborn ev hmem => ?_,
    fun row' hrow' => ?_, fun w hstarts hopen => ?_⟩
  · rcases mem_append.mp hmem with hmem | hmem
    · exact issued_mono hstep (h.drawn ev hmem w hstarts)
    · obtain rfl := mem_singleton.mp hmem
      cases ev with
      | began id' workspace now verdict list =>
        obtain ⟨rfl, -⟩ := hstarts
        exact (row_of_start h.keyed hstep).2.2.2
      | beat | closed | forgot => exact hstarts.elim
  · have hunborn' : id ∉ s.issued := fun hdrawn => hunborn (issued_mono hstep hdrawn)
    rcases mem_append.mp hmem with hmem | hmem
    · exact h.unborn hunborn' ev hmem
    · obtain rfl := mem_singleton.mp hmem
      exact not_announces_of_none h.keyed hstep (lookup_eq_none.mpr (h.keyed.fresh hunborn'))
  · rw [hlast]
    rcases row_was h.keyed hstep hrow' with ⟨w, now, verdict, list, rfl⟩ | ⟨row, hrow⟩
    · obtain ⟨hunborn, hnone, hnew, -⟩ := row_of_start h.keyed hstep
      obtain rfl := Option.some.inj (hnew.symm.trans hrow')
      refine ⟨nofun, fun hannounced => ?_⟩
      rcases hannounced with ⟨ev, hmem, hev⟩ | hev
      · exact absurd hev (h.unborn hunborn ev hmem)
      · exact absurd hev (not_announces_of_none h.keyed hstep hnone)
    · rw [(carried_of_step h.keyed hstep hrow hrow').reported, h.mark row hrow]
  · have hopen' : ∀ now, SessionEvent.closed id now ∉ tr :=
      fun now hmem => hopen now (mem_append_left _ hmem)
    rcases hlast.mp hstarts with hstarts | hstarts
    · obtain ⟨row, hrow, hnone, hw⟩ := h.alive w hstarts hopen'
      obtain ⟨row', hrow'⟩ := survives h.keyed hstep hrow hnone
      have hcarried := carried_of_step h.keyed hstep hrow hrow'
      refine ⟨row', hrow', ?_, hcarried.workspace.trans hw⟩
      rw [← Option.not_isSome_iff_eq_none, hcarried.shut]
      rintro (hshut | ⟨now, rfl⟩)
      · rw [hnone] at hshut
        cases hshut
      · exact hopen now (mem_append_right _ (mem_singleton.mpr rfl))
    · cases event with
      | began id' workspace now verdict list =>
        obtain ⟨rfl, rfl⟩ := hstarts
        exact ⟨_, (row_of_start h.keyed hstep).2.2.1, rfl, rfl⟩
      | beat | closed | forgot => exact hstarts.elim

theorem told_of_run (h : Steps SessionStep (.new clock) tr s) : Told id tr s := by
  refine h.history (P := fun tr s => Told id tr s) ?_ fun _ _ _ _ _ htold hstep => htold.step hstep
  refine ⟨keyed_new clock, nofun, fun _ => nofun, nofun, fun w hstarts => ?_⟩
  obtain ⟨event, hmem, -⟩ := hstarts
  cases hmem

/-- A launch that can no longer be announced: it was drawn, and has been announced or closed. -/
def Settled (id : AppSessionId) (s : Launches) : Prop :=
  s.Keyed ∧ id ∈ s.issued ∧
    ∀ row, s.row id = some row → row.reportedAt.isSome = true ∨ row.closedAt.isSome = true

theorem Settled.step {event : SessionEvent} (h : Settled id s) (hstep : SessionStep s event s') :
    Settled id s' ∧ ¬ event.Announces id := by
  obtain ⟨hkeyed, hdrawn, hrow⟩ := h
  refine ⟨⟨hkeyed.step hstep, issued_mono hstep hdrawn, fun row' hrow' => ?_⟩, fun hannounces => ?_⟩
  · rcases row_was hkeyed hstep hrow' with ⟨w, now, verdict, list, rfl⟩ | ⟨row, hrow''⟩
    · exact absurd hdrawn (row_of_start hkeyed hstep).1
    · have hcarried := carried_of_step hkeyed hstep hrow'' hrow'
      rw [hcarried.reported, hcarried.shut]
      exact (hrow row hrow'').imp .inl .inl
  · obtain ⟨_, _, _, _, _, _, row, hrow', habandoned⟩ := (announces_of_step hkeyed hstep).mp hannounces
    obtain ⟨-, hopen, hunreported, -⟩ := abandoned_iff.mp habandoned
    rcases hrow row hrow' with hset | hset
    · rw [hunreported] at hset
      cases hset
    · rw [hopen] at hset
      cases hset

theorem Settled.run (h : Settled id s) (hrun : Steps SessionStep s tr s') :
    Settled id s' ∧ ∀ event ∈ tr, ¬ event.Announces id := by
  induction hrun with
  | nil => exact ⟨h, nofun⟩
  | snoc _ hstep ih =>
    obtain ⟨hsettled, hnone⟩ := ih
    obtain ⟨hsettled', hnot⟩ := hsettled.step hstep
    refine ⟨hsettled', fun event hmem => ?_⟩
    rcases mem_append.mp hmem with hmem | hmem
    · exact hnone event hmem
    · exact mem_singleton.mp hmem ▸ hnot

/-- A launch at work, whose last sign of life was at a time. -/
structure Beating (id : AppSessionId) (workspace : WorkspaceId) (t : Date) (s : Launches)
    (row : Session) : Prop where
  keyed : s.Keyed
  stored : s.row id = some row
  workspace : row.workspace = workspace
  opened : row.closedAt = none
  heartbeat : row.heartbeatAt = t

/-- A launch that begins more than `ABANDONED_AFTER` past a time. -/
def SessionEvent.Due (workspace : WorkspaceId) (t : Date) : SessionEvent → Prop
  | .began _ workspace' now _ _ => workspace' = workspace ∧ t + abandonedAfter < now
  | _ => False

theorem aged_iff {t now : Int} : t < now - abandonedAfter ↔ t + abandonedAfter < now := by omega

variable {row : Session}

theorem Beating.announces {event : SessionEvent} (h : Beating id workspace t s row)
    (hstep : SessionStep s event s') :
    event.Announces id ↔ event.Due workspace t ∧ row.reportedAt = none := by
  rw [announces_of_step h.keyed hstep]
  constructor
  · rintro ⟨_, _, now, _, _, rfl, other, hother, habandoned⟩
    obtain rfl := Option.some.inj (h.stored.symm.trans hother)
    obtain ⟨hw, -, hunreported, haged⟩ := abandoned_iff.mp habandoned
    rw [h.heartbeat] at haged
    exact ⟨⟨hw.symm.trans h.workspace, aged_iff.mp haged⟩, hunreported⟩
  · rintro ⟨hdue, hunreported⟩
    cases event with
    | began id' workspace' now verdict list =>
      obtain ⟨rfl, haged⟩ := hdue
      refine ⟨_, _, _, _, _, rfl, row, h.stored, abandoned_iff.mpr ⟨h.workspace, h.opened,
        hunreported, ?_⟩⟩
      rw [h.heartbeat]
      exact aged_iff.mpr haged
    | beat | closed | forgot => exact hdue.elim

theorem Beating.step {event : SessionEvent} (h : Beating id workspace t s row)
    (hstep : SessionStep s event s') (hbeat : ∀ now, event ≠ .beat id now)
    (hopen : ∀ now, event ≠ .closed id now) :
    ∃ row', Beating id workspace t s' row' ∧
      (row'.reportedAt.isSome = true ↔ row.reportedAt.isSome = true ∨ event.Announces id) := by
  obtain ⟨row', hrow'⟩ := survives h.keyed hstep h.stored h.opened
  have hcarried := carried_of_step h.keyed hstep h.stored hrow'
  refine ⟨row', ⟨h.keyed.step hstep, hrow', hcarried.workspace.trans h.workspace, ?_,
    (hcarried.still hbeat).trans h.heartbeat⟩, hcarried.reported⟩
  rw [← Option.not_isSome_iff_eq_none, hcarried.shut]
  rintro (hshut | ⟨now, heq⟩)
  · rw [h.opened] at hshut
    cases hshut
  · exact hopen now heq

theorem Beating.run (h : Beating id workspace t s row)
    (hrun : Steps SessionStep s tr s') (hbeat : ∀ now, .beat id now ∉ tr)
    (hopen : ∀ now, .closed id now ∉ tr) (hfirst : ∀ event ∈ tr, ¬ event.Due workspace t) :
    (∃ row', Beating id workspace t s' row' ∧
      (row'.reportedAt.isSome = true ↔ row.reportedAt.isSome = true)) ∧
    ∀ event ∈ tr, ¬ event.Announces id := by
  induction hrun with
  | nil => exact ⟨⟨row, h, Iff.rfl⟩, nofun⟩
  | @snoc u v tr ev _ hstep ih =>
    have hmem {event : SessionEvent} (hmem : event ∈ tr) : event ∈ tr ++ [ev] :=
      mem_append_left _ hmem
    have hev : ev ∈ tr ++ [ev] := mem_append_right _ (mem_singleton.mpr rfl)
    obtain ⟨⟨row', hbeating, hsame⟩, hnone⟩ := ih (fun now h => hbeat now (hmem h))
      (fun now h => hopen now (hmem h)) fun event h => hfirst event (hmem h)
    have hnot : ¬ ev.Announces id := fun hannounces =>
      hfirst ev hev ((hbeating.announces hstep).mp hannounces).1
    obtain ⟨row'', hbeating', hmark⟩ := hbeating.step hstep
      (fun now heq => hbeat now (heq ▸ hev)) fun now heq => hopen now (heq ▸ hev)
    refine ⟨⟨row'', hbeating', ?_⟩, fun event hmem => ?_⟩
    · rw [hmark, hsame]
      exact ⟨fun h => h.resolve_right hnot, .inl⟩
    · rcases mem_append.mp hmem with hmem | hmem
      · exact hnone event hmem
      · exact mem_singleton.mp hmem ▸ hnot

/-- A launch that may have been heard of at a time, and not since. -/
def Recent (id : AppSessionId) (t : Date) (s : Launches) : Prop :=
  s.Keyed ∧ ∀ row, s.row id = some row → row.closedAt.isSome = true ∨ row.heartbeatAt = t

theorem recent_of_sign {event : SessionEvent} (h : s.Keyed) (hstep : SessionStep s event s')
    (hsign : event.SignOf id t) : Recent id t s' := by
  refine ⟨h.step hstep, fun row' hrow' => ?_⟩
  cases event with
  | began id' workspace now verdict list =>
    obtain ⟨rfl, rfl⟩ := hsign
    obtain rfl := Option.some.inj ((row_of_start h hstep).2.2.1.symm.trans hrow')
    exact .inr rfl
  | beat id' now =>
    obtain ⟨rfl, rfl⟩ := hsign
    rcases row_was h hstep hrow' with ⟨_, _, _, _, heq⟩ | ⟨row, hrow⟩
    · cases heq
    · have hcarried := carried_of_step h hstep hrow hrow'
      cases hclosed : row.closedAt with
      | none => exact .inr (hcarried.beats _ rfl hclosed)
      | some at' => exact .inl (hcarried.shut.mpr (.inl (hclosed ▸ rfl)))
  | closed | forgot => exact hsign.elim

theorem Recent.step {event : SessionEvent} (h : Recent id t s) (hstep : SessionStep s event s')
    (hsilent : ∀ t', ¬ event.SignOf id t') : Recent id t s' := by
  refine ⟨h.1.step hstep, fun row' hrow' => ?_⟩
  rcases row_was h.1 hstep hrow' with ⟨_, now, _, _, rfl⟩ | ⟨row, hrow⟩
  · exact absurd ⟨rfl, rfl⟩ (hsilent now)
  · have hcarried := carried_of_step h.1 hstep hrow hrow'
    rcases h.2 row hrow with hshut | hbeat
    · exact .inl (hcarried.shut.mpr (.inl hshut))
    · refine .inr ((hcarried.still fun now heq => ?_).trans hbeat)
      exact hsilent now (heq ▸ ⟨rfl, rfl⟩)

theorem Recent.run (h : Recent id t s) (hrun : Steps SessionStep s tr s')
    (hsilent : ∀ event ∈ tr, ∀ t', ¬ event.SignOf id t') : Recent id t s' := by
  induction hrun with
  | nil => exact h
  | snoc _ hstep ih =>
    have hbefore := ih fun event hmem => hsilent event (mem_append_left _ hmem)
    exact hbefore.step hstep (hsilent _ (mem_append_right _ (mem_singleton.mpr rfl)))

end Launch

/-! ## The three laws -/

structure AnnouncedOnce (id : AppSessionId) (workspace : WorkspaceId) (tr : List SessionEvent) :
    Prop where
  /-- A launch never closed and last heard of at `t` is announced by the first launch that begins
  long enough after, and by no other after `t`, exactly if none had before. -/
  once : ∀ pre sign mid due rest t, tr = pre ++ sign :: (mid ++ due :: rest) →
    sign.SignOf id t → (∃ event ∈ pre ++ [sign], event.Starts id workspace) →
    (∀ now, .beat id now ∉ mid ++ due :: rest) → (∀ now, .closed id now ∉ tr) →
    due.Due workspace t → (∀ event ∈ mid, ¬ event.Due workspace t) →
    ((due.Announces id ∧ ∀ event ∈ mid ++ rest, ¬ event.Announces id) ↔
      ∀ event ∈ pre, ¬ event.Announces id)
  /-- A launch that closed is not announced any more. -/
  closed : ∀ pre now post, tr = pre ++ .closed id now :: post →
    (∃ event ∈ pre, event.Starts id workspace) → ∀ event ∈ post, ¬ event.Announces id
  /-- A launch heard of no more than `ABANDONED_AFTER` ago is not announced. -/
  running : ∀ pre sign mid id' workspace' now verdict list rest t,
    tr = pre ++ sign :: (mid ++ .began id' workspace' now verdict list :: rest) →
    sign.SignOf id t → (∀ event ∈ mid, ∀ t', ¬ event.SignOf id t') → now ≤ t + abandonedAfter →
    ¬ SessionEvent.Announces id (.began id' workspace' now verdict list)

/-! ## A launch that slept -/

def seconds (n : Nat) : Date := n * 1000000000

def Launches.began (s : Launches) (id : AppSessionId) (now : Date) : SessionEvent :=
  .began id 0 now (beginSession s.rows id 0 now).1 (announced s.rows 0 (now - abandonedAfter))

def Launches.begin (s : Launches) (id : AppSessionId) (now : Date) : Launches :=
  ⟨(beginSession s.rows id 0 now).2, s.issued ++ [id], now⟩

theorem step_began {s : Launches} {id : AppSessionId} {now : Date} (hclock : s.clock ≤ now)
    (hfresh : id ∉ s.issued) : SessionStep s (s.began id now) (s.begin id now) :=
  .began hclock hfresh

def slept : Launches := (Launches.new 0).begin 0 0

def noticed : Launches := slept.begin 1 (seconds 200)

def sleptTrace : List SessionEvent :=
  [] ++ [(Launches.new 0).began 0 0] ++ [slept.began 1 (seconds 200)]

theorem run_noticed : Steps SessionStep (.new 0) sleptTrace noticed := by
  have hslept : SessionStep (.new 0) ((Launches.new 0).began 0 0) slept :=
    step_began (by decide) (by decide)
  have hnoticed : SessionStep slept (slept.began 1 (seconds 200)) noticed :=
    step_began (by decide) (by decide)
  exact (Steps.nil.snoc hslept).snoc hnoticed

/-- It wakes up, and the other closes. -/
def awake : Launches := ⟨heartbeat noticed.rows 0 (seconds 201), noticed.issued, seconds 201⟩

def alone : Launches := ⟨closeSession awake.rows 1 (seconds 300), awake.issued, seconds 300⟩

theorem run_alone : Steps SessionStep (.new 0)
    (sleptTrace ++ [.beat 0 (seconds 201)] ++ [.closed 1 (seconds 300)] ++
      [alone.began 2 (seconds 400)]) (alone.begin 2 (seconds 400)) := by
  have hawake : SessionStep noticed (.beat 0 (seconds 201)) awake := .beat (by decide)
  have halone : SessionStep awake (.closed 1 (seconds 300)) alone := .closed (by decide)
  have hnext : SessionStep alone (alone.began 2 (seconds 400)) (alone.begin 2 (seconds 400)) :=
    step_began (by decide) (by decide)
  exact ((run_noticed.snoc hawake).snoc halone).snoc hnext

theorem crash_announced_once {clock : Date} {tr : List SessionEvent} {s : Launches}
    (h : Steps SessionStep (.new clock) tr s) (id : AppSessionId) (workspace : WorkspaceId) :
    AnnouncedOnce id workspace tr where
  once := by
    rintro pre sign mid due rest t rfl hsign hstarts hbeat hopen hdue hfirst
    obtain ⟨u, v, hpre, hstep, hpost⟩ := h.split_cons
    obtain ⟨w, x, hmid, hstep', hrest⟩ := hpost.split_cons
    have htold : Told id pre u := told_of_run hpre
    have htold' : Told id (pre ++ [sign]) v := htold.step hstep
    -- The sign of life leaves an open row, which is marked if a launch announced it before.
    obtain ⟨row, hrow, hrowOpen, hw⟩ := htold'.alive workspace hstarts fun now hmem => by
      refine hopen now ?_
      rcases mem_append.mp hmem with hmem | hmem
      · exact mem_append_left _ hmem
      · exact mem_append_right _ (mem_singleton.mp hmem ▸ mem_cons_self)
    have hheard : row.heartbeatAt = t := by
      rcases (recent_of_sign htold.keyed hstep hsign).2 row hrow with hshut | hheard
      · rw [hrowOpen] at hshut
        cases hshut
      · exact hheard
    have hsignNot : ¬ sign.Announces id := by
      cases sign with
      | began id' workspace' now verdict list =>
        obtain ⟨rfl, -⟩ := hsign
        exact not_announces_of_none htold.keyed hstep (row_of_start htold.keyed hstep).2.1
      | beat | closed | forgot => exact fun h => h
    have hmark : row.reportedAt.isSome = true ↔ ∃ event ∈ pre, event.Announces id := by
      rw [htold'.mark row hrow]
      constructor
      · rintro ⟨event, hmem, hannounces⟩
        rcases mem_append.mp hmem with hmem | hmem
        · exact ⟨event, hmem, hannounces⟩
        · exact absurd (mem_singleton.mp hmem ▸ hannounces) hsignNot
      · rintro ⟨event, hmem, hannounces⟩
        exact ⟨event, mem_append_left _ hmem, hannounces⟩
    have hbeating : Beating id workspace t v row := ⟨htold'.keyed, hrow, hw, hrowOpen, hheard⟩
    obtain ⟨⟨row', hbeating', hsame⟩, hmidNot⟩ := hbeating.run hmid
      (fun now hmem => hbeat now (mem_append_left _ hmem))
      (fun now hmem => hopen now (by simp [hmem])) hfirst
    constructor
    · rintro ⟨hannounces, -⟩ event hmem hbefore
      have hset := hsame.mpr (hmark.mpr ⟨event, hmem, hbefore⟩)
      rw [((hbeating'.announces hstep').mp hannounces).2] at hset
      cases hset
    · intro hnone
      have hunreported : row'.reportedAt = none := by
        rw [← Option.not_isSome_iff_eq_none, hsame, hmark]
        rintro ⟨event, hmem, hbefore⟩
        exact hnone event hmem hbefore
      have hannounces : due.Announces id := (hbeating'.announces hstep').mpr ⟨hdue, hunreported⟩
      refine ⟨hannounces, fun event hmem => ?_⟩
      rcases mem_append.mp hmem with hmem | hmem
      · exact hmidNot event hmem
      · obtain ⟨row'', hbeating'', hmark'⟩ := hbeating'.step hstep'
          (fun now heq => hbeat now (by simp [heq])) fun now heq => hopen now (by simp [heq])
        have hdrawn : ∃ ev ∈ pre ++ [sign], ev.Starts id workspace := hstarts
        obtain ⟨ev, hev, hevStarts⟩ := hdrawn
        have hissued : id ∈ x.issued := by
          have hv := htold'.drawn ev hev workspace hevStarts
          have hw' := hmid.invariant (P := fun s => id ∈ s.issued)
            (fun _ _ _ hmem hst => issued_mono hst hmem) hv
          exact issued_mono hstep' hw'
        have hsettled : Settled id x := by
          refine ⟨hbeating''.keyed, hissued, fun other hother => .inl ?_⟩
          obtain rfl := Option.some.inj (hbeating''.stored.symm.trans hother)
          exact hmark'.mpr (.inr hannounces)
        exact (hsettled.run hrest).2 event hmem
  closed := by
    rintro pre now post rfl ⟨ev, hev, hstarts⟩
    obtain ⟨u, v, hpre, hstep, hpost⟩ := h.split_cons
    have htold : Told id pre u := told_of_run hpre
    have hsettled : Settled id v := by
      refine ⟨htold.keyed.step hstep, issued_mono hstep (htold.drawn ev hev workspace hstarts),
        fun row' hrow' => .inr ?_⟩
      rcases row_was htold.keyed hstep hrow' with ⟨_, _, _, _, heq⟩ | ⟨row, hrow⟩
      · cases heq
      · exact (carried_of_step htold.keyed hstep hrow hrow').shut.mpr (.inr ⟨now, rfl⟩)
    exact (hsettled.run hpost).2
  running := by
    rintro pre sign mid id' workspace' now verdict list rest t rfl hsign hsilent hsoon hannounces
    obtain ⟨u, v, hpre, hstep, hpost⟩ := h.split_cons
    obtain ⟨w, x, hmid, hstep', -⟩ := hpost.split_cons
    have htold : Told id pre u := told_of_run hpre
    have hrecent := (recent_of_sign htold.keyed hstep hsign).run hmid hsilent
    obtain ⟨_, _, _, _, _, heq, row, hrow, habandoned⟩ :=
      (announces_of_step hrecent.1 hstep').mp hannounces
    cases heq
    obtain ⟨-, hopen, -, haged⟩ := abandoned_iff.mp habandoned
    rcases hrecent.2 row hrow with hshut | hheard
    · rw [hopen] at hshut
      cases hshut
    · rw [hheard] at haged
      exact absurd (aged_iff.mp haged) (Int.not_lt.mpr hsoon)

theorem sleeper_announced_once : AnnouncedOnce 0 0 sleptTrace :=
  crash_announced_once run_noticed 0 0

/-- It crashes after it woke up, and the next launch says that all is well. -/
theorem second_crash_missed :
    ¬ ∀ (clock : Date) (tr : List SessionEvent) (s : Launches) (id : AppSessionId)
      (workspace : WorkspaceId) (pre : List SessionEvent) (sign : SessionEvent)
      (mid : List SessionEvent) (due : SessionEvent) (rest : List SessionEvent) (t : Date),
      Steps SessionStep (.new clock) tr s → tr = pre ++ sign :: (mid ++ due :: rest) →
      sign.SignOf id t → (∃ event ∈ pre ++ [sign], event.Starts id workspace) →
      (∀ now, .beat id now ∉ mid ++ due :: rest) → (∀ now, .closed id now ∉ tr) →
      due.Due workspace t → (∀ event ∈ mid, ¬ event.Due workspace t) → due.Announces id := by
  intro h
  have hannounces := h 0 _ _ 0 0 sleptTrace (.beat 0 (seconds 201)) [.closed 1 (seconds 300)]
    (alone.began 2 (seconds 400)) [] (seconds 201) run_alone (by simp) ⟨rfl, rfl⟩
    ⟨(Launches.new 0).began 0 0, by simp [sleptTrace], rfl, rfl⟩
    (by simp [Launches.began]) (by simp [sleptTrace, Launches.began])
    ⟨rfl, by decide⟩ (by simp [SessionEvent.Due])
  have hverdict : (beginSession alone.rows 2 0 (seconds 400)).1 = .abnormal := hannounces.1
  exact absurd hverdict (by decide)

end Oxyn.Sessions
