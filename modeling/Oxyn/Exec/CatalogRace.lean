/-
# `Oxyn.Exec.CatalogRace` — slow reads of the catalog and the DDL beside them

A refresh reads the provider at one moment and publishes what it read at a later one; a DDL takes
effect on the server at one moment and marks the whole cache stale at a later one.
-/
import Oxyn.Exec.CatalogCharge

namespace Oxyn.Catalog

open Text List

/-! ## Steps -/

/-- A read that is not published yet: its patch, and how many DDL had taken effect on
the server when the provider answered. -/
structure InFlight where
  scope : CatalogRefreshScope
  patch : CatalogPatch
  version : Nat

/-- The catalog and its server: how many DDL took effect, which have not marked the cache yet, and
the server's version each level was answered at. -/
structure Shared where
  budget : CatalogBudget
  cache : CatalogCache
  version : Nat
  unmarked : List Nat
  reading : Option InFlight
  answered : Level → Nat

def Shared.start : Shared := ⟨.default, .new, 0, [], none, fun _ => 0⟩

inductive CatalogEvent where
  /-- A refresh, which has the lock, is answered by the provider. -/
  | read (scope : CatalogRefreshScope) (provider : CatalogProvider)
      (capabilities : Capabilities)
  /-- The refresh is cancelled, or the connection closed. -/
  | abandon
  /-- The refresh reserves, evicts and applies its patch. -/
  | publish (entries : List Entry) (now : Int)
  /-- A DDL takes effect on the server. -/
  | takeEffect
  /-- The end of a DDL is confirmed: the whole cache is marked. -/
  | mark (ddl : Nat)

inductive RaceStep : Shared → CatalogEvent → Shared → Prop
  | read {s : Shared} {scope : CatalogRefreshScope} {provider : CatalogProvider}
      {capabilities : Capabilities} {patch : CatalogPatch} :
      s.reading = none → Catalog.read provider capabilities scope = .ok patch →
      RaceStep s (.read scope provider capabilities)
        { s with reading := some ⟨scope, patch, s.version⟩ }
  | abandon {s : Shared} : RaceStep s .abandon { s with reading := none }
  | refused {s : Shared} {r : InFlight} {entries : List Entry} {now : Int} {e : RefreshError} :
      s.reading = some r → entries.Perm s.budget.scopes.entries →
      s.budget.reserve entries r.scope r.patch = .error e →
      RaceStep s (.publish entries now) { s with reading := none }
  | publish {s : Shared} {r : InFlight} {entries : List Entry} {now : Int}
      {evicted : List CatalogScope} {budget : CatalogBudget} :
      s.reading = some r → entries.Perm s.budget.scopes.entries →
      s.budget.reserve entries r.scope r.patch = .ok (evicted, budget) →
      RaceStep s (.publish entries now)
        { s with
          budget := budget
          cache := (r.patch.apply now (evicted.foldl CatalogCache.evict s.cache)).1
          reading := none
          answered := fun l =>
            if l ∈ r.patch.published now (evicted.foldl CatalogCache.evict s.cache) then r.version
            else s.answered l }
  | takeEffect {s : Shared} :
      RaceStep s .takeEffect
        { s with version := s.version + 1, unmarked := (s.version + 1) :: s.unmarked }
  | mark {s : Shared} {ddl : Nat} :
      ddl ∈ s.unmarked →
      RaceStep s (.mark ddl)
        { s with cache := s.cache.invalidateAll, unmarked := s.unmarked.erase ddl }

/-- Every step that was started has finished. -/
def Quiet (s : Shared) : Prop := s.reading = none ∧ s.unmarked = []

def ReadAfterMarks (s : Shared) : CatalogEvent → Prop
  | .publish _ _ => ∀ r, s.reading = some r → ∀ v, r.version < v → v ≤ s.version → v ∈ s.unmarked
  | _ => True

/-- A level that is fresh was answered after every DDL that has marked the cache. -/
structure FreshAfterMarks (s : Shared) : Prop where
  fresh : ∀ l t, s.cache.freshnessAt l = .fetched t →
    ∀ v, s.answered l < v → v ≤ s.version → v ∈ s.unmarked
  answered : ∀ l, s.answered l ≤ s.version
  reading : ∀ r, s.reading = some r → r.version ≤ s.version

theorem freshAfterMarks_start : FreshAfterMarks .start := by
  refine ⟨fun l t hl => ?_, fun _ => Nat.le_refl _, fun r hr => by simp [Shared.start] at hr⟩
  rw [show Shared.start.cache.freshnessAt l = .never from CatalogCache.freshnessAt_new l] at hl
  simp at hl

theorem FreshAfterMarks.step {s s' : Shared} {ev : CatalogEvent} (hs : FreshAfterMarks s)
    (hev : ReadAfterMarks s ev) (h : RaceStep s ev s') : FreshAfterMarks s' := by
  cases h with
  | read hnone hread =>
    refine ⟨hs.fresh, hs.answered, fun r hr => ?_⟩
    obtain rfl := Option.some.inj hr
    exact Nat.le_refl _
  | abandon | refused => exact ⟨hs.fresh, hs.answered, fun r hr => by simp at hr⟩
  | @publish r entries now evicted budget hr _ hreserve =>
    refine ⟨fun l t hl v hlt hle => ?_, fun l => ?_, fun r hr => by simp at hr⟩
    · simp only at hl hlt hle ⊢
      split at hlt
      next => exact hev r hr v hlt hle
      next hkept =>
        have happly := CatalogPatch.onlyDrops_apply r.patch now
          (evicted.foldl CatalogCache.evict s.cache) l
        have hevict : OnlyDrops (fun _ => False) s.cache.freshnessAt
            (evicted.foldl CatalogCache.evict s.cache).freshnessAt :=
          CatalogCache.onlyDrops_evictAll
        obtain hpublished | hsame | hnever := happly
        · exact absurd hpublished hkept
        · obtain hfalse | hbefore | hnever := hevict l
          · exact hfalse.elim
          · exact hs.fresh l t (by rw [← hbefore, ← hsame]; exact hl) v hlt hle
          · rw [hsame, hnever] at hl
            simp at hl
        · rw [hnever] at hl
          simp at hl
    · simp only
      split
      · exact hs.reading r hr
      · exact hs.answered l
  | takeEffect =>
    refine ⟨fun l t hl v hlt hle => ?_, fun l => Nat.le_succ_of_le (hs.answered l),
      fun r hr => Nat.le_succ_of_le (hs.reading r hr)⟩
    obtain hbefore | hlast := Nat.lt_or_eq_of_le hle
    · exact mem_cons_of_mem _ (hs.fresh l t hl v hlt (Nat.le_of_lt_succ hbefore))
    · exact hlast ▸ mem_cons_self
  | mark hddl =>
    exact ⟨fun l t hl => absurd hl (CatalogCache.freshnessAt_invalidateAll l t), hs.answered,
      hs.reading⟩

def TimelyStep (s : Shared) (ev : CatalogEvent) (s' : Shared) : Prop :=
  RaceStep s ev s' ∧ ReadAfterMarks s ev

theorem freshAfterMarks_of_run {s : Shared} {tr : List CatalogEvent}
    (h : Runs.Steps TimelyStep .start tr s) : FreshAfterMarks s := by
  induction h with
  | nil => exact freshAfterMarks_start
  | snoc _ hstep ih => exact ih.step hstep.2 hstep.1

/-- Where every publication was read after the marks, a level that is fresh once all has
finished was answered after the last DDL. -/
theorem fresh_level_follows_ddl {s : Shared} {tr : List CatalogEvent}
    (h : Runs.Steps TimelyStep .start tr s) (hquiet : Quiet s) {l : Level} {t : Int}
    (hfresh : s.cache.freshnessAt l = .fetched t) : s.answered l = s.version := by
  have hs := freshAfterMarks_of_run h
  refine Nat.le_antisymm (hs.answered l) (Nat.le_of_not_lt fun hlt => ?_)
  have hmem := hs.fresh l t hfresh s.version hlt (Nat.le_refl _)
  rw [hquiet.2] at hmem
  exact not_mem_nil hmem

/-- What a source that lists nothing publishes for its root. -/
def rootPatch : CatalogPatch := { relations := some (.empty, []) }

def noCapabilities : Capabilities := ⟨0⟩

def rootBudget : CatalogBudget := ⟨IndexMap.empty.insert (.relations none none) ⟨0, 1⟩, 1⟩

theorem reserve_root :
    CatalogBudget.default.reserve [] (.relations none none) rootPatch = .ok ([], rootBudget) := rfl

def listedAt (version : Nat) : Shared :=
  ⟨rootBudget, (rootPatch.apply 0 CatalogCache.new.invalidateAll).1, 1, [], none, fun l =>
    if l ∈ rootPatch.published 0 CatalogCache.new.invalidateAll then version else 0⟩

def readAt (version : Nat) : Shared :=
  ⟨.default, CatalogCache.new.invalidateAll, 1, [], some ⟨.relations none none, rootPatch, version⟩,
    fun _ => 0⟩

theorem publish_root (version : Nat) :
    RaceStep (readAt version) (.publish [] 0) (listedAt version) := by
  have hreading : (readAt version).reading = some ⟨.relations none none, rootPatch, version⟩ := rfl
  have hstep := @RaceStep.publish (readAt version) _ [] 0 [] rootBudget hreading (.refl [])
    reserve_root
  exact hstep

theorem fresh_level_follows_a_create :
    (listedAt 1).cache.freshnessAt (.relations [] []) = .fetched 0 ∧
      (listedAt 1).answered (.relations [] []) = (listedAt 1).version := by
  have hmark : Runs.Steps TimelyStep .start [.takeEffect, .mark 1]
      ⟨.default, CatalogCache.new.invalidateAll, 1, [], none, fun _ => 0⟩ :=
    .snoc (.snoc .nil ⟨.takeEffect, trivial⟩) ⟨.mark (by decide), trivial⟩
  have hread : Runs.Steps TimelyStep .start
      [.takeEffect, .mark 1, .read (.relations none none) emptySource noCapabilities] (readAt 1) :=
    .snoc hmark ⟨.read rfl rfl, trivial⟩
  have hrun : Runs.Steps TimelyStep .start
      [.takeEffect, .mark 1, .read (.relations none none) emptySource noCapabilities,
        .publish [] 0] (listedAt 1) := by
    refine .snoc hread ⟨publish_root 1, fun r hr v hlt hle => ?_⟩
    obtain rfl := Option.some.inj hr
    exact absurd hle (Nat.not_le.mpr hlt)
  have hfresh : (listedAt 1).cache.freshnessAt (.relations [] []) = .fetched 0 := by decide
  exact ⟨hfresh, fresh_level_follows_ddl hrun ⟨rfl, rfl⟩ hfresh⟩

/-- A read that a DDL overtakes is published as fresh, with what the server held before. -/
theorem slow_read_undoes_a_ddl :
    ¬ ∀ (tr : List CatalogEvent) (s : Shared), Runs.Steps RaceStep .start tr s → Quiet s →
      ∀ l t, s.cache.freshnessAt l = .fetched t → s.answered l = s.version := by
  intro hall
  have hread : Runs.Steps RaceStep .start
      [.read (.relations none none) emptySource noCapabilities]
      ⟨.default, .new, 0, [], some ⟨.relations none none, rootPatch, 0⟩, fun _ => 0⟩ :=
    .snoc .nil (.read rfl rfl)
  have hmark : Runs.Steps RaceStep .start
      [.read (.relations none none) emptySource noCapabilities, .takeEffect, .mark 1]
      (readAt 0) :=
    .snoc (.snoc hread .takeEffect) (.mark (by decide))
  have hsame := hall _ _ (.snoc hmark (publish_root 0)) ⟨rfl, rfl⟩ (.relations [] []) 0 (by decide)
  exact absurd hsame (by decide)

end Oxyn.Catalog
