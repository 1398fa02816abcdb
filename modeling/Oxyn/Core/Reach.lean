/-
# `Oxyn.Core.Reach` — what a visit leaves behind

A state is settled once its flag is set and no visit works on it any more.
-/
import Oxyn.Core.Propagate

open Runs

namespace Oxyn.Cancel

open Forest (cancelled_bear children_bear handles_bear parent_bear running_bear running_begin
  running_run)
open Function (update update_apply update_self)

open List

/-! ## Settled states -/

/-- The flag is set, and all that follows from it is done. -/
def Forest.Settled (forest : Forest) (node : Nat) : Prop :=
  forest.cancelled node = true ∧ ∀ call, ¬ (forest.running call).Works node

/-- A child may have been lost only when it was dropped for good; any other is listed, or is
settled, or will be visited. -/
def Covered (forest : Forest) (parent child : Nat) : Prop :=
  forest.alive child = false ∨
    (forest.cancelled parent = false ∧ child ∈ forest.children parent) ∨
    (forest.cancelled parent = true ∧ (forest.Settled child ∨
      ∃ call, (forest.running call).Pends (forest.children parent) parent child))

structure Orderly (forest : Forest) : Prop where
  /-- The flag lets one visit in. -/
  one : ∀ call call' node, (forest.running call).Works node →
    (forest.running call').Works node → call = call'
  /-- A child about to be stored under a flag that was set meanwhile is stored before the
  children are taken. -/
  racing : ∀ call parent, forest.running call = .making parent (.storing false) →
    forest.cancelled parent = true →
    ∃ call' token stack, forest.running call' = .cancelling token (⟨parent, .taking⟩ :: stack)
  covered : ∀ parent child, forest.parent child = some parent → Covered forest parent child

def BelowSettled (forest : Forest) (token : Nat) : Prop :=
  ∀ node, Below forest.parent token node → forest.alive node = true → forest.Settled node

/-- A cancellation that goes down from a token misses nothing: below a token dropped for good,
uncancelled, nothing is left to do. -/
def Reachable (forest : Forest) (token : Nat) : Prop :=
  ∀ middle, Below forest.parent token middle → forest.alive middle = false →
    forest.cancelled middle = false → BelowSettled forest middle

/-- No token is dropped for good, uncancelled, between a cancellation under way and a token
that is not settled. -/
def Unsevered (forest : Forest) (act : Act) (token : Nat) : Prop :=
  ∀ middle, act = .drop middle → forest.handles middle = 1 →
    forest.someCall (·.holds middle) = false → forest.cancelled middle = false →
    Below forest.parent token middle → BelowSettled forest middle

/-- No visit comes upon a flag whose own visit is still at work. -/
def Unhurried (forest : Forest) (act : Act) : Prop :=
  ∀ call token node stack, act = .advance call →
    forest.running call = .cancelling token (⟨node, .swapping⟩ :: stack) →
    forest.cancelled node = true → ∀ call', ¬ (forest.running call').Works node

namespace Sound

variable {forest forest' : Forest} {event : Act × Outcome}

theorem settled_step (h : Sound forest) (hstep : Stepped forest event forest') {node : Nat}
    (hsettled : forest.Settled node) : forest'.Settled node := by
  refine ⟨(h.grows hstep).cancelled node hsettled.1, fun call hworks => ?_⟩
  rcases works_of_step hstep hworks with hworks | ⟨hclear, -⟩
  · exact hsettled.2 call hworks
  · rw [hsettled.1] at hclear
    cases hclear

theorem settled_of_dead (h : Sound forest) {node : Nat} (hset : forest.cancelled node = true)
    (hdead : forest.alive node = false) : forest.Settled node := by
  refine ⟨hset, fun call hworks => ?_⟩
  cases hrunning : forest.running call with
  | idle | making parent stage => simp [hrunning, Running.Works] at hworks
  | cancelling token stack =>
    rw [hrunning] at hworks
    obtain ⟨frame, hmem, hnode, -⟩ := hworks
    have hholds : (forest.running call).holds node = true := by
      rw [hrunning, Running.holds, any_eq_true]
      exact ⟨frame, hmem, decide_eq_true hnode⟩
    rw [h.alive_iff.mpr (.inr ⟨call, hholds⟩)] at hdead
    cases hdead

theorem one_step (h : Sound forest) (ho : Orderly forest) (hstep : Stepped forest event forest')
    {call call' node : Nat} (hworks : (forest'.running call).Works node)
    (hworks' : (forest'.running call').Works node) : call = call' := by
  rcases works_of_step hstep hworks with hold | ⟨hclear, hact⟩ <;>
    rcases works_of_step hstep hworks' with hold' | ⟨hclear', hact'⟩
  · exact ho.one call call' node hold hold'
  · rw [h.flagged_of_works hold] at hclear'
    cases hclear'
  · rw [h.flagged_of_works hold'] at hclear
    cases hclear
  · exact Act.advance.inj (hact.symm.trans hact')

variable {stack : List Frame} {call token node : Nat}

theorem works_head {visit : Visit}
    (hrunning : forest.running call = .cancelling token (⟨node, visit⟩ :: stack))
    (hvisit : visit ≠ .swapping) : (forest.running call).Works node := by
  rw [hrunning]
  exact ⟨_, mem_cons_self, rfl, hvisit⟩

theorem not_mem_below (h : Sound forest) {visit : Visit}
    (hrunning : forest.running call = .cancelling token (⟨node, visit⟩ :: stack)) :
    ∀ frame ∈ stack, frame.node ≠ node := by
  have hok := h.running call
  rw [hrunning] at hok
  exact fun frame hmem => Nat.ne_of_lt (h.node_lt_of_stack hok.2 frame hmem)

theorem settled_of_finished (h : Sound forest) (ho : Orderly forest)
    (hrunning : forest.running call = .cancelling token (⟨node, .visiting []⟩ :: stack)) :
    (forest.leave call token stack).2.Settled node := by
  have hworks := works_head hrunning nofun
  refine ⟨h.flagged_of_works hworks, fun call' hworks' => ?_⟩
  simp only [Forest.leave, running_run] at hworks'
  split at hworks'
  · obtain ⟨frame, hmem, hnode, -⟩ := (Running.works_resume ..).mp hworks'
    exact h.not_mem_below hrunning frame hmem hnode
  next hne => exact hne (ho.one call' call node hworks' hworks)

/-- So does one that finds the flag set, and its visit done. -/
theorem settled_of_found
    (hrunning : forest.running call = .cancelling token (⟨node, .swapping⟩ :: stack))
    (hset : forest.cancelled node = true)
    (hquiet : ∀ call', ¬ (forest.running call').Works node) :
    (forest.leave call token stack).2.Settled node := by
  refine ⟨hset, fun call' hworks' => ?_⟩
  simp only [Forest.leave, running_run] at hworks'
  split at hworks'
  · obtain ⟨frame, hmem, hframe⟩ := (Running.works_resume ..).mp hworks'
    refine hquiet call ?_
    rw [hrunning]
    exact ⟨frame, mem_cons_of_mem _ hmem, hframe⟩
  · exact hquiet call' hworks'

/-! ## A child that races with a cancellation -/

theorem taking_step (hstep : Stepped forest event forest')
    (hrunning : forest.running call = .cancelling token (⟨node, .taking⟩ :: stack)) :
    (event.1 = .advance call ∧ forest.locked node = false) ∨
      forest'.running call = .cancelling token (⟨node, .taking⟩ :: stack) ∨
      call = forest.calls := by
  have hother : ∀ {call' : Nat} {running running' : Running},
      forest.running call' = running → running ≠ .cancelling token (⟨node, .taking⟩ :: stack) →
      (if call = call' then running' else forest.running call) =
        .cancelling token (⟨node, .taking⟩ :: stack) := by
    intro call' running running' hcall' hne
    rw [if_neg fun heq => hne (by rw [← hcall', ← heq, hrunning]), hrunning]
  cases hstep with
  | new | clone | drop => exact .inr (.inl hrunning)
  | cancel hheld | child hheld =>
    rw [running_begin]
    split
    next heq => exact .inr (.inr heq)
    · exact .inr (.inl hrunning)
  | @took call' token' node' stack' hrunning' hfree =>
    rcases Nat.decEq call call' with hne | rfl
    · rw [running_run, if_neg hne]
      exact .inr (.inl hrunning)
    · rw [hrunning] at hrunning'
      obtain ⟨rfl, hcons⟩ := Running.cancelling.inj hrunning'
      obtain ⟨hframe, rfl⟩ := cons_eq_cons.mp hcons
      obtain rfl := (Frame.mk.inj hframe).1
      exact .inl ⟨rfl, hfree⟩
  | found hrunning' hset | finished hrunning' | swapped hrunning' hset | entered hrunning' halive
  | skipped hrunning' halive =>
    refine .inr (.inl ((running_run ..).trans (hother hrunning' fun heq => ?_)))
    simp at heq
  | locked hrunning' hfree | loaded hrunning' =>
    exact .inr (.inl ((running_run ..).trans (hother hrunning' nofun)))
  | bore hrunning' =>
    rw [running_bear, update_apply]
    exact .inr (.inl (hother hrunning' nofun))

variable {cancelled : Bool}

theorem storing_step (hstep : Stepped forest event forest') {call parent : Nat}
    (hmaking : forest'.running call = .making parent (.storing cancelled)) :
    forest.running call = .making parent (.storing cancelled) ∨
      (forest.cancelled parent = cancelled ∧ forest'.cancelled = forest.cancelled) := by
  have hmoved : ∀ {call' : Nat} {running : Running},
      (if call = call' then running else forest.running call) = .making parent (.storing cancelled) →
      running ≠ .making parent (.storing cancelled) →
      forest.running call = .making parent (.storing cancelled) := by
    intro call' running heq hne
    split at heq
    · exact absurd heq hne
    · exact heq
  have hleft : ∀ {call' token : Nat} {stack : List Frame},
      (forest.run call' (.resume token stack)).running call = .making parent (.storing cancelled) →
      forest.running call = .making parent (.storing cancelled) := by
    intro call' token stack heq
    rw [running_run] at heq
    refine hmoved heq ?_
    cases stack <;> nofun
  cases hstep with
  | new | clone | drop => exact .inl hmaking
  | cancel hheld | child hheld =>
    rw [running_begin] at hmaking
    exact .inl (hmoved hmaking nofun)
  | found hrunning hset | finished hrunning => exact .inl (hleft hmaking)
  | swapped hrunning hset | took hrunning hfree | entered hrunning halive | skipped hrunning halive
  | locked hrunning hfree =>
    rw [running_run] at hmaking
    exact .inl (hmoved hmaking nofun)
  | loaded hrunning =>
    rw [running_run] at hmaking
    split at hmaking
    · obtain ⟨rfl, hstage⟩ := Running.making.inj hmaking
      exact .inr ⟨Making.storing.inj hstage, rfl⟩
    · exact .inl hmaking
  | bore hrunning =>
    rw [running_bear, update_apply] at hmaking
    exact .inl (hmoved hmaking nofun)

/-- A flag is set by a visit, or is that of a child born cancelled. -/
theorem cancelled_step (hstep : Stepped forest event forest')
    (hset : forest'.cancelled node = true) :
    forest.cancelled node = true ∨
      (∃ call token stack,
        forest.running call = .cancelling token (⟨node, .swapping⟩ :: stack) ∧
        forest'.running call = .cancelling token (⟨node, .taking⟩ :: stack)) ∨
      (node = forest.size ∧ ∃ call parent,
        forest.running call = .making parent (.storing true) ∧
        forest'.parent node = some parent) := by
  cases hstep with
  | @swapped call token node' stack hrunning hclear =>
    have hset' : update forest.cancelled node' true node = true := hset
    rw [update_apply] at hset'
    split at hset'
    next heq =>
      refine .inr (.inl ⟨call, token, stack, heq ▸ hrunning, ?_⟩)
      rw [running_run, if_pos rfl, heq]
    · exact .inl hset'
  | @bore call parent cancelled hrunning =>
    rw [cancelled_bear] at hset
    split at hset
    next hcancelled =>
      rw [update_apply] at hset
      split at hset
      next heq =>
        refine .inr (.inr ⟨heq, call, parent, hcancelled ▸ hrunning, ?_⟩)
        rw [parent_bear, heq, update_self]
      · exact .inl hset
    · exact .inl hset
  | _ => exact .inl hset

theorem lt_of_making (h : Sound forest) {call parent : Nat} {stage : Making}
    (hrunning : forest.running call = .making parent stage) : parent < forest.size := by
  have hok := h.running call
  rw [hrunning] at hok
  exact h.lt_of_held hok.1

theorem racing_step (h : Sound forest) (ho : Orderly forest)
    (hstep : Stepped forest event forest') {call parent : Nat}
    (hmaking : forest'.running call = .making parent (.storing false))
    (hset : forest'.cancelled parent = true) :
    ∃ call' token stack,
      forest'.running call' = .cancelling token (⟨parent, .taking⟩ :: stack) := by
  rcases storing_step hstep hmaking with hbefore | ⟨hclear, hsame⟩
  · rcases cancelled_step hstep hset with hset | ⟨call', token, stack, -, htaking⟩ | ⟨hborn, -⟩
    · obtain ⟨call', token, stack, htaking⟩ := ho.racing call parent hbefore hset
      rcases taking_step hstep htaking with ⟨-, hfree⟩ | htaking' | heq
      · have hlocked : forest.locked parent = true :=
          h.locked_iff.mpr ⟨call, by rw [hbefore]; exact decide_eq_true rfl⟩
        rw [hlocked] at hfree
        cases hfree
      · exact ⟨call', token, stack, htaking'⟩
      · rw [h.idle call' (Nat.le_of_eq heq.symm)] at htaking
        cases htaking
    · exact ⟨call', token, stack, htaking⟩
    · exact absurd hborn (Nat.ne_of_lt (h.lt_of_making hbefore))
  · rw [hsame, hclear] at hset
    cases hset

/-! ## Children that are still to be visited -/

/-- What a call has to visit it visits, or finds dead. -/
theorem pends_step (h : Sound forest) (ho : Orderly forest) (hstep : Stepped forest event forest')
    (hquiet : Unhurried forest event.1) {call parent child : Nat}
    (hparent : forest.parent child = some parent)
    (hpends : (forest.running call).Pends (forest.children parent) parent child) :
    forest'.alive child = false ∨ forest'.Settled child ∨
      (forest'.running call).Pends (forest'.children parent) parent child := by
  have hbegun : call ≠ forest.calls := by
    rintro rfl
    rw [h.idle forest.calls (Nat.le_refl _)] at hpends
    exact hpends
  have hmoved : ∀ {call' : Nat} {running : Running},
      (call = call' → running.Pends (forest.children parent) parent child) →
      (if call = call' then running else forest.running call).Pends (forest.children parent)
        parent child := by
    intro call' running hrunning
    split
    next heq => exact hrunning heq
    · exact hpends
  cases hstep with
  | new | clone | drop => exact .inr (.inr hpends)
  | cancel hheld | child hheld =>
    rw [running_begin, if_neg hbegun]
    exact .inr (.inr hpends)
  | @found call' token node stack hrunning hset =>
    by_cases heq : child = node
    · exact .inr (.inl (heq ▸ settled_of_found hrunning hset
        (hquiet call' token node stack rfl hrunning hset)))
    · refine .inr (.inr ?_)
      simp only [Forest.leave, running_run]
      refine hmoved fun hcall => ?_
      rw [hcall, hrunning] at hpends
      rcases hpends with ⟨-, hswapping⟩ | hbelow
      · exact hswapping.elim
      · exact (Running.pends_resume ..).mpr
          ((Running.pendsIn_of_left hbelow).resolve_right heq)
  | @finished call' token node stack hrunning =>
    by_cases heq : child = node
    · exact .inr (.inl (heq ▸ h.settled_of_finished ho hrunning))
    · refine .inr (.inr ?_)
      simp only [Forest.leave, running_run]
      refine hmoved fun hcall => ?_
      rw [hcall, hrunning] at hpends
      rcases hpends with ⟨-, hrest | habove⟩ | hbelow
      · cases hrest
      · cases habove
      · exact (Running.pends_resume ..).mpr
          ((Running.pendsIn_of_left hbelow).resolve_right heq)
  | @swapped call' token node stack hrunning hclear =>
    refine .inr (.inr ?_)
    rw [running_run]
    refine hmoved fun hcall => ?_
    rw [hcall, hrunning] at hpends
    rcases hpends with ⟨-, hswapping⟩ | hbelow
    · exact hswapping.elim
    · exact .inr hbelow
  | @took call' token node stack hrunning hfree =>
    have hworks := works_head hrunning (by rintro ⟨⟩)
    have hone : parent = node → call = call' := by
      rintro rfl
      exact ho.one call call' parent (Running.works_of_pends hpends) hworks
    refine .inr (.inr ?_)
    rw [running_run]
    show Running.Pends (update forest.children node [] parent) _ _ _
    rw [update_apply]
    split
    next hnode =>
      subst hnode
      obtain rfl := hone rfl
      rw [hrunning] at hpends
      rw [if_pos rfl]
      rcases hpends with ⟨-, hlisted⟩ | hbelow
      · exact .inl ⟨rfl, .inl hlisted⟩
      · obtain ⟨frame, hmem, hframe, -⟩ := Running.works_of_pendsIn hbelow
        exact absurd hframe (h.not_mem_below hrunning frame hmem)
    next hnode =>
      refine hmoved fun hcall => ?_
      rw [hcall, hrunning] at hpends
      rcases hpends with ⟨heq, -⟩ | hbelow
      · exact absurd heq.symm hnode
      · exact .inr hbelow
  | @entered call' token node weak rest stack hrunning halive =>
    refine .inr (.inr ?_)
    rw [running_run]
    refine hmoved fun hcall => ?_
    rw [hcall, hrunning] at hpends
    rcases hpends with ⟨hnode, hrest | habove⟩ | hbelow
    · rcases mem_cons.mp hrest with rfl | hrest
      · exact .inr (.inl ⟨hnode, .inr rfl⟩)
      · exact .inr (.inl ⟨hnode, .inl hrest⟩)
    · cases habove
    · exact .inr (.inr hbelow)
  | @skipped call' token node weak rest stack hrunning hdead =>
    by_cases heq : child = weak
    · exact .inl (h.dead_step (.skipped hrunning hdead) (h.lt_of_parent hparent) (heq ▸ hdead))
    · refine .inr (.inr ?_)
      rw [running_run]
      refine hmoved fun hcall => ?_
      rw [hcall, hrunning] at hpends
      rcases hpends with ⟨hnode, hrest | habove⟩ | hbelow
      · exact .inl ⟨hnode, .inl ((mem_cons.mp hrest).resolve_left heq)⟩
      · cases habove
      · exact .inr hbelow
  | @locked call' parent' hrunning hfree =>
    have hcall : call ≠ call' := by
      rintro rfl
      rw [hrunning] at hpends
      exact hpends
    by_cases halive : forest.alive child = true
    · refine .inr (.inr ?_)
      rw [running_run, if_neg hcall]
      refine Running.pends_mono (fun hlisted => ?_) hpends
      show child ∈ update forest.children parent' _ parent
      rw [update_apply]
      split
      next heq => exact mem_filter.mpr ⟨heq ▸ hlisted, halive⟩
      · exact hlisted
    · exact .inl (h.dead_step (.locked hrunning hfree) (h.lt_of_parent hparent)
        (eq_false_of_ne_true halive))
  | @loaded call' parent' hrunning =>
    refine .inr (.inr ?_)
    rw [running_run]
    refine hmoved fun hcall => ?_
    rw [hcall, hrunning] at hpends
    exact hpends
  | @bore call' parent' cancelled hrunning =>
    have hcall : call ≠ call' := by
      rintro rfl
      rw [hrunning] at hpends
      exact hpends
    refine .inr (.inr ?_)
    rw [running_bear, update_apply, if_neg hcall, children_bear]
    refine Running.pends_mono (fun hlisted => ?_) hpends
    split
    · exact hlisted
    · rw [update_apply]
      split
      next heq => exact mem_append_left _ (heq ▸ hlisted)
      · exact hlisted

variable {parent child : Nat}

/-- A child stays listed, or is to be visited once the flag is set, until it is dead. -/
theorem listed_step (h : Sound forest) (hstep : Stepped forest event forest')
    (hparent : forest.parent child = some parent)
    (hclear : forest.cancelled parent = false) (hlisted : child ∈ forest.children parent) :
    Covered forest' parent child := by
  have hlt := Nat.lt_trans (h.parent_lt _ _ hparent) (h.lt_of_parent hparent)
  cases hstep with
  | @swapped call token node stack hrunning hclear' =>
    by_cases heq : parent = node
    · refine .inr (.inr ⟨?_, .inr ⟨call, ?_⟩⟩)
      · exact heq ▸ update_self ..
      · rw [running_run, if_pos rfl]
        exact .inl ⟨heq.symm, hlisted⟩
    · refine .inr (.inl ⟨?_, hlisted⟩)
      show update forest.cancelled node true parent = false
      rw [update_apply, if_neg heq, hclear]
  | @took call token node stack hrunning hfree =>
    have hne : parent ≠ node := by
      rintro rfl
      rw [h.flagged_of_works (works_head hrunning nofun)] at hclear
      cases hclear
    refine .inr (.inl ⟨hclear, ?_⟩)
    show child ∈ update forest.children node [] parent
    rwa [update_apply, if_neg hne]
  | @locked call parent' hrunning hfree =>
    by_cases halive : forest.alive child = true
    · refine .inr (.inl ⟨hclear, ?_⟩)
      show child ∈ update forest.children parent' _ parent
      rw [update_apply]
      split
      next heq => exact mem_filter.mpr ⟨heq ▸ hlisted, halive⟩
      · exact hlisted
    · exact .inl (h.dead_step (.locked hrunning hfree) (h.lt_of_parent hparent)
        (eq_false_of_ne_true halive))
  | @bore call parent' cancelled _ =>
    refine .inr (.inl ⟨?_, ?_⟩)
    · rw [cancelled_bear]
      split
      · rw [update_apply, if_neg (Nat.ne_of_lt hlt), hclear]
      · exact hclear
    · rw [children_bear]
      split
      · exact hlisted
      · rw [update_apply]
        split
        next heq => exact mem_append_left _ (heq ▸ hlisted)
        · exact hlisted
  | _ => exact .inr (.inl ⟨hclear, hlisted⟩)

/-- Nobody works on a state that was just created. -/
theorem settled_of_born (h : Sound forest) (call parent : Nat) :
    (forest.bear call parent true).2.Settled forest.size := by
  refine ⟨update_self .., fun call' hworks => ?_⟩
  rw [running_bear, update_apply] at hworks
  split at hworks
  · exact hworks
  · have hset := h.flagged_of_works hworks
    rw [(h.fresh forest.size (Nat.le_refl _)).2.1] at hset
    cases hset

/-- A child is listed when it is born, or its parent's visit is about to take the list. -/
theorem born_covered (h : Sound forest) (ho : Orderly forest)
    (hrunning : forest.running call = .making parent (.storing cancelled)) :
    Covered (forest.bear call parent cancelled).2 parent forest.size := by
  have hne := Nat.ne_of_lt (h.lt_of_making hrunning)
  have hok := h.running call
  rw [hrunning] at hok
  cases cancelled with
  | true =>
    refine .inr (.inr ⟨?_, .inl (h.settled_of_born call parent)⟩)
    rw [cancelled_bear, if_pos rfl, update_apply, if_neg hne]
    exact hok.2 rfl
  | false =>
    have hlisted : forest.size ∈ (forest.bear call parent false).2.children parent := by
      rw [children_bear, if_neg nofun, update_self]
      exact mem_append_right _ (mem_singleton_self _)
    have hflag : (forest.bear call parent false).2.cancelled = forest.cancelled := by
      rw [cancelled_bear, if_neg nofun]
    cases hset : forest.cancelled parent with
    | false => exact .inr (.inl ⟨by rw [hflag, hset], hlisted⟩)
    | true =>
      obtain ⟨call', token, stack, htaking⟩ := ho.racing call parent hrunning hset
      refine .inr (.inr ⟨by rw [hflag, hset], .inr ⟨call', ?_⟩⟩)
      have hcall : call' ≠ call := by
        rintro rfl
        rw [hrunning] at htaking
        cases htaking
      rw [running_bear, update_apply, if_neg hcall, htaking]
      exact .inl ⟨rfl, hlisted⟩

theorem covered_step (h : Sound forest) (ho : Orderly forest)
    (hstep : Stepped forest event forest') (hquiet : Unhurried forest event.1)
    (hparent : forest.parent child = some parent) :
    Covered forest' parent child := by
  rcases ho.covered parent child hparent with hdead | ⟨hclear, hlisted⟩ | ⟨hset, hreach⟩
  · exact .inl (h.dead_step hstep (h.lt_of_parent hparent) hdead)
  · exact h.listed_step hstep hparent hclear hlisted
  · have hset' := (h.grows hstep).cancelled parent hset
    rcases hreach with hsettled | ⟨call, hpends⟩
    · exact .inr (.inr ⟨hset', .inl (h.settled_step hstep hsettled)⟩)
    · rcases h.pends_step ho hstep hquiet hparent hpends with hdead | hsettled | hpends'
      · exact .inl hdead
      · exact .inr (.inr ⟨hset', .inl hsettled⟩)
      · exact .inr (.inr ⟨hset', .inr ⟨call, hpends'⟩⟩)

theorem parent_step (hstep : Stepped forest event forest')
    (hparent : forest'.parent child = some parent) :
    forest.parent child = some parent ∨
      (child = forest.size ∧ ∃ call cancelled,
        forest.running call = .making parent (.storing cancelled) ∧
        event = (.advance call, .born parent child) ∧
        forest' = (forest.bear call parent cancelled).2) := by
  cases hstep with
  | @bore call parent' cancelled hrunning =>
    rw [parent_bear, update_apply] at hparent
    split at hparent
    next heq =>
      obtain rfl := Option.some.inj hparent
      exact .inr ⟨heq, call, cancelled, hrunning, heq ▸ rfl, rfl⟩
    · exact .inl hparent
  | _ => exact .inl hparent

theorem orderly_step (h : Sound forest) (ho : Orderly forest)
    (hstep : Stepped forest event forest') (hquiet : Unhurried forest event.1) :
    Orderly forest' where
  one := fun _ _ _ hworks hworks' => h.one_step ho hstep hworks hworks'
  racing := fun _ _ hmaking hset => h.racing_step ho hstep hmaking hset
  covered := by
    intro parent child hparent
    rcases parent_step hstep hparent with hold | ⟨rfl, call, cancelled, hrunning, -, rfl⟩
    · exact h.covered_step ho hstep hquiet hold
    · exact h.born_covered ho hrunning

/-! ## Descendants -/

theorem below_grows (hgrows : Grows forest forest')
    (hbelow : Below forest.parent token node) : Below forest'.parent token node := by
  induction hbelow with
  | child hparent => exact .child (hgrows.parent _ _ hparent)
  | step _ hparent ih => exact .step ih (hgrows.parent _ _ hparent)

theorem below_step (h : Sound forest) (hstep : Stepped forest event forest')
    (hbelow : Below forest'.parent token node) :
    Below forest.parent token node ∨
      (node = forest.size ∧ ∃ call parent cancelled,
        forest.running call = .making parent (.storing cancelled) ∧
        forest' = (forest.bear call parent cancelled).2 ∧
        (parent = token ∨ Below forest.parent token parent)) := by
  induction hbelow with
  | child hparent =>
    rcases parent_step hstep hparent with hold | ⟨hnode, call, cancelled, hrunning, -, hbear⟩
    · exact .inl (.child hold)
    · exact .inr ⟨hnode, call, token, cancelled, hrunning, hbear, .inl rfl⟩
  | @step middle node _ hparent ih =>
    rcases parent_step hstep hparent with hold | ⟨hnode, call, cancelled, hrunning, -, hbear⟩
    · rcases ih with hmiddle | ⟨rfl, -⟩
      · exact .inl (.step hmiddle hold)
      · have := h.parent_lt _ _ hold
        have := h.lt_of_parent hold
        omega
    · rcases ih with hmiddle | ⟨rfl, -⟩
      · exact .inr ⟨hnode, call, middle, cancelled, hrunning, hbear, .inr hmiddle⟩
      · exact absurd (h.lt_of_making hrunning) (Nat.lt_irrefl _)

theorem alive_of_making (h : Sound forest) {stage : Making}
    (hrunning : forest.running call = .making parent stage) : forest.alive parent = true := by
  have hok := h.running call
  rw [hrunning] at hok
  exact h.alive_iff.mpr (.inl hok.1)

theorem born_settled (h : Sound forest) (ho : Orderly forest)
    (hrunning : forest.running call = .making parent (.storing cancelled))
    (hsettled : forest.Settled parent) :
    (forest.bear call parent cancelled).2.Settled forest.size := by
  cases cancelled with
  | true => exact h.settled_of_born call parent
  | false =>
    obtain ⟨call', token, stack, htaking⟩ := ho.racing call parent hrunning hsettled.1
    exact absurd (works_head htaking nofun) (hsettled.2 call')

/-! ## From a settled token down -/

theorem below_of_settled (h : Sound forest) (ho : Orderly forest)
    (hsettled : forest.Settled token) (hbelow : Below forest.parent token node) :
    forest.Settled node ∨ ∃ middle, Below forest.parent token middle ∧
      forest.alive middle = false ∧ forest.cancelled middle = false ∧
      (node = middle ∨ Below forest.parent middle node) := by
  have hchild : ∀ {parent child : Nat}, forest.parent child = some parent →
      forest.Settled parent →
      forest.Settled child ∨ (forest.alive child = false ∧ forest.cancelled child = false) := by
    intro parent child hparent hsettled
    rcases ho.covered parent child hparent with hdead | ⟨hclear, -⟩ | ⟨-, hsettled' | ⟨call, hpends⟩⟩
    · cases hset : forest.cancelled child with
      | true => exact .inl (h.settled_of_dead hset hdead)
      | false => exact .inr ⟨hdead, rfl⟩
    · rw [hsettled.1] at hclear
      cases hclear
    · exact .inl hsettled'
    · exact absurd (Running.works_of_pends hpends) (hsettled.2 call)
  induction hbelow with
  | child hparent =>
    rcases hchild hparent hsettled with hnode | ⟨hdead, hclear⟩
    · exact .inl hnode
    · exact .inr ⟨_, .child hparent, hdead, hclear, .inl rfl⟩
  | @step middle node hmiddle hparent ih =>
    rcases ih with hsettled' | ⟨severed, hsevered, hdead, hclear, rfl | hbelow⟩
    · rcases hchild hparent hsettled' with hnode | ⟨hdead, hclear⟩
      · exact .inl hnode
      · exact .inr ⟨node, .step hmiddle hparent, hdead, hclear, .inl rfl⟩
    · exact .inr ⟨middle, hsevered, hdead, hclear, .inr (.child hparent)⟩
    · exact .inr ⟨severed, hsevered, hdead, hclear, .inr (.step hbelow hparent)⟩

theorem belowSettled_of_reachable (h : Sound forest) (ho : Orderly forest)
    (hsettled : forest.Settled token) (hreach : Reachable forest token) :
    BelowSettled forest token := by
  intro node hbelow halive
  rcases h.below_of_settled ho hsettled hbelow with
    hnode | ⟨middle, hmiddle, hdead, hclear, rfl | hbelow'⟩
  · exact hnode
  · rw [halive] at hdead
    cases hdead
  · exact hreach middle hmiddle hdead hclear node hbelow' halive

theorem belowSettled_step (h : Sound forest) (ho : Orderly forest)
    (hstep : Stepped forest event forest')
    (hmaking : ∀ call stage, forest.running call = .making token stage → forest.Settled token)
    (hbelow : BelowSettled forest token) : BelowSettled forest' token := by
  intro node hnode halive
  rcases h.below_step hstep hnode with
    hold | ⟨rfl, call, parent, cancelled, hrunning, rfl, rfl | hparent⟩
  · have hlt : node < forest.size := by
      cases hold with
      | child hparent | step _ hparent => exact h.lt_of_parent hparent
    exact h.settled_step hstep (hbelow node hold (h.alive_of_step hstep hlt halive))
  · exact h.born_settled ho hrunning (hmaking call _ hrunning)
  · exact h.born_settled ho hrunning (hbelow parent hparent (h.alive_of_making hrunning))

/-! ## Cancellations that miss nothing -/

theorem handles_step (hstep : Stepped forest event forest')
    (hheld : 0 < forest.handles node) :
    0 < forest'.handles node ∨ (event.1 = .drop node ∧ forest.handles node = 1) := by
  cases hstep with
  | new =>
    refine .inl ?_
    show 0 < update forest.handles forest.size 1 node
    rw [update_apply]
    split <;> omega
  | @clone token htoken =>
    refine .inl ?_
    show 0 < update forest.handles token _ node
    rw [update_apply]
    split <;> omega
  | @drop token htoken hborrowed =>
    by_cases heq : node = token ∧ forest.handles node = 1
    · exact .inr ⟨heq.1 ▸ rfl, heq.2⟩
    · refine .inl ?_
      show 0 < update forest.handles token _ node
      rw [update_apply]
      split
      next hnode =>
        subst hnode
        have : forest.handles node ≠ 1 := fun hone => heq ⟨rfl, hone⟩
        omega
      · exact hheld
  | bore hrunning =>
    rw [handles_bear, update_apply]
    split <;> omega
  | _ => exact .inl hheld

/-- A visit leaves a state with its flag set. -/
theorem holds_step (h : Sound forest) (hstep : Stepped forest event forest')
    (hholds : (forest.running call).holds node = true) :
    (forest'.running call).holds node = true ∨ forest.cancelled node = true := by
  have hbegun : call ≠ forest.calls := by
    rintro rfl
    rw [h.idle forest.calls (Nat.le_refl _)] at hholds
    cases hholds
  have hmoved : ∀ {call' : Nat} {running : Running},
      (call = call' → running.holds node = true ∨ forest.cancelled node = true) →
      (if call = call' then running else forest.running call).holds node = true ∨
        forest.cancelled node = true := by
    intro call' running hrunning
    split
    next heq => exact hrunning heq
    · exact .inl hholds
  have hpopped : ∀ {token top : Nat} {visit : Visit} {stack : List Frame},
      forest.running call = .cancelling token (⟨top, visit⟩ :: stack) →
      forest.cancelled top = true →
      (Running.resume token stack).holds node = true ∨ forest.cancelled node = true := by
    intro token top visit stack hrunning hset
    rw [hrunning, Running.holds, any_cons, Bool.or_eq_true, decide_eq_true_eq] at hholds
    rcases hholds with hnode | hstack
    · exact .inr (hnode ▸ hset)
    · exact .inl ((Running.holds_resume ..).trans hstack)
  cases hstep with
  | new | clone | drop => exact .inl hholds
  | cancel hheld | child hheld => exact .inl (by rwa [running_begin, if_neg hbegun])
  | found hrunning hset =>
    simp only [Forest.leave, running_run]
    exact hmoved fun hcall => hpopped (hcall ▸ hrunning) hset
  | finished hrunning =>
    simp only [Forest.leave, running_run]
    refine hmoved fun hcall => hpopped (hcall ▸ hrunning) ?_
    exact h.flagged_of_works (works_head hrunning (by rintro ⟨⟩))
  | swapped hrunning hclear | took hrunning hfree =>
    rw [running_run]
    refine hmoved fun hcall => .inl ?_
    rwa [hcall, hrunning] at hholds
  | entered hrunning halive =>
    rw [running_run]
    refine hmoved fun hcall => .inl ?_
    rw [hcall, hrunning] at hholds
    rw [Running.holds, any_cons, Bool.or_eq_true]
    exact .inr hholds
  | skipped hrunning hdead =>
    rw [running_run]
    refine hmoved fun hcall => .inl ?_
    rwa [hcall, hrunning] at hholds
  | locked hrunning hfree | loaded hrunning =>
    rw [running_run]
    refine hmoved fun hcall => ?_
    rw [hcall, hrunning] at hholds
    cases hholds
  | bore hrunning =>
    rw [running_bear, update_apply]
    refine hmoved fun hcall => ?_
    rw [hcall, hrunning] at hholds
    cases hholds

/-- A state dies when its last token is dropped, or when a visit leaves it: then its flag is
set. -/
theorem dies_step (h : Sound forest) (hstep : Stepped forest event forest')
    (halive : forest.alive node = true) (hdead : forest'.alive node = false) :
    forest.cancelled node = true ∨
      (event.1 = .drop node ∧ forest.handles node = 1 ∧
        forest.someCall (·.holds node) = false) := by
  have h' := h.step hstep
  have hheld' : ¬ 0 < forest'.handles node := fun hheld => by
    rw [h'.alive_iff.mpr (.inl hheld)] at hdead
    cases hdead
  have hholds' : ∀ call, (forest.running call).holds node = true →
      forest.cancelled node = true := by
    intro call hholds
    refine (h.holds_step hstep hholds).resolve_left fun hheld => ?_
    rw [h'.alive_iff.mpr (.inr ⟨call, hheld⟩)] at hdead
    cases hdead
  rcases h.alive_iff.mp halive with hheld | ⟨call, hholds⟩
  · obtain ⟨hdrop, hone⟩ := (handles_step hstep hheld).resolve_left hheld'
    cases hsome : forest.someCall (·.holds node) with
    | true =>
      obtain ⟨call, hholds⟩ := (h.someCall_iff rfl).mp hsome
      exact .inl (hholds' call hholds)
    | false => exact .inr ⟨hdrop, hone, rfl⟩
  · exact .inl (hholds' call hholds)

theorem unborrowed_of_drop (hstep : Stepped forest event forest')
    (hdrop : event.1 = .drop token) : forest.borrowed token = true → 1 < forest.handles token := by
  cases hstep with
  | drop hheld hborrowed =>
    cases hdrop
    exact hborrowed
  | _ => cases hdrop

theorem reachable_step (h : Sound forest) (ho : Orderly forest)
    (hstep : Stepped forest event forest')
    (hkept : Unsevered forest event.1 token) (hreach : Reachable forest token) :
    Reachable forest' token := by
  intro middle hmiddle hdead hclear
  have hclear' : forest.cancelled middle = false := eq_false_of_ne_true fun hset => by
    rw [(h.grows hstep).cancelled middle hset] at hclear
    cases hclear
  rcases h.below_step hstep hmiddle with hold | ⟨rfl, call, parent, cancelled, hrunning, rfl, -⟩
  · have hbelow : BelowSettled forest middle ∧ ∀ call stage,
        forest.running call = .making middle stage → forest.Settled middle := by
      cases halive : forest.alive middle with
      | false =>
        refine ⟨hreach middle hold halive hclear', fun call stage hrunning => ?_⟩
        rw [h.alive_of_making hrunning] at halive
        cases halive
      | true =>
        rcases h.dies_step hstep halive hdead with hset | ⟨hdrop, hone, hfree⟩
        · rw [hset] at hclear'
          cases hclear'
        · refine ⟨hkept middle hdrop hone hfree hclear' hold, fun call stage hrunning => ?_⟩
          have hborrowed : forest.borrowed middle = true :=
            h.borrowed_iff.mpr ⟨call, by rw [hrunning]; exact decide_eq_true rfl⟩
          have := unborrowed_of_drop hstep hdrop hborrowed
          omega
    exact h.belowSettled_step ho hstep hbelow.2 hbelow.1
  · have hheld : 0 < (forest.bear call parent cancelled).2.handles forest.size := by
      rw [handles_bear, update_self]
      exact Nat.zero_lt_one
    rw [(h.step hstep).alive_iff.mpr (.inl hheld)] at hdead
    cases hdead

theorem cancelling_step (hstep : Stepped forest event forest')
    (hrunning : forest'.running call = .cancelling token stack) :
    (∃ stack, forest.running call = .cancelling token stack) ∨ event.1 = .cancel token := by
  have hmoved : ∀ {call' : Nat} {running : Running},
      (running = .cancelling token stack → ∃ stack, forest.running call' = .cancelling token stack) →
      (if call = call' then running else forest.running call) = .cancelling token stack →
      ∃ stack, forest.running call = .cancelling token stack := by
    intro call' running hrunning heq
    split at heq
    next hcall => exact hcall ▸ hrunning heq
    · exact ⟨stack, heq⟩
  have hleft : ∀ {call' token' : Nat} {frame : Frame} {stack' : List Frame},
      forest.running call' = .cancelling token' (frame :: stack') →
      (forest.run call' (.resume token' stack')).running call = .cancelling token stack →
      ∃ stack, forest.running call = .cancelling token stack := by
    intro call' token' frame stack' hbefore heq
    rw [running_run] at heq
    refine hmoved (fun hresume => ⟨frame :: stack', ?_⟩) heq
    cases stack' with
    | nil => cases hresume
    | cons below stack' => rw [hbefore, (Running.cancelling.inj hresume).1]
  cases hstep with
  | new | clone | drop => exact .inl ⟨stack, hrunning⟩
  | cancel hheld =>
    rw [running_begin] at hrunning
    split at hrunning
    · rw [(Running.cancelling.inj hrunning).1]
      exact .inr rfl
    · exact .inl ⟨stack, hrunning⟩
  | child hheld =>
    rw [running_begin] at hrunning
    split at hrunning
    · cases hrunning
    · exact .inl ⟨stack, hrunning⟩
  | found hbefore hset | finished hbefore => exact .inl (hleft hbefore hrunning)
  | swapped hbefore hclear | took hbefore hfree | entered hbefore halive | skipped hbefore hdead =>
    rw [running_run] at hrunning
    exact .inl (hmoved (fun heq => ⟨_, (Running.cancelling.inj heq).1 ▸ hbefore⟩) hrunning)
  | locked hbefore hfree | loaded hbefore =>
    rw [running_run] at hrunning
    refine .inl (hmoved (fun heq => ?_) hrunning)
    cases heq
  | bore hbefore =>
    rw [running_bear, update_apply] at hrunning
    refine .inl (hmoved (fun heq => ?_) hrunning)
    cases heq

theorem settled_of_returned (h : Sound forest) (ho : Orderly forest)
    (hstep : Stepped forest event forest') (hquiet : Unhurried forest event.1)
    (hreturned : event.2 = .returned token) :
    forest'.Settled token ∧ ∃ call stack, forest.running call = .cancelling token stack := by
  have hleft : ∀ {call token' node : Nat} {visit : Visit} {stack : List Frame},
      forest.running call = .cancelling token' (⟨node, visit⟩ :: stack) →
      (forest.leave call token' stack).1 = .returned token → token' = token ∧ node = token := by
    intro call token' node visit stack hrunning hout
    have hok := h.running call
    rw [hrunning] at hok
    cases stack with
    | nil =>
      obtain rfl := Outcome.returned.inj hout
      exact ⟨rfl, hok.2.2.1⟩
    | cons below stack => cases hout
  cases hstep with
  | @found call token' node stack hrunning hset =>
    obtain ⟨rfl, rfl⟩ := hleft hrunning hreturned
    exact ⟨settled_of_found hrunning hset (hquiet call _ _ stack rfl hrunning hset),
      call, _, hrunning⟩
  | @finished call token' node stack hrunning =>
    obtain ⟨rfl, rfl⟩ := hleft hrunning hreturned
    exact ⟨h.settled_of_finished ho hrunning, call, _, hrunning⟩
  | _ => cases hreturned

end Sound

end Oxyn.Cancel
