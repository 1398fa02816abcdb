/-
# `Oxyn.Core.Descend` — a cancellation reaches every descendant

A cancellation reaches every token that is still held below its own, as long as no token in
between was dropped uncancelled, and no visit comes upon a flag whose own visit is still at work
(`CleanStep`).
-/
import Oxyn.Core.Reach

open Runs

namespace Oxyn.Cancel

open List

/-! ## Where a cancellation comes from -/

/-- A cancellation of the token, or of one it descends from, was asked for. -/
def Asked (forest : Forest) (tr : List (Act × Outcome)) (node : Nat) : Prop :=
  ∃ token, (∃ outcome, (Act.cancel token, outcome) ∈ tr) ∧
    (node = token ∨ Below forest.parent token node)

variable {forest forest' : Forest} {tr : List (Act × Outcome)} {event : Act × Outcome}

theorem Asked.step {node : Nat} (hgrows : Grows forest forest') (h : Asked forest tr node) :
    Asked forest' (tr ++ [event]) node := by
  obtain ⟨token, ⟨outcome, hmem⟩, hnode⟩ := h
  exact ⟨token, ⟨outcome, mem_append_left _ hmem⟩, hnode.imp_right (Sound.below_grows hgrows)⟩

theorem Asked.child {parent node : Nat}
    (h : Asked forest tr parent) (hparent : forest.parent node = some parent) :
    Asked forest tr node := by
  obtain ⟨token, hasked, rfl | hbelow⟩ := h
  · exact ⟨parent, hasked, .inr (.child hparent)⟩
  · exact ⟨token, hasked, .inr (.step hbelow hparent)⟩

theorem below_of_stack {token : Nat} {stack : List Frame} (hstack : StackOk forest token stack) :
    ∀ frame ∈ stack, frame.node = token ∨ Below forest.parent token frame.node := by
  induction stack with
  | nil => simp
  | cons top stack ih =>
    obtain ⟨-, hbelow, hstack⟩ := hstack
    intro frame hmem
    rcases mem_cons.mp hmem with rfl | hmem
    · cases stack with
      | nil => exact .inl hbelow
      | cons below stack =>
        rcases ih hstack below mem_cons_self with heq | hbelow'
        · exact .inr (.child (heq ▸ hbelow.1))
        · exact .inr (.step hbelow' hbelow.1)
    · exact ih hstack frame hmem

structure Traced (tr : List (Act × Outcome)) (forest : Forest) : Prop where
  sound : Sound forest
  calls : ∀ call token stack, forest.running call = .cancelling token stack →
    ∃ outcome, (Act.cancel token, outcome) ∈ tr
  flags : ∀ node, forest.cancelled node = true → Asked forest tr node

theorem Sound.new : Sound .new where
  idle := fun _ _ => rfl
  fresh := fun _ _ => ⟨rfl, rfl, rfl, rfl⟩
  parent_lt := nofun
  listed := nofun
  running := fun _ => trivial

theorem Traced.step (h : Traced tr forest) (hstep : Stepped forest event forest') :
    Traced (tr ++ [event]) forest' where
  sound := h.sound.step hstep
  calls := by
    intro call token stack hrunning
    rcases Sound.cancelling_step hstep hrunning with ⟨stack', hbefore⟩ | hact
    · obtain ⟨outcome, hmem⟩ := h.calls call token stack' hbefore
      exact ⟨outcome, mem_append_left _ hmem⟩
    · refine ⟨event.2, mem_append_right _ ?_⟩
      rw [← hact]
      exact mem_singleton_self event
  flags := by
    intro node hset
    have hgrows := h.sound.grows hstep
    rcases Sound.cancelled_step hstep hset with
      hset | ⟨call, token, stack, hrunning, -⟩ | ⟨-, call, parent, hrunning, hparent⟩
    · exact (h.flags node hset).step hgrows
    · have hok := h.sound.running call
      rw [hrunning] at hok
      have hasked : Asked forest tr node :=
        ⟨token, h.calls call token _ hrunning, below_of_stack hok.2 _ mem_cons_self⟩
      exact hasked.step hgrows
    · have hok := h.sound.running call
      rw [hrunning] at hok
      exact ((h.flags parent (hok.2 rfl)).step hgrows).child hparent

/-! ## A child of a cancelled token -/

/-- A call of `child` on a token that was cancelled when it began. -/
structure Warned (forest : Forest) (call parent : Nat) : Prop where
  begun : call < forest.calls
  cancelled : forest.cancelled parent = true
  running : ∀ running, forest.running call = running →
    running = .idle ∨ ∃ stage, running = .making parent stage ∧ stage ≠ .storing false

theorem Warned.of_child {call parent : Nat} (hset : forest.cancelled parent = true)
    (hstep : Stepped forest (.child parent, .began call) forest') :
    Warned forest' call parent := by
  cases hstep with
  | child hheld =>
    refine ⟨Nat.lt_succ_self _, hset, ?_⟩
    rintro running rfl
    rw [Forest.running_begin, if_pos rfl]
    exact .inr ⟨.locking, rfl, nofun⟩

theorem Warned.step (hsound : Sound forest)
    {call parent : Nat} (h : Warned forest call parent) (hstep : Stepped forest event forest') :
    Warned forest' call parent := by
  have hbegun : call ≠ forest.calls := Nat.ne_of_lt h.begun
  have hset := (hsound.grows hstep).cancelled parent h.cancelled
  -- The call is not a `cancel`, and moves as a `child` does.
  have hnot : ∀ {token : Nat} {stack : List Frame},
      forest.running call ≠ .cancelling token stack := by
    intro token stack hrunning
    rcases h.running _ hrunning with heq | ⟨stage, heq, -⟩ <;> cases heq
  have hmoved : ∀ {call' : Nat} {running : Running},
      (call = call' → running = .idle ∨
        ∃ stage, running = .making parent stage ∧ stage ≠ .storing false) →
      ∀ now, (if call = call' then running else forest.running call) = now →
        now = .idle ∨ ∃ stage, now = .making parent stage ∧ stage ≠ .storing false := by
    rintro call' running hrunning now rfl
    split
    next heq => exact hrunning heq
    · exact h.running _ rfl
  refine ⟨?_, hset, ?_⟩
  · cases hstep with
    | cancel hheld | child hheld => exact Nat.lt_succ_of_lt h.begun
    | bore hrunning => exact (Forest.calls_bear ..).symm ▸ h.begun
    | _ => exact h.begun
  · cases hstep with
    | new | clone | drop => exact h.running
    | cancel hheld | child hheld =>
      rw [Forest.running_begin, if_neg hbegun]
      exact h.running
    | found hrunning hset' | finished hrunning =>
      simp only [Forest.leave, Forest.running_run]
      exact hmoved fun heq => absurd (heq ▸ hrunning) hnot
    | swapped hrunning hclear | took hrunning hfree | entered hrunning halive
    | skipped hrunning hdead =>
      rw [Forest.running_run]
      exact hmoved fun heq => absurd (heq ▸ hrunning) hnot
    | locked hrunning hfree =>
      rw [Forest.running_run]
      refine hmoved fun heq => .inr ⟨.loading, ?_, by rintro ⟨⟩⟩
      rcases h.running _ (heq ▸ hrunning) with hidle | ⟨stage, hmaking, -⟩
      · cases hidle
      · rw [(Running.making.inj hmaking).1]
    | @loaded call' parent' hrunning =>
      rw [Forest.running_run]
      refine hmoved fun heq => .inr ⟨.storing (forest.cancelled parent'), ?_, ?_⟩
      · rcases h.running _ (heq ▸ hrunning) with hidle | ⟨stage, hmaking, -⟩
        · cases hidle
        · rw [(Running.making.inj hmaking).1]
      · rcases h.running _ (heq ▸ hrunning) with hidle | ⟨stage, hmaking, -⟩
        · cases hidle
        · rw [(Running.making.inj hmaking).1, h.cancelled]
          rintro ⟨⟩
    | bore hrunning =>
      rw [Forest.running_bear, Function.update_apply]
      exact hmoved fun _ => .inl rfl

theorem Warned.born (hsound : Sound forest) {call parent child : Nat}
    (h : Warned forest call parent)
    (hstep : Stepped forest (.advance call, .born parent child) forest') :
    forest'.cancelled child = true := by
  generalize hevent : (Act.advance call, Outcome.born parent child) = event at hstep
  cases hstep with
  | @bore call' parent' cancelled hrunning =>
    obtain ⟨hcall, hborn⟩ := Prod.mk.inj hevent
    obtain rfl := Act.advance.inj hcall
    obtain ⟨rfl, rfl⟩ := Outcome.born.inj hborn
    rcases h.running _ hrunning with hidle | ⟨stage, hmaking, hstage⟩
    · cases hidle
    · obtain rfl := (Running.making.inj hmaking).2
      cases cancelled with
      | false => exact absurd rfl hstage
      | true => exact (hsound.settled_of_born call parent).1
  | @found call' token node stack _ _ | @finished call' token node stack _ =>
    cases stack <;> cases (Prod.mk.inj hevent).2
  | _ => cases hevent

theorem traced_of_run (hrun : Steps ForestStep .new tr forest) : Traced tr forest :=
  hrun.history ⟨.new, nofun, nofun⟩ fun _ _ _ _ _ h hstep => h.step (stepped_of_step hstep)

/-! ## Clean runs -/

/-- A step that severs nothing from a cancellation, and overtakes none. -/
structure CleanStep (forest : Forest) (event : Act × Outcome) (forest' : Forest) : Prop where
  step : ForestStep forest event forest'
  cancel : ∀ token, event.1 = .cancel token → Reachable forest token
  drop : ∀ call token stack, forest.running call = .cancelling token stack →
    Unsevered forest event.1 token
  visit : Unhurried forest event.1

/-- What a clean run keeps. -/
structure Clean (tr : List (Act × Outcome)) (forest : Forest) : Prop where
  sound : Sound forest
  orderly : Orderly forest
  reachable : ∀ call token stack, forest.running call = .cancelling token stack →
    Reachable forest token
  returned : ∀ call token, (Act.advance call, Outcome.returned token) ∈ tr →
    forest.Settled token ∧ BelowSettled forest token

theorem Clean.new : Clean [] .new where
  sound := .new
  orderly := ⟨nofun, nofun, nofun⟩
  reachable := nofun
  returned := nofun

theorem Clean.step (h : Clean tr forest) (hclean : CleanStep forest event forest') :
    Clean (tr ++ [event]) forest' := by
  have hstep := stepped_of_step hclean.step
  have hsound := h.sound.step hstep
  have horderly := h.sound.orderly_step h.orderly hstep hclean.visit
  have hreach : ∀ call token stack, forest.running call = .cancelling token stack →
      Reachable forest' token := fun call token stack hrunning =>
    h.sound.reachable_step h.orderly hstep (hclean.drop call token stack hrunning)
      (h.reachable call token stack hrunning)
  refine ⟨hsound, horderly, fun call token stack hrunning => ?_, fun call token hmem => ?_⟩
  · rcases Sound.cancelling_step hstep hrunning with ⟨stack', hbefore⟩ | hact
    · exact hreach call token stack' hbefore
    · refine h.sound.reachable_step h.orderly hstep ?_ (hclean.cancel token hact)
      intro middle hdrop
      rw [hact] at hdrop
      cases hdrop
  · rcases mem_append.mp hmem with hmem | hmem
    · obtain ⟨hsettled, hbelow⟩ := h.returned call token hmem
      refine ⟨h.sound.settled_step hstep hsettled, ?_⟩
      exact h.sound.belowSettled_step h.orderly hstep (fun _ _ _ => hsettled) hbelow
    · obtain rfl := mem_singleton.mp hmem
      obtain ⟨hsettled, call', stack, hbefore⟩ :=
        h.sound.settled_of_returned h.orderly hstep hclean.visit rfl
      exact ⟨hsettled,
        hsound.belowSettled_of_reachable horderly hsettled (hreach call' token stack hbefore)⟩

/-- Once `cancel` has returned, what is held from its token down is cancelled, in a run of clean
steps. In every run a token is cancelled from its own or an ancestor's `cancel` only, and the child
of a cancelled token is born cancelled. -/
theorem cancel_reaches_descendants {tr : List (Act × Outcome)} {forest : Forest}
    (hrun : Steps ForestStep .new tr forest) :
    (Steps CleanStep .new tr forest →
      ∀ call token, (Act.advance call, Outcome.returned token) ∈ tr →
      ∀ node, node = token ∨ Below forest.parent token node → 0 < forest.handles node →
        forest.cancelled node = true) ∧
    (∀ node, forest.cancelled node = true →
      ∃ token, (∃ outcome, (Act.cancel token, outcome) ∈ tr) ∧
        (node = token ∨ Below forest.parent token node)) ∧
    ∀ before start later call parent child,
      Steps ForestStep .new before start → start.cancelled parent = true →
      Steps ForestStep start ((Act.child parent, Outcome.began call) :: later) forest →
      (Act.advance call, Outcome.born parent child) ∈ later → forest.cancelled child = true := by
  refine ⟨fun hclean call token hreturned node hnode hheld => ?_, (traced_of_run hrun).flags, ?_⟩
  · have hkept : Clean tr forest :=
      hclean.history .new fun _ _ _ _ _ h hstep => h.step hstep
    obtain ⟨hsettled, hbelow⟩ := hkept.returned call token hreturned
    rcases hnode with rfl | hnode
    · exact hsettled.1
    · exact (hbelow node hnode (hkept.sound.alive_iff.mpr (.inl hheld))).1
  · intro before start later call parent child hbefore hset hlater hborn
    have hlater' : Steps ForestStep start ([] ++ (.child parent, .began call) :: later) forest :=
      hlater
    obtain ⟨_, begun, hnil, hchild, hrest⟩ := hlater'.split_cons
    obtain rfl := hnil.nil_inv
    have hsound := (traced_of_run hbefore).sound
    have hwarned := Warned.of_child hset (stepped_of_step hchild)
    have hkept : ∀ {tr : List (Act × Outcome)} {now : Forest}, Steps ForestStep begun tr now →
        Sound now ∧ Warned now call parent := fun hrun =>
      hrun.invariant (P := fun now => Sound now ∧ Warned now call parent) (fun _ _ _ h hstep =>
        ⟨h.1.step (stepped_of_step hstep), h.2.step h.1 (stepped_of_step hstep)⟩)
        ⟨hsound.step (stepped_of_step hchild), hwarned⟩
    obtain ⟨earlier, after, rfl⟩ := append_of_mem hborn
    obtain ⟨now, next, hearlier, hstep, hafter⟩ := hrest.split_cons
    obtain ⟨hsound', hwarned'⟩ := hkept hearlier
    have hcancelled := hwarned'.born hsound' (stepped_of_step hstep)
    exact (hafter.invariant (P := fun now => Sound now ∧ now.cancelled child = true)
      (fun _ _ _ h hstep => ⟨h.1.step (stepped_of_step hstep),
      (h.1.grows (stepped_of_step hstep)).cancelled child h.2⟩)
      ⟨hsound'.step (stepped_of_step hstep), hcancelled⟩).2

theorem CleanStep.of_act (act : Act) {outcome : Outcome}
    (hstep : forest.step act = some (outcome, forest'))
    (hact : ∀ token, act ≠ .cancel token ∧ act ≠ .drop token) (hvisit : Unhurried forest act) :
    CleanStep forest (act, outcome) forest' :=
  ⟨hstep, fun token h => absurd h (hact token).1, fun _ _ _ _ middle h => absurd h (hact middle).2,
    hvisit⟩

theorem CleanStep.of_cancel (token : Nat) (hheld : 0 < forest.handles token)
    (halive : ∀ node parent, forest.parent node = some parent → forest.alive node = true) :
    CleanStep forest (.cancel token, .began forest.calls)
      (forest.begin (.cancelling token [⟨token, .swapping⟩])) := by
  refine ⟨if_pos hheld, fun token' _ middle hmiddle hdead _ => ?_, fun _ _ _ _ => nofun, nofun⟩
  have hborn : ∃ parent, forest.parent middle = some parent := by
    cases hmiddle with
    | child hparent | step _ hparent => exact ⟨_, hparent⟩
  obtain ⟨parent, hparent⟩ := hborn
  rw [halive middle parent hparent] at hdead
  cases hdead

/-- A call goes on, and comes upon no flag that is set. -/
theorem CleanStep.of_advance (call : Nat) {running : Running}
    {outcome : Outcome} (hstep : forest.step (.advance call) = some (outcome, forest'))
    (hrunning : forest.running call = running)
    (hclear : ∀ token node stack, running = .cancelling token (⟨node, .swapping⟩ :: stack) →
      forest.cancelled node = false) : CleanStep forest (.advance call, outcome) forest' := by
  refine .of_act _ hstep (fun _ => ⟨nofun, nofun⟩) fun call' token node stack hact hbefore hset => ?_
  obtain rfl := Act.advance.inj hact
  rw [hclear token node stack (hrunning.symm.trans hbefore)] at hset
  cases hset

/-- A token and its child, the first of which is cancelled. -/
theorem child_cancelled :
    ∃ tr forest, Steps CleanStep .new tr forest ∧ Below forest.parent 0 1 ∧
      0 < forest.handles 1 ∧ (Act.advance 1, Outcome.returned 0) ∈ tr ∧
      forest.cancelled 1 = true := by
  have hnew := (Steps.nil : Steps CleanStep .new [] .new).snoc
    (.of_act .new rfl (fun _ => ⟨nofun, nofun⟩) nofun)
  have hchild := hnew.snoc (.of_act (.child 0) rfl (fun _ => ⟨nofun, nofun⟩) nofun)
  have hlocked := hchild.snoc (.of_advance 0 rfl rfl nofun)
  have hloaded := hlocked.snoc (.of_advance 0 rfl rfl nofun)
  have hborn := hloaded.snoc (.of_advance 0 rfl rfl nofun)
  have hcancel := hborn.snoc (.of_cancel 0 Nat.zero_lt_one fun node parent hparent => by
    have hparent' : Function.update (fun _ => none) 1 (some 0) node = some parent := hparent
    rw [Function.update_apply] at hparent'
    split at hparent'
    next heq =>
      subst heq
      rfl
    · cases hparent')
  have hswapped := hcancel.snoc (.of_advance 1 rfl rfl fun _ _ _ h => by cases h; rfl)
  have htook := hswapped.snoc (.of_advance 1 rfl rfl nofun)
  have hentered := htook.snoc (.of_advance 1 rfl rfl nofun)
  have hswapped' := hentered.snoc (.of_advance 1 rfl rfl fun _ _ _ h => by cases h; rfl)
  have htook' := hswapped'.snoc (.of_advance 1 rfl rfl nofun)
  have hleft := htook'.snoc (.of_advance 1 rfl rfl nofun)
  have hreturned := hleft.snoc (.of_advance 1 rfl rfl nofun)
  refine ⟨_, _, hreturned, .child rfl, Nat.zero_lt_one, by simp, ?_⟩
  exact (cancel_reaches_descendants (hreturned.imp fun _ _ _ h => h.step)).1 hreturned 1 0
    (by simp) 1 (.inr (.child rfl)) Nat.zero_lt_one

/-- The token in the middle is dropped: the one below it is not cancelled with the root. -/
theorem grandchild_missed :
    ¬ ∀ tr forest, Steps ForestStep .new tr forest →
      ∀ call token, (Act.advance call, Outcome.returned token) ∈ tr →
      ∀ node, node = token ∨ Below forest.parent token node → 0 < forest.handles node →
        forest.cancelled node = true := by
  intro h
  have hadvance : ∀ {forest forest' : Forest} (act : Act) {outcome : Outcome},
      forest.step act = some (outcome, forest') → ForestStep forest (act, outcome) forest' :=
    fun _ _ h => h
  have hroot := (Steps.nil : Steps ForestStep .new [] .new).snoc (hadvance .new rfl)
  have hchild := hroot.snoc (hadvance (.child 0) rfl)
  have hlocked := hchild.snoc (hadvance (.advance 0) rfl)
  have hloaded := hlocked.snoc (hadvance (.advance 0) rfl)
  have hmiddle := hloaded.snoc (hadvance (.advance 0) rfl)
  have hchild' := hmiddle.snoc (hadvance (.child 1) rfl)
  have hlocked' := hchild'.snoc (hadvance (.advance 1) rfl)
  have hloaded' := hlocked'.snoc (hadvance (.advance 1) rfl)
  have hleaf := hloaded'.snoc (hadvance (.advance 1) rfl)
  have hdropped := hleaf.snoc (hadvance (.drop 1) rfl)
  have hcancel := hdropped.snoc (hadvance (.cancel 0) rfl)
  have hswapped := hcancel.snoc (hadvance (.advance 2) rfl)
  have htook := hswapped.snoc (hadvance (.advance 2) rfl)
  have hskipped := htook.snoc (hadvance (.advance 2) rfl)
  have hreturned := hskipped.snoc (hadvance (.advance 2) rfl)
  have hset := h _ _ hreturned 2 0 (by simp) 2 (.inr (.step (.child rfl) rfl)) Nat.zero_lt_one
  cases hset

end Oxyn.Cancel
