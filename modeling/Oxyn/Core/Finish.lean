/-
# `Oxyn.Core.Finish` — every call comes to its end

What is left to do is counted in steps: `left` of a visit, of a call and of the forest.
-/
import Mathlib.Algebra.BigOperators.Group.Finset.Basic
import Mathlib.Algebra.GroupWithZero.Nat
import Oxyn.Core.Descend

open Runs

namespace Oxyn.Cancel

open List

/-! ## What is left to do -/

def Visit.left : Visit → Nat
  | .swapping => 1
  | .taking => 2
  | .visiting rest => 1 + 2 * rest.length

def stackLeft : List Frame → Nat
  | [] => 0
  | frame :: stack => frame.visit.left + stackLeft stack

def Running.left : Running → Nat
  | .idle => 0
  | .cancelling _ stack => stackLeft stack
  | .making _ .locking => 7
  | .making _ .loading => 6
  | .making _ (.storing _) => 5

/-- The visit that may still set the flag of a state, and those of its children. -/
def Forest.nodeLeft (forest : Forest) (node : Nat) : Nat :=
  2 * ((!forest.cancelled node).toNat + (forest.children node).length)

def Forest.left (forest : Forest) : Nat :=
  (Finset.range forest.calls).sum (fun call => (forest.running call).left) +
    (Finset.range forest.size).sum forest.nodeLeft

/-- The steps that an act brings. -/
def Act.work : Act → Nat
  | .new => 2
  | .cancel _ => 1
  | .child _ => 7
  | _ => 0

/-- The steps of calls that an act is. -/
def Act.taken : Act → Nat
  | .advance _ => 1
  | _ => 0

theorem sum_change {f g : Nat → Nat} {n a : Nat} (ha : a < n) (h : ∀ i, i ≠ a → g i = f i) :
    (Finset.range n).sum g + f a = (Finset.range n).sum f + g a := by
  have hsum (f : Nat → Nat) :
      f a + ((Finset.range n).erase a).sum f = (Finset.range n).sum f :=
    Finset.add_sum_erase _ f (Finset.mem_range.mpr ha)
  have hrest : ((Finset.range n).erase a).sum g = ((Finset.range n).erase a).sum f :=
    Finset.sum_congr rfl fun i hi => h i (Finset.ne_of_mem_erase hi)
  rw [← hsum f, ← hsum g, hrest]
  omega

variable {forest forest' : Forest} {tr : List (Act × Outcome)} {event : Act × Outcome}

theorem left_resume (token : Nat) (stack : List Frame) :
    (Running.resume token stack).left = stackLeft stack := by
  cases stack with
  | _ => rfl

variable {call : Nat}

theorem left_run {running : Running} (hrunning : forest.running call = running)
    (hcall : call < forest.calls) (next : Running) :
    (forest.run call next).left + running.left = forest.left + next.left := by
  have := sum_change (f := fun call => (forest.running call).left)
    (g := fun call' => ((forest.run call next).running call').left) hcall
    fun call' h => by rw [Forest.running_run, if_neg h]
  rw [Forest.running_run, if_pos rfl, hrunning] at this
  change (Finset.range forest.calls).sum _ + (Finset.range forest.size).sum forest.nodeLeft + _ =
    (Finset.range forest.calls).sum _ + (Finset.range forest.size).sum forest.nodeLeft + _
  omega

theorem left_begin (running : Running) :
    (forest.begin running).left = forest.left + running.left := by
  have hrest : ∀ call ∈ Finset.range forest.calls,
      ((forest.begin running).running call).left = (forest.running call).left := by
    intro call hcall
    rw [Forest.running_begin, if_neg (Finset.mem_range.mp hcall).ne]
  change (Finset.range (forest.calls + 1)).sum _ + (Finset.range forest.size).sum forest.nodeLeft =
    (Finset.range forest.calls).sum _ + (Finset.range forest.size).sum forest.nodeLeft + _
  rw [Finset.sum_range_succ, Finset.sum_congr rfl hrest, Forest.running_begin, if_pos rfl]
  omega

variable {node : Nat}

theorem left_change (forest' : Forest) (hnode : node < forest.size)
    (hsize : forest'.size = forest.size)
    (hcalls : forest'.calls = forest.calls) (hrunning : forest'.running = forest.running)
    (h : ∀ i, i ≠ node → forest'.nodeLeft i = forest.nodeLeft i) :
    forest'.left + forest.nodeLeft node = forest.left + forest'.nodeLeft node := by
  have := sum_change hnode h
  unfold Forest.left
  rw [hsize, hcalls, hrunning]
  omega

theorem left_setCancelled (hnode : node < forest.size)
    (hclear : forest.cancelled node = false) :
    (forest.setCancelled node).left + 2 = forest.left := by
  have := left_change (forest.setCancelled node) hnode rfl rfl rfl
    fun i h => by simp [Forest.nodeLeft, Forest.setCancelled, h]
  simp [Forest.nodeLeft, Forest.setCancelled, hclear] at this ⊢
  omega

theorem left_setChildren (hnode : node < forest.size) (children : List Nat) :
    (forest.setChildren node children).left + 2 * (forest.children node).length =
      forest.left + 2 * children.length := by
  have := left_change (forest.setChildren node children) hnode rfl rfl rfl
    fun i h => by simp [Forest.nodeLeft, Forest.setChildren, h]
  simp [Forest.nodeLeft, Forest.setChildren] at this ⊢
  omega

theorem Sound.lt_calls (h : Sound forest) {running : Running}
    (hrunning : forest.running call = running) (hne : running ≠ .idle) : call < forest.calls := by
  by_contra hge
  exact hne (hrunning.symm.trans (h.idle call (Nat.le_of_not_lt hge)))

theorem Sound.lt_size (h : Sound forest)
    (hnode : 0 < forest.handles node ∨ ∃ parent, forest.parent node = some parent) :
    node < forest.size := by
  by_contra hge
  obtain ⟨hparent, -, -, hhandles⟩ := h.fresh node (Nat.le_of_not_lt hge)
  rcases hnode with hheld | ⟨parent, hborn⟩
  · exact hheld.ne' hhandles
  · cases hparent.symm.trans hborn

theorem Sound.visited_lt (h : Sound forest) {call token : Nat} {frame : Frame}
    {stack : List Frame} (hrunning : forest.running call = .cancelling token (frame :: stack)) :
    frame.node < forest.size := by
  have hok := h.running call
  rw [hrunning] at hok
  rcases below_of_stack hok.2 frame mem_cons_self with heq | hbelow
  · exact h.lt_size (.inl (heq ▸ hok.1))
  · cases hbelow with
    | child hparent | step _ hparent => exact h.lt_size (.inr ⟨_, hparent⟩)

theorem Sound.making_lt (h : Sound forest) {call parent : Nat} {stage : Making}
    (hrunning : forest.running call = .making parent stage) : parent < forest.size := by
  have hok := h.running call
  rw [hrunning] at hok
  exact h.lt_size (.inl hok.1)

theorem left_advance (work : Forest) {running next : Running}
    (hrunning : work.running call = running) (hcall : call < work.calls)
    (h : work.left + next.left < forest.left + running.left) :
    (work.run call next).left + 1 ≤ forest.left := by
  have := left_run hrunning hcall next
  omega

def Forest.grown (forest : Forest) : Forest := { forest with size := forest.size + 1 }

theorem left_grown (hsound : Sound forest) : forest.grown.left = forest.left + 2 := by
  obtain ⟨-, hclear, hchildren, -⟩ := hsound.fresh forest.size (Nat.le_refl _)
  change _ + (Finset.range (forest.size + 1)).sum forest.nodeLeft = _
  rw [Finset.sum_range_succ, Forest.nodeLeft, hclear, hchildren]
  rfl

theorem left_step (hsound : Sound forest) (hstep : Stepped forest event forest') :
    forest'.left + event.1.taken ≤ forest.left + event.1.work := by
  have hgrown := left_grown hsound
  cases hstep with
  | new => exact Nat.le_of_eq hgrown
  | clone | drop => exact Nat.le_refl _
  | cancel | child => exact Nat.le_of_eq (left_begin _)
  | found hrunning | finished hrunning =>
    refine left_advance _ hrunning (hsound.lt_calls hrunning nofun) ?_
    rw [left_resume]
    simp [Running.left, stackLeft, Visit.left]
  | swapped hrunning hclear =>
    have := left_setCancelled (hsound.visited_lt hrunning) hclear
    refine left_advance _ hrunning (hsound.lt_calls hrunning nofun) ?_
    simp only [Running.left, stackLeft, Visit.left] at this ⊢
    omega
  | took hrunning =>
    have := left_setChildren (hsound.visited_lt hrunning) []
    refine left_advance _ hrunning (hsound.lt_calls hrunning nofun) ?_
    simp only [Running.left, stackLeft, Visit.left, length_nil] at this ⊢
    omega
  | entered hrunning | skipped hrunning =>
    refine left_advance _ hrunning (hsound.lt_calls hrunning nofun) ?_
    simp only [Running.left, stackLeft, Visit.left, length_cons]
    omega
  | @locked call parent hrunning =>
    have := left_setChildren (hsound.making_lt hrunning)
      ((forest.children parent).filter forest.alive)
    have hpurged := length_filter_le forest.alive (forest.children parent)
    refine left_advance _ hrunning (hsound.lt_calls hrunning nofun) ?_
    simp only [Running.left]
    omega
  | loaded hrunning =>
    exact left_advance _ hrunning (hsound.lt_calls hrunning nofun) (Nat.lt_succ_self _)
  | @bore call parent cancelled hrunning =>
    have hparent := hsound.making_lt hrunning
    have hcall := hsound.lt_calls hrunning nofun
    cases cancelled with
    | true =>
      have := @left_setCancelled forest.grown forest.size (Nat.lt_succ_self _)
        (hsound.fresh _ (Nat.le_refl _)).2.1
      refine left_advance (forest.grown.setCancelled forest.size) hrunning hcall ?_
      simp only [Running.left]
      omega
    | false =>
      have := @left_setChildren forest.grown parent (Nat.lt_succ_of_lt hparent)
        (forest.children parent ++ [forest.size])
      have hlength : (forest.grown.children parent).length = (forest.children parent).length := rfl
      refine left_advance
        (forest.grown.setChildren parent (forest.children parent ++ [forest.size])) hrunning hcall ?_
      simp only [Running.left, length_append, length_singleton] at this ⊢
      omega

/-! ## A step to take -/

/-- A `cancel` under way has a visit left. -/
def Forest.Visits (forest : Forest) : Prop :=
  ∀ call token, forest.running call ≠ .cancelling token []

theorem resume_ne (token token' : Nat) (stack : List Frame) :
    Running.resume token stack ≠ .cancelling token' [] := by
  cases stack with
  | _ => nofun

theorem Forest.Visits.step (h : forest.Visits) (hstep : Stepped forest event forest') :
    forest'.Visits := by
  intro call token
  cases hstep with
  | new | clone | drop => exact h call token
  | cancel | child =>
    rw [Forest.running_begin]
    split
    · intro hsame
      cases hsame
    · exact h call token
  | found | finished =>
    rw [Forest.leave, Forest.running_run]
    split
    · exact resume_ne _ _ _
    · exact h call token
  | bore =>
    rw [Forest.running_bear, Function.update_apply]
    split
    · intro hsame
      cases hsame
    · exact h call token
  | _ =>
    rw [Forest.running_run]
    split
    · intro hsame
      cases hsame
    · exact h call token

theorem advance_of_locked (h : forest.locked node = true) :
    ∃ call, (forest.step (.advance call)).isSome := by
  obtain ⟨call, -, hlocks⟩ := any_eq_true.mp h
  refine ⟨call, ?_⟩
  rw [Forest.step]
  generalize forest.running call = running at hlocks
  cases running with
  | idle | cancelling => cases hlocks
  | making parent stage =>
    cases stage with
    | locking => cases hlocks
    | loading | storing => rfl

theorem advance_of_running (hvisits : forest.Visits)
    (h : forest.running call ≠ .idle) : ∃ call, (forest.step (.advance call)).isSome := by
  have hwaits : ∀ {node : Nat} {after : Option (Outcome × Forest)}, after.isSome →
      forest.step (.advance call) = (if forest.locked node then none else after) →
      ∃ call, (forest.step (.advance call)).isSome := by
    intro node after hafter hstep
    by_cases hlocked : forest.locked node = true
    · exact advance_of_locked hlocked
    · exact ⟨call, by rwa [hstep, if_neg hlocked]⟩
  cases hrunning : forest.running call with
  | idle => exact absurd hrunning h
  | making parent stage =>
    cases stage with
    | locking => exact hwaits rfl (by rw [Forest.step, hrunning]; rfl)
    | loading | storing => exact ⟨call, by rw [Forest.step, hrunning]; rfl⟩
  | cancelling token stack =>
    cases stack with
    | nil => exact absurd hrunning (hvisits call token)
    | cons frame stack =>
      obtain ⟨node, visit⟩ := frame
      cases visit with
      | taking => exact hwaits rfl (by rw [Forest.step, hrunning]; rfl)
      | swapping =>
        refine ⟨call, ?_⟩
        rw [Forest.step, hrunning]
        change (if forest.cancelled node then _ else _ : Option (Outcome × Forest)).isSome = true
        split <;> rfl
      | visiting rest =>
        refine ⟨call, ?_⟩
        rw [Forest.step, hrunning]
        cases rest with
        | nil => rfl
        | cons weak rest =>
          change (if forest.alive weak then _ else _ : Option (Outcome × Forest)).isSome = true
          split <;> rfl

/-- The calls of `cancel` and `child` take, all together, no more steps than the tokens and calls of
the run have brought, and as long as one is under way, one of them can take a step. -/
theorem calls_end (hrun : Steps ForestStep .new tr forest) :
    (tr.map (·.1.taken)).sum ≤ (tr.map (·.1.work)).sum ∧
      ((∀ call, forest.step (.advance call) = none) → ∀ call, forest.running call = .idle) := by
  obtain ⟨-, hvisits, hleft⟩ := hrun.history
    (P := fun tr forest => Sound forest ∧ forest.Visits ∧
      forest.left + (tr.map (·.1.taken)).sum ≤ (tr.map (·.1.work)).sum)
    ⟨.new, nofun, Nat.le_refl 0⟩ fun tr forest event forest' _ h hstep => by
      have hstep := stepped_of_step hstep
      have := left_step h.1 hstep
      refine ⟨h.1.step hstep, h.2.1.step hstep, ?_⟩
      simp only [map_append, map_singleton, sum_append, sum_singleton]
      omega
  refine ⟨by omega, fun hstuck call => ?_⟩
  by_contra hcall
  obtain ⟨call', hsome⟩ := advance_of_running hvisits hcall
  rw [hstuck call'] at hsome
  cases hsome

/-- The call of `child` on a token can take a step. -/
theorem calls_end_of_child : ∃ tr forest, Steps ForestStep .new tr forest ∧
    (tr.map (·.1.work)).sum = 9 ∧ ¬ ∀ call, forest.step (.advance call) = none := by
  have hstep : ∀ {forest forest' : Forest} (act : Act) {outcome : Outcome},
      forest.step act = some (outcome, forest') → ForestStep forest (act, outcome) forest' :=
    fun _ _ h => h
  have hnew : Steps ForestStep .new [] .new := .nil
  have hrun := (hnew.snoc (hstep .new rfl)).snoc (hstep (.child 0) rfl)
  refine ⟨_, _, hrun, rfl, fun h => ?_⟩
  cases (calls_end hrun).2 h 0

end Oxyn.Cancel
