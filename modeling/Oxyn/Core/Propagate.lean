/-
# `Oxyn.Core.Propagate` — a cancellation reaches every descendant

A state is settled once its flag is set and no visit works on it any more.
-/
import Oxyn.Core.Cancel

open Runs

namespace Oxyn.Cancel

open Function (update update_apply)

open List

/-! ## What a step does -/

inductive Stepped (forest : Forest) : Act × Outcome → Forest → Prop
  | new : Stepped forest (.new, .created forest.size)
      { forest.setHandles forest.size 1 with size := forest.size + 1 }
  | clone {token : Nat} : 0 < forest.handles token →
      Stepped forest (.clone token, .done)
        (forest.setHandles token (forest.handles token + 1))
  | drop {token : Nat} : 0 < forest.handles token →
      (forest.borrowed token = true → 1 < forest.handles token) →
      Stepped forest (.drop token, .done)
        (forest.setHandles token (forest.handles token - 1))
  | cancel {token : Nat} : 0 < forest.handles token →
      Stepped forest (.cancel token, .began forest.calls)
        (forest.begin (.cancelling token [⟨token, .swapping⟩]))
  | child {token : Nat} : 0 < forest.handles token →
      Stepped forest (.child token, .began forest.calls) (forest.begin (.making token .locking))
  | found {call token node : Nat} {stack : List Frame} :
      forest.running call = .cancelling token (⟨node, .swapping⟩ :: stack) →
      forest.cancelled node = true →
      Stepped forest (.advance call, (forest.leave call token stack).1)
        (forest.leave call token stack).2
  | swapped {call token node : Nat} {stack : List Frame} :
      forest.running call = .cancelling token (⟨node, .swapping⟩ :: stack) →
      forest.cancelled node = false →
      Stepped forest (.advance call, .working)
        ((forest.setCancelled node).run call (.cancelling token (⟨node, .taking⟩ :: stack)))
  | took {call token node : Nat} {stack : List Frame} :
      forest.running call = .cancelling token (⟨node, .taking⟩ :: stack) →
      forest.locked node = false →
      Stepped forest (.advance call, .working)
        ((forest.setChildren node []).run call
          (.cancelling token (⟨node, .visiting (forest.children node)⟩ :: stack)))
  | finished {call token node : Nat} {stack : List Frame} :
      forest.running call = .cancelling token (⟨node, .visiting []⟩ :: stack) →
      Stepped forest (.advance call, (forest.leave call token stack).1)
        (forest.leave call token stack).2
  | entered {call token node weak : Nat} {rest : List Nat} {stack : List Frame} :
      forest.running call = .cancelling token (⟨node, .visiting (weak :: rest)⟩ :: stack) →
      forest.alive weak = true →
      Stepped forest (.advance call, .working) (forest.run call
        (.cancelling token (⟨weak, .swapping⟩ :: ⟨node, .visiting rest⟩ :: stack)))
  | skipped {call token node weak : Nat} {rest : List Nat} {stack : List Frame} :
      forest.running call = .cancelling token (⟨node, .visiting (weak :: rest)⟩ :: stack) →
      forest.alive weak = false →
      Stepped forest (.advance call, .working)
        (forest.run call (.cancelling token (⟨node, .visiting rest⟩ :: stack)))
  | locked {call parent : Nat} : forest.running call = .making parent .locking →
      forest.locked parent = false →
      Stepped forest (.advance call, .working)
        ((forest.setChildren parent ((forest.children parent).filter forest.alive)).run call
          (.making parent .loading))
  | loaded {call parent : Nat} : forest.running call = .making parent .loading →
      Stepped forest (.advance call, .working)
        (forest.run call (.making parent (.storing (forest.cancelled parent))))
  | bore {call parent : Nat} {cancelled : Bool} :
      forest.running call = .making parent (.storing cancelled) →
      Stepped forest (.advance call, (forest.bear call parent cancelled).1)
        (forest.bear call parent cancelled).2

theorem stepped_of_step {forest forest' : Forest} {event : Act × Outcome}
    (h : ForestStep forest event forest') : Stepped forest event forest' := by
  obtain ⟨act, outcome⟩ := event
  unfold ForestStep Forest.step at h
  cases act with
  | new =>
    obtain ⟨rfl, rfl⟩ := Prod.mk.inj (Option.some.inj h)
    exact .new
  | clone token =>
    simp only at h
    split at h
    next hheld =>
      obtain ⟨rfl, rfl⟩ := Prod.mk.inj (Option.some.inj h)
      exact .clone hheld
    · cases h
  | drop token =>
    simp only at h
    split at h
    next hheld =>
      obtain ⟨rfl, rfl⟩ := Prod.mk.inj (Option.some.inj h)
      exact .drop hheld.1 hheld.2
    · cases h
  | cancel token =>
    simp only at h
    split at h
    next hheld =>
      obtain ⟨rfl, rfl⟩ := Prod.mk.inj (Option.some.inj h)
      exact .cancel hheld
    · cases h
  | child token =>
    simp only at h
    split at h
    next hheld =>
      obtain ⟨rfl, rfl⟩ := Prod.mk.inj (Option.some.inj h)
      exact .child hheld
    · cases h
  | advance call =>
    simp only at h
    split at h
    · cases h
    · cases h
    next token frame stack hrunning =>
      obtain ⟨node, visit⟩ := frame
      unfold Forest.visit at h
      cases visit with
      | swapping =>
        simp only at h
        split at h
        next hset =>
          obtain ⟨rfl, rfl⟩ := Prod.mk.inj (Option.some.inj h)
          exact .found hrunning hset
        next hset =>
          obtain ⟨rfl, rfl⟩ := Prod.mk.inj (Option.some.inj h)
          exact .swapped hrunning (eq_false_of_ne_true hset)
      | taking =>
        simp only at h
        split at h
        · cases h
        next hfree =>
          obtain ⟨rfl, rfl⟩ := Prod.mk.inj (Option.some.inj h)
          exact .took hrunning (eq_false_of_ne_true hfree)
      | visiting rest =>
        cases rest with
        | nil =>
          obtain ⟨rfl, rfl⟩ := Prod.mk.inj (Option.some.inj h)
          exact .finished hrunning
        | cons weak rest =>
          simp only at h
          split at h
          next halive =>
            obtain ⟨rfl, rfl⟩ := Prod.mk.inj (Option.some.inj h)
            exact .entered hrunning halive
          next halive =>
            obtain ⟨rfl, rfl⟩ := Prod.mk.inj (Option.some.inj h)
            exact .skipped hrunning (eq_false_of_ne_true halive)
    next parent making hrunning =>
      unfold Forest.make at h
      cases making with
      | locking =>
        simp only at h
        split at h
        · cases h
        next hfree =>
          obtain ⟨rfl, rfl⟩ := Prod.mk.inj (Option.some.inj h)
          exact .locked hrunning (eq_false_of_ne_true hfree)
      | loading =>
        obtain ⟨rfl, rfl⟩ := Prod.mk.inj (Option.some.inj h)
        exact .loaded hrunning
      | storing cancelled =>
        obtain ⟨rfl, rfl⟩ := Prod.mk.inj (Option.some.inj h)
        exact .bore hrunning

/-! ## Calls under way -/

namespace Running

/-- Some visit of the call works on a state: it has set its flag, and is not over. -/
def Works (node : Nat) : Running → Prop
  | .cancelling _ stack => ∃ frame ∈ stack, frame.node = node ∧ frame.visit ≠ .swapping
  | _ => False

end Running

/-- A child is still to be visited, or is being visited: `above` is the state of the visit the first
one has entered. -/
def PendsIn (children : List Nat) (node child : Nat) : Option Nat → List Frame → Prop
  | _, [] => False
  | above, frame :: stack =>
    (frame.node = node ∧ match frame.visit with
      | .swapping => False
      | .taking => child ∈ children
      | .visiting rest => child ∈ rest ∨ above = some child) ∨
    PendsIn children node child (some frame.node) stack

namespace Running

def Pends (children : List Nat) (node child : Nat) : Running → Prop
  | .cancelling _ stack => PendsIn children node child none stack
  | _ => False

@[simp] theorem works_resume (node token : Nat) (stack : List Frame) :
    (resume token stack).Works node ↔
      ∃ frame ∈ stack, frame.node = node ∧ frame.visit ≠ .swapping := by
  cases stack <;> simp [resume, Works]

@[simp] theorem holds_resume (node token : Nat) (stack : List Frame) :
    (resume token stack).holds node = stack.any (·.node = node) := by
  cases stack <;> simp [resume, holds]

@[simp] theorem pends_resume (children : List Nat) (node child token : Nat)
    (stack : List Frame) :
    (resume token stack).Pends children node child ↔ PendsIn children node child none stack := by
  cases stack <;> simp [resume, Pends, PendsIn]

variable {node child : Nat}

variable {children : List Nat}

theorem works_of_pendsIn {above : Option Nat}
    {stack : List Frame} (h : PendsIn children node child above stack) :
    ∃ frame ∈ stack, frame.node = node ∧ frame.visit ≠ .swapping := by
  induction stack generalizing above with
  | nil => exact h.elim
  | cons frame stack ih =>
    rcases h with ⟨hnode, hvisit⟩ | h
    · refine ⟨frame, mem_cons_self, hnode, fun hswapping => ?_⟩
      simp [hswapping] at hvisit
    · obtain ⟨frame', hmem, hframe⟩ := ih h
      exact ⟨frame', mem_cons_of_mem _ hmem, hframe⟩

theorem works_of_pends {running : Running}
    (h : running.Pends children node child) : running.Works node := by
  cases running with
  | cancelling token stack => exact works_of_pendsIn h
  | _ => exact h

/-- What is pending below a visit that is over, its own state apart. -/
theorem pendsIn_of_left {node child left : Nat} {stack : List Frame}
    (h : PendsIn children node child (some left) stack) :
    PendsIn children node child none stack ∨ child = left := by
  cases stack with
  | nil => exact h.elim
  | cons frame stack =>
    rcases h with ⟨hnode, hvisit⟩ | h
    · cases hframe : frame.visit with
      | swapping => simp [hframe] at hvisit
      | taking =>
        simp only [hframe] at hvisit
        exact .inl (.inl ⟨hnode, by simpa [hframe] using hvisit⟩)
      | visiting rest =>
        simp only [hframe] at hvisit
        rcases hvisit with hrest | habove
        · exact .inl (.inl ⟨hnode, by simp [hframe, hrest]⟩)
        · exact .inr (Option.some.inj habove).symm
    · exact .inl (.inr h)

theorem pendsIn_mono {children children' : List Nat} {above : Option Nat}
    {stack : List Frame} (hsub : child ∈ children → child ∈ children')
    (h : PendsIn children node child above stack) : PendsIn children' node child above stack := by
  induction stack generalizing above with
  | nil => exact h
  | cons frame stack ih =>
    refine h.imp (fun ⟨hnode, hvisit⟩ => ⟨hnode, ?_⟩) ih
    cases hframe : frame.visit with
    | swapping => simp [hframe] at hvisit
    | taking =>
      simp only [hframe] at hvisit
      exact hsub hvisit
    | visiting rest => simpa [hframe] using hvisit

theorem pends_mono {children children' : List Nat} {running : Running}
    (hsub : child ∈ children → child ∈ children') (h : running.Pends children node child) :
    running.Pends children' node child := by
  cases running with
  | cancelling token stack => exact pendsIn_mono hsub h
  | _ => exact h

end Running

namespace Forest

variable {forest : Forest}

@[simp] theorem running_run (forest : Forest) (call call' : Nat) (running : Running) :
    (forest.run call running).running call' =
      if call' = call then running else forest.running call' := by
  simp [run, update_apply]

@[simp] theorem running_begin (forest : Forest) (call' : Nat) (running : Running) :
    (forest.begin running).running call' =
      if call' = forest.calls then running else forest.running call' := by
  simp [begin, run, update_apply]

section

variable (forest) (call parent : Nat) (cancelled : Bool)

theorem parent_bear : (forest.bear call parent cancelled).2.parent =
    update forest.parent forest.size (some parent) := by
  cases cancelled <;> rfl

theorem cancelled_bear : (forest.bear call parent cancelled).2.cancelled =
    if cancelled then update forest.cancelled forest.size true else forest.cancelled := by
  cases cancelled <;> rfl

theorem children_bear : (forest.bear call parent cancelled).2.children =
    if cancelled then forest.children
    else update forest.children parent (forest.children parent ++ [forest.size]) := by
  cases cancelled <;> rfl

theorem handles_bear : (forest.bear call parent cancelled).2.handles =
    update forest.handles forest.size 1 := by
  cases cancelled <;> rfl

theorem running_bear : (forest.bear call parent cancelled).2.running =
    update forest.running call .idle := by
  cases cancelled <;> rfl

theorem size_bear : (forest.bear call parent cancelled).2.size = forest.size + 1 := by
  cases cancelled <;> rfl

theorem calls_bear : (forest.bear call parent cancelled).2.calls = forest.calls := by
  cases cancelled <;> rfl

end

end Forest

/-! ## What every step keeps -/

structure FrameOk (forest : Forest) (frame : Frame) : Prop where
  flagged : frame.visit ≠ .swapping → forest.cancelled frame.node = true
  rest : ∀ rest, frame.visit = .visiting rest → ∀ child ∈ rest,
    forest.parent child = some frame.node

/-- The visits of a `cancel` go down from its token, one child after the other. -/
def StackOk (forest : Forest) (token : Nat) : List Frame → Prop
  | [] => True
  | frame :: stack =>
    FrameOk forest frame ∧
      (match stack with
        | [] => frame.node = token
        | below :: _ => forest.parent frame.node = some below.node ∧
            ∃ rest, below.visit = .visiting rest) ∧
      StackOk forest token stack

def Running.Ok (forest : Forest) : Running → Prop
  | .idle => True
  | .cancelling token stack => 0 < forest.handles token ∧ StackOk forest token stack
  | .making parent stage => 0 < forest.handles parent ∧
      (stage = .storing true → forest.cancelled parent = true)

structure Sound (forest : Forest) : Prop where
  idle : ∀ call, forest.calls ≤ call → forest.running call = .idle
  fresh : ∀ node, forest.size ≤ node → forest.parent node = none ∧
    forest.cancelled node = false ∧ forest.children node = [] ∧ forest.handles node = 0
  parent_lt : ∀ node parent, forest.parent node = some parent → parent < node
  listed : ∀ parent, ∀ child ∈ forest.children parent, forest.parent child = some parent
  running : ∀ call, (forest.running call).Ok forest

/-- What a step never takes back. -/
structure Grows (forest forest' : Forest) : Prop where
  parent : ∀ node parent, forest.parent node = some parent → forest'.parent node = some parent
  cancelled : ∀ node, forest.cancelled node = true → forest'.cancelled node = true
  handles : ∀ node, 0 < forest.handles node → forest.borrowed node = true →
    0 < forest'.handles node

theorem Grows.of_eq {forest forest' : Forest} (hparent : forest'.parent = forest.parent)
    (hcancelled : forest'.cancelled = forest.cancelled)
    (hhandles : forest'.handles = forest.handles) : Grows forest forest' :=
  ⟨fun _ _ h => hparent ▸ h, fun _ h => hcancelled ▸ h, fun _ h _ => hhandles ▸ h⟩

theorem FrameOk.mono {forest forest' : Forest} (hgrows : Grows forest forest') {frame : Frame}
    (h : FrameOk forest frame) : FrameOk forest' frame :=
  ⟨fun hvisit => hgrows.cancelled _ (h.flagged hvisit),
    fun rest hrest child hchild => hgrows.parent _ _ (h.rest rest hrest child hchild)⟩

theorem StackOk.mono {forest forest' : Forest} (hgrows : Grows forest forest') {token : Nat}
    {stack : List Frame} (h : StackOk forest token stack) : StackOk forest' token stack := by
  induction stack with
  | nil => trivial
  | cons frame stack ih =>
    obtain ⟨hframe, hbelow, hstack⟩ := h
    refine ⟨hframe.mono hgrows, ?_, ih hstack⟩
    cases stack with
    | nil => exact hbelow
    | cons below stack => exact ⟨hgrows.parent _ _ hbelow.1, hbelow.2⟩

/-- The visit of a state goes on, or another takes its place. -/
theorem StackOk.replace {forest : Forest} {token node : Nat} {visit visit' : Visit}
    {stack : List Frame} (h : StackOk forest token (⟨node, visit⟩ :: stack))
    (hframe : FrameOk forest ⟨node, visit'⟩) : StackOk forest token (⟨node, visit'⟩ :: stack) :=
  ⟨hframe, h.2.1, h.2.2⟩

theorem Running.Ok.of_eq {forest forest' : Forest} {running : Running} (h : running.Ok forest)
    (hparent : forest'.parent = forest.parent) (hcancelled : forest'.cancelled = forest.cancelled)
    (hhandles : forest'.handles = forest.handles) : running.Ok forest' := by
  cases running with
  | idle => trivial
  | cancelling token stack => exact ⟨hhandles ▸ h.1, h.2.mono (.of_eq hparent hcancelled hhandles)⟩
  | making parent stage => exact ⟨hhandles ▸ h.1, hcancelled ▸ h.2⟩

theorem FrameOk.swapping (forest : Forest) (node : Nat) : FrameOk forest ⟨node, .swapping⟩ :=
  ⟨fun h => absurd rfl h, fun _ h => by cases h⟩

namespace Sound

variable {forest forest' : Forest} {event : Act × Outcome}

theorem someCall_iff (h : Sound forest) {does : Running → Bool} (hidle : does .idle = false) :
    forest.someCall does = true ↔ ∃ call, does (forest.running call) = true := by
  simp only [Forest.someCall, any_eq_true, mem_range]
  refine ⟨fun ⟨call, _, hdoes⟩ => ⟨call, hdoes⟩, fun ⟨call, hdoes⟩ => ⟨call, ?_, hdoes⟩⟩
  by_contra hle
  rw [h.idle call (Nat.not_lt.mp hle), hidle] at hdoes
  cases hdoes

variable {node : Nat}

theorem alive_iff (h : Sound forest) :
    forest.alive node = true ↔
      0 < forest.handles node ∨ ∃ call, (forest.running call).holds node = true := by
  rw [Forest.alive, Bool.or_eq_true, decide_eq_true_iff, h.someCall_iff rfl]

theorem borrowed_iff (h : Sound forest) :
    forest.borrowed node = true ↔ ∃ call, (forest.running call).borrows node = true :=
  h.someCall_iff rfl

theorem locked_iff (h : Sound forest) :
    forest.locked node = true ↔ ∃ call, (forest.running call).locks node = true :=
  h.someCall_iff rfl

/-- What a call under way is made on is not dropped. -/
theorem held_of_borrows (h : Sound forest) {call node : Nat}
    (hborrows : (forest.running call).borrows node = true) : 0 < forest.handles node := by
  have hok := h.running call
  cases hrunning : forest.running call with
  | idle => simp [hrunning, Running.borrows] at hborrows
  | cancelling token stack | making parent making =>
    rw [hrunning] at hok hborrows
    obtain rfl := of_decide_eq_true hborrows
    exact hok.1

theorem lt_of_held (h : Sound forest) (hheld : 0 < forest.handles node) :
    node < forest.size := by
  by_contra hle
  have := (h.fresh node (Nat.not_lt.mp hle)).2.2.2
  omega

theorem lt_of_parent (h : Sound forest) {node parent : Nat}
    (hparent : forest.parent node = some parent) : node < forest.size := by
  by_contra hle
  have := (h.fresh node (Nat.not_lt.mp hle)).1
  simp [hparent] at this

variable {stack : List Frame}

variable {token : Nat}

theorem node_lt (h : Sound forest)
    (hheld : 0 < forest.handles token) (hstack : StackOk forest token stack) :
    ∀ frame ∈ stack, frame.node < forest.size := by
  induction stack with
  | nil => simp
  | cons frame stack ih =>
    obtain ⟨-, hbelow, hstack⟩ := hstack
    intro frame' hmem
    rcases mem_cons.mp hmem with rfl | hmem
    · cases stack with
      | nil => exact hbelow ▸ h.lt_of_held hheld
      | cons below stack => exact h.lt_of_parent hbelow.1
    · exact ih hstack frame' hmem

theorem grows (h : Sound forest) (hstep : Stepped forest event forest') : Grows forest forest' := by
  cases hstep with
  | new =>
    refine ⟨fun _ _ h => h, fun _ h => h, fun node hheld _ => ?_⟩
    show 0 < update forest.handles forest.size 1 node
    rw [update_apply]
    split <;> omega
  | @clone token hheld =>
    refine ⟨fun _ _ h => h, fun _ h => h, fun node hheld _ => ?_⟩
    show 0 < update forest.handles token (forest.handles token + 1) node
    rw [update_apply]
    split <;> omega
  | @drop token hheld hborrowed =>
    refine ⟨fun _ _ h => h, fun _ h => h, fun node hheld hborrow => ?_⟩
    show 0 < update forest.handles token (forest.handles token - 1) node
    rw [update_apply]
    split
    next heq =>
      have := hborrowed (heq ▸ hborrow)
      omega
    · exact hheld
  | cancel hheld | child hheld | found hrunning hset => exact .of_eq rfl rfl rfl
  | @swapped call token node stack hrunning hset =>
    refine ⟨fun _ _ h => h, fun node' h => ?_, fun _ h _ => h⟩
    show update forest.cancelled node true node' = true
    rw [update_apply, h, ite_self]
  | took hrunning hfree | finished hrunning | entered hrunning halive | skipped hrunning halive
  | locked hrunning hfree | loaded hrunning => exact .of_eq rfl rfl rfl
  | @bore call parent cancelled hrunning =>
    refine ⟨fun node parent' hparent => ?_, fun node hset => ?_, fun node hheld _ => ?_⟩
    · have := h.lt_of_parent hparent
      rw [Forest.parent_bear, update_apply, if_neg (Nat.ne_of_lt this), hparent]
    · rw [Forest.cancelled_bear]
      split
      · rw [update_apply, hset, ite_self]
      · exact hset
    · rw [Forest.handles_bear, update_apply]
      split <;> omega

theorem ok_of_grows (h : Sound forest) (hgrows : Grows forest forest') (call : Nat) :
    (forest.running call).Ok forest' := by
  have hok := h.running call
  have hborrowed : ∀ node, (forest.running call).borrows node = true → 0 < forest'.handles node :=
    fun node hborrows => hgrows.handles node (h.held_of_borrows hborrows)
      (h.borrowed_iff.mpr ⟨call, hborrows⟩)
  cases hrunning : forest.running call with
  | idle => trivial
  | cancelling token stack =>
    rw [hrunning] at hok hborrowed
    exact ⟨hborrowed token (by simp [Running.borrows]), hok.2.mono hgrows⟩
  | making parent stage =>
    rw [hrunning] at hok hborrowed
    exact ⟨hborrowed parent (by simp [Running.borrows]),
      fun hstage => hgrows.cancelled _ (hok.2 hstage)⟩

theorem stack_of_grows (h : Sound forest) (hgrows : Grows forest forest') {call token : Nat}
    (hrunning : forest.running call = .cancelling token stack) :
    0 < forest'.handles token ∧ StackOk forest' token stack := by
  have hok := h.ok_of_grows hgrows call
  rwa [hrunning] at hok

variable {running : Running}

theorem lt_of_running (h : Sound forest) {call : Nat}
    (hrunning : forest.running call = running) (hne : running ≠ .idle) : call < forest.calls := by
  by_contra hle
  exact hne (hrunning ▸ h.idle call (Nat.not_lt.mp hle))

theorem run (h : Sound forest) {call : Nat} (hcall : call < forest.calls)
    (hok : running.Ok forest) : Sound (forest.run call running) := { h with
  idle := by
    intro call' hle
    have hle' : forest.calls ≤ call' := hle
    rw [Forest.running_run, if_neg (by omega)]
    exact h.idle call' hle'
  running := by
    intro call'
    rw [Forest.running_run]
    split
    · exact hok.of_eq rfl rfl rfl
    · exact (h.running call').of_eq rfl rfl rfl }

theorem begin (h : Sound forest) (hok : running.Ok forest) :
    Sound (forest.begin running) := { h with
  idle := by
    intro call' hle
    have hle' : forest.calls + 1 ≤ call' := hle
    rw [Forest.running_begin, if_neg (by omega)]
    exact h.idle call' (by omega)
  running := by
    intro call'
    rw [Forest.running_begin]
    split
    · exact hok.of_eq rfl rfl rfl
    · exact (h.running call').of_eq rfl rfl rfl }

theorem setHandles (h : Sound forest) {node count : Nat} (hnode : node < forest.size)
    (hgrows : Grows forest (forest.setHandles node count)) :
    Sound (forest.setHandles node count) := { h with
  fresh := by
    intro node' hle
    have hle' : forest.size ≤ node' := hle
    obtain ⟨hparent, hcancelled, hchildren, hhandles⟩ := h.fresh node' hle'
    refine ⟨hparent, hcancelled, hchildren, ?_⟩
    show update forest.handles node count node' = 0
    rw [update_apply, if_neg (by omega), hhandles]
  running := h.ok_of_grows hgrows }

theorem setCancelled (h : Sound forest) (hnode : node < forest.size)
    (hgrows : Grows forest (forest.setCancelled node)) :
    Sound (forest.setCancelled node) := { h with
  fresh := by
    intro node' hle
    have hle' : forest.size ≤ node' := hle
    obtain ⟨hparent, hcancelled, hchildren, hhandles⟩ := h.fresh node' hle'
    refine ⟨hparent, ?_, hchildren, hhandles⟩
    show update forest.cancelled node true node' = false
    rw [update_apply, if_neg (by omega), hcancelled]
  running := h.ok_of_grows hgrows }

theorem setChildren (h : Sound forest) {children : List Nat} (hnode : node < forest.size)
    (hlisted : ∀ child ∈ children, forest.parent child = some node) :
    Sound (forest.setChildren node children) := { h with
  fresh := by
    intro node' hle
    have hle' : forest.size ≤ node' := hle
    obtain ⟨hparent, hcancelled, hchildren, hhandles⟩ := h.fresh node' hle'
    refine ⟨hparent, hcancelled, ?_, hhandles⟩
    show update forest.children node children node' = []
    rw [update_apply, if_neg (by omega), hchildren]
  listed := by
    intro parent child hchild
    have hchild' : child ∈ update forest.children node children parent := hchild
    rw [update_apply] at hchild'
    split at hchild'
    next heq => exact heq ▸ hlisted child hchild'
    · exact h.listed parent child hchild'
  running := h.ok_of_grows (.of_eq rfl rfl rfl) }

theorem bear (h : Sound forest) {call parent : Nat} {cancelled : Bool}
    (hrunning : forest.running call = .making parent (.storing cancelled))
    (hgrows : Grows forest (forest.bear call parent cancelled).2) :
    Sound (forest.bear call parent cancelled).2 := by
  have hheld : 0 < forest.handles parent := by
    have hok := h.running call
    rw [hrunning] at hok
    exact hok.1
  have hparent := h.lt_of_held hheld
  refine ⟨fun call' hle => ?_, fun node hle => ?_, fun node parent' hnode => ?_,
    fun parent' child hchild => ?_, fun call' => ?_⟩
  · rw [Forest.calls_bear] at hle
    rw [Forest.running_bear, update_apply]
    split
    · rfl
    · exact h.idle call' hle
  · rw [Forest.size_bear] at hle
    obtain ⟨hnone, hcancelled, hchildren, hhandles⟩ := h.fresh node (by omega)
    have hne : node ≠ forest.size := by omega
    have hne' : node ≠ parent := by omega
    rw [Forest.parent_bear, Forest.cancelled_bear, Forest.children_bear, Forest.handles_bear]
    cases cancelled <;> simp [hne, hne', hnone, hcancelled, hchildren, hhandles]
  · rw [Forest.parent_bear, update_apply] at hnode
    split at hnode
    next heq =>
      obtain rfl := Option.some.inj hnode
      omega
    · exact h.parent_lt node parent' hnode
  · rw [Forest.parent_bear, update_apply]
    have hold : ∀ {parent' child : Nat}, child ∈ forest.children parent' →
        (if child = forest.size then some parent else forest.parent child) = some parent' := by
      intro parent' child hchild
      have hchild' := h.listed parent' child hchild
      rw [if_neg (Nat.ne_of_lt (h.lt_of_parent hchild')), hchild']
    rw [Forest.children_bear] at hchild
    split at hchild
    · exact hold hchild
    · rw [update_apply] at hchild
      split at hchild
      next heq =>
        rcases mem_append.mp hchild with hchild | hchild
        · exact heq ▸ hold hchild
        · rw [if_pos (mem_singleton.mp hchild), heq]
      · exact hold hchild
  · rw [Forest.running_bear, update_apply]
    split
    · trivial
    · exact h.ok_of_grows hgrows call'

theorem resume (h : Sound forest) {call token node : Nat} {visit : Visit}
    (hrunning : forest.running call = .cancelling token (⟨node, visit⟩ :: stack)) :
    Sound (forest.run call (.resume token stack)) := by
  have hok := h.running call
  rw [hrunning] at hok
  refine h.run (h.lt_of_running hrunning nofun) ?_
  cases stack with
  | nil => trivial
  | cons below stack => exact ⟨hok.1, hok.2.2.2⟩

theorem step (h : Sound forest) (hstep : Stepped forest event forest') : Sound forest' := by
  have hgrows := h.grows hstep
  cases hstep with
  | new =>
    refine ⟨h.idle, fun node hle => ?_, h.parent_lt, h.listed, fun call => h.ok_of_grows hgrows call⟩
    have hle' : forest.size + 1 ≤ node := hle
    obtain ⟨hparent, hcancelled, hchildren, hhandles⟩ := h.fresh node (by omega)
    refine ⟨hparent, hcancelled, hchildren, ?_⟩
    show update forest.handles forest.size 1 node = 0
    rw [update_apply, if_neg (by omega), hhandles]
  | clone hheld | drop hheld hborrowed => exact h.setHandles (h.lt_of_held hheld) hgrows
  | cancel hheld => exact h.begin ⟨hheld, .swapping _ _, rfl, trivial⟩
  | child hheld => exact h.begin ⟨hheld, fun h => by cases h⟩
  | found hrunning hset | finished hrunning => exact h.resume hrunning
  | @swapped call token node stack hrunning hset =>
    have hcall := h.lt_of_running hrunning nofun
    have hok := h.running call
    rw [hrunning] at hok
    have hnode := h.node_lt hok.1 hok.2 ⟨node, .swapping⟩ mem_cons_self
    have hgrows' : Grows forest (forest.setCancelled node) :=
      ⟨hgrows.parent, hgrows.cancelled, hgrows.handles⟩
    obtain ⟨hheld, hstack⟩ := h.stack_of_grows hgrows' hrunning
    refine (h.setCancelled hnode hgrows').run hcall ⟨hheld, hstack.replace ⟨fun _ => ?_, ?_⟩⟩
    · exact Function.update_self ..
    · exact fun _ h => by cases h
  | @took call token node stack hrunning hfree =>
    have hcall := h.lt_of_running hrunning nofun
    have hok := h.running call
    rw [hrunning] at hok
    have hnode := h.node_lt hok.1 hok.2 ⟨node, .taking⟩ mem_cons_self
    obtain ⟨hheld, hstack⟩ := h.stack_of_grows
      (.of_eq rfl rfl rfl : Grows forest (forest.setChildren node [])) hrunning
    refine (h.setChildren hnode (by simp)).run hcall ⟨hheld, hstack.replace ⟨fun _ => ?_, ?_⟩⟩
    · exact hstack.1.flagged (by simp)
    · intro rest hrest child hchild
      obtain rfl := Visit.visiting.inj hrest
      exact h.listed node child hchild
  | @entered call token node weak rest stack hrunning halive =>
    have hok := h.running call
    rw [hrunning] at hok
    obtain ⟨hheld, hframe, hbelow, hstack⟩ := hok
    have hweak : forest.parent weak = some node := hframe.rest _ rfl weak mem_cons_self
    refine h.run (h.lt_of_running hrunning nofun)
      ⟨hheld, .swapping _ _, ⟨hweak, rest, rfl⟩, ⟨fun _ => hframe.flagged (by simp), ?_⟩, hbelow, hstack⟩
    intro rest' hrest child hchild
    obtain rfl := Visit.visiting.inj hrest
    exact hframe.rest _ rfl child (mem_cons_of_mem _ hchild)
  | @skipped call token node weak rest stack hrunning halive =>
    have hok := h.running call
    rw [hrunning] at hok
    obtain ⟨hheld, hframe, hbelow, hstack⟩ := hok
    refine h.run (h.lt_of_running hrunning nofun)
      ⟨hheld, ⟨fun _ => hframe.flagged (by simp), ?_⟩, hbelow, hstack⟩
    intro rest' hrest child hchild
    obtain rfl := Visit.visiting.inj hrest
    exact hframe.rest _ rfl child (mem_cons_of_mem _ hchild)
  | @locked call parent hrunning hfree =>
    have hok := h.running call
    rw [hrunning] at hok
    refine (h.setChildren (h.lt_of_held hok.1) ?_).run (h.lt_of_running hrunning nofun)
      ⟨hok.1, fun h => by cases h⟩
    intro child hchild
    exact h.listed parent child (mem_filter.mp hchild).1
  | @loaded call parent hrunning =>
    have hok := h.running call
    rw [hrunning] at hok
    exact h.run (h.lt_of_running hrunning nofun)
      ⟨hok.1, fun hstage => Making.storing.inj hstage⟩
  | bore hrunning => exact h.bear hrunning hgrows

/-! ### Visits at work -/

theorem node_lt_of_stack (h : Sound forest) {frame : Frame}
    (hstack : StackOk forest token (frame :: stack)) : ∀ below ∈ stack, below.node < frame.node := by
  induction stack generalizing frame with
  | nil => simp
  | cons below stack ih =>
    obtain ⟨-, ⟨hparent, -⟩, hstack⟩ := hstack
    have hlt := h.parent_lt _ _ hparent
    intro frame' hmem
    rcases mem_cons.mp hmem with rfl | hmem
    · exact hlt
    · exact Nat.lt_trans (ih hstack frame' hmem) hlt

theorem flagged_of_mem {frame : Frame}
    (hstack : StackOk forest token stack) (hmem : frame ∈ stack) (hvisit : frame.visit ≠ .swapping) :
    forest.cancelled frame.node = true := by
  induction stack with
  | nil => cases hmem
  | cons top stack ih =>
    obtain ⟨hframe, -, hstack⟩ := hstack
    rcases mem_cons.mp hmem with rfl | hmem
    · exact hframe.flagged hvisit
    · exact ih hstack hmem

theorem flagged_of_works (h : Sound forest) {call node : Nat}
    (hworks : (forest.running call).Works node) : forest.cancelled node = true := by
  have hok := h.running call
  cases hrunning : forest.running call with
  | idle | making parent stage => simp [hrunning, Running.Works] at hworks
  | cancelling token stack =>
    rw [hrunning] at hok hworks
    obtain ⟨frame, hmem, rfl, hvisit⟩ := hworks
    exact flagged_of_mem hok.2 hmem hvisit

/-- A visit begins to work where it sets a flag, and nowhere else. -/
theorem works_of_step (hstep : Stepped forest event forest') {call node : Nat}
    (hworks : (forest'.running call).Works node) :
    (forest.running call).Works node ∨
      (forest.cancelled node = false ∧ event.1 = .advance call) := by
  cases hstep with
  | new | clone | drop => exact .inl hworks
  | cancel hheld =>
    rw [Forest.running_begin] at hworks
    split at hworks
    · obtain ⟨frame, hmem, -, hvisit⟩ := hworks
      obtain rfl := mem_singleton.mp hmem
      exact absurd rfl hvisit
    · exact .inl hworks
  | child hheld =>
    rw [Forest.running_begin] at hworks
    split at hworks
    · exact hworks.elim
    · exact .inl hworks
  | @found call' token node' stack hrunning hset | @finished call' token node' stack hrunning =>
    simp only [Forest.leave, Forest.running_run] at hworks
    split at hworks
    next heq =>
      obtain ⟨frame, hmem, hframe⟩ := (Running.works_resume ..).mp hworks
      rw [heq, hrunning]
      exact .inl ⟨frame, mem_cons_of_mem _ hmem, hframe⟩
    · exact .inl hworks
  | @swapped call' token node' stack hrunning hset =>
    rw [Forest.running_run] at hworks
    split at hworks
    next heq =>
      obtain ⟨frame, hmem, hnode, hvisit⟩ := hworks
      rcases mem_cons.mp hmem with rfl | hmem
      · exact .inr ⟨hnode ▸ hset, heq ▸ rfl⟩
      · rw [heq, hrunning]
        exact .inl ⟨frame, mem_cons_of_mem _ hmem, hnode, hvisit⟩
    · exact .inl hworks
  | @took call' token node' stack hrunning hfree =>
    rw [Forest.running_run] at hworks
    split at hworks
    next heq =>
      rw [heq, hrunning]
      obtain ⟨frame, hmem, hnode, hvisit⟩ := hworks
      rcases mem_cons.mp hmem with rfl | hmem
      · exact .inl ⟨_, mem_cons_self, hnode, nofun⟩
      · exact .inl ⟨frame, mem_cons_of_mem _ hmem, hnode, hvisit⟩
    · exact .inl hworks
  | @entered call' token node' weak rest stack hrunning halive =>
    rw [Forest.running_run] at hworks
    split at hworks
    next heq =>
      rw [heq, hrunning]
      obtain ⟨frame, hmem, hnode, hvisit⟩ := hworks
      rcases mem_cons.mp hmem with rfl | hmem
      · exact absurd rfl hvisit
      · rcases mem_cons.mp hmem with rfl | hmem
        · exact .inl ⟨_, mem_cons_self, hnode, nofun⟩
        · exact .inl ⟨frame, mem_cons_of_mem _ hmem, hnode, hvisit⟩
    · exact .inl hworks
  | @skipped call' token node' weak rest stack hrunning halive =>
    rw [Forest.running_run] at hworks
    split at hworks
    next heq =>
      rw [heq, hrunning]
      obtain ⟨frame, hmem, hnode, hvisit⟩ := hworks
      rcases mem_cons.mp hmem with rfl | hmem
      · exact .inl ⟨_, mem_cons_self, hnode, nofun⟩
      · exact .inl ⟨frame, mem_cons_of_mem _ hmem, hnode, hvisit⟩
    · exact .inl hworks
  | locked hrunning hfree | loaded hrunning =>
    rw [Forest.running_run] at hworks
    split at hworks
    · exact hworks.elim
    · exact .inl hworks
  | bore hrunning =>
    rw [Forest.running_bear, update_apply] at hworks
    split at hworks
    · exact hworks.elim
    · exact .inl hworks

/-! ### States that are no longer alive -/

theorem alive_of_holds (h : Sound forest) (hstep : Stepped forest event forest')
    {call node : Nat} (hholds : (forest'.running call).holds node = true) :
    forest.alive node = true := by
  have hold : ∀ call, (forest.running call).holds node = true → forest.alive node = true :=
    fun call hholds => h.alive_iff.mpr (.inr ⟨call, hholds⟩)
  -- A call that moved holds what it held, or what the step says to be alive.
  have hmoved : ∀ {call' : Nat} {running : Running},
      (running.holds node = true → forest.alive node = true) →
      (if call = call' then running else forest.running call).holds node = true →
      forest.alive node = true := by
    intro call' running hrunning hholds
    split at hholds
    · exact hrunning hholds
    · exact hold call hholds
  cases hstep with
  | new | clone | drop => exact hold call hholds
  | cancel hheld =>
    refine hmoved (fun hholds => ?_) (Forest.running_begin .. ▸ hholds)
    simp only [Running.holds, any_cons, any_nil, Bool.or_false, decide_eq_true_eq] at hholds
    exact h.alive_iff.mpr (.inl (hholds ▸ hheld))
  | child hheld => exact hmoved (fun hholds => by cases hholds) (Forest.running_begin .. ▸ hholds)
  | @found call' token' node' stack hrunning hset | @finished call' token' node' stack hrunning =>
    refine hmoved (fun hholds => hold call' ?_) (Forest.running_run .. ▸ hholds)
    rw [Running.holds_resume] at hholds
    rw [hrunning, Running.holds, any_cons, hholds, Bool.or_true]
  | @swapped call' _ _ _ hrunning hset | @took call' _ _ _ hrunning hfree =>
    refine hmoved (fun hholds => hold call' ?_) (Forest.running_run .. ▸ hholds)
    rw [hrunning]
    exact hholds
  | @entered call' _ _ _ _ _ hrunning halive =>
    refine hmoved (fun hholds => ?_) (Forest.running_run .. ▸ hholds)
    rw [Running.holds, any_cons, Bool.or_eq_true, decide_eq_true_eq] at hholds
    rcases hholds with hweak | hholds
    · exact hweak ▸ halive
    · refine hold call' ?_
      rw [hrunning]
      exact hholds
  | @skipped call' _ _ _ _ _ hrunning halive =>
    refine hmoved (fun hholds => hold call' ?_) (Forest.running_run .. ▸ hholds)
    rw [hrunning]
    exact hholds
  | locked hrunning hfree =>
    exact hmoved (fun hholds => by cases hholds) (Forest.running_run .. ▸ hholds)
  | loaded hrunning => exact hmoved (fun hholds => by cases hholds) (Forest.running_run .. ▸ hholds)
  | bore hrunning =>
    rw [Forest.running_bear, update_apply] at hholds
    exact hmoved (fun hholds => by cases hholds) hholds

theorem held_of_step (hstep : Stepped forest event forest')
    (hnode : node < forest.size) (hheld : 0 < forest'.handles node) : 0 < forest.handles node := by
  cases hstep with
  | new =>
    have hheld' : 0 < update forest.handles forest.size 1 node := hheld
    rwa [update_apply, if_neg (Nat.ne_of_lt hnode)] at hheld'
  | @clone token htoken | @drop token htoken =>
    have hheld' : 0 < update forest.handles token _ node := hheld
    rw [update_apply] at hheld'
    split at hheld'
    next heq => exact heq ▸ htoken
    · exact hheld'
  | bore hrunning =>
    rwa [Forest.handles_bear, update_apply, if_neg (Nat.ne_of_lt hnode)] at hheld
  | _ => exact hheld

theorem alive_of_step (h : Sound forest) (hstep : Stepped forest event forest')
    (hnode : node < forest.size) (halive : forest'.alive node = true) : forest.alive node = true := by
  rcases (h.step hstep).alive_iff.mp halive with hheld | ⟨call, hholds⟩
  · exact h.alive_iff.mpr (.inl (held_of_step hstep hnode hheld))
  · exact h.alive_of_holds hstep hholds

theorem dead_step (h : Sound forest) (hstep : Stepped forest event forest')
    (hnode : node < forest.size) (hdead : forest.alive node = false) :
    forest'.alive node = false := by
  refine eq_false_of_ne_true fun halive => ?_
  rw [h.alive_of_step hstep hnode halive] at hdead
  cases hdead

end Sound

end Oxyn.Cancel
