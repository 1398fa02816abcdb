/-
# `Oxyn.Lib.Scan` — computations on a state that may fail, and one that follows another

A scan reads from a state and answers a value or an error; the state is there in both cases.
-/
import Mathlib.Algebra.Order.Ring.Int
import Mathlib.Tactic.Basic

/-- A computation on a state, which may fail. -/
def Scan (σ ε α : Type) : Type := σ → Except ε α × σ

namespace Scan

variable {σ τ ε α β : Type}

def answer (x : Except ε α) : Scan σ ε α := fun s => (x, s)

def andThen (p : Scan σ ε α) (f : α → Scan σ ε β) : Scan σ ε β := fun s =>
  match p s with
  | (.ok a, s') => f a s'
  | (.error e, s') => (.error e, s')

instance : Monad (Scan σ ε) where
  pure a := answer (.ok a)
  bind := andThen

theorem answer_run (x : Except ε α) (s : σ) : answer x s = (x, s) := rfl

variable {f : α → Scan σ ε β} {p : Scan σ ε α}

theorem bind_congr {s s' : σ} (h : p s = p s') :
    (p >>= f) s = (p >>= f) s' := by
  show andThen p f s = andThen p f s'
  unfold andThen
  rw [h]

theorem bind_ok {s s' : σ} {a : α} (h : p s = (.ok a, s')) : (p >>= f) s = f a s' := by
  show andThen p f s = f a s'
  unfold andThen
  rw [h]

theorem bind_error {s s' : σ} {e : ε}
    (h : p s = (.error e, s')) : (p >>= f) s = (.error e, s') := by
  show andThen p f s = (.error e, s')
  unfold andThen
  rw [h]

theorem bind_eq_ok {s s' : σ} {b : β} (h : (p >>= f) s = (.ok b, s')) :
    ∃ a mid, p s = (.ok a, mid) ∧ f a mid = (.ok b, s') := by
  rcases hp : p s with ⟨e | a, mid⟩
  · rw [bind_error hp] at h
    cases h
  · rw [bind_ok hp] at h
    exact ⟨a, mid, rfl, h⟩

/-! ## Where what answers leads -/

/-- What answers leads to a state related to the one before. -/
def Leads (R : σ → σ → Prop) (p : Scan σ ε α) : Prop := ∀ s a s', p s = (.ok a, s') → R s' s

section Leads

variable {R : σ → σ → Prop}

theorem Leads.answer (hrefl : ∀ s, R s s) (x : Except ε α) : Leads R (Scan.answer x) := by
  intro s a s' h
  cases h
  exact hrefl s

theorem Leads.bind (htrans : ∀ {a b c}, R a b → R b c → R a c)
    (hp : Leads R p) (hf : ∀ a, Leads R (f a)) : Leads R (p >>= f) := by
  intro s b s' h
  obtain ⟨a, mid, hfirst, hthen⟩ := bind_eq_ok h
  exact htrans (hf a mid b s' hthen) (hp s a mid hfirst)

end Leads

/-! ## What is left to read -/

/-- What answers leaves no more to read than there was. -/
def Within (size : σ → Nat) (p : Scan σ ε α) : Prop :=
  ∀ s a s', p s = (.ok a, s') → size s' ≤ size s

/-- What answers has read something. -/
def Uses (size : σ → Nat) (p : Scan σ ε α) : Prop :=
  ∀ s a s', p s = (.ok a, s') → size s' < size s

section Size

variable {size : σ → Nat}

theorem Uses.within (h : Uses size p) : Within size p :=
  fun s a s' hp => Nat.le_of_lt (h s a s' hp)

theorem Within.answer (x : Except ε α) : Within size (Scan.answer x) :=
  Leads.answer (R := fun s' s => size s' ≤ size s) (fun _ => Nat.le_refl _) x

theorem Within.bind (hp : Within size p)
    (hf : ∀ a, Within size (f a)) : Within size (p >>= f) :=
  Leads.bind (R := fun s' s => size s' ≤ size s) Nat.le_trans hp hf

theorem Uses.bind (hp : Uses size p)
    (hf : ∀ a, Within size (f a)) : Uses size (p >>= f) := by
  intro s b s' h
  obtain ⟨a, mid, hfirst, hthen⟩ := bind_eq_ok h
  exact Nat.lt_of_le_of_lt (hf a mid b s' hthen) (hp s a mid hfirst)

end Size

/-! ## Loops -/

/-- A turn of a loop leaves it, or goes on from a state that is smaller. -/
def Shrinks (measure : σ → Nat) (turn : α → Scan σ ε (α ⊕ β)) : Prop :=
  ∀ a s a' s', turn a s = (.ok (.inl a'), s') → measure s' < measure s

def loop (measure : σ → Nat) (turn : α → Scan σ ε (α ⊕ β)) (h : Shrinks measure turn) (a : α)
    (s : σ) : Except ε β × σ :=
  match _hturn : turn a s with
  | (.error e, s') => (.error e, s')
  | (.ok (.inr b), s') => (.ok b, s')
  | (.ok (.inl a'), s') => loop measure turn h a' s'
termination_by measure s
decreasing_by exact h a s a' s' _hturn

section Loop

variable {measure : σ → Nat} {turn : α → Scan σ ε (α ⊕ β)} {h : Shrinks measure turn} {a a' : α}
  {s s' : σ}

theorem loop_error {e : ε} (hturn : turn a s = (.error e, s')) :
    loop measure turn h a s = (.error e, s') := by
  rw [loop]
  split
  next heq =>
    cases hturn.symm.trans heq
    rfl
  next heq => cases hturn.symm.trans heq
  next heq => cases hturn.symm.trans heq

theorem loop_leave {b : β} (hturn : turn a s = (.ok (.inr b), s')) :
    loop measure turn h a s = (.ok b, s') := by
  rw [loop]
  split
  next heq => cases hturn.symm.trans heq
  next heq =>
    cases hturn.symm.trans heq
    rfl
  next heq => cases hturn.symm.trans heq

theorem loop_turn (hturn : turn a s = (.ok (.inl a'), s')) :
    loop measure turn h a s = loop measure turn h a' s' := by
  rw [loop]
  split
  next heq => cases hturn.symm.trans heq
  next heq => cases hturn.symm.trans heq
  next heq =>
    cases hturn.symm.trans heq
    rfl

end Loop

theorem Leads.loop {R : σ → σ → Prop} (htrans : ∀ {a b c}, R a b → R b c → R a c)
    {measure : σ → Nat} {turn : α → Scan σ ε (α ⊕ β)} {h : Shrinks measure turn}
    (hturn : ∀ a, Leads R (turn a)) (a : α) : Leads R (Scan.loop measure turn h a) := by
  intro s
  induction hm : measure s using Nat.strongRecOn generalizing a s with
  | ind n ih =>
    intro b s' hrun
    rcases hfirst : turn a s with ⟨e | a' | b', mid⟩
    · rw [loop_error hfirst] at hrun
      cases hrun
    · rw [loop_turn hfirst] at hrun
      have hless := h a s a' mid hfirst
      exact htrans (ih _ (hm ▸ hless) a' mid rfl b s' hrun) (hturn a s _ mid hfirst)
    · rw [loop_leave hfirst] at hrun
      cases hrun
      exact hturn a s _ _ hfirst

theorem Within.loop {size measure : σ → Nat} {turn : α → Scan σ ε (α ⊕ β)}
    {h : Shrinks measure turn} (hturn : ∀ a, Within size (turn a)) (a : α) :
    Within size (Scan.loop measure turn h a) :=
  Leads.loop (R := fun s' s => size s' ≤ size s) Nat.le_trans hturn a

theorem Uses.loop {size : σ → Nat} {turn : α → Scan σ ε (α ⊕ β)} {h : Shrinks size turn}
    (hturn : ∀ a, Uses size (turn a)) (a : α) : Uses size (Scan.loop size turn h a) :=
  Leads.loop (R := fun s' s => size s' < size s) Nat.lt_trans hturn a

/-! ## One scan follows another -/

/-- What is watched while a scan follows another: the related states, what holds where the second
one ends in the same error, the errors only the first may end in, and the second one's note. -/
structure Watch (σ τ ε : Type) where
  related : σ → τ → Prop
  failed : τ → Prop
  bad : ε → Prop
  noted : τ → Prop

section Follows

/-- The same answer, and related states behind a value; or an error of a kind, which the second
has noted. -/
def Tracks (w : Watch σ τ ε) (x : Except ε α × σ) (y : Except ε α × τ) : Prop :=
  (x.1 = y.1 ∧ (∀ a, x.1 = .ok a → w.related x.2 y.2) ∧ ∀ e, x.1 = .error e → w.failed y.2) ∨
    ((∃ e, x.1 = .error e ∧ w.bad e) ∧ w.noted y.2)

structure Shadows (w : Watch σ τ ε) (p : Scan σ ε α) (q : Scan τ ε α) : Prop where
  follows : ∀ s t, w.related s t → Tracks w (p s) (q t)
  keeps : ∀ t, w.noted t → w.noted (q t).2

variable {w : Watch σ τ ε}

theorem Shadows.answer (x : Except ε α) (h : ∀ s t, w.related s t → w.failed t) :
    Shadows w (Scan.answer x) (Scan.answer x) where
  follows s t hst := .inl ⟨rfl, fun _ _ => hst, fun _ _ => h s t hst⟩
  keeps _ ht := ht

theorem Shadows.pure (a : α) : Shadows w (Pure.pure a : Scan σ ε α) (Pure.pure a) where
  follows _ _ hst := .inl ⟨rfl, fun _ _ => hst, nofun⟩
  keeps _ ht := ht

theorem Shadows.bind {q : Scan τ ε α}
    {g : α → Scan τ ε β} (hp : Shadows w p q) (hf : ∀ a, Shadows w (f a) (g a)) :
    Shadows w (p >>= f) (q >>= g) where
  follows s t hst := by
    rcases hps : p s with ⟨x, s'⟩
    rcases hqt : q t with ⟨y, t'⟩
    have hfirst := hp.follows s t hst
    rw [hps, hqt] at hfirst
    rcases hfirst with ⟨rfl, hst', hfailed⟩ | ⟨⟨e, rfl, hbad⟩, hnoted⟩
    · cases x with
      | error e =>
        rw [bind_error hps, bind_error hqt]
        exact .inl ⟨rfl, nofun, fun _ _ => hfailed e rfl⟩
      | ok a =>
        rw [bind_ok hps, bind_ok hqt]
        exact (hf a).follows s' t' (hst' a rfl)
    · rw [bind_error hps]
      refine .inr ⟨⟨e, rfl, hbad⟩, ?_⟩
      cases y with
      | error e' =>
        rw [bind_error hqt]
        exact hnoted
      | ok a =>
        rw [bind_ok hqt]
        exact (hf a).keeps t' hnoted
  keeps t ht := by
    rcases hqt : q t with ⟨y, t'⟩
    have hnoted := hp.keeps t ht
    rw [hqt] at hnoted
    cases y with
    | error e =>
      rw [bind_error hqt]
      exact hnoted
    | ok a =>
      rw [bind_ok hqt]
      exact (hf a).keeps t' hnoted

section Loop

variable {measure : σ → Nat} {measure' : τ → Nat} {turn : α → Scan σ ε (α ⊕ β)}
  {turn' : α → Scan τ ε (α ⊕ β)} {h : Shrinks measure turn} {h' : Shrinks measure' turn'}

theorem loop_keeps (hturn : ∀ a t, w.noted t → w.noted (turn' a t).2) (a : α) (t : τ)
    (ht : w.noted t) : w.noted (loop measure' turn' h' a t).2 := by
  induction hm : measure' t using Nat.strongRecOn generalizing a t with
  | ind n ih =>
    have hnoted := hturn a t ht
    rcases hrun : turn' a t with ⟨e | a' | b, t'⟩
    all_goals rw [hrun] at hnoted
    · rw [loop_error hrun]
      exact hnoted
    · rw [loop_turn hrun]
      exact ih _ (hm ▸ h' a t a' t' hrun) a' t' hnoted rfl
    · rw [loop_leave hrun]
      exact hnoted

theorem loop_follows (hturn : ∀ a, Shadows w (turn a) (turn' a)) (a : α) (s : σ) (t : τ)
    (hst : w.related s t) :
    Tracks w (loop measure turn h a s) (loop measure' turn' h' a t) := by
  induction hm : measure s using Nat.strongRecOn generalizing a s t with
  | ind n ih =>
    have hfirst := (hturn a).follows s t hst
    rcases hp : turn a s with ⟨x, s'⟩
    rcases hq : turn' a t with ⟨y, t'⟩
    rw [hp, hq] at hfirst
    rcases hfirst with ⟨rfl, hst', hfailed⟩ | ⟨⟨e, rfl, hbad⟩, hnoted⟩
    · match x with
      | .error e =>
        rw [loop_error hp, loop_error hq]
        exact .inl ⟨rfl, nofun, fun _ _ => hfailed e rfl⟩
      | .ok (.inr b) =>
        rw [loop_leave hp, loop_leave hq]
        exact .inl ⟨rfl, fun _ _ => hst' _ rfl, nofun⟩
      | .ok (.inl a') =>
        rw [loop_turn hp, loop_turn hq]
        exact ih _ (hm ▸ h a s a' s' hp) a' s' t' (hst' _ rfl) rfl
    · rw [loop_error hp]
      refine .inr ⟨⟨e, rfl, hbad⟩, ?_⟩
      match y with
      | .error e' =>
        rw [loop_error hq]
        exact hnoted
      | .ok (.inr b) =>
        rw [loop_leave hq]
        exact hnoted
      | .ok (.inl a') =>
        rw [loop_turn hq]
        exact loop_keeps (fun a => (hturn a).keeps) a' t' hnoted

theorem Shadows.loop (hturn : ∀ a, Shadows w (turn a) (turn' a)) (a : α) :
    Shadows w (Scan.loop measure turn h a) (Scan.loop measure' turn' h' a) :=
  ⟨loop_follows hturn a, loop_keeps (fun a => (hturn a).keeps) a⟩

end Loop

end Follows

end Scan
