/-
# `Oxyn.Redis.Bounded` — a result says it is cut exactly when it is

The cursor reads until there is nothing more or until its rows are enough; then it says whether
the result is cut, and gives the connection back or discards it.
-/
import Oxyn.Redis.Reuse
import Oxyn.Redis.Units

open Runs

namespace Oxyn.Redis

open List

open Text Resp

def batchByteBudget : Nat := 2 ^ 20

/-! ## The cursor -/

inductive Lease where
  | console (slot : Option Connection)
  | own (connection : Option Connection)

namespace Lease

def of (shared : Bool) (connection : Connection) : Lease :=
  if shared then .console (some connection) else .own (some connection)

def connection : Lease → Option Connection
  | .console slot => slot
  | .own connection => connection

def map (f : Connection → Connection) : Lease → Lease
  | .console slot => .console (slot.map f)
  | .own connection => .own (connection.map f)

def discard : Lease → Lease
  | .console _ => .console none
  | .own _ => .own none

def givesBack : Lease → Option (Option Connection)
  | .console slot => some slot
  | .own _ => none

end Lease

/-- The cursor over one command's reply; `console` is what its lease gave back. -/
structure Cursor (F Row : Type) where
  layout : Layout
  keys : List Str
  place : Place F
  pending : Option (Resp.Value F)
  rows : List Row
  bytes : Nat
  produced : Nat
  truncated : Bool
  lease : Lease
  console : Option (Option Connection)

inductive Turn (F Row : Type) where
  /-- A step was made, and the rows of a unit taken, if one was read. -/
  | read (unit : Option (List Row)) (c : Cursor F Row)
  | batch (rows : List Row) (c : Cursor F Row)
  | ended (c : Cursor F Row)
  | fails (c : Cursor F Row)

namespace Cursor

section

variable {F Row : Type} (floats : Resp.Floats F) (ending : Ending) (cost : Nat)
  (r : Rendering F Row) (maxRows : Option Nat)

/-- The reading begins in a place. -/
def placed (lease : Lease) (layout : Layout) (keys : List Str) (place : Place F)
    (pending : Option (Resp.Value F)) : Cursor F Row :=
  ⟨layout, keys, place, pending, [], 0, 0, false, lease, none⟩

/-- The cursor of a reply whose head is read; the first of the records is read now, to name the
columns. -/
def start (shared : Bool) (connection : Connection) (argv : List Bytes) (h : Head F) :
    Except RedisError (Cursor F Row) :=
  let begins (layout : Layout) := Place.start layout h (firstIndex argv)
  match Layout.choose argv h, h with
  | .records, .aggregate _ (_ + 1) =>
    match nextValue floats (flat ending) cost (behind connection.stream) with
    | (.error e, _) => .error e
    | (.ok first, s) =>
      let lease := Lease.of shared (connection.at s)
      match r.recordKeys first.1 with
      | some keys => .ok (placed lease .records keys (begins .records) (some first.1))
      | none => .ok (placed lease .elements [] (begins .elements) (some first.1))
  | layout, _ => .ok (placed (Lease.of shared connection) layout [] (begins layout) none)

/-- A row joins the batch. -/
def push (c : Cursor F Row) (row : Row) : Except RedisError (Cursor F Row) :=
  match r.refuses c.layout c.keys row with
  | some error => .error (.unexpectedReply "a row" error)
  | none =>
    .ok
      { c with rows := c.rows ++ [row], bytes := c.bytes + r.size row, produced := c.produced + 1 }

def pushAll (c : Cursor F Row) : List Row → Except RedisError (Cursor F Row)
  | [] => .ok c
  | row :: rows =>
    match c.push r row with
    | .error e => .error e
    | .ok c => pushAll c rows

def step (c : Cursor F Row) : Except RedisError (Option (List Row) × Cursor F Row) :=
  match c.lease.connection with
  | none => .error (.wire .truncated)
  | some connection =>
    match c.place.read floats (flat ending) cost r c.layout c.keys c.pending
      (behind connection.stream) with
    | (.error e, _) => .error e
    | (.ok (place, unit), s) =>
      match pushAll r { c with
          place := place
          pending := c.place.pendingAfter c.pending
          lease := c.lease.map fun connection => connection.at s } (unit.getD []) with
      | .error e => .error e
      | .ok c => .ok (unit, c)

/-- The reply is read or its connection discarded: the lease is dropped. -/
def finish (c : Cursor F Row) : Cursor F Row :=
  { c with
    place := .done
    console := c.lease.givesBack <|> c.console
    lease := .own none }

/-- The next batch is begun. -/
def emptied (c : Cursor F Row) : Cursor F Row := { c with rows := [], bytes := 0 }

def takeBatch (c after : Cursor F Row) : Turn F Row :=
  if r.closes c.layout c.keys c.rows then .batch c.rows after else .fails after

def bounded (produced : Nat) : Bool := maxRows.any fun max => decide (max ≤ produced)

/-- Nothing is read any more: whether the result is cut, and what becomes of the connection. -/
def settle (c : Cursor F Row) : Cursor F Row :=
  if bounded maxRows c.produced && c.place.hasMore then
    { c with truncated := true, lease := c.lease.discard }
  else { c with lease := c.lease.map Connection.replied }

def turn (c : Cursor F Row) : Turn F Row :=
  if batchByteBudget ≤ c.bytes then c.takeBatch r c.emptied
  else if !c.place.hasMore || bounded maxRows c.produced then
    if c.rows.isEmpty then .ended (c.settle maxRows).finish
    else c.takeBatch r (c.settle maxRows).emptied.finish
  else
    match c.step floats ending cost r with
    | .error _ => .fails { c with lease := c.lease.discard }.finish
    | .ok (unit, c) => .read unit c

end

end Cursor

/-- What a turn that goes on has done. -/
inductive TurnEvent (Row : Type) where
  | unit (rows : List Row)
  | passed
  | batch (rows : List Row)

def TurnEvent.ofUnit {Row : Type} : Option (List Row) → TurnEvent Row
  | some rows => .unit rows
  | none => .passed

def unitsOf {Row : Type} (tr : List (TurnEvent Row)) : List (List Row) :=
  tr.filterMap fun ev => match ev with
    | .unit rows => some rows
    | _ => none

def rowsOf {Row : Type} (tr : List (TurnEvent Row)) : List Row :=
  tr.flatMap fun ev => match ev with
    | .batch rows => rows
    | _ => []

section

variable {F Row : Type} (floats : Resp.Floats F) (ending : Ending) (cost : Nat)
  (r : Rendering F Row) (maxRows : Option Nat)

inductive Goes : Cursor F Row → TurnEvent Row → Cursor F Row → Prop
  | read {c c' : Cursor F Row} {unit : Option (List Row)} :
      c.turn floats ending cost r maxRows = .read unit c' → Goes c (.ofUnit unit) c'
  | batch {c c' : Cursor F Row} {rows : List Row} :
      c.turn floats ending cost r maxRows = .batch rows c' → Goes c (.batch rows) c'

end

/-! ## What is told -/

section

variable {F Row : Type}

/-- A page of the `SCAN` family that has elements, and exactly the rows that are enough. -/
def Filled (argv : List Bytes) (h : Head F) (t : Resp.Tree F) (maxRows : Option Nat) : Prop :=
  ∃ form cursor page, Layout.choose argv h = .scan form ∧ elementsOf t = [cursor, page] ∧
    elementsOf page ≠ [] ∧
    maxRows = some (((elementsOf page).length + form.stride - 1) / form.stride)

/-- The result says that it is cut exactly if a unit of the reply gave no rows; the rows are those
of the units before, and enough; and when it is not cut, a console gets its connection back. -/
structure Told (units : List (List Row)) (maxRows : Option Nat) (shared : Bool)
    (connection : Connection) (tr : List (TurnEvent Row)) (c : Cursor F Row) : Prop where
  iff_unread : c.truncated = true ↔ (unitsOf tr).length < units.length
  before : unitsOf tr <+: units
  rows : rowsOf tr = (unitsOf tr).flatten
  enough : c.truncated = true → ∃ max, maxRows = some max ∧ max ≤ (rowsOf tr).length
  returned : c.truncated = false → shared = true →
    ∃ left, c.console = some (some left) ∧ left.unread = connection.unread - 1

end

/-! ### Turns -/

section

variable {F Row : Type} {floats : Resp.Floats F} {ending : Ending} {cost : Nat}
  {r : Rendering F Row} {maxRows : Option Nat} {c c' : Cursor F Row}

variable {rows : List Row}

theorem pushAll_ok (h : c.pushAll r rows = .ok c') :
    ∃ bytes, c' = { c with
      rows := c.rows ++ rows, bytes := bytes, produced := c.produced + rows.length } := by
  induction rows generalizing c with
  | nil =>
    cases h
    rw [append_nil]
    exact ⟨_, rfl⟩
  | cons row rows ih =>
    rw [Cursor.pushAll, Cursor.push] at h
    split at h
    next e he => cases h
    next c₁ hpush =>
      split at hpush
      next => cases hpush
      next =>
        cases hpush
        obtain ⟨bytes, rfl⟩ := ih h
        refine ⟨bytes, ?_⟩
        rw [append_assoc, singleton_append, length_cons, Nat.add_assoc,
          Nat.add_comm 1]

variable {unit : Option (List Row)}

theorem step_ok (h : c.step floats ending cost r = .ok (unit, c')) :
    ∃ connection place s bytes, c.lease.connection = some connection ∧
      c.place.read floats (flat ending) cost r c.layout c.keys c.pending
        (behind connection.stream) = (.ok (place, unit), s) ∧
      c' = { c with
        place := place
        pending := c.place.pendingAfter c.pending
        lease := c.lease.map fun connection => connection.at s
        rows := c.rows ++ unit.getD []
        bytes := bytes
        produced := c.produced + (unit.getD []).length } := by
  unfold Cursor.step at h
  split at h
  next => cases h
  next connection hconnection =>
    split at h
    next => cases h
    next place unit' s hread =>
      split at h
      next => cases h
      next c₁ hpush =>
        cases h
        obtain ⟨bytes, rfl⟩ := pushAll_ok hpush
        exact ⟨connection, place, s, bytes, hconnection, hread, rfl⟩

theorem takeBatch_eq_batch {after : Cursor F Row}
    (h : c.takeBatch r after = .batch rows c') : rows = c.rows ∧ c' = after := by
  unfold Cursor.takeBatch at h
  split at h
  · cases h
    exact ⟨rfl, rfl⟩
  · cases h

theorem takeBatch_goes_on {after : Cursor F Row} :
    (∀ unit, c.takeBatch r after ≠ .read unit c') ∧ c.takeBatch r after ≠ .ended c' := by
  unfold Cursor.takeBatch
  split
  · exact ⟨nofun, nofun⟩
  · exact ⟨nofun, nofun⟩

theorem turn_read (h : c.turn floats ending cost r maxRows = .read unit c') :
    c.place.hasMore = true ∧ Cursor.bounded maxRows c.produced = false ∧
      c.step floats ending cost r = .ok (unit, c') := by
  unfold Cursor.turn at h
  split at h
  next => exact absurd h (takeBatch_goes_on.1 unit)
  next =>
    split at h
    next =>
      split at h
      next => cases h
      next => exact absurd h (takeBatch_goes_on.1 unit)
    next hgoes =>
      rw [Bool.or_eq_true, not_or, Bool.not_eq_true', Bool.not_eq_false,
        Bool.not_eq_true] at hgoes
      split at h
      next => cases h
      next hstep =>
        cases h
        exact ⟨hgoes.1, hgoes.2, hstep⟩

theorem turn_batch (h : c.turn floats ending cost r maxRows = .batch rows c') :
    rows = c.rows ∧ (c' = c.emptied ∨
      (c.place.hasMore = false ∨ Cursor.bounded maxRows c.produced = true) ∧
        c' = (c.settle maxRows).emptied.finish) := by
  unfold Cursor.turn at h
  split at h
  next =>
    obtain ⟨rfl, rfl⟩ := takeBatch_eq_batch h
    exact ⟨rfl, .inl rfl⟩
  next =>
    split at h
    next hstops =>
      split at h
      next => cases h
      next =>
        obtain ⟨rfl, rfl⟩ := takeBatch_eq_batch h
        rw [Bool.or_eq_true, Bool.not_eq_true'] at hstops
        exact ⟨rfl, .inr ⟨hstops, rfl⟩⟩
    next =>
      split at h
      next => cases h
      next => cases h

theorem turn_ended (h : c.turn floats ending cost r maxRows = .ended c') :
    c.rows = [] ∧ (c.place.hasMore = false ∨ Cursor.bounded maxRows c.produced = true) ∧
      c' = (c.settle maxRows).finish := by
  unfold Cursor.turn at h
  split at h
  next => exact absurd h takeBatch_goes_on.2
  next =>
    split at h
    next hstops =>
      split at h
      next hempty =>
        cases h
        rw [Bool.or_eq_true, Bool.not_eq_true'] at hstops
        exact ⟨List.isEmpty_iff.mp hempty, hstops, rfl⟩
      next => exact absurd h takeBatch_goes_on.2
    next =>
      split at h
      next => cases h
      next => cases h

theorem settle_console : (c.settle maxRows).console = c.console := by
  unfold Cursor.settle
  split <;> rfl

theorem settle_of_no_more (h : c.place.hasMore = false) :
    c.settle maxRows = { c with lease := c.lease.map Connection.replied } := by
  rw [Cursor.settle, h, Bool.and_false]
  rfl

/-! ### The rows of a page -/

theorem pageRows_length (form : ScanForm) (cursor : Str) (vs : List (Resp.Value F)) :
    (r.pageRows form cursor vs).length = (vs.length + form.stride - 1) / form.stride ∧
      ∀ unit ∈ r.pageRows form cursor vs, unit.length = 1 := by
  have hstride := stride_cases form
  induction hn : vs.length using Nat.strongRecOn generalizing vs with
  | _ n ih =>
    match vs, hn with
    | [], hn =>
      obtain rfl : 0 = n := hn
      refine ⟨?_, fun unit hunit => absurd hunit not_mem_nil⟩
      exact (Nat.div_eq_of_lt (by omega)).symm
    | v :: vs, hn =>
      rw [length_cons] at hn
      by_cases htwo : form.stride = 2 ∧ vs ≠ []
      · obtain ⟨w, vs, rfl⟩ := exists_cons_of_ne_nil htwo.2
        rw [length_cons] at hn
        obtain ⟨hlength, hsingle⟩ := ih vs.length (by omega) vs rfl
        rw [pageRows_two htwo.1, length_cons, hlength, htwo.1]
        refine ⟨by omega, fun unit hunit => ?_⟩
        rcases mem_cons.mp hunit with rfl | hunit
        · rfl
        · exact hsingle unit hunit
      · obtain ⟨hlength, hsingle⟩ := ih vs.length (by omega) vs rfl
        rw [pageRows_one htwo, length_cons, hlength]
        refine ⟨?_, fun unit hunit => ?_⟩
        · rcases hstride with hone | htwice
          · rw [hone, Nat.div_one, Nat.div_one]
            omega
          · have hnone : vs = [] := by
              by_contra hsome
              exact htwo ⟨htwice, hsome⟩
            subst hnone
            rw [length_nil] at hn ⊢
            rw [htwice, ← hn]
        · rcases mem_cons.mp hunit with rfl | hunit
          · rfl
          · exact hsingle unit hunit

theorem flatten_length_of_singles {units : List (List Row)} (h : ∀ unit ∈ units, unit.length = 1) :
    units.flatten.length = units.length := by
  rw [length_flatten, map_congr_left h, map_const', sum_replicate_nat,
    Nat.mul_one]

/-! ### What a run keeps -/

def pageCount (t : Resp.Tree F) : Nat :=
  match elementsOf t with
  | [_, page] => (elementsOf page).length
  | _ => 0

/-- How a page is read: its rows stay within the bound, and the step behind them is made only
while they are not enough. -/
def Paged (count : Nat) (maxRows : Option Nat) (ts : List (Resp.Tree F)) (produced : Nat) :
    Place F → Prop
  | .scanCursor _ =>
    produced = 0 ∧ ∃ cursor page, ts = [cursor, page] ∧ (elementsOf page).length = count
  | .scanPage _ _ remaining false => produced = 0 ∧ remaining = count
  | .scanPage _ _ _ true => 0 < count ∧ ∀ max, maxRows = some max → produced ≤ max
  | .done => count = 0 ∨ ∀ max, maxRows = some max → produced < max
  | _ => False

variable (floats ending cost r maxRows) in
/-- The reading goes on: the units that were taken and those that are left are the reply's. -/
structure Reading (units : List (List Row)) (argv : List Bytes) (h : Head F) (t : Resp.Tree F)
    (late : Bytes) (shared : Bool) (unread : Nat) (tr : List (TurnEvent Row)) (c : Cursor F Row) :
    Prop where
  left : ∃ connection ts left, c.lease = .of shared connection ∧
    connection.stream = left ++ late ∧ connection.unread = unread ∧
    Stands ending floats cost c.pending ts left c.place ∧
    units = unitsOf tr ++ c.place.units cost r c.layout c.keys ts ∧
    ∀ form, Layout.choose argv h = .scan form →
      Paged (pageCount t) maxRows ts c.produced c.place
  rows : rowsOf tr ++ c.rows = (unitsOf tr).flatten
  produced : c.produced = (unitsOf tr).flatten.length
  truncated : c.truncated = false
  console : c.console = none
  form : ∀ form, c.place.form = some form → Layout.choose argv h = .scan form

variable {units : List (List Row)} {argv : List Bytes} {h : Head F} {t : Resp.Tree F} {late : Bytes}
  {shared : Bool} {unread : Nat} {tr : List (TurnEvent Row)}

theorem unitsOf_append (tr tr' : List (TurnEvent Row)) :
    unitsOf (tr ++ tr') = unitsOf tr ++ unitsOf tr' :=
  filterMap_append

theorem rowsOf_append (tr tr' : List (TurnEvent Row)) :
    rowsOf (tr ++ tr') = rowsOf tr ++ rowsOf tr' :=
  flatMap_append

theorem unitsOf_ofUnit (unit : Option (List Row)) : unitsOf [.ofUnit unit] = unit.toList := by
  cases unit <;> rfl

theorem rowsOf_ofUnit (unit : Option (List Row)) : rowsOf [.ofUnit unit] = ([] : List Row) := by
  cases unit <;> rfl

theorem flatten_toList (unit : Option (List Row)) : unit.toList.flatten = unit.getD [] := by
  cases unit with
  | none => rfl
  | some rows => exact append_nil rows

theorem of_bounded {produced : Nat} (h : Cursor.bounded maxRows produced = false) :
    ∀ max, maxRows = some max → produced < max := by
  rintro max rfl
  exact Nat.lt_of_not_le (of_decide_eq_false h)

variable {pending : Option (Resp.Value F)} {place : Place F} {layout : Layout} {left : Bytes}
  {keys : List Str}

/-- A step on a page keeps its rows within the bound. -/
theorem paged_read {ts ts' : List (Resp.Tree F)} {produced count : Nat}
    {answer : Place F × Option (List Row)} {s : Flat}
    (hpaged : Paged count maxRows ts produced place)
    (hstands : Stands ending floats cost pending ts left place)
    (hread : place.read floats (flat ending) cost r layout keys pending (behind (left ++ late)) =
      (.ok answer, s))
    (hbound : ∀ max, maxRows = some max → produced < max) :
    Paged count maxRows ts' (produced + (answer.2.getD []).length) answer.1 := by
  cases place with
  | done =>
    cases hread
    exact hpaged
  | scanCursor form =>
    obtain ⟨rfl, c, page, rfl, rfl⟩ := hpaged
    obtain ⟨body, -, -, -, rfl⟩ := read_scanCursor hstands hread
    exact ⟨rfl, rfl⟩
  | scanPage form cursor remaining emitted =>
    cases remaining with
    | zero =>
      cases emitted with
      | true =>
        cases hread
        exact .inr hbound
      | false =>
        cases hread
        exact .inl hpaged.2.symm
    | succ remaining =>
      obtain ⟨row, rfl⟩ := read_page_row hread
      refine ⟨?_, hbound⟩
      cases emitted with
      | true => exact hpaged.1
      | false => exact hpaged.2 ▸ Nat.succ_pos remaining
  | _ => exact hpaged.elim

theorem map_of (f : Connection → Connection) (connection : Connection) :
    (Lease.of shared connection).map f = .of shared (f connection) := by
  cases shared <;> rfl

theorem connection_of (connection : Connection) :
    (Lease.of shared connection).connection = some connection := by
  cases shared <;> rfl

theorem Reading.read {c c' : Cursor F Row}
    (hreading : Reading floats ending cost r maxRows units argv h t late shared unread tr c)
    (hturn : c.turn floats ending cost r maxRows = .read unit c') :
    Reading floats ending cost r maxRows units argv h t late shared unread
      (tr ++ [.ofUnit unit]) c' := by
  obtain ⟨-, hbounded, hstep⟩ := turn_read hturn
  obtain ⟨connection', place, s, bytes, hconnection, hread, rfl⟩ := step_ok hstep
  obtain ⟨connection, ts, left, hlease, hstream, hunread, hstands, hunits, hpaged⟩ := hreading.left
  rw [hlease, connection_of] at hconnection
  cases hconnection
  rw [hstream] at hread
  obtain ⟨ts', left', rfl, hstands', htakes⟩ := read_unit hstands hread
  refine ⟨⟨connection'.at (behind (left' ++ late)), ts', left', ?_, rfl, hunread, hstands', ?_,
    fun form hform => paged_read (hpaged form hform) hstands hread (of_bounded hbounded)⟩,
    ?_, ?_, hreading.truncated, hreading.console,
    fun form hform => hreading.form form (form_of_read hread hform)⟩
  · rw [hlease, map_of]
  · rw [unitsOf_append, unitsOf_ofUnit, append_assoc, ← htakes]
    exact hunits
  · rw [rowsOf_append, rowsOf_ofUnit, append_nil, ← append_assoc, hreading.rows,
      unitsOf_append, unitsOf_ofUnit, flatten_append, flatten_toList]
  · rw [unitsOf_append, unitsOf_ofUnit, flatten_append, flatten_toList, length_append,
      ← hreading.produced]

/-! ### What is told at the end -/

variable {ts : List (Resp.Tree F)}

variable (r) in
theorem units_of_no_more (layout : Layout) (keys : List Str)
    (hstands : Stands ending floats cost pending ts left place) (hmore : place.hasMore = false) :
    place.units cost r layout keys ts = [] := by
  unfold Place.hasMore at hmore
  split at hmore
  next => rfl
  next =>
    obtain rfl := length_eq_zero_iff.mp hstands.1
    rfl
  next =>
    obtain rfl := length_eq_zero_iff.mp hstands.1
    rfl
  next => cases hmore

theorem pageUnits_ne_nil (form : ScanForm) (cursor : Str) {emitted : Bool}
    {vs : List (Resp.Value F)}
    (h : vs ≠ [] ∨ emitted = false) : r.pageUnits form cursor emitted vs ≠ [] := by
  cases vs with
  | nil =>
    obtain rfl := h.resolve_left fun hne => hne rfl
    exact cons_ne_nil _ _
  | cons v vs =>
    rw [pageUnits_cons]
    by_cases htwo : form.stride = 2 ∧ vs ≠ []
    · obtain ⟨w, vs, rfl⟩ := exists_cons_of_ne_nil htwo.2
      rw [pageRows_two htwo.1]
      exact cons_ne_nil _ _
    · rw [pageRows_one htwo]
      exact cons_ne_nil _ _

theorem page_end_of_no_units
    (hstands : Stands ending floats cost pending ts left place) (hmore : place.hasMore = true)
    (hunits : place.units cost r layout keys ts = []) :
    ∃ form cursor, place = .scanPage form cursor 0 true := by
  cases place with
  | done => cases hmore
  | scalar head | info head =>
    obtain ⟨u, one, rfl, -⟩ := hstands
    cases hunits
  | elements remaining index =>
    cases remaining with
    | zero => cases hmore
    | succ remaining =>
      obtain ⟨u, us, rfl⟩ := exists_of_length_succ ts hstands.1
      cases hunits
  | pairs remaining =>
    cases remaining with
    | zero => cases hmore
    | succ remaining =>
      obtain ⟨k, us, rfl⟩ := exists_of_length_succ (n := 2 * remaining + 1) ts hstands.1
      obtain ⟨v, us, rfl⟩ :=
        exists_of_length_succ (n := 2 * remaining) us (Nat.succ.inj hstands.1)
      cases hunits
  | scanCursor form =>
    obtain ⟨c, page, rfl⟩ := length_eq_two.mp hstands.1
    exact absurd hunits (pageUnits_ne_nil form _ (.inr rfl))
  | scanPage form cursor remaining emitted =>
    cases remaining with
    | zero =>
      cases emitted with
      | true => exact ⟨form, cursor, rfl⟩
      | false => exact absurd hunits (pageUnits_ne_nil form cursor (.inr rfl))
    | succ remaining =>
      obtain ⟨u, us, rfl⟩ := exists_of_length_succ ts hstands.1
      exact absurd hunits (pageUnits_ne_nil form cursor (.inl (cons_ne_nil _ _)))

def Singles (units : List (List Row)) (argv : List Bytes) (h : Head F) (t : Resp.Tree F) : Prop :=
  ∀ form, Layout.choose argv h = .scan form → 0 < pageCount t →
    units.length = (pageCount t + form.stride - 1) / form.stride ∧
      ∀ unit ∈ units, unit.length = 1

theorem filled_iff : Filled argv h t maxRows ↔
    ∃ form, Layout.choose argv h = .scan form ∧ 0 < pageCount t ∧
      maxRows = some ((pageCount t + form.stride - 1) / form.stride) := by
  constructor
  · rintro ⟨form, cursor, page, hform, hitems, hpage, hmax⟩
    have hcount : pageCount t = (elementsOf page).length := by
      unfold pageCount
      rw [hitems]
    rw [hcount]
    exact ⟨form, hform, length_pos_iff.mpr hpage, hmax⟩
  · rintro ⟨form, hform, hpos, hmax⟩
    unfold pageCount at hpos hmax
    split at hpos
    next cursor page hitems =>
      rw [hitems] at hmax
      exact ⟨form, cursor, page, hform, hitems, length_pos_iff.mp hpos, hmax⟩
    next => exact absurd hpos (Nat.lt_irrefl 0)

theorem Reading.closes {c c₁ : Cursor F Row} {connection : Connection} {tr' : List (TurnEvent Row)}
    (hreading : Reading floats ending cost r maxRows units argv h t late shared connection.unread
      tr c)
    (hsingles : Singles units argv h t)
    (hstops : c.place.hasMore = false ∨ Cursor.bounded maxRows c.produced = true)
    (hunitsOf : unitsOf tr' = unitsOf tr) (hrowsOf : rowsOf tr' = (unitsOf tr).flatten)
    (htruncated : c₁.truncated = (c.settle maxRows).truncated)
    (hconsole : c₁.console = (c.settle maxRows).lease.givesBack) :
    Told units maxRows shared connection tr' c₁ ↔ ¬ Filled argv h t maxRows := by
  obtain ⟨conn, ts, left, hlease, -, hunread, hstands, hunits, hpaged⟩ := hreading.left
  have hbefore : unitsOf tr <+: units := ⟨_, hunits.symm⟩
  have hproduced := hreading.produced
  rw [filled_iff]
  by_cases hcut : (Cursor.bounded maxRows c.produced && c.place.hasMore) = true
  · rw [Cursor.settle, if_pos hcut] at htruncated
    obtain ⟨hbounded, hmore⟩ := (Bool.and_eq_true_iff).mp hcut
    obtain ⟨max, rfl⟩ : ∃ max, maxRows = some max :=
      Option.isSome_iff_exists.mp (Option.isSome_of_any hbounded)
    have hmax : max ≤ c.produced := of_decide_eq_true hbounded
    by_cases hnone : c.place.units cost r c.layout c.keys ts = []
    · -- the page was read whole, and is taken for cut
      obtain ⟨form, cursor, hplace⟩ := page_end_of_no_units hstands hmore hnone
      have hform : Layout.choose argv h = .scan form :=
        hreading.form form (by rw [hplace]; rfl)
      have hpage := hpaged form hform
      rw [hplace] at hpage
      obtain ⟨hlength, hsingle⟩ := hsingles form hform hpage.1
      rw [hnone, append_nil] at hunits
      refine iff_of_false (fun htold => ?_) (not_not.mpr ⟨form, hform, hpage.1, ?_⟩)
      · have hless := htold.iff_unread.mp htruncated
        rw [hunitsOf, hunits] at hless
        exact absurd hless (Nat.lt_irrefl _)
      · have hle := hpage.2 max rfl
        rw [← hlength, ← flatten_length_of_singles hsingle, hunits, ← hproduced]
        exact congrArg some (Nat.le_antisymm hmax hle)
    · have hless : (unitsOf tr).length < units.length := by
        rw [hunits, length_append]
        exact Nat.lt_add_of_pos_right (length_pos_iff.mpr hnone)
      refine iff_of_true ⟨?_, ?_, ?_, ?_, ?_⟩ ?_
      · rw [hunitsOf]
        exact iff_of_true htruncated hless
      · rw [hunitsOf]
        exact hbefore
      · rw [hrowsOf, hunitsOf]
      · intro _
        rw [hrowsOf, ← hproduced]
        exact ⟨max, rfl, hmax⟩
      · intro hfalse
        rw [htruncated] at hfalse
        cases hfalse
      · rintro ⟨form, hform, hpos, hfilled⟩
        obtain ⟨hlength, hsingle⟩ := hsingles form hform hpos
        rw [← hlength, Option.some.injEq] at hfilled
        rw [flatten_length_of_singles fun unit hunit => hsingle unit (hbefore.subset hunit)]
          at hproduced
        omega
  · rw [Cursor.settle, if_neg hcut] at htruncated hconsole
    have hmore : c.place.hasMore = false := by
      rcases hstops with hmore | hbounded
      · exact hmore
      · rw [hbounded, Bool.true_and, Bool.not_eq_true] at hcut
        exact hcut
    have hnone := units_of_no_more r c.layout c.keys hstands hmore
    rw [hnone, append_nil] at hunits
    refine iff_of_true ⟨?_, ?_, ?_, ?_, ?_⟩ ?_
    · rw [htruncated, hreading.truncated, hunitsOf, hunits]
      exact iff_of_false Bool.false_ne_true (Nat.lt_irrefl _)
    · rw [hunitsOf]
      exact hbefore
    · rw [hrowsOf, hunitsOf]
    · intro htrue
      rw [htruncated, hreading.truncated] at htrue
      cases htrue
    · rintro - rfl
      rw [hconsole, hlease, map_of]
      exact ⟨conn.replied, rfl, by rw [← hunread]; rfl⟩
    · rintro ⟨form, hform, hpos, hfilled⟩
      obtain ⟨hlength, hsingle⟩ := hsingles form hform hpos
      have hpage := hpaged form hform
      have hall : c.produced = units.length := by
        rw [hproduced, ← hunits, flatten_length_of_singles hsingle]
      cases hplace : c.place with
      | done =>
        rw [hplace] at hpage
        rcases hpage with hzero | hless
        · exact absurd hzero hpos.ne'
        · have hlt := hless _ hfilled
          rw [hall, hlength] at hlt
          exact absurd hlt (Nat.lt_irrefl _)
      | scanCursor | scanPage =>
        rw [hplace] at hmore
        cases hmore
      | _ =>
        rw [hplace] at hpage
        exact hpage

/-! ### Runs -/

variable {connection : Connection}

/-- The reply is read or its connection discarded, and the lease dropped. -/
structure Closed (units : List (List Row)) (argv : List Bytes) (h : Head F) (t : Resp.Tree F)
    (maxRows : Option Nat) (shared : Bool) (connection : Connection) (tr : List (TurnEvent Row))
    (c : Cursor F Row) : Prop where
  place : c.place = .done
  rows : c.rows = []
  bytes : c.bytes = 0
  lease : c.lease = .own none
  told : Told units maxRows shared connection tr c ↔ ¬ Filled argv h t maxRows

variable (floats ending cost r) in
def InRun (units : List (List Row)) (argv : List Bytes) (h : Head F) (t : Resp.Tree F)
    (maxRows : Option Nat) (late : Bytes) (shared : Bool) (connection : Connection)
    (tr : List (TurnEvent Row)) (c : Cursor F Row) : Prop :=
  Reading floats ending cost r maxRows units argv h t late shared connection.unread tr c ∨
    Closed units argv h t maxRows shared connection tr c

theorem Told.congr (htruncated : c'.truncated = c.truncated) (hconsole : c'.console = c.console) :
    Told units maxRows shared connection tr c' ↔ Told units maxRows shared connection tr c := by
  constructor
  · rintro ⟨hiff, hbefore, hrows, henough, hreturned⟩
    rw [htruncated] at hiff henough hreturned
    rw [hconsole] at hreturned
    exact ⟨hiff, hbefore, hrows, henough, hreturned⟩
  · rintro ⟨hiff, hbefore, hrows, henough, hreturned⟩
    rw [← htruncated] at hiff henough hreturned
    rw [← hconsole] at hreturned
    exact ⟨hiff, hbefore, hrows, henough, hreturned⟩

theorem orElse_none {α : Type} (a : Option α) : (a <|> none) = a := by
  cases a <;> rfl

/-- The lease dropped, the result is told right unless it is a filled page. -/
theorem Reading.finishes
    (hreading : Reading floats ending cost r maxRows units argv h t late shared connection.unread
      tr c)
    (hsingles : Singles units argv h t)
    (hstops : c.place.hasMore = false ∨ Cursor.bounded maxRows c.produced = true) :
    Closed units argv h t maxRows shared connection (tr ++ [.batch c.rows])
      (c.settle maxRows).emptied.finish := by
  refine ⟨rfl, rfl, rfl, rfl, hreading.closes hsingles hstops ?_ ?_ rfl ?_⟩
  · rw [unitsOf_append]
    exact append_nil _
  · rw [rowsOf_append, ← hreading.rows]
    exact congrArg _ (append_nil _)
  · show ((c.settle maxRows).lease.givesBack <|> (c.settle maxRows).console) = _
    rw [settle_console, hreading.console, orElse_none]

theorem Reading.emptied
    (hreading : Reading floats ending cost r maxRows units argv h t late shared unread tr c) :
    Reading floats ending cost r maxRows units argv h t late shared unread
      (tr ++ [.batch c.rows]) c.emptied := by
  have hunits : unitsOf (tr ++ [.batch c.rows]) = unitsOf tr := by
    rw [unitsOf_append]
    exact append_nil _
  refine ⟨?_, ?_, ?_, hreading.truncated, hreading.console, hreading.form⟩
  · rw [hunits]
    exact hreading.left
  · rw [hunits, rowsOf_append, ← hreading.rows]
    exact (append_nil _).trans (congrArg _ (append_nil _))
  · rw [hunits]
    exact hreading.produced

theorem Closed.turn_eq (hclosed : Closed units argv h t maxRows shared connection tr c) :
    c.turn floats ending cost r maxRows = .ended (c.settle maxRows).finish := by
  have hbytes : ¬ batchByteBudget ≤ c.bytes := by
    rw [hclosed.bytes]
    decide
  have hstops : (!c.place.hasMore || Cursor.bounded maxRows c.produced) = true := by
    rw [hclosed.place]
    rfl
  rw [Cursor.turn, if_neg hbytes, if_pos hstops, if_pos (List.isEmpty_iff.mpr hclosed.rows)]

theorem InRun.goes {ev : TurnEvent Row}
    (hrun : InRun floats ending cost r units argv h t maxRows late shared connection tr c)
    (hsingles : Singles units argv h t) (hgoes : Goes floats ending cost r maxRows c ev c') :
    InRun floats ending cost r units argv h t maxRows late shared connection (tr ++ [ev]) c' := by
  rcases hrun with hreading | hclosed
  · cases hgoes with
    | read hturn => exact .inl (hreading.read hturn)
    | batch hturn =>
      obtain ⟨rfl, rfl | ⟨hstops, rfl⟩⟩ := turn_batch hturn
      · exact .inl hreading.emptied
      · exact .inr (hreading.finishes hsingles hstops)
  · cases hgoes with
    | read hturn | batch hturn =>
      rw [hclosed.turn_eq] at hturn
      cases hturn

theorem InRun.of_steps {tr' : List (TurnEvent Row)} {c₀ : Cursor F Row}
    (hstart : InRun floats ending cost r units argv h t maxRows late shared connection [] c₀)
    (hsingles : Singles units argv h t)
    (hrun : Steps (Goes floats ending cost r maxRows) c₀ tr' c) :
    InRun floats ending cost r units argv h t maxRows late shared connection tr' c := by
  induction hrun with
  | nil => exact hstart
  | snoc _ hgoes ih => exact ih.goes hsingles hgoes

theorem InRun.ends
    (hrun : InRun floats ending cost r units argv h t maxRows late shared connection tr c)
    (hsingles : Singles units argv h t)
    (hend : c.turn floats ending cost r maxRows = .ended c') :
    Told units maxRows shared connection tr c' ↔ ¬ Filled argv h t maxRows := by
  rcases hrun with hreading | hclosed
  · obtain ⟨hrows, hstops, rfl⟩ := turn_ended hend
    refine hreading.closes hsingles hstops rfl ?_ rfl ?_
    · rw [← hreading.rows, hrows, append_nil]
    · show ((c.settle maxRows).lease.givesBack <|> (c.settle maxRows).console) = _
      rw [settle_console, hreading.console, orElse_none]
  · rw [hclosed.turn_eq] at hend
    cases hend
    have hmore : c.place.hasMore = false := by
      rw [hclosed.place]
      rfl
    rw [← hclosed.told, settle_of_no_more hmore]
    refine Told.congr rfl ?_
    show ((c.lease.map Connection.replied).givesBack <|> c.console) = c.console
    rw [hclosed.lease]
    rfl

/-! ### The beginning -/

variable {form : ScanForm}

theorem form_start {index : Int}
    (hform : (Place.start layout h index).form = some form) : layout = .scan form := by
  cases layout with
  | scan form' =>
    cases hform
    rfl
  | _ => cases h <;> cases hform

variable (connection) in
theorem reading_placed (hstream : connection.stream = left ++ late)
    (hstands : Stands ending floats cost pending (place.begins t) left place)
    (hpaged : ∀ form, Layout.choose argv h = .scan form →
      Paged (pageCount t) maxRows (place.begins t) 0 place)
    (hform : ∀ form, place.form = some form → Layout.choose argv h = .scan form) :
    Reading floats ending cost r maxRows (place.units cost r layout keys (place.begins t)) argv h t
      late shared connection.unread []
      (.placed (.of shared connection) layout keys place pending) :=
  ⟨⟨connection, place.begins t, left, rfl, hstream, rfl, hstands, rfl, hpaged⟩, rfl, rfl, rfl, rfl,
    hform⟩

theorem paged_start (hts : ts = elementsOf t)
    (hstands : Stands ending floats cost none ts left (.scanCursor form)) :
    Paged (pageCount t) maxRows ts 0 (.scanCursor form) := by
  obtain ⟨c, page, rfl⟩ := length_eq_two.mp hstands.1
  refine ⟨rfl, c, page, rfl, ?_⟩
  unfold pageCount
  rw [← hts]

theorem singles_scan
    (hstands : Stands ending floats cost none (elementsOf t) left (.scanCursor form))
    (hpos : 0 < pageCount t) :
    ((Place.scanCursor form).units cost r layout keys (elementsOf t)).length =
        (pageCount t + form.stride - 1) / form.stride ∧
      ∀ unit ∈ (Place.scanCursor form).units cost r layout keys (elementsOf t),
        unit.length = 1 := by
  obtain ⟨c, page, hitems⟩ := length_eq_two.mp hstands.1
  unfold pageCount at hpos ⊢
  rw [hitems] at hpos ⊢
  have hunits : (Place.scanCursor form).units cost r layout keys [c, page] =
      r.pageRows form (r.cursorText (kept cost c)) ((elementsOf page).map (kept cost)) :=
    if_neg fun hnone => absurd (map_eq_nil_iff.mp hnone.1) (length_pos_iff.mp hpos)
  rw [hunits]
  have hrows := pageRows_length (r := r) form (r.cursorText (kept cost c))
    ((elementsOf page).map (kept cost))
  rw [length_map] at hrows
  exact hrows

variable (maxRows) in
theorem start_inRun {one body : Bytes} {c₀ : Cursor F Row}
    (hopens : Opens ending floats t one h body) (hsmall : one.length ≤ u64Max)
    (hstream : connection.stream = body ++ late)
    (hstart : Cursor.start floats ending cost r shared connection argv h = .ok c₀) :
    Reading floats ending cost r maxRows
        (c₀.place.units cost r c₀.layout c₀.keys (c₀.place.begins t)) argv h t late shared
        connection.unread [] c₀ ∧
      Singles (c₀.place.units cost r c₀.layout c₀.keys (c₀.place.begins t)) argv h t := by
  have hstands := start_stands cost argv (firstIndex argv) hopens hsmall
  unfold Cursor.start at hstart
  dsimp only at hstart
  split at hstart
  next layout kind n hlayout =>
    rw [hlayout] at hstands
    have hscan : ∀ form, Layout.choose argv (.aggregate kind (n + 1) : Head F) ≠ .scan form := by
      intro form hform
      rw [hform] at hlayout
      cases hlayout
    obtain ⟨hlen, -, hencodes⟩ := hstands
    obtain ⟨u, us, hitems⟩ := exists_of_length_succ _ hlen
    have hbody : body.length ≤ u64Max := hopens.length_le.trans hsmall
    rw [hitems] at hencodes
    obtain ⟨others, hothers, hle, hread⟩ := nextValue_reads ending hencodes hbody
    rw [hstream, hread cost late] at hstart
    dsimp only at hstart
    have hplaced : ∀ (layout : Layout) (keys : List Str) (place : Place F),
        place = .elements (n + 1) (firstIndex argv) →
        Reading floats ending cost r maxRows (place.units cost r layout keys (place.begins t)) argv
          (.aggregate kind (n + 1)) t late shared connection.unread []
          (.placed (.of shared (connection.at (behind (others ++ late)))) layout keys place
            (some (kept cost u))) := by
      rintro layout keys place rfl
      exact reading_placed (connection.at (behind (others ++ late))) rfl
        ⟨hlen, hle, u, us, hitems, rfl, hothers⟩ (fun form hform => absurd hform (hscan form))
        nofun
    split at hstart
    next keys hkeys =>
      cases hstart
      exact ⟨hplaced .records keys _ rfl, fun form hform => absurd hform (hscan form)⟩
    next =>
      cases hstart
      exact ⟨hplaced .elements [] _ rfl, fun form hform => absurd hform (hscan form)⟩
  next =>
    cases hstart
    refine ⟨reading_placed connection hstream hstands (fun form hform => ?_) fun form hform =>
      form_start hform, fun form hform hpos => ?_⟩
    · rw [hform] at hstands ⊢
      exact paged_start rfl hstands
    · rw [hform] at hstands
      dsimp only [Cursor.placed]
      rw [hform]
      exact singles_scan hstands hpos

/-! ### A run ends -/

variable (r) in
/-- Rows that match their columns, and make batches. -/
def Accepts : Prop :=
  (∀ layout keys row, r.refuses layout keys row = none) ∧
    ∀ layout keys rows, r.closes layout keys rows = true

theorem pushAll_accepts (haccepts : Accepts r) (rows : List Row) (c : Cursor F Row) :
    ∃ c', c.pushAll r rows = .ok c' := by
  induction rows generalizing c with
  | nil => exact ⟨c, rfl⟩
  | cons row rows ih =>
    rw [Cursor.pushAll, Cursor.push, haccepts.1]
    exact ih _

theorem takeBatch_accepts (haccepts : Accepts r) (after : Cursor F Row) :
    c.takeBatch r after = .batch c.rows after :=
  if_pos (haccepts.2 _ _ _)

theorem readable_of_paged (hpaged : ∀ form, Layout.choose argv h = .scan form →
      Paged (pageCount t) maxRows ts c.produced place)
    (hform : ∀ form, place.form = some form → Layout.choose argv h = .scan form)
    (hpage : ∀ form, Layout.choose argv h = .scan form → 0 < pageCount t) :
    place.Readable ts ∧ ∀ form, place = .scanCursor form →
      ∃ cursor page, ts = [cursor, page] ∧ (elementsOf page).length = pageCount t := by
  cases place with
  | scanCursor form =>
    have hscan := hform form rfl
    obtain ⟨-, cursor, page, rfl, hcount⟩ := hpaged form hscan
    refine ⟨?_, fun _ _ => ⟨cursor, page, rfl, hcount⟩⟩
    cases page with
    | aggregate kind items => exact ⟨cursor, kind, items, rfl⟩
    | _ => exact absurd hcount (Nat.ne_of_lt (hpage form hscan))
  | _ => exact ⟨trivial, nofun⟩

theorem Reading.run_ends (haccepts : Accepts r)
    (hpage : ∀ form, Layout.choose argv h = .scan form → 0 < pageCount t)
    (hreading : Reading floats ending cost r maxRows units argv h t late shared connection.unread
      tr c)
    (hsingles : Singles units argv h t) :
    ∃ tr' c₁ c₂, Steps (Goes floats ending cost r maxRows) c tr' c₁ ∧
      c₁.turn floats ending cost r maxRows = .ended c₂ := by
  induction hn : 2 * c.place.weight (pageCount t) + (if batchByteBudget ≤ c.bytes then 1 else 0)
    using Nat.strongRecOn generalizing c tr with
  | _ n ih =>
    -- a first move, and the run behind it
    have hmove : ∀ {ev c₁}, Goes floats ending cost r maxRows c ev c₁ →
        (∃ tr' c₂ c₃, Steps (Goes floats ending cost r maxRows) c₁ tr' c₂ ∧
          c₂.turn floats ending cost r maxRows = .ended c₃) →
        ∃ tr' c₂ c₃, Steps (Goes floats ending cost r maxRows) c tr' c₂ ∧
          c₂.turn floats ending cost r maxRows = .ended c₃ := by
      rintro ev c₁ hgoes ⟨tr', c₂, c₃, hrun, hend⟩
      exact ⟨_, c₂, c₃, (Steps.snoc .nil hgoes).trans hrun, hend⟩
    by_cases hfull : batchByteBudget ≤ c.bytes
    · have hturn : c.turn floats ending cost r maxRows = .batch c.rows c.emptied := by
        rw [Cursor.turn, if_pos hfull, takeBatch_accepts haccepts]
      refine hmove (.batch hturn) (ih _ ?_ hreading.emptied rfl)
      rw [← hn, if_pos hfull]
      exact Nat.lt_succ_self _
    · by_cases hstops : (!c.place.hasMore || Cursor.bounded maxRows c.produced) = true
      · by_cases hrows : c.rows.isEmpty = true
        · refine ⟨[], c, (c.settle maxRows).finish, .nil, ?_⟩
          rw [Cursor.turn, if_neg hfull, if_pos hstops, if_pos hrows]
        · have hturn : c.turn floats ending cost r maxRows =
              .batch c.rows (c.settle maxRows).emptied.finish := by
            rw [Cursor.turn, if_neg hfull, if_pos hstops, if_neg hrows,
              takeBatch_accepts haccepts]
          have hstop : c.place.hasMore = false ∨ Cursor.bounded maxRows c.produced = true := by
            rw [Bool.or_eq_true, Bool.not_eq_true'] at hstops
            exact hstops
          exact hmove (.batch hturn) ⟨[], _, _, .nil, (hreading.finishes hsingles hstop).turn_eq⟩
      · obtain ⟨connection', ts, left, hlease, hstream, -, hstands, -, hpaged⟩ := hreading.left
        obtain ⟨hreadable, hcount⟩ := readable_of_paged hpaged hreading.form hpage
        obtain ⟨answer, s, hread⟩ :=
          read_goes_on r c.layout c.keys hstands hreadable late
        obtain ⟨c₁, hpush⟩ := pushAll_accepts haccepts (answer.2.getD []) { c with
          place := answer.1
          pending := c.place.pendingAfter c.pending
          lease := c.lease.map fun connection => connection.at s }
        have hstep : c.step floats ending cost r = .ok (answer.2, c₁) := by
          rw [Cursor.step, hlease, connection_of]
          dsimp only
          rw [hstream, hread]
          dsimp only
          rw [← hlease, hpush]
        have hturn : c.turn floats ending cost r maxRows = .read answer.2 c₁ := by
          rw [Cursor.turn, if_neg hfull, if_neg hstops, hstep]
        refine hmove (.read hturn) (ih _ ?_ (hreading.read hturn) rfl)
        have hmore : c.place.hasMore = true := (turn_read hturn).1
        have hless := weight_of_read hstands hmore hread hcount
        obtain ⟨bytes, rfl⟩ := pushAll_ok hpush
        rw [← hn, if_neg hfull]
        dsimp only
        split <;> omega

/-! ## A result says it is cut exactly when it is -/

/-- Of every reply, every bound on the rows and every layout: a run without an error tells right
whether the result is cut, unless the reply is a page of the `SCAN` family with exactly the rows
that are enough. -/
theorem told_iff {one body : Bytes} {c₀ : Cursor F Row}
    (hopens : Opens ending floats t one h body) (hsmall : one.length ≤ u64Max)
    (hstream : connection.stream = body ++ late)
    (hstart : Cursor.start floats ending cost r shared connection argv h = .ok c₀)
    (hrun : Steps (Goes floats ending cost r maxRows) c₀ tr c)
    (hend : c.turn floats ending cost r maxRows = .ended c') :
    Told (c₀.place.units cost r c₀.layout c₀.keys (c₀.place.begins t)) maxRows shared connection
      tr c' ↔ ¬ Filled argv h t maxRows := by
  obtain ⟨hreading, hsingles⟩ := start_inRun maxRows hopens hsmall hstream hstart
  exact (InRun.of_steps (.inl hreading) hsingles hrun).ends hsingles hend

end

/-! ### A page of one key -/

def keyRows : Rendering Unit (List Str) where
  cell
    | .bulk text => ⟨some (fromUtf8Lossy text.bytes), none, false⟩
    | _ => ⟨none, none, false⟩
  scalarRow _ _ := []
  scoredRow _ := []
  sampleRow _ := []
  slowlogRow _ := []
  recordKeys _ := none
  recordRow _ _ := []
  entryRows _ := []
  elementRow _ _ := []
  pairRow _ _ := []
  scanRow _ cursor first _ :=
    match first with
    | some (.bulk text) => [cursor, fromUtf8Lossy text.bytes]
    | _ => [cursor]
  infoRows _ := []
  clientRows _ _ := []
  size row := row.length
  refuses _ _ _ := none
  closes _ _ _ := true

def scanLine : List Bytes := [Text.bytes "SCAN".toList, Text.bytes "0".toList]

/-- `$1`, `0`. -/
def zeroText : Bytes := [36, 49, 13, 10, 48, 13, 10]

/-- `$1`, `k`. -/
def keyText : Bytes := [36, 49, 13, 10, 107, 13, 10]

def keyPage : Resp.Tree Unit := .aggregate .array [.bulk [48], .aggregate .array [.bulk [107]]]

def keyPageBody : Bytes := zeroText ++ ([42, 49, 13, 10] ++ keyText)

theorem encodes_one (b : UInt8) (rest : Bytes) {ts : List (Resp.Tree Unit)}
    (hrest : Encodes noDoubles ts rest) :
    Encodes noDoubles (.bulk [b] :: ts) ([36, 49, 13, 10, b, 13, 10] ++ rest) := by
  have hone : Counts [b].length [49] := ⟨by decide, rfl⟩
  exact .scalar (.bulk hone) (line_of_short (l := [36, 49]) (by decide) (by decide)) hrest

theorem encodes_keyPageBody :
    Encodes noDoubles [.bulk [48], .aggregate .array [.bulk [107]]] keyPageBody := by
  have hone : Counts 1 [49] := ⟨by decide, by decide⟩
  have hkey : Encodes noDoubles [.bulk [107]] keyText := encodes_one 107 [] .nil
  have hpage : Encodes noDoubles [.aggregate .array [.bulk [107]]]
      (42 :: [49] ++ [13, 10] ++ keyText ++ []) :=
    .aggregate hone (line_of_short (l := [42, 49]) (by decide) (by decide)) rfl hkey .nil
  exact encodes_one 48 _ hpage

theorem opens_keyPage :
    Opens .closed noDoubles keyPage ([42, 50, 13, 10] ++ keyPageBody) (.aggregate .array 2)
      keyPageBody := by
  have htwo : Counts 2 [50] := ⟨by decide, by decide⟩
  exact opens_aggregate htwo (line_of_short (l := [42, 50]) (by decide) (by decide)) rfl
    encodes_keyPageBody (by decide)

theorem stream_keyPage : (⟨keyPageBody, 1⟩ : Connection).stream = keyPageBody ++ [] :=
  (append_nil _).symm

def keyCursor : Cursor Unit (List Str) :=
  .placed (.of true ⟨keyPageBody, 1⟩) (.scan .keys) [] (.scanCursor .keys) none

theorem start_keyCursor : Cursor.start noDoubles .closed 0 keyRows true ⟨keyPageBody, 1⟩ scanLine
    (.aggregate .array 2) = .ok keyCursor := by
  have hlayout : Layout.choose scanLine (.aggregate .array 2 : Head Unit) = .scan .keys := by
    decide
  unfold Cursor.start
  rw [hlayout]
  rfl

theorem keyCursor_ends (maxRows : Option Nat) :
    ∃ tr c c', Steps (Goes noDoubles .closed 0 keyRows maxRows) keyCursor tr c ∧
      c.turn noDoubles .closed 0 keyRows maxRows = .ended c' := by
  obtain ⟨hreading, hsingles⟩ := start_inRun maxRows opens_keyPage (by decide) stream_keyPage
    start_keyCursor
  have hpos : 0 < pageCount keyPage := Nat.one_pos
  exact hreading.run_ends ⟨fun _ _ _ => rfl, fun _ _ _ => rfl⟩ (fun _ _ => hpos) hsingles

/-- With room for more rows than the page has, the page is told whole. -/
theorem key_page_is_whole :
    ∃ (tr : List (TurnEvent (List Str))) (c' : Cursor Unit (List Str)),
      Told (keyCursor.place.units 0 keyRows keyCursor.layout keyCursor.keys
        (keyCursor.place.begins keyPage)) (some 2) true ⟨keyPageBody, 1⟩ tr c' := by
  obtain ⟨tr, c, c', hrun, hend⟩ := keyCursor_ends (some 2)
  refine ⟨tr, c', (told_iff opens_keyPage (by decide) stream_keyPage start_keyCursor hrun
    hend).mpr ?_⟩
  rw [filled_iff]
  rintro ⟨form, hform, -, hmax⟩
  cases form with
  | keys => exact absurd (Option.some.inj hmax) (by decide)
  | _ => exact absurd hform (by decide)

/-- A page of one key, when one row is enough, is said to be cut. -/
theorem filled_page_is_cut :
    ¬ ∀ (tr : List (TurnEvent (List Str))) (c c' : Cursor Unit (List Str)),
      Steps (Goes noDoubles .closed 0 keyRows (some 1)) keyCursor tr c →
      c.turn noDoubles .closed 0 keyRows (some 1) = .ended c' →
      Told (keyCursor.place.units 0 keyRows keyCursor.layout keyCursor.keys
        (keyCursor.place.begins keyPage)) (some 1) true ⟨keyPageBody, 1⟩ tr c' := by
  intro h
  obtain ⟨tr, c, c', hrun, hend⟩ := keyCursor_ends (some 1)
  obtain ⟨hreading, hsingles⟩ := start_inRun (some 1) opens_keyPage (by decide) stream_keyPage
    start_keyCursor
  have hiff := (InRun.of_steps (.inl hreading) hsingles hrun).ends hsingles hend
  refine hiff.mp (h tr c c' hrun hend) (filled_iff.mpr ⟨.keys, by decide, Nat.one_pos, rfl⟩)

end Oxyn.Redis
