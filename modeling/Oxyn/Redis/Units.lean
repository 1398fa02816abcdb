/-
# `Oxyn.Redis.Units` — a reply taken row by row

The cursor reads the next unit of a reply (an element, a pair, a row of a page, a report, a
scalar) and turns it into rows; what a value looks like in a row is a `Rendering`, any one.
-/
import Oxyn.Redis.Cursor

namespace Oxyn.Redis

open Text Resp
open Scan (bind_eq_ok bind_ok)

/-! ## Rows -/

/-- One cell, before it joins a column. -/
structure Cell where
  text : Option Str
  bytes : Option Bytes
  truncated : Bool

/-- How values are shown: cells, rows, what a row weighs, what is said of one that does not match
the columns, and whether rows make a batch. -/
structure Rendering (F Row : Type) where
  cell : Resp.Value F → Cell
  scalarRow : Layout → Resp.Value F → Row
  scoredRow : Resp.Value F → Row
  sampleRow : Resp.Value F → Row
  slowlogRow : Resp.Value F → Row
  recordKeys : Resp.Value F → Option (List Str)
  recordRow : List Str → Resp.Value F → Row
  entryRows : Resp.Value F → List Row
  elementRow : Int → Resp.Value F → Row
  pairRow : Resp.Value F → Resp.Value F → Row
  scanRow : ScanForm → Str → Option (Resp.Value F) → Option (Resp.Value F) → Row
  infoRows : Str → List Row
  clientRows : Str → Bool → List Row
  size : Row → Nat
  refuses : Layout → List Str → Row → Option String
  closes : Layout → List Str → List Row → Bool

section

variable {F Row : Type} (r : Rendering F Row)

def Rendering.reportRows (layout : Layout) (value : Resp.Value F) : List Row :=
  let cell := r.cell value
  let altered := cell.text.isNone && cell.bytes.isSome
  let text := cell.text.getD (fromUtf8Lossy (cell.bytes.getD []))
  let report := if "txt:".toList <+: text then text.drop 4 else text
  if layout = .clients then r.clientRows report (cell.truncated || altered) else r.infoRows report

def Rendering.elementRows (layout : Layout) (keys : List Str) (index : Int) (value : Resp.Value F) :
    List Row :=
  match layout with
  | .scored => [r.scoredRow value]
  | .samples => [r.sampleRow value]
  | .slowlog => [r.slowlogRow value]
  | .records => [r.recordRow keys value]
  | .streamEntries => r.entryRows value
  | _ => [r.elementRow index value]

/-- The cursor of a page, as it is shown. -/
def Rendering.cursorText (value : Resp.Value F) : Str := (r.cell value).text.getD []

end

/-! ## Reading -/

/-- Where reading the reply stands. -/
inductive Place (F : Type) where
  | scalar (head : Head F)
  | info (head : Head F)
  | elements (remaining : Nat) (index : Int)
  | pairs (remaining : Nat)
  | scanCursor (form : ScanForm)
  | scanPage (form : ScanForm) (cursor : Str) (remaining : Nat) (emitted : Bool)
  | done

def Place.hasMore {F : Type} : Place F → Bool
  | .done | .elements 0 _ | .pairs 0 => false
  | _ => true

/-- `str::parse::<i64>`. -/
def parseText : Bytes → Option Int
  | 43 :: digits =>
    if isDigits digits && decimal digits < 2 ^ 63 then some (decimal digits) else none
  | text => parseI64 text

/-- The index of a reply's first element: a list's own, from a start that is not negative. -/
def firstIndex (argv : List Bytes) : Int :=
  match argv with
  | command :: _ :: start :: _ =>
    if isNamed command "lrange" then ((parseText start).filter (0 ≤ ·)).getD 0 else 0
  | _ => 0

/-- `i64::saturating_add(1)`. -/
def nextIndex (index : Int) : Int := min (index + 1) (2 ^ 63 - 1)

/-- Where the reading begins. -/
def Place.start {F : Type} (layout : Layout) (head : Head F) (index : Int) : Place F :=
  match layout, head with
  | .info, head | .clients, head => .info head
  | .scalar _, head => .scalar head
  | .scan form, _ => .scanCursor form
  | .pairs, .aggregate _ len => .pairs len
  | _, .aggregate _ len => .elements len index
  | _, head => .scalar head

section

variable {F Row σ : Type} (floats : Resp.Floats F) (src : Source σ) (cost : Nat)
  (r : Rendering F Row)

def pageAt (form : ScanForm) (cursor : Str) : Head F → Scan σ RedisError (Place F)
  | .aggregate kind len => do
      let remaining ← wired (Scan.answer (kind.elements len))
      pure (.scanPage form cursor remaining false)
  | .null => pure (.scanPage form cursor 0 false)
  | _ => Scan.answer (.error (.unexpectedReply "SCAN" "the page is not an array"))

/-- The next element, or the one that was read to name the columns. -/
def nextElement (pending : Option (Resp.Value F)) : Scan σ RedisError (Resp.Value F) :=
  match pending with
  | some value => pure value
  | none => do
      let value ← nextValue floats src cost
      pure value.1

/-- The second element of a row of a page, when rows have two and it is there. -/
def nextSecond (form : ScanForm) (remaining : Nat) : Scan σ RedisError (Option (Resp.Value F)) :=
  if form.stride = 2 ∧ 2 ≤ remaining then do
    let value ← nextValue floats src cost
    pure (some value.1)
  else pure none

/-- Reads the next unit of the reply: where the reading then stands, and the unit's rows. -/
def Place.read (layout : Layout) (keys : List Str) (pending : Option (Resp.Value F)) :
    Place F → Scan σ RedisError (Place F × Option (List Row))
  | .done | .elements 0 _ | .pairs 0 => pure (.done, none)
  | .scalar head => do
      let value ← wired (restOf floats src cost head maxValueBytes)
      pure (.done, some [r.scalarRow layout value.1])
  | .info head => do
      let value ← wired (restOf floats src cost head maxValueBytes)
      pure (.done, some (r.reportRows layout value.1))
  | .elements (remaining + 1) index => do
      let value ← nextElement floats src cost pending
      pure (.elements remaining (nextIndex index), some (r.elementRows layout keys index value))
  | .pairs (remaining + 1) => do
      let key ← nextValue floats src cost
      let value ← nextValue floats src cost
      pure (.pairs remaining, some [r.pairRow key.1 value.1])
  | .scanCursor form => do
      let cursor ← nextValue floats src cost
      let page ← wired (head floats src)
      let place ← pageAt form (r.cursorText cursor.1) page
      pure (place, none)
  | .scanPage form cursor 0 emitted =>
    -- an empty page still says where to go on
    pure (.done, if emitted then none else some [r.scanRow form cursor none none])
  | .scanPage form cursor (remaining + 1) _ => do
      let first ← nextValue floats src cost
      let second ← nextSecond floats src cost form (remaining + 1)
      pure (.scanPage form cursor (remaining + 1 - form.stride) true,
        some [r.scanRow form cursor (some first.1) second])

/-- The element read ahead is the next one's. -/
def Place.pendingAfter (pending : Option (Resp.Value F)) : Place F → Option (Resp.Value F)
  | .elements (_ + 1) _ => none
  | _ => pending

end

/-! ## The units of a reply -/

section

variable {F Row : Type} (cost : Nat) (r : Rendering F Row)

/-- What a value keeps, read within its bound. -/
def kept (t : Resp.Tree F) : Resp.Value F := (prune cost maxDepth t maxValueBytes).1

def elementsOf : Resp.Tree F → List (Resp.Tree F)
  | .aggregate _ items => items
  | _ => []

def Rendering.pageRows (form : ScanForm) (cursor : Str) : List (Resp.Value F) → List (List Row)
  | [] => []
  | [v] => [[r.scanRow form cursor (some v) none]]
  | v :: w :: vs =>
    if form.stride = 2 then
      [r.scanRow form cursor (some v) (some w)] :: Rendering.pageRows form cursor vs
    else [r.scanRow form cursor (some v) none] :: Rendering.pageRows form cursor (w :: vs)

/-- The units of a page; one without elements has one, which says where to go on. -/
def Rendering.pageUnits (form : ScanForm) (cursor : Str) (emitted : Bool)
    (vs : List (Resp.Value F)) :
    List (List Row) :=
  if vs = [] ∧ emitted = false then [[r.scanRow form cursor none none]]
  else r.pageRows form cursor vs

def Rendering.elementUnits (layout : Layout) (keys : List Str) :
    Int → List (Resp.Value F) → List (List Row)
  | _, [] => []
  | index, v :: vs =>
    r.elementRows layout keys index v :: Rendering.elementUnits layout keys (nextIndex index) vs

/-- The units of what is left of a reply. -/
def Place.units (layout : Layout) (keys : List Str) : Place F → List (Resp.Tree F) → List (List Row)
  | .done, _ => []
  | .scalar _, ts => ts.map fun t => [r.scalarRow layout (kept cost t)]
  | .info _, ts => ts.map fun t => r.reportRows layout (kept cost t)
  | .elements _ index, ts => r.elementUnits layout keys index (ts.map (kept cost))
  | .pairs _, ts => (pairUp (ts.map (kept cost))).map fun p => [r.pairRow p.1 p.2]
  | .scanCursor form, [cursor, page] =>
    r.pageUnits form (r.cursorText (kept cost cursor)) false ((elementsOf page).map (kept cost))
  | .scanCursor _, _ => []
  | .scanPage form cursor _ emitted, ts => r.pageUnits form cursor emitted (ts.map (kept cost))

def Place.begins : Place F → Resp.Tree F → List (Resp.Tree F)
  | .scalar _, t | .info _, t => [t]
  | _, t => elementsOf t

end

/-! ## What is left on the wire -/

section

variable {F Row : Type} {ending : Ending} {floats : Resp.Floats F} {cost : Nat}
  {r : Rendering F Row}

variable (ending) in
theorem nextValue_reads {t : Resp.Tree F} {ts : List (Resp.Tree F)} {left : Bytes}
    (hts : Encodes floats (t :: ts) left) (hsmall : left.length ≤ u64Max) :
    ∃ others, Encodes floats ts others ∧ others.length ≤ u64Max ∧
      ∀ cost late, nextValue floats (flat ending) cost (behind (left ++ late)) =
        (.ok (prune cost maxDepth t maxValueBytes), behind (others ++ late)) := by
  obtain ⟨one, others, hd, body, rfl, hothers, hopens⟩ := first_of_encodes ending hts hsmall rfl
  rw [List.length_append] at hsmall
  refine ⟨others, hothers, by omega, fun cost late => wired_ok ?_⟩
  rw [List.append_assoc]
  exact hopens.reads.read (by omega) cost maxDepth maxValueBytes (others ++ late)

theorem restOf_reads {t : Resp.Tree F} {one left : Bytes} {h : Head F}
    (hopens : Opens ending floats t one h left) (hsmall : one.length ≤ u64Max) (cost : Nat)
    (late : Bytes) :
    wired (restOf floats (flat ending) cost h maxValueBytes) (behind (left ++ late)) =
      (.ok (prune cost maxDepth t maxValueBytes), behind late) := by
  have hread := hopens.reads.read hsmall cost maxDepth maxValueBytes late
  have hbind : readOne ending floats cost maxDepth maxValueBytes (behind (one ++ late)) =
      element floats (flat ending) cost maxDepth h maxValueBytes (behind (left ++ late)) :=
    bind_ok (hopens.head late)
  exact wired_ok (hbind.symm.trans hread)

/-- The trees that are left of a reply, in each place: an element read ahead is the first. -/
def Stands (ending : Ending) (floats : Resp.Floats F) (cost : Nat) (pending : Option (Resp.Value F))
    (ts : List (Resp.Tree F)) (left : Bytes) : Place F → Prop
  | .done => ts = []
  | .scalar h | .info h =>
    ∃ t one, ts = [t] ∧ Opens ending floats t one h left ∧ one.length ≤ u64Max
  | .elements remaining _ =>
    ts.length = remaining ∧ left.length ≤ u64Max ∧
      match pending with
      | none => Encodes floats ts left
      | some value => ∃ t us, ts = t :: us ∧ value = kept cost t ∧ Encodes floats us left
  | .pairs remaining => ts.length = 2 * remaining ∧ left.length ≤ u64Max ∧ Encodes floats ts left
  | .scanCursor _ => ts.length = 2 ∧ left.length ≤ u64Max ∧ Encodes floats ts left
  | .scanPage _ _ remaining _ =>
    ts.length = remaining ∧ left.length ≤ u64Max ∧ Encodes floats ts left

variable (ending floats cost r) in
def Takes (layout : Layout) (keys : List Str) (units : List (List Row))
    (pending : Option (Resp.Value F)) (late : Bytes) (answer : Place F × Option (List Row))
    (s : Flat) : Prop :=
  ∃ ts left, s = behind (left ++ late) ∧ Stands ending floats cost pending ts left answer.1 ∧
    units = answer.2.toList ++ answer.1.units cost r layout keys ts

variable {layout : Layout} {keys : List Str} {pending : Option (Resp.Value F)}
  {ts : List (Resp.Tree F)}
  {left late : Bytes} {answer : Place F × Option (List Row)} {s : Flat}

theorem takes_whole {h : Head F} (rows : Resp.Value F → List Row)
    (hstands : ∃ t one, ts = [t] ∧ Opens ending floats t one h left ∧ one.length ≤ u64Max)
    (hread : (wired (restOf floats (flat ending) cost h maxValueBytes) >>= fun value =>
      pure (.done, some (rows value.1))) (behind (left ++ late)) = (.ok answer, s)) :
    Takes ending floats cost r layout keys (ts.map fun t => rows (kept cost t)) pending late answer
      s := by
  obtain ⟨t, one, rfl, hopens, hsmall⟩ := hstands
  rw [bind_ok (restOf_reads hopens hsmall cost late)] at hread
  cases hread
  exact ⟨[], [], rfl, rfl, rfl⟩

theorem nextElement_reads {remaining : Nat} {index : Int}
    (h : Stands ending floats cost pending ts left (.elements (remaining + 1) index)) :
    ∃ t us others, ts = t :: us ∧ Encodes floats us others ∧ others.length ≤ u64Max ∧
      us.length = remaining ∧
      ∀ late, nextElement floats (flat ending) cost pending (behind (left ++ late)) =
        (.ok (kept cost t), behind (others ++ late)) := by
  obtain ⟨hlen, hsmall, hencodes⟩ := h
  cases pending with
  | some value =>
    obtain ⟨t, us, rfl, rfl, hus⟩ := hencodes
    exact ⟨t, us, left, rfl, hus, hsmall, Nat.succ.inj hlen, fun late => rfl⟩
  | none =>
    cases ts with
    | nil => cases hlen
    | cons t us =>
      obtain ⟨others, hothers, hle, hread⟩ := nextValue_reads ending hencodes hsmall
      refine ⟨t, us, others, rfl, hothers, hle, Nat.succ.inj hlen, fun late => ?_⟩
      rw [nextElement, bind_ok (hread cost late)]
      rfl

theorem pageAt_reads {form : ScanForm} {cursor : Str} {page : Resp.Tree F} {one body : Bytes}
    {h : Head F} {place : Place F} (hopens : Opens ending floats page one h body)
    (hsmall : one.length ≤ u64Max)
    (hpage : pageAt form cursor h (behind (body ++ late)) = (.ok place, s)) :
    s = behind (body ++ late) ∧
      place = .scanPage form cursor (elementsOf page).length false ∧
      Encodes floats (elementsOf page) body := by
  have hbody : body.length ≤ u64Max := hopens.length_le.trans hsmall
  unfold pageAt at hpage
  split at hpage
  next kind len =>
    obtain ⟨items, rfl, hitems, hlen⟩ := hopens.opened.items
    have hle := (readAll_of_encodes ending hitems).length_le
    have helements : wired (Scan.answer (kind.elements len)) (behind (body ++ late)) =
        (.ok items.length, behind (body ++ late)) := by
      refine wired_ok ?_
      rw [elements_of_length hlen (hle.trans hbody)]
      rfl
    rw [bind_ok helements] at hpage
    cases hpage
    exact ⟨rfl, rfl, hitems⟩
  next =>
    cases hpage
    have hreads := hopens.opened.reads nofun
    have hnone : elementsOf page = [] := by
      cases hopens.opened with
      | scalar _ hnot =>
        cases page with
        | aggregate kind items => exact absurd rfl (hnot kind items)
        | _ => rfl
    rw [hnone, HeadReads.eq_nil hreads fun _ => rfl]
    exact ⟨rfl, rfl, .nil⟩
  next => cases hpage

theorem pageRows_one {form : ScanForm} {v : Resp.Value F} {vs : List (Resp.Value F)}
    (h : ¬ (form.stride = 2 ∧ vs ≠ [])) (cursor : Str) :
    r.pageRows form cursor (v :: vs) =
      [r.scanRow form cursor (some v) none] :: r.pageRows form cursor vs := by
  cases vs with
  | nil => rfl
  | cons w vs =>
    rw [Rendering.pageRows, if_neg fun htwo => h ⟨htwo, List.cons_ne_nil w vs⟩]

theorem pageRows_two {form : ScanForm} (h : form.stride = 2) (cursor : Str) (v w : Resp.Value F)
    (vs : List (Resp.Value F)) :
    r.pageRows form cursor (v :: w :: vs) =
      [r.scanRow form cursor (some v) (some w)] :: r.pageRows form cursor vs := by
  rw [Rendering.pageRows, if_pos h]

theorem pageUnits_cons (form : ScanForm) (cursor : Str) (emitted : Bool) (v : Resp.Value F)
    (vs : List (Resp.Value F)) :
    r.pageUnits form cursor emitted (v :: vs) = r.pageRows form cursor (v :: vs) :=
  if_neg fun h => absurd h.1 (List.cons_ne_nil v vs)

theorem pageUnits_emitted (form : ScanForm) (cursor : Str) (vs : List (Resp.Value F)) :
    r.pageUnits form cursor true vs = r.pageRows form cursor vs :=
  if_neg fun h => absurd h.2 (Bool.noConfusion)

theorem stride_cases (form : ScanForm) : form.stride = 1 ∨ form.stride = 2 := by
  cases form with
  | keys => exact .inl rfl
  | hashFields => exact .inr rfl
  | hashFieldNames | members => exact .inl rfl
  | scoredMembers => exact .inr rfl

theorem takes_row {form : ScanForm} {cursor : Str} {remaining : Nat} {emitted : Bool}
    (hstands : Stands ending floats cost pending ts left
      (.scanPage form cursor (remaining + 1) emitted))
    (hread : (nextValue floats (flat ending) cost >>= fun first =>
      nextSecond floats (flat ending) cost form (remaining + 1) >>= fun second =>
        pure (Place.scanPage form cursor (remaining + 1 - form.stride) true,
          some [r.scanRow form cursor (some first.1) second])) (behind (left ++ late)) =
        (.ok answer, s)) :
    Takes ending floats cost r layout keys
      (r.pageUnits form cursor emitted (ts.map (kept cost))) pending late answer s := by
  obtain ⟨hlen, hsmall, hencodes⟩ := hstands
  cases ts with
  | nil => cases hlen
  | cons t ts =>
    obtain ⟨mid, hmid, hmidsmall, hfirst⟩ := nextValue_reads ending hencodes hsmall
    have hrest : ts.length = remaining := Nat.succ.inj hlen
    rw [bind_ok (hfirst cost late), nextSecond] at hread
    rw [List.map_cons, pageUnits_cons]
    by_cases htwo : form.stride = 2 ∧ 2 ≤ remaining + 1
    · rw [if_pos htwo] at hread
      cases ts with
      | nil =>
        rw [← hrest, List.length_nil] at htwo
        exact absurd htwo.2 (by decide)
      | cons u us =>
        obtain ⟨others, hothers, hle, hsecond⟩ := nextValue_reads ending hmid hmidsmall
        have hpair : (nextValue floats (flat ending) cost >>= fun value =>
            pure (some value.1)) (behind (mid ++ late)) =
            (.ok (some (kept cost u)), behind (others ++ late)) := by
          rw [bind_ok (hsecond cost late)]
          rfl
        rw [bind_ok hpair] at hread
        cases hread
        rw [List.map_cons, pageRows_two htwo.1]
        rw [List.length_cons] at hrest
        refine ⟨us, others, rfl, ⟨by omega, hle, hothers⟩, ?_⟩
        exact congrArg _ (pageUnits_emitted form cursor _).symm
    · rw [if_neg htwo] at hread
      cases hread
      have hone : ¬ (form.stride = 2 ∧ ts.map (kept cost) ≠ []) := by
        rintro ⟨hstride, hsome⟩
        have hpos := List.length_pos_iff.mpr hsome
        rw [List.length_map] at hpos
        omega
      rw [pageRows_one hone]
      refine ⟨ts, mid, rfl, ⟨?_, hmidsmall, hmid⟩, ?_⟩
      · have hstride := stride_cases form
        omega
      · exact congrArg _ (pageUnits_emitted form cursor _).symm

theorem read_scanCursor {form : ScanForm} {c page : Resp.Tree F}
    (hstands : Stands ending floats cost pending [c, page] left (.scanCursor form))
    (hread : (Place.scanCursor form).read floats (flat ending) cost r layout keys pending
      (behind (left ++ late)) = (.ok answer, s)) :
    ∃ body, s = behind (body ++ late) ∧ Encodes floats (elementsOf page) body ∧
      body.length ≤ u64Max ∧
      answer =
        (.scanPage form (r.cursorText (kept cost c)) (elementsOf page).length false, none) := by
  obtain ⟨-, hsmall, hencodes⟩ := hstands
  obtain ⟨mid, hmid, hmidsmall, hcursor⟩ := nextValue_reads ending hencodes hsmall
  obtain ⟨one, rest, h, body, rfl, hrest, hopens⟩ := first_of_encodes ending hmid hmidsmall rfl
  cases hrest
  rw [List.append_nil] at hcursor hmidsmall
  have hrun : (nextValue floats (flat ending) cost >>= fun cursor =>
      wired (Resp.head floats (flat ending)) >>= fun page =>
        pageAt form (r.cursorText cursor.1) page >>= fun place => pure (place, none))
          (behind (left ++ late)) = (.ok answer, s) := hread
  rw [bind_ok (hcursor cost late), bind_ok (wired_ok (hopens.head late))] at hrun
  obtain ⟨place, s', hpage, hdone⟩ := bind_eq_ok hrun
  cases hdone
  obtain ⟨rfl, rfl, hitems⟩ := pageAt_reads hopens hmidsmall hpage
  exact ⟨body, rfl, hitems, hopens.length_le.trans hmidsmall, rfl⟩

theorem read_unit {place : Place F} (hstands : Stands ending floats cost pending ts left place)
    (hread : place.read floats (flat ending) cost r layout keys pending (behind (left ++ late)) =
      (.ok answer, s)) :
    Takes ending floats cost r layout keys (place.units cost r layout keys ts)
      (place.pendingAfter pending) late answer s := by
  cases place with
  | done =>
    cases hread
    obtain rfl := hstands
    exact ⟨[], left, rfl, rfl, rfl⟩
  | scalar h => exact takes_whole (fun v => [r.scalarRow layout v]) hstands hread
  | info h => exact takes_whole (r.reportRows layout) hstands hread
  | elements remaining index =>
    cases remaining with
    | zero =>
      cases hread
      obtain rfl := List.length_eq_zero_iff.mp hstands.1
      exact ⟨[], left, rfl, rfl, rfl⟩
    | succ remaining =>
      obtain ⟨t, us, others, rfl, hus, hsmall, hlen, hnext⟩ := nextElement_reads hstands
      have hrun : (nextElement floats (flat ending) cost pending >>= fun value =>
          pure (Place.elements remaining (nextIndex index),
            some (r.elementRows layout keys index value))) (behind (left ++ late)) =
          (.ok answer, s) := hread
      rw [bind_ok (hnext late)] at hrun
      cases hrun
      exact ⟨us, others, rfl, ⟨hlen, hsmall, hus⟩, rfl⟩
  | pairs remaining =>
    obtain ⟨hlen, hsmall, hencodes⟩ := hstands
    cases remaining with
    | zero =>
      cases hread
      obtain rfl := List.length_eq_zero_iff.mp hlen
      exact ⟨[], left, rfl, rfl, rfl⟩
    | succ remaining =>
      match ts, hlen with
      | k :: v :: us, hlen =>
        obtain ⟨mid, hmid, hmidsmall, hkey⟩ := nextValue_reads ending hencodes hsmall
        obtain ⟨others, hothers, hle, hvalue⟩ := nextValue_reads ending hmid hmidsmall
        have hrun : (nextValue floats (flat ending) cost >>= fun key =>
            nextValue floats (flat ending) cost >>= fun value =>
              pure (Place.pairs remaining, some [r.pairRow key.1 value.1]))
                (behind (left ++ late)) = (.ok answer, s) := hread
        rw [bind_ok (hkey cost late), bind_ok (hvalue cost late)] at hrun
        cases hrun
        refine ⟨us, others, rfl, ⟨?_, hle, hothers⟩, rfl⟩
        simp only [List.length_cons] at hlen
        omega
  | scanCursor form =>
    obtain ⟨c, page, rfl⟩ := List.length_eq_two.mp hstands.1
    obtain ⟨body, rfl, hitems, hbody, rfl⟩ := read_scanCursor hstands hread
    exact ⟨elementsOf page, body, rfl, ⟨rfl, hbody, hitems⟩, rfl⟩
  | scanPage form cursor remaining emitted =>
    cases remaining with
    | zero =>
      cases hread
      obtain rfl := List.length_eq_zero_iff.mp hstands.1
      refine ⟨[], left, rfl, rfl, ?_⟩
      cases emitted with
      | true => rfl
      | false => rfl
    | succ remaining => exact takes_row hstands hread

/-! ## Pages -/

def Place.form : Place F → Option ScanForm
  | .scanCursor form => some form
  | .scanPage form _ _ _ => some form
  | _ => none

theorem read_page_end {σ : Type} {src : Source σ} {form : ScanForm} {cursor : Str}
    {emitted : Bool} {s s' : σ}
    (h : (Place.scanPage form cursor 0 emitted).read floats src cost r layout keys pending s =
      (.ok answer, s')) : answer.1 = .done := by
  cases h
  rfl

theorem read_page_row {σ : Type} {src : Source σ} {form : ScanForm} {cursor : Str}
    {remaining : Nat} {emitted : Bool} {s s' : σ}
    (h : (Place.scanPage form cursor (remaining + 1) emitted).read floats src cost r layout keys
      pending s = (.ok answer, s')) :
    ∃ row, answer = (.scanPage form cursor (remaining + 1 - form.stride) true, some [row]) := by
  obtain ⟨first, mid, -, h⟩ := bind_eq_ok h
  obtain ⟨second, mid', -, h⟩ := bind_eq_ok h
  cases h
  exact ⟨_, rfl⟩

theorem form_of_read {σ : Type} {src : Source σ} {place : Place F} {form : ScanForm} {s s' : σ}
    (h : place.read floats src cost r layout keys pending s = (.ok answer, s'))
    (hform : answer.1.form = some form) : place.form = some form := by
  cases place with
  | done =>
    cases h
    cases hform
  | scalar head | info head =>
    obtain ⟨value, mid, -, h⟩ := bind_eq_ok h
    cases h
    cases hform
  | elements remaining index =>
    cases remaining with
    | zero =>
      cases h
      cases hform
    | succ remaining =>
      obtain ⟨value, mid, -, h⟩ := bind_eq_ok h
      cases h
      cases hform
  | pairs remaining =>
    cases remaining with
    | zero =>
      cases h
      cases hform
    | succ remaining =>
      obtain ⟨key, mid, -, h⟩ := bind_eq_ok h
      obtain ⟨value, mid', -, h⟩ := bind_eq_ok h
      cases h
      cases hform
  | scanCursor form' =>
    obtain ⟨cursor, mid, -, h⟩ := bind_eq_ok h
    obtain ⟨page, mid', -, h⟩ := bind_eq_ok h
    obtain ⟨place, mid'', hplace, h⟩ := bind_eq_ok h
    cases h
    unfold pageAt at hplace
    split at hplace
    next =>
      obtain ⟨remaining, mid₃, -, hplace⟩ := bind_eq_ok hplace
      cases hplace
      exact hform
    next =>
      cases hplace
      exact hform
    next => cases hplace
  | scanPage form' cursor remaining emitted =>
    cases remaining with
    | zero =>
      cases h
      cases hform
    | succ remaining =>
      obtain ⟨row, rfl⟩ := read_page_row h
      exact hform

/-! ## A reading goes on -/

/-- The second element of a page's reply is an array. -/
def Place.Readable : Place F → List (Resp.Tree F) → Prop
  | .scanCursor _, ts => ∃ cursor kind items, ts = [cursor, .aggregate kind items]
  | _, _ => True

variable (cost late) in
theorem nextSecond_reads (form : ScanForm) {remaining : Nat} (hlen : ts.length = remaining)
    (hsmall : left.length ≤ u64Max) (hencodes : Encodes floats ts left) :
    ∃ second others, nextSecond floats (flat ending) cost form (remaining + 1)
      (behind (left ++ late)) = (.ok second, behind (others ++ late)) := by
  unfold nextSecond
  by_cases htwo : form.stride = 2 ∧ 2 ≤ remaining + 1
  · rw [if_pos htwo]
    obtain ⟨u, us, rfl⟩ := List.exists_of_length_succ (n := remaining - 1) ts (by omega)
    obtain ⟨others, -, -, hread⟩ := nextValue_reads ending hencodes hsmall
    rw [bind_ok (hread cost late)]
    exact ⟨_, others, rfl⟩
  · rw [if_neg htwo]
    exact ⟨none, left, rfl⟩

theorem read_goes_on (r : Rendering F Row) (layout : Layout) (keys : List Str) {place : Place F}
    (hstands : Stands ending floats cost pending ts left place) (hreadable : place.Readable ts)
    (late : Bytes) :
    ∃ answer s, place.read floats (flat ending) cost r layout keys pending
      (behind (left ++ late)) = (.ok answer, s) := by
  cases place with
  | done => exact ⟨_, _, rfl⟩
  | scalar h | info h =>
    obtain ⟨t, one, -, hopens, hsmall⟩ := hstands
    exact ⟨_, _, bind_ok (restOf_reads hopens hsmall cost late)⟩
  | elements remaining index =>
    cases remaining with
    | zero => exact ⟨_, _, rfl⟩
    | succ remaining =>
      obtain ⟨t, us, others, -, -, -, -, hnext⟩ := nextElement_reads hstands
      exact ⟨_, _, bind_ok (hnext late)⟩
  | pairs remaining =>
    obtain ⟨hlen, hsmall, hencodes⟩ := hstands
    cases remaining with
    | zero => exact ⟨_, _, rfl⟩
    | succ remaining =>
      obtain ⟨k, us, rfl⟩ := List.exists_of_length_succ (n := 2 * remaining + 1) ts hlen
      obtain ⟨v, us, rfl⟩ :=
        List.exists_of_length_succ (n := 2 * remaining) us (Nat.succ.inj hlen)
      obtain ⟨mid, hmid, hmidsmall, hkey⟩ := nextValue_reads ending hencodes hsmall
      obtain ⟨others, -, -, hvalue⟩ := nextValue_reads ending hmid hmidsmall
      exact ⟨_, _, (bind_ok (hkey cost late)).trans (bind_ok (hvalue cost late))⟩
  | scanCursor form =>
    obtain ⟨c, kind, items, rfl⟩ := hreadable
    obtain ⟨-, hsmall, hencodes⟩ := hstands
    obtain ⟨mid, hmid, hmidsmall, hcursor⟩ := nextValue_reads ending hencodes hsmall
    obtain ⟨one, rest, h, body, rfl, hrest, hopens⟩ :=
      first_of_encodes ending hmid hmidsmall rfl
    cases hrest
    rw [List.append_nil] at hcursor hmidsmall
    cases hopens.opened with
    | scalar _ hnot => exact absurd rfl (hnot kind items)
    | @aggregate _ _ len _ hlen hitems =>
      have hle := (readAll_of_encodes ending hitems).length_le
      have hbody : body.length ≤ u64Max := hopens.length_le.trans hmidsmall
      have helements : wired (Scan.answer (kind.elements len)) (behind (body ++ late)) =
          (.ok items.length, behind (body ++ late)) := by
        refine wired_ok ?_
        rw [elements_of_length hlen (hle.trans hbody)]
        rfl
      have hpage : pageAt (F := F) form (r.cursorText (kept cost c)) (.aggregate kind len)
          (behind (body ++ late)) =
            (.ok (.scanPage form (r.cursorText (kept cost c)) items.length false),
              behind (body ++ late)) := bind_ok helements
      exact ⟨_, _, (bind_ok (hcursor cost late)).trans
        ((bind_ok (wired_ok (hopens.head late))).trans (bind_ok hpage))⟩
  | scanPage form cursor remaining emitted =>
    obtain ⟨hlen, hsmall, hencodes⟩ := hstands
    cases remaining with
    | zero => exact ⟨_, _, rfl⟩
    | succ remaining =>
      obtain ⟨t, us, rfl⟩ := List.exists_of_length_succ ts hlen
      obtain ⟨mid, hmid, hmidsmall, hfirst⟩ := nextValue_reads ending hencodes hsmall
      obtain ⟨second, others, hsecond⟩ :=
        nextSecond_reads cost late form (Nat.succ.inj hlen)
          hmidsmall hmid
      exact ⟨_, _, (bind_ok (hfirst cost late)).trans (bind_ok hsecond)⟩

/-- How many steps are left at most, a page having so many elements. -/
def Place.weight (count : Nat) : Place F → Nat
  | .done => 0
  | .scalar _ | .info _ => 1
  | .elements remaining _ => remaining
  | .pairs remaining => remaining
  | .scanCursor _ => count + 2
  | .scanPage _ _ remaining _ => remaining + 1

theorem weight_of_read {place : Place F} {count : Nat}
    (hstands : Stands ending floats cost pending ts left place) (hmore : place.hasMore = true)
    (hread : place.read floats (flat ending) cost r layout keys pending (behind (left ++ late)) =
      (.ok answer, s))
    (hcount : ∀ form, place = .scanCursor form →
      ∃ cursor page, ts = [cursor, page] ∧ (elementsOf page).length = count) :
    answer.1.weight count < place.weight count := by
  cases place with
  | done => cases hmore
  | scalar h | info h =>
    obtain ⟨value, mid, -, hread⟩ := bind_eq_ok hread
    cases hread
    exact Nat.one_pos
  | elements remaining index =>
    cases remaining with
    | zero => cases hmore
    | succ remaining =>
      obtain ⟨value, mid, -, hread⟩ := bind_eq_ok hread
      cases hread
      exact Nat.lt_succ_self remaining
  | pairs remaining =>
    cases remaining with
    | zero => cases hmore
    | succ remaining =>
      obtain ⟨key, mid, -, hread⟩ := bind_eq_ok hread
      obtain ⟨value, mid', -, hread⟩ := bind_eq_ok hread
      cases hread
      exact Nat.lt_succ_self remaining
  | scanCursor form =>
    obtain ⟨c, page, rfl, rfl⟩ := hcount form rfl
    obtain ⟨body, -, -, -, rfl⟩ := read_scanCursor hstands hread
    exact Nat.lt_succ_self _
  | scanPage form cursor remaining emitted =>
    cases remaining with
    | zero =>
      obtain ⟨place, rows⟩ := answer
      obtain rfl : place = .done := read_page_end hread
      exact Nat.one_pos
    | succ remaining =>
      obtain ⟨row, rfl⟩ := read_page_row hread
      have hstride := stride_cases form
      simp only [Place.weight]
      omega

/-! ## Where the reading begins -/

/-- The place, its rows forgotten. -/
def Place.state : Place F → State F
  | .scalar h => .scalar h
  | .info h => .info h
  | .elements remaining _ => .elements remaining
  | .pairs remaining => .pairs remaining
  | .scanCursor form => .scanCursor form
  | .scanPage form _ remaining emitted => .scanPage form remaining emitted
  | .done => .done

theorem start_state (layout : Layout) (h : Head F) (index : Int) :
    (Place.start layout h index).state = State.start layout h := by
  cases layout <;> cases h <;> rfl

theorem eq_elements_of_state {place : Place F} {n : Nat} (h : place.state = .elements n) :
    ∃ index, place = .elements n index := by
  cases place with
  | elements remaining index =>
    cases h
    exact ⟨index, rfl⟩
  | _ => cases h

theorem eq_scanCursor_of_state {place : Place F} {form : ScanForm}
    (h : place.state = .scanCursor form) : place = .scanCursor form := by
  cases place with
  | scanCursor form' =>
    cases h
    rfl
  | _ => cases h

theorem stands_scalar {t : Resp.Tree F} {one body : Bytes} {h : Head F} {place : Place F}
    (hopens : Opens ending floats t one h body) (hsmall : one.length ≤ u64Max)
    (hplace : place = .info h ∨ place = .scalar h) :
    Stands ending floats cost none (place.begins t) body place := by
  rcases hplace with rfl | rfl
  · exact ⟨t, one, rfl, hopens, hsmall⟩
  · exact ⟨t, one, rfl, hopens, hsmall⟩

theorem start_text_place (argv : List Bytes) (h : Head F)
    (hscalar : ∀ index, Place.start (.scalar .text) h index = .scalar h) (index : Int) :
    Place.start (textLayout (commandOf argv) argv) h index = .info h ∨
      Place.start (textLayout (commandOf argv) argv) h index = .scalar h := by
  unfold textLayout
  split
  · exact .inl rfl
  · split
    · exact .inl rfl
    · exact .inr (hscalar index)

variable (cost) in
theorem start_stands (argv : List Bytes) (index : Int) {t : Resp.Tree F} {one body : Bytes}
    {h : Head F}
    (hopens : Opens ending floats t one h body) (hsmall : one.length ≤ u64Max) :
    Stands ending floats cost none
      ((Place.start (Layout.choose argv h) h index).begins t) body
      (Place.start (Layout.choose argv h) h index) := by
  have hbody : body.length ≤ u64Max := hopens.length_le.trans hsmall
  cases h with
  | aggregate kind len =>
    obtain ⟨items, rfl, hitems, hlen⟩ := hopens.opened.items
    cases kind with
    | map => exact ⟨hlen, hbody, hitems⟩
    | set | push => exact ⟨hlen.trans (Nat.one_mul len), hbody, hitems⟩
    | array =>
      have hcount : items.length = len := hlen.trans (Nat.one_mul len)
      have hstate := start_state (F := F) (arrayLayout (commandOf argv) argv len)
        (.aggregate .array len) index
      rcases start_array (F := F) (commandOf argv) argv len with hstart | ⟨form, hstart, rfl⟩
      · obtain ⟨index', hplace⟩ := eq_elements_of_state (hstate.trans hstart)
        rw [Layout.choose, hplace]
        exact ⟨hcount, hbody, hitems⟩
      · rw [Layout.choose, eq_scanCursor_of_state (hstate.trans hstart)]
        exact ⟨hcount, hbody, hitems⟩
  | bulk len
  | verbatim len => exact stands_scalar hopens hsmall (start_text_place argv _ (fun _ => rfl) index)
  | simple text | error text | bulkError len | integer n | double x | boolean b | bigNumber digits
  | null => exact stands_scalar hopens hsmall (.inr rfl)

end

end Oxyn.Redis
