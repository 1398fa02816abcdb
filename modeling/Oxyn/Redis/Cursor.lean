/-
# `Oxyn.Redis.Cursor` — how a reply is read, element by element

The layout of a reply follows its head and the command; the state of the reading follows the
layout, and each step reads the next unit of the reply.
-/
import Oxyn.Redis.Reply

namespace Oxyn.Redis

open Text Resp

/-! ## The layout -/

/-- The type of a scalar reply. -/
inductive ScalarKind where
  | text | integer | double | boolean | bigNumber | null
deriving DecidableEq

/-- The element a `SCAN`-family page lists. -/
inductive ScanForm where
  | keys | hashFields | hashFieldNames | members | scoredMembers
deriving DecidableEq

/-- How many reply elements make one row. -/
def ScanForm.stride : ScanForm → Nat
  | .keys | .hashFieldNames | .members => 1
  | .hashFields | .scoredMembers => 2

/-- How a reply becomes rows. -/
inductive Layout where
  | scalar (kind : ScalarKind)
  | elements | pairs
  | scan (form : ScanForm)
  | scored | streamEntries | samples | info | slowlog | clients | records
deriving DecidableEq

def lowerByte (b : UInt8) : UInt8 := if 65 ≤ b ∧ b ≤ 90 then b + 32 else b

/-- `<[u8]>::eq_ignore_ascii_case`, against an ASCII name. -/
def isNamed (word : Bytes) (name : String) : Bool :=
  word.map lowerByte == (Text.bytes name.toList).map lowerByte

def hasOptionFrom (valued : List (String × Nat)) (option : String) : Nat → List Bytes → Bool
  | _, [] => false
  | skipped + 1, _ :: rest => hasOptionFrom valued option skipped rest
  | 0, word :: rest =>
    if isNamed word option then true
    else
      hasOptionFrom valued option (((valued.find? fun v => isNamed word v.1).map Prod.snd).getD 0)
        rest

def hasOption (argv : List Bytes) (start : Nat) (valued : List (String × Nat)) (option : String) :
    Bool :=
  hasOptionFrom valued option 0 (argv.drop start)

def commandOf (argv : List Bytes) : Str :=
  ((argv.head?.map fromUtf8Lossy).getD []).map Char.toLower

def hasCommandOption (argv : List Bytes) (option : String) : Bool :=
  if commandOf argv = "hscan".toList then hasOption argv 3 [("match", 1), ("count", 1)] option
  else hasOption argv 4 [("limit", 2)] option

def hasSub (argv : List Bytes) (name : String) : Bool :=
  match argv[1]? with
  | some word => isNamed word name
  | none => false

def arrayLayout (command : Str) (argv : List Bytes) (len : Nat) : Layout :=
  if command = "scan".toList ∧ len = 2 then .scan .keys
  else if command = "hscan".toList ∧ len = 2 then
    if hasCommandOption argv "novalues" then .scan .hashFieldNames else .scan .hashFields
  else if command = "sscan".toList ∧ len = 2 then .scan .members
  else if command = "zscan".toList ∧ len = 2 then .scan .scoredMembers
  else if command ∈ ["zrange", "zrangebyscore", "zrevrange", "zrevrangebyscore"].map String.toList ∧
      hasCommandOption argv "withscores" then .scored
  else if command ∈ ["xrange", "xrevrange"].map String.toList then .streamEntries
  else if command ∈ ["ts.range", "ts.revrange"].map String.toList then .samples
  else if command = "slowlog".toList ∧ hasSub argv "get" then .slowlog
  else if command = "xinfo".toList ∧ (hasSub argv "groups" ∨ hasSub argv "consumers") then .records
  else if command = "acl".toList ∧ hasSub argv "log" then .records
  else if command ∈ ["module", "function"].map String.toList ∧ hasSub argv "list" then .records
  else .elements

def textLayout (command : Str) (argv : List Bytes) : Layout :=
  if command = "info".toList then .info
  else if command = "client".toList ∧ (hasSub argv "list" ∨ hasSub argv "info") then .clients
  else .scalar .text

/-- The layout of a command's reply, from the command and the reply's first head. -/
def Layout.choose {F : Type} (argv : List Bytes) : Head F → Layout
  | .aggregate .map _ => .pairs
  | .aggregate .array len => arrayLayout (commandOf argv) argv len
  | .aggregate _ _ => .elements
  | .bulk _ | .verbatim _ => textLayout (commandOf argv) argv
  | .simple _ | .error _ | .bulkError _ => .scalar .text
  | .integer _ => .scalar .integer
  | .double _ => .scalar .double
  | .boolean _ => .scalar .boolean
  | .bigNumber _ => .scalar .bigNumber
  | .null => .scalar .null

/-! ## The reading -/

/-- Where reading the reply stands. -/
inductive State (F : Type) where
  | scalar (head : Head F)
  | info (head : Head F)
  | elements (remaining : Nat)
  | pairs (remaining : Nat)
  | scanCursor (form : ScanForm)
  | scanPage (form : ScanForm) (remaining : Nat) (emitted : Bool)
  | done

def State.hasMore {F : Type} : State F → Bool
  | .done | .elements 0 | .pairs 0 => false
  | _ => true

/-- Where the reading begins. -/
def State.start {F : Type} (layout : Layout) (head : Head F) : State F :=
  match layout, head with
  | .info, head | .clients, head => .info head
  | .scalar _, head => .scalar head
  | .scan form, _ => .scanCursor form
  | .pairs, .aggregate _ len => .pairs len
  | _, .aggregate _ len => .elements len
  | _, head => .scalar head

def maxValueBytes : Nat := 16 * 2 ^ 20

def wired {σ α : Type} (p : Scan σ WireError α) : Scan σ RedisError α := fun s =>
  match p s with
  | (.ok a, s') => (.ok a, s')
  | (.error e, s') => (.error (.wire e), s')

section

variable {F σ : Type} (floats : Resp.Floats F) (src : Source σ) (cost : Nat)

def nextValue : Scan σ RedisError (Resp.Value F × Nat) :=
  wired (value floats src cost maxValueBytes)

def pageOf (form : ScanForm) : Head F → Scan σ RedisError (State F)
  | .aggregate kind len => do
      let remaining ← wired (Scan.answer (kind.elements len))
      pure (.scanPage form remaining false)
  | .null => pure (.scanPage form 0 false)
  | _ => Scan.answer (.error (.unexpectedReply "SCAN" "the page is not an array"))

/-- The second element of a row of a page, when rows have two and it is there. -/
def secondOf (form : ScanForm) (remaining : Nat) : Scan σ RedisError Unit :=
  if form.stride = 2 ∧ 2 ≤ remaining then do
    let _ ← nextValue floats src cost
    pure ()
  else pure ()

/-- Reads the next unit of the reply; an element may be there already. -/
def State.step (pending : Bool) : State F → Scan σ RedisError (State F)
  | .done | .elements 0 | .pairs 0 => pure .done
  | .scalar head | .info head => do
      let _ ← wired (restOf floats src cost head maxValueBytes)
      pure .done
  | .elements (remaining + 1) =>
    if pending then pure (.elements remaining)
    else do
      let _ ← nextValue floats src cost
      pure (.elements remaining)
  | .pairs (remaining + 1) => do
      let _ ← nextValue floats src cost
      let _ ← nextValue floats src cost
      pure (.pairs remaining)
  | .scanCursor form => do
      let _ ← nextValue floats src cost
      let page ← wired (head floats src)
      pageOf form page
  | .scanPage _ 0 _ => pure .done
  | .scanPage form (remaining + 1) _ => do
      let _ ← nextValue floats src cost
      let _ ← secondOf floats src cost form (remaining + 1)
      pure (.scanPage form (remaining + 1 - form.stride) true)

end

/-! ## What is left -/

section

variable {F : Type} {ending : Ending} {floats : Resp.Floats F}

/-- What is left of the reply in each state, an element read ahead not counted. -/
def Fits (ending : Ending) (floats : Resp.Floats F) (pending : Bool) (state : State F) (left : Bytes) :
    Prop :=
  left.length ≤ u64Max ∧
    match state with
    | .done => left = []
    | .scalar h | .info h => ∃ t one, Opens ending floats t one h left ∧ one.length ≤ u64Max
    | .elements remaining =>
      ∃ ts, Encodes floats ts left ∧ ts.length + pending.toNat = remaining
    | .pairs remaining => ∃ ts, Encodes floats ts left ∧ ts.length = 2 * remaining
    | .scanCursor _ => ∃ ts, Encodes floats ts left ∧ ts.length = 2
    | .scanPage _ remaining _ => ∃ ts, Encodes floats ts left ∧ ts.length = remaining

variable {ts : List (Resp.Tree F)}

variable {left : Bytes}

theorem eq_nil_of_encodes (h : Encodes floats ts left) (hlen : ts.length = 0) : left = [] := by
  cases h with
  | nil => rfl
  | scalar => cases hlen
  | annotated => cases hlen
  | aggregate => cases hlen

theorem Fits.nothing_left {pending : Bool} {state : State F}
    (h : Fits ending floats pending state left) (hmore : state.hasMore = false) : left = [] := by
  obtain ⟨-, h⟩ := h
  unfold State.hasMore at hmore
  split at hmore
  · exact h
  · obtain ⟨ts, hts, hlen⟩ := h
    exact eq_nil_of_encodes hts (Nat.eq_zero_of_add_eq_zero_right hlen)
  · obtain ⟨ts, hts, hlen⟩ := h
    exact eq_nil_of_encodes hts hlen
  · cases hmore

/-! ### Where the reading begins -/

variable {t : Resp.Tree F} {h : Head F}

theorem HeadReads.eq_nil {payload : Bytes} (hreads : HeadReads ending t h payload)
    (hskip : ∀ s, skipHead (flat ending) 0 (.head h) s = (.ok 0, s)) : payload = [] := by
  have hread := hreads.skip 0 []
  rw [hskip] at hread
  have hstate := congrArg (fun p => p.2.rest) hread
  rw [List.append_nil] at hstate
  exact hstate

theorem Opened.items {kind : Aggregate} {len : Nat} {body : Bytes}
    (h : Opened ending floats t (.aggregate kind len) body) :
    ∃ items, t = .aggregate kind items ∧ Encodes floats items body ∧
      items.length = kind.arity * len := by
  cases h with
  | scalar hreads => exact absurd hreads HeadReads.not_aggregate
  | aggregate hlen hitems => exact ⟨_, rfl, hitems, hlen⟩

theorem Opened.reads {body : Bytes}
    (hopened : Opened ending floats t h body) (hnot : ∀ kind len, h ≠ .aggregate kind len) :
    HeadReads ending t h body := by
  cases hopened with
  | scalar hreads => exact hreads
  | @aggregate kind _ len => exact absurd rfl (hnot kind len)

def StartsArray (F : Type) (len : Nat) (layout : Layout) : Prop :=
  State.start layout (.aggregate .array len : Head F) = .elements len ∨
    ∃ form, State.start layout (.aggregate .array len : Head F) = .scanCursor form ∧ len = 2

theorem start_array (command : Str) (argv : List Bytes) (len : Nat) :
    StartsArray F len (arrayLayout command argv len) := by
  have hpage : ∀ form, len = 2 → StartsArray F len (.scan form) :=
    fun form hlen => .inr ⟨form, rfl, hlen⟩
  refine iteInduction (fun h => hpage .keys h.2) fun _ => ?_
  refine iteInduction (fun h => ?_) fun _ => ?_
  · exact iteInduction (fun _ => hpage .hashFieldNames h.2) fun _ => hpage .hashFields h.2
  refine iteInduction (fun h => hpage .members h.2) fun _ => ?_
  refine iteInduction (fun h => hpage .scoredMembers h.2) fun _ => ?_
  -- the others are element by element
  refine iteInduction (fun _ => .inl rfl) fun _ => ?_
  refine iteInduction (fun _ => .inl rfl) fun _ => ?_
  refine iteInduction (fun _ => .inl rfl) fun _ => ?_
  refine iteInduction (fun _ => .inl rfl) fun _ => ?_
  refine iteInduction (fun _ => .inl rfl) fun _ => ?_
  refine iteInduction (fun _ => .inl rfl) fun _ => ?_
  exact iteInduction (fun _ => .inl rfl) fun _ => .inl rfl

/-- A text is a report, or one row. -/
def StartsText (h : Head F) (layout : Layout) : Prop :=
  State.start layout h = .info h ∨ State.start layout h = .scalar h

theorem start_text (command : Str) (argv : List Bytes)
    (hscalar : State.start (.scalar .text) h = .scalar h) :
    StartsText h (textLayout command argv) :=
  iteInduction (fun _ => .inl rfl) fun _ =>
    iteInduction (fun _ => .inl rfl) fun _ => .inr hscalar

theorem start_fits (argv : List Bytes) {one body : Bytes}
    (hopens : Opens ending floats t one h body) (hsmall : one.length ≤ u64Max) :
    Fits ending floats false (State.start (Layout.choose argv h) h) body := by
  have hbody : body.length ≤ u64Max := hopens.length_le.trans hsmall
  have hwhole : Fits ending floats false (.scalar h) body := ⟨hbody, t, one, hopens, hsmall⟩
  have hreport : Fits ending floats false (.info h) body := ⟨hbody, t, one, hopens, hsmall⟩
  match h with
  | .aggregate kind len =>
    obtain ⟨items, -, hitems, hlen⟩ := hopens.opened.items
    cases kind with
    | map => exact ⟨hbody, items, hitems, hlen⟩
    | array =>
      have hcount : items.length = len := hlen.trans (Nat.one_mul len)
      show Fits ending floats false
        (State.start (arrayLayout (commandOf argv) argv len) (.aggregate .array len)) body
      rcases start_array (F := F) (commandOf argv) argv len with hstart | ⟨form, hstart, rfl⟩
      · rw [hstart]
        exact ⟨hbody, items, hitems, hcount⟩
      · rw [hstart]
        exact ⟨hbody, items, hitems, hcount⟩
    | set | push => exact ⟨hbody, items, hitems, hlen.trans (Nat.one_mul len)⟩
  | .bulk len =>
    show Fits ending floats false
      (State.start (textLayout (commandOf argv) argv) (.bulk len)) body
    rcases start_text (F := F) (commandOf argv) argv (h := .bulk len) rfl with hstart | hstart
    · rw [hstart]
      exact hreport
    · rw [hstart]
      exact hwhole
  | .verbatim len =>
    show Fits ending floats false
      (State.start (textLayout (commandOf argv) argv) (.verbatim len)) body
    rcases start_text (F := F) (commandOf argv) argv (h := .verbatim len) rfl with hstart | hstart
    · rw [hstart]
      exact hreport
    · rw [hstart]
      exact hwhole
  | .simple _ => exact hwhole
  | .error _ => exact hwhole
  | .bulkError _ => exact hwhole
  | .integer _ => exact hwhole
  | .double _ => exact hwhole
  | .boolean _ => exact hwhole
  | .bigNumber _ => exact hwhole
  | .null => exact hwhole

/-! ### One step -/

theorem wired_ok {σ α : Type} {p : Scan σ WireError α} {s s' : σ} {a : α}
    (h : p s = (.ok a, s')) : wired p s = (.ok a, s') := by
  unfold wired
  rw [h]

variable (ending) in
theorem nextValue_of_encodes (cost : Nat) {n : Nat}
    (hts : Encodes floats ts left) (hlen : ts.length = n + 1) (hsmall : left.length ≤ u64Max)
    (late : Bytes) :
    ∃ v us others, nextValue floats (flat ending) cost (behind (left ++ late)) =
        (.ok v, behind (others ++ late)) ∧ Encodes floats us others ∧ us.length = n ∧
      others.length ≤ u64Max := by
  match ts, hlen with
  | t :: us, hlen =>
    obtain ⟨others, hothers, hle, hread⟩ := value_of_encodes ending hts hsmall
    obtain ⟨v, hv⟩ := hread cost maxValueBytes late
    exact ⟨v, us, others, wired_ok hv, hothers, Nat.succ.inj hlen, hle.trans hsmall⟩

theorem pageOf_fits {form : ScanForm} {one body late : Bytes}
    {state : State F} {s : Flat} (hopens : Opens ending floats t one h body)
    (hsmall : one.length ≤ u64Max)
    (hpage : pageOf form h (behind (body ++ late)) = (.ok state, s)) :
    s = behind (body ++ late) ∧ Fits ending floats false state body := by
  have hbody : body.length ≤ u64Max := hopens.length_le.trans hsmall
  unfold pageOf at hpage
  split at hpage
  next kind len =>
    obtain ⟨items, -, hitems, hlen⟩ := hopens.opened.items
    have hle := (readAll_of_encodes ending hitems).length_le
    have helements : wired (Scan.answer (kind.elements len)) (behind (body ++ late)) =
        (.ok items.length, behind (body ++ late)) := by
      refine wired_ok ?_
      rw [elements_of_length hlen (hle.trans hbody)]
      rfl
    rw [Scan.bind_ok helements] at hpage
    cases hpage
    exact ⟨rfl, hbody, items, hitems, rfl⟩
  next =>
    cases hpage
    refine ⟨rfl, hbody, [], ?_, rfl⟩
    rw [HeadReads.eq_nil (hopens.opened.reads nofun) fun _ => rfl]
    exact .nil
  next => cases hpage

theorem secondOf_of_encodes (cost : Nat) (form : ScanForm) {n : Nat}
    (hts : Encodes floats ts left) (hlen : ts.length = n)
    (hsmall : left.length ≤ u64Max) (late : Bytes) :
    ∃ us others, secondOf floats (flat ending) cost form (n + 1) (behind (left ++ late)) =
        (.ok (), behind (others ++ late)) ∧ Encodes floats us others ∧
      us.length = n + 1 - form.stride ∧ others.length ≤ u64Max := by
  unfold secondOf
  by_cases htwo : form.stride = 2 ∧ 2 ≤ n + 1
  · rw [if_pos htwo]
    obtain ⟨v, us, others, hv, hus, hcount, hothers⟩ :=
      nextValue_of_encodes ending cost (n := n - 1) hts (by omega) hsmall late
    rw [Scan.bind_ok hv]
    exact ⟨us, others, rfl, hus, by omega, hothers⟩
  · rw [if_neg htwo]
    refine ⟨ts, left, rfl, hts, ?_, hsmall⟩
    -- rows of one element, or the last of a page with an odd number
    have hstride : form.stride = 1 ∨ form.stride = 2 := by
      cases form with
      | keys => exact .inl rfl
      | hashFields => exact .inr rfl
      | hashFieldNames | members => exact .inl rfl
      | scoredMembers => exact .inr rfl
    omega

theorem step_fits (cost : Nat) {pending : Bool} {state next : State F} {left late : Bytes} {s : Flat}
    (h : Fits ending floats pending state left)
    (hstep : state.step floats (flat ending) cost pending (behind (left ++ late)) = (.ok next, s)) :
    ∃ left', s = behind (left' ++ late) ∧ Fits ending floats false next left' := by
  have hdone : ∀ {left : Bytes}, left = [] → Fits ending floats false .done left := by
    rintro _ rfl
    exact ⟨Nat.zero_le _, rfl⟩
  have hscalar : ∀ {h : Head F}, (∃ t one, Opens ending floats t one h left ∧ one.length ≤ u64Max) →
      (wired (restOf floats (flat ending) cost h maxValueBytes) >>= fun _ => pure State.done)
        (behind (left ++ late)) = (.ok next, s) →
      ∃ left', s = behind (left' ++ late) ∧ Fits ending floats false next left' := by
    rintro h ⟨t, one, hopens, hsmall⟩ hrun
    obtain ⟨v, hv⟩ := hopens.restOf hsmall cost maxValueBytes late
    rw [Scan.bind_ok (wired_ok hv)] at hrun
    cases hrun
    exact ⟨[], rfl, hdone rfl⟩
  obtain ⟨hsmall, hfits⟩ := h
  match state with
  | .done =>
    cases hstep
    exact ⟨left, rfl, hdone hfits⟩
  | .scalar head => exact hscalar hfits hstep
  | .info head => exact hscalar hfits hstep
  | .elements 0 =>
    cases hstep
    obtain ⟨ts, hts, hlen⟩ := hfits
    exact ⟨left, rfl, hdone (eq_nil_of_encodes hts (Nat.eq_zero_of_add_eq_zero_right hlen))⟩
  | .pairs 0 =>
    cases hstep
    obtain ⟨ts, hts, hlen⟩ := hfits
    exact ⟨left, rfl, hdone (eq_nil_of_encodes hts hlen)⟩
  | .elements (remaining + 1) =>
    obtain ⟨ts, hts, hlen⟩ := hfits
    cases pending with
    | true =>
      cases hstep
      exact ⟨left, rfl, hsmall, ts, hts, Nat.succ.inj hlen⟩
    | false =>
      obtain ⟨v, us, others, hv, hus, hcount, hothers⟩ :=
        nextValue_of_encodes ending cost hts hlen hsmall late
      have hrun : (nextValue floats (flat ending) cost >>= fun _ => pure (.elements remaining))
          (behind (left ++ late)) = (.ok next, s) := hstep
      rw [Scan.bind_ok hv] at hrun
      cases hrun
      exact ⟨others, rfl, hothers, us, hus, hcount⟩
  | .pairs (remaining + 1) =>
    obtain ⟨ts, hts, hlen⟩ := hfits
    obtain ⟨v, us, others, hv, hus, hcount, hothers⟩ :=
      nextValue_of_encodes ending cost (n := 2 * remaining + 1) hts (by omega) hsmall late
    obtain ⟨v', us', others', hv', hus', hcount', hothers'⟩ :=
      nextValue_of_encodes ending cost hus hcount hothers late
    have hrun : (nextValue floats (flat ending) cost >>= fun _ =>
        nextValue floats (flat ending) cost >>= fun _ => pure (.pairs remaining))
          (behind (left ++ late)) = (.ok next, s) := hstep
    rw [Scan.bind_ok hv, Scan.bind_ok hv'] at hrun
    cases hrun
    exact ⟨others', rfl, hothers', us', hus', hcount'⟩
  | .scanCursor form =>
    obtain ⟨ts, hts, hlen⟩ := hfits
    obtain ⟨v, us, others, hv, hus, hcount, hothers⟩ :=
      nextValue_of_encodes ending cost (n := 1) hts hlen hsmall late
    match us, hcount with
    | [t], _ =>
      obtain ⟨one, none', hd, body, rfl, hnone, hopens⟩ :=
        first_of_encodes ending hus hothers rfl
      cases hnone
      rw [List.append_nil] at hv hothers
      have hrun : (nextValue floats (flat ending) cost >>= fun _ =>
          wired (head floats (flat ending)) >>= fun page => pageOf form page)
            (behind (left ++ late)) = (.ok next, s) := hstep
      rw [Scan.bind_ok hv, Scan.bind_ok (wired_ok (hopens.head late))] at hrun
      obtain ⟨rfl, hpage⟩ := pageOf_fits hopens hothers hrun
      exact ⟨body, rfl, hpage⟩
  | .scanPage form 0 _ =>
    cases hstep
    obtain ⟨ts, hts, hlen⟩ := hfits
    exact ⟨left, rfl, hdone (eq_nil_of_encodes hts hlen)⟩
  | .scanPage form (remaining + 1) _ =>
    obtain ⟨ts, hts, hlen⟩ := hfits
    obtain ⟨v, us, others, hv, hus, hcount, hothers⟩ :=
      nextValue_of_encodes ending cost hts hlen hsmall late
    obtain ⟨us', others', hsecond, hus', hcount', hothers'⟩ :=
      secondOf_of_encodes cost form hus hcount hothers late
    have hrun : (nextValue floats (flat ending) cost >>= fun _ =>
        secondOf floats (flat ending) cost form (remaining + 1) >>= fun _ =>
          pure (.scanPage form (remaining + 1 - form.stride) true))
            (behind (left ++ late)) = (.ok next, s) := hstep
    rw [Scan.bind_ok hv, Scan.bind_ok hsecond] at hrun
    cases hrun
    exact ⟨others', rfl, hothers', us', hus', hcount'⟩

end

end Oxyn.Redis
