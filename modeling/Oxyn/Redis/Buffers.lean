/-
# `Oxyn.Redis.Buffers` — the stream in buffers, and as a whole

A line, a payload and a byte read from buffers of any size, as the source reads them, and the same
read from the stream as a whole (`flat`), which knows no buffer.
-/
import Oxyn.Redis.Wire
import Mathlib.Tactic.Basic
import Mathlib.Data.List.Basic

namespace Oxyn.Resp

open List

/-! ## Buffers -/

inductive Ending where
  | closed
  | failed
deriving DecidableEq

def Ending.error : Ending → WireError
  | .closed => .truncated
  | .failed => .io

/-- The bytes before the first line feed, and those behind it. -/
def splitLine : Bytes → Option (Bytes × Bytes)
  | [] => none
  | b :: rest => if b = 10 then some ([], rest) else (splitLine rest).map fun p => (b :: p.1, p.2)

/-- A buffer consumed to its end is gone. -/
def leave (after : Bytes) (rest : List Bytes) : List Bytes :=
  if after.isEmpty then rest else after :: rest

def finishLine (line : Bytes) : Except WireError Bytes :=
  if maxLine + 1 < line.length then .error (.malformed "a line longer than the driver accepts")
  else if line.getLast? = some 13 then .ok line.dropLast
  else .error (.malformed "a line feed without a carriage return")

/-- What was kept of a line of so many bytes, the last of them given. -/
def finishLong (bytes : Bytes) (length : Nat) (last : Option UInt8) : Except WireError Clipped :=
  if last = some 13 then
    .ok ⟨if length - 1 < bytes.length then bytes.dropLast else bytes, length - 1⟩
  else .error (.malformed "a line feed without a carriage return")

section

variable (ending : Ending)

def lineFrom (line : Bytes) : List Bytes → Except WireError Bytes × List Bytes
  | [] => (.error ending.error, [])
  | available :: rest =>
    match splitLine available with
    | some (part, after) => (finishLine (line ++ part), leave after rest)
    | none =>
      if maxLine < (line ++ available).length then
        (.error (.malformed "a line longer than the driver accepts"), rest)
      else lineFrom (line ++ available) rest

def payloadFrom (kept : Nat) (bytes : Bytes) (remaining : Nat) :
    List Bytes → Except WireError Bytes × List Bytes
  | [] => if remaining = 0 then (.ok bytes, []) else (.error ending.error, [])
  | available :: rest =>
    if remaining = 0 then (.ok bytes, available :: rest)
    else
      let take := min remaining available.length
      let bytes := bytes ++ available.take (min (kept - bytes.length) take)
      if remaining - take = 0 then (.ok bytes, leave (available.drop take) rest)
      else payloadFrom kept bytes (remaining - take) rest

def longLineFrom (keep : Nat) (bytes : Bytes) (length : Nat) (last : Option UInt8) :
    List Bytes → Except WireError Clipped × List Bytes
  | [] => (.error ending.error, [])
  | available :: rest =>
    match splitLine available with
    | some (part, after) =>
      (finishLong (bytes ++ part.take (keep - bytes.length))
        (min (length + part.length) u64Max) (part.getLast?.or last), leave after rest)
    | none =>
      longLineFrom keep (bytes ++ available.take (keep - bytes.length))
        (min (length + available.length) u64Max) (available.getLast?.or last) rest

def byteFrom : List Bytes → Except WireError UInt8 × List Bytes
  | (b :: after) :: rest => (.ok b, leave after rest)
  | buffers => (.error ending.error, buffers)

end

def firstOf : List Bytes → Option UInt8
  | (b :: _) :: _ => some b
  | _ => none

def held (buffers : List Bytes) : Nat := buffers.flatten.length

theorem eq_of_splitLine {bytes part after : Bytes} (h : splitLine bytes = some (part, after)) :
    bytes = part ++ 10 :: after := by
  induction bytes generalizing part with
  | nil => cases h
  | cons b rest ih =>
    rw [splitLine] at h
    split at h
    next hb =>
      cases h
      rw [hb]
      rfl
    next =>
      obtain ⟨⟨part', after'⟩, hrest, heq⟩ := Option.map_eq_some_iff.mp h
      cases heq
      rw [ih hrest]
      rfl

@[simp] theorem flatten_leave (after : Bytes) (rest : List Bytes) :
    (leave after rest).flatten = after ++ rest.flatten := by
  unfold leave
  split
  next h => rw [List.isEmpty_iff.mp h, nil_append]
  next => rfl

/-! ### What the primitives leave -/

section

variable (ending : Ending)

theorem lineFrom_uses (line : Bytes) : Scan.Uses held (lineFrom ending line) := by
  intro buffers text s' h
  induction buffers generalizing line with
  | nil => cases h
  | cons available rest ih =>
    rw [lineFrom] at h
    split at h
    next part after hsplit =>
      have hstate : leave after rest = s' := congrArg Prod.snd h
      rw [← hstate, held, held, flatten_leave, flatten_cons, eq_of_splitLine hsplit]
      simp only [length_append, length_cons]
      omega
    next =>
      split at h
      · cases h
      · have hrest := ih _ h
        simp only [held, flatten_cons, length_append] at hrest ⊢
        omega

theorem payloadFrom_within (kept : Nat) (bytes : Bytes) (remaining : Nat) :
    Scan.Within held (payloadFrom ending kept bytes remaining) := by
  intro buffers text s' h
  induction buffers generalizing bytes remaining with
  | nil =>
    rw [payloadFrom] at h
    split at h
    · cases h
      exact Nat.le_refl _
    · cases h
  | cons available rest ih =>
    rw [payloadFrom] at h
    split at h
    · cases h
      exact Nat.le_refl _
    · simp only at h
      split at h
      · have hstate : leave (available.drop (min remaining available.length)) rest = s' :=
          congrArg Prod.snd h
        rw [← hstate, held, held, flatten_leave, flatten_cons]
        simp only [length_append, length_drop]
        omega
      · have hrest := ih _ _ h
        simp only [held, flatten_cons, length_append] at hrest ⊢
        omega

theorem byteFrom_within : Scan.Within held (byteFrom ending) := by
  intro buffers b s' h
  match buffers with
  | [] => cases h
  | [] :: _ => cases h
  | (b :: after) :: rest =>
    have hstate : leave after rest = s' := congrArg Prod.snd h
    rw [← hstate, held, held, flatten_leave, flatten_cons]
    simp only [length_append, length_cons]
    omega

def buffers : Source (List Bytes) where
  line := lineFrom ending []
  payload len keep := payloadFrom ending keep [] len
  byte := byteFrom ending
  first := firstOf
  longLine keep := longLineFrom ending keep [] 0 none
  size := held
  line_uses := lineFrom_uses ending []
  payload_within len keep := payloadFrom_within ending keep [] len
  byte_within := byteFrom_within ending

/-! ## The stream as a whole -/

end

/-- What is left of the stream; was a line of exactly `MAX_LINE` bytes read? -/
structure Flat where
  rest : Bytes
  long : Bool

def Flat.size (s : Flat) : Nat := s.rest.length

section

variable (ending : Ending)

def flatLine (line : Bytes) : Scan Flat WireError Bytes := fun s =>
  match splitLine s.rest with
  | some (part, after) =>
    (finishLine (line ++ part), ⟨after, s.long || (line ++ part).length == maxLine + 1⟩)
  | none =>
    (.error (if maxLine < (line ++ s.rest).length then
      .malformed "a line longer than the driver accepts" else ending.error),
      { s with rest := [] })

def flatPayload (kept : Nat) (bytes : Bytes) (remaining : Nat) : Scan Flat WireError Bytes :=
  fun s =>
    if remaining ≤ s.rest.length then
      (.ok (bytes ++ (s.rest.take remaining).take (kept - bytes.length)),
        { s with rest := s.rest.drop remaining })
    else (.error ending.error, { s with rest := [] })

def flatByte : Scan Flat WireError UInt8 := fun s =>
  match s.rest with
  | [] => (.error ending.error, s)
  | b :: after => (.ok b, { s with rest := after })

def flatLongLine (keep : Nat) (bytes : Bytes) (length : Nat) (last : Option UInt8) :
    Scan Flat WireError Clipped := fun s =>
  match splitLine s.rest with
  | none => (.error ending.error, { s with rest := [] })
  | some (part, after) =>
    (finishLong (bytes ++ part.take (keep - bytes.length)) (min (length + part.length) u64Max)
      (part.getLast?.or last), { s with rest := after })

theorem flatLine_uses (line : Bytes) : Scan.Uses Flat.size (flatLine ending line) := by
  intro s text s' h
  unfold flatLine at h
  split at h
  next part after hsplit =>
    have hstate := congrArg (fun p => p.2.rest.length) h
    simp only [Flat.size, eq_of_splitLine hsplit, length_append, length_cons] at *
    omega
  next => cases h

theorem flatPayload_within (kept : Nat) (bytes : Bytes) (remaining : Nat) :
    Scan.Within Flat.size (flatPayload ending kept bytes remaining) := by
  intro s kept s' h
  unfold flatPayload at h
  split at h
  · cases h
    simp only [Flat.size, length_drop]
    omega
  · cases h

theorem flatByte_within : Scan.Within Flat.size (flatByte ending) := by
  intro s b s' h
  unfold flatByte at h
  split at h
  · cases h
  next hrest =>
    cases h
    simp only [Flat.size, hrest, length_cons]
    omega

/-- The stream without buffers. -/
def flat : Source Flat where
  line := flatLine ending []
  payload len keep := flatPayload ending keep [] len
  byte := flatByte ending
  first s := s.rest.head?
  longLine keep := flatLongLine ending keep [] 0 none
  size := Flat.size
  line_uses := flatLine_uses ending []
  payload_within len keep := flatPayload_within ending keep [] len
  byte_within := flatByte_within ending

end

/-! ## From the primitives to every request -/

/-- The primitives of a source follow those of another one. -/
structure Mirrors {σ τ : Type} (w : Scan.Watch σ τ WireError) (src : Source σ) (src' : Source τ) :
    Prop where
  line : Scan.Shadows w src.line src'.line
  payload : ∀ len keep, Scan.Shadows w (src.payload len keep) (src'.payload len keep)
  byte : Scan.Shadows w src.byte src'.byte
  longLine : ∀ keep, Scan.Shadows w (src.longLine keep) (src'.longLine keep)
  first : ∀ s t, w.related s t → src.first s = src'.first t
  failed : ∀ s t, w.related s t → w.failed t

section

variable {F σ τ : Type} {floats : Floats F} {w : Scan.Watch σ τ WireError} {src : Source σ}
  {src' : Source τ} (m : Mirrors w src src')

include m

theorem Mirrors.answer {α : Type} (x : Except WireError α) :
    Scan.Shadows w (Scan.answer x) (Scan.answer x) :=
  Scan.Shadows.answer x m.failed

theorem Mirrors.rawHead : Scan.Shadows w (rawHead floats src) (rawHead floats src') :=
  m.line.bind fun _ => m.answer _

theorem Mirrors.terminator : Scan.Shadows w (terminator src) (terminator src') := by
  refine m.byte.bind fun cr => m.byte.bind fun lf => ?_
  split
  · exact .pure ()
  · exact m.answer _

theorem Mirrors.bulk (len keep : Nat) : Scan.Shadows w (bulk src len keep) (bulk src' len keep) :=
  (m.payload _ _).bind fun _ => m.terminator.bind fun _ => .pure _

theorem Mirrors.skipHead (pending : Nat) (raw : RawHead F) :
    Scan.Shadows w (skipHead src pending raw) (skipHead src' pending raw) := by
  match raw with
  | .attribute len => exact m.answer _
  | .head (.bulk len) => exact (m.bulk len 0).bind fun _ => .pure _
  | .head (.verbatim len) => exact (m.bulk len 0).bind fun _ => .pure _
  | .head (.bulkError len) => exact (m.bulk len 0).bind fun _ => .pure _
  | .head (.aggregate kind len) => exact m.answer _
  | .head (.simple _) => exact .pure _
  | .head (.error _) => exact .pure _
  | .head (.integer _) => exact .pure _
  | .head (.double _) => exact .pure _
  | .head (.boolean _) => exact .pure _
  | .head (.bigNumber _) => exact .pure _
  | .head .null => exact .pure _

theorem Mirrors.skip (elements : Nat) :
    Scan.Shadows w (skip floats src elements) (skip floats src' elements) := by
  refine Scan.Shadows.loop (fun pending => ?_) elements
  cases pending with
  | zero => exact .pure _
  | succ pending => exact m.rawHead.bind fun raw => (m.skipHead pending raw).bind fun _ => .pure _

theorem Mirrors.head : Scan.Shadows w (head floats src) (head floats src') := by
  refine Scan.Shadows.loop (fun _ => m.rawHead.bind fun raw => ?_) ()
  match raw with
  | .attribute len => exact (m.answer _).bind fun _ => (m.skip _).bind fun _ => .pure _
  | .head _ => exact .pure _

section

variable {read : Nat → Scan σ WireError (Value F × Nat)}
  {read' : Nat → Scan τ WireError (Value F × Nat)}
  (hread : ∀ budget, Scan.Shadows w (read budget) (read' budget))

include hread

theorem Mirrors.items (kind : Aggregate) (remaining budget : Nat) :
    Scan.Shadows w (items floats src read kind remaining budget)
      (items floats src' read' kind remaining budget) := by
  induction remaining generalizing budget with
  | zero => exact .pure _
  | succ remaining ih =>
    unfold Resp.items
    split
    · exact (m.skip _).bind fun _ => .pure _
    · exact (hread _).bind fun _ => (ih _).bind fun _ => .pure _

theorem Mirrors.pairs (remaining budget : Nat) :
    Scan.Shadows w (pairs floats src read remaining budget)
      (pairs floats src' read' remaining budget) := by
  induction remaining generalizing budget with
  | zero => exact .pure _
  | succ remaining ih =>
    unfold Resp.pairs
    split
    · exact (m.answer _).bind fun _ => (m.skip _).bind fun _ => .pure _
    · exact (hread _).bind fun _ => (hread _).bind fun _ => (ih _).bind fun _ => .pure _

theorem Mirrors.aggregate (kind : Aggregate) (len budget : Nat) :
    Scan.Shadows w (aggregate floats src read kind len budget)
      (aggregate floats src' read' kind len budget) := by
  unfold Resp.aggregate
  split
  · exact (m.pairs hread _ _).bind fun _ => .pure _
  · exact (m.items hread _ _ _).bind fun _ => .pure _

end

theorem Mirrors.elide (kind : Aggregate) (len budget : Nat) :
    Scan.Shadows w (elide floats src kind len budget) (elide floats src' kind len budget) :=
  (m.answer _).bind fun _ => (m.skip _).bind fun _ => .pure _

theorem Mirrors.keep {nested : Aggregate → Nat → Nat → Scan σ WireError (Value F × Nat)}
    {nested' : Aggregate → Nat → Nat → Scan τ WireError (Value F × Nat)}
    (hnested : ∀ kind len budget,
      Scan.Shadows w (nested kind len budget) (nested' kind len budget))
    (budget : Nat) (h : Head F) :
    Scan.Shadows w (keep src nested budget h) (keep src' nested' budget h) := by
  cases h with
  | simple | error => exact .pure _
  | bulkError len => exact (m.bulk _ _).bind fun _ => .pure _
  | integer | double | boolean | bigNumber | null => exact .pure _
  | bulk len => exact (m.bulk _ _).bind fun _ => .pure _
  | verbatim len => exact (m.bulk _ _).bind fun _ => (m.answer _).bind fun _ => .pure _
  | aggregate kind len => exact hnested kind len budget

theorem Mirrors.element (cost room : Nat) (h : Head F) (budget : Nat) :
    Scan.Shadows w (element floats src cost room h budget)
      (element floats src' cost room h budget) := by
  induction room generalizing h budget with
  | zero => exact (m.keep m.elide budget h).bind fun _ => .pure _
  | succ room ih =>
    refine (m.keep (fun kind len budget => ?_) budget h).bind fun _ => .pure _
    split
    · exact m.elide kind len budget
    · exact m.aggregate (fun budget => m.head.bind fun h => ih h budget) kind len budget

theorem Mirrors.value (cost budget : Nat) :
    Scan.Shadows w (value floats src cost budget) (value floats src' cost budget) :=
  m.head.bind fun h => m.element cost maxDepth h budget

theorem Mirrors.longLineValue (cost keep budget : Nat) :
    Scan.Shadows w (longLineValue floats src cost keep budget)
      (longLineValue floats src' cost keep budget) := by
  have hlong : Scan.Shadows w (do
      let _ ← src.byte
      let text ← src.longLine keep
      pure (Value.bulk (F := F) text, budget)) (do
      let _ ← src'.byte
      let text ← src'.longLine keep
      pure (Value.bulk text, budget)) :=
    m.byte.bind fun _ => (m.longLine keep).bind fun _ => .pure _
  have hvalue : Scan.Shadows w (Resp.value floats src cost budget)
      (Resp.value floats src' cost budget) :=
    m.value cost budget
  constructor
  · intro s t hst
    unfold Resp.longLineValue
    rw [m.first s t hst]
    split
    · exact hlong.follows s t hst
    · exact hvalue.follows s t hst
  · intro t ht
    unfold Resp.longLineValue
    split
    · exact hlong.keeps t ht
    · exact hvalue.keeps t ht

end

/-! ## The primitives of the buffers, beside those of the stream

What a family of cuts has in common (`Shape`) is what no read breaks: it may shorten the first
buffer or drop it.
-/

/-- A family of cuts that reading stays in. -/
structure Shape (S : List Bytes → Prop) : Prop where
  nonempty : ∀ b rest, S (b :: rest) → b ≠ []
  drop : ∀ b rest n, S (b :: rest) → S (leave (b.drop n) rest)

theorem Shape.rest {S : List Bytes → Prop} (h : Shape S) {b : Bytes} {rest : List Bytes}
    (hS : S (b :: rest)) : S rest := by
  have hdrop := h.drop b rest b.length hS
  rwa [drop_length] at hdrop

/-- What is watched: the bytes left are the same, the cut is of the family, and something holds
of the note. -/
def watch (S : List Bytes → Prop) (calm : Bool → Prop) (bad : WireError → Prop)
    (noted : Bool → Prop) : Scan.Watch (List Bytes) Flat WireError where
  related s t := s.flatten = t.rest ∧ S s ∧ calm t.long
  failed t := calm t.long
  bad := bad
  noted t := noted t.long

theorem splitLine_append {b part after : Bytes} (h : splitLine b = some (part, after))
    (c : Bytes) : splitLine (b ++ c) = some (part, after ++ c) := by
  induction b generalizing part with
  | nil => cases h
  | cons x b ih =>
    rw [cons_append]
    rw [splitLine] at h ⊢
    split at h
    next hx =>
      cases h
      rw [if_pos hx]
    next hx =>
      obtain ⟨⟨part', after'⟩, hrest, heq⟩ := Option.map_eq_some_iff.mp h
      cases heq
      rw [if_neg hx, ih hrest]
      rfl

theorem splitLine_append_none {b : Bytes} (h : splitLine b = none) (c : Bytes) :
    splitLine (b ++ c) = (splitLine c).map fun p => (b ++ p.1, p.2) := by
  induction b with
  | nil => simp
  | cons x b ih =>
    rw [cons_append]
    rw [splitLine] at h ⊢
    split at h
    next => cases h
    next hx =>
      rw [if_neg hx, ih (Option.map_eq_none_iff.mp h), Option.map_map]
      rfl

section

variable (ending : Ending) {S : List Bytes → Prop} {calm noted : Bool → Prop}
  {bad : WireError → Prop} (hS : Shape S)

include hS

theorem leave_of_splitLine {available part after : Bytes} {rest : List Bytes}
    (hsplit : splitLine available = some (part, after)) (h : S (available :: rest)) :
    S (leave after rest) := by
  have heq : available.drop (part.length + 1) = after := by
    rw [eq_of_splitLine hsplit, drop_append, drop_of_length_le (by omega)]
    simp
  exact heq ▸ hS.drop _ _ _ h

omit hS in
theorem flatPayload_append {kept remaining : Nat} {bytes available rest : Bytes} {long : Bool}
    (h : available.length < remaining) :
    flatPayload ending kept bytes remaining ⟨available ++ rest, long⟩ =
      flatPayload ending kept (bytes ++ available.take (kept - bytes.length))
        (remaining - available.length) ⟨rest, long⟩ := by
  have hdrop : (available ++ rest).drop remaining = rest.drop (remaining - available.length) := by
    rw [drop_append, drop_of_length_le (Nat.le_of_lt h), nil_append]
  have htake : (available ++ rest).take remaining =
      available ++ rest.take (remaining - available.length) := by
    rw [take_append, take_of_length_le (Nat.le_of_lt h)]
  unfold flatPayload
  simp only [length_append, hdrop, htake]
  have hle : remaining ≤ available.length + rest.length ↔
      remaining - available.length ≤ rest.length := by omega
  simp only [hle, take_append, append_assoc, length_take]
  have hkept : kept - (bytes.length + min (kept - bytes.length) available.length) =
      kept - bytes.length - available.length := by omega
  rw [hkept]

theorem payload_follows (kept : Nat) (bytes : Bytes) (remaining : Nat) (s : List Bytes) (t : Flat)
    (hst : (watch S calm bad noted).related s t) :
    Scan.Tracks (watch S calm bad noted) (payloadFrom ending kept bytes remaining s)
      (flatPayload ending kept bytes remaining t) := by
  obtain ⟨trest, long⟩ := t
  obtain ⟨hrest, hshape, hcalm⟩ := hst
  simp only at hrest hcalm
  subst hrest
  induction s generalizing bytes remaining with
  | nil =>
    unfold payloadFrom flatPayload
    split
    next hzero =>
      subst hzero
      refine .inl ⟨?_, fun _ _ => ⟨rfl, hshape, hcalm⟩, nofun⟩
      simp
    next hpos =>
      rw [if_neg (by simpa using hpos)]
      exact .inl ⟨rfl, nofun, fun _ _ => hcalm⟩
  | cons available rest ih =>
    rw [payloadFrom]
    split
    next hzero =>
      subst hzero
      refine .inl ⟨?_, fun _ _ => ⟨?_, hshape, hcalm⟩, ?_⟩
      · simp [flatPayload]
      · simp [flatPayload]
      · intro e he
        cases he
    next hpos =>
      simp only
      split
      next hlast =>
        have hle : remaining ≤ available.length := by omega
        have hmin : min remaining available.length = remaining := by omega
        rw [hmin]
        have hflat : flatPayload ending kept bytes remaining ⟨(available :: rest).flatten, long⟩ =
            (.ok (bytes ++ (available.take remaining).take (kept - bytes.length)),
              ⟨available.drop remaining ++ rest.flatten, long⟩) := by
          unfold flatPayload
          simp only [flatten_cons, length_append]
          rw [if_pos (by omega), take_append_of_le_length hle,
            drop_append_of_le_length hle]
        rw [hflat]
        refine .inl ⟨?_, fun _ _ => ⟨?_, hS.drop _ _ _ hshape, hcalm⟩, ?_⟩
        · simp only [take_take]
        · simp
        · intro e he
          cases he
      next hmore =>
        have hlt : available.length < remaining := by omega
        have hmin : min remaining available.length = available.length := by omega
        have hall : available.take (min (kept - bytes.length) available.length) =
            available.take (kept - bytes.length) := by
          rw [← take_take, take_length]
        rw [hmin, hall, flatten_cons, flatPayload_append ending hlt]
        exact ih _ _ (hS.rest hshape)

theorem payload_shadows (len keep : Nat) :
    Scan.Shadows (watch S calm bad noted) ((buffers ending).payload len keep)
      ((flat ending).payload len keep) where
  follows s t hst := payload_follows ending hS keep [] len s t hst
  keeps t ht := by
    show noted (flatPayload ending keep [] len t).2.long
    unfold flatPayload
    split
    · exact ht
    · exact ht

theorem byte_shadows :
    Scan.Shadows (watch S calm bad noted) (buffers ending).byte (flat ending).byte where
  follows s t hst := by
    obtain ⟨trest, long⟩ := t
    obtain ⟨hrest, hshape, hcalm⟩ := hst
    simp only at hrest hcalm
    subst hrest
    match s with
    | [] => exact .inl ⟨rfl, nofun, fun _ _ => hcalm⟩
    | [] :: rest => exact absurd rfl (hS.nonempty _ _ hshape)
    | (b :: after) :: rest =>
      refine .inl ⟨rfl, fun _ _ => ⟨flatten_leave after rest, ?_, hcalm⟩, nofun⟩
      exact hS.drop _ _ 1 hshape
  keeps t ht := by
    show noted (flatByte ending t).2.long
    unfold flatByte
    split
    · exact ht
    · exact ht

theorem longLine_follows (keep : Nat) (bytes : Bytes) (length : Nat) (last : Option UInt8)
    (s : List Bytes) (t : Flat) (hst : (watch S calm bad noted).related s t) :
    Scan.Tracks (watch S calm bad noted) (longLineFrom ending keep bytes length last s)
      (flatLongLine ending keep bytes length last t) := by
  obtain ⟨trest, long⟩ := t
  obtain ⟨hrest, hshape, hcalm⟩ := hst
  simp only at hrest hcalm
  subst hrest
  induction s generalizing bytes length last with
  | nil => exact .inl ⟨rfl, nofun, fun _ _ => hcalm⟩
  | cons available rest ih =>
    rw [longLineFrom, flatten_cons]
    split
    next part after hsplit =>
      unfold flatLongLine
      simp only [splitLine_append hsplit]
      refine .inl ⟨rfl, fun _ _ => ⟨flatten_leave after rest, ?_, hcalm⟩, fun _ _ => hcalm⟩
      exact leave_of_splitLine hS hsplit hshape
    next hsplit =>
      have hflat : flatLongLine ending keep bytes length last ⟨available ++ rest.flatten, long⟩ =
          flatLongLine ending keep (bytes ++ available.take (keep - bytes.length))
            (min (length + available.length) u64Max) (available.getLast?.or last)
            ⟨rest.flatten, long⟩ := by
        unfold flatLongLine
        simp only [splitLine_append_none hsplit]
        cases splitLine rest.flatten with
        | none => rfl
        | some p =>
          have hkept : keep - (bytes.length + min (keep - bytes.length) available.length) =
              keep - bytes.length - available.length := by omega
          have hlength : min (min (length + available.length) u64Max + p.1.length) u64Max =
              min (length + (available.length + p.1.length)) u64Max := by omega
          simp only [Option.map_some, take_append, length_append, length_take,
            hkept, hlength, append_assoc, getLast?_append, Option.or_assoc]
      rw [hflat]
      exact ih _ _ _ (hS.rest hshape)

theorem longLine_shadows (keep : Nat) :
    Scan.Shadows (watch S calm bad noted) ((buffers ending).longLine keep)
      ((flat ending).longLine keep) where
  follows s t hst := longLine_follows ending hS keep [] 0 none s t hst
  keeps t ht := by
    show noted (flatLongLine ending keep [] 0 none t).2.long
    unfold flatLongLine
    split
    · exact ht
    · exact ht

theorem first_of_related {s : List Bytes} {t : Flat} (hst : (watch S calm bad noted).related s t) :
    (buffers ending).first s = (flat ending).first t := by
  obtain ⟨hrest, hshape, -⟩ := hst
  show firstOf s = t.rest.head?
  rw [← hrest]
  match s with
  | [] => rfl
  | [] :: rest => exact absurd rfl (hS.nonempty _ _ hshape)
  | (b :: after) :: rest => rfl

theorem mirrors_of_line (hline : Scan.Shadows (watch S calm bad noted) (buffers ending).line
    (flat ending).line) :
    Mirrors (watch S calm bad noted) (buffers ending) (flat ending) where
  line := hline
  payload := payload_shadows ending hS
  byte := byte_shadows ending hS
  longLine := longLine_shadows ending hS
  first _ _ hst := first_of_related ending hS hst
  failed _ _ hst := hst.2.2

/-! ### Lines -/

omit hS in
theorem flatLine_append {line available rest : Bytes} {long : Bool}
    (h : splitLine available = none) :
    flatLine ending line ⟨available ++ rest, long⟩ =
      flatLine ending (line ++ available) ⟨rest, long⟩ := by
  unfold flatLine
  simp only [splitLine_append_none h]
  cases splitLine rest with
  | none => simp only [Option.map_none, append_assoc]
  | some p => simp only [Option.map_some, append_assoc]

/-- A line read from a cut is what the stream holds, or too long: no line of it, or one of exactly
`MAX_LINE` bytes. -/
theorem lineFrom_spec (line : Bytes) (s : List Bytes) (hshape : S s)
    (hshort : line.length ≤ maxLine) (long : Bool) :
    let x := lineFrom ending line s
    let y := flatLine ending line ⟨s.flatten, long⟩
    (x.1 = y.1 ∧ ∀ text, x.1 = .ok text → x.2.flatten = y.2.rest ∧ S x.2) ∨
      (x.1 = .error (.malformed "a line longer than the driver accepts") ∧
        ∃ part after, splitLine s.flatten = some (part, after) ∧
          (line ++ part).length = maxLine + 1) := by
  induction s generalizing line with
  | nil =>
    refine .inl ⟨?_, nofun⟩
    show Except.error ending.error = _
    unfold flatLine
    simp only [flatten_nil, splitLine, append_nil]
    rw [if_neg (by omega)]
  | cons available rest ih =>
    simp only [flatten_cons]
    rw [lineFrom]
    split
    next part after hsplit =>
      unfold flatLine
      simp only [splitLine_append hsplit]
      refine .inl ⟨trivial, fun _ _ => ⟨flatten_leave after rest, ?_⟩⟩
      exact leave_of_splitLine hS hsplit hshape
    next hsplit =>
      rw [flatLine_append ending hsplit]
      split
      next hlong =>
        unfold flatLine
        rcases hrest : splitLine rest.flatten with _ | ⟨part, after⟩
        · refine .inl ⟨?_, nofun⟩
          simp only
          rw [if_pos (by rw [length_append]; omega)]
        · simp only
          by_cases hexact : ((line ++ available) ++ part).length = maxLine + 1
          · refine .inr ⟨trivial, available ++ part, after, ?_, ?_⟩
            · rw [splitLine_append_none hsplit, hrest]
              rfl
            · rwa [← append_assoc]
          · refine .inl ⟨?_, nofun⟩
            have hmore : maxLine + 1 < ((line ++ available) ++ part).length := by
              rw [length_append] at hexact ⊢
              omega
            rw [finishLine, if_pos hmore]
      next hfits =>
        rcases ih (line ++ available) (hS.rest hshape) (by omega) with hsame | hlong
        · exact .inl hsame
        · obtain ⟨herr, part, after, hrest, hexact⟩ := hlong
          refine .inr ⟨herr, available ++ part, after, ?_, ?_⟩
          · rw [splitLine_append_none hsplit, hrest]
            rfl
          · rwa [← append_assoc]

end

end Oxyn.Resp
