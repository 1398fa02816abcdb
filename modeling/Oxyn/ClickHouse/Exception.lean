/-
# `Oxyn.ClickHouse.Exception` — an exception is split from the rows, whatever the chunks

A body is pushed into in any chunks, and what is ready is taken in any portions (`Reading`).
-/
import Oxyn.ClickHouse.Body
import Oxyn.Lib.Runs

open Runs

namespace Oxyn.ClickHouse

open Needle (before before_append behind behind_append holds_append)

open List

open Text

/-! ## A body that is read -/

structure Reading where
  body : Body
  received : Bytes
  handed : Bytes
deriving DecidableEq

inductive Move where
  | push (chunk : Bytes)
  | consume (n : Nat)
  | ends

namespace Reading

def new (tag : Option Str) : Reading := ⟨.new tag, [], []⟩

/-- Nothing comes after the end, and no more is taken than is ready. -/
inductive Step : Reading → Move → Reading → Prop
  | push (r : Reading) (chunk : Bytes) : r.body.ended = false →
      Step r (.push chunk) ⟨r.body.push chunk, r.received ++ chunk, r.handed⟩
  | consume (r : Reading) (n : Nat) : n ≤ r.body.ready.length →
      Step r (.consume n) ⟨r.body.consume n, r.received, r.handed ++ r.body.ready.take n⟩
  | ends (r : Reading) : Step r .ends ⟨r.body.ends, r.received, r.handed⟩

/-- The error is asked for once the body ended, or once the message is said to be all here. -/
def Settled (r : Reading) : Prop :=
  r.body.ended = true ∨ r.body.hasException = true ∧ r.body.messageComplete = true

end Reading

/-- A reading of a stream, in some chunks and portions: a start of it, and all of it if it
ended. -/
def Reads (tag : Option Str) (stream : Bytes) (r : Reading) : Prop :=
  (∃ moves, Steps Reading.Step (.new tag) moves r) ∧ r.received <+: stream ∧
    (r.body.ended = true → r.received = stream)

/-! ## What a stream holds -/

def rowsOf (tag : Option Str) (stream : Bytes) : Bytes :=
  match markerOf tag with
  | some marker => before marker stream
  | none => stream

def HoldsMarker (tag : Option Str) (stream : Bytes) : Prop :=
  ∃ marker ∈ markerOf tag, marker <:+: stream

def tailOf (tag : Option Str) (stream : Bytes) : Option Bytes :=
  (markerOf tag).bind fun marker =>
    if marker <:+: stream then some (behind marker stream) else none

/-- `\n<length> <tag>\r\n__exception__\r\n`. -/
def closingLine (tag : Str) (message : Bytes) : Bytes :=
  newline :: bytes (Nat.toDigits 10 message.length) ++ bytes [' '] ++ bytes tag ++ opening

def Encloses (tag : Option Str) (stream message : Bytes) : Prop :=
  ∃ name ∈ tag, tailOf tag stream = some (message ++ closingLine name message)

/-- Rows and exception are split in the same way in all readings of a stream: what is handed out is
a start of the rows, all of them in the end; an exception is found if its marker came; and its error
is that of the message the block encloses. -/
structure SplitWhatever (tag : Option Str) (stream : Bytes) : Prop where
  handed : ∀ r, Reads tag stream r → r.handed <+: rowsOf tag stream
  all : ∀ r, Reads tag stream r → r.body.rowsClosed = true → r.body.ready = [] →
    r.handed = rowsOf tag stream
  found : ∀ r, Reads tag stream r →
    (r.body.hasException = true ↔ HoldsMarker tag r.received)
  same : ∀ r r', Reads tag stream r → Reads tag stream r' → r.Settled → r'.Settled →
    r.body.exception = r'.body.exception
  meant : ∀ r message, Reads tag stream r → r.Settled → Encloses tag stream message →
    r.body.exception = some (.fromText none message none)

/-! ## Where reading may stop -/

/-- Reading may stop `k` bytes behind the marker: the closing text ends there, the bound is
reached, or the stream ends. -/
def MayStop (tail : Bytes) (k : Nat) : Prop :=
  k ≤ tail.length ∧ (opening <:+ tail.take k ∨ messageRoom ≤ k ∨ k = tail.length)

/-- Between two places of the tail, nothing of the message's bound is to be seen. -/
def NothingBetween (tail : Bytes) (i j : Nat) : Prop :=
  ∀ c ∈ fromUtf8Lossy ((tail.take (min (max i j) maxMessageBytes)).drop (min i j)),
    isWhitespace c = true

/-- Where the message ends: at the last line break of the tail, and where the enclosed message
does. -/
def MessageEnd (tag : Option Str) (stream tail : Bytes) (j : Nat) : Prop :=
  LastBreak (unclosed tail) j ∨ ∃ message, Encloses tag stream message ∧ j = message.length

/-- Wherever reading may stop, the last line break of what is held hides nothing of the
message. -/
def ShownWhole (tag : Option Str) (stream : Bytes) : Prop :=
  ∀ tail ∈ tailOf tag stream, ∀ k i j, MayStop tail k → LastBreak (unclosed (tail.take k)) i →
    MessageEnd tag stream tail j → NothingBetween tail i j

/-! ## What is so in every reading -/

theorem markerOf_ne_nil {tag : Option Str} {marker : Bytes} (h : markerOf tag = some marker) :
    marker ≠ [] := by
  rintro rfl
  obtain ⟨name, -, hname⟩ := Option.map_eq_some_iff.mp h
  have hopening := (append_eq_nil_iff.mp (append_eq_nil_iff.mp hname).1).1
  exact absurd hopening (by decide)

/-- What was handed out and what is left are all that was received, or its rows; behind the marker
all is held, or as much as the bound allows. -/
inductive Reading.Inv (tag : Option Str) (r : Reading) : Prop
  | bare (dropped taken left : Bytes) : markerOf tag = none → r.body.marker = none →
      r.body.Searching taken left → r.handed = dropped ++ taken → r.handed ++ left = r.received →
      Inv tag r
  | watching (marker dropped taken left : Bytes) : markerOf tag = some marker →
      r.body.Watching marker dropped taken left r.received → r.handed = dropped ++ taken →
      Inv tag r
  | found (marker taken left held : Bytes) : markerOf tag = some marker →
      r.body.Found marker taken left held → marker <:+: r.received →
      r.handed ++ left = before marker r.received →
      held <+: behind marker r.received →
      (held = behind marker r.received ∨ messageRoom ≤ held.length) → Inv tag r

namespace Reading

variable {tag : Option Str}

theorem watching_new {marker : Bytes} (h : markerOf tag = some marker) :
    (Body.new tag).Watching marker [] [] [] [] :=
  ⟨⟨rfl, rfl, rfl, fun _ => rfl⟩, h, rfl,
    fun hheld => markerOf_ne_nil h (infix_nil.mp hheld), fun _ => .inl rfl⟩

theorem inv_new (tag : Option Str) : (Reading.new tag).Inv tag := by
  cases h : markerOf tag with
  | none => exact .bare [] [] [] h h ⟨rfl, rfl, rfl, fun _ => rfl⟩ rfl rfl
  | some marker => exact .watching marker [] [] [] h (watching_new h) rfl

theorem Inv.push {r : Reading} (h : r.Inv tag) (hopen : r.body.ended = false) (chunk : Bytes) :
    Inv tag ⟨r.body.push chunk, r.received ++ chunk, r.handed⟩ := by
  cases h with
  | bare dropped taken left hnone hmarker hsearching hhanded hall =>
    refine .bare dropped taken (left ++ chunk) hnone ?_ (hsearching.push_bare hmarker chunk)
      hhanded ?_
    · exact (Body.marker_push _ _).trans hmarker
    · rw [← append_assoc, hall]
  | watching marker dropped taken left hmarker hwatching hhanded =>
    by_cases hheld : marker <:+: r.received ++ chunk
    · obtain ⟨left', hfound, hrows⟩ :=
        hwatching.push_marker hopen (markerOf_ne_nil hmarker) hheld
      refine .found marker taken left' _ hmarker hfound hheld ?_ prefix_rfl (.inl rfl)
      rw [← hrows, hhanded]
    · exact .watching marker dropped taken (left ++ chunk) hmarker
        (hwatching.push_rows hheld) hhanded
  | found marker taken left held hmarker hfound hholds hrows hinitial hwhole =>
    have hbehind : behind marker (r.received ++ chunk) =
        behind marker r.received ++ chunk := behind_append hholds
    refine .found marker taken left _ hmarker (hfound.push chunk) (holds_append hholds)
      ?_ ?_ ?_
    · rw [hrows, before_append hholds]
    · rw [hbehind]
      rcases hwhole with rfl | hfull
      · exact (prefix_append_right_inj _).mpr (List.take_prefix _ _)
      · rw [Nat.sub_eq_zero_of_le hfull, take_zero, append_nil]
        exact hinitial.trans (prefix_append _ _)
    · rw [hbehind]
      rcases hwhole with rfl | hfull
      · rcases Nat.le_total chunk.length
          (messageRoom - (behind marker r.received).length) with hfits | hcut
        · rw [take_of_length_le hfits]
          exact .inl rfl
        · right
          rw [length_append, length_take_of_le hcut]
          omega
      · right
        rw [length_append]
        omega

theorem Inv.consume {r : Reading} (h : r.Inv tag) {n : Nat} (hn : n ≤ r.body.ready.length) :
    Inv tag ⟨r.body.consume n, r.received, r.handed ++ r.body.ready.take n⟩ := by
  cases h with
  | bare dropped taken left hnone hmarker hsearching hhanded hall =>
    have hready : r.body.ready = left := by
      have hkeep : r.body.keep = 0 := by
        rw [Body.keep, hmarker]
        exact ite_self 0
      rw [hsearching.ready, hkeep, Nat.sub_zero, take_length]
    rw [hready] at hn ⊢
    obtain ⟨taken', hsearching', dropped', hdropped⟩ := hsearching.consume hn
    refine .bare (dropped ++ dropped') taken' (left.drop n) hnone ?_ hsearching' ?_ ?_
    · exact (Body.marker_consume _ _).trans hmarker
    · rw [hhanded, append_assoc, append_assoc, hdropped]
    · rw [append_assoc, take_append_drop, hall]
  | watching marker dropped taken left hmarker hwatching hhanded =>
    obtain ⟨dropped', taken', hwatching', hsame⟩ := hwatching.consume hn
    refine .watching marker dropped' taken' (left.drop n) hmarker hwatching' ?_
    rw [hsame, hhanded]
  | found marker taken left held hmarker hfound hholds hrows hinitial hwhole =>
    rw [hfound.ready] at hn ⊢
    obtain ⟨taken', hfound', -⟩ := hfound.consume hn
    refine .found marker taken' (left.drop n) held hmarker hfound' hholds ?_ hinitial hwhole
    rw [append_assoc, take_append_drop, hrows]

theorem Inv.ends {r : Reading} (h : r.Inv tag) :
    Inv tag ⟨r.body.ends, r.received, r.handed⟩ := by
  cases h with
  | bare dropped taken left hnone hmarker hsearching hhanded hall =>
    exact .bare dropped taken left hnone hmarker { hsearching with } hhanded hall
  | watching marker dropped taken left hmarker hwatching hhanded =>
    obtain ⟨hsearching, hcarries, hall, habsent, -⟩ := hwatching
    exact .watching marker dropped taken left hmarker
      ⟨{ hsearching with }, hcarries, hall, habsent, nofun⟩ hhanded
  | found marker taken left held hmarker hfound hholds hrows hinitial hwhole =>
    exact .found marker taken left held hmarker
      { hfound with } hholds hrows hinitial hwhole

theorem Inv.step {r r' : Reading} {move : Move} (h : r.Inv tag) (hstep : Step r move r') :
    r'.Inv tag := by
  cases hstep with
  | push chunk hopen => exact h.push hopen chunk
  | consume n hn => exact h.consume hn
  | ends => exact h.ends

end Reading

theorem Reads.inv {tag : Option Str} {stream : Bytes} {r : Reading} (h : Reads tag stream r) :
    r.Inv tag := by
  obtain ⟨⟨moves, hrun⟩, -, -⟩ := h
  exact hrun.invariant (fun _ _ _ hinv hstep => hinv.step hstep) (Reading.inv_new tag)

/-! ## The rows -/

section

variable {tag : Option Str} {stream : Bytes} {r : Reading}

theorem rowsOf_of_marker {marker : Bytes} (h : markerOf tag = some marker) (stream : Bytes) :
    rowsOf tag stream = before marker stream := by
  rw [rowsOf, h]

theorem holdsMarker_iff {marker : Bytes} (h : markerOf tag = some marker) (stream : Bytes) :
    HoldsMarker tag stream ↔ marker <:+: stream := by
  constructor
  · rintro ⟨other, hother, hheld⟩
    rw [h] at hother
    exact Option.some.inj hother ▸ hheld
  · intro hheld
    exact ⟨marker, h, hheld⟩

theorem not_holdsMarker (h : markerOf tag = none) (stream : Bytes) : ¬ HoldsMarker tag stream := by
  rintro ⟨marker, hmarker, -⟩
  rw [h] at hmarker
  cases hmarker

theorem Reading.handed_initial (h : Reads tag stream r) : r.handed <+: rowsOf tag stream := by
  obtain ⟨-, ⟨rest, hrest⟩, hended⟩ := id h
  cases h.inv with
  | bare dropped taken left hnone hmarker hsearching hhanded hall =>
    rw [rowsOf, hnone, ← hrest, ← hall, append_assoc]
    exact prefix_append _ _
  | watching marker dropped taken left hmarker hwatching hhanded =>
    rw [rowsOf_of_marker hmarker]
    have hall : r.handed ++ left = r.received := by
      rw [hhanded, ← hwatching.all, hwatching.searching.pending, append_assoc]
    by_cases hheld : marker <:+: stream
    · -- what is held back is as long as what a marker may have of what was received
      refine prefix_of_prefix_length_le ?_ (Needle.before_initial marker stream) ?_
      · rw [← hrest, ← hall, append_assoc]
        exact prefix_append _ _
      · have hopen : r.body.ended = false := by
          by_contra hend
          rw [← hended (Bool.not_eq_false _ ▸ hend)] at hheld
          exact hwatching.absent hheld
        have hlen := congrArg List.length hall
        rw [length_append] at hlen
        rcases hwatching.room hopen with hnone | hroom
        · rw [hhanded, hnone]
          exact Nat.zero_le _
        · have hlt := Needle.length_lt_of_absent hwatching.absent (hrest ▸ hheld)
          rw [hrest] at hlt
          omega
    · rw [Needle.before_eq_self hheld, ← hrest, ← hall, append_assoc]
      exact prefix_append _ _
  | found marker taken left held hmarker hfound hholds hrows hinitial hwhole =>
    rw [rowsOf_of_marker hmarker, ← hrest, before_append hholds, ← hrows]
    exact prefix_append _ _

theorem Reading.found_iff (h : Reads tag stream r) :
    r.body.hasException = true ↔ HoldsMarker tag r.received := by
  cases h.inv with
  | bare dropped taken left hnone hmarker hsearching hhanded hall =>
    rw [Body.hasException, hsearching.rowsEnd]
    exact iff_of_false Bool.false_ne_true (not_holdsMarker hnone _)
  | watching marker dropped taken left hmarker hwatching hhanded =>
    rw [Body.hasException, hwatching.searching.rowsEnd, holdsMarker_iff hmarker]
    exact iff_of_false Bool.false_ne_true hwatching.absent
  | found marker taken left held hmarker hfound hholds hrows hinitial hwhole =>
    rw [Body.hasException, hfound.rowsEnd, holdsMarker_iff hmarker]
    exact iff_of_true rfl hholds

theorem Reading.handed_all (h : Reads tag stream r) (hclosed : r.body.rowsClosed = true)
    (hready : r.body.ready = []) : r.handed = rowsOf tag stream := by
  obtain ⟨-, ⟨rest, hrest⟩, hended⟩ := id h
  rw [Body.rowsClosed, Bool.or_eq_true] at hclosed
  cases h.inv with
  | bare dropped taken left hnone hmarker hsearching hhanded hall =>
    have hend : r.body.ended = true := by
      refine hclosed.resolve_right ?_
      rw [hsearching.rowsEnd]
      exact Bool.false_ne_true
    rw [hsearching.ready, Body.keep, if_pos hend, Nat.sub_zero, take_length] at hready
    rw [rowsOf, hnone, ← hended hend, ← hall, hready, append_nil]
  | watching marker dropped taken left hmarker hwatching hhanded =>
    have hend : r.body.ended = true := by
      refine hclosed.resolve_right ?_
      rw [hwatching.searching.rowsEnd]
      exact Bool.false_ne_true
    rw [hwatching.searching.ready, Body.keep, if_pos hend, Nat.sub_zero, take_length]
      at hready
    have hall := hwatching.all
    rw [hwatching.searching.pending, hready, append_nil, ← hhanded] at hall
    rw [rowsOf_of_marker hmarker, ← hended hend, Needle.before_eq_self hwatching.absent, hall]
  | found marker taken left held hmarker hfound hholds hrows hinitial hwhole =>
    rw [hfound.ready] at hready
    rw [hready, append_nil] at hrows
    rw [rowsOf_of_marker hmarker, ← hrest, before_append hholds, hrows]

/-! ## The error -/

variable {tail : Bytes}

theorem tailOf_eq_some :
    tailOf tag stream = some tail ↔
      ∃ marker, markerOf tag = some marker ∧ marker <:+: stream ∧
        behind marker stream = tail := by
  rw [tailOf, Option.bind_eq_some_iff]
  refine exists_congr fun marker => and_congr_right fun _ => ?_
  split
  next hheld => simp only [Option.some.injEq, hheld, true_and]
  next hheld => simp only [reduceCtorEq, hheld, false_and]

variable {k i : Nat}

theorem take_of_unclosed (hi : LastBreak (unclosed (tail.take k)) i) :
    messageIn (tail.take k) = tail.take i := by
  obtain ⟨rest, hrest⟩ := (unclosed_initial (tail.take k)).trans (List.take_prefix k tail)
  rw [messageIn_eq hi]
  conv_rhs => rw [← hrest, take_append_of_le_length hi.le]

theorem Reading.exception_of_settled (h : Reads tag stream r) (hsettled : r.Settled)
    (htail : tailOf tag stream = some tail) :
    ∃ k i, MayStop tail k ∧ LastBreak (unclosed (tail.take k)) i ∧
      r.body.exception = some (.fromText none (tail.take i) none) := by
  obtain ⟨marker, hmarker, hheld, rfl⟩ := tailOf_eq_some.mp htail
  obtain ⟨-, ⟨rest, hrest⟩, hended⟩ := id h
  have hholds : marker <:+: r.received := by
    rcases hsettled with hend | ⟨hexception, -⟩
    · rwa [hended hend]
    · exact (holdsMarker_iff hmarker _).mp ((Reading.found_iff h).mp hexception)
  cases h.inv with
  | bare dropped taken left hnone => rw [hmarker] at hnone; cases hnone
  | watching other dropped taken left hother hwatching =>
    rw [hmarker] at hother
    cases hother
    exact absurd hholds hwatching.absent
  | found other taken left held hother hfound hother' hrows hinitial hwhole =>
    rw [hmarker] at hother
    cases hother
    have hbehind : behind marker stream = behind marker r.received ++ rest := by
      rw [← hrest, behind_append hholds]
    have hlong : held <+: behind marker stream := by
      rw [hbehind]
      exact hinitial.trans (prefix_append _ _)
    have htake : (behind marker stream).take held.length = held :=
      (prefix_iff_eq_take.mp hlong).symm
    obtain ⟨i, hi, -⟩ := exists_lastBreak held
    refine ⟨held.length, i, ⟨hlong.length_le, ?_⟩, htake.symm ▸ hi, ?_⟩
    · rw [htake]
      have hcomplete : r.body.ended = true ∨ opening <:+ held ∨ messageRoom ≤ held.length := by
        rcases hsettled with hend | ⟨-, hcomplete⟩
        · exact .inl hend
        · exact hfound.messageComplete_iff.mp hcomplete
      rcases hcomplete with hend | hclosed | hroom
      · rcases hwhole with rfl | hroom
        · rw [hended hend]
          exact .inr (.inr rfl)
        · exact .inr (.inl hroom)
      · exact .inl hclosed
      · exact .inr (.inl hroom)
    · rw [hfound.exception]
      have hmessage := take_of_unclosed (k := held.length) (htake.symm ▸ hi)
      rw [htake] at hmessage
      rw [hmessage]

theorem Reading.exception_of_none (h : Reads tag stream r)
    (hnone : tailOf tag stream = none) : r.body.exception = none := by
  obtain ⟨-, ⟨rest, hrest⟩, hended⟩ := id h
  cases h.inv with
  | bare dropped taken left _ _ hsearching => rw [Body.exception, hsearching.rowsEnd]; rfl
  | watching marker dropped taken left hmarker hwatching =>
    rw [Body.exception, hwatching.searching.rowsEnd]
    rfl
  | found marker taken left held hmarker hfound hholds =>
    have hheld : marker <:+: stream := hrest ▸ holds_append hholds
    have hsome := tailOf_eq_some.mpr ⟨marker, hmarker, hheld, rfl⟩
    rw [hnone] at hsome
    cases hsome

theorem exists_reading_of_mayStop (htail : tailOf tag stream = some tail)
    (hstop : MayStop tail k) (hi : LastBreak (unclosed (tail.take k)) i) :
    ∃ r, Reads tag stream r ∧ r.Settled ∧
      r.body.exception = some (.fromText none (tail.take i) none) := by
  obtain ⟨marker, hmarker, hheld, rfl⟩ := tailOf_eq_some.mp htail
  obtain ⟨hk, hstop⟩ := hstop
  generalize hrows : before marker stream = rows
  generalize htail' : behind marker stream = tail at *
  have hcut : stream = rows ++ (marker ++ tail) := by
    rw [← hrows, ← htail']
    exact Needle.cut hheld
  let chunk := rows ++ (marker ++ tail.take k)
  have hstream : chunk ++ tail.drop k = stream := by
    rw [hcut]
    simp only [chunk, append_assoc, take_append_drop]
  have hchunk : marker <:+: [] ++ chunk := ⟨rows, tail.take k, append_assoc _ _ _⟩
  have hbehind : behind marker ([] ++ chunk) = tail.take k := by
    refine (append_left_inj (tail.drop k)).mp ?_
    rw [take_append_drop, ← behind_append hchunk, nil_append, hstream, htail']
  obtain ⟨left, hfound, -⟩ :=
    (Reading.watching_new hmarker).push_marker rfl (markerOf_ne_nil hmarker) hchunk
  rw [hbehind] at hfound
  have hexception : ((Body.new tag).push chunk).exception =
      some (.fromText none (tail.take i) none) := by
    rw [hfound.exception, take_of_unclosed hi]
  have hpush : Reading.Step (.new tag) (.push chunk)
      ⟨(Body.new tag).push chunk, [] ++ chunk, []⟩ := .push _ chunk rfl
  by_cases hall : k = tail.length
  · -- all of the stream: it ended
    have hwhole : [] ++ chunk = stream := by
      rw [← hstream, hall, drop_length, append_nil, nil_append]
    refine ⟨⟨((Body.new tag).push chunk).ends, [] ++ chunk, []⟩,
      ⟨⟨_, (Steps.nil.snoc hpush).snoc (.ends _)⟩, ?_, fun _ => hwhole⟩, .inl rfl, hexception⟩
    exact hwhole ▸ prefix_rfl
  · refine ⟨⟨(Body.new tag).push chunk, [] ++ chunk, []⟩,
      ⟨⟨_, Steps.nil.snoc hpush⟩, ⟨tail.drop k, hstream⟩, fun hend => ?_⟩, .inr ⟨?_, ?_⟩,
      hexception⟩
    · rw [Body.ended_push] at hend
      cases hend
    · rw [Body.hasException, hfound.rowsEnd]
      rfl
    · refine hfound.messageComplete_iff.mpr ?_
      rcases hstop with hclosed | hroom | hend
      · exact .inr (.inl hclosed)
      · refine .inr (.inr ?_)
        rwa [length_take_of_le hk]
      · exact absurd hend hall

/-! ## When the errors are the same -/

theorem fromText_eq_iff {a b : Bytes} :
    ServerError.fromText none a none = .fromText none b none ↔
      trim (fromUtf8Lossy (a.take maxMessageBytes)) =
        trim (fromUtf8Lossy (b.take maxMessageBytes)) := by
  constructor
  · intro heq
    exact congrArg ServerError.message heq
  · intro heq
    simp only [ServerError.fromText, heq]

/-- A place where a character starts, or one past the bound. -/
def Edge (tail : Bytes) (i : Nat) : Prop :=
  maxMessageBytes ≤ i ∨ ∀ c ∈ (tail.drop i).head?, c.toNat < 0x80

theorem edge_of_getElem? {c : UInt8} (h : tail[i]? = some c)
    (hc : c.toNat < 0x80) : Edge tail i := by
  refine .inr fun d hd => ?_
  rw [head?_drop, h] at hd
  exact Option.some.inj hd ▸ hc

theorem fromText_take_iff {i j : Nat} (hle : i ≤ j) (hedge : Edge tail i) :
    ServerError.fromText none (tail.take i) none = .fromText none (tail.take j) none ↔
      NothingBetween tail i j := by
  rw [fromText_eq_iff, NothingBetween, Nat.max_eq_right hle, Nat.min_eq_left hle, take_take,
    take_take, Nat.min_comm maxMessageBytes i, Nat.min_comm maxMessageBytes j]
  rcases Nat.le_total maxMessageBytes i with hpast | hin
  · -- both texts reach the bound
    have hnone : (tail.take (min j maxMessageBytes)).drop i = [] := by
      refine drop_of_length_le (Nat.le_trans (length_take_le _ _) ?_)
      exact Nat.le_trans (Nat.min_le_right _ _) hpast
    rw [hnone, Nat.min_eq_right hpast, Nat.min_eq_right (Nat.le_trans hpast hle)]
    exact iff_of_true rfl fun c hc => by cases hc
  · have hi : i ≤ min j maxMessageBytes := Nat.le_min.mpr ⟨hle, hin⟩
    have hsplit : tail.take (min j maxMessageBytes) =
        tail.take i ++ (tail.take (min j maxMessageBytes)).drop i := by
      conv_lhs => rw [← take_append_drop i (tail.take (min j maxMessageBytes))]
      rw [take_take, Nat.min_eq_left hi]
    have hstart : ∀ c ∈ ((tail.take (min j maxMessageBytes)).drop i).head?, c.toNat < 0x80 := by
      intro c hc
      rw [head?_drop, getElem?_take] at hc
      split at hc
      next hlt =>
        rcases hedge with hpast | hascii
        · have hlt' := Nat.lt_of_lt_of_le hlt (Nat.min_le_right _ _)
          exact absurd hlt' (Nat.not_lt.mpr hpast)
        · exact hascii c (by rw [head?_drop]; exact hc)
      next => cases hc
    rw [Nat.min_eq_left hin]
    conv_lhs => rw [hsplit, fromUtf8Lossy_append hstart]
    exact eq_comm.trans trim_append_iff

theorem NothingBetween.symm {i j : Nat} (h : NothingBetween tail i j) :
    NothingBetween tail j i := by
  rwa [NothingBetween, Nat.max_comm, Nat.min_comm j i]

theorem fromText_take {i j : Nat} (hi : Edge tail i) (hj : Edge tail j) :
    ServerError.fromText none (tail.take i) none = .fromText none (tail.take j) none ↔
      NothingBetween tail i j := by
  rcases Nat.le_total i j with hle | hle
  · exact fromText_take_iff hle hi
  · rw [eq_comm, fromText_take_iff hle hj]
    exact ⟨NothingBetween.symm, NothingBetween.symm⟩

theorem edge_of_mayStop (hstop : MayStop tail k)
    (hi : LastBreak (unclosed (tail.take k)) i) : Edge tail i := by
  obtain ⟨hk, hstop⟩ := hstop
  have hinitial := (unclosed_initial (tail.take k)).trans (List.take_prefix k tail)
  rcases hi with ⟨hbreak, -⟩ | ⟨-, rfl⟩
  · refine edge_of_getElem? (c := newline) ?_ (by decide)
    obtain ⟨rest, hrest⟩ := hinitial
    rw [← hrest, getElem?_append_left (List.getElem?_eq_some_iff.mp hbreak).1, hbreak]
  · by_cases hclosed : opening <:+ tail.take k
    · -- the closing text begins with a carriage return
      obtain ⟨front, hfront⟩ := hclosed
      have hunclosed : unclosed (tail.take k) = front := by
        rw [unclosed, if_pos ⟨front, hfront⟩, ← hfront, length_append, Nat.add_sub_cancel,
          take_left]
      obtain ⟨rest, hrest⟩ := List.take_prefix k tail
      refine edge_of_getElem? (c := 13) ?_ (by decide)
      rw [hunclosed, ← hrest, ← hfront, append_assoc,
        getElem?_append_right (Nat.le_refl _), Nat.sub_self]
      rfl
    · rw [unclosed, if_neg hclosed, length_take_of_le hk]
      rcases hstop with h | hroom | rfl
      · exact absurd h hclosed
      · refine .inl (Nat.le_trans ?_ hroom)
        exact Nat.le_mul_of_pos_right _ (by decide)
      · refine .inr fun c hc => ?_
        rw [drop_length] at hc
        cases hc

theorem mayStop_end (tail : Bytes) : MayStop tail tail.length :=
  ⟨Nat.le_refl _, .inr (.inr rfl)⟩

theorem take_of_encloses {tail message : Bytes} (htail : tailOf tag stream = some tail)
    (h : Encloses tag stream message) :
    tail.take message.length = message ∧ Edge tail message.length := by
  obtain ⟨name, -, hname⟩ := h
  rw [htail] at hname
  obtain rfl := Option.some.inj hname
  refine ⟨take_left, edge_of_getElem? (c := newline) ?_ (by decide)⟩
  rw [getElem?_append_right (Nat.le_refl _), Nat.sub_self]
  rfl

theorem edge_of_messageEnd (htail : tailOf tag stream = some tail) {j : Nat}
    (h : MessageEnd tag stream tail j) : Edge tail j := by
  rcases h with hj | ⟨message, hmessage, rfl⟩
  · refine edge_of_mayStop (mayStop_end tail) ?_
    rwa [take_length]
  · exact (take_of_encloses htail hmessage).2

/-- Rows and exception are split in the same way in all readings of a stream exactly if, wherever
reading may stop, the last line break of what is held hides nothing of the message. -/
theorem split_whatever_the_chunks (tag : Option Str) (stream : Bytes) :
    SplitWhatever tag stream ↔ ShownWhole tag stream := by
  constructor
  · intro hsplit tail htail k i j hstop hi hj
    obtain ⟨r, hreads, hsettled, hexception⟩ := exists_reading_of_mayStop htail hstop hi
    refine (fromText_take (edge_of_mayStop hstop hi) (edge_of_messageEnd htail hj)).mp ?_
    rcases hj with hj | ⟨message, hmessage, rfl⟩
    · obtain ⟨r', hreads', hsettled', hexception'⟩ :=
        exists_reading_of_mayStop htail (mayStop_end tail) (by rwa [take_length])
      have hsame := hsplit.same r r' hreads hreads' hsettled hsettled'
      rw [hexception, hexception'] at hsame
      exact Option.some.inj hsame
    · have hmeant := hsplit.meant r message hreads hsettled hmessage
      rw [hexception] at hmeant
      rw [(take_of_encloses htail hmessage).1]
      exact Option.some.inj hmeant
  · intro hshown
    refine ⟨fun r => Reading.handed_initial, fun r => Reading.handed_all,
      fun r => Reading.found_iff, fun r r' hreads hreads' hsettled hsettled' => ?_,
      fun r message hreads hsettled hmessage => ?_⟩
    · cases htail : tailOf tag stream with
      | none =>
        rw [Reading.exception_of_none hreads htail, Reading.exception_of_none hreads' htail]
      | some tail =>
        obtain ⟨k, i, hstop, hi, hexception⟩ :=
          Reading.exception_of_settled hreads hsettled htail
        obtain ⟨k', i', hstop', hi', hexception'⟩ :=
          Reading.exception_of_settled hreads' hsettled' htail
        obtain ⟨j, hj, -⟩ := exists_lastBreak tail
        have hedge : Edge tail j := edge_of_messageEnd htail (.inl hj)
        have hone := (fromText_take (edge_of_mayStop hstop hi) hedge).mpr
          (hshown tail htail k i j hstop hi (.inl hj))
        have hother := (fromText_take (edge_of_mayStop hstop' hi') hedge).mpr
          (hshown tail htail k' i' j hstop' hi' (.inl hj))
        rw [hexception, hexception', hone, hother]
    · obtain ⟨name, hname, htail⟩ := id hmessage
      generalize message ++ closingLine name message = tail at htail
      obtain ⟨k, i, hstop, hi, hexception⟩ := Reading.exception_of_settled hreads hsettled htail
      have hend : MessageEnd tag stream tail message.length := .inr ⟨message, hmessage, rfl⟩
      have hone := (fromText_take (edge_of_mayStop hstop hi) (edge_of_messageEnd htail hend)).mpr
        (hshown _ htail k i message.length hstop hi hend)
      rw [hexception, hone, (take_of_encloses htail hmessage).1]

/-- A message that quotes the closing text in its second line. -/
def quotingMessage : Bytes := bytes "Code: 62. at\n'\r\n__exception__\r\n'".toList

/-- Its block, up to the end of the quoted text. -/
def quotingStart : Bytes :=
  opening ++ bytes "tag\r\nCode: 62. at\n'\r\n__exception__\r\n".toList

def quotingStream : Bytes :=
  quotingStart ++ bytes "'".toList ++ closingLine "tag".toList quotingMessage

/-- A chunk that ends in the quoted text ends the reading, and the first line is all of the
error. -/
theorem quoted_text_cuts_the_message : ¬ SplitWhatever (some "tag".toList) quotingStream := by
  intro hsplit
  have hpush : Reading.Step (.new (some "tag".toList)) (.push quotingStart)
      ⟨(Body.new (some "tag".toList)).push quotingStart, [] ++ quotingStart, []⟩ := .push _ _ rfl
  have hmeant := hsplit.meant _ quotingMessage
    ⟨⟨_, Steps.nil.snoc hpush⟩, ⟨_, (append_assoc _ _ _).symm⟩,
      fun hend => absurd hend (by decide)⟩
    (.inr (by decide)) ⟨"tag".toList, rfl, by decide⟩
  exact absurd hmeant (by decide)

end

end Oxyn.ClickHouse
