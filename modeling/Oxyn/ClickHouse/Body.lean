/-
# `Oxyn.ClickHouse.Body` — a response body as it arrives, rows and then an exception

An exception raised after the first row is written into the body, behind a marker that holds the
tag the response announced.
-/
import Oxyn.Lib.Lossy
import Oxyn.Lib.Needle

namespace Oxyn.ClickHouse

open Text List

abbrev Bytes := List UInt8

/-! ## The server's error -/

def maxMessageBytes : Nat := 16 * 1024

structure ServerError where
  code : Option Nat
  message : Str
  writtenRows : Option Nat
deriving DecidableEq, Repr

def isDigit (c : Char) : Bool := '0'.toNat ≤ c.toNat && c.toNat ≤ '9'.toNat

/-- `str::parse::<u32>`. -/
def parseU32 (s : Str) : Option Nat :=
  let digits := if s.head? = some '+' then s.tail else s
  let value := digits.foldl (fun v c => v * 10 + (c.toNat - '0'.toNat)) 0
  if digits ≠ [] ∧ digits.all isDigit ∧ value < 2 ^ 32 then some value else none

/-- The code a message opens with: `Code: 395. DB::Exception: …`. -/
def codeOf (message : Str) : Option Nat :=
  let word := "Code: ".toList
  if word <+: message then
    parseU32 (trim ((message.drop word.length).takeWhile (· ≠ '.')))
  else none

def ServerError.fromText (headerCode : Option Nat) (text : Bytes) (writtenRows : Option Nat) :
    ServerError :=
  let message := trim (fromUtf8Lossy (text.take maxMessageBytes))
  ⟨headerCode.or (codeOf message), message, writtenRows⟩

/-! ## The body -/

/-- What opens the exception block, before the tag, and what closes it, behind the tag. -/
def opening : Bytes := bytes "\r\n__exception__\r\n".toList

/-- The most an exception block may hold after its marker. -/
def messageRoom : Nat := maxMessageBytes * 2

def newline : UInt8 := 10

/-- The response body, split between rows and a possible exception. -/
structure Body where
  pending : Bytes
  start : Nat
  marker : Option Bytes
  /-- Where the marker search resumes: everything before it was searched. -/
  scanned : Nat
  /-- Where the rows end, once the marker was found. -/
  rowsEnd : Option Nat
  ended : Bool
deriving DecidableEq, Repr

def markerOf (tag : Option Str) : Option Bytes :=
  (tag.filter (· ≠ [])).map fun tag => opening ++ bytes tag ++ bytes "\r\n".toList

/-- The search from `at` on. -/
def findFrom (needle : Bytes) (first : UInt8) : Bytes → Nat → Option Nat
  | [], _ => none
  | b :: rest, at_ =>
    if b = first then
      -- `haystack.get(at..at + needle.len())?`
      if (b :: rest).length < needle.length then none
      else if (b :: rest).take needle.length = needle then some at_
      else findFrom needle first rest (at_ + 1)
    else findFrom needle first rest (at_ + 1)

/-- The first position of `needle` in `haystack`. -/
def find (haystack needle : Bytes) : Option Nat :=
  match needle with
  | [] => none
  | first :: _ => findFrom needle first haystack 0

/-- `slice.iter().rposition(p)`. -/
def rposition (p : UInt8 → Bool) : Bytes → Option Nat
  | [] => none
  | b :: rest =>
    match rposition p rest with
    | some i => some (i + 1)
    | none => if p b then some 0 else none

/-- `text.strip_suffix(..).unwrap_or(text)`, of the line that closes the block. -/
def unclosed (text : Bytes) : Bytes :=
  if opening <:+ text then text.take (text.length - opening.length) else text

/-- The message is what precedes the last line. -/
def messageIn (text : Bytes) : Bytes :=
  match rposition (· = newline) (unclosed text) with
  | some i => (unclosed text).take i
  | none => unclosed text

namespace Body

/-- A body whose exception, if any, carries `tag`. -/
def new (tag : Option Str) : Body := ⟨[], 0, markerOf tag, 0, none, false⟩

def push (b : Body) (chunk : Bytes) : Body :=
  match b.rowsEnd with
  | some rowsEnd =>
    -- past the marker: only the message, bounded
    let limit := rowsEnd + (b.marker.elim 0 List.length) + messageRoom
    { b with pending := b.pending ++ chunk.take (limit - b.pending.length) }
  | none =>
    let pending := b.pending ++ chunk
    match b.marker with
    | none => { b with pending }
    | some marker =>
      let from_ := b.scanned - marker.length
      { b with
        pending
        scanned := pending.length
        rowsEnd := (find (pending.drop from_) marker).map (from_ + ·) }

def ends (b : Body) : Body := { b with ended := true }

def readyEnd (b : Body) : Nat :=
  match b.rowsEnd, b.marker with
  | some rowsEnd, _ => rowsEnd
  | none, marker =>
    if b.ended then b.pending.length
    else match marker with
      | some marker => b.pending.length - marker.length
      | none => b.pending.length

def ready (b : Body) : Bytes :=
  if b.start ≤ b.readyEnd ∧ b.readyEnd ≤ b.pending.length then
    (b.pending.take b.readyEnd).drop b.start
  else []

/-- Marks `n` bytes of what is ready as decoded. -/
def consume (b : Body) (n : Nat) : Body :=
  let start := min (b.start + n) b.pending.length
  -- compacted once the decoded prefix is large
  if 2 ^ 20 ≤ start ∧ b.pending.length ≤ start * 2 then
    { b with
      pending := b.pending.drop start
      scanned := b.scanned - start
      rowsEnd := b.rowsEnd.map (· - start)
      start := 0 }
  else { b with start }

def exception (b : Body) : Option ServerError := do
  let rowsEnd ← b.rowsEnd
  let marker ← b.marker
  if rowsEnd + marker.length ≤ b.pending.length then
    some (.fromText none (messageIn (b.pending.drop (rowsEnd + marker.length))) none)
  else none

/-- Whether an exception block was found. -/
def hasException (b : Body) : Bool := b.rowsEnd.isSome

/-- The closing line of the message came, the body ended, or the bound on its length was reached. -/
def messageComplete (b : Body) : Bool :=
  match b.rowsEnd, b.marker with
  | some rowsEnd, some marker =>
    let tail := b.pending.drop (rowsEnd + marker.length)
    b.ended || decide (opening <:+ tail) || decide (messageRoom ≤ tail.length)
  | _, _ => true

/-- Whether the rows have all been seen. -/
def rowsClosed (b : Body) : Bool := b.ended || b.rowsEnd.isSome

end Body

/-! ## The search -/

theorem findFrom_step {first b : UInt8} {ns rest : Bytes} (h : ¬ first :: ns <+: b :: rest)
    (i : Nat) : findFrom (first :: ns) first (b :: rest) i =
      if b = first ∧ (b :: rest).length < (first :: ns).length then none
      else findFrom (first :: ns) first rest (i + 1) := by
  have htake : ¬ (b :: rest).take (first :: ns).length = first :: ns := fun heq =>
    h (prefix_iff_eq_take.mpr heq.symm)
  rw [findFrom]
  by_cases hb : b = first
  · rw [if_pos hb, if_neg htake]
    simp only [hb, true_and]
  · rw [if_neg hb, if_neg fun h => hb h.1]

theorem findFrom_of_holds {first : UInt8} {ns haystack : Bytes} (h : first :: ns <:+: haystack)
    (i : Nat) : findFrom (first :: ns) first haystack i =
      some (i + (Needle.before (first :: ns) haystack).length) := by
  induction haystack generalizing i with
  | nil => exact absurd (infix_nil.mp h) (cons_ne_nil _ _)
  | cons b rest ih =>
    by_cases hstart : first :: ns <+: b :: rest
    · have hb : first = b := (cons_prefix_cons.mp hstart).1
      rw [findFrom, if_pos hb.symm, if_neg (Nat.not_lt.mpr hstart.length_le),
        if_pos (prefix_iff_eq_take.mp hstart).symm, Needle.before_of_starts hstart]
      rfl
    · have hrest := (infix_cons_iff.mp h).resolve_left hstart
      have hlen : (first :: ns).length ≤ rest.length := hrest.length_le
      rw [findFrom_step hstart, if_neg (fun h => by simp only [length_cons] at h hlen; omega),
        ih hrest, Needle.before_cons hstart, length_cons, Nat.add_right_comm, Nat.add_assoc]

theorem findFrom_of_absent {first : UInt8} {ns haystack : Bytes}
    (h : ¬ first :: ns <:+: haystack) (i : Nat) :
    findFrom (first :: ns) first haystack i = none := by
  induction haystack generalizing i with
  | nil => rfl
  | cons b rest ih =>
    rw [infix_cons_iff, not_or] at h
    rw [findFrom_step h.1, ih h.2, ite_self]

theorem find_of_holds {haystack needle : Bytes} (hne : needle ≠ []) (h : needle <:+: haystack) :
    find haystack needle = some (Needle.before needle haystack).length := by
  cases needle with
  | nil => exact absurd rfl hne
  | cons first ns => rw [find, findFrom_of_holds h, Nat.zero_add]

theorem find_of_absent {haystack needle : Bytes} (h : ¬ needle <:+: haystack) :
    find haystack needle = none := by
  cases needle with
  | nil => rfl
  | cons first ns => exact findFrom_of_absent h 0

/-! ## The last line -/

/-- The place of the last line break of a text; its end, if it has none. -/
def LastBreak (text : Bytes) (i : Nat) : Prop :=
  (text[i]? = some newline ∧ newline ∉ text.drop (i + 1)) ∨ (newline ∉ text ∧ i = text.length)

variable {text : Bytes}

theorem rposition_none (h : rposition (· = newline) text = none) :
    newline ∉ text := by
  induction text with
  | nil => exact not_mem_nil
  | cons b rest ih =>
    rw [rposition] at h
    cases hrest : rposition (· = newline) rest with
    | some j =>
      rw [hrest] at h
      cases h
    | none =>
      rw [hrest] at h
      intro hmem
      rcases mem_cons.mp hmem with rfl | hmem
      · simp only [decide_true, if_true] at h
        cases h
      · exact ih hrest hmem

variable {i : Nat}

theorem rposition_some (h : rposition (· = newline) text = some i) :
    text[i]? = some newline ∧ newline ∉ text.drop (i + 1) := by
  induction text generalizing i with
  | nil => cases h
  | cons b rest ih =>
    rw [rposition] at h
    cases hrest : rposition (· = newline) rest with
    | some j =>
      rw [hrest] at h
      obtain rfl := Option.some.inj h
      exact ih hrest
    | none =>
      rw [hrest] at h
      have hb : b = newline := by
        by_contra hne
        simp only [hne, decide_false, Bool.false_eq_true, if_false] at h
        cases h
      simp only [hb, decide_true, if_true, Option.some.injEq] at h
      subst h hb
      exact ⟨rfl, rposition_none hrest⟩

theorem LastBreak.le (h : LastBreak text i) : i ≤ text.length := by
  rcases h with ⟨hbreak, -⟩ | ⟨-, rfl⟩
  · exact Nat.le_of_lt (List.getElem?_eq_some_iff.mp hbreak).1
  · exact Nat.le_refl _

theorem LastBreak.le_of_break {i j : Nat} (h : LastBreak text i)
    (hj : text[j]? = some newline) : j ≤ i := by
  rcases h with ⟨-, hlast⟩ | ⟨hnone, -⟩
  · by_contra hlt
    have hmem : newline ∈ text.drop (i + 1) := by
      refine mem_of_getElem? (i := j - (i + 1)) ?_
      rw [getElem?_drop, ← hj]
      congr 1
      omega
    exact hlast hmem
  · exact absurd (mem_of_getElem? hj) hnone

theorem LastBreak.unique {i j : Nat} (h : LastBreak text i) (h' : LastBreak text j) : i = j := by
  rcases h, h' with ⟨⟨hi, hlast⟩ | ⟨hnone, rfl⟩, ⟨hj, hlast'⟩ | ⟨hnone', rfl⟩⟩
  · exact Nat.le_antisymm (LastBreak.le_of_break (.inl ⟨hj, hlast'⟩) hi)
      (LastBreak.le_of_break (.inl ⟨hi, hlast⟩) hj)
  · exact absurd (mem_of_getElem? hi) hnone'
  · exact absurd (mem_of_getElem? hj) hnone
  · rfl

theorem exists_lastBreak (text : Bytes) :
    ∃ i, LastBreak (unclosed text) i ∧ messageIn text = (unclosed text).take i := by
  rw [messageIn]
  cases h : rposition (· = newline) (unclosed text) with
  | some i => exact ⟨i, .inl (rposition_some h), rfl⟩
  | none => exact ⟨_, .inr ⟨rposition_none h, rfl⟩, take_length.symm⟩

theorem messageIn_eq (h : LastBreak (unclosed text) i) :
    messageIn text = (unclosed text).take i := by
  obtain ⟨j, hj, heq⟩ := exists_lastBreak text
  rw [heq, h.unique hj]

theorem unclosed_initial (text : Bytes) : unclosed text <+: text := by
  rw [unclosed]
  split
  · exact List.take_prefix _ _
  · exact prefix_rfl

/-! ## What the operations do -/

/-- The bytes that are buffered, no marker among them so far: those handed out and not dropped
yet, and those left. -/
structure Body.Searching (b : Body) (taken left : Bytes) : Prop where
  pending : b.pending = taken ++ left
  start : b.start = taken.length
  rowsEnd : b.rowsEnd = none
  scanned : b.marker.isSome → b.scanned = b.pending.length

structure Body.Found (b : Body) (marker taken left held : Bytes) : Prop where
  pending : b.pending = taken ++ (left ++ (marker ++ held))
  start : b.start = taken.length
  marker : b.marker = some marker
  rowsEnd : b.rowsEnd = some (taken.length + left.length)

namespace Body

variable {b : Body} {marker taken left held : Bytes}

theorem marker_push (b : Body) (chunk : Bytes) : (b.push chunk).marker = b.marker := by
  rw [push]
  split
  · rfl
  · split <;> simp only [*]

theorem ended_push (b : Body) (chunk : Bytes) : (b.push chunk).ended = b.ended := by
  rw [push]
  split
  · rfl
  · split <;> rfl

theorem marker_consume (b : Body) (n : Nat) : (b.consume n).marker = b.marker := by
  rw [consume]
  split <;> rfl

theorem ended_consume (b : Body) (n : Nat) : (b.consume n).ended = b.ended := by
  rw [consume]
  split <;> rfl

/-! ### With the marker -/

theorem Found.tail (h : Found b marker taken left held) :
    b.pending.drop (taken.length + left.length + marker.length) = held := by
  rw [h.pending, ← append_assoc, ← append_assoc]
  refine drop_left' ?_
  rw [length_append, length_append]

theorem Found.exception (h : Found b marker taken left held) :
    b.exception = some (.fromText none (messageIn held) none) := by
  have hlen : taken.length + left.length + marker.length ≤ b.pending.length := by
    simp only [h.pending, length_append]
    omega
  simp only [Body.exception, h.rowsEnd, h.marker, Option.bind_eq_bind, Option.bind_some, h.tail,
    if_pos hlen]

theorem Found.messageComplete_iff (h : Found b marker taken left held) :
    b.messageComplete = true ↔ b.ended = true ∨ opening <:+ held ∨ messageRoom ≤ held.length := by
  simp only [Body.messageComplete, h.rowsEnd, h.marker, h.tail, Bool.or_eq_true, decide_eq_true_eq,
    or_assoc]

theorem Found.ready (h : Found b marker taken left held) : b.ready = left := by
  have hend : b.readyEnd = taken.length + left.length := by rw [readyEnd, h.rowsEnd]
  have hle : taken.length + left.length ≤ b.pending.length := by
    simp only [h.pending, length_append]
    omega
  rw [Body.ready, hend, h.start, if_pos ⟨Nat.le_add_right _ _, hle⟩, h.pending,
    ← append_assoc, take_left' length_append, drop_left]

theorem Found.push (h : Found b marker taken left held) (chunk : Bytes) :
    Found (b.push chunk) marker taken left (held ++ chunk.take (messageRoom - held.length)) := by
  have hroom : taken.length + left.length + marker.length + messageRoom - b.pending.length =
      messageRoom - held.length := by
    simp only [h.pending, length_append]
    omega
  have hpush : b.push chunk =
      { b with pending := b.pending ++ chunk.take (messageRoom - held.length) } := by
    rw [Body.push]
    simp only [h.rowsEnd, h.marker, Option.elim_some, hroom]
  rw [hpush]
  refine ⟨?_, h.start, h.marker, h.rowsEnd⟩
  simp only [h.pending, append_assoc]

variable {n : Nat}

theorem Found.consume (h : Found b marker taken left held) (hn : n ≤ left.length) :
    ∃ taken', Found (b.consume n) marker taken' (left.drop n) held ∧
      taken' <:+ taken ++ left.take n := by
  have hstart : min (b.start + n) b.pending.length = taken.length + n := by
    simp only [h.pending, h.start, length_append]
    omega
  have hsplit : b.pending = (taken ++ left.take n) ++ (left.drop n ++ (marker ++ held)) := by
    rw [h.pending, append_assoc, ← append_assoc (left.take n), take_append_drop]
  have hlen : (taken ++ left.take n).length = taken.length + n := by
    rw [length_append, length_take_of_le hn]
  rw [Body.consume]
  simp only [hstart]
  split
  · refine ⟨[], ⟨?_, rfl, h.marker, ?_⟩, nil_suffix⟩
    · rw [hsplit, drop_left' hlen, nil_append]
    · simp only [h.rowsEnd, Option.map_some, length_nil, length_drop]
      congr 1
      omega
  · refine ⟨taken ++ left.take n, ⟨hsplit, hlen.symm, h.marker, ?_⟩, suffix_rfl⟩
    rw [h.rowsEnd, hlen, length_drop]
    congr 1
    omega

/-! ### Without the marker -/

def keep (b : Body) : Nat := if b.ended then 0 else b.marker.elim 0 List.length

theorem Searching.ready (h : Searching b taken left) :
    b.ready = left.take (left.length - b.keep) := by
  have hlen : b.pending.length = taken.length + left.length := by
    rw [h.pending, length_append]
  have hend : b.readyEnd = b.pending.length - b.keep := by
    simp only [readyEnd, keep, h.rowsEnd]
    split
    · rfl
    · cases b.marker <;> rfl
  rw [Body.ready, hend, h.start, hlen]
  split
  next hle =>
    have hkept : taken.length + left.length - b.keep - taken.length = left.length - b.keep := by
      omega
    rw [h.pending, take_append, take_of_length_le hle.1, drop_left, hkept]
  next hlt =>
    have hnone : left.length - b.keep = 0 := by omega
    rw [hnone, take_zero]

theorem Searching.consume (h : Searching b taken left) (hn : n ≤ left.length) :
    ∃ taken', Searching (b.consume n) taken' (left.drop n) ∧ taken' <:+ taken ++ left.take n := by
  have hstart : min (b.start + n) b.pending.length = taken.length + n := by
    simp only [h.pending, h.start, length_append]
    omega
  have hsplit : b.pending = (taken ++ left.take n) ++ left.drop n := by
    rw [h.pending, append_assoc, take_append_drop]
  have hlen : (taken ++ left.take n).length = taken.length + n := by
    rw [length_append, length_take_of_le hn]
  rw [Body.consume]
  simp only [hstart]
  split
  · refine ⟨[], ⟨?_, rfl, ?_, fun hmarker => ?_⟩, nil_suffix⟩
    · rw [hsplit, drop_left' hlen, nil_append]
    · simp only [h.rowsEnd, Option.map_none]
    · simp only [h.scanned hmarker, length_drop]
  · exact ⟨taken ++ left.take n, ⟨hsplit, hlen.symm, h.rowsEnd, h.scanned⟩, suffix_rfl⟩

theorem Searching.push_bare (h : Searching b taken left) (hmarker : b.marker = none)
    (chunk : Bytes) : Searching (b.push chunk) taken (left ++ chunk) := by
  have hpush : b.push chunk = { b with pending := b.pending ++ chunk } := by
    rw [Body.push]
    simp only [h.rowsEnd, hmarker]
  rw [hpush]
  refine ⟨?_, h.start, h.rowsEnd, fun hsome => ?_⟩
  · rw [h.pending, append_assoc]
  · rw [hmarker] at hsome
    cases hsome

theorem Searching.push_eq (h : Searching b taken left) (hmarker : b.marker = some marker)
    (chunk : Bytes) : b.push chunk = { b with
      pending := b.pending ++ chunk
      scanned := (b.pending ++ chunk).length
      rowsEnd := (find ((b.pending ++ chunk).drop (b.pending.length - marker.length)) marker).map
        (b.pending.length - marker.length + ·) } := by
  rw [Body.push]
  simp only [h.rowsEnd, hmarker, h.scanned (by rw [hmarker]; rfl)]

structure Watching (b : Body) (marker dropped taken left seen : Bytes) : Prop where
  searching : Searching b taken left
  carries : b.marker = some marker
  all : dropped ++ b.pending = seen
  absent : ¬ marker <:+: seen
  room : b.ended = false → dropped ++ taken = [] ∨ marker.length ≤ left.length

variable {dropped seen : Bytes}

theorem Watching.window (h : Watching b marker dropped taken left seen)
    (hopen : b.ended = false) (chunk : Bytes) :
    ∀ i < dropped.length + (b.pending.length - marker.length),
      ¬ marker <+: (seen ++ chunk).drop i := by
  intro i hi
  refine Needle.not_starts_of_absent h.absent ?_
  have hlen := congrArg List.length h.searching.pending
  have hseen := congrArg List.length h.all
  rw [length_append] at hlen hseen
  rcases h.room hopen with hnone | hroom
  · have hdropped := congrArg List.length (append_eq_nil_iff.mp hnone).1
    rw [length_nil] at hdropped
    omega
  · omega

theorem Watching.drop (h : Watching b marker dropped taken left seen) (chunk : Bytes) (k : Nat) :
    (seen ++ chunk).drop (dropped.length + k) = (b.pending ++ chunk).drop k := by
  rw [← h.all, append_assoc, ← drop_drop, drop_left]

theorem Watching.consume (h : Watching b marker dropped taken left seen)
    (hn : n ≤ b.ready.length) : ∃ dropped' taken',
      Watching (b.consume n) marker dropped' taken' (left.drop n) seen ∧
        dropped' ++ taken' = dropped ++ taken ++ b.ready.take n := by
  rw [h.searching.ready] at hn ⊢
  rw [length_take] at hn
  have htake : (left.take (left.length - b.keep)).take n = left.take n := by
    rw [take_take, Nat.min_eq_left (by omega)]
  obtain ⟨taken', hsearching, dropped', hdropped⟩ := h.searching.consume (n := n) (by omega)
  have hall : dropped ++ dropped' ++ taken' = dropped ++ taken ++ left.take n := by
    rw [append_assoc, hdropped, append_assoc]
  rw [htake]
  refine ⟨dropped ++ dropped', taken', ⟨hsearching, ?_, ?_, h.absent, fun hopen => ?_⟩, hall⟩
  · rw [marker_consume, h.carries]
  · rw [← h.all, hsearching.pending, h.searching.pending, ← append_assoc, hall,
      append_assoc, append_assoc, take_append_drop]
  · rw [ended_consume] at hopen
    have hkeep : b.keep = marker.length := by
      rw [keep, hopen, h.carries]
      rfl
    rw [hall, length_drop]
    rcases h.room hopen with hnone | hroom
    · rw [hnone, nil_append]
      rcases Nat.eq_zero_or_pos n with rfl | hpos
      · exact .inl rfl
      · exact .inr (by omega)
    · exact .inr (by omega)

theorem Watching.push_rows (h : Watching b marker dropped taken left seen)
    {chunk : Bytes} (habsent : ¬ marker <:+: seen ++ chunk) :
    Watching (b.push chunk) marker dropped taken (left ++ chunk) (seen ++ chunk) := by
  have hnone : find ((b.pending ++ chunk).drop (b.pending.length - marker.length)) marker =
      none := by
    refine find_of_absent fun hheld => habsent ?_
    rw [← h.drop] at hheld
    exact hheld.trans (drop_suffix _ _).isInfix
  have hpush := h.searching.push_eq h.carries chunk
  rw [hnone] at hpush
  refine ⟨?_, ?_, ?_, habsent, ?_⟩
  · rw [hpush]
    refine ⟨?_, h.searching.start, rfl, fun _ => rfl⟩
    rw [h.searching.pending, append_assoc]
  · rw [marker_push, h.carries]
  · rw [hpush, ← h.all, append_assoc]
  · intro hopen
    rw [ended_push] at hopen
    refine (h.room hopen).imp_right fun hroom => ?_
    rw [length_append]
    omega

theorem Watching.push_marker (h : Watching b marker dropped taken left seen)
    (hopen : b.ended = false) (hne : marker ≠ []) {chunk : Bytes}
    (hheld : marker <:+: seen ++ chunk) :
    ∃ left', Found (b.push chunk) marker taken left' (Needle.behind marker (seen ++ chunk)) ∧
      dropped ++ taken ++ left' = Needle.before marker (seen ++ chunk) := by
  have hbefore := Needle.before_drop (h.window hopen chunk)
  have hwindow := (Needle.holds_drop (h.window hopen chunk) hne).mp hheld
  rw [h.drop] at hbefore hwindow
  have hpush := h.searching.push_eq h.carries chunk
  rw [find_of_holds hne hwindow, Option.map_some] at hpush
  have hseen := congrArg List.length h.all
  have hpending := congrArg List.length h.searching.pending
  rw [length_append] at hseen hpending
  have hlen := congrArg List.length hbefore
  rw [length_append, length_take_of_le (by rw [length_append]; omega)] at hlen
  -- the rows begin with what was handed out
  have hinitial : dropped ++ taken <+: Needle.before marker (seen ++ chunk) := by
    refine prefix_of_prefix_length_le ?_
      (Needle.before_initial marker (seen ++ chunk)) ?_
    · rw [← h.all, h.searching.pending]
      simp only [append_assoc]
      exact (prefix_append_right_inj dropped).mpr (prefix_append taken _)
    · rw [length_append, hlen]
      rcases h.room hopen with hnone | hroom
      · have hzero := congrArg List.length hnone
        rw [length_append, length_nil] at hzero
        omega
      · omega
  obtain ⟨left', hleft⟩ := hinitial
  have hcut := Needle.cut hheld
  refine ⟨left', ?_, hleft⟩
  rw [hpush]
  refine ⟨?_, h.searching.start, h.carries, ?_⟩
  · refine (append_right_inj dropped).mp ?_
    rw [← append_assoc, h.all]
    conv_lhs => rw [hcut, ← hleft]
    simp only [append_assoc]
  · have hlength := congrArg List.length hleft
    simp only [length_append] at hlength
    rw [hlen] at hlength
    dsimp only
    congr 1
    omega

end Body

end Oxyn.ClickHouse
