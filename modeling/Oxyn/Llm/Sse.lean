/-
# `Oxyn.Llm.Sse` — frames of a `text/event-stream`

The bytes of a stream come in chunks that know nothing of lines.  They gather up to the end of
a line before anything is interpreted, within a bound; an empty line ends a frame.
-/
import Oxyn.Llm.Event

namespace Oxyn.Llm

open Text

structure SseFrame where
  event : Option Str
  data : Str
deriving DecidableEq

def defaultBufferLimit : Nat := 8 * 1024 * 1024

structure SseDecoder where
  buffer : List UInt8
  event : Option Str
  data : Str
  hasData : Bool
  limit : Nat

namespace SseDecoder

def withLimit (limit : Nat) : SseDecoder := ⟨[], none, [], false, limit⟩

def new : SseDecoder := withLimit defaultBufferLimit

/-- A chunk is added; does the accumulation stay within the bound? -/
def push (d : SseDecoder) (chunk : List UInt8) : SseDecoder × Bool :=
  let d := { d with buffer := d.buffer ++ chunk }
  (d, d.buffer.length + byteLen d.data ≤ d.limit)

def overflowText (d : SseDecoder) : String :=
  "SSE frame exceeded " ++ toString d.limit ++ " bytes without a line break"

/-- The stream closes: the end of frame the server may not have sent. -/
def finish (d : SseDecoder) : SseDecoder := { d with buffer := d.buffer ++ [10, 10] }

end SseDecoder

/-- The bytes before the first line feed, and those behind it. -/
def takeLine : List UInt8 → Option (List UInt8 × List UInt8)
  | [] => none
  | b :: rest =>
    if b = 10 then some ([], rest)
    else (takeLine rest).map fun line => (b :: line.1, line.2)

theorem takeLine_length {bytes : List UInt8} {line : List UInt8 × List UInt8}
    (h : takeLine bytes = some line) : line.2.length < bytes.length := by
  induction bytes generalizing line with
  | nil => cases h
  | cons b rest ih =>
    unfold takeLine at h
    split at h
    · cases h
      exact Nat.lt_succ_self _
    · obtain ⟨inner, hinner, rfl⟩ := Option.map_eq_some_iff.mp h
      have hlt := ih hinner
      exact Nat.lt_succ_of_lt hlt

/-- Without a carriage return at its end. -/
def dropReturn (line : List UInt8) : List UInt8 :=
  if line.getLast? = some 13 then line.dropLast else line

def splitField (text : Str) : Str × Str :=
  match text.dropWhile (· ≠ ':') with
  | [] => (text, [])
  | _ :: ' ' :: value => (text.takeWhile (· ≠ ':'), value)
  | _ :: value => (text.takeWhile (· ≠ ':'), value)

namespace SseDecoder

def absorb (d : SseDecoder) (line : List UInt8) : SseDecoder :=
  if line.head? = some 58 then d
  else
    let field := splitField (fromUtf8Lossy line)
    if field.1 = "data".toList then
      { d with data := (if d.hasData then d.data ++ ['\n'] else d.data) ++ field.2, hasData := true }
    else if field.1 = "event".toList then { d with event := some field.2 }
    else d

/-- The current frame, the accumulation starting again. -/
def takeFrame (d : SseDecoder) : SseFrame × SseDecoder :=
  (⟨d.event, d.data⟩, { d with event := none, data := [], hasData := false })

theorem absorb_buffer (d : SseDecoder) (line : List UInt8) : (d.absorb line).buffer = d.buffer := by
  unfold absorb
  split
  · rfl
  · dsimp only
    split
    · rfl
    · split
      · rfl
      · rfl

def nextFrame (d : SseDecoder) : Option SseFrame × SseDecoder :=
  match hline : takeLine d.buffer with
  | none => (none, d)
  | some line =>
    let rest := { d with buffer := line.2 }
    if dropReturn line.1 = [] then
      if rest.hasData ∨ rest.event.isSome then (some rest.takeFrame.1, rest.takeFrame.2)
      else nextFrame rest
    else nextFrame (rest.absorb (dropReturn line.1))
termination_by d.buffer.length
decreasing_by
  · exact takeLine_length hline
  · rw [absorb_buffer]
    exact takeLine_length hline

theorem nextFrame_length {d d' : SseDecoder} {frame : SseFrame}
    (h : d.nextFrame = (some frame, d')) : d'.buffer.length < d.buffer.length := by
  induction hn : d.buffer.length using Nat.strongRecOn generalizing d with
  | _ n ih =>
    unfold nextFrame at h
    split at h
    · cases h
    next line hline =>
      have hlt := takeLine_length hline
      dsimp only at h
      split at h
      · split at h
        · cases h
          exact hn ▸ hlt
        · exact Nat.lt_trans (ih _ (hn ▸ hlt) h rfl) (hn ▸ hlt)
      · have hbuffer := absorb_buffer { d with buffer := line.2 } (dropReturn line.1)
        have hlt' : ((({ d with buffer := line.2 } : SseDecoder).absorb
            (dropReturn line.1)).buffer).length < n := by
          rw [hbuffer]
          exact hn ▸ hlt
        exact Nat.lt_trans (ih _ hlt' h rfl) hlt'

end SseDecoder

end Oxyn.Llm
