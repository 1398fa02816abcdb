/-
# `Oxyn.Llm.Frames` — the frames of a stream, whatever its cuts

What a stream says is read off its lines, all of them at once: the empty ones cut them into
blocks, and a block with a field that counts is a frame (`framesOf`).  The decoder sees chunks.
-/
import Oxyn.Llm.Sse

namespace Oxyn.Llm

open Text List

/-! ## The whole stream -/

/-- The value a line gives to a field; a comment gives none. -/
def fieldOf (name : String) (line : List UInt8) : Option Str :=
  if line.head? = some 58 then none
  else
    let field := splitField (fromUtf8Lossy line)
    if field.1 = name.toList then some field.2 else none

def valuesOf (name : String) (block : List (List UInt8)) : List Str :=
  block.filterMap (fieldOf name)

def frameOf (block : List (List UInt8)) : Option SseFrame :=
  if valuesOf "data" block = [] ∧ valuesOf "event" block = [] then none
  else some ⟨(valuesOf "event" block).getLast?, ['\n'].intercalate (valuesOf "data" block)⟩

/-- The lines of a stream, the last of them over at its close. -/
def linesOf (stream : List UInt8) : List (List UInt8) := (stream.splitOn 10).map dropReturn

def framesIn (lines : List (List UInt8)) : List SseFrame := (lines.splitOn []).filterMap frameOf

def framesOf (stream : List UInt8) : List SseFrame := framesIn (linesOf stream)

/-! ## Chunk by chunk -/

namespace SseDecoder

/-- The frames that are there, `next_frame` asked until it answers none. -/
def drained (d : SseDecoder) : List SseFrame × SseDecoder :=
  match _hframe : d.nextFrame with
  | (none, d') => ([], d')
  | (some frame, d') =>
    let others := drained d'
    (frame :: others.1, others.2)
termination_by d.buffer.length
decreasing_by exact nextFrame_length _hframe

def readChunks (d : SseDecoder) : List (List UInt8) → Option (List SseFrame)
  | [] => some d.finish.drained.1
  | chunk :: rest =>
    if (d.push chunk).2 then
      let read := (d.push chunk).1.drained
      (readChunks read.2 rest).map (read.1 ++ ·)
    else none

end SseDecoder

/-! ## Lines -/

theorem takeLine_eq_some {bytes : List UInt8} {line : List UInt8 × List UInt8}
    (h : takeLine bytes = some line) : bytes = line.1 ++ 10 :: line.2 ∧ 10 ∉ line.1 := by
  induction bytes generalizing line with
  | nil => cases h
  | cons b rest ih =>
    unfold takeLine at h
    split at h
    next hb =>
      cases h
      exact ⟨congrArg (· :: rest) hb, not_mem_nil⟩
    next hb =>
      obtain ⟨inner, hinner, rfl⟩ := Option.map_eq_some_iff.mp h
      obtain ⟨hrest, hnot⟩ := ih hinner
      exact ⟨congrArg (b :: ·) hrest, not_mem_cons_of_ne_of_not_mem (Ne.symm hb) hnot⟩

theorem takeLine_eq_none {bytes : List UInt8} (h : takeLine bytes = none) : 10 ∉ bytes := by
  induction bytes with
  | nil => exact not_mem_nil
  | cons b rest ih =>
    unfold takeLine at h
    split at h
    · cases h
    next hb =>
      exact not_mem_cons_of_ne_of_not_mem (Ne.symm hb) (ih (Option.map_eq_none_iff.mp h))

theorem takeLine_append {line : List UInt8} (h : 10 ∉ line) (rest : List UInt8) :
    takeLine (line ++ 10 :: rest) = some (line, rest) := by
  induction line with
  | nil => rfl
  | cons b line ih =>
    obtain ⟨hb, hline⟩ := not_or.mp (mt mem_cons.mpr h)
    rw [cons_append, takeLine, if_neg (Ne.symm hb), ih hline]
    rfl

theorem linesOf_append {line : List UInt8} (h : 10 ∉ line) (rest : List UInt8) :
    linesOf (line ++ 10 :: rest) = dropReturn line :: linesOf rest := by
  unfold linesOf
  rw [splitOn_append_cons_self_of_not_mem h, map_cons]

theorem linesOf_eq_singleton {line : List UInt8} (h : 10 ∉ line) :
    linesOf line = [dropReturn line] := by
  unfold linesOf
  rw [splitOn_eq_singleton h]
  rfl

theorem framesIn_cut {block : List (List UInt8)} (h : [] ∉ block) (lines : List (List UInt8)) :
    framesIn (block ++ [] :: lines) = (frameOf block).toList ++ framesIn lines := by
  unfold framesIn
  rw [splitOn_append_cons_self_of_not_mem h, filterMap_cons]
  cases frameOf block with
  | none => rfl
  | some frame => rfl

theorem framesIn_block {block : List (List UInt8)} (h : [] ∉ block) :
    framesIn block = (frameOf block).toList := by
  unfold framesIn
  rw [splitOn_eq_singleton h, filterMap_cons]
  cases frameOf block with
  | none => rfl
  | some frame => rfl

/-! ## What a decoder keeps -/

theorem intercalate_concat {sep : Str} {values : List Str} (value : Str) (h : values ≠ []) :
    sep.intercalate (values ++ [value]) = sep.intercalate values ++ sep ++ value := by
  induction values with
  | nil => exact absurd rfl h
  | cons first values ih =>
    cases values with
    | nil => simp
    | cons second values =>
      have hinner := ih (cons_ne_nil second values)
      rw [cons_append, cons_append, intercalate_cons_cons,
        ← cons_append, hinner, intercalate_cons_cons]
      simp only [append_assoc]

theorem valuesOf_concat (name : String) (block : List (List UInt8)) (line : List UInt8) :
    valuesOf name (block ++ [line]) = valuesOf name block ++ (fieldOf name line).toList := by
  unfold valuesOf
  rw [filterMap_append, filterMap_cons]
  cases fieldOf name line with
  | none => rfl
  | some value => rfl

/-- The decoder keeps what is known of a block that is open. -/
structure Gathers (d : SseDecoder) (block : List (List UInt8)) : Prop where
  lines : [] ∉ block
  event : d.event = (valuesOf "event" block).getLast?
  data : d.data = ['\n'].intercalate (valuesOf "data" block)
  hasData : d.hasData = !(valuesOf "data" block).isEmpty

theorem Gathers.withBuffer {d : SseDecoder} {block : List (List UInt8)} (h : Gathers d block)
    (buffer : List UInt8) : Gathers { d with buffer := buffer } block :=
  { h with }

theorem Gathers.frame {d : SseDecoder} {block : List (List UInt8)} (h : Gathers d block) :
    frameOf block = if d.hasData ∨ d.event.isSome then some d.takeFrame.1 else none := by
  have hkeeps : (d.hasData ∨ d.event.isSome) ↔
      ¬(valuesOf "data" block = [] ∧ valuesOf "event" block = []) := by
    rw [h.hasData, h.event]
    cases valuesOf "data" block <;> cases valuesOf "event" block <;> simp
  unfold frameOf SseDecoder.takeFrame
  rw [h.event, h.data]
  split
  next hnone => rw [← h.event, if_neg (fun hsome => hkeeps.mp hsome hnone)]
  next hsome => rw [← h.event, if_pos (hkeeps.mpr hsome)]

theorem Gathers.taken (d : SseDecoder) : Gathers d.takeFrame.2 [] :=
  ⟨not_mem_nil, rfl, rfl, rfl⟩

theorem Gathers.dropped {d : SseDecoder} {block : List (List UInt8)} (h : Gathers d block)
    (hnone : ¬(d.hasData ∨ d.event.isSome)) : Gathers d [] := by
  obtain ⟨hdata, hevent⟩ := not_or.mp hnone
  have hempty : valuesOf "data" block = [] := by
    have hkept := h.hasData
    rw [Bool.eq_false_iff.mpr hdata] at hkept
    simpa using hkept.symm
  refine ⟨not_mem_nil, ?_, ?_, ?_⟩
  · exact Option.not_isSome_iff_eq_none.mp hevent
  · rw [h.data, hempty]
    rfl
  · rw [h.hasData, hempty]
    rfl

theorem Gathers.absorb {d : SseDecoder} {block : List (List UInt8)} (h : Gathers d block)
    {line : List UInt8} (hline : line ≠ []) : Gathers (d.absorb line) (block ++ [line]) := by
  have hlines : [] ∉ block ++ [line] := by
    rw [mem_append, mem_singleton]
    rintro (hmem | rfl)
    · exact h.lines hmem
    · exact hline rfl
  -- a line gives a value to at most one of the two fields
  have hnames : "data".toList ≠ "event".toList := by decide
  have hevents := valuesOf_concat "event" block line
  have hdatas := valuesOf_concat "data" block line
  unfold fieldOf at hevents hdatas
  unfold SseDecoder.absorb
  split
  next hcomment =>
    rw [if_pos hcomment] at hevents hdatas
    rw [Option.toList_none, append_nil] at hevents hdatas
    exact ⟨hlines, hevents ▸ h.event, hdatas ▸ h.data, hdatas ▸ h.hasData⟩
  next hcomment =>
    rw [if_neg hcomment] at hevents hdatas
    dsimp only at hevents hdatas ⊢
    split
    next hname =>
      rw [if_neg (hname ▸ hnames), Option.toList_none, append_nil] at hevents
      rw [if_pos hname, Option.toList_some] at hdatas
      refine ⟨hlines, hevents ▸ h.event, ?_, ?_⟩
      · rw [hdatas, h.hasData, h.data]
        cases hvalues : valuesOf "data" block with
        | nil => simp
        | cons first values =>
          rw [intercalate_concat _ (cons_ne_nil first values)]
          simp
      · rw [hdatas]
        simp
    next hdata =>
      rw [if_neg hdata, Option.toList_none, append_nil] at hdatas
      split
      next hname =>
        rw [if_pos hname, Option.toList_some] at hevents
        refine ⟨hlines, ?_, hdatas ▸ h.data, hdatas ▸ h.hasData⟩
        rw [hevents, getLast?_concat]
      next hevent =>
        rw [if_neg hevent, Option.toList_none, append_nil] at hevents
        exact ⟨hlines, hevents ▸ h.event, hdatas ▸ h.data, hdatas ▸ h.hasData⟩

/-! ## What a decoder reads -/

namespace SseDecoder

theorem nextFrame_eq (d : SseDecoder) :
    d.nextFrame =
      match takeLine d.buffer with
      | none => (none, d)
      | some line =>
        let rest := { d with buffer := line.2 }
        if dropReturn line.1 = [] then
          if rest.hasData ∨ rest.event.isSome then (some rest.takeFrame.1, rest.takeFrame.2)
          else nextFrame rest
        else nextFrame (rest.absorb (dropReturn line.1)) := by
  rw [nextFrame]
  split
  next hline => rw [hline]
  next line hline => rw [hline]

theorem drained_eq (d : SseDecoder) :
    d.drained =
      match d.nextFrame with
      | (none, d') => ([], d')
      | (some frame, d') => (frame :: d'.drained.1, d'.drained.2) := by
  rw [drained]
  split
  next d' hframe => rw [hframe]
  next frame d' hframe => rw [hframe]

theorem drained_congr {d d' : SseDecoder} (h : d.nextFrame = d'.nextFrame) :
    d.drained = d'.drained := by
  rw [drained_eq, h, ← drained_eq]

theorem drained_of_none {d : SseDecoder} (h : takeLine d.buffer = none) : d.drained = ([], d) := by
  rw [drained_eq, nextFrame_eq, h]

variable {d : SseDecoder} {block : List (List UInt8)} {line rest : List UInt8}

theorem drained_of_empty (h : Gathers d block) (hline : takeLine d.buffer = some (line, rest))
    (hempty : dropReturn line = []) :
    ∃ d', d'.buffer = rest ∧ Gathers d' [] ∧
      d.drained = ((frameOf block).toList ++ d'.drained.1, d'.drained.2) := by
  have hrest := h.withBuffer rest
  have hnext := nextFrame_eq d
  rw [hline] at hnext
  dsimp only at hnext
  rw [if_pos hempty] at hnext
  rw [hrest.frame]
  split
  next hkeeps =>
    rw [if_pos hkeeps] at hnext
    refine ⟨_, rfl, Gathers.taken { d with buffer := rest }, ?_⟩
    rw [drained_eq, hnext]
    rfl
  next hnone =>
    rw [if_neg hnone] at hnext
    exact ⟨{ d with buffer := rest }, rfl, hrest.dropped hnone, drained_congr hnext⟩

theorem drained_of_field (h : Gathers d block) (hline : takeLine d.buffer = some (line, rest))
    (hfield : dropReturn line ≠ []) :
    ∃ d', d'.buffer = rest ∧ Gathers d' (block ++ [dropReturn line]) ∧ d.drained = d'.drained := by
  have hnext := nextFrame_eq d
  rw [hline] at hnext
  dsimp only at hnext
  rw [if_neg hfield] at hnext
  exact ⟨_, absorb_buffer _ _, (h.withBuffer rest).absorb hfield, drained_congr hnext⟩

/-- What is drained and what is kept account for the whole stream, whatever comes later. -/
theorem drained_accounts (h : Gathers d block) :
    ∃ block', Gathers d.drained.2 block' ∧ 10 ∉ d.drained.2.buffer ∧
      ∀ later, framesIn (block ++ linesOf (d.buffer ++ later)) =
        d.drained.1 ++ framesIn (block' ++ linesOf (d.drained.2.buffer ++ later)) := by
  induction hn : d.buffer.length using Nat.strongRecOn generalizing d block with
  | _ n ih =>
    cases hline : takeLine d.buffer with
    | none =>
      rw [drained_of_none hline]
      exact ⟨block, h, takeLine_eq_none hline, fun later => rfl⟩
    | some cut =>
      obtain ⟨line, rest⟩ := cut
      obtain ⟨hbuffer, hnot⟩ := takeLine_eq_some hline
      have hlt : rest.length < n := hn ▸ takeLine_length hline
      have hlines : ∀ later, linesOf (d.buffer ++ later) =
          dropReturn line :: linesOf (rest ++ later) := by
        intro later
        rw [hbuffer, append_assoc, cons_append]
        exact linesOf_append hnot (rest ++ later)
      by_cases hempty : dropReturn line = []
      · obtain ⟨d', rfl, hd', hdrained⟩ := drained_of_empty h hline hempty
        obtain ⟨block', hkept, hopen, hframes⟩ := ih _ hlt hd' rfl
        rw [hdrained]
        refine ⟨block', hkept, hopen, fun later => ?_⟩
        rw [hlines, hempty, framesIn_cut h.lines, append_assoc, ← hframes]
        rfl
      · obtain ⟨d', rfl, hd', hdrained⟩ := drained_of_field h hline hempty
        obtain ⟨block', hkept, hopen, hframes⟩ := ih _ hlt hd' rfl
        rw [hdrained]
        refine ⟨block', hkept, hopen, fun later => ?_⟩
        rw [hlines, ← hframes, append_assoc]
        rfl

theorem drained_of_feed (h : Gathers d block) (hbuffer : d.buffer = [10]) :
    d.drained.1 = (frameOf block).toList := by
  have hline : takeLine d.buffer = some ([], []) := by rw [hbuffer]; rfl
  obtain ⟨d', hempty, -, hdrained⟩ := drained_of_empty h hline rfl
  have hnone : takeLine d'.buffer = none := by rw [hempty]; rfl
  rw [hdrained, drained_of_none hnone, append_nil]

theorem drained_finish (h : Gathers d block) (hopen : 10 ∉ d.buffer) :
    d.finish.drained.1 = framesIn (block ++ linesOf d.buffer) := by
  have hline : takeLine d.finish.buffer = some (d.buffer, [10]) := takeLine_append hopen [10]
  have hfinish : Gathers d.finish block := h.withBuffer _
  rw [linesOf_eq_singleton hopen]
  by_cases hempty : dropReturn d.buffer = []
  · obtain ⟨d', hbuffer, hd', hdrained⟩ := drained_of_empty hfinish hline hempty
    rw [hdrained, hempty, framesIn_cut h.lines, drained_of_feed hd' hbuffer]
    rfl
  · obtain ⟨d', hbuffer, hd', hdrained⟩ := drained_of_field hfinish hline hempty
    rw [hdrained, drained_of_feed hd' hbuffer, framesIn_block hd'.lines]

theorem readChunks_eq_some (h : Gathers d block) (hopen : 10 ∉ d.buffer)
    {chunks : List (List UInt8)} {frames : List SseFrame} (hread : d.readChunks chunks = some frames) :
    frames = framesIn (block ++ linesOf (d.buffer ++ chunks.flatten)) := by
  induction chunks generalizing d block frames with
  | nil =>
    cases hread
    rw [flatten_nil, append_nil]
    exact drained_finish h hopen
  | cons chunk chunks ih =>
    unfold readChunks at hread
    split at hread
    next =>
      obtain ⟨later, hlater, rfl⟩ := Option.map_eq_some_iff.mp hread
      have hpushed : Gathers (d.push chunk).1 block := h.withBuffer _
      obtain ⟨block', hkept, hopen', hframes⟩ := drained_accounts hpushed
      rw [ih hkept hopen' hlater, ← hframes, flatten_cons, ← append_assoc]
      rfl
    next => cases hread

theorem gathers_withLimit (limit : Nat) : Gathers (withLimit limit) [] :=
  ⟨not_mem_nil, rfl, rfl, rfl⟩

end SseDecoder

/-- However a stream is cut into chunks of which no push overflows, its frames are those of the
whole stream read line by line. -/
theorem frames_whatever_the_cuts (limit limit' : Nat) (stream : List UInt8)
    (chunks chunks' : List (List UInt8)) (hcut : chunks.flatten = stream)
    (hcut' : chunks'.flatten = stream) {frames frames' : List SseFrame}
    (hread : (SseDecoder.withLimit limit).readChunks chunks = some frames)
    (hread' : (SseDecoder.withLimit limit').readChunks chunks' = some frames') :
    frames = frames' ∧ frames = framesOf stream := by
  have hframes : frames = framesOf stream := by
    rw [← hcut]
    exact SseDecoder.readChunks_eq_some (SseDecoder.gathers_withLimit limit) not_mem_nil hread
  have hframes' : frames' = framesOf stream := by
    rw [← hcut']
    exact SseDecoder.readChunks_eq_some (SseDecoder.gathers_withLimit limit') not_mem_nil
      hread'
  exact ⟨hframes.trans hframes'.symm, hframes⟩

/-- `data: caf` and the first byte of an `é`. -/
def cutCharacter : List UInt8 := [100, 97, 116, 97, 58, 32, 99, 97, 102, 0xc3]

/-- The second byte of the `é`, and the end of the frame. -/
def cutRest : List UInt8 := [0xa9, 10, 10]

theorem cut_character_is_read :
    (SseDecoder.withLimit 64).readChunks [cutCharacter, cutRest] =
      some [⟨none, "café".toList⟩] := by
  have hfirst : ((SseDecoder.withLimit 64).push cutCharacter).1.drained =
      ([], ((SseDecoder.withLimit 64).push cutCharacter).1) :=
    SseDecoder.drained_of_none (by decide)
  obtain ⟨frames, hread⟩ : ∃ frames,
      (SseDecoder.withLimit 64).readChunks [cutCharacter, cutRest] = some frames := by
    unfold SseDecoder.readChunks
    rw [if_pos (by decide), hfirst]
    unfold SseDecoder.readChunks
    dsimp only
    rw [if_pos (by decide)]
    exact ⟨_, rfl⟩
  obtain ⟨whole, hwhole⟩ : ∃ frames,
      (SseDecoder.withLimit 64).readChunks [cutCharacter ++ cutRest] = some frames := by
    unfold SseDecoder.readChunks
    rw [if_pos (by decide)]
    exact ⟨_, rfl⟩
  obtain ⟨-, hframes⟩ := frames_whatever_the_cuts 64 64 (cutCharacter ++ cutRest)
    [cutCharacter, cutRest] [cutCharacter ++ cutRest] (by decide) (by decide) hread hwhole
  rw [hread, hframes]
  decide

end Oxyn.Llm
