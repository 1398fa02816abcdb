/-
# `Oxyn.Redis.Cuts` — how the bytes arrive

The reader takes its bytes from buffers; how the network cut them should not be seen in what it
answers.
-/
import Oxyn.Redis.Buffers

namespace Oxyn.Resp

open List

theorem flatLine_keeps (ending : Ending) (line : Bytes) (t : Flat) (ht : t.long = true) :
    (flatLine ending line t).2.long = true := by
  unfold flatLine
  split
  · simp [ht]
  · exact ht

/-! ## Three families of cuts -/

def IsMalformed (e : WireError) : Prop := ∃ text, e = .malformed text

/-- No buffer is empty. -/
def Cut (s : List Bytes) : Prop := ∀ b ∈ s, b ≠ []

/-- All of it in one buffer. -/
def Whole (s : List Bytes) : Prop := Cut s ∧ s.length ≤ 1

/-- A buffer for each byte. -/
def Singles (s : List Bytes) : Prop := ∀ b ∈ s, b.length = 1

theorem mem_leave {b : Bytes} {after : Bytes} {rest : List Bytes} (h : b ∈ leave after rest) :
    (b = after ∧ after ≠ []) ∨ b ∈ rest := by
  unfold leave at h
  split at h
  · exact .inr h
  next hne =>
    rcases mem_cons.mp h with rfl | h
    · exact .inl ⟨rfl, fun hnil => hne (List.isEmpty_iff.mpr hnil)⟩
    · exact .inr h

theorem cut_shape : Shape Cut where
  nonempty b rest h := h b mem_cons_self
  drop b rest n h := by
    intro c hc
    rcases mem_leave hc with ⟨rfl, hne⟩ | hc
    · exact hne
    · exact h c (mem_cons_of_mem _ hc)

theorem whole_shape : Shape Whole where
  nonempty b rest h := cut_shape.nonempty b rest h.1
  drop b rest n h := by
    refine ⟨cut_shape.drop b rest n h.1, ?_⟩
    have hrest : rest.length = 0 := by
      have hlen := h.2
      rw [length_cons] at hlen
      omega
    unfold leave
    split
    · omega
    · rw [length_cons]
      omega

theorem singles_shape : Shape Singles where
  nonempty b rest h := by
    intro hnil
    have hlen := h b mem_cons_self
    rw [hnil] at hlen
    cases hlen
  drop b rest n h := by
    intro c hc
    rcases mem_leave hc with ⟨rfl, hne⟩ | hc
    · have hlen := h b mem_cons_self
      have hpos := length_pos_iff.mpr hne
      rw [length_drop] at hpos ⊢
      omega
    · exact h c (mem_cons_of_mem _ hc)

theorem cut_leave (stream : Bytes) : Cut (leave stream []) := by
  intro b hb
  rcases mem_leave hb with ⟨rfl, hne⟩ | hb
  · exact hne
  · exact absurd hb not_mem_nil

theorem cut_singles (stream : Bytes) : Cut (stream.map fun b => [b]) := by
  intro b hb
  obtain ⟨c, -, rfl⟩ := mem_map.mp hb
  exact cons_ne_nil c []

theorem flatten_singles (stream : Bytes) : (stream.map fun b => [b]).flatten = stream := by
  induction stream with
  | nil => rfl
  | cons b rest ih =>
    rw [map_cons, flatten_cons, ih]
    rfl

section

variable (ending : Ending)

theorem cut_mirrors : Mirrors (watch Cut (fun _ => True) IsMalformed (· = true)) (buffers ending)
    (flat ending) := by
  refine mirrors_of_line ending cut_shape ⟨?_, flatLine_keeps ending []⟩
  rintro s ⟨trest, long⟩ ⟨hrest, hshape, -⟩
  simp only at hrest
  subst hrest
  rcases lineFrom_spec ending cut_shape [] s hshape (by decide) long with hsame | hlong
  · exact .inl ⟨hsame.1, fun text h => ⟨(hsame.2 text h).1, (hsame.2 text h).2, trivial⟩,
      fun _ _ => trivial⟩
  · obtain ⟨herr, part, after, hsplit, hexact⟩ := hlong
    refine .inr ⟨⟨_, herr, _, rfl⟩, ?_⟩
    show (flatLine ending [] ⟨s.flatten, long⟩).2.long = true
    unfold flatLine
    simp only [hsplit, hexact, beq_self_eq_true, Bool.or_true]

theorem whole_mirrors :
    Mirrors (watch Whole (fun _ => True) (fun _ => False) (fun _ => False)) (buffers ending)
      (flat ending) := by
  refine mirrors_of_line ending whole_shape ⟨?_, fun _ h => h⟩
  rintro s ⟨trest, long⟩ ⟨hrest, hshape, -⟩
  simp only at hrest
  subst hrest
  rcases lineFrom_spec ending whole_shape [] s hshape (by decide) long with hsame | hlong
  · exact .inl ⟨hsame.1, fun text h => ⟨(hsame.2 text h).1, (hsame.2 text h).2, trivial⟩,
      fun _ _ => trivial⟩
  · obtain ⟨herr, part, after, hsplit, hexact⟩ := hlong
    match s, hshape with
    | [], _ => cases hsplit
    | [b], hshape =>
      rw [flatten_singleton] at hsplit
      have hrun : (buffers ending).line [b] = (finishLine ([] ++ part), leave after []) := by
        show lineFrom ending [] [b] = _
        rw [lineFrom, hsplit]
      have hflat : (flat ending).line ⟨[b].flatten, long⟩ =
          (finishLine ([] ++ part), ⟨after, long || ([] ++ part).length == maxLine + 1⟩) := by
        show flatLine ending [] ⟨[b].flatten, long⟩ = _
        unfold flatLine
        simp only [flatten_singleton, hsplit]
      rw [hrun, hflat]
      refine .inl ⟨rfl, fun _ _ => ⟨?_, leave_of_splitLine whole_shape hsplit hshape, trivial⟩,
        fun _ _ => trivial⟩
      simp
    | _ :: _ :: _, hshape =>
      have hlen := hshape.2
      simp only [length_cons] at hlen
      omega

theorem lineFrom_singles (line : Bytes) (s : List Bytes) (hs : Singles s)
    (hshort : line.length ≤ maxLine) {part after : Bytes}
    (hsplit : splitLine s.flatten = some (part, after))
    (hexact : (line ++ part).length = maxLine + 1) :
    (lineFrom ending line s).1 =
      .error (.malformed "a line longer than the driver accepts") := by
  induction s generalizing line part with
  | nil => cases hsplit
  | cons b rest ih =>
    obtain ⟨c, rfl⟩ := length_eq_one_iff.mp (hs b mem_cons_self)
    rw [flatten_cons] at hsplit
    by_cases hc : c = 10
    · -- the line feed comes behind no more than `MAX_LINE` bytes
      subst hc
      cases hsplit
      rw [append_nil] at hexact
      omega
    · have hnone : splitLine [c] = none := by simp [splitLine, hc]
      rw [splitLine_append_none hnone] at hsplit
      obtain ⟨⟨part', after'⟩, hrest, heq⟩ := Option.map_eq_some_iff.mp hsplit
      cases heq
      rw [lineFrom, hnone]
      simp only
      split
      · rfl
      next hfits =>
        refine ih (line ++ [c]) (singles_shape.rest hs) (by omega) hrest ?_
        rw [append_assoc]
        exact hexact

theorem singles_mirrors : Mirrors (watch Singles (· = false) IsMalformed (· = true))
    (buffers ending) (flat ending) := by
  refine mirrors_of_line ending singles_shape ⟨?_, flatLine_keeps ending []⟩
  rintro s ⟨trest, long⟩ ⟨hrest, hshape, hlong⟩
  simp only at hrest hlong
  subst hrest hlong
  have hspec := lineFrom_spec ending singles_shape [] s hshape (by decide) false
  rcases hsplit : splitLine s.flatten with _ | ⟨part, after⟩
  · rcases hspec with hsame | ⟨-, part, after, hsome, -⟩
    · have hflat : (flatLine ending [] ⟨s.flatten, false⟩).2.long = false := by
        unfold flatLine
        rw [hsplit]
      exact .inl ⟨hsame.1, fun text h => ⟨(hsame.2 text h).1, (hsame.2 text h).2, hflat⟩,
        fun _ _ => hflat⟩
    · rw [hsplit] at hsome
      cases hsome
  · by_cases hexact : ([] ++ part).length = maxLine + 1
    · refine .inr ⟨⟨_, lineFrom_singles ending [] s hshape (by decide) hsplit hexact, _, rfl⟩, ?_⟩
      show (flatLine ending [] ⟨s.flatten, false⟩).2.long = true
      unfold flatLine
      simp only [hsplit, hexact, beq_self_eq_true, Bool.or_true]
    · have hflat : (flatLine ending [] ⟨s.flatten, false⟩).2.long = false := by
        unfold flatLine
        simp only [hsplit, Bool.false_or, beq_eq_false_iff_ne]
        exact hexact
      rcases hspec with hsame | ⟨-, part', after', hsome, hexact'⟩
      · exact .inl ⟨hsame.1, fun text h => ⟨(hsame.2 text h).1, (hsame.2 text h).2, hflat⟩,
          fun _ _ => hflat⟩
      · rw [hsplit] at hsome
        cases hsome
        exact absurd hexact' hexact

end

/-! ## What is seen of an answer -/

/-- What is asked of the reader. -/
inductive Request where
  | value (budget : Nat)
  | head
  | skip (elements : Nat)
  | longLineValue (keep budget : Nat)

inductive Reply (F : Type) where
  | value (value : Value F) (budget : Nat)
  | head (head : Head F)
  | skipped

inductive ErrorKind where
  | truncated | io | malformed
deriving DecidableEq

def WireError.kind : WireError → ErrorKind
  | .truncated => .truncated
  | .io => .io
  | .malformed _ => .malformed

section

variable {F : Type} (floats : Floats F) (cost : Nat)

def Request.run {σ : Type} (src : Source σ) : Request → Scan σ WireError (Reply F)
  | .value budget => do
      let read ← Resp.value floats src cost budget
      pure (.value read.1 read.2)
  | .head => do
      let h ← Resp.head floats src
      pure (.head h)
  | .skip elements => do
      let _ ← Resp.skip floats src elements
      pure .skipped
  | .longLineValue keep budget => do
      let read ← Resp.longLineValue floats src cost keep budget
      pure (.value read.1 read.2)

/-- The answer and what is left of the stream, or the kind of the error. -/
def seen {α : Type} (x : Except WireError α × List Bytes) : Except ErrorKind (α × Bytes) :=
  match x.1 with
  | .ok a => .ok (a, x.2.flatten)
  | .error e => .error e.kind

/-- The same of the stream as a whole. -/
def seenFlat {α : Type} (y : Except WireError α × Flat) : Except ErrorKind (α × Bytes) :=
  match y.1 with
  | .ok a => .ok (a, y.2.rest)
  | .error e => .error e.kind

theorem seen_of_error {α : Type} {x : Except WireError α × List Bytes} {e : WireError}
    (h : x.1 = .error e) : seen x = .error e.kind := by
  unfold seen
  rw [h]

theorem seen_eq {α : Type} {x : Except WireError α × List Bytes}
    {y : Except WireError α × Flat} (h : x.1 = y.1)
    (hrest : ∀ a, x.1 = .ok a → x.2.flatten = y.2.rest) : seen x = seenFlat y := by
  unfold seen seenFlat
  rw [← h]
  cases hx : x.1 with
  | error e => rfl
  | ok a =>
    simp only
    rw [hrest a hx]

variable (ending : Ending)

theorem Mirrors.run {σ τ : Type} {w : Scan.Watch σ τ WireError} {src : Source σ}
    {src' : Source τ} (m : Mirrors w src src') (r : Request) :
    Scan.Shadows w (r.run floats cost src) (r.run floats cost src') := by
  cases r with
  | value budget => exact (m.value cost budget).bind fun _ => .pure _
  | head => exact m.head.bind fun _ => .pure _
  | skip elements => exact (m.skip elements).bind fun _ => .pure _
  | longLineValue keep budget => exact (m.longLineValue cost keep budget).bind fun _ => .pure _

def wholeRun (r : Request) (stream : Bytes) : Except WireError (Reply F) × Flat :=
  r.run floats cost (flat ending) ⟨stream, false⟩

/-- What it answers on a cut of the stream. -/
def cutRun (r : Request) (s : List Bytes) : Except WireError (Reply F) × List Bytes :=
  r.run floats cost (buffers ending) s

theorem cut_seen (r : Request) (s : List Bytes) (hs : Cut s) :
    seen (cutRun floats cost ending r s) = seenFlat (wholeRun floats cost ending r s.flatten) ∨
      (seen (cutRun floats cost ending r s) = .error .malformed ∧
        (wholeRun floats cost ending r s.flatten).2.long = true) := by
  rcases ((cut_mirrors ending).run floats cost r).follows s ⟨s.flatten, false⟩
    ⟨rfl, hs, trivial⟩ with ⟨hsame, hrelated, -⟩ | ⟨⟨e, herr, text, rfl⟩, hnoted⟩
  · exact .inl (seen_eq hsame fun a ha => (hrelated a ha).1)
  · exact .inr ⟨seen_of_error herr, hnoted⟩

theorem whole_seen (r : Request) (stream : Bytes) :
    seen (cutRun floats cost ending r (leave stream [])) =
      seenFlat (wholeRun floats cost ending r stream) := by
  have hwhole : Whole (leave stream []) := by
    refine ⟨cut_leave stream, ?_⟩
    unfold leave
    split
    · exact Nat.zero_le 1
    · exact Nat.le_refl 1
  rcases ((whole_mirrors ending).run floats cost r).follows (leave stream []) ⟨stream, false⟩
    ⟨by simp, hwhole, trivial⟩ with ⟨hsame, hrelated, -⟩ | ⟨-, hnoted⟩
  · exact seen_eq hsame fun a ha => (hrelated a ha).1
  · exact absurd hnoted id

theorem singles_seen (r : Request) (stream : Bytes)
    (hlong : (wholeRun floats cost ending r stream).2.long = true) :
    seen (cutRun floats cost ending r (stream.map fun b => [b])) = .error .malformed := by
  have hsingles : Singles (stream.map fun b => [b]) := by
    intro b hb
    obtain ⟨c, -, rfl⟩ := mem_map.mp hb
    rfl
  rcases ((singles_mirrors ending).run floats cost r).follows _ ⟨stream, false⟩
    ⟨flatten_singles stream, hsingles, rfl⟩ with ⟨-, hrelated, hfailed⟩ | ⟨⟨e, herr, text, rfl⟩, -⟩
  · rcases hx : (r.run floats cost (buffers ending) (stream.map fun b => [b])).1 with e | a
    · exact absurd (hlong.symm.trans (hfailed e hx)) (by decide)
    · exact absurd (hlong.symm.trans (hrelated a hx).2.2) (by decide)
  · exact seen_of_error herr

/-- How the bytes arrive is not seen, exactly when the request reads no line of exactly
`MAX_LINE` bytes, or is refused for what the stream holds. -/
theorem answer_independent_of_cuts (r : Request) (stream : Bytes) :
    (∀ s s', Cut s → Cut s' → s.flatten = stream → s'.flatten = stream →
      seen (cutRun floats cost ending r s) = seen (cutRun floats cost ending r s')) ↔
      ((wholeRun floats cost ending r stream).2.long = true →
        seenFlat (wholeRun floats cost ending r stream) = .error .malformed) := by
  constructor
  · intro hsame hlong
    have hwhole := whole_seen floats cost ending r stream
    have hsingles := singles_seen floats cost ending r stream hlong
    rw [← hwhole, ← hsingles]
    exact hsame _ _ (cut_leave stream) (cut_singles stream) (by simp) (flatten_singles stream)
  · intro hmalformed
    have hall : ∀ s, Cut s → s.flatten = stream → seen (cutRun floats cost ending r s) =
        seenFlat (wholeRun floats cost ending r stream) := by
      intro s hs hflatten
      subst hflatten
      rcases cut_seen floats cost ending r s hs with hseen | ⟨hseen, hlong⟩
      · exact hseen
      · rw [hseen, hmalformed hlong]
    intro s s' hs hs' hflatten hflatten'
    rw [hall s hs hflatten, hall s' hs' hflatten']

end

/-- A line of exactly `MAX_LINE` bytes is accepted in one buffer, and refused with its line feed
in the next. -/
theorem longest_line_cut {F : Type} (floats : Floats F) (cost : Nat) (ending : Ending)
    {text : Bytes} (hsplit : splitLine (43 :: text ++ [13]) = none)
    (hlen : (43 :: text).length = maxLine) :
    seen (cutRun floats cost ending .head [43 :: text ++ [13] ++ [10]]) =
        .ok (.head (.simple text), []) ∧
      seen (cutRun floats cost ending .head [43 :: text ++ [13], [10]]) = .error .malformed := by
  have hlong : (43 :: text ++ [13]).length = maxLine + 1 := by
    rw [length_append, hlen]
    rfl
  constructor
  · have hline : (buffers ending).line [43 :: text ++ [13] ++ [10]] = (.ok (43 :: text), []) := by
      show lineFrom ending [] [43 :: text ++ [13] ++ [10]] = _
      rw [lineFrom, splitLine_append_none hsplit, splitLine, if_pos rfl, Option.map_some,
        append_nil]
      simp only [nil_append]
      rw [finishLine, if_neg (by omega), getLast?_concat, if_pos rfl, dropLast_concat]
      rfl
    have hhead : head floats (buffers ending) [43 :: text ++ [13] ++ [10]] =
        (.ok (.simple text), []) :=
      head_of_line hline (by simp [lineHead, headOf])
    have hrun : cutRun floats cost ending .head [43 :: text ++ [13] ++ [10]] =
        (.ok (.head (.simple text)), []) := by
      show (head floats (buffers ending) >>= _) _ = _
      rw [Scan.bind_ok hhead]
      rfl
    rw [hrun]
    rfl
  · have hline : (buffers ending).line [43 :: text ++ [13], [10]] =
        (.error (.malformed "a line longer than the driver accepts"), [[10]]) := by
      show lineFrom ending [] [43 :: text ++ [13], [10]] = _
      rw [lineFrom, hsplit, nil_append]
      simp only
      rw [if_pos (by omega)]
    have hhead : head floats (buffers ending) [43 :: text ++ [13], [10]] =
        (.error (.malformed "a line longer than the driver accepts"), [[10]]) :=
      head_of_no_line hline
    have hrun : cutRun floats cost ending .head [43 :: text ++ [13], [10]] =
        (.error (.malformed "a line longer than the driver accepts"), [[10]]) := by
      show (head floats (buffers ending) >>= _) _ = _
      rw [Scan.bind_error hhead]
    rw [hrun]
    rfl

theorem splitLine_replicate (n : Nat) {b : UInt8} (hb : b ≠ 10) :
    splitLine (List.replicate n b) = none := by
  induction n with
  | zero => rfl
  | succ n ih => rw [replicate_succ, splitLine, if_neg hb, ih, Option.map_none]

/-- The same stream in two ways: a simple string, and no RESP. -/
theorem longest_line_refused_when_cut :
    ¬ ∀ s s' : List Bytes, Cut s → Cut s' →
      s.flatten = 43 :: List.replicate (maxLine - 1) 97 ++ [13] ++ [10] →
      s'.flatten = 43 :: List.replicate (maxLine - 1) 97 ++ [13] ++ [10] →
      seen (cutRun (F := Unit) ⟨fun _ => none, (), (), ()⟩ 32 .closed .head s) =
        seen (cutRun (F := Unit) ⟨fun _ => none, (), (), ()⟩ 32 .closed .head s') := by
  intro hsame
  have hpos : 0 < maxLine := by decide
  generalize htext : List.replicate (maxLine - 1) (97 : UInt8) = text at hsame
  have hlen : (43 :: text).length = maxLine := by
    rw [← htext, length_cons, length_replicate]
    omega
  have hsplit : splitLine (43 :: text ++ [13]) = none := by
    have hnone := splitLine_replicate (maxLine - 1) (b := 97) (by decide)
    rw [htext] at hnone
    rw [cons_append, splitLine, if_neg (by decide), splitLine_append_none hnone]
    rfl
  have hruns := longest_line_cut (F := Unit) ⟨fun _ => none, (), (), ()⟩ 32 .closed hsplit hlen
  have hone := hsame [43 :: text ++ [13] ++ [10]] [43 :: text ++ [13], [10]]
    (by simp [Cut]) (by simp [Cut]) (by simp) (by simp)
  rw [hruns.1, hruns.2] at hone
  cases hone

end Oxyn.Resp
