/-
# `Oxyn.Lib.Delimited` — records of delimited fields

The reader of RFC 4180, for any separator: records are separated by line feeds, fields by the
separator, and a field that starts with a quote goes on to the quote that is not doubled.
-/
import Oxyn.Lib.Text

namespace Oxyn.Delimited

open Text List

/-- Where the reader stands in a field. -/
inductive Mode where
  | start | plain | quoted | closing
deriving DecidableEq, Repr

structure Reading where
  records : List (List Str)
  fields : List Str
  field : Str
  mode : Mode
deriving DecidableEq, Repr

namespace Reading

def new : Reading := ⟨[], [], [], .start⟩

def endField (r : Reading) : Reading := ⟨r.records, r.fields ++ [r.field], [], .start⟩

def endRecord (r : Reading) : Reading := ⟨r.records ++ [r.fields ++ [r.field]], [], [], .start⟩

def push (r : Reading) (c : Char) (mode : Mode) : Reading :=
  ⟨r.records, r.fields, r.field ++ [c], mode⟩

def outside (separator : Char) (r : Reading) (c : Char) : Option Reading :=
  if c = separator then some r.endField
  else if c = '\n' then some r.endRecord
  else if c = '"' then
    match r.mode with
    | .start => some { r with mode := .quoted }
    -- a doubled quote
    | .closing => some (r.push c .quoted)
    | _ => none
  else if c = '\r' ∨ r.mode = .closing then none
  else some (r.push c .plain)

def step (separator : Char) (r : Reading) (c : Char) : Option Reading :=
  if r.mode = .quoted then
    if c = '"' then some { r with mode := .closing } else some (r.push c .quoted)
  else r.outside separator c

end Reading

open Reading

def read (separator : Char) (text : Str) : Option (List (List Str)) :=
  (text.foldlM (step separator) .new).bind fun r =>
    if r.mode = .quoted then none else some r.endRecord.records

/-! ## Fields -/

/-- Does a character keep a field from being written as it is? -/
def Marks (separator c : Char) : Prop := c = separator ∨ c = '"' ∨ c = '\n' ∨ c = '\r'

/-- A text is written as it is, if nothing in it is a mark, or else in quotes, its quotes
doubled. -/
inductive Writes (separator : Char) (text : Str) : Str → Prop where
  | plain (h : ∀ c ∈ text, ¬ Marks separator c) : Writes separator text text
  | quoted : Writes separator text
      ('"' :: (text.flatMap fun c => if c = '"' then ['"', c] else [c]) ++ ['"'])

variable {separator : Char}

structure Passed (before : Reading) (text : Str) (after : Reading) : Prop where
  records : after.records = before.records
  fields : after.fields = before.fields
  field : after.field = text
  mode : after.mode ≠ .quoted

variable {text : Str}

theorem foldlM_plain (h : ∀ c ∈ text, ¬ Marks separator c) (r : Reading)
    (hmode : r.mode = .start ∨ r.mode = .plain) :
    ∃ after, text.foldlM (step separator) r = some after ∧ Passed r (r.field ++ text) after := by
  induction text generalizing r with
  | nil =>
    refine ⟨r, rfl, rfl, rfl, (append_nil _).symm, ?_⟩
    cases hmode with
    | inl h | inr h => rw [h]; nofun
  | cons c text ih =>
    have hc := h c mem_cons_self
    unfold Marks at hc
    have hquoted : r.mode ≠ .quoted := by
      rcases hmode with h | h <;> rw [h] <;> nofun
    have hclosing : r.mode ≠ .closing := by
      rcases hmode with h | h <;> rw [h] <;> nofun
    have hstep : step separator r c = some (r.push c .plain) := by
      simp only [not_or] at hc
      simp only [step, outside, hquoted, hclosing, hc, or_self, ↓reduceIte]
    obtain ⟨after, hrun, hpassed⟩ :=
      ih (fun d hd => h d (mem_cons_of_mem _ hd)) (r.push c .plain) (Or.inr rfl)
    refine ⟨after, ?_, hpassed.records, hpassed.fields, ?_, hpassed.mode⟩
    · rw [foldlM_cons, hstep]
      exact hrun
    · rw [hpassed.field]
      exact append_cons _ c text |>.symm

theorem foldlM_doubled (hseparator : separator ≠ '"') (text rest : Str) (r : Reading)
    (hmode : r.mode = .quoted) :
    ((text.flatMap fun c => if c = '"' then ['"', c] else [c]) ++ rest).foldlM (step separator) r =
      rest.foldlM (step separator) ⟨r.records, r.fields, r.field ++ text, .quoted⟩ := by
  induction text generalizing r with
  | nil =>
    rw [append_nil, ← hmode]
    rfl
  | cons c text ih =>
    rw [flatMap_cons, append_assoc]
    have hpush : step separator r c = some (r.push c .quoted) ∨ c = '"' := by
      by_cases hc : c = '"'
      · exact Or.inr hc
      · exact Or.inl (by simp only [step, hmode, hc, ↓reduceIte])
    have hgoes : ∀ tail : Str,
        ((if c = '"' then ['"', c] else [c]) ++ tail).foldlM (step separator) r =
          tail.foldlM (step separator) (r.push c .quoted) := by
      intro tail
      by_cases hc : c = '"'
      · subst hc
        have hopen : step separator r '"' = some { r with mode := .closing } := by
          simp only [step, hmode, ↓reduceIte]
        have hagain : step separator { r with mode := .closing } '"' =
            some (r.push '"' .quoted) := by
          simp only [step, outside, hseparator.symm, reduceCtorEq, Char.reduceEq, ↓reduceIte]
          rfl
        simp only [↓reduceIte, cons_append, nil_append, foldlM_cons, hopen,
          hagain, Option.bind_eq_bind, Option.bind_some]
      · simp only [hc, ↓reduceIte, cons_append, nil_append, foldlM_cons,
          hpush.resolve_right hc, Option.bind_eq_bind, Option.bind_some]
    rw [hgoes, ih (r.push c .quoted) rfl]
    simp only [push, append_assoc, cons_append, nil_append]

theorem Writes.passed {text printed : Str} (h : Writes separator text printed)
    (hseparator : separator ≠ '"') (r : Reading) (hfield : r.field = []) (hmode : r.mode = .start) :
    ∃ after, printed.foldlM (step separator) r = some after ∧ Passed r text after := by
  cases h with
  | plain h =>
    obtain ⟨after, hrun, hpassed⟩ := foldlM_plain h r (Or.inl hmode)
    rw [hfield] at hpassed
    exact ⟨after, hrun, hpassed⟩
  | quoted =>
    have hopen : step separator r '"' = some { r with mode := .quoted } := by
      simp only [step, outside, hmode, hseparator.symm, reduceCtorEq, Char.reduceEq, ↓reduceIte]
    refine ⟨⟨r.records, r.fields, text, .closing⟩, ?_, rfl, rfl, rfl, nofun⟩
    rw [cons_append, foldlM_cons, hopen, Option.bind_eq_bind, Option.bind_some,
      foldlM_doubled hseparator _ _ _ rfl, hfield]
    rfl

theorem Passed.endField {before after : Reading} (h : Passed before text after) :
    step separator after separator =
      some ⟨before.records, before.fields ++ [text], [], .start⟩ := by
  simp only [step, outside, h.mode, ↓reduceIte, Reading.endField, h.records, h.fields, h.field]

theorem Passed.endRecord {before after : Reading} (h : Passed before text after)
    (hseparator : separator ≠ '\n') :
    step separator after '\n' =
      some ⟨before.records ++ [before.fields ++ [text]], [], [], .start⟩ := by
  simp only [step, outside, h.mode, hseparator.symm, ↓reduceIte, Reading.endRecord, h.records,
    h.fields, h.field]

/-! ## Records -/

def WritesRecord (separator : Char) (texts : List Str) (printed : Str) : Prop :=
  texts ≠ [] ∧ ∃ fields, List.Forall₂ (Writes separator) texts fields ∧
    printed = [separator].intercalate fields

theorem foldlM_fields (hquote : separator ≠ '"') {texts fields : List Str}
    (hwrites : List.Forall₂ (Writes separator) texts fields) (htexts : texts ≠ []) (r : Reading)
    (hfield : r.field = []) (hmode : r.mode = .start) :
    ∃ before text after, ([separator].intercalate fields).foldlM (step separator) r = some after ∧
      Passed before text after ∧ before.records = r.records ∧
      before.fields ++ [text] = r.fields ++ texts := by
  induction hwrites generalizing r with
  | nil => exact absurd rfl htexts
  | @cons text field texts fields hfirst hrest ih =>
    obtain ⟨after, hrun, hpassed⟩ := hfirst.passed hquote r hfield hmode
    cases hrest with
    | nil =>
      rw [intercalate_singleton]
      exact ⟨r, text, after, hrun, hpassed, rfl, rfl⟩
    | @cons next fieldNext texts fields hnext hrest =>
      obtain ⟨before, last, final, hrest, hlast, hrecords, hfields⟩ :=
        ih (cons_ne_nil _ _) ⟨r.records, r.fields ++ [text], [], .start⟩ rfl rfl
      refine ⟨before, last, final, ?_, hlast, hrecords, ?_⟩
      · rw [intercalate_cons_cons, append_assoc, foldlM_append, hrun]
        simp only [Option.bind_eq_bind, Option.bind_some, cons_append, nil_append,
          foldlM_cons, hpassed.endField]
        exact hrest
      · rw [hfields, append_assoc]
        rfl

theorem foldlM_records (hquote : separator ≠ '"') (hline : separator ≠ '\n')
    {records : List (List Str)} {lines : List Str}
    (hwrites : List.Forall₂ (WritesRecord separator) records lines) (hrecords : records ≠ [])
    (done : List (List Str)) :
    ∃ after, (['\n'].intercalate lines).foldlM (step separator) ⟨done, [], [], .start⟩ =
        some after ∧ after.mode ≠ .quoted ∧ after.endRecord.records = done ++ records := by
  induction hwrites generalizing done with
  | nil => exact absurd rfl hrecords
  | @cons texts line records lines hfirst hrest ih =>
    obtain ⟨htexts, fields, hfields, rfl⟩ := hfirst
    obtain ⟨before, text, after, hrun, hpassed, hdone, hwhole⟩ :=
      foldlM_fields hquote hfields htexts ⟨done, [], [], .start⟩ rfl rfl
    simp only [nil_append] at hwhole
    cases hrest with
    | nil =>
      refine ⟨after, ?_, hpassed.mode, ?_⟩
      · rw [intercalate_singleton, hrun]
      · rw [Reading.endRecord, hpassed.records, hpassed.fields, hpassed.field, hwhole, hdone]
    | cons hnext hrest =>
      obtain ⟨final, hfinal, hmode, hall⟩ := ih (cons_ne_nil _ _) (done ++ [texts])
      refine ⟨final, ?_, hmode, ?_⟩
      · rw [intercalate_cons_cons, append_assoc, foldlM_append, hrun]
        simp only [Option.bind_eq_bind, Option.bind_some, cons_append, nil_append,
          foldlM_cons, hpassed.endRecord hline, hdone, hwhole]
        exact hfinal
      · rw [hall, append_assoc]
        rfl

theorem read_intercalate (hquote : separator ≠ '"') (hline : separator ≠ '\n')
    {records : List (List Str)} {lines : List Str}
    (hwrites : List.Forall₂ (WritesRecord separator) records lines) (hrecords : records ≠ []) :
    read separator (['\n'].intercalate lines) = some records := by
  obtain ⟨after, hrun, hmode, hall⟩ := foldlM_records hquote hline hwrites hrecords []
  rw [read, Reading.new, hrun, Option.bind_some, if_neg hmode, hall, nil_append]

example : read ',' "a,\"b\"\"c\"\n,".toList = some [["a".toList, "b\"c".toList], [[], []]] := by
  decide

end Oxyn.Delimited
