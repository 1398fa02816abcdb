/-
# `Oxyn.Desktop.Confirm` — the native confirmation of an external agent

The dialog that asks to declare a program shows its label and its declaration as one shell line:
the environment as assignments, then the command and its arguments, each text made visible and
quoted.
-/
import Oxyn.Lib.Decimal
import Oxyn.Lib.Fallible
import Oxyn.Lib.Text

namespace Oxyn.Desktop.Confirm

open Text
open Fallible (bind_eq_ok refuse)
open List (all_append append_assoc cons cons_append map_append map_congr_left map_cons map_map
  mem_append mem_cons_of_mem mem_cons_self mem_map singleton_append)

/-! ## Declarations -/

structure ExternalAgentConfig where
  label : Str
  command : Str
  args : List Str
  env : List (Str × Str)
deriving DecidableEq, Repr

/-- `char::is_control`. -/
def isControl (c : Char) : Bool := c.toNat < 0x20 || (0x7f ≤ c.toNat && c.toNat < 0xa0)

/-- Format characters that draw nothing, or reorder what follows. -/
def invisibleRanges : List (Nat × Nat) :=
  [(0xAD, 0xAD), (0x34F, 0x34F), (0x600, 0x605), (0x61C, 0x61C), (0x6DD, 0x6DD), (0x70F, 0x70F),
    (0x890, 0x891), (0x8E2, 0x8E2), (0x115F, 0x1160), (0x17B4, 0x17B5), (0x180B, 0x180F),
    (0x200B, 0x200F), (0x2028, 0x202E), (0x2060, 0x206F), (0x3164, 0x3164), (0xFE00, 0xFE0F),
    (0xFEFF, 0xFEFF), (0xFFA0, 0xFFA0), (0xFFF9, 0xFFFB), (0x110BD, 0x110BD), (0x110CD, 0x110CD),
    (0x13430, 0x1343F), (0x1BCA0, 0x1BCA3), (0x1D173, 0x1D17A), (0xE0000, 0xE0FFF)]

def isInvisible (c : Char) : Bool :=
  invisibleRanges.any fun (first, last) => first ≤ c.toNat && c.toNat ≤ last

/-- A character that a declaration may not hold: the ranges are those of the dialog. -/
def obscuresAgentDeclaration (c : Char) : Bool := isControl c || isInvisible c

def maxProviderLabelBytes : Nat := 128

def maxAgentCommandBytes : Nat := 4096

def maxAgentArgumentBytes : Nat := 4096

def maxAgentArgs : Nat := 32

def maxAgentEnv : Nat := 32

def maxAgentEnvValueBytes : Nat := 4096

/-- What is checked before a declaration is shown or saved. -/
def ExternalAgentConfig.validate (agent : ExternalAgentConfig) : Except String Unit := do
  refuse (trim agent.label = [] || maxProviderLabelBytes < size agent.label)
    "agent label must be nonempty and fit 128 UTF-8 bytes"
  refuse (agent.label.any obscuresAgentDeclaration)
    "agent label must not contain control or invisible characters"
  refuse (trim agent.command = []) "agent command must be nonempty"
  refuse (maxAgentCommandBytes < size agent.command ||
      agent.args.any fun arg => maxAgentArgumentBytes < size arg)
    "agent command and each argument must fit 4096 UTF-8 bytes"
  refuse (agent.command.any obscuresAgentDeclaration ||
      agent.args.any fun arg => arg.any obscuresAgentDeclaration)
    "agent command and arguments must not contain control or invisible characters"
  refuse (maxAgentArgs < agent.args.length) "agent has too many arguments"
  refuse (maxAgentEnv < agent.env.length) "agent has too many environment variables"
  refuse
    (agent.env.any fun (name, _) =>
      trim name = [] || name.contains '=' || name.any obscuresAgentDeclaration)
    ("agent environment variable names must be nonempty and free of '=' and control or " ++
      "invisible characters")
  refuse (agent.env.any fun (_, value) => maxAgentEnvValueBytes < size value)
    "agent environment variable value is too long"
  refuse (agent.env.any fun (_, value) => value.any obscuresAgentDeclaration)
    "agent environment variable values must not contain control or invisible characters"

/-! ## The dialog -/

/-- `{:04X}`. -/
def hexUpper (n : Nat) : Str :=
  List.replicate (4 - (Nat.toDigits 16 n).length) '0' ++ (Nat.toDigits 16 n).map Char.toUpper

def visibleChar (c : Char) : Str :=
  if c = '\n' then ['↵']
  else if c = '\t' then ['⇥']
  else if isControl c || isInvisible c then "\\u\x7b".toList ++ hexUpper c.toNat ++ "\x7d".toList
  else [c]

/-- Control characters and invisible or direction-changing marks, written out. -/
def visible (text : Str) : Str := text.flatMap visibleChar

/-- Does a shell read this character as it is, outside quotes? -/
def isPlainChar (c : Char) : Bool := c.isAlphanum || "@%+=:,./-_".toList.contains c

/-- Does a word need no quotes? -/
def isPlain (word : Str) : Bool := word ≠ [] && word.all isPlainChar

/-- A quote ends the quoted text, stands escaped, and the quoted text goes on. -/
def quoted (word : Str) : Str := word.flatMap fun c => if c = '\'' then "'\\''".toList else [c]

/-- A word as a POSIX shell reads it back unchanged. -/
def shellQuote (word : Str) : Str :=
  if isPlain word then word else '\'' :: quoted word ++ ['\'']

def commandLine (agent : ExternalAgentConfig) : Str :=
  let env := agent.env.map fun (name, value) =>
    shellQuote (visible name) ++ '=' :: shellQuote (visible value)
  let words := (agent.command :: agent.args).map fun word => shellQuote (visible word)
  [' '].intercalate (env ++ words)

inductive Severity where
  | warning | danger
deriving DecidableEq, Repr

structure Confirmation where
  title : Str
  body : Str
  confirm : Str
  severity : Severity
deriving DecidableEq, Repr

def declarationMaxBytes : Nat := 4096

/-- What stands between the label and the line. -/
def question : Str :=
  "” will run this program on your machine each time you ask it a question:".toList

/-- What stands under the line. -/
def assurance : Str :=
  ("Oxyn cannot see where it sends your prompts, so it never serves a local-only " ++
    "connection.").toList

/-- What the dialog says. -/
def body (agent : ExternalAgentConfig) : Str :=
  '“' :: visible agent.label ++ question ++ "\n\n".toList ++ commandLine agent ++
    "\n\n".toList ++ assurance

def externalAgent (agent : ExternalAgentConfig) (replacing : Bool) : Option Confirmation :=
  let texts := agent.label :: agent.command :: agent.args ++
    agent.env.flatMap fun (name, value) => [name, value]
  if texts.any fun text => declarationMaxBytes < size text then none
  else if declarationMaxBytes < size (body agent) then none
  else
    some {
      title := if replacing then "Replace this external agent?".toList
        else "Declare an external agent?".toList
      body := body agent
      confirm := if replacing then "Replace agent".toList else "Declare agent".toList
      severity := .warning }

/-! ## Quoting -/

/-- What follows a word on the line: nothing, or a blank. -/
def Ends (s : Str) : Prop := ∀ c ∈ s.head?, c = ' '

variable {s t r r' : Str}

theorem quoted_append_inj (hr : r.head? ≠ some '\\') (hr' : r'.head? ≠ some '\\')
    (h : quoted s ++ '\'' :: r = quoted t ++ '\'' :: r') : s = t ∧ r = r' := by
  have hcons : ∀ (c : Char) (s : Str),
      quoted (c :: s) = (if c = '\'' then "'\\''".toList else [c]) ++ quoted s :=
    fun _ _ => List.flatMap_cons
  have hquote : ∀ {s r r' : Str}, r.head? ≠ some '\\' →
      quoted ('\'' :: s) ++ '\'' :: r' ≠ '\'' :: r := by
    rintro s r r' hr h
    rw [hcons, if_pos rfl] at h
    exact hr (by rw [← (cons.inj h).2]; rfl)
  induction s generalizing t with
  | nil =>
    cases t with
    | nil => exact ⟨rfl, (cons.inj h).2⟩
    | cons d t =>
      by_cases hd : d = '\''
      · subst hd
        exact absurd h.symm (hquote hr)
      · rw [hcons, if_neg hd] at h
        exact absurd (cons.inj h).1.symm hd
  | cons c s ih =>
    by_cases hc : c = '\''
    · subst hc
      cases t with
      | nil => exact absurd h (hquote hr')
      | cons d t =>
        by_cases hd : d = '\''
        · subst hd
          rw [hcons, hcons, append_assoc, append_assoc] at h
          obtain ⟨rfl, hrest⟩ := ih (List.append_cancel_left h)
          exact ⟨rfl, hrest⟩
        · rw [hcons, hcons, if_pos rfl, if_neg hd] at h
          exact absurd (cons.inj h).1.symm hd
    · cases t with
      | nil =>
        rw [hcons, if_neg hc] at h
        exact absurd (cons.inj h).1 hc
      | cons d t =>
        by_cases hd : d = '\''
        · subst hd
          rw [hcons, hcons, if_neg hc, if_pos rfl] at h
          exact absurd (cons.inj h).1 hc
        · rw [hcons, hcons, if_neg hc, if_neg hd] at h
          obtain ⟨hcd, htail⟩ := cons.inj h
          obtain ⟨rfl, hrest⟩ := ih htail
          exact ⟨congrArg (· :: s) hcd, hrest⟩

theorem not_plain_quote : isPlainChar '\'' = false := by decide

theorem not_plain_blank : isPlainChar ' ' = false := by decide

theorem plain_append_inj (hs : s.all isPlainChar = true)
    (ht : t.all isPlainChar = true) (hr : ∀ c ∈ r.head?, isPlainChar c = false)
    (hr' : ∀ c ∈ r'.head?, isPlainChar c = false) (h : s ++ r = t ++ r') : s = t ∧ r = r' := by
  have hrun : ∀ {s r : Str}, s.all isPlainChar = true → (∀ c ∈ r.head?, isPlainChar c = false) →
      (s ++ r).takeWhile isPlainChar = s := by
    intro s r hs hr
    rw [List.takeWhile_append_of_pos (List.all_eq_true.mp hs)]
    cases r with
    | nil => exact List.append_nil s
    | cons c r =>
      rw [List.takeWhile_cons_of_neg (by rw [hr c rfl]; exact Bool.false_ne_true),
        List.append_nil]
  have hst : s = t := by rw [← hrun hs hr, h, hrun ht hr']
  subst hst
  exact ⟨rfl, List.append_cancel_left h⟩

theorem head_not_plain {c : Char} (hc : isPlainChar c = false) (r : Str) :
    ∀ d ∈ (c :: r).head?, isPlainChar d = false := by
  rintro d ⟨⟩
  exact hc

theorem Ends.not_plain {r : Str} (h : Ends r) : ∀ c ∈ r.head?, isPlainChar c = false := by
  intro c hc
  rw [h c hc]
  exact not_plain_blank

theorem Ends.not_slash {r : Str} (h : Ends r) : r.head? ≠ some '\\' := by
  intro hr
  exact absurd (h _ hr) (by decide)

theorem all_of_isPlain {s : Str} (h : isPlain s = true) : s.all isPlainChar = true :=
  ((Bool.and_eq_true _ _).mp h).2

theorem ne_nil_of_isPlain {s : Str} (h : isPlain s = true) : s ≠ [] :=
  of_decide_eq_true ((Bool.and_eq_true _ _).mp h).1

theorem plain_ne_quoted {s r r' : Str} (h : isPlain s = true) : s ++ r ≠ '\'' :: r' := by
  cases s with
  | nil => exact absurd rfl (ne_nil_of_isPlain h)
  | cons c s =>
    intro heq
    obtain rfl := (cons.inj heq).1
    have := List.all_eq_true.mp (all_of_isPlain h) _ mem_cons_self
    exact Bool.false_ne_true (not_plain_quote.symm.trans this)

theorem shellQuote_plain {s : Str} (h : isPlain s = true) : shellQuote s = s := if_pos h

theorem shellQuote_quoted {s : Str} (h : ¬ isPlain s = true) (r : Str) :
    shellQuote s ++ r = '\'' :: (quoted s ++ '\'' :: r) := by
  rw [shellQuote, if_neg h, cons_append, cons_append, append_assoc,
    singleton_append]

theorem shellQuote_append_inj (hr : Ends r) (hr' : Ends r')
    (h : shellQuote s ++ r = shellQuote t ++ r') : s = t ∧ r = r' := by
  by_cases hs : isPlain s = true
  · rw [shellQuote_plain hs] at h
    by_cases ht : isPlain t = true
    · rw [shellQuote_plain ht] at h
      exact plain_append_inj (all_of_isPlain hs) (all_of_isPlain ht) hr.not_plain hr'.not_plain h
    · rw [shellQuote_quoted ht] at h
      exact absurd h (plain_ne_quoted hs)
  · rw [shellQuote_quoted hs] at h
    by_cases ht : isPlain t = true
    · rw [shellQuote_plain ht] at h
      exact absurd h.symm (plain_ne_quoted ht)
    · rw [shellQuote_quoted ht] at h
      exact quoted_append_inj hr.not_slash hr'.not_slash (cons.inj h).2

/-! ## The words of the line -/

inductive Word where
  | bare (text : Str)
  | assigned (name value : Str)
deriving DecidableEq, Repr

/-- The word an assignment is: where neither part needs quotes, the word `name=value`. -/
def assignment (name value : Str) : Word :=
  if isPlain name && isPlain value then .bare (name ++ '=' :: value) else .assigned name value

/-- The words of a declaration, with its texts made visible. -/
def words (agent : ExternalAgentConfig) : List Word :=
  (agent.env.map fun (name, value) => assignment (visible name) (visible value)) ++
    (agent.command :: agent.args).map fun word => .bare (visible word)

def Word.print : Word → Str
  | .bare text => shellQuote text
  | .assigned name value => shellQuote name ++ '=' :: shellQuote value

def Word.Proper : Word → Prop
  | .bare _ => True
  | .assigned name value => ¬ (isPlain name = true ∧ isPlain value = true)

theorem proper_assignment (name value : Str) : (assignment name value).Proper := by
  unfold assignment
  split_ifs with h
  · exact trivial
  · rw [Bool.and_eq_true] at h
    exact h

theorem isPlain_assignment {name value : Str} (hn : isPlain name = true)
    (hv : isPlain value = true) : isPlain (name ++ '=' :: value) = true := by
  have hall : (name ++ '=' :: value).all isPlainChar = true := by
    rw [all_append, all_of_isPlain hn, List.all_cons, all_of_isPlain hv]
    rfl
  rw [isPlain, hall, Bool.and_true, decide_eq_true_eq]
  exact List.append_ne_nil_of_right_ne_nil _ (List.cons_ne_nil _ _)

theorem print_assignment (name value : Str) :
    (assignment name value).print = shellQuote name ++ '=' :: shellQuote value := by
  unfold assignment
  split_ifs with h
  · obtain ⟨hn, hv⟩ := (Bool.and_eq_true _ _).mp h
    rw [Word.print, shellQuote_plain (isPlain_assignment hn hv), shellQuote_plain hn,
      shellQuote_plain hv]
  · rfl

theorem commandLine_eq (agent : ExternalAgentConfig) :
    commandLine agent = [' '].intercalate ((words agent).map Word.print) := by
  rw [commandLine, words, map_append, map_map, map_map]
  congr 2
  refine map_congr_left fun entry _ => ?_
  exact (print_assignment _ _).symm

theorem proper_words (agent : ExternalAgentConfig) : ∀ w ∈ words agent, w.Proper := by
  intro w hw
  rcases mem_append.mp hw with hw | hw
  · obtain ⟨entry, -, rfl⟩ := mem_map.mp hw
    exact proper_assignment _ _
  · obtain ⟨text, -, rfl⟩ := mem_map.mp hw
    exact trivial

theorem bare_ne_assigned {s name value r r' : Str} (hr : Ends r)
    (hproper : (Word.assigned name value).Proper) :
    shellQuote s ++ r ≠ shellQuote name ++ '=' :: shellQuote value ++ r' := by
  intro h
  rw [append_assoc, cons_append] at h
  by_cases hn : isPlain name = true
  · have hv : ¬ isPlain value = true := fun hv => hproper ⟨hn, hv⟩
    rw [shellQuote_plain hn, shellQuote_quoted hv] at h
    by_cases hs : isPlain s = true
    · rw [shellQuote_plain hs, ← singleton_append (l := '\'' :: _), ← append_assoc] at h
      have hplain : (name ++ ['=']).all isPlainChar = true := by
        rw [all_append, all_of_isPlain hn]
        rfl
      obtain ⟨-, hrest⟩ := plain_append_inj (all_of_isPlain hs) hplain hr.not_plain
        (head_not_plain not_plain_quote _) h
      exact absurd (hr '\'' (by rw [hrest]; rfl)) (by decide)
    · rw [shellQuote_quoted hs] at h
      exact absurd h.symm (plain_ne_quoted hn)
  · rw [shellQuote_quoted hn] at h
    by_cases hs : isPlain s = true
    · rw [shellQuote_plain hs] at h
      exact absurd h (plain_ne_quoted hs)
    · rw [shellQuote_quoted hs] at h
      obtain ⟨-, hrest⟩ := quoted_append_inj hr.not_slash (by simp) (cons.inj h).2
      exact absurd (hr '=' (by rw [hrest]; rfl)) (by decide)

theorem assigned_inj {name value name' value' r r' : Str} (hr : Ends r) (hr' : Ends r')
    (hproper : (Word.assigned name value).Proper) (hproper' : (Word.assigned name' value').Proper)
    (h : shellQuote name ++ '=' :: shellQuote value ++ r =
      shellQuote name' ++ '=' :: shellQuote value' ++ r') :
    name = name' ∧ value = value' ∧ r = r' := by
  rw [append_assoc, append_assoc, cons_append, cons_append] at h
  have hplain : ∀ {s : Str}, isPlain s = true → (s ++ ['=']).all isPlainChar = true := by
    intro s hs
    rw [all_append, all_of_isPlain hs]
    rfl
  by_cases hn : isPlain name = true
  · have hv : ¬ isPlain value = true := fun hv => hproper ⟨hn, hv⟩
    by_cases hn' : isPlain name' = true
    · have hv' : ¬ isPlain value' = true := fun hv => hproper' ⟨hn', hv⟩
      rw [shellQuote_plain hn, shellQuote_plain hn', shellQuote_quoted hv, shellQuote_quoted hv',
        ← singleton_append (l := '\'' :: _), ← append_assoc,
        ← singleton_append (l := '\'' :: (quoted value' ++ _)), ← append_assoc] at h
      obtain ⟨hname, hrest⟩ := plain_append_inj (hplain hn) (hplain hn')
        (head_not_plain not_plain_quote _) (head_not_plain not_plain_quote _) h
      obtain ⟨hvalue, hends⟩ :=
        quoted_append_inj hr.not_slash hr'.not_slash (cons.inj hrest).2
      exact ⟨List.append_cancel_right hname, hvalue, hends⟩
    · rw [shellQuote_plain hn, shellQuote_quoted hn'] at h
      exact absurd h (plain_ne_quoted hn)
  · rw [shellQuote_quoted hn] at h
    by_cases hn' : isPlain name' = true
    · rw [shellQuote_plain hn'] at h
      exact absurd h.symm (plain_ne_quoted hn')
    · rw [shellQuote_quoted hn'] at h
      obtain ⟨hname, hrest⟩ := quoted_append_inj (by simp) (by simp) (cons.inj h).2
      obtain ⟨hvalue, hends⟩ := shellQuote_append_inj hr hr' (cons.inj hrest).2
      exact ⟨hname, hvalue, hends⟩

theorem print_append_inj {w v : Word} (hw : w.Proper) (hv : v.Proper) {r r' : Str} (hr : Ends r)
    (hr' : Ends r') (h : w.print ++ r = v.print ++ r') : w = v ∧ r = r' := by
  cases w with
  | bare s =>
    cases v with
    | bare t =>
      obtain ⟨rfl, hrest⟩ := shellQuote_append_inj hr hr' h
      exact ⟨rfl, hrest⟩
    | assigned name value => exact absurd h (bare_ne_assigned hr hv)
  | assigned name value =>
    cases v with
    | bare t => exact absurd h.symm (bare_ne_assigned hr' hw)
    | assigned name' value' =>
      obtain ⟨rfl, rfl, hrest⟩ := assigned_inj hr hr' hw hv h
      exact ⟨rfl, hrest⟩

theorem print_ne_nil (w : Word) : w.print ≠ [] := by
  have hquote : ∀ s : Str, shellQuote s ≠ [] := by
    intro s
    unfold shellQuote
    split_ifs with h
    · exact ne_nil_of_isPlain h
    · exact List.cons_ne_nil _ _
  cases w with
  | bare text => exact hquote text
  | assigned name value => exact List.append_ne_nil_of_left_ne_nil (hquote name) _

theorem intercalate_print_inj {ws vs : List Word} (hws : ∀ w ∈ ws, w.Proper)
    (hvs : ∀ v ∈ vs, v.Proper)
    (h : [' '].intercalate (ws.map Word.print) = [' '].intercalate (vs.map Word.print)) :
    ws = vs := by
  have htail : ∀ l : List Str, Ends (l.flatMap ([' '] ++ ·)) := by
    intro l
    cases l with
    | nil => nofun
    | cons s l =>
      rintro c ⟨⟩
      rfl
  induction ws generalizing vs with
  | nil =>
    cases vs with
    | nil => rfl
    | cons v vs =>
      rw [map_cons, intercalate_cons] at h
      exact absurd h.symm (List.append_ne_nil_of_left_ne_nil (print_ne_nil v) _)
  | cons w ws ih =>
    rw [map_cons, intercalate_cons] at h
    cases vs with
    | nil => exact absurd h (List.append_ne_nil_of_left_ne_nil (print_ne_nil w) _)
    | cons v vs =>
      rw [map_cons, intercalate_cons] at h
      obtain ⟨rfl, hrest⟩ := print_append_inj (hws w mem_cons_self)
        (hvs v mem_cons_self) (htail _) (htail _) h
      have hwords : ws = vs := by
        refine ih (fun w hw => hws w (mem_cons_of_mem _ hw))
          (fun v hv => hvs v (mem_cons_of_mem _ hv)) ?_
        cases ws with
        | nil =>
          cases vs with
          | nil => rfl
          | cons v vs => cases hrest
        | cons w ws =>
          cases vs with
          | nil => cases hrest
          | cons v vs =>
            rw [map_cons, map_cons, intercalate_cons, intercalate_cons]
            exact (cons.inj hrest).2
      rw [hwords]

/-! ## The body of the dialog -/

theorem exists_digit {n : Nat} {c : Char} (h : c ∈ Nat.toDigits 16 n) :
    ∃ d < 16, c = Nat.digitChar d := by
  induction n using Nat.strong_induction_on with
  | _ n ih =>
    rw [Nat.toDigits_eq_if (by decide)] at h
    split_ifs at h with hlt
    · exact ⟨n, hlt, List.mem_singleton.mp h⟩
    · rcases mem_append.mp h with h | h
      · exact ih (n / 16) (by omega) h
      · exact ⟨n % 16, Nat.mod_lt _ (by decide), List.mem_singleton.mp h⟩

theorem digit_ne_line : ∀ d < 16, (Nat.digitChar d).toUpper ≠ '\n' := by decide

theorem not_mem_hexUpper (n : Nat) : '\n' ∉ hexUpper n := by
  intro h
  rcases mem_append.mp h with h | h
  · exact absurd (List.eq_of_mem_replicate h) (by decide)
  · obtain ⟨c, hc, hup⟩ := mem_map.mp h
    obtain ⟨d, hd, rfl⟩ := exists_digit hc
    exact digit_ne_line d hd hup

theorem not_mem_visible (text : Str) : '\n' ∉ visible text := by
  intro h
  obtain ⟨c, -, hmem⟩ := List.mem_flatMap.mp h
  unfold visibleChar at hmem
  split_ifs at hmem with hline htab hhidden
  · exact absurd hmem (by decide)
  · exact absurd hmem (by decide)
  · rcases mem_append.mp hmem with hmem | hmem
    · rcases mem_append.mp hmem with hmem | hmem
      · exact absurd hmem (by decide)
      · exact not_mem_hexUpper _ hmem
    · exact absurd hmem (by decide)
  · exact hline (List.mem_singleton.mp hmem).symm

theorem append_mark_inj {mark : Char} (hs : mark ∉ s) (ht : mark ∉ t)
    (h : s ++ mark :: r = t ++ mark :: r') : s = t ∧ r = r' := by
  induction s generalizing t with
  | nil =>
    cases t with
    | nil => exact ⟨rfl, (cons.inj h).2⟩
    | cons c t =>
      obtain rfl := (cons.inj h).1
      exact absurd mem_cons_self ht
  | cons c s ih =>
    cases t with
    | nil =>
      obtain rfl := (cons.inj h).1
      exact absurd mem_cons_self hs
    | cons d t =>
      obtain ⟨hcd, htail⟩ := cons.inj h
      obtain ⟨rfl, hrest⟩ := ih (fun hmem => hs (mem_cons_of_mem _ hmem))
        (fun hmem => ht (mem_cons_of_mem _ hmem)) htail
      exact ⟨congrArg (· :: s) hcd, hrest⟩

theorem not_mem_question : '\n' ∉ question := by
  rw [show question = _ from toList_of_eq rfl]
  decide

theorem body_eq_iff (a b : ExternalAgentConfig) :
    body a = body b ↔ visible a.label = visible b.label ∧ words a = words b := by
  constructor
  · intro h
    have hsplit : ∀ agent : ExternalAgentConfig, body agent =
        ('“' :: visible agent.label ++ question) ++
          '\n' :: ('\n' :: commandLine agent ++ ("\n\n".toList ++ assurance)) := by
      intro agent
      simp only [body, append_assoc, cons_append]
      rfl
    have hclear : ∀ agent : ExternalAgentConfig,
        '\n' ∉ '“' :: visible agent.label ++ question := by
      intro agent hmem
      rcases mem_append.mp hmem with hmem | hmem
      · rcases List.mem_cons.mp hmem with hmem | hmem
        · exact absurd hmem (by decide)
        · exact not_mem_visible _ hmem
      · exact not_mem_question hmem
    rw [hsplit a, hsplit b] at h
    obtain ⟨hlabel, hrest⟩ := append_mark_inj (hclear a) (hclear b) h
    have hlines := List.append_cancel_right (cons.inj hrest).2
    rw [commandLine_eq, commandLine_eq] at hlines
    exact ⟨(cons.inj (List.append_cancel_right hlabel)).2,
      intercalate_print_inj (proper_words a) (proper_words b) hlines⟩
  · rintro ⟨hlabel, hwords⟩
    rw [body, body, hlabel, commandLine_eq, commandLine_eq, hwords]

variable {agent : ExternalAgentConfig}

theorem body_of_externalAgent {replacing : Bool} {c : Confirmation}
    (h : externalAgent agent replacing = some c) : c.body = body agent := by
  unfold externalAgent at h
  dsimp only at h
  split_ifs at h
  all_goals
    obtain rfl := Option.some.inj h
    rfl

def runs (agent : ExternalAgentConfig) : Str × List Str × List (Str × Str) :=
  (agent.command, agent.args, agent.env)

/-! ## Declarations that were validated -/

theorem visible_of_readable {text : Str} (h : text.any obscuresAgentDeclaration = false) :
    visible text = text := by
  induction text with
  | nil => rfl
  | cons c text ih =>
    rw [List.any_cons, Bool.or_eq_false_iff] at h
    have hc : visibleChar c = [c] := by
      unfold visibleChar
      split_ifs with hline htab hhidden
      · rw [hline] at h
        exact absurd h.1 (by decide)
      · rw [htab] at h
        exact absurd h.1 (by decide)
      · exact absurd (h.1.symm.trans hhidden) Bool.false_ne_true
      · rfl
    rw [visible, List.flatMap_cons, hc]
    exact congrArg (c :: ·) (ih h.2)

/-- No text of a declaration holds a hidden character, and no name of its environment is cut by an
equals sign. -/
structure Readable (agent : ExternalAgentConfig) : Prop where
  label : visible agent.label = agent.label
  command : visible agent.command = agent.command
  args : agent.args.map visible = agent.args
  names : ∀ entry ∈ agent.env, visible entry.1 = entry.1 ∧ '=' ∉ entry.1
  values : ∀ entry ∈ agent.env, visible entry.2 = entry.2

theorem readable_of_validate {u : Unit} (h : agent.validate = .ok u) : Readable agent := by
  obtain ⟨_, -, h⟩ := bind_eq_ok.mp h
  obtain ⟨_, hlabel, h⟩ := bind_eq_ok.mp h
  obtain ⟨_, -, h⟩ := bind_eq_ok.mp h
  obtain ⟨_, -, h⟩ := bind_eq_ok.mp h
  obtain ⟨_, hwords, h⟩ := bind_eq_ok.mp h
  obtain ⟨_, -, h⟩ := bind_eq_ok.mp h
  obtain ⟨_, -, h⟩ := bind_eq_ok.mp h
  obtain ⟨_, hnames, h⟩ := bind_eq_ok.mp h
  obtain ⟨_, -, hvalues⟩ := bind_eq_ok.mp h
  rw [Fallible.refuse_eq_ok] at hlabel hwords hnames hvalues
  obtain ⟨hcommand, hargs⟩ := Bool.or_eq_false_iff.mp hwords
  rw [List.any_eq_false] at hargs hnames hvalues
  refine ⟨visible_of_readable hlabel, visible_of_readable hcommand, ?_, ?_, ?_⟩
  · conv_rhs => rw [← List.map_id agent.args]
    refine map_congr_left fun arg harg => ?_
    exact visible_of_readable (Bool.not_eq_true _ ▸ hargs arg harg)
  · intro entry hentry
    have hentry := Bool.not_eq_true _ ▸ hnames entry hentry
    rw [Bool.or_eq_false_iff, Bool.or_eq_false_iff] at hentry
    refine ⟨visible_of_readable hentry.2, fun hmem => ?_⟩
    exact Bool.false_ne_true (hentry.1.2.symm.trans (List.contains_iff_mem.mpr hmem))
  · intro entry hentry
    exact visible_of_readable (Bool.not_eq_true _ ▸ hvalues entry hentry)

def ofEntry (entry : Str × Str) : Word := assignment entry.1 entry.2

theorem words_of_readable (h : Readable agent) :
    words agent = agent.env.map ofEntry ++ (agent.command :: agent.args).map .bare := by
  unfold words
  congr 1
  · refine map_congr_left fun entry hentry => ?_
    exact congrArg₂ assignment (h.names entry hentry).1 (h.values entry hentry)
  · rw [map_cons, map_cons, h.command]
    congr 1
    conv_rhs => rw [← h.args]
    rw [map_map]
    rfl

/-- Does an assignment need no quotes? -/
def Unquoted (entry : Str × Str) : Prop := isPlain entry.1 = true ∧ isPlain entry.2 = true

/-- The text `name=value`. -/
def textOf (entry : Str × Str) : Str := entry.1 ++ '=' :: entry.2

theorem ofEntry_eq_bare {entry : Str × Str} {text : Str} :
    ofEntry entry = .bare text ↔ Unquoted entry ∧ textOf entry = text := by
  unfold ofEntry assignment Unquoted textOf
  rw [← Bool.and_eq_true]
  by_cases h : (isPlain entry.1 && isPlain entry.2) = true
  · rw [if_pos h, Word.bare.injEq, and_iff_right h]
  · rw [if_neg h]
    constructor
    · intro heq
      cases heq
    · intro hand
      exact absurd hand.1 h

theorem textOf_inj {s t : Str × Str} (hs : '=' ∉ s.1) (ht : '=' ∉ t.1)
    (h : textOf s = textOf t) : s = t := by
  obtain ⟨hname, hvalue⟩ := append_mark_inj hs ht h
  exact Prod.ext hname hvalue

theorem ofEntry_inj {s t : Str × Str} (hs : '=' ∉ s.1) (ht : '=' ∉ t.1)
    (h : ofEntry s = ofEntry t) : s = t := by
  cases hword : ofEntry t with
  | bare text =>
    rw [hword, ofEntry_eq_bare] at h
    rw [ofEntry_eq_bare] at hword
    exact textOf_inj hs ht (h.2.trans hword.2.symm)
  | assigned name value =>
    rw [hword] at h
    unfold ofEntry assignment at h hword
    split_ifs at h hword
    obtain ⟨hname, hvalue⟩ := Word.assigned.inj h
    obtain ⟨hname', hvalue'⟩ := Word.assigned.inj hword
    exact Prod.ext (hname.trans hname'.symm) (hvalue.trans hvalue'.symm)

theorem map_ofEntry_inj {s t : List (Str × Str)} (hs : ∀ entry ∈ s, '=' ∉ entry.1)
    (ht : ∀ entry ∈ t, '=' ∉ entry.1) (h : s.map ofEntry = t.map ofEntry) : s = t := by
  induction s generalizing t with
  | nil => exact (List.map_eq_nil_iff.mp h.symm).symm
  | cons entry s ih =>
    cases t with
    | nil => cases h
    | cons other t =>
      obtain ⟨hhead, htail⟩ := cons.inj h
      obtain rfl := ofEntry_inj (hs _ mem_cons_self) (ht _ mem_cons_self) hhead
      rw [ih (fun e he => hs e (mem_cons_of_mem _ he))
        (fun e he => ht e (mem_cons_of_mem _ he)) htail]

/-- One declaration begins its command with what another declares as assignments. -/
def ReadsAs (a b : ExternalAgentConfig) : Prop :=
  ∃ extra, a.env = b.env ++ extra ∧ (∀ entry ∈ extra, Unquoted entry) ∧
    b.command :: b.args = extra.map textOf ++ a.command :: a.args

theorem map_ofEntry_bare {extra : List (Str × Str)} (h : ∀ entry ∈ extra, Unquoted entry) :
    extra.map ofEntry = (extra.map textOf).map .bare := by
  rw [map_map]
  exact map_congr_left fun entry hentry => ofEntry_eq_bare.mpr ⟨h entry hentry, rfl⟩

variable {a b : ExternalAgentConfig}

theorem words_of_readsAs (ha : Readable a) (hb : Readable b)
    (h : ReadsAs a b) : words a = words b := by
  obtain ⟨extra, henv, hextra, hcommand⟩ := h
  rw [words_of_readable ha, words_of_readable hb, henv, hcommand, map_append,
    map_ofEntry_bare hextra, append_assoc, map_append]

theorem readsAs_of_words (ha : Readable a) (hb : Readable b)
    {rest : List Word} (henv : a.env.map ofEntry = b.env.map ofEntry ++ rest)
    (hwords : (b.command :: b.args).map Word.bare =
      rest ++ (a.command :: a.args).map Word.bare) : ReadsAs a b := by
  obtain ⟨front, extra, hsplit, hfront, hrest⟩ := List.map_eq_append_iff.mp henv
  have hsame : front = b.env := by
    refine map_ofEntry_inj (fun e he => (ha.names e ?_).2) (fun e he => (hb.names e he).2) hfront
    rw [hsplit]
    exact List.mem_append_left _ he
  have hextra : ∀ entry ∈ extra, Unquoted entry := by
    intro entry hentry
    have hmem : ofEntry entry ∈ (b.command :: b.args).map Word.bare := by
      rw [hwords, ← hrest]
      exact List.mem_append_left _ (List.mem_map_of_mem hentry)
    obtain ⟨text, -, htext⟩ := mem_map.mp hmem
    exact (ofEntry_eq_bare.mp htext.symm).1
  refine ⟨extra, by rw [hsplit, hsame], hextra, ?_⟩
  rw [← hrest, map_ofEntry_bare hextra, ← map_append] at hwords
  exact List.map_injective_iff.mpr (fun _ _ => Word.bare.inj) hwords

/-- Declarations without hidden characters print the same words exactly where one reads as the
other. -/
theorem words_eq_iff (ha : Readable a) (hb : Readable b) :
    words a = words b ↔ ReadsAs a b ∨ ReadsAs b a := by
  constructor
  · intro h
    rw [words_of_readable ha, words_of_readable hb, List.append_eq_append_iff] at h
    rcases h with ⟨rest, henv, hwords⟩ | ⟨rest, henv, hwords⟩
    · exact Or.inr (readsAs_of_words hb ha henv hwords)
    · exact Or.inl (readsAs_of_words ha hb henv hwords)
  · rintro (h | h)
    · exact words_of_readsAs ha hb h
    · exact (words_of_readsAs hb ha h).symm

/-! ## What the user approves -/

/-- Where two declarations run something else, the dialogs differ exactly where their labels or
words are shown as different; and, of validated ones, unless the labels are one and one's
assignments are the other's program and arguments. -/
theorem dialog_shows_what_runs_iff {a b : ExternalAgentConfig} {replacing replacing' : Bool}
    {c d : Confirmation} (ha : externalAgent a replacing = some c)
    (hb : externalAgent b replacing' = some d) :
    ((runs a ≠ runs b → c.body ≠ d.body) ↔
      runs a = runs b ∨ visible a.label ≠ visible b.label ∨ words a ≠ words b) ∧
    (a.validate = .ok () → b.validate = .ok () →
      ((runs a ≠ runs b → c.body ≠ d.body) ↔
        runs a = runs b ∨ a.label ≠ b.label ∨ ¬ (ReadsAs a b ∨ ReadsAs b a))) := by
  have hiff : (runs a ≠ runs b → c.body ≠ d.body) ↔
      runs a = runs b ∨ visible a.label ≠ visible b.label ∨ words a ≠ words b := by
    rw [body_of_externalAgent ha, body_of_externalAgent hb, Ne.eq_def (body a), body_eq_iff,
      not_and_or, ← or_iff_not_imp_left]
  refine ⟨hiff, fun hva hvb => ?_⟩
  have hra := readable_of_validate hva
  have hrb := readable_of_validate hvb
  rw [hiff, hra.label, hrb.label, Ne.eq_def (words a), words_eq_iff hra hrb]

def inEnvironment : ExternalAgentConfig := ⟨"Agent".toList, ['x'], [], [(['A'], ['b'])]⟩

/-- A program whose name is an assignment. -/
def namedAssignment : ExternalAgentConfig := ⟨"Agent".toList, "A=b".toList, [['x']], []⟩

theorem size_question : size question ≤ 80 := by
  rw [show question = _ from toList_of_eq rfl]
  decide

theorem size_assurance : size assurance ≤ 100 := by
  rw [show assurance = _ from toList_append_of_eq rfl rfl]
  decide

theorem externalAgent_of_size (replacing : Bool)
    (htexts : ∀ text ∈ agent.label :: agent.command :: agent.args ++
      agent.env.flatMap fun (name, value) => [name, value], size text ≤ declarationMaxBytes)
    (hbody : size (visible agent.label) + size (commandLine agent) ≤ 3900) :
    (externalAgent agent replacing).isSome = true := by
  have hfits : size (body agent) ≤ declarationMaxBytes := by
    have hquestion := size_question
    have hassurance := size_assurance
    have hmark : '“'.utf8Size = 3 := by decide
    have hlines : size "\n\n".toList = 2 := by decide
    rw [body, cons_append, cons_append, cons_append, cons_append,
      cons_append, size_cons, size_append, size_append, size_append, size_append, size_append,
      hmark, hlines, declarationMaxBytes]
    omega
  unfold externalAgent
  dsimp only
  rw [if_neg, if_neg (Nat.not_lt.mpr hfits)]
  · rfl
  · rw [List.any_eq_true]
    rintro ⟨text, htext, hlong⟩
    exact absurd (htexts text htext) (Nat.not_le.mpr (of_decide_eq_true hlong))

theorem externalAgent_congr {replacing : Bool} (ha : (externalAgent a replacing).isSome = true)
    (hb : (externalAgent b replacing).isSome = true) (h : body a = body b) :
    externalAgent a replacing = externalAgent b replacing := by
  unfold externalAgent at ha hb ⊢
  dsimp only at ha hb ⊢
  split_ifs at ha hb ⊢
  any_goals cases ha
  any_goals cases hb
  all_goals rw [h]

/-- A program in an environment, and the same without it. -/
theorem dialog_shows_an_environment :
    ∃ c d, externalAgent inEnvironment false = some c ∧
      externalAgent { inEnvironment with env := [] } false = some d ∧ c.body ≠ d.body := by
  obtain ⟨c, hc⟩ := Option.isSome_iff_exists.mp
    (@externalAgent_of_size inEnvironment false (by decide) (by decide))
  obtain ⟨d, hd⟩ := Option.isSome_iff_exists.mp
    (@externalAgent_of_size { inEnvironment with env := [] } false (by decide) (by decide))
  exact ⟨c, d, hc, hd, (dialog_shows_what_runs_iff hc hd).1.mpr
    (Or.inr (Or.inr (by decide))) (by decide)⟩

/-- The dialog is one and the same, about `x` in an environment where `A` is `b`, and about a
program named `A=b` that is given `x`. -/
theorem assignment_reads_as_program :
    inEnvironment.validate = .ok () ∧ namedAssignment.validate = .ok () ∧
      runs inEnvironment ≠ runs namedAssignment ∧
      (externalAgent inEnvironment false).isSome = true ∧
      externalAgent inEnvironment false = externalAgent namedAssignment false := by
  have henv : (externalAgent inEnvironment false).isSome = true :=
    externalAgent_of_size false (by decide) (by decide)
  have hnamed : (externalAgent namedAssignment false).isSome = true :=
    externalAgent_of_size false (by decide) (by decide)
  have hbody : body inEnvironment = body namedAssignment := (body_eq_iff _ _).mpr (by decide)
  exact ⟨rfl, rfl, by decide, henv, externalAgent_congr henv hnamed hbody⟩

end Oxyn.Desktop.Confirm
