/-
# `Oxyn.Lib.JsonText` — a reader of JSON text

A reader of RFC 8259 over characters.
-/
import Oxyn.Lib.Decimal
import Oxyn.Lib.Text

namespace Oxyn.JsonText

open Text Decimal List

inductive Json where
  | null
  | bool (value : Bool)
  | number (text : Str)
  | string (text : Str)
  | array (items : List Json)
  | object (members : List (Str × Json))

/-! ## Strings -/

/-- Where the reader stands in a string; the first half of a surrogate pair waits for the
second. -/
inductive Mode where
  | plain
  | paired (high : Nat)
  | escaped (high : Option Nat)
  | unicode (high : Option Nat) (left value : Nat)

def escape? (c : Char) : Option Char :=
  if c = '"' ∨ c = '\\' ∨ c = '/' then some c
  else if c = 'b' then some (Char.ofNat 8)
  else if c = 'f' then some (Char.ofNat 12)
  else if c = 'n' then some '\n'
  else if c = 'r' then some '\r'
  else if c = 't' then some '\t'
  else none

def hexValue? (c : Char) : Option Nat :=
  if c.isDigit then some (c.toNat - '0'.toNat)
  else if 'a' ≤ c ∧ c ≤ 'f' then some (c.toNat - 'a'.toNat + 10)
  else if 'A' ≤ c ∧ c ≤ 'F' then some (c.toNat - 'A'.toNat + 10)
  else none

/-- The character of an escaped number, or where the reader goes on for the other half. -/
def unit (high : Option Nat) (value : Nat) : Option (Char ⊕ Nat) :=
  match high with
  | none =>
    if 0xD800 ≤ value ∧ value < 0xDC00 then some (.inr value)
    else if 0xDC00 ≤ value ∧ value < 0xE000 then none
    else some (.inl (Char.ofNat value))
  | some high =>
    if 0xDC00 ≤ value ∧ value < 0xE000 then
      some (.inl (Char.ofNat (0x10000 + (high - 0xD800) * 0x400 + (value - 0xDC00))))
    else none

/-- What a string holds, from after its opening quote, and what follows its closing one. -/
def readString : Mode → Str → Option (Str × Str)
  | _, [] => none
  | .plain, c :: s =>
    if c = '"' then some ([], s)
    else if c = '\\' then readString (.escaped none) s
    else if c.toNat < 0x20 then none
    else (readString .plain s).map fun (text, rest) => (c :: text, rest)
  | .paired high, c :: s => if c = '\\' then readString (.escaped (some high)) s else none
  | .escaped high, c :: s =>
    if c = 'u' then readString (.unicode high 4 0) s
    else if high.isSome then none
    else
      match escape? c with
      | none => none
      | some d => (readString .plain s).map fun (text, rest) => (d :: text, rest)
  | .unicode high left value, c :: s =>
    match hexValue? c with
    | none => none
    | some digit =>
      if 1 < left then readString (.unicode high (left - 1) (value * 16 + digit)) s
      else
        match unit high (value * 16 + digit) with
        | none => none
        | some (.inl d) => (readString .plain s).map fun (text, rest) => (d :: text, rest)
        | some (.inr high) => readString (.paired high) s

/-! ## Numbers -/

def readRun (s : Str) : Option (Str × Str) :=
  if s.takeWhile Char.isDigit = [] then none
  else some (s.takeWhile Char.isDigit, s.dropWhile Char.isDigit)

/-- The digits before a point: no zero before another digit. -/
def readInteger (s : Str) : Option (Str × Str) :=
  (readRun s).bind fun (run, rest) =>
    if run.head? = some '0' ∧ run ≠ ['0'] then none else some (run, rest)

/-- One of these characters, if the text begins with one. -/
def readMark (marks : List Char) : Str → Str × Str
  | c :: s => if c ∈ marks then ([c], s) else ([], c :: s)
  | [] => ([], [])

def readPart (marks signs : List Char) (s : Str) : Option (Str × Str) :=
  let (mark, tail) := readMark marks s
  if mark = [] then some ([], s)
  else
    let (sign, digits) := readMark signs tail
    (readRun digits).map fun (run, rest) => (mark ++ sign ++ run, rest)

/-- A number's text: `-?(0|[1-9]\d*)(\.\d+)?([eE][+-]?\d+)?`. -/
def readNumber (s : Str) : Option (Str × Str) := do
  let (sign, s) := readMark ['-'] s
  let (whole, s) ← readInteger s
  let (fraction, s) ← readPart ['.'] [] s
  let (exponent, s) ← readPart ['e', 'E'] ['+', '-'] s
  some (sign ++ whole ++ fraction ++ exponent, s)

/-! ## Values -/

def isBlank (c : Char) : Bool := c = ' ' || c = '\t' || c = '\n' || c = '\r'

def skip (s : Str) : Str := s.dropWhile isBlank

/-- What follows this word, if the text begins with it. -/
def readWord (word s : Str) : Option Str :=
  if word.isPrefixOf s then some (s.drop word.length) else none

def readScalar (s : Str) : Option (Json × Str) :=
  match readWord ['n', 'u', 'l', 'l'] s with
  | some rest => some (.null, rest)
  | none =>
    match readWord ['t', 'r', 'u', 'e'] s with
    | some rest => some (.bool true, rest)
    | none =>
      match readWord ['f', 'a', 'l', 's', 'e'] s with
      | some rest => some (.bool false, rest)
      | none => (readNumber s).map fun (text, rest) => (.number text, rest)

mutual

def readValue : Nat → Str → Option (Json × Str)
  | 0, _ => none
  | fuel + 1, s =>
    if s.head? = some '"' then
      (readString .plain s.tail).map fun (text, rest) => (.string text, rest)
    else if s.head? = some '[' then
      if (skip s.tail).head? = some ']' then some (.array [], (skip s.tail).tail)
      else (readItems fuel s.tail).map fun (items, rest) => (.array items, rest)
    else if s.head? = some '\x7b' then
      if (skip s.tail).head? = some '\x7d' then some (.object [], (skip s.tail).tail)
      else (readMembers fuel s.tail).map fun (members, rest) => (.object members, rest)
    else readScalar s

/-- The items up to the closing bracket, one at least. -/
def readItems : Nat → Str → Option (List Json × Str)
  | 0, _ => none
  | fuel + 1, s =>
    match readValue fuel (skip s) with
    | none => none
    | some (value, rest) =>
      if (skip rest).head? = some ',' then
        (readItems fuel (skip rest).tail).map fun (items, rest) => (value :: items, rest)
      else if (skip rest).head? = some ']' then some ([value], (skip rest).tail)
      else none

/-- The members up to the closing brace, one at least. -/
def readMembers : Nat → Str → Option (List (Str × Json) × Str)
  | 0, _ => none
  | fuel + 1, s =>
    if (skip s).head? = some '"' then
      match readString .plain (skip s).tail with
      | none => none
      | some (name, rest) =>
        if (skip rest).head? = some ':' then
          match readValue fuel (skip (skip rest).tail) with
          | none => none
          | some (value, rest) =>
            if (skip rest).head? = some ',' then
              (readMembers fuel (skip rest).tail).map fun (members, rest) =>
                ((name, value) :: members, rest)
            else if (skip rest).head? = some '\x7d' then
              some ([(name, value)], (skip rest).tail)
            else none
        else none
    else none

end

def read (text : Str) : Option Json :=
  match readValue (2 * text.length) (skip text) with
  | none => none
  | some (value, rest) => if skip rest = [] then some value else none

/-! ## What a writer writes -/

def Blank (s : Str) : Prop := ∀ c ∈ s, isBlank c = true

instance (s : Str) : Decidable (Blank s) :=
  List.decidableBAll (fun c : Char => isBlank c = true) s

theorem blank_nil : Blank [] := fun _ h => absurd h not_mem_nil

/-- A number does not go on with this text. -/
def Ends (s : Str) : Prop := ∀ c ∈ s.head?, c.isDigit = false ∧ c ≠ '.' ∧ c ≠ 'e' ∧ c ≠ 'E'

variable {c : Char}

theorem ends_cons (h : c.isDigit = false ∧ c ≠ '.' ∧ c ≠ 'e' ∧ c ≠ 'E') (s : Str) :
    Ends (c :: s) := by
  rintro d ⟨⟩
  exact h

theorem skip_append {w : Str} (hw : Blank w) (hc : isBlank c = false) (s : Str) :
    skip (w ++ c :: s) = c :: s := by
  rw [skip, dropWhile_append_of_pos hw,
    dropWhile_cons_of_neg (by rw [hc]; exact Bool.false_ne_true)]

theorem skip_self (hc : isBlank c = false) (s : Str) : skip (c :: s) = c :: s :=
  skip_append blank_nil hc s

theorem ends_append {w : Str} (hw : Blank w) (hc : Ends [c]) (s : Str) :
    Ends (w ++ c :: s) := by
  cases w with
  | nil => exact hc
  | cons d w =>
    rintro _ ⟨⟩
    have hd := hw d mem_cons_self
    simp only [isBlank, Bool.or_eq_true, decide_eq_true_eq] at hd
    rcases hd with ((rfl | rfl) | rfl) | rfl <;> decide

structure Reads (text : Str) (value : Json) : Prop where
  starts : ∃ c s, text = c :: s ∧ isBlank c = false ∧ c ≠ ']'
  reads : ∀ fuel rest, 2 * text.length ≤ fuel → Ends rest →
    readValue fuel (text ++ rest) = some (value, rest)

theorem readValue_of_read {s : Str} {value : Json} (hblank : isBlank c = false) (hclose : c ≠ ']')
    (h : ∀ fuel rest, 2 * (s.length + 1) ≤ fuel + 1 → Ends rest →
      readValue (fuel + 1) (c :: (s ++ rest)) = some (value, rest)) : Reads (c :: s) value := by
  refine ⟨⟨c, s, rfl, hblank, hclose⟩, fun fuel rest hfuel hrest => ?_⟩
  rw [length_cons] at hfuel
  obtain ⟨n, rfl⟩ : ∃ n, fuel = n + 1 := ⟨fuel - 1, by omega⟩
  exact h n rest hfuel hrest

/-! ### Strings -/

def Spells (code : Str) (c : Char) : Prop :=
  ∀ rest, readString .plain (code ++ rest) =
    (readString .plain rest).map fun (text, rest) => (c :: text, rest)

theorem spells_self (hquote : c ≠ '"') (hslash : c ≠ '\\') (hcontrol : 0x20 ≤ c.toNat) :
    Spells [c] c := by
  intro rest
  rw [singleton_append, readString, if_neg hquote, if_neg hslash,
    if_neg (Nat.not_lt.mpr hcontrol)]

theorem spells_escape {c d : Char} (h : escape? c = some d) (hu : c ≠ 'u') :
    Spells ['\\', c] d := by
  intro rest
  rw [cons_append, singleton_append, readString, if_neg (by decide), if_pos rfl,
    readString, if_neg hu, h]
  rfl

theorem spells_unicode {c high low : Char} {m n : Nat} (hhigh : hexValue? high = some m)
    (hlow : hexValue? low = some n) (hc : c.toNat = m * 16 + n) (hlt : c.toNat < 0x20) :
    Spells ['\\', 'u', '0', '0', high, low] c := by
  intro rest
  have hunit : unit none (m * 16 + n) = some (.inl c) := by
    rw [← hc, unit, if_neg (by omega), if_neg (by omega), Char.ofNat_toNat]
  have hzero : hexValue? '0' = some 0 := rfl
  simp only [cons_append, nil_append, readString, Char.reduceEq, ↓reduceIte, hzero,
    Nat.zero_mul, Nat.zero_add, Nat.reduceLT, Nat.reduceSub, hhigh, hlow, hunit, lt_self_iff_false]

theorem readString_spelled {code : Char → Str} (h : ∀ c, Spells (code c) c) (text rest : Str) :
    readString .plain (text.flatMap code ++ '"' :: rest) = some (text, rest) := by
  induction text with
  | nil => rw [flatMap_nil, nil_append, readString, if_pos rfl]
  | cons c text ih => rw [flatMap_cons, append_assoc, h c, ih, Option.map_some]

theorem reads_string {code : Char → Str} (h : ∀ c, Spells (code c) c) (text : Str) :
    Reads ('"' :: text.flatMap code ++ ['"']) (.string text) := by
  rw [cons_append]
  refine readValue_of_read rfl (by decide) fun fuel rest _ _ => ?_
  rw [readValue, head?_cons, if_pos rfl, tail_cons, append_assoc,
    singleton_append, readString_spelled h, Option.map_some]

/-! ### Numbers -/

structure NumberText (text : Str) : Prop where
  parts : ∃ sign whole fraction exponent : Str, text = sign ++ whole ++ fraction ++ exponent ∧
    (sign = [] ∨ sign = ['-']) ∧
    (whole ≠ [] ∧ Digits whole ∧ (whole.head? = some '0' → whole = ['0'])) ∧
    (fraction = [] ∨ ∃ run, fraction = '.' :: run ∧ run ≠ [] ∧ Digits run) ∧
    (exponent = [] ∨ ∃ e sign run, exponent = e :: sign ++ run ∧ (e = 'e' ∨ e = 'E') ∧
      (sign = [] ∨ sign = ['+'] ∨ sign = ['-']) ∧ run ≠ [] ∧ Digits run)

theorem readRun_append {run rest : Str} (hne : run ≠ []) (hrun : Digits run) (hrest : Stops rest) :
    readRun (run ++ rest) = some (run, rest) := by
  obtain ⟨htake, hdrop⟩ := takeWhile_digits_append hrun hrest
  rw [readRun, htake, hdrop, if_neg hne]

theorem readMark_append {marks s : Str} (mark : Str) (hmark : mark = [] ∨ ∃ c ∈ marks, mark = [c])
    (hs : mark = [] → ∀ c ∈ s.head?, c ∉ marks) : readMark marks (mark ++ s) = (mark, s) := by
  rcases hmark with rfl | ⟨c, hc, rfl⟩
  · cases s with
    | nil => rfl
    | cons c s => exact if_neg (hs rfl c rfl)
  · exact if_pos hc

theorem readPart_absent {marks signs s : Str} (hs : ∀ c ∈ s.head?, c ∉ marks) :
    readPart marks signs s = some ([], s) := by
  have h := readMark_append [] (Or.inl rfl) fun _ => hs
  rw [nil_append] at h
  rw [readPart, h]
  rfl

theorem readPart_append {marks signs run rest : Str} (hc : c ∈ marks) (sign : Str)
    (hsign : sign = [] ∨ ∃ d ∈ signs, sign = [d]) (hdigit : ∀ d ∈ signs, d.isDigit = false)
    (hne : run ≠ []) (hrun : Digits run) (hrest : Stops rest) :
    readPart marks signs (c :: sign ++ run ++ rest) = some (c :: sign ++ run, rest) := by
  have hmark : readMark marks (c :: sign ++ run ++ rest) = ([c], sign ++ (run ++ rest)) := by
    rw [cons_append, cons_append, append_assoc]
    exact if_pos hc
  have hstart : sign = [] → ∀ d ∈ (run ++ rest).head?, d ∉ signs := by
    intro _ d hd hmem
    cases run with
    | nil => exact hne rfl
    | cons d' run =>
      obtain rfl := Option.some.inj hd
      exact Bool.false_ne_true ((hdigit _ hmem).symm.trans (hrun _ mem_cons_self))
  rw [readPart, hmark]
  dsimp only
  rw [if_neg (cons_ne_nil _ _), readMark_append sign hsign hstart]
  dsimp only
  rw [readRun_append hne hrun hrest, Option.map_some]
  rfl

theorem readNumber_append {text rest : Str} (h : NumberText text) (hrest : Ends rest) :
    readNumber (text ++ rest) = some (text, rest) := by
  obtain ⟨sign, whole, fraction, exponent, rfl, hsign, ⟨hne, hwhole, hzero⟩, hfraction,
    hexponent⟩ := h
  -- what stands behind each part stops it
  have hexp : readPart ['e', 'E'] ['+', '-'] (exponent ++ rest) = some (exponent, rest) := by
    rcases hexponent with rfl | ⟨e, esign, run, rfl, he, hes, hrne, hrun⟩
    · refine readPart_absent fun c hc => ?_
      have := hrest c hc
      simp only [mem_cons, not_mem_nil, or_false, not_or]
      exact ⟨this.2.2.1, this.2.2.2⟩
    · refine readPart_append ?_ esign ?_ (by decide) hrne hrun fun c hc => (hrest c hc).1
      · rcases he with rfl | rfl <;> decide
      · rcases hes with rfl | rfl | rfl
        · exact Or.inl rfl
        · exact Or.inr ⟨'+', by decide, rfl⟩
        · exact Or.inr ⟨'-', by decide, rfl⟩
  have hafter : ∀ c ∈ (exponent ++ rest).head?, c.isDigit = false ∧ c ≠ '.' := by
    intro c hc
    rcases hexponent with rfl | ⟨e, esign, run, rfl, he, -, -, -⟩
    · exact ⟨(hrest c hc).1, (hrest c hc).2.1⟩
    · obtain rfl := Option.some.inj hc
      rcases he with rfl | rfl <;> decide
  have hfrac : readPart ['.'] [] (fraction ++ (exponent ++ rest)) =
      some (fraction, exponent ++ rest) := by
    rcases hfraction with rfl | ⟨run, rfl, hrne, hrun⟩
    · refine readPart_absent fun c hc => ?_
      rw [mem_singleton]
      exact (hafter c hc).2
    · exact readPart_append (mem_singleton_self _) [] (Or.inl rfl) nofun hrne hrun
        fun c hc => (hafter c hc).1
  have hstops : Stops (fraction ++ (exponent ++ rest)) := by
    intro c hc
    rcases hfraction with rfl | ⟨run, rfl, -, -⟩
    · exact (hafter c hc).1
    · obtain rfl := Option.some.inj hc
      rfl
  have hint : readInteger (whole ++ (fraction ++ (exponent ++ rest))) =
      some (whole, fraction ++ (exponent ++ rest)) := by
    rw [readInteger, readRun_append hne hwhole hstops, Option.bind_some]
    exact if_neg fun hbad => hbad.2 (hzero hbad.1)
  have hmark : readMark ['-'] (sign ++ (whole ++ (fraction ++ (exponent ++ rest)))) =
      (sign, whole ++ (fraction ++ (exponent ++ rest))) := by
    refine readMark_append sign ?_ ?_
    · exact hsign.imp_right fun h => ⟨'-', mem_singleton_self _, h⟩
    · intro _ c hc hmem
      cases whole with
      | nil => exact hne rfl
      | cons d whole =>
        obtain rfl := Option.some.inj hc
        rw [mem_singleton] at hmem
        have := hwhole _ mem_cons_self
        rw [hmem] at this
        exact absurd this (by decide)
  simp only [readNumber, append_assoc, hmark, hint, hfrac, hexp, Option.bind_eq_bind,
    Option.bind_some]

theorem NumberText.starts {text : Str} (h : NumberText text) :
    ∃ c s, text = c :: s ∧ (c.isDigit = true ∨ c = '-') := by
  obtain ⟨sign, whole, fraction, exponent, rfl, hsign, ⟨hne, hwhole, -⟩, -, -⟩ := h
  cases whole with
  | nil => exact absurd rfl hne
  | cons d whole =>
    rcases hsign with rfl | rfl
    · exact ⟨d, whole ++ fraction ++ exponent, by simp only [nil_append, cons_append],
        Or.inl (hwhole _ mem_cons_self)⟩
    · exact ⟨'-', d :: whole ++ fraction ++ exponent, by simp only [cons_append,
        nil_append], Or.inr rfl⟩

theorem readWord_of_head {c d : Char} {word s : Str} (h : c ≠ d) :
    readWord (c :: word) (d :: s) = none := by
  refine if_neg ?_
  rw [List.isPrefixOf_iff_prefix]
  intro hprefix
  exact h (cons_prefix_cons.mp hprefix).1

theorem reads_number {text : Str} (h : NumberText text) : Reads text (.number text) := by
  obtain ⟨c, s, rfl, hc⟩ := h.starts
  have hnot : ∀ d : Char, d.isDigit = false → d ≠ '-' → c ≠ d := by
    rintro d hd hminus rfl
    rcases hc with hc | rfl
    · exact Bool.false_ne_true (hd.symm.trans hc)
    · exact hminus rfl
  have hblank : isBlank c = false := by
    simp only [isBlank, Bool.or_eq_false_iff, decide_eq_false_iff_not]
    exact ⟨⟨⟨hnot _ (by decide) (by decide), hnot _ (by decide) (by decide)⟩,
      hnot _ (by decide) (by decide)⟩, hnot _ (by decide) (by decide)⟩
  refine readValue_of_read hblank (hnot _ (by decide) (by decide)) fun fuel rest _ hrest => ?_
  have hread : readNumber (c :: (s ++ rest)) = some (c :: s, rest) := readNumber_append h hrest
  have hne : ∀ d : Char, d.isDigit = false → d ≠ '-' →
      (c :: (s ++ rest)).head? ≠ some d := fun d hd hm he => hnot d hd hm (Option.some.inj he)
  have hword : ∀ (d : Char) (word : Str), d.isDigit = false → d ≠ '-' →
      readWord (d :: word) (c :: (s ++ rest)) = none :=
    fun d word hd hm => readWord_of_head (hnot d hd hm).symm
  rw [readValue, if_neg (hne _ (by decide) (by decide)), if_neg (hne _ (by decide) (by decide)),
    if_neg (hne _ (by decide) (by decide)), readScalar, hword _ _ (by decide) (by decide)]
  dsimp only
  rw [hword _ _ (by decide) (by decide)]
  dsimp only
  rw [hword _ _ (by decide) (by decide)]
  dsimp only
  rw [hread, Option.map_some]

/-! ### Words -/

theorem readWord_append (word rest : Str) : readWord word (word ++ rest) = some rest := by
  rw [readWord, if_pos (List.isPrefixOf_iff_prefix.mpr (prefix_append _ _)),
    drop_left]

theorem reads_null : Reads ['n', 'u', 'l', 'l'] .null := by
  refine readValue_of_read rfl (by decide) fun fuel rest _ _ => ?_
  have hnull := readWord_append ['n', 'u', 'l', 'l'] rest
  rw [readValue, if_neg (by simp), if_neg (by simp), if_neg (by simp), readScalar,
    ← cons_append, hnull]

theorem reads_bool (value : Bool) :
    Reads (if value then ['t', 'r', 'u', 'e'] else ['f', 'a', 'l', 's', 'e']) (.bool value) := by
  have hskip : ∀ {c d : Char} {s rest : Str} (word : Str), c ≠ d →
      readWord (c :: word) (d :: (s ++ rest)) = none := fun _ h => readWord_of_head h
  cases value with
  | true =>
    refine readValue_of_read rfl (by decide) fun fuel rest _ _ => ?_
    have htrue := readWord_append ['t', 'r', 'u', 'e'] rest
    rw [readValue, if_neg (by simp), if_neg (by simp), if_neg (by simp), readScalar,
      hskip _ (by decide)]
    dsimp only
    rw [← cons_append, htrue]
  | false =>
    refine readValue_of_read rfl (by decide) fun fuel rest _ _ => ?_
    have hfalse := readWord_append ['f', 'a', 'l', 's', 'e'] rest
    rw [readValue, if_neg (by simp), if_neg (by simp), if_neg (by simp), readScalar,
      hskip _ (by decide)]
    dsimp only
    rw [hskip _ (by decide)]
    dsimp only
    rw [← cons_append, hfalse]

/-! ### Arrays and objects -/

theorem Reads.skip_append {text w : Str} {value : Json} (h : Reads text value) (hw : Blank w)
    (rest : Str) : skip (w ++ (text ++ rest)) = text ++ rest := by
  obtain ⟨c, s, rfl, hc, -⟩ := h.starts
  exact JsonText.skip_append hw hc (s ++ rest)

/-- A text that is read as the items of an array, its closing bracket included. -/
structure ReadsItems (text : Str) (items : List Json) : Prop where
  starts : ∀ rest, ∃ c s, skip (text ++ rest) = c :: s ∧ c ≠ ']'
  reads : ∀ fuel rest, 2 * text.length ≤ fuel → readItems fuel (text ++ rest) = some (items, rest)

section

variable {text tail w w' : Str} {value : Json}

theorem Reads.starts_items (h : Reads text value) (hw : Blank w) (rest : Str) :
    ∃ c s, skip (w ++ (text ++ rest)) = c :: s ∧ c ≠ ']' := by
  obtain ⟨c, s, hs, -, hc⟩ := h.starts
  exact ⟨c, s ++ rest, by rw [h.skip_append hw, hs, cons_append], hc⟩

theorem readsItems_last (h : Reads text value) (hw : Blank w) (hw' : Blank w') :
    ReadsItems (w ++ (text ++ (w' ++ [']']))) [value] where
  starts := by
    intro rest
    rw [append_assoc, append_assoc]
    exact h.starts_items hw _
  reads := by
    intro fuel rest hfuel
    simp only [length_append, length_singleton] at hfuel
    obtain ⟨n, rfl⟩ : ∃ n, fuel = n + 1 := ⟨fuel - 1, by omega⟩
    have hends : Ends (w' ++ ']' :: rest) := ends_append hw' (ends_cons (by decide) []) rest
    simp only [append_assoc, cons_append, nil_append]
    rw [readItems, h.skip_append hw, h.reads n _ (by omega) hends]
    dsimp only
    rw [JsonText.skip_append hw' rfl, if_neg (by simp), if_pos (by simp), tail_cons]

theorem readsItems_cons {items : List Json} (h : Reads text value) (hw : Blank w)
    (hw' : Blank w') (htail : ReadsItems tail items) :
    ReadsItems (w ++ (text ++ (w' ++ ',' :: tail))) (value :: items) where
  starts := by
    intro rest
    rw [append_assoc, append_assoc]
    exact h.starts_items hw _
  reads := by
    intro fuel rest hfuel
    simp only [length_append, length_cons] at hfuel
    obtain ⟨n, rfl⟩ : ∃ n, fuel = n + 1 := ⟨fuel - 1, by omega⟩
    have hends : Ends (w' ++ ',' :: (tail ++ rest)) :=
      ends_append hw' (ends_cons (by decide) []) _
    simp only [append_assoc, cons_append]
    rw [readItems, h.skip_append hw, h.reads n _ (by omega) hends]
    dsimp only
    rw [JsonText.skip_append hw' rfl, if_pos (by simp), tail_cons,
      htail.reads n rest (by omega), Option.map_some]

theorem readsItems_intercalate {values : List Json} {texts : List Str}
    (h : List.Forall₂ Reads texts values) (hne : texts ≠ []) (hw : Blank w) (hw' : Blank w') :
    ReadsItems (w ++ ((',' :: w).intercalate texts ++ (w' ++ [']']))) values := by
  induction h with
  | nil => exact absurd rfl hne
  | cons hfirst hrest ih =>
    cases hrest with
    | nil =>
      rw [intercalate_singleton]
      exact readsItems_last hfirst hw hw'
    | cons hnext hrest =>
      have htail := readsItems_cons hfirst hw blank_nil (ih (cons_ne_nil _ _))
      rw [intercalate_cons_cons]
      simpa only [append_assoc, cons_append, nil_append] using htail

theorem reads_array {items : List Json} (h : ReadsItems text items) :
    Reads ('[' :: text) (.array items) := by
  refine readValue_of_read rfl (by decide) fun fuel rest hfuel _ => ?_
  obtain ⟨c, s, hskip, hc⟩ := h.starts rest
  rw [readValue, if_neg (by simp), if_pos (by simp), tail_cons, hskip, head?_cons,
    if_neg (by simpa using hc), h.reads fuel rest (by omega), Option.map_some]

/-- A text that is read as the members of an object, its closing brace included. -/
structure ReadsMembers (text : Str) (members : List (Str × Json)) : Prop where
  starts : ∀ rest, (skip (text ++ rest)).head? = some '"'
  reads : ∀ fuel rest, 2 * text.length ≤ fuel →
    readMembers fuel (text ++ rest) = some (members, rest)

variable {code : Char → Str} {members : List (Str × Json)}

/-- One member: its name, a colon, and its value after blanks. -/
def memberText (code : Char → Str) (name w text : Str) : Str :=
  '"' :: name.flatMap code ++ '"' :: ':' :: (w ++ text)

theorem skip_member (name : Str) (hw : Blank w) (w' text rest : Str) :
    skip (w ++ (memberText code name w' text ++ rest)) = memberText code name w' text ++ rest :=
  JsonText.skip_append hw rfl _

theorem head?_member (name w text rest : Str) :
    (memberText code name w text ++ rest).head? = some '"' := rfl

theorem readString_member (hcode : ∀ c, Spells (code c) c) (name w text rest : Str) :
    readString .plain (memberText code name w text ++ rest).tail =
      some (name, ':' :: (w ++ (text ++ rest))) := by
  rw [memberText, cons_append, cons_append, tail_cons, append_assoc,
    cons_append, readString_spelled hcode, cons_append, append_assoc]

theorem length_memberText (code : Char → Str) (name w text : Str) :
    text.length + 3 ≤ (memberText code name w text).length := by
  simp only [memberText, length_append, length_cons]
  omega

theorem readsMembers_last (hcode : ∀ c, Spells (code c) c) (name : Str) (h : Reads text value)
    (hw : Blank w) (hw' : Blank w') :
    ReadsMembers (w ++ (memberText code name w' text ++ ['\x7d'])) [(name, value)] where
  starts := by
    intro rest
    rw [append_assoc, append_assoc, skip_member name hw]
    rfl
  reads := by
    intro fuel rest hfuel
    have hlength := length_memberText code name w' text
    simp only [length_append, length_singleton] at hfuel
    obtain ⟨n, rfl⟩ : ∃ n, fuel = n + 1 := ⟨fuel - 1, by omega⟩
    have hends : Ends ('\x7d' :: rest) := ends_cons (by decide) rest
    have hclose : skip ('\x7d' :: rest) = '\x7d' :: rest := skip_self rfl rest
    simp only [append_assoc, cons_append, nil_append]
    rw [readMembers, skip_member name hw, if_pos (head?_member _ _ _ _), readString_member hcode]
    dsimp only
    rw [skip_self rfl, head?_cons, if_pos rfl, tail_cons, h.skip_append hw',
      h.reads n _ (by omega) hends]
    dsimp only
    rw [hclose, head?_cons, if_neg (by simp), if_pos rfl, tail_cons]

theorem readsMembers_cons (hcode : ∀ c, Spells (code c) c) (name : Str) (h : Reads text value)
    (hw : Blank w) (hw' : Blank w') (htail : ReadsMembers tail members) :
    ReadsMembers (w ++ (memberText code name w' text ++ ',' :: tail)) ((name, value) :: members)
    where
  starts := by
    intro rest
    rw [append_assoc, append_assoc, skip_member name hw]
    rfl
  reads := by
    intro fuel rest hfuel
    have hlength := length_memberText code name w' text
    simp only [length_append, length_cons] at hfuel
    obtain ⟨n, rfl⟩ : ∃ n, fuel = n + 1 := ⟨fuel - 1, by omega⟩
    have hends : Ends (',' :: (tail ++ rest)) := ends_cons (by decide) _
    have hcomma : skip (',' :: (tail ++ rest)) = ',' :: (tail ++ rest) := skip_self rfl _
    simp only [append_assoc, cons_append]
    rw [readMembers, skip_member name hw, if_pos (head?_member _ _ _ _), readString_member hcode]
    dsimp only
    rw [skip_self rfl, head?_cons, if_pos rfl, tail_cons, h.skip_append hw',
      h.reads n _ (by omega) hends]
    dsimp only
    rw [hcomma, head?_cons, if_pos rfl, tail_cons, htail.reads n rest (by omega),
      Option.map_some]

/-- A member is written: its name, a colon, a blank, its value. -/
def Member (code : Char → Str) (w : Str) (member : Str × Json) (printed : Str) : Prop :=
  ∃ text, Reads text member.2 ∧ printed = memberText code member.1 w text

theorem readsMembers_intercalate (hcode : ∀ c, Spells (code c) c) {texts : List Str}
    (h : List.Forall₂ (Member code w') members texts) (hne : members ≠ []) {w₀ : Str}
    (hw₀ : Blank w₀) (hw : Blank w) (hw' : Blank w') :
    ReadsMembers (w₀ ++ ((',' :: w).intercalate texts ++ ['\x7d'])) members := by
  induction h generalizing w₀ with
  | nil => exact absurd rfl hne
  | @cons member printed members texts hfirst hrest ih =>
    obtain ⟨text, hreads, rfl⟩ := hfirst
    cases hrest with
    | nil =>
      rw [intercalate_singleton]
      exact readsMembers_last hcode member.1 hreads hw₀ hw'
    | cons hnext hrest =>
      have htail := readsMembers_cons hcode member.1 hreads hw₀ hw'
        (ih (cons_ne_nil _ _) hw)
      rw [intercalate_cons_cons]
      simpa only [append_assoc, cons_append] using htail

theorem reads_object (h : ReadsMembers text members) :
    Reads ('\x7b' :: text) (.object members) := by
  refine readValue_of_read rfl (by decide) fun fuel rest hfuel _ => ?_
  rw [readValue, if_neg (by simp), if_neg (by simp), if_pos (by simp), tail_cons,
    h.starts rest, if_neg (by simp), h.reads fuel rest (by omega), Option.map_some]

end

theorem read_of_reads {text : Str} {value : Json} (h : Reads text value) :
    read text = some value := by
  have hskip : skip text = text := by
    have := h.skip_append (w := []) nofun []
    rwa [append_nil] at this
  have hread := h.reads (2 * text.length) [] (Nat.le_refl _) nofun
  rw [append_nil] at hread
  rw [read, hskip, hread]
  rfl

end Oxyn.JsonText
