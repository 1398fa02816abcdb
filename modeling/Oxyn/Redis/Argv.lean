/-
# `Oxyn.Redis.Argv` — a Redis command line

One private function, `token`, reads one argument; the driver's `parse` goes by it strictly, the
redaction's `commands` leniently.
-/
import Oxyn.Lib.Reading
import Oxyn.Lib.Text
import Oxyn.Lib.Walk
import Oxyn.Query.Scan

namespace Oxyn

open Text Walk List

/-! ## Reading one argument -/

inductive ArgvError where
  | empty
  | unterminated (opened : Nat)
  | gluedQuote (position : Nat)
  | secondCommand (line : Nat)
  | nul
deriving DecidableEq, Repr

/-- Whether a token stops at what `redis-cli` refuses, or reads on. -/
inductive ReadingMode where
  | strict | lenient
deriving DecidableEq, Repr

namespace Argv

/-- `isspace` in the C locale. -/
def isSpace (c : UInt8) : Bool :=
  c == 0x20 || c == 0x09 || c == 0x0a || c == 0x0d || c == 0x0b || c == 0x0c

/-- The blanks that end an argument outside quotes. -/
def endsBare (c : UInt8) : Bool := c == 0x20 || c == 0x0a || c == 0x0d || c == 0x09

def isQuote (c : UInt8) : Bool := c == Byte.doubleQuote || c == Byte.apostrophe

/-- `u8::is_ascii_hexdigit`. -/
def isHexDigit (c : UInt8) : Bool :=
  isAsciiDigit c || (0x41 ≤ c.toNat && c.toNat ≤ 0x46) || (0x61 ≤ c.toNat && c.toNat ≤ 0x66)

def hexValue (digit : UInt8) : UInt8 :=
  if isAsciiDigit digit then digit - 0x30
  else if 0x61 ≤ digit.toNat ∧ digit.toNat ≤ 0x66 then digit - 0x61 + 10
  else if 0x41 ≤ digit.toNat ∧ digit.toNat ≤ 0x46 then digit - 0x41 + 10
  else 0

/-- What an escaped byte stands for, hexadecimal escapes apart. -/
def unescape (next : UInt8) : UInt8 :=
  if next == 0x6e then 0x0a
  else if next == 0x72 then 0x0d
  else if next == 0x74 then 0x09
  else if next == 0x62 then 0x08
  else if next == 0x61 then 0x07
  else next

/-- What `token` keeps: the bytes decoded so far, and the open quote with where it
was opened. -/
structure TokenState where
  current : List UInt8
  quote : Option (UInt8 × Nat)

/-- The state with one more byte decoded. -/
def TokenState.push (s : TokenState) (c : UInt8) : TokenState :=
  { s with current := s.current ++ [c] }

/-- A backslash inside double quotes: what it stands for, and how many bytes behind
it belong to the escape. -/
def escape (rest : List UInt8) : UInt8 × Nat :=
  match rest with
  | [] => (Byte.backslash, 0)
  | 0x78 :: high :: low :: _ =>
    if isHexDigit high && isHexDigit low then (hexValue high * 16 + hexValue low, 3)
    else (unescape 0x78, 1)
  | next :: _ => (unescape next, 1)

/-- The body of `token`: what it reads with where it ends, or why it does not. -/
def tokenTurn (reading : ReadingMode) (i : Nat) (s : TokenState) (c : UInt8)
    (rest : List UInt8) : Turn TokenState (Except ArgvError (List UInt8 × Nat)) :=
  match s.quote with
  | none =>
    if endsBare c then .stop (.ok (s.current, i))
    else if isQuote c then .go 0 { s with quote := some (c, i) }
    else .go 0 (s.push c)
  | some (opening, _) =>
    if opening == Byte.doubleQuote && c == Byte.backslash then
      .go (escape rest).2 (s.push (escape rest).1)
    else if opening == Byte.apostrophe && c == Byte.backslash &&
        rest.head? == some Byte.apostrophe then
      .go 1 (s.push Byte.apostrophe)
    else if c == opening then
      if rest.head?.any (!isSpace ·) then
        match reading with
        | .strict => .stop (.error (.gluedQuote i))
        | .lenient => .go 0 { s with quote := none }
      else .stop (.ok (s.current, i + 1))
    else .go 0 (s.push c)

/-- Where the text ends inside an argument. -/
def tokenEnd (reading : ReadingMode) (i : Nat) (s : TokenState) :
    Except ArgvError (List UInt8 × Nat) :=
  match s.quote, reading with
  | none, _ | some _, .lenient => .ok (s.current, i)
  | some (_, opened), .strict => .error (.unterminated opened)

/-- The argument that starts in the state `s` at `i`, `l` being what is left. -/
def tokenFrom (reading : ReadingMode) (l : List UInt8) (i : Nat) (s : TokenState) :
    Except ArgvError (List UInt8 × Nat) :=
  match walk (tokenTurn reading) l i 0 s with
  | .stopped r => r
  | .off j s' => tokenEnd reading j s'

/-- One argument starting at `start`, and where reading continues. -/
def token (b : List UInt8) (start : Nat) (reading : ReadingMode) :
    Except ArgvError (List UInt8 × Nat) :=
  tokenFrom reading (b.drop start) start ⟨[], none⟩

def blanks (b : List UInt8) (i : Nat) : List UInt8 := (b.drop i).takeWhile isSpace

/-- Where the next argument starts, and how many line breaks are crossed. -/
def skipBlanks (b : List UInt8) (i : Nat) : Nat × Nat :=
  (i + (blanks b i).length, (blanks b i).count 0x0a)

/-! ### Where an argument ends -/

theorem escape_le (rest : List UInt8) : (escape rest).2 ≤ rest.length := by
  unfold escape
  split
  · exact Nat.le_refl 0
  · split <;> simp
  · simp

theorem tokenFrom_nil (reading : ReadingMode) (i : Nat) (s : TokenState) :
    tokenFrom reading [] i s = tokenEnd reading i s := rfl

variable {reading : ReadingMode} {c : UInt8} {rest : List UInt8}

variable {i : Nat} {s : TokenState}

theorem tokenFrom_stop {r : Except ArgvError (List UInt8 × Nat)}
    (h : tokenTurn reading i s c rest = .stop r) : tokenFrom reading (c :: rest) i s = r := by
  rw [tokenFrom, walk_stop h]

/-- What a turn of `token` is, case by case. -/
inductive TokenStep (reading : ReadingMode) (i : Nat) (s : TokenState) (c : UInt8)
    (rest : List UInt8) : Turn TokenState (Except ArgvError (List UInt8 × Nat)) → Prop
  | ends : s.quote = none → endsBare c = true →
      TokenStep reading i s c rest (.stop (.ok (s.current, i)))
  | opens : s.quote = none → endsBare c = false → isQuote c = true →
      TokenStep reading i s c rest (.go 0 { s with quote := some (c, i) })
  | bare : s.quote = none → endsBare c = false → isQuote c = false →
      TokenStep reading i s c rest (.go 0 (s.push c))
  | escaped {k : Nat} : s.quote = some (Byte.doubleQuote, k) → c = Byte.backslash →
      TokenStep reading i s c rest (.go (escape rest).2 (s.push (escape rest).1))
  | apostrophe {k : Nat} : s.quote = some (Byte.apostrophe, k) → c = Byte.backslash →
      rest.head? = some Byte.apostrophe →
      TokenStep reading i s c rest (.go 1 (s.push Byte.apostrophe))
  | refused {k : Nat} : reading = .strict → s.quote = some (c, k) →
      TokenStep reading i s c rest (.stop (.error (.gluedQuote i)))
  | glued {k : Nat} {d : UInt8} : reading = .lenient → s.quote = some (c, k) →
      rest.head? = some d → isSpace d = false →
      TokenStep reading i s c rest (.go 0 { s with quote := none })
  | closes {k : Nat} : s.quote = some (c, k) → (∀ d ∈ rest.head?, isSpace d = true) →
      TokenStep reading i s c rest (.stop (.ok (s.current, i + 1)))
  | inside {o : UInt8} {k : Nat} : s.quote = some (o, k) → c ≠ o →
      ¬ (o = Byte.doubleQuote ∧ c = Byte.backslash) →
      ¬ (o = Byte.apostrophe ∧ c = Byte.backslash ∧ rest.head? = some Byte.apostrophe) →
      TokenStep reading i s c rest (.go 0 (s.push c))

theorem tokenStep (reading : ReadingMode) (i : Nat) (s : TokenState) (c : UInt8)
    (rest : List UInt8) : TokenStep reading i s c rest (tokenTurn reading i s c rest) := by
  unfold tokenTurn
  split
  next hq =>
    split
    next hc => exact .ends hq hc
    next hc =>
      rw [Bool.not_eq_true] at hc
      split
      next hquote => exact .opens hq hc hquote
      next hquote => exact .bare hq hc (by simpa using hquote)
  next o k hq =>
    split
    next h1 =>
      simp only [Bool.and_eq_true, beq_iff_eq] at h1
      obtain ⟨rfl, hc⟩ := h1
      exact .escaped hq hc
    next h1 =>
      simp only [Bool.and_eq_true, beq_iff_eq] at h1
      split
      next h2 =>
        simp only [Bool.and_eq_true, beq_iff_eq] at h2
        obtain ⟨⟨rfl, hc⟩, hhead⟩ := h2
        exact .apostrophe hq hc hhead
      next h2 =>
        simp only [Bool.and_eq_true, beq_iff_eq, and_assoc] at h2
        split
        next hc =>
          obtain rfl : c = o := by simpa using hc
          split
          next hglued =>
            obtain ⟨d, hd, hspace⟩ := (Option.any_eq_true _ _).mp hglued
            cases reading with
            | strict => exact .refused rfl hq
            | lenient => exact .glued rfl hq hd (by simpa using hspace)
          next hblank =>
            refine .closes hq fun d hd => ?_
            rw [Option.mem_def] at hd
            simpa [hd] using hblank
        next hc => exact .inside hq (by simpa using hc) h1 h2

/-- Where an argument ends: at a blank outside quotes, or just after a closing quote
that a blank or the end follows.  A strict reading refuses one that is glued. -/
theorem tokenTurn_stop {t : Except ArgvError (List UInt8 × Nat)}
    (h : tokenTurn reading i s c rest = .stop t) :
    (s.quote = none ∧ endsBare c = true ∧ t = .ok (s.current, i)) ∨
      (∃ k, s.quote = some (c, k)) ∧
        ((∀ d ∈ rest.head?, isSpace d = true) ∧ t = .ok (s.current, i + 1) ∨
          reading = .strict ∧ t = .error (.gluedQuote i)) := by
  have hstep := tokenStep reading i s c rest
  rw [h] at hstep
  cases hstep with
  | ends hq hc => exact .inl ⟨hq, hc, rfl⟩
  | refused hr hq => exact .inr ⟨⟨_, hq⟩, .inr ⟨hr, rfl⟩⟩
  | closes hq hrest => exact .inr ⟨⟨_, hq⟩, .inl ⟨hrest, rfl⟩⟩

theorem skip_le {i n : Nat} {s s' : TokenState}
    (h : tokenTurn reading i s c rest = .go n s') : n ≤ rest.length := by
  have hstep := tokenStep reading i s c rest
  rw [h] at hstep
  cases hstep with
  | opens | bare | glued | inside => exact Nat.zero_le _
  | escaped => exact escape_le rest
  | apostrophe _ _ hhead =>
    cases rest with
    | nil => simp at hhead
    | cons d rest => simp

theorem tokenFrom_go {i n : Nat} {s s' : TokenState} (h : tokenTurn reading i s c rest = .go n s') :
    tokenFrom reading (c :: rest) i s = tokenFrom reading (rest.drop n) (i + (n + 1)) s' := by
  rw [tokenFrom, walk_go h (skip_le h)]
  rfl

theorem tokenFrom_bounds {l : List UInt8} {i j : Nat}
    {v : List UInt8} (h : tokenFrom reading l i s = .ok (v, j)) :
    i ≤ j ∧ j ≤ i + l.length := by
  induction l, i, s using walk_induction (tokenTurn reading) with
  | hnil i s =>
    rw [tokenFrom_nil] at h
    unfold tokenEnd at h
    split at h
    all_goals simp at h
    all_goals simp [h]
  | hstop c rest i s r ht =>
    rw [tokenFrom_stop ht] at h
    subst h
    have : j = i ∨ j = i + 1 := by
      rcases tokenTurn_stop ht with ⟨-, -, hr⟩ | ⟨-, ⟨-, hr⟩ | ⟨-, hr⟩⟩
      · exact .inl (congrArg Prod.snd (Except.ok.inj hr))
      · exact .inr (congrArg Prod.snd (Except.ok.inj hr))
      · simp at hr
    simp only [length_cons]
    omega
  | hgo c rest i s n s' ht ih =>
    rw [tokenFrom_go ht] at h
    have hn := skip_le ht
    have := ih h
    simp only [length_cons, length_drop] at this ⊢
    omega

variable {b : List UInt8}

theorem token_forward {i j : Nat} {v : List UInt8} (hc : b[i]? = some c) (hs : isSpace c = false)
    (h : token b i reading = .ok (v, j)) : i < j ∧ j ≤ b.length := by
  obtain ⟨hlt, rfl⟩ := List.getElem?_eq_some_iff.mp hc
  rw [token, drop_eq_getElem_cons hlt] at h
  have hend : endsBare b[i] = false := by
    simp only [isSpace, Bool.or_eq_false_iff] at hs
    simp [endsBare, hs]
  obtain ⟨s', ht⟩ : ∃ s', tokenTurn reading i ⟨[], none⟩ b[i] (b.drop (i + 1)) = .go 0 s' := by
    simp only [tokenTurn, hend, Bool.false_eq_true, if_false]
    split
    · exact ⟨_, rfl⟩
    · exact ⟨_, rfl⟩
  rw [tokenFrom_go ht] at h
  have hb := tokenFrom_bounds h
  simp only [length_drop] at hb
  omega

/-! ### Blanks -/

theorem isSpace_of_mem_blanks (h : c ∈ blanks b i) :
    isSpace c = true :=
  mem_takeWhile_imp h

theorem drop_blanks (b : List UInt8) (i : Nat) :
    b.drop i = blanks b i ++ b.drop (skipBlanks b i).1 := by
  have h := takeWhile_append_dropWhile (p := isSpace) (l := b.drop i)
  have hdrop : b.drop (skipBlanks b i).1 = (b.drop i).drop (blanks b i).length := by
    rw [drop_drop]
    rfl
  rw [hdrop]
  conv_lhs => rw [← h]
  congr 1
  conv_rhs => rw [← h]
  exact (drop_left' rfl).symm

theorem skipBlanks_le (b : List UInt8) (h : i ≤ b.length) :
    i ≤ (skipBlanks b i).1 ∧ (skipBlanks b i).1 ≤ b.length := by
  have hlen := congrArg List.length (drop_blanks b i)
  simp only [length_drop, length_append] at hlen
  simp only [skipBlanks] at hlen ⊢
  omega

theorem not_space_at (h : b[(skipBlanks b i).1]? = some c) : isSpace c = false := by
  have hdrop : (b.drop (skipBlanks b i).1).head? = some c := by
    rw [head?_drop, h]
  have hrest : b.drop (skipBlanks b i).1 = (b.drop i).dropWhile isSpace := by
    have h1 := drop_blanks b i
    rw [← takeWhile_append_dropWhile (p := isSpace) (l := b.drop i)] at h1
    exact (append_cancel_left h1).symm
  rw [hrest] at hdrop
  have := head?_dropWhile_not isSpace (b.drop i)
  rw [hdrop] at this
  simpa using this

/-! ## The two loops -/

/-- What one turn of either loop reads: the line breaks before the argument, and the
argument or why there is none. -/
structure Read where
  breaks : Nat
  argument : Except ArgvError (List UInt8)

/-- `skip_blanks` and `token`, one after the other.  What is behind an argument that
cannot be read is not looked at. -/
def nextArgument (b : List UInt8) (reading : ReadingMode) (i : Nat) : Option (Item Read) :=
  let (start, breaks) := skipBlanks b i
  if start < b.length then
    match token b start reading with
    | .ok (v, stop) => some ⟨⟨breaks, .ok v⟩, start, stop⟩
    | .error e => some ⟨⟨breaks, .error e⟩, start, b.length⟩
  else none

theorem nextArgument_forward {x : Item Read} (h : nextArgument b reading i = some x) :
    i ≤ x.start ∧ x.start < x.stop ∧ x.stop ≤ b.length := by
  simp only [nextArgument] at h
  split at h
  next hlt =>
    have hle : i ≤ (skipBlanks b i).1 := Nat.le_add_right i _
    split at h
    next v stop ht =>
      obtain rfl := Option.some.inj h
      have hc : b[(skipBlanks b i).1]? = some b[(skipBlanks b i).1] :=
        getElem?_eq_getElem hlt
      exact ⟨hle, token_forward hc (not_space_at hc) ht⟩
    next e ht =>
      obtain rfl := Option.some.inj h
      exact ⟨hle, hlt, Nat.le_refl _⟩
  · simp at h

def argReader (b : List UInt8) (reading : ReadingMode) : Reader Read where
  size := b.length
  next := nextArgument b reading
  forward := nextArgument_forward

/-- One argument of a command: the decoded bytes and the span they are written in. -/
structure Argument where
  bytes : List UInt8
  start : Nat
  stop : Nat
deriving DecidableEq, Repr

end Argv

open Argv

/-- The loop of `parse`. -/
def parseArguments : List (Item Read) → List (List UInt8) → Nat →
    Except ArgvError (List (List UInt8))
  | [], argv, _ => if argv.isEmpty then .error .empty else .ok argv
  | x :: rest, argv, line =>
    let line := line + x.kind.breaks
    if line > 1 ∧ argv ≠ [] then .error (.secondCommand line)
    else
      match x.kind.argument with
      | .error e => .error e
      | .ok v => parseArguments rest (argv ++ [v]) line

def parseArgv (line : Str) : Except ArgvError (List (List UInt8)) :=
  let b := bytes line
  if b.contains 0 then .error .nul
  else parseArguments ((argReader b .strict).items 0) [] 1

structure Grouping where
  commands : List (List Argument)
  current : List Argument

/-- One turn of `commands`. -/
def Grouping.read (g : Grouping) (x : Item Read) : Grouping :=
  match x.kind.argument with
  | .error _ => g
  | .ok v =>
    if x.kind.breaks > 0 ∧ g.current ≠ [] then
      ⟨g.commands ++ [g.current], [⟨v, x.start, x.stop⟩]⟩
    else ⟨g.commands, g.current ++ [⟨v, x.start, x.stop⟩]⟩

def Grouping.finish (g : Grouping) : List (List Argument) :=
  if g.current = [] then g.commands else g.commands ++ [g.current]

/-- Every command of a console text, one a line outside quotes. -/
def argvCommands (text : Str) : List (List Argument) :=
  (((argReader (bytes text) .lenient).items 0).foldl Grouping.read ⟨[], []⟩).finish

end Oxyn
