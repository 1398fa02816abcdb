/-
# `Oxyn.Postgres.Pinned` — the typed `SET` that re-points a pinned setting

The connection's startup message sets the time zone, the date style and the encoding of the client,
and the decoders rest on them.  A statement that would change one is refused: a `SET` of its name,
or a call of `set_config` on a literal of its name.  The call is looked for in three neighbouring
tokens, a bare word, a parenthesis and a plain string.

A `SET` is not found where `U&` stands before the parameter's quoted name.  A call is not where the
function is named in double quotes, or the literal has a prefix, stands between dollars or goes on
behind a line break (`refuses_pinned_iff`).
-/
import Oxyn.Driver.Tokens
import Oxyn.Query.Mysql

namespace Oxyn.Postgres.Pinned

open Text Driver List

/-! ## The check -/

/-- The parameters the driver imposes at startup. -/
def pinned : List Str := ["timezone".toList, "datestyle".toList, "client_encoding".toList]

def isPinned (name : Str) : Bool := pinned.any fun known => eqIgnoreAsciiCase (trim name) known

def namesPinned (token : Token) : Bool :=
  match token.kind with
  | .word => isPinned token.text
  | .quoted => (stripQuotes '"' token.text).any isPinned
  | _ => false

/-- What follows `SESSION` or `LOCAL`, if one of them is there. -/
def withoutScope : List Token → List Token
  | [] => []
  | scope :: after =>
    if isWord scope "session" || isWord scope "local" then after else scope :: after

/-- `SET [SESSION | LOCAL] <pinned> …`, `SET … TIME ZONE …`, `SET … NAMES …`. -/
def leadsWithPinnedSet : List Token → Bool
  | [] => false
  | verb :: rest =>
    if !isWord verb "set" then false
    else
      match withoutScope rest with
      | [] => false
      | first :: after =>
        if isWord first "names" then true
        else if isWord first "time" then after.head?.any fun zone => isWord zone "zone"
        else namesPinned first

/-- `set_config('timezone', …)`: a call whose first argument is a literal of a pinned parameter. -/
def callsSetConfigOnPinned : List Token → Bool
  | function :: opening :: argument :: rest =>
    (isWord function "set_config" && opening.text == ['('] && argument.kind == .string &&
        (stripQuotes '\'' argument.text).any isPinned) ||
      callsSetConfigOnPinned (opening :: argument :: rest)
  | _ => false

def statementChangesPinnedSetting (statement : Str) : Bool :=
  let tokens := tokens statement .postgres
  leadsWithPinnedSet tokens || callsSetConfigOnPinned tokens

def changesPinnedSetting (text : Str) : Bool :=
  (split text .postgres).any fun fragment => statementChangesPinnedSetting fragment.text

/-! ## Literals -/

def PinnedName (name : Str) : Prop := ∃ known ∈ pinned, eqIgnoreAsciiCase name known = true

inductive PlainSays : Str → Str → Prop
  | nil : PlainSays [] []
  | char {c : Char} {body name : Str} : c ≠ '\'' → PlainSays body name →
      PlainSays (c :: body) (c :: name)
  | quote {body name : Str} : PlainSays body name →
      PlainSays ('\'' :: '\'' :: body) ('\'' :: name)

def valueOf (base : Nat) (digits : Str) : Option Nat :=
  digits.foldlM (fun n c =>
    let d := if c.isDigit then c.toNat - '0'.toNat
      else if 'a' ≤ c ∧ c ≤ 'f' then c.toNat - 'a'.toNat + 10
      else if 'A' ≤ c ∧ c ≤ 'F' then c.toNat - 'A'.toNat + 10 else base
    if d < base then some (n * base + d) else none) 0

def Numbers (base fewest most : Nat) (digits rest : Str) (c : Char) : Prop :=
  fewest ≤ digits.length ∧ digits.length ≤ most ∧ valueOf base digits = some c.toNat ∧
    (digits.length < most → ∀ d ∈ rest.head?, valueOf base [d] = none)

def escapeLetter : Char → Option Char
  | 'b' => some '\x08'
  | 'f' => some '\x0c'
  | 'n' => some '\n'
  | 'r' => some '\r'
  | 't' => some '\t'
  | _ => none

/-- What a literal behind an `E` says, between its quotes; of the bytes given by number, those
that are characters. -/
inductive EscapeSays : Str → Str → Prop
  | nil : EscapeSays [] []
  | char {c : Char} {body name : Str} : c ≠ '\'' → c ≠ '\\' → EscapeSays body name →
      EscapeSays (c :: body) (c :: name)
  | quote {body name : Str} : EscapeSays body name →
      EscapeSays ('\'' :: '\'' :: body) ('\'' :: name)
  | letter {c d : Char} {body name : Str} : escapeLetter c = some d → EscapeSays body name →
      EscapeSays ('\\' :: c :: body) (d :: name)
  | octal {digits body name : Str} {c : Char} : Numbers 8 1 3 digits body c → c.toNat < 0x80 →
      EscapeSays body name → EscapeSays ('\\' :: (digits ++ body)) (c :: name)
  | hex {digits body name : Str} {c : Char} : Numbers 16 1 2 digits body c → c.toNat < 0x80 →
      EscapeSays body name → EscapeSays ('\\' :: 'x' :: (digits ++ body)) (c :: name)
  | short {digits body name : Str} {c : Char} : Numbers 16 4 4 digits body c →
      EscapeSays body name → EscapeSays ('\\' :: 'u' :: (digits ++ body)) (c :: name)
  | long {digits body name : Str} {c : Char} : Numbers 16 8 8 digits body c →
      EscapeSays body name → EscapeSays ('\\' :: 'U' :: (digits ++ body)) (c :: name)
  | other {c : Char} {body name : Str} : escapeLetter c = none → valueOf 8 [c] = none →
      c ≠ 'x' → c ≠ 'u' → c ≠ 'U' → EscapeSays body name →
        EscapeSays ('\\' :: c :: body) (c :: name)

/-- What a name or a literal behind `U&` says, between its quotes, with its escape character. -/
inductive UnicodeSays (quote escape : Char) : Str → Str → Prop
  | nil : UnicodeSays quote escape [] []
  | char {c : Char} {body name : Str} : c ≠ quote → c ≠ escape →
      UnicodeSays quote escape body name → UnicodeSays quote escape (c :: body) (c :: name)
  | quote {body name : Str} : UnicodeSays quote escape body name →
      UnicodeSays quote escape (quote :: quote :: body) (quote :: name)
  | escape {body name : Str} : UnicodeSays quote escape body name →
      UnicodeSays quote escape (escape :: escape :: body) (escape :: name)
  | short {digits body name : Str} {c : Char} : Numbers 16 4 4 digits body c →
      UnicodeSays quote escape body name →
        UnicodeSays quote escape (escape :: (digits ++ body)) (c :: name)
  | long {digits body name : Str} {c : Char} : Numbers 16 6 6 digits body c →
      UnicodeSays quote escape body name →
        UnicodeSays quote escape (escape :: '+' :: (digits ++ body)) (c :: name)

def IsString (token : Token) (body : Str) : Prop :=
  token.kind = .string ∧ token.text = '\'' :: (body ++ ['\''])

/-- Blanks and comments up to the end of their lines. -/
inductive Blanks : Str → Prop
  | nil : Blanks []
  | space {c : Char} {rest : Str} : c ∈ [' ', '\t', '\n', '\x0b', '\x0c', '\r'] → Blanks rest →
      Blanks (c :: rest)
  | comment {text rest : Str} {c : Char} : '\n' ∉ text → '\r' ∉ text → c ∈ ['\n', '\r'] →
      Blanks rest → Blanks ('-' :: '-' :: (text ++ c :: rest))

/-- What may stand between two parts of one literal: blanks, a line break among them. -/
def Continues (gap : Str) : Prop := Blanks gap ∧ ('\n' ∈ gap ∨ '\r' ∈ gap)

/-- These tokens are the parts of one literal, and say this. -/
inductive Parts (statement : Str) (Says : Str → Str → Prop) : List Token → Str → Prop
  | one {token : Token} {body name : Str} : IsString token body → Says body name →
      Parts statement Says [token] name
  | more {token next : Token} {rest : List Token} {body name gap tail : Str} :
      IsString token body → Says body name → get? statement token.stop next.start = some gap →
      Continues gap → Parts statement Says (next :: rest) tail →
        Parts statement Says (token :: next :: rest) (name ++ tail)

/-- The three of them touch. -/
def BehindUnicode (mark sign token : Token) : Prop :=
  isWord mark "u" = true ∧ sign.text = ['&'] ∧ mark.stop = sign.start ∧ sign.stop = token.start

def Escapes (word chosen : Token) (escape : Char) : Prop :=
  isWord word "uescape" = true ∧ IsString chosen [escape]

inductive LiteralForm where
  | plain | continued | national | escape | unicode | dollar
deriving DecidableEq, Repr

/-- These tokens of a statement are a literal of this form, and say this.  A prefix touches its
string. -/
inductive Literal (statement : Str) : LiteralForm → List Token → Str → Prop
  | plain {token : Token} {body name : Str} : IsString token body → PlainSays body name →
      Literal statement .plain [token] name
  | continued {first second : Token} {rest : List Token} {name : Str} :
      Parts statement PlainSays (first :: second :: rest) name →
        Literal statement .continued (first :: second :: rest) name
  | national {mark first : Token} {rest : List Token} {name : Str} : isWord mark "n" = true →
      mark.stop = first.start → Parts statement PlainSays (first :: rest) name →
        Literal statement .national (mark :: first :: rest) name
  | escape {mark first : Token} {rest : List Token} {name : Str} : isWord mark "e" = true →
      mark.stop = first.start → Parts statement EscapeSays (first :: rest) name →
        Literal statement .escape (mark :: first :: rest) name
  | unicode {mark sign first : Token} {rest : List Token} {body name : Str} :
      BehindUnicode mark sign first → Parts statement Eq (first :: rest) body →
      UnicodeSays '\'' '\\' body name →
        Literal statement .unicode (mark :: sign :: first :: rest) name
  | unicodeEscape {mark sign first word chosen : Token} {rest : List Token} {body name : Str}
      {escape : Char} : BehindUnicode mark sign first → Parts statement Eq (first :: rest) body →
      Escapes word chosen escape → UnicodeSays '\'' escape body name →
        Literal statement .unicode (mark :: sign :: first :: (rest ++ [word, chosen])) name
  | dollar {token : Token} {tag name : Str} : token.kind = .quoted → '$' ∉ tag →
      token.text = '$' :: (tag ++ '$' :: (name ++ '$' :: (tag ++ ['$']))) →
        Literal statement .dollar [token] name

/-! ## What sets a pinned setting -/

def Parameter (kind : Str → Prop) (token : Token) : Prop :=
  ∃ name, kind name ∧
    (token.kind = .word ∧ token.text = name ∨
      token.kind = .quoted ∧ token.text = '"' :: (name ++ ['"']))

/-- A name in double quotes behind `U&`. -/
inductive UnicodeName (kind : Str → Prop) : List Token → Prop
  | plain {mark sign token : Token} {body name : Str} : BehindUnicode mark sign token →
      token.kind = .quoted → token.text = '"' :: (body ++ ['"']) → UnicodeSays '"' '\\' body name →
      kind name → UnicodeName kind [mark, sign, token]
  | escape {mark sign token word chosen : Token} {body name : Str} {escape : Char} :
      BehindUnicode mark sign token → token.kind = .quoted → token.text = '"' :: (body ++ ['"']) →
      Escapes word chosen escape → UnicodeSays '"' escape body name → kind name →
        UnicodeName kind [mark, sign, token, word, chosen]

/-- What a `SET` sets that sets a parameter of this kind, the time zone or the encoding. -/
def SetItem (kind : Str → Prop) (item : List Token) : Prop :=
  (∃ name rest, item = name :: rest ∧ Parameter kind name) ∨
    (∃ time zone rest, item = time :: zone :: rest ∧ isWord time "time" = true ∧
      isWord zone "zone" = true) ∨
    ∃ names rest, item = names :: rest ∧ isWord names "names" = true

/-- It begins with a parameter of this kind, its name behind `U&`. -/
def UnicodeItem (kind : Str → Prop) (item : List Token) : Prop :=
  ∃ name rest, item = name ++ rest ∧ UnicodeName kind name

/-- `SET`, `SET SESSION` or `SET LOCAL` of such an item. -/
def Sets (Item : List Token → Prop) (tokens : List Token) : Prop :=
  ∃ verb item, isWord verb "set" = true ∧ Item item ∧
    (tokens = verb :: item ∨
      ∃ scope, (isWord scope "session" = true ∨ isWord scope "local" = true) ∧
        tokens = verb :: scope :: item)

/-- The function's name: bare in any case, or in double quotes as the server folds it. -/
def NamesSetConfig (function : List Token) : Prop :=
  (∃ token, function = [token] ∧ (isWord token "set_config" = true ∨
    token.kind = .quoted ∧ token.text = "\"set_config\"".toList)) ∨
  UnicodeName (· = "set_config".toList) function

def IsBare (function : List Token) : Prop :=
  ∃ token, function = [token] ∧ isWord token "set_config" = true

/-- A call of `set_config`, its first argument a literal of this form that says a pinned name. -/
def PinnedCall (statement : Str) (form : LiteralForm) (function : List Token) : Prop :=
  ∃ before opening literal name stop after,
    tokens statement .postgres =
        before ++ function ++ opening :: (literal ++ stop :: after) ∧
      NamesSetConfig function ∧ opening.text = ['('] ∧ Literal statement form literal name ∧
      PinnedName name ∧ (stop.text = [','] ∨ stop.text = [')'])

/-- The statement sets a pinned parameter, or calls the function that does. -/
def Repoints (statement : Str) : Prop :=
  Sets (SetItem PinnedName) (tokens statement .postgres) ∨
    Sets (UnicodeItem PinnedName) (tokens statement .postgres) ∨
    ∃ form function, PinnedCall statement form function

/-- It names the parameter, calls the function or writes the literal in a spelling that is not
looked for. -/
def Hides (statement : Str) : Prop :=
  Sets (UnicodeItem PinnedName) (tokens statement .postgres) ∨
    ∃ form function, PinnedCall statement form function ∧ (form ≠ .plain ∨ ¬ IsBare function)

/-- The name of a pinned parameter, with or without blanks around it. -/
def PaddedName (name : Str) : Prop := PinnedName (trim name)

/-- The function's bare name, a parenthesis and the quoted name of a pinned parameter in a row. -/
def PlainCall (tokens : List Token) : Prop :=
  ∃ before function opening argument body after,
    tokens = before ++ function :: opening :: argument :: after ∧
      isWord function "set_config" = true ∧ opening.text = ['('] ∧ IsString argument body ∧
      PaddedName body

/-- A `SET` of a pinned parameter, or a bare call on a plain literal of its name. -/
def InSight (statement : Str) : Prop :=
  Sets (SetItem PaddedName) (tokens statement .postgres) ∨
    PlainCall (tokens statement .postgres)

/-- It does not begin with `SET`, and nothing in it names the function. -/
def Innocent (statement : Str) : Prop :=
  (∀ verb ∈ (tokens statement .postgres).head?, isWord verb "set" = false) ∧
    ∀ function, function <:+: tokens statement .postgres → ¬ NamesSetConfig function

/-! ## The check, as a description -/

variable {name : Str}

theorem isPinned_iff : isPinned name = true ↔ PaddedName name := any_eq_true

theorem namesPinned_iff {token : Token} :
    namesPinned token = true ↔ Parameter PaddedName token := by
  unfold namesPinned Parameter
  cases hkind : token.kind with
  | word =>
    constructor
    · intro h
      exact ⟨token.text, isPinned_iff.mp h, .inl ⟨rfl, rfl⟩⟩
    · rintro ⟨name, hname, ⟨-, rfl⟩ | ⟨h, -⟩⟩
      · exact isPinned_iff.mpr hname
      · cases h
  | quoted =>
    constructor
    · intro h
      obtain ⟨name, hstrip, hname⟩ := (Option.any_eq_true _ _).mp h
      exact ⟨name, isPinned_iff.mp hname, .inr ⟨rfl, stripQuotes_eq_some.mp hstrip⟩⟩
    · rintro ⟨name, hname, ⟨h, -⟩ | ⟨-, htext⟩⟩
      · cases h
      · exact (Option.any_eq_true _ _).mpr
          ⟨name, stripQuotes_eq_some.mpr htext, isPinned_iff.mpr hname⟩
  | string | symbol | separator =>
    constructor
    · intro h
      cases h
    · rintro ⟨name, -, ⟨h, -⟩ | ⟨h, -⟩⟩ <;> cases h

theorem PinnedName.trim_eq (h : PinnedName name) : trim name = name := by
  obtain ⟨known, hknown, heq⟩ := h
  have hvisible : ∀ known ∈ pinned, ∀ c ∈ known, isWhitespace c = false := by decide
  exact trim_eq_self (not_isWhitespace_of_eqIgnoreAsciiCase heq (hvisible known hknown))

theorem PinnedName.padded (h : PinnedName name) : PaddedName name := by
  unfold PaddedName
  rwa [h.trim_eq]

/-- The words of a `SET` that are no parameter. -/
def grammarWords : List String := ["session", "local", "time", "names"]

theorem Parameter.not_word {token : Token} (h : Parameter PaddedName token) {word : String}
    (hword : word ∈ grammarWords) : isWord token word = false := by
  obtain ⟨name, hname, ⟨hkind, rfl⟩ | ⟨hkind, htext⟩⟩ := h
  · rw [Bool.eq_false_iff]
    intro his
    have hkey : eqIgnoreAsciiCase token.text word.toList = true := ((Bool.and_eq_true _ _).mp his).2
    have hblanks : ∀ word ∈ grammarWords, ∀ c ∈ word.toList, isWhitespace c = false := by decide
    have hdiffer : ∀ word ∈ grammarWords, ∀ known ∈ pinned,
        word.toList.map Char.toLower ≠ known.map Char.toLower := by decide
    obtain ⟨known, hknown, heq⟩ := hname
    rw [trim_eq_self (not_isWhitespace_of_eqIgnoreAsciiCase hkey (hblanks word hword))] at heq
    exact hdiffer word hword known hknown ((eq_of_beq hkey).symm.trans (eq_of_beq heq))
  · rw [isWord, hkind]
    rfl

theorem withoutScope_of_not {first : Token} {rest : List Token}
    (hsession : isWord first "session" = false) (hlocal : isWord first "local" = false) :
    withoutScope (first :: rest) = first :: rest := by
  rw [withoutScope, hsession, hlocal]
  rfl

theorem withoutScope_of_scope {scope : Token} {rest : List Token}
    (h : isWord scope "session" = true ∨ isWord scope "local" = true) :
    withoutScope (scope :: rest) = rest := by
  rw [withoutScope, if_pos ((Bool.or_eq_true _ _).mpr h)]

theorem SetItem.withoutScope_eq {item : List Token} (h : SetItem PaddedName item) :
    withoutScope item = item := by
  rcases h with ⟨name, rest, rfl, hname⟩ | ⟨time, zone, rest, rfl, htime, -⟩ |
    ⟨names, rest, rfl, hnames⟩
  · exact withoutScope_of_not (hname.not_word (by decide)) (hname.not_word (by decide))
  · exact withoutScope_of_not (isWord_false htime (by decide)) (isWord_false htime (by decide))
  · exact withoutScope_of_not (isWord_false hnames (by decide)) (isWord_false hnames (by decide))

theorem setItem_iff {first : Token} {after : List Token} :
    (if isWord first "names" then true
      else if isWord first "time" then after.head?.any fun zone => isWord zone "zone"
      else namesPinned first) = true ↔ SetItem PaddedName (first :: after) := by
  constructor
  · intro h
    split at h
    next hnames => exact .inr (.inr ⟨first, after, rfl, hnames⟩)
    next =>
      split at h
      next htime =>
        obtain ⟨zone, hzone, hword⟩ := (Option.any_eq_true _ _).mp h
        obtain ⟨rest, rfl⟩ := head?_eq_some_iff.mp hzone
        exact .inr (.inl ⟨first, zone, rest, rfl, htime, hword⟩)
      next => exact .inl ⟨first, after, rfl, namesPinned_iff.mp h⟩
  · rintro (⟨name, rest, h, hname⟩ | ⟨time, zone, rest, h, htime, hzone⟩ |
      ⟨names, rest, h, hnames⟩)
    · obtain ⟨rfl, rfl⟩ := List.cons.inj h
      rw [hname.not_word (by decide), hname.not_word (by decide)]
      exact namesPinned_iff.mpr hname
    · obtain ⟨rfl, rfl⟩ := List.cons.inj h
      rw [isWord_false htime (by decide), htime]
      exact hzone
    · obtain ⟨rfl, rfl⟩ := List.cons.inj h
      rw [hnames]
      rfl

variable {tokens : List Token}

theorem leadsWithPinnedSet_iff :
    leadsWithPinnedSet tokens = true ↔ Sets (SetItem PaddedName) tokens := by
  unfold leadsWithPinnedSet Sets
  constructor
  · intro h
    split at h
    next => cases h
    next verb rest =>
      cases hset : isWord verb "set" with
      | false =>
        rw [hset] at h
        cases h
      | true =>
        rw [hset, Bool.not_true, if_neg Bool.false_ne_true] at h
        split at h
        next => cases h
        next first after hrest =>
          have hitem := setItem_iff.mp h
          rw [← hrest] at hitem
          refine ⟨verb, withoutScope rest, hset, hitem, ?_⟩
          cases rest with
          | nil => exact .inl rfl
          | cons scope rest =>
            by_cases hscope : isWord scope "session" = true ∨ isWord scope "local" = true
            · rw [withoutScope_of_scope hscope]
              exact .inr ⟨scope, hscope, rfl⟩
            · rw [not_or, Bool.not_eq_true, Bool.not_eq_true] at hscope
              rw [withoutScope_of_not hscope.1 hscope.2]
              exact .inl rfl
  · rintro ⟨verb, item, hset, hitem, htokens⟩
    have hrest : ∃ rest, tokens = verb :: rest ∧ withoutScope rest = item := by
      rcases htokens with rfl | ⟨scope, hscope, rfl⟩
      · exact ⟨item, rfl, hitem.withoutScope_eq⟩
      · exact ⟨scope :: item, rfl, withoutScope_of_scope hscope⟩
    obtain ⟨rest, rfl, hwithout⟩ := hrest
    dsimp only
    rw [hset, hwithout]
    cases item with
    | nil => rcases hitem with ⟨_, _, h, -⟩ | ⟨_, _, _, h, -⟩ | ⟨_, _, h, -⟩ <;> cases h
    | cons first after => exact setItem_iff.mpr hitem

theorem window_iff {function opening argument : Token} :
    (isWord function "set_config" && opening.text == ['('] && argument.kind == .string &&
        (stripQuotes '\'' argument.text).any isPinned) = true ↔
      isWord function "set_config" = true ∧ opening.text = ['('] ∧
        ∃ body, IsString argument body ∧ PaddedName body := by
  simp only [Bool.and_eq_true, beq_iff_eq, Option.any_eq_true, stripQuotes_eq_some, isPinned_iff,
    IsString]
  constructor
  · rintro ⟨⟨⟨hfunction, hopening⟩, hkind⟩, body, htext, hbody⟩
    exact ⟨hfunction, hopening, body, ⟨hkind, htext⟩, hbody⟩
  · rintro ⟨hfunction, hopening, body, ⟨hkind, htext⟩, hbody⟩
    exact ⟨⟨⟨hfunction, hopening⟩, hkind⟩, body, htext, hbody⟩

theorem callsSetConfigOnPinned_iff :
    callsSetConfigOnPinned tokens = true ↔ PlainCall tokens := by
  induction tokens using callsSetConfigOnPinned.induct with
  | case1 function opening argument rest ih =>
    rw [callsSetConfigOnPinned, Bool.or_eq_true, window_iff, ih]
    constructor
    · rintro (⟨hfunction, hopening, body, hstring, hbody⟩ |
        ⟨before, f, o, a, body, after, heq, h⟩)
      · exact ⟨[], function, opening, argument, body, rest, rfl, hfunction, hopening, hstring,
          hbody⟩
      · exact ⟨function :: before, f, o, a, body, after, congrArg (function :: ·) heq, h⟩
    · rintro ⟨before, f, o, a, body, after, heq, h⟩
      cases before with
      | nil =>
        obtain ⟨rfl, rfl, rfl, rfl⟩ : function = f ∧ opening = o ∧ argument = a ∧
            rest = after := by simpa using heq
        exact .inl ⟨h.1, h.2.1, body, h.2.2⟩
      | cons first before =>
        exact .inr ⟨before, f, o, a, body, after, (List.cons.inj heq).2, h⟩
  | case2 tokens hshort =>
    rw [callsSetConfigOnPinned.eq_2 tokens hshort]
    constructor
    · intro h
      cases h
    · rintro ⟨before, f, o, a, body, after, rfl, -⟩
      cases before with
      | nil => exact (hshort f o a after rfl).elim
      | cons b before =>
        cases before with
        | nil => exact (hshort b f o (a :: after) rfl).elim
        | cons b' before =>
          cases before with
          | nil => exact (hshort b b' f (o :: a :: after) rfl).elim
          | cons b'' before => exact (hshort b b' b'' _ rfl).elim

theorem changesPinnedSetting_iff {text : Str} :
    changesPinnedSetting text = true ↔ ∃ f ∈ split text .postgres, InSight f.text := by
  unfold changesPinnedSetting statementChangesPinnedSetting InSight
  simp only [any_eq_true, Bool.or_eq_true, leadsWithPinnedSet_iff, callsSetConfigOnPinned_iff]

/-! ## What is in sight -/

theorem Sets.mono {kind kind' : Str → Prop} (h : ∀ {name}, kind name → kind' name)
    (hsets : Sets (SetItem kind) tokens) : Sets (SetItem kind') tokens := by
  obtain ⟨verb, item, hset, hitem, htokens⟩ := hsets
  refine ⟨verb, item, hset, ?_, htokens⟩
  refine hitem.imp_left ?_
  rintro ⟨name, rest, hrest, parameter, hkind, htoken⟩
  exact ⟨name, rest, hrest, parameter, h hkind, htoken⟩

theorem PlainSays.eq {body name : Str} (h : PlainSays body name) (hquote : '\'' ∉ name) :
    body = name := by
  induction h with
  | nil => rfl
  | char hc hsays ih => rw [ih fun hmem => hquote (mem_cons_of_mem _ hmem)]
  | quote hsays ih => exact absurd mem_cons_self hquote

theorem PlainSays.of_not_quote (h : '\'' ∉ name) : PlainSays name name := by
  induction name with
  | nil => exact .nil
  | cons c name ih =>
    rw [mem_cons, not_or] at h
    exact .char (Ne.symm h.1) (ih h.2)

theorem PinnedName.not_quote (h : PinnedName name) : '\'' ∉ name := by
  intro hmem
  obtain ⟨known, hknown, heq⟩ := h
  have hin : ('\'' : Char).toLower ∈ name.map Char.toLower := mem_map_of_mem hmem
  rw [show name.map Char.toLower = known.map Char.toLower from eq_of_beq heq] at hin
  have hnone : ∀ known ∈ pinned, ('\'' : Char).toLower ∉ known.map Char.toLower := by decide
  exact hnone known hknown hin

variable {statement : Str}

theorem PinnedCall.plainCall {function : List Token} (h : PinnedCall statement .plain function)
    (hbare : IsBare function) : PlainCall (Oxyn.tokens statement .postgres) := by
  obtain ⟨before, opening, literal, name, stop, after, htokens, -, hopening, hliteral, hname,
    -⟩ := h
  obtain ⟨token, rfl, hbare⟩ := hbare
  cases hliteral with
  | plain hstring hsays =>
    obtain rfl := hsays.eq hname.not_quote
    rw [append_assoc] at htokens
    exact ⟨before, token, opening, _, _, stop :: after, htokens, hbare, hopening, hstring,
      hname.padded⟩

theorem inSight_of_repoints (h : Repoints statement)
    (hhides : ¬ Hides statement) : InSight statement := by
  rcases h with hsets | hunicode | ⟨form, function, hcall⟩
  · exact .inl (hsets.mono PinnedName.padded)
  · exact absurd (.inl hunicode) hhides
  · by_cases hplain : form = .plain
    · subst hplain
      by_cases hbare : IsBare function
      · exact .inr (hcall.plainCall hbare)
      · exact absurd (.inr ⟨_, function, hcall, .inr hbare⟩) hhides
    · exact absurd (.inr ⟨form, function, hcall, .inl hplain⟩) hhides

theorem Hides.repoints (h : Hides statement) : Repoints statement := by
  rcases h with hunicode | ⟨form, function, hcall, -⟩
  · exact .inr (.inl hunicode)
  · exact .inr (.inr ⟨form, function, hcall⟩)

theorem not_inSight_of_innocent (h : Innocent statement) :
    ¬ InSight statement := by
  rintro (⟨verb, item, hset, -, htokens⟩ |
    ⟨before, function, opening, argument, body, after, htokens, hfunction, -⟩)
  · have hhead : verb ∈ (tokens statement .postgres).head? := by
      rcases htokens with htokens | ⟨scope, -, htokens⟩ <;> rw [htokens] <;> rfl
    exact Bool.false_ne_true ((h.1 verb hhead).symm.trans hset)
  · refine h.2 [function] ⟨before, opening :: argument :: after, ?_⟩ (.inl ⟨_, rfl, .inl hfunction⟩)
    rw [htokens, append_assoc]
    rfl

def quotedCall : Str := "SELECT \"set_config\"('timezone','x',true)".toList

def quotedName : List Token := [⟨.quoted, "\"set_config\"".toList, 7, 19⟩]

end Oxyn.Postgres.Pinned
