/-
# `Oxyn.Mysql.Pinned` — the typed `SET` that re-points a pinned setting

The driver rests on the time zone and the character sets it sets when it connects, and refuses the
statements that would change them.  It reads the assignment list of a `SET` far enough to tell a
target from its value: an assignment ends at a comma outside parentheses, its target at its first
`=` or `:=`.

A list whose parentheses are closed is cut into its assignments (`Brackets.pieces_of_listed`), so
an assignment of a pinned variable is found at each position.  What is not found is an item that is
none, `NAMES` or a character set, behind another one, what stands behind a `FOR` within the values
of a `SET STATEMENT`, and what an executable comment within another one holds (`Hidden`).
-/
import Oxyn.Driver.Tokens
import Oxyn.Lib.Brackets
import Oxyn.Query.Classify

namespace Oxyn.Mysql

open Text Driver List

/-! ## The check -/

/-- The system variables a decoder rests on. -/
def pinned : List Str :=
  ["time_zone".toList, "character_set_results".toList, "character_set_client".toList,
    "character_set_connection".toList, "collation_connection".toList]

/-- `=`, or the `:` of `:=`: the scanner gives one symbol per byte. -/
def startsAssignment (token : Token) : Bool :=
  token.kind == .symbol && (token.text == ['='] || token.text == [':'])

/-- The name inside backticks or double quotes. -/
def unquote (quoted : Str) : Option Str := ['`', '"'].findSome? fun quote => stripQuotes quote quoted

def nameOf (token : Token) : Option Str :=
  match token.kind with
  | .word => some token.text
  | .quoted => unquote token.text
  | _ => none

def isPinned (token : Token) : Bool :=
  (nameOf token).any fun name => pinned.any fun known => eqIgnoreAsciiCase name known

/-- Does an assignment target name a pinned system variable?  `@name` is a user variable. -/
def namesPinned (target : List Token) : Bool :=
  let at' := fun index : Nat => target[index]?.any fun token => token.text == ['@']
  if at' 0 && !at' 1 then false else target.any isPinned

/-- What the cut of an assignment list goes by. -/
def listMarks : Brackets.Marks Token where
  opens token := token.text == ['(']
  closes token := token.text == [')']
  separates token := token.text == [',']
  closes_of_opens token h := by rw [eq_of_beq h]; rfl
  separates_of_opens token h := by rw [eq_of_beq h]; rfl
  separates_of_closes token h := by rw [eq_of_beq h]; rfl

/-- What precedes the first `=` or `:=`. -/
def targetOf (assignment : List Token) : List Token :=
  assignment.takeWhile fun token => !startsAssignment token

def assignments (list : List Token) : List (List Token) :=
  (Brackets.pieces listMarks 0 list).map targetOf

def leadsWithNames (rest : List Token) : Bool :=
  let is := fun (index : Nat) (expected : String) =>
    rest[index]?.any fun token => isWord token expected
  is 0 "names" || is 0 "charset" || (is 0 "character" && is 1 "set")

/-- The assignment list behind the `SET`: MariaDB's `SET STATEMENT … FOR` ends it at the `FOR`. -/
def assignmentList (rest : List Token) : List Token :=
  match rest with
  | first :: list =>
    if isWord first "statement" && !list.head?.any startsAssignment then
      list.takeWhile fun token => !isWord token "for"
    else rest
  | [] => []

def statementChangesPinnedSetting (statement : Str) : Bool :=
  match tokens statement .mySql with
  | [] => false
  | verb :: rest =>
    if !isWord verb "set" then false
    else if leadsWithNames rest then true
    else (assignments (assignmentList rest)).any namesPinned

/-- Does a statement of the text re-point a setting the driver pinned?  The text is read as the
server runs it, and as typed. -/
def changesPinnedSetting (text : Str) : Bool :=
  let anyStatement := fun text =>
    (Oxyn.split text .mySql).any fun fragment => statementChangesPinnedSetting fragment.text
  anyStatement (runnableText text .mySql) || anyStatement text

/-! ## What sets a pinned setting -/

/-- The spellings of a name: bare, or between backticks or double quotes. -/
def Spells (token : Token) (name : Str) : Prop :=
  token.kind = .word ∧ token.text = name ∨
    token.kind = .quoted ∧ ∃ quote ∈ ['`', '"'], token.text = quote :: (name ++ [quote])

def PinnedName (token : Token) : Prop :=
  ∃ name, Spells token name ∧ ∃ known ∈ pinned, eqIgnoreAsciiCase name known = true

/-- What says for whom a variable is set. -/
def IsScope (token : Token) : Prop :=
  ∃ name, Spells token name ∧
    ∃ scope ∈ ["global", "session", "local", "persist", "persist_only"], isKeyword name scope = true

def IsAt (token : Token) : Prop := token.text = ['@']

/-- The spellings of a pinned variable as a target: `v`, `SCOPE v`, `@@v` and `@@scope.v`. -/
inductive PinnedTarget : List Token → Prop
  | plain {name : Token} : PinnedName name → PinnedTarget [name]
  | withScope {scope name : Token} : IsScope scope → PinnedName name → PinnedTarget [scope, name]
  | system {a b name : Token} : IsAt a → IsAt b → PinnedName name → PinnedTarget [a, b, name]
  | systemScoped {a b scope dot name : Token} : IsAt a → IsAt b → IsScope scope →
      dot.text = ['.'] → PinnedName name → PinnedTarget [a, b, scope, dot, name]

/-- `NAMES`, `CHARSET` or `CHARACTER SET`, and what follows. -/
inductive NamesItem : List Token → Prop
  | names {word : Token} (rest : List Token) : isWord word "names" = true → NamesItem (word :: rest)
  | charset {word : Token} (rest : List Token) :
      isWord word "charset" = true → NamesItem (word :: rest)
  | characterSet {word word' : Token} (rest : List Token) : isWord word "character" = true →
      isWord word' "set" = true → NamesItem (word :: word' :: rest)

def IsSymbol (token : Token) (c : Char) : Prop := token.kind = .symbol ∧ token.text = [c]

/-- `=` or `:=`. -/
inductive Assigns : List Token → Prop
  | equals {sign : Token} : IsSymbol sign '=' → Assigns [sign]
  | colon {sign sign' : Token} : IsSymbol sign ':' → IsSymbol sign' '=' → Assigns [sign, sign']

def PinnedAssignment (item : List Token) : Prop :=
  ∃ target operator value, item = target ++ (operator ++ value) ∧ PinnedTarget target ∧
    Assigns operator

/-- The two forms of a `SET`. -/
inductive SetForm where
  | plain | statement
deriving DecidableEq, Repr

/-- What stands outside parentheses in an item: no comma, and no `FOR` that would end the list. -/
def SetForm.top (form : SetForm) (token : Token) : Prop :=
  listMarks.separates token = false ∧ (form = .statement → isWord token "for" = false)

/-- Behind `SET STATEMENT`, and not behind a variable of that name. -/
def NoSign (list : List Token) : Prop :=
  ∀ token ∈ list.head?, ¬ IsSymbol token '=' ∧ ¬ IsSymbol token ':'

/-- A `SET` of these items: `SET item, …`, or `SET STATEMENT item, … FOR …`. -/
inductive SetOf (statement : Str) : SetForm → List (List Token) → Prop
  | plain {verb : Token} {list : List Token} {items : List (List Token)} :
      tokens statement .mySql = verb :: list → isWord verb "set" = true →
      (∀ first rest, list = first :: rest → isWord first "statement" = true → ¬ NoSign rest) →
      Brackets.Listed listMarks (SetForm.top .plain) items list → SetOf statement .plain items
  | statement {verb word last : Token} {list rest : List Token} {items : List (List Token)} :
      tokens statement .mySql = verb :: word :: (list ++ last :: rest) →
      isWord verb "set" = true → isWord word "statement" = true → NoSign (list ++ last :: rest) →
      isWord last "for" = true →
      Brackets.Listed listMarks (SetForm.top .statement) items list → SetOf statement .statement items

/-- A `SET` one item of which sets a pinned setting. -/
def Repoints (statement : Str) : Prop :=
  ∃ form items, SetOf statement form items ∧ ∃ item ∈ items, NamesItem item ∨ PinnedAssignment item

/-- An item that stands where it is not looked for: character sets elsewhere than first, and
assignments behind a `FOR`. -/
def HiddenAt (form : SetForm) (before : List (List Token)) (item : List Token) : Prop :=
  NamesItem item ∧ (form = .statement ∨ before ≠ []) ∨
    PinnedAssignment item ∧ form = .statement ∧
      ∃ other ∈ before, ∃ token ∈ other, isWord token "for" = true

def Hides (statement : Str) : Prop :=
  ∃ form before item after, SetOf statement form (before ++ item :: after) ∧
    HiddenAt form before item

/-- A `SET` that sets a pinned setting by an item that is not hidden. -/
def Shows (statement : Str) : Prop :=
  ∃ form before item after, SetOf statement form (before ++ item :: after) ∧
    (NamesItem item ∨ PinnedAssignment item) ∧ ¬ HiddenAt form before item

/-- A target that is a user variable, or names no pinned variable. -/
def Harmless (target : List Token) : Prop :=
  (∃ sign name rest, target = sign :: name :: rest ∧ IsAt sign ∧ ¬ IsAt name) ∨
    ∀ token ∈ target, ¬ PinnedName token

/-- No statement but a `SET` sets anything, and a `SET` only assigns what is harmless, to any
value. -/
def OnlyReads (statement : Str) : Prop :=
  (∀ verb rest, tokens statement .mySql = verb :: rest → isWord verb "set" = false) ∨
    ∃ form items, SetOf statement form items ∧ ∀ item ∈ items, ¬ NamesItem item ∧
      ∃ target operator value, item = target ++ (operator ++ value) ∧ Harmless target ∧
        (∀ token ∈ target, ¬ IsSymbol token '=' ∧ ¬ IsSymbol token ':') ∧ Assigns operator

/-- The text with the executable comments of the text before it read as code: one may hold
another. -/
def readAsCode : Nat → Str → Str
  | 0, text => text
  | n + 1, text => readAsCode n (runnableText text .mySql)

def statementsAt (n : Nat) (text : Str) : List Str :=
  (Oxyn.split (readAsCode n text) .mySql).map Fragment.text

/-- The statements of the text as typed, and once its executable comments are read as code. -/
def StatementOf (text statement : Str) : Prop := ∃ n, statement ∈ statementsAt n text

/-- An item stands where it is not looked for, or in a statement that only an executable comment
within another one holds. -/
def Hidden (text : Str) : Prop :=
  ∃ n, ∃ s ∈ statementsAt n text,
    Hides s ∨ Repoints s ∧ s ∉ statementsAt 0 text ∧ s ∉ statementsAt 1 text

def Sighted (text : Str) : Prop :=
  ∃ s, (s ∈ statementsAt 0 text ∨ s ∈ statementsAt 1 text) ∧ Shows s

/-! ## The check, as a description -/

variable {statement : Str}

/-- What refuses a statement: a `SET` that begins with character sets, or one of whose targets names
a pinned setting. -/
theorem statementChangesPinnedSetting_iff :
    statementChangesPinnedSetting statement = true ↔
      ∃ verb rest, tokens statement .mySql = verb :: rest ∧ isWord verb "set" = true ∧
        (leadsWithNames rest = true ∨
          ∃ target ∈ assignments (assignmentList rest), namesPinned target = true) := by
  unfold statementChangesPinnedSetting
  cases tokens statement .mySql with
  | nil =>
    constructor
    · intro h
      cases h
    · rintro ⟨verb, rest, h, -⟩
      cases h
  | cons verb rest =>
    dsimp only
    cases hverb : isWord verb "set" with
    | false =>
      constructor
      · intro h
        cases h
      · rintro ⟨verb', rest', heq, hset, -⟩
        obtain ⟨rfl, rfl⟩ := List.cons.inj heq
        exact absurd (hverb.symm.trans hset) Bool.false_ne_true
    | true =>
      rw [Bool.not_true, if_neg Bool.false_ne_true]
      constructor
      · intro h
        refine ⟨verb, rest, rfl, hverb, ?_⟩
        split at h
        next hnames => exact .inl hnames
        next => exact .inr (any_eq_true.mp h)
      · rintro ⟨verb', rest', heq, -, hsight⟩
        obtain ⟨rfl, rfl⟩ := List.cons.inj heq
        split
        next => rfl
        next hnames => exact any_eq_true.mpr (hsight.resolve_left hnames)

theorem changesPinnedSetting_iff {text : Str} :
    changesPinnedSetting text = true ↔ ∃ s, (s ∈ statementsAt 0 text ∨ s ∈ statementsAt 1 text) ∧
      statementChangesPinnedSetting s = true := by
  unfold changesPinnedSetting
  rw [Bool.or_eq_true, any_eq_true, any_eq_true]
  constructor
  · rintro (⟨fragment, hmem, hsees⟩ | ⟨fragment, hmem, hsees⟩)
    · exact ⟨fragment.text, .inr (mem_map_of_mem hmem), hsees⟩
    · exact ⟨fragment.text, .inl (mem_map_of_mem hmem), hsees⟩
  · rintro ⟨s, hs | hs, hsees⟩
    · obtain ⟨fragment, hmem, rfl⟩ := mem_map.mp hs
      exact .inr ⟨fragment, hmem, hsees⟩
    · obtain ⟨fragment, hmem, rfl⟩ := mem_map.mp hs
      exact .inl ⟨fragment, hmem, hsees⟩

/-! ## Targets -/

variable {token : Token} {c : Char} {name : Str}

theorem nameOf_iff : nameOf token = some name ↔ Spells token name := by
  have hquoted : unquote token.text = some name ↔
      ∃ quote ∈ ['`', '"'], token.text = quote :: (name ++ [quote]) := by
    unfold unquote
    rw [findSome?_cons, findSome?_cons, findSome?_nil]
    constructor
    · intro h
      split at h
      next hfirst => exact ⟨'`', by simp, stripQuotes_eq_some.mp (hfirst.trans h)⟩
      next =>
        split at h
        next hsecond => exact ⟨'"', by simp, stripQuotes_eq_some.mp (hsecond.trans h)⟩
        next => cases h
    · rintro ⟨quote, hquote, htext⟩
      have hone : quote = '`' ∨ quote = '"' := by simpa using hquote
      obtain rfl | rfl := hone
      · rw [stripQuotes_eq_some.mpr htext]
      · have hnone : stripQuotes '`' token.text = none := by
          rw [htext, stripQuotes, if_neg]
          exact fun h => absurd h.1 (by decide)
        rw [hnone, stripQuotes_eq_some.mpr htext]
  unfold nameOf Spells
  cases token.kind with
  | word => simp
  | quoted => simpa using hquoted
  | _ => simp

theorem isPinned_iff : isPinned token = true ↔ PinnedName token := by
  unfold isPinned PinnedName
  simp only [Option.any_eq_true, any_eq_true, nameOf_iff]

theorem startsAssignment_iff :
    startsAssignment token = true ↔ IsSymbol token '=' ∨ IsSymbol token ':' := by
  unfold startsAssignment IsSymbol
  simp only [Bool.and_eq_true, Bool.or_eq_true, beq_iff_eq, and_or_left]

theorem Assigns.cons {operator : List Token} (h : Assigns operator) :
    ∃ sign rest, operator = sign :: rest ∧ startsAssignment sign = true := by
  cases h with
  | equals hsign => exact ⟨_, [], rfl, startsAssignment_iff.mpr (.inl hsign)⟩
  | colon hsign => exact ⟨_, _, rfl, startsAssignment_iff.mpr (.inr hsign)⟩

theorem leadsWithNames_iff {item : List Token} :
    leadsWithNames item = true ↔ NamesItem item := by
  constructor
  · intro h
    unfold leadsWithNames at h
    cases item with
    | nil => cases h
    | cons word rest =>
      cases rest with
      | nil =>
        have hone : isWord word "names" = true ∨ isWord word "charset" = true := by simpa using h
        exact hone.elim (.names []) (.charset [])
      | cons word' rest =>
        have hone : (isWord word "names" = true ∨ isWord word "charset" = true) ∨
            isWord word "character" = true ∧ isWord word' "set" = true := by simpa using h
        rcases hone with (hnames | hcharset) | ⟨hcharacter, hset⟩
        · exact .names _ hnames
        · exact .charset _ hcharset
        · exact .characterSet _ hcharacter hset
  · intro h
    unfold leadsWithNames
    cases h with
    | names _ hword => simp [hword]
    | charset _ hword => simp [hword]
    | characterSet _ hword hset => simp [hword, hset]

variable {list : List Token}

theorem head?_any_startsAssignment :
    list.head?.any startsAssignment = false ↔ NoSign list := by
  unfold NoSign
  rw [Option.any_eq_false]
  simp only [← not_or, ← startsAssignment_iff, Bool.not_eq_true, Option.mem_def]

theorem Spells.singleton (h : Spells token name) (htext : token.text = [c]) : name = [c] := by
  rcases h with ⟨-, rfl⟩ | ⟨-, quote, -, hquoted⟩
  · exact htext
  · rw [htext] at hquoted
    simp at hquoted

theorem Spells.no_operator (h : Spells token name) : startsAssignment token = false := by
  unfold startsAssignment
  rcases h with ⟨hkind, -⟩ | ⟨hkind, -⟩ <;> rw [hkind] <;> rfl

/-- The marks of a list, and the sign of a user variable. -/
def Mark (c : Char) : Prop := c = '(' ∨ c = ')' ∨ c = ',' ∨ c = '@'

theorem PinnedName.text_ne (h : PinnedName token) (hc : Mark c) :
    token.text ≠ [c] := by
  intro htext
  obtain ⟨name, hname, known, hknown, hpinned⟩ := h
  rw [hname.singleton htext] at hpinned
  have hnone : ∀ known ∈ pinned, eqIgnoreAsciiCase [c] known = false := by
    obtain rfl | rfl | rfl | rfl := hc <;> decide
  exact Bool.false_ne_true ((hnone known hknown).symm.trans hpinned)

theorem IsScope.text_ne (h : IsScope token) (hc : Mark c) :
    token.text ≠ [c] := by
  intro htext
  obtain ⟨name, hname, scope, hscope, hword⟩ := h
  rw [hname.singleton htext] at hword
  have hnone : ∀ scope ∈ ["global", "session", "local", "persist", "persist_only"],
      isKeyword [c] scope = false := by
    obtain rfl | rfl | rfl | rfl := hc <;> decide
  exact Bool.false_ne_true ((hnone scope hscope).symm.trans hword)

structure Neutral (token : Token) : Prop where
  operator : startsAssignment token = false
  opens : listMarks.opens token = false
  closes : listMarks.closes token = false
  separates : listMarks.separates token = false

theorem neutral_of_text (h : token.text = [c]) (hc : c = '@' ∨ c = '.') : Neutral token := by
  obtain rfl | rfl := hc
  · exact ⟨by simp [startsAssignment, h], by simp [listMarks, h], by simp [listMarks, h],
      by simp [listMarks, h]⟩
  · exact ⟨by simp [startsAssignment, h], by simp [listMarks, h], by simp [listMarks, h],
      by simp [listMarks, h]⟩

theorem neutral_of_name (h : Spells token name)
    (hne : ∀ {c}, Mark c → token.text ≠ [c]) : Neutral token :=
  ⟨h.no_operator, beq_eq_false_iff_ne.mpr (hne (.inl rfl)),
    beq_eq_false_iff_ne.mpr (hne (.inr (.inl rfl))),
    beq_eq_false_iff_ne.mpr (hne (.inr (.inr (.inl rfl))))⟩

theorem PinnedName.neutral (h : PinnedName token) : Neutral token := by
  obtain ⟨name, hname, -⟩ := id h
  exact neutral_of_name hname fun hc => h.text_ne hc

theorem IsScope.neutral (h : IsScope token) : Neutral token := by
  obtain ⟨name, hname, -⟩ := id h
  exact neutral_of_name hname fun hc => h.text_ne hc

variable {target : List Token}

theorem PinnedTarget.neutral (h : PinnedTarget target) :
    ∀ token ∈ target, Neutral token := by
  cases h with
  | plain hname => simpa using hname.neutral
  | withScope hscope hname => simpa using ⟨hscope.neutral, hname.neutral⟩
  | system ha hb hname =>
    simpa using ⟨neutral_of_text ha (.inl rfl), neutral_of_text hb (.inl rfl), hname.neutral⟩
  | systemScoped ha hb hscope hdot hname =>
    simpa using ⟨neutral_of_text ha (.inl rfl), neutral_of_text hb (.inl rfl), hscope.neutral,
      neutral_of_text hdot (.inr rfl), hname.neutral⟩

theorem PinnedTarget.names (h : PinnedTarget target) :
    namesPinned target = true := by
  unfold namesPinned
  cases h with
  | plain hname =>
    have hat := beq_eq_false_iff_ne.mpr (hname.text_ne (.inr (.inr (.inr rfl))))
    simp [hat, isPinned_iff.mpr hname]
  | withScope hscope hname =>
    have hat := beq_eq_false_iff_ne.mpr (hscope.text_ne (.inr (.inr (.inr rfl))))
    simp [hat, isPinned_iff.mpr hname]
  | system ha hb hname | systemScoped ha hb hscope hdot hname =>
    simp [show _ = ['@'] from hb, isPinned_iff.mpr hname]

variable {sign : Token}

theorem targetOf_assignment {target value : List Token}
    (htarget : ∀ token ∈ target, startsAssignment token = false)
    (hsign : startsAssignment sign = true) : targetOf (target ++ sign :: value) = target := by
  rw [targetOf, takeWhile_append_of_pos fun token h => by rw [htarget token h]; rfl,
    takeWhile_cons_of_neg (by rw [hsign]; exact Bool.noConfusion), append_nil]

theorem targetOf_prefix {l l' : List Token} (h : l <+: l') : targetOf l <+: targetOf l' := by
  obtain ⟨rest, rfl⟩ := h
  induction l with
  | nil => exact nil_prefix
  | cons token l ih =>
    unfold targetOf at ih ⊢
    rw [cons_append, takeWhile_cons, takeWhile_cons]
    split
    next => exact cons_prefix_cons.mpr ⟨rfl, ih⟩
    next => exact nil_prefix

theorem Harmless.not_names (h : Harmless target) {front : List Token}
    (hfront : front <+: target) : namesPinned front = false := by
  unfold namesPinned
  rcases h with ⟨sign, name, rest, rfl, hsign, hname⟩ | hnone
  · replace hsign : sign.text = ['@'] := hsign
    replace hname : (name.text == ['@']) = false := beq_eq_false_iff_ne.mpr hname
    cases front with
    | nil => rfl
    | cons a front =>
      obtain ⟨rfl, hrest⟩ := cons_prefix_cons.mp hfront
      cases front with
      | nil => simp [hsign]
      | cons b front =>
        obtain ⟨rfl, -⟩ := cons_prefix_cons.mp hrest
        simp [hsign, hname]
  · have hany : front.any isPinned = false :=
      any_eq_false.mpr fun token h => fun hp =>
        hnone token (hfront.subset h) (isPinned_iff.mp hp)
    dsimp only
    split
    next => rfl
    next => exact hany

/-! ## Words -/

theorem isWord_of_startsAssignment (h : startsAssignment token = true)
    (expected : String) : isWord token expected = false := by
  have hkind := eq_of_beq ((Bool.and_eq_true _ _).mp h).1
  rw [isWord, hkind]
  rfl

theorem isWord_of_separates (h : listMarks.separates token = true) :
    isWord token "for" = false := by
  have htext : token.text = [','] := eq_of_beq h
  rw [isWord, htext]
  cases token.kind <;> decide

theorem NamesItem.append {front : List Token} (h : NamesItem front) (back : List Token) :
    NamesItem (front ++ back) := by
  cases h with
  | names rest hword => exact .names (rest ++ back) hword
  | charset rest hword => exact .charset (rest ++ back) hword
  | characterSet rest hword hset => exact .characterSet (rest ++ back) hword hset

theorem NamesItem.of_two {word word' : Token} {rest : List Token}
    (h : NamesItem (word :: word' :: rest)) (other : List Token) :
    NamesItem (word :: word' :: other) := by
  cases h with
  | names _ hword => exact .names _ hword
  | charset _ hword => exact .charset _ hword
  | characterSet _ hword hset => exact .characterSet _ hword hset

theorem NamesItem.of_assignment {target value back : List Token}
    (hsign : startsAssignment sign = true) (h : NamesItem ((target ++ sign :: value) ++ back)) :
    NamesItem (target ++ sign :: value) := by
  cases target with
  | nil =>
    have hno := isWord_of_startsAssignment hsign
    rw [← leadsWithNames_iff] at h
    simp [leadsWithNames, hno] at h
  | cons token target =>
    cases target with
    | nil =>
      have h : NamesItem (token :: sign :: (value ++ back)) := h
      exact h.of_two value
    | cons token' target => exact h.of_two (target ++ sign :: value)

/-! ## What is seen -/

theorem assignmentList_plain
    (h : ∀ first rest, list = first :: rest → isWord first "statement" = true → ¬ NoSign rest) :
    assignmentList list = list := by
  unfold assignmentList
  split
  next first rest =>
    rw [if_neg]
    rw [Bool.and_eq_true, Bool.not_eq_true']
    rintro ⟨hword, hhead⟩
    exact h first rest rfl hword (head?_any_startsAssignment.mp hhead)
  next => rfl

theorem assignmentList_statement {word : Token}
    (hword : isWord word "statement" = true) (hhead : NoSign list) :
    assignmentList (word :: list) = list.takeWhile fun token => !isWord token "for" := by
  unfold assignmentList
  dsimp only
  rw [hword, head?_any_startsAssignment.mpr hhead, Bool.not_false, Bool.true_and, if_pos rfl]

theorem mem_assignments_of_front {front target w : List Token} {before : List (List Token)}
    (hcut : ∀ z, Brackets.pieces listMarks 0 (front ++ z) =
      before ++ Brackets.pieces listMarks 0 z)
    (htarget : ∀ token ∈ target, Neutral token) (hsign : startsAssignment sign = true) :
    target ∈ assignments (front ++ ((target ++ [sign]) ++ w)) := by
  have hplain : Brackets.Balanced listMarks (fun x => listMarks.separates x = false) false
      (target ++ [sign]) := by
    refine Brackets.balanced_of_forall fun token htoken => ?_
    rcases mem_append.mp htoken with htoken | htoken
    · have hneutral := htarget token htoken
      exact ⟨hneutral.opens, hneutral.closes, hneutral.separates⟩
    · rw [mem_singleton.mp htoken]
      rcases startsAssignment_iff.mp hsign with h | h
      · exact ⟨by simp [listMarks, h.2], by simp [listMarks, h.2], by simp [listMarks, h.2]⟩
      · exact ⟨by simp [listMarks, h.2], by simp [listMarks, h.2], by simp [listMarks, h.2]⟩
  rw [assignments, hcut, hplain.pieces_append (fun _ h => h) w fun h => Bool.noConfusion h]
  cases hw : Brackets.pieces listMarks 0 w with
  | nil => exact absurd hw (Brackets.pieces_ne_nil 0 w)
  | cons piece pieces =>
    rw [Brackets.attach_cons_piece, map_append, map_cons, append_assoc,
      singleton_append, targetOf_assignment (fun t h => (htarget t h).operator) hsign]
    exact mem_append_right _ mem_cons_self

variable {form : SetForm}

theorem seen_of_item {before after : List (List Token)} {item : List Token}
    (hset : SetOf statement form (before ++ item :: after))
    (hpinned : NamesItem item ∨ PinnedAssignment item) (hvisible : ¬ HiddenAt form before item) :
    statementChangesPinnedSetting statement = true := by
  have hmem : item ∈ before ++ item :: after := mem_append_right _ mem_cons_self
  rw [statementChangesPinnedSetting_iff]
  cases hset with
  | @plain verb list _ htokens hverb hform hlisted =>
    refine ⟨verb, list, htokens, hverb, ?_⟩
    rcases hpinned with hnames | ⟨target, operator, value, rfl, htarget, hoperator⟩
    · cases before with
      | nil =>
        obtain ⟨back, rfl⟩ := hlisted.head
        exact .inl (leadsWithNames_iff.mpr (hnames.append back))
      | cons first before =>
        exact absurd (.inl ⟨hnames, .inr (cons_ne_nil _ _)⟩) hvisible
    · obtain ⟨sign, rest, rfl, hsign⟩ := hoperator.cons
      refine .inr ⟨target, ?_, htarget.names⟩
      rw [assignmentList_plain hform, assignments,
        Brackets.pieces_of_listed hlisted fun _ h => h.1]
      refine mem_map.mpr ⟨_, hmem, targetOf_assignment ?_ hsign⟩
      exact fun token h => (htarget.neutral token h).operator
  | @statement verb word last list rest _ htokens hverb hword hhead hlast hlisted =>
    rcases hpinned with hnames | ⟨target, operator, value, rfl, htarget, hoperator⟩
    · exact absurd (.inl ⟨hnames, .inl rfl⟩) hvisible
    · have hbefore : ∀ other ∈ before, ∀ token ∈ other, isWord token "for" = false := by
        intro other hother token htoken
        refine Bool.eq_false_iff.mpr fun hfor => hvisible (.inr ⟨?_, rfl, other, hother, token,
          htoken, hfor⟩)
        exact ⟨target, operator, value, rfl, htarget, hoperator⟩
      have hfor := (hlisted.balanced hmem).top_of_plain fun x hx => (htarget.neutral x hx).opens
      obtain ⟨front, back, rfl, hcut, hfront⟩ := hlisted.front (fun _ h => h.1) rfl
      obtain ⟨sign, tail, rfl, hsign⟩ := hoperator.cons
      refine ⟨verb, _, htokens, hverb, .inr ⟨target, ?_, htarget.names⟩⟩
      -- no `FOR` up to the sign: the list that is read goes as far
      have hclear : ∀ token ∈ front ++ (target ++ [sign]), (!isWord token "for") = true := by
        intro token htoken
        rw [Bool.not_eq_true']
        rcases mem_append.mp htoken with htoken | htoken
        · rcases hfront token htoken with ⟨other, hother, hin⟩ | hseparates
          · exact hbefore other hother token hin
          · exact isWord_of_separates hseparates
        · rcases mem_append.mp htoken with htoken | htoken
          · exact (hfor token htoken).2 rfl
          · rw [mem_singleton.mp htoken]
            exact isWord_of_startsAssignment hsign _
      have hsame : front ++ ((target ++ (sign :: tail ++ value)) ++ back) ++ last :: rest =
          (front ++ (target ++ [sign])) ++ (tail ++ (value ++ (back ++ last :: rest))) := by
        simp only [append_assoc, cons_append, nil_append]
      rw [assignmentList_statement hword hhead, hsame, takeWhile_append_of_pos hclear,
        append_assoc]
      exact mem_assignments_of_front hcut htarget.neutral hsign

theorem takeWhile_append_stop {p : Token → Bool} {last : Token} (h : p last = false)
    (list rest : List Token) : (list ++ last :: rest).takeWhile p = list.takeWhile p := by
  induction list with
  | nil => rw [nil_append, takeWhile_cons_of_neg (by rw [h]; exact Bool.noConfusion)]; rfl
  | cons token list ih => rw [cons_append, takeWhile_cons, takeWhile_cons, ih]

theorem OnlyReads.unseen (h : OnlyReads statement) :
    statementChangesPinnedSetting statement = false := by
  refine Bool.eq_false_iff.mpr fun hseen => ?_
  obtain ⟨verb, rest, htokens, hverb, hseen⟩ := statementChangesPinnedSetting_iff.mp hseen
  rcases h with hother | ⟨form, items, hset, hitems⟩
  · exact Bool.false_ne_true ((hother verb rest htokens).symm.trans hverb)
  have hread : ∀ item ∈ items, ∃ target sign value, item = target ++ sign :: value ∧
      Harmless target ∧ (∀ token ∈ target, startsAssignment token = false) ∧
      startsAssignment sign = true := by
    intro item hitem
    obtain ⟨-, target, operator, value, rfl, hharmless, htarget, hoperator⟩ := hitems item hitem
    obtain ⟨sign, tail, rfl, hsign⟩ := hoperator.cons
    refine ⟨target, sign, tail ++ value, rfl, hharmless, fun token h => ?_, hsign⟩
    rw [← Bool.not_eq_true, startsAssignment_iff, not_or]
    exact htarget token h
  have hquiet : ∀ front : List Token, (∃ item ∈ items, front <+: item) →
      namesPinned (targetOf front) = false := by
    rintro front ⟨item, hitem, hfront⟩
    obtain ⟨target, sign, value, rfl, hharmless, htarget, hsign⟩ := hread item hitem
    refine hharmless.not_names ?_
    have hprefix := targetOf_prefix hfront
    rwa [targetOf_assignment htarget hsign] at hprefix
  cases hset with
  | @plain verb' list _ htokens' hverb' hform hlisted =>
    obtain ⟨rfl, rfl⟩ := List.cons.inj (htokens.symm.trans htokens')
    rcases hseen with hnames | ⟨target, htarget, hnamed⟩
    · cases items with
      | nil => cases hlisted
      | cons first items =>
        obtain ⟨back, rfl⟩ := hlisted.head
        obtain ⟨target, sign, value, rfl, -, -, hsign⟩ := hread first mem_cons_self
        exact (hitems _ mem_cons_self).1 (.of_assignment hsign (leadsWithNames_iff.mp hnames))
    · rw [assignmentList_plain hform, assignments,
        Brackets.pieces_of_listed hlisted fun _ h => h.1] at htarget
      obtain ⟨item, hitem, rfl⟩ := mem_map.mp htarget
      exact Bool.false_ne_true ((hquiet item ⟨item, hitem, prefix_rfl⟩).symm.trans hnamed)
  | @statement verb' word last list after _ htokens' hverb' hword hhead hlast hlisted =>
    obtain ⟨rfl, rfl⟩ := List.cons.inj (htokens.symm.trans htokens')
    rcases hseen with hnames | ⟨target, htarget, hnamed⟩
    · unfold leadsWithNames at hnames
      simp [isWord_false hword (show _ ≠ "names".toList.map Char.toLower by decide),
        isWord_false hword (show _ ≠ "charset".toList.map Char.toLower by decide),
        isWord_false hword (show _ ≠ "character".toList.map Char.toLower by decide)] at hnames
    · rw [assignmentList_statement hword hhead,
        takeWhile_append_stop (by rw [hlast]; rfl)] at htarget
      obtain ⟨piece, hpiece, rfl⟩ := mem_map.mp htarget
      have hlonger := Brackets.prefix_of_mem_pieces
        (r := list.dropWhile fun token => !isWord token "for") hpiece
      rw [takeWhile_append_dropWhile, Brackets.pieces_of_listed hlisted fun _ h => h.1]
        at hlonger
      exact Bool.false_ne_true ((hquiet piece hlonger).symm.trans hnamed)

/-! ## What is refused -/

theorem Repoints.hides_or_shows (h : Repoints statement) : Hides statement ∨ Shows statement := by
  obtain ⟨form, items, hset, item, hitem, hpinned⟩ := h
  obtain ⟨before, after, rfl⟩ := append_of_mem hitem
  by_cases hhides : HiddenAt form before item
  · exact .inl ⟨form, before, item, after, hset, hhides⟩
  · exact .inr ⟨form, before, item, after, hset, hpinned, hhides⟩

theorem Sighted.refused {text : Str} (h : Sighted text) : changesPinnedSetting text = true := by
  obtain ⟨s, hs, form, before, item, after, hset, hpinned, hvisible⟩ := h
  exact changesPinnedSetting_iff.mpr ⟨s, hs, seen_of_item hset hpinned hvisible⟩

theorem balanced_plain {form : SetForm} (h : ∀ token ∈ list,
    listMarks.opens token = false ∧ listMarks.closes token = false ∧
      listMarks.separates token = false ∧ isWord token "for" = false) {inside : Bool} :
    Brackets.Balanced listMarks form.top inside list :=
  Brackets.balanced_of_forall fun token htoken => by
    obtain ⟨hopens, hcloses, hseparates, hfor⟩ := h token htoken
    exact ⟨hopens, hcloses, hseparates, fun _ => hfor⟩

/-- A pinned variable between backticks, behind a comma between parentheses. -/
def zoneBehind : Str := "SET @a=(1,2),`time_zone`:=1".toList

def namesBehind : Str := "SET @a=1,NAMES x".toList

/-- What is run is the comment within the comment. -/
def nestedNames : Str := "/*!/*!SET NAMES x*/*/".toList

theorem repoints_names : Repoints "SET NAMES x".toList := by
  have htokens : tokens "SET NAMES x".toList .mySql = ⟨.word, ['S', 'E', 'T'], 0, 3⟩ ::
      [⟨.word, ['N', 'A', 'M', 'E', 'S'], 4, 9⟩, ⟨.word, ['x'], 10, 11⟩] := by
    rw [show "SET NAMES x".toList = _ from toList_of_eq rfl]
    decide
  refine ⟨.plain, _, .plain htokens (by decide) ?_ (.one (balanced_plain (by decide))), _,
    mem_cons_self, .inl (.names _ (by decide))⟩
  intro first rest heq hword
  cases heq
  exact absurd hword (by decide)

end Oxyn.Mysql
