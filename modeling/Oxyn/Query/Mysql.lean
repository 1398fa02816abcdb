/-
# `Oxyn.Query.Mysql` — the MySQL batch

Two things a lexical profile cannot carry, because they depend on words and not on bytes: the body
of a stored program is one statement, semicolons included, and a `DELIMITER` line is a directive
of the batch that changes what ends a statement.
-/
import Oxyn.Lib.Loop
import Oxyn.Query.Split

namespace Oxyn

open Text Cursor

/-- The scanner, which a caller can steer. What ends a statement is `;` unless a `DELIMITER` line
chose otherwise. -/
structure Scanner where
  sql : Str
  pos : Nat
  profile : SplitProfile
  terminator : Str
deriving DecidableEq, Repr

namespace Scanner

def start (sql : Str) (profile : SplitProfile) : Scanner := ⟨sql, 0, profile, [';']⟩

def next (s : Scanner) : Option (Item Tok × Scanner) :=
  (readAt (bytes s.sql) (bytes s.terminator) s.profile s.pos).map fun x =>
    (x, { s with pos := x.stop })

/-- `t` is `s` some elements further on. -/
structure Ahead (s t : Scanner) : Prop where
  sql : t.sql = s.sql
  profile : t.profile = s.profile
  terminator : t.terminator = s.terminator
  reach : (reader (bytes s.sql) (bytes s.terminator) s.profile).Reach s.pos t.pos

theorem next_eq_some {s t : Scanner} {x : Item Tok} :
    s.next = some (x, t) ↔
      readAt (bytes s.sql) (bytes s.terminator) s.profile s.pos = some x ∧
        t = { s with pos := x.stop } := by
  simp only [next, Option.map_eq_some_iff, Prod.mk.injEq]
  constructor
  · rintro ⟨y, hy, rfl, rfl⟩
    exact ⟨hy, rfl⟩
  · rintro ⟨hx, rfl⟩
    exact ⟨x, hx, rfl, rfl⟩

theorem Ahead.refl (s : Scanner) : Ahead s s := ⟨rfl, rfl, rfl, .refl⟩

theorem Ahead.next {s t u : Scanner} {x : Item Tok} (h : Ahead s t)
    (hx : t.next = some (x, u)) : Ahead s u := by
  obtain ⟨hread, rfl⟩ := next_eq_some.mp hx
  rw [h.sql, h.terminator, h.profile] at hread
  exact ⟨h.sql, h.profile, h.terminator, .step h.reach hread⟩

theorem Ahead.trans {s t u : Scanner} (h : Ahead s t) (hu : Ahead t u) : Ahead s u := by
  have hreach := hu.reach
  rw [h.sql, h.terminator, h.profile] at hreach
  exact ⟨hu.sql.trans h.sql, hu.profile.trans h.profile, hu.terminator.trans h.terminator,
    h.reach.trans hreach⟩

theorem Ahead.pos_le {s t : Scanner} (h : Ahead s t) : s.pos ≤ t.pos := h.reach.le

end Scanner

namespace Mysql

/-! ## The `DELIMITER` directive -/

/-- A `DELIMITER` line: the new terminator, and where the line ends. -/
structure Directive where
  delimiter : Str
  stop : Nat
deriving DecidableEq, Repr

def isAsciiBlank (c : Char) : Bool :=
  c == ' ' || c == '\t' || c == '\n' || c == '\x0c' || c == '\r'

/-- `str::split_ascii_whitespace().next()`. -/
def firstPiece (line : Str) : Option Str :=
  match (line.dropWhile isAsciiBlank).takeWhile (!isAsciiBlank ·) with
  | [] => none
  | piece => some piece

/-- The directive whose `DELIMITER` word is at these bounds, if it is one: first on its line, a
blank behind it; the rest of the line goes with it. -/
def directiveAt (sql : Str) (start stop : Nat) : Option Directive :=
  (get? sql start stop).bind fun word =>
  (get? sql 0 start).bind fun before =>
  (get? sql stop (size sql)).bind fun rest =>
    let line := rest.takeWhile (· != '\n')
    -- the line so far is what follows the last line feed
    if isKeyword word "delimiter" &&
        (bytes (before.rtakeWhile (· != '\n'))).all isAsciiWhitespace &&
        (line.head? == some ' ' || line.head? == some '\t') then
      (firstPiece line).bind fun delimiter =>
        if delimiter.contains (Char.ofNat 0x5c) then none
        else some ⟨delimiter, stop + size line⟩
    else none

theorem directiveAt_spec {sql : Str} {start stop : Nat} {d : Directive}
    (h : directiveAt sql start stop = some d) :
    ∃ word rest, get? sql start stop = some word ∧ isKeyword word "delimiter" = true ∧
      get? sql stop (size sql) = some rest ∧
      d.stop = stop + size (rest.takeWhile (· != '\n')) := by
  unfold directiveAt at h
  simp only [Option.bind_eq_some_iff] at h
  obtain ⟨word, hword, _, _, rest, hrest, h⟩ := h
  split at h
  next hline =>
    obtain ⟨_, _, h⟩ := Option.bind_eq_some_iff.mp h
    split at h
    · simp at h
    · obtain rfl := Option.some.inj h
      simp only [Bool.and_eq_true] at hline
      exact ⟨word, rest, hword, hline.1.1, hrest, rfl⟩
  · simp at h

/-! ## Stored program bodies -/

/-- What the first words of the statement say about it. -/
inductive Header where
  | start
  /-- `CREATE` or `ALTER`, no program keyword yet. -/
  | create
  /-- A stored program, or MariaDB's anonymous block: blocks are counted. -/
  | program
  | other
deriving DecidableEq, Repr

/-- A block open in a body, and what closes it. -/
inductive Frame where
  | begin | caseStatement | caseExpression | if | loop | while | repeat | for
deriving DecidableEq, Repr

/-- The words that open, close or delimit a block. -/
inductive Keyword where
  | begin | case | if | loop | while | repeat | for | end | then | else | do
deriving DecidableEq, Repr

def Frame.closedBy : Frame → Keyword → Bool
  | .caseStatement, .case | .caseExpression, .case => true
  | .if, .if | .loop, .loop | .while, .while | .repeat, .repeat | .for, .for => true
  | _, _ => false

namespace Keyword

def table : List (String × Keyword) :=
  [("begin", .begin), ("case", .case), ("if", .if), ("loop", .loop), ("while", .while),
    ("repeat", .repeat), ("for", .for), ("end", .end), ("then", .then), ("else", .else),
    ("do", .do)]

def ofWord (word : Str) : Option Keyword :=
  (table.find? fun entry => isKeyword word entry.1).map Prod.snd

/-- The word after `END` that names the block it closes. -/
def isQualifier : Keyword → Bool
  | .case | .if | .loop | .while | .repeat | .for => true
  | _ => false

end Keyword

def programs : List String := ["procedure", "function", "trigger", "event"]

structure Body where
  header : Header
  /-- The innermost block first. -/
  frames : List Frame
  /-- A closing word did not match: nothing is closed any more. -/
  confused : Bool
  /-- The next word starts a statement of the body. -/
  statementStart : Bool
deriving DecidableEq, Repr

/-- Does an `IF` or a `REPEAT` open a block here? -/
def opensBlock (atStart : Bool) (scanner : Scanner) (existsClause : Bool) : Bool :=
  if atStart then true
  else
    match scanner.next with
    | some (⟨.symbol, start, _⟩, _) =>
      (bytes scanner.sql)[start]? != some Byte.openParenthesis
    | some (⟨.word, start, stop⟩, _) =>
      let next := (get? scanner.sql start stop).getD []
      !(existsClause && (isKeyword next "exists" || isKeyword next "not"))
    | _ => true

def expect (scanner : Scanner) (keyword : String) : Option Scanner :=
  match scanner.next with
  | some (⟨.word, start, stop⟩, ahead) =>
    if (get? scanner.sql start stop).any (isKeyword · keyword) then some ahead else none
  | _ => none

/-- The scanner past `NOT ATOMIC`, when these two words follow. -/
def skipNotAtomic (scanner : Scanner) : Option Scanner :=
  (expect scanner "not").bind (expect · "atomic")

namespace Body

def empty : Body := ⟨.start, [], false, false⟩

def isOpen (b : Body) : Bool := b.confused || !b.frames.isEmpty

def isProgram (b : Body) : Bool := b.header == .program

def separator (b : Body) : Body := { b with statementStart := true }

def other (b : Body) (colon : Bool) : Body :=
  { b with
    header := if b.header = .start then .other else b.header
    statementStart := colon }

/-- `Body::open`. -/
def push (b : Body) (frame : Frame) (bodyFollows : Bool) : Body :=
  { b with frames := frame :: b.frames, statementStart := bodyFollows }

/-- The block word after `END`, with the scanner past it. -/
def qualifier (scanner : Scanner) : Option (Keyword × Scanner) :=
  match scanner.next with
  | some (⟨.word, start, stop⟩, ahead) =>
    (((get? scanner.sql start stop).bind Keyword.ofWord).filter Keyword.isQualifier).map
      (·, ahead)
  | _ => none

def pop (b : Body) (closes : Bool) : Body :=
  if closes then { b with frames := b.frames.tail } else { b with confused := true }

def close (b : Body) (atStart : Bool) (scanner : Scanner) : Body × Scanner :=
  let top := b.frames.head?
  match qualifier scanner with
  | some (keyword, ahead) => (b.pop (top.any (·.closedBy keyword)), ahead)
  | none =>
    if atStart then (b.pop (top == some .begin), scanner)
    -- the end of a `CASE` expression, or a column named `end`
    else if top == some .caseExpression then (b.pop true, scanner)
    else (b, scanner)

def bodyWord (b : Body) (word : Str) (scanner : Scanner) : Body × Scanner :=
  let atStart := b.statementStart
  let b := { b with statementStart := false }
  match Keyword.ofWord word with
  | none => (b, scanner)
  | some .begin => (b.push .begin true, scanner)
  | some .case =>
    ({ b with
        frames := (if atStart then Frame.caseStatement else Frame.caseExpression) :: b.frames },
      scanner)
  | some .if => (if opensBlock atStart scanner true then b.push .if false else b, scanner)
  | some .repeat =>
    (if opensBlock atStart scanner false then b.push .repeat true else b, scanner)
  | some .loop => (b.push .loop true, scanner)
  | some .while => (b.push .while false, scanner)
  -- `FOR EACH ROW`, `HANDLER FOR`, `CURSOR FOR` are not loops
  | some .for => (if atStart then b.push .for false else b, scanner)
  | some .end => b.close atStart scanner
  | some .then | some .else =>
    ({ b with statementStart := b.frames.head? != some .caseExpression }, scanner)
  | some .do => ({ b with statementStart := true }, scanner)

def firstWord (b : Body) (word : Str) (scanner : Scanner) : Body × Scanner :=
  if isKeyword word "create" || isKeyword word "alter" then
    ({ b with header := .create }, scanner)
  else if isKeyword word "begin" then
    match skipNotAtomic scanner with
    | some ahead =>
      (⟨.program, .begin :: b.frames, b.confused, true⟩, ahead)
    -- `BEGIN` alone, `BEGIN WORK`: a transaction
    | none => ({ b with header := .other }, scanner)
  else ({ b with header := .other }, scanner)

/-- `Body::word`: reads a word, and perhaps the ones the scanner stands before. -/
def word (b : Body) (start stop : Nat) (scanner : Scanner) : Body × Scanner :=
  match get? scanner.sql start stop with
  | none => (b, scanner)
  | some word =>
    match b.header with
    | .start => b.firstWord word scanner
    | .create =>
      if programs.any (isKeyword word) then ({ b with header := .program }, scanner)
      else (b, scanner)
    | .program => b.bodyWord word scanner
    | .other => (b, scanner)

end Body

/-! ### Reading a word moves the scanner forward -/

theorem expect_ahead {s t u : Scanner} {keyword : String} (h : s.Ahead t)
    (hu : expect t keyword = some u) : s.Ahead u := by
  unfold expect at hu
  split at hu
  next hx =>
    split at hu
    · obtain rfl := Option.some.inj hu
      exact h.next hx
    · simp at hu
  · simp at hu

theorem skipNotAtomic_ahead {s t : Scanner} (h : skipNotAtomic s = some t) : s.Ahead t := by
  obtain ⟨u, hu, ht⟩ := Option.bind_eq_some_iff.mp h
  exact expect_ahead (expect_ahead (.refl s) hu) ht

namespace Body

theorem qualifier_ahead {s t : Scanner} {k : Keyword} (h : qualifier s = some (k, t)) :
    s.Ahead t := by
  unfold qualifier at h
  split at h
  next hx =>
    simp only [Option.map_eq_some_iff, Prod.mk.injEq] at h
    obtain ⟨-, -, -, rfl⟩ := h
    exact (Scanner.Ahead.refl s).next hx
  · simp at h

theorem close_ahead (b : Body) (atStart : Bool) (s : Scanner) :
    s.Ahead (b.close atStart s).2 := by
  unfold close
  split
  next hq => exact qualifier_ahead hq
  · split
    · exact .refl s
    · dsimp only
      split <;> exact .refl s

theorem bodyWord_ahead (b : Body) (w : Str) (s : Scanner) : s.Ahead (b.bodyWord w s).2 := by
  unfold bodyWord
  split
  case h_9 => exact close_ahead _ _ s
  all_goals exact .refl s

theorem firstWord_ahead (b : Body) (w : Str) (s : Scanner) : s.Ahead (b.firstWord w s).2 := by
  unfold firstWord
  split
  · exact .refl s
  · split
    · split
      next hs => exact skipNotAtomic_ahead hs
      · exact .refl s
    · exact .refl s

theorem word_ahead (b : Body) (start stop : Nat) (s : Scanner) :
    s.Ahead (b.word start stop s).2 := by
  unfold word
  split
  · exact .refl s
  · split
    · exact firstWord_ahead ..
    · split <;> exact .refl s
    · exact bodyWord_ahead ..
    · exact .refl s

end Body

/-- `lbl:` puts what follows at the start of a statement. -/
def isColon (sql : Str) (x : Item Tok) : Bool :=
  x.kind == .symbol && (bytes sql)[x.start]? == some Byte.colon

/-! ## The loop -/

/-- The variables of the loop of `mysql::split`. -/
structure State where
  scanner : Scanner
  pending : Pending
  body : Body
  fragments : List Fragment
deriving DecidableEq, Repr

namespace State

def initial (sql : Str) : State :=
  ⟨.start sql .mySql, .startingAt 0, .empty, []⟩

def readWord (s : State) (x : Item Tok) : State :=
  let sql := s.scanner.sql
  match directiveAt sql x.start x.stop with
  | some directive =>
    ⟨{ s.scanner with pos := directive.stop, terminator := directive.delimiter },
      .startingAt directive.stop, .empty, s.pending.flush sql x.start false s.fragments⟩
  | none =>
    -- under a custom delimiter a body needs no reading
    let read :=
      if s.scanner.terminator = [';'] then s.body.word x.start x.stop s.scanner
      else (s.body, s.scanner)
    { s with scanner := read.2, pending := s.pending.withCode, body := read.1 }

/-- One turn of the loop, on the element read and the scanner past it. -/
def read (s : State) (x : Item Tok) : State :=
  let sql := s.scanner.sql
  match x.kind with
  | .comment => { s with pending := s.pending.withComment true }
  | .unreadableComment => { s with pending := s.pending.withComment false }
  | .semicolon =>
    if s.body.isOpen then { s with body := s.body.separator }
    else
      { s with
        pending := .startingAt x.stop
        body := .empty
        fragments := s.pending.flush sql x.start true s.fragments }
  | .word => s.readWord x
  | .quoted | .singleQuoted | .symbol =>
    { s with pending := s.pending.withCode, body := s.body.other (isColon sql x) }

def step (s : State) : Option State :=
  s.scanner.next.map fun (x, ahead) => read { s with scanner := ahead } x

def finish (s : State) : List Fragment :=
  s.pending.flush s.scanner.sql (size s.scanner.sql) false s.fragments

theorem step_cases {s t : State} (h : s.step = some t) :
    ∃ x ahead, s.scanner.next = some (x, ahead) ∧ t = read { s with scanner := ahead } x := by
  obtain ⟨⟨x, ahead⟩, hx, rfl⟩ := Option.map_eq_some_iff.mp h
  exact ⟨x, ahead, hx, rfl⟩

theorem readWord_cases (s : State) (x : Item Tok) :
    (∃ d, directiveAt s.scanner.sql x.start x.stop = some d ∧
      s.readWord x = ⟨{ s.scanner with pos := d.stop, terminator := d.delimiter },
        .startingAt d.stop, .empty, s.pending.flush s.scanner.sql x.start false s.fragments⟩) ∨
    (∃ body scanner, s.scanner.Ahead scanner ∧
      s.readWord x = ⟨scanner, s.pending.withCode, body, s.fragments⟩) := by
  cases hd : directiveAt s.scanner.sql x.start x.stop with
  | some d => exact .inl ⟨d, rfl, by simp [readWord, hd]⟩
  | none =>
    refine .inr ?_
    by_cases hterm : s.scanner.terminator = [';']
    · exact ⟨(s.body.word x.start x.stop s.scanner).1, _,
        s.body.word_ahead x.start x.stop s.scanner, by simp [readWord, hd, hterm]⟩
    · exact ⟨s.body, s.scanner, .refl _, by simp [readWord, hd, hterm]⟩

theorem read_forward (s : State) (x : Item Tok) (hx : s.scanner.pos = x.stop) :
    (s.read x).scanner.sql = s.scanner.sql ∧ x.stop ≤ (s.read x).scanner.pos := by
  have hpos : x.stop ≤ s.scanner.pos := Nat.le_of_eq hx.symm
  unfold read
  split
  case h_4 =>
    rcases s.readWord_cases x with ⟨d, hd, h⟩ | ⟨body, scanner, hahead, h⟩
    · obtain ⟨_, _, -, -, -, hstop⟩ := directiveAt_spec hd
      rw [h]
      exact ⟨rfl, hstop ▸ Nat.le_add_right ..⟩
    · rw [h]
      exact ⟨hahead.sql, hx ▸ hahead.pos_le⟩
  case h_3 => split <;> exact ⟨rfl, hpos⟩
  all_goals exact ⟨rfl, hpos⟩

theorem step_forward {s t : State} (h : s.step = some t) :
    t.scanner.sql = s.scanner.sql ∧ s.scanner.pos < size s.scanner.sql ∧
      s.scanner.pos < t.scanner.pos := by
  obtain ⟨x, ahead, hnext, rfl⟩ := step_cases h
  obtain ⟨hread, rfl⟩ := Scanner.next_eq_some.mp hnext
  have hf := reader_forward hread
  have hr := read_forward { s with scanner := { s.scanner with pos := x.stop } } x rfl
  simp only [length_bytes] at hf hr ⊢
  exact ⟨hr.1, by omega, by omega⟩

end State

/-- The loop of `mysql::split`. -/
def batch : Loop State where
  step := State.step
  measure := fun s => size s.scanner.sql - s.scanner.pos
  decreases := fun {s t} h => by
    obtain ⟨hsql, hlt, hpos⟩ := State.step_forward h
    rw [hsql]
    omega

def split (sql : Str) : List Fragment := (batch.final (.initial sql)).finish

end Mysql

/-- Splits a batch into statements. -/
def split (sql : Str) (d : SqlDialect) : List Fragment :=
  if d = .mySql then Mysql.split sql else splitWith sql (.forDialect d)

end Oxyn
