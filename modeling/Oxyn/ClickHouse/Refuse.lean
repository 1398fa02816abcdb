/-
# `Oxyn.ClickHouse.Refuse` — the statements a stateless session refuses

Each request carries everything that decides its meaning, so what only changes the meaning of the
next one is refused: a `USE`, a `SET`, a temporary table, and an assignment of a setting the
driver pins.  The last is found in a flat list of tokens with a memory of one: whether a `SETTINGS`
word was read, and what the token before the current one was.

`assignsPinned_iff` says what that loop looks for as a cut of the list, and `refused_iff` what the
whole check looks for.  The clauses it finds are the plain ones (`Plain`): a point right before the
keyword, an escape in a quoted name, the words `OR REPLACE` before `TEMPORARY`, and words at the
head of the statement that only look like those of a user or a role each hide one.
-/
import Oxyn.ClickHouse.Params
import Oxyn.Query.Boundary
import Oxyn.Query.Classify

namespace Oxyn.ClickHouse

open Text List

/-! ## The check -/

/-- Why a typed `USE` is refused. -/
def contextRefused : Str :=
  ("a typed `USE`: every statement is sent on its own, with the database the session declares, " ++
    "so change it with the context selector").toList

/-- Why a typed `SET` is refused. -/
def setRefused : Str :=
  ("a typed `SET`: every statement is sent on its own, so a setting would not reach the next " ++
    "one; write it in the statement's `SETTINGS` clause " ++
    "(`SELECT … SETTINGS max_execution_time = 60`)").toList

/-- Why a typed `CREATE TEMPORARY TABLE` is refused. -/
def temporaryRefused : Str :=
  ("a temporary table: it lives in an HTTP session, which this driver does not keep, so it " ++
    "would be gone before the next statement; create a table with the `Memory` engine instead").toList

def pinnedRefused : Str :=
  ("a setting the driver pins to read the answer or to stop the statement " ++
    "(`output_format_binary_*`, `send_progress_in_http_headers`, " ++
    "`http_headers_progress_interval_ms`, `wait_end_of_query`, " ++
    "`cancel_http_readonly_queries_on_client_close`, `readonly`): remove it from the " ++
    "statement's `SETTINGS` clause").toList

/-- The settings a statement's own `SETTINGS` clause may not change. -/
def pinned (name : Str) : Bool :=
  let name := name.map Char.toLower
  "output_format_binary_".toList.isPrefixOf name ||
    ["send_progress_in_http_headers".toList, "http_headers_progress_interval_ms".toList,
      "wait_end_of_query".toList, "cancel_http_readonly_queries_on_client_close".toList,
      "readonly".toList].contains name

def nameOf (token : Token) : Option Str :=
  match token.kind with
  | .word => some token.text
  | .quoted => some ((get? token.text 1 (size token.text - 1)).getD [])
  | _ => none

/-- The loop of `assigns_pinned`, over each token and the next one. -/
def assignsFrom : Bool → Str → List Token → Bool
  | inSettings, previous, token :: next :: rest =>
    let qualified := previous == ['.']
    match nameOf token with
    | none => assignsFrom inSettings token.text (next :: rest)
    | some name =>
      if token.kind == .word && !qualified && isKeyword name "settings" then
        assignsFrom true token.text (next :: rest)
      else if inSettings && next.text == ['='] && pinned name then true
      else assignsFrom inSettings token.text (next :: rest)
  | _, _, _ => false

/-- The words no parenthesis follows. -/
def leadingWords (fragment : Str) : List Str :=
  ((words fragment .clickHouse).filter fun word => !word.call).map Word.text

/-- `CREATE`/`ALTER` of a user, a role or a settings profile. -/
def configuresAccess (fragment : Str) : Bool :=
  match (leadingWords fragment).filter fun word =>
      !isKeyword word "or" && !isKeyword word "replace" with
  | verb :: entity :: _ =>
    (isKeyword verb "create" || isKeyword verb "alter") &&
      ["user", "role", "settings", "profile"].any fun kind => isKeyword entity kind
  | _ => false

/-- Whether a statement assigns a pinned setting after a `SETTINGS` keyword. -/
def assignsPinned (fragment : Str) : Bool :=
  !configuresAccess fragment && assignsFrom false [] (tokens fragment .clickHouse)

/-- What is said of one statement, if it is refused. -/
def refusalOf (fragment : Str) : Option Str :=
  if assignsPinned fragment then some pinnedRefused
  else
    match leadingWords fragment with
    | first :: rest =>
      if isKeyword first "set" then some setRefused
      else if isKeyword first "create" && rest.head?.any fun second =>
          isKeyword second "temporary" then some temporaryRefused
      else none
    | [] => none

/-- Refuses what the session cannot carry from one statement to the next, and what would change a
setting the driver pins. -/
def refuseSessionState (text : Str) : Except OxynError Unit :=
  if changesContext text .clickHouse then .error (.notSupported contextRefused)
  else
    match (split text .clickHouse).findSome? fun fragment => refusalOf fragment.text with
    | some refused => .error (.notSupported refused)
    | none => .ok ()

/-! ## What the loop looks for -/

/-- The token is spelled as a pinned setting, between its quotes if it has any. -/
def Spelled (token : Token) : Prop := ∃ name, nameOf token = some name ∧ pinned name = true

/-- A bare `SETTINGS`. -/
def IsSettings (token : Token) : Prop :=
  token.kind = .word ∧ isKeyword token.text "settings" = true

/-- A pinned name stands before an `=`. -/
def Assigned (ts : List Token) : Prop :=
  ∃ between name equals after, ts = between ++ name :: equals :: after ∧ Spelled name ∧
    equals.text = ['=']

/-- The text of the last token, `previous` when there is none. -/
def lastText (previous : Str) (before : List Token) : Str :=
  (before.getLast?.map Token.text).getD previous

/-- A `SETTINGS` word that is not right after a point comes before an assignment of a name spelled
as a pinned one. -/
def PlainClause (previous : Str) (ts : List Token) : Prop :=
  ∃ before keyword rest, ts = before ++ keyword :: rest ∧ IsSettings keyword ∧
    lastText previous before ≠ ['.'] ∧ Assigned rest

section Loop

variable {token next : Token} {rest : List Token} {previous : Str}

theorem assigned_cons : Assigned (token :: next :: rest) ↔
    Spelled token ∧ next.text = ['='] ∨ Assigned (next :: rest) := by
  constructor
  · rintro ⟨between, name, equals, after, h, hname, hequals⟩
    cases between with
    | nil =>
      obtain ⟨rfl, htail⟩ := List.cons.inj h
      obtain ⟨rfl, rfl⟩ := List.cons.inj htail
      exact .inl ⟨hname, hequals⟩
    | cons t between =>
      exact .inr ⟨between, name, equals, after, (List.cons.inj h).2, hname, hequals⟩
  · rintro (⟨hname, hequals⟩ | ⟨between, name, equals, after, h, hname, hequals⟩)
    · exact ⟨[], token, next, rest, rfl, hname, hequals⟩
    · exact ⟨token :: between, name, equals, after, by rw [h]; rfl, hname, hequals⟩

theorem not_assigned_short {ts : List Token} (h : ts.length ≤ 1) : ¬ Assigned ts := by
  rintro ⟨between, name, equals, after, rfl, -, -⟩
  simp only [length_append, length_cons] at h
  omega

theorem lastText_cons (previous : Str) (token : Token) (before : List Token) :
    lastText previous (token :: before) = lastText token.text before := by
  cases before with
  | nil => rfl
  | cons t before =>
    unfold lastText
    rw [getLast?_cons_cons]
    cases h : (t :: before).getLast? with
    | none => simp at h
    | some last => rfl

theorem plainClause_cons : PlainClause previous (token :: rest) ↔
    IsSettings token ∧ previous ≠ ['.'] ∧ Assigned rest ∨ PlainClause token.text rest := by
  constructor
  · rintro ⟨before, keyword, after, h, hkeyword, hlast, hassigned⟩
    cases before with
    | nil =>
      obtain ⟨rfl, rfl⟩ := List.cons.inj h
      exact .inl ⟨hkeyword, hlast, hassigned⟩
    | cons t before =>
      obtain ⟨rfl, rfl⟩ := List.cons.inj h
      rw [lastText_cons] at hlast
      exact .inr ⟨before, keyword, after, rfl, hkeyword, hlast, hassigned⟩
  · rintro (⟨hkeyword, hlast, hassigned⟩ |
      ⟨before, keyword, after, rfl, hkeyword, hlast, hassigned⟩)
    · exact ⟨[], token, rest, rfl, hkeyword, hlast, hassigned⟩
    · refine ⟨token :: before, keyword, after, rfl, hkeyword, ?_, hassigned⟩
      rw [lastText_cons]
      exact hlast

theorem pinned_of_settings {name : Str} (h : isKeyword name "settings" = true) :
    pinned name = false := by
  have hlower : name.map Char.toLower = "settings".toList := by
    unfold isKeyword eqIgnoreAsciiCase at h
    rw [beq_iff_eq] at h
    rw [h]
    decide
  unfold pinned
  rw [hlower]
  decide

theorem assignsFrom_true (previous : Str) (ts : List Token) :
    assignsFrom true previous ts = true ↔ Assigned ts := by
  induction ts generalizing previous with
  | nil => simp [assignsFrom, not_assigned_short]
  | cons token ts ih =>
    cases ts with
    | nil => simp [assignsFrom, not_assigned_short]
    | cons next rest =>
      rw [assigned_cons, assignsFrom]
      cases hname : nameOf token with
      | none =>
        have hno : ¬ Spelled token := by
          rintro ⟨name, h, -⟩
          rw [hname] at h
          cases h
        simp only [ih, hno, false_and, false_or]
      | some name =>
        have hspelled : Spelled token ↔ pinned name = true := by
          unfold Spelled
          simp [hname]
        simp only [hspelled]
        split
        next h =>
          simp only [Bool.and_eq_true] at h
          simp only [ih, pinned_of_settings h.2, Bool.false_eq_true, false_and, false_or]
        next h =>
          split
          next h =>
            simp only [Bool.true_and, Bool.and_eq_true, beq_iff_eq] at h
            simp only [h.1, h.2, and_self, true_or]
          next h =>
            simp only [Bool.true_and, Bool.and_eq_true, beq_iff_eq, not_and] at h
            rw [ih]
            constructor
            · exact .inr
            · rintro (⟨hpinned, hequals⟩ | hassigned)
              · exact absurd hpinned (h hequals)
              · exact hassigned

/-- Before it. -/
theorem assignsFrom_false (previous : Str) (ts : List Token) :
    assignsFrom false previous ts = true ↔ PlainClause previous ts := by
  induction ts generalizing previous with
  | nil =>
    simp only [assignsFrom, Bool.false_eq_true, false_iff]
    rintro ⟨before, keyword, rest, h, -⟩
    simp at h
  | cons token ts ih =>
    rw [plainClause_cons]
    cases ts with
    | nil =>
      simp only [assignsFrom, Bool.false_eq_true, false_iff, not_or, not_and]
      refine ⟨fun _ _ => not_assigned_short (Nat.zero_le 1), ?_⟩
      rintro ⟨before, keyword, rest, h, -⟩
      simp at h
    | cons next rest =>
      rw [assignsFrom]
      cases hname : nameOf token with
      | none =>
        have hno : ¬ IsSettings token := by
          rintro ⟨hkind, -⟩
          unfold nameOf at hname
          rw [hkind] at hname
          cases hname
        simp only [ih, hno, false_and, false_or]
      | some name =>
        have hkeyword : IsSettings token ∧ previous ≠ ['.'] ↔
            (token.kind == .word && !(previous == ['.']) && isKeyword name "settings") =
              true := by
          unfold IsSettings
          simp only [Bool.and_eq_true, beq_iff_eq, Bool.not_eq_true', beq_eq_false_iff_ne]
          constructor
          · rintro ⟨⟨hkind, hsettings⟩, hprevious⟩
            unfold nameOf at hname
            rw [hkind] at hname
            obtain rfl := Option.some.inj hname
            exact ⟨⟨hkind, hprevious⟩, hsettings⟩
          · rintro ⟨⟨hkind, hprevious⟩, hsettings⟩
            unfold nameOf at hname
            rw [hkind] at hname
            obtain rfl := Option.some.inj hname
            exact ⟨⟨hkind, hsettings⟩, hprevious⟩
        rw [← and_assoc, hkeyword]
        simp only
        split
        next h =>
          -- a clause that begins later is assigned too
          simp only [assignsFrom_true, h, true_and]
          constructor
          · exact .inl
          · rintro (hassigned | ⟨before, keyword, after, heq, -, -, between, name', equals,
              last, rfl, hspelled⟩)
            · exact hassigned
            · refine ⟨before ++ keyword :: between, name', equals, last, ?_, hspelled⟩
              rw [heq, append_assoc]
              rfl
        next h =>
          simp only [Bool.false_and, Bool.false_eq_true, if_false, ih, h, false_and,
            false_or]

end Loop

theorem assignsPinned_iff (fragment : Str) : assignsPinned fragment = true ↔
    configuresAccess fragment = false ∧ PlainClause [] (tokens fragment .clickHouse) := by
  unfold assignsPinned
  rw [Bool.and_eq_true, Bool.not_eq_true', assignsFrom_false]

/-! ## What the check looks for -/

/-- A statement the check sees: what it looks for is there to be read. -/
inductive Seen (fragment : Str) : Prop
  | assigns : configuresAccess fragment = false →
      PlainClause [] (tokens fragment .clickHouse) → Seen fragment
  | set {first : Str} {rest : List Str} : leadingWords fragment = first :: rest →
      isKeyword first "set" = true → Seen fragment
  | temporary {first second : Str} {rest : List Str} :
      leadingWords fragment = first :: second :: rest → isKeyword first "create" = true →
        isKeyword second "temporary" = true → Seen fragment

theorem refusalOf_isSome_iff (fragment : Str) :
    (refusalOf fragment).isSome = true ↔ Seen fragment := by
  unfold refusalOf
  constructor
  · intro h
    split at h
    next hpinned =>
      obtain ⟨haccess, hclause⟩ := (assignsPinned_iff fragment).mp hpinned
      exact .assigns haccess hclause
    split at h
    next first rest hwords =>
      split at h
      next hset => exact .set hwords hset
      split at h
      next htemporary =>
        rw [Bool.and_eq_true] at htemporary
        cases rest with
        | nil => exact absurd htemporary.2 (by decide)
        | cons second rest => exact .temporary hwords htemporary.1 htemporary.2
      · cases h
    · cases h
  · intro h
    split
    · rfl
    next hpinned =>
      cases h with
      | assigns haccess hclause =>
        exact absurd ((assignsPinned_iff fragment).mpr ⟨haccess, hclause⟩) hpinned
      | set hwords hset =>
        rw [hwords]
        simp only [hset, if_true, Option.isSome_some]
      | temporary hwords hcreate htemporary =>
        rw [hwords]
        simp only [hcreate, htemporary, head?_cons, Option.any_some, Bool.and_self, if_true]
        split <;> rfl

/-- The text is refused exactly when it changes the context or a statement of it is seen. -/
theorem refused_iff (text : Str) : (∃ e, refuseSessionState text = .error e) ↔
    changesContext text .clickHouse = true ∨ ∃ f ∈ split text .clickHouse, Seen f.text := by
  have hfind : (∃ f ∈ split text .clickHouse, Seen f.text) ↔
      ((split text .clickHouse).findSome? fun f => refusalOf f.text).isSome = true := by
    rw [findSome?_isSome_iff]
    exact exists_congr fun f => and_congr_right fun _ => (refusalOf_isSome_iff f.text).symm
  rw [hfind]
  unfold refuseSessionState
  constructor
  · rintro ⟨e, h⟩
    split at h
    next hcontext => exact .inl hcontext
    split at h
    next refused hsome => exact .inr (by rw [hsome]; rfl)
    · cases h
  · rintro (hcontext | hsome)
    · exact ⟨_, if_pos hcontext⟩
    · obtain ⟨refused, hrefused⟩ := Option.isSome_iff_exists.mp hsome
      split
      · exact ⟨_, rfl⟩
      · rw [hrefused]
        exact ⟨_, rfl⟩

/-! ## What a statement may not do -/

def IsWord (token : Token) (keyword : String) : Prop :=
  token.kind = .word ∧ isKeyword token.text keyword = true

instance (token : Token) (keyword : String) : Decidable (IsWord token keyword) :=
  inferInstanceAs (Decidable (_ ∧ _))

/-- `CREATE` or `ALTER` of a user, a role, a quota or a settings profile. -/
def ConfiguresAccess (ts : List Token) : Prop :=
  ∃ verb replace entity rest, ts = verb :: (replace ++ entity ++ rest) ∧
    (IsWord verb "create" ∨ IsWord verb "alter") ∧
    (replace = [] ∨ ∃ o r, replace = [o, r] ∧ IsWord o "or" ∧ IsWord r "replace") ∧
    ((∃ e, entity = [e] ∧ (IsWord e "user" ∨ IsWord e "role" ∨ IsWord e "quota" ∨
        IsWord e "profile")) ∨
      ∃ s p, entity = [s, p] ∧ IsWord s "settings" ∧ IsWord p "profile")

/-- The last token is the point of a number: digits right before it, none of them the member of a
tuple. -/
def EndsNumber (ts : List Token) : Prop :=
  ∃ front digit more point, ts = front ++ digit :: (more ++ [point]) ∧ point.text = ['.'] ∧
    (digit.kind = .symbol ∧ digit.text.all Char.isDigit = true) ∧
    (∀ t ∈ more, t.kind = .word ∨ t.kind = .symbol ∧ t.text.all Char.isDigit = true) ∧
    (digit :: (more ++ [point])).IsChain (fun a b => a.stop = b.start) ∧
    ∀ last ∈ front.getLast?, last.text ≠ ['.']

/-- What comes next is part of a qualified name: a point that ends no number stands before it. -/
def Qualifies (ts : List Token) : Prop :=
  (∃ front point, ts = front ++ [point] ∧ point.text = ['.']) ∧ ¬ EndsNumber ts

structure Assignment where
  name : Token
  equals : Token
  value : List Token

def Assignment.tokens (a : Assignment) : List Token := a.name :: a.equals :: a.value

inductive Assignments : List Assignment → List Token → Prop
  | one (a : Assignment) : a.equals.text = ['='] → Assignments [a] a.tokens
  | more (a : Assignment) (comma : Token) {as : List Assignment} {ts : List Token} :
      a.equals.text = ['='] → comma.text = [','] → Assignments as ts →
        Assignments (a :: as) (a.tokens ++ comma :: ts)

section Reads

-- the name the server reads in a quoted token, its escapes decoded
variable (reads : Str → Option Str)

/-- The token names a pinned setting: bare in any case, or quoted, as the server reads what stands
between the quotes. -/
def NamesPinned (token : Token) : Prop :=
  token.kind = .word ∧ pinned token.text = true ∨
    token.kind = .quoted ∧ (token.text.head? = some '"' ∨ token.text.head? = some '\x60') ∧
      ∃ name, reads token.text = some name ∧ pinned name = true

/-- A `SETTINGS` keyword behind tokens that do not qualify it, followed by assignments one of
which names a setting. -/
def HoldsClause (qualify : List Token → Prop) (names : Token → Prop) (ts : List Token) : Prop :=
  ∃ before keyword assignments clause after, ts = before ++ keyword :: (clause ++ after) ∧
    IsSettings keyword ∧ ¬ qualify before ∧ Assignments assignments clause ∧
    ∃ a ∈ assignments, names a.name

/-- A `SETTINGS` keyword that is no part of a qualified name, followed by assignments one of which
names a pinned setting. -/
def HoldsPinned : List Token → Prop := HoldsClause Qualifies (NamesPinned reads)

end Reads

/-- `CREATE [OR REPLACE] TEMPORARY TABLE`, and the words between. -/
def CreatesTemporary (replace ts : List Token) : Prop :=
  ∃ create temporary table rest, ts = create :: (replace ++ temporary :: table :: rest) ∧
    IsWord create "create" ∧ IsWord temporary "temporary" ∧ IsWord table "table" ∧
    (replace = [] ∨ ∃ o r, replace = [o, r] ∧ IsWord o "or" ∧ IsWord r "replace")

/-- A statement that would undo what the driver pins, or leave a temporary table behind. -/
def Undoes (reads : Str → Option Str) (fragment : Str) : Prop :=
  ¬ ConfiguresAccess (tokens fragment .clickHouse) ∧
      HoldsPinned reads (tokens fragment .clickHouse) ∨
    ∃ replace, CreatesTemporary replace (tokens fragment .clickHouse)

def KeepsPinned (reads : Str → Option Str) (text : Str) : Prop :=
  ∀ f ∈ split text .clickHouse, Undoes reads f.text → ∃ e, refuseSessionState text = .error e

/-! ### What is plain to see -/

/-- A pinned name as typed: bare, or between quotes without an escape. -/
def PlainName (token : Token) : Prop :=
  token.kind = .word ∧ pinned token.text = true ∨
    token.kind = .quoted ∧ ∃ quote name, (quote = '"' ∨ quote = '\x60') ∧
      token.text = quote :: (name ++ [quote]) ∧ pinned name = true

def EndsInPoint (ts : List Token) : Prop := ∃ last ∈ ts.getLast?, last.text = ['.']

/-- The first word of the tokens but for an `OR`, a `REPLACE` and the names of calls, and what
follows it. -/
inductive Leads : List Token → Token → List Token → Prop
  | here {token : Token} (rest : List Token) : token.kind = .word → Leads (token :: rest) token rest
  | skip {token word : Token} {ts rest : List Token} :
      (token.kind = .word → IsWord token "or" ∨ IsWord token "replace" ∨
        ∃ parenthesis after, ts = parenthesis :: after ∧ parenthesis.text = ['(']) →
      Leads ts word rest → Leads (token :: ts) word rest

/-- The statement looks like one that configures access, from its first words. -/
def LooksLikeAccess (ts : List Token) : Prop :=
  ∃ verb mid entity rest, Leads ts verb mid ∧ Leads mid entity rest ∧
    (IsWord verb "create" ∨ IsWord verb "alter") ∧
    (IsWord entity "user" ∨ IsWord entity "role" ∨ IsWord entity "settings" ∨
      IsWord entity "profile")

/-- A table made by `CREATE TEMPORARY TABLE`, or a pinned setting named as typed in a clause whose
keyword no point precedes. -/
inductive Plain (ts : List Token) : Prop
  | temporary : CreatesTemporary [] ts → Plain ts
  | clause : ¬ LooksLikeAccess ts → HoldsClause EndsInPoint PlainName ts → Plain ts

theorem PlainName.spelled {token : Token} (h : PlainName token) : Spelled token := by
  unfold Spelled nameOf
  rcases h with ⟨hkind, hpinned⟩ | ⟨hkind, quote, name, hquote, htext, hpinned⟩
  · rw [hkind]
    exact ⟨_, rfl, hpinned⟩
  · rw [hkind, htext]
    have hsize : quote.utf8Size = 1 := by obtain rfl | rfl := hquote <;> rfl
    have hget : get? (quote :: (name ++ [quote])) 1 (size (quote :: (name ++ [quote])) - 1) =
        some name := by
      refine get?_eq_some.mpr ⟨[quote], [quote], by simp, by simp [hsize], ?_⟩
      simp only [size_cons, size_append, size_nil, hsize]
      omega
    exact ⟨name, by simp only [hget, Option.getD_some], hpinned⟩

theorem assigned_of_assignments {assignments : List Assignment} {clause : List Token}
    (h : Assignments assignments clause) {a : Assignment} (ha : a ∈ assignments)
    (hname : Spelled a.name) (after : List Token) : Assigned (clause ++ after) := by
  induction h with
  | one b hequals =>
    obtain rfl := mem_singleton.mp ha
    exact ⟨[], a.name, a.equals, a.value ++ after, rfl, hname, hequals⟩
  | @more b comma as ts hequals hcomma hrest ih =>
    rcases mem_cons.mp ha with rfl | ha
    · refine ⟨[], a.name, a.equals, a.value ++ comma :: (ts ++ after), ?_, hname, hequals⟩
      simp [Assignment.tokens]
    · obtain ⟨between, name, equals, last, heq, hspelled⟩ := ih ha
      refine ⟨b.tokens ++ comma :: between, name, equals, last, ?_, hspelled⟩
      rw [append_assoc, cons_append, heq]
      simp

/-- The loop finds a clause that is plain to see, wherever it stands. -/
theorem plainClause_of_clause {ts : List Token} (h : HoldsClause EndsInPoint PlainName ts) :
    PlainClause [] ts := by
  obtain ⟨before, keyword, assignments, clause, after, rfl, hkeyword, hpoint, hclause, a, ha,
    hname⟩ := h
  refine ⟨before, keyword, clause ++ after, rfl, hkeyword, fun htext => hpoint ?_,
    assigned_of_assignments hclause ha hname.spelled after⟩
  unfold lastText at htext
  cases hlast : before.getLast? with
  | none =>
    rw [hlast] at htext
    cases htext
  | some last =>
    rw [hlast] at htext
    exact ⟨last, hlast, htext⟩

/-! ### Words and tokens -/

section Words

variable {sql : Str}

abbrev reading (sql : Str) : Reader Tok := scanner sql (.forDialect .clickHouse)

/-- The words no parenthesis follows, of a reading that goes on from `i`. -/
def leadingFrom (sql : Str) (i : Nat) : List Str :=
  ((((reading sql).items i).filterMap (word? sql)).filter fun word => !word.call).map Word.text

variable {x : Item Tok}

theorem token?_eq_some {token : Token} :
    token? sql x = some token ↔ x.kind.tokenKind = some token.kind ∧
      get? sql x.start x.stop = some token.text ∧ x.start = token.start ∧ x.stop = token.stop := by
  obtain ⟨kind, text, start, stop⟩ := token
  unfold token?
  rw [Option.bind_eq_some_iff]
  constructor
  · rintro ⟨k, hk, h⟩
    obtain ⟨t, ht, heq⟩ := Option.map_eq_some_iff.mp h
    obtain ⟨rfl, rfl, rfl, rfl⟩ := Token.mk.inj heq
    exact ⟨hk, ht, rfl, rfl⟩
  · rintro ⟨hk, ht, rfl, rfl⟩
    exact ⟨kind, hk, by rw [ht]; rfl⟩

theorem tokenKind_eq_word {k : Tok} : k.tokenKind = some .word ↔ k = .word := by
  cases k <;> decide

theorem word?_of_token?_none (h : token? sql x = none) : word? sql x = none := by
  unfold word?
  split
  next hk =>
    unfold token? at h
    rw [hk] at h
    cases hget : get? sql x.start x.stop with
    | none => rfl
    | some text => rw [hget] at h; cases h
  · rfl

variable {i : Nat}

theorem nextVisibleByte_of_read (h : (reading sql).next i = some x) :
    nextVisibleByte (bytes sql) i = (bytes sql)[x.start]? := by
  obtain ⟨c, hi, hblank, hc, hvisible, -⟩ := readAt_eq_some.mp h
  unfold nextVisibleByte
  rw [loop_blank_left.mpr ⟨hi, hc, hvisible, hblank⟩, hc]

theorem get?_parenthesis (h : (bytes sql)[i]? = some Byte.openParenthesis) :
    get? sql i (i + 1) = some ['('] := by
  obtain ⟨u, c, v, rfl, hu, hc⟩ := exists_char_of_ascii h (by decide)
  obtain rfl : c = '(' := Char.toNat_inj.mp hc.2
  exact get?_eq_some.mpr ⟨u, v, by simp, hu, rfl⟩

/-- The next token is a parenthesis where the next visible byte is one. -/
theorem exists_parenthesis {j : Nat} (hj : (reading sql).Reach 0 j)
    (hcall : nextVisibleByte (bytes sql) j = some Byte.openParenthesis) :
    ∃ parenthesis after, ((reading sql).items j).filterMap (token? sql) = parenthesis :: after ∧
      parenthesis.kind = .symbol ∧ parenthesis.text = ['('] := by
  cases hread : (reading sql).next j with
  | none =>
    unfold nextVisibleByte at hcall
    rw [loop_blank_off (s := ()).mpr (readAt_eq_none.mp hread)] at hcall
    cases hcall
  | some y =>
    rw [nextVisibleByte_of_read hread] at hcall
    obtain ⟨c, -, -, hc, -, hlex⟩ := readAt_eq_some.mp hread
    obtain rfl := Option.some.inj (hc.symm.trans hcall)
    have hy : y ∈ scan sql (.forDialect .clickHouse) := Reader.mem_items.mpr ⟨j, hj, hread⟩
    have hsymbol : y.kind = .symbol ∧ y.stop = y.start + 1 := by
      rcases hlex with ⟨hterminator, hsemi, -⟩ | ⟨-, hlex⟩
      · have hbyte := byte_of_separator hy hsemi
        rw [hc] at hbyte
        exact absurd (Option.some.inj hbyte) (by decide)
      · exact ⟨(Prod.mk.inj hlex).1.symm, (Prod.mk.inj hlex).2.symm⟩
    have htoken : token? sql y = some ⟨.symbol, ['('], y.start, y.stop⟩ :=
      token?_eq_some.mpr ⟨by rw [hsymbol.1]; rfl, by rw [hsymbol.2]; exact get?_parenthesis hc,
        rfl, rfl⟩
    rw [Reader.items_of_some hread, filterMap_cons, htoken]
    exact ⟨_, _, rfl, rfl, rfl⟩

/-- A token is no leading word, or is the next one: a parenthesis is the next token. -/
theorem leadingFrom_cons {a : Token} {ts : List Token} (hi : (reading sql).Reach 0 i)
    (h : ((reading sql).items i).filterMap (token? sql) = a :: ts) :
    ∃ j, (reading sql).Reach 0 j ∧ ((reading sql).items j).filterMap (token? sql) = ts ∧
      (leadingFrom sql i = leadingFrom sql j ∧ (a.kind = .word → ∃ parenthesis after,
          ts = parenthesis :: after ∧ parenthesis.kind = .symbol ∧ parenthesis.text = ['(']) ∨
        a.kind = .word ∧ leadingFrom sql i = a.text :: leadingFrom sql j) := by
  obtain ⟨front, x, rest, hitems, hnone, hx, hrest⟩ := filterMap_eq_cons_iff.mp h
  obtain ⟨k, hreach, hnext, rfl⟩ := Reader.reach_of_items hitems
  obtain ⟨hkind, htext, -, -⟩ := token?_eq_some.mp hx
  have hfront : front.filterMap (word? sql) = [] :=
    filterMap_eq_nil_iff.mpr fun y hy => word?_of_token?_none (hnone y hy)
  have hleading : leadingFrom sql i = (((word? sql x).filter fun word => !word.call).map
      Word.text).toList ++ leadingFrom sql x.stop := by
    unfold leadingFrom
    rw [hitems, filterMap_append, hfront, nil_append, filterMap_cons]
    cases hword : word? sql x with
    | none => rfl
    | some word => cases hcall : word.call <;> simp [Option.filter, hcall]
  refine ⟨x.stop, .step (hi.trans hreach) hnext, hrest, ?_⟩
  by_cases hword : a.kind = .word
  swap
  · rw [word?, if_neg fun hx => hword ?_] at hleading
    · exact .inl ⟨hleading, fun h => absurd h hword⟩
    · rw [hx] at hkind
      exact (Option.some.inj hkind).symm
  have hx' : x.kind = .word := tokenKind_eq_word.mp (hkind.trans (congrArg some hword))
  rw [word?, if_pos hx', htext] at hleading
  cases hcall : nextVisibleByte (bytes sql) x.stop == some Byte.openParenthesis with
  | false =>
    rw [hcall] at hleading
    exact .inr ⟨hword, hleading⟩
  | true =>
    rw [hcall] at hleading
    refine .inl ⟨hleading, fun _ => ?_⟩
    rw [← hrest]
    exact exists_parenthesis (.step (hi.trans hreach) hnext) (beq_iff_eq.mp hcall)

/-- The words of `configures_access`. -/
def entityWords (sql : Str) (i : Nat) : List Str :=
  (leadingFrom sql i).filter fun word => !isKeyword word "or" && !isKeyword word "replace"

theorem leads_of_entityWords {ts : List Token} (hi : (reading sql).Reach 0 i)
    (hts : ((reading sql).items i).filterMap (token? sql) = ts) {word : Str} {words : List Str}
    (h : entityWords sql i = word :: words) :
    ∃ token rest j, Leads ts token rest ∧ token.kind = .word ∧ token.text = word ∧
      (reading sql).Reach 0 j ∧ ((reading sql).items j).filterMap (token? sql) = rest ∧
      entityWords sql j = words := by
  induction ts generalizing i with
  | nil =>
    have hnone : leadingFrom sql i = [] := by
      unfold leadingFrom
      rw [filterMap_eq_nil_iff.mpr fun y hy =>
        word?_of_token?_none (filterMap_eq_nil_iff.mp hts y hy)]
      rfl
    rw [entityWords, hnone] at h
    cases h
  | cons a ts ih =>
    obtain ⟨j, hj, hrest, ⟨hsame, hcall⟩ | ⟨hword, hnext⟩⟩ := leadingFrom_cons hi hts
    · rw [entityWords, hsame] at h
      obtain ⟨token, rest, k, hleads, hk⟩ := ih hj hrest h
      refine ⟨token, rest, k, .skip (fun hkind => .inr (.inr ?_)) hleads, hk⟩
      obtain ⟨parenthesis, after, heq, -, htext⟩ := hcall hkind
      exact ⟨parenthesis, after, heq, htext⟩
    · rw [entityWords, hnext, filter_cons] at h
      split at h
      next =>
        obtain ⟨htext, hwords⟩ := List.cons.inj h
        exact ⟨a, ts, j, .here ts hword, hword, htext, hj, hrest, hwords⟩
      next hskip =>
        obtain ⟨token, rest, k, hleads, hk⟩ := ih hj hrest h
        refine ⟨token, rest, k, .skip (fun _ => ?_) hleads, hk⟩
        rw [Bool.and_eq_true, not_and_or, Bool.not_eq_true', Bool.not_eq_true',
          Bool.not_eq_false, Bool.not_eq_false] at hskip
        exact hskip.imp (⟨hword, ·⟩) fun h => .inl ⟨hword, h⟩

theorem looksLikeAccess_of_configuresAccess (h : configuresAccess sql = true) :
    LooksLikeAccess (tokens sql .clickHouse) := by
  have hwords : entityWords sql 0 = (leadingWords sql).filter fun word =>
      !isKeyword word "or" && !isKeyword word "replace" := rfl
  unfold configuresAccess at h
  rw [← hwords] at h
  split at h
  next verb entity words heq =>
    obtain ⟨token, mid, j, hverb, hkind, rfl, hj, hmid, hnext⟩ :=
      leads_of_entityWords .refl rfl heq
    obtain ⟨token', rest, k, hentity, hkind', rfl, -⟩ := leads_of_entityWords hj hmid hnext
    rw [Bool.and_eq_true, Bool.or_eq_true] at h
    refine ⟨token, mid, token', rest, hverb, hentity, h.1.imp (⟨hkind, ·⟩) (⟨hkind, ·⟩), ?_⟩
    have hany := h.2
    simp only [any_cons, any_nil, Bool.or_false, Bool.or_eq_true] at hany
    exact hany.imp (⟨hkind', ·⟩) (Or.imp (⟨hkind', ·⟩) (Or.imp (⟨hkind', ·⟩) (⟨hkind', ·⟩)))
  next => cases h

theorem seen_of_createsTemporary (h : CreatesTemporary [] (tokens sql .clickHouse)) :
    Seen sql := by
  obtain ⟨create, temporary, table, rest, htokens, hcreate, htemporary, htable, -⟩ := h
  obtain ⟨j, hj, hrest, ⟨-, hcall⟩ | ⟨-, hfirst⟩⟩ := leadingFrom_cons .refl htokens
  · obtain ⟨parenthesis, after, heq, hkind, -⟩ := hcall hcreate.1
    obtain ⟨rfl, -⟩ := List.cons.inj heq
    exact absurd (htemporary.1.symm.trans hkind) (by decide)
  obtain ⟨k, -, -, ⟨-, hcall⟩ | ⟨-, hsecond⟩⟩ := leadingFrom_cons hj hrest
  · obtain ⟨parenthesis, after, heq, hkind, -⟩ := hcall htemporary.1
    obtain ⟨rfl, -⟩ := List.cons.inj heq
    exact absurd (htable.1.symm.trans hkind) (by decide)
  rw [hsecond] at hfirst
  exact .temporary hfirst hcreate.2 htemporary.2

theorem Plain.seen (h : Plain (tokens sql .clickHouse)) : Seen sql := by
  cases h with
  | temporary hcreates => exact seen_of_createsTemporary hcreates
  | clause haccess hclause =>
    refine .assigns (Bool.eq_false_iff.mpr fun h => haccess ?_) (plainClause_of_clause hclause)
    exact looksLikeAccess_of_configuresAccess h

end Words

/-- A quoted name, behind another assignment. -/
def quotedReadonly : Str := "SELECT 1 SETTINGS a=1,\"Readonly\"=0".toList

/-- The name between the quotes, where no escape stands in it. -/
def readsPlain (text : Str) : Option Str := some text.tail.dropLast

/-- `CREATE OR REPLACE TEMPORARY TABLE t (a UInt8)`. -/
def replacedTemporary : Str := "CREATE OR REPLACE TEMPORARY TABLE t (a UInt8)".toList

-- a number's point, or an escape in a quoted name, hides the clause as well
example : refuseSessionState "SELECT 1. SETTINGS readonly = 0".toList = .ok () := by rfl

end Oxyn.ClickHouse
