/-
# `Oxyn.Catalog.Quote` — identifiers written for a dialect, read by its scanner

One crate quotes the names of a query, another scans the query.  Each dialect has a `Quotation`:
two marks and a convention for the closing one inside.
-/
import Oxyn.Catalog.Path
import Oxyn.Query.Spelled

namespace Oxyn

open Text Cursor List

/-! ## Quoting -/

inductive QuoteStyle where
  | double | backtick | bracket
  /-- No quoting: for sources that compose no query text from a name. -/
  | bare
  /-- Backticks read with backslash escapes. -/
  | backtickBackslash
deriving DecidableEq, Repr

/-- The marks around a name, and how it is written between them. -/
structure Quotation where
  opening : Char
  closing : Char
  inner : Escaping Char

namespace QuoteStyle

def forDialect : SqlDialect → QuoteStyle
  | .mySql | .bigQuery => .backtick
  | .sqlServer => .bracket
  | .clickHouse => .backtickBackslash
  | _ => .double

/-- Only the closing mark needs doubling. -/
def quotation? : QuoteStyle → Option Quotation
  | .double => some ⟨'"', '"', .doubling '"'⟩
  | .backtick => some ⟨'`', '`', .doubling '`'⟩
  | .bracket => some ⟨'[', ']', .doubling ']'⟩
  | .bare => none
  | .backtickBackslash => some ⟨'`', '`', .leading '\\' ['`', '\\'] (by simp)⟩

end QuoteStyle

def Quotation.quote (q : Quotation) (name : Str) : Str :=
  q.opening :: (q.inner.encode name ++ [q.closing])

def quoteIdentifier (name : Str) (style : QuoteStyle) : Str :=
  match style.quotation? with
  | none => name
  | some q => q.quote name

namespace CatalogPath

/-- The identifier of a query: the present levels, quoted, dots between them. -/
def qualify (p : CatalogPath) (style : QuoteStyle) : Str :=
  List.intercalate ['.'] (p.segments.map fun s => quoteIdentifier s.val style)

def qualifySql (p : CatalogPath) (d : SqlDialect) : Str := p.qualify (.forDialect d)

end CatalogPath

/-- The name a quoted text stands for: its marks taken off, the closing one undone
inside. -/
def readIdentifier (q : Quotation) (token : Str) : Option Str :=
  if token.head? = some q.opening ∧ token.getLast? = some q.closing then
    some (q.inner.decode token.tail.dropLast)
  else none

theorem readIdentifier_quote (q : Quotation) (name : Str) :
    readIdentifier q (q.quote name) = some name := by
  have hlast : (q.quote name).getLast? = some q.closing := by
    rw [Quotation.quote, ← cons_append, getLast?_concat]
  have hinner : (q.quote name).tail.dropLast = q.inner.encode name := by
    simp [Quotation.quote]
  rw [readIdentifier, if_pos ⟨rfl, hlast⟩, hinner, Escaping.decode_encode]

/-! ## The style and the profile of a dialect -/

theorem isSome_quotation? (d : SqlDialect) : (QuoteStyle.forDialect d).quotation?.isSome := by
  cases d <;> rfl

def quotationOf (d : SqlDialect) : Quotation :=
  (QuoteStyle.forDialect d).quotation?.get (isSome_quotation? d)

theorem quoteIdentifier_forDialect (name : Str) (d : SqlDialect) :
    quoteIdentifier name (.forDialect d) = (quotationOf d).quote name := by
  rw [quoteIdentifier, quotationOf]
  obtain ⟨q, hq⟩ := Option.isSome_iff_exists.mp (isSome_quotation? d)
  simp [hq]

def readsBackslash (d : SqlDialect) : Bool :=
  match QuoteStyle.forDialect d with
  | .double => (SplitProfile.forDialect d).backslashEscapes
  | .bracket | .bare => false
  | .backtick | .backtickBackslash => (SplitProfile.forDialect d).backtickBackslashEscapes

def markByte (c : Char) : UInt8 := UInt8.ofNat c.toNat

/-- A doubled name, read with escapes: no backslash takes a double quote for escaped, nor the
closing one. -/
def EscapesNoQuote : Str → Bool
  | [] => true
  | [c] => c != '\\'
  | c :: d :: rest =>
    if c = '\\' then d != '"' && EscapesNoQuote rest else EscapesNoQuote (d :: rest)

/-- The names a dialect's scanner reads as its writer wrote them. -/
def Readable (d : SqlDialect) (name : Str) : Prop :=
  d = .snowflake → EscapesNoQuote name = true

instance (d : SqlDialect) (name : Str) : Decidable (Readable d name) :=
  inferInstanceAs (Decidable (_ → _))

theorem lex_opening (b : List UInt8) (i : Nat) (d : SqlDialect) :
    lex b i (markByte (quotationOf d).opening) (.forDialect d) =
      (.quoted, skipQuoted b i (markByte (quotationOf d).closing) (readsBackslash d)) := by
  cases d <;> rfl

theorem closing_facts (d : SqlDialect) :
    (quotationOf d).closing.toNat < 0x80 ∧ markByte (quotationOf d).closing ≠ Byte.backslash ∧
      (markByte (quotationOf d).closing).toNat = (quotationOf d).closing.toNat := by
  cases d <;> decide

theorem opening_facts (d : SqlDialect) :
    String.utf8EncodeChar (quotationOf d).opening = [markByte (quotationOf d).opening] ∧
      isAsciiWhitespace (markByte (quotationOf d).opening) = false ∧
      markByte (quotationOf d).opening ≠ Byte.semicolon := by
  cases d <;> decide

/-! ## The scanner steps over a quoted name -/

abbrev StepsOver (d : SqlDialect) (w : List UInt8) : Prop :=
  Passes (quotedTurn (markByte (quotationOf d).closing) (readsBackslash d)) () w ()

theorem passes_doubling {q : Char} (hq : q.toNat < 0x80) (hb : markByte q ≠ Byte.backslash)
    (name : Str) :
    Passes (quotedTurn (markByte q) false) () (bytes ((Escaping.doubling q).encode name)) () := by
  have hbyte : (markByte q).toNat = q.toNat := by
    rw [markByte, UInt8.toNat_ofNat']
    omega
  rw [Escaping.encode, bytes_flatMap]
  refine Passes.flatMap fun c _ => ?_
  by_cases hc : c = q
  · subst hc
    have hcode : bytes ((Escaping.doubling c).code c) = [markByte c, markByte c] := by
      simp [Escaping.doubling, markByte, utf8EncodeChar_ascii hq]
    rw [hcode]
    exact passes_doubled hb
  · have hcode : bytes ((Escaping.doubling q).code c) = String.utf8EncodeChar c := by
      simp [Escaping.doubling, hc]
    rw [hcode]
    refine passes_char (by omega) (fun h => hc ?_) (by simp)
    exact Char.toNat_inj.mp (h.trans hbyte)

theorem passes_leading (name : Str) :
    Passes (quotedTurn Byte.backtick true) ()
      (bytes ((Escaping.leading '\\' ['`', '\\'] (by simp)).encode name)) () := by
  rw [Escaping.encode, bytes_flatMap]
  refine Passes.flatMap fun c _ => ?_
  by_cases hc : c = '`' ∨ c = '\\'
  · have hcode : bytes ((Escaping.leading '\\' ['`', '\\'] (by simp)).code c) =
        Byte.backslash :: String.utf8EncodeChar c := by
      simp only [Escaping.leading, mem_cons, not_mem_nil, or_false, if_pos hc,
        bytes_cons, bytes_nil, append_nil]
      rfl
    rw [hcode]
    exact passes_escaped (by decide) c
  · have hcode : bytes ((Escaping.leading '\\' ['`', '\\'] (by simp)).code c) =
        String.utf8EncodeChar c := by
      simp [Escaping.leading, hc]
    rw [hcode]
    rw [not_or] at hc
    exact passes_char (by decide) (fun h => hc.1 (Char.toNat_inj.mp h))
      (fun _ h => hc.2 (Char.toNat_inj.mp h))

variable {name : Str}

/-- A doubled name is cut as the scanner reads it, in characters and in backslashes with the
character behind. -/
theorem passes_doubling_escaped (h : EscapesNoQuote name = true) :
    Passes (quotedTurn Byte.doubleQuote true) ()
      (bytes ((Escaping.doubling '"').encode name)) () := by
  have hchar (c : Char) (hc : c ≠ '\\') :
      Passes (quotedTurn Byte.doubleQuote true) () (bytes ((Escaping.doubling '"').code c)) () := by
    by_cases hq : c = '"'
    · subst hq
      exact passes_doubled (q := Byte.doubleQuote) (by decide)
    · have hcode : bytes ((Escaping.doubling '"').code c) = String.utf8EncodeChar c := by
        simp [Escaping.doubling, hq]
      rw [hcode]
      exact passes_char (by decide) (fun h => hq (Char.toNat_inj.mp h))
        (fun _ h => hc (Char.toNat_inj.mp h))
  fun_induction EscapesNoQuote name with
  | case1 => exact .nil ()
  | case2 c =>
    rw [Escaping.encode_cons, bytes_append]
    exact (hchar c (by simpa using h)).append (.nil ())
  | case3 d rest ih =>
    simp only [Bool.and_eq_true, bne_iff_ne] at h
    have hcode : bytes ((Escaping.doubling '"').encode ('\\' :: d :: rest)) =
        (Byte.backslash :: String.utf8EncodeChar d) ++
          bytes ((Escaping.doubling '"').encode rest) := by
      have hslash : String.utf8EncodeChar '\\' = [Byte.backslash] := by decide
      simp [Escaping.doubling, h.1, hslash]
    rw [hcode]
    exact (passes_escaped (by decide) d).append (ih h.2)
  | case4 c d rest hc ih =>
    rw [Escaping.encode_cons, bytes_append]
    exact (hchar c hc).append (ih h)

theorem stepsOver_name {d : SqlDialect} (h : Readable d name) :
    StepsOver d (bytes ((quotationOf d).inner.encode name)) := by
  cases d with
  | snowflake => exact passes_doubling_escaped (h rfl)
  | clickHouse => exact passes_leading name
  | mySql | bigQuery => exact passes_doubling (q := '`') (by decide) (by decide) name
  | sqlServer => exact passes_doubling (q := ']') (by decide) (by decide) name
  | ansi | postgres | sqlite | oracle | duckDb | redshift =>
    exact passes_doubling (q := '"') (by decide) (by decide) name

/-! ## A quoted name is one token -/

theorem bytes_quote (d : SqlDialect) (name : Str) :
    bytes ((quotationOf d).quote name) = markByte (quotationOf d).opening ::
      (bytes ((quotationOf d).inner.encode name) ++ [markByte (quotationOf d).closing]) := by
  have hclosing := utf8EncodeChar_ascii (closing_facts d).1
  simp [Quotation.quote, (opening_facts d).1, hclosing, markByte]

theorem bytes_drop_append (u v : Str) : (bytes (u ++ v)).drop (size u) = bytes v :=
  drop_bytes_size_append u v

theorem next_quote {d : SqlDialect} (h : Readable d name) (u v : Str)
    (hv : (bytes v).head? ≠ some (markByte (quotationOf d).closing)) :
    (scanner (u ++ ((quotationOf d).quote name ++ v)) (.forDialect d)).next (size u) =
      some ⟨.quoted, size u, size u + size ((quotationOf d).quote name)⟩ := by
  obtain ⟨-, hblank, hsemi⟩ := opening_facts d
  have hdrop := bytes_drop_append u ((quotationOf d).quote name ++ v)
  rw [bytes_append ((quotationOf d).quote name), bytes_quote, cons_append,
    append_assoc, singleton_append] at hdrop
  obtain ⟨hat, hrest⟩ := of_cons_eq_drop hdrop.symm
  have hskip := skipQuoted_of_passes hrest.symm (stepsOver_name h) (closing_facts d).2.1 hv
  refine next_of_lex hat hblank hsemi ?_
  rw [lex_opening, hskip, Prod.mk.injEq]
  refine ⟨rfl, ?_⟩
  have hsize : size ((quotationOf d).quote name) =
      (bytes ((quotationOf d).inner.encode name)).length + 2 := by
    rw [← length_bytes, bytes_quote]
    simp
  omega

theorem next_dot (u v : Str) (d : SqlDialect) :
    (scanner (u ++ (['.'] ++ v)) (.forDialect d)).next (size u) =
      some ⟨.symbol, size u, size u + 1⟩ := by
  have hdot : String.utf8EncodeChar '.' = [0x2e] := by decide
  have hdrop := bytes_drop_append u (['.'] ++ v)
  rw [bytes_append ['.'], bytes_cons, bytes_nil, hdot] at hdrop
  obtain ⟨hat, -⟩ := of_cons_eq_drop hdrop.symm
  exact next_of_lex hat (by decide) (by decide) (by cases d <;> rfl)

def qualifiedTokens (d : SqlDialect) (names : List Str) : List (Tok × Str) :=
  (names.map fun name => (Tok.quoted, (quotationOf d).quote name)).intersperse (.symbol, ['.'])

theorem spelling_qualifiedTokens (d : SqlDialect) (names : List Str) :
    spelling (qualifiedTokens d names) =
      List.intercalate ['.'] (names.map (quotationOf d).quote) := by
  induction names with
  | nil => rfl
  | cons name names ih =>
    cases names with
    | nil => simp [qualifiedTokens]
    | cons name' names =>
      simp only [qualifiedTokens, map_cons, intersperse_cons_cons, spelling_cons] at ih ⊢
      rw [ih, intercalate_cons_cons, append_assoc]

theorem items_qualified (d : SqlDialect) (names : List Str)
    (h : ∀ name ∈ names, Readable d name) (u : Str) :
    (scanner (u ++ spelling (qualifiedTokens d names)) (.forDialect d)).items (size u) =
      spelled (size u) (qualifiedTokens d names) := by
  induction names generalizing u with
  | nil => simpa [qualifiedTokens, spelled] using items_size u (.forDialect d)
  | cons name names ih =>
    have hname := h name (by simp)
    cases names with
    | nil =>
      have hnext := next_quote hname u [] (by simp)
      simp only [qualifiedTokens, map_cons, map_nil, intersperse_singleton,
        spelling_cons, spelling_nil, spelled]
      rw [Reader.items_of_some hnext]
      have hend := items_size (u ++ ((quotationOf d).quote name ++ [])) (.forDialect d)
      simp only [append_nil, size_append] at hend ⊢
      rw [hend]
    | cons name' names =>
      have hdot : (bytes (['.'] ++ spelling (qualifiedTokens d (name' :: names)))).head? ≠
          some (markByte (quotationOf d).closing) := by
        cases d <;> simp [quotationOf, QuoteStyle.forDialect, QuoteStyle.quotation?] <;> decide
      have hnext := next_quote hname u _ hdot
      have hsep := next_dot (u ++ (quotationOf d).quote name)
        (spelling (qualifiedTokens d (name' :: names))) d
      have hrest := ih (fun n hn => h n (by simp [hn]))
        ((u ++ (quotationOf d).quote name) ++ ['.'])
      have hcons : qualifiedTokens d (name :: name' :: names) =
          (.quoted, (quotationOf d).quote name) :: (.symbol, ['.']) ::
            qualifiedTokens d (name' :: names) := rfl
      have hone : size ['.'] = 1 := by decide
      simp only [hcons, spelling_cons, spelled, hone]
      simp only [append_assoc, size_append, hone] at hsep hrest hnext ⊢
      rw [← Nat.add_assoc] at hrest
      rw [Reader.items_of_some hnext, Reader.items_of_some hsep]
      exact congrArg (_ :: _ :: ·) hrest

/-- The dialect's scanner finds one quoted token that covers the text and stands for the name; and
of a qualified identifier such tokens, one for each present level in order, with single dots between
them. -/
theorem quoted_identifier_read_back (d : SqlDialect) :
    (∀ name, Readable d name →
      scan (quoteIdentifier name (.forDialect d)) (.forDialect d) =
          spelled 0 [(.quoted, quoteIdentifier name (.forDialect d))] ∧
        readIdentifier (quotationOf d) (quoteIdentifier name (.forDialect d)) = some name) ∧
      ∀ p : CatalogPath, (∀ s ∈ p.segments, Readable d s.val) →
        p.qualifySql d = spelling (qualifiedTokens d (p.segments.map (·.val))) ∧
          scan (p.qualifySql d) (.forDialect d) =
            spelled 0 (qualifiedTokens d (p.segments.map (·.val))) := by
  refine ⟨fun name h => ?_, fun p h => ?_⟩
  · rw [quoteIdentifier_forDialect]
    refine ⟨?_, readIdentifier_quote _ name⟩
    have hread := items_qualified d [name] (by simpa using h) []
    rw [nil_append, show spelling (qualifiedTokens d [name]) = (quotationOf d).quote name by
      simp [qualifiedTokens]] at hread
    exact hread
  · have hspell : p.qualifySql d = spelling (qualifiedTokens d (p.segments.map (·.val))) := by
      rw [spelling_qualifiedTokens, map_map]
      simp only [CatalogPath.qualifySql, CatalogPath.qualify, quoteIdentifier_forDialect]
      rfl
    refine ⟨hspell, ?_⟩
    have hread := items_qualified d (p.segments.map (·.val)) (by simpa using h) []
    rw [hspell]
    exact hread

def quotedPath : CatalogPath := ⟨none, some ⟨['s', '.'], rfl⟩, some ⟨['a', '"'], rfl⟩⟩

/-- A quote in a name is doubled, and a dot in a name separates nothing. -/
theorem quoted_path_read_back :
    readIdentifier (quotationOf .postgres) (quoteIdentifier ['a', '"'] (.forDialect .postgres)) =
        some ['a', '"'] ∧
      scan (quotedPath.qualifySql .postgres) (.forDialect .postgres) =
        spelled 0 [(.quoted, ['"', 's', '.', '"']), (.symbol, ['.']),
          (.quoted, ['"', 'a', '"', '"', '"'])] :=
  ⟨((quoted_identifier_read_back .postgres).1 _ (by decide)).2,
    ((quoted_identifier_read_back .postgres).2 quotedPath (by decide)).2⟩

/-- ClickHouse's convention is another than doubling, and Snowflake's scanner sees an
escape where the writer wrote none. -/
theorem identifiers_read_otherwise :
    (Escaping.doubling (quotationOf .clickHouse).closing).decode
        (quoteIdentifier ['a', '`'] (.forDialect .clickHouse)).tail.dropLast ≠ ['a', '`'] ∧
      scan (quoteIdentifier ['\\', '"', 'a'] (.forDialect .snowflake)) (.forDialect .snowflake) ≠
        spelled 0 [(.quoted, quoteIdentifier ['\\', '"', 'a'] (.forDialect .snowflake))] :=
  ⟨by decide, by decide⟩

end Oxyn
