/-
# `Oxyn.Catalog.Literal` — values written as string literals

The counterpart of an identifier: a value that a composed text carries must come out as one
literal.  How a dialect escapes does not follow its identifiers, so each has a `LiteralEscaping`
of its own.
-/
import Oxyn.Catalog.Path
import Oxyn.Query.Spelled

namespace Oxyn

open Text Cursor List

/-! ## Writing a literal -/

/-- Why a value could not be written. -/
inductive LiteralError where
  | nul
  | controlCharacter (code : Nat)
deriving DecidableEq, Repr

/-- How a dialect reads a single-quoted string. -/
inductive LiteralEscaping where
  /-- Only the quote is special, doubled. -/
  | standard
  /-- `N'…'`. -/
  | national
  /-- `E'…'` once the value holds a backslash. -/
  | postgresEscape
  /-- The backslash escapes, and the quote is doubled. -/
  | backslash
  /-- The backslash escapes, the quote too; line breaks and tabs have names. -/
  | backslashQuote
deriving DecidableEq, Repr

def LiteralEscaping.of : SqlDialect → LiteralEscaping
  | .sqlServer => .national
  | .postgres | .redshift => .postgresEscape
  | .mySql | .snowflake | .clickHouse => .backslash
  | .bigQuery => .backslashQuote
  | _ => .standard

/-- The first control character of a text that `allowed` does not accept. -/
def refuseControls (text : Str) (allowed : Char → Bool) : Except LiteralError Unit :=
  match text.find? fun c => isControl c && !allowed c with
  | none => .ok ()
  | some refused =>
    if refused.toNat = 0 then .error .nul else .error (.controlCharacter refused.toNat)

/-- Are backslashes written twice? -/
def doublesBackslash (e : LiteralEscaping) (value : Str) : Bool :=
  match e with
  | .backslash | .backslashQuote => true
  | .postgresEscape => value.contains '\\'
  | .standard | .national => false

/-- What stands before the opening quote. -/
def introducer (e : LiteralEscaping) (doubles : Bool) : Str :=
  match e with
  | .national => ['N']
  | .postgresEscape => if doubles then ['E'] else []
  | _ => []

def writeChar (e : LiteralEscaping) (doubles : Bool) (c : Char) : Str :=
  if c = '\'' then (if e = .backslashQuote then ['\\', '\''] else ['\'', '\''])
  else if c = '\\' ∧ doubles then ['\\', '\\']
  else if c = '\n' ∧ e = .backslashQuote then ['\\', 'n']
  else if c = '\r' ∧ e = .backslashQuote then ['\\', 'r']
  else if c = '\t' ∧ e = .backslashQuote then ['\\', 't']
  else [c]

def quotedValue (e : LiteralEscaping) (doubles : Bool) (value : Str) : Str :=
  '\'' :: (value.flatMap (writeChar e doubles) ++ ['\''])

/-- Appends `value` to `out` as one literal of the dialect: `out` as it is left, and
what is returned. -/
def pushStringLiteral (out value : Str) (d : SqlDialect) : Str × Except LiteralError Unit :=
  match refuseControls value fun c => c = '\t' || c = '\n' || c = '\r' with
  | .error e => (out, .error e)
  | .ok () =>
    let e := LiteralEscaping.of d
    let doubles := doublesBackslash e value
    (out ++ introducer e doubles ++ quotedValue e doubles value, .ok ())

/-! ## Reading a literal -/

/-- What an escaped character stands for.  The other escapes a dialect has are never
written. -/
def unescapeChar (c : Char) : Char :=
  if c = 'n' then '\n' else if c = 'r' then '\r' else if c = 't' then '\t' else c

def undoLiteral (doubledQuote escapes : Bool) (c d : Char) : Option Char :=
  if doubledQuote ∧ c = '\'' ∧ d = '\'' then some '\''
  else if escapes ∧ c = '\\' then some (unescapeChar d)
  else none

/-- The value a dialect reads in the literal `token` with `before` in front of it. -/
def readLiteral (d : SqlDialect) (before token : Str) : Option Str :=
  let p := SplitProfile.forDialect d
  let escapes := p.backslashEscapes || (p.escapeStringPrefix && before == ['E'])
  if token.head? = some '\'' ∧ token.getLast? = some '\'' then
    some (Escaping.unpair (undoLiteral (d != .bigQuery) escapes) token.tail.dropLast)
  else none

def literalEscaping (e : LiteralEscaping) (doubles : Bool)
    (h : e = .backslashQuote → doubles = true) : Escaping Char where
  code := writeChar e doubles
  undo := undoLiteral (e != .backslashQuote) doubles
  code_cases c := by
    unfold writeChar
    by_cases hq : c = '\''
    · rw [if_pos hq]
      by_cases he : e = .backslashQuote
      · exact .inr ⟨'\\', '\'', by simp [he], by simp [undoLiteral, h he, hq, unescapeChar]⟩
      · exact .inr ⟨'\'', '\'', by simp [he], by simp [undoLiteral, he, hq]⟩
    · rw [if_neg hq]
      by_cases hb : c = '\\' ∧ doubles = true
      · exact .inr ⟨'\\', '\\', by simp [hb], by simp [undoLiteral, hb, unescapeChar]⟩
      · rw [if_neg hb]
        by_cases he : e = .backslashQuote
        · have hplain (hn : c ≠ '\n') (hr : c ≠ '\r') (ht : c ≠ '\t') :
              ∀ d, undoLiteral (e != .backslashQuote) doubles c d = none := by
            have hne : c ≠ '\\' := fun hc => hb ⟨hc, h he⟩
            simp [undoLiteral, hq, hne]
          by_cases hn : c = '\n'
          · exact .inr ⟨'\\', 'n', by simp [hn, he], by simp [undoLiteral, h he, hn, unescapeChar]⟩
          · by_cases hr : c = '\r'
            · exact .inr ⟨'\\', 'r', by simp [hr, he],
                by simp [undoLiteral, h he, hr, unescapeChar]⟩
            · by_cases ht : c = '\t'
              · exact .inr ⟨'\\', 't', by simp [ht, he],
                  by simp [undoLiteral, h he, ht, unescapeChar]⟩
              · exact .inl ⟨by simp [hn, hr, ht], hplain hn hr ht⟩
        · refine .inl ⟨by simp [he], fun d => ?_⟩
          simp only [not_and, Bool.not_eq_true] at hb
          simp only [undoLiteral, hq, false_and, and_false, if_false]
          rw [if_neg fun h => by simp [hb h.2] at h]

/-! ## The scanner and the writer agree -/

def literalTokens (e : LiteralEscaping) (doubles : Bool) (value : Str) : List (Tok × Str) :=
  (if introducer e doubles = [] then [] else [(.word, introducer e doubles)]) ++
    [(.singleQuoted, quotedValue e doubles value)]

theorem spelling_literalTokens (e : LiteralEscaping) (doubles : Bool) (value : Str) :
    spelling (literalTokens e doubles value) =
      introducer e doubles ++ quotedValue e doubles value := by
  unfold literalTokens
  split
  next h => simp [h]
  next h => simp

theorem utf8EncodeChar_apostrophe : String.utf8EncodeChar '\'' = [Byte.apostrophe] := by decide

theorem utf8EncodeChar_backslash : String.utf8EncodeChar '\\' = [Byte.backslash] := by decide

variable {e : LiteralEscaping} {doubles : Bool}

theorem passes_writeChar (h : e = .backslashQuote → doubles = true) (c : Char) :
    Passes (quotedTurn Byte.apostrophe doubles) () (bytes (writeChar e doubles c)) () := by
  have hescape (hd : doubles = true) (d : Char) :
      Passes (quotedTurn Byte.apostrophe doubles) () (bytes ['\\', d]) () := by
    rw [bytes_cons, bytes_cons, bytes_nil, append_nil, utf8EncodeChar_backslash, hd]
    exact passes_escaped (by decide) d
  unfold writeChar
  split
  · split
    next he => exact hescape (h he) _
    next => exact passes_doubled (q := Byte.apostrophe) (by decide)
  next hq =>
    split
    next hb => exact hescape hb.2 _
    next hb =>
      split
      next hn => exact hescape (h hn.2) _
      next =>
        split
        next hr => exact hescape (h hr.2) _
        next =>
          split
          next ht => exact hescape (h ht.2) _
          next =>
            rw [bytes_cons, bytes_nil, append_nil]
            refine passes_char (by decide) (fun hc => hq (Char.toNat_inj.mp hc)) fun hd hc => ?_
            exact hb ⟨Char.toNat_inj.mp hc, hd⟩

theorem passes_value (h : e = .backslashQuote → doubles = true) (value : Str) :
    Passes (quotedTurn Byte.apostrophe doubles) ()
      (bytes (value.flatMap (writeChar e doubles))) () := by
  rw [bytes_flatMap]
  exact Passes.flatMap fun c _ => passes_writeChar h c

theorem bytes_quotedValue (e : LiteralEscaping) (doubles : Bool) (value : Str) :
    bytes (quotedValue e doubles value) = Byte.apostrophe ::
      (bytes (value.flatMap (writeChar e doubles)) ++ [Byte.apostrophe]) := by
  simp [quotedValue, utf8EncodeChar_apostrophe]

variable {u v : Str}

theorem before?_one : before? (bytes (u ++ v)) (size u) 1 = (bytes u).getLast? := by
  unfold before?
  split
  next h =>
    rw [bytes_append, getElem?_append_left (by rw [length_bytes]; omega),
      getLast?_eq_getElem?, length_bytes]
  next h =>
    have hnil : u = [] := size_eq_zero.mp (by omega)
    simp [hnil]

theorem hasEscapePrefix_of_no_word (hu : ∀ x ∈ (bytes u).getLast?, isWordByte x = false) :
    hasEscapePrefix (bytes (u ++ v)) (size u) = false := by
  unfold hasEscapePrefix
  rw [before?_one]
  cases hlast : (bytes u).getLast? with
  | none => rfl
  | some x =>
    have hx := hu x (by simp [hlast])
    have hne : x ≠ 0x65 ∧ x ≠ 0x45 := by
      constructor
      · rintro rfl; exact absurd hx (by decide)
      · rintro rfl; exact absurd hx (by decide)
    simp [hne.1, hne.2]

theorem hasEscapePrefix_of_introducer (hu : ∀ x ∈ (bytes u).getLast?, isWordByte x = false) :
    hasEscapePrefix (bytes (u ++ ['E'] ++ v)) (size (u ++ ['E'])) = true := by
  have hE : String.utf8EncodeChar 'E' = [0x45] := by decide
  have hone : size ['E'] = 1 := by decide
  have htwo : before? (bytes (u ++ ['E'] ++ v)) (size (u ++ ['E'])) 2 = (bytes u).getLast? := by
    rw [← before?_one (v := ['E'] ++ v), append_assoc]
    simp only [before?, size_append, hone]
    by_cases h : 1 ≤ size u
    · rw [if_pos (by omega), if_pos h]
      exact congrArg _ (by omega)
    · rw [if_neg (by omega), if_neg h]
  unfold hasEscapePrefix
  rw [before?_one, htwo]
  have hlast : (bytes (u ++ ['E'])).getLast? = some 0x45 := by simp [hE]
  rw [hlast]
  cases h : (bytes u).getLast? with
  | none => rfl
  | some x => simpa using hu x (by simp [h])

/-- Writer and scanner by dialect: what is put before the quote, and whether escapes
are read behind it. -/
theorem introducer_cases (d : SqlDialect) (value : Str) :
    let e := LiteralEscaping.of d
    let doubles := doublesBackslash e value
    let p := SplitProfile.forDialect d
    (introducer e doubles = [] ∧ p.backslashEscapes = doubles) ∨
      (introducer e doubles = ['N'] ∧ p.backslashEscapes = doubles ∧
        p.escapeStringPrefix = false) ∨
      (introducer e doubles = ['E'] ∧ p.backslashEscapes = false ∧ p.escapeStringPrefix = true ∧
        doubles = true) := by
  intro e doubles p
  cases d with
  | postgres | redshift =>
    have hd : doubles = value.contains '\\' := rfl
    clear_value doubles
    cases doubles with
    | false => exact .inl ⟨rfl, rfl⟩
    | true => exact .inr (.inr ⟨rfl, rfl, rfl, rfl⟩)
  | sqlServer => exact .inr (.inl ⟨rfl, rfl, rfl⟩)
  | _ => exact .inl ⟨rfl, rfl⟩

theorem backslashQuote_doubles (d : SqlDialect) (value : Str) :
    LiteralEscaping.of d = .backslashQuote →
      doublesBackslash (LiteralEscaping.of d) value = true := by
  intro h
  rw [h]
  rfl

theorem escapes_scanned (d : SqlDialect) (value : Str) {out v : Str}
    (hout : ∀ x ∈ (bytes out).getLast?, isWordByte x = false) :
    let e := LiteralEscaping.of d
    let doubles := doublesBackslash e value
    let p := SplitProfile.forDialect d
    (p.backslashEscapes || (p.escapeStringPrefix &&
      hasEscapePrefix (bytes (out ++ introducer e doubles ++ v))
        (size (out ++ introducer e doubles)))) = doubles := by
  intro e doubles p
  rcases introducer_cases d value with ⟨hin, hb⟩ | ⟨hin, hb, hp⟩ | ⟨hin, hb, hp, hd⟩
  · rw [hin, append_nil, hasEscapePrefix_of_no_word hout]
    simpa using hb
  · rw [hp]
    simpa using hb
  · rw [hin, hasEscapePrefix_of_introducer hout, hb, hp]
    exact hd.symm

theorem next_quotedValue {d : SqlDialect} {value u : Str} (h : e = .backslashQuote → doubles = true)
    (hescapes : ((SplitProfile.forDialect d).backslashEscapes ||
      ((SplitProfile.forDialect d).escapeStringPrefix &&
        hasEscapePrefix (bytes (u ++ quotedValue e doubles value)) (size u))) = doubles) :
    (scanner (u ++ quotedValue e doubles value) (.forDialect d)).next (size u) =
      some ⟨.singleQuoted, size u, size u + size (quotedValue e doubles value)⟩ := by
  have hdrop := drop_bytes_size_append u (quotedValue e doubles value)
  rw [bytes_quotedValue] at hdrop
  obtain ⟨hat, hrest⟩ := of_cons_eq_drop hdrop.symm
  have hskip := skipQuoted_of_passes hrest.symm (passes_value h value) (by decide) (by simp)
  refine next_of_lex hat (by decide) (by decide) ?_
  have hsize : size (quotedValue e doubles value) =
      (bytes (value.flatMap (writeChar e doubles))).length + 2 := by
    rw [← length_bytes, bytes_quotedValue]
    simp
  have hlex : lex (bytes (u ++ quotedValue e doubles value)) (size u) Byte.apostrophe
      (.forDialect d) = (.singleQuoted, skipQuoted (bytes (u ++ quotedValue e doubles value))
        (size u) Byte.apostrophe ((SplitProfile.forDialect d).backslashEscapes ||
          ((SplitProfile.forDialect d).escapeStringPrefix &&
            hasEscapePrefix (bytes (u ++ quotedValue e doubles value)) (size u)))) := rfl
  rw [hlex, hescapes, hskip, hsize]
  rfl

theorem next_introducer {c : Char} (hc : c = 'N' ∨ c = 'E') (u w : Str) (d : SqlDialect) :
    (scanner (u ++ [c] ++ '\'' :: w) (.forDialect d)).next (size u) =
      some ⟨.word, size u, size u + 1⟩ := by
  have henc : String.utf8EncodeChar c = [UInt8.ofNat c.toNat] := by
    rcases hc with rfl | rfl <;> decide
  have hdrop := drop_bytes_size_append u ([c] ++ '\'' :: w)
  rw [bytes_append [c], bytes_cons, bytes_nil, henc, bytes_cons, utf8EncodeChar_apostrophe]
    at hdrop
  rw [append_assoc]
  obtain ⟨hat, hrest⟩ := of_cons_eq_drop hdrop.symm
  have hskip : skipWord (bytes (u ++ ([c] ++ '\'' :: w))) (size u) = size u + 1 := by
    rw [skipWord, ← hrest]
    rfl
  refine next_of_lex hat ?_ ?_ ?_
  · rcases hc with rfl | rfl <;> rfl
  · rcases hc with rfl | rfl <;> decide
  · have hword : lex (bytes (u ++ ([c] ++ '\'' :: w))) (size u) (UInt8.ofNat c.toNat) (.forDialect d) =
        (.word, skipWord (bytes (u ++ ([c] ++ '\'' :: w))) (size u)) := by
      rcases hc with rfl | rfl <;> cases d <;> rfl
    rw [hword, hskip]

/-! ## One literal, and its value -/

theorem items_literal (d : SqlDialect) (value : Str) {out : Str}
    (hout : ∀ x ∈ (bytes out).getLast?, isWordByte x = false) :
    let e := LiteralEscaping.of d
    let doubles := doublesBackslash e value
    (scanner (out ++ introducer e doubles ++ quotedValue e doubles value) (.forDialect d)).items
        (size out) = spelled (size out) (literalTokens e doubles value) := by
  intro e doubles
  have hnext := next_quotedValue (backslashQuote_doubles d value)
    (escapes_scanned d value (v := quotedValue e doubles value) hout)
  have hend := items_size (out ++ introducer e doubles ++ quotedValue e doubles value)
    (.forDialect d)
  rw [size_append] at hend
  have hquoted := Reader.items_of_some hnext
  rw [hend] at hquoted
  by_cases hin : introducer e doubles = []
  · rw [hin, append_nil] at hquoted ⊢
    rw [hquoted, literalTokens, if_pos hin]
    rfl
  · obtain ⟨c, hc, hcase⟩ : ∃ c, introducer e doubles = [c] ∧ (c = 'N' ∨ c = 'E') := by
      rcases introducer_cases d value with ⟨h, -⟩ | ⟨h, -⟩ | ⟨h, -⟩
      · exact absurd h hin
      · exact ⟨'N', h, .inl rfl⟩
      · exact ⟨'E', h, .inr rfl⟩
    have hone : size [c] = 1 := by rcases hcase with rfl | rfl <;> decide
    rw [hc] at hquoted ⊢
    rw [size_append, hone] at hquoted
    have hword : (scanner (out ++ [c] ++ quotedValue e doubles value) (.forDialect d)).next
        (size out) = some ⟨.word, size out, size out + 1⟩ := next_introducer hcase out _ d
    rw [Reader.items_of_some hword]
    rw [literalTokens, if_neg hin, hc]
    simp only [cons_append, nil_append, spelled, hone]
    exact congrArg _ hquoted

theorem readLiteral_quotedValue (d : SqlDialect) (value : Str) :
    let e := LiteralEscaping.of d
    let doubles := doublesBackslash e value
    readLiteral d (introducer e doubles) (quotedValue e doubles value) = some value := by
  intro e doubles
  have hlast : (quotedValue e doubles value).getLast? = some '\'' := by
    rw [quotedValue, ← cons_append, getLast?_concat]
  have hinner : (quotedValue e doubles value).tail.dropLast =
      value.flatMap (writeChar e doubles) := by
    simp [quotedValue]
  have hescapes : ((SplitProfile.forDialect d).backslashEscapes ||
      ((SplitProfile.forDialect d).escapeStringPrefix && introducer e doubles == ['E'])) =
        doubles := by
    rcases introducer_cases d value with ⟨hin, hb⟩ | ⟨hin, hb, hp⟩ | ⟨hin, hb, hp, hd⟩
    · rw [hin]; simpa using hb
    · rw [hp]; simpa using hb
    · rw [hin, hb, hp]; exact hd.symm
  have hdoubled : (d != .bigQuery) = (e != .backslashQuote) := by cases d <;> rfl
  have hdecode := @Escaping.decode_encode _
    (literalEscaping e doubles (backslashQuote_doubles d value)) value
  rw [readLiteral, if_pos ⟨rfl, hlast⟩, hinner, hescapes, hdoubled]
  exact congrArg some hdecode

/-- A composed string literal, appended to a text that ends no word, is read from there as one
single-quoted token behind the letter the dialect adds, and stands for the value. When the value is
refused the text is unchanged. -/
theorem string_literal_is_one_literal (d : SqlDialect) (out value : Str)
    (hout : ∀ x ∈ (bytes out).getLast?, isWordByte x = false) :
    let e := LiteralEscaping.of d
    let doubles := doublesBackslash e value
    let pieces := literalTokens e doubles value
    match pushStringLiteral out value d with
    | (out', .error _) => out' = out
    | (out', .ok ()) =>
      out' = out ++ spelling pieces ∧
        (scanner out' (.forDialect d)).items (size out) = spelled (size out) pieces ∧
        ((scanner out' (.forDialect d)).Reach 0 (size out) →
          ∃ front, scan out' (.forDialect d) = front ++ spelled (size out) pieces) ∧
        readLiteral d (introducer e doubles) (quotedValue e doubles value) = some value := by
  intro e doubles pieces
  unfold pushStringLiteral
  cases refuseControls value fun c => c = '\t' || c = '\n' || c = '\r' with
  | error err => rfl
  | ok _ =>
    have hitems := items_literal d value hout
    refine ⟨?_, hitems, fun hreach => ?_, readLiteral_quotedValue d value⟩
    · rw [spelling_literalTokens, append_assoc]
    · obtain ⟨front, hfront, -⟩ := Reader.items_of_reach hreach
      exact ⟨front, by rw [scan, hfront, hitems]⟩

theorem string_literal_after_a_parenthesis :
    (pushStringLiteral ['('] ['i', 't', '\'', 's'] .mySql).1 =
        ['('] ++ spelling (literalTokens .backslash true ['i', 't', '\'', 's']) ∧
      readLiteral .mySql [] (quotedValue .backslash true ['i', 't', '\'', 's']) =
        some ['i', 't', '\'', 's'] := by
  have hlast : (bytes ['(']).getLast? = some 40 := by decide
  have h := string_literal_is_one_literal .mySql ['('] ['i', 't', '\'', 's']
    (by rw [hlast]; rintro x ⟨⟩; decide)
  exact ⟨h.1, h.2.2.2⟩

end Oxyn
