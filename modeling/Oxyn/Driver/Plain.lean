/-
# `Oxyn.Driver.Plain` — URLs that are read as they are written

What is relied on of the crate can be had: components without separators in them are written one
behind the other and read back at the separators (`read_written`), and a crate that knows no other
URLs is lawful (`plainCrate_lawful`).
-/
import Oxyn.Driver.Url

namespace Oxyn.Driver

open Text Percent List

/-! ## Cutting at a separator -/

/-- What stands before the first separator, and behind it if there is one. -/
def cut (sep : Char) : Str → Str × Option Str
  | [] => ([], none)
  | c :: s => if c = sep then ([], some s) else (c :: (cut sep s).1, (cut sep s).2)

variable {s : Str}

theorem cut_of_not_mem {sep : Char} (h : sep ∉ s) : cut sep s = (s, none) := by
  induction s with
  | nil => rfl
  | cons c s ih =>
    obtain ⟨hc, hs⟩ := not_or.mp (mt mem_cons.mpr h)
    rw [cut, if_neg (Ne.symm hc), ih hs]

theorem cut_append {sep : Char} (h : sep ∉ s) (t : Str) :
    cut sep (s ++ sep :: t) = (s, some t) := by
  induction s with
  | nil => rw [nil_append, cut, if_pos rfl]
  | cons c s ih =>
    obtain ⟨hc, hs⟩ := not_or.mp (mt mem_cons.mpr h)
    rw [cons_append, cut, if_neg (Ne.symm hc), ih hs]

/-! ## The sets -/

/-- The controls, the space, these bytes and those from `0x7f` on. -/
def asciiSet (l : List UInt8) : AsciiSet where
  holds b := b.toNat ≤ 0x20 || 0x7f ≤ b.toNat || l.contains b
  high := high_controls l

/-- `USERINFO` of the crate. -/
def userinfoSet : AsciiSet :=
  asciiSet [0x22, 0x23, 0x3c, 0x3e, 0x3f, 0x5e, 0x60, 0x7b, 0x7d, 0x2f, 0x3a, 0x3b, 0x3d, 0x40,
    0x5b, 0x5c, 0x5d, 0x7c]

/-- `PATH_SEGMENT` of the crate. -/
def segmentSet : AsciiSet :=
  asciiSet [0x22, 0x23, 0x3c, 0x3e, 0x3f, 0x5e, 0x60, 0x7b, 0x7d, 0x2f, 0x25]

def querySet : AsciiSet :=
  asciiSet [0x22, 0x23, 0x26, 0x2b, 0x3d, 0x25]

theorem isWhitespace_of_range {c : Char} (h : 0x20 < c.toNat) (h' : c.toNat < 0x80) :
    isWhitespace c = false := by
  simp only [isWhitespace, Bool.or_eq_false_iff, Bool.and_eq_false_iff, beq_eq_false_iff_ne,
    decide_eq_false_iff_not]
  omega

theorem visible_encode {l : List UInt8} {c : Char} (h : c ∈ encode (asciiSet l) s) :
    isWhitespace c = false := by
  obtain ⟨hmem, hlt⟩ := byte_of_mem_encode h
  have hbyte : (UInt8.ofNat c.toNat).toNat = c.toNat := by
    rw [UInt8.toNat_ofNat']
    omega
  refine isWhitespace_of_range ?_ (by omega)
  by_contra hle
  have hholds : (asciiSet l).holds (UInt8.ofNat c.toNat) = true := by
    show (_ || _ || _) = true
    rw [Bool.or_eq_true, Bool.or_eq_true]
    exact .inl (.inl (decide_eq_true (by omega)))
  refine not_mem_encodeBytes_of_holds hholds ⟨?_, ?_⟩ hmem
  · intro hsign
    rw [hsign] at hbyte
    have : sign.toNat = 0x25 := rfl
    omega
  · simp only [hexValue, hbyte]
    rw [if_neg (by omega), if_neg (by omega), if_neg (by omega)]

/-! ## Writing and reading -/

/-- A visible character that separates nothing in an authority. -/
def Inner (c : Char) : Prop :=
  isWhitespace c = false ∧ c ≠ ':' ∧ c ≠ '/' ∧ c ≠ '?' ∧ c ≠ '@'

instance (c : Char) : Decidable (Inner c) := inferInstanceAs (Decidable (_ ∧ _))

def userinfoText (parts : UrlParts) : Str :=
  if parts.username = [] ∧ parts.password = none then []
  else parts.username ++ (parts.password.elim [] (':' :: ·) ++ ['@'])

def portText (parts : UrlParts) : Str := parts.port.elim [] fun port => ':' :: Nat.toDigits 10 port

def hostAndPort (parts : UrlParts) : Str := parts.hostStr.getD [] ++ portText parts

def pairText (pair : Str × Str) : Str := encode querySet pair.1 ++ '=' :: encode querySet pair.2

def queryText (pairs : List (Str × Str)) : Str :=
  if pairs = [] then [] else '?' :: ['&'].intercalate (pairs.map pairText)

def written (parts : UrlParts) : Str :=
  parts.scheme ++ ':' :: '/' :: '/' :: (userinfoText parts ++ hostAndPort parts ++ parts.path ++
    queryText parts.queryPairs)

def readPair (text : Str) : Str × Str :=
  ((Percent.decode (cut '=' text).1).getD [], (Percent.decode ((cut '=' text).2.getD [])).getD [])

def readPairs (text : Str) : List (Str × Str) := (text.splitOn '&').map readPair

def readAuthority (authority : Str) : Str × Option Str × Option Str × Option Nat :=
  let (userinfo, hostAndPort) := match cut '@' authority with
    | (userinfo, some rest) => (userinfo, rest)
    | (rest, none) => ([], rest)
  let (username, password) := cut ':' userinfo
  let (host, port) := cut ':' hostAndPort
  (username, password, if host = [] then none else some host,
    port.map fun digits => Nat.ofDigitChars 10 digits 0)

/-- The components of a text that was written. -/
def read (text : Str) : UrlParts :=
  let (scheme, rest) := cut ':' text
  let (front, query) := cut '?' ((rest.getD []).drop 2)
  let (authority, path) := cut '/' front
  let (username, password, hostStr, port) := readAuthority authority
  ⟨scheme, true, username, password, hostStr, port, path.elim [] ('/' :: ·),
    query.elim [] readPairs⟩

/-- Components without separators in them. -/
structure Plain (parts : UrlParts) : Prop where
  scheme : schemeOf parts.scheme = parts.scheme ∧
    ∀ c ∈ parts.scheme, isWhitespace c = false ∧ c ≠ ':'
  hasAuthority : parts.hasAuthority = true
  username : ∀ c ∈ parts.username, Inner c
  password : ∀ password ∈ parts.password, ∀ c ∈ password, Inner c
  hostStr : ∀ host ∈ parts.hostStr, host ≠ [] ∧ host.head? ≠ some '[' ∧ ∀ c ∈ host, Inner c
  port_lt : ∀ port ∈ parts.port, port < 2 ^ 16
  authority : parts.hostStr = none →
    parts.username = [] ∧ parts.password = none ∧ parts.port = none
  path : (parts.path = [] ∨ parts.path.head? = some '/') ∧
    ∀ c ∈ parts.path, isWhitespace c = false ∧ c ≠ '?'

/-! ## What is written is read -/

section Read

variable {parts : UrlParts}

theorem inner_digits {n : Nat} {c : Char} (h : c ∈ Nat.toDigits 10 n) : Inner c := by
  have hdigit := Nat.isDigit_of_mem_toDigits (by decide) (by decide) h
  have hplain : ∀ d : Char, d.isDigit = false → c ≠ d := by
    rintro d hd rfl
    rw [hdigit] at hd
    cases hd
  refine ⟨?_, hplain ':' rfl, hplain '/' rfl, hplain '?' rfl, hplain '@' rfl⟩
  rw [Char.isDigit, Bool.and_eq_true, decide_eq_true_eq, decide_eq_true_eq] at hdigit
  have hlow : 48 ≤ c.toNat := hdigit.1
  have hhigh : c.toNat ≤ 57 := hdigit.2
  exact isWhitespace_of_range (by omega) (by omega)

theorem readPair_pairText (pair : Str × Str) : readPair (pairText pair) = pair := by
  have hequals : '=' ∉ encode querySet pair.1 := not_mem_encode (by decide) (by decide)
  have hcut := cut_append hequals (encode querySet pair.2)
  rw [readPair, pairText, hcut, Option.getD_some, decode_encode_iff.mpr (.inl rfl),
    decode_encode_iff.mpr (.inl rfl), Option.getD_some, Option.getD_some]

theorem ampersand_not_mem_pairText (pair : Str × Str) : '&' ∉ pairText pair := by
  rw [pairText, mem_append, mem_cons, not_or, not_or]
  exact ⟨not_mem_encode (by decide) (by decide), by decide,
    not_mem_encode (by decide) (by decide)⟩

theorem readPairs_queryText {pairs : List (Str × Str)} (h : pairs ≠ []) :
    readPairs (['&'].intercalate (pairs.map pairText)) = pairs := by
  have hamp : ∀ text ∈ pairs.map pairText, '&' ∉ text := by
    intro text hmem
    obtain ⟨pair, -, rfl⟩ := mem_map.mp hmem
    exact ampersand_not_mem_pairText pair
  rw [readPairs, splitOn_intercalate _ hamp (by simpa using h), map_map]
  exact (map_congr_left fun pair _ => readPair_pairText pair).trans (map_id _)

theorem not_mem_of_inner (h : ∀ c ∈ s, Inner c) :
    ':' ∉ s ∧ '/' ∉ s ∧ '?' ∉ s ∧ '@' ∉ s :=
  ⟨fun hmem => (h _ hmem).2.1 rfl, fun hmem => (h _ hmem).2.2.1 rfl,
    fun hmem => (h _ hmem).2.2.2.1 rfl, fun hmem => (h _ hmem).2.2.2.2 rfl⟩

theorem inner_host (h : Plain parts) : ∀ c ∈ parts.hostStr.getD [], Inner c := by
  cases hhost : parts.hostStr with
  | none => exact fun _ hmem => (not_mem_nil hmem).elim
  | some host => exact (h.hostStr host hhost).2.2

theorem mem_authority (h : Plain parts) {c : Char}
    (hc : c ∈ userinfoText parts ++ hostAndPort parts) : Inner c ∨ c = ':' ∨ c = '@' := by
  rcases mem_append.mp hc with hc | hc
  · unfold userinfoText at hc
    split at hc
    · cases hc
    · rcases mem_append.mp hc with hc | hc
      · exact .inl (h.username c hc)
      · rcases mem_append.mp hc with hc | hc
        · cases hp : parts.password with
          | none => rw [hp] at hc; cases hc
          | some password =>
            rw [hp] at hc
            rcases mem_cons.mp hc with hc | hc
            · exact .inr (.inl hc)
            · exact .inl (h.password password hp c hc)
        · exact .inr (.inr (mem_singleton.mp hc))
  · rcases mem_append.mp hc with hc | hc
    · exact .inl (inner_host h c hc)
    · unfold portText at hc
      cases hp : parts.port with
      | none => rw [hp] at hc; cases hc
      | some port =>
        rw [hp] at hc
        rcases mem_cons.mp hc with hc | hc
        · exact .inr (.inl hc)
        · exact .inl (inner_digits hc)

theorem at_not_mem_hostAndPort (h : Plain parts) : '@' ∉ hostAndPort parts := by
  intro hmem
  rcases mem_append.mp hmem with hc | hc
  · exact (not_mem_of_inner (inner_host h)).2.2.2 hc
  · unfold portText at hc
    cases hp : parts.port with
    | none => rw [hp] at hc; cases hc
    | some port =>
      rw [hp] at hc
      rcases mem_cons.mp hc with hc | hc
      · cases hc
      · exact (inner_digits hc).2.2.2.2 rfl

theorem cut_hostAndPort (h : Plain parts) :
    cut ':' (hostAndPort parts) =
      (parts.hostStr.getD [], parts.port.map (Nat.toDigits 10)) := by
  have hcolon := (not_mem_of_inner (inner_host h)).1
  unfold hostAndPort portText
  cases hp : parts.port with
  | none => exact (congrArg (cut ':') (append_nil _)).trans (cut_of_not_mem hcolon)
  | some port => exact cut_append hcolon _

theorem readAuthority_written (h : Plain parts) :
    readAuthority (userinfoText parts ++ hostAndPort parts) =
      (parts.username, parts.password, parts.hostStr, parts.port) := by
  have hhost : (if parts.hostStr.getD [] = [] then none else some (parts.hostStr.getD [])) =
      parts.hostStr := by
    cases hhost : parts.hostStr with
    | none => rfl
    | some host => exact if_neg (h.hostStr host hhost).1
  have hport : (parts.port.map (Nat.toDigits 10)).map (fun digits => Nat.ofDigitChars 10 digits 0) =
      parts.port := by
    rw [Option.map_map]
    cases parts.port with
    | none => rfl
    | some port => exact congrArg some Nat.ofDigitChars_ten_toDigits
  have husername := not_mem_of_inner h.username
  unfold readAuthority userinfoText
  by_cases hnone : parts.username = [] ∧ parts.password = none
  · rw [if_pos hnone, nil_append, cut_of_not_mem (at_not_mem_hostAndPort h)]
    simp only [cut_hostAndPort h, hhost, hport, hnone.1, hnone.2, cut]
  · rw [if_neg hnone]
    cases hp : parts.password with
    | none =>
      have hcut := cut_append husername.2.2.2 (hostAndPort parts)
      rw [Option.elim_none, nil_append, append_assoc, singleton_append, hcut]
      simp only [cut_hostAndPort h, hhost, hport, cut_of_not_mem husername.1]
    | some password =>
      have hpassword := not_mem_of_inner (h.password password hp)
      have hat : '@' ∉ parts.username ++ ':' :: password := by
        rw [mem_append, mem_cons, not_or, not_or]
        exact ⟨husername.2.2.2, by decide, hpassword.2.2.2⟩
      have hcut := cut_append hat (hostAndPort parts)
      have hinner := cut_append husername.1 password
      rw [Option.elim_some, ← append_assoc, append_assoc, singleton_append, hcut]
      simp only [cut_hostAndPort h, hhost, hport, hinner]

theorem read_written (h : Plain parts) : read (written parts) = parts := by
  have hscheme : ':' ∉ parts.scheme := fun hmem => (h.scheme.2 _ hmem).2 rfl
  have hslash : '/' ∉ userinfoText parts ++ hostAndPort parts := by
    intro hmem
    rcases mem_authority h hmem with hc | hc | hc
    · exact hc.2.2.1 rfl
    · cases hc
    · cases hc
  have hfront : '?' ∉ userinfoText parts ++ hostAndPort parts ++ parts.path := by
    intro hmem
    rcases mem_append.mp hmem with hmem | hmem
    · rcases mem_authority h hmem with hc | hc | hc
      · exact hc.2.2.2.1 rfl
      · cases hc
      · cases hc
    · exact (h.path.2 _ hmem).2 rfl
  have hquery : cut '?' (userinfoText parts ++ hostAndPort parts ++ parts.path ++
      queryText parts.queryPairs) = (userinfoText parts ++ hostAndPort parts ++ parts.path,
        if parts.queryPairs = [] then none
        else some (['&'].intercalate (parts.queryPairs.map pairText))) := by
    unfold queryText
    split
    · rw [append_nil, cut_of_not_mem hfront]
    · exact cut_append hfront _
  have hpath : cut '/' (userinfoText parts ++ hostAndPort parts ++ parts.path) =
      (userinfoText parts ++ hostAndPort parts,
        if parts.path = [] then none else some parts.path.tail) := by
    rcases h.path.1 with hnil | hhead
    · rw [hnil, append_nil, cut_of_not_mem hslash, if_pos rfl]
    · obtain ⟨t, ht⟩ := head?_eq_some_iff.mp hhead
      rw [ht, cut_append hslash, if_neg (cons_ne_nil _ _), tail_cons]
  have hpath' : (if parts.path = [] then none else some parts.path.tail).elim [] ('/' :: ·) =
      parts.path := by
    rcases h.path.1 with hnil | hhead
    · rw [if_pos hnil, hnil, Option.elim_none]
    · obtain ⟨t, ht⟩ := head?_eq_some_iff.mp hhead
      rw [ht, if_neg (cons_ne_nil _ _), Option.elim_some, tail_cons]
  have hpairs : (if parts.queryPairs = [] then none
      else some (['&'].intercalate (parts.queryPairs.map pairText))).elim [] readPairs =
        parts.queryPairs := by
    split
    next hnil => rw [hnil, Option.elim_none]
    next hne => exact readPairs_queryText hne
  unfold read written
  simp only [cut_append hscheme, Option.getD_some, drop_succ_cons, drop_zero, hquery,
    hpath, readAuthority_written h, hpath', hpairs]
  rw [← h.hasAuthority]

end Read

/-! ## The crate that knows these URLs alone -/

section Crate

variable {parts : UrlParts}

theorem visible_pairText {pair : Str × Str} {c : Char} (h : c ∈ pairText pair) :
    isWhitespace c = false := by
  rcases mem_append.mp h with h | h
  · exact visible_encode h
  · rcases mem_cons.mp h with rfl | h
    · rfl
    · exact visible_encode h

theorem visible_intercalate {texts : List Str}
    (h : ∀ text ∈ texts, ∀ c ∈ text, isWhitespace c = false) {c : Char}
    (hc : c ∈ ['&'].intercalate texts) : isWhitespace c = false := by
  induction texts with
  | nil => cases hc
  | cons text texts ih =>
    cases texts with
    | nil =>
      rw [intercalate_singleton] at hc
      exact h text mem_cons_self c hc
    | cons next rest =>
      rw [intercalate_cons_cons] at hc
      rcases mem_append.mp hc with hc | hc
      · rcases mem_append.mp hc with hc | hc
        · exact h text mem_cons_self c hc
        · rw [mem_singleton.mp hc]
          rfl
      · exact ih (fun t ht => h t (mem_cons_of_mem _ ht)) hc

theorem visible_written (h : Plain parts) : ∀ c ∈ written parts, isWhitespace c = false := by
  intro c hc
  rcases mem_append.mp hc with hc | hc
  · exact (h.scheme.2 c hc).1
  · simp only [mem_cons, mem_append] at hc
    rcases hc with rfl | rfl | rfl | ((hc | hc) | hc) | hc
    · rfl
    · rfl
    · rfl
    · rcases mem_authority h (mem_append_left _ hc) with hc | rfl | rfl
      · exact hc.1
      · rfl
      · rfl
    · rcases mem_authority h (mem_append_right _ hc) with hc | rfl | rfl
      · exact hc.1
      · rfl
      · rfl
    · exact (h.path.2 c hc).1
    · unfold queryText at hc
      split at hc
      · cases hc
      · rcases mem_cons.mp hc with rfl | hc
        · rfl
        · refine visible_intercalate ?_ hc
          intro text hmem d hd
          obtain ⟨pair, -, rfl⟩ := mem_map.mp hmem
          exact visible_pairText hd

abbrev PlainUrl := { parts : UrlParts // Plain parts }

open Classical in
/-- These components, if they are plain. -/
noncomputable def keep (parts : UrlParts) : Option PlainUrl :=
  if h : Plain parts then some ⟨parts, h⟩ else none

variable {url : PlainUrl}

theorem keep_eq_some : keep parts = some url ↔ url.1 = parts := by
  unfold keep
  split
  next h =>
    rw [Option.some.injEq]
    exact ⟨fun heq => heq ▸ rfl, fun heq => Subtype.ext heq.symm⟩
  next h => exact ⟨nofun, fun heq => absurd (heq ▸ url.2) h⟩

def named (segments : List Str) : List Str :=
  (segments.map dropBreaks).filter fun segment => ¬ IsDot segment

theorem named_eq_self {segments : List Str}
    (h : ∀ segment ∈ segments, segment ≠ [] ∧ ¬ IsDot segment ∧ dropBreaks segment = segment) :
    named segments = segments := by
  have hmap : segments.map dropBreaks = segments :=
    (map_congr_left fun segment hmem => (h segment hmem).2.2).trans (map_id _)
  rw [named, hmap, filter_eq_self]
  intro segment hmem
  exact decide_eq_true (h segment hmem).2.1

theorem plain_path {l : List UInt8} (h : (0x3f : UInt8) ∈ l) (segments : List Str) :
    (pathOf (asciiSet l) segments = [] ∨ (pathOf (asciiSet l) segments).head? = some '/') ∧
      ∀ c ∈ pathOf (asciiSet l) segments, isWhitespace c = false ∧ c ≠ '?' := by
  constructor
  · cases segments with
    | nil => exact .inl rfl
    | cons segment segments => exact .inr rfl
  · intro c hc
    obtain ⟨segment, -, hc⟩ := mem_flatMap.mp hc
    rcases mem_cons.mp hc with rfl | hc
    · decide
    · refine ⟨visible_encode hc, ?_⟩
      rintro rfl
      have hholds : (asciiSet l).holds 0x3f = true := by
        simp only [asciiSet, contains_iff_mem.mpr h, Bool.or_true]
      exact not_mem_encode hholds (by decide) hc

noncomputable def parsePlain (text : Str) : Option PlainUrl :=
  (keep (read text)).filter fun url => written url.1 = text

theorem parsePlain_eq_some {text : Str} :
    parsePlain text = some url ↔ written url.1 = text := by
  rw [parsePlain, Option.filter_eq_some_iff, keep_eq_some, decide_eq_true_eq]
  constructor
  · exact And.right
  · intro h
    exact ⟨by rw [← h, read_written url.2], h⟩

def extendPlain (url : PlainUrl) (segments : List Str) : PlainUrl :=
  ⟨{ url.1 with path := pathOf segmentSet (named segments) },
    { url.2 with path := plain_path (by decide) _ }⟩

noncomputable def plainCrate : UrlCrate where
  Url := PlainUrl
  parse := parsePlain
  asStr url := written url.1
  parts url := url.1
  extendSegments url segments := some (extendPlain url segments)
  appendPairs url pairs :=
    ⟨{ url.1 with queryPairs := url.1.queryPairs ++ pairs },
      { url.2 with }⟩
  setHost url host := keep { url.1 with hostStr := if host = [] then none else some host }
  setPort url port := keep { url.1 with port := some port }
  setUsername url user := keep { url.1 with username := encode userinfoSet user }
  setPassword url password :=
    keep { url.1 with
      password := if password = [] then none else some (encode userinfoSet password) }
  userinfo := userinfoSet
  pathSegment _ := segmentSet

theorem inner_encode : ∀ c ∈ encode userinfoSet s, Inner c := by
  intro c hc
  refine ⟨visible_encode hc, ?_, ?_, ?_, ?_⟩
  all_goals
    rintro rfl
    exact not_mem_encode (by decide) (by decide) hc

theorem placeholder_parts {name : Str} (hname : ':' ∉ name)
    (h : parsePlain (placeholderUrl name) = some url) :
    url.1 = ⟨name, true, [], none, some placeholderHost, none, [], []⟩ := by
  have hwritten := parsePlain_eq_some.mp h
  have hread : read (placeholderUrl name) =
      ⟨name, true, [], none, some placeholderHost, none, [], []⟩ := by
    have htext : placeholderUrl name = name ++ ':' :: '/' :: '/' :: placeholderHost := by
      rw [placeholderUrl, append_assoc]
      rfl
    have hhost : read (name ++ ':' :: '/' :: '/' :: placeholderHost) =
        { read (':' :: '/' :: '/' :: placeholderHost) with scheme := name } := by
      unfold read
      simp only [cut_append hname]
      rfl
    rw [htext, hhost]
    rfl
  rw [← read_written url.2, hwritten, hread]

theorem plainCrate_lawful {scheme : Str} (hscheme : ':' ∉ scheme) :
    plainCrate.Lawful scheme where
  userinfo_sign := by decide
  segment_sign := by
    show segmentSet.holds sign = true
    decide
  segment_slash := by
    show segmentSet.holds 0x2f = true
    decide
  parse_placeholder {name url} hname h := by
    have hcolon : ':' ∉ name := fun hmem => hscheme (hname ▸ mem_map_of_mem hmem)
    have hparts := placeholder_parts hcolon h
    have hlower : name = scheme := by
      have hplain := url.2.scheme.1
      rw [hparts] at hplain
      rw [← hname, hplain]
    exact ⟨_, _, hlower ▸ hparts, .inl rfl⟩
  parse_asStr {url} _ _ :=
    ⟨trim_eq_self (visible_written url.2), url, parsePlain_eq_some.mpr rfl, rfl⟩
  extendSegments {url url' segments} _ _ h := by
    obtain rfl := Option.some.inj h
    refine ⟨named segments, rfl, fun piece hmem => ?_, named_eq_self⟩
    obtain ⟨hmem, hdot⟩ := mem_filter.mp hmem
    obtain ⟨segment, hsegment, rfl⟩ := mem_map.mp hmem
    exact ⟨of_decide_eq_true hdot, .inr ⟨segment, hsegment, rfl⟩⟩
  appendPairs _ _ := rfl
  setHost {url url' host} _ h := by
    refine ⟨_, keep_eq_some.mp h, ?_⟩
    split
    next hnil => simp [hnil]
    next hne => simp [hne]
  setPort _ h := ⟨_, keep_eq_some.mp h⟩
  setUsername _ h := keep_eq_some.mp h
  setPassword {url} password _ hhost := by
    have hplain : Plain { url.1 with
        password := if password = [] then none else some (encode userinfoSet password) } :=
      { url.2 with
        password := by
          intro w hw
          split at hw
          · cases hw
          · exact Option.some.inj hw ▸ inner_encode
        authority := by
          intro hnone
          have hhost' : url.1.host.isSome = true := hhost
          rw [UrlParts.host, hnone] at hhost'
          cases hhost' }
    exact ⟨⟨_, hplain⟩, keep_eq_some.mpr rfl, rfl⟩

end Crate

end Oxyn.Driver
