/-
# `Oxyn.Lib.Resolve` — a relative path joined to a URL

A parser of URLs takes off the controls and spaces around its input, and the tabs and line breaks
in it; it reads a backslash as a slash, a dot segment in any of its spellings as a step, and
writes the other segments with a set of characters that leaves their percent signs.
-/
import Oxyn.Lib.Percent

namespace Resolve

open Text Percent

/-- A URL of a web scheme, taken apart; its path is the segments behind each slash. -/
structure Url where
  scheme : Str
  host : Str
  port : Option Nat
  path : List Str
  query : Option Str
  fragment : Option Str
deriving DecidableEq, Repr

/-- Where the requests of a URL go. -/
def Url.origin (url : Url) : Str × Str × Option Nat := (url.scheme, url.host, url.port)

def isWeb (scheme : Str) : Bool := scheme == "https".toList || scheme == "http".toList

/-! ## The input -/

def isControlOrSpace (c : Char) : Bool := c.toNat ≤ 0x20

def isTabOrBreak (c : Char) : Bool := c == '\t' || c == '\n' || c == '\r'

def cleaned (input : Str) : Str :=
  ((input.dropWhile isControlOrSpace).rdropWhile isControlOrSpace).filter (!isTabOrBreak ·)

/-! ## The sets -/

/-- The controls, the space, these bytes and those from `0x7f` on. -/
def setOf (l : List UInt8) : AsciiSet where
  holds b := b.toNat ≤ 0x20 || 0x7f ≤ b.toNat || l.contains b
  high := high_controls l

/-- `"`, `#`, `<`, `>`, `?`, `^`, a backquote and braces. -/
def pathSet : AsciiSet := setOf [0x22, 0x23, 0x3c, 0x3e, 0x3f, 0x5e, 0x60, 0x7b, 0x7d]

/-- `"`, `#`, `<`, `>` and the apostrophe. -/
def querySet : AsciiSet := setOf [0x22, 0x23, 0x3c, 0x3e, 0x27]

/-- `"`, `<`, `>` and a backquote. -/
def fragmentSet : AsciiSet := setOf [0x22, 0x3c, 0x3e, 0x60]

/-! ## The path -/

def isSingleDot (segment : Str) : Bool :=
  let segment := segment.map Char.toLower
  segment == ".".toList || segment == "%2e".toList

def isDoubleDot (segment : Str) : Bool :=
  let segment := segment.map Char.toLower
  segment == "..".toList || segment == ".%2e".toList || segment == "%2e.".toList ||
    segment == "%2e%2e".toList

/-- Reads the segments one after another into a path.  A step at the end leaves an empty one. -/
def walk (path : List Str) : List Str → List Str
  | [] => path
  | segment :: rest =>
    let written := encode pathSet segment
    if rest = [] then
      if isDoubleDot written then path.dropLast ++ [[]]
      else if isSingleDot written then path ++ [[]]
      else path ++ [written]
    else
      walk (if isDoubleDot written then path.dropLast
        else if isSingleDot written then path
        else path ++ [written]) rest

def isSlash (c : Char) : Bool := c == '/' || c == '\\'

def endsPath (c : Char) : Bool := c == '?' || c == '#'

def behind (mark : Char) (input : Str) : Option Str :=
  match input.dropWhile (· ≠ mark) with
  | [] => none
  | _ :: rest => some rest

/-- A relative path, and what follows it, joined to a URL: the last segment of the URL gives way. -/
def resolve (base : Url) (input : Str) : Url :=
  { base with
    path := walk base.path.dropLast ((input.takeWhile (!endsPath ·)).splitOnP isSlash)
    query := (behind '?' (input.takeWhile (· ≠ '#'))).map (encode querySet)
    fragment := (behind '#' input).map (encode fragmentSet) }

/-- A parser of URLs, of which one thing is known: a path that starts with a step is relative. -/
structure Parser where
  join : Url → Str → Option Url
  join_relative : ∀ {base : Url} {input rest : Str}, isWeb base.scheme = true →
    cleaned input = '.' :: '/' :: rest → join base input = some (resolve base (cleaned input))

/-! ## The end of an input -/

theorem rdropWhile_append_of_head {p : Char → Bool} {c : Char} (hc : p c = false) (s t : Str) :
    (s ++ c :: t).rdropWhile p = s ++ c :: t.rdropWhile p := by
  rw [List.rdropWhile, List.reverse_append, List.reverse_cons, List.append_assoc,
    List.dropWhile_append]
  split
  next hempty =>
    rw [List.singleton_append, List.dropWhile_cons_of_neg (by rw [hc]; exact Bool.false_ne_true),
      List.rdropWhile, List.isEmpty_iff.mp hempty, List.reverse_nil, List.reverse_cons,
      List.reverse_reverse]
  next =>
    rw [List.reverse_append, List.reverse_append, List.reverse_reverse, List.reverse_singleton,
      List.append_assoc]
    rfl

variable {s : Str}

theorem cleaned_relative (h : ∀ c ∈ s, isTabOrBreak c = false) :
    cleaned ('.' :: '/' :: s) = '.' :: '/' :: s.rdropWhile isControlOrSpace := by
  have hend : ('.' :: '/' :: s).rdropWhile isControlOrSpace =
      '.' :: '/' :: s.rdropWhile isControlOrSpace :=
    rdropWhile_append_of_head (by decide) ['.'] s
  rw [cleaned, List.dropWhile_cons_of_neg (by decide), hend,
    List.filter_cons_of_pos (by decide), List.filter_cons_of_pos (by decide),
    List.filter_eq_self.mpr fun c hc => ?_]
  rw [h c ((List.rdropWhile_prefix _ _).subset hc)]
  rfl

/-! ## Steps -/

theorem eq_of_toLower {c d : Char} (h : c.toLower = d) (hletter : d.toNat < 0x61) : c = d := by
  rcases toNat_of_toLower h with rfl | ⟨⟨hlow, -⟩, heq⟩
  · rfl
  · omega

theorem eq_of_toLower_e {c : Char} (h : c.toLower = 'e') : c = 'e' ∨ c = 'E' := by
  rcases toNat_of_toLower h with rfl | ⟨-, heq⟩
  · exact .inl rfl
  · exact .inr (Char.toNat_inj.mp (Nat.add_right_cancel heq.symm))

/-- A dot, in either of its spellings. -/
def IsDot (piece : Str) : Prop :=
  piece = ['.'] ∨ piece = ['%', '2', 'e'] ∨ piece = ['%', '2', 'E']

theorem isDot_of_lower {piece : Str}
    (h : piece.map Char.toLower = ".".toList ∨ piece.map Char.toLower = "%2e".toList) :
    IsDot piece := by
  rcases h with h | h
  · obtain ⟨c, rest, rfl, hc, hrest⟩ := List.map_eq_cons_iff.mp h
    rw [eq_of_toLower hc (by decide), List.map_eq_nil_iff.mp hrest]
    exact .inl rfl
  · obtain ⟨a, rest, rfl, ha, hrest⟩ := List.map_eq_cons_iff.mp h
    obtain ⟨b, rest, rfl, hb, hrest⟩ := List.map_eq_cons_iff.mp hrest
    obtain ⟨c, rest, rfl, hc, hrest⟩ := List.map_eq_cons_iff.mp hrest
    rw [eq_of_toLower ha (by decide), eq_of_toLower hb (by decide), List.map_eq_nil_iff.mp hrest]
    rcases eq_of_toLower_e hc with rfl | rfl
    · exact .inr (.inl rfl)
    · exact .inr (.inr rfl)

theorem isDots_of_lower {segment : Str} (first second : Str)
    (h : segment.map Char.toLower = first ++ second)
    (hfirst : first = ".".toList ∨ first = "%2e".toList)
    (hsecond : second = ".".toList ∨ second = "%2e".toList) :
    ∃ a b, segment = a ++ b ∧ IsDot a ∧ IsDot b := by
  obtain ⟨a, b, rfl, ha, hb⟩ := List.map_eq_append_iff.mp h
  refine ⟨a, b, rfl, isDot_of_lower ?_, isDot_of_lower ?_⟩
  · exact hfirst.imp ha.trans ha.trans
  · exact hsecond.imp hb.trans hb.trans

variable {segment : Str}

theorem decode_of_isSingleDot (h : isSingleDot segment = true) :
    decode segment = some ['.'] := by
  have hdot : IsDot segment := isDot_of_lower (by simpa only [isSingleDot, Bool.or_eq_true,
    beq_iff_eq] using h)
  rcases hdot with rfl | rfl | rfl <;> decide

theorem decode_of_isDoubleDot (h : isDoubleDot segment = true) :
    decode segment = some ['.', '.'] := by
  simp only [isDoubleDot, Bool.or_eq_true, beq_iff_eq] at h
  have hdots : ∃ a b, segment = a ++ b ∧ IsDot a ∧ IsDot b := by
    rcases h with ((h | h) | h) | h
    · exact isDots_of_lower ".".toList ".".toList h (.inl rfl) (.inl rfl)
    · exact isDots_of_lower ".".toList "%2e".toList h (.inl rfl) (.inr rfl)
    · exact isDots_of_lower "%2e".toList ".".toList h (.inr rfl) (.inl rfl)
    · exact isDots_of_lower "%2e".toList "%2e".toList h (.inr rfl) (.inr rfl)
  obtain ⟨a, b, rfl, ha, hb⟩ := hdots
  rcases ha with rfl | rfl | rfl <;> rcases hb with rfl | rfl | rfl <;> decide

theorem decode_written (s : Str) : decode (encode pathSet s) = decode s := by
  have hdigits : ∀ n : Fin 256, hexValue (UInt8.ofNat n) ≠ none →
      pathSet.holds (UInt8.ofNat n) = false := by decide +kernel
  refine decode_encode_of_keeps (by decide) (fun b hb => ?_) s
  have hb' := hdigits ⟨b.toNat, b.toNat_lt⟩
  rw [UInt8.ofNat_toNat] at hb'
  exact hb' hb

def NoStep (segment : Str) : Prop :=
  decode segment ≠ some ['.'] ∧ decode segment ≠ some ['.', '.']

theorem NoStep.not_dot (h : NoStep segment) :
    isSingleDot (encode pathSet segment) = false ∧
      isDoubleDot (encode pathSet segment) = false := by
  refine ⟨Bool.eq_false_iff.mpr fun hdot => h.1 ?_, Bool.eq_false_iff.mpr fun hdot => h.2 ?_⟩
  · rw [← decode_written]
    exact decode_of_isSingleDot hdot
  · rw [← decode_written]
    exact decode_of_isDoubleDot hdot

/-! ## Walking -/

def finish (path : List Str) (last : Str) : List Str :=
  if isDoubleDot (encode pathSet last) then path.dropLast ++ [[]]
  else if isSingleDot (encode pathSet last) then path ++ [[]]
  else path ++ [encode pathSet last]

theorem walk_append {segments : List Str} (h : ∀ segment ∈ segments, NoStep segment)
    (path : List Str) (last : Str) :
    walk path (segments ++ [last]) = finish (path ++ segments.map (encode pathSet)) last := by
  induction segments generalizing path with
  | nil =>
    rw [List.nil_append, walk, if_pos rfl, List.map_nil, List.append_nil]
    rfl
  | cons segment segments ih =>
    obtain ⟨hsingle, hdouble⟩ := (h segment List.mem_cons_self).not_dot
    have hrest : segments ++ [last] ≠ [] :=
      List.append_ne_nil_of_right_ne_nil _ (List.cons_ne_nil _ _)
    rw [List.cons_append, walk, if_neg hrest, hdouble, hsingle,
      if_neg Bool.false_ne_true, if_neg Bool.false_ne_true,
      ih (fun s hs => h s (List.mem_cons_of_mem _ hs)), List.map_cons, List.append_assoc,
      List.singleton_append]

theorem finish_plain {last : Str} (h : NoStep last) (path : List Str) :
    finish path last = path ++ [encode pathSet last] := by
  obtain ⟨hsingle, hdouble⟩ := h.not_dot
  rw [finish, hdouble, hsingle, if_neg Bool.false_ne_true, if_neg Bool.false_ne_true]

/-! ## Cutting -/

theorem splitOnP_congr {p q : Char → Bool} (h : ∀ c ∈ s, p c = q c) :
    s.splitOnP p = s.splitOnP q := by
  induction s with
  | nil => rw [List.splitOnP_nil, List.splitOnP_nil]
  | cons c s ih =>
    rw [List.splitOnP_cons_eq_if_modifyHead, List.splitOnP_cons_eq_if_modifyHead,
      h c List.mem_cons_self, ih fun d hd => h d (List.mem_cons_of_mem _ hd)]

theorem splitOnP_append_plain {p : Char → Bool} {t : Str} (h : ∀ c ∈ t, p c = false) (s : Str) :
    ∃ front last, s.splitOnP p = front ++ [last] ∧
      (s ++ t).splitOnP p = front ++ [last ++ t] := by
  induction s with
  | nil => exact ⟨[], [], List.splitOnP_nil, List.splitOnP_eq_singleton h⟩
  | cons c s ih =>
    obtain ⟨front, last, hs, ht⟩ := ih
    rw [List.cons_append, List.splitOnP_cons_eq_if_modifyHead,
      List.splitOnP_cons_eq_if_modifyHead, hs, ht]
    split
    next => exact ⟨[] :: front, last, rfl, rfl⟩
    next =>
      cases front with
      | nil => exact ⟨[], c :: last, rfl, rfl⟩
      | cons first front => exact ⟨(c :: first) :: front, last, rfl, rfl⟩

theorem takeWhile_congr {p q : Char → Bool} (h : ∀ c ∈ s, p c = q c) :
    s.takeWhile p = s.takeWhile q := by
  induction s with
  | nil => rfl
  | cons c s ih =>
    rw [List.takeWhile_cons, List.takeWhile_cons, h c List.mem_cons_self,
      ih fun d hd => h d (List.mem_cons_of_mem _ hd)]

theorem resolve_relative {base : Url} {root : List Str} (hbase : base.path = root ++ [[]])
    (hno : '#' ∉ '.' :: '/' :: s) (hslash : '\\' ∉ s.takeWhile (· ≠ '?')) :
    resolve base ('.' :: '/' :: s) =
      { base with
        path := walk root ((s.takeWhile (· ≠ '?')).splitOn '/')
        query := (behind '?' s).map (encode querySet)
        fragment := none } := by
  have hpath : ∀ s : Str, '#' ∉ s → s.takeWhile (!endsPath ·) = s.takeWhile (· ≠ '?') := by
    intro s hs
    refine takeWhile_congr fun c hc => ?_
    have hne : c ≠ '#' := fun h => hs (h ▸ hc)
    rw [endsPath, beq_eq_false_iff_ne.mpr hne, Bool.or_false, beq_eq_decide, ← decide_not]
  have hwhole : ('.' :: '/' :: s).takeWhile (· ≠ '#') = '.' :: '/' :: s :=
    List.takeWhile_eq_self_iff.mpr fun c hc => decide_eq_true fun h => hno (h ▸ hc)
  have hgone : ('.' :: '/' :: s).dropWhile (· ≠ '#') = [] :=
    List.dropWhile_eq_nil_iff.mpr fun c hc => decide_eq_true fun h => hno (h ▸ hc)
  have hnone : behind '#' ('.' :: '/' :: s) = none := by rw [behind, hgone]
  have hstep : ('.' :: '/' :: s).takeWhile (· ≠ '?') = '.' :: '/' :: s.takeWhile (· ≠ '?') := rfl
  have hsame : (s.takeWhile (· ≠ '?')).splitOnP isSlash = (s.takeWhile (· ≠ '?')).splitOn '/' := by
    rw [List.splitOn_eq_splitOnP]
    refine splitOnP_congr fun c hc => ?_
    rw [isSlash, beq_eq_false_iff_ne.mpr fun h : c = '\\' => hslash (h ▸ hc), Bool.or_false]
  have hcut : ('.' :: '/' :: s.takeWhile (· ≠ '?')).splitOnP isSlash =
      ['.'] :: (s.takeWhile (· ≠ '?')).splitOn '/' := by
    rw [← hsame]
    have hdot : ∀ c ∈ ['.'], isSlash c = false := by decide
    exact List.splitOnP_append_cons_of_forall_mem hdot '/' rfl _
  have hwalk : walk (root ++ [[]]).dropLast (['.'] :: (s.takeWhile (· ≠ '?')).splitOn '/') =
      walk root ((s.takeWhile (· ≠ '?')).splitOn '/') := by
    rw [walk, if_neg (List.splitOn_ne_nil _ _), List.dropLast_concat, if_neg (by decide),
      if_pos (by decide)]
  have hquery : behind '?' ('.' :: '/' :: s) = behind '?' s := rfl
  rw [resolve, hwhole, hnone, hpath _ hno, hstep, hcut, hbase, hwalk, hquery, Option.map_none]

/-! ## Reading -/

def named (segments : List Str) : List Str := segments.filter (· ≠ [])

/-- What the segments of a path stand for, empty ones apart. -/
def readNamed (segments : List Str) : Option (List Str) := (named segments).mapM decode

theorem named_append (a b : List Str) : named (a ++ b) = named a ++ named b :=
  List.filter_append _ _

theorem named_written (segments : List Str) :
    named (segments.map (encode pathSet)) = (named segments).map (encode pathSet) := by
  rw [named, List.filter_map]
  refine congrArg _ (List.filter_congr fun s _ => ?_)
  simp only [Function.comp_apply, ne_eq, encode_eq_nil]

theorem readNamed_written (segments : List Str) :
    readNamed (segments.map (encode pathSet)) = readNamed segments := by
  rw [readNamed, named_written, List.mapM_map]
  exact congrArg (fun f => (named segments).mapM f) (funext decode_written)

theorem length_of_mapM {f : Str → Option Str} {l read : List Str} (h : l.mapM f = some read) :
    read.length = l.length := by
  induction l generalizing read with
  | nil =>
    cases h
    rfl
  | cons s l ih =>
    rw [List.mapM_cons] at h
    obtain ⟨x, -, h⟩ := Option.bind_eq_some_iff.mp h
    obtain ⟨rest, hrest, h⟩ := Option.bind_eq_some_iff.mp h
    obtain rfl := Option.some.inj h
    exact congrArg (· + 1) (ih hrest)

theorem last_of_mapM {f : Str → Option Str} {l l' read : List Str} {s s' : Str}
    (h : (l ++ [s]).mapM f = some read) (h' : (l' ++ [s']).mapM f = some read) :
    ∃ t, f s = some t ∧ f s' = some t := by
  have hlast : ∀ {l : List Str} {s : Str}, (l ++ [s]).mapM f = some read →
      ∃ front t, f s = some t ∧ read = front ++ [t] := by
    intro l s h
    rw [List.mapM_append] at h
    obtain ⟨front, -, h⟩ := Option.bind_eq_some_iff.mp h
    obtain ⟨back, hback, h⟩ := Option.bind_eq_some_iff.mp h
    rw [List.mapM_cons] at hback
    obtain ⟨t, ht, hback⟩ := Option.bind_eq_some_iff.mp hback
    exact ⟨front, t, ht, by rw [← Option.some.inj h, ← Option.some.inj hback]; rfl⟩
  obtain ⟨front, t, ht, hread⟩ := hlast h
  obtain ⟨front', t', ht', hread'⟩ := hlast h'
  obtain ⟨-, heq⟩ := List.append_inj' (hread.symm.trans hread') rfl
  rw [← List.cons.inj heq |>.1] at ht'
  exact ⟨t, ht, ht'⟩

theorem finish_lost {root segments : List Str} {kept lost : Str} (hlost : lost ≠ [])
    {read : List Str} (hread : readNamed (segments ++ [kept ++ lost]) = some read)
    {tail : List Str}
    (hpath : finish (root ++ segments.map (encode pathSet)) kept = root ++ tail) :
    readNamed tail ≠ some read := by
  intro htail
  have hlast : named [kept ++ lost] = [kept ++ lost] :=
    List.filter_cons_of_pos (decide_eq_true (List.append_ne_nil_of_right_ne_nil _ hlost))
  have hcount : (named tail).length = (named segments).length + 1 := by
    rw [← length_of_mapM htail, length_of_mapM hread, named_append, hlast]
    exact List.length_append
  have hsum : (named root).length + (named tail).length =
      (named (finish (root ++ segments.map (encode pathSet)) kept)).length := by
    rw [hpath, named_append, List.length_append]
  have hwhole : (named (root ++ segments.map (encode pathSet))).length =
      (named root).length + (named segments).length := by
    rw [named_append, List.length_append, named_written, List.length_map]
  rw [finish] at hsum hpath
  split at hsum
  next =>
    have hdrop : (named (root ++ segments.map (encode pathSet)).dropLast).length ≤
        (named (root ++ segments.map (encode pathSet))).length :=
      ((List.dropLast_sublist _).filter _).length_le
    rw [named_append, show named [[]] = [] from rfl, List.append_nil] at hsum
    omega
  next hdouble =>
    split at hsum
    next =>
      rw [named_append, show named [[]] = [] from rfl, List.append_nil] at hsum
      omega
    next hsingle =>
      by_cases hkept : kept = []
      · subst hkept
        rw [named_append, show named [encode pathSet []] = [] from rfl, List.append_nil] at hsum
        omega
      · rw [if_neg hdouble, if_neg hsingle, List.append_assoc, List.append_cancel_left_eq] at hpath
        rw [← hpath, ← List.map_singleton, ← List.map_append, readNamed_written] at htail
        rw [readNamed, named_append, hlast] at hread
        rw [readNamed, named_append, show named [kept] = [kept] from
          List.filter_cons_of_pos (decide_eq_true hkept)] at htail
        obtain ⟨t, ht, ht'⟩ := last_of_mapM htail hread
        exact decode_append_ne ht hlost ht'

end Resolve
