/-
# `Oxyn.Search.Endpoint` — the endpoint classified, and the endpoint reached

The classifier reads the segments of the path as typed; the request goes where the path, joined to
the configured URL, leads.
-/
import Oxyn.Lib.Resolve
import Oxyn.Search.Request

namespace Oxyn.Search

open Text Json Resolve Percent List

variable {F : Type}

/-- The configured URL: of a web scheme, with no query and no fragment, and a path that ends with
a slash. -/
structure Base where
  url : Url
  root : List Str
  web : isWeb url.scheme = true
  path_eq : url.path = root ++ [[]]
  query_eq : url.query = none
  fragment_eq : url.fragment = none

def httpUrl (parser : Resolve.Parser) (base : Base) (path : Str) : Except String Url :=
  if !pathIsLiteral path then .error "the API path holds a `.` or `..` segment or a `\\`"
  else
    match parser.join base.url ('.' :: '/' :: path.dropWhile (· = '/')) with
    | none => .error "the API path is not a valid URL path"
    | some url =>
      if url.origin ≠ base.url.origin then .error "the API path leaves the configured cluster"
      else .ok url

/-- The URL has the base's origin; its path is the base's and then these segments, empty ones apart;
its query is the path's. -/
structure Reached (base : Base) (path : Str) (read : List Str) (url : Url) : Prop where
  same_origin : url.origin = base.url.origin
  same_path : ∃ tail, url.path = base.root ++ tail ∧ readNamed tail = some read
  same_query : url.query = (queryOf path).map (encode querySet)

def SameEndpoint (parser : Resolve.Parser) (base : Base) (request : SearchRequest F) : Prop :=
  (∀ read url, Route.segments request.path = some read →
      httpUrl parser base request.path = .ok url → Reached base request.path read url) ∧
    (Route.segments request.path = none → statementIntent request = .unknown)

def EndsWithControl (path : Str) : Prop := ∃ c ∈ path.getLast?, isControlOrSpace c = true

/-! ## Accepted paths -/

/-- What the console grammar promises of a path. -/
structure Accepted (path : Str) : Prop where
  slash : path.head? = some '/'
  spaces : ∀ c ∈ path, isAsciiSpace c = false
  fragment : '#' ∉ path
  literal : pathIsLiteral path = true

theorem asciiSpace_of_word {text word : Str} (h : word ∈ asciiWords text) :
    ∀ c ∈ word, isAsciiSpace c = false := by
  have hpiece := (mem_filter.mp h).1
  clear h
  induction text generalizing word with
  | nil =>
    rw [splitOnP_nil, mem_singleton] at hpiece
    rw [hpiece]
    exact fun c hc => absurd hc not_mem_nil
  | cons d text ih =>
    rw [splitOnP_cons_eq_if_modifyHead] at hpiece
    split at hpiece
    next =>
      rcases mem_cons.mp hpiece with rfl | hpiece
      · exact fun c hc => absurd hc not_mem_nil
      · exact ih hpiece
    next hd =>
      cases hs : text.splitOnP isAsciiSpace with
      | nil => exact absurd hs (splitOnP_ne_nil _ _)
      | cons first rest =>
        rw [hs, modifyHead_cons] at hpiece
        rcases mem_cons.mp hpiece with rfl | hpiece
        · intro c hc
          rcases mem_cons.mp hc with rfl | hc
          · exact Bool.eq_false_iff.mpr hd
          · exact ih (by rw [hs]; exact mem_cons_self) c hc
        · exact ih (by rw [hs]; exact mem_cons_of_mem _ hpiece)

theorem splitOn_slash (path : Str) : ('/' :: path).splitOn '/' = [] :: path.splitOn '/' :=
  splitOn_append_cons_self_of_not_mem not_mem_nil _

theorem beforeQuery_slash (path : Str) : beforeQuery ('/' :: path) = '/' :: beforeQuery path :=
  takeWhile_cons_of_pos (by decide)

theorem pathIsLiteral_slash (path : Str) : pathIsLiteral ('/' :: path) = pathIsLiteral path := by
  rw [pathIsLiteral, pathIsLiteral, beforeQuery_slash, splitOn_slash, all_cons]
  rfl

theorem accepted_of_parseHead {head method path : Str} (h : parseHead head = .ok (method, path)) :
    Accepted path := by
  unfold parseHead at h
  split at h
  next => cases h
  next => cases h
  next method' written hwords =>
    have hword : written ∈ asciiWords head := by
      rw [hwords]
      exact mem_cons_of_mem _ mem_cons_self
    have hspaces := asciiSpace_of_word hword
    dsimp only at h
    split at h
    next => cases h
    next =>
      split at h
      next => cases h
      next hleaves =>
        split at h
        next => cases h
        next hliteral =>
          have hfragment : '#' ∉ written := by
            intro hmem
            refine hleaves ?_
            rw [leavesServer, Bool.or_eq_true]
            exact .inr (contains_iff_mem.mpr hmem)
          have hlit : pathIsLiteral written = true := by simpa using hliteral
          obtain ⟨-, rfl⟩ := Prod.mk.inj (Except.ok.inj h)
          split
          next hslash => exact ⟨hslash, hspaces, hfragment, hlit⟩
          next =>
            refine ⟨rfl, fun c hc => ?_, fun hmem => ?_, ?_⟩
            · rcases mem_cons.mp hc with rfl | hc
              · decide
              · exact hspaces c hc
            · rcases mem_cons.mp hmem with h | hmem
              · exact absurd h (by decide)
              · exact hfragment hmem
            · rw [pathIsLiteral_slash, hlit]
  next => cases h

theorem accepted_of_parseRequest {reader : JsonReader F} {text : Str} {request : SearchRequest F}
    (h : parseRequest reader text = .ok request) : Accepted request.path := by
  unfold parseRequest at h
  generalize headAndBody (uncommented text) = parts at h
  obtain ⟨⟨method, path⟩, hhead, h⟩ := Fallible.bind_eq_ok.mp h
  have hpath : request.path = path := by
    dsimp only at h
    split at h
    next => exact (Fallible.pure_eq_ok.mp h) ▸ rfl
    next =>
      split at h
      next =>
        split at h
        next => cases h
        next => exact (Fallible.pure_eq_ok.mp h) ▸ rfl
      next =>
        split at h
        next => cases h
        next => exact (Fallible.pure_eq_ok.mp h) ▸ rfl
  rw [hpath]
  exact accepted_of_parseHead hhead

/-! ## Leading slashes -/

def joined (path : Str) : Str := path.dropWhile (· = '/')

theorem segments_eq (path : Str) :
    Route.segments path = readNamed ((beforeQuery path).splitOn '/') := by
  rw [Route.segments, readNamed, named]
  refine congrArg (fun l => l.mapM percentDecode) (filter_congr fun s _ => ?_)
  cases s <;> rfl

theorem of_joined (path : Str) :
    Route.segments (joined path) = Route.segments path ∧ queryOf (joined path) = queryOf path ∧
      pathIsLiteral (joined path) = pathIsLiteral path := by
  induction path with
  | nil => exact ⟨rfl, rfl, rfl⟩
  | cons c path ih =>
    by_cases hc : c = '/'
    · subst hc
      have hdrop : joined ('/' :: path) = joined path := dropWhile_cons_of_pos (by decide)
      rw [hdrop, pathIsLiteral_slash, segments_eq ('/' :: path), beforeQuery_slash, splitOn_slash]
      exact ⟨ih.1.trans (segments_eq path), ih.2.1, ih.2.2⟩
    · have hdrop : joined (c :: path) = c :: path :=
        dropWhile_cons_of_neg (by rw [decide_eq_true_iff]; exact hc)
      rw [hdrop]
      exact ⟨rfl, rfl, rfl⟩

theorem joined_suffix (path : Str) : joined path <:+ path := dropWhile_suffix _

variable {path : Str}

theorem endsWithControl_joined :
    EndsWithControl (joined path) ↔ EndsWithControl path := by
  have hwhole : path.takeWhile (· = '/') ++ joined path = path := takeWhile_append_dropWhile
  by_cases hnil : joined path = []
  · rw [hnil, append_nil] at hwhole
    constructor
    · rintro ⟨c, hc, -⟩
      rw [hnil] at hc
      cases hc
    · rintro ⟨c, hc, hcontrol⟩
      rw [← hwhole] at hc
      have hslash := mem_takeWhile_imp (mem_of_mem_getLast? hc)
      rw [of_decide_eq_true hslash] at hcontrol
      exact absurd hcontrol (by decide)
  · have hlast : path.getLast? = (joined path).getLast? := by
      rw [← hwhole, getLast?_append_of_ne_nil _ hnil, hwhole]
    rw [EndsWithControl, EndsWithControl, hlast]

/-! ## Joined paths -/

theorem noStep_of_literal (h : pathIsLiteral path = true) :
    '\\' ∉ beforeQuery path ∧ ∀ raw ∈ (beforeQuery path).splitOn '/', NoStep raw := by
  obtain ⟨hslash, hsteps⟩ := (Bool.and_eq_true _ _).mp h
  refine ⟨fun hmem => ?_, fun raw hraw => ?_⟩
  · rw [contains_iff_mem.mpr hmem] at hslash
    cases hslash
  · have hstep := all_eq_true.mp hsteps raw hraw
    constructor
    · intro hdot
      rw [show percentDecode raw = some ['.'] from hdot] at hstep
      exact absurd hstep (by decide)
    · intro hdots
      rw [show percentDecode raw = some ['.', '.'] from hdots] at hstep
      exact absurd hstep (by decide)

theorem takeWhile_prefix_append (p : Char → Bool) (s t : Str) :
    s.takeWhile p <+: (s ++ t).takeWhile p := by
  rw [takeWhile_append]
  split
  next => exact (List.takeWhile_prefix p).trans (prefix_append _ _)
  next => exact prefix_rfl

def keptOf (path : Str) : Str := (joined path).rdropWhile isControlOrSpace

theorem httpUrl_eq (h : Accepted path) (parser : Resolve.Parser) (base : Base) :
    httpUrl parser base path = .ok
      { base.url with
        path := walk base.root ((beforeQuery (keptOf path)).splitOn '/')
        query := (queryOf (keptOf path)).map (encode querySet)
        fragment := none } := by
  obtain ⟨lost, hlost⟩ : keptOf path <+: joined path := rdropWhile_prefix _ _
  have hmem : ∀ c ∈ keptOf path, c ∈ path := fun c hc =>
    (joined_suffix path).subset (hlost ▸ mem_append_left _ hc)
  have hclean : cleaned ('.' :: '/' :: joined path) = '.' :: '/' :: keptOf path := by
    refine cleaned_relative fun c hc => ?_
    have hspace := h.spaces c ((joined_suffix path).subset hc)
    simp only [isAsciiSpace, Bool.or_eq_false_iff] at hspace
    rw [isTabOrBreak, hspace.1.1.1.2, hspace.1.1.2, hspace.2]
    rfl
  have hslash : '\\' ∉ beforeQuery (keptOf path) := by
    have hliteral := noStep_of_literal ((of_joined path).2.2.trans h.literal)
    intro hin
    rw [← hlost] at hliteral
    exact hliteral.1 ((takeWhile_prefix_append _ _ _).subset hin)
  have hjoin := parser.join_relative base.web hclean
  rw [hclean, resolve_relative base.path_eq (fun hin => ?_) hslash] at hjoin
  · rw [httpUrl, h.literal, Bool.not_true, if_neg Bool.false_ne_true,
      show path.dropWhile (· = '/') = joined path from rfl, hjoin]
    exact if_neg (not_not.mpr rfl)
  · rcases mem_cons.mp hin with h' | hin
    · exact absurd h' (by decide)
    · rcases mem_cons.mp hin with h' | hin
      · exact absurd h' (by decide)
      · exact h.fragment (hmem _ hin)

variable {parser : Resolve.Parser} {base : Base} {url : Url}

theorem reached_of_kept (h : Accepted path) (hkept : keptOf path = joined path)
    {read : List Str}
    (hread : Route.segments path = some read) (hurl : httpUrl parser base path = .ok url) :
    Reached base path read url := by
  obtain ⟨hsegments, hquery, hliteral⟩ := of_joined path
  rw [httpUrl_eq h, hkept] at hurl
  obtain rfl := (Except.ok.inj hurl).symm
  refine ⟨rfl, ⟨((beforeQuery (joined path)).splitOn '/').map (encode pathSet), ?_, ?_⟩, ?_⟩
  · have hsteps := (noStep_of_literal (hliteral.trans h.literal)).2
    obtain hnil | ⟨front, last, hcut⟩ :=
      eq_nil_or_concat ((beforeQuery (joined path)).splitOn '/')
    · exact absurd hnil (splitOn_ne_nil _ _)
    · rw [concat_eq_append] at hcut
      rw [hcut] at hsteps ⊢
      dsimp only
      rw [walk_append fun s hs => hsteps s (mem_append_left _ hs),
        finish_plain (hsteps last (mem_append_right _ mem_cons_self)), append_assoc,
        map_append, map_singleton]
  · rw [readNamed_written, ← segments_eq, hsegments, hread]
  · dsimp only
    rw [hquery]

theorem encode_append (set : AsciiSet) (s t : Str) :
    encode set (s ++ t) = encode set s ++ encode set t := by
  rw [encode, bytes_append, encodeBytes, flatMap_append, map_append]
  rfl

theorem queryOf_of_not_mem {s : Str} (h : '?' ∉ s) : beforeQuery s = s ∧ queryOf s = none := by
  have hne : ∀ c ∈ s, decide (c ≠ '?') = true := fun c hc => decide_eq_true fun heq => h (heq ▸ hc)
  have hnil : s.dropWhile (· ≠ '?') = [] := dropWhile_eq_nil_iff.mpr hne
  exact ⟨takeWhile_eq_self_iff.mpr hne, by rw [queryOf, hnil]⟩

theorem queryOf_append {s : Str} (h : '?' ∉ s) (query : Str) :
    queryOf (s ++ '?' :: query) = some query := by
  have hne : ∀ c ∈ s, decide (c ≠ '?') = true := fun c hc => decide_eq_true fun heq => h (heq ▸ hc)
  have hdrop : (s ++ '?' :: query).dropWhile (· ≠ '?') = '?' :: query := by
    rw [dropWhile_append_of_pos hne, dropWhile_cons_of_neg (by decide)]
  rw [queryOf, hdrop]

theorem not_reached_of_lost {path lost : Str} (h : Accepted path)
    (hlost : joined path = keptOf path ++ lost) (hne : lost ≠ [])
    (hcontrol : ∀ c ∈ lost, isControlOrSpace c = true)
    {read : List Str} (hread : Route.segments path = some read)
    (hurl : httpUrl parser base path = .ok url) : ¬ Reached base path read url := by
  have hmark : ∀ {mark : Char}, isControlOrSpace mark = false → ∀ c ∈ lost, (c == mark) = false :=
    fun hno c hc => beq_eq_false_iff_ne.mpr fun heq =>
      Bool.false_ne_true (hno.symm.trans (heq ▸ hcontrol c hc))
  obtain ⟨hsegments, hquery, hliteral⟩ := of_joined path
  rw [httpUrl_eq h] at hurl
  obtain rfl := (Except.ok.inj hurl).symm
  rintro ⟨-, ⟨tail, hpath, htail⟩, hsame⟩
  by_cases hmem : '?' ∈ keptOf path
  · obtain ⟨front, query, hkept, hfront⟩ := eq_append_cons_of_mem hmem
    rw [← hquery, hlost, hkept, append_assoc, cons_append, queryOf_append hfront,
      queryOf_append hfront, Option.map_some, Option.map_some, encode_append] at hsame
    exact hne (encode_eq_nil.mp (self_eq_append_right.mp (Option.some.inj hsame)))
  · have hnone : '?' ∉ joined path := by
      rw [hlost, mem_append, not_or]
      exact ⟨hmem, fun hc => absurd (hcontrol _ hc) (by decide)⟩
    have hsteps := (noStep_of_literal (hliteral.trans h.literal)).2
    rw [← hsegments, segments_eq, (queryOf_of_not_mem hnone).1, hlost] at hread
    rw [(queryOf_of_not_mem hnone).1, hlost] at hsteps
    dsimp only at hpath
    rw [(queryOf_of_not_mem hmem).1] at hpath
    rw [splitOn_eq_splitOnP] at hread hsteps hpath
    obtain ⟨front, last, hcut, hwhole⟩ :=
      splitOnP_append_plain (p := (· == '/')) (hmark (by decide)) (keptOf path)
    rw [hwhole] at hread hsteps
    rw [hcut, walk_append fun s hs => hsteps s (mem_append_left _ hs)] at hpath
    exact finish_lost hne hread hpath htail

/-- The endpoint reached is the one that was read exactly when the path does not end with a
control character, or cannot be read. -/
theorem same_endpoint_iff (parser : Resolve.Parser) (base : Base) {reader : JsonReader F}
    {text : Str} {request : SearchRequest F} (h : parseRequest reader text = .ok request) :
    SameEndpoint parser base request ↔
      (EndsWithControl request.path → Route.segments request.path = none) := by
  have haccepted := accepted_of_parseRequest h
  have hunknown : Route.segments request.path = none → statementIntent request = .unknown := by
    intro hnone
    rw [statementIntent, Route.parse, haccepted.literal, hnone]
    rfl
  have hwhole : keptOf request.path ++ (joined request.path).rtakeWhile isControlOrSpace =
      joined request.path := rdropWhile_append_rtakeWhile
  constructor
  · intro hsame hends
    by_contra hread
    obtain ⟨read, hread⟩ := Option.ne_none_iff_exists'.mp hread
    have hurl := httpUrl_eq haccepted parser base
    refine not_reached_of_lost haccepted hwhole.symm ?_ ?_ hread hurl (hsame.1 read _ hread hurl)
    · obtain ⟨c, hc, hcontrol⟩ := endsWithControl_joined.mpr hends
      intro hnil
      have hne : joined request.path ≠ [] := fun h => by rw [h] at hc; cases hc
      obtain rfl := Option.some.inj ((getLast?_eq_getLast_of_ne_nil hne).symm.trans hc)
      exact rtakeWhile_eq_nil_iff.mp hnil hne hcontrol
    · exact fun c hc => mem_rtakeWhile_imp hc
  · intro hends
    refine ⟨fun read url hread hurl => reached_of_kept haccepted ?_ hread hurl, hunknown⟩
    refine rdropWhile_eq_self_iff.mpr fun hne hcontrol => ?_
    have hnone := hends (endsWithControl_joined.mp
      ⟨_, getLast?_eq_getLast_of_ne_nil hne, hcontrol⟩)
    rw [hnone] at hread
    cases hread

/-! ## A cluster -/

theorem httpUrl_of_join {path : Str} (hliteral : pathIsLiteral path = true)
    (hjoin : parser.join base.url ('.' :: '/' :: path.dropWhile (· = '/')) = some url)
    (horigin : url.origin = base.url.origin) : httpUrl parser base path = .ok url := by
  rw [httpUrl, hliteral, Bool.not_true, if_neg Bool.false_ne_true, hjoin]
  exact if_neg (not_not.mpr horigin)

def relativeParser : Resolve.Parser where
  join base input :=
    match cleaned input with
    | '.' :: '/' :: _ => some (resolve base (cleaned input))
    | _ => none
  join_relative _ h := by
    rw [h]
    rfl

def cluster : Base where
  url := ⟨"https".toList, "cluster.example".toList, none, [[]], none, none⟩
  root := []
  web := by decide
  path_eq := rfl
  query_eq := rfl
  fragment_eq := rfl

/-- A reader to which nothing is a document. -/
def noReader : JsonReader Unit := ⟨fun _ => .error (1, 1)⟩

def bare (method path : Str) : SearchRequest Unit := ⟨method, path, none, none, false⟩

theorem parseRequest_bare {text head method path : Str}
    (hparts : headAndBody (uncommented text) = (head, []))
    (hhead : parseHead head = .ok (method, path)) (hndjson : takesNdjson path = false) :
    parseRequest noReader text = .ok (bare method path) := by
  rw [parseRequest, hparts]
  dsimp only
  rw [hhead, Fallible.ok_bind]
  dsimp only
  rw [if_pos rfl, hndjson]
  rfl

def prefixed : Base where
  url := { cluster.url with path := [['e', 's'], []] }
  root := [['e', 's']]
  web := by decide
  path_eq := rfl
  query_eq := rfl
  fragment_eq := rfl

/-- A search, its index written with an escape. -/
def searchPath : Str :=
  ['/', 'a', '%', '2', 'f', 'b', '/', '_', 's', 'e', 'a', 'r', 'c', 'h', '?', 'q', '=', '1']

def searchUrl : Url :=
  { prefixed.url with
    path := [['e', 's'], ['a', '%', '2', 'f', 'b'], ['_', 's', 'e', 'a', 'r', 'c', 'h']]
    query := some ['q', '=', '1'] }

/-- The search of the index `a/b` that is read is the one that is sent, behind the prefix. -/
theorem escaped_search_is_reached :
    SameEndpoint relativeParser prefixed (bare ['G', 'E', 'T'] searchPath) ∧
      Reached prefixed searchPath [['a', '/', 'b'], ['_', 's', 'e', 'a', 'r', 'c', 'h']] searchUrl := by
  have hparse : parseRequest noReader (['G', 'E', 'T', ' '] ++ searchPath) =
      .ok (bare ['G', 'E', 'T'] searchPath) :=
    @parseRequest_bare _ (['G', 'E', 'T', ' '] ++ searchPath) _ _ (by decide) rfl
      (by decide)
  have hsame : SameEndpoint relativeParser prefixed (bare ['G', 'E', 'T'] searchPath) := by
    refine (same_endpoint_iff relativeParser prefixed hparse).mpr ?_
    rintro ⟨c, hc, hcontrol⟩
    obtain rfl := Option.some.inj hc
    exact absurd hcontrol (by decide)
  exact ⟨hsame, hsame.1 _ _ (by decide) (httpUrl_of_join (by decide) (by decide) rfl)⟩

/-- A document of an index, its identifier two dots and a control character. -/
def dotsPath : Str :=
  ['/', 'l', 'o', 'g', 's', '/', '_', 'd', 'o', 'c', '/', '.', '.', '\x01']

def dotsDelete : SearchRequest Unit := bare ['D', 'E', 'L', 'E', 'T', 'E'] dotsPath

/-- Its deletion is accepted, and goes to the index. -/
theorem control_makes_a_step :
    parseRequest noReader (['D', 'E', 'L', 'E', 'T', 'E', ' '] ++ dotsPath) = .ok dotsDelete ∧
      (httpUrl relativeParser cluster dotsPath).map Url.path =
        .ok [['l', 'o', 'g', 's'], []] ∧
      ¬ SameEndpoint relativeParser cluster dotsDelete := by
  have hurl : httpUrl relativeParser cluster dotsPath =
      .ok { cluster.url with path := [['l', 'o', 'g', 's'], []] } :=
    httpUrl_of_join (by decide) (by decide) rfl
  have hread : Route.segments dotsPath =
      some [['l', 'o', 'g', 's'], ['_', 'd', 'o', 'c'], ['.', '.', '\x01']] := by decide
  refine ⟨@parseRequest_bare _ (['D', 'E', 'L', 'E', 'T', 'E', ' '] ++ dotsPath) _ _
    (by decide) rfl (by decide), by rw [hurl]; rfl, fun hsame => ?_⟩
  obtain ⟨tail, hpath, htail⟩ := (hsame.1 _ _ hread hurl).same_path
  rw [show tail = [['l', 'o', 'g', 's'], []] from hpath.symm] at htail
  exact absurd htail (by decide)

end Oxyn.Search
