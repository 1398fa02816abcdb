/-
# `Oxyn.Driver.Exposed` — what a connection URL carries

A URL that was built is exposed and parsed again.
-/
import Oxyn.Driver.Dsn
import Oxyn.Driver.Plain

namespace Oxyn.Driver

open Text Percent List
open Fallible (bind_eq_ok ok_bind)

/-! ## Components and what is read of them -/

section Components

variable {set : AsciiSet} {s t detail : Str}

theorem percentDecode_eq (s : Str) : percentDecode s = Percent.decode s := by
  unfold percentDecode
  split
  next h => exact (decode_of_no_sign (by simpa using h)).symm
  next => rfl

@[simp] theorem decode_eq_ok : decode s detail = .ok t ↔ Percent.decode s = some t := by
  rw [decode, okOr_eq_ok, percentDecode_eq]

theorem map_some_eq_ok {ε α : Type} {x : Except ε α} {a : α} :
    x.map some = .ok (some a) ↔ x = .ok a := by
  cases x <;> simp [Except.map]

/-- A text, written with a set that leaves the percent sign alone, is read back when it has
none. -/
theorem decode_encode_eq_ok (h : set.holds sign = false) :
    decode (encode set s) detail = .ok s ↔ '%' ∉ s := by
  rw [decode_eq_ok, decode_encode_iff, h]
  simp

theorem readUser_written (h : set.holds sign = false) {user : Option Str} :
    readUser ((user.map (encode set)).getD []) = .ok user ↔
      ∀ u ∈ user, u ≠ [] ∧ '%' ∉ u := by
  cases user with
  | none => simp [readUser]
  | some u =>
    simp only [Option.map_some, Option.getD_some, Option.mem_some_iff, forall_eq']
    by_cases hu : u = []
    · simp [hu, readUser, encode_eq_nil.mpr rfl]
    · rw [readUser, if_neg (mt encode_eq_nil.mp hu), map_some_eq_ok, decode_encode_eq_ok h]
      simp [hu]

theorem readPassword_written (h : set.holds sign = false) {password : Option Str} :
    readPassword (password.bind fun p => if p = [] then none else some (encode set p)) =
        .ok password ↔ ∀ p ∈ password, p ≠ [] ∧ '%' ∉ p := by
  cases password with
  | none => simp [readPassword]
  | some p =>
    simp only [Option.bind_some, Option.mem_some_iff, forall_eq']
    by_cases hp : p = []
    · simp [hp, readPassword]
    · simp only [if_neg hp, readPassword]
      rw [if_neg (mt encode_eq_nil.mp hp), map_some_eq_ok, decode_encode_eq_ok h]
      simp [hp]

theorem slash_not_mem_encode (h : set.holds 0x2f = true) (s : Str) : '/' ∉ encode set s :=
  not_mem_encode h (by decide)

theorem pieces_pathOf (h : set.holds 0x2f = true) (segments : List Str) :
    pieces (pathOf set segments) = (segments.filter (· ≠ [])).map (encode set) := by
  have hsplit : ∀ l : List Str, ∀ u : Str, '/' ∉ u →
      (u ++ pathOf set l).splitOn '/' = u :: l.map (encode set) := by
    intro l
    induction l with
    | nil =>
      intro u hu
      rw [pathOf, flatMap_nil, append_nil, splitOn_eq_singleton hu]
      rfl
    | cons s l ih =>
      intro u hu
      rw [pathOf, flatMap_cons, cons_append,
        splitOn_append_cons_self_of_not_mem hu]
      exact congrArg (u :: ·) (ih _ (slash_not_mem_encode h s))
  have hpieces := hsplit segments [] not_mem_nil
  rw [nil_append] at hpieces
  rw [pieces, hpieces, filter_cons_of_neg (by simp), filter_map]
  refine congrArg (List.map _) (filter_congr fun s _ => ?_)
  simp [encode_eq_nil]

theorem mapM_decode_encode (h : set.holds sign = true) (l : List Str) :
    (l.map (encode set)).mapM (fun raw => decode raw detail) = .ok l := by
  induction l with
  | nil => rfl
  | cons s l ih =>
    have hs : decode (encode set s) detail = .ok s :=
      decode_eq_ok.mpr (decode_encode_iff.mpr (.inl h))
    rw [map_cons, mapM_cons, hs, ok_bind, ih]
    rfl

theorem readSegments_pathOf (hsign : set.holds sign = true) (hslash : set.holds 0x2f = true)
    (segments : List Str) :
    readSegments (pathOf set segments) = .ok (segments.filter (· ≠ [])) := by
  rw [readSegments, pieces_pathOf hslash, mapM_decode_encode hsign]

end Components

/-! ## The query parameters -/

theorem options_gathered (pairs : List (Str × Str)) (g : Gathered) :
    (pairs.foldl Gathered.add g).options =
      (pairs.filter fun pair => !looksLikeSecret pair.1).foldl
        (fun options pair => options.insert pair.1 pair.2) g.options := by
  induction pairs generalizing g with
  | nil => rfl
  | cons pair pairs ih =>
    rw [foldl_cons, ih]
    cases hkey : looksLikeSecret pair.1 with
    | false =>
      rw [filter_cons_of_pos (by rw [hkey]; rfl), foldl_cons, Gathered.add,
        if_pos (by rw [hkey]; rfl)]
    | true =>
      rw [filter_cons_of_neg (by rw [hkey]; decide), Gathered.add,
        if_neg (by rw [hkey]; decide)]
      split <;> rfl

theorem entries_gathered (options : IndexMap Str Str) (password : Option Str) :
    (options.entries.foldl Gathered.add ⟨.empty, ⟨password⟩, []⟩).options.entries =
      options.entries.filter fun pair => !looksLikeSecret pair.1 := by
  have hnodup := (options.retain fun key => !looksLikeSecret key).nodup
  have h := IndexMap.entries_foldl_insert (m := .empty) hnodup fun _ _ => not_mem_nil
  rw [options_gathered]
  exact h

theorem credentials_gathered {pairs : List (Str × Str)}
    (h : ∀ pair ∈ pairs, looksLikeSecret pair.1 = false) (g : Gathered) :
    (pairs.foldl Gathered.add g).credentials = g.credentials := by
  induction pairs generalizing g with
  | nil => rfl
  | cons pair pairs ih =>
    rw [foldl_cons, ih fun p hp => h p (mem_cons_of_mem _ hp), Gathered.add,
      if_pos (by rw [h pair mem_cons_self]; rfl)]

/-! ## The URL that is built -/

structure Built (crate : UrlCrate) (b : DsnBuilder) (segments : List Str) (parts : UrlParts) :
    Prop where
  scheme : parts.scheme = schemeOf b.scheme
  hasAuthority : parts.hasAuthority = true
  username : parts.username = (b.user.map (encode crate.userinfo)).getD []
  password : parts.password = none
  host : parts.host.isSome = (b.host.filter (· ≠ [])).isSome
  queryPairs : parts.queryPairs = b.options.entries
  /-- The segments read back: none is a step, each is one of those given without its breaks. -/
  path : ∃ read, readSegments parts.path = .ok read ∧
    (∀ segment ∈ read, ¬ IsDot segment ∧ ∃ given ∈ segments, segment = dropBreaks given) ∧
    ((∀ segment ∈ segments, segment ≠ [] ∧ ¬ IsDot segment ∧ dropBreaks segment = segment) →
      read = segments)

section Built

variable {crate : UrlCrate} {b : DsnBuilder} {segments : List Str} {url url' : crate.Url}

theorem path_withSegments (hlaw : crate.Lawful (schemeOf b.scheme))
    (hscheme : (crate.parts url).scheme = schemeOf b.scheme)
    (hfresh : (crate.parts url).path = [] ∨ (crate.parts url).path = ['/'])
    (h : DsnBuilder.withSegments crate url segments = .ok url') :
    ∃ path read, crate.parts url' = { crate.parts url with path } ∧
      readSegments path = .ok read ∧
      (∀ segment ∈ read, ¬ IsDot segment ∧ ∃ given ∈ segments, segment = dropBreaks given) ∧
      ((∀ segment ∈ segments, segment ≠ [] ∧ ¬ IsDot segment ∧ dropBreaks segment = segment) →
        read = segments) := by
  unfold DsnBuilder.withSegments at h
  split at h
  next hnil =>
    obtain rfl := Except.ok.inj h
    have hread : readSegments (crate.parts url).path = .ok [] := by
      rcases hfresh with hpath | hpath
      · rw [hpath]; rfl
      · rw [hpath]; rfl
    exact ⟨_, [], rfl, hread, fun _ hmem => (not_mem_nil hmem).elim, fun _ => hnil.symm⟩
  next =>
    obtain ⟨written, hparts, hwritten, hexact⟩ :=
      hlaw.extendSegments hscheme hfresh (okOr_eq_ok.mp h)
    refine ⟨_, _, hparts, readSegments_pathOf hlaw.segment_sign hlaw.segment_slash written, ?_, ?_⟩
    · intro segment hmem
      obtain ⟨hmem, hne⟩ := mem_filter.mp hmem
      obtain ⟨hdot, hfrom⟩ := hwritten segment hmem
      exact ⟨hdot, hfrom.resolve_left (by simpa using hne)⟩
    · intro hgood
      rw [hexact hgood, filter_eq_self]
      intro segment hmem
      simpa using (hgood segment hmem).1

theorem parts_withOptions (hlaw : crate.Lawful (schemeOf b.scheme))
    (hscheme : (crate.parts url).scheme = schemeOf b.scheme)
    (hpairs : (crate.parts url).queryPairs = []) (options : IndexMap Str Str) :
    crate.parts (DsnBuilder.withOptions crate url options) =
      { crate.parts url with queryPairs := options.entries } := by
  unfold DsnBuilder.withOptions
  split
  next hnil => rw [hnil, ← hpairs]
  next => rw [hlaw.appendPairs _ hscheme, hpairs, nil_append]

theorem parts_withAuthority (hlaw : crate.Lawful (schemeOf b.scheme))
    (hscheme : (crate.parts url).scheme = schemeOf b.scheme)
    (husername : (crate.parts url).username = [])
    (hnone : (b.host.filter (· ≠ [])).isNone → b.user = none)
    (h : b.withAuthority crate url = .ok url') :
    ∃ hostStr port, crate.parts url' = { crate.parts url with
        hostStr, port, username := (b.user.map (encode crate.userinfo)).getD [] } ∧
      (hostStr.filter (· ≠ [])).isSome = (b.host.filter (· ≠ [])).isSome := by
  unfold DsnBuilder.withAuthority at h
  split at h
  next host hhost =>
    obtain ⟨-, -, h⟩ := bind_eq_ok.mp h
    obtain ⟨url₁, hset, h⟩ := bind_eq_ok.mp h
    obtain ⟨url₂, hport, h⟩ := bind_eq_ok.mp h
    obtain ⟨hostStr, hparts₁, hsome⟩ := hlaw.setHost hscheme (okOr_eq_ok.mp hset)
    have hne : host ≠ [] := by
      have := (Option.filter_eq_some_iff.mp hhost).2
      simpa using this
    have hscheme₁ : (crate.parts url₁).scheme = schemeOf b.scheme := by rw [hparts₁, ← hscheme]
    have hparts₂ : ∃ port, crate.parts url₂ = { crate.parts url₁ with port } := by
      cases hp : b.port.or b.defaultPort with
      | none =>
        rw [hp] at hport
        obtain rfl := Except.ok.inj hport
        exact ⟨_, rfl⟩
      | some port =>
        rw [hp] at hport
        exact hlaw.setPort hscheme₁ (okOr_eq_ok.mp hport)
    obtain ⟨port, hparts₂⟩ := hparts₂
    refine ⟨hostStr, port, ?_, ?_⟩
    · cases huser : b.user with
      | none =>
        rw [huser] at h
        obtain rfl := Except.ok.inj h
        rw [hparts₂, hparts₁]
        simp [husername]
      | some user =>
        rw [huser] at h
        have hscheme₂ : (crate.parts url₂).scheme = schemeOf b.scheme := by
          rw [hparts₂, ← hscheme₁]
        rw [hlaw.setUsername hscheme₂ (okOr_eq_ok.mp h), hparts₂, hparts₁]
        rfl
    · rw [hhost, Bool.eq_iff_iff]
      simp only [Option.isSome_some, iff_true]
      exact hsome.mpr hne
  next hhost =>
    obtain ⟨hostStr, hparts, hsome⟩ := hlaw.setHost hscheme (okOr_eq_ok.mp h)
    refine ⟨hostStr, (crate.parts url).port, ?_, ?_⟩
    · rw [hparts, hnone (by rw [hhost]; rfl), Option.map_none, Option.getD_none, ← husername]
    · rw [hhost, Bool.eq_iff_iff, hsome]
      simp

theorem built_of_build {dsn : Dsn crate} (hlaw : crate.Lawful (schemeOf b.scheme))
    (h : b.build crate = .ok dsn) :
    ∃ segments, b.pathSegments = .ok segments ∧ dsn.password = b.password ∧
      Built crate b segments (crate.parts dsn.url) := by
  unfold DsnBuilder.build at h
  obtain ⟨-, -, h⟩ := bind_eq_ok.mp h
  obtain ⟨-, -, h⟩ := bind_eq_ok.mp h
  obtain ⟨_, hauthority, h⟩ := bind_eq_ok.mp h
  obtain ⟨segments, hsegments, h⟩ := bind_eq_ok.mp h
  obtain ⟨url, hparse, h⟩ := bind_eq_ok.mp h
  obtain ⟨url₁, hpath, h⟩ := bind_eq_ok.mp h
  obtain ⟨url₂, hurl, h⟩ := bind_eq_ok.mp h
  obtain rfl := Except.ok.inj h
  obtain ⟨host, path, hparts, hfresh⟩ := hlaw.parse_placeholder rfl (okOr_eq_ok.mp hparse)
  obtain ⟨path₁, read, hparts₁, hread, hfrom, hexact⟩ :=
    path_withSegments hlaw (by rw [hparts]) (by rw [hparts]; exact hfresh) hpath
  have hscheme₁ : (crate.parts url₁).scheme = schemeOf b.scheme := by rw [hparts₁, hparts]
  have hoptions := parts_withOptions hlaw hscheme₁ (by rw [hparts₁, hparts]) b.options
  have hnone : (b.host.filter (· ≠ [])).isNone → b.user = none := by
    intro hhost
    rw [Fallible.refuse_eq_ok, hhost] at hauthority
    simp only [Bool.true_and, Bool.or_eq_false_iff] at hauthority
    exact Option.isSome_eq_false_iff.mp hauthority.1.2 |> Option.isNone_iff_eq_none.mp
  obtain ⟨hostStr, port, hparts₂, hhost⟩ := parts_withAuthority hlaw
    (by rw [hoptions, hparts₁, hparts]) (by rw [hoptions, hparts₁, hparts]) hnone hurl
  rw [hoptions, hparts₁, hparts] at hparts₂
  exact ⟨segments, hsegments, rfl,
    { scheme := by rw [hparts₂]
      hasAuthority := by rw [hparts₂]
      username := by rw [hparts₂]
      password := by rw [hparts₂]
      host := by rw [hparts₂]; exact hhost
      queryPairs := by rw [hparts₂]
      path := ⟨read, by rw [hparts₂]; exact hread, hfrom, hexact⟩ }⟩

/-! ## The round trip -/

theorem ne_nil_of_pathSegments (h : b.pathSegments = .ok segments) :
    ∀ segment ∈ segments, segment ≠ [] := by
  intro segment hmem
  unfold DsnBuilder.pathSegments at h
  split at h
  · split at h
    · obtain rfl := Except.ok.inj h
      simpa using (mem_filter.mp hmem).2
    · cases h
  · split at h
    · split at h
      · obtain rfl := Except.ok.inj h
        cases hmem
      · next hne =>
        obtain rfl := Except.ok.inj h
        rw [mem_singleton.mp hmem]
        exact hne
    · obtain rfl := Except.ok.inj h
      cases hmem

theorem dropBreaks_dropBreaks (s : Str) : dropBreaks (dropBreaks s) = dropBreaks s := by
  rw [dropBreaks, dropBreaks, filter_filter]
  simp

/-- The segments come back exactly when none of them holds a tab or a line break. -/
theorem read_eq_iff {parts : UrlParts} {read : List Str} (h : Built crate b segments parts)
    (hread : readSegments parts.path = .ok read)
    (hgood : ∀ segment ∈ segments, segment ≠ [] ∧ ¬ IsDot segment) :
    read = segments ↔ ∀ segment ∈ segments, dropBreaks segment = segment := by
  obtain ⟨read', hread', hfrom, hexact⟩ := h.path
  obtain rfl := Except.ok.inj (hread'.symm.trans hread)
  constructor
  · rintro rfl segment hmem
    obtain ⟨-, given, -, rfl⟩ := hfrom segment hmem
    exact dropBreaks_dropBreaks given
  · intro hbreaks
    exact hexact fun segment hmem =>
      ⟨(hgood segment hmem).1, (hgood segment hmem).2, hbreaks segment hmem⟩

/-- The parts of a URL that was built, exposed and parsed again are those it was built from. -/
def ReadBack (b : DsnBuilder) (dsn : Dsn crate) (segments : List Str) : Prop :=
  ∃ text parsed, dsn.expose = .ok text ∧ ParsedDsn.parse crate text = .ok parsed ∧
    parsed.parts.user = b.user ∧ parsed.credentials.password = b.password ∧
    parsed.parts.segments = segments ∧ parsed.parts.options = b.options ∧
    parsed.parts.host = (crate.parts dsn.url).host

/-- No percent sign in a user or a password, which are not empty; no tab and no line break in a
path segment; no option that goes by the name of a secret. -/
structure Carried (b : DsnBuilder) (segments : List Str) : Prop where
  user : ∀ user ∈ b.user, user ≠ [] ∧ '%' ∉ user
  password : ∀ password ∈ b.password, password ≠ [] ∧ '%' ∉ password
  segments : ∀ segment ∈ segments, dropBreaks segment = segment
  options : ∀ option ∈ b.options.entries, looksLikeSecret option.1 = false

theorem parse_asStr {scheme : Str} (hlaw : crate.Lawful scheme)
    (hscheme : (crate.parts url).scheme = scheme) (h : (crate.parts url).hasAuthority = true) :
    ParsedDsn.parse crate (crate.asStr url) = ParsedDsn.ofParts (crate.parts url) := by
  obtain ⟨htrim, read, hread, hparts⟩ := hlaw.parse_asStr hscheme h
  rw [ParsedDsn.parse, htrim, hread, ← hparts]
  rfl

theorem parse_exposed {dsn : Dsn crate} (hlaw : crate.Lawful (schemeOf b.scheme))
    (hbuilt : Built crate b segments (crate.parts dsn.url)) (hpassword : dsn.password = b.password)
    (hhost : (crate.parts dsn.url).host.isSome) :
    ∃ text, dsn.expose = .ok text ∧ ParsedDsn.parse crate text =
      ParsedDsn.ofParts { crate.parts dsn.url with
        password := b.password.bind fun p =>
          if p = [] then none else some (encode crate.userinfo p) } := by
  cases hp : b.password with
  | none =>
    refine ⟨crate.asStr dsn.url, by rw [Dsn.expose, hpassword, hp], ?_⟩
    rw [parse_asStr hlaw hbuilt.scheme hbuilt.hasAuthority, Option.bind_none, ← hbuilt.password]
  | some password =>
    obtain ⟨url', hset, hparts⟩ := hlaw.setPassword password hbuilt.scheme hhost
    have hexpose : dsn.expose = .ok (crate.asStr url') := by
      rw [Dsn.expose, hpassword, hp]
      show (okOr (crate.setPassword dsn.url password) DsnError.noAuthority).map _ = _
      rw [hset]
      rfl
    refine ⟨crate.asStr url', hexpose, ?_⟩
    rw [parse_asStr hlaw (by rw [hparts, hbuilt.scheme]) (by rw [hparts, hbuilt.hasAuthority]),
      hparts, Option.bind_some]

theorem ofParts_eq_ok {parts : UrlParts} {parsed : ParsedDsn} :
    ParsedDsn.ofParts parts = .ok parsed ↔ ∃ user password read gathered,
      readUser parts.username = .ok user ∧ readPassword parts.password = .ok password ∧
        readSegments parts.path = .ok read ∧
        parts.queryPairs.foldl Gathered.add ⟨.empty, ⟨password⟩, []⟩ = gathered ∧
        parsed = ⟨⟨parts.scheme, parts.host, parts.port, user, read, gathered.options⟩,
          gathered.credentials, gathered.droppedSecrets⟩ := by
  unfold ParsedDsn.ofParts
  constructor
  · intro h
    obtain ⟨user, huser, h⟩ := bind_eq_ok.mp h
    obtain ⟨password, hpassword, h⟩ := bind_eq_ok.mp h
    obtain ⟨read, hread, h⟩ := bind_eq_ok.mp h
    exact ⟨user, password, read, _, huser, hpassword, hread, rfl, (Except.ok.inj h).symm⟩
  · rintro ⟨user, password, read, gathered, huser, hpassword, hread, rfl, rfl⟩
    rw [huser, ok_bind, hpassword, ok_bind, hread, ok_bind]

/-- The options come back exactly when none of them goes by the name of a secret. -/
theorem options_eq_iff (options : IndexMap Str Str) (password : Option Str) :
    (options.entries.foldl Gathered.add ⟨.empty, ⟨password⟩, []⟩).options = options ↔
      ∀ option ∈ options.entries, looksLikeSecret option.1 = false := by
  constructor
  · intro h option hmem
    have hentries := entries_gathered options password
    rw [h] at hentries
    simpa using filter_eq_self.mp hentries.symm option hmem
  · intro h
    refine IndexMap.ext_entries ((entries_gathered options password).trans ?_)
    exact filter_eq_self.mpr fun option hmem => by rw [h option hmem]; rfl

section RoundTrip

variable {dsn : Dsn crate}

theorem carried_of_readBack (hlaw : crate.Lawful (schemeOf b.scheme))
    (hbuild : b.build crate = .ok dsn) (hhost : (b.host.filter (· ≠ [])).isSome)
    (hsegments : b.pathSegments = .ok segments) (hdots : ∀ segment ∈ segments, ¬ IsDot segment)
    (h : ReadBack b dsn segments) : Carried b segments := by
  obtain ⟨segments', hsegments', hpassword, hbuilt⟩ := built_of_build hlaw hbuild
  obtain rfl := Except.ok.inj (hsegments'.symm.trans hsegments)
  obtain ⟨text, hexpose, hparse⟩ :=
    parse_exposed hlaw hbuilt hpassword (by rw [hbuilt.host]; exact hhost)
  obtain ⟨text', parsed, hexpose', hparsed, huser, hpass, hread, hoptions, -⟩ := h
  obtain rfl := Except.ok.inj (hexpose.symm.trans hexpose')
  rw [hparse, ofParts_eq_ok] at hparsed
  obtain ⟨user, password, read, gathered, huser', hpass', hread', hgathered, rfl⟩ := hparsed
  simp only [hbuilt.username, hbuilt.queryPairs] at huser' hgathered
  obtain rfl : user = b.user := huser
  obtain rfl : read = segments' := hread
  have hkeys : ∀ option ∈ b.options.entries, looksLikeSecret option.1 = false := by
    rw [← options_eq_iff b.options password, hgathered]
    exact hoptions
  -- no option is a secret, so the password is the one of the user information
  have hsame : password = b.password := by
    have hcredentials := credentials_gathered hkeys ⟨.empty, ⟨password⟩, []⟩
    rw [hgathered] at hcredentials
    rw [← hpass, hcredentials]
  rw [hsame] at hpass'
  have hgood : ∀ segment ∈ read, segment ≠ [] ∧ ¬ IsDot segment := fun segment hmem =>
    ⟨ne_nil_of_pathSegments hsegments segment hmem, hdots segment hmem⟩
  exact
    { user := (readUser_written hlaw.userinfo_sign).mp huser'
      password := (readPassword_written hlaw.userinfo_sign).mp hpass'
      segments := (read_eq_iff hbuilt hread' hgood).mp rfl
      options := hkeys }

theorem readBack_of_carried (hlaw : crate.Lawful (schemeOf b.scheme))
    (hbuild : b.build crate = .ok dsn) (hhost : (b.host.filter (· ≠ [])).isSome)
    (hsegments : b.pathSegments = .ok segments) (hdots : ∀ segment ∈ segments, ¬ IsDot segment)
    (h : Carried b segments) : ReadBack b dsn segments := by
  obtain ⟨segments', hsegments', hpassword, hbuilt⟩ := built_of_build hlaw hbuild
  obtain rfl := Except.ok.inj (hsegments'.symm.trans hsegments)
  obtain ⟨text, hexpose, hparse⟩ :=
    parse_exposed hlaw hbuilt hpassword (by rw [hbuilt.host]; exact hhost)
  have hgood : ∀ segment ∈ segments', segment ≠ [] ∧ ¬ IsDot segment := fun segment hmem =>
    ⟨ne_nil_of_pathSegments hsegments segment hmem, hdots segment hmem⟩
  obtain ⟨read, hread, -⟩ := hbuilt.path
  obtain rfl := (read_eq_iff hbuilt hread hgood).mpr h.segments
  have huser := hbuilt.username ▸ (readUser_written hlaw.userinfo_sign).mpr h.user
  have hpass := (readPassword_written hlaw.userinfo_sign).mpr h.password
  refine ⟨text, _, hexpose,
    hparse.trans (ofParts_eq_ok.mpr ⟨b.user, b.password, _, _, huser, hpass, hread, rfl, rfl⟩),
    rfl, ?_, rfl, ?_, rfl⟩
  · rw [hbuilt.queryPairs]
    exact congrArg Credentials.password
      (credentials_gathered h.options ⟨.empty, ⟨b.password⟩, []⟩)
  · rw [hbuilt.queryPairs]
    exact (options_eq_iff b.options b.password).mpr h.options

end RoundTrip

end Built

/-- A URL with a host gives back what it was built from exactly when it is of the kind that is
carried. -/
theorem exposed_is_read_back_iff (crate : UrlCrate) (b : DsnBuilder)
    (hlaw : crate.Lawful (schemeOf b.scheme)) {dsn : Dsn crate} (hbuild : b.build crate = .ok dsn)
    (hhost : (b.host.filter (· ≠ [])).isSome) {segments : List Str}
    (hsegments : b.pathSegments = .ok segments) (hdots : ∀ segment ∈ segments, ¬ IsDot segment) :
    ReadBack b dsn segments ↔ Carried b segments :=
  ⟨carried_of_readBack hlaw hbuild hhost hsegments hdots,
    readBack_of_carried hlaw hbuild hhost hsegments hdots⟩

/-! ## A database on a host -/

def tillBuilder (password : Str) : DsnBuilder :=
  { DsnBuilder.new "postgres".toList with
    host := some "machine.example".toList, user := some "app".toList, password := some password
    database := some "till".toList }

def tillParts (host username path : Str) : UrlParts :=
  ⟨"postgres".toList, true, username, none, some host, none, path, []⟩

theorem tillParts_plain {host username path : Str}
    (hhost : host ≠ [] ∧ host.head? ≠ some '[' ∧ ∀ c ∈ host, Inner c)
    (husername : ∀ c ∈ username, Inner c) (hpath : path = [] ∨ path = "/till".toList) :
    Plain (tillParts host username path) where
  scheme := by
    show schemeOf "postgres".toList = "postgres".toList ∧
      ∀ c ∈ "postgres".toList, isWhitespace c = false ∧ c ≠ ':'
    decide
  hasAuthority := rfl
  username := husername
  password _ h := nomatch h
  hostStr _ h := Option.some.inj h ▸ hhost
  port_lt _ h := nomatch h
  authority h := nomatch h
  path := by
    rcases hpath with rfl | rfl
    · exact ⟨.inl rfl, fun _ hmem => nomatch hmem⟩
    · refine ⟨.inr rfl, ?_⟩
      show ∀ c ∈ "/till".toList, isWhitespace c = false ∧ c ≠ '?'
      decide

theorem machine_inner : "machine.example".toList ≠ [] ∧
    "machine.example".toList.head? ≠ some '[' ∧ ∀ c ∈ "machine.example".toList, Inner c := by
  decide

theorem placeholder_inner : placeholderHost ≠ [] ∧ placeholderHost.head? ≠ some '[' ∧
    ∀ c ∈ placeholderHost, Inner c := by
  decide

theorem tillBuilder_build (password : Str) : (tillBuilder password).build plainCrate =
    .ok ⟨⟨tillParts "machine.example".toList "app".toList "/till".toList,
      tillParts_plain machine_inner (by decide) (.inr rfl)⟩, some password⟩ := by
  have hpath : pathOf segmentSet (named ["till".toList]) = "/till".toList := by decide
  have happ : "app".toList = encode userinfoSet "app".toList := by decide
  have hparse : parsePlain (placeholderUrl "postgres".toList) =
      some ⟨tillParts placeholderHost [] [],
        tillParts_plain placeholder_inner (forall_mem_nil _) (.inl rfl)⟩ :=
    parsePlain_eq_some.mpr (by decide)
  have hextend : extendPlain ⟨tillParts placeholderHost [] [],
      tillParts_plain placeholder_inner (forall_mem_nil _) (.inl rfl)⟩ ["till".toList] =
      ⟨tillParts placeholderHost [] "/till".toList,
        tillParts_plain placeholder_inner (forall_mem_nil _) (.inr rfl)⟩ :=
    Subtype.ext (congrArg (tillParts placeholderHost []) hpath)
  have hhost : keep (tillParts "machine.example".toList [] "/till".toList) =
      some ⟨_, tillParts_plain machine_inner (forall_mem_nil _) (.inr rfl)⟩ :=
    keep_eq_some.mpr rfl
  have huser : keep (tillParts "machine.example".toList (encode userinfoSet "app".toList)
      "/till".toList) = some ⟨tillParts "machine.example".toList "app".toList "/till".toList,
        tillParts_plain machine_inner (by decide) (.inr rfl)⟩ :=
    keep_eq_some.mpr (congrArg (tillParts "machine.example".toList · "/till".toList) happ)
  refine bind_eq_ok.mpr ⟨(), rfl, bind_eq_ok.mpr ⟨(), rfl,
    bind_eq_ok.mpr ⟨(), rfl, bind_eq_ok.mpr ⟨["till".toList], rfl, ?_⟩⟩⟩⟩
  refine bind_eq_ok.mpr ⟨_, okOr_eq_ok.mpr hparse, ?_⟩
  refine bind_eq_ok.mpr ⟨_, congrArg Except.ok hextend, ?_⟩
  refine bind_eq_ok.mpr ⟨_, ?_, rfl⟩
  refine bind_eq_ok.mpr ⟨(), rfl, bind_eq_ok.mpr ⟨_, okOr_eq_ok.mpr hhost, ?_⟩⟩
  exact bind_eq_ok.mpr ⟨_, rfl, okOr_eq_ok.mpr huser⟩

/-- A user, a password with signs in it and a database come back. -/
theorem tillBuilder_is_read_back : ReadBack (tillBuilder "p@ss#1".toList)
    (⟨⟨tillParts "machine.example".toList "app".toList "/till".toList,
      tillParts_plain machine_inner (by decide) (.inr rfl)⟩, some "p@ss#1".toList⟩ :
        Dsn plainCrate) ["till".toList] := by
  refine (exposed_is_read_back_iff plainCrate (tillBuilder "p@ss#1".toList)
    (plainCrate_lawful (by decide)) (tillBuilder_build _) rfl rfl ?_).mpr ?_
  · intro segment hmem
    rw [mem_singleton.mp hmem]
    decide
  · exact
      { user := fun user h => Option.some.inj h ▸ (by decide)
        password := fun password h => Option.some.inj h ▸ (by decide)
        segments := fun segment hmem => by rw [mem_singleton.mp hmem]; decide
        options := fun _ hmem => nomatch hmem }

/-- A password with a percent sign comes back as another one. -/
theorem percent_sign_changes_password :
    ¬ ∀ (crate : UrlCrate) (b : DsnBuilder), crate.Lawful (schemeOf b.scheme) →
      ∀ dsn : Dsn crate, b.build crate = .ok dsn → (b.host.filter (· ≠ [])).isSome →
        ∀ segments, b.pathSegments = .ok segments → (∀ segment ∈ segments, ¬ IsDot segment) →
          ReadBack b dsn segments := by
  intro h
  have hdots : ∀ segment ∈ ["till".toList], ¬ IsDot segment := by
    intro segment hmem
    rw [mem_singleton.mp hmem]
    decide
  have hlaw : plainCrate.Lawful "postgres".toList := plainCrate_lawful (by decide)
  have hbuild := tillBuilder_build "a%41".toList
  have hcarried := carried_of_readBack hlaw hbuild rfl rfl hdots
    (h plainCrate (tillBuilder _) hlaw _ hbuild rfl _ rfl hdots)
  exact absurd (hcarried.password _ rfl).2 (by decide)

end Oxyn.Driver
