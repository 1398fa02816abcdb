/-
# `Oxyn.Driver.Pasted` — a pasted URL as the configuration of a connection

What is persisted of a pasted URL are named parameters: the parts of its target under the names of
these parts, and its options under their own.  Nothing secret is among them.
-/
import Oxyn.Driver.Exposed

namespace Oxyn.Driver

open Text Percent List
open Fallible (bind_eq_ok ok_bind refuse_eq_ok)

namespace UrlCrate

/-- What is relied on of the crate where the parts of a URL of one scheme are set on a URL of
another one, or of the same. -/
structure Rebuilds (crate : UrlCrate) (pasted driver : Str) : Prop where
  parse_placeholder : ∃ url, crate.parse (placeholderUrl driver) = some url
  extendSegments : ∀ {url : crate.Url} (segments : List Str),
    (crate.parts url).scheme = schemeOf driver → (crate.parts url).hasAuthority = true →
    ∃ url', crate.extendSegments url segments = some url'
  /-- A host is in brackets or without a colon. -/
  host : ∀ {source : crate.Url} {host : Str}, (crate.parts source).scheme = pasted →
    (crate.parts source).host = some host →
    host.head? = some '[' ∧ host.getLast? = some ']' ∨ host.head? ≠ some '[' ∧ ':' ∉ host
  /-- A host, or none, is taken as it is by a URL of nothing else in its authority. -/
  setHost : ∀ {source url : crate.Url}, (crate.parts source).scheme = pasted →
    (crate.parts url).scheme = schemeOf driver → (crate.parts url).hasAuthority = true →
    (crate.parts url).username = [] → (crate.parts url).password = none →
    (crate.parts url).port = none →
    ∃ url' hostStr, crate.setHost url ((crate.parts source).host.getD []) = some url' ∧
      crate.parts url' = { crate.parts url with hostStr } ∧
      hostStr.filter (· ≠ []) = (crate.parts source).host
  port_lt : ∀ {source : crate.Url} {port : Nat}, (crate.parts source).port = some port →
    port < 2 ^ 16
  setPort : ∀ {source url : crate.Url} {port : Nat}, (crate.parts source).scheme = pasted →
    (crate.parts source).port = some port → (crate.parts url).scheme = schemeOf driver →
    (crate.parts url).host.isSome →
    ∃ url', crate.setPort url port = some url' ∧
      crate.parts url' = { crate.parts url with port := some port }
  setUsername : ∀ {url : crate.Url} (user : Str), (crate.parts url).scheme = schemeOf driver →
    (crate.parts url).host.isSome → ∃ url', crate.setUsername url user = some url'
  /-- Without a host there is neither a user nor a port. -/
  authority : ∀ {source : crate.Url}, (crate.parts source).scheme = pasted →
    (crate.parts source).host = none →
    (crate.parts source).username = [] ∧ (crate.parts source).port = none

end UrlCrate

/-! ## The parameters -/

/-- The names of the parts of a target, and their aliases. -/
def componentKeys : List Str := hostKeys ++ (portKeys ++ (userKeys ++ (databaseKeys ++ pathKeys)))

section Params

variable {parts : DsnParts} {driver : Str}

def DsnParts.target (parts : DsnParts) : List (Str × Str) :=
  (parts.host.map ("host".toList, ·)).toList ++
    ((parts.port.map fun port => ("port".toList, Nat.toDigits 10 port)).toList ++
      ((parts.user.map ("user".toList, ·)).toList ++ parts.location.toList))

def DsnParts.written (parts : DsnParts) : List (Str × Str) :=
  parts.options.entries.filter fun option => !looksLikeSecret option.1

theorem params_options (options : List (Str × Str)) (config : ConnectionConfig) :
    (options.foldl (fun config option =>
      if looksLikeSecret option.1 then config else config.withParam option.1 option.2)
        config).params =
      (options.filter fun option => !looksLikeSecret option.1).foldl
        (fun params e => params.insert e.1 e.2) config.params := by
  induction options generalizing config with
  | nil => rfl
  | cons option options ih =>
    rw [foldl_cons, ih]
    cases hkey : looksLikeSecret option.1 with
    | false => rw [filter_cons_of_pos (by rw [hkey]; rfl), foldl_cons]; rfl
    | true => rw [filter_cons_of_neg (by rw [hkey]; decide)]; rfl

@[simp] theorem driver_toConfig : (parts.toConfig driver).driver = driver := by
  have hoptions : ∀ (options : List (Str × Str)) (config : ConnectionConfig),
      (options.foldl (fun config option =>
        if looksLikeSecret option.1 then config else config.withParam option.1 option.2)
          config).driver = config.driver := by
    intro options
    induction options with
    | nil => exact fun _ => rfl
    | cons option options ih =>
      intro config
      rw [foldl_cons, ih]
      split
      · rfl
      · rfl
  rw [DsnParts.toConfig, hoptions]
  cases parts.host <;> cases parts.port <;> cases parts.user <;> cases parts.location <;> rfl

theorem params_toConfig : (parts.toConfig driver).params =
    (parts.target ++ parts.written).foldl (fun params e => params.insert e.1 e.2) .empty := by
  rw [DsnParts.toConfig, params_options, foldl_append, DsnParts.target, foldl_append,
    foldl_append, foldl_append, DsnParts.written]
  refine congrArg (List.foldl _ · _) ?_
  cases parts.host <;> cases parts.port <;> cases parts.user <;> cases parts.location <;> rfl

variable {e : Str × Str}

theorem location_key (h : e ∈ parts.location) :
    e.1 = "database".toList ∨ e.1 = "path".toList := by
  unfold DsnParts.location at h
  split at h
  · cases h; exact .inl rfl
  · cases h; exact .inr rfl
  · cases h

theorem keys_target (parts : DsnParts) :
    (parts.target.map Prod.fst).Sublist
        ["host".toList, "port".toList, "user".toList, "database".toList] ∨
      (parts.target.map Prod.fst).Sublist
        ["host".toList, "port".toList, "user".toList, "path".toList] := by
  have hone : ∀ (key : Str) (value : Option Str),
      ((value.map (key, ·)).toList.map Prod.fst).Sublist [key] := by
    intro key value
    cases value with
    | none => exact nil_sublist _
    | some value => exact List.Sublist.refl _
  have hport : ((parts.port.map fun port => ("port".toList, Nat.toDigits 10 port)).toList.map
      Prod.fst).Sublist ["port".toList] := by
    cases parts.port with
    | none => exact nil_sublist _
    | some port => exact List.Sublist.refl _
  have hlocation : ∀ key, (∀ e ∈ parts.location, e.1 = key) →
      (parts.target.map Prod.fst).Sublist
        ["host".toList, "port".toList, "user".toList, key] := by
    intro key hkey
    have hlast : (parts.location.toList.map Prod.fst).Sublist [key] := by
      cases hl : parts.location with
      | none => exact nil_sublist _
      | some e => rw [Option.toList_some, map_singleton, hkey e hl]
    rw [DsnParts.target, map_append, map_append, map_append]
    exact (hone _ _).append (hport.append ((hone _ _).append hlast))
  cases hl : parts.location with
  | none => exact .inl (hlocation _ fun e he => by rw [hl] at he; cases he)
  | some e =>
    have hkey := location_key hl
    refine hkey.imp (fun hkey => ?_) fun hkey => ?_
    · exact hlocation _ fun f hf => by rw [hl] at hf; cases hf; exact hkey
    · exact hlocation _ fun f hf => by rw [hl] at hf; cases hf; exact hkey

theorem nodup_target : (parts.target.map Prod.fst).Nodup := by
  rcases keys_target parts with h | h
  · exact List.Nodup.sublist h (by decide)
  · exact List.Nodup.sublist h (by decide)

theorem component_of_target (h : e ∈ parts.target) :
    looksLikeSecret e.1 = false ∧ normalizedKey e.1 ∈ componentKeys := by
  have hall : ∀ key ∈ ["host".toList, "port".toList, "user".toList, "database".toList,
      "path".toList], looksLikeSecret key = false ∧ normalizedKey key ∈ componentKeys := by
    decide
  refine hall _ ?_
  have hmem := mem_map_of_mem (f := Prod.fst) h
  rcases keys_target parts with hkeys | hkeys
  · exact mem_append_left ["path".toList] (hkeys.subset hmem)
  · have hpath := sublist_cons_self "database".toList ["path".toList]
    exact (((hpath.cons_cons _).cons_cons _).cons_cons _).subset (hkeys.subset hmem)

theorem no_secret_in_config (h : e ∈ (parts.toConfig driver).params.entries) :
    looksLikeSecret e.1 = false := by
  rw [params_toConfig] at h
  have hmem := IndexMap.mem_keys_foldl_insert.mp (mem_map_of_mem (f := Prod.fst) h)
  obtain ⟨f, hf, hkey⟩ := mem_map.mp (hmem.resolve_left not_mem_nil)
  rw [← hkey]
  rcases mem_append.mp hf with hf | hf
  · exact (component_of_target hf).1
  · simpa using (mem_filter.mp hf).2

theorem entries_toConfig
    (hsecret : ∀ option ∈ parts.options.entries, looksLikeSecret option.1 = false)
    (hkeys : ∀ option ∈ parts.options.entries, normalizedKey option.1 ∉ componentKeys) :
    (parts.toConfig driver).params.entries = parts.target ++ parts.options.entries := by
  have hwritten : parts.written = parts.options.entries :=
    filter_eq_self.mpr fun option hmem => by rw [hsecret option hmem]; rfl
  rw [params_toConfig, hwritten]
  refine IndexMap.entries_foldl_insert (m := .empty) ?_ fun _ _ => not_mem_nil
  rw [map_append, List.nodup_append]
  refine ⟨nodup_target, parts.options.nodup, ?_⟩
  intro key hkey key' hkey' heq
  obtain ⟨e, he, rfl⟩ := mem_map.mp hkey
  obtain ⟨option, hoption, rfl⟩ := mem_map.mp hkey'
  exact hkeys option hoption (heq ▸ (component_of_target he).2)

end Params

/-! ## Reading them back -/

def IsOption (key : Str) : Prop := looksLikeSecret key = false ∧ normalizedKey key ∉ componentKeys

section Config

variable {b b' : DsnBuilder} {key value : Str} {parts : DsnParts} {driver : Str}

theorem addParam_option (h : IsOption key) (b : DsnBuilder) (value : Str) :
    b.addParam key value = .ok { b with options := b.options.insert key value } := by
  obtain ⟨hsecret, hkey⟩ := h
  simp only [componentKeys, mem_append, not_or] at hkey
  obtain ⟨hhost, hport, huser, hdatabase, hpath⟩ := hkey
  rw [DsnBuilder.addParam, if_neg (by rw [hsecret]; decide), if_neg hhost, if_neg hport,
    if_neg huser, if_neg hdatabase, if_neg hpath]

theorem addParam_spec (h : b.addParam key value = .ok b') :
    (b'.scheme = b.scheme ∧ b'.password = b.password) ∧
      (b'.options = b.options ∨ IsOption key ∧ b'.options = b.options.insert key value) := by
  by_cases hoption : IsOption key
  · rw [addParam_option hoption] at h
    cases h
    exact ⟨⟨rfl, rfl⟩, .inr ⟨hoption, rfl⟩⟩
  · unfold DsnBuilder.addParam at h
    split at h
    · cases h
    next hsecret =>
      split at h
      · cases h; exact ⟨⟨rfl, rfl⟩, .inl rfl⟩
      next hhost =>
        split at h
        · cases hport : parseU16 (trim value) with
          | none => rw [hport] at h; cases h
          | some port => rw [hport] at h; cases h; exact ⟨⟨rfl, rfl⟩, .inl rfl⟩
        next hport =>
          split at h
          · cases h; exact ⟨⟨rfl, rfl⟩, .inl rfl⟩
          next huser =>
            split at h
            · cases h; exact ⟨⟨rfl, rfl⟩, .inl rfl⟩
            next hdatabase =>
              split at h
              · cases h; exact ⟨⟨rfl, rfl⟩, .inl rfl⟩
              next hpath =>
                refine absurd ⟨by simpa using hsecret, ?_⟩ hoption
                simp only [componentKeys, mem_append, not_or]
                exact ⟨hhost, hport, huser, hdatabase, hpath⟩

theorem of_fromConfig {config : ConnectionConfig} (h : DsnBuilder.fromConfig config = .ok b) :
    b.scheme = config.driver ∧ b.password = none ∧ ∀ e ∈ b.options.entries, IsOption e.1 := by
  have hrun : ∀ (l : List (Str × Str)) (b b' : DsnBuilder),
      (b.scheme = config.driver ∧ b.password = none ∧ ∀ e ∈ b.options.entries, IsOption e.1) →
      l.foldlM (fun b param => b.addParam param.1 param.2) b = .ok b' →
      b'.scheme = config.driver ∧ b'.password = none ∧
        ∀ e ∈ b'.options.entries, IsOption e.1 := by
    intro l
    induction l with
    | nil =>
      intro b b' hb h
      cases h
      exact hb
    | cons param l ih =>
      intro b b' hb h
      rw [foldlM_cons] at h
      obtain ⟨next, hnext, h⟩ := bind_eq_ok.mp h
      obtain ⟨⟨hscheme, hpassword⟩, hoptions⟩ := addParam_spec hnext
      refine ih next b' ⟨hscheme.trans hb.1, hpassword.trans hb.2.1, ?_⟩ h
      rcases hoptions with heq | ⟨hoption, heq⟩
      · rw [heq]
        exact hb.2.2
      · rw [heq]
        intro e he
        rcases IndexMap.mem_keys_insert.mp (mem_map_of_mem (f := Prod.fst) he) with hk | hk
        · exact hk ▸ hoption
        · obtain ⟨f, hf, hfe⟩ := mem_map.mp hk
          exact hfe ▸ hb.2.2 f hf
  unfold DsnBuilder.fromConfig at h
  obtain ⟨b₁, hfold, h⟩ := bind_eq_ok.mp h
  obtain ⟨-, -, h⟩ := bind_eq_ok.mp h
  cases h
  exact hrun _ _ _ ⟨rfl, rfl, fun _ hmem => (not_mem_nil hmem).elim⟩ hfold

theorem parseU16_toDigits {port : Nat} (h : port < 2 ^ 16) :
    parseU16 (trim (Nat.toDigits 10 port)) = some port := by
  have hdigits : ∀ c ∈ Nat.toDigits 10 port, c.isDigit = true := fun c hc =>
    Nat.isDigit_of_mem_toDigits (by decide) (by decide) hc
  have hsign : (Nat.toDigits 10 port).head? ≠ some '+' := by
    intro hhead
    exact absurd (hdigits '+' (mem_of_head? hhead)) (by decide)
  rw [trim_eq_self fun c hc => (inner_digits hc).1]
  simp only [parseU16, if_neg hsign, Nat.ofDigitChars_ten_toDigits]
  rw [if_pos ⟨Nat.toDigits_ne_nil, all_eq_true.mpr hdigits, h⟩]

def DsnParts.builder (parts : DsnParts) (driver : Str) : DsnBuilder :=
  { DsnBuilder.new driver with
    host := parts.host, port := parts.port, user := parts.user, options := parts.options
    database := if parts.host.isSome then parts.database else none
    path := if parts.host.isSome ∧ parts.database.isSome then none else parts.filePath }

theorem builder_one_path (parts : DsnParts) (driver : Str) :
    ((parts.builder driver).path.isSome && (parts.builder driver).database.isSome) = false := by
  cases hhost : parts.host.isSome <;> cases hdatabase : parts.database <;>
    simp [DsnParts.builder, hhost, hdatabase]

theorem addParam_host (b : DsnBuilder) (value : Str) :
    b.addParam "host".toList value = .ok { b with host := some value } := by
  rw [DsnBuilder.addParam, if_neg (by decide), if_pos (by decide)]

theorem addParam_port (b : DsnBuilder) {port : Nat} (h : port < 2 ^ 16) :
    b.addParam "port".toList (Nat.toDigits 10 port) = .ok { b with port := some port } := by
  rw [DsnBuilder.addParam, if_neg (by decide), if_neg (by decide), if_pos (by decide),
    parseU16_toDigits h]
  rfl

theorem addParam_user (b : DsnBuilder) (value : Str) :
    b.addParam "user".toList value = .ok { b with user := some value } := by
  rw [DsnBuilder.addParam, if_neg (by decide), if_neg (by decide), if_neg (by decide),
    if_pos (by decide)]

theorem addParam_database (b : DsnBuilder) (value : Str) :
    b.addParam "database".toList value = .ok { b with database := some value } := by
  rw [DsnBuilder.addParam, if_neg (by decide), if_neg (by decide), if_neg (by decide),
    if_neg (by decide), if_pos (by decide)]

theorem addParam_path (b : DsnBuilder) (value : Str) :
    b.addParam "path".toList value = .ok { b with path := some value } := by
  rw [DsnBuilder.addParam, if_neg (by decide), if_neg (by decide), if_neg (by decide),
    if_neg (by decide), if_neg (by decide), if_pos (by decide)]

theorem addParam_location (b : DsnBuilder) (hb : b.database = none ∧ b.path = none) :
    parts.location.toList.foldlM (fun b param => b.addParam param.1 param.2) b =
      .ok { b with
        database := if parts.host.isSome then parts.database else none
        path := if parts.host.isSome ∧ parts.database.isSome then none else parts.filePath } := by
  have hnone : b = { b with database := none, path := none } := by
    cases b
    cases hb.1
    cases hb.2
    rfl
  unfold DsnParts.location
  cases parts.host.isSome with
  | false =>
    cases parts.filePath with
    | none => exact congrArg Except.ok hnone
    | some path =>
      rw [hnone]
      exact (bind_pure _).trans (addParam_path _ path)
  | true =>
    cases parts.database with
    | some database =>
      rw [hnone]
      exact (bind_pure _).trans (addParam_database _ database)
    | none =>
      cases parts.filePath with
      | none => exact congrArg Except.ok hnone
      | some path =>
        rw [hnone]
        exact (bind_pure _).trans (addParam_path _ path)

theorem addParam_target (driver : Str) (hport : ∀ port ∈ parts.port, port < 2 ^ 16) :
    parts.target.foldlM (fun b param => b.addParam param.1 param.2) (DsnBuilder.new driver) =
      .ok { parts.builder driver with options := .empty } := by
  have hhost : (parts.host.map ("host".toList, ·)).toList.foldlM
      (fun b param => b.addParam param.1 param.2) (DsnBuilder.new driver) =
        .ok { DsnBuilder.new driver with host := parts.host } := by
    cases parts.host with
    | none => rfl
    | some host => exact (bind_pure _).trans (addParam_host _ host)
  have hport : ∀ b : DsnBuilder, b.port = none →
      (parts.port.map fun port => ("port".toList, Nat.toDigits 10 port)).toList.foldlM
        (fun b param => b.addParam param.1 param.2) b = .ok { b with port := parts.port } := by
    intro b hb
    cases hp : parts.port with
    | none =>
      cases b
      cases hb
      rfl
    | some port => exact (bind_pure _).trans (addParam_port b (hport port hp))
  have huser : ∀ b : DsnBuilder, b.user = none →
      (parts.user.map ("user".toList, ·)).toList.foldlM
        (fun b param => b.addParam param.1 param.2) b = .ok { b with user := parts.user } := by
    intro b hb
    cases parts.user with
    | none =>
      cases b
      cases hb
      rfl
    | some user => exact (bind_pure _).trans (addParam_user b user)
  rw [DsnParts.target, foldlM_append, hhost, ok_bind, foldlM_append,
    hport _ rfl, ok_bind, foldlM_append, huser _ rfl, ok_bind,
    addParam_location _ ⟨rfl, rfl⟩]
  rfl

theorem addParam_options {options : List (Str × Str)} (h : ∀ e ∈ options, IsOption e.1)
    (b : DsnBuilder) :
    options.foldlM (fun b param => b.addParam param.1 param.2) b =
      .ok { b with options := options.foldl (fun m e => m.insert e.1 e.2) b.options } := by
  induction options generalizing b with
  | nil => rfl
  | cons option options ih =>
    rw [foldlM_cons, addParam_option (h option mem_cons_self), ok_bind,
      ih fun e he => h e (mem_cons_of_mem _ he)]
    rfl

theorem fromConfig_toConfig (driver : Str) (hport : ∀ port ∈ parts.port, port < 2 ^ 16)
    (hoptions : ∀ e ∈ parts.options.entries, IsOption e.1) :
    DsnBuilder.fromConfig (parts.toConfig driver) = .ok (parts.builder driver) := by
  have hentries : (parts.toConfig driver).params.entries = _ :=
    entries_toConfig (fun e he => (hoptions e he).1) fun e he => (hoptions e he).2
  have hfold : parts.options.entries.foldl (fun m e => m.insert e.1 e.2) .empty = parts.options :=
    IndexMap.ext_entries (IndexMap.entries_foldl_insert (m := .empty) parts.options.nodup
      fun _ _ => not_mem_nil)
  have htarget := addParam_target driver hport
  rw [DsnBuilder.fromConfig, hentries, driver_toConfig, foldlM_append, htarget,
    ok_bind, addParam_options hoptions, ok_bind, hfold, builder_one_path]
  rfl

end Config

/-! ## The path -/

section Path

variable {parts : DsnParts} {driver : Str}

theorem slash_not_mem_pieces {path piece : Str} (h : piece ∈ pieces path) : '/' ∉ piece := by
  have hsplit : ∀ (s : Str), ∀ piece ∈ s.splitOn '/', '/' ∉ piece := by
    intro s
    induction s with
    | nil =>
      intro piece hpiece
      rw [splitOn_nil, mem_singleton] at hpiece
      rw [hpiece]
      exact not_mem_nil
    | cons c s ih =>
      intro piece hpiece
      rw [splitOn_cons_eq_if_modifyHead] at hpiece
      split at hpiece
      · rcases mem_cons.mp hpiece with rfl | hpiece
        · exact not_mem_nil
        · exact ih piece hpiece
      next hc =>
        cases hs : s.splitOn '/' with
        | nil => exact absurd hs (splitOn_ne_nil _ _)
        | cons first rest =>
          rw [hs, modifyHead_cons] at hpiece
          rcases mem_cons.mp hpiece with rfl | hpiece
          · rw [mem_cons, not_or]
            refine ⟨fun heq => hc (by rw [← heq]; rfl), ih first ?_⟩
            rw [hs]
            exact mem_cons_self
          · exact ih piece (by rw [hs]; exact mem_cons_of_mem _ hpiece)
  exact hsplit path piece (mem_filter.mp h).1

theorem pieces_intercalate {segments : List Str} (hne : ∀ segment ∈ segments, segment ≠ [])
    (hslash : ∀ segment ∈ segments, '/' ∉ segment) :
    pieces ('/' :: ['/'].intercalate segments) = segments := by
  have hfirst : ('/' :: ['/'].intercalate segments).splitOn '/' =
      [] :: (['/'].intercalate segments).splitOn '/' :=
    splitOn_append_cons_self_of_not_mem not_mem_nil _
  rw [pieces, hfirst, filter_cons_of_neg (by simp)]
  cases segments with
  | nil => rfl
  | cons segment segments =>
    rw [splitOn_intercalate _ hslash (cons_ne_nil _ _), filter_eq_self]
    intro s hs
    simpa using hne s hs

/-- Segments that stay apart: the one of a database, or none with a slash in it. -/
def Apart (parts : DsnParts) : Prop :=
  parts.host.isSome ∧ parts.segments.length = 1 ∨ ∀ segment ∈ parts.segments, '/' ∉ segment

theorem database_of_single {segment : Str} (h : parts.segments = [segment]) (hne : segment ≠ []) :
    parts.database = some segment := by
  simp only [DsnParts.database, h]
  exact if_neg hne

theorem database_eq_none (h : parts.segments.length ≠ 1) : parts.database = none := by
  unfold DsnParts.database
  split
  next single hsingle => rw [hsingle] at h; exact absurd rfl h
  next => rfl

theorem pathSegments_builder (driver : Str)
    (hne : ∀ segment ∈ parts.segments, segment ≠ []) :
    ∃ given, (parts.builder driver).pathSegments = .ok given ∧
      (Apart parts → given = parts.segments) ∧
      (¬ (parts.host.isSome ∧ parts.segments.length = 1) → ∀ segment ∈ given, '/' ∉ segment) := by
  by_cases hone : parts.host.isSome ∧ parts.segments.length = 1
  · obtain ⟨segment, hsegment⟩ := length_eq_one_iff.mp hone.2
    have hnil := hne segment (by rw [hsegment]; exact mem_singleton_self _)
    refine ⟨[segment], ?_, fun _ => hsegment.symm, fun hnot => absurd hone hnot⟩
    simp only [DsnBuilder.pathSegments, DsnParts.builder, database_of_single hsegment hnil, hone.1,
      Option.isSome_some, and_self, ↓reduceIte, if_neg hnil]
  · have hdatabase : (if parts.host.isSome then parts.database else none) = none := by
      split
      next hhost => exact database_eq_none fun hlength => hone ⟨hhost, hlength⟩
      next => rfl
    have hpath : ¬ (parts.host.isSome ∧ parts.database.isSome) := by
      rintro ⟨hhost, hsome⟩
      rw [if_pos hhost] at hdatabase
      rw [hdatabase] at hsome
      cases hsome
    have hsegments : (parts.builder driver).pathSegments =
        .ok (pieces ('/' :: ['/'].intercalate parts.segments)) := by
      simp only [DsnBuilder.pathSegments, DsnParts.builder, hdatabase, if_neg hpath,
        DsnParts.filePath]
      by_cases hnil : parts.segments = []
      · rw [if_pos hnil, hnil]
        rfl
      · rw [if_neg hnil]
        rfl
    refine ⟨_, hsegments, fun hapart => ?_, fun _ segment hmem => slash_not_mem_pieces hmem⟩
    exact pieces_intercalate hne (hapart.resolve_left hone)

end Path

/-! ## The URL that is rebuilt -/

section Rebuilt

variable {crate : UrlCrate} {parts : DsnParts} {driver : Str}

theorem parse_eq_ok {text : Str} {parsed : ParsedDsn} :
    ParsedDsn.parse crate text = .ok parsed ↔
      ∃ url, crate.parse (trim text) = some url ∧
        ParsedDsn.ofParts (crate.parts url) = .ok parsed := by
  rw [ParsedDsn.parse, bind_eq_ok]
  simp only [okOr_eq_ok]

theorem decode_ne_nil {s t detail : Str} (h : decode s detail = .ok t) (hs : s ≠ []) : t ≠ [] :=
  Percent.decode_ne_nil (decode_eq_ok.mp h) hs

theorem forall_mapM {α β ε : Type} {f : α → Except ε β} {l : List α} {m : List β}
    (h : l.mapM f = .ok m) : ∀ b ∈ m, ∃ a ∈ l, f a = .ok b := by
  induction l generalizing m with
  | nil =>
    cases h
    exact fun _ hmem => (not_mem_nil hmem).elim
  | cons a l ih =>
    rw [mapM_cons] at h
    obtain ⟨b, hb, h⟩ := bind_eq_ok.mp h
    obtain ⟨m', hm', h⟩ := bind_eq_ok.mp h
    cases h
    intro x hx
    rcases mem_cons.mp hx with rfl | hx
    · exact ⟨a, mem_cons_self, hb⟩
    · obtain ⟨y, hy, hfy⟩ := ih hm' x hx
      exact ⟨y, mem_cons_of_mem _ hy, hfy⟩

structure FromUrl (source : UrlParts) (parts : DsnParts) : Prop where
  scheme : parts.scheme = source.scheme
  host : parts.host = source.host
  port : parts.port = source.port
  user : source.username = [] → parts.user = none
  user_ne_nil : ∀ user ∈ parts.user, user ≠ []
  segments : ∀ segment ∈ parts.segments, segment ≠ []
  options : ∀ option ∈ parts.options.entries, looksLikeSecret option.1 = false

theorem fromUrl_of_ofParts {source : UrlParts} {parsed : ParsedDsn}
    (h : ParsedDsn.ofParts source = .ok parsed) : FromUrl source parsed.parts := by
  obtain ⟨user, password, read, gathered, huser, -, hread, rfl, rfl⟩ := ofParts_eq_ok.mp h
  exact
    { scheme := rfl
      host := rfl
      port := rfl
      user := by
        intro hnil
        rw [readUser, if_pos hnil] at huser
        exact (Except.ok.inj huser).symm
      user_ne_nil := by
        intro u hu
        obtain rfl : user = some u := hu
        unfold readUser at huser
        split at huser
        · cases huser
        next hne => exact decode_ne_nil (map_some_eq_ok.mp huser) hne
      segments := by
        intro segment hmem
        obtain ⟨raw, hraw, hdecode⟩ := forall_mapM hread segment hmem
        exact decode_ne_nil hdecode (by simpa using (mem_filter.mp hraw).2)
      options := by
        intro option hmem
        rw [options_gathered] at hmem
        have hkey := IndexMap.mem_keys_foldl_insert.mp (mem_map_of_mem (f := Prod.fst) hmem)
        obtain ⟨pair, hpair, heq⟩ := mem_map.mp (hkey.resolve_left not_mem_nil)
        rw [← heq]
        simpa using (mem_filter.mp hpair).2 }

theorem filter_host (source : UrlParts) : source.host.filter (· ≠ []) = source.host := by
  rw [UrlParts.host, Option.filter_filter]
  simp

theorem checkHost_eq_ok {host : Str}
    (h : host.head? = some '[' ∧ host.getLast? = some ']' ∨ host.head? ≠ some '[' ∧ ':' ∉ host) :
    checkHost host = .ok () := by
  unfold checkHost
  rcases h with ⟨hopen, hclose⟩ | ⟨hopen, hcolon⟩
  · rw [if_pos hopen, hclose]
    rfl
  · rw [if_neg hopen, refuse_eq_ok]
    simpa using hcolon

theorem withAuthority_builder {source url : crate.Url} (hlaw : crate.Lawful (schemeOf driver))
    (hback : crate.Rebuilds (crate.parts source).scheme driver)
    (hfrom : FromUrl (crate.parts source) parts)
    (hscheme : (crate.parts url).scheme = schemeOf driver)
    (hauthority : (crate.parts url).hasAuthority = true)
    (husername : (crate.parts url).username = [])
    (hpassword : (crate.parts url).password = none) (hport : (crate.parts url).port = none) :
    ∃ url', (parts.builder driver).withAuthority crate url = .ok url' ∧
      (crate.parts url').host = parts.host ∧ (crate.parts url').port = parts.port := by
  obtain ⟨url₁, hostStr, hset, hparts₁, hhostStr⟩ :=
    hback.setHost rfl hscheme hauthority husername hpassword hport
  have hhost₁ : (crate.parts url₁).host = parts.host := by
    rw [hparts₁, hfrom.host]
    exact hhostStr
  have hport₁ : (crate.parts url₁).port = none := by rw [hparts₁, hport]
  have hfilter : (parts.builder driver).host.filter (· ≠ []) = parts.host := by
    show parts.host.filter _ = _
    rw [hfrom.host, filter_host]
  unfold DsnBuilder.withAuthority
  rw [hfilter]
  cases hh : parts.host with
  | none =>
    have hsource : (crate.parts source).host = none := by rw [← hfrom.host, hh]
    rw [hsource] at hset
    refine ⟨url₁, okOr_eq_ok.mpr hset, hhost₁.trans hh, ?_⟩
    rw [hport₁, hfrom.port, (hback.authority rfl hsource).2]
  | some host =>
    have hsource : (crate.parts source).host = some host := by rw [← hfrom.host, hh]
    rw [hsource] at hset
    have hscheme₁ : (crate.parts url₁).scheme = schemeOf driver := by rw [hparts₁, hscheme]
    have hsome₁ : (crate.parts url₁).host.isSome := by rw [hhost₁, hh]; rfl
    have hport₂ : ∃ url₂, DsnBuilder.withPort crate url₁ parts.port = .ok url₂ ∧
        crate.parts url₂ = { crate.parts url₁ with port := parts.port } := by
      cases hp : parts.port with
      | none => exact ⟨url₁, rfl, by rw [← hport₁]⟩
      | some port =>
        obtain ⟨url₂, hset₂, hparts₂⟩ :=
          hback.setPort rfl (hfrom.port ▸ hp) hscheme₁ hsome₁
        exact ⟨url₂, okOr_eq_ok.mpr hset₂, hparts₂⟩
    obtain ⟨url₂, hset₂, hparts₂⟩ := hport₂
    have hscheme₂ : (crate.parts url₂).scheme = schemeOf driver := by rw [hparts₂, hscheme₁]
    have hhost₂ : (crate.parts url₂).host = some host := by rw [hparts₂, ← hh, ← hhost₁]; rfl
    have huser₃ : ∃ url₃, DsnBuilder.withUser crate url₂ parts.user = .ok url₃ ∧
        (crate.parts url₃).host = some host ∧ (crate.parts url₃).port = parts.port := by
      cases hu : parts.user with
      | none => exact ⟨url₂, rfl, hhost₂, by rw [hparts₂]⟩
      | some user =>
        obtain ⟨url₃, hset₃⟩ := hback.setUsername user hscheme₂ (by rw [hhost₂]; rfl)
        have hparts₃ := hlaw.setUsername hscheme₂ hset₃
        refine ⟨url₃, okOr_eq_ok.mpr hset₃, ?_, by rw [hparts₃, hparts₂]⟩
        rw [hparts₃, ← hhost₂]
        rfl
    obtain ⟨url₃, hset₃, hhost₃, hport₃⟩ := huser₃
    refine ⟨url₃, bind_eq_ok.mpr ⟨(), checkHost_eq_ok (hback.host rfl hsource), ?_⟩,
      hhost₃, hport₃⟩
    refine bind_eq_ok.mpr ⟨url₁, okOr_eq_ok.mpr hset, ?_⟩
    refine bind_eq_ok.mpr ⟨url₂, ?_, hset₃⟩
    show DsnBuilder.withPort crate url₁ (parts.port.or none) = _
    rw [Option.or_none, hset₂]

variable {source : crate.Url}

theorem build_builder (hlaw : crate.Lawful (schemeOf driver))
    (hback : crate.Rebuilds (crate.parts source).scheme driver)
    (hdriver : validateScheme driver = .ok ()) (hfrom : FromUrl (crate.parts source) parts)
    {given : List Str} (hgiven : (parts.builder driver).pathSegments = .ok given) :
    ∃ dsn, (parts.builder driver).build crate = .ok dsn ∧
      (crate.parts dsn.url).host = parts.host ∧ (crate.parts dsn.url).port = parts.port := by
  obtain ⟨url, hurl⟩ := hback.parse_placeholder
  obtain ⟨host, path, hparts, hfresh⟩ := hlaw.parse_placeholder rfl hurl
  have hscheme : (crate.parts url).scheme = schemeOf driver := by rw [hparts]
  have hpath : ∃ url₁, DsnBuilder.withSegments crate url given = .ok url₁ := by
    unfold DsnBuilder.withSegments
    split
    · exact ⟨url, rfl⟩
    · obtain ⟨url₁, hextend⟩ := hback.extendSegments given hscheme (by rw [hparts])
      exact ⟨url₁, okOr_eq_ok.mpr hextend⟩
  obtain ⟨url₁, hurl₁⟩ := hpath
  obtain ⟨path₁, -, hparts₁, -⟩ := path_withSegments (b := parts.builder driver) hlaw hscheme
    (by rw [hparts]; exact hfresh) hurl₁
  have hscheme₁ : (crate.parts url₁).scheme = schemeOf driver := by rw [hparts₁, hparts]
  have hoptions := parts_withOptions (b := parts.builder driver) hlaw hscheme₁
    (by rw [hparts₁, hparts]) parts.options
  obtain ⟨url₂, hurl₂, hhost, hport⟩ := withAuthority_builder hlaw hback hfrom
    (by rw [hoptions, hparts₁, hparts]) (by rw [hoptions, hparts₁, hparts])
    (by rw [hoptions, hparts₁, hparts]) (by rw [hoptions, hparts₁, hparts])
    (by rw [hoptions, hparts₁, hparts])
  have hnone : (((parts.builder driver).host.filter (· ≠ [])).isNone &&
      (((parts.builder driver).port.or (parts.builder driver).defaultPort).isSome ||
        (parts.builder driver).user.isSome || (parts.builder driver).password.isSome)) = false := by
    show ((parts.host.filter (· ≠ [])).isNone &&
      ((parts.port.or none).isSome || parts.user.isSome || none.isSome)) = false
    rw [hfrom.host, filter_host]
    cases hh : (crate.parts source).host with
    | some host => rfl
    | none =>
      obtain ⟨husername, hport⟩ := hback.authority rfl hh
      rw [hfrom.port, hport, hfrom.user husername]
      rfl
  refine ⟨⟨url₂, none⟩, ?_, hhost, hport⟩
  refine bind_eq_ok.mpr ⟨(), hdriver, bind_eq_ok.mpr ⟨(), ?_, ?_⟩⟩
  · exact refuse_eq_ok.mpr (builder_one_path parts driver)
  refine bind_eq_ok.mpr ⟨(), refuse_eq_ok.mpr hnone, ?_⟩
  refine bind_eq_ok.mpr ⟨given, hgiven, ?_⟩
  refine bind_eq_ok.mpr ⟨url, okOr_eq_ok.mpr hurl, ?_⟩
  exact bind_eq_ok.mpr ⟨url₁, hurl₁, bind_eq_ok.mpr ⟨url₂, hurl₂, rfl⟩⟩

/-! ## What is kept -/

/-- The URL that is rebuilt from the configuration of a pasted one names the same target and has
the same options. -/
def Keeps (crate : UrlCrate) (parts : DsnParts) (driver : Str) : Prop :=
  ∃ b dsn text rebuilt, DsnBuilder.fromConfig (parts.toConfig driver) = .ok b ∧
    b.build crate = .ok dsn ∧ dsn.expose = .ok text ∧
    ParsedDsn.parse crate text = .ok rebuilt ∧ rebuilt.parts.host = parts.host ∧
    rebuilt.parts.port = parts.port ∧ rebuilt.parts.user = parts.user ∧
    rebuilt.parts.segments = parts.segments ∧ rebuilt.parts.options = parts.options

/-- No option goes by a name of a part of the target, no percent sign stands in the user, and the
path's segments are names that stay apart. -/
structure Kept (parts : DsnParts) : Prop where
  options : ∀ option ∈ parts.options.entries, normalizedKey option.1 ∉ componentKeys
  user : ∀ user ∈ parts.user, '%' ∉ user
  segments : ∀ segment ∈ parts.segments, ¬ IsDot segment ∧ dropBreaks segment = segment
  apart : Apart parts

theorem expose_parse {b : DsnBuilder} {dsn : Dsn crate} (hlaw : crate.Lawful (schemeOf b.scheme))
    {given : List Str} (hbuilt : Built crate b given (crate.parts dsn.url))
    (hpassword : dsn.password = none) :
    dsn.expose = .ok (crate.asStr dsn.url) ∧ ParsedDsn.parse crate (crate.asStr dsn.url) =
      ParsedDsn.ofParts (crate.parts dsn.url) :=
  ⟨by rw [Dsn.expose, hpassword], parse_asStr hlaw hbuilt.scheme hbuilt.hasAuthority⟩

theorem slash_not_mem_dropBreaks {s : Str} (h : '/' ∉ s) : '/' ∉ dropBreaks s :=
  fun hmem => h (mem_filter.mp hmem).1

theorem kept_of_keeps (hlaw : crate.Lawful (schemeOf driver))
    (hback : crate.Rebuilds (crate.parts source).scheme driver)
    (hfrom : FromUrl (crate.parts source) parts) (h : Keeps crate parts driver) : Kept parts := by
  obtain ⟨b, dsn, text, rebuilt, hconfig, hbuild, hexpose, hparse, -, -, huser, hsegments,
    hoptions⟩ := h
  obtain ⟨hscheme, hnopassword, hisOption⟩ := of_fromConfig hconfig
  rw [driver_toConfig] at hscheme
  rw [← hscheme] at hlaw
  obtain ⟨given, hgiven, hpassword, hbuilt⟩ := built_of_build hlaw hbuild
  have hnone : dsn.password = none := hpassword.trans hnopassword
  obtain ⟨hexpose', hparse'⟩ := expose_parse hlaw hbuilt hnone
  obtain rfl := Except.ok.inj (hexpose'.symm.trans hexpose)
  obtain ⟨user, password, read, gathered, huser', -, hread, hgathered, rfl⟩ :=
    ofParts_eq_ok.mp (hparse'.symm.trans hparse)
  -- the options of the builder are the ones that come back
  have hsame : b.options = parts.options := by
    rw [hbuilt.queryPairs] at hgathered
    rw [← hoptions, ← hgathered]
    exact ((options_eq_iff b.options password).mpr fun e he => (hisOption e he).1).symm
  have hall : ∀ e ∈ parts.options.entries, IsOption e.1 := hsame ▸ hisOption
  have hport : ∀ port ∈ parts.port, port < 2 ^ 16 := fun port hp =>
    hback.port_lt (hfrom.port ▸ hp)
  obtain rfl := Except.ok.inj (hconfig.symm.trans (fromConfig_toConfig driver hport hall))
  obtain ⟨given', hgiven', -, hapart⟩ := pathSegments_builder driver hfrom.segments
  obtain rfl := Except.ok.inj (hgiven.symm.trans hgiven')
  obtain ⟨read', hread', hnamed, -⟩ := hbuilt.path
  obtain rfl := Except.ok.inj (hread'.symm.trans hread)
  obtain rfl : read' = parts.segments := hsegments
  obtain rfl : user = parts.user := huser
  rw [hbuilt.username] at huser'
  exact
    { options := fun e he => (hall e he).2
      user := fun u hu => ((readUser_written hlaw.userinfo_sign).mp huser' u hu).2
      segments := by
        intro segment hmem
        obtain ⟨hdot, original, -, rfl⟩ := hnamed segment hmem
        exact ⟨hdot, dropBreaks_dropBreaks original⟩
      apart := by
        by_cases hone : parts.host.isSome ∧ parts.segments.length = 1
        · exact .inl hone
        · refine .inr fun segment hmem => ?_
          obtain ⟨-, original, horiginal, rfl⟩ := hnamed segment hmem
          exact slash_not_mem_dropBreaks (hapart hone original horiginal) }

theorem keeps_of_kept (hlaw : crate.Lawful (schemeOf driver))
    (hback : crate.Rebuilds (crate.parts source).scheme driver)
    (hdriver : validateScheme driver = .ok ()) (hfrom : FromUrl (crate.parts source) parts)
    (h : Kept parts) : Keeps crate parts driver := by
  have hport : ∀ port ∈ parts.port, port < 2 ^ 16 := fun port hp =>
    hback.port_lt (hfrom.port ▸ hp)
  have hconfig := fromConfig_toConfig driver hport fun e he =>
    ⟨hfrom.options e he, h.options e he⟩
  obtain ⟨given, hgiven, hsame, -⟩ := pathSegments_builder driver hfrom.segments
  obtain rfl := hsame h.apart
  obtain ⟨dsn, hbuild, hhost, hport'⟩ := build_builder hlaw hback hdriver hfrom hgiven
  obtain ⟨given', hgiven', hpassword, hbuilt⟩ :=
    built_of_build (b := parts.builder driver) hlaw hbuild
  obtain rfl := Except.ok.inj (hgiven.symm.trans hgiven')
  obtain ⟨hexpose, hparse⟩ := expose_parse hlaw hbuilt hpassword
  obtain ⟨read, hread, -, hexact⟩ := hbuilt.path
  obtain rfl := hexact fun segment hmem =>
    ⟨hfrom.segments segment hmem, (h.segments segment hmem).1, (h.segments segment hmem).2⟩
  have huser : readUser (crate.parts dsn.url).username = .ok parts.user := by
    rw [hbuilt.username]
    exact (readUser_written hlaw.userinfo_sign).mpr fun u hu =>
      ⟨hfrom.user_ne_nil u hu, h.user u hu⟩
  have hpass : readPassword (crate.parts dsn.url).password = .ok none := by
    rw [hbuilt.password]
    rfl
  refine ⟨_, dsn, _, _, hconfig, hbuild, hexpose,
    hparse.trans (ofParts_eq_ok.mpr ⟨_, _, _, _, huser, hpass, hread, rfl, rfl⟩),
    hhost, hport', rfl, rfl, ?_⟩
  rw [hbuilt.queryPairs]
  exact (options_eq_iff parts.options none).mpr hfrom.options

/-- Two texts of URLs that differ in the password of the user information alone. -/
def SameButPassword (crate : UrlCrate) (text text' : Str) : Prop :=
  ∃ url url' password, crate.parse (trim text) = some url ∧ crate.parse (trim text') = some url' ∧
    crate.parts url' = { crate.parts url with password }

/-- What is kept of a URL does not depend on its password. -/
theorem parts_eq_of_sameButPassword {text text' : Str} {parsed parsed' : ParsedDsn}
    (hsame : SameButPassword crate text text') (hparse : ParsedDsn.parse crate text = .ok parsed)
    (hparse' : ParsedDsn.parse crate text' = .ok parsed') : parsed'.parts = parsed.parts := by
  obtain ⟨url, url', password, hurl, hurl', hparts⟩ := hsame
  obtain ⟨_, hurl₁, hof⟩ := parse_eq_ok.mp hparse
  obtain ⟨_, hurl₂, hof'⟩ := parse_eq_ok.mp hparse'
  obtain rfl := Option.some.inj (hurl.symm.trans hurl₁)
  obtain rfl := Option.some.inj (hurl'.symm.trans hurl₂)
  rw [hparts] at hof'
  obtain ⟨user, _, read, _, huser, -, hread, rfl, rfl⟩ := ofParts_eq_ok.mp hof
  obtain ⟨user', _, read', _, huser', -, hread', rfl, rfl⟩ := ofParts_eq_ok.mp hof'
  obtain rfl := Except.ok.inj (huser.symm.trans huser')
  obtain rfl := Except.ok.inj (hread.symm.trans hread')
  simp only [options_gathered]
  rfl

end Rebuilt

/-- Nothing persisted of a pasted URL depends on its password or goes by the name of a secret; the
URL rebuilt names the same target and has the same options exactly when it is of the kind that is
kept. -/
theorem pasted_url_keeps_its_target_iff (crate : UrlCrate) (driver : Str) {text : Str}
    {parsed : ParsedDsn} (hlaw : crate.Lawful (schemeOf driver))
    (hback : crate.Rebuilds parsed.parts.scheme driver) (hdriver : validateScheme driver = .ok ())
    (hparse : ParsedDsn.parse crate text = .ok parsed) :
    (∀ param ∈ (parsed.parts.toConfig driver).params.entries, looksLikeSecret param.1 = false) ∧
      (∀ text' parsed', SameButPassword crate text text' →
        ParsedDsn.parse crate text' = .ok parsed' →
          parsed'.parts.toConfig driver = parsed.parts.toConfig driver) ∧
      (Keeps crate parsed.parts driver ↔ Kept parsed.parts) := by
  obtain ⟨source, hsource, hof⟩ := parse_eq_ok.mp hparse
  have hfrom := fromUrl_of_ofParts hof
  rw [hfrom.scheme] at hback
  refine ⟨fun param hmem => no_secret_in_config hmem, ?_, kept_of_keeps hlaw hback hfrom,
    keeps_of_kept hlaw hback hdriver hfrom⟩
  intro text' parsed' hsame hparse'
  rw [parts_eq_of_sameButPassword hsame hparse hparse']

/-! ## The crate that reads URLs as they are written -/

theorem host_of_plain {parts : UrlParts} (h : Plain parts) : parts.host = parts.hostStr := by
  unfold UrlParts.host
  cases hhost : parts.hostStr with
  | none => rfl
  | some host => exact Option.filter_some_pos (by simpa using (h.hostStr host hhost).1)

theorem plainCrate_rebuilds {pasted driver : Str} (hdriver : schemeOf driver = driver ∧
    ∀ c ∈ driver, isWhitespace c = false ∧ c ≠ ':') : plainCrate.Rebuilds pasted driver where
  parse_placeholder := by
    have hplain : Plain ⟨driver, true, [], none, some placeholderHost, none, [], []⟩ :=
      { scheme := hdriver
        hasAuthority := rfl
        username := fun _ hmem => nomatch hmem
        password := fun _ hmem => nomatch hmem
        hostStr := fun _ hmem => Option.some.inj hmem ▸ placeholder_inner
        port_lt := fun _ hmem => nomatch hmem
        authority := fun hnone => nomatch hnone
        path := ⟨.inl rfl, fun _ hmem => nomatch hmem⟩ }
    refine ⟨⟨_, hplain⟩, parsePlain_eq_some.mpr ?_⟩
    rw [placeholderUrl, append_assoc]
    rfl
  extendSegments _ _ _ := ⟨_, rfl⟩
  host {source host} _ hhost := by
    have hstr : source.1.hostStr = some host := (host_of_plain source.2).symm.trans hhost
    obtain ⟨-, hhead, hinner⟩ := source.2.hostStr host hstr
    exact .inr ⟨hhead, (not_mem_of_inner hinner).1⟩
  setHost {source url} _ _ _ husername hpassword hport := by
    have hsource : (plainCrate.parts source).host = source.1.hostStr := host_of_plain source.2
    have hhost : (if source.1.hostStr.getD [] = [] then none else some (source.1.hostStr.getD [])) =
        source.1.hostStr := by
      cases hstr : source.1.hostStr with
      | none => rfl
      | some host => exact if_neg (source.2.hostStr host hstr).1
    have hplain : Plain { url.1 with hostStr := source.1.hostStr } :=
      { url.2 with
        hostStr := source.2.hostStr
        authority := fun _ => ⟨husername, hpassword, hport⟩ }
    refine ⟨⟨_, hplain⟩, source.1.hostStr, ?_, rfl, ?_⟩
    · rw [hsource]
      exact keep_eq_some.mpr (by rw [hhost])
    · exact (host_of_plain hplain).trans hsource.symm
  port_lt {source port} hport := source.2.port_lt port hport
  setPort {source url port} _ hport _ hhost := by
    have hplain : Plain { url.1 with port := some port } :=
      { url.2 with
        port_lt := fun p hp => Option.some.inj hp ▸ source.2.port_lt port hport
        authority := by
          intro hnone
          have hnone' : (plainCrate.parts url).host = none := (host_of_plain url.2).trans hnone
          rw [hnone'] at hhost
          cases hhost }
    exact ⟨⟨_, hplain⟩, keep_eq_some.mpr rfl, rfl⟩
  setUsername {url} user _ hhost := by
    have hplain : Plain { url.1 with username := encode userinfoSet user } :=
      { url.2 with
        username := inner_encode
        authority := by
          intro hnone
          have hnone' : (plainCrate.parts url).host = none := (host_of_plain url.2).trans hnone
          rw [hnone'] at hhost
          cases hhost }
    exact ⟨⟨_, hplain⟩, keep_eq_some.mpr rfl⟩
  authority {source} _ hnone := by
    have hauthority := source.2.authority ((host_of_plain source.2).symm.trans hnone)
    exact ⟨hauthority.1, hauthority.2.2⟩

/-- The components of a URL of a database on a host, with these query parameters. -/
def pastedParts (pairs : List (Str × Str)) : UrlParts :=
  ⟨"postgres".toList, true, "app".toList, none, some "machine.example".toList, some 6432,
    "/till".toList, pairs⟩

theorem pastedParts_plain (pairs : List (Str × Str)) : Plain (pastedParts pairs) where
  scheme := by
    show schemeOf "postgres".toList = "postgres".toList ∧
      ∀ c ∈ "postgres".toList, isWhitespace c = false ∧ c ≠ ':'
    decide
  hasAuthority := rfl
  username := by
    show ∀ c ∈ "app".toList, Inner c
    decide
  password _ h := nomatch h
  hostStr _ h := Option.some.inj h ▸ machine_inner
  port_lt _ h := Option.some.inj h ▸ (by decide)
  authority h := nomatch h
  path := by
    refine ⟨.inr rfl, ?_⟩
    show ∀ c ∈ "/till".toList, isWhitespace c = false ∧ c ≠ '?'
    decide

theorem parse_pasted (pairs : List (Str × Str)) :
    ∃ parsed, ParsedDsn.parse plainCrate (written (pastedParts pairs)) = .ok parsed ∧
      parsed.parts = ⟨"postgres".toList, some "machine.example".toList, some 6432,
        some "app".toList, ["till".toList],
        (pairs.foldl Gathered.add ⟨.empty, ⟨none⟩, []⟩).options⟩ := by
  have hpath : "/till".toList = pathOf segmentSet ["till".toList] := by decide
  have hwritten : "app".toList = encode userinfoSet "app".toList := by decide
  have hsign : userinfoSet.holds sign = false := by decide
  have huser : readUser (pastedParts pairs).username = .ok (some "app".toList) :=
    (congrArg readUser hwritten).trans ((readUser_written hsign).mpr fun user h =>
      Option.some.inj h ▸ (by decide))
  have hread : readSegments (pastedParts pairs).path = .ok ["till".toList] := by
    show readSegments "/till".toList = _
    rw [hpath, readSegments_pathOf (by decide) (by decide)]
    rfl
  refine ⟨_, parse_eq_ok.mpr ⟨⟨_, pastedParts_plain pairs⟩, ?_, ofParts_eq_ok.mpr
    ⟨_, _, _, _, huser, rfl, hread, rfl, rfl⟩⟩, rfl⟩
  rw [trim_eq_self (visible_written (pastedParts_plain pairs))]
  exact parsePlain_eq_some.mpr rfl

theorem postgres_lawful : plainCrate.Lawful (schemeOf "postgres".toList) :=
  plainCrate_lawful (by decide)

theorem postgres_rebuilds : plainCrate.Rebuilds "postgres".toList "postgres".toList :=
  plainCrate_rebuilds (by decide)

/-- A URL of a database on a host, with a user, a port and an option, keeps its target. -/
theorem pasted_database_keeps_its_target :
    ∃ parsed, ParsedDsn.parse plainCrate
        "postgres://app@machine.example:6432/till?sslmode=require".toList = .ok parsed ∧
      Keeps plainCrate parsed.parts "postgres".toList := by
  have htext : "postgres://app@machine.example:6432/till?sslmode=require".toList =
      written (pastedParts [("sslmode".toList, "require".toList)]) := by
    rewrite [show "postgres://app@machine.example:6432/till?sslmode=require".toList = _ from
      toList_of_eq rfl]
    decide
  obtain ⟨parsed, hparse, hparts⟩ := parse_pasted [("sslmode".toList, "require".toList)]
  refine ⟨parsed, htext ▸ hparse, ?_⟩
  have hback : plainCrate.Rebuilds parsed.parts.scheme "postgres".toList := by
    rw [hparts]
    exact postgres_rebuilds
  refine (pasted_url_keeps_its_target_iff plainCrate "postgres".toList postgres_lawful hback
    (by decide) hparse).2.2.mpr ?_
  rw [hparts]
  exact
    { options := by decide
      user := fun user h => Option.some.inj h ▸ (by decide)
      segments := fun segment hmem => by rw [mem_singleton.mp hmem]; decide
      apart := .inl ⟨rfl, rfl⟩ }

/-- An option that goes by the name of the host takes its place. -/
theorem option_replaces_host :
    ¬ ∀ (crate : UrlCrate) (driver text : Str) (parsed : ParsedDsn),
      crate.Lawful (schemeOf driver) → crate.Rebuilds parsed.parts.scheme driver →
        validateScheme driver = .ok () → ParsedDsn.parse crate text = .ok parsed →
          Keeps crate parsed.parts driver := by
  intro h
  obtain ⟨parsed, hparse, hparts⟩ := parse_pasted [("host".toList, "other.example".toList)]
  have hback : plainCrate.Rebuilds parsed.parts.scheme "postgres".toList := by
    rw [hparts]
    exact postgres_rebuilds
  have hkeeps := h plainCrate _ _ parsed postgres_lawful hback (by decide) hparse
  obtain ⟨source, -, hof⟩ := parse_eq_ok.mp hparse
  have hfrom := fromUrl_of_ofParts hof
  rw [hfrom.scheme] at hback
  have hkept := (kept_of_keeps postgres_lawful hback hfrom hkeeps).options
  rw [hparts] at hkept
  exact absurd hkept (by decide)

end Oxyn.Driver
