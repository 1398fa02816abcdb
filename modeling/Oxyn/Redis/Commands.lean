/-
# `Oxyn.Redis.Commands` — what the server says of its commands, and what is concluded

The table comes from the server, which answers whatever it wants: any flags, any categories,
subcommands of subcommands, a name twice.
-/
import Oxyn.Core.Query
import Oxyn.Redis.Redact
import Oxyn.Redis.Silent

namespace Oxyn.Redis

open Text Resp List

/-! ## The compiled list -/

/-- The commands proven read-only, sorted, a subcommand as `container|subcommand`. -/
def READS : List String :=
  ["bf.card", "bf.exists", "bf.info", "bf.mexists", "bitcount", "bitfield_ro", "bitpos",
    "cf.count", "cf.exists", "cf.info", "cf.mexists", "cms.info", "cms.query", "dbsize", "dump",
    "eval_ro", "evalsha_ro", "exists", "expiretime", "fcall_ro", "ft._list", "ft.aggregate",
    "ft.config|get", "ft.dictdump", "ft.explain", "ft.explaincli", "ft.info", "ft.profile",
    "ft.search", "ft.spellcheck", "ft.sugget", "ft.suglen", "ft.syndump", "geodist", "geohash",
    "geopos", "georadius_ro", "georadiusbymember_ro", "geosearch", "get", "getbit", "getrange",
    "hexists", "hexpiretime", "hget", "hgetall", "hkeys", "hlen", "hmget", "hpexpiretime",
    "hpttl", "hrandfield", "hscan", "hstrlen", "httl", "hvals", "json.arrindex", "json.arrlen",
    "json.get", "json.mget", "json.objkeys", "json.objlen", "json.resp", "json.strlen",
    "json.type", "lcs", "lindex", "llen", "lpos", "lrange", "memory|usage", "mget",
    "object|encoding", "object|freq", "object|idletime", "object|refcount", "pexpiretime",
    "pfcount", "pttl", "randomkey", "scan", "scard", "sdiff", "sdiffcard", "sinter",
    "sintercard", "sismember", "smembers", "smismember", "srandmember", "sscan", "strlen",
    "substr", "sunion", "sunioncard", "tdigest.byrank", "tdigest.byrevrank", "tdigest.cdf",
    "tdigest.info", "tdigest.max", "tdigest.min", "tdigest.quantile", "tdigest.rank",
    "tdigest.revrank", "tdigest.trimmed_mean", "topk.count", "topk.info", "topk.list",
    "topk.query", "touch", "ts.get", "ts.info", "ts.mget", "ts.mrange", "ts.mrevrange",
    "ts.queryindex", "ts.range", "ts.revrange", "ttl", "type", "vcard", "vdim", "vemb",
    "vgetattr", "vinfo", "vismember", "vlinks", "vrandmember", "vrange", "vsim",
    "xinfo|consumers", "xinfo|groups", "xinfo|stream", "xlen", "xpending", "xrange", "xread",
    "xrevrange", "zcard", "zcount", "zdiff", "zinter", "zintercard", "zlexcount", "zmscore",
    "zrandmember", "zrange", "zrangebylex", "zrangebyscore", "zrank", "zrevrange",
    "zrevrangebylex", "zrevrangebyscore", "zrevrank", "zscan", "zscore", "zunion"]

def isRead (command : Str) (subcommand : Option Str) : Bool :=
  let name := match subcommand with
    | some sub => command ++ '|' :: sub
    | none => command
  (READS.map String.toList).contains name

/-! ## The table -/

def lowercase (word : Bytes) : Option Str :=
  if word.all (· < 0x80) then some (keyword word) else none

/-- Whether a command line names a command of the list, by its first word or its first two. -/
def namesARead (argv : List Bytes) : Bool :=
  match argv[0]?.bind lowercase with
  | none => false
  | some command =>
    isRead command none || (argv[1]?.bind lowercase).any fun sub => isRead command (some sub)

/-- One command as the server describes it; of subcommands under one name the last is found. -/
structure CommandSpec where
  flags : List Str
  categories : List Str
  subcommands : List (Str × CommandSpec)

namespace CommandSpec

def hasFlag (spec : CommandSpec) (flag : String) : Bool := spec.flags.contains flag.toList

def inCategory (spec : CommandSpec) (category : String) : Bool :=
  spec.categories.contains category.toList

end CommandSpec

/-- Commands by name, in the order of their insertion. -/
abbrev Commands := List (Str × CommandSpec)

def Commands.get (commands : Commands) (name : Str) : Option CommandSpec :=
  commands.reverse.lookup name

structure CommandTable where
  commands : Commands

structure Found where
  command : Str
  subcommand : Option Str
  spec : CommandSpec

def CommandTable.find (table : CommandTable) (argv : List Bytes) : Option Found := do
  let name ← argv[0]?.bind lowercase
  let spec ← table.commands.get name
  if spec.subcommands.isEmpty then
    some ⟨name, none, spec⟩
  else
    let sub ← argv[1]?.bind lowercase
    let spec ← Commands.get spec.subcommands sub
    some ⟨name, some sub, spec⟩

/-! ## The verdict -/

/-- What a command may reach beyond the keys it names. -/
def risk (argv : List Bytes) : Option MutationRisk := do
  let name ← argv[0]?.bind lowercase
  let sub := argv[1]?.bind lowercase
  if name = "flushall".toList ∨ name = "flushdb".toList then some .truncate
  else if name = "swapdb".toList then some .unboundedUpdate
  else if (name = "function".toList ∧ (sub = some "flush".toList ∨ sub = some "delete".toList)) ∨
      (name = "xgroup".toList ∧ sub = some "destroy".toList) ∨
      (name = "acl".toList ∧ sub = some "deluser".toList) ∨
      name = "ft.dropindex".toList ∨ name = "ft.drop".toList then some .dropObject
  else if name = "function".toList ∧ sub = some "restore".toList ∧
      (argv.drop 3).any (fun word => lowercase word = some "flush".toList) then some .dropObject
  else none

def scripts : List String := ["eval", "evalsha", "fcall"]

def Found.intent (found : Found) : Option StatementIntent :=
  if (scripts.map String.toList).contains found.command || found.spec.inCategory "dangerous" then
    none
  else if found.spec.hasFlag "write" then some .write
  else if found.spec.hasFlag "readonly" && isRead found.command found.subcommand then some .read
  else none

/-- The intent the server's description proves, if it proves one. -/
def intent (table : CommandTable) (argv : List Bytes) : Option StatementIntent := do
  let name ← argv[0]?.bind lowercase
  if name = "acl".toList then some .grant
  else if (risk argv).isSome then some .write
  else (← table.find argv).intent

/-! ## What a name finds -/

theorem get_append (a b : Commands) (name : Str) :
    (a ++ b : Commands).get name = (b.get name).or (a.get name) := by
  rw [Commands.get, reverse_append, List.lookup_append]
  rfl

theorem get_cons (entry : Str × CommandSpec) (b : Commands) (name : Str) :
    Commands.get (entry :: b) name =
      (b.get name).or (if name = entry.1 then some entry.2 else none) := by
  rw [← singleton_append, get_append]
  congr 1
  obtain ⟨key, spec⟩ := entry
  rw [Commands.get, reverse_singleton, lookup_cons]
  cases h : name == key with
  | true => rw [if_pos (beq_iff_eq.mp h)]
  | false =>
    rw [if_neg (beq_eq_false_iff_ne.mp h)]
    rfl

theorem get_eq_none {commands : Commands} {name : Str} :
    commands.get name = none ↔ name ∉ commands.map Prod.fst := by
  induction commands with
  | nil => exact ⟨fun _ => not_mem_nil, fun _ => rfl⟩
  | cons entry commands ih =>
    rw [get_cons, Option.or_eq_none_iff, ih, map_cons, mem_cons, not_or, and_comm]
    refine and_congr_left fun _ => ?_
    split
    next h => exact iff_of_false (Option.some_ne_none _) (not_not.mpr h)
    next h => exact iff_of_true rfl h

variable {argv : List Bytes}

variable {table : CommandTable} {found : Found}

theorem find_eq_some :
    table.find argv = some found ↔
      ∃ name spec, argv[0]?.bind lowercase = some name ∧ table.commands.get name = some spec ∧
        ((spec.subcommands = [] ∧ found = ⟨name, none, spec⟩) ∨
          spec.subcommands ≠ [] ∧ ∃ sub inner, argv[1]?.bind lowercase = some sub ∧
            Commands.get spec.subcommands sub = some inner ∧ found = ⟨name, some sub, inner⟩) := by
  constructor
  · intro h
    obtain ⟨name, hname, h⟩ := Option.bind_eq_some_iff.mp h
    obtain ⟨spec, hspec, h⟩ := Option.bind_eq_some_iff.mp h
    refine ⟨name, spec, hname, hspec, ?_⟩
    split at h
    next hleaf =>
      cases h
      exact .inl ⟨List.isEmpty_iff.mp hleaf, rfl⟩
    next hcontainer =>
      obtain ⟨sub, hsub, h⟩ := Option.bind_eq_some_iff.mp h
      obtain ⟨inner, hinner, h⟩ := Option.bind_eq_some_iff.mp h
      cases h
      exact .inr ⟨fun hnil => hcontainer (List.isEmpty_iff.mpr hnil), sub, inner, hsub, hinner, rfl⟩
  · rintro ⟨name, spec, hname, hspec, ⟨hleaf, rfl⟩ | ⟨hcontainer, sub, inner, hsub, hinner, rfl⟩⟩
    · simp [CommandTable.find, hname, hspec, hleaf]
    · simp [CommandTable.find, hname, hspec, hcontainer, hsub, hinner]

/-! ## What is proven a read -/

theorem found_intent_eq_read :
    found.intent = some .read ↔
      (scripts.map String.toList).contains found.command = false ∧
        found.spec.inCategory "dangerous" = false ∧ found.spec.hasFlag "write" = false ∧
        found.spec.hasFlag "readonly" = true ∧ isRead found.command found.subcommand = true := by
  unfold Found.intent
  cases (scripts.map String.toList).contains found.command <;>
    cases found.spec.inCategory "dangerous" <;> cases found.spec.hasFlag "write" <;>
      cases found.spec.hasFlag "readonly" <;>
        cases isRead found.command found.subcommand <;> simp

theorem intent_eq_read :
    intent table argv = some .read ↔
      ∃ name found, argv[0]?.bind lowercase = some name ∧ name ≠ "acl".toList ∧
        risk argv = none ∧ table.find argv = some found ∧ found.intent = some .read := by
  constructor
  · intro h
    obtain ⟨name, hname, h⟩ := Option.bind_eq_some_iff.mp h
    split at h
    next => cases h
    next hacl =>
      split at h
      next => cases h
      next hrisk =>
        obtain ⟨found, hfound, h⟩ := Option.bind_eq_some_iff.mp h
        exact ⟨name, found, hname, hacl, Option.not_isSome_iff_eq_none.mp hrisk, hfound, h⟩
  · rintro ⟨name, found, hname, hacl, hrisk, hfound, h⟩
    rw [intent, hname, Option.bind_eq_bind, Option.bind_some, if_neg hacl, hrisk, hfound]
    exact h

theorem namesARead_of_find
    (h : table.find argv = some found) (hread : isRead found.command found.subcommand = true) :
    namesARead argv = true := by
  obtain ⟨name, spec, hname, -, ⟨-, rfl⟩ | ⟨-, sub, inner, hsub, -, rfl⟩⟩ := find_eq_some.mp h
  · simp [namesARead, hname, hread]
  · simp [namesARead, hname, hsub, hread]

/-! ## What a server may change -/

mutual

/-- A change that can only withdraw: an entry changes, or is removed where it hides no earlier
entry of its name. -/
inductive Withdraws : Commands → Commands → Prop
  | entry (a b : Commands) (name : Str) {spec spec' : CommandSpec} : SpecWithdraws spec spec' →
      Withdraws (a ++ (name, spec) :: b) (a ++ (name, spec') :: b)
  | remove (a b : Commands) (name : Str) (spec : CommandSpec) :
      name ∉ a.map Prod.fst ∨ name ∈ b.map Prod.fst →
      Withdraws (a ++ (name, spec) :: b) (a ++ b)

inductive SpecWithdraws : CommandSpec → CommandSpec → Prop
  | write (spec : CommandSpec) (flags : List Str) : spec.flags ⊆ flags →
      "write".toList ∈ flags → SpecWithdraws spec { spec with flags := flags }
  | dangerous (spec : CommandSpec) :
      SpecWithdraws spec { spec with categories := "dangerous".toList :: spec.categories }
  /-- A change among the subcommands, which leaves one. -/
  | subcommands (spec : CommandSpec) (subs : Commands) : Withdraws spec.subcommands subs →
      subs ≠ [] → SpecWithdraws spec { spec with subcommands := subs }

end

theorem get_of_withdraws {t t' : Commands} (h : Withdraws t t') {name : Str} {spec' : CommandSpec}
    (hget : t'.get name = some spec') :
    ∃ spec, t.get name = some spec ∧ (spec = spec' ∨ SpecWithdraws spec spec') := by
  cases h with
  | entry a b key hspec =>
    rw [get_append, get_cons] at hget ⊢
    cases hb : b.get name with
    | some found =>
      rw [hb] at hget
      exact ⟨spec', hget, .inl rfl⟩
    | none =>
      rw [hb, Option.none_or] at hget
      rw [Option.none_or]
      split at hget
      next hkey =>
        cases hget
        exact ⟨_, by rw [if_pos hkey]; rfl, .inr hspec⟩
      next hkey => exact ⟨spec', by rw [if_neg hkey]; exact hget, .inl rfl⟩
  | remove a b key spec hides =>
    rw [get_append] at hget
    rw [get_append, get_cons]
    cases hb : b.get name with
    | some found =>
      rw [hb] at hget
      exact ⟨spec', hget, .inl rfl⟩
    | none =>
      rw [hb, Option.none_or] at hget
      rw [Option.none_or]
      have hkey : name ≠ key := by
        rintro rfl
        refine hides.elim (fun ha => ?_) (get_eq_none.mp hb)
        rw [get_eq_none.mpr ha] at hget
        cases hget
      exact ⟨spec', by rw [if_neg hkey]; exact hget, .inl rfl⟩

variable {spec spec' : CommandSpec}

theorem subcommands_of_withdraws (h : SpecWithdraws spec spec')
    {command : Str} {sub : Option Str} (hread : Found.intent ⟨command, sub, spec'⟩ = some .read) :
    ∃ subs, Withdraws spec.subcommands subs ∧ subs ≠ [] ∧
      spec' = { spec with subcommands := subs } := by
  obtain ⟨-, hdangerous, hwrite, -⟩ := found_intent_eq_read.mp hread
  cases h with
  | write _ flags hflags hmem =>
    exact absurd (contains_iff_mem.mpr hmem) (Bool.eq_false_iff.mp hwrite)
  | dangerous =>
    have hmem : "dangerous".toList ∈ "dangerous".toList :: spec.categories := mem_cons_self
    exact (Bool.eq_false_iff.mp hdangerous (contains_iff_mem.mpr hmem)).elim
  | subcommands _ subs hsubs hne => exact ⟨subs, hsubs, hne, rfl⟩

theorem subcommand_of_withdraws (h : SpecWithdraws spec spec')
    {sub : Str} {inner' : CommandSpec} (hget : Commands.get spec'.subcommands sub = some inner') :
    ∃ inner, Commands.get spec.subcommands sub = some inner ∧
      (inner = inner' ∨ SpecWithdraws inner inner') := by
  cases h with
  | write | dangerous => exact ⟨inner', hget, .inl rfl⟩
  | subcommands _ subs hsubs _ => exact get_of_withdraws hsubs hget

theorem found_read_of_withdraws
    (h : spec = spec' ∨ SpecWithdraws spec spec') {command : Str} {sub : Option Str}
    (hread : Found.intent ⟨command, sub, spec'⟩ = some .read) :
    Found.intent ⟨command, sub, spec⟩ = some .read := by
  rcases h with rfl | h
  · exact hread
  · obtain ⟨subs, -, -, rfl⟩ := subcommands_of_withdraws h hread
    exact hread

theorem read_of_withdraws {t t' : Commands} (h : Withdraws t t')
    (hread : intent ⟨t'⟩ argv = some .read) : intent ⟨t⟩ argv = some .read := by
  obtain ⟨name, found, hname, hacl, hrisk, hfind, hread⟩ := intent_eq_read.mp hread
  obtain ⟨word, spec', hword, hspec', hfound⟩ := find_eq_some.mp hfind
  obtain ⟨spec, hspec, hchange⟩ := get_of_withdraws h hspec'
  rcases hfound with ⟨hleaf, rfl⟩ | ⟨hcontainer, sub, inner', hsub, hinner', rfl⟩
  · -- the command itself: a change leaves it a subcommand, or takes the read away
    have hsame : spec = spec' := hchange.resolve_right fun hchange => by
      obtain ⟨subs, -, hne, rfl⟩ := subcommands_of_withdraws hchange hread
      exact hne hleaf
    subst hsame
    exact intent_eq_read.mpr ⟨name, _, hname, hacl, hrisk,
      find_eq_some.mpr ⟨word, spec, hword, hspec, .inl ⟨hleaf, rfl⟩⟩, hread⟩
  · obtain ⟨inner, hinner, hchanged⟩ : ∃ inner, Commands.get spec.subcommands sub = some inner ∧
        (inner = inner' ∨ SpecWithdraws inner inner') := by
      rcases hchange with rfl | hchange
      · exact ⟨inner', hinner', .inl rfl⟩
      · exact subcommand_of_withdraws hchange hinner'
    have hsome : spec.subcommands ≠ [] := by
      intro hnil
      rw [hnil] at hinner
      cases hinner
    exact intent_eq_read.mpr ⟨name, _, hname, hacl, hrisk,
      find_eq_some.mpr ⟨word, spec, hword, hspec, .inr ⟨hsome, sub, inner, hsub, hinner, rfl⟩⟩,
      found_read_of_withdraws hchanged hread⟩

/-! ## The verdict and the table -/

theorem intent_acl (table : CommandTable)
    (h : argv[0]?.bind lowercase = some "acl".toList) : intent table argv = some .grant := by
  rw [intent, h]
  rfl

theorem intent_of_risk (table : CommandTable)
    (hacl : argv[0]?.bind lowercase ≠ some "acl".toList) (hrisk : risk argv ≠ none) :
    intent table argv = some .write := by
  cases hname : argv[0]?.bind lowercase with
  | none =>
    rw [risk, hname] at hrisk
    exact absurd rfl hrisk
  | some name =>
    rw [intent, hname, Option.bind_eq_bind, Option.bind_some,
      if_neg fun h => hacl (hname.trans (congrArg some h)),
      if_pos (Option.isSome_iff_ne_none.mpr hrisk)]

/-- Entries the examples of tables are made of. -/
def readonlyEntry : CommandSpec := ⟨["readonly".toList], [], []⟩

def plainEntry : CommandSpec := ⟨[], [], []⟩

/-- Whatever the server says, `Read` is said only of lines that name a compiled read and have no
risk; a table that withdraws turns nothing into a read; a command with a risk is a write, every
`ACL` command a grant. -/
theorem intent_is_checked (argv : List Bytes) :
    (∀ table, intent table argv = some .read → namesARead argv = true ∧ risk argv = none) ∧
      (∀ t t', Withdraws t t' → intent ⟨t'⟩ argv = some .read → intent ⟨t⟩ argv = some .read) ∧
      (argv[0]?.bind lowercase = some "acl".toList → ∀ table, intent table argv = some .grant) ∧
      (argv[0]?.bind lowercase ≠ some "acl".toList → risk argv ≠ none →
        ∀ table, intent table argv = some .write) := by
  refine ⟨fun table h => ?_, fun t t' h => read_of_withdraws h, fun h table => intent_acl table h,
    fun hacl hrisk table => intent_of_risk table hacl hrisk⟩
  obtain ⟨name, found, -, -, hrisk, hfind, hread⟩ := intent_eq_read.mp h
  exact ⟨namesARead_of_find hfind (found_intent_eq_read.mp hread).2.2.2.2, hrisk⟩

/-- `GET` is read by a table that leaves `SET` out, so it is by one that has it. -/
theorem get_is_checked :
    intent ⟨[("set".toList, plainEntry), ("get".toList, readonlyEntry)]⟩
        [bytes "GET".toList, bytes "k".toList] = some .read ∧
      namesARead [bytes "GET".toList, bytes "k".toList] = true :=
  ⟨(intent_is_checked [bytes "GET".toList, bytes "k".toList]).2.1 _ _
      (.remove [] [("get".toList, readonlyEntry)] "set".toList plainEntry (.inl not_mem_nil))
      (by decide),
    ((intent_is_checked [bytes "GET".toList, bytes "k".toList]).1
      ⟨[("get".toList, readonlyEntry)]⟩ (by decide)).1⟩

/-- A removed entry uncovers the one it hid, or makes a command of a container; and
`ACL DELUSER` has a risk. -/
theorem removal_can_grant :
    (¬ ∀ (a b : Commands) (name : Str) (spec : CommandSpec) (argv : List Bytes),
      intent ⟨a ++ b⟩ argv = some .read → intent ⟨a ++ (name, spec) :: b⟩ argv = some .read) ∧
    (¬ ∀ (name sub : Str) (spec inner : CommandSpec) (argv : List Bytes),
      intent ⟨[(name, { spec with subcommands := [] })]⟩ argv = some .read →
        intent ⟨[(name, { spec with subcommands := [(sub, inner)] })]⟩ argv = some .read) ∧
    ¬ ∀ (table : CommandTable) (argv : List Bytes), risk argv ≠ none →
      intent table argv = some .write := by
  refine ⟨fun h => ?_, fun h => ?_, fun h => ?_⟩
  · have hread := h [("get".toList, readonlyEntry)] [] "get".toList plainEntry
      [bytes "GET".toList, bytes "k".toList] (by decide)
    exact absurd hread (by decide)
  · have hread := h "get".toList "x".toList readonlyEntry plainEntry
      [bytes "GET".toList, bytes "k".toList] (by decide)
    exact absurd hread (by decide)
  · have hwrite := h ⟨[]⟩ [bytes "ACL".toList, bytes "DELUSER".toList] (by decide)
    exact absurd hwrite (by decide)

end Oxyn.Redis
