/-
# `Oxyn.Redis.Credential` — what the server reads as a credential

The grammar of the commands that carry a credential, on what their arguments hold (`Credential`),
set beside the arguments `redact_secrets` replaces.
-/
import Oxyn.Redis.Redact

namespace Oxyn

open Text Argv List

/-! ## The server's grammar -/

def Spells (v : List UInt8) (word : Str) : Prop := ∃ s, v = bytes s ∧ s.map Char.toLower = word

def IsVersion (v : List UInt8) : Prop := v ≠ [] ∧ ∀ c ∈ v, isAsciiDigit c = true

/-- The options of `MIGRATE`, and where among them the passwords are. -/
inductive MigrateOptions : List (List UInt8) → List Nat → Prop
  | nil : MigrateOptions [] []
  | flag {o : List UInt8} {rest : List (List UInt8)} {ks : List Nat} :
      Spells o "copy".toList ∨ Spells o "replace".toList → MigrateOptions rest ks →
      MigrateOptions (o :: rest) (ks.map (· + 1))
  | auth {o password : List UInt8} {rest : List (List UInt8)} {ks : List Nat} :
      Spells o "auth".toList → MigrateOptions rest ks →
      MigrateOptions (o :: password :: rest) (1 :: ks.map (· + 2))
  | auth2 {o user password : List UInt8} {rest : List (List UInt8)} {ks : List Nat} :
      Spells o "auth2".toList → MigrateOptions rest ks →
      MigrateOptions (o :: user :: password :: rest) (2 :: ks.map (· + 3))
  | keys {o : List UInt8} {keys : List (List UInt8)} :
      Spells o "keys".toList → MigrateOptions (o :: keys) []

/-- The bytes that begin a rule of `ACL SETUSER` holding a password or its hash. -/
def isRuleStart (c : UInt8) : Bool := c == 0x3e || c == 0x3c || c == 0x23 || c == 0x21

/-- The server reads the argument `k` of a command as a credential. -/
inductive Credential : List (List UInt8) → Nat → Prop
  | auth {name password : List UInt8} :
      Spells name "auth".toList → Credential [name, password] 1
  | authUser {name user password : List UInt8} :
      Spells name "auth".toList → Credential [name, user, password] 2
  | helloAuth {name proto auth user password : List UInt8} :
      Spells name "hello".toList → IsVersion proto → Spells auth "auth".toList →
      Credential [name, proto, auth, user, password] 4
  | helloAuthName {name proto auth user password setname client : List UInt8} :
      Spells name "hello".toList → IsVersion proto → Spells auth "auth".toList →
      Spells setname "setname".toList →
      Credential [name, proto, auth, user, password, setname, client] 4
  | helloNameAuth {name proto setname client auth user password : List UInt8} :
      Spells name "hello".toList → IsVersion proto → Spells setname "setname".toList →
      Spells auth "auth".toList →
      Credential [name, proto, setname, client, auth, user, password] 6
  | setuser {name sub user rule : List UInt8} {rules : List (List UInt8)} {i : Nat} {c : UInt8} :
      Spells name "acl".toList → Spells sub "setuser".toList → rules[i]? = some rule →
      rule.head? = some c → isRuleStart c = true →
      Credential (name :: sub :: user :: rules) (i + 3)
  | configSet {name sub parameter value : List UInt8} {pairs : List (List UInt8 × List UInt8)}
      {i : Nat} {word : Str} :
      Spells name "config".toList → Spells sub "set".toList →
      pairs[i]? = some (parameter, value) → word ∈ secretParameters → Spells parameter word →
      Credential (name :: sub :: pairs.flatMap fun p => [p.1, p.2]) (2 * i + 3)
  | migrate {name host port key db timeout : List UInt8} {options : List (List UInt8)}
      {ks : List Nat} {i : Nat} :
      Spells name "migrate".toList → MigrateOptions options ks → i ∈ ks →
      Credential (name :: host :: port :: key :: db :: timeout :: options) (i + 6)

/-! ## The words the redactor reads -/

theorem toNat_toLower_lt {c : Char} : c.toLower.toNat < 0x80 ↔ c.toNat < 0x80 := by
  rcases toNat_of_toLower (c := c) rfl with h | ⟨⟨hlo, hhi⟩, h⟩
  · rw [← h]
  · omega

variable {v : List UInt8} {word : Str}

theorem keyword_eq_iff (hword : ∀ c ∈ word, c.toNat < 0x80) :
    keyword v = word ↔ Spells v word := by
  constructor
  · intro h
    have hascii : ∀ c ∈ fromUtf8Lossy v, c.toNat < 0x80 := by
      intro c hc
      refine toNat_toLower_lt.mp (hword _ ?_)
      rw [← h]
      exact mem_map_of_mem hc
    exact ⟨fromUtf8Lossy v, (bytes_fromUtf8Lossy hascii).symm, h⟩
  · rintro ⟨s, rfl, rfl⟩
    rw [keyword, fromUtf8Lossy_bytes]

/-- The keyword of the argument `i`. -/
def wordAt (args : List (List UInt8)) (i : Nat) : Option Str := (args[i]?).map keyword

variable {i : Nat}

theorem wordAt_cons {args : List (List UInt8)} :
    wordAt (v :: args) (i + 1) = wordAt args i := by
  rw [wordAt, wordAt, getElem?_cons_succ]

theorem wordAt_of_spells {args : List (List UInt8)}
    (h : args[i]? = some v) (hv : Spells v word) (hword : ∀ c ∈ word, c.toNat < 0x80) :
    wordAt args i = some word := by
  rw [wordAt, h, Option.map_some, (keyword_eq_iff hword).mpr hv]

/-- The argument is one behind `AUTH`, or two behind `AUTH2`. -/
def BehindAuth (args : List (List UInt8)) (k : Nat) : Prop :=
  1 ≤ k ∧ wordAt args (k - 1) = some "auth".toList ∨
    2 ≤ k ∧ wordAt args (k - 2) = some "auth2".toList

instance (args : List (List UInt8)) (k : Nat) : Decidable (BehindAuth args k) :=
  inferInstanceAs (Decidable (_ ∨ _))

theorem BehindAuth.cons {args : List (List UInt8)} {k : Nat} (h : BehindAuth args k)
    (v : List UInt8) : BehindAuth (v :: args) (k + 1) := by
  rcases h with ⟨hk, hword⟩ | ⟨hk, hword⟩
  · left
    refine ⟨by omega, ?_⟩
    rwa [show k + 1 - 1 = k - 1 + 1 by omega, wordAt_cons]
  · right
    refine ⟨by omega, ?_⟩
    rwa [show k + 1 - 2 = k - 2 + 1 by omega, wordAt_cons]

section Arms

variable {args : List (List UInt8)} (k : Nat)

theorem markerAt_auth (h : wordAt args 0 = some "auth".toList) :
    markerAt args k = if 1 ≤ k ∧ k + 1 = args.length then some redactedMarker else none := by
  rw [wordAt] at h
  simp only [markerAt, h, if_true]

theorem markerAt_hello (h : wordAt args 0 = some "hello".toList) :
    markerAt args k =
      if ((List.range' 1 (args.length - 1)).find? (wordAt args · = some "auth".toList)).map
        (· + 2) = some k then some redactedMarker else none := by
  rw [wordAt] at h
  simp only [markerAt, h]
  rw [if_neg (by decide), if_pos trivial]
  rfl

theorem markerAt_acl (h : wordAt args 0 = some "acl".toList)
    (h' : wordAt args 1 = some "setuser".toList) :
    markerAt args k = if 3 ≤ k then (args[k]?).bind ruleMarker else none := by
  rw [wordAt] at h h'
  simp only [markerAt, h, h']
  rw [if_neg (by decide), if_neg (by decide), if_pos ⟨trivial, trivial⟩]

theorem markerAt_config (h : wordAt args 0 = some "config".toList)
    (h' : wordAt args 1 = some "set".toList) :
    markerAt args k =
      if 3 ≤ k ∧ (wordAt args (k - 1)).any (secretParameters.contains ·) then some redactedMarker
      else none := by
  rw [wordAt] at h h'
  simp only [markerAt, h, h']
  rw [if_neg (by decide), if_neg (by decide), if_neg (by decide), if_pos ⟨trivial, trivial⟩]
  rfl

theorem markerAt_migrate (h : wordAt args 0 = some "migrate".toList) :
    markerAt args k = if BehindAuth args k then some redactedMarker else none := by
  rw [wordAt] at h
  simp only [markerAt, h]
  rw [if_neg (by decide), if_neg (by decide), if_neg (fun h => absurd h.1 (by decide)),
    if_neg (fun h => absurd h.1 (by decide)), if_pos trivial]
  rfl

end Arms

/-! ## Where a credential stands -/

/-- What the redactor sees around a credential. -/
inductive Seen (args : List (List UInt8)) (k : Nat) : Prop
  | auth : wordAt args 0 = some "auth".toList → 1 ≤ k → k + 1 = args.length → Seen args k
  | helloAuth : wordAt args 0 = some "hello".toList → wordAt args 1 ≠ some "auth".toList →
      wordAt args 2 = some "auth".toList → k = 4 → 4 < args.length → Seen args k
  | helloNameAuth : wordAt args 0 = some "hello".toList → wordAt args 1 ≠ some "auth".toList →
      wordAt args 2 = some "setname".toList → wordAt args 4 = some "auth".toList → k = 6 →
      6 < args.length → Seen args k
  | setuser {rule : List UInt8} {m : Str} : wordAt args 0 = some "acl".toList →
      wordAt args 1 = some "setuser".toList → 3 ≤ k → args[k]? = some rule →
      ruleMarker rule = some m → Seen args k
  | configSet : wordAt args 0 = some "config".toList → wordAt args 1 = some "set".toList →
      3 ≤ k → (wordAt args (k - 1)).any (secretParameters.contains ·) = true → k < args.length →
      Seen args k
  | migrate : wordAt args 0 = some "migrate".toList → BehindAuth args k → k < args.length →
      Seen args k

theorem keyword_of_isVersion (h : IsVersion v) : keyword v ≠ "auth".toList := by
  intro hauth
  obtain ⟨s, rfl, hs⟩ := (keyword_eq_iff (by decide)).mp hauth
  obtain ⟨c, s, rfl⟩ : ∃ c t, s = c :: t := by
    cases s with
    | nil => simp at hs
    | cons c t => exact ⟨c, t, rfl⟩
  have hc : c.toLower = 'a' := (List.cons.inj hs).1
  have hval : c.toNat = 0x61 ∨ c.toNat = 0x41 := by
    rcases toNat_of_toLower hc with rfl | ⟨-, h⟩
    · exact .inl rfl
    · right
      have : 'a'.toNat = 0x61 := rfl
      omega
  have hdigit := h.2 (UInt8.ofNat c.toNat) (by
    rw [bytes_cons, utf8EncodeChar_ascii (by omega)]
    simp)
  rcases hval with hval | hval
  · rw [hval] at hdigit
    exact absurd hdigit (by decide)
  · rw [hval] at hdigit
    exact absurd hdigit (by decide)

theorem behind_of_migrateOptions {options : List (List UInt8)} {ks : List Nat}
    (h : MigrateOptions options ks) (hi : i ∈ ks) :
    i < options.length ∧ BehindAuth options i := by
  induction h generalizing i with
  | nil => simp at hi
  | flag _ _ ih =>
    obtain ⟨j, hj, rfl⟩ := mem_map.mp hi
    obtain ⟨hlt, hbehind⟩ := ih hj
    exact ⟨by simpa using hlt, hbehind.cons _⟩
  | auth ho _ ih =>
    rcases mem_cons.mp hi with rfl | hi
    · exact ⟨by simp, .inl ⟨Nat.le_refl 1, wordAt_of_spells rfl ho (by decide)⟩⟩
    · obtain ⟨j, hj, rfl⟩ := mem_map.mp hi
      obtain ⟨hlt, hbehind⟩ := ih hj
      exact ⟨by simpa using hlt, (hbehind.cons _).cons _⟩
  | auth2 ho _ ih =>
    rcases mem_cons.mp hi with rfl | hi
    · exact ⟨by simp, .inr ⟨Nat.le_refl 2, wordAt_of_spells rfl ho (by decide)⟩⟩
    · obtain ⟨j, hj, rfl⟩ := mem_map.mp hi
      obtain ⟨hlt, hbehind⟩ := ih hj
      exact ⟨by simpa using hlt, ((hbehind.cons _).cons _).cons _⟩
  | keys => simp at hi

theorem ruleMarker_of_start {c : UInt8} (h : v.head? = some c)
    (hc : isRuleStart c = true) : ∃ m, ruleMarker v = some m := by
  simp only [isRuleStart, Bool.or_eq_true, beq_iff_eq] at hc
  unfold ruleMarker
  rw [h]
  rcases hc with ((rfl | rfl) | rfl) | rfl
  · exact ⟨_, rfl⟩
  · exact ⟨_, rfl⟩
  · exact ⟨_, rfl⟩
  · exact ⟨_, rfl⟩

theorem getElem?_pairs {pairs : List (List UInt8 × List UInt8)}
    {parameter value : List UInt8} (h : pairs[i]? = some (parameter, value)) :
    (pairs.flatMap fun p => [p.1, p.2])[2 * i]? = some parameter ∧
      (pairs.flatMap fun p => [p.1, p.2])[2 * i + 1]? = some value := by
  induction pairs generalizing i with
  | nil => simp at h
  | cons p pairs ih =>
    cases i with
    | zero =>
      obtain rfl := Option.some.inj h
      exact ⟨rfl, rfl⟩
    | succ i => exact ih h

theorem seen_of_credential {args : List (List UInt8)} {k : Nat} (h : Credential args k) :
    Seen args k := by
  cases h with
  | auth hname | authUser hname =>
    exact .auth (wordAt_of_spells rfl hname (by decide)) (by decide) rfl
  | helloAuth hname hproto hauth | helloAuthName hname hproto hauth _ =>
    exact .helloAuth (wordAt_of_spells rfl hname (by decide))
      (fun h => keyword_of_isVersion hproto (Option.some.inj h))
      (wordAt_of_spells rfl hauth (by decide)) rfl (by simp)
  | helloNameAuth hname hproto hsetname hauth =>
    exact .helloNameAuth (wordAt_of_spells rfl hname (by decide))
      (fun h => keyword_of_isVersion hproto (Option.some.inj h))
      (wordAt_of_spells rfl hsetname (by decide)) (wordAt_of_spells rfl hauth (by decide)) rfl
      (by simp)
  | setuser hname hsub hrule hhead hstart =>
    obtain ⟨m, hm⟩ := ruleMarker_of_start hhead hstart
    exact .setuser (wordAt_of_spells rfl hname (by decide))
      (wordAt_of_spells rfl hsub (by decide)) (Nat.le_add_left 3 _) hrule hm
  | @configSet name sub parameter value pairs i word hname hsub hpair hword hparameter =>
    obtain ⟨hp, hv⟩ := getElem?_pairs hpair
    have hascii : ∀ word ∈ secretParameters, ∀ c ∈ word, c.toNat < 0x80 := by decide
    have hat : wordAt (name :: sub :: pairs.flatMap fun p => [p.1, p.2]) (2 * i + 2) =
        some word := wordAt_of_spells hp hparameter (hascii word hword)
    refine .configSet (wordAt_of_spells rfl hname (by decide))
      (wordAt_of_spells rfl hsub (by decide)) (Nat.le_add_left 3 _) ?_ ?_
    · rw [show 2 * i + 3 - 1 = 2 * i + 2 by omega, hat, Option.any_some,
        contains_iff_mem]
      exact hword
    · have := (List.getElem?_eq_some_iff.mp hv).1
      simp only [length_cons]
      omega
  | migrate hname hoptions hi =>
    obtain ⟨hlt, hbehind⟩ := behind_of_migrateOptions hoptions hi
    refine .migrate (wordAt_of_spells rfl hname (by decide)) ?_ (by simpa using hlt)
    exact (((((hbehind.cons _).cons _).cons _).cons _).cons _).cons _

/-! ## What the redactor does with it -/

/-- The client of a `HELLO` is named as the keyword that comes behind it. -/
def HidesAuth (args : List (List UInt8)) : Prop :=
  ∃ name setname client, args[0]? = some name ∧ args[2]? = some setname ∧
    args[3]? = some client ∧ Spells name "hello".toList ∧ Spells setname "setname".toList ∧
    Spells client "auth".toList

theorem spells_of_wordAt {args : List (List UInt8)}
    (h : wordAt args i = some word) (hword : ∀ c ∈ word, c.toNat < 0x80) :
    ∃ v, args[i]? = some v ∧ Spells v word := by
  obtain ⟨v, hv, hkey⟩ := Option.map_eq_some_iff.mp h
  exact ⟨v, hv, (keyword_eq_iff hword).mp hkey⟩

section Marked

variable {args : List (List UInt8)} {k : Nat}

theorem find_auth (h : Seen args k) (hhello : wordAt args 0 = some "hello".toList)
    (hclient : ¬ HidesAuth args) :
    ((List.range' 1 (args.length - 1)).find? (wordAt args · = some "auth".toList)).map (· + 2) =
      some k := by
  have hfirst {j : Nat} (hj : j + 2 = k) (h1 : 1 ≤ j) (hlt : j < args.length)
      (hat : wordAt args j = some "auth".toList)
      (hbefore : ∀ i, 1 ≤ i → i < j → wordAt args i ≠ some "auth".toList) :
      ((List.range' 1 (args.length - 1)).find? (wordAt args · = some "auth".toList)).map (· + 2) =
        some k := by
    rw [find?_range'_eq_some.mpr ⟨by simpa using hat, by
      rw [mem_range'_1]; omega, fun i hi hij => by simpa using hbefore i hi hij⟩, ← hj]
    rfl
  cases h with
  | helloAuth _ h1 h2 hk hlen =>
    refine hfirst (j := 2) hk.symm (by omega) (by omega) h2 fun i hi hlt => ?_
    rwa [show i = 1 by omega]
  | helloNameAuth _ h1 h2 h4 hk hlen =>
    refine hfirst (j := 4) hk.symm (by omega) (by omega) h4 fun i hi hlt hauth => ?_
    rcases show i = 1 ∨ i = 2 ∨ i = 3 by omega with rfl | rfl | rfl
    · exact h1 hauth
    · rw [h2] at hauth
      exact absurd hauth (by decide)
    · obtain ⟨name, hname, hs0⟩ := spells_of_wordAt hhello (by decide)
      obtain ⟨setname, hsetname, hs2⟩ := spells_of_wordAt h2 (by decide)
      obtain ⟨client, hcl, hs3⟩ := spells_of_wordAt hauth (by decide)
      exact hclient ⟨name, setname, client, hname, hsetname, hcl, hs0, hs2, hs3⟩
  | auth hname | setuser hname | configSet hname
  | migrate hname => rw [hhello] at hname; exact absurd hname (by decide)

/-- What stands in the place of a credential. -/
def IsMarker (v : List UInt8) (shown : Str) : Prop :=
  shown = redactedMarker ∨ ruleMarker v = some shown

/-- A credential is replaced, unless a client is named `AUTH` before it. -/
theorem marker_of_seen (h : Seen args k) (hclient : ¬ HidesAuth args) :
    ∃ m, markerAt args k = some m := by
  cases h with
  | auth hname h1 hlen => exact ⟨_, by rw [markerAt_auth k hname, if_pos ⟨h1, hlen⟩]⟩
  | helloAuth hname h1 h2 hk hlen =>
    have hfind := find_auth (.helloAuth hname h1 h2 hk hlen) hname hclient
    exact ⟨_, by rw [markerAt_hello k hname, if_pos hfind]⟩
  | helloNameAuth hname h1 h2 h4 hk hlen =>
    have hfind := find_auth (.helloNameAuth hname h1 h2 h4 hk hlen) hname hclient
    exact ⟨_, by rw [markerAt_hello k hname, if_pos hfind]⟩
  | @setuser rule m hname hsub hk hrule hm =>
    exact ⟨m, by rw [markerAt_acl k hname hsub, if_pos hk, hrule, Option.bind_some, hm]⟩
  | configSet hname hsub hk hword =>
    exact ⟨_, by rw [markerAt_config k hname hsub, if_pos ⟨hk, hword⟩]⟩
  | migrate hname hbehind => exact ⟨_, by rw [markerAt_migrate k hname, if_pos hbehind]⟩

theorem isMarker_of_markerAt {m : Str} (hv : args[k]? = some v)
    (h : markerAt args k = some m) : IsMarker v m := by
  have hsame {P : Prop} [Decidable P] (h : (if P then some redactedMarker else none) = some m) :
      IsMarker v m := by
    split at h
    · exact .inl (Option.some.inj h).symm
    · simp at h
  simp only [markerAt] at h
  cases hword : (args[0]?).map keyword with
  | none =>
    rw [hword] at h
    simp at h
  | some name =>
    rw [hword] at h
    simp only at h
    by_cases h1 : name = "auth".toList
    · rw [if_pos h1] at h
      exact hsame h
    by_cases h2 : name = "hello".toList
    · rw [if_neg h1, if_pos h2] at h
      exact hsame h
    rw [if_neg h1, if_neg h2] at h
    split at h
    · split at h
      · rw [hv, Option.bind_some] at h
        exact .inr h
      · simp at h
    split at h
    · exact hsame h
    split at h
    · exact hsame h
    · simp at h

end Marked

/-! ## Commands alike but for their credentials -/

/-- Two commands hold the same, but for their credentials. -/
structure Agree (args args' : List (List UInt8)) : Prop where
  length : args.length = args'.length
  credential : ∀ k, Credential args k ↔ Credential args' k
  same : ∀ k, ¬ Credential args k → args[k]? = args'[k]?

/-- No credential of the command is mistaken for a keyword, and no client is. -/
structure Unmistaken (args : List (List UInt8)) : Prop where
  client : ¬ HidesAuth args
  configSet : ∀ name k v, args[0]? = some name → Spells name "config".toList →
    Credential args k → args[k]? = some v → ∀ word ∈ secretParameters, ¬ Spells v word
  migrate : ∀ name k v, args[0]? = some name → Spells name "migrate".toList →
    Credential args k → args[k]? = some v →
    ¬ Spells v "auth".toList ∧ ¬ Spells v "auth2".toList

/-- The access rules of both commands are of the same kinds. -/
def SameKinds (args args' : List (List UInt8)) : Prop :=
  ∀ name k v v', args[0]? = some name → Spells name "acl".toList → Credential args k →
    args[k]? = some v → args'[k]? = some v' → v.head? = v'.head?

section Congr

variable {args args' : List (List UInt8)}

theorem Seen.pos {k : Nat} (h : Seen args k) : 1 ≤ k ∧ k < args.length := by
  cases h with
  | auth => omega
  | helloAuth => omega
  | helloNameAuth => omega
  | setuser _ _ hk hrule => exact ⟨by omega, (List.getElem?_eq_some_iff.mp hrule).1⟩
  | configSet => omega
  | migrate _ hbehind =>
    rcases hbehind with ⟨hk, -⟩ | ⟨hk, -⟩
    · omega
    · omega

theorem Seen.behind_name {k : Nat} (h : Seen args k) {name : Str}
    (hname : wordAt args 0 = some name) (hne : name = "acl".toList ∨ name = "config".toList) :
    3 ≤ k := by
  cases h with
  | setuser => omega
  | configSet => omega
  | auth h | helloAuth h | helloNameAuth h
  | migrate h => rw [hname] at h; rcases hne with rfl | rfl <;> exact absurd h (by decide)

namespace Agree

variable (h : Agree args args')

include h

theorem wordAt_eq (hi : ¬ Credential args i) : wordAt args i = wordAt args' i := by
  rw [wordAt, wordAt, h.same i hi]

theorem name_eq : wordAt args 0 = wordAt args' 0 := by
  refine h.wordAt_eq fun hc => ?_
  have := (seen_of_credential hc).pos
  omega

theorem wordAt_iff (hw : ∀ v, Credential args i → args[i]? = some v → keyword v ≠ word)
    (hw' : ∀ v, Credential args' i → args'[i]? = some v → keyword v ≠ word) :
    wordAt args i = some word ↔ wordAt args' i = some word := by
  by_cases hi : Credential args i
  · constructor
    · intro hat
      obtain ⟨v, hv, hkey⟩ := Option.map_eq_some_iff.mp hat
      exact absurd hkey (hw v hi hv)
    · intro hat
      obtain ⟨v, hv, hkey⟩ := Option.map_eq_some_iff.mp hat
      exact absurd hkey (hw' v ((h.credential i).mp hi) hv)
  · rw [h.wordAt_eq hi]

end Agree

theorem Unmistaken.not_word (hu : Unmistaken args) (hname : wordAt args 0 = some "migrate".toList)
    (hi : Credential args i) (hv : args[i]? = some v) :
    keyword v ≠ "auth".toList ∧ keyword v ≠ "auth2".toList := by
  obtain ⟨name, hat, hspells⟩ := spells_of_wordAt hname (by decide)
  obtain ⟨h1, h2⟩ := hu.migrate name i v hat hspells hi hv
  exact ⟨fun h => h1 ((keyword_eq_iff (by decide)).mp h),
    fun h => h2 ((keyword_eq_iff (by decide)).mp h)⟩

theorem Unmistaken.not_parameter (hu : Unmistaken args)
    (hname : wordAt args 0 = some "config".toList)
    (hi : Credential args i) (hv : args[i]? = some v)
    (hword : word ∈ secretParameters) : keyword v ≠ word := by
  have hascii : ∀ word ∈ secretParameters, ∀ c ∈ word, c.toNat < 0x80 := by decide
  obtain ⟨name, hat, hspells⟩ := spells_of_wordAt hname (by decide)
  exact fun h => hu.configSet name i v hat hspells hi hv word hword
    ((keyword_eq_iff (hascii word hword)).mp h)

theorem ruleMarker_congr {v v' : List UInt8} (h : v.head? = v'.head?) :
    ruleMarker v = ruleMarker v' := by
  unfold ruleMarker
  rw [h]

/-- The same arguments are replaced, by the same. -/
theorem markerAt_congr (h : Agree args args') (hu : Unmistaken args) (hu' : Unmistaken args')
    (hkinds : SameKinds args args') (k : Nat) : markerAt args k = markerAt args' k := by
  by_cases hnone : ∃ j, Credential args j
  swap
  · -- without a credential the commands hold the same
    have heq : args = args' :=
      ext_getElem? fun j => h.same j fun hj => hnone ⟨j, hj⟩
    rw [heq]
  obtain ⟨j, hj⟩ := hnone
  have hseen := seen_of_credential hj
  have hseen' := seen_of_credential ((h.credential j).mp hj)
  have hname := h.name_eq
  have hsub {name : Str} (h0 : wordAt args 0 = some name)
      (hne : name = "acl".toList ∨ name = "config".toList) : wordAt args 1 = wordAt args' 1 := by
    refine h.wordAt_eq fun hc => ?_
    have := (seen_of_credential hc).behind_name h0 hne
    omega
  have hhello (h0 : wordAt args 0 = some "hello".toList) : markerAt args k = markerAt args' k := by
    rw [markerAt_hello k h0, markerAt_hello k (hname ▸ h0), find_auth hseen h0 hu.client,
      find_auth hseen' (hname ▸ h0) hu'.client]
  cases hseen with
  | auth h0 => rw [markerAt_auth k h0, markerAt_auth k (hname ▸ h0), h.length]
  | helloAuth h0 | helloNameAuth h0 => exact hhello h0
  | setuser h0 h1 =>
    rw [markerAt_acl k h0 h1, markerAt_acl k (hname ▸ h0) (hsub h0 (.inl rfl) ▸ h1)]
    by_cases hk : Credential args k
    · obtain ⟨name, hat, hspells⟩ := spells_of_wordAt h0 (by decide)
      have hlt := (seen_of_credential hk).pos.2
      have hv : args[k]? = some args[k] := getElem?_eq_getElem hlt
      obtain ⟨v', hv'⟩ : ∃ v', args'[k]? = some v' :=
        ⟨_, getElem?_eq_getElem (h.length ▸ hlt)⟩
      rw [hv, hv', Option.bind_some, Option.bind_some,
        ruleMarker_congr (hkinds name k _ _ hat hspells hk hv hv')]
    · rw [h.same k hk]
  | configSet h0 h1 =>
    have hword : (wordAt args (k - 1)).any (secretParameters.contains ·) =
        (wordAt args' (k - 1)).any (secretParameters.contains ·) := by
      rw [Bool.eq_iff_iff, Option.any_eq_true, Option.any_eq_true]
      simp only [contains_iff_mem]
      exact exists_congr fun word => and_congr_left fun hword =>
        h.wordAt_iff (fun v hi hv => hu.not_parameter h0 hi hv hword)
          fun v hi hv => hu'.not_parameter (hname ▸ h0) hi hv hword
    rw [markerAt_config k h0 h1, markerAt_config k (hname ▸ h0) (hsub h0 (.inr rfl) ▸ h1), hword]
  | migrate h0 =>
    have hbehind : BehindAuth args k ↔ BehindAuth args' k := by
      refine or_congr (and_congr_right fun _ => ?_) (and_congr_right fun _ => ?_)
      · exact h.wordAt_iff (fun v hi hv => (hu.not_word h0 hi hv).1)
          fun v hi hv => (hu'.not_word (hname ▸ h0) hi hv).1
      · exact h.wordAt_iff (fun v hi hv => (hu.not_word h0 hi hv).2)
          fun v hi hv => (hu'.not_word (hname ▸ h0) hi hv).2
    rw [markerAt_migrate k h0, markerAt_migrate k (hname ▸ h0)]
    exact if_congr hbehind rfl rfl

end Congr

/-! ## The text -/

def writtenAs (text : Str) (a : Argument) : Str := slice text a.start a.stop

def between (text : Str) : List Str :=
  gaps text 0 ((arguments text).map fun a => ⟨a.start, a.stop, none⟩)

/-- What is shown of a command: its arguments, or a marker, and a marker for each credential unless
its client is named `AUTH`. -/
structure Shown (text : Str) (command : List Argument) (shown : List Str) : Prop where
  length : shown.length = command.length
  argument : ∀ (k : Nat) (a : Argument) (o : Str), command[k]? = some a → shown[k]? = some o →
    o = writtenAs text a ∨ IsMarker a.bytes o
  credential : ∀ (k : Nat) (a : Argument) (o : Str), command[k]? = some a →
    shown[k]? = some o → Credential (held command) k → ¬ HidesAuth (held command) →
    IsMarker a.bytes o

/-- Two texts differ only in how their credentials are written and what they hold. -/
structure SameButCredentials (text text' : Str) : Prop where
  between : between text = between text'
  commands : List.Forall₂ (fun command command' => Agree (held command) (held command') ∧
    ∀ (k : Nat) (a a' : Argument), command[k]? = some a → command'[k]? = some a' →
      ¬ Credential (held command) k → writtenAs text a = writtenAs text' a')
    (argvCommands text) (argvCommands text')

def shownOf (text : Str) (command : List Argument) : List Str :=
  (piecesOf command).map (Piece.shown text)

theorem getElem?_shownOf {text : Str} {command : List Argument} {k : Nat} {a : Argument}
    (h : command[k]? = some a) :
    (shownOf text command)[k]? =
      some ((markerAt (held command) k).getD (writtenAs text a)) := by
  rw [shownOf, piecesOf, getElem?_map, getElem?_mapIdx, h]
  rfl

theorem shown_of_command (text : Str) (command : List Argument) :
    Shown text command (shownOf text command) := by
  have hshown {k : Nat} {a : Argument} {o : Str} (ha : command[k]? = some a)
      (ho : (shownOf text command)[k]? = some o) :
      o = (markerAt (held command) k).getD (writtenAs text a) :=
    Option.some.inj (ho.symm.trans (getElem?_shownOf ha))
  have hheld {k : Nat} {a : Argument} (ha : command[k]? = some a) :
      (held command)[k]? = some a.bytes := by
    rw [held, getElem?_map, ha]
    rfl
  refine ⟨by simp [shownOf, piecesOf], fun k a o ha ho => ?_, fun k a o ha ho hc hclient => ?_⟩
  · rw [hshown ha ho]
    cases hm : markerAt (held command) k with
    | none => exact .inl rfl
    | some m => exact .inr (isMarker_of_markerAt (hheld ha) hm)
  · obtain ⟨m, hm⟩ := marker_of_seen (seen_of_credential hc) hclient
    rw [hshown ha ho, hm]
    exact isMarker_of_markerAt (hheld ha) hm

theorem gaps_pieces (text : Str) : gaps text 0 (pieces text) = between text := by
  have hcongr : ∀ (l m : List Piece) (i : Nat), (l.map fun x => (x.start, x.stop)) =
      (m.map fun x => (x.start, x.stop)) → gaps text i l = gaps text i m := by
    intro l
    induction l with
    | nil =>
      intro m i h
      rw [map_eq_nil_iff.mp h.symm]
    | cons x l ih =>
      intro m i h
      cases m with
      | nil => simp at h
      | cons y m =>
        obtain ⟨hspan, hrest⟩ := List.cons.inj h
        obtain ⟨hstart, hstop⟩ := Prod.mk.inj hspan
        rw [gaps, gaps, hstart, hstop, ih m _ hrest]
  refine hcongr _ _ 0 ?_
  rw [spans_pieces, map_map]
  rfl

theorem redactSecrets_eq (text : Str) :
    redactSecrets text =
      Text.interleave (between text) ((argvCommands text).map (shownOf text)).flatten := by
  rw [redactSecrets_eq_weave, weave, gaps_pieces, pieces, map_flatMap, flatMap_def]
  rfl

theorem text_eq (text : Str) :
    text = Text.interleave (between text)
      ((argvCommands text).map (List.map (writtenAs text))).flatten := by
  have hall : slice text 0 (size text) = text := by
    have : get? text 0 (size text) = some text :=
      get?_eq_some.mpr ⟨[], [], by simp, rfl, by simp⟩
    rw [slice, this, Option.getD_some]
  have hwritten : (pieces text).map (Piece.written text) =
      ((argvCommands text).map (List.map (writtenAs text))).flatten := by
    rw [pieces, map_flatMap, flatMap_def]
    congr 1
    refine map_congr_left fun command _ => ext_getElem (by simp [piecesOf]) ?_
    intro k h1 h2
    simp [piecesOf, Piece.written, writtenAs]
  rw [← hwritten, ← gaps_pieces, interleave_written (fits_pieces text), hall]

theorem shownOf_congr {text text' : Str} {command command' : List Argument}
    (h : Agree (held command) (held command'))
    (hwritten : ∀ (k : Nat) (a a' : Argument), command[k]? = some a → command'[k]? = some a' →
      ¬ Credential (held command) k → writtenAs text a = writtenAs text' a')
    (hu : Unmistaken (held command)) (hu' : Unmistaken (held command'))
    (hkinds : SameKinds (held command) (held command')) :
    shownOf text command = shownOf text' command' := by
  have hlen : command.length = command'.length := by
    have := h.length
    rwa [held, held, length_map, length_map] at this
  refine ext_getElem? fun k => ?_
  rcases Nat.lt_or_ge k command.length with hk | hk
  · have ha : command[k]? = some command[k] := getElem?_eq_getElem hk
    obtain ⟨a', ha'⟩ : ∃ a', command'[k]? = some a' :=
      ⟨_, getElem?_eq_getElem (hlen ▸ hk)⟩
    rw [getElem?_shownOf ha, getElem?_shownOf ha', ← markerAt_congr h hu hu' hkinds k]
    by_cases hc : Credential (held command) k
    · obtain ⟨m, hm⟩ := marker_of_seen (seen_of_credential hc) hu.client
      rw [hm]
      rfl
    · rw [hwritten k _ _ ha ha' hc]
  · rw [getElem?_eq_none (by simpa [shownOf, piecesOf] using hk),
      getElem?_eq_none (by simpa [shownOf, piecesOf, ← hlen] using hk)]

/-- Every argument the server reads as a credential is replaced, provided no client is named `AUTH`
before it, and everything else is written as it was. What is written does not depend on the
credentials, as long as none is a keyword and each rule keeps its kind. -/
theorem credentials_redacted :
    (∀ text, ∃ shown : List (List Str),
      text = Text.interleave (between text)
        ((argvCommands text).map (List.map (writtenAs text))).flatten ∧
      redactSecrets text = Text.interleave (between text) shown.flatten ∧
      List.Forall₂ (Shown text) (argvCommands text) shown) ∧
      ∀ text text', SameButCredentials text text' →
        (∀ command ∈ argvCommands text, Unmistaken (held command)) →
        (∀ command ∈ argvCommands text', Unmistaken (held command)) →
        List.Forall₂ (fun command command' => SameKinds (held command) (held command'))
          (argvCommands text) (argvCommands text') →
        redactSecrets text = redactSecrets text' := by
  constructor
  · intro text
    refine ⟨(argvCommands text).map (shownOf text), text_eq text, redactSecrets_eq text, ?_⟩
    rw [forall₂_map_right_iff]
    exact forall₂_same.mpr fun command _ => shown_of_command text command
  · intro text text' hsame hu hu' hkinds
    rw [redactSecrets_eq, redactSecrets_eq, hsame.between]
    congr 2
    obtain ⟨-, hcommands⟩ := hsame
    generalize argvCommands text = l at hcommands hu hkinds ⊢
    generalize argvCommands text' = l' at hcommands hu' hkinds ⊢
    induction hcommands with
    | nil => rfl
    | @cons command command' commands commands' hcommand _ ih =>
      obtain ⟨hkind, hkinds⟩ := forall₂_cons.mp hkinds
      rw [map_cons, map_cons,
        shownOf_congr hcommand.1 hcommand.2 (hu command (by simp)) (hu' command' (by simp)) hkind,
        ih (fun c hc => hu c (by simp [hc])) (fun c hc => hu' c (by simp [hc])) hkinds]

/-! ## Credentials mistaken for keywords -/

theorem not_spells (h : keyword v ≠ word) (hword : ∀ c ∈ word, c.toNat < 0x80) : ¬ Spells v word :=
  fun hv => h ((keyword_eq_iff hword).mpr hv)

theorem spells_of_keyword (h : keyword v = word)
    (hword : ∀ c ∈ word, c.toNat < 0x80) : Spells v word :=
  (keyword_eq_iff hword).mp h

theorem word_of_spells {rest : List (List UInt8)} {word w : Str}
    (hv : Spells v word) (hword : ∀ c ∈ word, c.toNat < 0x80)
    (hat : wordAt (v :: rest) 0 = some w) : word = w := by
  rw [wordAt_of_spells rfl hv hword] at hat
  exact Option.some.inj hat

theorem odd_of_configSet {args : List (List UInt8)} {k : Nat}
    (h0 : wordAt args 0 = some "config".toList) (h : Credential args k) : k % 2 = 1 := by
  cases h with
  | configSet => omega
  | auth hn | authUser hn | helloAuth hn | helloAuthName hn | helloNameAuth hn | setuser hn
  | migrate hn => exact absurd (word_of_spells hn (by decide) h0) (by decide)

theorem options_of_migrate {args : List (List UInt8)} {k : Nat}
    (h0 : wordAt args 0 = some "migrate".toList) (h : Credential args k) :
    ∃ ks i, MigrateOptions (args.drop 6) ks ∧ i ∈ ks ∧ k = i + 6 := by
  cases h with
  | migrate _ hoptions hi => exact ⟨_, _, hoptions, hi, rfl⟩
  | auth hn | authUser hn | helloAuth hn | helloAuthName hn | helloNameAuth hn | setuser hn
  | configSet hn => exact absurd (word_of_spells hn (by decide) h0) (by decide)

theorem Seen.of_config {args : List (List UInt8)} {k : Nat} (h : Seen args k)
    (h0 : wordAt args 0 = some "config".toList) :
    (wordAt args (k - 1)).any (secretParameters.contains ·) = true := by
  cases h with
  | configSet _ _ _ hword => exact hword
  | auth h | helloAuth h | helloNameAuth h | setuser h
  | migrate h => rw [h0] at h; exact absurd h (by decide)

theorem sameButCredentials_of_command {text text' : Str} {args args' : List (List UInt8)}
    {j : Nat} (hc : (argvCommands text).map held = [args])
    (hc' : (argvCommands text').map held = [args']) (hbetween : between text = between text')
    (hlen : args.length = args'.length) (hj : ∀ k, Credential args k ↔ k = j)
    (hj' : ∀ k, Credential args' k ↔ k = j)
    (hargs : ∀ k < args.length, k ≠ j → args[k]? = args'[k]?)
    (hwritten : ∀ k < args.length, k ≠ j → ((arguments text)[k]?).map (writtenAs text) =
      ((arguments text')[k]?).map (writtenAs text')) :
    SameButCredentials text text' := by
  obtain ⟨c, hone, rfl⟩ := map_eq_singleton_iff.mp hc
  obtain ⟨c', hone', rfl⟩ := map_eq_singleton_iff.mp hc'
  have harguments : arguments text = c := by
    rw [← flatten_commands, hone, flatten_singleton]
  have harguments' : arguments text' = c' := by
    rw [← flatten_commands, hone', flatten_singleton]
  rw [harguments, harguments'] at hwritten
  refine ⟨hbetween, ?_⟩
  rw [hone, hone']
  refine .cons ⟨⟨hlen, fun k => by rw [hj, hj'], fun k hk => ?_⟩,
    fun k a a' ha ha' hk => ?_⟩ .nil
  · rw [hj] at hk
    rcases Nat.lt_or_ge k (held c).length with hlt | hge
    · exact hargs k hlt hk
    · rw [getElem?_eq_none hge, getElem?_eq_none (hlen ▸ hge)]
  · rw [hj] at hk
    have hlt : k < (held c).length := by
      rw [held, length_map]
      exact (List.getElem?_eq_some_iff.mp ha).1
    have := hwritten k hlt hk
    rw [ha, ha'] at this
    exact Option.some.inj this

/-- What the arguments of a command line hold, if they are written bare. -/
def bare (words : List Str) : List (List UInt8) := words.map bytes

theorem only_value_of_config (v : Str) (k : Nat) :
    Credential (bare ["CONFIG".toList, "SET".toList, "requirepass".toList, v, "dir".toList,
      "x".toList]) k ↔ k = 3 := by
  constructor
  · intro h
    have hodd := odd_of_configSet rfl h
    have hseen := seen_of_credential h
    have hpos := hseen.pos.2
    have hthree := hseen.behind_name rfl (.inr rfl)
    simp only [bare, map_cons, map_nil, length_cons, length_nil] at hpos
    rcases show k = 3 ∨ k = 5 by omega with rfl | rfl
    · rfl
    · exact absurd (hseen.of_config rfl)
        (show ¬ (some "dir".toList).any (secretParameters.contains ·) = true by decide)
  · rintro rfl
    exact @Credential.configSet _ _ _ _
      [(bytes "requirepass".toList, bytes v), (bytes "dir".toList, bytes "x".toList)] 0
      "requirepass".toList (spells_of_keyword rfl (by decide)) (spells_of_keyword rfl (by decide))
      rfl (by decide) (spells_of_keyword rfl (by decide))

theorem only_rule_of_setuser {v : Str} {c : UInt8} (hv : (bytes v).head? = some c)
    (hc : isRuleStart c = true) (k : Nat) :
    Credential (bare ["ACL".toList, "SETUSER".toList, "u".toList, v]) k ↔ k = 3 := by
  constructor
  · intro h
    have hseen := seen_of_credential h
    have hpos := hseen.pos.2
    have hthree := hseen.behind_name rfl (.inl rfl)
    simp only [bare, map_cons, map_nil, length_cons, length_nil] at hpos
    omega
  · rintro rfl
    exact @Credential.setuser _ _ _ _ [bytes v] 0 _ (spells_of_keyword rfl (by decide))
      (spells_of_keyword rfl (by decide)) rfl hv hc

theorem only_password_of_migrate (v : Str) (k : Nat) :
    Credential (bare ["MIGRATE".toList, "h".toList, "1".toList, "k".toList, "0".toList,
      "9".toList, "AUTH".toList, v, "COPY".toList]) k ↔ k = 7 := by
  constructor
  · intro h
    obtain ⟨ks, i, hoptions, hi, rfl⟩ := options_of_migrate rfl h
    have hplain {word : Str} (hword : ∀ c ∈ word, c.toNat < 0x80)
        (hne : word ≠ "auth".toList) : ¬ Spells (bytes "AUTH".toList) word := by
      refine not_spells (fun h => hne ?_) hword
      rw [← h]
      rfl
    cases hoptions with
    | flag ho => exact absurd ho (not_or.mpr ⟨hplain (by decide) (by decide),
        hplain (by decide) (by decide)⟩)
    | auth2 ho | keys ho => exact absurd ho (hplain (by decide) (by decide))
    | auth _ hrest =>
      cases hrest with
      | flag _ hrest =>
        cases hrest
        simpa using hi
      | keys => simpa using hi
  · rintro rfl
    exact @Credential.migrate _ _ _ _ _ _ [bytes "AUTH".toList, bytes v, bytes "COPY".toList] [1]
      1 (spells_of_keyword rfl (by decide))
      (.auth (spells_of_keyword rfl (by decide))
        (.flag (.inl (spells_of_keyword rfl (by decide))) .nil)) (by simp)

theorem not_spells_config {word : Str} (hword : ∀ c ∈ word, c.toNat < 0x80)
    (hne : "config".toList ≠ word) : ¬ Spells (bytes "CONFIG".toList) word :=
  not_spells (fun h => hne (by rw [← h]; rfl)) hword

theorem unmistaken_of_config {v : Str} (hv : ∀ word ∈ secretParameters, keyword (bytes v) ≠ word) :
    Unmistaken (bare ["CONFIG".toList, "SET".toList, "requirepass".toList, v, "dir".toList,
      "x".toList]) := by
  refine ⟨?_, fun name k value _ _ hk hvalue word hword => ?_, fun name k value hzero hspells => ?_⟩
  · rintro ⟨name, -, -, hzero, -, -, hspells, -⟩
    obtain rfl := Option.some.inj hzero
    exact not_spells_config (by decide) (by decide) hspells
  · obtain rfl := (only_value_of_config v k).mp hk
    obtain rfl := Option.some.inj hvalue
    exact not_spells (hv word hword) ((by decide : ∀ word ∈ secretParameters, ∀ c ∈ word,
      c.toNat < 0x80) word hword)
  · obtain rfl := Option.some.inj hzero
    exact absurd hspells (not_spells_config (by decide) (by decide))

/-- A password is not told from another one. -/
theorem password_is_redacted :
    redactSecrets "CONFIG SET requirepass y dir x".toList =
      redactSecrets "CONFIG SET requirepass z dir x".toList := by
  have hfirst : (argvCommands "CONFIG SET requirepass y dir x".toList).map held =
      [bare ["CONFIG".toList, "SET".toList, "requirepass".toList, ['y'], "dir".toList,
        "x".toList]] := by decide
  have hsecond : (argvCommands "CONFIG SET requirepass z dir x".toList).map held =
      [bare ["CONFIG".toList, "SET".toList, "requirepass".toList, ['z'], "dir".toList,
        "x".toList]] := by decide
  have hsame : SameButCredentials "CONFIG SET requirepass y dir x".toList
      "CONFIG SET requirepass z dir x".toList :=
    sameButCredentials_of_command (j := 3) hfirst hsecond (by decide) rfl
      (only_value_of_config ['y']) (only_value_of_config ['z']) (by decide) (by decide)
  obtain ⟨c, hone, hc⟩ := map_eq_singleton_iff.mp hfirst
  obtain ⟨c', hone', hc'⟩ := map_eq_singleton_iff.mp hsecond
  refine credentials_redacted.2 _ _ hsame ?_ ?_ ?_
  · rw [hone, forall_mem_singleton, hc]
    exact unmistaken_of_config (by decide)
  · rw [hone', forall_mem_singleton, hc']
    exact unmistaken_of_config (by decide)
  · rw [hone, hone', forall₂_cons, hc]
    refine ⟨fun name _ _ _ hzero hspells => ?_, .nil⟩
    obtain rfl := Option.some.inj hzero
    exact absurd hspells (not_spells_config (by decide) (by decide))

/-- Behind a client named `auth` a password stays, and a credential that is a keyword
or of another kind changes what is written. -/
theorem credentials_mistaken :
    (argvCommands "HELLO 3 SETNAME auth AUTH u p".toList).map held =
        [bare ["HELLO".toList, "3".toList, "SETNAME".toList, "auth".toList, "AUTH".toList,
          "u".toList, "p".toList]] ∧
      Credential (bare ["HELLO".toList, "3".toList, "SETNAME".toList, "auth".toList,
        "AUTH".toList, "u".toList, "p".toList]) 6 ∧
      redactSecrets "HELLO 3 SETNAME auth AUTH u p".toList =
        "HELLO 3 SETNAME auth AUTH <redacted> p".toList ∧
      SameButCredentials "CONFIG SET requirepass requirepass dir x".toList
        "CONFIG SET requirepass y dir x".toList ∧
      redactSecrets "CONFIG SET requirepass requirepass dir x".toList ≠
        redactSecrets "CONFIG SET requirepass y dir x".toList ∧
      SameButCredentials "MIGRATE h 1 k 0 9 AUTH auth COPY".toList
        "MIGRATE h 1 k 0 9 AUTH y COPY".toList ∧
      redactSecrets "MIGRATE h 1 k 0 9 AUTH auth COPY".toList ≠
        redactSecrets "MIGRATE h 1 k 0 9 AUTH y COPY".toList ∧
      SameButCredentials "ACL SETUSER u >a".toList "ACL SETUSER u <a".toList ∧
      redactSecrets "ACL SETUSER u >a".toList ≠ redactSecrets "ACL SETUSER u <a".toList := by
  refine ⟨by decide, ?_, by decide, ?_, by decide, ?_, by decide, ?_,
    by decide⟩
  · exact .helloNameAuth (spells_of_keyword rfl (by decide))
      ⟨by decide, by decide⟩ (spells_of_keyword rfl (by decide))
      (spells_of_keyword rfl (by decide))
  · exact sameButCredentials_of_command (j := 3) (by decide) (by decide)
      (by decide) (by decide)
      (only_value_of_config "requirepass".toList) (only_value_of_config "y".toList)
      (by decide) (by decide)
  · exact sameButCredentials_of_command (j := 7) (by decide) (by decide)
      (by decide) (by decide)
      (only_password_of_migrate "auth".toList) (only_password_of_migrate "y".toList)
      (by decide) (by decide)
  · exact sameButCredentials_of_command (j := 3) (by decide) (by decide)
      (by decide) (by decide)
      (only_rule_of_setuser (v := ">a".toList) rfl rfl)
      (only_rule_of_setuser (v := "<a".toList) rfl rfl) (by decide)
      (by decide)

end Oxyn
