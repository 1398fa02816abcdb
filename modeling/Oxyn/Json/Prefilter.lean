/-
# `Oxyn.Json.Prefilter` — what the filter before the scan lets through

A text that holds no marker, no scheme and no escape is not scanned.
-/
import Oxyn.Json.Redact

namespace Oxyn.Json

open Text List

/-! ## Parts of a text -/

theorem slice_within (s : Str) (i j : Nat) : slice s i j <:+: s := by
  rw [slice]
  cases h : get? s i j with
  | none => exact nil_infix
  | some t =>
    obtain ⟨u, v, hs, -⟩ := get?_eq_some.mp h
    exact ⟨u, v, hs.symm⟩

theorem stripSuffix_within (s : Str) (c : Char) : stripSuffix s c <:+: s := by
  unfold stripSuffix
  split
  · exact s.dropLast_prefix.isInfix
  · exact infix_rfl

theorem contains_of_within {s t needle : Str} (hst : s <:+: t) (h : contains t needle = false) :
    contains s needle = false := by
  rw [← Bool.not_eq_true, contains_iff] at h ⊢
  exact fun hneedle => h (hneedle.trans hst)

section Filter

variable {json : SerdeJson} {text : Str} {rules : Credentials} {inner : Str → Str}

theorem decode_within {literal : Str} (h : contains literal ['\\'] = false) :
    decode json literal <:+: literal := by
  unfold decode
  split
  · exact infix_rfl
  next quote hquote =>
    have hcontent := (stripSuffix_within (slice literal 1 (size literal)) quote).trans
      (slice_within literal 1 (size literal))
    simp only [contains_of_within hcontent h, Bool.not_false, ↓reduceIte]
    exact hcontent

theorem contains_of_mayHoldSecret (h : mayHoldSecret text rules = false) {needle : Str}
    (hneedle : needle ∈ rules.markers ++ ["://".toList, ['\\']]) : contains text needle = false := by
  rw [mayHoldSecret, any_eq_false] at h
  exact Bool.not_eq_true _ ▸ h needle hneedle

theorem mayHoldSecret_of_within {s : Str} (hs : s <:+: text) (h : mayHoldSecret text rules = false) :
    mayHoldSecret s rules = false := by
  rw [mayHoldSecret, any_eq_false]
  intro needle hneedle
  rw [contains_of_within hs (contains_of_mayHoldSecret h hneedle)]
  exact Bool.false_ne_true

theorem redactString_eq_none (h : mayHoldSecret text rules = false) {literal : Str}
    (hliteral : literal <:+: text) : redactString json rules inner literal = none := by
  rw [redactString, mayHoldSecret_of_within hliteral h]
  rfl

/-! ## Keys -/

variable {s t : ScanState}

theorem holdsKey_of_readKey {key name : Str} (h : readKey s name = some t)
    (hkey : HoldsKey t key) : key = name ∨ HoldsKey s key := by
  unfold readKey at h
  split at h
  next below hstack =>
    obtain rfl := Option.some.inj h
    obtain ⟨e, hmem⟩ := hkey
    obtain hhead | hbelow := mem_cons.mp hmem
    · injection hhead with hname
      exact .inl (Option.some.inj hname)
    · exact .inr ⟨e, hstack ▸ mem_cons_of_mem _ hbelow⟩
  next => simp at h

variable {key : Str}

theorem holdsKey_onColon (h : HoldsKey (onColon json text rules s) key) : HoldsKey s key := by
  unfold onColon at h
  split at h
  next name e below hstack =>
    obtain ⟨e', hmem⟩ := h
    have hstack' : Frame.object (some key) e' ∈ Frame.object name false :: below := by
      split at hmem
      · exact hmem
      · simp only at hmem
        split at hmem
        · exact hmem
        · exact hmem
    obtain hhead | hbelow := mem_cons.mp hstack'
    · injection hhead with hname
      exact ⟨e, by rw [hstack, hname]; exact mem_cons_self⟩
    · exact ⟨e', hstack ▸ mem_cons_of_mem _ hbelow⟩
  next => exact h

theorem key_infix_of_scanStep (h : contains text ['\\'] = false)
    (hs : ∀ key, HoldsKey s key → key <:+: text) (hstep : scanStep json text rules inner s = some t) :
    ∀ key, HoldsKey t key → key <:+: text := by
  intro key hkey
  obtain ⟨c, -, hturned⟩ := turned_of_scanStep hstep
  cases hturned with
  | structural _ _ hkeys => exact hs key (hkeys key hkey)
  | colon => exact hs key (holdsKey_onColon hkey)
  | quote =>
    have hliteral := slice_within text s.index (skipQuoted (bytes text) s.index)
    unfold onQuote at hkey
    simp only at hkey
    split at hkey
    next u hread =>
      obtain rfl | hheld := holdsKey_of_readKey hread hkey
      · exact (decode_within (contains_of_within hliteral h)).trans hliteral
      · exact hs key hheld
    next =>
      split at hkey
      · exact hs key hkey
      · exact hs key hkey
  | identifier =>
    simp only [onIdentifier] at hkey
    cases hread : readKey s (slice text s.index (skipIdentifier (bytes text) s.index)) with
    | none => rw [hread] at hkey; exact hs key hkey
    | some u =>
      rw [hread] at hkey
      obtain rfl | hheld := holdsKey_of_readKey hread hkey
      · exact slice_within _ _ _
      · exact hs key hheld

/-! ## The scan of a text the filter passes by -/

theorem out_prefix_of_scanStep (h : scanStep json text rules inner s = some t) :
    s.out <+: t.out := by
  obtain ⟨c, -, hturned⟩ := turned_of_scanStep h
  cases hturned with
  | structural _ hout => exact hout ▸ prefix_rfl
  | colon =>
    unfold onColon
    split
    · split
      · exact prefix_rfl
      · simp only
        split
        · exact prefix_append _ _
        · exact prefix_rfl
    · exact prefix_rfl
  | quote =>
    unfold onQuote
    simp only
    split
    next u hread => exact (readKey_index hread).2 ▸ prefix_rfl
    next =>
      split
      · exact prefix_append _ _
      · exact prefix_rfl
  | identifier =>
    simp only [onIdentifier]
    cases hread : readKey s (slice text s.index (skipIdentifier (bytes text) s.index)) with
    | none => exact prefix_rfl
    | some u => exact (readKey_index hread).2 ▸ prefix_rfl

theorem out_prefix_of_reach (h : (scanLoop json text rules inner).Reach s t) :
    s.out <+: t.out := by
  induction h with
  | refl => exact prefix_rfl
  | step _ hstep ih => exact ih.trans (out_prefix_of_scanStep hstep)

/-- Rules that name nothing: the scan only reads. -/
def unkeyed : Credentials where
  markers := []
  key := fun _ _ _ => false
  string := fun _ _ => false
  stringsOnly := true

def SecretAt (json : SerdeJson) (text : Str) (rules : Credentials) (s : ScanState) : Prop :=
  (bytes text)[s.index]? = some Byte.colon ∧
    ∃ key e below, s.stack = .object (some key) e :: below ∧
      isSecret json text rules key s.stack.length s.command
        (skipWhitespace (bytes text) (s.index + 1)) = true

theorem mayHoldSecret_unkeyed (h : mayHoldSecret text rules = false) :
    mayHoldSecret text unkeyed = false := by
  rw [mayHoldSecret, any_eq_false]
  intro needle hneedle
  rw [contains_of_mayHoldSecret h (mem_append_right _ hneedle)]
  exact Bool.false_ne_true

theorem onColon_unkeyed (hc : (bytes text)[s.index]? = some Byte.colon)
    (hsecret : ¬ SecretAt json text rules s) :
    onColon json text rules s = onColon json text unkeyed s := by
  unfold onColon
  split
  next name e below hstack =>
    cases name with
    | none => rfl
    | some key =>
      have hrules : isSecret json text rules key s.stack.length s.command
          (skipWhitespace (bytes text) (s.index + 1)) = false := by
        by_contra hnot
        exact hsecret ⟨hc, key, e, below, hstack, by simpa using hnot⟩
      have hunkeyed : ∀ depth command start,
          isSecret json text unkeyed key depth command start = false := by
        intro depth command start
        simp [isSecret, unkeyed]
      simp only [hrules, hunkeyed, Bool.false_eq_true, ↓reduceIte]
  next => rfl

theorem onQuote_unkeyed (h : mayHoldSecret text rules = false) (s : ScanState) :
    onQuote json text rules inner s = onQuote json text unkeyed id s := by
  have hliteral := slice_within text s.index (skipQuoted (bytes text) s.index)
  simp only [onQuote, redactString_eq_none h hliteral,
    redactString_eq_none (mayHoldSecret_unkeyed h) hliteral]

theorem scanStep_unkeyed (h : mayHoldSecret text rules = false)
    (hsecret : ¬ SecretAt json text rules s) :
    scanStep json text rules inner s = scanStep json text unkeyed id s := by
  unfold scanStep
  cases hc : (bytes text)[s.index]? with
  | none => rfl
  | some c =>
    simp only [Option.map_some, onQuote_unkeyed h]
    by_cases hcolon : c == Byte.colon
    · rw [onColon_unkeyed (by rw [hc, eq_of_beq hcolon]) hsecret]
    · simp only [hcolon]
      rfl

theorem out_eq_nil_of_scanStep (h : mayHoldSecret text rules = false)
    (hs : s.out = []) (hstep : scanStep json text unkeyed id s = some t) : t.out = [] := by
  obtain ⟨c, -, hturned⟩ := turned_of_scanStep hstep
  cases hturned with
  | structural _ hout => exact hout.trans hs
  | colon =>
    unfold onColon
    split
    · split
      · exact hs
      · simp only [isSecret, unkeyed, Bool.false_and, Bool.and_false, Bool.or_false,
          Bool.false_eq_true, ↓reduceIte]
        exact hs
    · exact hs
  | quote =>
    have hliteral := slice_within text s.index (skipQuoted (bytes text) s.index)
    simp only [onQuote, redactString_eq_none (mayHoldSecret_unkeyed h) hliteral]
    split
    next u hread => exact (readKey_index hread).2.trans hs
    next => exact hs
  | identifier =>
    simp only [onIdentifier]
    cases hread : readKey s (slice text s.index (skipIdentifier (bytes text) s.index)) with
    | none => exact hs
    | some u => exact (readKey_index hread).2.trans hs

/-- A colon of a key the rules name adds what it replaces. -/
theorem out_ne_nil_of_secretAt (hsecret : SecretAt json text rules s)
    (hstep : scanStep json text rules inner s = some t) : t.out ≠ [] := by
  obtain ⟨hc, key, e, below, hstack, hkey⟩ := hsecret
  have ht : scanStep json text rules inner s = some (onColon json text rules s) := by
    rw [scanStep, hc]
    rfl
  obtain rfl := Option.some.inj (hstep.symm.trans ht)
  unfold onColon
  rw [hstack] at hkey
  simp only [hstack, hkey, ↓reduceIte]
  exact append_ne_nil_of_right_ne_nil _ (cons_ne_nil _ _)

/-- The scan of such a text collects something exactly when a reading of it meets the
colon of a key the rules name. -/
theorem scan_eq_nil_iff (h : mayHoldSecret text rules = false) :
    scan json text rules inner = [] ↔
      ∀ s, (scanLoop json text unkeyed id).Reach scanStart s → ¬ SecretAt json text rules s := by
  constructor
  · intro hscan
    have hstay : ∀ s, (scanLoop json text rules inner).Reach scanStart s →
        ¬ SecretAt json text rules s := by
      intro s hreach hsecret
      cases hstep : scanStep json text rules inner s with
      | none =>
        rw [scanStep, hsecret.1] at hstep
        simp at hstep
      | some t =>
        have hout := out_prefix_of_reach (Loop.Reach.step hreach hstep).final
        rw [show ((scanLoop json text rules inner).final scanStart).out = [] from hscan] at hout
        exact out_ne_nil_of_secretAt hsecret hstep (prefix_nil.mp hout)
    intro s hreach
    refine hstay s ?_
    induction hreach with
    | refl => exact .refl
    | step _ hstep ih =>
      refine .step ih ?_
      rw [← hstep]
      exact scanStep_unkeyed h (hstay _ ih)
  · intro hnone
    have hrun : ∀ s, (scanLoop json text rules inner).Reach scanStart s →
        (scanLoop json text unkeyed id).Reach scanStart s ∧ s.out = [] := by
      intro s hreach
      induction hreach with
      | refl => exact ⟨.refl, rfl⟩
      | step _ hstep ih =>
        have hplain := (scanStep_unkeyed h (hnone _ ih.1)).symm.trans hstep
        exact ⟨.step ih.1 hplain, out_eq_nil_of_scanStep h ih.2 hplain⟩
    exact (hrun _ (Loop.reach_final scanStart)).2

theorem key_infix_of_reach (h : contains text ['\\'] = false)
    (hreach : (scanLoop json text rules inner).Reach scanStart s)
    (hkey : HoldsKey s key) : key <:+: text := by
  have hkeys : ∀ key, HoldsKey s key → key <:+: text :=
    Loop.Reach.invariant (P := fun s => ∀ key, HoldsKey s key → key <:+: text)
      (fun s t hs hstep => key_infix_of_scanStep h hs hstep) hreach (by
        rintro key ⟨e, hmem⟩
        simp [scanStart] at hmem)
  exact hkeys key hkey

theorem not_infix_of_marker (h : mayHoldSecret text rules = false) {key marker : Str}
    (hkey : key <:+: text) (hmarker : marker ∈ rules.markers) : ¬ marker <:+: key := by
  intro hwithin
  have hcontains := contains_of_mayHoldSecret h (mem_append_left _ hmarker)
  rw [contains_iff.mpr (hwithin.trans hkey)] at hcontains
  simp at hcontains

/-! ## The two grammars -/

theorem isSecret_mongo (h : mayHoldSecret text mongo = false) (hkey : key <:+: text)
    (depth : Nat) (command : Option Str) (start : Nat) :
    isSecret json text mongo key depth command start = false := by
  have hpwd : (key == "pwd".toList) = false := by
    rw [beq_eq_false_iff_ne]
    rintro rfl
    have hmarker : "pwd".toList ∈ mongo.markers := by simp [mongo]
    exact not_infix_of_marker h hkey hmarker infix_rfl
  have hpayload : (key == "payload".toList) = false := by
    rw [beq_eq_false_iff_ne]
    rintro rfl
    have hmarker : "payload".toList ∈ mongo.markers := by simp [mongo]
    exact not_infix_of_marker h hkey hmarker infix_rfl
  have hnone : mongo.key key depth command = false := by
    show (_ || (_ && key == "payload".toList && _)) = false
    rw [hpwd, hpayload, Bool.and_false, Bool.false_and, Bool.false_or]
  rw [isSecret, hnone]
  simp [mongo]

theorem marked_of_credentialKeys :
    ∀ key ∈ credentialKeys, ∃ marker ∈ searchDsl.markers, marker <:+: key := by
  have hany : ∀ key ∈ credentialKeys, searchDsl.markers.any (contains key) = true := by decide
  intro key hkey
  obtain ⟨marker, hmarker, hcontains⟩ := any_eq_true.mp (hany key hkey)
  exact ⟨marker, hmarker, contains_iff.mp hcontains⟩

theorem isSecret_searchDsl (h : mayHoldSecret text searchDsl = false)
    (hkey : key <:+: text) (depth : Nat) (command : Option Str) (start : Nat) :
    isSecret json text searchDsl key depth command start =
      (eqIgnoreAsciiCase key header && stringAt text start) := by
  have hkeys : credentialKeys.contains key = false := by
    rw [← Bool.not_eq_true, contains_iff_mem]
    intro hmem
    obtain ⟨marker, hmarker, hwithin⟩ := marked_of_credentialKeys key hmem
    exact not_infix_of_marker h hkey hmarker hwithin
  have hhash : (key == "hash".toList) = false := by
    rw [beq_eq_false_iff_ne]
    rintro rfl
    have hmarker : "hash".toList ∈ searchDsl.markers := by simp [searchDsl]
    exact not_infix_of_marker h hkey hmarker infix_rfl
  have hdsl : searchDsl.key key depth command = eqIgnoreAsciiCase key header := by
    show (credentialKeys.contains key || _) = _
    rw [hkeys, Bool.false_or]
  have hstring : ∀ decoded, searchDsl.string key decoded = false := by
    intro decoded
    show ((key == "hash".toList) && _) = false
    rw [hhash, Bool.false_and]
  simp only [isSecret, hdsl, hstring, Bool.and_false, Bool.or_false]
  simp [searchDsl]

/-- A reading of the text meets the header, in some case, as the key of a string. -/
def ReadsHeader (json : SerdeJson) (text : Str) : Prop :=
  ∃ s, (scanLoop json text unkeyed id).Reach scanStart s ∧
    (bytes text)[s.index]? = some Byte.colon ∧
    stringAt text (skipWhitespace (bytes text) (s.index + 1)) = true ∧
    ∃ key e below, s.stack = .object (some key) e :: below ∧ eqIgnoreAsciiCase key header = true

theorem scan_mongo (h : mayHoldSecret text mongo = false) : scan json text mongo inner = [] := by
  refine (scan_eq_nil_iff h).mpr fun s hreach hsecret => ?_
  obtain ⟨-, key, e, below, hstack, hkey⟩ := hsecret
  have hescape : contains text ['\\'] = false := contains_of_mayHoldSecret h (by simp)
  have hwithin := key_infix_of_reach hescape hreach ⟨e, hstack ▸ mem_cons_self⟩
  rw [isSecret_mongo h hwithin] at hkey
  simp at hkey

theorem scan_searchDsl (h : mayHoldSecret text searchDsl = false) :
    scan json text searchDsl inner = [] ↔ ¬ ReadsHeader json text := by
  have hescape : contains text ['\\'] = false := contains_of_mayHoldSecret h (by simp)
  rw [scan_eq_nil_iff h]
  constructor
  · rintro hnone ⟨s, hreach, hc, hstring, key, e, below, hstack, hheader⟩
    have hwithin := key_infix_of_reach hescape hreach ⟨e, hstack ▸ mem_cons_self⟩
    refine hnone s hreach ⟨hc, key, e, below, hstack, ?_⟩
    rw [isSecret_searchDsl h hwithin, hheader, hstring, Bool.and_self]
  · rintro hnone s hreach ⟨hc, key, e, below, hstack, hkey⟩
    have hwithin := key_infix_of_reach hescape hreach ⟨e, hstack ▸ mem_cons_self⟩
    rw [isSecret_searchDsl h hwithin, Bool.and_eq_true] at hkey
    exact hnone ⟨s, hreach, hc, hkey.2, key, e, below, hstack, hkey.1⟩

/-! ## Reading with and without the filter -/

/-- What reads the strings of a text at a level. -/
def below (json : SerdeJson) (rules : Credentials) : Nat → Str → Str
  | 0 => id
  | nesting + 1 => redactNested json rules nesting

theorem redactNested_eq (nesting : Nat) :
    redactNested json rules nesting text =
      if mayHoldSecret text rules then replaced json text rules (below json rules nesting)
      else text := by
  cases nesting with
  | zero | succ nesting => cases h : mayHoldSecret text rules <;> simp [redactNested, below, h]

/-- A text that is passed by is one whose scan collects nothing, and it is what replacing all the
scan collects leaves. -/
def LosesNothing (json : SerdeJson) (rules : Credentials) (nesting : Nat) (text : Str) : Prop :=
  mayHoldSecret text rules = false →
    scan json text rules (below json rules nesting) = [] ∧
      redactNested json rules nesting text =
        replaced json text rules (below json rules nesting)

theorem losesNothing_iff {nesting : Nat} :
    LosesNothing json rules nesting text ↔
      (mayHoldSecret text rules = false → scan json text rules (below json rules nesting) = []) := by
  refine ⟨fun hkept h => (hkept h).1, fun hscan h => ⟨hscan h, ?_⟩⟩
  rw [redactNested_eq, h, replaced, hscan h]
  rfl

end Filter

/-- The filter loses nothing of the MongoDB rules, and of the search DSL's exactly where
the header is not read. -/
theorem filter_loses_nothing (json : SerdeJson) (rules : Credentials) (nesting : Nat) (text : Str)
    (hrules : rules = mongo ∨ rules = searchDsl) :
    LosesNothing json rules nesting text ↔
      rules = mongo ∨ mayHoldSecret text rules = true ∨ ¬ ReadsHeader json text := by
  rw [losesNothing_iff]
  obtain rfl | rfl := hrules
  · exact ⟨fun _ => .inl rfl, fun _ h => scan_mongo h⟩
  · have hne : searchDsl ≠ mongo := by
      intro heq
      have hstrings : searchDsl.stringsOnly = mongo.stringsOnly := by rw [heq]
      simp [searchDsl, mongo] at hstrings
    constructor
    · intro hscan
      right
      cases h : mayHoldSecret text searchDsl with
      | true => exact .inl rfl
      | false => exact .inr ((scan_searchDsl h).mp (hscan h))
    · rintro (heq | htrue | hheader) h
      · exact absurd heq hne
      · rw [htrue] at h
        simp at h
      · exact (scan_searchDsl h).mpr hheader

/-- A serializer that reads and writes nothing: none of these texts has an escape. -/
def noSerde : SerdeJson := ⟨fun _ => none, fun _ => none⟩

theorem filter_loses_nothing_of_pwd :
    LosesNothing noSerde mongo maxNesting "db.auth(\x7buser: 1\x7d)".toList :=
  (filter_loses_nothing noSerde mongo maxNesting _ (.inl rfl)).mpr (.inl rfl)

/-- The header in upper case holds no marker, and its value is a credential. -/
theorem filter_loses_upper_header :
    ¬ ∀ (json : SerdeJson) (rules : Credentials) (nesting : Nat) (text : Str),
      rules = mongo ∨ rules = searchDsl → LosesNothing json rules nesting text := by
  intro hall
  have hscan := (hall noSerde searchDsl 0 "\x7b\"AUTHORIZATION\": \"x\"\x7d".toList (.inr rfl)
    (by rw [String.toList_ofList]; decide)).1
  rw [String.toList_ofList] at hscan
  exact absurd hscan (by decide)

end Oxyn.Json
