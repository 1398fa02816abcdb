/-
# `Oxyn.Query.Trigger` — a trigger is returned whole, or not at all

A SQLite text that is one trigger, told from its tokens (`TriggerText`), and what the statement
under the cursor is in it.
-/
import Oxyn.Query.Current
import Oxyn.Query.Boundary
import Oxyn.Query.Locality
import Mathlib.Data.List.Chain

namespace Oxyn

open Text Cursor List

/-! ## One trigger -/

/-- The token is the bare word `keyword`. -/
def Bare (sql : Str) (keyword : String) (x : Item Tok) : Prop :=
  x.kind = .word ∧ isKeyword ((get? sql x.start x.stop).getD []) keyword = true

/-- The tokens among what the scanner reports, comments apart. -/
def code (l : List (Item Tok)) : List (Item Tok) := l.filter fun x => !x.kind.isComment

def IsName (x : Item Tok) : Prop := x.kind = .word ∨ x.kind = .quoted ∨ x.kind = .singleQuoted

/-- The tokens hold no separator. -/
def Uncut (ts : List (Item Tok)) : Prop := ∀ x ∈ ts, x.kind ≠ .semicolon

structure BodyStatement (sql : Str) where
  tokens : List (Item Tok)
  separator : Item Tok
  uncut : Uncut tokens
  isSeparator : separator.kind = .semicolon
  /-- No `END` starts it. -/
  noEnd : ∀ x ∈ tokens.head?, ¬ Bare sql "end" x

namespace BodyStatement

def all {sql : Str} (s : BodyStatement sql) : List (Item Tok) := s.tokens ++ [s.separator]

end BodyStatement

/-- The words `CREATE [TEMP | TEMPORARY] TRIGGER`. -/
structure TriggerPrefix (sql : Str) where
  create : Item Tok
  temp : Option (Item Tok)
  trigger : Item Tok
  isCreate : Bare sql "create" create
  isTemp : ∀ x ∈ temp, Bare sql "temp" x ∨ Bare sql "temporary" x
  isTrigger : Bare sql "trigger" trigger

def TriggerPrefix.all {sql : Str} (p : TriggerPrefix sql) : List (Item Tok) :=
  p.create :: (p.temp.toList ++ [p.trigger])

/-- A text that is one trigger: `CREATE [TEMP | TEMPORARY] TRIGGER name … ON table …
BEGIN s₁; …; sₙ; END`, with an optional last `;`. -/
structure TriggerText (sql : Str) where
  opening : TriggerPrefix sql
  name : Item Tok
  middle : List (Item Tok)
  on : Item Tok
  table : Item Tok
  /-- `FOR EACH ROW`, `WHEN` and its condition. -/
  clauses : List (Item Tok)
  beginning : Item Tok
  body : List (BodyStatement sql)
  ending : Item Tok
  terminator : Option (Item Tok)
  isName : IsName name
  uncutMiddle : Uncut middle
  isOn : Bare sql "on" on
  isTable : IsName table
  uncutClauses : Uncut clauses
  isBegin : Bare sql "begin" beginning
  isEnd : Bare sql "end" ending
  isTerminator : ∀ x ∈ terminator, x.kind = .semicolon
  layout : code (scan sql .sqlite) =
    opening.all ++ (name :: (middle ++ on :: table :: (clauses ++ [beginning]))) ++
      body.flatMap BodyStatement.all ++ ending :: terminator.toList

namespace TriggerText

variable {sql : Str}

def header (t : TriggerText sql) : List (Item Tok) :=
  t.name :: (t.middle ++ t.on :: t.table :: (t.clauses ++ [t.beginning]))

/-- Every token before the last `END`. -/
def before (t : TriggerText sql) : List (Item Tok) :=
  t.opening.all ++ t.header ++ t.body.flatMap BodyStatement.all

end TriggerText

/-! ## When a `;` belongs to the body -/

section Tokens

variable (sql : Str)

/-- A bare `ON` was read, and then a bare word other than `ON`: what the table is
taken from. -/
def Related (ts : List (Item Tok)) : Prop :=
  ∃ a w, a ++ [w] <+: ts ∧ w.kind = .word ∧ ¬ Bare sql "on" w ∧ ∃ o ∈ a, Bare sql "on" o

/-- The token `b`, read after `a`, opens the body. -/
def OpensBody (a : List (Item Tok)) (b : Item Tok) : Prop := Related sql a ∧ Bare sql "begin" b

def Opened (ts : List (Item Tok)) : Prop := ∃ a b, a ++ [b] <+: ts ∧ OpensBody sql a b

/-- A `BEGIN` is directly followed by an `END` that nothing but comments separates
from a `;` or from the end of the text. -/
def Closed (ts : List (Item Tok)) : Prop :=
  ∃ a b e, a ++ [b, e] <+: ts ∧ OpensBody sql a b ∧ Bare sql "end" e ∧
    endClosesTrigger sql e.stop = true

/-- Every `;` of the trigger finds the body opened, and not closed. -/
def KeptWhole (ts : List (Item Tok)) : Prop :=
  ∀ a x, a ++ [x] <+: ts → x.kind = .semicolon → Opened sql a ∧ ¬ Closed sql a

variable {sql}

/-! ### One more token -/

theorem exists_prefix_snoc {α : Type} {P : List α → α → Prop} {ts : List α} {x : α} :
    (∃ a w, a ++ [w] <+: ts ++ [x] ∧ P a w) ↔ (∃ a w, a ++ [w] <+: ts ∧ P a w) ∨ P ts x := by
  constructor
  · rintro ⟨a, w, hpre, h⟩
    rcases prefix_concat_iff.mp hpre with heq | hpre
    · obtain ⟨rfl, hw⟩ := append_inj' heq rfl
      obtain rfl := singleton_inj.mp hw
      exact .inr h
    · exact .inl ⟨a, w, hpre, h⟩
  · rintro (⟨a, w, hpre, h⟩ | h)
    · exact ⟨a, w, hpre.trans (prefix_append ..), h⟩
    · exact ⟨ts, x, prefix_rfl, h⟩

theorem related_snoc {ts : List (Item Tok)} {x : Item Tok} :
    Related sql (ts ++ [x]) ↔
      Related sql ts ∨ x.kind = .word ∧ ¬ Bare sql "on" x ∧ ∃ o ∈ ts, Bare sql "on" o :=
  exists_prefix_snoc

theorem opened_snoc {ts : List (Item Tok)} {x : Item Tok} :
    Opened sql (ts ++ [x]) ↔ Opened sql ts ∨ OpensBody sql ts x :=
  exists_prefix_snoc

theorem closed_snoc {ts : List (Item Tok)} {x : Item Tok} :
    Closed sql (ts ++ [x]) ↔ Closed sql ts ∨ (∃ a b, ts = a ++ [b] ∧ OpensBody sql a b) ∧
      Bare sql "end" x ∧ endClosesTrigger sql x.stop = true := by
  constructor
  · rintro ⟨a, b, e, hpre, hopens, h⟩
    rcases prefix_concat_iff.mp hpre with heq | hpre
    · have hcut : (a ++ [b]) ++ [e] = ts ++ [x] := by simpa using heq
      obtain ⟨hts, he⟩ := append_inj' hcut rfl
      obtain rfl := singleton_inj.mp he
      exact .inr ⟨⟨a, b, hts.symm, hopens⟩, h⟩
    · exact .inl ⟨a, b, e, hpre, hopens, h⟩
  · rintro (⟨a, b, e, hpre, h⟩ | ⟨⟨a, b, rfl, hopens⟩, h⟩)
    · exact ⟨a, b, e, hpre.trans (prefix_append ..), h⟩
    · exact ⟨a, b, x, by simp, hopens, h⟩

theorem Opened.related {ts : List (Item Tok)} (h : Opened sql ts) : Related sql ts := by
  obtain ⟨a, b, hpre, ⟨a', w, hpre', hw⟩, -⟩ := h
  exact ⟨a', w, hpre'.trans ((prefix_append a [b]).trans hpre), hw⟩

theorem Closed.opened {ts : List (Item Tok)} (h : Closed sql ts) : Opened sql ts := by
  obtain ⟨a, b, e, hpre, hopens, -⟩ := h
  exact ⟨a, b, .trans ⟨[e], by simp⟩ hpre, hopens⟩

end Tokens

/-! ## What the flags say -/

section Flags

variable {sql : Str} {ts : List (Item Tok)} {x : Item Tok} {f : TriggerFlags}

/-- The flags after the tokens `ts`, when no `;` of them was taken for the end of a
statement. -/
def flagsOf (sql : Str) (ts : List (Item Tok)) : TriggerFlags :=
  (ts.foldl (fun (s : TriggerFlags × Bool) x => (s.1.read sql s.2 x, true)) (.initial, false)).1

theorem flagsOf_snoc (sql : Str) (ts : List (Item Tok)) (x : Item Tok) :
    flagsOf sql (ts ++ [x]) = (flagsOf sql ts).read sql (!ts.isEmpty) x := by
  have hcode : (ts.foldl (fun (s : TriggerFlags × Bool) x => (s.1.read sql s.2 x, true))
      (.initial, false)).2 = !ts.isEmpty := by
    rcases eq_nil_or_concat ts with rfl | ⟨us, y, rfl⟩ <;> simp
  unfold flagsOf
  simp only [foldl_append, foldl_cons, foldl_nil, hcode]

/-- The flags of a trigger whose opening was read, after the tokens `ts`. -/
structure Tracks (sql : Str) (ts : List (Item Tok)) (f : TriggerFlags) : Prop where
  opened : f.trigger = true ∧ f.prefixRead = 3
  seenOn : f.seenOn = true ↔ ∃ o ∈ ts, Bare sql "on" o
  relationSeen : f.relationSeen = true ↔ Related sql ts
  body : f.body = true ↔ Opened sql ts
  ended : f.ended = true ↔ Closed sql ts
  start : f.inBody = true → (f.bodyStatementStart = true ↔
    ∃ a b, ts = a ++ [b] ∧ (OpensBody sql a b ∨ b.kind = .semicolon))

theorem Tracks.inBody (h : Tracks sql ts f) :
    f.inBody = true ↔ Opened sql ts ∧ ¬ Closed sql ts := by
  rw [← h.body, ← h.ended]
  simp [TriggerFlags.inBody]

/-- No token that follows a `;` is the bare word `keyword`. -/
def NeverFirst (sql : Str) (keyword : String) (ts : List (Item Tok)) : Prop :=
  ts.IsChain fun b x => b.kind = .semicolon → ¬ Bare sql keyword x

theorem Bare.unique {k k' : String} (h : Bare sql k x) (h' : Bare sql k' x) :
    k.toList.map Char.toLower = k'.toList.map Char.toLower := by
  have h1 := h.2
  have h2 := h'.2
  simp only [isKeyword, eqIgnoreAsciiCase, beq_iff_eq] at h1 h2
  exact h1.symm.trans h2

theorem Bare.not_keyword {k : String} (h : Bare sql k x) (k' : String)
    (hne : k.toList.map Char.toLower ≠ k'.toList.map Char.toLower) :
    isKeyword ((get? sql x.start x.stop).getD []) k' = false :=
  Bool.eq_false_iff.mpr fun hk => hne (h.unique ⟨h.1, hk⟩)

theorem not_bare_of_kind {k : String} (h : x.kind ≠ .word) : ¬ Bare sql k x := fun hk => h hk.1

theorem Tracks.other (h : Tracks sql ts f) (hword : x.kind ≠ .word)
    (hsep : x.kind ≠ .semicolon) : Tracks sql (ts ++ [x]) f.afterCode where
  opened := by simpa using h.opened
  seenOn := by simp [h.seenOn, not_bare_of_kind hword]
  relationSeen := by simp [h.relationSeen, related_snoc, hword]
  body := by simp [h.body, opened_snoc, OpensBody, not_bare_of_kind hword]
  ended := by simp [h.ended, closed_snoc, not_bare_of_kind hword]
  start := by
    intro hin
    rw [TriggerFlags.afterCode_start f (by simpa using hin)]
    simp [OpensBody, not_bare_of_kind hword, hsep]

/-- A `;`. -/
theorem Tracks.separator (h : Tracks sql ts f) (hsep : x.kind = .semicolon) :
    Tracks sql (ts ++ [x]) { f with bodyStatementStart := true } where
  opened := h.opened
  seenOn := by simp [h.seenOn, Bare, hsep]
  relationSeen := by simp [h.relationSeen, related_snoc, hsep]
  body := by simp [h.body, opened_snoc, OpensBody, Bare, hsep]
  ended := by simp [h.ended, closed_snoc, Bare, hsep]
  start := fun _ => by simp [hsep]

/-- A word.  An `END` read where a statement starts follows the `BEGIN`, for no
statement of the body starts with it. -/
theorem Tracks.word (h : Tracks sql ts f) (hword : x.kind = .word)
    (hin : NeverFirst sql "end" (ts ++ [x])) :
    Tracks sql (ts ++ [x])
      (f.readHeader ((get? sql x.start x.stop).getD []) (endClosesTrigger sql x.stop)) := by
  have hbare : ∀ k, isKeyword ((get? sql x.start x.stop).getD []) k = true ↔ Bare sql k x :=
    fun k => ⟨fun hk => ⟨hword, hk⟩, fun hk => hk.2⟩
  have hsep : x.kind ≠ .semicolon := by simp [hword]
  obtain ⟨htrigger, hpre⟩ := h.opened
  unfold TriggerFlags.readHeader
  simp only [htrigger, Bool.true_and]
  by_cases hon : Bare sql "on" x
  · have hbegin : ¬ Bare sql "begin" x := fun hk => by have := hk.unique hon; contradiction
    have hend : ¬ Bare sql "end" x := fun hk => by have := hk.unique hon; contradiction
    rw [if_pos ((hbare _).mpr hon)]
    exact {
      opened := by simp [hpre]
      seenOn := by simp [hon]
      relationSeen := by simp [h.relationSeen, related_snoc, hon]
      body := by simp [h.body, opened_snoc, OpensBody, hbegin]
      ended := by simp [h.ended, closed_snoc, hend]
      start := fun hin => by
        rw [TriggerFlags.afterCode_start _ (by simpa using hin)]
        simp [OpensBody, hbegin, hsep] }
  rw [if_neg fun hk => hon ((hbare _).mp hk)]
  have hseenOn : (∃ o ∈ ts ++ [x], Bare sql "on" o) ↔ ∃ o ∈ ts, Bare sql "on" o := by simp [hon]
  by_cases hrel : (f.seenOn && !f.relationSeen) = true
  · -- the table: nothing can have been opened yet
    rw [if_pos hrel]
    simp only [Bool.and_eq_true, Bool.not_eq_true'] at hrel
    have hnot : ¬ Related sql ts := fun hr => by simp [h.relationSeen.mpr hr] at hrel
    have hopened : ¬ Opened sql ts := fun ho => hnot ho.related
    have hbody : f.body = false := by simpa [← h.body] using hopened
    exact {
      opened := by simp [hpre]
      seenOn := by rw [hseenOn]; simpa using h.seenOn
      relationSeen := by simpa [related_snoc, hnot, hword, hon] using h.seenOn.mp hrel.1
      body := by simp [h.body, opened_snoc, OpensBody, hnot]
      ended := by
        have hlast : ¬ ∃ a b, ts = a ++ [b] ∧ OpensBody sql a b := by
          rintro ⟨a, b, heq, ho⟩
          exact hopened ⟨a, b, heq ▸ prefix_rfl, ho⟩
        simp only [TriggerFlags.afterCode_ended, h.ended, closed_snoc, hlast, false_and, or_false]
      start := fun hin => by simp [TriggerFlags.inBody, hbody] at hin }
  rw [if_neg hrel]
  have hrelated : Related sql (ts ++ [x]) ↔ Related sql ts := by
    refine related_snoc.trans (or_iff_left_of_imp ?_)
    rintro ⟨_, _, ho⟩
    refine h.relationSeen.mp ?_
    simpa [h.seenOn.mpr ho] using hrel
  by_cases hbegin : Bare sql "begin" x
  · have hend : ¬ Bare sql "end" x := fun hk => by have := hk.unique hbegin; contradiction
    by_cases hseen : f.relationSeen = true
    · -- the body is opened
      have hopens : OpensBody sql ts x := ⟨h.relationSeen.mp hseen, hbegin⟩
      rw [if_pos (by simp [hseen, (hbare _).mpr hbegin])]
      exact {
        opened := ⟨rfl, hpre⟩
        seenOn := by rw [hseenOn]; exact h.seenOn
        relationSeen := by rw [hrelated]; exact h.relationSeen
        body := by simp [opened_snoc, hopens]
        ended := by simp [h.ended, closed_snoc, hend]
        start := fun _ => by simp [hopens] }
    · have hopens : ¬ OpensBody sql ts x := fun ho => hseen (h.relationSeen.mpr ho.1)
      rw [if_neg (by simp [hseen]), if_neg fun hk => hend ((hbare _).mp (by simp_all))]
      exact {
        opened := by simp [hpre, htrigger]
        seenOn := by rw [hseenOn]; simpa using h.seenOn
        relationSeen := by rw [hrelated]; simpa using h.relationSeen
        body := by simp [h.body, opened_snoc, hopens]
        ended := by simp [h.ended, closed_snoc, hend]
        start := fun hin => by
          rw [TriggerFlags.afterCode_start _ (by simpa using hin)]
          simp [hopens, hsep] }
  have hopens : ¬ OpensBody sql ts x := fun ho => hbegin ho.2
  rw [if_neg fun hk => hbegin ((hbare _).mp (by simp_all))]
  by_cases hends : (f.inBody && isKeyword ((get? sql x.start x.stop).getD []) "end" &&
      f.bodyStatementStart && endClosesTrigger sql x.stop) = true
  · -- the `END` follows the `BEGIN`
    rw [if_pos hends]
    simp only [Bool.and_eq_true, hbare] at hends
    obtain ⟨⟨⟨hinBody, hend⟩, hstart⟩, hcloses⟩ := hends
    obtain ⟨a, b, heq, hb⟩ := (h.start hinBody).mp hstart
    have hb : OpensBody sql a b := hb.resolve_right fun hk =>
      (isChain_append.mp hin).2.2 b (by simp [heq]) x (by simp) hk hend
    have hclosed : Closed sql (ts ++ [x]) := closed_snoc.mpr (.inr ⟨⟨a, b, heq, hb⟩, hend, hcloses⟩)
    exact {
      opened := ⟨rfl, hpre⟩
      seenOn := by rw [hseenOn]; exact h.seenOn
      relationSeen := by rw [hrelated]; exact h.relationSeen
      body := by simp [h.body, opened_snoc, hopens]
      ended := by simp [hclosed]
      start := fun hin => by simp [TriggerFlags.inBody] at hin }
  · rw [if_neg hends]
    exact {
      opened := by simp [hpre, htrigger]
      seenOn := by rw [hseenOn]; simpa using h.seenOn
      relationSeen := by rw [hrelated]; simpa using h.relationSeen
      body := by simp [h.body, opened_snoc, hopens]
      ended := by
        simp only [TriggerFlags.afterCode_ended, h.ended, closed_snoc]
        refine ⟨.inl, fun hc => hc.elim id ?_⟩
        rintro ⟨⟨a, b, heq, hb⟩, hend, hcloses⟩
        -- an `END` that closes the body was seen, unless the body was closed before
        by_contra hopen
        have hinBody := h.inBody.mpr ⟨⟨a, b, heq ▸ prefix_rfl, hb⟩, hopen⟩
        have hstart := (h.start hinBody).mpr ⟨a, b, heq, .inl hb⟩
        exact hends (by simp [hinBody, hstart, hcloses, (hbare _).mpr hend])
      start := fun hin => by
        rw [TriggerFlags.afterCode_start _ (by simpa using hin)]
        simp [hopens, hsep] }

theorem readPrefix_of_read {word : Str} (h : f.prefixRead = 3) :
    f.readPrefix true word = f := by
  simp [TriggerFlags.readPrefix, h]

theorem flagsOf_opening (p : TriggerPrefix sql) :
    flagsOf sql p.all = { TriggerFlags.initial with prefixRead := 3, trigger := true } := by
  obtain ⟨create, temp, trigger, hcreate, htemp, htrigger⟩ := p
  have hon := hcreate.not_keyword "on" (by decide)
  have hon' := htrigger.not_keyword "on" (by decide)
  have htemp' := htrigger.not_keyword "temp" (by decide)
  have htemporary := htrigger.not_keyword "temporary" (by decide)
  cases temp with
  | none =>
    simp [TriggerPrefix.all, flagsOf, TriggerFlags.read, TriggerFlags.readPrefix,
      TriggerFlags.readHeader, TriggerFlags.afterCode, TriggerFlags.inBody,
      TriggerFlags.initial, hcreate.1, hcreate.2, htrigger.1, htrigger.2, hon, hon', htemp',
      htemporary]
  | some temp =>
    have hword : temp.kind = .word := (htemp temp rfl).elim And.left And.left
    have hkey := (htemp temp rfl).imp And.right And.right
    simp [TriggerPrefix.all, flagsOf, TriggerFlags.read, TriggerFlags.readPrefix,
      TriggerFlags.readHeader, TriggerFlags.afterCode, TriggerFlags.inBody,
      TriggerFlags.initial, hcreate.1, hcreate.2, htrigger.1, htrigger.2, hword, hkey, hon']

theorem not_on_of_opening (p : TriggerPrefix sql) : ∀ o ∈ p.all, ¬ Bare sql "on" o := by
  obtain ⟨create, temp, trigger, hcreate, htemp, htrigger⟩ := p
  intro o ho hon
  simp only [TriggerPrefix.all, mem_cons, mem_append, Option.mem_toList,
    not_mem_nil, or_false] at ho
  rcases ho with rfl | ho | rfl
  · exact absurd (hcreate.unique hon) (by decide)
  · rcases htemp o ho with h | h <;> exact absurd (h.unique hon) (by decide)
  · exact absurd (htrigger.unique hon) (by decide)

theorem tracks_opening (p : TriggerPrefix sql) : Tracks sql p.all (flagsOf sql p.all) := by
  have hrelated : ¬ Related sql p.all := fun ⟨a, w, hpre, _, _, o, ho, hon⟩ =>
    not_on_of_opening p o (hpre.subset (mem_append_left _ ho)) hon
  have hopened : ¬ Opened sql p.all := fun h => hrelated h.related
  rw [flagsOf_opening]
  exact {
    opened := ⟨rfl, rfl⟩
    seenOn := by simpa [TriggerFlags.initial] using not_on_of_opening p
    relationSeen := by simpa [TriggerFlags.initial] using hrelated
    body := by simpa [TriggerFlags.initial] using hopened
    ended := by simpa [TriggerFlags.initial] using fun h : Closed sql p.all => hopened h.opened
    start := fun hin => by simp [TriggerFlags.inBody, TriggerFlags.initial] at hin }

theorem tracks (p : TriggerPrefix sql) {r : List (Item Tok)}
    (hcode : ∀ x ∈ r, x.kind.isComment = false) (hin : NeverFirst sql "end" (p.all ++ r)) :
    Tracks sql (p.all ++ r) (flagsOf sql (p.all ++ r)) := by
  induction r using List.reverseRecOn with
  | nil => simpa using tracks_opening p
  | append_singleton r x ih =>
    have hin' := hin
    rw [← append_assoc] at hin' ⊢
    have h := ih (fun y hy => hcode y (by simp [hy])) hin'.left_of_append
    have hcomment := hcode x (by simp)
    rw [flagsOf_snoc, show (!(p.all ++ r).isEmpty) = true by simp [TriggerPrefix.all]]
    unfold TriggerFlags.read
    cases hk : x.kind
    case word =>
      simp only [readPrefix_of_read h.opened.2]
      exact h.word hk hin'
    case semicolon => exact h.separator hk
    case comment => simp [hk, Tok.isComment] at hcomment
    case unreadableComment => simp [hk, Tok.isComment] at hcomment
    all_goals exact h.other (by simp [hk]) (by simp [hk])

end Flags

/-! ## The layout of a trigger -/

namespace TriggerPrefix

variable {sql : Str} (p : TriggerPrefix sql)

theorem uncut : Uncut p.all := by
  obtain ⟨create, temp, trigger, hcreate, htemp, htrigger⟩ := p
  intro x hx
  simp only [all, mem_cons, mem_append, Option.mem_toList, not_mem_nil,
    or_false] at hx
  rcases hx with rfl | hx | rfl
  · simp [hcreate.1]
  · rcases htemp x hx with h | h <;> simp [h.1]
  · simp [htrigger.1]

end TriggerPrefix

variable {k : String}

theorem Uncut.neverFirst {sql : Str} {ts : List (Item Tok)} (h : Uncut ts) :
    NeverFirst sql k ts := by
  refine isChain_iff_forall_rel_of_append_cons_cons.mpr fun b x l l' heq hsep => ?_
  exact absurd hsep (h b (by simp [heq]))

theorem neverFirst_append {sql : Str} {ts us : List (Item Tok)}
    (hts : NeverFirst sql k ts) (hus : NeverFirst sql k us)
    (hfirst : ∀ x ∈ us.head?, ¬ Bare sql k x) : NeverFirst sql k (ts ++ us) :=
  hts.append hus fun _ _ x hx _ => hfirst x hx

theorem neverFirst_body {sql : Str} {body : List (BodyStatement sql)}
    (h : ∀ s ∈ body, ∀ x ∈ s.tokens.head?, ¬ Bare sql k x) :
    NeverFirst sql k (body.flatMap BodyStatement.all) ∧
      ∀ x ∈ (body.flatMap BodyStatement.all).head?, ¬ Bare sql k x := by
  induction body with
  | nil => exact ⟨isChain_nil, by simp⟩
  | cons s body ih =>
    obtain ⟨hrest, hhead⟩ := ih fun s' hs' => h s' (by simp [hs'])
    have hs := h s (by simp)
    have hstatement : NeverFirst sql k s.all :=
      List.IsChain.append s.uncut.neverFirst (isChain_singleton _)
        fun b hb _ _ hsep => absurd hsep (s.uncut b (mem_of_getLast? hb))
    refine ⟨?_, ?_⟩
    · rw [flatMap_cons]
      exact neverFirst_append hstatement hrest hhead
    · intro x hx
      cases htokens : s.tokens with
      | nil =>
        simp only [flatMap_cons, BodyStatement.all, htokens, nil_append,
          cons_append, head?_cons, Option.mem_some_iff] at hx
        subst hx
        exact not_bare_of_kind (by simp [s.isSeparator])
      | cons y ys =>
        simp only [flatMap_cons, BodyStatement.all, htokens, cons_append,
          head?_cons, Option.mem_some_iff] at hx
        subst hx
        exact hs y (by simp [htokens])

namespace TriggerText

variable {sql : Str} (t : TriggerText sql)

theorem uncut_header : Uncut t.header := by
  have hname : ∀ {x : Item Tok}, IsName x → x.kind ≠ .semicolon := by
    rintro x (h | h | h) <;> simp [h]
  intro x hx
  simp only [header, mem_cons, mem_append, not_mem_nil, or_false] at hx
  rcases hx with rfl | hx | rfl | rfl | hx | rfl
  · exact hname t.isName
  · exact t.uncutMiddle x hx
  · simp [t.isOn.1]
  · exact hname t.isTable
  · exact t.uncutClauses x hx
  · simp [t.isBegin.1]

theorem neverFirst (h : ∀ s ∈ t.body, ∀ x ∈ s.tokens.head?, ¬ Bare sql k x) :
    NeverFirst sql k t.before := by
  have hopening : Uncut (t.opening.all ++ t.header) := fun x hx =>
    (mem_append.mp hx).elim (t.opening.uncut x) (t.uncut_header x)
  obtain ⟨hbody, hhead⟩ := neverFirst_body h
  exact neverFirst_append hopening.neverFirst hbody hhead

theorem layout' : code (scan sql .sqlite) = t.before ++ t.ending :: t.terminator.toList := t.layout

theorem cut : ∃ l l', scan sql .sqlite = l ++ t.ending :: l' ∧ code l = t.before ∧
    code l' = t.terminator.toList := by
  obtain ⟨l, l₂, hscan, hl, hl₂⟩ := filter_eq_append_iff.mp t.layout'
  obtain ⟨cs, l', rfl, hcs, -, hl'⟩ := filter_eq_cons_iff.mp hl₂
  refine ⟨l ++ cs, l', by simp [hscan], ?_, hl'⟩
  rw [code, filter_append, hl, filter_eq_nil_iff.mpr hcs, append_nil]

theorem not_comment : ∀ x ∈ t.before, x.kind.isComment = false := by
  intro x hx
  have : x ∈ code (scan sql .sqlite) := by simp [t.layout', hx]
  simpa using (mem_filter.mp this).2

theorem past_opening {a : List (Item Tok)} {x : Item Tok} (h : a ++ [x] <+: t.before)
    (hx : x.kind = .semicolon) : ∃ r, a = t.opening.all ++ r := by
  have hnot : ∀ {l}, a ++ [x] <+: l → l = t.opening.all → False := fun hpre hl =>
    t.opening.uncut x (hl ▸ hpre.subset (by simp)) hx
  have hopening : t.opening.all <+: t.before :=
    ⟨t.header ++ t.body.flatMap BodyStatement.all, by simp [before]⟩
  rcases prefix_or_prefix_of_prefix h hopening with hle | hle
  · exact (hnot hle rfl).elim
  · rcases prefix_concat_iff.mp hle with heq | ⟨r, hr⟩
    · exact (hnot (prefix_rfl) heq.symm).elim
    · exact ⟨r, hr.symm⟩

theorem inBody_iff {a : List (Item Tok)} {x : Item Tok} (h : a ++ [x] <+: t.before)
    (hx : x.kind = .semicolon) :
    (flagsOf sql a).inBody = true ↔ Opened sql a ∧ ¬ Closed sql a := by
  obtain ⟨r, rfl⟩ := t.past_opening h hx
  have hpre : t.opening.all ++ r <+: t.before := (prefix_append _ [x]).trans h
  have hnever := t.neverFirst fun s _ => s.noEnd
  obtain ⟨us, hus⟩ := hpre
  rw [← hus] at hnever
  exact (tracks t.opening (fun y hy => t.not_comment y (hus ▸ by simp [hy]))
    hnever.left_of_append).inBody

theorem keptWhole_of_flags (h : ∀ n < t.before.length, ∀ x ∈ t.before[n]?, x.kind = .semicolon →
    (flagsOf sql (t.before.take n)).inBody = true) : KeptWhole sql t.before := by
  intro a x hpre hx
  refine (t.inBody_iff hpre hx).mp ?_
  obtain ⟨rest, hrest⟩ := hpre
  have hget : t.before[a.length]? = some x := by rw [← hrest]; simp
  have htake : t.before.take a.length = a := by rw [← hrest]; simp
  rw [← htake]
  exact h a.length (List.getElem?_eq_some_iff.mp hget).1 x hget hx

end TriggerText

end Oxyn
