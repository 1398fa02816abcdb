/-
# `Oxyn.Redis.Console` — the command under the cursor

The console cuts a text in lines with a lexer of its own: a line break inside quotes belongs to
the argument.
-/
import Oxyn.Redis.Agreement
import Oxyn.Query.Current

namespace Oxyn

open Text Walk Argv List
open Byte (apostrophe backslash doubleQuote lineFeed)

/-! ## The lines of a console text -/

/-- What `commands` keeps: the lines closed, where the current one starts, and the
open quote. -/
structure Lines where
  spans : List (Nat × Nat)
  start : Nat
  quote : Option (UInt8 × Nat)

/-- The line is closed at a line break. -/
def Lines.close (s : Lines) (i : Nat) : Lines :=
  { s with spans := s.spans ++ [(s.start, i)], start := i + 1 }

/-- The body of `commands`; it returns once the line holding the cursor is closed. -/
def linesTurn (cursor i : Nat) (s : Lines) (c : UInt8) (rest : List UInt8) :
    Turn Lines (List (Nat × Nat)) :=
  match s.quote with
  | some (opening, _) =>
    if opening == doubleQuote && c == backslash then .go 1 s
    else if opening == apostrophe && c == backslash &&
        rest.head? == some apostrophe then .go 1 s
    else if c == opening then .go 0 { s with quote := none }
    else .go 0 s
  | none =>
    if isQuote c then .go 0 { s with quote := some (c, i) }
    else if c == lineFeed then
      if i + 1 > cursor then .stop (s.close i).spans else .go 0 (s.close i)
    else .go 0 s

def commandSpans (text : Str) (cursor : Nat) : Except QueryError (List (Nat × Nat)) :=
  match walk (linesTurn cursor) (bytes text) 0 0 ⟨[], 0, none⟩ with
  | .stopped spans => .ok spans
  | .off _ s =>
    match s.quote with
    | some (_, opened) => .error (.selection cursor
        ("a quote opened at byte " ++ toString opened ++ " is never closed, so where the " ++
          "command ends is unknown: select the command to run"))
    | none => .ok (s.spans ++ [(s.start, size text)])

def spanUnder (cursor : Nat) : List (Nat × Nat) → Option (Nat × Nat)
  | [] => none
  | (start, stop) :: rest =>
    if start ≤ cursor ∧ cursor ≤ stop then some (start, stop)
    else if start > cursor then none
    else spanUnder cursor rest

def lineUnder (text : Str) (cursor : Nat) : Except QueryError (Option (Nat × Nat)) :=
  if !isCharBoundary text cursor then
    .error (.selection cursor "the cursor is not on a character boundary")
  else (commandSpans text cursor).map (spanUnder cursor)

def currentCommand (text : Str) (cursor : Nat) : Except QueryError (Option Str) :=
  (lineUnder text cursor).map fun line => line.bind fun (start, stop) =>
    let command := trim ((get? text start stop).getD [])
    if command.isEmpty then none else some command

/-! ## Both lexers in step -/

namespace Argv

theorem not_endsBare {c : UInt8} (h : endsBare c = false) : c ≠ lineFeed := by
  rintro rfl
  exact absurd h (by decide)

theorem hexDigit_plain {c : UInt8} (h : isHexDigit c = true) :
    c ≠ doubleQuote ∧ c ≠ backslash := by
  constructor
  · rintro rfl; exact absurd h (by decide)
  · rintro rfl; exact absurd h (by decide)

theorem closing_not_escape (c : UInt8) (rest : List UInt8) :
    (c == doubleQuote && c == backslash) = false ∧
      (c == apostrophe && c == backslash && rest.head? == some apostrophe) =
        false := by
  constructor
  · rw [Bool.and_eq_false_iff, beq_eq_false_iff_ne, beq_eq_false_iff_ne]
    by_cases h : c = doubleQuote
    · right; rw [h]; decide
    · exact .inl h
  · rw [Bool.and_assoc, Bool.and_eq_false_iff, beq_eq_false_iff_ne]
    by_cases h : c = apostrophe
    · right; rw [h]; rfl
    · exact .inl h

/-- A hexadecimal escape has four bytes; any other escape two, if the text goes on. -/
theorem escape_cases (rest : List UInt8) :
    (∃ high low tail, rest = 0x78 :: high :: low :: tail ∧ isHexDigit high = true ∧
        isHexDigit low = true ∧ (escape rest).2 = 3) ∨
      (∃ next tail, rest = next :: tail ∧ (escape rest).2 = 1) ∨
      rest = [] ∧ (escape rest).2 = 0 := by
  unfold escape
  split
  · exact .inr (.inr ⟨rfl, rfl⟩)
  next high low tail =>
    split
    next h =>
      rw [Bool.and_eq_true] at h
      exact .inl ⟨high, low, tail, rfl, h.1, h.2, rfl⟩
    next => exact .inr (.inl ⟨_, _, rfl, rfl⟩)
  next next tail _ => exact .inr (.inl ⟨_, _, rfl, rfl⟩)

end Argv

section Step

variable {cursor : Nat}

variable {rest : List UInt8} {k i : Nat} {s : Lines}

theorem linesTurn_plain {opening c : UInt8}
    (hq : s.quote = some (opening, k)) (hc : c ≠ opening) (hb : c ≠ backslash) :
    linesTurn cursor i s c rest = .go 0 s := by
  simp [linesTurn, hq, hc, hb]

theorem walk_escape (hq : s.quote = some (doubleQuote, k)) :
    walk (linesTurn cursor) (backslash :: rest) i 0 s =
        walk (linesTurn cursor) (rest.drop (escape rest).2) (i + ((escape rest).2 + 1)) 0 s ∨
      ∃ j, walk (linesTurn cursor) (backslash :: rest) i 0 s = .off j s := by
  have hgo : linesTurn cursor i s backslash rest = .go 1 s := by simp [linesTurn, hq]
  rcases escape_cases rest with ⟨high, low, tail, rfl, hhigh, hlow, hn⟩ | ⟨next, tail, rfl, hn⟩ |
    ⟨rfl, hn⟩
  · left
    obtain ⟨h1, h2⟩ := hexDigit_plain hhigh
    obtain ⟨h3, h4⟩ := hexDigit_plain hlow
    rw [walk_go hgo (by simp), hn]
    show walk (linesTurn cursor) (high :: low :: tail) (i + 2) 0 s = _
    rw [walk_go (linesTurn_plain hq h1 h2) (Nat.zero_le _)]
    show walk (linesTurn cursor) (low :: tail) (i + 3) 0 s = _
    rw [walk_go (linesTurn_plain hq h3 h4) (Nat.zero_le _)]
    rfl
  · left
    rw [walk_go hgo (by simp), hn]
  · right
    exact ⟨i + 1, by rw [walk, hgo]; rfl⟩

theorem linesTurn_closes {c : UInt8} (hq : s.quote = some (c, k)) :
    linesTurn cursor i s c rest = .go 0 { s with quote := none } := by
  obtain ⟨h1, h2⟩ := closing_not_escape c rest
  simp only [linesTurn, hq, h1, h2, Bool.false_eq_true, if_false, BEq.rfl, if_true]

variable (cursor) in
/-- The lines' lexer steps over an argument, and is outside quotes behind it; or the
text ends in an open quote. -/
theorem walk_of_token {b l : List UInt8} {i j : Nat} {s : TokenState} {v : List UInt8}
    (ls : Lines) (hl : l = b.drop i) (hquote : ls.quote = s.quote)
    (h : tokenFrom .lenient l i s = .ok (v, j)) :
    walk (linesTurn cursor) l i 0 ls =
        walk (linesTurn cursor) (b.drop j) j 0 { ls with quote := none } ∨
      ∃ k ls', walk (linesTurn cursor) l i 0 ls = .off k ls' ∧ ls'.quote ≠ none := by
  have hsame (hq : s.quote = none) : ({ ls with quote := none } : Lines) = ls := by
    rw [← hq, ← hquote]
  induction l, i, s using walk_induction (tokenTurn .lenient) generalizing ls with
  | hnil i s =>
    rw [tokenFrom_nil] at h
    cases hq : s.quote with
    | none =>
      left
      simp only [tokenEnd, hq, Except.ok.injEq, Prod.mk.injEq] at h
      obtain ⟨-, rfl⟩ := h
      rw [← hl, hsame hq]
    | some q => exact .inr ⟨i, ls, rfl, by simp [hquote, hq]⟩
  | hstop c rest i s t ht =>
    rw [tokenFrom_stop ht] at h
    have hrest := (Cursor.of_cons_eq_drop hl).2
    have hstep := tokenStep .lenient i s c rest
    rw [ht, h] at hstep
    left
    cases hstep with
    | ends hq _ => rw [← hl, hsame hq]
    | closes hq _ =>
      rw [← hquote] at hq
      rw [walk_go (linesTurn_closes hq) (Nat.zero_le _), ← hrest]
      rfl
  | hgo c rest i s n s' ht ih =>
    rw [tokenFrom_go ht] at h
    have hrest : rest.drop n = b.drop (i + (n + 1)) := by
      rw [(Cursor.of_cons_eq_drop hl).2, drop_drop]
      exact congrArg (b.drop ·) (by omega)
    -- what is left to show once the lines' lexer has made the same step
    have hnext (t : Lines) (hs' : t.quote = s'.quote)
        (hnone : ({ t with quote := none } : Lines) = { ls with quote := none })
        (hwalk : walk (linesTurn cursor) (c :: rest) i 0 ls =
          walk (linesTurn cursor) (rest.drop n) (i + (n + 1)) 0 t) :
        walk (linesTurn cursor) (c :: rest) i 0 ls =
            walk (linesTurn cursor) (b.drop j) j 0 { ls with quote := none } ∨
          ∃ k ls', walk (linesTurn cursor) (c :: rest) i 0 ls = .off k ls' ∧
            ls'.quote ≠ none := by
      rw [hwalk, ← hnone]
      exact ih t hrest hs' h fun hq => by rw [← hq, ← hs']
    have hstep := tokenStep .lenient i s c rest
    rw [ht] at hstep
    cases hstep with
    | opens hq _ hc =>
      have hgo : linesTurn cursor i ls c rest = .go 0 { ls with quote := some (c, i) } := by
        simp [linesTurn, hquote, hq, hc]
      exact hnext { ls with quote := some (c, i) } rfl rfl (walk_go hgo (Nat.zero_le _))
    | bare hq hend hc =>
      have hgo : linesTurn cursor i ls c rest = .go 0 ls := by
        simp [linesTurn, hquote, hq, hc, not_endsBare hend]
      exact hnext ls hquote rfl (walk_go hgo (Nat.zero_le _))
    | escaped hq hc =>
      subst hc
      rcases walk_escape (hquote.trans hq) with
        hw | ⟨k, hw⟩
      · exact hnext ls hquote rfl hw
      · exact .inr ⟨k, ls, hw, by simp [hquote, hq]⟩
    | apostrophe hq hc hhead =>
      subst hc
      have hgo : linesTurn cursor i ls backslash rest = .go 1 ls := by
        simp [linesTurn, hquote, hq, hhead]
      exact hnext ls hquote rfl (walk_go hgo (skip_le ht))
    | glued _ hq _ _ =>
      rw [← hquote] at hq
      exact hnext { ls with quote := none } rfl rfl
        (walk_go (linesTurn_closes hq) (Nat.zero_le _))
    | inside hq hne h1 h2 =>
      have hgo : linesTurn cursor i ls c rest = .go 0 ls := by
        simp only [linesTurn, hquote, hq]
        rw [if_neg (by simpa using h1), if_neg (by simpa [and_assoc] using h2),
          if_neg (by simpa using hne)]
      exact hnext ls hquote rfl (walk_go hgo (Nat.zero_le _))

end Step

/-! ## Lines -/

section Line

variable (b : List UInt8)

/-- The lenient reading stands at `k`, or passes it as a blank. -/
def Free (k : Nat) : Prop :=
  ∃ i, (argReader b .lenient).Reach 0 i ∧ i ≤ k ∧
    ∀ j, i ≤ j → j < k → ∃ c, b[j]? = some c ∧ isSpace c = true

def StartsLine (s : Nat) : Prop :=
  s = 0 ∨ ∃ k, s = k + 1 ∧ Free b k ∧ b[k]? = some lineFeed

/-- No line break is free from `s` up to `k`. -/
def Unbroken (s k : Nat) : Prop :=
  ∀ j, s ≤ j → j < k → Free b j → b[j]? ≠ some lineFeed

structure IsLine (s e : Nat) : Prop where
  le : s ≤ e
  starts : StartsLine b s
  free : Free b e
  ends : e = b.length ∨ b[e]? = some lineFeed
  unbroken : Unbroken b s e

/-- What the lexer has when it stands at `k` outside quotes. -/
structure AtLine (k : Nat) (s : Lines) : Prop where
  lines : ∀ span ∈ s.spans, IsLine b span.1 span.2
  starts : StartsLine b s.start
  le : s.start ≤ k
  unbroken : Unbroken b s.start k
  outside : s.quote = none

def Reports (r : Exit Lines (List (Nat × Nat))) : Prop :=
  match r with
  | .stopped spans => ∀ span ∈ spans, IsLine b span.1 span.2
  | .off _ s => s.quote = none → AtLine b b.length s ∧ Free b b.length

variable {b} {cursor : Nat}

theorem free_of_reach {i : Nat} (h : (argReader b .lenient).Reach 0 i) : Free b i :=
  ⟨i, h, Nat.le_refl i, fun _ h1 h2 => absurd h2 (Nat.not_lt.mpr h1)⟩

theorem Free.succ {k : Nat} {c : UInt8} (h : Free b k) (hc : b[k]? = some c)
    (hs : isSpace c = true) : Free b (k + 1) := by
  obtain ⟨i, hi, hik, hblank⟩ := h
  refine ⟨i, hi, by omega, fun j h1 h2 => ?_⟩
  rcases Nat.lt_succ_iff_lt_or_eq.mp h2 with h2 | rfl
  · exact hblank j h1 h2
  · exact ⟨c, hc, hs⟩

theorem Unbroken.over_argument {s i : Nat} {x : Item Read} (h : Unbroken b s x.start)
    (hi : (argReader b .lenient).Reach 0 i) (hx : nextArgument b .lenient i = some x) :
    Unbroken b s x.stop := by
  intro k hk hstop hfree hline
  by_cases hlt : k < x.start
  · exact h k hk hlt hfree hline
  · obtain ⟨-, -, -, hstart, -, hlen⟩ := argument_of_lenient hx
    obtain ⟨c, hc⟩ : ∃ c, b[x.start]? = some c := ⟨_, getElem?_eq_getElem hlen⟩
    have hspace : isSpace c = false := not_space_at (hstart ▸ hc)
    obtain ⟨j, hj, hjk, hblank⟩ := hfree
    rcases Reader.Reach.not_inside hi hx hj with hle | hle
    · have hfw := (nextArgument_forward hx).1
      rcases Nat.eq_or_lt_of_le (Nat.not_lt.mp hlt) with heq | hgt
      · -- the break would be the argument's own first byte
        rw [← heq, hc] at hline
        obtain rfl := Option.some.inj hline
        exact absurd hspace (by decide)
      · obtain ⟨d, hd, hsd⟩ := hblank x.start (by omega) hgt
        rw [hc] at hd
        rw [← Option.some.inj hd, hspace] at hsd
        simp at hsd
    · omega

theorem reports_blanks {i n : Nat} {s : Lines}
    (hblank : ∀ j, i ≤ j → j < i + n → ∃ c, b[j]? = some c ∧ isSpace c = true)
    (hfree : Free b i) (hs : AtLine b i s)
    (hrest : ∀ t, AtLine b (i + n) t → Free b (i + n) →
      Reports b (walk (linesTurn cursor) (b.drop (i + n)) (i + n) 0 t)) :
    Reports b (walk (linesTurn cursor) (b.drop i) i 0 s) := by
  induction n generalizing i s with
  | zero => exact hrest s hs hfree
  | succ n ih =>
    obtain ⟨c, hc, hspace⟩ := hblank i (Nat.le_refl i) (by omega)
    obtain ⟨hlt, rfl⟩ := List.getElem?_eq_some_iff.mp hc
    have hfree' := hfree.succ hc hspace
    have hquote : isQuote b[i] = false := by
      rw [Bool.eq_false_iff]
      intro hq
      simp only [isQuote, Bool.or_eq_true, beq_iff_eq] at hq
      rcases hq with hq | hq
      · rw [hq] at hspace; exact absurd hspace (by decide)
      · rw [hq] at hspace; exact absurd hspace (by decide)
    have hgo (t : Lines) (ht : AtLine b (i + 1) t)
        (hturn : linesTurn cursor i s b[i] (b.drop (i + 1)) = .go 0 t) :
        Reports b (walk (linesTurn cursor) (b.drop i) i 0 s) := by
      rw [drop_eq_getElem_cons hlt, walk_go hturn (Nat.zero_le _), drop_zero]
      refine ih (fun j h1 h2 => hblank j (by omega) (by omega)) hfree' ht ?_
      intro t ht hf
      rw [show i + 1 + n = i + (n + 1) by omega] at ht hf ⊢
      exact hrest t ht hf
    by_cases hline : b[i] = lineFeed
    · have hclosed : ∀ span ∈ (s.close i).spans, IsLine b span.1 span.2 := by
        intro span hspan
        rcases mem_append.mp hspan with hspan | hspan
        · exact hs.lines span hspan
        · obtain rfl := mem_singleton.mp hspan
          exact ⟨hs.le, hs.starts, hfree, .inr (hline ▸ hc), hs.unbroken⟩
      have hturn : linesTurn cursor i s b[i] (b.drop (i + 1)) =
          if i + 1 > cursor then .stop (s.close i).spans else .go 0 (s.close i) := by
        rw [hline] at hquote ⊢
        simp [linesTurn, hs.outside, hquote]
      by_cases hcursor : i + 1 > cursor
      · rw [if_pos hcursor] at hturn
        rw [drop_eq_getElem_cons hlt, walk_stop hturn]
        exact hclosed
      · rw [if_neg hcursor] at hturn
        exact hgo (s.close i) ⟨hclosed, .inr ⟨i, rfl, hfree, hline ▸ hc⟩, Nat.le_refl _,
          fun j h1 h2 => absurd h2 (Nat.not_lt.mpr h1), hs.outside⟩ hturn
    · refine hgo s ⟨hs.lines, hs.starts, by have := hs.le; omega, ?_, hs.outside⟩
        (by simp [linesTurn, hs.outside, hquote, hline])
      intro j h1 h2 hf hj
      rcases Nat.lt_succ_iff_lt_or_eq.mp h2 with h2 | rfl
      · exact hs.unbroken j h1 h2 hf hj
      · exact hline (Option.some.inj (hc.symm.trans hj))

theorem reports_from {i : Nat} {s : Lines} (hi : (argReader b .lenient).Reach 0 i)
    (hs : AtLine b i s) : Reports b (walk (linesTurn cursor) (b.drop i) i 0 s) := by
  induction i using Reader.reading_induction (r := argReader b .lenient) generalizing s with
  | h i ih =>
    have hle : i ≤ b.length := by
      rcases hi.cases_last with rfl | ⟨k, x, -, hx, rfl⟩
      · exact Nat.zero_le _
      · exact (nextArgument_forward hx).2.2
    have hblank : ∀ j, i ≤ j → j < i + (blanks b i).length →
        ∃ c, b[j]? = some c ∧ isSpace c = true := fun j h1 h2 => space_of_blanks h1 h2
    refine reports_blanks hblank (free_of_reach hi) hs fun t ht hfree => ?_
    show Reports b (walk (linesTurn cursor) (b.drop (skipBlanks b i).1) (skipBlanks b i).1 0 t)
    change AtLine b (skipBlanks b i).1 t at ht
    change Free b (skipBlanks b i).1 at hfree
    cases hx : nextArgument b .lenient i with
    | none =>
      have hend : (skipBlanks b i).1 = b.length :=
        Nat.le_antisymm (skipBlanks_le b hle).2 (nextArgument_none.mp hx)
      rw [hend] at ht hfree ⊢
      rw [drop_length]
      exact fun _ => ⟨ht, hfree⟩
    | some x =>
      obtain ⟨v, -, htoken, hstart, -, hlen⟩ := argument_of_lenient hx
      rw [← hstart] at ht ⊢
      have hfw := nextArgument_forward hx
      rcases walk_of_token cursor t rfl ht.outside htoken with
        hw | ⟨k, ls, hw, hopen⟩
      · rw [hw]
        refine ih x hx (.step hi hx) ⟨ht.lines, ht.starts, ?_,
          ht.unbroken.over_argument hi hx, rfl⟩
        have := ht.le
        simp only
        omega
      · rw [hw]
        exact fun hnone => absurd hnone hopen

end Line

theorem isLine_of_mem_commandSpans {text : Str} {cursor : Nat} {spans : List (Nat × Nat)}
    (h : commandSpans text cursor = .ok spans) :
    ∀ span ∈ spans, IsLine (bytes text) span.1 span.2 := by
  have hreports : Reports (bytes text)
      (walk (linesTurn cursor) ((bytes text).drop 0) 0 0 ⟨[], 0, none⟩) :=
    reports_from .refl ⟨by simp, .inl rfl, Nat.le_refl 0,
      fun j _ h2 => absurd h2 (Nat.not_lt_zero j), rfl⟩
  rw [drop_zero] at hreports
  unfold commandSpans at h
  cases hw : walk (linesTurn cursor) (bytes text) 0 0 ⟨[], 0, none⟩ with
  | stopped r =>
    rw [hw] at h hreports
    obtain rfl := Except.ok.inj h
    exact hreports
  | off k s =>
    rw [hw] at h hreports
    cases hq : s.quote with
    | some q => simp [hq] at h
    | none =>
      simp only [hq, Except.ok.injEq] at h
      subst h
      obtain ⟨hline, hfree⟩ := hreports hq
      intro span hspan
      rcases mem_append.mp hspan with hspan | hspan
      · exact hline.lines span hspan
      · obtain rfl := mem_singleton.mp hspan
        exact ⟨hline.le, hline.starts, hfree, .inl rfl, hline.unbroken⟩

/-! ## The command of a line -/

namespace Grouping

theorem finish_cut {l : List (Item Read)} {g : Grouping}
    (hok : ∀ x ∈ l, ∃ v, x.kind.argument = .ok v)
    (hfirst : g.current = [] ∨ ∀ x ∈ l.head?, 0 < x.kind.breaks) :
    (l.foldl Grouping.read g).finish = g.finish ++ (l.foldl Grouping.read ⟨[], []⟩).finish := by
  -- what is complete stays in front
  have hfront : ∀ (l : List (Item Read)) (done : List (List Argument)) (g : Grouping),
      (l.foldl Grouping.read ⟨done ++ g.commands, g.current⟩).finish =
        done ++ (l.foldl Grouping.read g).finish := by
    intro l done
    induction l with
    | nil =>
      intro g
      by_cases h : g.current = [] <;> simp [finish, h]
    | cons x l ih =>
      intro g
      rw [foldl_cons, foldl_cons, ← ih]
      congr 1
      unfold Grouping.read
      cases x.kind.argument with
      | error e => rfl
      | ok v => simp only; split <;> simp
  cases l with
  | nil => exact (append_nil _).symm
  | cons x l =>
    obtain ⟨v, hv⟩ := hok x (by simp)
    have hread : Grouping.read g x = ⟨g.finish, [⟨v, x.start, x.stop⟩]⟩ := by
      unfold Grouping.read finish
      rw [hv]
      rcases hfirst with hnil | hbreaks
      · simp [hnil]
      · have hpos := hbreaks x (by simp)
        by_cases hnil : g.current = [] <;> simp [hnil, hpos]
    have hempty : Grouping.read ⟨[], []⟩ x = ⟨[], [⟨v, x.start, x.stop⟩]⟩ := by
      unfold Grouping.read
      simp [hv]
    rw [foldl_cons, foldl_cons, hread, hempty]
    simpa using hfront l g.finish ⟨[], [⟨v, x.start, x.stop⟩]⟩

theorem mem_finish {l : List (Item Read)} {command : List Argument}
    (h : command ∈ (l.foldl Grouping.read ⟨[], []⟩).finish) :
    command ≠ [] ∧ ∀ a ∈ command, a ∈ l.filterMap toArgument? := by
  refine ⟨?_, fun a ha => ?_⟩
  · have hne : ∀ (l : List (Item Read)) (g : Grouping), [] ∉ g.commands →
        [] ∉ (l.foldl Grouping.read g).finish := by
      intro l
      induction l with
      | nil =>
        intro g hg
        by_cases h : g.current = []
        · simpa [finish, h] using hg
        · simp [finish, h, hg, Ne.symm h]
      | cons x l ih =>
        intro g hg
        rw [foldl_cons]
        refine ih _ ?_
        unfold Grouping.read
        cases x.kind.argument with
        | error e => exact hg
        | ok v =>
          simp only
          split
          next hcut => simp [hg, Ne.symm hcut.2]
          next => exact hg
    rintro rfl
    exact hne l ⟨[], []⟩ (by simp) h
  · have hflat := flatten_read l ⟨[], []⟩
    simp only [flatten_nil, nil_append] at hflat
    rw [← hflat]
    exact mem_flatten.mpr ⟨command, h, ha⟩

end Grouping

def commandsOn (text : Str) (line : Nat × Nat) : List (List Argument) :=
  (argvCommands text).filter fun command =>
    command.all fun a => line.1 ≤ a.start && a.stop ≤ line.2

section OnLine

variable {b : List UInt8}

variable {i k : Nat}

theorem count_breaks_eq_zero
    (h : ∀ j, i ≤ j → j < k → b[j]? ≠ some lineFeed) (hk : (skipBlanks b i).1 ≤ k) :
    (skipBlanks b i).2 = 0 := by
  simp only [skipBlanks] at hk ⊢
  rw [count_eq_zero]
  intro hmem
  obtain ⟨n, hn, hget⟩ := mem_iff_getElem.mp hmem
  refine h (i + n) (by omega) (by omega) ?_
  rw [← getElem?_drop, drop_blanks b i, getElem?_append_left hn,
    getElem?_eq_getElem hn, hget]

theorem breaks_pos (hik : i ≤ k) (hk : k < (skipBlanks b i).1)
    (hline : b[k]? = some lineFeed) : 0 < (skipBlanks b i).2 := by
  simp only [skipBlanks] at hk ⊢
  rw [count_pos_iff]
  have hn : k - i < (blanks b i).length := by omega
  have hget : (blanks b i)[k - i]? = some lineFeed := by
    rw [← hline, show b[k]? = (b.drop i)[k - i]? by
      rw [getElem?_drop, Nat.add_sub_cancel' hik], drop_blanks b i,
      getElem?_append_left hn]
  exact mem_of_getElem? hget

theorem le_start_of_blank {x : Item Read} (hx : nextArgument b .lenient i = some x)
    (hblank : ∀ j, i ≤ j → j < k → ∃ c, b[j]? = some c ∧ isSpace c = true) : k ≤ x.start := by
  obtain ⟨-, -, -, hstart, -, hlen⟩ := argument_of_lenient hx
  refine Nat.not_lt.mp fun hlt => ?_
  obtain ⟨c, hc, hspace⟩ := hblank x.start (nextArgument_forward hx).1 hlt
  rw [not_space_at (hstart ▸ hc)] at hspace
  simp at hspace

/-- The arguments of a text, cut at a line: those before it, on it and behind it. -/
structure CutAt (b : List UInt8) (s e : Nat) (A front B : List (Item Read)) : Prop where
  items : (argReader b .lenient).items 0 = A ++ (front ++ B)
  enters : ∃ i ≤ s, (∀ j, i ≤ j → j < s → ∃ c, b[j]? = some c ∧ isSpace c = true) ∧
    (argReader b .lenient).items i = front ++ B
  leaves : ∃ i ≤ e, (∀ j, i ≤ j → j < e → ∃ c, b[j]? = some c ∧ isSpace c = true) ∧
    (argReader b .lenient).items i = B
  before : ∀ x ∈ A, x.stop ≤ s
  on : ∀ x ∈ front, s ≤ x.start ∧ x.stop ≤ e
  behind : ∀ x ∈ B, e < x.start
  opens : A = [] ∨ ∀ x ∈ front.head?, 0 < x.kind.breaks
  whole : ∀ x ∈ front.drop 1, x.kind.breaks = 0
  closed : ∀ x ∈ B.head?, 0 < x.kind.breaks

theorem StartsLine.stand {s : Nat} (h : StartsLine b s) :
    ∃ i, (argReader b .lenient).Reach 0 i ∧ i ≤ s ∧
      (∀ j, i ≤ j → j < s → ∃ c, b[j]? = some c ∧ isSpace c = true) ∧
      (i = 0 ∧ s = 0 ∨ ∃ k, i ≤ k ∧ k < s ∧ b[k]? = some lineFeed) := by
  rcases h with rfl | ⟨k, rfl, ⟨i, hi, hik, hblank⟩, hline⟩
  · exact ⟨0, .refl, Nat.le_refl 0, fun j _ h2 => absurd h2 (Nat.not_lt_zero j), .inl ⟨rfl, rfl⟩⟩
  · refine ⟨i, hi, by omega, fun j h1 h2 => ?_, .inr ⟨k, hik, Nat.lt_succ_self k, hline⟩⟩
    rcases Nat.lt_succ_iff_lt_or_eq.mp h2 with h2 | rfl
    · exact hblank j h1 h2
    · exact ⟨_, hline, by decide⟩

variable {s e : Nat}

theorem cutAt_of_isLine (h : IsLine b s e) :
    ∃ A front B, CutAt b s e A front B := by
  obtain ⟨i, hi, his, hblank, hbreak⟩ := h.starts.stand
  obtain ⟨j, hj, hje, hblank'⟩ := h.free
  have hse := h.le
  have hij : (argReader b .lenient).Reach i j := by
    rcases hi.linear hj with hij | hji
    · exact hij
    · rcases hji.cases_head with rfl | ⟨x, hx, hr⟩
      · exact .refl
      · -- an argument read at `j` is behind the line, which starts behind `i`
        have := le_start_of_blank hx hblank'
        have := (nextArgument_forward hx).2.1
        have := hr.le
        omega
  obtain ⟨A, hA, hAle⟩ := Reader.items_of_reach hi
  obtain ⟨front, hfront, hfrontle⟩ := Reader.items_of_reach hij
  have hstart : ∀ x ∈ (argReader b .lenient).items i, s ≤ x.start := by
    intro x hx
    obtain ⟨k, hk, hnext⟩ := Reader.mem_items.mp hx
    refine le_start_of_blank hnext fun l h1 h2 => hblank l ?_ h2
    have := hk.le
    omega
  have hbehind : ∀ x ∈ (argReader b .lenient).items j, e < x.start ∧
      b[e]? = some lineFeed := by
    intro x hx
    obtain ⟨k, hk, hnext⟩ := Reader.mem_items.mp hx
    have hle : e ≤ x.start := le_start_of_blank hnext fun l h1 h2 => hblank' l
      (by have := hk.le; omega) h2
    obtain ⟨-, -, -, hxs, -, hlen⟩ := argument_of_lenient hnext
    rcases h.ends with rfl | hline
    · omega
    · refine ⟨Nat.lt_of_le_of_ne hle ?_, hline⟩
      rintro rfl
      exact absurd (not_space_at (hxs ▸ hline)) (by decide)
  refine ⟨A, front, (argReader b .lenient).items j, by rw [hA, hfront],
    ⟨i, his, hblank, hfront⟩, ⟨j, hje, hblank', rfl⟩, fun x hx => ?_, fun x hx => ?_,
    fun x hx => (hbehind x hx).1, ?_, ?_, ?_⟩
  · have := (hAle x hx).2
    omega
  · have hx' : x ∈ (argReader b .lenient).items i := by rw [hfront]; simp [hx]
    have := (hfrontle x hx).2
    exact ⟨hstart x hx', by omega⟩
  · rcases hbreak with ⟨rfl, -⟩ | ⟨k, hik, hks, hline⟩
    · left
      refine eq_nil_iff_forall_not_mem.mpr fun x hx => ?_
      have hx' : x ∈ (argReader b .lenient).items 0 := by rw [hA]; simp [hx]
      have := (Reader.bounds_of_mem_items hx').2.1
      have := (hAle x hx).2
      omega
    · right
      intro x hx
      cases front with
      | nil => simp at hx
      | cons y front =>
        obtain rfl : y = x := by simpa using hx
        have hnext : nextArgument b .lenient i = some y :=
          (Reader.next_of_items (hfront.trans cons_append)).1
        obtain ⟨-, -, -, hys, hyb, -⟩ := argument_of_lenient hnext
        have := hstart y (by rw [hfront]; simp)
        rw [hyb]
        exact breaks_pos hik (by omega) hline
  · intro x hx
    cases front with
    | nil => simp at hx
    | cons y front =>
      rw [drop_one, tail_cons] at hx
      obtain ⟨hnext, hrest⟩ := Reader.next_of_items (hfront.trans cons_append)
      have hx' : x ∈ (argReader b .lenient).items y.stop := by
        rw [← hrest]; simp [hx]
      obtain ⟨l, hl, hnextx⟩ := Reader.mem_items.mp hx'
      obtain ⟨-, -, -, hxs, hxb, -⟩ := argument_of_lenient hnextx
      have hy := hstart y (by rw [hfront]; simp)
      have hyf := nextArgument_forward hnext
      have hlle := hl.le
      have hxe := (hfrontle x (by simp [hx])).2
      have hxf := nextArgument_forward hnextx
      have hreach : (argReader b .lenient).Reach 0 l :=
        (hi.step hnext).trans hl
      rw [hxb]
      refine count_breaks_eq_zero (k := x.start) (fun m h1 h2 => ?_) (Nat.le_of_eq hxs.symm)
      exact h.unbroken m (by omega) (by omega)
        ⟨l, hreach, h1, fun m' h3 h4 => space_of_blanks h3 (by omega)⟩
  · intro x hx
    cases hitems : (argReader b .lenient).items j with
    | nil => simp [hitems] at hx
    | cons y rest =>
      obtain rfl : y = x := by simpa [hitems] using hx
      have hnext : nextArgument b .lenient j = some y := (Reader.next_of_items hitems).1
      obtain ⟨hlt, hline⟩ := hbehind y (by rw [hitems]; simp)
      obtain ⟨-, -, -, hys, hyb, -⟩ := argument_of_lenient hnext
      rw [hyb]
      exact breaks_pos hje (by omega) hline

theorem exists_of_mem_toArgument {l : List (Item Read)} {a : Argument}
    (h : a ∈ l.filterMap toArgument?) : ∃ x ∈ l, x.start = a.start ∧ x.stop = a.stop := by
  obtain ⟨x, hx, ha⟩ := mem_filterMap.mp h
  refine ⟨x, hx, ?_⟩
  unfold toArgument? at ha
  split at ha
  · obtain rfl := Option.some.inj ha
    exact ⟨rfl, rfl⟩
  · simp at ha

theorem off_line {l : List (Item Read)} (h : ∀ x ∈ l, x.start < s ∨ e < x.stop) :
    ((l.foldl Grouping.read ⟨[], []⟩).finish.filter fun command =>
      command.all fun a => s ≤ a.start && a.stop ≤ e) = [] := by
  refine filter_eq_nil_iff.mpr fun command hcommand hall => ?_
  obtain ⟨hne, hmem⟩ := Grouping.mem_finish hcommand
  obtain ⟨a, ha⟩ := exists_mem_of_ne_nil command hne
  obtain ⟨x, hx, hstart, hstop⟩ := exists_of_mem_toArgument (hmem a ha)
  have hon := all_eq_true.mp hall a ha
  simp only [Bool.and_eq_true, decide_eq_true_eq] at hon
  have := h x hx
  omega

theorem commandsOn_line {text : Str} {A front B : List (Item Read)}
    (h : CutAt (bytes text) s e A front B) :
    commandsOn text (s, e) =
      if front.filterMap toArgument? = [] then [] else [front.filterMap toArgument?] := by
  have hok : ∀ x ∈ A ++ (front ++ B), ∃ v, x.kind.argument = .ok v := by
    intro x hx
    rw [← h.items] at hx
    obtain ⟨i, -, hnext⟩ := Reader.mem_items.mp hx
    obtain ⟨v, hv, -⟩ := argument_of_lenient hnext
    exact ⟨v, hv⟩
  have hforward : ∀ x ∈ A ++ (front ++ B), x.start < x.stop := by
    intro x hx
    rw [← h.items] at hx
    exact (Reader.bounds_of_mem_items hx).2.1
  have hrest : ((front ++ B).foldl Grouping.read ⟨[], []⟩).finish =
      (Grouping.mk [] (front.filterMap toArgument?)).finish ++
        (B.foldl Grouping.read ⟨[], []⟩).finish := by
    rw [foldl_append, Grouping.foldl_of_one_line h.whole]
    exact Grouping.finish_cut (fun x hx => hok x (by simp [hx])) (.inr h.closed)
  have hcommands : argvCommands text = (A.foldl Grouping.read ⟨[], []⟩).finish ++
      ((front ++ B).foldl Grouping.read ⟨[], []⟩).finish := by
    rw [argvCommands, h.items, foldl_append]
    refine Grouping.finish_cut (fun x hx => hok x (mem_append_right A hx)) ?_
    rcases h.opens with rfl | hopens
    · exact .inl rfl
    · right
      cases front with
      | nil => exact h.closed
      | cons y front => exact hopens
  rw [commandsOn, hcommands, hrest, filter_append, filter_append, off_line, off_line,
    nil_append, append_nil, Grouping.finish]
  · split
    · rfl
    · refine filter_eq_self.mpr fun command hcommand => ?_
      obtain rfl := mem_singleton.mp hcommand
      refine all_eq_true.mpr fun a ha => ?_
      obtain ⟨x, hx, hstart, hstop⟩ := exists_of_mem_toArgument ha
      have := h.on x hx
      simp only [Bool.and_eq_true, decide_eq_true_eq]
      omega
  · intro x hx
    have := h.behind x hx
    have := hforward x (by simp [hx])
    omega
  · intro x hx
    have := h.before x hx
    have := hforward x (by simp [hx])
    omega

end OnLine

end Oxyn
