/-
# `Oxyn.Redis.Alone` — a command read alone and in its text

An argument read strictly out of a command alone is read leniently in the text the command stands
in, unless it ends where the command does: there a closing quote with a blank behind it ends it,
and everything else goes on with it (`tokenFrom_append`).
-/
import Oxyn.Redis.Console

namespace Oxyn

open Text Walk Argv List

namespace Argv

/-! ## An argument with more text behind it -/

/-- The second state has read `w` before what the first one has read. -/
structure Ahead (w : List UInt8) (s s' : TokenState) : Prop where
  current : s'.current = w ++ s.current
  quote : s'.quote.map Prod.fst = s.quote.map Prod.fst

variable {s s' : TokenState}

theorem Ahead.push {w : List UInt8} (h : Ahead w s s') (c : UInt8) :
    Ahead w (s.push c) (s'.push c) :=
  ⟨by simp [TokenState.push, h.current], h.quote⟩

theorem Ahead.none {w : List UInt8} (h : Ahead w s s') (hq : s.quote = none) : s'.quote = none := by
  have := h.quote
  rw [hq] at this
  simpa using this

variable {k : Nat}

theorem Ahead.some {w : List UInt8} {o : UInt8}
    (h : Ahead w s s') (hq : s.quote = some (o, k)) : ∃ m, s'.quote = some (o, m) := by
  have := h.quote
  rw [hq] at this
  obtain ⟨⟨o', m⟩, hq', heq⟩ := Option.map_eq_some_iff.mp this
  obtain rfl : o' = o := heq
  exact ⟨m, hq'⟩

theorem tokenFrom_strict_open {l : List UInt8} {i j k : Nat} {o : UInt8}
    {v : List UInt8} (h : tokenFrom .strict l i s = .ok (v, j)) (hq : s.quote = some (o, k)) :
    l ≠ [] := by
  rintro rfl
  simp [tokenFrom_nil, tokenEnd, hq] at h

/-- What follows the text changes an escape only where the text ends inside it. -/
theorem escape_append (rest t : List UInt8) :
    escape (rest ++ t) = escape rest ∨ (rest.drop (escape rest).2).length < 2 ∧
      ∀ c ∈ rest.drop (escape rest).2, isHexDigit c = true := by
  match rest with
  | [] => exact .inr ⟨by simp, by simp⟩
  | [c] =>
    by_cases hc : c = 0x78
    · subst hc
      exact .inr ⟨by simp [escape], by simp [escape]⟩
    · left
      simp [escape, hc]
  | [c, d] =>
    by_cases hc : c = 0x78
    · subst hc
      by_cases hd : isHexDigit d = true
      · exact .inr ⟨by simp [escape], by simp [escape, hd]⟩
      · left
        cases t with
        | nil => rfl
        | cons e t => simp [escape, hd]
    · left
      simp [escape, hc]
  | c :: d :: e :: rest =>
    left
    by_cases hc : c = 0x78
    · subst hc
      simp [escape]
    · simp [escape, hc]

theorem tokenFrom_strict_digits {l : List UInt8} {i k : Nat}
    {r : List UInt8 × Nat} (hq : s.quote = some (Byte.doubleQuote, k)) (hl : l.length < 2)
    (hhex : ∀ c ∈ l, isHexDigit c = true) : tokenFrom .strict l i s ≠ .ok r := by
  intro h
  match l with
  | [] => exact tokenFrom_strict_open h hq rfl
  | [c] =>
    obtain ⟨h1, h2⟩ := hexDigit_plain (hhex c (by simp))
    have hgo : tokenTurn .strict i s c [] = .go 0 (s.push c) := by
      simp [tokenTurn, hq, h1, h2]
    rw [tokenFrom_go hgo] at h
    exact tokenFrom_strict_open h hq rfl

theorem tokenTurn_closes {c : UInt8} (i : Nat) {rest : List UInt8}
    (hq : s.quote = some (c, k)) (h : ∀ d ∈ rest.head?, isSpace d = true) :
    tokenTurn .lenient i s c rest = .stop (.ok (s.current, i + 1)) := by
  obtain ⟨h1, h2⟩ := closing_not_escape c rest
  have h3 : rest.head?.any (!isSpace ·) = false := by
    rw [← Bool.not_eq_true, Option.any_eq_true]
    rintro ⟨d, hd, hspace⟩
    rw [h d hd] at hspace
    simp at hspace
  simp only [tokenTurn, hq, h1, h2, h3, Bool.false_eq_true, if_false, BEq.rfl, if_true]

theorem tokenTurn_glues {c d : UInt8} (i : Nat) {rest : List UInt8}
    (hq : s.quote = some (c, k)) (hd : d ∈ rest.head?) (hspace : isSpace d = false) :
    tokenTurn .lenient i s c rest = .go 0 { s with quote := none } := by
  obtain ⟨h1, h2⟩ := closing_not_escape c rest
  have h3 : rest.head?.any (!isSpace ·) = true :=
    (Option.any_eq_true _ _).mpr ⟨d, hd, by simp [hspace]⟩
  simp only [tokenTurn, hq, h1, h2, h3, Bool.false_eq_true, if_false, BEq.rfl, if_true]

/-- How an argument read strictly out of `l` is read leniently with `t` behind it: the same, unless
it ends where `l` does and is not closed by a quote before a blank. -/
inductive Reads (l t w v : List UInt8) (i j i' : Nat) :
    Except ArgvError (List UInt8 × Nat) → Prop
  | inside : j < i + l.length → Reads l t w v i j i' (.ok (w ++ v, i' + (j - i)))
  | closed : j = i + l.length → (∃ q ∈ l.getLast?, isQuote q = true) →
      (∀ d ∈ t.head?, isSpace d = true) → Reads l t w v i j i' (.ok (w ++ v, i' + (j - i)))
  | glued : j = i + l.length → (∃ d ∈ t.head?, isSpace d = false) →
      Reads l t w v i j i' (tokenFrom .lenient t (i' + l.length) ⟨w ++ v, none⟩)
  | bare : j = i + l.length → (∀ q ∈ l.getLast?, isQuote q = false) →
      Reads l t w v i j i' (tokenFrom .lenient t (i' + l.length) ⟨w ++ v, none⟩)

/-- One turn further back.  What the turn steps over is not the end of the text, or is
one byte that is no quote. -/
theorem Reads.back {rest t w v : List UInt8} {c : UInt8} {i j i' n : Nat}
    {r : Except ArgvError (List UInt8 × Nat)} (hn : n ≤ rest.length) (hj : i + (n + 1) ≤ j)
    (hlast : rest.drop n ≠ [] ∨ n = 0 ∧ isQuote c = false)
    (h : Reads (rest.drop n) t w v (i + (n + 1)) j (i' + (n + 1)) r) :
    Reads (c :: rest) t w v i j i' r := by
  have hlen : (c :: rest).length = n + 1 + (rest.drop n).length := by
    simp only [length_cons, length_drop]
    omega
  have hstop : i' + (n + 1) + (j - (i + (n + 1))) = i' + (j - i) := by omega
  have hgetLast : rest.drop n ≠ [] → (c :: rest).getLast? = (rest.drop n).getLast? := by
    intro hne
    have hcut : c :: rest = (c :: rest.take n) ++ rest.drop n := by simp
    rw [hcut, getLast?_append_of_ne_nil _ hne]
  cases h with
  | inside h =>
    rw [hstop]
    exact .inside (by omega)
  | closed h hq ht =>
    rw [hstop]
    refine .closed (by omega) ?_ ht
    rcases hlast with hne | ⟨rfl, -⟩
    · rwa [hgetLast hne]
    · obtain ⟨q, hq, hquote⟩ := hq
      have hne : rest.drop 0 ≠ [] := by
        intro hnil
        simp [hnil] at hq
      rw [hgetLast hne]
      exact ⟨q, hq, hquote⟩
  | glued h hd =>
    rw [show i' + (n + 1) + (rest.drop n).length = i' + (c :: rest).length by omega]
    exact .glued (by omega) hd
  | bare h hq =>
    rw [show i' + (n + 1) + (rest.drop n).length = i' + (c :: rest).length by omega]
    refine .bare (by omega) ?_
    by_cases hne : rest.drop n = []
    · obtain ⟨rfl, hc⟩ := hlast.resolve_left (fun h => h hne)
      rw [drop_zero] at hne
      subst hne
      simpa using hc
    · rwa [hgetLast hne]

theorem tokenFrom_append {l t w v : List UInt8} {i j i' : Nat}
    (hs : Quoted s) (hahead : Ahead w s s') (h : tokenFrom .strict l i s = .ok (v, j)) :
    Reads l t w v i j i' (tokenFrom .lenient (l ++ t) i' s') := by
  induction l, i, s using walk_induction (tokenTurn .strict) generalizing i' s' with
  | hnil i s =>
    rw [tokenFrom_nil] at h
    cases hq : s.quote with
    | some q => simp [tokenEnd, hq] at h
    | none =>
      simp only [tokenEnd, hq, Except.ok.injEq, Prod.mk.injEq] at h
      obtain ⟨rfl, rfl⟩ := h
      have hs' : s' = ⟨w ++ s.current, none⟩ := by
        obtain ⟨current, quote⟩ := s'
        obtain rfl : current = w ++ s.current := hahead.current
        obtain rfl : quote = none := hahead.none hq
        rfl
      rw [hs']
      exact .bare rfl (by simp)
  | hstop c rest i s r ht =>
    rw [tokenFrom_stop ht] at h
    subst h
    have hstep := tokenStep .strict i s c rest
    rw [ht] at hstep
    cases hstep with
    | ends hq hc =>
      have hlenient : tokenTurn .lenient i' s' c (rest ++ t) = .stop (.ok (s'.current, i')) := by
        simp [tokenTurn, hahead.none hq, hc]
      rw [cons_append, tokenFrom_stop hlenient, hahead.current]
      have hreads : Reads (c :: rest) t w s.current j j i' _ := .inside (by simp)
      rwa [Nat.sub_self] at hreads
    | closes hq hrest =>
      obtain ⟨m, hq'⟩ := hahead.some hq
      cases rest with
      | cons d rest =>
        have hhead : ∀ e ∈ (d :: rest ++ t).head?, isSpace e = true := hrest
        rw [cons_append, tokenFrom_stop (tokenTurn_closes i' hq' hhead),
          hahead.current]
        have hreads : Reads (c :: d :: rest) t w s.current i (i + 1) i' _ :=
          .inside (by simp)
        rwa [Nat.add_sub_cancel_left] at hreads
      | nil =>
        rw [cons_append, nil_append]
        by_cases hspace : ∀ d ∈ t.head?, isSpace d = true
        · have hreads : Reads [c] t w s.current i (i + 1) i' _ :=
            .closed (by simp) ⟨c, by simp, hs c _ hq⟩ hspace
          rw [tokenFrom_stop (tokenTurn_closes i' hq' hspace), hahead.current]
          rwa [Nat.add_sub_cancel_left] at hreads
        · push Not at hspace
          obtain ⟨d, hd, hspace⟩ := hspace
          have hreads : Reads [c] t w s.current i (i + 1) i' _ :=
            .glued (by simp) ⟨d, hd, by simpa using hspace⟩
          rw [tokenFrom_go (tokenTurn_glues i' hq' hd (by simpa using hspace)),
            drop_zero, hahead.current]
          exact hreads
  | hgo c rest i s n s1 ht ih =>
    rw [tokenFrom_go ht] at h
    have hn := skip_le ht
    have hbounds := tokenFrom_bounds h
    -- what is left to show once the lenient reading has made the same turn
    have hnext (s1' : TokenState) (hahead' : Ahead w s1 s1')
        (hlast : rest.drop n ≠ [] ∨ n = 0 ∧ isQuote c = false)
        (hturn : tokenTurn .lenient i' s' c (rest ++ t) = .go n s1') :
        Reads (c :: rest) t w v i j i' (tokenFrom .lenient (c :: rest ++ t) i' s') := by
      rw [cons_append, tokenFrom_go hturn, drop_append_of_le_length hn]
      exact (ih (quoted_go hs ht) hahead' h).back hn hbounds.1 hlast
    have hopen {o : UInt8} {k : Nat} (hq : s1.quote = some (o, k)) : rest.drop n ≠ [] :=
      tokenFrom_strict_open h hq
    have hstep := tokenStep .strict i s c rest
    rw [ht] at hstep
    cases hstep with
    | opens hq hend hc =>
      refine hnext { s' with quote := some (c, i') } ⟨hahead.current, rfl⟩
        (.inl (hopen rfl)) ?_
      simp [tokenTurn, hahead.none hq, hend, hc]
    | bare hq hend hc =>
      refine hnext (s'.push c) (hahead.push c) (.inr ⟨rfl, hc⟩) ?_
      simp [tokenTurn, hahead.none hq, hend, hc]
    | escaped hq hc =>
      obtain ⟨m, hq'⟩ := hahead.some hq
      rcases escape_append rest t with hesc | ⟨hlen, hhex⟩
      · refine hnext _ (hahead.push _) (.inl (hopen hq)) ?_
        simp [tokenTurn, hq', hc, hesc]
      · exact absurd h (tokenFrom_strict_digits hq hlen hhex)
    | apostrophe hq hc hhead =>
      obtain ⟨m, hq'⟩ := hahead.some hq
      refine hnext _ (hahead.push _) (.inl (hopen hq)) ?_
      have hhead' : (rest ++ t).head? = some Byte.apostrophe := by
        rw [head?_append, hhead]
        rfl
      have hne : Byte.apostrophe ≠ Byte.doubleQuote := by decide
      simp [tokenTurn, hq', hc, hhead', hne]
    | glued hr => exact absurd hr (by simp)
    | inside hq hne h1 h2 =>
      obtain ⟨m, hq'⟩ := hahead.some hq
      have hrest : rest ≠ [] := by simpa using hopen hq
      have hhead : (rest ++ t).head? = rest.head? := by
        cases rest with
        | nil => exact absurd rfl hrest
        | cons d rest => rfl
      refine hnext _ (hahead.push c) (.inl (hopen hq)) ?_
      simp only [tokenTurn, hq', hhead]
      rw [if_neg (by simpa using h1), if_neg (by simpa [and_assoc] using h2),
        if_neg (by simpa using hne)]

/-! ## The arguments from a position on -/

section Values

variable (b : List UInt8)

/-- What the lenient reading decodes from `p` on. -/
def values (p : Nat) : List (List UInt8) :=
  (((argReader b .lenient).items p).filterMap toArgument?).map (·.bytes)

/-- What a reading gives whose rest is the argument read with where it ended. -/
def valuesOf : Except ArgvError (List UInt8 × Nat) → List (List UInt8)
  | .ok (v, j) => v :: values b j
  | .error _ => []

/-- The same inside a bare argument of which `w` is read. -/
def pending (p : Nat) (w : List UInt8) : List (List UInt8) :=
  valuesOf b (tokenFrom .lenient (b.drop p) p ⟨w, none⟩)

variable {b} {p : Nat} {c : UInt8} {w : List UInt8}

theorem values_of_argument {x : Item Read} (h : nextArgument b .lenient p = some x) :
    values b p = valuesOf b (token b x.start .lenient) := by
  obtain ⟨v, hv, htoken, -⟩ := argument_of_lenient h
  have hx : toArgument? x = some ⟨v, x.start, x.stop⟩ := by simp [toArgument?, hv]
  rw [values, Reader.items_of_some (r := argReader b .lenient) h, filterMap_cons_some hx,
    htoken]
  rfl

theorem skipBlanks_of_not_space (hc : b[p]? = some c) (hs : isSpace c = false) :
    (skipBlanks b p).1 = p := by
  obtain ⟨hlt, rfl⟩ := List.getElem?_eq_some_iff.mp hc
  simp only [skipBlanks, blanks, drop_eq_getElem_cons hlt]
  rw [takeWhile_cons_of_neg (by simp [hs])]
  rfl

theorem skipBlanks_of_space (hc : b[p]? = some c) (hs : isSpace c = true) :
    (skipBlanks b p).1 = (skipBlanks b (p + 1)).1 := by
  obtain ⟨hlt, rfl⟩ := List.getElem?_eq_some_iff.mp hc
  simp only [skipBlanks, blanks, drop_eq_getElem_cons hlt]
  rw [takeWhile_cons_of_pos hs, length_cons]
  omega

theorem values_of_not_space (hc : b[p]? = some c) (hs : isSpace c = false) :
    values b p = pending b p [] := by
  have hskip := skipBlanks_of_not_space hc hs
  cases hx : nextArgument b .lenient p with
  | none =>
    have := nextArgument_none.mp hx
    have := (List.getElem?_eq_some_iff.mp hc).1
    omega
  | some x =>
    obtain ⟨v, -, -, hstart, -⟩ := argument_of_lenient hx
    rw [values_of_argument hx, hstart, hskip]
    rfl

theorem values_of_space (hc : b[p]? = some c) (hs : isSpace c = true) :
    values b p = values b (p + 1) := by
  have hskip := skipBlanks_of_space hc hs
  cases hx : nextArgument b .lenient p with
  | none =>
    have hx' : nextArgument b .lenient (p + 1) = none := by
      rw [nextArgument_none, ← hskip]
      exact nextArgument_none.mp hx
    rw [values, values, Reader.items_of_none (r := argReader b .lenient) hx,
      Reader.items_of_none (r := argReader b .lenient) hx']
  | some x =>
    obtain ⟨-, -, -, hstart, -, hlt⟩ := argument_of_lenient hx
    cases hy : nextArgument b .lenient (p + 1) with
    | none =>
      have := nextArgument_none.mp hy
      omega
    | some y =>
      obtain ⟨-, -, -, hstart', -, -⟩ := argument_of_lenient hy
      rw [values_of_argument hx, values_of_argument hy, hstart, hstart', hskip]

theorem values_of_spaces {n : Nat}
    (h : ∀ k, p ≤ k → k < p + n → ∃ c, b[k]? = some c ∧ isSpace c = true) :
    values b p = values b (p + n) := by
  induction n generalizing p with
  | zero => rfl
  | succ n ih =>
    obtain ⟨c, hc, hs⟩ := h p (Nat.le_refl p) (by omega)
    rw [values_of_space hc hs, ih fun k h1 h2 => h k (by omega) (by omega)]
    exact congrArg (values b) (by omega)

theorem pending_of_ends (h : ∀ c, b[p]? = some c → endsBare c = true) :
    pending b p w = w :: values b p := by
  rcases Nat.lt_or_ge p b.length with hlt | hge
  · have hc := h b[p] (getElem?_eq_getElem hlt)
    have hturn : tokenTurn .lenient p ⟨w, none⟩ b[p] (b.drop (p + 1)) = .stop (.ok (w, p)) := by
      simp [tokenTurn, hc]
    rw [pending, drop_eq_getElem_cons hlt, tokenFrom_stop hturn]
    rfl
  · rw [pending, drop_eq_nil_of_le hge]
    rfl

theorem pending_of_bare (hc : b[p]? = some c) (hend : endsBare c = false)
    (hquote : isQuote c = false) : pending b p w = pending b (p + 1) (w ++ [c]) := by
  obtain ⟨hlt, rfl⟩ := List.getElem?_eq_some_iff.mp hc
  have hturn : tokenTurn .lenient p ⟨w, none⟩ b[p] (b.drop (p + 1)) =
      .go 0 ⟨w ++ [b[p]], none⟩ := by
    simp [tokenTurn, hend, hquote, TokenState.push]
  rw [pending, drop_eq_getElem_cons hlt, tokenFrom_go hturn]
  rfl

end Values

/-! ## The arguments of a command in its text -/

section Command

variable (b cb t : List UInt8)

/-- What is read from the end of a command on, whose last argument is `last`: nothing more goes into
it behind a closing quote that a blank follows. -/
inductive Behind (last : List UInt8) (p : Nat) : List (List UInt8) → Prop
  | closed : (∃ q ∈ cb.getLast?, isQuote q = true) → (∀ d ∈ t.head?, isSpace d = true) →
      Behind last p (last :: values b p)
  | glued : (∃ d ∈ t.head?, isSpace d = false) → Behind last p (pending b p last)
  | bare : (∀ q ∈ cb.getLast?, isQuote q = false) → Behind last p (pending b p last)

variable {b cb t}

variable {x : Item Read}

theorem argument_of_strict {i : Nat} {v : List UInt8}
    (h : nextArgument cb .strict i = some x) (hv : x.kind.argument = .ok v) :
    token cb x.start .strict = .ok (v, x.stop) ∧ x.start = (skipBlanks cb i).1 := by
  simp only [nextArgument] at h
  split at h
  · split at h
    next w stop ht =>
      obtain rfl := Option.some.inj h
      obtain rfl := Except.ok.inj hv
      exact ⟨ht, rfl⟩
    next e ht =>
      obtain rfl := Option.some.inj h
      simp at hv
  · simp at h

theorem getElem?_of_drop_eq {p i m : Nat} (h : b.drop p = cb.drop i ++ t)
    (hm : i + m < cb.length) : b[p + m]? = cb[i + m]? := by
  rw [← getElem?_drop, h, getElem?_append_left (by simp; omega), getElem?_drop]

theorem start_of_rest {i : Nat} (hlast : ∀ q ∈ cb.getLast?, isSpace q = false)
    (hi : i < cb.length) : ∃ y, nextArgument cb .strict i = some y := by
  cases hy : nextArgument cb .strict i with
  | some y => exact ⟨y, rfl⟩
  | none =>
    have hend := nextArgument_none.mp hy
    obtain ⟨c, hc, hs⟩ := space_of_blanks (b := cb) (i := i) (k := cb.length - 1) (by omega)
      (by omega)
    rw [hlast c (by rw [getLast?_eq_getElem?]; exact hc)] at hs
    simp at hs

theorem pending_of_argument {i p : Nat} {u : List UInt8}
    (hx : nextArgument cb .strict i = some x) (hu : x.kind.argument = .ok u)
    (hp : b.drop p = cb.drop x.start ++ t) (w : List UInt8) :
    x.stop < cb.length ∧ pending b p w = (w ++ u) :: values b (p + (x.stop - x.start)) ∨
      x.stop = cb.length ∧ Behind b cb t (w ++ u) (p + (cb.length - x.start)) (pending b p w) := by
  obtain ⟨-, hlt, hle⟩ := nextArgument_forward hx
  have hlen : (cb.drop x.start).length = cb.length - x.start := length_drop
  have hgetLast : (cb.drop x.start).getLast? = cb.getLast? :=
    getLast?_drop.trans (if_neg (by omega))
  have hdrop : b.drop (p + (cb.length - x.start)) = t := by
    rw [← drop_drop, hp, drop_append_of_le_length (by omega),
      drop_eq_nil_of_le (by omega), nil_append]
  have hreads : Reads (cb.drop x.start) t w u x.start x.stop p
      (tokenFrom .lenient (cb.drop x.start ++ t) p ⟨w, none⟩) :=
    tokenFrom_append (s := ⟨[], none⟩) (by intro o k hq; simp at hq) ⟨by simp, rfl⟩
      (argument_of_strict hx hu).1
  have hpending : pending b p w = valuesOf b
      (tokenFrom .lenient (cb.drop x.start ++ t) p ⟨w, none⟩) := by
    rw [← hp]
    rfl
  rw [hpending]
  generalize tokenFrom .lenient (cb.drop x.start ++ t) p ⟨w, none⟩ = r at hreads
  cases hreads with
  | inside h => exact .inl ⟨by omega, rfl⟩
  | closed h hq ht =>
    rw [hgetLast] at hq
    refine .inr ⟨by omega, ?_⟩
    rw [show x.stop - x.start = cb.length - x.start by omega]
    exact .closed hq ht
  | glued h hd =>
    refine .inr ⟨by omega, ?_⟩
    rw [hlen]
    have hbehind : Behind b cb t (w ++ u) (p + (cb.length - x.start)) _ := .glued hd
    rwa [pending, hdrop] at hbehind
  | bare h hq =>
    rw [hgetLast] at hq
    refine .inr ⟨by omega, ?_⟩
    rw [hlen]
    have hbehind : Behind b cb t (w ++ u) (p + (cb.length - x.start)) _ := .bare hq
    rwa [pending, hdrop] at hbehind

theorem pending_of_items {xs : List (Item Read)} {i p : Nat}
    (hx : (argReader cb .strict).items i = x :: xs)
    (hok : ∀ y ∈ x :: xs, ∃ v, y.kind.argument = .ok v)
    (hlast : ∀ q ∈ cb.getLast?, isSpace q = false) (hp : b.drop p = cb.drop x.start ++ t)
    (w : List UInt8) :
    ∃ u us init last r, ((x :: xs).filterMap toArgument?).map (·.bytes) = u :: us ∧
      (w ++ u) :: us = init ++ [last] ∧ pending b p w = init ++ r ∧
      Behind b cb t last (p + (cb.length - x.start)) r := by
  induction xs generalizing x i p w with
  | nil =>
    obtain ⟨hnext, hrest⟩ := Reader.next_of_items hx
    obtain ⟨u, hu⟩ := hok x (by simp)
    refine ⟨u, [], [], w ++ u, _, by simp [toArgument?, hu], rfl, rfl, ?_⟩
    rcases pending_of_argument hnext hu hp w with ⟨hlt, -⟩ | ⟨-, hbehind⟩
    · -- something would be left to read
      obtain ⟨y, hy⟩ := start_of_rest hlast hlt
      rw [Reader.items_of_some (r := argReader cb .strict) hy] at hrest
      simp at hrest
    · exact hbehind
  | cons y ys ih =>
    obtain ⟨hnext, hrest⟩ := Reader.next_of_items hx
    obtain ⟨u, hu⟩ := hok x (by simp)
    obtain ⟨hnexty, -⟩ := Reader.next_of_items hrest.symm
    obtain ⟨-, hxlt, -⟩ := nextArgument_forward hnext
    have hylt : y.start < cb.length := by
      have := nextArgument_forward hnexty
      omega
    have hylex : x.stop ≤ y.start := (nextArgument_forward hnexty).1
    rcases pending_of_argument hnext hu hp w with ⟨hlt, hpending⟩ | ⟨hstop, -⟩
    swap
    · have := nextArgument_forward hnexty
      omega
    obtain ⟨v, hv⟩ := hok y (by simp)
    have hystart : y.start = (skipBlanks cb x.stop).1 := (argument_of_strict hnexty hv).2
    obtain ⟨c, hc⟩ : ∃ c, cb[y.start]? = some c := ⟨_, getElem?_eq_getElem hylt⟩
    have hspace : isSpace c = false := not_space_at (hystart ▸ hc)
    have hget (m : Nat) (hm : x.start + m < cb.length) : b[p + m]? = cb[x.start + m]? :=
      getElem?_of_drop_eq hp hm
    have hvalues : values b (p + (x.stop - x.start)) =
        pending b (p + (y.start - x.start)) [] := by
      rw [values_of_spaces (n := y.start - x.stop) fun k h1 h2 => ?_,
        show p + (x.stop - x.start) + (y.start - x.stop) = p + (y.start - x.start) by omega,
        values_of_not_space (c := c) ?_ hspace]
      · rw [hget _ (by omega), ← hc]
        congr 1
        omega
      · obtain ⟨d, hd, hsd⟩ := space_of_blanks (b := cb) (i := x.stop)
          (k := x.start + (k - p)) (by omega) (by omega)
        refine ⟨d, ?_, hsd⟩
        rw [← hd, ← hget (k - p) (by omega)]
        congr 1
        omega
    obtain ⟨u', us, init, last, r, hvals, hcut, hpend, hbehind⟩ :=
      ih hrest.symm (fun z hz => hok z (by simp [hz])) (p := p + (y.start - x.start)) (by
        rw [← drop_drop, hp, drop_append_of_le_length (by simp; omega),
          drop_drop]
        congr 2
        omega) []
    refine ⟨u, u' :: us, (w ++ u) :: init, last, r, ?_, by simpa using hcut, ?_, ?_⟩
    · rw [filterMap_cons_some (b := ⟨u, x.start, x.stop⟩) (by simp [toArgument?, hu]),
        map_cons, hvals]
    · rw [hpending, hvalues, hpend, cons_append]
    · rwa [show p + (y.start - x.start) + (cb.length - y.start) =
        p + (cb.length - x.start) by omega] at hbehind

end Command

end Argv

end Oxyn
