/-
# `Oxyn.Redis.Trim` — the command under the cursor, as it is written

The console trims the cursor's line with `str::trim` and hands what is left to `parse`; the
redactor and the history read the line where it stands.
-/
import Oxyn.Redis.Alone

namespace Oxyn

open Text Walk Argv List

namespace Argv

/-! ## What is read where the line was trimmed -/

/-- The bytes of some arguments, and one for each of them. -/
def weight (l : List (List UInt8)) : Nat := (l.map fun v => v.length + 1).sum

@[simp] theorem weight_nil : weight [] = 0 := rfl

@[simp] theorem weight_cons (v : List UInt8) (l : List (List UInt8)) :
    weight (v :: l) = v.length + 1 + weight l := by
  simp [weight]

@[simp] theorem weight_append (l m : List (List UInt8)) :
    weight (l ++ m) = weight l + weight m := by
  simp [weight]

section Trimmed

variable {b : List UInt8} {p n : Nat}

theorem not_endsBare_of_not_space {c : UInt8} (h : isSpace c = false) : endsBare c = false := by
  rw [Bool.eq_false_iff]
  intro hend
  rw [isSpace_of_endsBare hend] at h
  simp at h

/-- A stretch without quotes takes nothing from what is read behind it, and adds to it where it
holds more than blanks. -/
theorem weight_of_stretch {m K : Nat} (hm : m ≤ 1)
    (hfree : ∀ k, p ≤ k → k < p + n → ∃ c, b[k]? = some c ∧ isQuote c = false)
    (hvalues : K ≤ weight (values b (p + n)))
    (hpending : ∀ w : List UInt8, w.length + m + K ≤ weight (pending b (p + n) w)) :
    K ≤ weight (values b p) ∧ (∀ w : List UInt8, w.length + m + K ≤ weight (pending b p w)) ∧
      ((∃ k c, p ≤ k ∧ k < p + n ∧ b[k]? = some c ∧ isSpace c = false) →
        K < weight (values b p)) := by
  induction n generalizing p with
  | zero => exact ⟨hvalues, hpending, fun ⟨k, c, h1, h2, _⟩ => by omega⟩
  | succ n ih =>
    rw [show p + (n + 1) = p + 1 + n by omega] at hvalues hpending
    obtain ⟨c, hc, hquote⟩ := hfree p (Nat.le_refl p) (by omega)
    obtain ⟨ihv, ihp, ihlt⟩ := ih (fun k h1 h2 => hfree k (by omega) (by omega)) hvalues hpending
    have hbare (hend : endsBare c = false) (w : List UInt8) :
        w.length + 1 + m + K ≤ weight (pending b p w) := by
      rw [pending_of_bare hc hend hquote]
      have := ihp (w ++ [c])
      rw [length_append, length_singleton] at this
      omega
    have hv : K ≤ weight (values b p) := by
      by_cases hs : isSpace c = true
      · rw [values_of_space hc hs]
        exact ihv
      · rw [Bool.not_eq_true] at hs
        rw [values_of_not_space hc hs]
        have := hbare (not_endsBare_of_not_space hs) []
        omega
    refine ⟨hv, fun w => ?_, ?_⟩
    · by_cases hend : endsBare c = true
      · have hat : ∀ d, b[p]? = some d → endsBare d = true := by
          intro d hd
          rw [hc] at hd
          rwa [← Option.some.inj hd]
        rw [pending_of_ends hat, weight_cons]
        omega
      · have := hbare (by simpa using hend) w
        omega
    · rintro ⟨k, d, h1, h2, hd, hspace⟩
      by_cases hs : isSpace c = true
      · rw [values_of_space hc hs]
        refine ihlt ⟨k, d, ?_, by omega, hd, hspace⟩
        refine Nat.lt_of_le_of_ne h1 ?_
        rintro rfl
        rw [hc] at hd
        rw [← Option.some.inj hd, hs] at hspace
        simp at hspace
      · rw [Bool.not_eq_true] at hs
        rw [values_of_not_space hc hs]
        have := hbare (not_endsBare_of_not_space hs) []
        simp only [length_nil] at this
        omega

/-- What was trimmed off is blanks, the first of which ends the command. -/
def Clean (lead cb trail : List UInt8) : Prop :=
  (∀ c ∈ lead ++ trail, isSpace c = true) ∧
    ((∃ q ∈ cb.getLast?, isQuote q = true) ∨ ∀ d ∈ trail.head?, endsBare d = true)

/-- A line cut in what was trimmed off in front, the command, and what was trimmed off
behind it. -/
structure TrimmedAt (b : List UInt8) (s e : Nat) (lead cb trail : List UInt8) : Prop where
  cut : b.drop s = lead ++ (cb ++ (trail ++ b.drop e))
  stop : e = s + lead.length + cb.length + trail.length
  front : ∀ c ∈ lead, isQuote c = false
  back : ∀ c ∈ trail, isQuote c = false
  first : ∀ c ∈ cb.head?, isSpace c = false
  last : ∀ c ∈ cb.getLast?, isSpace c = false
  ends : ∀ c, b[e]? = some c → endsBare c = true

theorem getElem?_of_cut {l rest : List UInt8} (h : b.drop p = l ++ rest) {k : Nat} (h1 : p ≤ k)
    (h2 : k < p + l.length) : ∃ c ∈ l, b[k]? = some c := by
  have hlt : k - p < l.length := by omega
  refine ⟨l[k - p], getElem_mem hlt, ?_⟩
  have happend : (l ++ rest)[k - p]? = l[k - p]? := getElem?_append_left hlt
  rw [← getElem?_eq_getElem hlt, ← happend, ← h, getElem?_drop, Nat.add_sub_cancel' h1]

variable {s e : Nat} {lead cb trail : List UInt8}

theorem TrimmedAt.cut_back (h : TrimmedAt b s e lead cb trail) :
    b.drop (s + lead.length + cb.length) = trail ++ b.drop e := by
  rw [← drop_drop, ← drop_drop, h.cut, drop_left' rfl, drop_left' rfl]

/-- From the command on, more is read than behind the line wherever the line goes on
with more than blanks. -/
theorem TrimmedAt.weight_back (h : TrimmedAt b s e lead cb trail) (last : List UInt8) :
    weight (values b e) ≤ weight (values b (s + lead.length + cb.length)) ∧
      last.length + 1 + weight (values b e) ≤
        weight (pending b (s + lead.length + cb.length) last) ∧
      ((∃ c ∈ trail, isSpace c = false) →
        weight (values b e) < weight (values b (s + lead.length + cb.length))) ∧
      ((∃ d ∈ trail.head?, endsBare d = false) → last.length + 1 + weight (values b e) <
        weight (pending b (s + lead.length + cb.length) last)) := by
  have hcut := h.cut_back
  have hstop := h.stop
  generalize s + lead.length + cb.length = p at hcut hstop ⊢
  subst hstop
  have hfree : ∀ k, p ≤ k → k < p + trail.length → ∃ c, b[k]? = some c ∧ isQuote c = false := by
    intro k h1 h2
    obtain ⟨c, hc, hget⟩ := getElem?_of_cut hcut h1 h2
    exact ⟨c, hget, h.back c hc⟩
  have hpending (w : List UInt8) : w.length + 1 + weight (values b (p + trail.length)) ≤
      weight (pending b (p + trail.length) w) := by
    rw [pending_of_ends h.ends, weight_cons]
  obtain ⟨hv, hp, hlt⟩ := weight_of_stretch (Nat.le_refl 1) hfree (Nat.le_refl _) hpending
  refine ⟨hv, hp last, ?_, ?_⟩
  · rintro ⟨c, hc, hs⟩
    obtain ⟨m, hm, rfl⟩ := mem_iff_getElem.mp hc
    refine hlt ⟨p + m, trail[m], Nat.le_add_right p m, by omega, ?_, hs⟩
    rw [← getElem?_drop, hcut, getElem?_append_left hm, getElem?_eq_getElem hm]
  · rintro ⟨d, hd, hend⟩
    cases trail with
    | nil => simp at hd
    | cons c trail =>
      obtain rfl : c = d := by simpa using hd
      have hc : b[p]? = some c := by
        rw [← Nat.add_zero p, ← getElem?_drop, hcut]
        rfl
      rw [length_cons, show p + (trail.length + 1) = p + 1 + trail.length by omega]
        at hfree hpending ⊢
      obtain ⟨-, hp, -⟩ := weight_of_stretch (Nat.le_refl 1)
        (fun k h1 h2 => hfree k (by omega) h2) (Nat.le_refl _) hpending
      rw [pending_of_bare hc hend (h.back c (by simp))]
      have := hp (last ++ [c])
      rw [length_append, length_singleton] at this
      omega

/-- Behind the command at least its last argument and what follows the line is read; more, if what
was trimmed off is not clean. -/
theorem TrimmedAt.behind (h : TrimmedAt b s e lead cb trail) {last : List UInt8}
    {r : List (List UInt8)}
    (hr : Behind b cb (trail ++ b.drop e) last (s + lead.length + cb.length) r) :
    last.length + 1 + weight (values b e) ≤ weight r ∧
      (Clean [] cb trail → r = last :: values b e) ∧
      (¬ Clean [] cb trail → last.length + 1 + weight (values b e) < weight r) := by
  obtain ⟨hv, hp, hvlt, hplt⟩ := h.weight_back last
  have hclean (hc : Clean [] cb trail) :
      values b (s + lead.length + cb.length) = values b e := by
    rw [h.stop]
    refine values_of_spaces fun k h1 h2 => ?_
    obtain ⟨c, hmem, hget⟩ := getElem?_of_cut h.cut_back h1 h2
    exact ⟨c, hget, hc.1 c (by simpa using hmem)⟩
  have hsome (hnot : ¬ ∀ c ∈ [] ++ trail, isSpace c = true) : ∃ c ∈ trail, isSpace c = false := by
    push Not at hnot
    obtain ⟨c, hc, hs⟩ := hnot
    exact ⟨c, by simpa using hc, by simpa using hs⟩
  cases hr with
  | closed hq ht =>
    refine ⟨by rw [weight_cons]; omega, fun hc => by rw [hclean hc], fun hnot => ?_⟩
    have := hvlt (hsome fun hall => hnot ⟨hall, .inl hq⟩)
    rw [weight_cons]
    omega
  | glued hd =>
    obtain ⟨d, hd, hs⟩ := hd
    have hd' : d ∈ trail.head? := by
      cases trail with
      | cons c trail => exact hd
      | nil =>
        rw [nil_append, head?_drop] at hd
        have := isSpace_of_endsBare (h.ends d hd)
        rw [hs] at this
        simp at this
    refine ⟨hp, fun hc => ?_, fun _ => hplt ⟨d, hd', not_endsBare_of_not_space hs⟩⟩
    have := hc.1 d (by simpa using mem_of_mem_head? hd')
    rw [hs] at this
    simp at this
  | bare hq =>
    by_cases hhead : ∀ d ∈ trail.head?, endsBare d = true
    · have hends : ∀ c, b[s + lead.length + cb.length]? = some c → endsBare c = true := by
        intro c hc
        rw [← head?_drop, h.cut_back] at hc
        cases trail with
        | cons d trail => exact hhead c hc
        | nil =>
          rw [nil_append, head?_drop] at hc
          exact h.ends c hc
      rw [pending_of_ends hends, weight_cons]
      refine ⟨by omega, fun hc => by rw [hclean hc], fun hnot => ?_⟩
      have := hvlt (hsome fun hall => hnot ⟨hall, .inr hhead⟩)
      omega
    · refine ⟨hp, fun hc => absurd (hc.2.resolve_left ?_) hhead, fun _ => hplt ?_⟩
      · rintro ⟨q, hmem, hquote⟩
        rw [hq q hmem] at hquote
        simp at hquote
      · push Not at hhead
        obtain ⟨d, hd, hend⟩ := hhead
        exact ⟨d, hd, by simpa using hend⟩

theorem TrimmedAt.cut_front (h : TrimmedAt b s e lead cb trail) :
    b.drop (s + lead.length) = cb ++ (trail ++ b.drop e) := by
  rw [← drop_drop, h.cut, drop_left' rfl]

theorem TrimmedAt.command (h : TrimmedAt b s e lead cb trail) {v : List (List UInt8)}
    (hv : parseArguments ((argReader cb .strict).items 0) [] 1 = .ok v) (w : List UInt8) :
    ∃ u us init last r, v = u :: us ∧ (w ++ u) :: us = init ++ [last] ∧
      pending b (s + lead.length) w = init ++ r ∧
      Behind b cb (trail ++ b.drop e) last (s + lead.length + cb.length) r := by
  obtain ⟨hlenient, rfl, hne, -⟩ := parseArguments_ok (Nat.le_refl 1) hv
  rw [nil_append] at hne ⊢
  cases hitems : (argReader cb .strict).items 0 with
  | nil => simp [hitems] at hne
  | cons x xs =>
    have hok : ∀ y ∈ x :: xs, ∃ v, y.kind.argument = .ok v := by
      intro y hy
      rw [← hitems, ← hlenient] at hy
      obtain ⟨i, -, hnext⟩ := Reader.mem_items.mp hy
      obtain ⟨v, hv, -⟩ := argument_of_lenient hnext
      exact ⟨v, hv⟩
    obtain ⟨hnext, -⟩ := Reader.next_of_items hitems
    obtain ⟨v, hv⟩ := hok x (by simp)
    obtain ⟨-, hlt, hle⟩ := nextArgument_forward hnext
    have hstart : x.start = 0 := by
      have hc : cb[0]? = some cb[0] := getElem?_eq_getElem (by omega)
      rw [(argument_of_strict hnext hv).2]
      exact skipBlanks_of_not_space hc (h.first _ (by rw [head?_eq_getElem?]; exact hc))
    have hp : b.drop (s + lead.length) = cb.drop x.start ++ (trail ++ b.drop e) := by
      rw [hstart, drop_zero, h.cut_front]
    have := pending_of_items hitems hok h.last hp w
    rwa [hstart, Nat.sub_zero] at this

/-- Read on its line, the command gives its arguments if what was trimmed off is clean,
and something else if not. -/
theorem TrimmedAt.line (h : TrimmedAt b s e lead cb trail) {v : List (List UInt8)}
    (hv : parseArguments ((argReader cb .strict).items 0) [] 1 = .ok v) :
    (Clean lead cb trail → values b s = v ++ values b e) ∧
      (¬ Clean lead cb trail → weight v + weight (values b e) < weight (values b s)) := by
  have hweight {u w last : List UInt8} {us init : List (List UInt8)}
      (hcut : (w ++ u) :: us = init ++ [last]) :
      weight init + last.length + 1 = w.length + weight (u :: us) := by
    have := congrArg weight hcut
    simp only [weight_cons, weight_append, weight_nil, length_append] at this ⊢
    omega
  have hbound (w : List UInt8) : w.length + 0 + (weight v + weight (values b e)) ≤
      weight (pending b (s + lead.length) w) := by
    obtain ⟨u, us, init, last, r, rfl, hcut, hpending, hbehind⟩ := h.command hv w
    have := (h.behind hbehind).1
    have := hweight hcut
    rw [hpending, weight_append]
    omega
  obtain ⟨u, us, init, last, r, hvu, hcut, hpending, hbehind⟩ := h.command hv []
  rw [nil_append, ← hvu] at hcut
  have hfirst : values b (s + lead.length) = pending b (s + lead.length) [] := by
    have hne : cb ≠ [] := by
      rintro rfl
      simp [parseArguments, Reader.items, Reader.itemsFrom, argReader] at hv
    obtain ⟨c, tail, rfl⟩ := exists_cons_of_ne_nil hne
    refine values_of_not_space (c := c) ?_ (h.first c rfl)
    rw [← Nat.add_zero (s + lead.length), ← getElem?_drop, h.cut_front]
    rfl
  have hfree : ∀ k, s ≤ k → k < s + lead.length → ∃ c, b[k]? = some c ∧ isQuote c = false := by
    intro k h1 h2
    obtain ⟨c, hc, hget⟩ := getElem?_of_cut h.cut h1 h2
    exact ⟨c, hget, h.front c hc⟩
  have hblank (hlead : ∀ c ∈ lead, isSpace c = true) :
      values b s = pending b (s + lead.length) [] := by
    rw [← hfirst]
    refine values_of_spaces fun k h1 h2 => ?_
    obtain ⟨c, hc, hget⟩ := getElem?_of_cut h.cut h1 h2
    exact ⟨c, hget, hlead c hc⟩
  obtain ⟨-, hclean, hmore⟩ := h.behind hbehind
  constructor
  · rintro ⟨hall, hend⟩
    rw [hblank fun c hc => hall c (by simp [hc]), hpending, hcut,
      hclean ⟨fun c hc => hall c (by simp at hc; simp [hc]), hend⟩, append_assoc]
    rfl
  · intro hnot
    by_cases hlead : ∀ c ∈ lead, isSpace c = true
    · have := hmore fun hc => hnot ⟨fun c hmem => ?_, hc.2⟩
      · rw [hblank hlead, hpending, hcut]
        simp only [weight_append, weight_cons, weight_nil]
        omega
      · rcases mem_append.mp hmem with hmem | hmem
        · exact hlead c hmem
        · exact hc.1 c (by simpa using hmem)
    · push Not at hlead
      obtain ⟨c, hc, hs⟩ := hlead
      obtain ⟨m, hm, rfl⟩ := mem_iff_getElem.mp hc
      refine (weight_of_stretch (Nat.zero_le 1) hfree ?_ hbound).2.2
        ⟨s + m, lead[m], Nat.le_add_right s m, by omega, ?_, by simpa using hs⟩
      · rw [hfirst]
        simpa using hbound []
      · rw [← getElem?_drop, h.cut, getElem?_append_left hm,
          getElem?_eq_getElem hm]

end Trimmed

/-! ## Characters and the lexer's bytes -/

variable {x : UInt8}

theorem isSpace_iff :
    isSpace x = true ↔ x.toNat = 0x20 ∨ (0x09 ≤ x.toNat ∧ x.toNat ≤ 0x0d) := by
  simp only [isSpace, Bool.or_eq_true, beq_iff_eq, ← UInt8.toNat_inj]
  show _ ∨ _ ↔ _
  simp only [UInt8.reduceToNat]
  omega

theorem isQuote_iff : isQuote x = true ↔ x.toNat = 0x22 ∨ x.toNat = 0x27 := by
  simp only [isQuote, Bool.or_eq_true, beq_iff_eq, ← UInt8.toNat_inj]
  exact Iff.rfl

theorem endsBare_iff :
    endsBare x = true ↔ isSpace x = true ∧ x.toNat ≠ 0x0b ∧ x.toNat ≠ 0x0c := by
  rw [isSpace_iff]
  simp only [endsBare, Bool.or_eq_true, beq_iff_eq, ← UInt8.toNat_inj, UInt8.reduceToNat]
  omega

def ByteOf (c : Char) (x : UInt8) : Prop :=
  x.toNat = c.toNat ∨ 0x80 ≤ x.toNat ∧ 0x80 ≤ c.toNat

variable {c : Char}

theorem byteOf_of_mem (h : x ∈ String.utf8EncodeChar c) : ByteOf c x := by
  by_cases hc : c.toNat < 0x80
  · rw [utf8EncodeChar_ascii hc] at h
    left
    rw [mem_singleton.mp h, UInt8.toNat_ofNat']
    omega
  · exact .inr ⟨(ascii_or_high c).resolve_left hc x h, by omega⟩

theorem isWhitespace_iff_of_ascii (hc : c.toNat < 0x80) :
    isWhitespace c = true ↔ c.toNat = 0x20 ∨ (0x09 ≤ c.toNat ∧ c.toNat ≤ 0x0d) := by
  simp only [isWhitespace, Bool.or_eq_true, Bool.and_eq_true, beq_iff_eq, decide_eq_true_eq]
  omega

theorem ByteOf.whitespace (h : ByteOf c x) (hx : isSpace x = true) :
    isWhitespace c = true := by
  rw [isSpace_iff] at hx
  rcases h with h | ⟨h, -⟩
  · exact (isWhitespace_iff_of_ascii (by omega)).mpr (by omega)
  · omega

theorem ByteOf.of_whitespace (h : ByteOf c x) (hc : isWhitespace c = true) :
    isQuote x = false ∧ (isSpace x = true ↔ c.toNat < 0x80) := by
  rw [← Bool.not_eq_true, isQuote_iff, isSpace_iff]
  rcases h with h | ⟨h1, h2⟩
  · by_cases hlt : c.toNat < 0x80
    · have := (isWhitespace_iff_of_ascii hlt).mp hc
      omega
    · omega
  · omega

theorem head?_bytes {s : Str} (h : s.head? = some c) :
    ∃ x, (bytes s).head? = some x ∧ ByteOf c x := by
  cases s with
  | nil => simp at h
  | cons d s =>
    obtain rfl := Option.some.inj h
    obtain ⟨x, l, henc⟩ := exists_cons_of_ne_nil (String.utf8EncodeChar_ne_nil (c := d))
    exact ⟨x, by simp [henc], byteOf_of_mem (by simp [henc])⟩

theorem getLast?_bytes {s : Str} (h : s.getLast? = some c) :
    ∃ x, (bytes s).getLast? = some x ∧ ByteOf c x := by
  obtain ⟨s, rfl⟩ := getLast?_eq_some_iff.mp h
  have henc := String.utf8EncodeChar_ne_nil (c := c)
  refine ⟨(String.utf8EncodeChar c).getLast henc, ?_, byteOf_of_mem (getLast_mem henc)⟩
  rw [bytes_append, show bytes [c] = String.utf8EncodeChar c by simp,
    getLast?_append_of_ne_nil _ henc, getLast?_eq_getLast_of_ne_nil henc]

theorem exists_head?_bytes {s : Str} (h : x ∈ (bytes s).head?) :
    ∃ c ∈ s.head?, ByteOf c x := by
  cases hc : s.head? with
  | none =>
    rw [head?_eq_none_iff] at hc
    simp [hc] at h
  | some c =>
    obtain ⟨y, hy, hof⟩ := head?_bytes hc
    obtain rfl := Option.some.inj (hy.symm.trans h)
    exact ⟨c, rfl, hof⟩

theorem exists_getLast?_bytes {s : Str} (h : x ∈ (bytes s).getLast?) :
    ∃ c ∈ s.getLast?, ByteOf c x := by
  cases hc : s.getLast? with
  | none =>
    rw [getLast?_eq_none_iff] at hc
    simp [hc] at h
  | some c =>
    obtain ⟨y, hy, hof⟩ := getLast?_bytes hc
    obtain rfl := Option.some.inj (hy.symm.trans h)
    exact ⟨c, rfl, hof⟩

theorem ends_in_quote_iff {s : Str} : (∃ x ∈ (bytes s).getLast?, isQuote x = true) ↔
    ∃ c ∈ s.getLast?, c.toNat = 0x22 ∨ c.toNat = 0x27 := by
  constructor
  · rintro ⟨x, hx, hquote⟩
    obtain ⟨c, hc, hof⟩ := exists_getLast?_bytes hx
    rw [isQuote_iff] at hquote
    refine ⟨c, hc, ?_⟩
    rcases hof with hof | ⟨hof, -⟩
    · omega
    · omega
  · rintro ⟨c, hc, hquote⟩
    obtain ⟨x, hx, hof⟩ := getLast?_bytes hc
    refine ⟨x, hx, isQuote_iff.mpr ?_⟩
    rcases hof with hof | ⟨-, hof⟩
    · omega
    · omega

theorem starts_ending_iff {s : Str} (h : ∀ x ∈ bytes s, isSpace x = true) :
    (∀ x ∈ (bytes s).head?, endsBare x = true) ↔
      ∀ c ∈ s.head?, c.toNat ≠ 0x0b ∧ c.toNat ≠ 0x0c := by
  constructor
  · intro hends c hc
    obtain ⟨x, hx, hof⟩ := head?_bytes hc
    have := endsBare_iff.mp (hends x hx)
    rcases hof with hof | ⟨-, hof⟩
    · omega
    · omega
  · intro hne x hx
    obtain ⟨c, hc, hof⟩ := exists_head?_bytes hx
    have hspace := h x (mem_of_mem_head? hx)
    have := hne c hc
    refine endsBare_iff.mpr ⟨hspace, ?_⟩
    rw [isSpace_iff] at hspace
    rcases hof with hof | ⟨hof, -⟩
    · omega
    · omega

end Argv

/-! ## The line and its command -/

theorem currentCommand_eq_some {text c : Str} {cursor : Nat}
    (h : currentCommand text cursor = .ok (some c)) :
    ∃ start stop line, lineUnder text cursor = .ok (some (start, stop)) ∧
      get? text start stop = some line ∧ c = trim line ∧ c ≠ [] := by
  unfold currentCommand at h
  cases hline : lineUnder text cursor with
  | error e => simp [hline, Except.map] at h
  | ok span =>
    cases span with
    | none => simp [hline, Except.map] at h
    | some span =>
      obtain ⟨start, stop⟩ := span
      simp only [hline, Except.map, Option.bind_some, Except.ok.injEq] at h
      split at h
      · simp at h
      next hne =>
        obtain rfl := Option.some.inj h
        rw [List.isEmpty_iff] at hne
        cases hget : get? text start stop with
        | none => simp [hget, trim, trimStart, trimEnd] at hne
        | some line =>
          rw [hget, Option.getD_some] at hne
          exact ⟨start, stop, line, rfl, hget, rfl, hne⟩

theorem mem_of_spanUnder {cursor : Nat} {span : Nat × Nat} {spans : List (Nat × Nat)}
    (h : spanUnder cursor spans = some span) : span ∈ spans := by
  induction spans with
  | nil => simp [spanUnder] at h
  | cons s spans ih =>
    obtain ⟨start, stop⟩ := s
    rw [spanUnder] at h
    split at h
    · obtain rfl := Option.some.inj h
      simp
    · split at h
      · simp at h
      · exact mem_cons_of_mem _ (ih h)

theorem isLine_of_lineUnder {text : Str} {cursor start stop : Nat}
    (h : lineUnder text cursor = .ok (some (start, stop))) : IsLine (bytes text) start stop := by
  unfold lineUnder at h
  split at h
  · simp at h
  · cases hspans : commandSpans text cursor with
    | error e => simp [hspans, Except.map] at h
    | ok spans =>
      simp only [hspans, Except.map, Except.ok.injEq] at h
      exact isLine_of_mem_commandSpans hspans (start, stop) (mem_of_spanUnder h)

theorem values_of_line {b : List UInt8} {s e : Nat} {A front B : List (Item Read)}
    (h : CutAt b s e A front B) :
    values b s = (front.filterMap toArgument?).map (·.bytes) ++ values b e := by
  obtain ⟨i, his, hblank, hitems⟩ := h.enters
  obtain ⟨j, hje, hblank', hitems'⟩ := h.leaves
  have hs : values b i = values b s := by
    rw [values_of_spaces (n := s - i) fun k h1 h2 => hblank k h1 (by omega),
      Nat.add_sub_cancel' his]
  have he : values b j = values b e := by
    rw [values_of_spaces (n := e - j) fun k h1 h2 => hblank' k h1 (by omega),
      Nat.add_sub_cancel' hje]
  rw [← hs, ← he, values, values, hitems, hitems', filterMap_append, map_append]

theorem trimmedAt_of_get? {text line : Str} {start stop : Nat}
    (hline : IsLine (bytes text) start stop) (hget : get? text start stop = some line) :
    TrimmedAt (bytes text) start stop (bytes (leading line)) (bytes (trim line))
      (bytes (trailing line)) := by
  obtain ⟨u, w, rfl, rfl, rfl⟩ := get?_eq_some.mp hget
  have hcut := leading_trim_trailing line
  have hquote {t : Str} (ht : ∀ c ∈ t, isWhitespace c = true) :
      ∀ x ∈ bytes t, isQuote x = false := by
    intro x hx
    obtain ⟨c, hc, hmem⟩ := mem_flatMap.mp hx
    exact ((byteOf_of_mem hmem).of_whitespace (ht c hc)).1
  refine ⟨?_, ?_, hquote fun c => isWhitespace_of_mem_leading,
    hquote fun c => isWhitespace_of_mem_trailing, ?_, ?_, ?_⟩
  · rw [← size_append, drop_bytes_size_append, append_assoc, drop_bytes_size_append,
      bytes_append]
    conv_lhs => rw [hcut]
    simp
  · have := congrArg size hcut
    simp only [size_append] at this
    simp only [length_bytes]
    omega
  · intro x hx
    obtain ⟨c, hc, hof⟩ := exists_head?_bytes hx
    refine Bool.eq_false_iff.mpr fun hspace => ?_
    have := hof.whitespace hspace
    rw [head?_trim c hc] at this
    simp at this
  · intro x hx
    obtain ⟨c, hc, hof⟩ := exists_getLast?_bytes hx
    refine Bool.eq_false_iff.mpr fun hspace => ?_
    have := hof.whitespace hspace
    rw [getLast?_trim c hc] at this
    simp at this
  · intro c hc
    rcases hline.ends with hend | hend
    · have := (List.getElem?_eq_some_iff.mp hc).1
      omega
    · obtain rfl := Option.some.inj (hc.symm.trans hend)
      decide

/-- What `str::trim` takes off a line is blank to the lexer, and ends the command. -/
structure TrimsBlanks (line : Str) : Prop where
  ascii : ∀ c ∈ leading line ++ trailing line, c.toNat < 0x80
  ended : (∃ q ∈ (trim line).getLast?, q.toNat = 0x22 ∨ q.toNat = 0x27) ∨
    ∀ c ∈ (trailing line).head?, c.toNat ≠ 0x0b ∧ c.toNat ≠ 0x0c

theorem clean_iff_trimsBlanks (line : Str) :
    Clean (bytes (leading line)) (bytes (trim line)) (bytes (trailing line)) ↔
      TrimsBlanks line := by
  have hwhite : ∀ c ∈ leading line ++ trailing line, isWhitespace c = true := by
    intro c hc
    rcases mem_append.mp hc with hc | hc
    · exact isWhitespace_of_mem_leading hc
    · exact isWhitespace_of_mem_trailing hc
  have hascii : (∀ x ∈ bytes (leading line) ++ bytes (trailing line), isSpace x = true) ↔
      ∀ c ∈ leading line ++ trailing line, c.toNat < 0x80 := by
    rw [← bytes_append]
    constructor
    · intro h c hc
      obtain ⟨x, hx⟩ := exists_mem_of_ne_nil _ (String.utf8EncodeChar_ne_nil (c := c))
      exact ((byteOf_of_mem hx).of_whitespace (hwhite c hc)).2.mp
        (h x (mem_flatMap.mpr ⟨c, hc, hx⟩))
    · intro h x hx
      obtain ⟨c, hc, hmem⟩ := mem_flatMap.mp hx
      exact ((byteOf_of_mem hmem).of_whitespace (hwhite c hc)).2.mpr (h c hc)
  constructor
  · rintro ⟨hall, hend⟩
    refine ⟨hascii.mp hall, hend.imp ends_in_quote_iff.mp ?_⟩
    exact (starts_ending_iff fun x hx => hall x (mem_append_right _ hx)).mp
  · rintro ⟨hlow, hend⟩
    have hall := hascii.mpr hlow
    refine ⟨hall, hend.imp ends_in_quote_iff.mpr ?_⟩
    exact (starts_ending_iff fun x hx => hall x (mem_append_right _ hx)).mpr

/-- The command under the cursor is the command written on its line, exactly when what
was trimmed off the line is blanks to the lexer. -/
theorem current_command_as_written {text c : Str} {cursor : Nat} {v : List (List UInt8)}
    (hcommand : currentCommand text cursor = .ok (some c)) (hparse : parseArgv c = .ok v) :
    ∃ start stop line, lineUnder text cursor = .ok (some (start, stop)) ∧
      get? text start stop = some line ∧ c = trim line ∧
      ((commandsOn text (start, stop)).map (·.map (·.bytes)) = [v] ↔ TrimsBlanks line) := by
  obtain ⟨start, stop, line, hunder, hget, rfl, hne⟩ := currentCommand_eq_some hcommand
  refine ⟨start, stop, line, hunder, hget, rfl, ?_⟩
  have hline := isLine_of_lineUnder hunder
  have htrimmed := trimmedAt_of_get? hline hget
  obtain ⟨A, front, B, hcut⟩ := cutAt_of_isLine hline
  have hvalues := values_of_line hcut
  have hargs : parseArguments ((argReader (bytes (trim line)) .strict).items 0) [] 1 = .ok v := by
    simp only [parseArgv] at hparse
    split at hparse
    · simp at hparse
    · exact hparse
  obtain ⟨hclean, hunclean⟩ := htrimmed.line hargs
  have hv : v ≠ [] := by
    obtain ⟨-, -, hne, -⟩ := parseArguments_ok (Nat.le_refl 1) hargs
    exact hne
  have hon : (commandsOn text (start, stop)).map (·.map (·.bytes)) = [v] ↔
      (front.filterMap toArgument?).map (·.bytes) = v := by
    rw [commandsOn_line hcut]
    split
    next hnil => simp [hnil, hv.symm]
    next => simp
  rw [hon, ← clean_iff_trimsBlanks]
  constructor
  · intro heq
    by_contra hnot
    have := hunclean hnot
    rw [hvalues, heq, weight_append] at this
    omega
  · intro hc
    have := hclean hc
    rw [hvalues] at this
    exact append_cancel_right this

/-- `GET k`, on the first of two lines. -/
theorem current_command_of_get :
    ∃ start stop line, lineUnder "  GET k\nDEL k".toList 3 = .ok (some (start, stop)) ∧
      get? "  GET k\nDEL k".toList start stop = some line ∧ "GET k".toList = trim line ∧
      ((commandsOn "  GET k\nDEL k".toList (start, stop)).map (·.map (·.bytes)) =
        [[bytes "GET".toList, bytes "k".toList]] ↔ TrimsBlanks line) :=
  current_command_as_written rfl rfl

/-- A no-break space behind a key is trimmed off, and belongs to the key on its line. -/
theorem current_command_reads_another_key :
    currentCommand "GET k\u00a0".toList 0 = .ok (some "GET k".toList) ∧
      parseArgv "GET k".toList = .ok [bytes "GET".toList, bytes "k".toList] ∧
      lineUnder "GET k\u00a0".toList 0 = .ok (some (0, 7)) ∧
      ((commandsOn "GET k\u00a0".toList (0, 7)).map (·.map (·.bytes))) =
        [[bytes "GET".toList, bytes "k\u00a0".toList]] ∧
      bytes "k\u00a0".toList ≠ bytes "k".toList := by
  refine ⟨rfl, rfl, rfl, rfl, by decide⟩

end Oxyn
