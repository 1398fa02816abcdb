/-
# `Oxyn.Redis.Agreement` — the redactor reads the argv the driver sends

What a strict turn of `token` decides is what a lenient one decides, refusals apart, so an
argument read strictly is read leniently as the same, up to the same byte.
-/
import Oxyn.Redis.Argv
import Oxyn.Query.Boundary

namespace Oxyn

open Text Walk Argv List

namespace Argv

/-! ## Strict and lenient -/

theorem tokenTurn_lenient (i : Nat) (s : TokenState) (c : UInt8) (rest : List UInt8)
    (h : ∀ e, tokenTurn .strict i s c rest ≠ .stop (.error e)) :
    tokenTurn .lenient i s c rest = tokenTurn .strict i s c rest := by
  unfold tokenTurn at h ⊢
  split
  · rfl
  next opening _ hq =>
    rw [hq] at h
    simp only at h
    split
    · rfl
    next h1 =>
      split
      · rfl
      next h2 =>
        split
        next h3 =>
          split
          next h4 =>
            rw [if_neg h1, if_neg h2, if_pos h3, if_pos h4] at h
            exact absurd rfl (h _)
          · rfl
        · rfl

variable {i : Nat}

theorem tokenFrom_lenient {l : List UInt8} {s : TokenState} {r : List UInt8 × Nat}
    (h : tokenFrom .strict l i s = .ok r) : tokenFrom .lenient l i s = .ok r := by
  induction l, i, s using walk_induction (tokenTurn .strict) with
  | hnil i s =>
    rw [tokenFrom_nil] at h ⊢
    unfold tokenEnd at h ⊢
    cases hq : s.quote with
    | none => simpa [hq] using h
    | some q => simp [hq] at h
  | hstop c rest i s t ht =>
    rw [tokenFrom_stop ht] at h
    have hsame := tokenTurn_lenient i s c rest
      (fun e he => by rw [ht, h] at he; simp at he)
    exact tokenFrom_stop (by rw [hsame, ht, h])
  | hgo c rest i s n s' ht ih =>
    rw [tokenFrom_go ht] at h
    have hsame := tokenTurn_lenient i s c rest
      (fun e he => by rw [ht] at he; simp at he)
    rw [tokenFrom_go (hsame.trans ht)]
    exact ih h

theorem tokenFrom_lenient_ok (l : List UInt8) (i : Nat) (s : TokenState) :
    ∃ r, tokenFrom .lenient l i s = .ok r := by
  induction l, i, s using walk_induction (tokenTurn .lenient) with
  | hnil i s =>
    rw [tokenFrom_nil]
    unfold tokenEnd
    cases s.quote <;> exact ⟨_, rfl⟩
  | hstop c rest i s t ht =>
    rw [tokenFrom_stop ht]
    rcases tokenTurn_stop ht with ⟨-, -, hr⟩ | ⟨-, ⟨-, hr⟩ | ⟨hr, -⟩⟩
    · exact ⟨_, hr⟩
    · exact ⟨_, hr⟩
    · simp at hr
  | hgo c rest i s n s' ht ih =>
    rw [tokenFrom_go ht]
    exact ih

variable {b : List UInt8}

theorem argument_of_lenient {x : Item Read} (h : nextArgument b .lenient i = some x) :
    ∃ v, x.kind.argument = .ok v ∧ token b x.start .lenient = .ok (v, x.stop) ∧
      x.start = (skipBlanks b i).1 ∧ x.kind.breaks = (skipBlanks b i).2 ∧
      x.start < b.length := by
  simp only [nextArgument] at h
  split at h
  next hlt =>
    split at h
    next v stop ht =>
      obtain rfl := Option.some.inj h
      exact ⟨v, rfl, ht, rfl, rfl, hlt⟩
    next e ht =>
      obtain ⟨r, hr⟩ := tokenFrom_lenient_ok (b.drop (skipBlanks b i).1) (skipBlanks b i).1
        ⟨[], none⟩
      exact absurd (ht.symm.trans hr) (by simp)
  · simp at h

theorem nextArgument_lenient {x : Item Read} {v : List UInt8}
    (h : nextArgument b .strict i = some x) (hv : x.kind.argument = .ok v) :
    nextArgument b .lenient i = some x := by
  simp only [nextArgument] at h ⊢
  split at h
  next hlt =>
    rw [if_pos hlt]
    split at h
    next w stop ht =>
      rw [show token b (skipBlanks b i).1 .lenient = .ok (w, stop) from tokenFrom_lenient ht]
      exact h
    next e ht =>
      obtain rfl := Option.some.inj h
      simp at hv
  · simp at h

theorem nextArgument_none {reading : ReadingMode} :
    nextArgument b reading i = none ↔ b.length ≤ (skipBlanks b i).1 := by
  simp only [nextArgument]
  split
  next hlt =>
    have : ¬ b.length ≤ (skipBlanks b i).1 := Nat.not_le.mpr hlt
    simp only [this, iff_false]
    split <;> simp
  next hge => simpa using hge

/-! ## One command -/

def toArgument? (x : Item Read) : Option Argument :=
  match x.kind.argument with
  | .ok v => some ⟨v, x.start, x.stop⟩
  | .error _ => none

def arguments (text : Str) : List Argument :=
  ((argReader (bytes text) .lenient).items 0).filterMap toArgument?

end Argv

theorem parseArguments_ok {b : List UInt8} {i line : Nat} {argv v : List (List UInt8)}
    (hline : 1 ≤ line) (h : parseArguments ((argReader b .strict).items i) argv line = .ok v) :
    (argReader b .lenient).items i = (argReader b .strict).items i ∧
      v = argv ++ (((argReader b .strict).items i).filterMap toArgument?).map (·.bytes) ∧
      v ≠ [] ∧
      ∀ x ∈ ((argReader b .strict).items i).drop (if argv = [] then 1 else 0),
        x.kind.breaks = 0 := by
  induction i using Reader.reading_induction (r := argReader b .strict) generalizing argv line with
  | h i ih =>
    cases hx : (argReader b .strict).next i with
    | none =>
      have hlen := nextArgument_none.mp hx
      rw [Reader.items_of_none hx] at h ⊢
      rw [Reader.items_of_none (r := argReader b .lenient) (nextArgument_none.mpr hlen)]
      simp only [parseArguments] at h
      split at h
      · simp at h
      next hne =>
        obtain rfl := Except.ok.inj h
        exact ⟨rfl, by simp, by simpa using hne, by simp⟩
    | some x =>
      rw [Reader.items_of_some hx] at h ⊢
      simp only [parseArguments] at h
      split at h
      · simp at h
      next hfirst =>
        split at h
        · simp at h
        next w hw =>
          obtain ⟨hitems, hv, hne, hbreaks⟩ := ih x hx (by omega) h
          have hbyte : toArgument? x = some ⟨w, x.start, x.stop⟩ := by
            simp [toArgument?, hw]
          refine ⟨?_, ?_, hne, ?_⟩
          · rw [Reader.items_of_some (r := argReader b .lenient)
              (nextArgument_lenient hx hw), hitems]
          · rw [hv, filterMap_cons_some hbyte]
            simp
          · intro y hy
            by_cases hargv : argv = []
            · rw [if_pos hargv, drop_one, tail_cons] at hy
              exact hbreaks y (by simpa using hy)
            · rw [if_neg hargv, drop_zero] at hy
              have hone : ¬ line + x.kind.breaks > 1 := fun hgt => hfirst ⟨hgt, hargv⟩
              rcases mem_cons.mp hy with rfl | hy
              · omega
              · exact hbreaks y (by simpa using hy)

namespace Grouping

theorem flatten_read (l : List (Item Read)) (g : Grouping) :
    (l.foldl Grouping.read g).finish.flatten =
      g.commands.flatten ++ g.current ++ l.filterMap toArgument? := by
  induction l generalizing g with
  | nil =>
    by_cases h : g.current = [] <;> simp [finish, h]
  | cons x l ih =>
    rw [foldl_cons, ih]
    unfold Grouping.read toArgument?
    cases hx : x.kind.argument with
    | error e => simp [hx]
    | ok v =>
      simp only [filterMap_cons, hx]
      split <;> simp

theorem foldl_of_no_breaks {l : List (Item Read)} (h : ∀ x ∈ l, x.kind.breaks = 0)
    (g : Grouping) :
    l.foldl Grouping.read g = ⟨g.commands, g.current ++ l.filterMap toArgument?⟩ := by
  induction l generalizing g with
  | nil => simp
  | cons x l ih =>
    have hx : x.kind.breaks = 0 := h x (by simp)
    rw [foldl_cons, ih (fun y hy => h y (by simp [hy])), filterMap_cons]
    unfold Grouping.read toArgument?
    cases x.kind.argument with
    | error e => simp
    | ok v => simp [hx]

theorem foldl_of_one_line {l : List (Item Read)} (h : ∀ x ∈ l.drop 1, x.kind.breaks = 0) :
    l.foldl Grouping.read ⟨[], []⟩ = ⟨[], l.filterMap toArgument?⟩ := by
  cases l with
  | nil => rfl
  | cons x l =>
    rw [foldl_cons, foldl_of_no_breaks (by simpa using h)]
    unfold Grouping.read toArgument?
    cases hx : x.kind.argument <;> simp [hx]

end Grouping

theorem flatten_commands (text : Str) : (argvCommands text).flatten = arguments text := by
  rw [argvCommands, Grouping.flatten_read]
  rfl

theorem commands_of_parse {text : Str} {v : List (List UInt8)} (h : parseArgv text = .ok v) :
    argvCommands text = [arguments text] ∧ (arguments text).map (·.bytes) = v := by
  simp only [parseArgv] at h
  split at h
  · simp at h
  · obtain ⟨hitems, hv, hne, hbreaks⟩ := parseArguments_ok (Nat.le_refl 1) h
    rw [if_pos rfl] at hbreaks
    have hargs : arguments text =
        ((argReader (bytes text) .strict).items 0).filterMap toArgument? := by
      rw [arguments, hitems]
    rw [nil_append, ← hargs] at hv
    refine ⟨?_, hv.symm⟩
    rw [argvCommands, hitems, Grouping.foldl_of_one_line hbreaks, ← hargs]
    have hne' : arguments text ≠ [] := by
      intro hnil
      rw [hnil] at hv
      exact hne hv
    simp [Grouping.finish, hne']

/-! ## What the spans cover -/

namespace Argv

/-- The position is in the span of the argument. -/
def Argument.Covers (a : Argument) (i : Nat) : Prop := a.start ≤ i ∧ i < a.stop

variable {text : Str}

theorem mem_arguments {a : Argument} :
    a ∈ arguments text ↔ ∃ x ∈ (argReader (bytes text) .lenient).items 0,
      x.kind.argument = .ok a.bytes ∧ x.start = a.start ∧ x.stop = a.stop := by
  rw [arguments, mem_filterMap]
  refine exists_congr fun x => and_congr_right fun _ => ?_
  unfold toArgument?
  cases x.kind.argument with
  | error e => simp
  | ok v =>
    obtain ⟨w, i, j⟩ := a
    simp

variable {c : UInt8}

theorem toNat_lt_of_isSpace (h : isSpace c = true) : c.toNat < 0x80 := by
  simp only [isSpace, Bool.or_eq_true, beq_iff_eq] at h
  rcases h with ((((rfl | rfl) | rfl) | rfl) | rfl) | rfl <;> decide

theorem toNat_lt_of_isQuote (h : isQuote c = true) : c.toNat < 0x80 := by
  simp only [isQuote, Bool.or_eq_true, beq_iff_eq] at h
  rcases h with rfl | rfl <;> decide

theorem isSpace_of_endsBare (h : endsBare c = true) : isSpace c = true := by
  simp only [endsBare, Bool.or_eq_true] at h
  simp only [isSpace, Bool.or_eq_true]
  tauto

/-- What stands open is a quote. -/
def Quoted (s : TokenState) : Prop := ∀ o k, s.quote = some (o, k) → isQuote o = true

theorem quoted_go {reading : ReadingMode} {i n : Nat} {s s' : TokenState}
    {rest : List UInt8} (hs : Quoted s) (h : tokenTurn reading i s c rest = .go n s') :
    Quoted s' := by
  have hstep := tokenStep reading i s c rest
  rw [h] at hstep
  cases hstep with
  | opens _ _ hc =>
    rintro o k heq
    obtain ⟨rfl, -⟩ := Prod.mk.inj (Option.some.inj heq)
    exact hc
  | bare | escaped | apostrophe | inside => exact hs
  | glued =>
    rintro o k heq
    simp at heq

theorem tokenFrom_edge {b l : List UInt8} {i j : Nat} {s : TokenState} {v : List UInt8}
    (hl : l = b.drop i) (hi : i ≤ b.length) (hs : Quoted s)
    (h : tokenFrom .lenient l i s = .ok (v, j)) : AsciiEdge b j := by
  induction l, i, s using walk_induction (tokenTurn .lenient) with
  | hnil i s =>
    have hlen : b.length ≤ i := drop_eq_nil_iff.mp hl.symm
    rw [tokenFrom_nil] at h
    unfold tokenEnd at h
    have hj : j = i := by
      split at h
      · exact (congrArg Prod.snd (Except.ok.inj h)).symm
      · exact (congrArg Prod.snd (Except.ok.inj h)).symm
      · simp at h
    exact .inl (by omega)
  | hstop c rest i s t ht =>
    rw [tokenFrom_stop ht] at h
    have hc := (Cursor.of_cons_eq_drop hl).1
    rcases tokenTurn_stop ht with ⟨-, hend, hr⟩ | ⟨⟨k, hq⟩, ⟨-, hr⟩ | ⟨hr, -⟩⟩
    · obtain ⟨-, rfl⟩ := Prod.mk.inj (Except.ok.inj (h.symm.trans hr))
      exact .inr (.inl ⟨c, hc, toNat_lt_of_isSpace (isSpace_of_endsBare hend)⟩)
    · obtain ⟨-, rfl⟩ := Prod.mk.inj (Except.ok.inj (h.symm.trans hr))
      exact .inr (.inr ⟨i, c, rfl, hc, toNat_lt_of_isQuote (hs c k hq)⟩)
    · simp at hr
  | hgo c rest i s n s' ht ih =>
    rw [tokenFrom_go ht] at h
    have hn := skip_le ht
    have hrest := (Cursor.of_cons_eq_drop hl).2
    have hlen := congrArg List.length hl
    simp only [length_cons, length_drop] at hlen
    refine ih ?_ (by omega) (quoted_go hs ht) h
    rw [hrest, drop_drop]
    exact congrArg (b.drop ·) (by omega)

variable {i : Nat}

theorem boundary_of_blanks (hi : isCharBoundary text i = true) :
    isCharBoundary text (skipBlanks (bytes text) i).1 = true := by
  have hall : ∀ c ∈ blanks (bytes text) i, isSpace c = true := fun c => isSpace_of_mem_blanks
  have hdrop := drop_blanks (bytes text) i
  simp only [skipBlanks] at hdrop ⊢
  generalize blanks (bytes text) i = w at hall hdrop ⊢
  induction w generalizing i with
  | nil => exact hi
  | cons c w ih =>
    obtain ⟨hc, hrest⟩ := Cursor.of_cons_eq_drop (hdrop.trans (cons_append)).symm
    have hlt := toNat_lt_of_isSpace (hall c (by simp))
    have hnext := ih (isCharBoundary_of_ascii hc hlt).2 (fun d hd => hall d (by simp [hd])) (by
      rw [← hrest]
      congr 2
      simp only [length_cons]
      omega)
    rw [length_cons]
    rwa [show i + (w.length + 1) = i + 1 + w.length by omega]

theorem boundary_of_argument {x : Item Read}
    (hi : isCharBoundary text i = true) (h : nextArgument (bytes text) .lenient i = some x) :
    isCharBoundary text x.start = true ∧ isCharBoundary text x.stop = true := by
  obtain ⟨v, -, ht, hstart, -, hlt⟩ := argument_of_lenient h
  refine ⟨hstart ▸ boundary_of_blanks hi, isCharBoundary_of_edge ?_⟩
  exact tokenFrom_edge rfl (by omega) (by intro o k hq; simp at hq) ht

theorem boundary_of_argReach
    (h : (argReader (bytes text) .lenient).Reach 0 i) : isCharBoundary text i = true := by
  induction h with
  | refl => exact isCharBoundary_zero text
  | step _ hx ih => exact (boundary_of_argument ih hx).2

/-- The arguments cut a text: in order, apart, on character boundaries, each byte that is no blank
in exactly one. -/
structure Cuts (text : Str) (args : List Argument) : Prop where
  ordered : args.Pairwise fun a a' => a.stop ≤ a'.start
  proper : ∀ a ∈ args, a.start < a.stop ∧ a.stop ≤ size text
  boundary : ∀ a ∈ args, isCharBoundary text a.start = true ∧ isCharBoundary text a.stop = true
  blank : ∀ i c, (bytes text)[i]? = some c → (∀ a ∈ args, ¬ a.Covers i) → isSpace c = true
  once : ∀ i c, (bytes text)[i]? = some c → isSpace c = false → ∃! a, a ∈ args ∧ a.Covers i

theorem space_of_blanks {b : List UInt8} {i k : Nat} (hi : i ≤ k)
    (hk : k < (skipBlanks b i).1) : ∃ c, b[k]? = some c ∧ isSpace c = true := by
  have hlt : k - i < (blanks b i).length := by
    simp only [skipBlanks] at hk
    omega
  refine ⟨(blanks b i)[k - i], ?_, isSpace_of_mem_blanks (getElem_mem hlt)⟩
  have hget : (b.drop i)[k - i]? = (blanks b i)[k - i]? := by
    rw [drop_blanks b i, getElem?_append_left hlt]
  rw [getElem?_drop, Nat.add_sub_cancel' hi, getElem?_eq_getElem hlt] at hget
  exact hget

theorem covered_or_space (text : Str) (hi : i < size text) :
    (∃ a ∈ arguments text, a.Covers i) ∨
      ∃ c, (bytes text)[i]? = some c ∧ isSpace c = true := by
  have h := Reader.covered_or_between (r := argReader (bytes text) .lenient)
    (P := fun k => ∃ c, (bytes text)[k]? = some c ∧ isSpace c = true)
    (fun j x hx k hj hk => by
      obtain ⟨v, -, -, hstart, -⟩ := argument_of_lenient hx
      exact space_of_blanks hj (hstart ▸ hk))
    (fun j hx k hj hk => space_of_blanks hj (Nat.lt_of_lt_of_le hk (nextArgument_none.mp hx)))
    0 i (Nat.zero_le i) hi
  refine h.imp_left ?_
  rintro ⟨x, hx, hcov⟩
  obtain ⟨j, -, hnext⟩ := Reader.mem_items.mp hx
  obtain ⟨v, hv, -⟩ := argument_of_lenient hnext
  exact ⟨⟨v, x.start, x.stop⟩, mem_arguments.mpr ⟨x, hx, hv, rfl, rfl⟩, hcov⟩

theorem pairwise_arguments (text : Str) :
    (arguments text).Pairwise fun a a' => a.stop ≤ a'.start := by
  refine List.Pairwise.filterMap toArgument? ?_
    (Reader.pairwise_items (r := argReader (bytes text) .lenient) 0)
  intro x y hxy a ha a' ha'
  unfold toArgument? at ha ha'
  split at ha
  · split at ha'
    · obtain rfl := Option.some.inj ha
      obtain rfl := Option.some.inj ha'
      exact hxy
    · simp at ha'
  · simp at ha

theorem cuts_arguments (text : Str) : Cuts text (arguments text) := by
  have hproper : ∀ a ∈ arguments text, a.start < a.stop ∧ a.stop ≤ size text := by
    intro a ha
    obtain ⟨x, hx, -, hstart, hstop⟩ := mem_arguments.mp ha
    have hb := Reader.bounds_of_mem_items hx
    rw [← hstart, ← hstop]
    exact hb.2
  have hblank : ∀ i c, (bytes text)[i]? = some c → (∀ a ∈ arguments text, ¬ a.Covers i) →
      isSpace c = true := by
    intro i c hc hfree
    have hi : i < size text := (List.getElem?_eq_some_iff.mp hc).1
    rcases covered_or_space text hi with ⟨a, ha, hcov⟩ | ⟨d, hd, hspace⟩
    · exact absurd hcov (hfree a ha)
    · obtain rfl := Option.some.inj (hc.symm.trans hd)
      exact hspace
  refine ⟨pairwise_arguments text, hproper, fun a ha => ?_, hblank, fun i c hc hs => ?_⟩
  · obtain ⟨x, hx, -, hstart, hstop⟩ := mem_arguments.mp ha
    obtain ⟨j, hj, hnext⟩ := Reader.mem_items.mp hx
    rw [← hstart, ← hstop]
    exact boundary_of_argument (boundary_of_argReach hj) hnext
  · by_cases hcov : ∃ a ∈ arguments text, a.Covers i
    · obtain ⟨a, ha, hcov⟩ := hcov
      refine ⟨a, ⟨ha, hcov⟩, ?_⟩
      rintro a' ⟨ha', hcov'⟩
      -- two arguments that cover one byte are one
      rcases eq_or_apart (pairwise_arguments text) ha ha' with rfl | hle | hle
      · rfl
      · exact absurd (Nat.lt_of_lt_of_le hcov.2 hle) (Nat.not_lt.mpr hcov'.1)
      · exact absurd (Nat.lt_of_lt_of_le hcov'.2 hle) (Nat.not_lt.mpr hcov.1)
    · have hspace := hblank i c hc fun a ha hc => hcov ⟨a, ha, hc⟩
      rw [hspace] at hs
      simp at hs

end Argv

/-- A text `parse` accepts is exactly one command of `commands`, whose arguments decode to the same
bytes in order. Whatever the text, the arguments of `commands` are ordered, apart, on character
boundaries, and cover every byte that is no blank exactly once. -/
theorem redactor_reads_what_is_sent :
    (∀ (text : Str) (v : List (List UInt8)), parseArgv text = .ok v →
      ∃ command, argvCommands text = [command] ∧ command.map (·.bytes) = v ∧
        Cuts text command) ∧
      ∀ text : Str, Cuts text (argvCommands text).flatten := by
  refine ⟨fun text v h => ?_, fun text => ?_⟩
  · obtain ⟨hcommands, hbytes⟩ := commands_of_parse h
    exact ⟨arguments text, hcommands, hbytes, cuts_arguments text⟩
  · rw [flatten_commands]
    exact cuts_arguments text

end Oxyn
