/-
# `Oxyn.Query.Quoting` — two profiles that differ in quoting

A profile that recognizes more quoting was meant to merge statements, never to cut one.  Two scans
of a text agree until the wider one opens a region the narrower one reads on through.
-/
import Oxyn.Query.Code
import Oxyn.Query.Split

namespace Oxyn

open Text Cursor List

/-! ## What lies between two separators -/

/-- A stretch of text between two separators, and its fragment when it holds code. -/
structure Stretch where
  start : Nat
  stop : Nat
  fragment : Option Fragment

namespace Pending

/-- What an element that is no separator does. -/
def note (p : Pending) (x : Item Tok) : Pending :=
  match x.kind with
  | .comment => p.withComment true
  | .unreadableComment => p.withComment false
  | .semicolon => p
  | .word | .quoted | .singleQuoted | .symbol => p.withCode

def stretch (p : Pending) (sql : Str) (stop : Nat) (terminated : Bool) : Stretch :=
  ⟨p.start, stop, if p.hasCode then
    fragment? sql p.start stop ⟨p.hasComment, terminated, p.unreadable⟩ else none⟩

@[simp] theorem note_start (p : Pending) (x : Item Tok) : (p.note x).start = p.start := by
  unfold note withComment withCode
  cases x.kind <;> rfl

theorem flush_eq_stretch (p : Pending) (sql : Str) (stop : Nat) (terminated : Bool)
    (out : List Fragment) :
    p.flush sql stop terminated out = out ++ (p.stretch sql stop terminated).fragment.toList := by
  unfold flush stretch pushFragment
  split <;> simp

/-- The stretches of what is left to read. -/
def stretches (sql : Str) : Pending → List (Item Tok) → List Stretch
  | p, [] => [p.stretch sql (size sql) false]
  | p, x :: l =>
    if x.kind = .semicolon then
      p.stretch sql x.start true :: stretches sql (.startingAt x.stop) l
    else stretches sql (p.note x) l

end Pending

theorem Splitting.read_eq (sql : Str) (s : Splitting) (x : Item Tok) :
    s.read sql x = if x.kind = .semicolon then
        ⟨.startingAt x.stop, s.pending.flush sql x.start true s.fragments⟩
      else ⟨s.pending.note x, s.fragments⟩ := by
  unfold read Pending.note
  cases x.kind <;> rfl

theorem Splitting.finish_foldl (sql : Str) (l : List (Item Tok)) (s : Splitting) :
    (l.foldl (read sql) s).finish sql =
      s.fragments ++ (s.pending.stretches sql l).filterMap Stretch.fragment := by
  induction l generalizing s with
  | nil =>
    simp only [foldl_nil, finish, Pending.flush_eq_stretch, Pending.stretches]
    cases h : (s.pending.stretch sql (size sql) false).fragment <;> simp [h]
  | cons x l ih =>
    rw [foldl_cons, ih, read_eq, Pending.stretches]
    split
    · simp only [Pending.flush_eq_stretch, append_assoc, filterMap_cons]
      cases (s.pending.stretch sql x.start true).fragment <;> simp
    · rfl

def stretches (sql : Str) (p : SplitProfile) : List Stretch :=
  (Pending.startingAt 0).stretches sql (scan sql p)

variable {sql : Str}

theorem mem_splitWith {p : SplitProfile} {f : Fragment} :
    f ∈ splitWith sql p ↔ ∃ c ∈ stretches sql p, c.fragment = some f := by
  unfold splitWith stretches
  rw [Splitting.finish_foldl]
  simp [Splitting.initial]

variable {l : List (Item Tok)}

theorem fragment_of_stretch {p : Pending} {c : Stretch}
    {f : Fragment} (hc : c ∈ p.stretches sql l) (hf : c.fragment = some f) :
    ∃ flags, fragment? sql c.start c.stop flags = some f := by
  have hcut : ∀ (p : Pending) stop terminated, (p.stretch sql stop terminated).fragment = some f →
      ∃ flags, fragment? sql p.start stop flags = some f := by
    intro p stop terminated h
    unfold Pending.stretch at h
    split at h
    · exact ⟨_, h⟩
    · simp at h
  induction l generalizing p with
  | nil =>
    obtain rfl := mem_singleton.mp hc
    exact hcut _ _ _ hf
  | cons x l ih =>
    unfold Pending.stretches at hc
    split at hc
    · rcases mem_cons.mp hc with rfl | hc
      · exact hcut _ _ _ hf
      · exact ih hc
    · exact ih hc

/-- The elements left to read from `n` on, as a scan reports them. -/
structure Ordered (size n : Nat) (l : List (Item Tok)) : Prop where
  pairwise : l.Pairwise (fun x y => x.stop ≤ y.start)
  bounds : ∀ x ∈ l, n ≤ x.start ∧ x.start < x.stop ∧ x.stop ≤ size
  le : n ≤ size

theorem ordered_scan (sql : Str) (p : SplitProfile) : Ordered (size sql) 0 (scan sql p) :=
  ⟨Reader.pairwise_items 0, fun _ hx => Reader.bounds_of_mem_items hx, Nat.zero_le _⟩

variable {x : Item Tok}

theorem Ordered.tail {size n : Nat} (h : Ordered size n (x :: l)) : Ordered size x.stop l :=
  ⟨(pairwise_cons.mp h.pairwise).2,
    fun y hy => by
      have := (pairwise_cons.mp h.pairwise).1 y hy
      have := h.bounds y (by simp [hy])
      omega,
    (h.bounds x (by simp)).2.2⟩

theorem Ordered.skip {size n : Nat} (h : Ordered size n (x :: l)) : Ordered size n l :=
  ⟨(pairwise_cons.mp h.pairwise).2, fun y hy => h.bounds y (by simp [hy]), h.le⟩

theorem stretches_ordered {p : Pending} (h : Ordered (size sql) p.start l) :
    (p.stretches sql l).Pairwise (fun c d => c.stop ≤ d.start) ∧
      ∀ c ∈ p.stretches sql l, p.start ≤ c.start ∧ c.start ≤ c.stop ∧ c.stop ≤ size sql ∧
        ∀ x ∈ l, x.kind = .semicolon → x.stop ≤ c.start ∨ c.stop ≤ x.start := by
  induction l generalizing p with
  | nil =>
    refine ⟨by simp [Pending.stretches], fun c hc => ?_⟩
    obtain rfl := mem_singleton.mp hc
    exact ⟨Nat.le_refl _, h.le, Nat.le_refl _, by simp⟩
  | cons x l ih =>
    have hx := h.bounds x (by simp)
    unfold Pending.stretches
    split
    next hk =>
      obtain ⟨hpair, hmem⟩ := ih (p := .startingAt x.stop) h.tail
      simp only [Pending.startingAt] at hpair hmem
      refine ⟨pairwise_cons.mpr ⟨fun c hc => ?_, hpair⟩, fun c hc => ?_⟩
      · have := (hmem c hc).1
        simp only [Pending.stretch]
        omega
      · rcases mem_cons.mp hc with rfl | hc
        · refine ⟨Nat.le_refl _, hx.1, by simp only [Pending.stretch]; omega,
            fun y hy _ => .inr ?_⟩
          simp only [Pending.stretch]
          rcases mem_cons.mp hy with rfl | hy
          · exact Nat.le_refl _
          · have := h.tail.bounds y hy
            omega
        · obtain ⟨h1, h2, h3, h4⟩ := hmem c hc
          refine ⟨by omega, h2, h3, fun y hy hyk => ?_⟩
          rcases mem_cons.mp hy with rfl | hy
          · exact .inl h1
          · exact h4 y hy hyk
    next hk =>
      have hskip : Ordered (size sql) (p.note x).start l := by simpa using h.skip
      obtain ⟨hpair, hmem⟩ := ih hskip
      simp only [Pending.note_start] at hmem
      refine ⟨hpair, fun c hc => ?_⟩
      obtain ⟨h1, h2, h3, h4⟩ := hmem c hc
      refine ⟨h1, h2, h3, fun y hy hyk => ?_⟩
      rcases mem_cons.mp hy with rfl | hy
      · exact absurd hyk hk
      · exact h4 y hy hyk

theorem exists_stretch {p : Pending}
    (h : Ordered (size sql) p.start l) {i j : Nat} (hi : p.start ≤ i)
    (hj : j ≤ size sql)
    (hfree : ∀ x ∈ l, x.kind = .semicolon → x.stop ≤ i ∨ j ≤ x.start) :
    ∃ c ∈ p.stretches sql l, c.start ≤ i ∧ j ≤ c.stop := by
  induction l generalizing p with
  | nil => exact ⟨_, mem_singleton.mpr rfl, hi, hj⟩
  | cons x l ih =>
    unfold Pending.stretches
    split
    next hk =>
      rcases hfree x (by simp) hk with hx | hx
      · obtain ⟨c, hc, hcov⟩ := ih (p := .startingAt x.stop) h.tail hx
          fun y hy => hfree y (by simp [hy])
        exact ⟨c, mem_cons_of_mem _ hc, hcov⟩
      · exact ⟨_, mem_cons_self, hi, hx⟩
    next hk =>
      exact ih (p := p.note x) (by simpa using h.skip) (by simpa using hi)
        fun y hy => hfree y (by simp [hy])

/-! ## Fewer separators, larger statements -/

def SeparatorsSubset (p q : SplitProfile) (sql : Str) : Prop :=
  ∀ y ∈ scan sql q, y.kind = .semicolon →
    ∃ x ∈ scan sql p, x.kind = .semicolon ∧ x.start = y.start

/-- Every fragment under `p` lies inside one fragment under `q`, or outside all. -/
def Within (p q : SplitProfile) (sql : Str) : Prop :=
  ∀ f ∈ splitWith sql p,
    (∃ g ∈ splitWith sql q, g.start ≤ f.start ∧ f.stop ≤ g.stop) ∨
      ∀ g ∈ splitWith sql q, g.stop ≤ f.start ∨ f.stop ≤ g.start

instance (p q : SplitProfile) (sql : Str) : Decidable (SeparatorsSubset p q sql) :=
  inferInstanceAs (Decidable (∀ y ∈ scan sql q, _ → ∃ x ∈ scan sql p, _ ∧ _))

instance (p q : SplitProfile) (sql : Str) : Decidable (Within p q sql) :=
  inferInstanceAs (Decidable (∀ f ∈ splitWith sql p, _))

theorem fragment?_mono {i j i' j' : Nat} {flags flags' : Flags} {f g : Fragment}
    (hf : fragment? sql i j flags = some f) (hg : fragment? sql i' j' flags' = some g)
    (hi : i' ≤ i) (hj : j ≤ j') : g.start ≤ f.start ∧ f.stop ≤ g.stop := by
  have hfb := fragment?_bounds hf
  obtain ⟨raw, hraw, hne, rfl⟩ := fragment?_eq_some.mp hf
  obtain ⟨-, hfirst, hlast⟩ := not_blankAt_of_trim (get?_trim hraw).1 hne
  obtain ⟨raw', hraw', -, -⟩ := fragment?_eq_some.mp hg
  have hb := boundaries_of_get? hraw'
  -- the first and the last byte are visible, so the larger fragment covers them
  have hcov : ∀ k, i' ≤ k → k < j' → ¬ BlankAt sql k → g.Covers k := by
    intro k hk hk' hvisible
    rcases fragment?_covers flags' hb.1 hb.2 hk hk' with ⟨g', hg', hcov⟩ | hblank
    · obtain rfl := Option.some.inj (hg.symm.trans hg')
      exact hcov
    · exact absurd hblank hvisible
  have h1 := hcov _ (by simp only at hfb; omega) (by simp only at hfb; omega) hfirst
  have h2 := hcov _ (by simp only at hfb; omega) (by simp only at hfb; omega) hlast
  exact ⟨h1.1, by have := h2.2; simp only at hfb ⊢; omega⟩

variable {p q : SplitProfile}

theorem within_of_separators_subset (h : SeparatorsSubset p q sql) : Within p q sql := by
  intro f hf
  obtain ⟨c, hc, hcf⟩ := mem_splitWith.mp hf
  obtain ⟨flags, hcut⟩ := fragment_of_stretch hc hcf
  obtain ⟨-, -, hstop, hfree⟩ := (stretches_ordered (ordered_scan sql p)).2 c hc
  obtain ⟨hpair, hmem⟩ := stretches_ordered (p := .startingAt 0) (ordered_scan sql q)
  -- the separators of `q` are separators of `p`, so none is inside the stretch
  obtain ⟨d, hd, hdc⟩ := exists_stretch (p := .startingAt 0) (ordered_scan sql q)
    (i := c.start) (j := c.stop) (Nat.zero_le _) hstop fun y hy hyk => by
      obtain ⟨x, hx, hxk, hxy⟩ := h y hy hyk
      have := hfree x hx hxk
      rw [separator_stop hx hxk] at this
      rw [separator_stop hy hyk]
      omega
  have hfc := fragment?_bounds hcut
  cases hdf : d.fragment with
  | some g =>
    obtain ⟨flags', hcut'⟩ := fragment_of_stretch hd hdf
    exact .inl ⟨g, mem_splitWith.mpr ⟨d, hd, hdf⟩, fragment?_mono hcut hcut' hdc.1 hdc.2⟩
  | none =>
    refine .inr fun g hg => ?_
    obtain ⟨e, he, hef⟩ := mem_splitWith.mp hg
    obtain ⟨flags', hcut'⟩ := fragment_of_stretch he hef
    have hge := fragment?_bounds hcut'
    rcases eq_or_apart hpair he hd with rfl | hlt | hlt
    · simp [hdf] at hef
    · exact .inl (by omega)
    · exact .inr (by omega)

/-! ## Where two scans part -/

def SplitProfile.withQuotes (p : SplitProfile) (backtick bracket dollar : Bool) : SplitProfile :=
  { p with
    backtickQuotes := p.backtickQuotes || backtick
    bracketQuotes := p.bracketQuotes || bracket
    dollarQuotes := p.dollarQuotes || dollar }

/-- `q` recognizes all the quoting of `p`, and differs in nothing else. -/
def MoreQuotes (p q : SplitProfile) : Prop :=
  ∃ backtick bracket dollar, q = p.withQuotes backtick bracket dollar

/-- The byte opens no quoted region for `p`, and does for a profile with more quoting. -/
def OpensMore (p : SplitProfile) (c : UInt8) : Prop :=
  c = Byte.backtick ∧ p.backtickQuotes = false ∨ c = Byte.openBracket ∧ p.bracketQuotes = false ∨
    c = Byte.dollar ∧ p.dollarQuotes = false

instance (p : SplitProfile) (c : UInt8) : Decidable (OpensMore p c) :=
  inferInstanceAs (Decidable (_ ∨ _ ∨ _))

/-- Read under `p` from its second byte on, the region holds the beginning of a string, a quoted
name or a comment that goes on past its end. -/
def LeavesOpen (p : SplitProfile) (sql : Str) (region : Item Tok) : Prop :=
  ∃ z ∈ (scanner sql p).items (region.start + 1), IsRegion z ∧ z.start < region.stop ∧
    region.stop < z.stop

instance (p : SplitProfile) (sql : Str) (region : Item Tok) :
    Decidable (LeavesOpen p sql region) :=
  inferInstanceAs (Decidable (∃ z ∈ (scanner sql p).items (region.start + 1), _))

/-- Each region that only `q` opens closes what it opens for `p`. -/
def Closes (p q : SplitProfile) (sql : Str) : Prop :=
  ∀ region ∈ scan sql q, region.kind = .quoted →
    (∃ c ∈ (bytes sql)[region.start]?, OpensMore p c) → ¬ LeavesOpen p sql region

instance (p q : SplitProfile) (sql : Str) : Decidable (Closes p q sql) :=
  inferInstanceAs (Decidable (∀ region ∈ scan sql q, _ → _ → _))

theorem lex_backtick (b : List UInt8) (i : Nat) (p : SplitProfile) :
    lex b i Byte.backtick p = if p.backtickQuotes then
      (.quoted, skipQuoted b i Byte.backtick p.backtickBackslashEscapes) else (.symbol, i + 1) := by
  unfold lex
  cases p.backtickQuotes <;> rfl

theorem lex_openBracket (b : List UInt8) (i : Nat) (p : SplitProfile) :
    lex b i Byte.openBracket p = if p.bracketQuotes then (.quoted, skipBracket b i)
      else (.symbol, i + 1) := by
  unfold lex
  cases p.bracketQuotes <;> rfl

theorem lex_dollar (b : List UInt8) (i : Nat) (p : SplitProfile) :
    lex b i Byte.dollar p = if p.dollarQuotes then
      (match skipDollarQuoted b i with
        | none => (.symbol, i + 1)
        | some stop => (.quoted, stop)) else (.symbol, i + 1) := by
  unfold lex
  cases p.dollarQuotes <;> rfl

/-- Both profiles read an element alike, or the wider one opens a region where the
narrower one reads one byte. -/
theorem lex_moreQuotes (h : MoreQuotes p q) (b : List UInt8) (i : Nat) (c : UInt8) :
    lex b i c q = lex b i c p ∨
      OpensMore p c ∧ (lex b i c q).1 = .quoted ∧ lex b i c p = (.symbol, i + 1) := by
  obtain ⟨backtick, bracket, dollar, rfl⟩ := h
  unfold OpensMore
  by_cases h1 : c = Byte.backtick
  · subst h1
    simp only [lex_backtick, SplitProfile.withQuotes]
    cases p.backtickQuotes <;> cases backtick <;> simp
  by_cases h2 : c = Byte.openBracket
  · subst h2
    simp only [lex_openBracket, SplitProfile.withQuotes]
    cases p.bracketQuotes <;> cases bracket <;> simp
  by_cases h3 : c = Byte.dollar
  · subst h3
    simp only [lex_dollar, SplitProfile.withQuotes]
    cases p.dollarQuotes <;> cases dollar <;> cases skipDollarQuoted b i <;> simp
  · exact .inl (by simp [lex, h1, h2, h3, SplitProfile.withQuotes])

variable {i : Nat}

theorem mem_items_of_le (hi : (scanner sql p).Reach 0 i) (hx : x ∈ scan sql p) (hle : i ≤ x.start) :
    x ∈ (scanner sql p).items i := by
  obtain ⟨front, hfront, hbound⟩ := Reader.items_of_reach hi
  unfold scan at hx
  rw [hfront] at hx
  refine (mem_append.mp hx).resolve_left fun h => ?_
  have := hbound x h
  have := Reader.bounds_of_mem_items (r := scanner sql p) (i := 0) (x := x)
    (by rw [hfront]; simp [h])
  omega

/-- An element that begins with a byte of a word holds none but bytes of words. -/
theorem wordByte_of_next (hreach : (scanner sql q).Reach 0 i) (hx : (scanner sql q).next i = some x)
    {c : UInt8} (hc : (bytes sql)[x.start]? = some c) (hword : isWordByte c = true) {k : Nat}
    (hk : x.start ≤ k) (hinside : k < x.stop) :
    ∃ d, (bytes sql)[k]? = some d ∧ isWordByte d = true := by
  obtain ⟨d, -, -, hd, -, hread⟩ := readAt_eq_some.mp hx
  obtain rfl := Option.some.inj (hc.symm.trans hd)
  rcases Nat.eq_or_lt_of_le hk with heq | hlt
  · exact ⟨c, heq ▸ hc, hword⟩
  rcases hread with ⟨-, hsemi, -⟩ | ⟨-, hlex⟩
  · have hbyte := byte_of_separator (Reader.mem_items.mpr ⟨i, hreach, hx⟩) hsemi
    rw [Option.some.inj (hc.symm.trans hbyte)] at hword
    cases hword
  rw [lex_wordByte hword q] at hlex
  split at hlex
  · have hrun := (Prod.mk.inj hlex).2
    rw [skipWord_eq_run _ _ (List.getElem?_eq_some_iff.mp hc).1] at hrun
    exact of_lt_runEnd (i := x.start + 1) hlt (by omega)
  · have hone := (Prod.mk.inj hlex).2
    omega

/-- What both profiles read from one place on: elements that end together, or a region that only
the wider one opens. -/
theorem stop_eq_or_opens (h : MoreQuotes p q) {j : Nat} {z : Item Tok}
    (hx : (scanner sql q).next i = some x) (hz : (scanner sql p).next j = some z)
    (hzx : z.start = x.start) {c : UInt8} (hc : (bytes sql)[x.start]? = some c) :
    z.stop = x.stop ∨
      OpensMore p c ∧ x.kind = .quoted ∧ z.kind = .symbol ∧ z.stop = x.start + 1 := by
  obtain ⟨d, -, -, hd, -, hread⟩ := readAt_eq_some.mp hx
  obtain rfl := Option.some.inj (hc.symm.trans hd)
  obtain ⟨d, -, -, hd, -, hzread⟩ := readAt_eq_some.mp hz
  rw [hzx] at hd hzread
  obtain rfl := Option.some.inj (hc.symm.trans hd)
  rcases hread with ⟨hterm, -, hstop⟩ | ⟨hterm, hlex⟩ <;>
    rcases hzread with ⟨hzterm, -, hzstop⟩ | ⟨hzterm, hzlex⟩
  · exact .inl (hzstop.trans hstop.symm)
  · rw [hterm] at hzterm
    cases hzterm
  · rw [hterm] at hzterm
    cases hzterm
  · rcases lex_moreQuotes h (bytes sql) x.start c with heq | ⟨hmore, hquoted, hsymbol⟩
    · exact .inl (Prod.mk.inj (hzlex.symm.trans (heq.symm.trans hlex))).2
    · rw [hlex] at hquoted
      obtain ⟨hkind, hstop⟩ := Prod.mk.inj (hzlex.symm.trans hsymbol)
      exact .inr ⟨hmore, hquoted, hkind, hstop⟩

/-- The step lemma: from where `p` reads code, an element of `q` ends where `p` reads code. -/
theorem InCode.of_next (h : MoreQuotes p q) (hcloses : Closes p q sql)
    (hreach : (scanner sql q).Reach 0 i) (hi : InCode p sql i)
    (hx : (scanner sql q).next i = some x) : InCode p sql x.stop := by
  obtain ⟨c, hle, hblank, hc, hvisible, -⟩ := readAt_eq_some.mp hx
  have hstart := hi.blank hle hblank
  intro w hw hregion hinside
  have hafter : x.start ≤ w.start := by
    by_contra hlt
    have := (reader_forward hx).2.1
    exact hstart w hw hregion ⟨by omega, by omega⟩
  cases hword : isWordByte c with
  | true =>
    -- a word, or a byte of one: no region begins in it
    obtain ⟨d, hd, hwd⟩ := wordByte_of_next hreach hx hc hword hafter hinside.1
    exact Bool.false_ne_true ((not_wordByte_of_region hw hregion hd).symm.trans hwd)
  | false =>
    obtain ⟨z, hz, hzx⟩ := exists_element hstart hc hvisible hword
    obtain ⟨j, hj, hnext⟩ := Reader.mem_items.mp hz
    have hwz : w = z ∨ z.stop ≤ w.start := by
      have hzlt := (reader_forward hnext).2.1
      have hwlt := (Reader.bounds_of_mem_items hw).2.1
      rcases eq_or_apart (Reader.pairwise_items 0) hw hz with heq | hlt | hlt
      · exact .inl heq
      · omega
      · exact .inr hlt
    rcases stop_eq_or_opens h hx hnext hzx hc with hstop | ⟨hmore, hquoted, hsymbol, hstop⟩
    · rcases hwz with rfl | hle
      · exact absurd hinside.2 (by omega)
      · exact absurd hinside.1 (by omega)
    -- the wider profile opens a region here: what it holds is closed at its end
    rcases hwz with rfl | hle
    · unfold IsRegion at hregion
      rw [hsymbol] at hregion
      revert hregion
      decide
    have hbehind : (scanner sql p).Reach 0 (x.start + 1) := hstop ▸ hj.step hnext
    exact hcloses x (Reader.mem_items.mpr ⟨i, hreach, hx⟩) hquoted ⟨c, hc, hmore⟩
      ⟨w, mem_items_of_le hbehind hw (by omega), hregion, hinside⟩

/-- The run lemma. -/
theorem inCode_of_reach (h : MoreQuotes p q) (hcloses : Closes p q sql)
    (hreach : (scanner sql q).Reach 0 i) : InCode p sql i := by
  induction hreach with
  | refl => exact .zero
  | step hj hx ih => exact .of_next h hcloses hj ih hx

theorem separators_subset (h : MoreQuotes p q) (hcloses : Closes p q sql) :
    SeparatorsSubset p q sql := by
  intro y hy hk
  obtain ⟨i, hi, hnext⟩ := Reader.mem_items.mp hy
  obtain ⟨c, hle, hblank, -, -, -⟩ := readAt_eq_some.mp hnext
  have hbyte := byte_of_separator hy hk
  obtain ⟨x, hx, hxy⟩ := exists_element ((inCode_of_reach h hcloses hi).blank hle hblank) hbyte
    (by decide) (by decide)
  exact ⟨x, hx, separator_of_byte hx (by rw [hxy]; exact hbyte), hxy⟩

/-! ## The wider profile merges -/

/-- Turning quoting on merges statements, as long as no region it opens leaves a string, a quoted
name or a comment open. -/
theorem more_quotes_merge (p : SplitProfile) (backtick bracket dollar : Bool) (sql : Str)
    (hcloses : Closes p (p.withQuotes backtick bracket dollar) sql) :
    SeparatorsSubset p (p.withQuotes backtick bracket dollar) sql ∧
      Within p (p.withQuotes backtick bracket dollar) sql :=
  have hsub := separators_subset ⟨backtick, bracket, dollar, rfl⟩ hcloses
  ⟨hsub, within_of_separators_subset hsub⟩

/-- A string, a separator and a quoted name, each in a region that only the wider profile opens. -/
theorem brackets_merge :
    SeparatorsSubset SplitProfile.mySql (SplitProfile.mySql.withQuotes false true true)
        "['a']; [b;c]; $x$\"y\"$x$".toList ∧
      Within SplitProfile.mySql (SplitProfile.mySql.withQuotes false true true)
        "['a']; [b;c]; $x$\"y\"$x$".toList :=
  more_quotes_merge .mySql false true true _ (by decide)

/-- A bracket identifier that holds an apostrophe: without brackets, the string it
opens swallows the separator that the permissive profile cuts at. -/
theorem permissive_cuts_inside_a_string :
    ¬ (SeparatorsSubset { SplitProfile.permissive with bracketQuotes := false }
          (SplitProfile.withQuotes { SplitProfile.permissive with bracketQuotes := false }
            false true false) "[']; '".toList ∧
        Within { SplitProfile.permissive with bracketQuotes := false }
          (SplitProfile.withQuotes { SplitProfile.permissive with bracketQuotes := false }
            false true false) "[']; '".toList) := by
  decide

end Oxyn
