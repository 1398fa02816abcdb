/-
# `Oxyn.Query.Coverage` — splitting loses nothing and invents nothing

Both loops that split a text keep one account (`Holding`): the fragments cut so far are slices of
the text, in order, and every byte before the statement being read is in one of them or is
excused.
-/
import Oxyn.Query.Boundary
import Oxyn.Query.Mysql

namespace Oxyn

open Text Cursor List

/-! ## Comments whose end every server agrees on -/

/-- A line comment in which a carriage return, which may end it in this dialect, is followed by
text. -/
def UnreadableReturn (b : List UInt8) (p : SplitProfile) (x : Item Tok) : Prop :=
  p.lineCommentEnd = .unverified ∧ ¬ [Byte.slash, Byte.star] <+: b.drop x.start ∧
    ∃ k m c, x.start ≤ k ∧ k < m ∧ m < x.stop ∧ b[k]? = some Byte.carriageReturn ∧
      b[m]? = some c ∧ isAsciiWhitespace c = false

/-- The state a loop of `skip_line_comment` ends in. -/
def lineEnd : Exit LineComment LineComment → LineComment
  | .left _ s => s
  | .off s => s

variable {c : UInt8}

theorem lineTurn_one {s s' : LineComment} {n : Option UInt8}
    (h : lineTurn .unverified s c n = .one s') :
    (s'.unreadable = false → s.unreadable = false) ∧
      (s.loneCarriageReturn = true → s'.loneCarriageReturn = true) ∧
      (c = Byte.carriageReturn → s'.loneCarriageReturn = true) ∧
      (s.loneCarriageReturn = true → s'.unreadable = false → isAsciiWhitespace c = true) := by
  unfold lineTurn at h
  split at h
  · simp at h
  split at h
  next hcr =>
    obtain rfl := Turn.one.inj h
    refine ⟨id, fun _ => rfl, fun _ => rfl, fun _ _ => ?_⟩
    simp only [beq_self_eq_true, Bool.and_true, beq_iff_eq] at hcr
    rw [hcr]
    decide
  next hcr =>
    have hne : c ≠ Byte.carriageReturn := by simpa using hcr
    split at h
    · obtain rfl := Turn.one.inj h
      exact ⟨by simp, id, fun h => absurd h hne, by simp⟩
    next hvis =>
      obtain rfl := Turn.one.inj h
      refine ⟨id, id, fun h => absurd h hne, fun hl _ => ?_⟩
      simpa [hl] using hvis

theorem lineTurn_two {stop : LineCommentEnd} {s s' : LineComment}
    {n : Option UInt8} : lineTurn stop s c n ≠ .two s' := by
  unfold lineTurn
  repeat' split
  all_goals simp

theorem readable_of_lineEnd {l : List UInt8} {i n : Nat} {s : LineComment}
    (h : (lineEnd (loop (lineTurn .unverified) l i s)).unreadable = false) :
    s.unreadable = false ∧
      ∀ m c, l[m]? = some c → i + m < (loop (lineTurn .unverified) l i s).index n →
        (s.loneCarriageReturn = true ∨ ∃ k, k < m ∧ l[k]? = some Byte.carriageReturn) →
          isAsciiWhitespace c = true := by
  fun_induction loop (lineTurn .unverified) l i s with
  | case1 => exact ⟨h, by simp⟩
  | case2 d rest i s k r hturn =>
    obtain ⟨rfl, -, rfl⟩ := lineTurn_leave hturn
    refine ⟨h, fun m c _ hm _ => ?_⟩
    simp only [Exit.index] at hm
    omega
  | case3 d rest i s s' hturn ih =>
    obtain ⟨hun, hlone, hret, hblank⟩ := lineTurn_one hturn
    obtain ⟨hs', hrest⟩ := ih h
    refine ⟨hun hs', fun m c hc hm hbefore => ?_⟩
    cases m with
    | zero =>
      obtain rfl : d = c := by simpa using hc
      rcases hbefore with hs | ⟨k, hk, -⟩
      · exact hblank hs hs'
      · omega
    | succ m =>
      refine hrest m c (by simpa using hc) (by omega) ?_
      rcases hbefore with hs | ⟨k, hk, hck⟩
      · exact .inl (hlone hs)
      · cases k with
        | zero => exact .inl (hret (by simpa using hck))
        | succ k => exact .inr ⟨k, by omega, by simpa using hck⟩
  | case4 d i s s' hturn | case5 d i s s' e rest hturn => exact absurd hturn lineTurn_two

theorem readable_of_skipLineComment {b : List UInt8} {i j : Nat}
    (h : skipLineComment b i .unverified = (.comment, j)) {k m : Nat} (hik : i ≤ k)
    (hkm : k < m) (hmj : m < j) (hk : b[k]? = some Byte.carriageReturn)
    (hm : b[m]? = some c) : isAsciiWhitespace c = true := by
  have hread : (lineEnd (loop (lineTurn .unverified) (b.drop i) i ⟨false, false⟩)).unreadable =
      false ∧ (loop (lineTurn .unverified) (b.drop i) i ⟨false, false⟩).index b.length = j := by
    unfold skipLineComment at h
    cases hl : loop (lineTurn .unverified) (b.drop i) i ⟨false, false⟩ <;>
      simp only [hl, LineComment.tok, Prod.mk.injEq, ite_eq_right_iff, reduceCtorEq, imp_false,
        Bool.not_eq_true] at h <;>
      exact h
  refine (readable_of_lineEnd (n := b.length) hread.1).2 (m - i) c ?_ ?_
    (.inr ⟨k - i, by omega, ?_⟩)
  · rw [getElem?_drop, ← hm]
    congr 1
    omega
  · rw [hread.2]
    omega
  · rw [getElem?_drop, ← hk]
    congr 1
    omega

theorem readable_of_read {b t : List UInt8} {p : SplitProfile} {i : Nat} {x : Item Tok}
    (h : readAt b t p i = some x) (hk : x.kind = .comment) : ¬ UnreadableReturn b p x := by
  rintro ⟨hstop, hline, k, m, c, hxk, hkm, hmx, hck, hcm, hvisible⟩
  obtain ⟨d, -, -, hd, -, hx⟩ := readAt_eq_some.mp h
  rcases hx with ⟨-, hsemi, -⟩ | ⟨-, hlex⟩
  · simp [hk] at hsemi
  rw [hk] at hlex
  unfold lex at hlex
  rw [hstop] at hlex
  split at hlex
  next hdash =>
    simp only [Bool.and_eq_true, beq_iff_eq] at hdash
    -- the return is past the two dashes
    have hk2 : x.start + 2 ≤ k := by
      by_contra hlt
      rcases (by omega : k = x.start ∨ k = x.start + 1) with rfl | rfl
      · rw [hd, hdash.1] at hck
        exact absurd hck (by decide)
      · rw [hdash.2] at hck
        exact absurd hck (by decide)
    have := readable_of_skipLineComment hlex hk2 hkm hmx hck hcm
    simp [hvisible] at this
  split at hlex
  next hhash =>
    simp only [Bool.and_eq_true, beq_iff_eq] at hhash
    have hk1 : x.start + 1 ≤ k := by
      by_contra hlt
      obtain rfl : k = x.start := by omega
      rw [hd, hhash.1] at hck
      exact absurd hck (by decide)
    have := readable_of_skipLineComment hlex hk1 hkm hmx hck hcm
    simp [hvisible] at this
  split at hlex
  next hblock =>
    simp only [Bool.and_eq_true, beq_iff_eq] at hblock
    obtain ⟨hlt, rfl⟩ := List.getElem?_eq_some_iff.mp hd
    obtain ⟨hlt', h1⟩ := List.getElem?_eq_some_iff.mp hblock.2
    refine hline ⟨b.drop (x.start + 2), ?_⟩
    rw [drop_eq_getElem_cons hlt, drop_eq_getElem_cons hlt', h1, hblock.1]
    rfl
  all_goals (repeat' split at hlex) <;> simp at hlex

/-! ## The account of a text -/

/-- The fragment is a slice of the text, on boundaries, trimmed and not empty. -/
structure Fragment.Sound (sql : Str) (f : Fragment) : Prop where
  start : isCharBoundary sql f.start = true
  stop : isCharBoundary sql f.stop = true
  slice : get? sql f.start f.stop = some f.text
  trimmed : trim f.text = f.text
  nonempty : f.text ≠ []

theorem Fragment.Sound.lt {sql : Str} {f : Fragment} (h : f.Sound sql) : f.start < f.stop := by
  obtain ⟨-, -, -, -, hsize⟩ := get?_eq_some.mp h.slice
  rcases Nat.eq_zero_or_pos (size f.text) with h0 | h0
  · exact absurd (size_eq_zero.mp h0) h.nonempty
  · omega

theorem Fragment.Sound.of_fragment? {sql : Str} {n m : Nat} {flags : Flags} {f : Fragment}
    (h : fragment? sql n m flags = some f) : f.Sound sql := by
  obtain ⟨raw, hraw, hne, rfl⟩ := fragment?_eq_some.mp h
  have hslice := (get?_trim hraw).1
  have hb := boundaries_of_get? hslice
  exact ⟨hb.1, hb.2, hslice, trim_trim raw, hne⟩

/-- Everything before `n` is in a fragment or excused by `E`. -/
structure Accounted (sql : Str) (E : Nat → Prop) (fragments : List Fragment) (n : Nat) :
    Prop where
  boundary : isCharBoundary sql n = true
  sound : ∀ f ∈ fragments, f.Sound sql
  ordered : fragments.Pairwise (fun f g => f.stop ≤ g.start)
  before : ∀ f ∈ fragments, f.stop ≤ n
  covered : ∀ i < n, (∃ f ∈ fragments, f.Covers i) ∨ E i

/-- The account of a loop that stands at `pos`: what is held counts as code, or
is excused. -/
structure Holding (sql : Str) (E : Nat → Prop) (p : Pending) (fragments : List Fragment)
    (pos : Nat) : Prop where
  accounted : Accounted sql E fragments p.start
  start_le : p.start ≤ pos
  idle : p.hasCode = false → ∀ i, p.start ≤ i → i < pos → E i

section Account

variable {sql : Str} {E : Nat → Prop} {fragments : List Fragment} {p : Pending} {n pos : Nat}

theorem Accounted.nil : Accounted sql E [] 0 :=
  ⟨isCharBoundary_zero sql, by simp, .nil, by simp, by simp⟩

variable {m : Nat}

theorem Accounted.extend (h : Accounted sql E fragments n) (hnm : n ≤ m)
    (hm : isCharBoundary sql m = true) (hE : ∀ i, n ≤ i → i < m → E i) :
    Accounted sql E fragments m where
  boundary := hm
  sound := h.sound
  ordered := h.ordered
  before f hf := Nat.le_trans (h.before f hf) hnm
  covered i hi := by
    by_cases hin : i < n
    · exact h.covered i hin
    · exact .inr (hE i (by omega) hi)

theorem Accounted.push (hblank : ∀ i, BlankAt sql i → E i) (h : Accounted sql E fragments n)
    (hnm : n ≤ m) (hm : isCharBoundary sql m = true) (flags : Flags) :
    Accounted sql E (pushFragment sql n m flags fragments) m := by
  have hmem : ∀ f, f ∈ pushFragment sql n m flags fragments ↔
      f ∈ fragments ∨ fragment? sql n m flags = some f := fun f => by simp [pushFragment]
  refine ⟨hm, fun f hf => ?_, ?_, fun f hf => ?_, fun i hi => ?_⟩
  · rcases (hmem f).mp hf with hf | hf
    · exact h.sound f hf
    · exact .of_fragment? hf
  · refine pairwise_append.mpr ⟨h.ordered, ?_, fun f hf g hg => ?_⟩
    · cases fragment? sql n m flags <;> simp
    · exact Nat.le_trans (h.before f hf) (fragment?_bounds (by simpa using hg)).1
  · rcases (hmem f).mp hf with hf | hf
    · exact Nat.le_trans (h.before f hf) hnm
    · exact (fragment?_bounds hf).2.2
  · by_cases hin : i < n
    · rcases h.covered i hin with ⟨f, hf, hi⟩ | hi
      · exact .inl ⟨f, (hmem f).mpr (.inl hf), hi⟩
      · exact .inr hi
    · rcases fragment?_covers flags h.boundary hm (by omega) hi with ⟨f, hf, hi⟩ | hi
      · exact .inl ⟨f, (hmem f).mpr (.inr hf), hi⟩
      · exact .inr (hblank i hi)

theorem Holding.flush (hblank : ∀ i, BlankAt sql i → E i) (h : Holding sql E p fragments pos)
    (hpos : pos ≤ m) (hm : isCharBoundary sql m = true)
    (hgap : ∀ i, pos ≤ i → i < m → BlankAt sql i) (terminated : Bool) :
    Accounted sql E (p.flush sql m terminated fragments) m := by
  have hle := Nat.le_trans h.start_le hpos
  unfold Pending.flush
  cases hcode : p.hasCode with
  | true => exact h.accounted.push hblank hle hm _
  | false =>
    refine h.accounted.extend hle hm fun i hi hlt => ?_
    by_cases hip : i < pos
    · exact h.idle hcode i hi hip
    · exact hblank i (hgap i (by omega) hlt)

theorem Accounted.holding (h : Accounted sql E fragments n) :
    Holding sql E (.startingAt n) fragments n :=
  ⟨h, Nat.le_refl n, fun _ _ hi hlt => absurd hlt (Nat.not_lt.mpr hi)⟩

theorem Holding.code (h : Holding sql E p fragments pos) (hpos : pos ≤ m) :
    Holding sql E p.withCode fragments m :=
  ⟨h.accounted, Nat.le_trans h.start_le hpos, fun hcode => by simp [Pending.withCode] at hcode⟩

theorem Holding.comment (h : Holding sql E p fragments pos) (hpos : pos ≤ m)
    (hE : ∀ i, pos ≤ i → i < m → E i) : Holding sql E (p.withComment true) fragments m :=
  ⟨h.accounted, Nat.le_trans h.start_le hpos, fun hcode i hi hlt => by
    by_cases hip : i < pos
    · exact h.idle (by simpa [Pending.withComment] using hcode) i hi hip
    · exact hE i (by omega) hlt⟩

theorem Holding.unreadable (h : Holding sql E p fragments pos) (hpos : pos ≤ m) :
    Holding sql E (p.withComment false) fragments m :=
  ⟨h.accounted, Nat.le_trans h.start_le hpos,
    fun hcode => by simp [Pending.withComment] at hcode⟩

end Account

/-! ## What is left out, and why -/

/-- The loop of `split` reads `x` with the terminator `t` in force. -/
inductive Reads (sql : Str) : SqlDialect → Str → Item Tok → Prop
  | scan {d x} : d ≠ .mySql → x ∈ scan sql (.forDialect d) → Reads sql d [';'] x
  | batch {s ahead x} : Mysql.batch.Reach (.initial sql) s →
      s.scanner.next = some (x, ahead) → Reads sql .mySql s.scanner.terminator x

/-- Why the byte at `i` may be in no fragment. -/
inductive Excused (sql : Str) (d : SqlDialect) (i : Nat) : Prop
  | blank : BlankAt sql i → Excused sql d i
  | comment {t x} : Reads sql d t x → x.kind = .comment →
      ¬ UnreadableReturn (bytes sql) (.forDialect d) x → x.Covers i → Excused sql d i
  | terminator {t x} : Reads sql d t x → x.kind = .semicolon →
      bytes t <+: (bytes sql).drop x.start → x.stop = x.start + size t → x.Covers i →
      Excused sql d i
  | directive {t x line} : d = .mySql → Reads sql d t x → x.kind = .word →
      Mysql.directiveAt sql x.start x.stop = some line → x.start ≤ i → i < line.stop →
      Excused sql d i

theorem blankAt_of_blankRange {sql : Str} {i j k : Nat} (h : BlankRange (bytes sql) i j)
    (hi : i ≤ k) (hj : k < j) : BlankAt sql k := by
  obtain ⟨x, hx, hw⟩ := h k hi hj
  exact blankAt_of_byte hx hw

section Runs

variable {sql : Str}

variable {d : SqlDialect}

theorem Holding.read (hd : d ≠ .mySql) {s : Splitting} {i : Nat}
    {x : Item Tok} (hi : isCharBoundary sql i = true)
    (h : Holding sql (Excused sql d) s.pending s.fragments i)
    (hmem : x ∈ scan sql (.forDialect d))
    (hx : readAt (bytes sql) semicolonBytes (.forDialect d) i = some x) :
    Holding sql (Excused sql d) (s.read sql x).pending (s.read sql x).fragments x.stop := by
  have hf := reader_forward hx
  have hb := boundary_of_read (t := [';']) hi hx
  obtain ⟨-, -, hblank, -⟩ := readAt_eq_some.mp hx
  have hreads := Reads.scan hd hmem
  unfold Splitting.read
  cases hk : x.kind with
  | comment =>
    refine h.comment (by omega) fun k hik hkx => ?_
    by_cases hstart : k < x.start
    · exact .blank (blankAt_of_blankRange hblank hik hstart)
    · exact .comment hreads hk (readable_of_read hx hk) ⟨by omega, hkx⟩
  | unreadableComment => exact h.unreadable (by omega)
  | semicolon =>
    obtain ⟨hpre, hstop⟩ := terminator_of_read hx hk
    refine ((h.flush (fun _ => .blank) hf.1 hb.1
      (fun k hik hkx => blankAt_of_blankRange hblank hik hkx) true).extend
      (by omega) hb.2 fun k hik hkx => ?_).holding
    exact .terminator hreads hk hpre hstop ⟨hik, hkx⟩
  | word | quoted | singleQuoted | symbol => exact h.code (by omega)

theorem accounted_splitWith (hd : d ≠ .mySql) :
    Accounted sql (Excused sql d) (splitWith sql (.forDialect d)) (size sql) := by
  suffices ∀ i s, (scanner sql (.forDialect d)).Reach 0 i →
      Holding sql (Excused sql d) s.pending s.fragments i →
      Accounted sql (Excused sql d)
        ((((scanner sql (.forDialect d)).items i).foldl (Splitting.read sql) s).finish sql)
        (size sql) from
    this 0 .initial .refl Accounted.nil.holding
  intro i
  induction i using Reader.reading_induction (r := scanner sql (.forDialect d)) with
  | h i ih =>
    intro s hreach h
    have hi := boundary_of_reach (t := [';']) (isCharBoundary_zero sql) hreach
    cases hx : (scanner sql (.forDialect d)).next i with
    | none =>
      rw [Reader.items_of_none hx]
      have hblank := readAt_eq_none.mp hx
      exact h.flush (fun _ => .blank) (isCharBoundary_le hi) (isCharBoundary_size sql)
        (fun k hik hk => blankAt_of_blankRange hblank hik hk) false
    | some x =>
      rw [Reader.items_of_some hx]
      exact ih x hx _ (.step hreach hx)
        (h.read hd hi (Reader.mem_items.mpr ⟨i, hreach, hx⟩) hx)

structure Mysql.State.Accounts (sql : Str) (s : Mysql.State) : Prop where
  text : s.scanner.sql = sql
  profile : s.scanner.profile = .mySql
  boundary : isCharBoundary sql s.scanner.pos = true
  holding : Holding sql (Excused sql .mySql) s.pending s.fragments s.scanner.pos
  /-- A body is open only in a statement that holds code. -/
  code : s.body.isOpen = true → s.pending.hasCode = true

theorem Mysql.boundary_of_directive {start stop : Nat} {line : Directive}
    (h : directiveAt sql start stop = some line) :
    stop ≤ line.stop ∧ isCharBoundary sql line.stop = true := by
  obtain ⟨word, rest, -, -, hrest, hstop⟩ := directiveAt_spec h
  obtain ⟨u, v, hsql, rfl, -⟩ := get?_eq_some.mp hrest
  refine ⟨by omega, isCharBoundary_iff.mpr
    ⟨u ++ rest.takeWhile (· != '\n'), rest.dropWhile (· != '\n') ++ v, ?_, by simp [hstop]⟩⟩
  rw [hsql, append_assoc, append_assoc,
    ← append_assoc (rest.takeWhile _), takeWhile_append_dropWhile]

theorem Mysql.State.Accounts.step {s t : State} (hreach : batch.Reach (.initial sql) s)
    (h : s.Accounts sql) (hstep : s.step = some t) : t.Accounts sql := by
  obtain ⟨x, ahead, hnext, rfl⟩ := State.step_cases hstep
  have hreads := Reads.batch hreach hnext
  obtain ⟨hx, rfl⟩ := Scanner.next_eq_some.mp hnext
  obtain ⟨htext, hprofile, hpos, hold, hcode⟩ := h
  rw [htext] at hx
  have hf := reader_forward hx
  have hb := boundary_of_read hpos hx
  obtain ⟨-, -, hblank, -⟩ := readAt_eq_some.mp hx
  have hflush : ∀ terminated, Accounted sql (Excused sql .mySql)
      (s.pending.flush sql x.start terminated s.fragments) x.start :=
    hold.flush (fun _ => .blank) hf.1 hb.1
      fun k hik hkx => blankAt_of_blankRange hblank hik hkx
  unfold State.read
  cases hk : x.kind with
  | comment =>
    refine ⟨htext, hprofile, hb.2, hold.comment (by simp only; omega) fun k hik hkx => ?_,
      hcode⟩
    by_cases hstart : k < x.start
    · exact .blank (blankAt_of_blankRange hblank hik hstart)
    · have hreadable := readable_of_read hx hk
      rw [hprofile] at hreadable
      exact .comment hreads hk hreadable ⟨by omega, hkx⟩
  | unreadableComment =>
    exact ⟨htext, hprofile, hb.2, hold.unreadable (by simp only; omega), fun _ => rfl⟩
  | semicolon =>
    obtain ⟨hpre, hstop⟩ := terminator_of_read hx hk
    by_cases hopen : s.body.isOpen = true
    · -- a separator of a body that is open: the statement goes on
      simp only [hopen, if_true]
      have hsame : s.pending.withCode = s.pending := by
        simp only [Pending.withCode, ← hcode hopen]
      exact ⟨htext, hprofile, hb.2, hsame ▸ hold.code (by simp only; omega), hcode⟩
    · simp only [hopen, htext]
      refine ⟨rfl, hprofile, hb.2, ((hflush true).extend (by omega) hb.2
        fun k hik hkx => ?_).holding, fun h => by simp [Body.isOpen, Body.empty] at h⟩
      exact .terminator hreads hk hpre hstop ⟨hik, hkx⟩
  | word =>
    simp only
    rcases State.readWord_cases { s with scanner := { s.scanner with pos := x.stop } } x with
      ⟨line, hline, h⟩ | ⟨body, scanner, hahead, h⟩
    · rw [h]
      simp only [htext] at hline ⊢
      have hlb := boundary_of_directive hline
      refine ⟨rfl, hprofile, hlb.2, ((hflush false).extend (by omega) hlb.2
        fun k hik hkx => ?_).holding, fun h => by simp [Body.isOpen, Body.empty] at h⟩
      exact .directive rfl hreads hk hline hik hkx
    · rw [h]
      have hle := hahead.pos_le
      have hreach' := hahead.reach
      simp only [htext] at hle hreach'
      exact ⟨hahead.sql.trans htext, hahead.profile.trans hprofile,
        boundary_of_reach hb.2 hreach', hold.code (by simp only; omega), fun _ => rfl⟩
  | quoted | singleQuoted | symbol =>
    exact ⟨htext, hprofile, hb.2, hold.code (by simp only; omega), fun _ => rfl⟩

theorem Mysql.State.accounts_of_reach {s : State} (h : batch.Reach (.initial sql) s) :
    s.Accounts sql := by
  induction h with
  | refl =>
    exact ⟨rfl, rfl, isCharBoundary_zero sql, Accounted.nil.holding,
      fun h => by simp [initial, Body.isOpen, Body.empty] at h⟩
  | step hreach hstep ih => exact ih.step hreach hstep

theorem Mysql.accounted_split :
    Accounted sql (Excused sql .mySql) (Mysql.split sql) (size sql) := by
  have h := State.accounts_of_reach (Loop.reach_final (State.initial sql))
  have hend := Loop.step_final (m := batch) (.initial sql)
  unfold Mysql.split State.finish
  generalize batch.final (.initial sql) = s at h hend
  obtain ⟨htext, -, hpos, hold, -⟩ := h
  have hnone : readAt (bytes sql) (bytes s.scanner.terminator) s.scanner.profile s.scanner.pos =
      none := by
    have : s.scanner.next = none := by simpa [batch, State.step] using hend
    simpa [Scanner.next, htext] using this
  rw [htext]
  exact hold.flush (fun _ => .blank) (isCharBoundary_le hpos) (isCharBoundary_size sql)
    (fun k hik hk => blankAt_of_blankRange (readAt_eq_none.mp hnone) hik hk) false

/-- A comment begins with two dashes, with a hash or with a slash and a star. -/
theorem Reads.opens {t : Str} {x : Item Tok} (h : Reads sql d t x)
    (hk : x.kind = .comment) :
    ((bytes sql)[x.start]? = some Byte.dash ∧ (bytes sql)[x.start + 1]? = some Byte.dash) ∨
      (bytes sql)[x.start]? = some Byte.hash ∨
      ((bytes sql)[x.start]? = some Byte.slash ∧ (bytes sql)[x.start + 1]? = some Byte.star) := by
  obtain ⟨terminator, p, i, hread⟩ : ∃ terminator p i,
      readAt (bytes sql) terminator p i = some x := by
    cases h with
    | scan _ hx =>
      obtain ⟨i, -, hread⟩ := Reader.mem_items.mp hx
      exact ⟨_, _, i, hread⟩
    | batch hreach hnext =>
      obtain ⟨hread, -⟩ := Scanner.next_eq_some.mp hnext
      rw [(Mysql.State.accounts_of_reach hreach).text] at hread
      exact ⟨_, _, _, hread⟩
  obtain ⟨c, -, -, hc, -, ⟨-, hsemi, -⟩ | ⟨-, hlex⟩⟩ := readAt_eq_some.mp hread
  · cases hk.symm.trans hsemi
  · rw [hk] at hlex
    rw [hc]
    unfold lex at hlex
    repeat' split at hlex
    all_goals simp_all

/-- A directive begins with its keyword. -/
theorem Mysql.keyword_of_directive {start stop : Nat} {line : Directive}
    (h : directiveAt sql start stop = some line) :
    ∃ word, get? sql start stop = some word ∧ isKeyword word "delimiter" = true := by
  obtain ⟨word, -, hword, hkeyword, -⟩ := directiveAt_spec h
  exact ⟨word, hword, hkeyword⟩

end Runs

/-- The fragments of a text are slices of it, in order, and every byte in none of
them is excused. -/
theorem split_accounts_for_every_byte (sql : Str) (d : SqlDialect) :
    (split sql d).Pairwise (fun f g => f.stop ≤ g.start) ∧
      (∀ f ∈ split sql d, isCharBoundary sql f.start = true ∧
        isCharBoundary sql f.stop = true ∧ f.start < f.stop ∧ f.stop ≤ size sql ∧
        f.text ≠ [] ∧ trim f.text = f.text ∧ get? sql f.start f.stop = some f.text) ∧
      ∀ i < size sql, (∀ f ∈ split sql d, ¬ f.Covers i) → Excused sql d i := by
  have h : Accounted sql (Excused sql d) (split sql d) (size sql) := by
    unfold split
    split
    next hd => exact hd ▸ Mysql.accounted_split
    next hd => exact accounted_splitWith hd
  refine ⟨h.ordered, fun f hf => ?_, fun i hi hout => ?_⟩
  · have hs := h.sound f hf
    exact ⟨hs.start, hs.stop, hs.lt, h.before f hf, hs.nonempty, hs.trimmed, hs.slice⟩
  · rcases h.covered i hi with ⟨f, hf, hcov⟩ | hex
    · exact absurd hcov (hout f hf)
    · exact hex

end Oxyn
