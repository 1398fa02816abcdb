/-
# `Oxyn.Query.Isolate` — when a trigger is cut

Two runs of `sqlite_statements` over a trigger.
-/
import Oxyn.Query.Trigger

namespace Oxyn

open Text Cursor List
open String (toList_ofList)
open TriggerFlags (inBody initial readHeader readPrefix)

variable {f : Fragment}

theorem Fragment.covers_of_fragment? {sql : Str} {n m i : Nat} {flags : Flags}
    (h : fragment? sql n m flags = some f) (hi : n ≤ i) (him : i < m)
    (hblank : ¬ BlankAt sql i) : f.Covers i := by
  obtain ⟨raw, hraw, -, -⟩ := fragment?_eq_some.mp h
  obtain ⟨hn, hm⟩ := boundaries_of_get? hraw
  rcases fragment?_covers flags hn hm hi him with ⟨g, hg, hcov⟩ | hb
  · exact Option.some.inj (h.symm.trans hg) ▸ hcov
  · exact absurd hb hblank

theorem Bare.not_blank {sql : Str} {k : String} {x : Item Tok} (h : Bare sql k x)
    (hk : k.toList ≠ [] ∧ k.toList.all (fun d => !isWhitespace d) = true) :
    ¬ BlankAt sql x.start ∧ ¬ BlankAt sql (x.stop - 1) := by
  have hkey := h.2
  have hword : ∀ d ∈ k.toList, isWhitespace d = false := by simpa using hk.2
  cases hget : get? sql x.start x.stop with
  | none =>
    simp only [hget, Option.getD_none, isKeyword, eqIgnoreAsciiCase, map_nil,
      beq_iff_eq] at hkey
    exact absurd (map_eq_nil_iff.mp hkey.symm) hk.1
  | some w =>
    simp only [hget, Option.getD_some, isKeyword] at hkey
    have htrim := trim_eq_self (not_isWhitespace_of_eqIgnoreAsciiCase hkey hword)
    have hne : w ≠ [] := by
      rintro rfl
      simp only [eqIgnoreAsciiCase, map_nil, beq_iff_eq] at hkey
      exact hk.1 (map_eq_nil_iff.mp hkey.symm)
    rw [← htrim] at hget hne
    exact (not_blankAt_of_trim hget hne).2

theorem code_snoc (l : List (Item Tok)) (x : Item Tok) :
    code (l ++ [x]) = if x.kind.isComment then code l else code l ++ [x] := by
  cases h : x.kind.isComment <;> simp [code, h]

/-! ## The whole trigger is pending -/

section Whole

variable {sql : Str} {l : List (Item Tok)} {x : Item Tok} {s : SqliteState}

/-- Nothing was cut yet. -/
structure Whole (sql : Str) (l : List (Item Tok)) (s : SqliteState) : Prop where
  fragments : s.fragments = []
  start : s.pending.start = 0
  hasCode : s.pending.hasCode = !(code l).isEmpty
  flags : s.flags = flagsOf sql (code l)

theorem Whole.read (h : Whole sql l s)
    (hx : x.kind = .semicolon → (flagsOf sql (code l)).inBody = true) :
    Whole sql (l ++ [x]) (s.read sql x) := by
  obtain ⟨hfragments, hstart, hcode, hflags⟩ := h
  have hsnoc := code_snoc l x
  unfold SqliteState.read
  cases hk : x.kind
  case comment | unreadableComment =>
    rw [hk] at hsnoc
    simp only [Tok.isComment, if_true] at hsnoc
    exact ⟨hfragments, by simpa [Pending.withComment] using hstart,
      by simpa [Pending.withComment, hsnoc] using hcode, by simpa [hsnoc] using hflags⟩
  case semicolon =>
    rw [hk] at hsnoc
    simp only [Tok.isComment, Bool.false_eq_true, if_false] at hsnoc
    have hin := hx hk
    have hne : code l ≠ [] := by
      intro hnil
      simp [hnil, flagsOf, initial, inBody] at hin
    rw [if_pos (hflags ▸ hin)]
    exact ⟨hfragments, hstart, by
      rw [hsnoc, hcode, isEmpty_eq_false_iff.mpr hne]; simp,
      by simp only [hsnoc, flagsOf_snoc, hflags, hcode]⟩
  all_goals
    rw [hk] at hsnoc
    simp only [Tok.isComment, Bool.false_eq_true, if_false] at hsnoc
    exact ⟨hfragments, hstart, by simp [hsnoc, Pending.withCode],
      by simp only [hsnoc, flagsOf_snoc, hflags, hcode]⟩

/-- Nothing is cut as long as each `;` is one of the body. -/
theorem whole_run (sql : Str) (l : List (Item Tok))
    (h : ∀ a x, a ++ [x] <+: code l → x.kind = .semicolon → (flagsOf sql a).inBody = true) :
    Whole sql l (l.foldl (SqliteState.read sql) .initial) := by
  induction l using List.reverseRecOn with
  | nil => exact ⟨rfl, rfl, rfl, rfl⟩
  | append_singleton l x ih =>
    have hpre : code l <+: code (l ++ [x]) := ⟨code [x], by simp [code]⟩
    rw [foldl_append]
    refine (ih fun a y hy => h a y (hy.trans hpre)).read fun hk => h _ x ?_ hk
    rw [code_snoc]
    simp [hk, Tok.isComment]

end Whole

/-! ## A statement of the body was cut -/

section Broken

variable {sql : Str} {l : List (Item Tok)} {x : Item Tok} {s : SqliteState}

/-- A `;` was taken for the end of a statement: nothing is left of the trigger in
the flags, and what is pending follows a `;`. -/
structure Broken (l : List (Item Tok)) (s : SqliteState) : Prop where
  flags : s.flags = .initial
  cut : ∃ y ∈ l, y.kind = .semicolon ∧ s.pending.start = y.stop
  done : ∀ f ∈ s.fragments, f.stop ≤ s.pending.start
  empty : s.pending.hasCode = false ↔ ∃ y ∈ (code l).getLast?, y.kind = .semicolon
  since : s.pending.hasCode = false → ∀ y ∈ l, s.pending.start ≤ y.start →
    y.kind.isComment = true

theorem read_initial {hasCode : Bool} (hsep : x.kind ≠ .semicolon)
    (hcreate : hasCode = false → ¬ Bare sql "create" x) :
    initial.read sql hasCode x = .initial := by
  unfold TriggerFlags.read
  cases hk : x.kind
  case semicolon => exact absurd hk hsep
  case word =>
      cases hasCode
      · have : isKeyword ((get? sql x.start x.stop).getD []) "create" = false :=
          Bool.eq_false_iff.mpr fun h => hcreate rfl ⟨hk, h⟩
        simp [readPrefix, readHeader, TriggerFlags.afterCode,
          inBody, initial, this]
      · simp [readPrefix, readHeader, TriggerFlags.afterCode,
          inBody, initial]
  all_goals rfl

theorem broken_of_flush (hx : x.kind = .semicolon) (hin : s.flags.inBody = false)
    (hdone : ∀ f ∈ s.fragments, f.stop ≤ x.start) (hafter : ∀ y ∈ l, y.stop ≤ x.start)
    (hpos : ∀ y ∈ l, y.start < y.stop) (hlt : x.start < x.stop) :
    Broken (l ++ [x]) (s.read sql x) := by
  have hread : s.read sql x =
      ⟨s.pending.flush sql x.start true s.fragments, .startingAt x.stop, .initial⟩ := by
    simp [SqliteState.read, hx, hin]
  rw [hread]
  refine ⟨rfl, ⟨x, by simp, hx, rfl⟩, fun f hf => ?_, ?_, fun _ y hy hge => ?_⟩
  · simp only [Pending.startingAt]
    rw [Pending.flush_eq] at hf
    rcases mem_append.mp hf with hf | hf
    · have := hdone f hf
      omega
    · have := (fragment?_bounds (Pending.mem_flush.mp hf).2).2.2
      omega
  · rw [code_snoc]
    simp [hx, Tok.isComment, Pending.startingAt]
  · simp only [Pending.startingAt] at hge
    rcases mem_append.mp hy with hy | hy
    · have := hafter y hy
      have := hpos y hy
      omega
    · obtain rfl := mem_singleton.mp hy
      omega

theorem Broken.read (h : Broken l s) (hafter : ∀ y ∈ l, y.stop ≤ x.start)
    (hpos : ∀ y ∈ l, y.start < y.stop) (hlt : x.start < x.stop)
    (hnever : NeverFirst sql "create" (code (l ++ [x]))) :
    Broken (l ++ [x]) (s.read sql x) := by
  obtain ⟨y, hy, hsep, hstart⟩ := h.cut
  have hle := hafter y hy
  have hsnoc := code_snoc l x
  by_cases hx : x.kind = .semicolon
  · exact broken_of_flush hx (by rw [h.flags]; rfl)
      (fun f hf => (h.done f hf).trans (by omega)) hafter hpos hlt
  by_cases hcomment : x.kind.isComment = true
  · -- a comment changes nothing that matters
    have hread : s.read sql x = { s with pending := s.pending.withComment true } := by
      unfold SqliteState.read
      cases hk : x.kind <;> first | rfl | simp [hk, Tok.isComment] at hcomment
    rw [if_pos hcomment] at hsnoc
    rw [hread]
    refine ⟨h.flags, ⟨y, by simp [hy], hsep, hstart⟩, h.done, by rw [hsnoc]; exact h.empty,
      fun hcode z hz hge => ?_⟩
    rcases mem_append.mp hz with hz | hz
    · exact h.since hcode z hz hge
    · obtain rfl := mem_singleton.mp hz
      exact hcomment
  · rw [if_neg hcomment] at hsnoc
    have hread : s.read sql x = { s with
        pending := s.pending.withCode, flags := s.flags.read sql s.pending.hasCode x } := by
      unfold SqliteState.read
      cases hk : x.kind <;> first
        | rfl | exact absurd hk hx | simp [hk, Tok.isComment] at hcomment
    have hflags : s.flags.read sql s.pending.hasCode x = .initial := by
      rw [h.flags]
      refine read_initial hx fun hcode => ?_
      obtain ⟨z, hz, hsepz⟩ := h.empty.mp hcode
      rw [hsnoc] at hnever
      exact (isChain_append.mp hnever).2.2 z hz x (by simp) hsepz
    rw [hread]
    exact ⟨hflags, ⟨y, by simp [hy], hsep, hstart⟩, h.done,
      by simp [hsnoc, Pending.withCode, hx], fun hcode => by simp [Pending.withCode] at hcode⟩

/-- A run cuts nothing as long as each `;` is one of the body, and is broken from
the first one that is not. -/
theorem whole_or_broken (hpair : l.Pairwise fun x y => x.stop ≤ y.start)
    (hpos : ∀ y ∈ l, y.start < y.stop) (hnever : NeverFirst sql "create" (code l)) :
    (∀ a x, a ++ [x] <+: code l → x.kind = .semicolon → (flagsOf sql a).inBody = true) ∨
      Broken l (l.foldl (SqliteState.read sql) .initial) := by
  induction l using List.reverseRecOn with
  | nil => exact .inl fun a x hpre => by simp [code] at hpre
  | append_singleton l x ih =>
    obtain ⟨hl, -, hafter⟩ := pairwise_append.mp hpair
    have hafter : ∀ y ∈ l, y.stop ≤ x.start := fun y hy => hafter y hy x (by simp)
    have hpos' : ∀ y ∈ l, y.start < y.stop := fun y hy => hpos y (by simp [hy])
    have hlt := hpos x (by simp)
    have hsub : NeverFirst sql "create" (code l) := by
      rw [code, filter_append] at hnever
      exact hnever.left_of_append
    rw [foldl_append]
    rcases ih hl hpos' hsub with hin | hbroken
    · have hwhole := whole_run sql l hin
      by_cases hx : x.kind = .semicolon ∧ (flagsOf sql (code l)).inBody = false
      · exact .inr (broken_of_flush hx.1 (by rw [hwhole.flags]; exact hx.2)
          (by simp [hwhole.fragments]) hafter hpos' hlt)
      · refine .inl fun a y hpre hy => ?_
        rw [code_snoc] at hpre
        split at hpre
        · exact hin a y hpre hy
        · rcases prefix_concat_iff.mp hpre with heq | hpre
          · obtain ⟨rfl, hlast⟩ := append_inj' heq rfl
            obtain rfl := singleton_inj.mp hlast
            simpa [hy] using hx
          · exact hin a y hpre hy
    · exact .inr (hbroken.read hafter hpos' hlt hnever)

end Broken

/-! ## After the last `END` -/

section Ending

variable {sql : Str} {done : List Fragment} {k n : Nat} {x : Item Tok} {s : SqliteState}

/-- What is pending from `k` on reaches `n`, or was cut there or later. -/
def Ends (sql : Str) (done : List Fragment) (k n : Nat) (s : SqliteState) : Prop :=
  (s.fragments = done ∧ s.pending.start = k ∧ s.pending.hasCode = true) ∨
    ∃ m flags, n ≤ m ∧ isCharBoundary sql m = true ∧ s.pending.hasCode = false ∧
      s.fragments = done ++ (fragment? sql k m flags).toList

theorem Ends.read (h : Ends sql done k n s) (hx : x.kind.isComment = true ∨ x.kind = .semicolon)
    (hstart : n ≤ x.start) (hboundary : isCharBoundary sql x.start = true) :
    Ends sql done k n (s.read sql x) := by
  unfold SqliteState.read
  rcases hx with hx | hx
  · -- a comment: what is pending does not move
    have hsame : Ends sql done k n { s with pending := s.pending.withComment true } := by
      simpa [Ends, Pending.withComment] using h
    cases hk : x.kind <;> first | exact hsame | simp [hk, Tok.isComment] at hx
  · simp only [hx]
    split
    · exact h
    · unfold Pending.flush
      rcases h with ⟨hdone, hk, hcode⟩ | ⟨m, flags, hm, hb, hcode, hdone⟩
      · rw [if_pos hcode, hdone, hk]
        exact .inr ⟨x.start, _, hstart, hboundary, rfl, rfl⟩
      · rw [if_neg (by simp [hcode]), hdone]
        exact .inr ⟨m, flags, hm, hb, rfl, rfl⟩

theorem Ends.run {l : List (Item Tok)} (h : Ends sql done k n s)
    (hl : ∀ x ∈ l, (x.kind.isComment = true ∨ x.kind = .semicolon) ∧ n ≤ x.start ∧
      isCharBoundary sql x.start = true) :
    Ends sql done k n (l.foldl (SqliteState.read sql) s) := by
  induction l generalizing s with
  | nil => exact h
  | cons x l ih =>
    obtain ⟨hx, hstart, hb⟩ := hl x (by simp)
    exact ih (h.read hx hstart hb) fun y hy => hl y (by simp [hy])

theorem initial_run {l : List (Item Tok)} (h : s.flags = .initial)
    (hl : ∀ x ∈ l, x.kind.isComment = true ∨ x.kind = .semicolon) :
    (l.foldl (SqliteState.read sql) s).flags = .initial := by
  induction l generalizing s with
  | nil => exact h
  | cons x l ih =>
    refine ih ?_ fun y hy => hl y (by simp [hy])
    unfold SqliteState.read
    rcases hl x (by simp) with hx | hx
    · cases hk : x.kind <;> first | exact h | simp [hk, Tok.isComment] at hx
    · simp [hx, h, inBody, initial]

theorem Ends.finish (h : Ends sql done k n s) (hn : n ≤ size sql) :
    ∃ m flags, n ≤ m ∧ isCharBoundary sql m = true ∧
      s.pending.flush sql (size sql) false s.fragments =
        done ++ (fragment? sql k m flags).toList := by
  unfold Pending.flush
  rcases h with ⟨hdone, hk, hcode⟩ | ⟨m, flags, hm, hb, hcode, hdone⟩
  · rw [if_pos hcode, hdone, hk]
    exact ⟨size sql, _, hn, isCharBoundary_size sql, rfl⟩
  · rw [if_neg (by simp [hcode])]
    exact ⟨m, flags, hm, hb, hdone⟩

end Ending

/-! ## The first word of a slice -/

variable {c : UInt8} {i : Nat}

theorem lex_letter {b : List UInt8} (hc : isAsciiAlphabetic c = true) :
    lex b i c .sqlite = (.word, skipWord b i) := by
  have hrange : (0x41 ≤ c.toNat ∧ c.toNat ≤ 0x5a) ∨ (0x61 ≤ c.toNat ∧ c.toNat ≤ 0x7a) := by
    simpa [isAsciiAlphabetic] using hc
  have hne : ∀ d : UInt8, d.toNat < 0x41 ∨ (0x5a < d.toNat ∧ d.toNat < 0x61) →
      (c == d) = false := by
    intro d hd
    refine beq_eq_false_iff_ne.mpr ?_
    rintro rfl
    omega
  have hstart : isWordStart c = true := by simp [isWordStart, hc]
  simp only [lex, SplitProfile.sqlite, hne Byte.dash (by decide), hne Byte.hash (by decide),
    hne Byte.slash (by decide), hne Byte.apostrophe (by decide), hne Byte.doubleQuote (by decide),
    hne Byte.backtick (by decide), hne Byte.openBracket (by decide), hne Byte.dollar (by decide),
    hstart, Bool.false_and, Bool.false_eq_true, if_false, if_true]

/-- The first word of a slice is the first the scanner reports from where it begins, when only
comments come before it. -/
theorem words_of_slice {sql text : Str} {n m : Nat} (hget : get? sql n m = some text)
    {cs l : List (Item Tok)} {e : Item Tok} (hitems : (scanner sql .sqlite).items n = cs ++ e :: l)
    (hcs : ∀ y ∈ cs, y.kind.isComment = true) (hem : e.stop ≤ m)
    (hc : (bytes sql)[e.start]? = some c) (hletter : isAsciiAlphabetic c = true) :
    ∃ w ws, words text .sqlite = w :: ws ∧ (bytes w.text)[0]? = some c := by
  obtain ⟨u, v, rfl, rfl, rfl⟩ := get?_eq_some.mp hget
  -- the text from the slice on is read as the whole is, moved
  have hshift : ∀ i, 0 ≤ i → (scanner (u ++ text ++ v) .sqlite).next (i + size u) =
      ((scanner (text ++ v) .sqlite).next i).map (Item.shift (size u)) := by
    intro i _
    have := readAt_shift (bytes u) (bytes (text ++ v)) semicolonBytes (p := .sqlite) (.inl rfl) i
    simpa only [scanner, reader, append_assoc, bytes_append u, length_bytes] using this
  have hmoved := Reader.items_shift hshift (Nat.le_refl 0)
  rw [Nat.zero_add, hitems] at hmoved
  obtain ⟨cs', l', hfrom, rfl, hl'⟩ := append_eq_map_iff.mp hmoved
  obtain ⟨e', l', rfl, rfl, rfl⟩ := map_eq_cons_iff.mp hl'
  obtain ⟨j, hj, he, hrest⟩ := Reader.reach_of_items hfrom
  have hf := Reader.forward _ he
  simp only [Item.shift] at hem hc
  have hagree : ∀ m, m < size text → (bytes (text ++ v))[m]? = (bytes text)[m]? := fun m hm => by
    rw [bytes_append, getElem?_append_left (by simpa using hm)]
  have hc' : (bytes (text ++ v))[e'.start]? = some c := by
    rw [append_assoc, bytes_append u, getElem?_append_right (by simp)] at hc
    simpa using hc
  have hcText : (bytes text)[e'.start]? = some c := by rw [← hagree _ (by omega), hc']
  -- up to the word the slice is read as that text is
  obtain ⟨front, hfull, hslice, hreach⟩ := Reader.items_congr_until
    (q := scanner text .sqlite) hj fun i y hi hy hle =>
      AgreeUntil.readAt (n := e'.start) ⟨fun m _ hm => hagree m (by omega), hc', hcText, .inl rfl⟩
        (fun _ _ _ => rfl) (.inl rfl) hy (by omega)
  obtain rfl : front = cs' := by
    rw [Reader.items_of_some he, ← hrest] at hfull
    exact (append_cancel_right (hfull.symm.trans hfrom))
  -- and the word is one there too
  have hword : (scanner text .sqlite).next j =
      some ⟨.word, e'.start, skipWord (bytes text) e'.start⟩ := by
    obtain ⟨c', hi, hblank, hcc, hw, hread⟩ := readAt_eq_some.mp he
    obtain rfl := Option.some.inj (hc'.symm.trans hcc)
    refine readAt_eq_some.mpr ⟨c, hi, blankRange_congr (fun m _ (hm : m < e'.start) =>
      hagree m (by omega)) hblank,
      hcText, hw, .inr ⟨?_, lex_letter hletter⟩⟩
    refine Bool.eq_false_iff.mpr fun hterm => ?_
    obtain ⟨-, rest, hdrop⟩ := atTerminator_eq_true.mp hterm
    have hsemi := congrArg (·[0]?) hdrop
    simp only [getElem?_drop, Nat.add_zero, hcText] at hsemi
    obtain rfl : Byte.semicolon = c := by simpa [semicolonBytes] using hsemi
    exact absurd hletter (by decide)
  have hboundary := boundary_of_read (t := [';'])
    (boundary_of_reach (t := [';']) (isCharBoundary_zero text) hreach) hword
  have hfw := Reader.forward _ hword
  obtain ⟨wtext, hwtext⟩ := get?_of_boundaries hboundary.1 hboundary.2 (by omega)
  have hnone : front.filterMap (word? text) = [] := by
    refine filterMap_eq_nil_iff.mpr fun y hy => if_neg fun hk => ?_
    have := hcs (y.shift (size u)) (mem_map_of_mem hy)
    simp [Item.shift, hk, Tok.isComment] at this
  obtain ⟨w, hw, hwt⟩ : ∃ w, word? text ⟨.word, e'.start, skipWord (bytes text) e'.start⟩ =
      some w ∧ w.text = wtext := by
    unfold word?
    rw [if_pos rfl, hwtext]
    exact ⟨_, rfl, rfl⟩
  have hwords : words text .sqlite = w ::
      ((scanner text .sqlite).items (skipWord (bytes text) e'.start)).filterMap (word? text) := by
    unfold words wordsWith scan
    change ((scanner text .sqlite).items 0).filterMap _ = _
    rw [hslice, Reader.items_of_some hword, filterMap_append, hnone, nil_append,
      filterMap_cons_some hw]
  refine ⟨w, _, hwords, ?_⟩
  have := bytes_of_get? hwtext 0
  rw [if_pos (by simpa using hfw.2.1)] at this
  simpa [hcText, hwt] using this

/-! ## No comment of SQLite is unreadable -/

theorem lineTurn_lineFeed (s : LineComment) (c : UInt8) (n : Option UInt8) :
    lineTurn .lineFeed s c n = .leave 0 s ∨ lineTurn .lineFeed s c n = .one s := by
  unfold lineTurn
  split
  · exact .inl rfl
  · exact .inr (by simp)

theorem skipLineComment_lineFeed (b : List UInt8) (i : Nat) :
    (skipLineComment b i .lineFeed).1 = .comment := by
  have hkeep : ∀ (l : List UInt8) (i : Nat) (s : LineComment),
      (∀ j t, loop (lineTurn .lineFeed) l i s = .left j t → t = s) ∧
        ∀ t, loop (lineTurn .lineFeed) l i s = .off t → t = s := by
    intro l
    induction l with
    | nil => exact fun i s => ⟨by simp [loop], by simp [loop]⟩
    | cons c l ih =>
      intro i s
      rcases lineTurn_lineFeed s c l.head? with h | h
      · exact ⟨by simp [loop, h], by simp [loop, h]⟩
      · simpa only [loop, h] using ih (i + 1) s
  unfold skipLineComment
  cases hl : loop (lineTurn .lineFeed) (b.drop i) i ⟨false, false⟩ with
  | left j t => rw [(hkeep _ _ _).1 j t hl]; rfl
  | off t => rw [(hkeep _ _ _).2 t hl]; rfl

theorem lex_comment {b : List UInt8} (h : (lex b i c .sqlite).1.isComment = true) :
    (lex b i c .sqlite).1 = .comment ∧ (c = Byte.dash ∨ c = Byte.slash) := by
  unfold lex at h ⊢
  simp only [SplitProfile.sqlite, Bool.and_false, Bool.false_eq_true, if_false, Bool.and_true]
    at h ⊢
  split
  next hc =>
    simp only [Bool.and_eq_true, beq_iff_eq] at hc
    exact ⟨skipLineComment_lineFeed .., .inl hc.1⟩
  next hc =>
    rw [if_neg hc] at h
    split
    next hc =>
      simp only [Bool.and_eq_true, beq_iff_eq] at hc
      exact ⟨rfl, .inr hc.1⟩
    next hc =>
      rw [if_neg hc] at h
      repeat' split at h
      all_goals simp [Tok.isComment] at h

theorem readable_of_scan {sql : Str} {x : Item Tok} (hx : x ∈ scan sql .sqlite) :
    x.kind ≠ .unreadableComment := by
  intro hk
  obtain ⟨j, -, hread⟩ := Reader.mem_items.mp hx
  obtain ⟨c, -, -, -, -, hsep | ⟨-, hlex⟩⟩ := readAt_eq_some.mp hread
  · simp [hk] at hsep
  · have := (lex_comment (b := bytes sql) (i := x.start) (c := c) (by rw [hlex, hk]; rfl)).1
    rw [hlex, hk] at this
    cases this

theorem readable_flush {sql : Str} {s : Splitting} {stop : Nat} {terminated : Bool}
    (h : s.pending.unreadable = false ∧ ∀ g ∈ s.fragments, g.unreadableComment = false) :
    ∀ g ∈ s.pending.flush sql stop terminated s.fragments, g.unreadableComment = false := by
  intro g hg
  rw [Pending.flush_eq] at hg
  rcases mem_append.mp hg with hg | hg
  · exact h.2 g hg
  · obtain ⟨raw, -, -, rfl⟩ := fragment?_eq_some.mp (Pending.mem_flush.mp hg).2
    exact h.1

/-- No fragment of a SQLite text holds an unreadable comment. -/
theorem readable_of_split {sql : Str} (hf : f ∈ split sql .sqlite) :
    f.unreadableComment = false := by
  have hrun : ∀ l : List (Item Tok), (∀ x ∈ l, x.kind ≠ .unreadableComment) → ∀ s : Splitting,
      (s.pending.unreadable = false ∧ ∀ g ∈ s.fragments, g.unreadableComment = false) →
      (l.foldl (Splitting.read sql) s).pending.unreadable = false ∧
        ∀ g ∈ (l.foldl (Splitting.read sql) s).fragments, g.unreadableComment = false := by
    intro l
    induction l with
    | nil => exact fun _ s h => h
    | cons x l ih =>
      intro hl s hs
      refine ih (fun y hy => hl y (by simp [hy])) _ ?_
      have hx := hl x (by simp)
      unfold Splitting.read
      cases hk : x.kind
      case unreadableComment => exact absurd hk hx
      case semicolon => exact ⟨rfl, readable_flush hs⟩
      all_goals exact hs
  have h := hrun (scan sql .sqlite) (fun x hx => readable_of_scan hx) .initial
    ⟨rfl, by simp [Splitting.initial]⟩
  exact readable_flush h f hf

/-! ## What is returned -/

theorem selected_mem {sql : Str} {d : SqlDialect} {cursor : Nat} {fragments : List Fragment}
    (h : selected sql d cursor fragments = some f) : f ∈ fragments := by
  unfold selected at h
  dsimp only at h
  split at h
  next g hg =>
    obtain rfl := Option.some.inj h
    exact mem_of_find?_eq_some (Option.filter_eq_some_iff.mp hg).1
  next => exact mem_reverse.mp (mem_of_find?_eq_some h)

theorem mem_of_currentStatement {parse : Parser} {sql : Str} {cursor : Nat}
    (h : currentStatement parse sql .sqlite cursor = .ok (some f)) :
    ∃ fragments, sqliteStatements sql cursor = .ok fragments ∧ f ∈ fragments := by
  unfold currentStatement at h
  split at h
  · cases h
  · cases hs : sqliteStatements sql cursor with
    | error e => simp [hs, bind, Except.bind] at h
    | ok fragments =>
      refine ⟨fragments, rfl, ?_⟩
      simp only [hs, bind, Except.bind, if_true] at h
      cases hsel : selected sql .sqlite cursor fragments with
      | none => simp [hsel, pure, Except.pure] at h
      | some g =>
        simp only [hsel] at h
        cases hcheck : checkSelected parse .sqlite cursor g with
        | error e => simp [hcheck] at h
        | ok u =>
          simp only [hcheck, pure, Except.pure, Except.ok.injEq, Option.some.injEq] at h
          exact h ▸ selected_mem hsel

namespace TriggerText

variable {sql : Str} (t : TriggerText sql)

/-- What `current_statement` may return of a trigger: all of it. -/
def CoveredBy (f : Fragment) : Prop := f.start ≤ t.opening.create.start ∧ t.ending.stop ≤ f.stop

theorem create_before : t.opening.create ∈ t.before := by simp [before, TriggerPrefix.all]

theorem after_ending {l l' : List (Item Tok)} (hscan : scan sql .sqlite = l ++ t.ending :: l')
    (hl' : code l' = t.terminator.toList) :
    ∀ x ∈ l', (x.kind.isComment = true ∨ x.kind = .semicolon) ∧ t.ending.stop ≤ x.start ∧
      isCharBoundary sql x.start = true := by
  intro x hx
  have hpair := Reader.pairwise_items (r := scanner sql .sqlite) 0
  change (scan sql .sqlite).Pairwise _ at hpair
  rw [hscan] at hpair
  refine ⟨?_, ?_, ?_⟩
  · by_cases hc : x.kind.isComment = true
    · exact .inl hc
    · have : x ∈ code l' := mem_filter.mpr ⟨hx, by simpa using hc⟩
      rw [hl', Option.mem_toList] at this
      exact .inr (t.isTerminator x this)
  · exact (pairwise_cons.mp (pairwise_append.mp hpair).2.1).1 x hx
  · exact (boundary_of_scan (p := .sqlite) (by rw [hscan]; simp [hx])).1

theorem create_ending : t.opening.create.stop ≤ t.ending.start ∧
    t.opening.create.start < t.opening.create.stop ∧ t.ending.start < t.ending.stop ∧
    t.ending.stop ≤ size sql := by
  obtain ⟨l, l', hscan, hl, -⟩ := t.cut
  have hpair := Reader.pairwise_items (r := scanner sql .sqlite) 0
  change (scan sql .sqlite).Pairwise _ at hpair
  have hcreate : t.opening.create ∈ l := by
    have := t.create_before
    rw [← hl] at this
    exact (mem_filter.mp this).1
  have hbounds : ∀ x ∈ scan sql .sqlite, x.start < x.stop ∧ x.stop ≤ size sql := fun x hx => by
    have := Reader.bounds_of_mem_items hx
    simp only [scanner, reader, length_bytes] at this
    exact this.2
  have h1 := hbounds t.opening.create (by rw [hscan]; simp [hcreate])
  have h2 := hbounds t.ending (by rw [hscan]; simp)
  rw [hscan] at hpair
  exact ⟨(pairwise_append.mp hpair).2.2 _ hcreate _ (by simp), h1.1, h2⟩

theorem fragments_of_keptWhole (hkept : KeptWhole sql t.before) {cursor : Nat}
    {fragments : List Fragment} (h : sqliteStatements sql cursor = .ok fragments) :
    ∃ m flags, t.ending.stop ≤ m ∧ fragments = (fragment? sql 0 m flags).toList := by
  obtain ⟨l, l', hscan, hl, hl'⟩ := t.cut
  have hwhole := whole_run sql (l ++ [t.ending]) fun a x hpre hx => by
    rw [code_snoc, hl] at hpre
    simp only [t.isEnd.1, Tok.isComment, Bool.false_eq_true, if_false] at hpre
    rcases prefix_concat_iff.mp hpre with heq | hpre
    · obtain ⟨-, hlast⟩ := append_inj' heq rfl
      obtain rfl := singleton_inj.mp hlast
      simp [t.isEnd.1] at hx
    · exact (t.inBody_iff hpre hx).mpr (hkept a x hpre hx)
  have hends : Ends sql [] 0 t.ending.stop
      ((l ++ [t.ending]).foldl (SqliteState.read sql) .initial) := by
    refine .inl ⟨hwhole.fragments, hwhole.start, ?_⟩
    rw [hwhole.hasCode, code_snoc]
    simp [t.isEnd.1, Tok.isComment]
  obtain ⟨m, flags, hm, -, hfinish⟩ :=
    (hends.run (t.after_ending hscan hl')).finish t.create_ending.2.2.2
  refine ⟨m, flags, hm, ?_⟩
  unfold sqliteStatements at h
  rw [hscan, show l ++ t.ending :: l' = (l ++ [t.ending]) ++ l' by simp, foldl_append] at h
  simp only at h
  split at h
  · cases h
  · rw [← Except.ok.inj h, hfinish]
    simp

theorem covered_of_keptWhole (hkept : KeptWhole sql t.before)
    {parse : Parser} {cursor : Nat}
    (h : currentStatement parse sql .sqlite cursor = .ok (some f)) : t.CoveredBy f := by
  obtain ⟨fragments, hs, hf⟩ := mem_of_currentStatement h
  obtain ⟨m, flags, hm, rfl⟩ := t.fragments_of_keptWhole hkept hs
  have hsome : fragment? sql 0 m flags = some f := by simpa using hf
  obtain ⟨h1, h2, h3, -⟩ := t.create_ending
  have hcreate := (t.opening.isCreate.not_blank ⟨by decide, rfl⟩).1
  have hend := (t.isEnd.not_blank ⟨by decide, rfl⟩).2
  have hfirst := Fragment.covers_of_fragment? hsome (Nat.zero_le _) (by omega) hcreate
  have hlast := Fragment.covers_of_fragment? hsome (Nat.zero_le _) (by omega) hend
  exact ⟨hfirst.1, by have := hlast.2; omega⟩

theorem getLast?_of_cut (hcut : ¬ KeptWhole sql t.before) :
    ∃ y ∈ t.before.getLast?, y.kind = .semicolon := by
  rcases eq_nil_or_concat t.body with hnil | ⟨body, b, hbody⟩
  · refine absurd (fun a x hpre hx => ?_) hcut
    have hmem : x ∈ t.opening.all ++ t.header := by
      have := hpre.subset (mem_append_right a (mem_singleton_self x))
      simpa [before, hnil] using this
    exact absurd hx ((mem_append.mp hmem).elim (t.opening.uncut x) (t.uncut_header x))
  · refine ⟨b.separator, ?_, b.isSeparator⟩
    simp [before, hbody, BodyStatement.all, flatMap_append]

theorem create_lt {x : Item Tok} (hx : x ∈ t.before) (hsep : x.kind = .semicolon) :
    t.opening.create.start < x.stop := by
  have hpair : (code (scan sql .sqlite)).Pairwise fun x y => x.stop ≤ y.start :=
    (Reader.pairwise_items (r := scanner sql .sqlite) 0).filter _
  have hbounds : ∀ y ∈ t.before, y.start < y.stop := fun y hy => by
    have : y ∈ code (scan sql .sqlite) := by simp [t.layout', hy]
    exact (Reader.bounds_of_mem_items (mem_filter.mp this).1).2.1
  obtain ⟨rest, hrest⟩ : ∃ rest, t.before = t.opening.create :: rest :=
    ⟨_, rfl⟩
  have hx' := hbounds x hx
  have hcreate := hbounds t.opening.create (by simp [hrest])
  rw [t.layout', hrest, cons_append, pairwise_cons] at hpair
  rw [hrest, mem_cons] at hx
  rcases hx with rfl | hx
  · simp [t.opening.isCreate.1] at hsep
  · have := hpair.1 x (by simp [hx])
    omega

theorem fragments_of_cut (hcut : ¬ KeptWhole sql t.before)
    (hcreate : ∀ s ∈ t.body, ∀ x ∈ s.tokens.head?, ¬ Bare sql "create" x) (cursor : Nat) :
    ∃ done k m flags cs l', sqliteStatements sql cursor =
        .ok (done ++ (fragment? sql k m flags).toList) ∧
      (∀ f ∈ done, f.stop ≤ k) ∧ t.opening.create.start < k ∧ t.ending.stop ≤ m ∧
      isCharBoundary sql k = true ∧ isCharBoundary sql m = true ∧
      (scanner sql .sqlite).items k = cs ++ t.ending :: l' ∧
      ∀ y ∈ cs, y.kind.isComment = true := by
  obtain ⟨l, l', hscan, hl, hl'⟩ := t.cut
  have hpair := Reader.pairwise_items (r := scanner sql .sqlite) 0
  change (scan sql .sqlite).Pairwise _ at hpair
  have hpos : ∀ y ∈ scan sql .sqlite, y.start < y.stop := fun y hy =>
    (Reader.bounds_of_mem_items hy).2.1
  rw [hscan] at hpair hpos
  have hbroken : Broken l (l.foldl (SqliteState.read sql) .initial) := by
    refine (whole_or_broken (pairwise_append.mp hpair).1
      (fun y hy => hpos y (by simp [hy])) (hl ▸ t.neverFirst hcreate)).resolve_left fun hin => ?_
    refine hcut fun a x hpre hx => (t.inBody_iff hpre hx).mp (hin a x ?_ hx)
    rwa [hl]
  -- what is pending before the last `END` is a comment, if anything
  obtain ⟨y, hy, hsep, hstart⟩ := hbroken.cut
  have hcode := hbroken.empty.mpr (hl ▸ t.getLast?_of_cut hcut)
  obtain ⟨l₁, cs, rfl⟩ := append_of_mem hy
  have hitems : (scanner sql .sqlite).items 0 = l₁ ++ y :: (cs ++ t.ending :: l') :=
    hscan.trans (by simp)
  obtain ⟨j, hj, hnext, hrest⟩ := Reader.reach_of_items hitems
  have hyl : y ∈ t.before := by
    rw [← hl]
    exact mem_filter.mpr ⟨hy, by simp [hsep, Tok.isComment]⟩
  have hcomments : ∀ z ∈ cs, z.kind.isComment = true := fun z hz => by
    refine hbroken.since hcode z (by simp [hz]) ?_
    rw [hstart]
    exact (pairwise_cons.mp (pairwise_append.mp (pairwise_append.mp hpair).1).2.1).1
      z hz
  have hk : isCharBoundary sql y.stop = true :=
    (boundary_of_scan (p := .sqlite) (by rw [hscan]; simp)).2
  generalize hs : (l₁ ++ y :: cs).foldl (SqliteState.read sql) .initial = s at hbroken hcode hstart
  -- the `END` is read as the first word of a statement
  have hread : s.read sql t.ending = { s with pending := s.pending.withCode } := by
    have hflags : s.flags.read sql s.pending.hasCode t.ending = s.flags := by
      rw [hbroken.flags]
      refine read_initial (by simp [t.isEnd.1]) fun _ h => ?_
      exact absurd (t.isEnd.unique h) (by decide)
    simp [SqliteState.read, t.isEnd.1, hflags]
  have hends : Ends sql s.fragments y.stop t.ending.stop (s.read sql t.ending) := by
    rw [hread]
    exact .inl ⟨rfl, hstart, rfl⟩
  have hafter := t.after_ending hscan hl'
  obtain ⟨m, flags, hm, hmb, hfinish⟩ := (hends.run hafter).finish t.create_ending.2.2.2
  have hflags : (l'.foldl (SqliteState.read sql) (s.read sql t.ending)).flags = .initial :=
    initial_run (by rw [hread]; exact hbroken.flags) fun x hx => (hafter x hx).1
  refine ⟨s.fragments, y.stop, m, flags, cs, l', ?_, fun f hf => hstart ▸ hbroken.done f hf,
    t.create_lt hyl hsep, hm, hk, hmb, hrest.symm, hcomments⟩
  unfold sqliteStatements
  rw [hscan, foldl_append, foldl_cons, hs]
  simp only [hflags]
  exact congrArg Except.ok hfinish

end TriggerText

/-! ### The last `END`, alone -/

theorem validate_accepting {sql : Str} :
    validate (fun _ _ => .ok []) sql .sqlite = .ok () := by
  have hall : ∀ l : List Fragment, (∀ f ∈ l, f.unreadableComment = false) →
      (l.forM fun f => if f.unreadableComment then
        Except.error (QueryError.syntaxError unreadableCommentMessage f.start f.stop)
      else Except.ok ()) = .ok () := by
    intro l hl
    induction l with
    | nil => rfl
    | cons f l ih =>
      have hf := hl f (by simp)
      have hrest := ih fun g hg => hl g (by simp [hg])
      rw [forM_eq_forM] at hrest ⊢
      rw [forM_cons, hf, hrest]
      rfl
  exact hall _ fun f hf => readable_of_split hf

theorem not_blankAt_of_ascii {sql : Str} {x : UInt8} (hx : (bytes sql)[i]? = some x)
    (hlt : x.toNat < 0x80) (hblank : ∀ c : Char, c.toNat = x.toNat → isWhitespace c = false) :
    ¬ BlankAt sql i := by
  obtain ⟨u, c, v, rfl, rfl, hsize, hc⟩ := exists_char_of_ascii hx hlt
  intro h
  have := isWhitespace_of_blankAt h (Nat.le_refl _) (by omega)
  simp [hblank c hc] at this

theorem not_blankAt_of_comment {sql : Str} {k : Nat} {x : Item Tok}
    (hx : x ∈ (scanner sql .sqlite).items k) (hcomment : x.kind.isComment = true) :
    ¬ BlankAt sql x.start := by
  obtain ⟨j, -, hread⟩ := Reader.mem_items.mp hx
  obtain ⟨c, -, -, hc, -, hsep | ⟨-, hlex⟩⟩ := readAt_eq_some.mp hread
  · simp [hsep.2.1, Tok.isComment] at hcomment
  · rcases (lex_comment (b := bytes sql) (i := x.start) (c := c)
      (by rw [hlex]; exact hcomment)).2 with rfl | rfl <;>
      exact not_blankAt_of_ascii hc (by decide) fun d hd => by simp only [isWhitespace, hd]; decide

theorem startsWithComment_letter {text : Str} (hc : (bytes text)[0]? = some c)
    (hletter : isAsciiAlphabetic c = true) : startsWithComment text .sqlite = false := by
  have hno : ∀ (d : Char) (n : UInt8) (rest : Str), String.utf8EncodeChar d = [n] →
      isAsciiAlphabetic n = false → (d :: rest).isPrefixOf text = false := by
    intro d n rest hd hn
    refine Bool.eq_false_iff.mpr fun h => ?_
    obtain ⟨tail, rfl⟩ := List.isPrefixOf_iff_prefix.mp h
    rw [cons_append, bytes_cons, hd] at hc
    obtain rfl : n = c := by simpa using hc
    simp [hletter] at hn
  simp [startsWithComment, hno '-' 0x2d ['-'] (by decide) (by decide),
    hno '/' 0x2f ['*'] (by decide) (by decide)]

/-- A fragment begins where the scanner reads its first comment or keyword. -/
theorem items_of_fragment {sql : Str} {k m : Nat} {flags : Flags}
    (hf : fragment? sql k m flags = some f) {x : Item Tok} {l : List (Item Tok)}
    (hitems : (scanner sql .sqlite).items k = x :: l) (hx : x.start < m)
    (hvisible : ¬ BlankAt sql x.start) : (scanner sql .sqlite).items f.start = x :: l := by
  have hk : (scanner sql .sqlite).next k = some x := by
    cases hn : (scanner sql .sqlite).next k with
    | none => simp [Reader.items_of_none hn] at hitems
    | some y =>
      rw [Reader.items_of_some hn] at hitems
      rw [(List.cons.inj hitems).1]
  have hforward := Reader.forward _ hk
  have hcov := Fragment.covers_of_fragment? hf hforward.1 hx hvisible
  have hbounds := fragment?_bounds hf
  rw [← hitems]
  refine Reader.items_of_next_eq ?_
  rw [hk]
  obtain ⟨c, hi, hblank, hc, hw, hread⟩ := readAt_eq_some.mp hk
  exact readAt_eq_some.mpr ⟨c, hcov.1, fun i hi' hix => hblank i (by omega) hix, hc, hw, hread⟩

namespace TriggerText

variable {sql : Str} (t : TriggerText sql)

/-- A cut trigger has its last `END` returned alone, when the parser takes it. -/
theorem isolated_of_cut (hcut : ¬ KeptWhole sql t.before)
    (hcreate : ∀ s ∈ t.body, ∀ x ∈ s.tokens.head?, ¬ Bare sql "create" x) :
    ∃ f, currentStatement (fun _ _ => .ok []) sql .sqlite t.ending.start = .ok (some f) ∧
      ¬ t.CoveredBy f := by
  obtain ⟨done, k, m, flags, cs, l', hs, hdone, hlt, hm, hk, hmb, hitems, hcs⟩ :=
    t.fragments_of_cut hcut hcreate t.ending.start
  have hending := Reader.bounds_of_mem_items (r := scanner sql .sqlite) (i := k)
    (x := t.ending) (by rw [hitems]; simp)
  have hblank := t.isEnd.not_blank ⟨by decide, rfl⟩
  obtain ⟨f, hf, hcov⟩ := (fragment?_covers flags hk hmb hending.1
    (Nat.lt_of_lt_of_le hending.2.1 hm)).resolve_right hblank.1
  have hlast := Fragment.covers_of_fragment? hf (i := t.ending.stop - 1) (by omega) (by omega)
    hblank.2
  have hbounds := fragment?_bounds hf
  refine ⟨f, ?_, fun hc => by have := hc.1; omega⟩
  -- the fragment begins with the comments before `END`, or with `END`
  obtain ⟨raw, hraw, -, hfraw⟩ := fragment?_eq_some.mp hf
  have hget : get? sql f.start f.stop = some f.text := by rw [hfraw]; exact (get?_trim hraw).1
  obtain ⟨c, hc, hcase⟩ : ∃ c, (bytes sql)[t.ending.start]? = some c ∧
      (c.toNat = 0x65 ∨ c.toNat + 0x20 = 0x65) := by
    have hend := t.isEnd.2
    obtain ⟨w, hw⟩ : ∃ w, get? sql t.ending.start t.ending.stop = some w := by
      cases hw : get? sql t.ending.start t.ending.stop with
      | none => simp [hw, isKeyword, eqIgnoreAsciiCase] at hend
      | some w => exact ⟨w, rfl⟩
    rw [hw] at hend
    exact byte_of_eqIgnoreAsciiCase hw hend (by decide)
  have hletter : isAsciiAlphabetic c = true := by
    simp only [isAsciiAlphabetic, Bool.or_eq_true, Bool.and_eq_true, decide_eq_true_eq]
    omega
  have hitems' : (scanner sql .sqlite).items f.start = cs ++ t.ending :: l' := by
    cases cs with
    | nil => exact items_of_fragment hf hitems (by omega) hblank.1
    | cons y ys =>
      have hpair := Reader.pairwise_items (r := scanner sql .sqlite) k
      rw [hitems, cons_append] at hpair
      have hy := Reader.bounds_of_mem_items (r := scanner sql .sqlite) (i := k) (x := y)
        (by rw [hitems]; simp)
      have hle := (pairwise_cons.mp hpair).1 t.ending (by simp)
      exact items_of_fragment hf hitems (by omega)
        (not_blankAt_of_comment (by rw [hitems]; simp) (hcs y (by simp)))
  have hstop : t.ending.stop ≤ f.stop := by have := hlast.2; omega
  obtain ⟨w, ws, hwords, hwc⟩ := words_of_slice hget hitems' hcs hstop hc hletter
  have hnot : isSqliteTrigger f.text = false := by
    have hw : isKeyword w.text "create" = false := by
      refine Bool.eq_false_iff.mpr fun h => ?_
      have hself : get? w.text 0 (size w.text) = some w.text :=
        get?_eq_some.mpr ⟨[], [], by simp, rfl, by simp⟩
      obtain ⟨c', hc', (hcase' : c'.toNat = 0x63 ∨ c'.toNat + 0x20 = 0x63)⟩ :=
        byte_of_eqIgnoreAsciiCase hself h (by decide)
      rw [hwc] at hc'
      obtain rfl := Option.some.inj hc'
      omega
    simp [isSqliteTrigger, hwords, hw]
  have hsel : selected sql .sqlite t.ending.start (done ++ [f]) = some f := by
    have hsize : t.ending.start < size sql := by have := t.create_ending; omega
    have hdone' : done.find? (fun g => (g.start ≤ t.ending.start && t.ending.start < g.stop) ||
        (g.stop == size sql && t.ending.start == size sql)) = none := by
      refine find?_eq_none.mpr fun g hg => ?_
      have := hdone g hg
      simp only [Bool.or_eq_true, Bool.and_eq_true, decide_eq_true_eq, beq_iff_eq]
      omega
    have hcomment : t.ending.start = f.start → startsWithComment f.text .sqlite = false := by
      intro heq
      have hfirst := bytes_of_get? hget 0
      rw [if_pos (by omega), Nat.add_zero, ← heq, hc] at hfirst
      exact startsWithComment_letter hfirst hletter
    have hunder : (f.start ≤ t.ending.start && t.ending.start < f.stop) = true := by
      simp only [Bool.and_eq_true, decide_eq_true_eq]
      exact hcov
    have hkeep : (t.ending.start != f.start || !startsWithComment f.text .sqlite) = true := by
      by_cases heq : t.ending.start = f.start
      · simp [hcomment heq]
      · simp [heq]
    unfold selected
    simp only [find?_append, hdone', Option.none_or, find?_cons, hunder, Bool.true_or,
      Option.filter_some, hkeep, if_true]
  have hboundary : isCharBoundary sql t.ending.start = true := by
    obtain ⟨l, l', hscan, -, -⟩ := t.cut
    exact (boundary_of_scan (p := .sqlite) (by rw [hscan]; simp)).1
  unfold currentStatement
  rw [hs, hf, hboundary]
  simp only [Bool.not_true, Bool.false_eq_true, if_false, if_true, Option.toList_some, hsel,
    bind, Except.bind, checkSelected, hnot, Bool.and_false, mysqlProgram, ne_eq, reduceCtorEq,
    not_false_eq_true, decide_true, Bool.true_or, validate_accepting, Except.mapError]
  rfl

end TriggerText

/-! ## The statement under the cursor of a trigger -/

/-- `current_statement` returns of a trigger the whole of it or nothing, as long as each `;` finds
the body opened by a bare `BEGIN` after a bare `ON` and a bare word, and not closed by an `END`
right after it; and only then, where no statement of the body starts with `CREATE`. -/
theorem current_statement_of_trigger {sql : Str} (t : TriggerText sql) :
    (KeptWhole sql t.before → ∀ parse cursor f,
      currentStatement parse sql .sqlite cursor = .ok (some f) → t.CoveredBy f) ∧
    ((∀ s ∈ t.body, ∀ x ∈ s.tokens.head?, ¬ Bare sql "create" x) →
      (∀ parse cursor f, currentStatement parse sql .sqlite cursor = .ok (some f) →
        t.CoveredBy f) → KeptWhole sql t.before) := by
  refine ⟨fun hkept parse cursor f => t.covered_of_keptWhole hkept, fun hcreate hcovered => ?_⟩
  by_contra hcut
  obtain ⟨f, hf, hnot⟩ := t.isolated_of_cut hcut hcreate
  exact hnot (hcovered _ _ f hf)

def bareTable : Str :=
  "CREATE TRIGGER x AFTER INSERT ON t BEGIN DELETE FROM a; DELETE FROM b; END".toList

theorem code_bareTable : code (scan bareTable .sqlite) =
    [⟨.word, 0, 6⟩, ⟨.word, 7, 14⟩, ⟨.word, 15, 16⟩, ⟨.word, 17, 22⟩, ⟨.word, 23, 29⟩,
      ⟨.word, 30, 32⟩, ⟨.word, 33, 34⟩, ⟨.word, 35, 40⟩, ⟨.word, 41, 47⟩, ⟨.word, 48, 52⟩,
      ⟨.word, 53, 54⟩, ⟨.semicolon, 54, 55⟩, ⟨.word, 56, 62⟩, ⟨.word, 63, 67⟩, ⟨.word, 68, 69⟩,
      ⟨.semicolon, 69, 70⟩, ⟨.word, 71, 74⟩] := by
  unfold bareTable
  rw [toList_ofList]
  decide

def bareTableTrigger : TriggerText bareTable where
  opening := ⟨⟨.word, 0, 6⟩, none, ⟨.word, 7, 14⟩,
    ⟨rfl, by unfold bareTable; rw [toList_ofList]; decide⟩, by simp,
    ⟨rfl, by unfold bareTable; rw [toList_ofList]; decide⟩⟩
  name := ⟨.word, 15, 16⟩
  middle := [⟨.word, 17, 22⟩, ⟨.word, 23, 29⟩]
  on := ⟨.word, 30, 32⟩
  table := ⟨.word, 33, 34⟩
  clauses := []
  beginning := ⟨.word, 35, 40⟩
  body := [
    ⟨[⟨.word, 41, 47⟩, ⟨.word, 48, 52⟩, ⟨.word, 53, 54⟩], ⟨.semicolon, 54, 55⟩,
      by simp [Uncut], rfl, by
        rintro x ⟨⟩ ⟨-, h⟩
        revert h
        unfold bareTable
        rw [toList_ofList]
        decide⟩,
    ⟨[⟨.word, 56, 62⟩, ⟨.word, 63, 67⟩, ⟨.word, 68, 69⟩], ⟨.semicolon, 69, 70⟩,
      by simp [Uncut], rfl, by
        rintro x ⟨⟩ ⟨-, h⟩
        revert h
        unfold bareTable
        rw [toList_ofList]
        decide⟩]
  ending := ⟨.word, 71, 74⟩
  terminator := none
  isName := .inl rfl
  uncutMiddle := by simp [Uncut]
  isOn := ⟨rfl, by unfold bareTable; rw [toList_ofList]; decide⟩
  isTable := .inl rfl
  uncutClauses := by simp [Uncut]
  isBegin := ⟨rfl, by unfold bareTable; rw [toList_ofList]; decide⟩
  isEnd := ⟨rfl, by unfold bareTable; rw [toList_ofList]; decide⟩
  isTerminator := by simp
  layout := code_bareTable

/-- It is never cut, wherever the cursor is. -/
theorem current_statement_of_bareTable :
    ∀ parse cursor f, currentStatement parse bareTable .sqlite cursor = .ok (some f) →
      f.start ≤ 0 ∧ 74 ≤ f.stop :=
  (current_statement_of_trigger bareTableTrigger).1
    (bareTableTrigger.keptWhole_of_flags (by decide +kernel))

/-- A trigger on a quoted table, whose name `BEGIN` directly follows. -/
def quotedTable : Str :=
  "CREATE TRIGGER x AFTER INSERT ON \"t\" BEGIN DELETE FROM a; DELETE FROM b; END".toList

theorem code_quotedTable : code (scan quotedTable .sqlite) =
    [⟨.word, 0, 6⟩, ⟨.word, 7, 14⟩, ⟨.word, 15, 16⟩, ⟨.word, 17, 22⟩, ⟨.word, 23, 29⟩,
      ⟨.word, 30, 32⟩, ⟨.quoted, 33, 36⟩, ⟨.word, 37, 42⟩, ⟨.word, 43, 49⟩, ⟨.word, 50, 54⟩,
      ⟨.word, 55, 56⟩, ⟨.semicolon, 56, 57⟩, ⟨.word, 58, 64⟩, ⟨.word, 65, 69⟩, ⟨.word, 70, 71⟩,
      ⟨.semicolon, 71, 72⟩, ⟨.word, 73, 76⟩] := by
  unfold quotedTable
  rw [toList_ofList]
  decide

def quotedTableTrigger : TriggerText quotedTable where
  opening := ⟨⟨.word, 0, 6⟩, none, ⟨.word, 7, 14⟩,
    ⟨rfl, by unfold quotedTable; rw [toList_ofList]; decide⟩, by simp,
    ⟨rfl, by unfold quotedTable; rw [toList_ofList]; decide⟩⟩
  name := ⟨.word, 15, 16⟩
  middle := [⟨.word, 17, 22⟩, ⟨.word, 23, 29⟩]
  on := ⟨.word, 30, 32⟩
  table := ⟨.quoted, 33, 36⟩
  clauses := []
  beginning := ⟨.word, 37, 42⟩
  body := [
    ⟨[⟨.word, 43, 49⟩, ⟨.word, 50, 54⟩, ⟨.word, 55, 56⟩], ⟨.semicolon, 56, 57⟩,
      by simp [Uncut], rfl, by
        rintro x ⟨⟩ ⟨-, h⟩
        revert h
        unfold quotedTable
        rw [toList_ofList]
        decide⟩,
    ⟨[⟨.word, 58, 64⟩, ⟨.word, 65, 69⟩, ⟨.word, 70, 71⟩], ⟨.semicolon, 71, 72⟩,
      by simp [Uncut], rfl, by
        rintro x ⟨⟩ ⟨-, h⟩
        revert h
        unfold quotedTable
        rw [toList_ofList]
        decide⟩]
  ending := ⟨.word, 73, 76⟩
  terminator := none
  isName := .inl rfl
  uncutMiddle := by simp [Uncut]
  isOn := ⟨rfl, by unfold quotedTable; rw [toList_ofList]; decide⟩
  isTable := .inr (.inl rfl)
  uncutClauses := by simp [Uncut]
  isBegin := ⟨rfl, by unfold quotedTable; rw [toList_ofList]; decide⟩
  isEnd := ⟨rfl, by unfold quotedTable; rw [toList_ofList]; decide⟩
  isTerminator := by simp
  layout := code_quotedTable

/-- The second `DELETE` of its body is returned alone. -/
theorem current_statement_isolates_a_delete :
    ∃ f, currentStatement (fun _ _ => .ok []) quotedTable .sqlite 60 = .ok (some f) ∧
      f.text = "DELETE FROM b".toList ∧ ¬ quotedTableTrigger.CoveredBy f :=
  ⟨⟨"DELETE FROM b".toList, 58, 71, false, true, false⟩,
    by unfold quotedTable; rw [toList_ofList]; decide, rfl, fun h => absurd h.1 (by decide)⟩

end Oxyn
