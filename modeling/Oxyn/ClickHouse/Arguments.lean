/-
# `Oxyn.ClickHouse.Arguments` — the reader on what the server prints

Piece by piece: a quoted text, a word, a number, an argument, an argument list and a type are read
back from what the server prints, whatever may stand behind them (`Ends`).
-/
import Oxyn.ClickHouse.Printed

namespace Oxyn.ClickHouse

open Text List

/-! ## Texts and names -/

/-- What a character comes back as. -/
def slip (c : Char) : Char :=
  if c = Char.ofNat 8 then 'b' else if c = Char.ofNat 12 then 'f' else c

/-- The quotes of names and texts. -/
def IsQuote (quote : Char) : Prop := quote = '\'' ∨ quote = '`'

theorem escape_cases {quote : Char} (hquote : IsQuote quote) (c : Char) :
    (escape quote c = [c] ∧ c ≠ '\\' ∧ c ≠ quote ∧ slip c = c) ∨
      ∃ d, escape quote c = ['\\', d] ∧ Parser.unescape d = slip c := by
  unfold escape
  split
  next h =>
    refine .inr ⟨c, rfl, ?_⟩
    rcases h with rfl | rfl
    · decide
    · rcases hquote with rfl | rfl <;> decide
  next h =>
    obtain ⟨hback, hq⟩ := not_or.mp h
    split
    next h => exact .inr ⟨'0', rfl, h ▸ by decide⟩
    split
    next h => exact .inr ⟨'b', rfl, h ▸ by decide⟩
    split
    next h => exact .inr ⟨'f', rfl, h ▸ by decide⟩
    split
    next h => exact .inr ⟨'n', rfl, h ▸ by decide⟩
    split
    next h => exact .inr ⟨'r', rfl, h ▸ by decide⟩
    split
    next h => exact .inr ⟨'t', rfl, h ▸ by decide⟩
    next hb hf _ _ _ =>
      refine .inl ⟨rfl, hback, hq, ?_⟩
      unfold slip
      rw [if_neg hb, if_neg hf]

theorem Bare.ne_nil {name : Str} (h : Bare name) : name ≠ [] := by
  rintro rfl
  cases h.2

theorem Bare.begins {name : Str} (h : Bare name) :
    ∃ c t, name = c :: t ∧ Parser.isWordChar c = true ∧ c.isDigit = false := by
  obtain ⟨c, t, rfl⟩ := exists_cons_of_ne_nil h.ne_nil
  exact ⟨c, t, rfl, h.1 c (mem_cons_self ..), Bool.not_eq_true' _ |>.mp h.2⟩

namespace Parser

theorem quoted_plain {quote c : Char} (hback : c ≠ '\\') (hquote : c ≠ quote) (s : Str) :
    quoted quote (c :: s) = (quoted quote s).map fun q => (c :: q.1, q.2) := by
  cases s with
  | nil =>
    unfold quoted
    rw [if_neg fun h => hquote h.2]
    rfl
  | cons d s =>
    rw [quoted, if_neg hback, if_neg hquote]

variable {rest : Str}

variable {quote : Char}

theorem quoted_close (hquote : IsQuote quote)
    (h : rest.head? ≠ some quote) : quoted quote (quote :: rest) = some ([], rest) := by
  have hback : quote ≠ '\\' := by
    rcases hquote with rfl | rfl <;> decide
  cases rest with
  | nil =>
    unfold quoted
    rw [if_pos ⟨hback, rfl⟩]
  | cons d rest =>
    have hd : d ≠ quote := fun hd => h (congrArg some hd)
    rw [quoted, if_neg hback, if_pos rfl, if_neg hd]

theorem quoted_printed (hquote : IsQuote quote) (text : Str) (h : rest.head? ≠ some quote) :
    quoted quote (text.flatMap (escape quote) ++ quote :: rest) = some (text.map slip, rest) := by
  induction text with
  | nil => exact quoted_close hquote h
  | cons c text ih =>
    rw [flatMap_cons, append_assoc, map_cons]
    rcases escape_cases hquote c with ⟨hplain, hback, hq, hslip⟩ | ⟨d, hescaped, hunescape⟩
    · rw [hplain, singleton_append, quoted_plain hback hq, ih, hslip]
      rfl
    · rw [hescaped, cons_append, singleton_append, quoted, if_pos rfl, ih,
        ← hunescape]
      rfl

/-! ## Words, numbers and marks -/

/-- A character that is no letter, digit or underscore, or the end, follows. -/
def EndsWord (rest : Str) : Prop := ∀ c ∈ rest.head?, isWordChar c = false

variable {c : Char}

theorem toNat_of_isWordChar (h : isWordChar c = true) :
    (0x30 ≤ c.toNat ∧ c.toNat ≤ 0x39) ∨ (0x41 ≤ c.toNat ∧ c.toNat ≤ 0x5a) ∨ c.toNat = 0x5f ∨
      (0x61 ≤ c.toNat ∧ c.toNat ≤ 0x7a) := by
  unfold isWordChar at h
  rcases Bool.or_eq_true_iff.mp h with h | h
  · change ((decide (65 ≤ c.val ∧ c.val ≤ 90) || (decide (97 ≤ c.val) && decide (c.val ≤ 122))) ||
      (decide (48 ≤ c.val) && decide (c.val ≤ 57))) = true at h
    simp only [Bool.or_eq_true, Bool.and_eq_true, decide_eq_true_eq, UInt32.le_iff_toNat_le] at h
    change ((65 ≤ c.toNat ∧ c.toNat ≤ 90) ∨ (97 ≤ c.toNat ∧ c.toNat ≤ 122)) ∨
      (48 ≤ c.toNat ∧ c.toNat ≤ 57) at h
    omega
  · rw [of_decide_eq_true h]
    decide

theorem not_isWhitespace_of_isWordChar (h : isWordChar c = true) :
    isWhitespace c = false := by
  have hrange := toNat_of_isWordChar h
  unfold isWhitespace
  simp only [Bool.or_eq_false_iff, Bool.and_eq_false_iff, decide_eq_false_iff_not,
    beq_eq_false_iff_ne]
  omega

theorem ne_of_isWordChar {c d : Char} (h : isWordChar c = true) (hd : isWordChar d = false) :
    c ≠ d := by
  rintro rfl
  rw [h] at hd
  cases hd

theorem slip_of_isWordChar (h : isWordChar c = true) : slip c = c := by
  unfold slip
  rw [if_neg (ne_of_isWordChar h (by decide)), if_neg (ne_of_isWordChar h (by decide))]

/-- What may stand behind an argument. -/
def Ends (rest : Str) : Prop := ∀ c ∈ rest.head?, c = ',' ∨ c = ')'

theorem Ends.endsWord (h : Ends rest) : EndsWord rest := by
  intro c hc
  rcases h c hc with rfl | rfl <;> decide

theorem Ends.ne (h : Ends rest) {d : Char} (hd : d ≠ ',') (hd' : d ≠ ')') :
    rest.head? ≠ some d := by
  intro hc
  rcases h d hc with rfl | rfl
  · exact hd rfl
  · exact hd' rfl

theorem Ends.trimStart (h : Ends rest) : trimStart rest = rest := by
  refine trimStart_eq_self fun c hc => ?_
  rcases h c hc with rfl | rfl <;> decide

theorem ends_cons (h : c = ',' ∨ c = ')') (rest : Str) : Ends (c :: rest) := by
  rintro d ⟨⟩
  exact h

theorem eat_this (hc : isWhitespace c = false) (rest : Str) (n : Nat) :
    eat c ⟨c :: rest, n⟩ = (.ok true, ⟨rest, n⟩) := by
  have htrim : trimStart (c :: rest) = c :: rest := trimStart_eq_self (by rintro d ⟨⟩; exact hc)
  unfold eat
  dsimp only
  rw [htrim]
  exact if_pos rfl

theorem eat_this_blank (rest : Str) (n : Nat) :
    eat '=' ⟨' ' :: '=' :: rest, n⟩ = (.ok true, ⟨rest, n⟩) :=
  eat_this (c := '=') (by decide) rest n

theorem eat_other (htrim : trimStart rest = rest)
    (h : rest.head? ≠ some c) (n : Nat) : eat c ⟨rest, n⟩ = (.ok false, ⟨rest, n⟩) := by
  unfold eat
  dsimp only
  rw [htrim]
  cases rest with
  | nil => rfl
  | cons d rest => exact if_neg fun hd => h (congrArg some hd)

theorem word_bare {name rest : Str} (hne : name ≠ []) (hname : ∀ c ∈ name, isWordChar c = true)
    (hrest : EndsWord rest) (n : Nat) :
    word ⟨name ++ rest, n⟩ = (.ok (some name), ⟨rest, n⟩) := by
  have htrim : trimStart (name ++ rest) = name ++ rest := by
    refine trimStart_eq_self fun c hc => ?_
    rw [head?_append_of_ne_nil _ hne] at hc
    exact not_isWhitespace_of_isWordChar (hname c (mem_of_mem_head? hc))
  have htake : (name ++ rest).takeWhile isWordChar = name := by
    rw [takeWhile_append_of_pos hname]
    cases rest with
    | nil => exact append_nil name
    | cons c rest =>
      rw [takeWhile_cons_of_neg (Bool.not_eq_true _ ▸ hrest c rfl), append_nil]
  have hdrop : (name ++ rest).dropWhile isWordChar = rest := by
    rw [dropWhile_append_of_pos hname]
    cases rest with
    | nil => rfl
    | cons c rest => exact dropWhile_cons_of_neg (Bool.not_eq_true _ ▸ hrest c rfl)
  unfold word
  dsimp only
  rw [htrim]
  split
  next rest' heq =>
    -- a bare name does not begin with a quote
    obtain ⟨c, name, rfl⟩ := exists_cons_of_ne_nil hne
    obtain ⟨rfl, -⟩ := List.cons.inj heq
    exact absurd (hname _ (mem_cons_self ..)) (by decide)
  next =>
    rw [htake, hdrop, if_neg hne]

theorem word_quoted (name : Str) (h : rest.head? ≠ some '`') (n : Nat) :
    word ⟨quotedText '`' name ++ rest, n⟩ = (.ok (some (name.map slip)), ⟨rest, n⟩) := by
  have htrim : trimStart (quotedText '`' name ++ rest) =
      '`' :: (name.flatMap (escape '`') ++ '`' :: rest) := by
    rw [quotedText, cons_append, append_assoc]
    exact trimStart_eq_self (by rintro d ⟨⟩; decide)
  unfold word
  dsimp only
  rw [htrim]
  split
  next rest' heq =>
    cases heq
    rw [quoted_printed (.inr rfl) name h]
  next hno => exact (hno _ rfl).elim

theorem decimalOf_toDigits (n : Nat) : decimalOf (Nat.toDigits 10 n) = n := by
  have h := Nat.ofDigitChars_ten_toDigits (n := n)
  rw [Nat.ofDigitChars_eq_foldl] at h
  unfold decimalOf
  rw [← h]
  congr 1
  · funext v c
    rw [Nat.mul_comm]
  · rw [h]

variable {n : Nat}

theorem isDigit_of_mem_toDigits : ∀ c ∈ Nat.toDigits 10 n, c.isDigit = true :=
  fun _ hc => Nat.isDigit_of_mem_toDigits (by decide) (by decide) hc

theorem toDigits_head_ne (n : Nat) : (Nat.toDigits 10 n).head? ≠ some '-' := by
  intro h
  exact absurd (isDigit_of_mem_toDigits '-' (mem_of_mem_head? h)) (by decide)

theorem takeWhile_digits (n : Nat) (h : ∀ c ∈ rest.head?, c.isDigit = false) :
    (Nat.toDigits 10 n ++ rest).takeWhile Char.isDigit = Nat.toDigits 10 n ∧
      (Nat.toDigits 10 n ++ rest).dropWhile Char.isDigit = rest := by
  rw [takeWhile_append_of_pos isDigit_of_mem_toDigits,
    dropWhile_append_of_pos isDigit_of_mem_toDigits]
  cases rest with
  | nil => exact ⟨append_nil _, rfl⟩
  | cons c rest =>
    have hc : ¬ c.isDigit = true := Bool.not_eq_true _ ▸ h c rfl
    rw [takeWhile_cons_of_neg hc, dropWhile_cons_of_neg hc, append_nil]
    exact ⟨rfl, rfl⟩

theorem unsigned_intText (z : Int) (rest : Str) :
    ∃ n : Nat, unsigned (intText z ++ rest) = Nat.toDigits 10 n ++ rest ∧
      (if (intText z ++ rest).head? = some '-' then (-1 : Int) else 1) * n = z := by
  cases z with
  | ofNat n =>
    have hhead : (Nat.toDigits 10 n ++ rest).head? ≠ some '-' := by
      rw [head?_append_of_ne_nil _ Nat.toDigits_ne_nil]
      exact toDigits_head_ne n
    refine ⟨n, if_neg hhead, ?_⟩
    unfold intText
    rw [if_neg hhead, Int.one_mul]
    rfl
  | negSucc n =>
    have hhead : (intText (.negSucc n) ++ rest).head? = some '-' := rfl
    refine ⟨n + 1, if_pos hhead, ?_⟩
    rw [if_pos hhead]
    omega

theorem trimStart_intText (z : Int) (rest : Str) :
    trimStart (intText z ++ rest) = intText z ++ rest := by
  refine trimStart_eq_self fun c hc => ?_
  cases z with
  | ofNat n =>
    unfold intText at hc
    rw [head?_append_of_ne_nil _ Nat.toDigits_ne_nil] at hc
    refine not_isWhitespace_of_isWordChar ?_
    unfold isWordChar Char.isAlphanum
    rw [isDigit_of_mem_toDigits c (mem_of_mem_head? hc), Bool.or_true]
    rfl
  | negSucc n =>
    cases hc
    decide

theorem number_reads {z : Int} (hz : ServerType.IsI64 z)
    (h : ∀ c ∈ rest.head?, c.isDigit = false) (n : Nat) :
    number ⟨intText z ++ rest, n⟩ = (.ok (some z), ⟨rest, n⟩) := by
  obtain ⟨m, hunsigned, hsign⟩ := unsigned_intText z rest
  obtain ⟨htake, hdrop⟩ := takeWhile_digits m h
  have hvalue : valueAt (intText z ++ rest) = z := by
    unfold valueAt
    rw [hunsigned, htake, decimalOf_toDigits]
    exact hsign
  unfold number
  dsimp only
  rw [trimStart_intText, hvalue, hunsigned, htake, hdrop]
  refine if_neg ?_
  rintro (hnil | hlow | hhigh)
  · exact Nat.toDigits_ne_nil hnil
  · exact absurd hz.1 (Int.not_le.mpr hlow)
  · exact absurd hz.2 (Int.not_lt.mpr hhigh)

/-! ## Arguments -/

variable {inner : Parse ChType}

/-- A text is read as an argument that names so many types, whatever may stand behind it. -/
structure ReadsArg (inner : Parse ChType) (s : Str) (a : Arg) (k : Nat) : Prop where
  begins : ∃ c t, s = c :: t ∧ isWhitespace c = false ∧ c ≠ ')'
  reads : ∀ rest n, Ends rest → n + k ≤ maxNodes →
    arg inner ⟨s ++ rest, n⟩ = (.ok a, ⟨rest, n + k⟩)

/-- Texts are read as arguments that name so many types. -/
inductive ReadsArgs (inner : Parse ChType) : List Str → List Arg → Nat → Prop
  | nil : ReadsArgs inner [] [] 0
  | cons {s : Str} {a : Arg} {k : Nat} {items : List Str} {as : List Arg} {ks : Nat} :
      ReadsArg inner s a k → ReadsArgs inner items as ks →
        ReadsArgs inner (s :: items) (a :: as) (k + ks)

theorem arg_blank (rest : Str) (n : Nat) :
    arg inner ⟨' ' :: rest, n⟩ = arg inner ⟨rest, n⟩ := by
  have htrim : trimStart (' ' :: rest) = trimStart rest := rfl
  unfold arg
  dsimp only
  rw [htrim]

variable {s : Str} {k : Nat} {pre : Str}

theorem arg_behind {a : Arg} (h : ReadsArg inner s a k) (hpre : pre = [] ∨ pre = [' '])
    {c : Char} (hc : c = ',' ∨ c = ')') (rest : Str) (hn : n + k ≤ maxNodes) :
    arg inner ⟨pre ++ (s ++ c :: rest), n⟩ = (.ok a, ⟨c :: rest, n + k⟩) := by
  rcases hpre with rfl | rfl
  · exact h.reads _ n (ends_cons hc rest) hn
  · rw [singleton_append, arg_blank]
    exact h.reads _ n (ends_cons hc rest) hn

theorem argsTurn_goes {a : Arg} (h : ReadsArg inner s a k)
    (done : List Arg) (hpre : pre = [] ∨ pre = [' ']) (rest : Str) (hn : n + k ≤ maxNodes) :
    argsTurn inner done ⟨pre ++ (s ++ ',' :: rest), n⟩ =
      (.ok (.inl (done ++ [a])), ⟨rest, n + k⟩) := by
  have htrim : trimStart (',' :: rest) = ',' :: rest := (ends_cons (.inl rfl) rest).trimStart
  unfold argsTurn
  have hopen : (',' :: rest).head? ≠ some ')' := fun h => absurd (Option.some.inj h) (by decide)
  rw [Scan.bind_ok (arg_behind h hpre (.inl rfl) rest hn), Scan.bind_ok (eat_other htrim hopen _)]
  exact Scan.bind_ok (eat_this (by decide) rest _)

theorem argsTurn_leaves {a : Arg} (h : ReadsArg inner s a k)
    (done : List Arg) (hpre : pre = [] ∨ pre = [' ']) (rest : Str) (hn : n + k ≤ maxNodes) :
    argsTurn inner done ⟨pre ++ (s ++ ')' :: rest), n⟩ =
      (.ok (.inr (done ++ [a])), ⟨rest, n + k⟩) := by
  unfold argsTurn
  rw [Scan.bind_ok (arg_behind h hpre (.inr rfl) rest hn)]
  exact Scan.bind_ok (eat_this (by decide) rest _)

theorem loop_reads (hinner : Scan.Within size inner) {items : List Str} {as : List Arg} {ks : Nat}
    (h : ReadsArgs inner items as ks) (hne : items ≠ []) (done : List Arg)
    (hpre : pre = [] ∨ pre = [' ']) (rest : Str) (hn : n + ks ≤ maxNodes) :
    Scan.loop size (argsTurn inner) (argsTurn_shrinks hinner) done
        ⟨pre ++ (joined items ++ ')' :: rest), n⟩ =
      (.ok (done ++ as), ⟨rest, n + ks⟩) := by
  induction h generalizing done pre n with
  | nil => exact absurd rfl hne
  | @cons s a k items as ks harg hrest ih =>
    cases items with
    | nil =>
      cases hrest
      exact Scan.loop_leave (argsTurn_leaves harg done hpre rest (by omega))
    | cons item items =>
      have htext : pre ++ (joined (s :: item :: items) ++ ')' :: rest) =
          pre ++ (s ++ ',' :: ([' '] ++ (joined (item :: items) ++ ')' :: rest))) := by
        rw [joined, append_assoc, append_assoc]
        · rfl
        · exact cons_ne_nil item items
      rw [htext, Scan.loop_turn (argsTurn_goes harg done hpre _ (by omega)),
        ih (cons_ne_nil _ _) (done ++ [a]) (.inr rfl) (by omega), append_assoc,
        Nat.add_assoc]
      rfl

theorem args_reads (hinner : Scan.Within size inner) {items : List Str} {as : List Arg} {ks : Nat}
    (h : ReadsArgs inner items as ks) (rest : Str) (hn : n + ks ≤ maxNodes) :
    args inner hinner ⟨joined items ++ ')' :: rest, n⟩ = (.ok as, ⟨rest, n + ks⟩) := by
  unfold args
  cases h with
  | nil => exact Scan.bind_ok (eat_this (by decide) rest n)
  | @cons s a k items as ks harg hrest =>
    obtain ⟨c, t, rfl, hblank, hclose⟩ := harg.begins
    have hhead : (joined ((c :: t) :: items) ++ ')' :: rest).head? = some c := by
      cases items <;> rfl
    have htrim : trimStart (joined ((c :: t) :: items) ++ ')' :: rest) =
        joined ((c :: t) :: items) ++ ')' :: rest := by
      refine trimStart_eq_self fun d hd => ?_
      rw [hhead] at hd
      cases hd
      exact hblank
    have hopen : (joined ((c :: t) :: items) ++ ')' :: rest).head? ≠ some ')' := by
      rw [hhead]
      exact fun h => hclose (Option.some.inj h)
    rw [Scan.bind_ok (eat_other htrim hopen n)]
    exact loop_reads hinner (.cons harg hrest) (cons_ne_nil _ _) [] (.inl rfl) rest hn

theorem Ends.not_digit (h : Ends rest) : ∀ c ∈ rest.head?, c.isDigit = false := by
  intro c hc
  rcases h c hc with rfl | rfl <;> decide

theorem intText_begins (z : Int) : ∃ c t, intText z = c :: t ∧ (c.isDigit || c = '-') = true := by
  cases z with
  | ofNat n =>
    obtain ⟨c, t, hct⟩ := exists_cons_of_ne_nil (Nat.toDigits_ne_nil (n := n) (b := 10))
    refine ⟨c, t, hct, ?_⟩
    rw [isDigit_of_mem_toDigits c (hct ▸ mem_cons_self ..)]
    rfl
  | negSucc n => exact ⟨'-', _, rfl, by decide⟩

theorem number_arg {z : Int} (hz : ServerType.IsI64 z) :
    ReadsArg inner (intText z) (.number z) 0 where
  begins := by
    obtain ⟨c, t, hct, hc⟩ := intText_begins z
    refine ⟨c, t, hct, ?_, ?_⟩
    · have htrim := trimStart_intText z []
      rw [hct, append_nil] at htrim
      refine Bool.eq_false_iff.mpr fun hblank => ?_
      have hlen := congrArg List.length htrim
      unfold trimStart at hlen
      rw [dropWhile_cons_of_pos hblank] at hlen
      have hle := (dropWhile_sublist isWhitespace (l := t)).length_le
      rw [length_cons] at hlen
      omega
    · rintro rfl
      exact absurd hc (by decide)
  reads := by
    intro rest n hends _
    obtain ⟨c, t, hct, hc⟩ := intText_begins z
    have hrun := number_reads hz hends.not_digit n
    have htrim := trimStart_intText z rest
    rw [hct, cons_append] at hrun htrim ⊢
    unfold arg
    dsimp only
    rw [htrim]
    split
    next rest' heq =>
      obtain ⟨rfl, -⟩ := List.cons.inj heq
      exact absurd hc (by decide)
    next =>
      rw [if_pos (show startsNumber (c :: (t ++ rest)) = true from hc), Scan.bind_ok hrun]
      rfl

theorem arg_quoted (text : Str) (h : rest.head? ≠ some '\'') (n : Nat) :
    arg inner ⟨quotedText '\'' text ++ rest, n⟩ = entryOrText (text.map slip) ⟨rest, n⟩ := by
  have htrim : trimStart (quotedText '\'' text ++ rest) =
      '\'' :: (text.flatMap (escape '\'') ++ '\'' :: rest) := by
    rw [quotedText, cons_append, append_assoc]
    exact trimStart_eq_self (by rintro d ⟨⟩; decide)
  unfold arg
  dsimp only
  rw [htrim]
  split
  next rest' heq =>
    cases heq
    rw [quoted_printed (.inl rfl) text h]
  next hno => exact (hno _ rfl).elim

theorem quotedText_begins (hquote : IsQuote quote) (text t : Str) :
    ∃ c u, quotedText quote text ++ t = c :: u ∧ isWhitespace c = false ∧ c ≠ ')' := by
  refine ⟨quote, _, rfl, ?_⟩
  rcases hquote with rfl | rfl <;> decide

theorem text_arg (text : Str) :
    ReadsArg inner (quotedText '\'' text) (.text (text.map slip)) 0 where
  begins := by
    obtain ⟨c, u, hcu, hc⟩ := quotedText_begins (.inl rfl) text []
    rw [append_nil] at hcu
    exact ⟨c, u, hcu, hc⟩
  reads := by
    intro rest n hends _
    rw [arg_quoted text (hends.ne (by decide) (by decide)), entryOrText,
      Scan.bind_ok (eat_other hends.trimStart (hends.ne (by decide) (by decide)) n)]
    rfl

theorem entry_arg {entry : Str × Int} (hz : ServerType.IsI64 entry.2) :
    ReadsArg inner (ServerType.entryText entry) (.entry (entry.1.map slip) entry.2) 0 where
  begins := quotedText_begins (.inl rfl) entry.1 _
  reads := by
    intro rest n hends _
    have hassign : eat '=' ⟨" = ".toList ++ intText entry.2 ++ rest, n⟩ =
        (.ok true, ⟨' ' :: (intText entry.2 ++ rest), n⟩) := eat_this_blank _ n
    rw [ServerType.entryText, append_assoc, arg_quoted entry.1 (by rintro ⟨⟩), entryOrText,
      Scan.bind_ok hassign]
    have hrun : number ⟨' ' :: (intText entry.2 ++ rest), n⟩ =
        (.ok (some entry.2), ⟨rest, n⟩) := number_reads hz hends.not_digit n
    refine (Scan.bind_ok hrun).trans ?_
    rfl

/-! ## Types -/

/-- A text is read as a type that names so many, whatever may stand behind it. -/
def ReadsType (inner : Parse ChType) (s : Str) (ty : ChType) (k : Nat) : Prop :=
  ∀ rest n, Ends rest → n + k ≤ maxNodes → inner ⟨s ++ rest, n⟩ = (.ok ty, ⟨rest, n + k⟩)

/-- A text that begins with a bare name, and goes on with its arguments if with anything. -/
def Named (s : Str) : Prop :=
  ∃ name tail, s = name ++ tail ∧ Bare name ∧ (tail = [] ∨ tail.head? = some '(')

theorem endsWord_paren (rest : Str) : EndsWord ('(' :: rest) := by
  rintro c ⟨⟩
  decide

section

variable (hinner : Scan.Within size inner) {name : Str}

theorem ty_of_arguments (hname : Bare name) {tail rest : Str} (htail : EndsWord tail)
    {as : List Arg} {m : Nat}
    (hargs : argumentsOf name inner hinner ⟨tail, n + 1⟩ = (.ok as, ⟨rest, m⟩))
    (hn : n + 1 ≤ maxNodes) :
    ty inner hinner ⟨name ++ tail, n⟩ = (.ok (ChType.build name as), ⟨rest, m⟩) := by
  have hword : word ⟨name ++ tail, n + 1⟩ = (.ok (some name), ⟨tail, n + 1⟩) :=
    word_bare hname.ne_nil hname.1 htail (n + 1)
  have hsome : (orFail (some name) "a type name was expected" : Parse Str) ⟨tail, n + 1⟩ =
      (.ok name, ⟨tail, n + 1⟩) := rfl
  unfold ty
  dsimp only
  rw [if_neg (Nat.not_lt.mpr hn)]
  unfold counted
  rw [Scan.bind_ok hword, Scan.bind_ok hsome]
  exact Scan.bind_ok hargs

theorem ty_alone (hname : Bare name) :
    ReadsType (ty inner hinner) name (ChType.build name []) 1 := by
  intro rest n hends hn
  refine ty_of_arguments hinner hname hends.endsWord ?_ hn
  unfold argumentsOf
  rw [Scan.bind_ok (eat_other hends.trimStart (hends.ne (by decide) (by decide)) (n + 1))]
  rfl

theorem ty_call (hname : Bare name) {items : List Str} {as : List Arg} {ks : Nat}
    (h : ReadsArgs inner items as ks) (hskip : name ∉ opaqueArguments) :
    ReadsType (ty inner hinner) (call name items) (ChType.build name as) (1 + ks) := by
  intro rest n _ hn
  unfold call
  rw [append_assoc, cons_append, append_assoc]
  refine ty_of_arguments hinner hname (endsWord_paren _) ?_ (by omega)
  unfold argumentsOf
  rw [Scan.bind_ok (eat_this (by decide) _ (n + 1)), if_pos rfl, if_neg hskip,
    ← Nat.add_assoc]
  exact args_reads hinner h rest (by omega)

end

/-! ## Arguments that are not read -/

theorem skipBalanced_balanced (h : Balanced s) (nested : Nat) (rest : Str) :
    skipBalanced (nested + 1) (s ++ ')' :: rest) = skipBalanced (nested + 1) (')' :: rest) := by
  induction h generalizing nested rest with
  | nil => rfl
  | @plain c s hc _ ih =>
    obtain ⟨hopen, hclose, hquote, hback⟩ : c ≠ '(' ∧ c ≠ ')' ∧ c ≠ '\'' ∧ c ≠ '`' := by
      simpa only [mem_cons, not_mem_nil, or_false, not_or] using hc
    rw [cons_append, skipBalanced, if_neg hopen, if_neg hclose,
      if_neg (not_or.mpr ⟨hquote, hback⟩), ih]
  | @quoted quote text s hquote hs _ ih =>
    have hhead : (s ++ ')' :: rest).head? ≠ some quote := by
      cases s with
      | nil =>
        rintro ⟨⟩
        rcases hquote with h | h <;> exact absurd h (by decide)
      | cons c s => exact hs
    have hparen : quote ≠ '(' ∧ quote ≠ ')' := by
      rcases hquote with rfl | rfl <;> decide
    rw [quotedText, cons_append, append_assoc, cons_append, append_assoc,
      singleton_append, cons_append, skipBalanced, if_neg hparen.1, if_neg hparen.2,
      if_pos hquote]
    split
    next hnone =>
      rw [quoted_printed hquote text hhead] at hnone
      cases hnone
    next out rest' hsome =>
      rw [quoted_printed hquote text hhead] at hsome
      cases hsome
      exact ih nested rest
  | @nested inner s _ _ ihinner ih =>
    rw [cons_append, append_assoc, cons_append, skipBalanced, if_pos rfl,
      ihinner (nested + 1) _, skipBalanced, if_neg (by decide), if_pos rfl,
      if_neg (by omega)]
    exact ih nested rest

theorem ty_skipped (hinner : Scan.Within size inner) {name arguments : Str} (hname : Bare name)
    (hskip : name ∈ opaqueArguments) (h : Balanced arguments) :
    ReadsType (ty inner hinner) (name ++ ('(' :: (arguments ++ [')'])))
      (ChType.build name []) 1 := by
  intro rest n _ hn
  rw [append_assoc, cons_append, append_assoc]
  refine ty_of_arguments hinner hname (endsWord_paren _) ?_ hn
  unfold argumentsOf
  rw [Scan.bind_ok (eat_this (by decide) _ (n + 1)), if_pos rfl, if_pos hskip]
  unfold skipArguments
  dsimp only
  rw [singleton_append, skipBalanced_balanced h 0 rest, skipBalanced,
    if_neg (by decide), if_pos rfl, if_pos (Nat.le_refl 1)]

/-! ## A type as an argument -/

/-- What follows a bare name in a type: its arguments, or what may stand behind it. -/
theorem endsWord_tail {tail rest : Str} (htail : tail = [] ∨ tail.head? = some '(')
    (hends : Ends rest) : EndsWord (tail ++ rest) ∧ startsType (trimStart (tail ++ rest)) = false ∧
      (tail ++ rest).head? ≠ some '`' := by
  rcases htail with rfl | htail
  · rw [nil_append, hends.trimStart]
    refine ⟨hends.endsWord, ?_, hends.ne (by decide) (by decide)⟩
    unfold startsType
    cases rest with
    | nil => rfl
    | cons c rest =>
      rcases hends c rfl with rfl | rfl <;> rfl
  · cases tail with
    | nil => cases htail
    | cons c tail =>
      cases htail
      exact ⟨endsWord_paren _, rfl, by rintro ⟨⟩⟩

/-- An argument that begins with a name: it is read by what reads types. -/
theorem arg_of_name {t : Str} (hc : c = '`' ∨ isWordChar c = true ∧ c.isDigit = false)
    (n : Nat) : arg inner ⟨c :: t, n⟩ = (do
      let name ← argName
      Arg.type name <$> inner : Parse Arg) ⟨c :: t, n⟩ := by
  have hfacts : isWhitespace c = false ∧ c ≠ '\'' ∧ (c.isDigit || c = '-') = false := by
    rcases hc with rfl | ⟨hword, hdigit⟩
    · exact ⟨by decide, by decide, by decide⟩
    · refine ⟨not_isWhitespace_of_isWordChar hword, ne_of_isWordChar hword (by decide), ?_⟩
      rw [hdigit, Bool.false_or]
      exact decide_eq_false (ne_of_isWordChar hword (by decide))
  have htrim : trimStart (c :: t) = c :: t := trimStart_eq_self (by rintro d ⟨⟩; exact hfacts.1)
  unfold arg
  dsimp only
  rw [htrim]
  split
  next rest' heq => exact absurd (List.cons.inj heq).1 hfacts.2.1
  next =>
    have hnumber : ¬ startsNumber (c :: t) = true := by
      show ¬ (c.isDigit || c = '-') = true
      rw [hfacts.2.2]
      exact Bool.false_ne_true
    rw [if_neg hnumber]

theorem type_arg {ty : ChType} (h : ReadsType inner s ty k) (hs : Named s) :
    ReadsArg inner s (.type none ty) k := by
  obtain ⟨name, tail, rfl, hname, htail⟩ := hs
  obtain ⟨c, t, rfl, hword, hdigit⟩ := hname.begins
  refine ⟨⟨c, t ++ tail, rfl, not_isWhitespace_of_isWordChar hword,
    ne_of_isWordChar hword (by decide)⟩, fun rest n hends hn => ?_⟩
  obtain ⟨hend, htype, -⟩ := endsWord_tail htail hends
  have hnone : argName ⟨c :: t ++ tail ++ rest, n⟩ = (.ok none, ⟨c :: t ++ tail ++ rest, n⟩) := by
    unfold argName
    rw [append_assoc, word_bare hname.ne_nil hname.1 hend n]
    dsimp only
    rw [htype]
    rfl
  rw [cons_append, cons_append] at hnone
  rw [cons_append, cons_append, arg_of_name (.inr ⟨hword, hdigit⟩) n,
    Scan.bind_ok hnone]
  exact Scan.bind_ok (h rest n hends hn)

theorem named_arg {name s t : Str} {ty : ChType} (hname : PrintsName name s)
    (h : ReadsType inner t ty k) (ht : t.head?.any Char.isAlpha = true) :
    ReadsArg inner (s ++ ' ' :: t) (.type (some (name.map slip)) ty) k := by
  obtain ⟨d, u, rfl⟩ := exists_cons_of_ne_nil (l := t) (by rintro rfl; cases ht)
  have hd : d.isAlpha = true := ht
  have hdword : isWordChar d = true := by
    unfold isWordChar Char.isAlphanum
    rw [hd]
    rfl
  have htrim : ∀ rest : Str, trimStart (' ' :: (d :: u ++ rest)) = d :: u ++ rest := by
    intro rest
    refine (?_ : _ = trimStart (d :: u ++ rest)).trans (trimStart_eq_self ?_)
    · rfl
    · rintro c ⟨⟩
      exact not_isWhitespace_of_isWordChar hdword
  have hread : ∀ rest n, word ⟨s ++ ' ' :: (d :: u ++ rest), n⟩ =
      (.ok (some (name.map slip)), ⟨' ' :: (d :: u ++ rest), n⟩) := by
    intro rest n
    rcases hname with rfl | ⟨rfl, hbare⟩
    · exact word_quoted name (by rintro ⟨⟩) n
    · have hsame : s.map slip = s := by
        conv_rhs => rw [← map_id s]
        exact map_congr_left fun c hc => slip_of_isWordChar (hbare.1 c hc)
      rw [hsame]
      exact word_bare hbare.ne_nil hbare.1 (by rintro c ⟨⟩; decide) n
  obtain ⟨c, v, rfl, hc⟩ : ∃ c v, s = c :: v ∧
      (c = '`' ∨ isWordChar c = true ∧ c.isDigit = false) := by
    rcases hname with rfl | ⟨rfl, hbare⟩
    · exact ⟨'`', _, rfl, .inl rfl⟩
    · obtain ⟨c, v, hcv, hc⟩ := hbare.begins
      exact ⟨c, v, hcv, .inr hc⟩
  refine ⟨⟨c, v ++ ' ' :: d :: u, rfl, ?_⟩, fun rest n hends hn => ?_⟩
  · rcases hc with rfl | ⟨hword, -⟩
    · decide
    · exact ⟨not_isWhitespace_of_isWordChar hword, ne_of_isWordChar hword (by decide)⟩
  · have hsome : argName ⟨c :: v ++ ' ' :: (d :: u ++ rest), n⟩ =
        (.ok (some (name.map slip)), ⟨d :: u ++ rest, n⟩) := by
      unfold argName
      rw [hread rest n]
      dsimp only
      rw [htrim rest, if_pos]
      show (d.isAlpha || d = '`') = true
      rw [hd]
      rfl
    rw [cons_append] at hsome
    rw [append_assoc, cons_append, cons_append, arg_of_name hc n,
      Scan.bind_ok hsome]
    exact Scan.bind_ok (h rest n hends hn)

end Parser

end Oxyn.ClickHouse
