/-
# `Oxyn.Postgres.Network` — network addresses

An IPv6 address is eight words, of which the first of the longest runs of zero words is left out
for a `::`, and the last two may be written as an IPv4 address.
-/
import Oxyn.Lib.Decimal
import Oxyn.Lib.JsonText

namespace Oxyn.Postgres.Network

open List
open JsonText (hexValue?)

/-- Sixteen bytes. -/
abbrev Octets := { octets : List UInt8 // octets.length = 16 }

/-- `u16::from_be_bytes`, of each pair. -/
def wordsOf : List UInt8 → List Nat
  | high :: low :: rest => (high.toNat * 256 + low.toNat) :: wordsOf rest
  | _ => []

/-! ## The run -/

/-- The best run of zero words and the current one, each its base and its length. -/
structure Runs where
  best : Option (Nat × Nat)
  current : Option (Nat × Nat)

/-- The best run, once `run` is over: on a tie, the first one wins. -/
def Runs.close (s : Runs) (run : Nat × Nat) : Option (Nat × Nat) :=
  if s.best.all fun best => best.2 < run.2 then some run else s.best

def runTurn (s : Runs) (index word : Nat) : Runs :=
  if word = 0 then
    { s with current := some ((s.current.map fun run => (run.1, run.2 + 1)).getD (index, 1)) }
  else
    match s.current with
    | some run => ⟨s.close run, none⟩
    | none => s

def scanRuns : Nat → List Nat → Runs → Runs
  | _, [], s => s
  | index, word :: rest, s => scanRuns (index + 1) rest (runTurn s index word)

def bestRun (words : List Nat) : Option (Nat × Nat) :=
  let s := scanRuns 0 words ⟨none, none⟩
  let best :=
    match s.current with
    | some run => s.close run
    | none => s.best
  best.filter fun run => 2 ≤ run.2

/-- The `n` words from `i` on are zero. -/
def Zero (words : List Nat) (i n : Nat) : Prop := ∀ j, i ≤ j → j < i + n → words[j]? = some 0

/-- What the loop knows of the first `k` words, of a best run `b` and a current run `r`. -/
structure Seen (words : List Nat) (k : Nat) (b r : Nat × Nat) : Prop where
  ends : r.1 + r.2 = k
  current : Zero words r.1 r.2
  best : Zero words b.1 b.2
  order : b.1 ≤ r.1
  beats : ∀ i n, i < r.1 → Zero words i n → n ≤ b.2 ∧ (n = b.2 → b.1 ≤ i)

variable {words : List Nat} {k : Nat} {b r : Nat × Nat} {s : Runs}

theorem Zero.end_le {i n : Nat} (h : Zero words i n) (hk : words[k]? ≠ some 0)
    (hi : i ≤ k) : i + n ≤ k := by
  by_contra hpast
  exact hk (h k hi (by omega))

theorem Seen.zero (h : Seen words k b r) (hk : words[k]? = some 0) :
    Seen words (k + 1) b (r.1, r.2 + 1) := by
  refine ⟨congrArg (· + 1) h.ends, fun j hij hj => ?_, h.best, h.order, h.beats⟩
  rcases Nat.lt_or_ge j k with hjk | hjk
  · exact h.current j hij (by have := h.ends; omega)
  · obtain rfl : j = k := by have := h.ends; dsimp only at hj; omega
    exact hk

theorem Seen.other (h : Seen words k b r) (hk : words[k]? ≠ some 0) :
    Seen words (k + 1) (if b.2 < r.2 then r else b) (k + 1, 0) := by
  obtain ⟨hends, hcurrent, hbest, horder, hbeats⟩ := h
  refine ⟨rfl, fun j hij hj => by dsimp only at hij hj; omega, by split <;> assumption,
    by split <;> dsimp only <;> omega, fun i n hi hz => ?_⟩
  have hin := hz.end_le hk (Nat.le_of_lt_succ hi)
  by_cases hbefore : i < r.1
  · have := hbeats i n hbefore hz
    split <;> omega
  · split <;> omega

/-- The runs the loop carries, an absent one empty. -/
def Seen.Of (words : List Nat) (k : Nat) (s : Runs) : Prop :=
  Seen words k (s.best.getD (0, 0)) (s.current.getD (k, 0)) ∧ ∀ run ∈ s.current, 0 < run.2

theorem Seen.Of.turn (h : Seen.Of words k s) (word : Nat) (hword : word = 0 ↔ words[k]? = some 0) :
    Seen.Of words (k + 1) (runTurn s k word) := by
  obtain ⟨best, current⟩ := s
  obtain ⟨hseen, hpos⟩ := h
  unfold runTurn
  split
  next hzero =>
    refine ⟨?_, ?_⟩
    · have := hseen.zero (hword.mp hzero)
      cases current with
      | _ => exact this
    · cases current with
      | _ => rintro _ ⟨⟩; exact Nat.succ_pos _
  next hzero =>
    have hother := hseen.other (mt hword.mpr hzero)
    cases current with
    | none => exact ⟨hother, nofun⟩
    | some run =>
      refine ⟨?_, nofun⟩
      have hpos := hpos run rfl
      cases best with
      | none => simpa [Runs.close, hpos] using hother
      | some best =>
        dsimp only [Runs.close, Option.all_some, Option.getD_some] at hother ⊢
        by_cases hlonger : best.2 < run.2
        · simpa [hlonger] using hother
        · simpa [hlonger] using hother

theorem seen_scanRuns (rest : List Nat) (hrest : words.drop k = rest) (h : Seen.Of words k s) :
    Seen.Of words (k + rest.length) (scanRuns k rest s) := by
  induction rest generalizing k s with
  | nil => exact h
  | cons word rest ih =>
    have hget : words[k]? = some word := by
      have := congrArg (·[0]?) hrest
      simpa using this
    have htail : words.drop (k + 1) = rest := by rw [← tail_drop, hrest, tail_cons]
    have := ih htail (h.turn word (by rw [hget, Option.some.injEq]))
    rwa [length_cons, Nat.add_comm rest.length, ← Nat.add_assoc]

/-- The run is the first of the longest ones, of two words at least. -/
theorem bestRun_spec (words : List Nat) :
    (∀ run ∈ bestRun words, 2 ≤ run.2 ∧ Zero words run.1 run.2 ∧
      ∀ i n, Zero words i n → n ≤ run.2 ∧ (n = run.2 → run.1 ≤ i)) ∧
    (bestRun words = none → ∀ i n, Zero words i n → n < 2) := by
  have hscan := seen_scanRuns words rfl (k := 0) (s := ⟨none, none⟩)
    ⟨⟨rfl, nofun, nofun, Nat.le_refl 0, nofun⟩, nofun⟩
  rw [Nat.zero_add] at hscan
  -- the end of the words closes a run as a word does
  obtain ⟨hlast, -⟩ := hscan.turn 1 (by simp)
  have hbest : bestRun words =
      (runTurn (scanRuns 0 words ⟨none, none⟩) words.length 1).best.filter fun run => 2 ≤ run.2 := by
    rw [bestRun, runTurn, if_neg Nat.one_ne_zero]
    cases (scanRuns 0 words ⟨none, none⟩).current with
    | _ => rfl
  have hnone : (runTurn (scanRuns 0 words ⟨none, none⟩) words.length 1).current = none := by
    rw [runTurn, if_neg Nat.one_ne_zero]
    split
    · rfl
    · assumption
  rw [hbest]
  rw [hnone] at hlast
  generalize (runTurn (scanRuns 0 words ⟨none, none⟩) words.length 1).best = best at hlast
  have hbeats : ∀ i n, Zero words i n → 0 < n →
      n ≤ (best.getD (0, 0)).2 ∧ (n = (best.getD (0, 0)).2 → (best.getD (0, 0)).1 ≤ i) := by
    intro i n hz hn
    have hi := (List.getElem?_eq_some_iff.mp (hz i (Nat.le_refl i) (by omega))).1
    exact hlast.beats i n (by simp; omega) hz
  constructor
  · intro run hrun
    obtain ⟨rfl, hlen⟩ := Option.filter_eq_some_iff.mp hrun
    have hlen := of_decide_eq_true hlen
    refine ⟨hlen, hlast.best, fun i n hz => ?_⟩
    rcases Nat.eq_zero_or_pos n with rfl | hn
    · omega
    · exact hbeats i n hz hn
  · intro hrun i n hz
    rcases Nat.eq_zero_or_pos n with rfl | hn
    · decide
    · have hle := (hbeats i n hz hn).1
      cases best with
      | none => exact Nat.lt_of_le_of_lt hle Nat.two_pos
      | some run =>
        have hshort := Option.filter_eq_none_iff.mp hrun run rfl
        simp only [decide_eq_true_eq] at hshort
        exact Nat.lt_of_le_of_lt hle (Nat.lt_of_not_le hshort)

/-! ## The text -/

/-- `{word:x}`. -/
def hex (word : Nat) : List Char := Nat.toDigits 16 word

/-- `{a}.{b}.{c}.{d}`. -/
def dotted (octets : List UInt8) : List Char :=
  ['.'].intercalate (octets.map fun octet => Decimal.numeral octet.toNat)

/-- The address prints its last 32 bits as an IPv4. -/
def embedded (words : List Nat) (best : Option (Nat × Nat)) (index : Nat) : Bool :=
  index = 6 && best.any fun run => run.1 = 0 && (run.2 = 6 ||
    (run.2 = 7 && words[7]? ≠ some 1) || (run.2 = 5 && words[5]? = some 0xffff))

def compressed (best : Option (Nat × Nat)) (index : Nat) : Bool :=
  best.any fun run => run.1 ≤ index && index < run.1 + run.2

/-- The loop from the word at `index` on, and the colon of a run that the text ends with. -/
def writeFrom (octets : List UInt8) (words : List Nat) (best : Option (Nat × Nat)) :
    Nat → List Nat → List Char
  | _, [] => if best.any fun run => run.1 + run.2 = words.length then [':'] else []
  | index, word :: rest =>
    if compressed best index then
      if best.any fun run => index = run.1 then
        ':' :: writeFrom octets words best (index + 1) rest
      else
        writeFrom octets words best (index + 1) rest
    else
      (if index ≠ 0 then [':'] else []) ++
        if embedded words best index then dotted (octets.drop 12)
        else hex word ++ writeFrom octets words best (index + 1) rest

/-- The text that is put behind `out`. -/
def writeIpv6 (octets : Octets) : List Char :=
  let words := wordsOf octets.1
  writeFrom octets.1 words (bestRun words) 0 words

/-! ## The grammar -/

/-- The text before the first `::`, and the text behind it. -/
def cutDouble : List Char → Option (List Char × List Char)
  | [] => none
  | c :: rest =>
    if c = ':' ∧ rest.head? = some ':' then some ([], rest.tail)
    else (cutDouble rest).map fun cut => (c :: cut.1, cut.2)

/-- One to four hexadecimal digits. -/
def readHex (piece : List Char) : Option Nat :=
  if piece = [] ∨ 4 < piece.length then none
  else piece.foldlM (fun n c => (hexValue? c).map (16 * n + ·)) 0

/-- A number below 256, without zeros before it. -/
def readOctet (piece : List Char) : Option Nat :=
  if Decimal.numeral (Decimal.value piece) = piece ∧ Decimal.value piece < 256 then
    some (Decimal.value piece)
  else none

/-- An IPv4 address, as two words. -/
def readDotted (piece : List Char) : Option (List Nat) :=
  match (piece.splitOn '.').mapM readOctet with
  | some [a, b, c, d] => some [a * 256 + b, c * 256 + d]
  | _ => none

/-- Words, the last two of which may be an IPv4 address. -/
def readPieces : List (List Char) → Option (List Nat)
  | [] => some []
  | piece :: rest =>
    if rest = [] ∧ '.' ∈ piece then readDotted piece
    else (readHex piece).bind fun word => (readPieces rest).map (word :: ·)

def readWords (text : List Char) : Option (List Nat) :=
  if text = [] then some [] else readPieces (text.splitOn ':')

def octetsOf (words : List Nat) : List UInt8 :=
  words.flatMap fun word => [UInt8.ofNat (word / 256), UInt8.ofNat word]

/-- Eight words, or fewer on both sides of a `::`. -/
def readIpv6 (text : List Char) : Option (List UInt8) :=
  match cutDouble text with
  | none => ((readWords text).filter fun words => words.length = 8).map octetsOf
  | some (front, back) =>
    if '.' ∈ front then none
    else (readWords front).bind fun before => (readWords back).bind fun behind =>
      if before.length + behind.length < 8 then
        some (octetsOf (before ++ replicate (8 - (before.length + behind.length)) 0 ++ behind))
      else none

/-! ## Words and bytes -/

theorem word_spec (high low : UInt8) : high.toNat * 256 + low.toNat < 65536 ∧
    UInt8.ofNat ((high.toNat * 256 + low.toNat) / 256) = high ∧
      UInt8.ofNat (high.toNat * 256 + low.toNat) = low := by
  have := high.toNat_lt
  have := low.toNat_lt
  refine ⟨by omega, ?_, ?_⟩
  · rw [← UInt8.toNat_inj, UInt8.toNat_ofNat']
    omega
  · rw [← UInt8.toNat_inj, UInt8.toNat_ofNat']
    omega

theorem words_spec (octets : Octets) : (wordsOf octets.1).length = 8 ∧
    (∀ word ∈ wordsOf octets.1, word < 65536) ∧ octetsOf (wordsOf octets.1) = octets.1 := by
  have hlt := fun high low => (word_spec high low).1
  have hhigh := fun high low => (word_spec high low).2.1
  have hlow := fun high low => (word_spec high low).2.2
  match octets with
  | ⟨[_, _, _, _, _, _, _, _, _, _, _, _, _, _, _, _], _⟩ =>
    refine ⟨rfl, ?_, ?_⟩
    · simp only [wordsOf, forall_mem_cons, hlt, true_and]
      exact nofun
    · simp only [wordsOf, octetsOf, flatMap_cons, hhigh, hlow]
      rfl

theorem hex_spec (word : Nat) :
    (hex word).foldlM (fun n c => (hexValue? c).map (16 * n + ·)) 0 = some word ∧
      ∀ c ∈ hex word, hexValue? c ≠ none := by
  have hdigit : ∀ d < 16, hexValue? (Nat.digitChar d) = some d := by decide
  induction word using Nat.strong_induction_on with
  | _ word ih =>
    rw [hex, Nat.toDigits_eq_if (by decide)]
    split
    next hlt =>
      refine ⟨by simp [hdigit word hlt], fun c hc => ?_⟩
      rw [mem_singleton.mp hc, hdigit word hlt]
      exact Option.some_ne_none _
    next hge =>
      obtain ⟨hvalue, hdigits⟩ := ih (word / 16) (by omega)
      have hd := hdigit (word % 16) (Nat.mod_lt _ (by decide))
      refine ⟨?_, fun c hc => ?_⟩
      · rw [← hex, foldlM_append, hvalue]
        simp [hd, Nat.div_add_mod]
      · rcases mem_append.mp hc with hc | hc
        · exact hdigits c hc
        · rw [mem_singleton.mp hc, hd]
          exact Option.some_ne_none _

theorem hex_ne_nil (word : Nat) : hex word ≠ [] := Nat.toDigits_ne_nil

variable {c : Char}

theorem notMem_hex (h : hexValue? c = none) (word : Nat) : c ∉ hex word :=
  fun hc => (hex_spec word).2 c hc h

theorem readPieces_hex {ws : List Nat} (h : ∀ word ∈ ws, word < 65536) (ps : List (List Char)) :
    readPieces (ws.map hex ++ ps) = (readPieces ps).map (ws ++ ·) := by
  induction ws with
  | nil => exact Option.map_id'.symm
  | cons word ws ih =>
    obtain ⟨hword, hws⟩ := forall_mem_cons.mp h
    have hread : readHex (hex word) = some word := by
      have hlen : (hex word).length ≤ 4 :=
        (Nat.length_toDigits_le_iff (by decide) (by decide)).mpr hword
      rw [readHex, if_neg (not_or_intro (hex_ne_nil word) (Nat.not_lt.mpr hlen)), (hex_spec word).1]
    rw [map_cons, cons_append, readPieces, if_neg fun hdot => notMem_hex rfl word hdot.2, hread,
      Option.bind_some, ih hws, Option.map_map]
    rfl

theorem notMem_numeral (h : c.isDigit = false) (n : Nat) : c ∉ Decimal.numeral n :=
  fun hc => Bool.false_ne_true (h.symm.trans (Decimal.digits_numeral n c hc))

theorem readOctet_numeral (octet : UInt8) :
    readOctet (Decimal.numeral octet.toNat) = some octet.toNat := by
  rw [readOctet, Decimal.value_numeral, if_pos ⟨rfl, octet.toNat_lt⟩]

variable {octets : List UInt8}

theorem dotted_spec (h : octets.length = 4) :
    readDotted (dotted octets) = some (wordsOf octets) ∧ '.' ∈ dotted octets ∧
      ':' ∉ dotted octets ∧ '/' ∉ dotted octets := by
  match octets with
  | [a, b, c, d] =>
    have hcolon := notMem_numeral (c := ':') rfl
    have hslash := notMem_numeral (c := '/') rfl
    have hdot := notMem_numeral (c := '.') rfl
    refine ⟨?_, by simp [dotted, intercalate], by simp [dotted, intercalate, hcolon],
      by simp [dotted, intercalate, hslash]⟩
    rw [readDotted, dotted, splitOn_intercalate _ (by simp [hdot]) (by simp)]
    simp [readOctet_numeral, wordsOf]

theorem wordsOf_drop (octets : Octets) :
    wordsOf (octets.1.drop 12) = (wordsOf octets.1).drop 6 := by
  match octets with
  | ⟨[_, _, _, _, _, _, _, _, _, _, _, _, _, _, _, _], _⟩ => rfl

/-! ## Pieces -/

def join : Bool → List (List Char) → List Char
  | _, [] => []
  | first, piece :: rest => (if first then [] else [':']) ++ (piece ++ join false rest)

/-- No piece is empty or holds a colon. -/
def Pieces (ps : List (List Char)) : Prop := ∀ piece ∈ ps, piece ≠ [] ∧ ':' ∉ piece

theorem pieces_hex (ws : List Nat) : Pieces (ws.map hex) := by
  intro piece hpiece
  obtain ⟨word, -, rfl⟩ := mem_map.mp hpiece
  exact ⟨hex_ne_nil word, notMem_hex rfl word⟩

theorem join_eq_intercalate (ps : List (List Char)) : join true ps = [':'].intercalate ps := by
  induction ps with
  | nil => rfl
  | cons piece ps ih =>
    cases ps with
    | nil => simp [join]
    | cons next ps =>
      rw [intercalate_cons_cons, ← ih]
      simp [join]

theorem readWords_join {ps : List (List Char)} (h : Pieces ps) :
    readWords (join true ps) = readPieces ps := by
  cases ps with
  | nil => rfl
  | cons piece ps =>
    have hne : join true (piece :: ps) ≠ [] := by simp [join, (h piece mem_cons_self).1]
    rw [readWords, if_neg hne, join_eq_intercalate,
      splitOn_intercalate _ (fun p hp => (h p hp).2) (cons_ne_nil _ _)]

theorem cutDouble_append {piece : List Char} (h : ':' ∉ piece) (text : List Char) :
    cutDouble (piece ++ text) = (cutDouble text).map fun cut => (piece ++ cut.1, cut.2) := by
  induction piece with
  | nil => exact Option.map_id'.symm
  | cons c piece ih =>
    have hc : c ≠ ':' := fun hc => h (hc ▸ mem_cons_self)
    rw [cons_append, cutDouble, if_neg fun hcut => hc hcut.1,
      ih fun hp => h (mem_cons_of_mem _ hp), Option.map_map]
    rfl

theorem cutDouble_join {ps : List (List Char)} (h : Pieces ps) (first : Bool) (text : List Char) :
    cutDouble (join first ps ++ text) =
      (cutDouble text).map fun cut => (join first ps ++ cut.1, cut.2) := by
  induction ps generalizing first with
  | nil => exact Option.map_id'.symm
  | cons piece ps ih =>
    obtain ⟨⟨hne, hcolon⟩, hps⟩ := forall_mem_cons.mp h
    have hpiece : cutDouble (piece ++ join false ps ++ text) =
        (cutDouble text).map fun cut => (piece ++ join false ps ++ cut.1, cut.2) := by
      rw [append_assoc, cutDouble_append hcolon, ih hps, Option.map_map]
      simp [Function.comp_def]
    cases first with
    | true => exact hpiece
    | false =>
      obtain ⟨c, piece, rfl⟩ := exists_cons_of_ne_nil hne
      have hc : c ≠ ':' := fun hc => hcolon (hc ▸ mem_cons_self)
      change cutDouble (':' :: (c :: piece ++ join false ps ++ text)) = _
      rw [cutDouble, if_neg (by simpa using hc), hpiece, Option.map_map]
      rfl

theorem writeFrom_words (octets : List UInt8) (words : List Nat) (best : Option (Nat × Nat))
    (index : Nat) (ws rest : List Nat) (h : ∀ i, index ≤ i → i < index + ws.length →
      compressed best i = false ∧ embedded words best i = false) :
    writeFrom octets words best index (ws ++ rest) =
      join (index = 0) (ws.map hex) ++ writeFrom octets words best (index + ws.length) rest := by
  induction ws generalizing index with
  | nil => rfl
  | cons word ws ih =>
    obtain ⟨hout, hplain⟩ := h index (Nat.le_refl _) (by simp)
    have := ih (index + 1) fun i hi hlt => h i (by omega) (by rw [length_cons]; omega)
    rw [cons_append, writeFrom, hout, hplain, this, map_cons, join, length_cons,
      Nat.add_right_comm, ← Nat.add_assoc]
    simp

variable {index : Nat}

variable {run : Nat × Nat}

theorem writeFrom_skipped {rest : List Nat}
    (ws : List Nat) (h : run.1 < index) (hend : index + ws.length ≤ run.1 + run.2) :
    writeFrom octets words (some run) index (ws ++ rest) =
      writeFrom octets words (some run) (index + ws.length) rest := by
  induction ws generalizing index with
  | nil => rfl
  | cons word ws ih =>
    rw [length_cons] at hend
    have hin : compressed (some run) index = true := by simp [compressed]; omega
    have hbase : ¬ index = run.1 := by omega
    rw [cons_append, writeFrom, if_pos hin, if_neg (by simpa using hbase),
      ih (by omega) (by omega), length_cons, Nat.add_right_comm, ← Nat.add_assoc]

theorem notMem_join_hex (hc : hexValue? c = none) (hcolon : c ≠ ':') (ws : List Nat)
    (first : Bool) : c ∉ join first (ws.map hex) := by
  induction ws generalizing first with
  | nil => exact not_mem_nil
  | cons word ws ih =>
    cases first with
    | _ => simp [join, ih, notMem_hex hc, hcolon]

theorem Zero.le_length {base len : Nat} (h : Zero words base len) (hlen : 0 < len) :
    base + len ≤ words.length := by
  have := (List.getElem?_eq_some_iff.mp (h (base + len - 1) (by omega) (by omega))).1
  omega

theorem Zero.take_drop {base len : Nat} (h : Zero words base len) :
    (words.drop base).take len = replicate len 0 := by
  apply List.ext_getElem?
  intro i
  rw [getElem?_take, getElem?_drop, getElem?_replicate]
  split
  · exact h _ (Nat.le_add_right ..) (by omega)
  · rfl

theorem writeFrom_behind (octets : Octets) {ws : List Nat}
    (hend : run.1 + run.2 < 8) (hi : run.1 + run.2 ≤ index) (hpos : 0 < index)
    (hws : (wordsOf octets.1).drop index = ws) : ∃ ps, Pieces ps ∧ readPieces ps = some ws ∧
      writeFrom octets.1 (wordsOf octets.1) (some run) index ws = join false ps := by
  obtain ⟨hlen, hlt, -⟩ := words_spec octets
  obtain ⟨hread, hdot, hcolon, -⟩ := @dotted_spec (octets.1.drop 12) (by simp [octets.2])
  induction ws generalizing index with
  | nil => exact ⟨[], nofun, rfl, by simp [writeFrom, hlen, hend.ne, join]⟩
  | cons word ws ih =>
    have hout : compressed (some run) index = false := by simp [compressed]; omega
    have hcolons : (if index ≠ 0 then [':'] else []) = [':'] := if_pos hpos.ne'
    rw [writeFrom, hout, hcolons]
    by_cases hlast : embedded (wordsOf octets.1) (some run) index = true
    · obtain rfl : index = 6 := by
        simp [embedded] at hlast
        exact hlast.1
      refine ⟨[dotted (octets.1.drop 12)],
        by simpa [Pieces, hcolon] using ne_nil_of_mem hdot, ?_, ?_⟩
      · rw [readPieces, if_pos ⟨rfl, hdot⟩, hread, wordsOf_drop, hws]
      · simp [hlast, join]
    · obtain ⟨ps, hps, hreads, hwrites⟩ := ih (by omega) (Nat.succ_pos index) (by
        rw [← tail_drop, hws, tail_cons])
      refine ⟨hex word :: ps, forall_mem_cons.mpr ⟨pieces_hex [word] _ mem_cons_self, hps⟩, ?_, ?_⟩
      · have hword := hlt word (mem_of_mem_drop (hws ▸ mem_cons_self))
        have := readPieces_hex (fun _ h => mem_singleton.mp h ▸ hword) ps
        rwa [hreads] at this
      · simp [hlast, join, hwrites]

theorem writeFrom_back (octets : Octets) (run : Nat × Nat) (hpos : 0 < run.1 + run.2)
    (hend : run.1 + run.2 ≤ 8) : ∃ ps, Pieces ps ∧
      readPieces ps = some ((wordsOf octets.1).drop (run.1 + run.2)) ∧
      writeFrom octets.1 (wordsOf octets.1) (some run) (run.1 + run.2)
        ((wordsOf octets.1).drop (run.1 + run.2)) = ':' :: join true ps := by
  obtain ⟨hlen, -, -⟩ := words_spec octets
  rcases Nat.lt_or_eq_of_le hend with hend | hend
  · obtain ⟨ps, hps, hread, hwrite⟩ := writeFrom_behind octets hend (Nat.le_refl _) hpos rfl
    cases ps with
    | nil =>
      have := congrArg length (Option.some.inj hread)
      simp [hlen] at this
      omega
    | cons piece ps => exact ⟨piece :: ps, hps, hread, hwrite⟩
  · rw [drop_eq_nil_of_le (by omega)]
    exact ⟨[], nofun, rfl, by simp [writeFrom, hend, hlen, join]⟩

theorem readWords_taken (octets : Octets) (n : Nat) :
    readWords (join true (((wordsOf octets.1).take n).map hex)) =
      some ((wordsOf octets.1).take n) := by
  have := readPieces_hex (fun word (h : word ∈ (wordsOf octets.1).take n) =>
    (words_spec octets).2.1 word (mem_of_mem_take h)) []
  rw [readWords_join (pieces_hex _)]
  simpa [readPieces] using this

theorem writeIpv6_none (octets : Octets) (h : bestRun (wordsOf octets.1) = none) :
    cutDouble (writeIpv6 octets) = none ∧
      readWords (writeIpv6 octets) = some (wordsOf octets.1) := by
  have htext := writeFrom_words octets.1 (wordsOf octets.1) none 0 (wordsOf octets.1) []
    fun _ _ _ => ⟨rfl, Bool.and_false _⟩
  have hcut := cutDouble_join (pieces_hex (wordsOf octets.1)) true []
  have hread := readWords_taken octets 8
  rw [take_of_length_le (Nat.le_of_eq (words_spec octets).1)] at hread
  rw [append_nil] at hcut htext
  rw [writeIpv6, h, htext]
  simp [writeFrom, hcut, cutDouble, hread]

theorem writeIpv6_some (octets : Octets)
    (h : bestRun (wordsOf octets.1) = some run) : ∃ front back,
      cutDouble (writeIpv6 octets) = some (front, back) ∧ cutDouble (':' :: back) = none ∧
      '.' ∉ front ∧ readWords front = some ((wordsOf octets.1).take run.1) ∧
      readWords back = some ((wordsOf octets.1).drop (run.1 + run.2)) := by
  obtain ⟨hlong, hzero, -⟩ := (bestRun_spec (wordsOf octets.1)).1 run h
  obtain ⟨hlen, -, -⟩ := words_spec octets
  have hend := hzero.le_length (by omega)
  obtain ⟨ps, hps, hread, hback⟩ := writeFrom_back octets run (by omega) (hlen ▸ hend)
  refine ⟨join true (((wordsOf octets.1).take run.1).map hex), join true ps, ?_, ?_,
    notMem_join_hex rfl (by decide) _ _, readWords_taken octets _, (readWords_join hps).trans hread⟩
  · have htext : writeIpv6 octets = join true (((wordsOf octets.1).take run.1).map hex) ++
        ':' :: ':' :: join true ps := by
      rw [writeIpv6, h]
      generalize wordsOf octets.1 = words at *
      have hrun : writeFrom octets.1 words (some run) run.1 (words.drop run.1) =
          ':' :: ':' :: join true ps := by
        have hin : compressed (some run) run.1 = true := by simp [compressed]; omega
        have hskipped : ((words.drop (run.1 + 1)).take (run.2 - 1)).length = run.2 - 1 := by
          simp
          omega
        have hnext : run.1 + 1 + (run.2 - 1) = run.1 + run.2 := by omega
        rw [drop_eq_getElem_cons (by omega), writeFrom, if_pos hin, if_pos (by simp), ← hback,
          ← take_append_drop (run.2 - 1) (words.drop (run.1 + 1)), drop_drop,
          writeFrom_skipped _ (Nat.lt_succ_self _) (by omega), hskipped, hnext]
      have hfront : (words.take run.1).length = run.1 := by simp; omega
      have := writeFrom_words octets.1 words (some run) 0 (words.take run.1) (words.drop run.1)
      rw [take_append_drop, hfront, Nat.zero_add, hrun] at this
      refine this fun i _ hi => ?_
      simp [compressed, embedded]
      omega
    have hcut := cutDouble_join (pieces_hex ((wordsOf octets.1).take run.1)) true
      (':' :: ':' :: join true ps)
    rwa [← htext, cutDouble, if_pos ⟨rfl, rfl⟩, Option.map_some, append_nil] at hcut
  · cases ps with
    | nil => rfl
    | cons piece ps =>
      have := cutDouble_join hps false []
      rwa [append_nil] at this

theorem readIpv6_write (octets : Octets) : readIpv6 (writeIpv6 octets) = some octets.1 := by
  obtain ⟨hlen, -, hoctets⟩ := words_spec octets
  rw [readIpv6]
  cases hbest : bestRun (wordsOf octets.1) with
  | none =>
    obtain ⟨hcut, hread⟩ := writeIpv6_none octets hbest
    simp [hcut, hread, hlen, hoctets]
  | some run =>
    obtain ⟨front, back, hcut, -, hdot, hbefore, hbehind⟩ := writeIpv6_some octets hbest
    obtain ⟨hlong, hzero, -⟩ := (bestRun_spec (wordsOf octets.1)).1 run hbest
    have hend := hzero.le_length (by omega)
    have hwords : (wordsOf octets.1).take run.1 ++ (replicate run.2 0 ++
        (wordsOf octets.1).drop (run.1 + run.2)) = wordsOf octets.1 := by
      rw [← hzero.take_drop, ← drop_drop, take_append_drop, take_append_drop]
    have hshort : run.1 + (8 - (run.1 + run.2)) < 8 := by omega
    have hfill : 8 - (run.1 + (8 - (run.1 + run.2))) = run.2 := by omega
    have hmin : min run.1 8 = run.1 := by omega
    simp [hcut, hdot, hbefore, hbehind, hlen, hmin, hshort, hfill, hwords, hoctets]

/-- An address prints unambiguously: at most one `::`, which stands for the first of the longest
runs of at least two zero words, and the grammar reads the same bytes from the text. -/
theorem writeIpv6_unambiguous (octets : Octets) :
    readIpv6 (writeIpv6 octets) = some octets.1 ∧
    (∀ other, writeIpv6 other = writeIpv6 octets → other = octets) ∧
    match cutDouble (writeIpv6 octets) with
    | none => ∀ i n, Zero (wordsOf octets.1) i n → n < 2
    | some (front, back) => cutDouble (':' :: back) = none ∧ ∃ base len, 2 ≤ len ∧
        Zero (wordsOf octets.1) base len ∧
        (∀ i n, Zero (wordsOf octets.1) i n → n ≤ len ∧ (n = len → base ≤ i)) ∧
        readWords front = some ((wordsOf octets.1).take base) ∧
        readWords back = some ((wordsOf octets.1).drop (base + len)) := by
  have hread := readIpv6_write octets
  obtain ⟨hsome, hnone⟩ := bestRun_spec (wordsOf octets.1)
  refine ⟨hread, fun other h => ?_, ?_⟩
  · have hother := readIpv6_write other
    rw [h, hread] at hother
    exact (Subtype.ext (Option.some.inj hother)).symm
  · cases hbest : bestRun (wordsOf octets.1) with
    | none =>
      rw [(writeIpv6_none octets hbest).1]
      exact hnone hbest
    | some run =>
      obtain ⟨front, back, hcut, hback, -, hbefore, hbehind⟩ := writeIpv6_some octets hbest
      obtain ⟨hlong, hzero, hfirst⟩ := hsome run hbest
      rw [hcut]
      exact ⟨hback, run.1, run.2, hlong, hzero, hfirst, hbefore, hbehind⟩

/-! ## An `inet` or a `cidr` -/

/-- `inet_net_ntop` omits a full mask, and `cidr_out` adds it back. -/
def mask (full : Nat) (bits isCidr : UInt8) : List Char :=
  if bits.toNat ≠ full ∨ isCidr ≠ 0 then '/' :: Decimal.numeral bits.toNat else []

def inet : List UInt8 → Except String (List Char)
  | family :: bits :: isCidr :: length :: address =>
    if address.length < length.toNat then .error "truncated inet address"
    else if length.toNat < address.length then .error "trailing bytes after an inet address"
    else if family = 2 then
      if address.length ≠ 4 then .error "IPv4 inet whose address is not four bytes"
      else if 32 < bits.toNat then .error "IPv4 inet mask longer than 32 bits"
      else .ok (dotted address ++ mask 32 bits isCidr)
    else if family = 3 then
      if h : address.length = 16 then
        if 128 < bits.toNat then .error "IPv6 inet mask longer than 128 bits"
        else .ok (writeIpv6 ⟨address, h⟩ ++ mask 128 bits isCidr)
      else .error "IPv6 inet whose address is not sixteen bytes"
    else .error "unknown inet address family"
  | _ => .error "truncated inet header"

/-- What an `inet` or a `cidr` is. -/
structure Inet where
  family : UInt8
  bits : UInt8
  isCidr : UInt8
  address : List UInt8
  valid : (family = 2 ∧ address.length = 4 ∧ bits.toNat ≤ 32) ∨
    (family = 3 ∧ address.length = 16 ∧ bits.toNat ≤ 128)

def Inet.bytes (a : Inet) : List UInt8 :=
  a.family :: a.bits :: a.isCidr :: UInt8.ofNat a.address.length :: a.address

/-- The family, the address and its full mask. -/
def readAddress (text : List Char) : Option (UInt8 × List UInt8 × Nat) :=
  match readIpv6 text with
  | some octets => some (3, octets, 128)
  | none => (readDotted text).map fun words => (2, octetsOf words, 32)

/-- The family, the address, and the mask, which is full where the text names none. -/
def readInet (text : List Char) : Option (UInt8 × List UInt8 × Nat) :=
  (readAddress (text.takeWhile (· ≠ '/'))).bind fun read =>
    match text.dropWhile (· ≠ '/') with
    | [] => some read
    | _ :: digits => (readOctet digits).map fun bits => (read.1, read.2.1, bits)

theorem notMem_writeFrom (h : octets.length = 16) (words : List Nat)
    (best : Option (Nat × Nat)) (index : Nat) (ws : List Nat) :
    '/' ∉ writeFrom octets words best index ws := by
  have hdotted := (@dotted_spec (octets.drop 12) (by simp [h])).2.2.2
  induction ws generalizing index with
  | nil =>
    rw [writeFrom]
    split <;> decide
  | cons word ws ih =>
    rw [writeFrom]
    split_ifs <;> simp [ih, hdotted, notMem_hex (c := '/') rfl]

theorem readInet_append {text : List Char} {read : UInt8 × List UInt8 × Nat} (hslash : '/' ∉ text)
    (hread : readAddress text = some read) (bits isCidr : UInt8) :
    readInet (text ++ mask read.2.2 bits isCidr) = some (read.1, read.2.1, bits.toNat) := by
  have hplain : ∀ c ∈ text, decide (c ≠ '/') = true := fun c hc =>
    decide_eq_true fun heq => hslash (heq ▸ hc)
  rw [readInet, takeWhile_append_of_pos hplain, dropWhile_append_of_pos hplain, mask]
  split
  · simp [hread, readOctet_numeral]
  next hfull =>
    obtain ⟨hbits, -⟩ := not_or.mp hfull
    simp [hread, not_not.mp hbits]

theorem readAddress_dotted (h : octets.length = 4) :
    readAddress (dotted octets) = some (2, octets, 32) := by
  obtain ⟨hread, hdot, hcolon, -⟩ := dotted_spec h
  have hcut := cutDouble_append hcolon []
  have hwords := @readWords_join [dotted octets] (by
    simpa [Pieces, hcolon] using ne_nil_of_mem hdot)
  rw [readPieces, if_pos ⟨rfl, hdot⟩, hread] at hwords
  match octets with
  | [a, b, c, d] =>
    obtain ⟨-, hhigh, hlow⟩ := word_spec a b
    obtain ⟨-, hhigh', hlow'⟩ := word_spec c d
    simp [join, cutDouble, wordsOf] at hcut hwords
    simp [readAddress, readIpv6, hcut, hwords, Option.filter, hread, wordsOf, octetsOf, hhigh, hlow,
      hhigh', hlow']

theorem inet_bytes (a : Inet) : ∃ text, inet a.bytes = .ok text ∧
    readInet text = some (a.family, a.address, a.bits.toNat) := by
  obtain ⟨family, bits, isCidr, address, ⟨rfl, hlen, hbits⟩ | ⟨rfl, hlen, hbits⟩⟩ := a
  · have hslash := (dotted_spec hlen).2.2.2
    refine ⟨_, ?_, readInet_append hslash (readAddress_dotted hlen) bits isCidr⟩
    simp [Inet.bytes, inet, hlen, Nat.not_lt.mpr hbits]
  · have haddress : readAddress (writeIpv6 ⟨address, hlen⟩) = some (3, address, 128) := by
      rw [readAddress, readIpv6_write]
    refine ⟨_, ?_, readInet_append (notMem_writeFrom hlen _ _ _ _) haddress bits isCidr⟩
    simp [Inet.bytes, inet, hlen, Nat.not_lt.mpr hbits, writeIpv6]

theorem exists_of_inet {bytes : List UInt8} {text : List Char} (h : inet bytes = .ok text) :
    ∃ a : Inet, bytes = a.bytes := by
  unfold inet at h
  split at h
  next family bits isCidr length address =>
    have hlength : ¬ address.length < length.toNat → ¬ length.toNat < address.length →
        length = UInt8.ofNat address.length := by
      intro hshort hlong
      rw [Nat.le_antisymm (Nat.not_lt.mp hlong) (Nat.not_lt.mp hshort), UInt8.ofNat_toNat]
    split_ifs at h with hshort hlong hv4 hlen hbits hv6 hlen hbits
    · exact ⟨⟨family, bits, isCidr, address, .inl ⟨hv4, not_not.mp hlen, Nat.not_lt.mp hbits⟩⟩,
        by rw [Inet.bytes, ← hlength hshort hlong]⟩
    · exact ⟨⟨family, bits, isCidr, address, .inr ⟨hv6, hlen, Nat.not_lt.mp hbits⟩⟩,
        by rw [Inet.bytes, ← hlength hshort hlong]⟩
  · cases h

/-- What is printed reads back as the family, the address and the mask of the bytes, and what is
refused is no `inet`: of two that print alike, at most the flag that makes one a `cidr` differs. -/
theorem inet_reads_back (bytes : List UInt8) :
    match inet bytes with
    | .ok text => ∃ a : Inet, bytes = a.bytes ∧
        readInet text = some (a.family, a.address, a.bits.toNat)
    | .error _ => ∀ a : Inet, bytes ≠ a.bytes := by
  cases h : inet bytes with
  | ok text =>
    obtain ⟨a, rfl⟩ := exists_of_inet h
    obtain ⟨text', htext, hread⟩ := inet_bytes a
    cases h.symm.trans htext
    exact ⟨a, rfl, hread⟩
  | error _ =>
    rintro a rfl
    obtain ⟨text, htext, -⟩ := inet_bytes a
    cases h.symm.trans htext

end Oxyn.Postgres.Network
