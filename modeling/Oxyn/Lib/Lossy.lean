/-
# `Oxyn.Lib.Lossy` — bytes read as text, whatever they are

`String::from_utf8_lossy`: what is UTF-8 is decoded, and each longest stretch that begins a
character but is none becomes U+FFFD.
-/
import Oxyn.Lib.Text

namespace Text

open List

/-- What may follow a lead byte: the range of the second byte, and how many
continuation bytes come behind that one. -/
def afterLead (b : UInt8) : Option (Nat × Nat × Nat) :=
  let v := b.toNat
  if 0xc2 ≤ v ∧ v ≤ 0xdf then some (0x80, 0xbf, 0)
  else if v = 0xe0 then some (0xa0, 0xbf, 1)
  else if 0xe1 ≤ v ∧ v ≤ 0xec then some (0x80, 0xbf, 1)
  else if v = 0xed then some (0x80, 0x9f, 1)
  else if 0xee ≤ v ∧ v ≤ 0xef then some (0x80, 0xbf, 1)
  else if v = 0xf0 then some (0x90, 0xbf, 2)
  else if 0xf1 ≤ v ∧ v ≤ 0xf3 then some (0x80, 0xbf, 2)
  else if v = 0xf4 then some (0x80, 0x8f, 2)
  else none

def isContinuation (b : UInt8) : Bool := 0x80 ≤ b.toNat && b.toNat ≤ 0xbf

/-- `char::REPLACEMENT_CHARACTER`. -/
def replacement : Char := Char.ofNat 0xfffd

/-- The code point of a sequence of `tails + 2` bytes. -/
def codePoint (tails : Nat) (b c : UInt8) (more : List UInt8) : Nat :=
  more.foldl (fun v d => v * 64 + d.toNat % 64) (b.toNat % 2 ^ (5 - tails) * 64 + c.toNat % 64)

/-- The character a byte from `0x80` on begins, and how many bytes behind it belong
to it. -/
def decodeAt (b : UInt8) (rest : List UInt8) : Char × Nat :=
  match afterLead b, rest with
  | some (low, high, tails), c :: more =>
    if low ≤ c.toNat ∧ c.toNat ≤ high then
      let cont := (more.take tails).takeWhile isContinuation
      if cont.length = tails then (Char.ofNat (codePoint tails b c cont), tails + 1)
      else (replacement, cont.length + 1)
    else (replacement, 0)
  | _, _ => (replacement, 0)

/-- The text of what is left, the bytes still to step over being counted down. -/
def lossyFrom : List UInt8 → Nat → Str
  | [], _ => []
  | _ :: rest, n + 1 => lossyFrom rest n
  | b :: rest, 0 =>
    if b.toNat < 0x80 then Char.ofNat b.toNat :: lossyFrom rest 0
    else (decodeAt b rest).1 :: lossyFrom rest (decodeAt b rest).2

/-- `String::from_utf8_lossy`. -/
def fromUtf8Lossy (b : List UInt8) : Str := lossyFrom b 0

/-- `str::from_utf8`: what is read back as it was written. -/
def fromUtf8 (b : List UInt8) : Option Str :=
  if bytes (fromUtf8Lossy b) = b then some (fromUtf8Lossy b) else none

variable {n : Nat}

theorem toNat_ofNat_of_range (h : n < 0xd800 ∨ 0xdfff < n ∧ n < 0x110000) :
    (Char.ofNat n).toNat = n := by
  have hvalid : n.isValidChar := by
    simp only [Nat.isValidChar]
    omega
  rw [Char.ofNat, dif_pos hvalid]
  rfl

variable {b : UInt8}

/-- The first two bytes leave out what is too short, a surrogate or too large. -/
theorem range_of_lead {c low high tails : Nat}
    (hlead : afterLead b = some (low, high, tails)) (hc : low ≤ c ∧ c ≤ high) :
    let v := b.toNat % 2 ^ (5 - tails) * 64 + c % 64
    0x80 ≤ v * 64 ^ tails ∧ ((v + 1) * 64 ^ tails ≤ 0xd800 ∨
      0xdfff < v * 64 ^ tails ∧ (v + 1) * 64 ^ tails ≤ 0x110000) := by
  simp only [afterLead] at hlead
  split_ifs at hlead
  all_goals
    simp only [Option.some.injEq, Prod.mk.injEq] at hlead
    obtain ⟨rfl, rfl, rfl⟩ := hlead
    simp only [Nat.reduceSub, Nat.reducePow]
    omega

theorem foldl_range (l : List UInt8) (v : Nat) :
    v * 64 ^ l.length ≤ l.foldl (fun v d => v * 64 + d.toNat % 64) v ∧
      l.foldl (fun v d => v * 64 + d.toNat % 64) v < (v + 1) * 64 ^ l.length := by
  induction l generalizing v with
  | nil => simp
  | cons d l ih =>
    obtain ⟨hlo, hhi⟩ := ih (v * 64 + d.toNat % 64)
    rw [foldl_cons, length_cons, Nat.pow_succ']
    have hd : d.toNat % 64 < 64 := Nat.mod_lt _ (by decide)
    constructor
    · refine Nat.le_trans ?_ hlo
      rw [← Nat.mul_assoc]
      exact Nat.mul_le_mul_right _ (by omega)
    · refine Nat.lt_of_lt_of_le hhi ?_
      rw [← Nat.mul_assoc]
      exact Nat.mul_le_mul_right _ (by omega)

theorem decodeAt_high (b : UInt8) (rest : List UInt8) : 0x80 ≤ (decodeAt b rest).1.toNat := by
  have hreplacement : 0x80 ≤ replacement.toNat := by decide
  unfold decodeAt
  split
  next low high tails c more hlead =>
    by_cases hc : low ≤ c.toNat ∧ c.toNat ≤ high
    · rw [if_pos hc]
      simp only
      split
      next hcont =>
        have hrange := range_of_lead hlead hc
        have hfold := foldl_range ((more.take tails).takeWhile isContinuation)
          (b.toNat % 2 ^ (5 - tails) * 64 + c.toNat % 64)
        rw [hcont] at hfold
        simp only [codePoint] at hrange ⊢
        rw [toNat_ofNat_of_range (by omega)]
        omega
      next => exact hreplacement
    · rw [if_neg hc]
      exact hreplacement
  next => exact hreplacement

theorem lossyFrom_ascii {b : List UInt8} (h : ∀ c ∈ lossyFrom b n, c.toNat < 0x80) :
    lossyFrom b n = (b.drop n).map fun x => Char.ofNat x.toNat := by
  induction b generalizing n with
  | nil => simp [lossyFrom]
  | cons x b ih =>
    cases n with
    | succ n => exact ih h
    | zero =>
      rw [lossyFrom] at h ⊢
      split
      next hx =>
        rw [if_pos hx] at h
        rw [ih fun c hc => h c (by simp [hc])]
        simp
      next hx =>
        rw [if_neg hx] at h
        have := h (decodeAt x b).1 (by simp)
        have := decodeAt_high x b
        omega

theorem bytes_fromUtf8Lossy {b : List UInt8} (h : ∀ c ∈ fromUtf8Lossy b, c.toNat < 0x80) :
    bytes (fromUtf8Lossy b) = b := by
  have hmap : fromUtf8Lossy b = b.map fun x => Char.ofNat x.toNat := lossyFrom_ascii h
  rw [hmap] at h ⊢
  clear hmap
  induction b with
  | nil => rfl
  | cons x b ih =>
    have hx : (Char.ofNat x.toNat).toNat = x.toNat :=
      toNat_ofNat_of_range (.inl (by have := x.toNat_lt; omega))
    have hlt := h (Char.ofNat x.toNat) (by simp)
    rw [map_cons, bytes_cons, utf8EncodeChar_ascii hlt, hx, UInt8.ofNat_toNat,
      ih fun c hc => h c (mem_cons_of_mem _ hc)]
    rfl

/-! ## What a text is encoded as is read back -/

theorem toNat_continuation (n : Nat) : (UInt8.ofNat (n % 64 + 0x80)).toNat = n % 64 + 0x80 := by
  rw [UInt8.toNat_ofNat']
  omega

theorem isContinuation_ofNat (n : Nat) :
    isContinuation (UInt8.ofNat (n % 64 + 0x80)) = true := by
  rw [isContinuation, toNat_continuation]
  simp only [Bool.and_eq_true, decide_eq_true_eq]
  omega

theorem toNat_lead {n m k : Nat} (hn : n < m) (hk : m + k ≤ 256) :
    (UInt8.ofNat (n % m + k)).toNat = n + k := by
  rw [UInt8.toNat_ofNat', Nat.mod_eq_of_lt hn]
  omega

theorem afterLead_two (hb : b.toNat = n + 0xc0) (h : 2 ≤ n) (h' : n < 32) :
    afterLead b = some (0x80, 0xbf, 0) := by
  simp only [afterLead, hb]
  rw [if_pos (by omega)]

theorem afterLead_three (hb : b.toNat = n + 0xe0) (h : n < 16) :
    afterLead b = some (if n = 0 then 0xa0 else 0x80, if n = 13 then 0x9f else 0xbf, 1) := by
  simp only [afterLead, hb]
  split_ifs <;> first | rfl | omega

theorem afterLead_four (hb : b.toNat = n + 0xf0) (h : n < 5) :
    afterLead b = some (if n = 0 then 0x90 else 0x80, if n = 4 then 0x8f else 0xbf, 2) := by
  simp only [afterLead, hb]
  split_ifs <;> first | rfl | omega

theorem decodeAt_of_lead {b d : UInt8} {low high tails : Nat} {cont : List UInt8} {c : Char}
    (hlead : afterLead b = some (low, high, tails)) (hd : low ≤ d.toNat ∧ d.toNat ≤ high)
    (hlength : cont.length = tails) (hcont : ∀ x ∈ cont, isContinuation x = true)
    (hc : codePoint tails b d cont = c.toNat) (s : List UInt8) :
    decodeAt b (d :: cont ++ s) = (c, (d :: cont).length) := by
  have htake : ((cont ++ s).take tails).takeWhile isContinuation = cont := by
    rw [← hlength, take_left, takeWhile_eq_self_iff]
    exact hcont
  simp only [decodeAt, hlead, cons_append, htake]
  rw [if_pos hd, if_pos hlength, hc, Char.ofNat_toNat, length_cons, hlength]

theorem utf8EncodeChar_eq (c : Char) : String.utf8EncodeChar c =
    if c.toNat ≤ 0x7f then [UInt8.ofNat c.toNat]
    else if c.toNat ≤ 0x7ff then
      [UInt8.ofNat (c.toNat / 64 % 32 + 0xc0), UInt8.ofNat (c.toNat % 64 + 0x80)]
    else if c.toNat ≤ 0xffff then
      [UInt8.ofNat (c.toNat / 4096 % 16 + 0xe0), UInt8.ofNat (c.toNat / 64 % 64 + 0x80),
        UInt8.ofNat (c.toNat % 64 + 0x80)]
    else
      [UInt8.ofNat (c.toNat / 262144 % 8 + 0xf0), UInt8.ofNat (c.toNat / 4096 % 64 + 0x80),
        UInt8.ofNat (c.toNat / 64 % 64 + 0x80), UInt8.ofNat (c.toNat % 64 + 0x80)] := rfl

theorem decodeAt_utf8EncodeChar {c : Char} (hc : 0x80 ≤ c.toNat) :
    ∃ b rest, String.utf8EncodeChar c = b :: rest ∧ 0x80 ≤ b.toNat ∧
      ∀ s, decodeAt b (rest ++ s) = (c, rest.length) := by
  have hvalid : c.toNat < 0xd800 ∨ 0xdfff < c.toNat ∧ c.toNat < 0x110000 := c.valid
  rw [utf8EncodeChar_eq, if_neg (by omega)]
  split
  next h =>
    have hb := toNat_lead (n := c.toNat / 64) (m := 32) (k := 0xc0) (by omega) (by decide)
    refine ⟨_, _, rfl, by omega, decodeAt_of_lead (afterLead_two hb (by omega) (by omega)) ?_ rfl
      (forall_mem_nil _) ?_⟩
    · rw [toNat_continuation]
      omega
    · simp only [codePoint, hb, toNat_continuation, foldl_nil, Nat.reduceSub, Nat.reducePow]
      omega
  next h =>
    split
    next h' =>
      have hb := toNat_lead (n := c.toNat / 4096) (m := 16) (k := 0xe0) (by omega) (by decide)
      refine ⟨_, _, rfl, by omega, decodeAt_of_lead (afterLead_three hb (by omega)) ?_ rfl
        (forall_mem_singleton.mpr (isContinuation_ofNat _)) ?_⟩
      · rw [toNat_continuation]
        split_ifs <;> omega
      · simp only [codePoint, hb, toNat_continuation, foldl_cons, foldl_nil,
          Nat.reduceSub, Nat.reducePow]
        omega
    next h' =>
      have hb := toNat_lead (n := c.toNat / 262144) (m := 8) (k := 0xf0) (by omega) (by decide)
      refine ⟨_, _, rfl, by omega, decodeAt_of_lead (afterLead_four hb (by omega)) ?_ rfl
        (forall_mem_cons.mpr ⟨isContinuation_ofNat _,
          forall_mem_singleton.mpr (isContinuation_ofNat _)⟩) ?_⟩
      · rw [toNat_continuation]
        split_ifs <;> omega
      · simp only [codePoint, hb, toNat_continuation, foldl_cons, foldl_nil,
          Nat.reduceSub, Nat.reducePow]
        omega

theorem lossyFrom_step (a s : List UInt8) : lossyFrom (a ++ s) a.length = lossyFrom s 0 := by
  induction a with
  | nil => rfl
  | cons x a ih => exact ih

theorem fromUtf8Lossy_bytes (s : Str) : fromUtf8Lossy (bytes s) = s := by
  unfold fromUtf8Lossy
  induction s with
  | nil => rfl
  | cons c s ih =>
    by_cases hc : c.toNat < 0x80
    · have hx : (UInt8.ofNat c.toNat).toNat = c.toNat := by
        rw [UInt8.toNat_ofNat']
        omega
      rw [bytes_cons, utf8EncodeChar_ascii hc, singleton_append, lossyFrom,
        if_pos (by omega), ih, hx, Char.ofNat_toNat]
    · obtain ⟨b, rest, henc, hb, hdecode⟩ := decodeAt_utf8EncodeChar (Nat.le_of_not_lt hc)
      rw [bytes_cons, henc, cons_append, lossyFrom, if_neg (by omega), hdecode,
        lossyFrom_step, ih]

theorem fromUtf8_eq_some {b : List UInt8} {s : Str} : fromUtf8 b = some s ↔ bytes s = b := by
  unfold fromUtf8
  constructor
  · intro h
    split at h
    next hb => rw [← Option.some.inj h, hb]
    next => cases h
  · rintro rfl
    rw [fromUtf8Lossy_bytes, if_pos rfl]

/-! ## An ASCII byte starts anew -/

theorem low_of_afterLead {low high tails : Nat}
    (h : afterLead b = some (low, high, tails)) : 0x80 ≤ low := by
  simp only [afterLead] at h
  split_ifs at h
  all_goals
    simp only [Option.some.injEq, Prod.mk.injEq] at h
    omega

variable {c : UInt8}

theorem not_isContinuation (hc : c.toNat < 0x80) : isContinuation c = false := by
  rw [isContinuation, Bool.and_eq_false_iff]
  exact .inl (decide_eq_false (by omega))

theorem takeWhile_take_append {α : Type} {p : α → Bool} {c : α} (hc : p c = false)
    (l s : List α) (k : Nat) :
    ((l ++ c :: s).take k).takeWhile p = (l.take k).takeWhile p := by
  induction l generalizing k with
  | nil => cases k <;> simp [hc]
  | cons x l ih =>
    cases k with
    | zero => rfl
    | succ k =>
      rw [cons_append, take_succ_cons, take_succ_cons, takeWhile_cons,
        takeWhile_cons, ih]

theorem decodeAt_append (hc : c.toNat < 0x80) (b : UInt8) (rest s : List UInt8) :
    decodeAt b (rest ++ c :: s) = decodeAt b rest := by
  unfold decodeAt
  cases hlead : afterLead b with
  | none => rfl
  | some lead =>
    obtain ⟨low, high, tails⟩ := lead
    have hlow := low_of_afterLead hlead
    cases rest with
    | nil => exact if_neg (by omega)
    | cons d more =>
      simp only [cons_append, takeWhile_take_append (not_isContinuation hc)]

theorem decodeAt_le (b : UInt8) (rest : List UInt8) : (decodeAt b rest).2 ≤ rest.length := by
  unfold decodeAt
  split
  next low high tails d more hlead =>
    have htails : ((more.take tails).takeWhile isContinuation).length ≤ more.length :=
      ((takeWhile_sublist _).trans (take_sublist _ _)).length_le
    split
    · simp only
      split
      next heq =>
        rw [← heq, length_cons]
        exact Nat.succ_le_succ htails
      next =>
        rw [length_cons]
        exact Nat.succ_le_succ htails
    · exact Nat.zero_le _
  next => exact Nat.zero_le _

theorem lossyFrom_append (hc : c.toNat < 0x80) (a s : List UInt8)
    (hn : n ≤ a.length) : lossyFrom (a ++ c :: s) n = lossyFrom a n ++ lossyFrom (c :: s) 0 := by
  induction a generalizing n with
  | nil =>
    obtain rfl := Nat.le_zero.mp hn
    rfl
  | cons x a ih =>
    cases n with
    | succ n => exact ih (Nat.le_of_succ_le_succ hn)
    | zero =>
      rw [cons_append, lossyFrom, lossyFrom, decodeAt_append hc]
      split
      · rw [ih (Nat.zero_le _), cons_append]
      · rw [ih (decodeAt_le x a), cons_append]

/-- What is read of two pieces, the second of which begins with an ASCII byte. -/
theorem fromUtf8Lossy_append {a s : List UInt8} (hs : ∀ c ∈ s.head?, c.toNat < 0x80) :
    fromUtf8Lossy (a ++ s) = fromUtf8Lossy a ++ fromUtf8Lossy s := by
  cases s with
  | nil => rw [append_nil, fromUtf8Lossy, fromUtf8Lossy, lossyFrom, append_nil]
  | cons c s => exact lossyFrom_append (hs c rfl) a s (Nat.zero_le _)

/-! ## What is text in it, and what is not -/

/-- A stretch of bytes: a character, or bytes that are none. -/
inductive Stretch where
  | char (c : Char)
  | raw (b : List UInt8)

def Stretch.bytes : Stretch → List UInt8
  | .char c => String.utf8EncodeChar c
  | .raw b => b

/-- The character a byte begins, and how many bytes behind it belong to it. -/
def charAt (b : UInt8) (rest : List UInt8) : Char × Nat :=
  if b.toNat < 0x80 then (Char.ofNat b.toNat, 0) else decodeAt b rest

def stretchAt (b : UInt8) (rest : List UInt8) : Stretch :=
  if String.utf8EncodeChar (charAt b rest).1 = b :: rest.take (charAt b rest).2 then
    .char (charAt b rest).1
  else .raw (b :: rest.take (charAt b rest).2)

def stretchesFrom : List UInt8 → Nat → List Stretch
  | [], _ => []
  | _ :: rest, n + 1 => stretchesFrom rest n
  | b :: rest, 0 => stretchAt b rest :: stretchesFrom rest (charAt b rest).2

/-- `<[u8]>::utf8_chunks`, character by character. -/
def stretches (b : List UInt8) : List Stretch := stretchesFrom b 0

theorem bytes_stretchAt (b : UInt8) (rest : List UInt8) :
    (stretchAt b rest).bytes = b :: rest.take (charAt b rest).2 := by
  unfold stretchAt
  split
  next h => exact h
  next => rfl

theorem flatMap_stretchesFrom (b : List UInt8) (n : Nat) :
    (stretchesFrom b n).flatMap Stretch.bytes = b.drop n := by
  induction b generalizing n with
  | nil => rw [stretchesFrom, drop_nil]; rfl
  | cons x b ih =>
    cases n with
    | succ n => exact ih n
    | zero =>
      rw [stretchesFrom, flatMap_cons, bytes_stretchAt, ih, cons_append,
        take_append_drop]
      rfl

theorem flatMap_stretches (b : List UInt8) : (stretches b).flatMap Stretch.bytes = b :=
  flatMap_stretchesFrom b 0

def chars? : List Stretch → Option Str
  | [] => some []
  | .char c :: rest => (chars? rest).map (c :: ·)
  | .raw _ :: _ => none

theorem bytes_of_chars? {l : List Stretch} {s : Str} (h : chars? l = some s) :
    bytes s = l.flatMap Stretch.bytes := by
  induction l generalizing s with
  | nil =>
    cases h
    rfl
  | cons p l ih =>
    cases p with
    | raw b => cases h
    | char c =>
      obtain ⟨s', hs, rfl⟩ := Option.map_eq_some_iff.mp h
      rw [bytes_cons, ih hs]
      rfl

end Text
