/-
# `Oxyn.Redis.Render` — an argument written so that it is read back

`render` writes a key or a value for a console: bare when it is plain text, between double quotes
with escapes otherwise.  The reader is in another crate (`Oxyn.Redis.Argv`).
-/
import Oxyn.Catalog.Path
import Oxyn.Redis.Agreement
import Oxyn.Lib.Lossy
import Mathlib.Tactic.IntervalCases

namespace Oxyn

open Text Walk List

namespace Argv

/-! ## Writing one argument -/

/-- A format character that draws nothing or reorders what follows. -/
def isInvisible (c : Char) : Bool :=
  let v := c.toNat
  v == 0xad || v == 0x61c || v == 0x180e || (0x200b ≤ v && v ≤ 0x200f) ||
    (0x202a ≤ v && v ≤ 0x202e) || (0x2060 ≤ v && v ≤ 0x2064) || (0x2066 ≤ v && v ≤ 0x206f) ||
    v == 0xfeff || (0xfff9 ≤ v && v ≤ 0xfffb)

def isBare (c : Char) : Bool :=
  !isControl c && !isWhitespace c && !isInvisible c && !(c == '"' || c == '\'' || c == '\\')

def hexDigit (n : Nat) : Char := if n < 10 then Char.ofNat (48 + n) else Char.ofNat (87 + n)

def pushHex (byte : UInt8) : Str :=
  ['\\', 'x', hexDigit (byte.toNat / 16), hexDigit (byte.toNat % 16)]

/-- A character inside double quotes. -/
def writeChar (c : Char) : Str :=
  if c = '\\' then ['\\', '\\']
  else if c = '"' then ['\\', '"']
  else if c = '\n' then ['\\', 'n']
  else if c = '\r' then ['\\', 'r']
  else if c = '\t' then ['\\', 't']
  else if c.toNat = 7 then ['\\', 'a']
  else if c.toNat = 8 then ['\\', 'b']
  else if isControl c || isInvisible c then (String.utf8EncodeChar c).flatMap pushHex
  else [c]

def writeStretch : Text.Stretch → Str
  | .char c => writeChar c
  | .raw b => b.flatMap pushHex

/-- Writes one argument so that `parse` reads back exactly its bytes. -/
def render (b : List UInt8) : Str :=
  match chars? (Text.stretches b) with
  | some text =>
    if text ≠ [] ∧ text.all isBare then text
    else '"' :: (Text.stretches b).flatMap writeStretch ++ ['"']
  | none => '"' :: (Text.stretches b).flatMap writeStretch ++ ['"']

/-- A command written for a console. -/
def renderCommand (argv : List (List UInt8)) : Str := [' '].intercalate (argv.map render)

/-! ## Reading it back -/

variable {n : Nat}

theorem hexDigit_lt (h : n < 16) : (hexDigit n).toNat < 0x80 := by
  interval_cases n <;> decide

theorem hexDigit_read (h : n < 16) :
    isHexDigit (UInt8.ofNat (hexDigit n).toNat) = true ∧
      hexValue (UInt8.ofNat (hexDigit n).toNat) = UInt8.ofNat n := by
  interval_cases n <;> decide

theorem bytes_pushHex (byte : UInt8) :
    bytes (pushHex byte) =
      [0x5c, 0x78, UInt8.ofNat (hexDigit (byte.toNat / 16)).toNat,
        UInt8.ofNat (hexDigit (byte.toNat % 16)).toNat] := by
  have hlt := byte.toNat_lt
  rw [pushHex, bytes_cons, bytes_cons, bytes_cons, bytes_cons, bytes_nil,
    utf8EncodeChar_ascii (hexDigit_lt (by omega)), utf8EncodeChar_ascii (hexDigit_lt (by omega))]
  rfl

theorem escape_hex (byte : UInt8) (l : List UInt8) :
    escape (0x78 :: UInt8.ofNat (hexDigit (byte.toNat / 16)).toNat ::
      UInt8.ofNat (hexDigit (byte.toNat % 16)).toNat :: l) = (byte, 3) := by
  have hlt := byte.toNat_lt
  obtain ⟨hhigh, hhigh'⟩ := hexDigit_read (n := byte.toNat / 16) (by omega)
  obtain ⟨hlow, hlow'⟩ := hexDigit_read (n := byte.toNat % 16) (by omega)
  have hvalue : UInt8.ofNat (byte.toNat / 16) * 16 + UInt8.ofNat (byte.toNat % 16) = byte := by
    apply UInt8.toNat_inj.mp
    simp only [UInt8.toNat_add, UInt8.toNat_mul, UInt8.toNat_ofNat']
    have h16 : (16 : UInt8).toNat = 16 := rfl
    rw [h16]
    omega
  rw [escape, hhigh, hlow, Bool.and_self, if_pos rfl, hhigh', hlow', hvalue]

/-- What a reader inside double quotes is at: `k` is where they were opened. -/
abbrev inQuotes (current : List UInt8) (k : Nat) : TokenState := ⟨current, some (0x22, k)⟩

theorem tokenFrom_escape {rest l : List UInt8} {byte : UInt8}
    (h : escape rest = (byte, n)) (hdrop : rest.drop n = l) (i k : Nat) (current : List UInt8) :
    tokenFrom .strict (0x5c :: rest) i (inQuotes current k) =
      tokenFrom .strict l (i + (n + 1)) (inQuotes (current ++ [byte]) k) := by
  have hturn : tokenTurn .strict i (inQuotes current k) 0x5c rest =
      .go n (inQuotes (current ++ [byte]) k) := by
    show Turn.go (escape rest).2 (TokenState.push _ (escape rest).1) = _
    rw [h]
    rfl
  rw [tokenFrom_go hturn, hdrop]

theorem tokenFrom_pushHex (byte : UInt8) (l : List UInt8) (i k : Nat) (current : List UInt8) :
    tokenFrom .strict (bytes (pushHex byte) ++ l) i (inQuotes current k) =
      tokenFrom .strict l (i + size (pushHex byte)) (inQuotes (current ++ [byte]) k) := by
  have hsize : size (pushHex byte) = 3 + 1 := congrArg List.length (bytes_pushHex byte)
  rw [bytes_pushHex, hsize]
  exact tokenFrom_escape (escape_hex byte l) rfl i k current

theorem tokenFrom_flatMap_pushHex (b l : List UInt8) (i k : Nat) (current : List UInt8) :
    tokenFrom .strict (bytes (b.flatMap pushHex) ++ l) i (inQuotes current k) =
      tokenFrom .strict l (i + size (b.flatMap pushHex)) (inQuotes (current ++ b) k) := by
  induction b generalizing i current with
  | nil => simp
  | cons x b ih =>
    rw [flatMap_cons, bytes_append, append_assoc, tokenFrom_pushHex, ih, size_append,
      append_assoc, Nat.add_assoc]
    rfl

variable {b : List UInt8}

theorem tokenFrom_plain (h : ∀ x ∈ b, x ≠ 0x22 ∧ x ≠ 0x5c) (l : List UInt8)
    (i k : Nat) (current : List UInt8) :
    tokenFrom .strict (b ++ l) i (inQuotes current k) =
      tokenFrom .strict l (i + b.length) (inQuotes (current ++ b) k) := by
  induction b generalizing i current with
  | nil => simp
  | cons x b ih =>
    obtain ⟨hquote, hslash⟩ := h x mem_cons_self
    have hturn : tokenTurn .strict i (inQuotes current k) x (b ++ l) =
        .go 0 (inQuotes (current ++ [x]) k) := by
      simp [tokenTurn, inQuotes, TokenState.push, hquote, hslash]
    rw [cons_append, tokenFrom_go hturn, drop_zero,
      ih (fun y hy => h y (mem_cons_of_mem _ hy)), length_cons, append_assoc]
    congr 1
    omega

variable {x : UInt8}

theorem ne_of_mem_utf8EncodeChar {c d : Char} (hx : x ∈ String.utf8EncodeChar c)
    (hd : d.toNat < 0x80) (hcd : c ≠ d) : x.toNat ≠ d.toNat := by
  rcases ascii_or_high c with hc | hc
  · rw [utf8EncodeChar_ascii hc, mem_singleton] at hx
    intro heq
    apply hcd
    rw [hx, UInt8.toNat_ofNat'] at heq
    have hsame : c.toNat = d.toNat := by omega
    exact Char.toNat_inj.mp hsame
  · have hhigh := hc x hx
    omega

theorem tokenFrom_named {c d : Char} {x y : UInt8} (hd : String.utf8EncodeChar d = [y])
    (hc : String.utf8EncodeChar c = [x]) (hread : ∀ l, escape (y :: l) = (x, 1)) (l : List UInt8)
    (i k : Nat) (current : List UInt8) :
    tokenFrom .strict (bytes ['\\', d] ++ l) i (inQuotes current k) =
      tokenFrom .strict l (i + size ['\\', d]) (inQuotes (current ++ String.utf8EncodeChar c) k) := by
  have hbytes : bytes ['\\', d] = [0x5c, y] := by
    rw [bytes_cons, bytes_cons, hd]
    rfl
  have hsize : size ['\\', d] = 2 := congrArg List.length hbytes
  rw [hbytes, hsize, hc]
  exact tokenFrom_escape (hread l) rfl i k current

theorem tokenFrom_writeChar (c : Char) (l : List UInt8) (i k : Nat) (current : List UInt8) :
    tokenFrom .strict (bytes (writeChar c) ++ l) i (inQuotes current k) =
      tokenFrom .strict l (i + size (writeChar c))
        (inQuotes (current ++ String.utf8EncodeChar c) k) := by
  unfold writeChar
  split
  next h =>
    subst h
    exact tokenFrom_named rfl rfl (fun _ => rfl) l i k current
  next hslash =>
    split
    next h =>
      subst h
      exact tokenFrom_named rfl rfl (fun _ => rfl) l i k current
    next hquote =>
      split
      next h =>
        subst h
        exact tokenFrom_named rfl rfl (fun _ => rfl) l i k current
      next =>
        split
        next h =>
          subst h
          exact tokenFrom_named rfl rfl (fun _ => rfl) l i k current
        next =>
          split
          next h =>
            subst h
            exact tokenFrom_named rfl rfl (fun _ => rfl) l i k current
          next =>
            split
            next h =>
              have hc : c = '\x07' := Char.toNat_inj.mp h
              subst hc
              exact tokenFrom_named rfl rfl (fun _ => rfl) l i k current
            next =>
              split
              next h =>
                have hc : c = '\x08' := Char.toNat_inj.mp h
                subst hc
                exact tokenFrom_named rfl rfl (fun _ => rfl) l i k current
              next =>
                split
                next => exact tokenFrom_flatMap_pushHex _ l i k current
                next =>
                  have hplain : ∀ x ∈ String.utf8EncodeChar c, x ≠ 0x22 ∧ x ≠ 0x5c := by
                    intro x hx
                    constructor
                    · rintro rfl
                      exact ne_of_mem_utf8EncodeChar hx (d := '"') (by decide) hquote rfl
                    · rintro rfl
                      exact ne_of_mem_utf8EncodeChar hx (d := '\\') (by decide) hslash rfl
                  have hbytes : bytes [c] = String.utf8EncodeChar c := by
                    rw [bytes_cons, bytes_nil, append_nil]
                  rw [size, hbytes]
                  exact tokenFrom_plain hplain l i k current

theorem tokenFrom_stretch (x : Text.Stretch) (l : List UInt8) (i k : Nat) (current : List UInt8) :
    tokenFrom .strict (bytes (writeStretch x) ++ l) i (inQuotes current k) =
      tokenFrom .strict l (i + size (writeStretch x)) (inQuotes (current ++ x.bytes) k) := by
  cases x with
  | char c => exact tokenFrom_writeChar c l i k current
  | raw b => exact tokenFrom_flatMap_pushHex b l i k current

theorem tokenFrom_stretches (xs : List Text.Stretch) (l : List UInt8) (i k : Nat)
    (current : List UInt8) :
    tokenFrom .strict (bytes (xs.flatMap writeStretch) ++ l) i (inQuotes current k) =
      tokenFrom .strict l (i + size (xs.flatMap writeStretch))
        (inQuotes (current ++ xs.flatMap Text.Stretch.bytes) k) := by
  induction xs generalizing i current with
  | nil => simp
  | cons x xs ih =>
    rw [flatMap_cons, flatMap_cons, bytes_append, append_assoc,
      tokenFrom_stretch, ih, size_append, append_assoc, Nat.add_assoc]

theorem tokenFrom_bare (h : ∀ x ∈ b, endsBare x = false ∧ isQuote x = false)
    (l : List UInt8) (i : Nat) (current : List UInt8) :
    tokenFrom .strict (b ++ l) i ⟨current, none⟩ =
      tokenFrom .strict l (i + b.length) ⟨current ++ b, none⟩ := by
  induction b generalizing i current with
  | nil => simp
  | cons x b ih =>
    obtain ⟨hends, hquote⟩ := h x mem_cons_self
    have hturn : tokenTurn .strict i ⟨current, none⟩ x (b ++ l) =
        .go 0 ⟨current ++ [x], none⟩ := by
      simp [tokenTurn, TokenState.push, hends, hquote]
    rw [cons_append, tokenFrom_go hturn, drop_zero,
      ih (fun y hy => h y (mem_cons_of_mem _ hy)), length_cons, append_assoc]
    congr 1
    omega

/-- Behind a rendered argument comes a blank, or nothing. -/
def Ends (l : List UInt8) : Prop := ∀ x ∈ l.head?, x = 0x20

variable {l : List UInt8}

theorem tokenFrom_ends (h : Ends l) (i : Nat) (current : List UInt8) :
    tokenFrom .strict l i ⟨current, none⟩ = .ok (current, i) := by
  cases l with
  | nil => rfl
  | cons x l =>
    have hx := h x rfl
    subst hx
    exact tokenFrom_stop rfl

theorem tokenFrom_closes (h : Ends l) (i k : Nat) (current : List UInt8) :
    tokenFrom .strict (0x22 :: l) i (inQuotes current k) = .ok (current, i + 1) := by
  cases l with
  | nil => exact tokenFrom_stop rfl
  | cons x l =>
    have hx := h x rfl
    subst hx
    exact tokenFrom_stop rfl

variable {c : Char}

theorem isBare_iff (h : isBare c = true) :
    0x20 < c.toNat ∧ c ≠ '"' ∧ c ≠ '\'' := by
  simp only [isBare, isControl, isWhitespace, Bool.and_eq_true, Bool.not_eq_true',
    Bool.or_eq_false_iff, beq_eq_false_iff_ne] at h
  obtain ⟨⟨⟨hcontrol, hwhite⟩, -⟩, ⟨hquote, happ⟩, -⟩ := h
  refine ⟨?_, hquote, happ⟩
  have hspace : c.toNat ≠ 0x20 := by tauto
  have hlow : ¬ c.toNat ≤ 0x1f := by simpa using hcontrol.1
  omega

theorem byte_of_isBare (h : isBare c = true)
    (hx : x ∈ String.utf8EncodeChar c) : isSpace x = false ∧ isQuote x = false := by
  obtain ⟨hlow, hquote, happ⟩ := isBare_iff h
  have hne : ∀ d : Char, d.toNat < 0x80 → c ≠ d → x.toNat ≠ d.toNat :=
    fun d hd hcd => ne_of_mem_utf8EncodeChar hx hd hcd
  have hgt : 0x20 < x.toNat := by
    rcases ascii_or_high c with hc | hc
    · rw [utf8EncodeChar_ascii hc, mem_singleton] at hx
      rw [hx, UInt8.toNat_ofNat']
      omega
    · have hhigh := hc x hx
      omega
  constructor
  · rw [Bool.eq_false_iff]
    intro hspace
    simp only [isSpace, Bool.or_eq_true, beq_iff_eq] at hspace
    rcases hspace with ((((rfl | rfl) | rfl) | rfl) | rfl) | rfl <;> exact absurd hgt (by decide)
  · rw [Bool.eq_false_iff]
    intro hisquote
    simp only [isQuote, Bool.or_eq_true, beq_iff_eq] at hisquote
    rcases hisquote with rfl | rfl
    · exact hne '"' (by decide) hquote rfl
    · exact hne '\'' (by decide) happ rfl

theorem endsBare_of_not_isSpace (h : isSpace x = false) : endsBare x = false := by
  rw [Bool.eq_false_iff]
  intro hends
  rw [isSpace_of_endsBare hends] at h
  cases h

/-! ### One argument, and a command -/

theorem render_cases (b : List UInt8) :
    (∃ text, bytes text = b ∧ text ≠ [] ∧ (∀ c ∈ text, isBare c = true) ∧ render b = text) ∨
      render b = '"' :: (Text.stretches b).flatMap writeStretch ++ ['"'] := by
  unfold render
  split
  next text htext =>
    split
    next hbare =>
      have hbytes := bytes_of_chars? htext
      rw [flatMap_stretches] at hbytes
      exact .inl ⟨text, hbytes, hbare.1, fun c hc => all_eq_true.mp hbare.2 c hc, rfl⟩
    next => exact .inr rfl
  next => exact .inr rfl

theorem tokenFrom_render (b : List UInt8) (hl : Ends l) (i : Nat) :
    tokenFrom .strict (bytes (render b) ++ l) i ⟨[], none⟩ =
      .ok (b, i + size (render b)) := by
  rcases render_cases b with ⟨text, hbytes, -, hbare, hrender⟩ | hrender
  · have hplain : ∀ x ∈ bytes text, endsBare x = false ∧ isQuote x = false := by
      intro x hx
      obtain ⟨c, hc, hxc⟩ := mem_flatMap.mp hx
      obtain ⟨hspace, hquote⟩ := byte_of_isBare (hbare c hc) hxc
      exact ⟨endsBare_of_not_isSpace hspace, hquote⟩
    rw [hrender, tokenFrom_bare hplain, tokenFrom_ends hl, hbytes, nil_append, size, hbytes]
  · have hopen : ∀ rest, tokenTurn .strict i ⟨[], none⟩ 0x22 rest = .go 0 (inQuotes [] i) :=
      fun _ => rfl
    have hone : bytes ['"'] = [0x22] := rfl
    rw [hrender, cons_append, bytes_cons, bytes_append, hone]
    show tokenFrom .strict (0x22 :: (bytes _ ++ [0x22] ++ l)) i ⟨[], none⟩ = _
    rw [tokenFrom_go (hopen _), drop_zero, append_assoc, tokenFrom_stretches,
      singleton_append, tokenFrom_closes hl, flatMap_stretches, nil_append]
    congr 2
    rw [size_cons, size_append]
    show i + (0 + 1) + _ + 1 = i + (1 + (_ + 1))
    omega

theorem head_render (b : List UInt8) : ∃ x l, bytes (render b) = x :: l ∧ isSpace x = false := by
  rcases render_cases b with ⟨text, -, hne, hbare, hrender⟩ | hrender
  · obtain ⟨c, text, rfl⟩ := exists_cons_of_ne_nil hne
    obtain ⟨x, l, hx⟩ := exists_cons_of_ne_nil (l := String.utf8EncodeChar c) (by
      intro hnil
      have hpos := c.utf8Size_pos
      rw [← String.length_utf8EncodeChar, hnil] at hpos
      exact absurd hpos (Nat.lt_irrefl 0))
    refine ⟨x, l ++ bytes text, ?_, ?_⟩
    · rw [hrender, bytes_cons, hx]
      rfl
    · exact (byte_of_isBare (hbare c mem_cons_self) (hx ▸ mem_cons_self)).1
  · exact ⟨0x22, _, by rw [hrender]; rfl, rfl⟩

/-! ### No NUL is written -/

theorem pushHex_not_nul {byte : UInt8} (h : c ∈ pushHex byte) : c ≠ '\x00' := by
  have hlt := byte.toNat_lt
  have hdigit : ∀ n, n < 16 → hexDigit n ≠ '\x00' := by
    intro n hn
    interval_cases n <;> decide
  simp only [pushHex, mem_cons, not_mem_nil, or_false] at h
  rcases h with rfl | rfl | rfl | rfl
  · decide
  · decide
  · exact hdigit _ (by omega)
  · exact hdigit _ (by omega)

theorem writeChar_not_nul {c d : Char} (h : d ∈ writeChar c) : d ≠ '\x00' := by
  have hnamed : ∀ e : Char, e ≠ '\x00' → d ∈ ['\\', e] → d ≠ '\x00' := by
    rintro e he hd
    rcases mem_cons.mp hd with rfl | hd
    · decide
    · exact mem_singleton.mp hd ▸ he
  unfold writeChar at h
  split at h
  next => exact hnamed _ (by decide) h
  next =>
    split at h
    next => exact hnamed _ (by decide) h
    next =>
      split at h
      next => exact hnamed _ (by decide) h
      next =>
        split at h
        next => exact hnamed _ (by decide) h
        next =>
          split at h
          next => exact hnamed _ (by decide) h
          next =>
            split at h
            next => exact hnamed _ (by decide) h
            next =>
              split at h
              next => exact hnamed _ (by decide) h
              next =>
                split at h
                next =>
                  obtain ⟨byte, -, hd⟩ := mem_flatMap.mp h
                  exact pushHex_not_nul hd
                next hplain =>
                  rw [mem_singleton.mp h]
                  rintro rfl
                  exact hplain rfl

theorem render_not_nul (h : c ∈ render b) : c ≠ '\x00' := by
  rcases render_cases b with ⟨text, -, -, hbare, hrender⟩ | hrender
  · rw [hrender] at h
    rintro rfl
    exact absurd (isBare_iff (hbare _ h)).1 (by decide)
  · rw [hrender, cons_append, mem_cons, mem_append, mem_singleton] at h
    rcases h with rfl | h | rfl
    · decide
    · obtain ⟨x, -, hx⟩ := mem_flatMap.mp h
      cases x with
      | char d => exact writeChar_not_nul hx
      | raw bs =>
        obtain ⟨byte, -, hc⟩ := mem_flatMap.mp hx
        exact pushHex_not_nul hc
    · decide

theorem bytes_not_nul {s : Str} (h : ∀ c ∈ s, c ≠ '\x00') : (bytes s).contains 0 = false := by
  rw [Bool.eq_false_iff]
  intro hzero
  obtain ⟨c, hc, hx⟩ := mem_flatMap.mp (contains_iff_mem.mp hzero)
  exact ne_of_mem_utf8EncodeChar hx (d := '\x00') (by decide) (h c hc) rfl

/-! ### A whole command -/

theorem nextArgument_render {b gap l v : List UInt8} {i : Nat}
    (hdrop : b.drop i = gap ++ (bytes (render v) ++ l)) (hgap : gap = [] ∨ gap = [0x20])
    (hl : Ends l) :
    nextArgument b .strict i = some ⟨⟨0, .ok v⟩, i + gap.length,
      i + gap.length + size (render v)⟩ := by
  obtain ⟨x, rest, hx, hspace⟩ := head_render v
  have hblanks : blanks b i = gap := by
    rw [blanks, hdrop, hx]
    rcases hgap with rfl | rfl
    · simp [hspace]
    · have hblank : isSpace 0x20 = true := rfl
      simp [hspace, hblank]
  have hbreaks : gap.count 0x0a = 0 := by
    rcases hgap with rfl | rfl
    · rfl
    · rfl
  have hstart : b.drop (i + gap.length) = bytes (render v) ++ l := by
    rw [← drop_drop, hdrop, drop_left]
  have hlt : i + gap.length < b.length := by
    have hlen := congrArg List.length hstart
    rw [hx, length_drop, length_append, length_cons] at hlen
    omega
  have htoken : token b (i + gap.length) .strict =
      .ok (v, i + gap.length + size (render v)) := by
    rw [token, hstart]
    exact tokenFrom_render v hl (i + gap.length)
  simp only [nextArgument, skipBlanks, hblanks, hbreaks]
  rw [if_pos hlt, htoken]

/-- The arguments behind a blank each. -/
def others (argv : List (List UInt8)) : Str := argv.flatMap fun v => ' ' :: render v

theorem ends_others (argv : List (List UInt8)) : Ends (bytes (others argv)) := by
  cases argv with
  | nil => exact nofun
  | cons v argv =>
    intro x hx
    cases hx
    rfl

theorem parseArguments_others {i : Nat} (argv : List (List UInt8))
    (hdrop : b.drop i = bytes (others argv)) {front : List (List UInt8)} (hfront : front ≠ []) :
    parseArguments ((argReader b .strict).items i) front 1 = .ok (front ++ argv) := by
  induction argv generalizing i front with
  | nil =>
    have hnone : (argReader b .strict).next i = none := by
      refine nextArgument_none.mpr ?_
      have hlen := congrArg List.length hdrop
      rw [length_drop] at hlen
      have hle : i ≤ (skipBlanks b i).1 := Nat.le_add_right i _
      have hzero : (bytes (others [])).length = 0 := rfl
      omega
    rw [Reader.items_of_none hnone, append_nil]
    cases front with
    | nil => exact absurd rfl hfront
    | cons v front => rfl
  | cons v argv ih =>
    have hcut : b.drop i = [0x20] ++ (bytes (render v) ++ bytes (others argv)) := by
      rw [hdrop, others, flatMap_cons, bytes_append, bytes_cons]
      rfl
    have hnext := nextArgument_render hcut (.inr rfl) (ends_others argv)
    rw [Reader.items_of_some (r := argReader b .strict) hnext]
    have hrest : b.drop (i + 1 + size (render v)) = bytes (others argv) := by
      rw [Nat.add_assoc, ← drop_drop, hcut, ← append_assoc, Nat.add_comm]
      exact drop_left' rfl
    rw [parseArguments]
    simp only [Nat.add_zero]
    have happend : front ++ v :: argv = (front ++ [v]) ++ argv := append_cons front v argv
    rw [if_neg (fun h => absurd h.1 (Nat.lt_irrefl 1)), happend]
    exact ih hrest (by simp)

theorem renderCommand_cons (v : List UInt8) (argv : List (List UInt8)) :
    renderCommand (v :: argv) = render v ++ others argv := by
  unfold renderCommand
  induction argv generalizing v with
  | nil => simp [others, List.intercalate]
  | cons w argv ih =>
    have hrest := ih w
    rw [map_cons, map_cons, intercalate_cons_cons, ← map_cons, hrest,
      append_assoc]
    rfl

theorem mem_renderCommand {argv : List (List UInt8)} (h : c ∈ renderCommand argv) :
    c ≠ '\x00' := by
  cases argv with
  | nil => cases h
  | cons v argv =>
    rw [renderCommand_cons, mem_append] at h
    rcases h with h | h
    · exact render_not_nul h
    · obtain ⟨w, -, hw⟩ := mem_flatMap.mp h
      rcases mem_cons.mp hw with rfl | hw
      · decide
      · exact render_not_nul hw

theorem parse_renderCommand (v : List UInt8) (argv : List (List UInt8)) :
    parseArgv (renderCommand (v :: argv)) = .ok (v :: argv) := by
  have hbytes : bytes (renderCommand (v :: argv)) = bytes (render v) ++ bytes (others argv) := by
    rw [renderCommand_cons, bytes_append]
  have hdrop : (bytes (renderCommand (v :: argv))).drop 0 =
      [] ++ (bytes (render v) ++ bytes (others argv)) := hbytes
  have hnext := nextArgument_render hdrop (.inl rfl) (ends_others argv)
  have hrest : (bytes (renderCommand (v :: argv))).drop (0 + 0 + size (render v)) =
      bytes (others argv) := by
    rw [hbytes]
    exact drop_left' (Nat.zero_add _).symm
  rw [parseArgv]
  simp only [bytes_not_nul fun c hc => mem_renderCommand hc, Bool.false_eq_true, if_false]
  rw [Reader.items_of_some (r := argReader _ .strict) hnext, parseArguments]
  simp only [Nat.add_zero]
  rw [if_neg (fun h => absurd h.1 (Nat.lt_irrefl 1))]
  exact parseArguments_others argv hrest (by simp)

end Argv

open Argv

/-- A command written for a console is read back as itself, by the driver and, as one command,
by the redaction. -/
theorem command_reads_back (argv : List (List UInt8)) (h : argv ≠ []) :
    parseArgv (renderCommand argv) = .ok argv ∧
      ∃ args, argvCommands (renderCommand argv) = [args] ∧ args.map (·.bytes) = argv := by
  obtain ⟨v, argv, rfl⟩ := exists_cons_of_ne_nil h
  have hparse := parse_renderCommand v argv
  exact ⟨hparse, _, commands_of_parse hparse⟩

/-- `GET`, an empty key, one that imitates syntax, and one with a line break, a NUL, an override
of direction and a byte that is no UTF-8. -/
theorem odd_keys_read_back :
    parseArgv (renderCommand [[71, 69, 84], [], [34, 59, 32, 39, 92],
      [10, 0, 0xe2, 0x80, 0xae, 0xff]]) =
      .ok [[71, 69, 84], [], [34, 59, 32, 39, 92], [10, 0, 0xe2, 0x80, 0xae, 0xff]] :=
  (command_reads_back _ (cons_ne_nil _ _)).1

/-- No argument at all is written as nothing, and refused. -/
theorem nothing_is_refused : parseArgv (renderCommand []) = .error .empty := by decide

end Oxyn
