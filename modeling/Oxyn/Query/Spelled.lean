/-
# `Oxyn.Query.Spelled` — the scan of a composed text

A text composed of pieces is read as these pieces when each is one token where it stands:
`spelled` lists the tokens the pieces are then.
-/
import Oxyn.Query.Boundary

namespace Oxyn

open Text Cursor List

/-- The tokens that pieces set one after the other are, from `i` on. -/
def spelled : Nat → List (Tok × Str) → List (Item Tok)
  | _, [] => []
  | i, (kind, w) :: rest => ⟨kind, i, i + size w⟩ :: spelled (i + size w) rest

/-- The text the pieces make. -/
def spelling (pieces : List (Tok × Str)) : Str := pieces.flatMap (·.2)

@[simp] theorem spelling_nil : spelling [] = [] := rfl

@[simp] theorem spelling_cons (k : Tok) (w : Str) (rest : List (Tok × Str)) :
    spelling ((k, w) :: rest) = w ++ spelling rest := by
  simp [spelling]

/-! ## Bytes of characters -/

theorem toNat_of_mem_utf8EncodeChar {c : Char} {x : UInt8} (h : x ∈ String.utf8EncodeChar c)
    (hx : x.toNat < 0x80) : c.toNat = x.toNat := by
  rcases ascii_or_high c with hc | hc
  · rw [utf8EncodeChar_ascii hc, mem_singleton] at h
    rw [h, UInt8.toNat_ofNat']
    omega
  · exact absurd hx (Nat.not_lt.mpr (hc x h))

theorem bytes_flatMap {α : Type} (l : List α) (f : α → Str) :
    bytes (l.flatMap f) = l.flatMap fun c => bytes (f c) := by
  simp [bytes, flatMap_assoc]

/-! ## What is between the marks -/

section Quoted

variable {q : UInt8} {backslash : Bool}

def Marked (q : UInt8) (backslash : Bool) (x : UInt8) : Prop :=
  x = q ∨ (backslash = true ∧ x = Byte.backslash)

theorem passes_unmarked {w : List UInt8} (h : ∀ x ∈ w, ¬ Marked q backslash x) :
    Passes (quotedTurn q backslash) () w () := by
  induction w with
  | nil => exact .nil ()
  | cons x w ih =>
    have hx := h x (by simp)
    have hone : Passes (quotedTurn q backslash) () [x] () := passes_one fun n => by
      simp only [Marked, not_or, not_and] at hx
      simp only [quotedTurn, Bool.and_eq_true, beq_iff_eq]
      rw [if_neg fun h => hx.2 h.1 h.2, if_neg hx.1]
    exact hone.append (ih fun y hy => h y (by simp [hy]))

theorem passes_char (hq : q.toNat < 0x80) {c : Char} (hc : c.toNat ≠ q.toNat)
    (hb : backslash = true → c.toNat ≠ 0x5c) :
    Passes (quotedTurn q backslash) () (String.utf8EncodeChar c) () := by
  refine passes_unmarked fun x hx hm => ?_
  rcases hm with rfl | ⟨he, rfl⟩
  · exact hc (toNat_of_mem_utf8EncodeChar hx hq)
  · exact hb he (toNat_of_mem_utf8EncodeChar hx (by decide))

theorem passes_doubled (hq : q ≠ Byte.backslash) :
    Passes (quotedTurn q backslash) () [q, q] () :=
  passes_two (by simp [quotedTurn, hq])

theorem passes_escaped (hq : q.toNat < 0x80) (c : Char) :
    Passes (quotedTurn q true) () (Byte.backslash :: String.utf8EncodeChar c) () := by
  have htwo (x : UInt8) : Passes (quotedTurn q true) () [Byte.backslash, x] () :=
    passes_two (by simp [quotedTurn])
  rcases ascii_or_high c with hc | hc
  · rw [utf8EncodeChar_ascii hc]
    exact htwo _
  · obtain ⟨x, w, hw⟩ := exists_cons_of_ne_nil (String.utf8EncodeChar_ne_nil (c := c))
    rw [hw] at hc ⊢
    refine (htwo x).append (passes_unmarked fun y hy hm => ?_)
    have hhigh := hc y (by simp [hy])
    rcases hm with rfl | ⟨-, rfl⟩
    · omega
    · exact absurd hhigh (by decide)

theorem skipQuoted_of_passes {b w rest : List UInt8} {i : Nat}
    (hb : b.drop (i + 1) = w ++ q :: rest) (hw : Passes (quotedTurn q backslash) () w ())
    (hq : q ≠ Byte.backslash) (hrest : rest.head? ≠ some q) :
    skipQuoted b i q backslash = i + w.length + 2 := by
  have hclose : loop (quotedTurn q backslash) (q :: rest) (i + 1 + w.length) () =
      .left (i + 1 + w.length + 1) () := by
    rw [loop]
    simp [quotedTurn, hq, hrest]
  simp only [skipQuoted, hb, hw (q :: rest), hclose, Exit.index]
  omega

end Quoted

/-! ## One token -/

theorem next_of_lex {sql : Str} {p : SplitProfile} {i : Nat} {c : UInt8} {k : Tok} {stop : Nat}
    (hc : (bytes sql)[i]? = some c) (hblank : isAsciiWhitespace c = false)
    (hsemi : c ≠ Byte.semicolon) (hlex : lex (bytes sql) i c p = (k, stop)) :
    (scanner sql p).next i = some ⟨k, i, stop⟩ := by
  refine readAt_eq_some.mpr ⟨c, Nat.le_refl i, fun j h1 h2 => absurd h2 (Nat.not_lt.mpr h1), hc,
    hblank, .inr ⟨?_, hlex⟩⟩
  rw [Bool.eq_false_iff]
  intro ht
  obtain ⟨-, w, hw⟩ := atTerminator_eq_true.mp ht
  have h0 := congrArg (·[0]?) hw
  simp only [semicolonBytes, singleton_append, getElem?_cons_zero, getElem?_drop,
    Nat.add_zero, hc, Option.some.injEq] at h0
  exact hsemi h0.symm

theorem items_size (sql : Str) (p : SplitProfile) : (scanner sql p).items (size sql) = [] :=
  Reader.items_of_none (readAt_eq_none.mpr fun _ h1 h2 => absurd h2 (Nat.not_lt.mpr h1))

end Oxyn
