/-
# `Oxyn.Lib.Splice` — replacing spans of a text

A redactor collects the spans to replace in any order and more than once, sorts them by their
start, and copies the text up to each of them: `spliced`.
-/
import Oxyn.Lib.Text

namespace Text

open List

/-- What is between two positions, or nothing if they do not cut the text. -/
def slice (s : Str) (i j : Nat) : Str := (get? s i j).getD []

/-- A span, and what is put in its place. -/
structure Replacement where
  start : Nat
  stop : Nat
  marker : Str
deriving DecidableEq, Repr

/-- What is written so far, and up to where the text is copied. A span that begins before that is
passed over. -/
def copyTurn (s : Str) (out : Str × Nat) (r : Replacement) : Str × Nat :=
  if r.start < out.2 then out else (out.1 ++ slice s out.2 r.start ++ r.marker, r.stop)

/-- The text with the spans replaced. -/
def spliced (s : Str) (l : List Replacement) : Str :=
  let out := l.foldl (copyTurn s) ([], 0)
  out.1 ++ slice s out.2 (size s)

/-! ## Slices -/

theorem slice_append {s : Str} {i j k : Nat} (hi : isCharBoundary s i = true)
    (hj : isCharBoundary s j = true) (hk : isCharBoundary s k = true) (hij : i ≤ j)
    (hjk : j ≤ k) : slice s i j ++ slice s j k = slice s i k := by
  obtain ⟨t, ht⟩ := get?_of_boundaries hi hj hij
  obtain ⟨u, hu⟩ := get?_of_boundaries hj hk hjk
  obtain ⟨a, b, rfl, rfl, rfl⟩ := get?_eq_some.mp ht
  obtain ⟨a', b', heq, hsize, rfl⟩ := get?_eq_some.mp hu
  rw [← size_append] at hsize
  rw [append_assoc a' u b'] at heq
  obtain ⟨hfront, hback⟩ := append_inj_of_size heq (by omega)
  have htu : get? (a ++ t ++ b) (size a) (size a + size t + size u) = some (t ++ u) :=
    get?_eq_some.mpr ⟨a, b', by rw [hback]; simp, rfl, by rw [size_append]; omega⟩
  simp only [slice, ht, hu, htu, Option.getD_some]

@[simp] theorem slice_self (s : Str) (i : Nat) : slice s i i = [] := by
  unfold slice
  cases h : get? s i i with
  | none => rfl
  | some t =>
    obtain ⟨-, -, -, -, hsize⟩ := get?_eq_some.mp h
    show t = []
    exact size_eq_zero.mp (by omega)

/-! ## Pieces -/

/-- A piece of a text, with what is shown in its place if it is replaced. -/
structure Piece where
  start : Nat
  stop : Nat
  marker : Option Str

/-- The pieces stand in order and apart from `i` on, on boundaries. -/
inductive Fits (s : Str) : Nat → List Piece → Prop
  | nil {i : Nat} : isCharBoundary s i = true → Fits s i []
  | cons {i : Nat} {x : Piece} {rest : List Piece} : isCharBoundary s i = true →
      isCharBoundary s x.start = true → i ≤ x.start → x.start < x.stop → Fits s x.stop rest →
      Fits s i (x :: rest)

def gaps (s : Str) : Nat → List Piece → List Str
  | i, [] => [slice s i (size s)]
  | i, x :: rest => slice s i x.start :: gaps s x.stop rest

/-- Two lists of texts, set together in turn. -/
def interleave : List Str → List Str → Str
  | g :: gs, x :: xs => g ++ x ++ interleave gs xs
  | gs, xs => gs.flatten ++ xs.flatten

def Piece.written (s : Str) (x : Piece) : Str := slice s x.start x.stop

def Piece.shown (s : Str) (x : Piece) : Str := x.marker.getD (x.written s)

/-- The text from `i` on with its pieces as they are shown. -/
def weave (s : Str) (i : Nat) (l : List Piece) : Str :=
  interleave (gaps s i l) (l.map (Piece.shown s))

section

variable {s : Str} {i : Nat} {x : Piece} {l rest : List Piece}

@[simp] theorem weave_nil : weave s i [] = slice s i (size s) := by
  simp [weave, gaps, interleave]

@[simp] theorem weave_cons :
    weave s i (x :: rest) = slice s i x.start ++ x.shown s ++ weave s x.stop rest := rfl

theorem Fits.boundary (h : Fits s i l) : isCharBoundary s i = true := by
  cases h with
  | nil h => exact h
  | cons h => exact h

theorem Fits.le_start (h : Fits s i l) : ∀ x ∈ l, i ≤ x.start ∧ x.start < x.stop := by
  induction h with
  | nil => simp
  | cons _ _ hle hlt _ ih =>
    intro y hy
    rcases mem_cons.mp hy with rfl | hy
    · exact ⟨hle, hlt⟩
    · have := ih y hy
      omega

theorem interleave_written (h : Fits s i l) :
    interleave (gaps s i l) (l.map (Piece.written s)) = slice s i (size s) := by
  induction h with
  | nil => simp [gaps, interleave]
  | @cons i x rest hi hx hle hlt hrest ih =>
    have hstop := hrest.boundary
    have hsize := isCharBoundary_size s
    show slice s i x.start ++ slice s x.start x.stop ++
      interleave (gaps s x.stop rest) (rest.map (Piece.written s)) = _
    rw [ih, slice_append hi hx hstop hle (by omega),
      slice_append hi hstop hsize (by omega) (isCharBoundary_le hstop)]

theorem Fits.ordered {front : List Piece} (h : Fits s i (front ++ x :: rest)) :
    ∀ y ∈ front, y.start < x.start := by
  induction front generalizing i with
  | nil => simp
  | cons z front ih =>
    cases h with
    | cons _ _ _ hlt hrest =>
      intro y hy
      rcases mem_cons.mp hy with rfl | hy
      · have := hrest.le_start x (by simp)
        omega
      · exact ih hrest y hy

theorem weave_of_kept {kept : List Piece} (hkept : ∀ y ∈ kept, y.marker = none)
    (h : Fits s i (kept ++ l)) :
    ∃ j, i ≤ j ∧ Fits s j l ∧ weave s i (kept ++ l) = slice s i j ++ weave s j l := by
  induction kept generalizing i with
  | nil => exact ⟨i, Nat.le_refl i, h, by simp⟩
  | cons y kept ih =>
    cases h with
    | cons hi hy hle hlt hrest =>
      obtain ⟨j, hj, hfits, hweave⟩ := ih (fun z hz => hkept z (by simp [hz])) hrest
      refine ⟨j, by omega, hfits, ?_⟩
      have hshown : y.shown s = slice s y.start y.stop := by
        simp [Piece.shown, hkept y (by simp), Piece.written]
      rw [cons_append, weave_cons, hshown, hweave,
        slice_append hi hy hrest.boundary hle (by omega), ← append_assoc,
        slice_append hi hrest.boundary hfits.boundary (by omega) hj]

/-- What is left to replace is what is left to copy. -/
structure Marks (l : List Piece) (i : Nat) (rs : List Replacement) : Prop where
  sorted : rs.Pairwise fun r r' => r.start ≤ r'.start
  sound : ∀ r ∈ rs, r.start < i ∨ (⟨r.start, r.stop, some r.marker⟩ : Piece) ∈ l
  complete : ∀ y ∈ l, ∀ m, y.marker = some m → (⟨y.start, y.stop, m⟩ : Replacement) ∈ rs

theorem foldl_copyTurn {rs : List Replacement} (hmarks : Marks l i rs) (h : Fits s i l)
    (out : Str) :
    let done := rs.foldl (copyTurn s) (out, i)
    done.1 ++ slice s done.2 (size s) = out ++ weave s i l := by
  induction rs generalizing l i out with
  | nil =>
    have hkept : ∀ y ∈ l, y.marker = none := by
      intro y hy
      cases hm : y.marker with
      | none => rfl
      | some m => exact absurd (hmarks.complete y hy m hm) (by simp)
    rw [← append_nil l] at h
    obtain ⟨j, hj, hfits, hweave⟩ := weave_of_kept hkept h
    rw [append_nil] at hweave
    rw [hweave, weave_nil, slice_append h.boundary hfits.boundary (isCharBoundary_size s) hj
      (isCharBoundary_le hfits.boundary)]
    rfl
  | cons r rs ih =>
    obtain ⟨hfirst, hsorted⟩ := pairwise_cons.mp hmarks.sorted
    rw [foldl_cons, copyTurn]
    by_cases hr : r.start < i
    · -- it is copied over already
      rw [if_pos hr]
      refine ih ⟨hsorted, fun r' hr' => hmarks.sound r' (by simp [hr']), fun y hy m hm => ?_⟩ h
        out
      rcases mem_cons.mp (hmarks.complete y hy m hm) with heq | hmem
      · have hy' := (h.le_start y hy).1
        rw [← heq] at hr
        exact absurd hr (Nat.not_lt.mpr hy')
      · exact hmem
    · rw [if_neg hr]
      obtain ⟨kept, rest, rfl⟩ := append_of_mem
        ((hmarks.sound r (by simp)).resolve_left hr)
      have hkept : ∀ y ∈ kept, y.marker = none := by
        intro y hy
        cases hm : y.marker with
        | none => rfl
        | some m =>
          have hlt : y.start < r.start := h.ordered y hy
          rcases mem_cons.mp (hmarks.complete y (by simp [hy]) m hm) with heq | hmem
          · rw [← heq] at hlt
            exact absurd hlt (Nat.lt_irrefl _)
          · exact absurd (hfirst _ hmem) (Nat.not_le.mpr hlt)
      obtain ⟨j, hj, hfits, hweave⟩ := weave_of_kept hkept h
      have hi := h.boundary
      cases hfits with
      | cons hj' hstart hle hlt hrest =>
        have hle' : j ≤ r.start := hle
        have hlt' : r.start < r.stop := hlt
        have hcopied : slice s i j ++ slice s j r.start = slice s i r.start :=
          slice_append hi hj' hstart hj hle
        have hrest' : Marks rest r.stop rs := by
          refine ⟨hsorted, fun r' hr' => ?_, fun y hy m hm => ?_⟩
          · rcases hmarks.sound r' (by simp [hr']) with hlt | hmem
            · exact .inl (by omega)
            · rcases mem_append.mp hmem with hmem | hmem
              · exact absurd (hkept _ hmem) (by simp)
              · rcases mem_cons.mp hmem with heq | hmem
                · have : r'.start = r.start := congrArg Piece.start heq
                  exact .inl (by omega)
                · exact .inr hmem
          · rcases mem_cons.mp (hmarks.complete y (by simp [hy]) m hm) with heq | hmem
            · have : y.start = r.start := congrArg Replacement.start heq
              have : r.stop ≤ y.start := (hrest.le_start y hy).1
              omega
            · exact hmem
        have hnext := ih hrest' hrest (out ++ slice s i r.start ++ r.marker)
        simp only at hnext ⊢
        rw [hnext, hweave, weave_cons, ← hcopied]
        simp [Piece.shown]

theorem spliced_eq_weave {rs : List Replacement} (hfits : Fits s 0 l)
    (hmarks : Marks l 0 rs) : spliced s rs = weave s 0 l := by
  have := foldl_copyTurn hmarks hfits []
  simpa [spliced] using this

end

end Text
