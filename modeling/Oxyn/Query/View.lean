/-
# `Oxyn.Query.View` — what the executable-comment view shows

Reading the view goes element by element through the text: what is no executable comment is read
as it was, and an executable comment gives way to the elements of its body
(`items_view_of_markers`).
-/
import Oxyn.Query.Executable

namespace Oxyn

open Text Cursor List

/-! ## One executable comment -/

theorem suffix_of_bytes {sql comment : Str} {i k : Nat} (h : get? sql i (k + 2) = some comment)
    (hik : i ≤ k) (h1 : (bytes sql)[k]? = some Byte.star)
    (h2 : (bytes sql)[k + 1]? = some Byte.slash) : ['*', '/'] <:+ comment := by
  have hk := (isCharBoundary_of_ascii h1 (by decide)).1
  obtain ⟨t, ht⟩ := get?_of_boundaries hk (boundaries_of_get? h).2 (by omega)
  have hbytes : bytes t = bytes ['*', '/'] := by
    refine ext_getElem? fun j => ?_
    rw [bytes_of_get? ht]
    match j with
    | 0 => rw [if_pos (by omega)]; exact h1
    | 1 => rw [if_pos (by omega)]; exact h2
    | j + 2 => rw [if_neg (by omega)]; rfl
  obtain rfl := bytes_injective hbytes
  obtain ⟨u, v, rfl, rfl, hsize⟩ := get?_eq_some.mp h
  obtain ⟨u', v', hcut, hu', hsize'⟩ := get?_eq_some.mp ht
  have htwo : size ['*', '/'] = 2 := by decide
  obtain ⟨hfront, -⟩ := append_inj_of_size hcut (by simp only [size_append]; omega)
  rcases append_eq_append_iff.mp hfront with ⟨w, rfl, rfl⟩ | ⟨w, rfl, hw⟩
  · exact suffix_append ..
  · obtain rfl : w = [] := size_eq_zero.mp (by simp at hu' hik; omega)
    exact ⟨[], by simpa using hw⟩

section Markers

variable {sql : Str} {p : SplitProfile} {x : Item Tok} {m : Markers}

theorem stop_of_not_closed (hx : x ∈ scan sql p) (hm : markersAt sql x = some m)
    (hopen : m.closed = false) : x.stop = size sql := by
  obtain ⟨h1, h2, -⟩ := (opens_of_markersAt hm).slash
  obtain ⟨hk, hstop⟩ := lex_of_opens hx h1 h2
  rcases skipBlockComment_closed (bytes sql) x.start p.nestedBlockComments with
    hend | ⟨k, hik, hend, hstar, hslash⟩
  · rw [hstop, hend, length_bytes]
  · exfalso
    unfold markersAt at hm
    rw [if_pos hk] at hm
    obtain ⟨comment, hcomment, hmark⟩ := Option.bind_eq_some_iff.mp hm
    obtain ⟨n, -, rfl⟩ := Option.map_eq_some_iff.mp hmark
    rw [hstop, hend] at hcomment
    have := suffix_of_bytes hcomment (by omega) hstar hslash
    rw [← isSuffixOf_iff_suffix] at this
    simp [this] at hopen

/-- What the view holds where an executable comment stands. -/
structure Unmasked (sql : Str) (p : SplitProfile) (x : Item Tok) (m : Markers) (inner : Str) :
    Prop where
  body : bodyOf sql x m = inner ++ if m.closed then [' '] else []
  stop : x.start + m.opening + size inner + (if m.closed then 2 else 0) = x.stop
  slice : get? sql (x.start + m.opening) (x.start + m.opening + size inner) = some inner
  blank : BlankRange (bytes (viewOf sql p)) x.start (x.start + m.opening)
  code : ∀ k, k < size inner →
    (bytes (viewOf sql p))[x.start + m.opening + k]? = (bytes inner)[k]?
  close : m.closed = true →
    (bytes (viewOf sql p))[x.start + m.opening + size inner]? = some 0x20 ∧
    (bytes (viewOf sql p))[x.start + m.opening + size inner + 1]? = some 0x20

theorem unmasked (hx : x ∈ scan sql p) (hm : markersAt sql x = some m) :
    ∃ inner, Unmasked sql p x m inner := by
  obtain ⟨-, u, front, inner, v, hsql, hu, hfront, hsize, -, -, hbody⟩ := markersAt_eq_some hm
  rw [size_closing] at hsize
  have hstop := (Reader.bounds_of_mem_items hx).2.2
  have hslice : get? sql (x.start + m.opening) (x.start + m.opening + size inner) = some inner :=
    get?_eq_some.mpr ⟨u ++ front, closing m ++ v, by simp [hsql], by simp; omega, rfl⟩
  have hmarker : ∀ i, x.start ≤ i → i < x.stop → (bytes (viewOf sql p))[i]? =
      if inMarker sql x i then (bytes sql)[i]?.map fun _ => 0x20 else (bytes sql)[i]? := by
    intro i hlo hhi
    rw [getElem?_view, blanked_of_mem hx hlo hhi]
  -- a byte of a marker is a space in the view
  have hspace : ∀ i, x.start ≤ i → i < x.stop → inMarker sql x i = true →
      (bytes (viewOf sql p))[i]? = some 0x20 := by
    intro i hlo hhi hin
    have hlt : i < (bytes sql).length := by
      simp only [scanner, reader] at hstop
      omega
    rw [hmarker i hlo hhi, hin, getElem?_eq_getElem hlt]
    rfl
  have hin : ∀ i, inMarker sql x i = ((x.start ≤ i && i < x.start + m.opening) ||
      (m.closed && x.stop - 2 ≤ i && i < x.stop)) := by
    intro i
    simp only [inMarker, hm]
  refine ⟨inner, hbody, hsize, hslice, fun k hlo hhi => ?_, fun k hk => ?_, fun hclosed => ?_⟩
  · exact ⟨0x20, hspace k hlo (by omega) (by simp [hin, hlo, hhi]), by decide⟩
  · have hout : inMarker sql x (x.start + m.opening + k) = false := by
      rw [hin, Bool.or_eq_false_iff]
      constructor
      · simp
      · cases hc : m.closed with
        | false => rfl
        | true =>
          simp only [hc, if_true] at hsize
          simp
          omega
    have hlt : x.start + m.opening + k < x.stop := by
      generalize (if m.closed = true then 2 else 0) = tail at hsize
      omega
    rw [hmarker _ (by omega) hlt, hout, if_neg Bool.false_ne_true, bytes_of_get? hslice,
      if_pos (by omega)]
  · simp only [hclosed, if_true] at hsize
    exact ⟨hspace _ (by omega) (by omega) (by simp [hin, hclosed]; omega),
      hspace _ (by omega) (by omega) (by simp [hin, hclosed]; omega)⟩

end Markers

/-! ## Reading a body in the view -/

def bodyReader (sql : Str) (p : SplitProfile) (x : Item Tok) (m : Markers) : Reader Tok :=
  reader ((bytes (viewOf sql p)).take (x.start + m.opening) ++ bytes (bodyOf sql x m))
    semicolonBytes p

/-- The elements of a body, at the place the body has in the text. -/
def bodyItems (sql : Str) (p : SplitProfile) (x : Item Tok) (m : Markers) : List (Item Tok) :=
  (scan (bodyOf sql x m) p).map (Item.shift (x.start + m.opening))

section Body

variable {sql : Str} {p : SplitProfile} (hp : Plain p) {x : Item Tok} {m : Markers} {inner : Str}
  (hx : x ∈ scan sql p) (hm : markersAt sql x = some m) (hu : Unmasked sql p x m inner)

include hx hu

theorem length_take_view :
    ((bytes (viewOf sql p)).take (x.start + m.opening)).length = x.start + m.opening := by
  have hstop := (Reader.bounds_of_mem_items hx).2.2
  have hsize := hu.stop
  have hview := size_view sql p
  simp only [scanner, reader, length_bytes] at hstop
  generalize (if m.closed = true then 2 else 0) = tail at hsize
  rw [length_take, length_bytes]
  omega

include hp in
theorem items_bodyReader :
    (bodyReader sql p x m).items (x.start + m.opening) = bodyItems sql p x m := by
  have hlen := length_take_view hx hu
  have := Reader.items_shift (r := scanner (bodyOf sql x m) p) (q := bodyReader sql p x m)
    (n := x.start + m.opening) (k := 0) (i := 0)
    (fun j _ => by
      have := readAt_shift ((bytes (viewOf sql p)).take (x.start + m.opening))
        (bytes (bodyOf sql x m)) semicolonBytes (p := p) (.inl hp.escape) j
      rwa [hlen] at this) (Nat.le_refl 0)
  rwa [Nat.zero_add] at this

theorem getElem?_bodyReader (k : Nat) :
    ((bytes (viewOf sql p)).take (x.start + m.opening) ++ bytes (bodyOf sql x m))[
      x.start + m.opening + k]? = (bytes (bodyOf sql x m))[k]? := by
  have hlen := length_take_view hx hu
  rw [getElem?_append_right (by omega), hlen, Nat.add_sub_cancel_left]

omit hx in
theorem getElem?_body {k : Nat} (hk : k < size inner) :
    (bytes (viewOf sql p))[x.start + m.opening + k]? = (bytes (bodyOf sql x m))[k]? := by
  rw [hu.code k hk, hu.body, bytes_append, getElem?_append_left (by simpa using hk)]

theorem agreeUntil_body (hclosed : m.closed = true) :
    AgreeUntil ((bytes (viewOf sql p)).take (x.start + m.opening) ++ bytes (bodyOf sql x m))
      (bytes (viewOf sql p)) (x.start + m.opening) (x.start + m.opening + size inner)
      0x20 0x20 where
  agree k hlo hhi := by
    obtain ⟨j, rfl⟩ := Nat.exists_eq_add_of_le hlo
    rw [getElem?_bodyReader hx hu, getElem?_body hu (by omega)]
  left := by
    rw [getElem?_bodyReader hx hu, hu.body, hclosed, bytes_append,
      getElem?_append_right (by simp), length_bytes, Nat.sub_self]
    rfl
  right := (hu.close hclosed).1
  alike := .inl rfl

include hp

omit hp in
include hm in
theorem bodyReader_of_not_closed (hclosed : m.closed = false) :
    bodyReader sql p x m = scanner (viewOf sql p) p := by
  have hstop := stop_of_not_closed hx hm hclosed
  have hview := size_view sql p
  have hsize := hu.stop
  simp only [hclosed, Bool.false_eq_true, if_false, Nat.add_zero] at hsize
  have hsame : (bytes (viewOf sql p)).take (x.start + m.opening) ++ bytes (bodyOf sql x m) =
      bytes (viewOf sql p) := by
    conv_rhs => rw [← take_append_drop (x.start + m.opening) (bytes (viewOf sql p))]
    congr 1
    refine ext_getElem? fun k => ?_
    rw [getElem?_drop]
    by_cases hk : k < size inner
    · exact (getElem?_body hu hk).symm
    · rw [getElem?_eq_none, getElem?_eq_none]
      · simp only [length_bytes]; omega
      · rw [hu.body, hclosed]
        simpa using hk
  unfold bodyReader scanner
  rw [hsame]

include hm in
theorem next_view_of_body {j : Nat} {y : Item Tok} (hj : x.start + m.opening ≤ j)
    (hy : (bodyReader sql p x m).next j = some y)
    (hstop : y.stop ≤ x.start + m.opening + size inner) :
    (scanner (viewOf sql p) p).next j = some y := by
  cases hclosed : m.closed with
  | false => rwa [← bodyReader_of_not_closed hx hm hu hclosed]
  | true =>
    have h := agreeUntil_body hx hu hclosed
    have hag : AgreeUntil _ _ j (x.start + m.opening + size inner) _ _ :=
      ⟨fun k hlo hhi => h.agree k (by omega) hhi, h.left, h.right, h.alike⟩
    exact hag.readAt (fun j _ _ => by simp [hp.escape]) (.inl hp.dollar) hy hstop

omit hp hx in
theorem items_view_skip {i : Nat} (hnext : (scanner sql p).next i = some x) :
    (scanner (viewOf sql p) p).items i =
      (scanner (viewOf sql p) p).items (x.start + m.opening) := by
  obtain ⟨c, hix, hgap, -⟩ := readAt_eq_some.mp hnext
  refine Reader.items_of_next_eq (readAt_of_blankRange (by omega) fun k hk hkx => ?_)
  by_cases hkx' : k < x.start
  · exact blankRange_view hgap k hk hkx'
  · exact hu.blank k (by omega) hkx

include hm

/-- In the view, an executable comment gives way to the elements of its body, when nothing in it
runs over where it is closed. -/
theorem items_view_of_markers {i : Nat} (hnext : (scanner sql p).next i = some x)
    (ht : m.closed = true → ∀ y ∈ scan (bodyOf sql x m) p, y.stop < size (bodyOf sql x m)) :
    (scanner (viewOf sql p) p).items i =
      bodyItems sql p x m ++ (scanner (viewOf sql p) p).items x.stop := by
  rw [items_view_skip hu hnext]
  have hsize := hu.stop
  cases hclosed : m.closed with
  | false =>
    have hstop := stop_of_not_closed hx hm hclosed
    have hview := size_view sql p
    rw [← items_bodyReader hp hx hu, bodyReader_of_not_closed hx hm hu hclosed,
      Reader.items_of_none (i := x.stop), append_nil]
    refine readAt_eq_none.mpr fun k hk hkb => ?_
    simp only [length_bytes] at hkb
    omega
  | true =>
    simp only [hclosed, if_true] at hsize
    have hbody : size (bodyOf sql x m) = size inner + 1 := by
      rw [hu.body, hclosed]
      simp
      decide
    obtain ⟨k, hk, hnone⟩ := Reader.exists_end (r := bodyReader sql p x m)
      (x.start + m.opening)
    -- every element of the body ends before the closing marker
    have hends : ∀ y ∈ (bodyReader sql p x m).items (x.start + m.opening),
        y.stop ≤ x.start + m.opening + size inner := by
      intro y hy
      rw [items_bodyReader hp hx hu] at hy
      obtain ⟨z, hz, rfl⟩ := mem_map.mp hy
      have := ht hclosed z hz
      simp only [Item.shift]
      omega
    obtain ⟨front, h1, h2, -⟩ := Reader.items_congr_until
      (q := scanner (viewOf sql p) p) hk fun j y hj hy _ =>
        next_view_of_body hp hx hm hu hj.le hy
          (hends y (Reader.mem_items.mpr ⟨j, hj, hy⟩))
    rw [Reader.items_of_none hnone, append_nil, items_bodyReader hp hx hu] at h1
    rw [h2, h1]
    congr 1
    -- what is left of the body is blank, and so is the closing marker
    have hkend : k ≤ x.start + m.opening + size inner := by
      rcases hk.cases_last with rfl | ⟨j, y, hj, hy, rfl⟩
      · omega
      · exact hends y (Reader.mem_items.mpr ⟨j, hj, hy⟩)
    refine Reader.items_of_next_eq (readAt_of_blankRange (by omega) fun j hjk hjx => ?_)
    have hrest := readAt_eq_none.mp hnone
    have hklo := hk.le
    by_cases hj : j < x.start + m.opening + size inner
    · obtain ⟨c, hc, hw⟩ := hrest j hjk (by
        have := length_take_view hx hu
        rw [length_append, this, length_bytes]
        omega)
      exact ⟨c, by rw [← (agreeUntil_body hx hu hclosed).agree j (by omega) hj, hc], hw⟩
    · have hclose := hu.close hclosed
      rcases (by omega : j = x.start + m.opening + size inner ∨
        j = x.start + m.opening + size inner + 1) with rfl | rfl
      · exact ⟨0x20, hclose.1, by decide⟩
      · exact ⟨0x20, hclose.2, by decide⟩

end Body

/-! ## The whole view -/

/-- Nothing in the body runs over where the comment is closed. -/
def Tight (sql : Str) (p : SplitProfile) (x : Item Tok) : Prop :=
  ∀ m ∈ markersAt sql x, m.closed = true →
    ∀ y ∈ scan (bodyOf sql x m) p, y.stop < size (bodyOf sql x m)

/-- The body holds an executable comment of its own. -/
def Nested (sql : Str) (p : SplitProfile) (x : Item Tok) : Prop :=
  ∃ m ∈ markersAt sql x,
    ∃ y ∈ scan (bodyOf sql x m) p, (markersAt (bodyOf sql x m) y).isSome = true

instance (sql : Str) (p : SplitProfile) (x : Item Tok) : Decidable (Tight sql p x) :=
  inferInstanceAs (Decidable (∀ m ∈ markersAt sql x, _))

instance (sql : Str) (p : SplitProfile) (x : Item Tok) : Decidable (Nested sql p x) :=
  inferInstanceAs (Decidable (∃ m ∈ markersAt sql x, _))

/-- What the view shows of an element. -/
def expand (sql : Str) (p : SplitProfile) (x : Item Tok) : List (Item Tok) :=
  match markersAt sql x with
  | none => [x]
  | some m => bodyItems sql p x m

section Whole

variable {sql : Str} {p : SplitProfile} (hp : Plain p)

include hp

variable {i : Nat}

theorem items_view_step {x : Item Tok} (hi : (scanner sql p).Reach 0 i)
    (hx : (scanner sql p).next i = some x) (ht : Tight sql p x) :
    (scanner (viewOf sql p) p).items i =
      expand sql p x ++ (scanner (viewOf sql p) p).items x.stop := by
  unfold expand
  cases hm : markersAt sql x with
  | none => exact Reader.items_of_some (next_view_of_plain hp hi hx hm)
  | some m =>
    have hmem : x ∈ scan sql p := Reader.mem_items.mpr ⟨i, hi, hx⟩
    obtain ⟨inner, hu⟩ := unmasked hmem hm
    exact items_view_of_markers hp hmem hm hu hx (ht m hm)

theorem scan_view_until (hi : (scanner sql p).Reach 0 i)
    (ht : ∀ x ∈ scan sql p, x.stop ≤ i → Tight sql p x) :
    ∃ front, scan sql p = front ++ (scanner sql p).items i ∧
      scan (viewOf sql p) p =
        front.flatMap (expand sql p) ++ (scanner (viewOf sql p) p).items i := by
  induction hi with
  | refl => exact ⟨[], rfl, rfl⟩
  | @step j x hj hx ih =>
    have hf := reader_forward hx
    have hmem : x ∈ scan sql p := Reader.mem_items.mpr ⟨j, hj, hx⟩
    obtain ⟨front, h1, h2⟩ := ih fun y hy hle => ht y hy (by omega)
    refine ⟨front ++ [x], by rw [h1, Reader.items_of_some hx]; simp, ?_⟩
    rw [h2, items_view_step hp hj hx (ht x hmem (Nat.le_refl _))]
    simp

/-- The scan of the view is the scan of the text, bodies in place of comments. -/
theorem scan_view (ht : ∀ x ∈ scan sql p, Tight sql p x) :
    scan (viewOf sql p) p = (scan sql p).flatMap (expand sql p) := by
  obtain ⟨k, hk, hnone⟩ := Reader.exists_end (r := scanner sql p) 0
  obtain ⟨front, h1, h2⟩ := scan_view_until hp hk fun x hx _ => ht x hx
  have hblank := blankRange_view (p := p) (readAt_eq_none.mp hnone)
  rw [length_bytes, ← size_view sql p] at hblank
  rw [Reader.items_of_none hnone, append_nil] at h1
  rw [Reader.items_of_none (readAt_eq_none.mpr hblank), append_nil] at h2
  rw [h2, h1]

omit hp in
theorem opens_of_view (h : Opens (bytes (viewOf sql p)) i) : Opens (bytes sql) i := by
  refine h.transfer fun k c _ hw _ hc => ?_
  rw [getElem?_view] at hc
  split at hc
  · obtain ⟨-, -, rfl⟩ := Option.map_eq_some_iff.mp hc
    exact absurd hw (by decide)
  · exact hc

omit hp in
theorem opens_of_body {x : Item Tok} {m : Markers} {inner : Str} (hx : x ∈ scan sql p)
    (hm : markersAt sql x = some m) (hu : Unmasked sql p x m inner) {k : Nat}
    (hk : k < size inner) (h : Opens (bytes (viewOf sql p)) (x.start + m.opening + k)) :
    Opens (bytes (bodyOf sql x m)) k := by
  -- the marker holds no blank, and the body is followed by one, or by nothing
  have hnot : ∀ e, (bytes (viewOf sql p))[x.start + m.opening + size inner]? = some e →
      isAsciiWhitespace e = true := by
    intro e he
    cases hc : m.closed with
    | true =>
      rw [(hu.close hc).1] at he
      obtain rfl := Option.some.inj he
      decide
    | false =>
      have hstop := stop_of_not_closed hx hm hc
      have hsize := hu.stop
      simp only [hc, Bool.false_eq_true, if_false, Nat.add_zero] at hsize
      rw [getElem?_eq_none (by rw [length_bytes, size_view]; omega)] at he
      simp at he
  refine h.transfer fun j c _ _ hvis hc => ?_
  have hlt : k + j < size inner := by
    by_contra hge
    obtain ⟨e, he, hw⟩ := hvis (size inner - k) (by omega)
    rw [show x.start + m.opening + k + (size inner - k) = x.start + m.opening + size inner by
      omega] at he
    simp [hnot e he] at hw
  rw [← getElem?_body hu hlt, ← Nat.add_assoc, hc]

theorem not_opens_view (ht : ∀ x ∈ scan sql p, Tight sql p x ∧ ¬ Nested sql p x) {z : Item Tok}
    (hz : z ∈ scan (viewOf sql p) p) : ¬ Opens (bytes (viewOf sql p)) z.start := by
  intro hopen
  have hz' := hz
  rw [scan_view hp fun x hx => (ht x hx).1] at hz'
  obtain ⟨x, hx, hzx⟩ := mem_flatMap.mp hz'
  unfold expand at hzx
  cases hm : markersAt sql x with
  | none =>
    simp only [hm, mem_singleton] at hzx
    subst hzx
    have := (markersAt_isSome_iff hx).mpr (opens_of_view hopen)
    simp [hm] at this
  | some m =>
    simp only [hm] at hzx
    obtain ⟨y, hy, rfl⟩ := mem_map.mp hzx
    obtain ⟨inner, hu⟩ := unmasked hx hm
    refine (ht x hx).2 ⟨m, hm, y, hy, (markersAt_isSome_iff hy).mpr ?_⟩
    have hylt : y.start < size inner := by
      have hb := Reader.bounds_of_mem_items hy
      have hsize : size (bodyOf sql x m) = size inner + if m.closed then 1 else 0 := by
        rw [hu.body, size_append]
        cases m.closed
        · rfl
        · simp
          decide
      cases hc : m.closed with
      | true =>
        have := (ht x hx).1 m hm hc y hy
        simp only [hc, if_true] at hsize
        omega
      | false =>
        simp only [hc, Bool.false_eq_true, if_false, Nat.add_zero] at hsize
        simp only [scanner, reader, length_bytes] at hb
        omega
    refine opens_of_body hx hm hu hylt ?_
    rw [Nat.add_comm]
    exact hopen

end Whole

/-! ## What the view hides -/

/-- A bare word written inside an executable comment, however deep. -/
inductive ExecutableWord (p : SplitProfile) : Str → Nat → Nat → Prop
  | here {sql x m y} : x ∈ scan sql p → markersAt sql x = some m → y ∈ scan (bodyOf sql x m) p →
      y.kind = .word →
      ExecutableWord p sql (y.start + (x.start + m.opening)) (y.stop + (x.start + m.opening))
  | nested {sql x m i j} : x ∈ scan sql p → markersAt sql x = some m →
      ExecutableWord p (bodyOf sql x m) i j →
      ExecutableWord p sql (i + (x.start + m.opening)) (j + (x.start + m.opening))

/-- The view holds no executable comment, and every word of one is a word of the view or of the
text. -/
structure HidesNothing (sql : Str) (p : SplitProfile) : Prop where
  comments : ∀ x ∈ scan (viewOf sql p) p, x.kind = .comment → ∀ comment,
    get? (viewOf sql p) x.start x.stop = some comment → prefixLen comment = none
  again : viewOf (viewOf sql p) p = viewOf sql p
  words : ∀ i j, ExecutableWord p sql i j →
    ∃ w ∈ wordsWith (viewOf sql p) p ++ wordsWith sql p,
      w.start = i ∧ w.stop = j ∧ get? sql i j = some w.text

theorem viewOf_eq_self {sql : Str} {p : SplitProfile}
    (h : ∀ x ∈ scan sql p, markersAt sql x = none) : viewOf sql p = sql := by
  unfold viewOf executableSql
  rw [if_neg]
  · rfl
  · rw [any_eq_true]
    rintro ⟨x, hx, hm⟩
    simp [h x hx] at hm

theorem mem_wordsWith {sql : Str} {p : SplitProfile} {x : Item Tok} (hx : x ∈ scan sql p)
    (hk : x.kind = .word) :
    ∃ w ∈ wordsWith sql p, w.start = x.start ∧ w.stop = x.stop ∧
      get? sql x.start x.stop = some w.text := by
  have hb := boundary_of_scan hx
  have hlt := (Reader.bounds_of_mem_items hx).2.1
  obtain ⟨t, ht⟩ := get?_of_boundaries hb.1 hb.2 (Nat.le_of_lt hlt)
  refine ⟨⟨t, x.start, x.stop, nextVisibleByte (bytes sql) x.stop == some Byte.openParenthesis⟩,
    mem_filterMap.mpr ⟨x, hx, ?_⟩, rfl, rfl, ht⟩
  rw [word?, if_pos hk, ht]
  rfl

section Claim

variable {sql : Str} {p : SplitProfile} (hp : Plain p)

include hp

theorem word_of_body (ht : ∀ x ∈ scan sql p, Tight sql p x) {x : Item Tok} {m : Markers}
    {y : Item Tok} (hx : x ∈ scan sql p) (hm : markersAt sql x = some m)
    (hy : y ∈ scan (bodyOf sql x m) p) (hk : y.kind = .word) :
    ∃ w ∈ wordsWith (viewOf sql p) p, w.start = y.start + (x.start + m.opening) ∧
      w.stop = y.stop + (x.start + m.opening) ∧
      get? sql (y.start + (x.start + m.opening)) (y.stop + (x.start + m.opening)) =
        some w.text := by
  obtain ⟨inner, hu⟩ := unmasked hx hm
  have hmem : y.shift (x.start + m.opening) ∈ scan (viewOf sql p) p := by
    rw [scan_view hp ht]
    refine mem_flatMap.mpr ⟨x, hx, ?_⟩
    unfold expand
    rw [hm]
    exact mem_map.mpr ⟨y, hy, rfl⟩
  obtain ⟨w, hw, hstart, hstop, htext⟩ := mem_wordsWith hmem hk
  refine ⟨w, hw, hstart, hstop, ?_⟩
  -- the word ends inside the body, where view and text have the same bytes
  have hend : y.stop ≤ size inner := by
    have hb := Reader.bounds_of_mem_items hy
    cases hc : m.closed with
    | true =>
      have h1 := ht x hx m hm hc y hy
      rw [hu.body, hc, size_append] at h1
      simp only [if_true] at h1
      have : size [' '] = 1 := by decide
      omega
    | false =>
      have h1 := hb.2.2
      simp only [scanner, reader, length_bytes] at h1
      rw [hu.body, hc] at h1
      simpa using h1
  obtain ⟨v, hv, -, -, hvtext⟩ := mem_wordsWith hy hk
  rw [hu.body, get?_append_left hend] at hvtext
  obtain ⟨u, rest, hsql, hsize, hstop'⟩ := get?_eq_some.mp hu.slice
  have hslice : get? sql (y.start + (x.start + m.opening)) (y.stop + (x.start + m.opening)) =
      some v.text := by
    rw [← hsize, hsql, get?_append_left (by simp; omega), get?_append_right, hvtext]
  rw [hslice]
  change get? (viewOf sql p) (y.start + (x.start + m.opening))
    (y.stop + (x.start + m.opening)) = some w.text at htext
  refine congrArg some (bytes_injective (ext_getElem? fun k => ?_))
  rw [bytes_of_get? hvtext, bytes_of_get? htext]
  by_cases hlt : y.start + k < y.stop
  · rw [if_pos hlt, if_pos (by omega), ← hu.code _ (by omega)]
    congr 1
    omega
  · rw [if_neg hlt, if_neg (by omega)]

/-- Bodies that leave nothing open and nest no marker are shown whole. -/
theorem view_hides_nothing (ht : ∀ x ∈ scan sql p, Tight sql p x ∧ ¬ Nested sql p x) :
    HidesNothing sql p := by
  have htight : ∀ x ∈ scan sql p, Tight sql p x := fun x hx => (ht x hx).1
  have hnone : ∀ x ∈ scan (viewOf sql p) p, markersAt (viewOf sql p) x = none := by
    intro x hx
    rw [← Option.not_isSome_iff_eq_none, markersAt_isSome_iff hx]
    exact not_opens_view hp ht hx
  refine ⟨fun x hx hk comment hcomment => ?_, viewOf_eq_self hnone, fun i j hword => ?_⟩
  · have := hnone x hx
    unfold markersAt at this
    rw [if_pos hk, hcomment] at this
    simpa [markers?] using this
  · cases hword with
    | here hx hm hy hk =>
      obtain ⟨w, hw, h⟩ := word_of_body hp htight hx hm hy hk
      exact ⟨w, mem_append_left _ hw, h⟩
    | nested hx hm hword =>
      -- no body holds an executable comment of its own
      exfalso
      rename_i x m i' j'
      cases hword with
      | here hy hm' | nested hy hm' =>
        exact (ht x hx).2 ⟨m, hm, _, hy, by simp [hm']⟩

theorem opens_view_of_nested {x : Item Tok} {m : Markers} (hx : x ∈ scan sql p)
    (hm : markersAt sql x = some m) {y : Item Tok} (hy : y ∈ scan (bodyOf sql x m) p)
    (hopen : Opens (bytes (bodyOf sql x m)) y.start) :
    ∃ z ∈ (scanner (viewOf sql p) p).items (x.start + m.opening),
      Opens (bytes (viewOf sql p)) z.start := by
  obtain ⟨inner, hu⟩ := unmasked hx hm
  -- the marker holds no blank, so it lies inside the body
  have hinside : ∀ k c, (bytes (bodyOf sql x m))[k]? = some c → isAsciiWhitespace c = false →
      k < size inner := by
    intro k c hc hw
    rw [hu.body, bytes_append] at hc
    by_contra hge
    rw [getElem?_append_right (by simpa using hge)] at hc
    cases hcl : m.closed with
    | false => simp [hcl] at hc
    | true =>
      rw [hcl] at hc
      have hmem := mem_of_getElem? hc
      have hspace : bytes [' '] = [0x20] := by decide
      simp only [if_true, hspace, mem_singleton] at hmem
      rw [hmem] at hw
      exact absurd hw (by decide)
  obtain ⟨hslash, hstar, -⟩ := hopen.slash
  have hystart := hinside _ _ hslash (by decide)
  have hystar := hinside _ _ hstar (by decide)
  have hmem : y.shift (x.start + m.opening) ∈ (bodyReader sql p x m).items
      (x.start + m.opening) := by
    rw [items_bodyReader hp hx hu]
    exact mem_map.mpr ⟨y, hy, rfl⟩
  obtain ⟨j, hj, hnext⟩ := Reader.mem_items.mp hmem
  have hbefore := reader_forward hnext
  simp only [Item.shift] at hbefore
  -- what the body holds before it is read in the view, which then stands before it too
  obtain ⟨-, -, -, hreach⟩ := Reader.items_congr_until (q := scanner (viewOf sql p) p) hj
    fun i w hi hw hle => next_view_of_body hp hx hm hu hi.le hw (by omega)
  obtain ⟨c, hjy, hblank, -⟩ := readAt_eq_some.mp hnext
  simp only [Item.shift] at hjy hblank
  have hview : ∀ k, k < size inner → (bytes (viewOf sql p))[k + (x.start + m.opening)]? =
      (bytes (bodyOf sql x m))[k]? := by
    intro k hk
    rw [Nat.add_comm, getElem?_body hu hk]
  have hblank' : BlankRange (bytes (viewOf sql p)) j (y.start + (x.start + m.opening)) := by
    refine blankRange_congr (fun k hk hlt => ?_) hblank
    have hjle := hj.le
    obtain ⟨k, rfl⟩ := Nat.exists_eq_add_of_le (show x.start + m.opening ≤ k by omega)
    rw [getElem?_bodyReader hx hu, getElem?_body hu (by omega)]
  have hz : (scanner (viewOf sql p) p).next j =
      some ⟨.comment, y.start + (x.start + m.opening),
        skipBlockComment (bytes (viewOf sql p)) (y.start + (x.start + m.opening))
          p.nestedBlockComments⟩ := by
    have h0 := (hview y.start hystart).trans hslash
    have h1 : (bytes (viewOf sql p))[y.start + (x.start + m.opening) + 1]? = some Byte.star := by
      rw [Nat.add_right_comm]
      exact (hview (y.start + 1) hystar).trans hstar
    refine readAt_eq_some.mpr ⟨Byte.slash, hjy, hblank', h0, by decide, .inr ⟨?_, ?_⟩⟩
    · rw [Bool.eq_false_iff]
      intro hterm
      obtain ⟨-, rest, hrest⟩ := atTerminator_eq_true.mp hterm
      have := congrArg (·[0]?) hrest
      simp only [getElem?_drop, Nat.add_zero, h0] at this
      change some Byte.semicolon = some Byte.slash at this
      exact absurd this (by decide)
    · exact lex_slash_star p h1
  refine ⟨_, Reader.mem_items.mpr ⟨j, hreach, hz⟩, hopen.transfer fun k c _ hw _ hc => ?_⟩
  rw [Nat.add_right_comm, hview _ (hinside _ _ hc hw), hc]

/-- A marker nested in the first body that leaves something open stays in the view. -/
theorem view_keeps_nested {x : Item Tok} (hx : x ∈ scan sql p)
    (ht : ∀ y ∈ scan sql p, y.stop ≤ x.start → Tight sql p y) (hn : Nested sql p x) :
    ¬ HidesNothing sql p := by
  intro hides
  obtain ⟨m, hm, y, hy, hmy⟩ := hn
  obtain ⟨z, hz, hopen⟩ :=
    opens_view_of_nested hp hx hm hy ((markersAt_isSome_iff hy).mp hmy)
  obtain ⟨inner, hu⟩ := unmasked hx hm
  obtain ⟨i, hi, hnext⟩ := Reader.mem_items.mp hx
  have hf := reader_forward hnext
  obtain ⟨front, -, hview⟩ := scan_view_until hp hi fun y hy hle => ht y hy (by omega)
  have hzmem : z ∈ scan (viewOf sql p) p := by
    rw [hview, items_view_skip hu hnext]
    exact mem_append_right _ hz
  obtain ⟨m', hm'⟩ := Option.isSome_iff_exists.mp ((markersAt_isSome_iff hzmem).mpr hopen)
  unfold markersAt at hm'
  split at hm'
  next hk =>
    obtain ⟨comment, hcomment, hmark⟩ := Option.bind_eq_some_iff.mp hm'
    have := hides.comments z hzmem hk comment hcomment
    simp [markers?, this] at hmark
  · simp at hm'

end Claim

/-- The view shows everything a MySQL server runs as long as no executable comment's body leaves
something open where it is closed, nor nests an executable comment; and a body that nests one, when
nothing is left open before it, breaks the view. -/
theorem view_of_executable_comments (sql : Str) :
    ((∀ x ∈ scan sql .mySql, Tight sql .mySql x ∧ ¬ Nested sql .mySql x) →
      HidesNothing sql .mySql) ∧
    ∀ x ∈ scan sql .mySql, (∀ y ∈ scan sql .mySql, y.stop ≤ x.start → Tight sql .mySql y) →
      Nested sql .mySql x → ¬ HidesNothing sql .mySql :=
  ⟨view_hides_nothing plain_mySql, fun _ hx => view_keeps_nested plain_mySql hx⟩

/-- A `USE` behind a version gate is shown. -/
theorem view_shows_gated_use : HidesNothing "/*!50000 USE shop */; SELECT 1".toList .mySql :=
  (view_of_executable_comments _).1 (by decide)

/-- An executable comment nested in another one: the view still holds it, and its
word is one of neither reading. -/
theorem view_loses_nested_drop :
    ¬ HidesNothing "/*! /*! DROP */ */".toList .mySql ∧
      ExecutableWord .mySql "/*! /*! DROP */ */".toList 8 12 ∧
      ∀ w ∈ wordsWith (viewOf "/*! /*! DROP */ */".toList .mySql) .mySql ++
        wordsWith "/*! /*! DROP */ */".toList .mySql, isKeyword w.text "drop" = false := by
  have hword : ExecutableWord .mySql "/*! /*! DROP */ */".toList 8 12 :=
    .nested (x := ⟨.comment, 0, 15⟩) (m := ⟨3, true⟩) (i := 5) (j := 9) (by decide) (by decide)
      (.here (x := ⟨.comment, 1, 11⟩) (m := ⟨3, false⟩) (y := ⟨.word, 1, 5⟩) (by decide)
        (by decide) (by decide) rfl)
  have hno : ∀ w ∈ wordsWith (viewOf "/*! /*! DROP */ */".toList .mySql) .mySql ++
      wordsWith "/*! /*! DROP */ */".toList .mySql, isKeyword w.text "drop" = false := by
    decide
  refine ⟨fun h => ?_, hword, hno⟩
  obtain ⟨w, hw, -, -, htext⟩ := h.words 8 12 hword
  have hdrop : get? "/*! /*! DROP */ */".toList 8 12 = some "DROP".toList := by decide
  rw [hdrop] at htext
  have := hno w hw
  rw [← Option.some.inj htext] at this
  exact absurd this (by decide)

end Oxyn
