/-
# `Oxyn.Query.Compose` — a batch cut at one of its separators

When the scanner reports the `;` between two texts as a separator, the batch is the first text
with its `;`, then the second one moved: both scans are the same up to the separator
(`AgreeUntil.readAt`), and from there on the scan is the scan of the second text (`readAt_shift`).
-/
import Oxyn.Query.Locality
import Oxyn.Query.Mysql

namespace Oxyn

open Text Cursor List

/-- The fragment `n` bytes further on. -/
def Fragment.shift (n : Nat) (f : Fragment) : Fragment :=
  { f with start := f.start + n, stop := f.stop + n }

/-- A loop that has cut `done` and reads `n` bytes further on. -/
def Splitting.shift (done : List Fragment) (n : Nat) (s : Splitting) : Splitting :=
  ⟨{ s.pending with start := s.pending.start + n },
    done ++ s.fragments.map (Fragment.shift n)⟩

/-! ## The loop on the front of a text, and on the rest -/

theorem fragment?_append_left {u v : Str} {i j : Nat} (hj : j ≤ size u) (flags : Flags) :
    fragment? (u ++ v) i j flags = fragment? u i j flags := by
  unfold fragment?
  rw [get?_append_left hj]

theorem fragment?_append_right (u v : Str) (i j : Nat) (flags : Flags) :
    fragment? (u ++ v) (i + size u) (j + size u) flags =
      (fragment? v i j flags).map (Fragment.shift (size u)) := by
  unfold fragment?
  rw [get?_append_right]
  cases get? v i j with
  | none => rfl
  | some raw =>
    by_cases h : trim raw = []
    · simp [h]
    · simp only [h, if_false, Option.map_some, Fragment.shift, Option.some.injEq,
        Fragment.mk.injEq, and_self, true_and, and_true]
      omega

theorem Pending.flush_append_left {u v : Str} (p : Pending) {j : Nat} (hj : j ≤ size u)
    (terminated : Bool) (out : List Fragment) :
    p.flush (u ++ v) j terminated out = p.flush u j terminated out := by
  unfold flush pushFragment
  rw [fragment?_append_left hj]

theorem Pending.flush_append_right (u v : Str) (p : Pending) (j : Nat) (terminated : Bool)
    (done out : List Fragment) :
    Pending.flush { p with start := p.start + size u } (u ++ v) (j + size u) terminated
        (done ++ out.map (Fragment.shift (size u))) =
      done ++ (p.flush v j terminated out).map (Fragment.shift (size u)) := by
  unfold flush pushFragment
  simp only [fragment?_append_right]
  split
  · cases fragment? v p.start j _ <;> simp
  · rfl

namespace Splitting

theorem read_semicolon {sql : Str} {s : Splitting} {x : Item Tok} (hk : x.kind = .semicolon) :
    s.read sql x = ⟨.startingAt x.stop, s.pending.flush sql x.start true s.fragments⟩ := by
  simp only [read, hk]

theorem read_append_left {u v : Str} (s : Splitting) {x : Item Tok} (hx : x.start ≤ size u) :
    s.read (u ++ v) x = s.read u x := by
  unfold read
  rw [Pending.flush_append_left _ hx]

theorem foldl_append_left {u v : Str} {l : List (Item Tok)} (h : ∀ x ∈ l, x.start ≤ size u)
    (s : Splitting) : l.foldl (read (u ++ v)) s = l.foldl (read u) s := by
  induction l generalizing s with
  | nil => rfl
  | cons x l ih =>
    simp only [foldl_cons]
    rw [read_append_left s (h x (by simp)), ih fun y hy => h y (by simp [hy])]

theorem read_shift (u v : Str) (done : List Fragment) (s : Splitting) (x : Item Tok) :
    (s.shift done (size u)).read (u ++ v) (x.shift (size u)) =
      (s.read v x).shift done (size u) := by
  unfold read
  cases hk : x.kind <;>
    simp only [Item.shift, hk, shift, Pending.withComment, Pending.withCode, if_true]
  case semicolon =>
    simp only [Pending.flush_append_right, Pending.startingAt]
  all_goals rfl

theorem foldl_shift (u v : Str) (done : List Fragment) (l : List (Item Tok)) (s : Splitting) :
    (l.map (Item.shift (size u))).foldl (read (u ++ v)) (s.shift done (size u)) =
      (l.foldl (read v) s).shift done (size u) := by
  induction l generalizing s with
  | nil => rfl
  | cons x l ih => simp only [map_cons, foldl_cons, read_shift, ih]

theorem finish_shift (u v : Str) (done : List Fragment) (s : Splitting) :
    (s.shift done (size u)).finish (u ++ v) =
      done ++ (s.finish v).map (Fragment.shift (size u)) := by
  unfold finish shift
  rw [size_append, Nat.add_comm (size u), Pending.flush_append_right]

end Splitting

/-! ## The two scans -/

/-- The `;` between the texts `a` and `b` is reported as a separator. -/
def SeparatesAt (p : SplitProfile) (a b : Str) : Prop :=
  ∃ x ∈ scan (a ++ ';' :: b) p, x.kind = .semicolon ∧ x.start = size a

section Cut

variable {p : SplitProfile} {a b : Str}

theorem getElem?_separator : (bytes (a ++ ';' :: b))[size a]? = some Byte.semicolon := by
  rw [bytes_append, bytes_cons, getElem?_append_right (by simp), length_bytes,
    Nat.sub_self, utf8EncodeChar_semicolon]
  rfl

theorem bytes_front_agree (m : Nat) (hm : m ≤ size a) :
    (bytes (a ++ ';' :: b))[m]? = (bytes (a ++ [';']))[m]? := by
  rw [show a ++ ';' :: b = (a ++ [';']) ++ b by simp, bytes_append,
    getElem?_append_left (by simp; omega)]

/-- Up to the separator the two scans report the same elements; after it, the
scan of the batch is the scan of the second text. -/
theorem scan_of_separatesAt (h : SeparatesAt p a b) :
    ∃ front x, x.kind = .semicolon ∧ x.start = size a ∧ x.stop = size (a ++ [';']) ∧
      (∀ y ∈ front, y.start ≤ size (a ++ [';'])) ∧
      scan (a ++ [';']) p = front ++ [x] ∧
      scan (a ++ ';' :: b) p =
        front ++ x :: (scan b p).map (Item.shift (size (a ++ [';']))) := by
  obtain ⟨x, hx, hk, hstart⟩ := h
  obtain ⟨j, hreach, hnext⟩ := Reader.mem_items.mp hx
  have hcut : a ++ ';' :: b = (a ++ [';']) ++ b := by simp
  have hsize : size (a ++ [';']) = size a + 1 := by simp
  have hstop : x.stop = size a + 1 := by
    have := (terminator_of_read hnext hk).2
    rw [this, hstart]
    rfl
  have hj := (Reader.forward _ hnext).1
  -- up to where the scanner stands before the separator, nothing looks past it
  obtain ⟨front, hfull, hfront, hreach'⟩ := Reader.items_congr_until
    (r := scanner (a ++ ';' :: b) p) (q := scanner (a ++ [';']) p) hreach
    fun i y hi hy hle => AgreeUntil.readAt (n := size a)
      ⟨fun m _ hm => bytes_front_agree m (by omega), getElem?_separator,
        getElem?_separator (b := []), .inl rfl⟩
      (fun k _ hk => by rw [hasEscapePrefix_congr fun m hm => bytes_front_agree m (by omega)])
      (.inr inert_semicolon) hy (by omega)
  obtain ⟨front', hfront', hbounds⟩ := Reader.items_of_reach hreach
  -- the separator itself is read in both
  have hnext' : (scanner (a ++ [';']) p).next j = some x := by
    obtain ⟨c, hi, hblank, hc, hw, hread⟩ := readAt_eq_some.mp hnext
    have hag : ∀ m, j ≤ m → m < x.start → (bytes (a ++ ';' :: b))[m]? = (bytes (a ++ [';']))[m]? :=
      fun m _ hm => bytes_front_agree m (by omega)
    refine readAt_eq_some.mpr ⟨c, hi, blankRange_congr hag hblank, ?_, hw, .inl ⟨?_, hk, ?_⟩⟩
    · rw [← bytes_front_agree _ (by omega), hc]
    · refine atTerminator_eq_true.mpr ⟨by decide, ?_⟩
      rw [hstart, drop_bytes_size_append]
      decide
    · rw [hstop, hstart]
      rfl
  refine ⟨front, x, hk, hstart, by omega, fun y hy => ?_, ?_, ?_⟩
  · have hsame : front = front' := append_cancel_right (hfull.symm.trans hfront')
    have := hbounds y (hsame ▸ hy)
    have hf : y ∈ (scanner (a ++ ';' :: b) p).items 0 := by rw [hfull]; simp [hy]
    have := Reader.bounds_of_mem_items hf
    omega
  · unfold scan
    rw [hfront, Reader.items_of_some hnext', Reader.items_of_none]
    refine readAt_eq_none.mpr fun k hk1 hk2 => ?_
    simp only [length_bytes] at hk2
    omega
  · unfold scan
    rw [hfull, Reader.items_of_some hnext]
    have hshift : ∀ i, 0 ≤ i → (scanner (a ++ ';' :: b) p).next (i + size (a ++ [';'])) =
        ((scanner b p).next i).map (Item.shift (size (a ++ [';']))) := by
      intro i _
      have := readAt_shift (bytes (a ++ [';'])) (bytes b) semicolonBytes (p := p)
        (.inr ⟨Byte.semicolon, by simp, inert_semicolon⟩) i
      simpa only [scanner, reader, hcut, bytes_append (a ++ [';']) b, length_bytes] using this
    have := Reader.items_shift hshift (Nat.le_refl 0)
    rw [Nat.zero_add, hsize, ← hstop] at this
    rw [this, hstop, hsize]

theorem splitWith_of_separatesAt (h : SeparatesAt p a b) :
    splitWith (a ++ ';' :: b) p =
      splitWith (a ++ [';']) p ++ (splitWith b p).map (Fragment.shift (size (a ++ [';']))) := by
  obtain ⟨front, x, hk, hstart, hstop, hfront, hscan, hfull⟩ := scan_of_separatesAt h
  have hcut : a ++ ';' :: b = (a ++ [';']) ++ b := by simp
  have hx : x.start ≤ size (a ++ [';']) := by rw [hstart]; simp
  -- after the separator nothing is held
  obtain ⟨done, hdone⟩ : ∃ done, (front ++ [x]).foldl (Splitting.read (a ++ [';'])) .initial =
      ⟨.startingAt (size (a ++ [';'])), done⟩ := by
    simp only [foldl_append, foldl_cons, foldl_nil]
    exact ⟨_, by rw [Splitting.read_semicolon hk, hstop]⟩
  have hfold : (front ++ [x]).foldl (Splitting.read (a ++ ';' :: b)) .initial =
      Splitting.shift done (size (a ++ [';'])) .initial := by
    rw [hcut, Splitting.foldl_append_left (fun y hy => ?_), hdone]
    · simp [Splitting.shift, Splitting.initial, Pending.startingAt]
    · rcases mem_append.mp hy with hy | hy
      · exact hfront y hy
      · obtain rfl := mem_singleton.mp hy
        exact hx
  have hfirst : splitWith (a ++ [';']) p = done := by
    unfold splitWith
    rw [hscan, hdone]
    rfl
  rw [hfirst]
  unfold splitWith
  rw [hfull, show front ++ x :: (scan b p).map (Item.shift (size (a ++ [';']))) =
    (front ++ [x]) ++ (scan b p).map (Item.shift (size (a ++ [';']))) by simp,
    foldl_append, hfold, hcut, Splitting.foldl_shift, Splitting.finish_shift]

end Cut

end Oxyn
