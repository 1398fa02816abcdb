/-
# `Oxyn.Redis.Reply` — a reply that is read element by element

A cursor reads the head of a reply first, and what is behind it later: the payload of a scalar, or
the items of an aggregate one by one.
-/
import Oxyn.Redis.Connection
import Oxyn.Redis.Framing

namespace Oxyn.Redis

open Text Resp List

def isPush {F : Type} : Resp.Tree F → Bool
  | .aggregate .push _ => true
  | _ => false

theorem eq_of_isPush {F : Type} {t : Resp.Tree F} (h : isPush t = true) :
    ∃ items, t = .aggregate .push items := by
  unfold isPush at h
  split at h
  next items => exact ⟨items, rfl⟩
  next => cases h

section

variable {F : Type} (ending : Ending) (floats : Resp.Floats F)

/-- What a head leaves of its value: the payload of a scalar, or the items of an aggregate. -/
inductive Opened : Resp.Tree F → Head F → Bytes → Prop
  | scalar {t : Resp.Tree F} {h : Head F} {payload : Bytes} : HeadReads ending t h payload →
      (∀ kind items, t ≠ .aggregate kind items) → Opened t h payload
  | aggregate {kind : Aggregate} {items : List (Resp.Tree F)} {len : Nat} {inner : Bytes} :
      items.length = kind.arity * len → Encodes floats items inner →
        Opened (.aggregate kind items) (.aggregate kind len) inner

/-- The bytes of one value: read whole, or by their head and what it leaves. -/
structure Opens (t : Resp.Tree F) (one : Bytes) (h : Head F) (body : Bytes) : Prop where
  reads : ReadsOne ending floats t one
  head : ∀ rest, head floats (flat ending) (behind (one ++ rest)) = (.ok h, behind (body ++ rest))
  opened : Opened ending floats t h body
  length_le : body.length ≤ one.length

end

section

variable {F : Type} {ending : Ending} {floats : Resp.Floats F}

variable {t : Resp.Tree F}

theorem HeadReads.not_aggregate {kind : Aggregate} {len : Nat} {payload : Bytes}
    (h : HeadReads ending t (.aggregate kind len) payload) : False := by
  have hkeep := h.keep (fun _ _ _ s => (.error .truncated, s)) (fun _ _ _ => (.null, 0)) 0 []
  cases hkeep

theorem opens_scalar {line payload : Bytes} (ht : Scalar floats t line payload)
    (hline : Line line) (hsmall : payload.length ≤ u64Max) :
    ∃ h, Opens ending floats t (line ++ [13, 10] ++ payload) h payload := by
  obtain ⟨h, hhead, hreads⟩ := scalar_reads ending ht hsmall
  refine ⟨h, readsOne_of_scalar ending ht hline, fun rest => ?_, .scalar hreads ?_, ?_⟩
  · rw [append_assoc]
    exact head_of_line (flat_line ending hline (payload ++ rest)) hhead
  · intro kind items heq
    subst heq
    cases ht
  · simp only [length_append]
    omega

theorem opens_aggregate {kind : Aggregate} {items : List (Resp.Tree F)} {len : Nat}
    {digits inner : Bytes} (hcounts : Counts len digits) (hline : Line (kind.marker :: digits))
    (hlen : items.length = kind.arity * len) (hitems : Encodes floats items inner)
    (hsmall : inner.length ≤ u64Max) :
    Opens ending floats (.aggregate kind items) (kind.marker :: digits ++ [13, 10] ++ inner)
      (.aggregate kind len) inner := by
  have hall := readAll_of_encodes ending hitems
  have hle := hall.length_le
  have harity := arity_le hlen
  refine ⟨readsOne_of_aggregate ending hcounts hline hlen hall, fun rest => ?_,
    .aggregate hlen hitems, ?_⟩
  · rw [append_assoc]
    exact head_of_line (flat_line ending hline (inner ++ rest)) (marker_head hcounts (by omega))
  · simp only [length_append]
    omega

theorem Opens.annotated {one body digits inner : Bytes} {h : Head F} {n : Nat}
    {attributes : List (Resp.Tree F)} (hopens : Opens ending floats t one h body)
    (hcounts : Counts n digits) (hline : Line (124 :: digits)) (hlen : attributes.length = 2 * n)
    (hinner : Encodes floats attributes inner) (hsmall : inner.length ≤ u64Max) :
    Opens ending floats t (124 :: digits ++ [13, 10] ++ inner ++ one) h body := by
  have hall := readAll_of_encodes ending hinner
  refine ⟨readsOne_of_attribute ending hcounts hline hlen hall hopens.reads, fun rest => ?_,
    hopens.opened, ?_⟩
  · rw [append_assoc, ← hopens.head rest]
    exact head_attribute ending hcounts hline hlen hall hsmall (one ++ rest)
  · have hle := hopens.length_le
    simp only [length_append]
    omega

variable (ending) in
theorem first_of_encodes {ts : List (Resp.Tree F)} {bytes : Bytes} (h : Encodes floats ts bytes)
    (hsmall : bytes.length ≤ u64Max) {us : List (Resp.Tree F)} (hts : ts = t :: us) :
    ∃ one others hd body, bytes = one ++ others ∧ Encodes floats us others ∧
      Opens ending floats t one hd body := by
  induction h generalizing t us with
  | nil => cases hts
  | @scalar _ line payload rest _ ht hline hrest =>
    cases hts
    simp only [length_append] at hsmall
    obtain ⟨hd, hopens⟩ := opens_scalar ht hline (by omega)
    exact ⟨_, rest, hd, payload, rfl, hrest, hopens⟩
  | @annotated _ _ digits inner rest _ _ hcounts hline hlen hinner _ _ ihrest =>
    simp only [length_append] at hsmall
    obtain ⟨one, others, hd, body, rfl, hothers, hopens⟩ := ihrest (by omega) hts
    exact ⟨_, others, hd, body, (append_assoc ..).symm, hothers,
      hopens.annotated hcounts hline hlen hinner (by omega)⟩
  | @aggregate _ _ _ _ inner rest _ hcounts hline hlen hitems hrest =>
    cases hts
    simp only [length_append] at hsmall
    exact ⟨_, rest, _, inner, rfl, hrest,
      opens_aggregate hcounts hline hlen hitems (by omega)⟩

theorem encodes_append {ts us : List (Resp.Tree F)} {bytes others : Bytes}
    (h : Encodes floats ts bytes) (hus : Encodes floats us others) :
    Encodes floats (ts ++ us) (bytes ++ others) := by
  induction h with
  | nil => exact hus
  | scalar ht hline _ ih =>
    rw [append_assoc]
    exact .scalar ht hline ih
  | annotated hcounts hline hlen hinner _ _ ih =>
    rw [append_assoc]
    exact .annotated hcounts hline hlen hinner ih
  | aggregate hcounts hline hlen hitems _ _ ih =>
    rw [append_assoc]
    exact .aggregate hcounts hline hlen hitems ih

/-! ## The reads of a cursor -/

variable (ending) in
theorem value_of_encodes {us : List (Resp.Tree F)} {bytes : Bytes}
    (h : Encodes floats (t :: us) bytes) (hsmall : bytes.length ≤ u64Max) :
    ∃ others, Encodes floats us others ∧ others.length ≤ bytes.length ∧
      ∀ cost budget rest, ∃ v, value floats (flat ending) cost budget (behind (bytes ++ rest)) =
        (.ok v, behind (others ++ rest)) := by
  obtain ⟨one, others, hd, body, rfl, hothers, hopens⟩ := first_of_encodes ending h hsmall rfl
  rw [length_append] at hsmall
  refine ⟨others, hothers, ?_, fun cost budget rest => ?_⟩
  · rw [length_append]
    omega
  · rw [append_assoc]
    exact ⟨_, hopens.reads.read (by omega) cost maxDepth budget (others ++ rest)⟩

theorem Opens.restOf {one body : Bytes} {h : Head F}
    (hopens : Opens ending floats t one h body) (hsmall : one.length ≤ u64Max)
    (cost budget : Nat) (rest : Bytes) :
    ∃ v, Resp.restOf floats (flat ending) cost h budget (behind (body ++ rest)) =
      (.ok v, behind rest) := by
  have hread := hopens.reads.read hsmall cost maxDepth budget rest
  have hbind : readOne ending floats cost maxDepth budget (behind (one ++ rest)) =
      element floats (flat ending) cost maxDepth h budget (behind (body ++ rest)) :=
    Scan.bind_ok (hopens.head rest)
  exact ⟨_, hbind.symm.trans hread⟩

theorem replyHead_of_push {items : List (Resp.Tree F)} {one body : Bytes} {h : Head F}
    (hopens : Opens ending floats (.aggregate .push items) one h body)
    (hsmall : one.length ≤ u64Max) (rest : Bytes) :
    replyHead floats (flat ending) (behind (one ++ rest)) =
      replyHead floats (flat ending) (behind rest) := by
  cases hopens.opened with
  | scalar _ hnot => exact absurd rfl (hnot .push items)
  | @aggregate _ _ len _ hlen hitems =>
    have hle := hopens.length_le
    have hskip := (readAll_of_encodes ending hitems).skip_all ending rest (by omega)
    have hcount : items.length = len := hlen.trans (Nat.one_mul len)
    rw [hcount] at hskip
    refine Scan.loop_turn ?_
    show (Resp.head floats (flat ending) >>= _) _ = _
    rw [Scan.bind_ok (hopens.head rest)]
    show (skip floats (flat ending) len >>= _) _ = _
    rw [Scan.bind_ok hskip]
    rfl

/-- A reply, the pushes in front of it included. -/
def Whole (floats : Resp.Floats F) (bytes : Bytes) : Prop :=
  bytes.length ≤ u64Max ∧ ∃ pushes t, (∀ p ∈ pushes, isPush p = true) ∧ isPush t = false ∧
    Encodes floats (pushes ++ [t]) bytes

variable (ending) in
theorem replyHead_of_whole {bytes : Bytes} (h : Whole floats bytes) :
    ∃ t one hd body, Opens ending floats t one hd body ∧ one.length ≤ u64Max ∧ isPush t = false ∧
      ∀ rest, replyHead floats (flat ending) (behind (bytes ++ rest)) =
        (.ok hd, behind (body ++ rest)) := by
  obtain ⟨hsmall, pushes, t, hpushes, ht, hencodes⟩ := h
  induction pushes generalizing bytes with
  | nil =>
    obtain ⟨one, others, hd, body, rfl, hothers, hopens⟩ := first_of_encodes ending hencodes hsmall rfl
    cases hothers
    rw [append_nil] at hsmall
    refine ⟨t, one, hd, body, hopens, hsmall, ht, fun rest => ?_⟩
    rw [append_nil]
    refine replyHead_of_head (hopens.head rest) ?_
    -- the head of a push is a push's
    rintro len rfl
    cases hopens.opened with
    | scalar hreads => exact HeadReads.not_aggregate hreads
    | aggregate => cases ht
  | cons p pushes ih =>
    obtain ⟨one, others, hd, body, rfl, hothers, hopens⟩ := first_of_encodes ending hencodes hsmall rfl
    obtain ⟨items, rfl⟩ := eq_of_isPush (hpushes p mem_cons_self)
    rw [length_append] at hsmall
    obtain ⟨t', one', hd', body', hopens', hsmall', ht', hhead⟩ :=
      ih (by omega) (fun q hq => hpushes q (mem_cons_of_mem _ hq)) hothers
    refine ⟨t', one', hd', body', hopens', hsmall', ht', fun rest => ?_⟩
    rw [append_assoc, ← hhead rest]
    exact replyHead_of_push hopens (by omega) (others ++ rest)

end

end Oxyn.Redis
