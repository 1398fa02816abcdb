/-
# `Oxyn.Redis.Framing` — one value at a time

Read from a stream of encoded values, each request consumes the bytes of its values and no others.
-/
import Oxyn.Redis.Buffers
import Oxyn.Redis.Encoding

namespace Oxyn.Resp

open List
open Scan (bind_ok)

/-! ## Texts, read back -/

variable {digits : Bytes}

theorem length_of_counts {n : Nat} (h : Counts n digits) (hn : n ≤ u64Max) :
    length digits = .ok (some n) := by
  obtain ⟨hdigits, rfl⟩ := h
  unfold length
  have hmark : digits ≠ [63] := by
    rintro rfl
    cases hdigits
  have hminus : digits ≠ [45, 49] := by
    rintro rfl
    cases hdigits
  rw [if_neg hmark, if_neg hminus, if_neg (by simp [hdigits]), if_neg (Nat.not_lt.mpr hn)]

theorem requiredLength_of_counts {n : Nat} (h : Counts n digits)
    (hn : n ≤ u64Max) : requiredLength digits = .ok n := by
  unfold requiredLength
  rw [length_of_counts h hn]

variable {b : UInt8}

theorem digits_head {rest : Bytes} (h : isDigits (b :: rest) = true) :
    isDigit b = true := by
  simp only [isDigits, isEmpty_cons, Bool.not_false, Bool.true_and, all_cons,
    Bool.and_eq_true] at h
  exact h.1

theorem stripPlus_of_ne {rest : Bytes} (h : b ≠ 43) :
    stripPlus (b :: rest) = b :: rest := by
  unfold stripPlus
  split
  next heq =>
    cases heq
    exact absurd rfl h
  next => rfl

theorem parseI64_of_digits (h : isDigits digits = true)
    (hlt : decimal digits < 2 ^ 63) : parseI64 digits = some (decimal digits : Int) := by
  unfold parseI64
  split
  next =>
    have hminus := digits_head h
    cases hminus
  next => rw [if_pos (Bool.and_eq_true_iff.mpr ⟨h, decide_eq_true hlt⟩)]

variable {text : Bytes}

theorem parseInteger_of_text {n : Int} (h : IntegerText n text) :
    parseInteger text = .ok n := by
  unfold parseInteger
  cases h with
  | plain hdigits hlt =>
    rcases text with _ | ⟨b, rest⟩
    · cases hdigits
    · have hb : b ≠ 43 := by
        rintro rfl
        cases digits_head hdigits
      rw [stripPlus_of_ne hb, parseI64_of_digits hdigits hlt]
  | plus hdigits hlt =>
    rw [stripPlus, parseI64_of_digits hdigits hlt]
  | minus hdigits hle =>
    rw [stripPlus_of_ne (by decide), parseI64,
      if_pos (Bool.and_eq_true_iff.mpr ⟨hdigits, decide_eq_true hle⟩)]

theorem inDouble_lt (h : inDouble b = true) : b.toNat < 0x80 := by
  simp only [inDouble, isDigit, Bool.or_eq_true, Bool.and_eq_true, decide_eq_true_eq,
    beq_iff_eq] at h
  rcases h with ((((⟨-, h⟩ | rfl) | rfl) | rfl) | rfl) | rfl
  · exact Nat.lt_of_le_of_lt (UInt8.le_iff_toNat_le.mp h) (by decide)
  all_goals decide

theorem isUtf8_of_ascii (h : ∀ b ∈ text, b.toNat < 0x80) : isUtf8 text = true := by
  have hmap : Text.fromUtf8Lossy text = text.map fun b => Char.ofNat b.toNat := by
    unfold Text.fromUtf8Lossy
    induction text with
    | nil => rfl
    | cons b rest ih =>
      rw [Text.lossyFrom, if_pos (h b mem_cons_self), map_cons,
        ih fun c hc => h c (mem_cons_of_mem _ hc)]
  have hback : Text.bytes (Text.fromUtf8Lossy text) = text := by
    refine Text.bytes_fromUtf8Lossy fun c hc => ?_
    rw [hmap] at hc
    obtain ⟨b, hb, rfl⟩ := mem_map.mp hc
    rw [Text.toNat_ofNat_of_range (.inl (Nat.lt_trans (h b hb) (by decide)))]
    exact h b hb
  simp [isUtf8, hback]

theorem parseDouble_of_text {F : Type} {floats : Floats F} {x : F}
    (h : DoubleText floats x text) : parseDouble floats text = .ok x := by
  unfold parseDouble
  cases h with
  | inf => rfl
  | plusInf => rfl
  | minusInf => rfl
  | nan => rfl
  | minusNan => rfl
  | number hne hall hparse =>
    have hutf8 : isUtf8 text = true :=
      isUtf8_of_ascii fun b hb => inDouble_lt (all_eq_true.mp hall b hb)
    -- a number has no letter of `inf` and `nan`
    have hword : ∀ word : Bytes, word.all inDouble = false → text ≠ word := by
      rintro word hword rfl
      exact absurd (hall.symm.trans hword) (by decide)
    simp [hutf8, hword [105, 110, 102] (by decide), hword [43, 105, 110, 102] (by decide),
      hword [45, 105, 110, 102] (by decide), hword [110, 97, 110] (by decide),
      hword [45, 110, 97, 110] (by decide), hne, hall, hparse]

/-! ## What a budget leaves of a tree -/

section

variable {F : Type}

/-- What is kept of a tree, an aggregate as `nested` says; and the budget left. -/
def pruned (nested : Aggregate → List (Tree F) → Nat → Value F × Nat) (budget : Nat) :
    Tree F → Value F × Nat
  | .null => (.null, budget)
  | .simple text => (.simple text, budget - text.length)
  | .error text => (.error text, budget - text.length)
  | .bulkError text =>
    (.error (text.take (min budget maxLine)), budget - (text.take (min budget maxLine)).length)
  | .integer n => (.integer n, budget)
  | .double x => (.double x, budget)
  | .boolean b => (.boolean b, budget)
  | .bigNumber digits => (.bigNumber digits, budget - digits.length)
  | .bulk text => (.bulk ⟨text.take budget, text.length⟩, budget - (text.take budget).length)
  | .verbatim format text =>
    (.verbatim format ⟨text.take (min (budget + 4) u64Max - 4), text.length⟩,
      budget - ((text.take (min (budget + 4) u64Max - 4)).length + 4))
  | .aggregate kind items => nested kind items budget

def prunedItems (read : Tree F → Nat → Value F × Nat) (kind : Aggregate) :
    List (Tree F) → Nat → List (Value F) × Nat
  | [], budget => ([], budget)
  | t :: ts, budget =>
    if budget = 0 then ([.elided kind (ts.length + 1)], budget)
    else
      let one := read t budget
      let others := prunedItems read kind ts one.2
      (one.1 :: others.1, others.2)

def prunedPairs (read : Tree F → Nat → Value F × Nat) :
    List (Tree F) → Nat → List (Value F × Value F) × Nat
  | t :: t' :: ts, budget =>
    if budget = 0 then ([(.elided .map (ts.length / 2 + 1), .null)], budget)
    else
      let key := read t budget
      let value := read t' key.2
      let others := prunedPairs read ts value.2
      ((key.1, value.1) :: others.1, others.2)
  | _, budget => ([], budget)

def prunedAggregate (read : Tree F → Nat → Value F × Nat) (kind : Aggregate)
    (items : List (Tree F)) (budget : Nat) : Value F × Nat :=
  if kind = .map then
    let pairs := prunedPairs read items budget
    (.map pairs.1, pairs.2)
  else
    let values := prunedItems read kind items budget
    (.list kind values.1, values.2)

def prunedWhole (kind : Aggregate) (items : List (Tree F)) (budget : Nat) : Value F × Nat :=
  (.elided kind (items.length / kind.arity), budget)

def prune (cost : Nat) : Nat → Tree F → Nat → Value F × Nat
  | 0, t, budget =>
    let kept := pruned prunedWhole budget t
    (kept.1, kept.2 - cost)
  | room + 1, t, budget =>
    let kept := pruned (fun kind items budget =>
      if budget = 0 then prunedWhole kind items budget
      else prunedAggregate (prune cost room) kind items budget) budget t
    (kept.1, kept.2 - cost)

end

/-! ## The primitives -/

/-- The stream with these bytes left. -/
def behind (rest : Bytes) : Flat := ⟨rest, false⟩

theorem splitLine_line {line : Bytes} (h : 10 ∉ line) (rest : Bytes) :
    splitLine (line ++ [13, 10] ++ rest) = some (line ++ [13], rest) := by
  have hnone : splitLine (line ++ [13]) = none := by
    induction line with
    | nil => rfl
    | cons b line ih =>
      have hb : b ≠ 10 := fun heq => h (heq ▸ mem_cons_self)
      rw [cons_append, splitLine, if_neg hb,
        ih fun hmem => h (mem_cons_of_mem _ hmem)]
      rfl
  have hsplit := splitLine_append_none hnone (10 :: rest)
  rw [splitLine, if_pos rfl, Option.map_some, append_nil] at hsplit
  simpa using hsplit

section

variable {F : Type} {floats : Floats F} (ending : Ending)

theorem flat_line {line : Bytes} (h : Line line) (rest : Bytes) :
    (flat ending).line (behind (line ++ [13, 10] ++ rest)) = (.ok line, behind rest) := by
  have hlen : (line ++ [13]).length ≤ maxLine := by
    have hshort := h.2
    simp only [length_append, length_cons, length_nil]
    omega
  show flatLine ending [] (behind (line ++ [13, 10] ++ rest)) = _
  unfold flatLine behind
  simp only [splitLine_line h.1, nil_append, Bool.false_or]
  rw [finishLine, if_neg (by omega), getLast?_concat, if_pos rfl, dropLast_concat,
    beq_false_of_ne (by omega)]

theorem flat_bulk (text : Bytes) (keep : Nat) (rest : Bytes) :
    bulk (flat ending) text.length keep (behind (text ++ [13, 10] ++ rest)) =
      (.ok ⟨text.take keep, text.length⟩, behind rest) := by
  have hpayload : (flat ending).payload text.length (min text.length keep)
      (behind (text ++ [13, 10] ++ rest)) = (.ok (text.take keep), behind (13 :: 10 :: rest)) := by
    show flatPayload ending (min text.length keep) [] text.length _ = _
    unfold flatPayload behind
    simp only [append_assoc, length_append, Nat.le_add_right, if_pos, take_left',
      drop_left', nil_append, length_nil, Nat.sub_zero]
    rw [Nat.min_comm, ← take_take, take_length]
    rfl
  show ((flat ending).payload text.length (min text.length keep) >>= _) _ = _
  rw [bind_ok hpayload]
  rfl

structure HeadReads (t : Tree F) (h : Head F) (payload : Bytes) : Prop where
  keep : ∀ nested nested' budget rest, keep (flat ending) nested budget h (behind (payload ++ rest)) =
    (.ok (pruned nested' budget t), behind rest)
  skip : ∀ pending rest, skipHead (flat ending) pending (.head h) (behind (payload ++ rest)) =
    (.ok pending, behind rest)

theorem skip_bulk {text : Bytes} (pending : Nat) (rest : Bytes) :
    (do
      let _ ← bulk (flat ending) text.length 0
      pure pending) (behind (text ++ [13, 10] ++ rest)) = (.ok pending, behind rest) := by
  rw [bind_ok (flat_bulk ending text 0 rest)]
  rfl

variable {t : Tree F}

theorem headReads_of_line {h : Head F}
    (hkeep : ∀ nested nested' budget s, Resp.keep (flat ending) nested budget h s =
      (.ok (pruned nested' budget t), s))
    (hskip : ∀ pending s, skipHead (flat ending) pending (.head h) s = (.ok pending, s)) :
    HeadReads ending t h [] where
  keep nested nested' budget rest := hkeep nested nested' budget (behind rest)
  skip pending rest := hskip pending (behind rest)

theorem scalar_reads {line payload : Bytes} (ht : Scalar floats t line payload)
    (hlen : payload.length ≤ u64Max) :
    ∃ h, lineHead floats line = .ok (.head h) ∧ HeadReads ending t h payload := by
  cases ht with
  | null | nullBulk | nullArray =>
    exact ⟨.null, rfl, headReads_of_line ending (fun _ _ _ _ => rfl) fun _ _ => rfl⟩
  | simple text =>
    exact ⟨.simple text, rfl, headReads_of_line ending (fun _ _ _ _ => rfl) fun _ _ => rfl⟩
  | error text =>
    exact ⟨.error text, rfl, headReads_of_line ending (fun _ _ _ _ => rfl) fun _ _ => rfl⟩
  | integer hn =>
    refine ⟨.integer _, ?_, headReads_of_line ending (fun _ _ _ _ => rfl) fun _ _ => rfl⟩
    show (parseInteger _).map _ = _
    rw [parseInteger_of_text hn]
    rfl
  | double hx =>
    refine ⟨.double _, ?_, headReads_of_line ending (fun _ _ _ _ => rfl) fun _ _ => rfl⟩
    show (parseDouble floats _).map _ = _
    rw [parseDouble_of_text hx]
    rfl
  | boolean b =>
    refine ⟨.boolean b, ?_, headReads_of_line ending (fun _ _ _ _ => rfl) fun _ _ => rfl⟩
    cases b with
    | true => rfl
    | false => rfl
  | @bigNumber text hdigits =>
    refine ⟨.bigNumber text, ?_, headReads_of_line ending (fun _ _ _ _ => rfl) fun _ _ => rfl⟩
    show (parseBigNumber text).map _ = _
    rw [parseBigNumber, if_pos hdigits]
    rfl
  | @bulk text digits hcounts =>
    have hn : text.length ≤ u64Max := by
      rw [length_append] at hlen
      omega
    refine ⟨.bulk text.length, ?_, ?_, ?_⟩
    · show orNull (length digits) .bulk = _
      rw [length_of_counts hcounts hn]
      rfl
    · intro nested nested' budget rest
      show (bulk (flat ending) text.length budget >>= _) _ = _
      rw [bind_ok (flat_bulk ending text budget rest)]
      rfl
    · exact fun pending rest => skip_bulk ending pending rest
  | @bulkError text digits hcounts =>
    have hn : text.length ≤ u64Max := by
      rw [length_append] at hlen
      omega
    refine ⟨.bulkError text.length, ?_, ?_, ?_⟩
    · simp [lineHead, headOf, length_of_counts hcounts hn]
    · intro nested nested' budget rest
      show (bulk (flat ending) text.length (min budget maxLine) >>= _) _ = _
      rw [bind_ok (flat_bulk ending text (min budget maxLine) rest)]
      rfl
    · exact fun pending rest => skip_bulk ending pending rest
  | @verbatim a b c text digits hcounts =>
    have hn : text.length + 4 ≤ u64Max := by
      simp only [length_append, length_cons] at hlen
      omega
    have hwhole : (a :: b :: c :: 58 :: text).length = text.length + 4 := rfl
    refine ⟨.verbatim (text.length + 4), ?_, ?_, ?_⟩
    · simp [lineHead, headOf, length_of_counts hcounts hn]
    · intro nested nested' budget rest
      have hbulk := flat_bulk ending (a :: b :: c :: 58 :: text) (min (budget + 4) u64Max) rest
      rw [hwhole] at hbulk
      show (bulk (flat ending) (text.length + 4) (min (budget + 4) u64Max) >>= _) _ = _
      rw [bind_ok hbulk]
      -- the format and its colon are within what is kept
      obtain ⟨n, hkept⟩ : ∃ n, min (budget + 4) u64Max = n + 4 := by
        refine ⟨min (budget + 4) u64Max - 4, ?_⟩
        have hmax : 4 ≤ u64Max := by decide
        omega
      rw [hkept]
      simp only [take_succ_cons, pruned, hkept, Nat.add_sub_cancel]
      rfl
    · intro pending rest
      have hskip := @skip_bulk ending (a :: b :: c :: 58 :: text) pending rest
      exact hskip

/-! ## One value, and the others behind it -/

def readOne (floats : Floats F) (cost room budget : Nat) : Scan Flat WireError (Value F × Nat) := do
  let h ← head floats (flat ending)
  element floats (flat ending) cost room h budget

structure ReadsOne (floats : Floats F) (t : Tree F) (bytes : Bytes) : Prop where
  pos : 0 < bytes.length
  read : bytes.length ≤ u64Max → ∀ cost room budget rest,
    readOne ending floats cost room budget (behind (bytes ++ rest)) =
      (.ok (prune cost room t budget), behind rest)
  skip : ∀ pending rest, pending + bytes.length ≤ u64Max →
    skip floats (flat ending) (pending + 1) (behind (bytes ++ rest)) =
      skip floats (flat ending) pending (behind rest)

def ReadAll (floats : Floats F) : List (Tree F) → Bytes → Prop
  | [], bytes => bytes = []
  | t :: ts, bytes => ∃ one others, bytes = one ++ others ∧ ReadsOne ending floats t one ∧
      ReadAll floats ts others

variable {ts : List (Tree F)}

variable {bytes : Bytes}

theorem ReadAll.length_le (h : ReadAll ending floats ts bytes) : ts.length ≤ bytes.length := by
  induction ts generalizing bytes with
  | nil => exact Nat.zero_le _
  | cons t ts ih =>
    obtain ⟨one, others, rfl, hone, hothers⟩ := h
    have hpos := hone.pos
    have hle := ih hothers
    rw [length_append, length_cons]
    omega

theorem skip_zero {σ : Type} (src : Source σ) (s : σ) : skip floats src 0 s = (.ok (), s) :=
  Scan.loop_leave rfl

theorem skip_turn {σ : Type} {src : Source σ} {pending left : Nat} {raw : RawHead F}
    {s s' s'' : σ} (hraw : rawHead floats src s = (.ok raw, s'))
    (hskip : skipHead src pending raw s' = (.ok left, s'')) :
    skip floats src (pending + 1) s = skip floats src left s'' := by
  refine Scan.loop_turn ?_
  show (rawHead floats src >>= fun raw => skipHead src pending raw >>= _) s = _
  rw [bind_ok hraw, bind_ok hskip]
  rfl

theorem ReadAll.skip (h : ReadAll ending floats ts bytes)
    (pending : Nat) (rest : Bytes) (hlen : pending + bytes.length ≤ u64Max) :
    skip floats (flat ending) (pending + ts.length) (behind (bytes ++ rest)) =
      skip floats (flat ending) pending (behind rest) := by
  induction ts generalizing bytes with
  | nil =>
    subst h
    rfl
  | cons t ts ih =>
    obtain ⟨one, others, rfl, hone, hothers⟩ := h
    have hle := hothers.length_le
    rw [length_append] at hlen
    rw [length_cons, ← Nat.add_assoc, append_assoc,
      hone.skip (pending + ts.length) (others ++ rest) (by omega)]
    exact ih hothers (by omega)

theorem ReadAll.skip_all (h : ReadAll ending floats ts bytes)
    (rest : Bytes) (hlen : bytes.length ≤ u64Max) :
    Resp.skip floats (flat ending) ts.length (behind (bytes ++ rest)) =
      (.ok (), behind rest) := by
  have hskip := h.skip ending 0 rest (by omega)
  rw [Nat.zero_add] at hskip
  rw [hskip, skip_zero]

/-! ### Values that hold no others -/

theorem readsOne_of_scalar {line payload : Bytes}
    (ht : Scalar floats t line payload) (hline : Line line) :
    ReadsOne ending floats t (line ++ [13, 10] ++ payload) where
  pos := by
    simp only [length_append, length_cons]
    omega
  read hlen cost room budget rest := by
    rw [length_append] at hlen
    obtain ⟨h, hhead, hreads⟩ := scalar_reads ending ht (by omega)
    have hfirst : head floats (flat ending) (behind (line ++ [13, 10] ++ payload ++ rest)) =
        (.ok h, behind (payload ++ rest)) := by
      rw [append_assoc]
      exact head_of_line (flat_line ending hline (payload ++ rest)) hhead
    show (head floats (flat ending) >>= _) _ = _
    rw [bind_ok hfirst]
    cases room with
    | zero =>
      show (Resp.keep (flat ending) _ budget h >>= _) _ = _
      rw [bind_ok (hreads.keep _ prunedWhole budget rest)]
      rfl
    | succ room =>
      show (Resp.keep (flat ending) _ budget h >>= _) _ = _
      rw [bind_ok (hreads.keep _ (fun kind items budget =>
        if budget = 0 then prunedWhole kind items budget
        else prunedAggregate (prune cost room) kind items budget) budget rest)]
      rfl
  skip pending rest hlen := by
    rw [length_append] at hlen
    obtain ⟨h, hhead, hreads⟩ := scalar_reads ending ht (by omega)
    rw [append_assoc]
    exact skip_turn (rawHead_of_line (flat_line ending hline (payload ++ rest)) hhead)
      (hreads.skip pending rest)

/-! ### Attributes -/

variable {n : Nat}

theorem rawHead_attribute (hcounts : Counts n digits)
    (hline : Line (124 :: digits)) (hn : n ≤ u64Max) (rest : Bytes) :
    rawHead floats (flat ending) (behind (124 :: digits ++ [13, 10] ++ rest)) =
      (.ok (.attribute n), behind rest) := by
  refine rawHead_of_line (flat_line ending hline rest) ?_
  show (requiredLength digits).map RawHead.attribute = _
  rw [requiredLength_of_counts hcounts hn]
  rfl

theorem elements_map (h : 2 * n ≤ u64Max) :
    Aggregate.elements .map n = .ok (2 * n) := by
  rw [Aggregate.elements, if_pos rfl, if_neg (Nat.not_lt.mpr h)]

theorem head_attribute {attributes : List (Tree F)} {digits inner : Bytes}
    (hcounts : Counts n digits) (hline : Line (124 :: digits)) (hlen : attributes.length = 2 * n)
    (hall : ReadAll ending floats attributes inner) (hsmall : inner.length ≤ u64Max)
    (rest : Bytes) :
    head floats (flat ending) (behind (124 :: digits ++ [13, 10] ++ inner ++ rest)) =
      head floats (flat ending) (behind rest) := by
  have hle := hall.length_le
  refine Scan.loop_turn ?_
  have hraw : rawHead floats (flat ending) (behind (124 :: digits ++ [13, 10] ++ (inner ++ rest))) =
      (.ok (.attribute n), behind (inner ++ rest)) :=
    rawHead_attribute ending hcounts hline (by omega) (inner ++ rest)
  rw [← append_assoc] at hraw
  show (rawHead floats (flat ending) >>= _) _ = _
  rw [bind_ok hraw]
  show (Scan.answer (Aggregate.elements .map n) >>= fun pairs => skip floats (flat ending) pairs >>=
    fun _ => _) _ = _
  rw [elements_map (by omega), ← hlen, bind_ok (Scan.answer_run (.ok attributes.length) _),
    bind_ok (hall.skip_all ending rest hsmall)]
  rfl

theorem readsOne_of_attribute {attributes : List (Tree F)} {digits inner one : Bytes}
    (hcounts : Counts n digits) (hline : Line (124 :: digits))
    (hlen : attributes.length = 2 * n) (hall : ReadAll ending floats attributes inner)
    (hone : ReadsOne ending floats t one) :
    ReadsOne ending floats t (124 :: digits ++ [13, 10] ++ inner ++ one) where
  pos := by
    simp only [length_append, length_cons]
    omega
  read hsmall cost room budget rest := by
    simp only [length_append] at hsmall
    have hhead : head floats (flat ending)
        (behind (124 :: digits ++ [13, 10] ++ inner ++ (one ++ rest))) =
          head floats (flat ending) (behind (one ++ rest)) :=
      head_attribute ending hcounts hline hlen hall (by omega) (one ++ rest)
    rw [append_assoc, ← hone.read (by omega) cost room budget rest]
    exact Scan.bind_congr hhead
  skip pending rest hsmall := by
    simp only [length_append] at hsmall
    have hle := hall.length_le
    have hpos := hone.pos
    have hraw : rawHead floats (flat ending)
        (behind (124 :: digits ++ [13, 10] ++ (inner ++ (one ++ rest)))) =
          (.ok (.attribute n), behind (inner ++ (one ++ rest))) :=
      rawHead_attribute ending hcounts hline (by omega) _
    have hpending : behindAttribute pending n = .ok (pending + 1 + attributes.length) := by
      show (Aggregate.elements .map n >>= _) = _
      rw [elements_map (by omega)]
      show (if u64Max < pending + 2 * n + 1 then _ else _) = _
      rw [if_neg (by omega), hlen]
      congr 1
      omega
    have hskip : skipHead (F := F) (flat ending) pending (.attribute n)
        (behind (inner ++ (one ++ rest))) =
          (.ok (pending + 1 + attributes.length), behind (inner ++ (one ++ rest))) := by
      show (behindAttribute pending n, _) = _
      rw [hpending]
    rw [append_assoc, append_assoc, skip_turn hraw hskip,
      hall.skip ending (pending + 1) (one ++ rest) (by omega)]
    exact hone.skip pending rest (by omega)

/-! ### Aggregates -/

section

variable {read : Tree F → Nat → Value F × Nat} {readHere : Nat → Scan Flat WireError (Value F × Nat)}

variable {ts : List (Tree F)}

variable {bytes : Bytes}

theorem items_of_readAll (kind : Aggregate)
    (hall : ReadAll ending floats ts bytes) (hsmall : bytes.length ≤ u64Max)
    (hread : ∀ t one, ReadsOne ending floats t one → one.length ≤ u64Max → ∀ budget rest,
      readHere budget (behind (one ++ rest)) = (.ok (read t budget), behind rest))
    (budget : Nat) (rest : Bytes) :
    items floats (flat ending) readHere kind ts.length budget (behind (bytes ++ rest)) =
      (.ok (prunedItems read kind ts budget), behind rest) := by
  induction ts generalizing bytes budget with
  | nil =>
    subst hall
    rfl
  | cons t ts ih =>
    rw [length_cons, items, prunedItems]
    by_cases hzero : budget = 0
    · have hskip : skip floats (flat ending) (ts.length + 1) (behind (bytes ++ rest)) =
          (.ok (), behind rest) := hall.skip_all ending rest hsmall
      rw [if_pos hzero, if_pos hzero, bind_ok hskip]
      rfl
    · obtain ⟨one, others, rfl, hone, hothers⟩ := hall
      rw [length_append] at hsmall
      rw [if_neg hzero, if_neg hzero, append_assoc,
        bind_ok (hread t one hone (by omega) budget (others ++ rest)),
        bind_ok (ih hothers (by omega) (read t budget).2)]
      rfl

variable {len : Nat}

theorem pairs_of_readAll (hlen : ts.length = 2 * len) (hall : ReadAll ending floats ts bytes)
    (hsmall : bytes.length ≤ u64Max)
    (hread : ∀ t one, ReadsOne ending floats t one → one.length ≤ u64Max → ∀ budget rest,
      readHere budget (behind (one ++ rest)) = (.ok (read t budget), behind rest))
    (budget : Nat) (rest : Bytes) :
    pairs floats (flat ending) readHere len budget (behind (bytes ++ rest)) =
      (.ok (prunedPairs read ts budget), behind rest) := by
  induction len generalizing ts bytes budget with
  | zero =>
    have hnil := length_eq_zero_iff.mp hlen
    subst hnil hall
    rfl
  | succ len ih =>
    match ts, hlen with
    | t :: t' :: ts, hlen =>
      simp only [length_cons] at hlen
      have hcount : ts.length = 2 * len := by omega
      have hle := hall.length_le
      simp only [length_cons] at hle
      rw [pairs, prunedPairs]
      by_cases hzero : budget = 0
      · have hskip := hall.skip_all ending rest hsmall
        have hall : (t :: t' :: ts).length = 2 * (len + 1) := by
          simp only [length_cons]
          omega
        have hdiv : ts.length / 2 + 1 = len + 1 := by omega
        rw [hall] at hskip
        rw [if_pos hzero, if_pos hzero, elements_map (by omega),
          bind_ok (Scan.answer_run (.ok (2 * (len + 1))) _), bind_ok hskip, hdiv]
        rfl
      · obtain ⟨one, others, rfl, hone, two, others', rfl, htwo, hothers⟩ := hall
        simp only [length_append] at hsmall
        rw [if_neg hzero, if_neg hzero, append_assoc,
          bind_ok (hread t one hone (by omega) budget _), append_assoc,
          bind_ok (hread t' two htwo (by omega) _ _),
          bind_ok (ih hcount hothers (by omega) _)]
        rfl

variable {kind : Aggregate}

theorem elements_of_length (h : n = kind.arity * len)
    (hn : n ≤ u64Max) : kind.elements len = .ok n := by
  subst h
  cases kind with
  | map => exact elements_map hn
  | array | set | push => rw [Aggregate.elements, if_neg nofun, Aggregate.arity, Nat.one_mul]; simp

theorem elide_of_readAll
    (hlen : ts.length = kind.arity * len) (hall : ReadAll ending floats ts bytes)
    (hsmall : bytes.length ≤ u64Max) (budget : Nat) (rest : Bytes) :
    elide floats (flat ending) kind len budget (behind (bytes ++ rest)) =
      (.ok (prunedWhole kind ts budget), behind rest) := by
  have hle := hall.length_le
  have hdiv : ts.length / kind.arity = len := by
    rw [hlen]
    exact Nat.mul_div_cancel_left len (by cases kind <;> decide)
  unfold elide prunedWhole
  rw [elements_of_length hlen (by omega), hdiv, bind_ok (Scan.answer_run (.ok ts.length) _),
    bind_ok (hall.skip_all ending rest hsmall)]
  rfl

theorem aggregate_of_readAll
    (hlen : ts.length = kind.arity * len) (hall : ReadAll ending floats ts bytes)
    (hsmall : bytes.length ≤ u64Max)
    (hread : ∀ t one, ReadsOne ending floats t one → one.length ≤ u64Max → ∀ budget rest,
      readHere budget (behind (one ++ rest)) = (.ok (read t budget), behind rest))
    (budget : Nat) (rest : Bytes) :
    aggregate floats (flat ending) readHere kind len budget (behind (bytes ++ rest)) =
      (.ok (prunedAggregate read kind ts budget), behind rest) := by
  unfold aggregate prunedAggregate
  by_cases hkind : kind = .map
  · subst hkind
    rw [if_pos rfl, if_pos rfl,
      bind_ok (pairs_of_readAll ending hlen hall hsmall hread budget rest)]
    rfl
  · have hone : ts.length = len := by
      rw [hlen]
      cases kind with
      | map => exact absurd rfl hkind
      | array | set | push => exact Nat.one_mul len
    rw [if_neg hkind, if_neg hkind, ← hone,
      bind_ok (items_of_readAll ending kind hall hsmall hread budget rest)]
    rfl

end

variable {kind : Aggregate}

theorem marker_head {len : Nat} (hcounts : Counts len digits)
    (hlen : len ≤ u64Max) :
    lineHead floats (kind.marker :: digits) = .ok (.head (.aggregate kind len)) := by
  cases kind with
  | array =>
    show orNull (length digits) (.aggregate .array) = _
    rw [length_of_counts hcounts hlen]
    rfl
  | set | map | push =>
    show (requiredLength digits).map _ = _
    rw [requiredLength_of_counts hcounts hlen]
    rfl

theorem arity_le {n len : Nat} (h : n = kind.arity * len) : len ≤ n := by
  subst h
  exact Nat.le_mul_of_pos_left len (by cases kind <;> decide)

theorem readsOne_of_aggregate {len : Nat}
    {digits inner : Bytes} (hcounts : Counts len digits) (hline : Line (kind.marker :: digits))
    (hlen : ts.length = kind.arity * len) (hall : ReadAll ending floats ts inner) :
    ReadsOne ending floats (.aggregate kind ts) (kind.marker :: digits ++ [13, 10] ++ inner) where
  pos := by
    simp only [length_append, length_cons]
    omega
  read hsmall cost room budget rest := by
    simp only [length_append] at hsmall
    have hle := hall.length_le
    have hlen' := arity_le hlen
    have hhead : head floats (flat ending)
        (behind (kind.marker :: digits ++ [13, 10] ++ inner ++ rest)) =
          (.ok (.aggregate kind len), behind (inner ++ rest)) := by
      rw [append_assoc]
      exact head_of_line (flat_line ending hline (inner ++ rest))
        (marker_head hcounts (by omega))
    show (head floats (flat ending) >>= _) _ = _
    rw [bind_ok hhead]
    have helide := fun budget =>
      elide_of_readAll ending hlen hall (by omega) budget rest
    cases room with
    | zero =>
      show (elide floats (flat ending) kind len budget >>= _) _ = _
      rw [bind_ok (helide budget)]
      rfl
    | succ room =>
      show ((if budget = 0 then elide floats (flat ending) kind len budget
        else aggregate floats (flat ending) (readOne ending floats cost room) kind len budget)
          >>= _) _ = _
      rw [prune, pruned]
      by_cases hzero : budget = 0
      · simp only [if_pos hzero]
        rw [bind_ok (helide budget)]
        rfl
      · simp only [if_neg hzero]
        have hread : ∀ t one, ReadsOne ending floats t one → one.length ≤ u64Max →
            ∀ budget rest, readOne ending floats cost room budget (behind (one ++ rest)) =
              (.ok (prune cost room t budget), behind rest) :=
          fun t one hone hsmall budget rest => hone.read hsmall cost room budget rest
        rw [bind_ok (aggregate_of_readAll ending hlen hall (by omega) hread budget rest)]
        rfl
  skip pending rest hsmall := by
    simp only [length_append, length_cons] at hsmall
    have hle := hall.length_le
    have hlen' := arity_le hlen
    have hraw : rawHead floats (flat ending)
        (behind (kind.marker :: digits ++ [13, 10] ++ (inner ++ rest))) =
          (.ok (.head (.aggregate kind len)), behind (inner ++ rest)) :=
      rawHead_of_line (flat_line ending hline (inner ++ rest)) (marker_head hcounts (by omega))
    have hpending : behindAggregate pending kind len = .ok (pending + ts.length) := by
      show (kind.elements len >>= _) = _
      rw [elements_of_length hlen (by omega)]
      show (if u64Max < pending + ts.length then _ else _) = _
      rw [if_neg (by omega)]
    have hskip : skipHead (F := F) (flat ending) pending (.head (.aggregate kind len))
        (behind (inner ++ rest)) = (.ok (pending + ts.length), behind (inner ++ rest)) := by
      show (behindAggregate pending kind len, _) = _
      rw [hpending]
    rw [append_assoc, skip_turn hraw hskip]
    exact hall.skip ending pending rest (by omega)

/-! ### Every encoding -/

/-- Whatever it holds, what is written is read value by value. -/
theorem readAll_of_encodes (h : Encodes floats ts bytes) :
    ReadAll ending floats ts bytes := by
  induction h with
  | nil => rfl
  | scalar ht hline _ ih => exact ⟨_, _, rfl, readsOne_of_scalar ending ht hline, ih⟩
  | annotated hcounts hline hlen _ _ ihinner ihrest =>
    obtain ⟨one, others, rfl, hone, hothers⟩ := ihrest
    refine ⟨_, others, (append_assoc ..).symm, ?_, hothers⟩
    exact readsOne_of_attribute ending hcounts hline hlen ihinner hone
  | aggregate hcounts hline hlen _ _ ihinner ihrest =>
    exact ⟨_, _, rfl, readsOne_of_aggregate ending hcounts hline hlen ihinner, ihrest⟩

end

end Oxyn.Resp
