/-
# `Oxyn.ClickHouse.Reread` — a printed type read back

`parse` gives a printed type back, its texts as they slip (`parse_prints`), by induction on the
type.
-/
import Oxyn.ClickHouse.Arguments

namespace Oxyn.ClickHouse

open Text List

namespace ServerType

open Oxyn.ClickHouse.Parser

/-! ## What is built -/

/-- Is a name bare, and does it begin with a letter? -/
def isTypeName (name : Str) : Bool :=
  name.all isWordChar && name.head?.any fun c => c.isAlpha && !c.isDigit

variable {name : Str}

theorem bare_of_isTypeName (h : isTypeName name = true) :
    Bare name ∧ name.head?.any Char.isAlpha = true := by
  obtain ⟨hall, hhead⟩ := Bool.and_eq_true_iff.mp h
  cases name with
  | nil => cases hhead
  | cons c name =>
    obtain ⟨halpha, hdigit⟩ :=
      Bool.and_eq_true_iff.mp (show (c.isAlpha && !c.isDigit) = true from hhead)
    exact ⟨⟨all_eq_true.mp hall, hdigit⟩, halpha⟩

/-- A text that begins with the name of a type, and ends with no blank. -/
structure Printed (s : Str) : Prop where
  named : Named s
  alpha : s.head?.any Char.isAlpha = true
  last : ∀ c ∈ s.getLast?, isWhitespace c = false

theorem printed_name (h : isTypeName name = true) : Printed name := by
  obtain ⟨hbare, halpha⟩ := bare_of_isTypeName h
  refine ⟨⟨name, [], (append_nil name).symm, hbare, .inl rfl⟩, halpha, fun c hc => ?_⟩
  exact not_isWhitespace_of_isWordChar (hbare.1 c (mem_of_getLast? hc))

theorem printed_paren (h : isTypeName name = true) (t : Str) :
    Printed (name ++ ('(' :: (t ++ [')']))) := by
  obtain ⟨hbare, halpha⟩ := bare_of_isTypeName h
  refine ⟨⟨name, _, rfl, hbare, .inr rfl⟩, ?_, ?_⟩
  · rw [head?_append_of_ne_nil _ hbare.ne_nil]
    exact halpha
  · rw [← cons_append, ← append_assoc, getLast?_concat]
    rintro c ⟨⟩
    decide

theorem build_simple (h : (ChType.simple name).isSome = true) :
    isTypeName name = true ∧ ChType.build name [] = (ChType.simple name).getD .nothing := by
  obtain ⟨ty, hty⟩ := Option.isSome_iff_exists.mp h
  obtain ⟨entry, hfind, -⟩ := Option.map_eq_some_iff.mp hty
  have hall : ∀ name ∈ ChType.simpleTypes.map Prod.fst, isTypeName name = true := by decide
  have hsome := find?_some hfind
  have hname : entry.1 = name := of_decide_eq_true hsome
  refine ⟨hname ▸ hall _ (mem_map_of_mem (mem_of_find?_eq_some hfind)), ?_⟩
  unfold ChType.build
  rw [hty]
  exact if_pos rfl

theorem build_interval (unit : Str) : ChType.build ("Interval".toList ++ unit) [] = .interval := by
  have hsimple : ∀ name ∈ ChType.simpleTypes.map Prod.fst,
      ("Interval".toList).isPrefixOf name = false := by decide
  have hcomposite : ∀ name ∈ ChType.compositeTypes.map Prod.fst,
      ("Interval".toList).isPrefixOf name = false := by decide
  have hprefix : ("Interval".toList).isPrefixOf ("Interval".toList ++ unit) = true :=
    List.isPrefixOf_iff_prefix.mpr (prefix_append _ _)
  have hnone : ChType.simple ("Interval".toList ++ unit) = none := by
    refine Option.map_eq_none_iff.mpr (find?_eq_none.mpr fun entry hmem heq => ?_)
    have hno := hsimple entry.1 (mem_map_of_mem hmem)
    rw [of_decide_eq_true heq, hprefix] at hno
    cases hno
  have hnone' : (ChType.compositeTypes.find? fun entry =>
      entry.1 = "Interval".toList ++ unit) = none := by
    refine find?_eq_none.mpr fun entry hmem heq => ?_
    have hno := hcomposite entry.1 (mem_map_of_mem hmem)
    rw [of_decide_eq_true heq, hprefix] at hno
    cases hno
  unfold ChType.build ChType.composite
  rw [hnone, hnone']
  exact if_pos ⟨prefix_append _ _, rfl⟩

theorem build_decimal {precision scale : Nat}
    (h : 1 ≤ precision ∧ precision ≤ 76 ∧ scale ≤ precision) :
    ChType.build "Decimal".toList [.number precision, .number scale] =
      .decimal precision scale := by
  show ChType.decimalChecked "Decimal".toList precision scale = _
  unfold ChType.decimalChecked
  rw [if_pos (by omega)]
  rfl

theorem build_fixedString {width : Nat} (h : 0 < width) :
    ChType.build "FixedString".toList [.number width] = .fixedString width := by
  show (if (0 : Int) < width then ChType.fixedString (width : Int).toNat
    else .unsupported "FixedString".toList) = _
  rw [if_pos (Int.natCast_pos.mpr h)]
  rfl

theorem build_dateTime64 {precision : Nat} (h : precision ≤ 9) :
    ChType.build "DateTime64".toList [.number precision] = .dateTime64 precision none ∧
      ∀ zone, ChType.build "DateTime64".toList [.number precision, .text zone] =
        .dateTime64 precision (some zone) := by
  have hchecked : ∀ zone, ChType.dateTime64Checked "DateTime64".toList precision zone =
      .dateTime64 precision zone := by
    intro zone
    unfold ChType.dateTime64Checked
    rw [if_pos (by omega)]
    rfl
  exact ⟨hchecked none, fun zone => hchecked (some zone)⟩

theorem build_time64 {precision : Nat} (h : precision ≤ 9) :
    ChType.build "Time64".toList [.number precision] = .time64 precision := by
  show (if (0 : Int) ≤ precision ∧ (precision : Int) ≤ 9 then
    ChType.time64 (precision : Int).toNat else .unsupported "Time64".toList) = _
  rw [if_pos (by omega)]
  rfl

theorem labelsOf_entries (bits : Nat) {labels : List (Str × Int)} (read : Str → Str)
    (h : ∀ entry ∈ labels, -2 ^ (bits - 1) ≤ entry.2 ∧ entry.2 < 2 ^ (bits - 1)) :
    ChType.labelsOf bits (labels.map fun entry => .entry (read entry.1) entry.2) =
      some (labels.map fun entry => (read entry.1, entry.2)) := by
  induction labels with
  | nil => rfl
  | cons entry labels ih =>
    rw [map_cons, ChType.labelsOf, if_pos (h entry (mem_cons_self ..)),
      ih fun entry' hmem => h entry' (mem_cons_of_mem _ hmem)]
    rfl

theorem build_tuple {as : List Arg} {elements : List (Option Str × ChType)}
    (h : ChType.elementsOf as = some elements) (hne : elements ≠ []) :
    ChType.build "Tuple".toList as = .tuple elements ∧
      ChType.build "Nested".toList as = .array (.tuple elements) := by
  have htuple : ChType.tupleOf as = some elements := by
    unfold ChType.tupleOf
    rw [h]
    refine Option.filter_eq_some_iff.mpr ⟨rfl, ?_⟩
    rw [Bool.not_eq_true', isEmpty_eq_false_iff]
    exact hne
  constructor
  · show ChType.ofTuple id "Tuple".toList as = _
    unfold ChType.ofTuple
    rw [htuple]
    rfl
  · show ChType.ofTuple .array "Nested".toList as = _
    unfold ChType.ofTuple
    rw [htuple]

theorem build_map {key value : ChType} (h : key.isNullable = false) :
    ChType.build "Map".toList [.type none key, .type none value] = .map key value := by
  show (if key.isNullable = true then ChType.unsupported "Map".toList else .map key value) = _
  rw [if_neg (Bool.eq_false_iff.mp h)]

/-! ## The reading of a printed type -/

theorem call_reads {levels : Nat} {items : List Str} {as : List Arg} {ks : Nat}
    {ty : ChType} (h : ReadsArgs (tyAt levels).1 items as ks) (hname : isTypeName name = true)
    (hskip : name ∉ opaqueArguments) (hbuild : ChType.build name as = ty) :
    ReadsType (tyAt (levels + 1)).1 (call name items) ty (1 + ks) ∧ Printed (call name items) := by
  rw [← hbuild]
  exact ⟨ty_call (tyAt levels).2 (bare_of_isTypeName hname).1 h hskip, printed_paren hname _⟩

theorem alone_reads {levels : Nat} {ty : ChType} (hname : isTypeName name = true)
    (hbuild : ChType.build name [] = ty) :
    ReadsType (tyAt (levels + 1)).1 name ty 1 ∧ Printed name := by
  rw [← hbuild]
  exact ⟨ty_alone (tyAt levels).2 (bare_of_isTypeName hname).1, printed_name hname⟩

section

variable {inner : Parse ChType}

theorem ReadsArgs.one {s : Str} {a : Arg} {k : Nat} (h : ReadsArg inner s a k) :
    ReadsArgs inner [s] [a] k :=
  .cons h .nil

theorem ReadsArgs.numbers {numbers : List Int} (h : ∀ z ∈ numbers, IsI64 z) :
    ReadsArgs inner (numbers.map intText) (numbers.map .number) 0 := by
  induction numbers with
  | nil => exact .nil
  | cons z numbers ih =>
    exact .cons (number_arg (h z (mem_cons_self ..)))
      (ih fun z' hmem => h z' (mem_cons_of_mem _ hmem))

theorem ReadsArgs.entries {labels : List (Str × Int)} (h : ∀ entry ∈ labels, IsI64 entry.2) :
    ReadsArgs inner (labels.map entryText)
      (labels.map fun entry => .entry (entry.1.map slip) entry.2) 0 := by
  induction labels with
  | nil => exact .nil
  | cons entry labels ih =>
    exact .cons (entry_arg (h entry (mem_cons_self ..)))
      (ih fun entry' hmem => h entry' (mem_cons_of_mem _ hmem))

end

theorem isI64_of_le {n bound : Nat} (h : n ≤ bound) (hbound : bound < 2 ^ 63) :
    IsI64 (n : Int) := by
  constructor <;> omega

theorem function_reads (levels : Nat) {function : Str} {parameters : List Int}
    (hbare : Bare function) (hskip : function ∉ opaqueArguments)
    (hparameters : ∀ z ∈ parameters, IsI64 z) :
    ∃ ty, ReadsArg (tyAt (levels + 1)).1 (functionText function parameters) (.type none ty) 1 := by
  unfold functionText
  split
  · exact ⟨_, type_arg (ty_alone (tyAt levels).2 hbare)
      ⟨function, [], (append_nil _).symm, hbare, .inl rfl⟩⟩
  · exact ⟨_, type_arg (ty_call (tyAt levels).2 hbare (ReadsArgs.numbers hparameters) hskip)
      ⟨function, _, rfl, hbare, .inr rfl⟩⟩

/-- What the driver makes of a printed type. -/
abbrev reread (t : ServerType) : ChType := t.meaningBy (List.map slip)

theorem isNullable_ofNullable (ty : ChType) : (ChType.ofNullable ty).isNullable = true := by
  cases ty <;> rfl

theorem isNullable_meaningBy (read read' : Str → Str) :
    (t : ServerType) → (t.meaningBy read).isNullable = (t.meaningBy read').isNullable
  | .nullable _ => (isNullable_ofNullable _).trans (isNullable_ofNullable _).symm
  | .lowCardinality inner => isNullable_meaningBy read read' inner
  | .simpleAggregate _ _ inner => isNullable_meaningBy read read' inner
  | .simple _ | .interval _ | .json _ | .decimal .. | .fixedString _ | .dateTime _
  | .dateTime64 .. | .time64 _ | .enum8 _ | .enum16 _ | .array _ | .map .. | .tuple _
  | .nested _ => rfl

mutual

theorem reads : (t : ServerType) → t.Valid → ∀ {s : Str}, t.Prints s → ∀ {levels : Nat},
    t.nesting < levels → ReadsType (tyAt levels).1 s t.reread t.nodes ∧ Printed s
  | _, _, _, _, 0, h => absurd h (Nat.not_lt_zero _)
  | .simple name, hvalid, _, rfl, levels + 1, _ => by
      obtain ⟨hname, hbuild⟩ := build_simple hvalid
      exact alone_reads hname hbuild
  | .interval unit, hvalid, _, rfl, levels + 1, _ => by
      refine alone_reads ?_ (build_interval unit)
      unfold isTypeName
      rw [all_append, all_eq_true.mpr hvalid]
      rfl
  | .json none, _, _, rfl, levels + 1, _ => alone_reads (by decide) rfl
  | .json (some arguments), hvalid, _, rfl, levels + 1, _ => by
      have hname : isTypeName "JSON".toList = true := by decide
      exact ⟨ty_skipped (tyAt levels).2 (bare_of_isTypeName hname).1 (by decide)
        (hvalid arguments rfl), printed_paren hname _⟩
  | .decimal precision scale, hvalid, _, rfl, levels + 1, _ => by
      have hp := isI64_of_le (show precision ≤ 76 from hvalid.2.1) (by decide)
      have hs := isI64_of_le (hvalid.2.2.trans hvalid.2.1) (by decide)
      exact call_reads (.cons (number_arg hp) (ReadsArgs.one (number_arg hs))) (by decide)
        (by decide) (build_decimal hvalid)
  | .fixedString width, hvalid, _, rfl, levels + 1, _ =>
    call_reads (ReadsArgs.one (number_arg hvalid.2)) (by decide) (by decide)
      (build_fixedString hvalid.1)
  | .dateTime none, _, _, rfl, levels + 1, _ => alone_reads (by decide) rfl
  | .dateTime (some zone), _, _, rfl, levels + 1, _ =>
    call_reads (ReadsArgs.one (text_arg zone)) (by decide) (by decide) rfl
  | .dateTime64 precision none, hvalid, _, rfl, levels + 1, _ =>
    call_reads (ReadsArgs.one (number_arg (isI64_of_le hvalid (by decide)))) (by decide)
      (by decide) (build_dateTime64 hvalid).1
  | .dateTime64 precision (some zone), hvalid, _, rfl, levels + 1, _ =>
    call_reads (.cons (number_arg (isI64_of_le hvalid (by decide)))
      (ReadsArgs.one (text_arg zone))) (by decide) (by decide) ((build_dateTime64 hvalid).2 _)
  | .time64 precision, hvalid, _, rfl, levels + 1, _ =>
    call_reads (ReadsArgs.one (number_arg (isI64_of_le hvalid (by decide)))) (by decide)
      (by decide) (build_time64 hvalid)
  | .enum8 labels, hvalid, _, rfl, levels + 1, _ => by
      refine call_reads (ReadsArgs.entries fun entry hmem => ?_) (by decide) (by decide) ?_
      · have hrange := hvalid entry hmem
        constructor <;> omega
      · show ChType.enumeration 8 "Enum8".toList _ = _
        unfold ChType.enumeration
        rw [labelsOf_entries 8 (List.map slip) hvalid]
        rfl
  | .enum16 labels, hvalid, _, rfl, levels + 1, _ => by
      refine call_reads (ReadsArgs.entries fun entry hmem => ?_) (by decide) (by decide) ?_
      · have hrange := hvalid entry hmem
        constructor <;> omega
      · show ChType.enumeration 16 "Enum16".toList _ = _
        unfold ChType.enumeration
        rw [labelsOf_entries 16 (List.map slip) hvalid]
        rfl
  | .nullable inner, hvalid, _, ⟨i, hi, rfl⟩, levels + 1, h => by
      obtain ⟨hreads, hprinted⟩ := reads inner hvalid hi (Nat.lt_of_succ_lt_succ h)
      exact call_reads (ReadsArgs.one (type_arg hreads hprinted.named)) (by decide) (by decide) rfl
  | .lowCardinality inner, hvalid, _, ⟨i, hi, rfl⟩, levels + 1, h => by
      obtain ⟨hreads, hprinted⟩ := reads inner hvalid hi (Nat.lt_of_succ_lt_succ h)
      exact call_reads (ReadsArgs.one (type_arg hreads hprinted.named)) (by decide) (by decide) rfl
  | .array inner, hvalid, _, ⟨i, hi, rfl⟩, levels + 1, h => by
      obtain ⟨hreads, hprinted⟩ := reads inner hvalid hi (Nat.lt_of_succ_lt_succ h)
      exact call_reads (ReadsArgs.one (type_arg hreads hprinted.named)) (by decide) (by decide) rfl
  | .map key value, ⟨hkey, hvalue, hnull⟩, _, ⟨k, v, hk, hv, rfl⟩, levels + 1, h => by
      have hmax := Nat.lt_of_succ_lt_succ h
      obtain ⟨hreads, hprinted⟩ := reads key hkey hk ((Nat.le_max_left _ _).trans_lt hmax)
      obtain ⟨hreads', hprinted'⟩ := reads value hvalue hv ((Nat.le_max_right _ _).trans_lt hmax)
      refine call_reads (.cons (type_arg hreads hprinted.named)
        (ReadsArgs.one (type_arg hreads' hprinted'.named))) (by decide) (by decide) (build_map ?_)
      exact (isNullable_meaningBy _ _ key).trans hnull
  | .tuple elements, ⟨hne, hvalid⟩, _, ⟨items, hitems, rfl⟩, levels + 1, h => by
      obtain ⟨as, hreads, helements⟩ := readsIn elements hvalid hitems (Nat.lt_of_succ_lt_succ h)
      refine call_reads hreads (by decide) (by decide) (build_tuple helements ?_).1
      cases elements with
      | nil => exact absurd rfl hne
      | cons element rest => exact cons_ne_nil _ _
  | .nested elements, ⟨hne, hvalid⟩, _, ⟨items, hitems, rfl⟩, levels + 1, h => by
      obtain ⟨as, hreads, helements⟩ := readsIn elements hvalid hitems (Nat.lt_of_succ_lt_succ h)
      refine call_reads hreads (by decide) (by decide) (build_tuple helements ?_).2
      cases elements with
      | nil => exact absurd rfl hne
      | cons element rest => exact cons_ne_nil _ _
  | .simpleAggregate function parameters inner, ⟨hbare, hskip, hparameters, hvalid⟩, _,
      ⟨i, hi, rfl⟩, levels + 1, h => by
      obtain ⟨hreads, hprinted⟩ := reads inner hvalid hi (Nat.lt_of_succ_lt_succ h)
      obtain ⟨below, rfl⟩ := Nat.exists_eq_succ_of_ne_zero
        (Nat.ne_zero_of_lt (Nat.lt_of_succ_lt_succ h))
      obtain ⟨ty, hfunction⟩ := function_reads below hbare hskip hparameters
      exact call_reads (.cons hfunction (ReadsArgs.one (type_arg hreads hprinted.named)))
        (by decide) (by decide) rfl

theorem readsIn : (elements : List (Option Str × ServerType)) → ValidIn elements →
    ∀ {items : List Str}, PrintsIn elements items → ∀ {levels : Nat},
    nestingIn elements < levels → ∃ as, ReadsArgs (tyAt levels).1 items as (nodesIn elements) ∧
      ChType.elementsOf as = some (meaningIn (List.map slip) elements)
  | [], _, _, rfl, _, _ => ⟨[], .nil, rfl⟩
  | (none, ty) :: rest, ⟨hty, hrest⟩, _, ⟨i, others, hi, hothers, rfl⟩, levels, h => by
      obtain ⟨hreads, hprinted⟩ := reads ty hty hi ((Nat.le_max_left _ _).trans_lt h)
      obtain ⟨as, hargs, helements⟩ :=
        readsIn rest hrest hothers ((Nat.le_max_right _ _).trans_lt h)
      refine ⟨_, .cons (type_arg hreads hprinted.named) hargs, ?_⟩
      rw [ChType.elementsOf, helements]
      rfl
  | (some name, ty) :: rest, ⟨hty, hrest⟩, _, ⟨n, i, others, hn, hi, hothers, rfl⟩, levels, h => by
      obtain ⟨hreads, hprinted⟩ := reads ty hty hi ((Nat.le_max_left _ _).trans_lt h)
      obtain ⟨as, hargs, helements⟩ :=
        readsIn rest hrest hothers ((Nat.le_max_right _ _).trans_lt h)
      refine ⟨_, .cons (named_arg hn hreads hprinted.alpha) hargs, ?_⟩
      rw [ChType.elementsOf, helements]
      rfl

end

/-! ## What comes back -/

variable {s : Str}

theorem trim_printed (h : Printed s) : trim s = s := by
  have hstart : trimStart s = s := by
    refine trimStart_eq_self fun c hc => ?_
    obtain ⟨name, tail, rfl, hbare, -⟩ := h.named
    rw [head?_append_of_ne_nil _ hbare.ne_nil] at hc
    exact not_isWhitespace_of_isWordChar (hbare.1 c (mem_of_mem_head? hc))
  unfold trim
  rw [hstart]
  refine rdropWhile_eq_self_iff.mpr fun hne => ?_
  rw [h.last _ (getLast?_eq_getLast_of_ne_nil hne)]
  exact Bool.false_ne_true

theorem parse_prints {t : ServerType} (hvalid : t.Valid) (hnesting : t.nesting ≤ maxDepth)
    (hnodes : t.nodes ≤ maxNodes) (hs : t.Prints s) : parse s = .ok t.reread := by
  obtain ⟨hreads, hprinted⟩ := reads t hvalid hs (Nat.lt_succ_of_le hnesting)
  have hrun := hreads [] 0 nofun (by rw [Nat.zero_add]; exact hnodes)
  unfold parse
  rw [trim_printed hprinted]
  rw [append_nil] at hrun
  rw [hrun]
  rfl

theorem ofNullable_inj {a b : ChType} (h : ChType.ofNullable a = ChType.ofNullable b) : a = b := by
  cases a <;> cases b <;> first
    | rfl
    | exact ChType.nullable.inj h
    | cases h

theorem map_slip_eq_self {text : Str} :
    text.map slip = text ↔ Char.ofNat 8 ∉ text ∧ Char.ofNat 12 ∉ text := by
  constructor
  · intro h
    have hall : ∀ c ∈ text, slip c = c := by
      conv at h => rhs; rw [← map_id text]
      exact map_inj_left.mp h
    exact ⟨fun hmem => absurd (hall _ hmem) (by decide),
      fun hmem => absurd (hall _ hmem) (by decide)⟩
  · rintro ⟨hback, hfeed⟩
    conv_rhs => rw [← map_id text]
    refine map_congr_left fun c hc => ?_
    have hb : c ≠ Char.ofNat 8 := fun h => hback (h ▸ hc)
    have hf : c ≠ Char.ofNat 12 := fun h => hfeed (h ▸ hc)
    unfold slip
    rw [if_neg hb, if_neg hf]
    rfl

theorem map_read_zone {read : Str → Str} {zone : Option Str} :
    zone.map read = zone.map (fun text => text) ↔ ∀ text ∈ zone.toList, read text = text := by
  cases zone with
  | none => exact iff_of_true rfl nofun
  | some zone =>
    rw [Option.toList_some, forall_mem_singleton]
    exact ⟨Option.some.inj, congrArg some⟩

theorem map_read_labels {read : Str → Str} {labels : List (Str × Int)} :
    (labels.map fun entry => (read entry.1, entry.2)) =
        (labels.map fun entry => (entry.1, entry.2)) ↔
      ∀ text ∈ labels.map Prod.fst, read text = text := by
  rw [map_inj_left, forall_mem_map]
  exact forall₂_congr fun entry _ => Prod.ext_iff.trans (and_iff_left rfl)

mutual

theorem meaningBy_eq {read : Str → Str} : (t : ServerType) →
    (t.meaningBy read = t.meaning ↔ ∀ text ∈ t.texts, read text = text)
  | .simple _ | .interval _ | .json _ | .decimal .. | .fixedString _ | .time64 _ =>
    iff_of_true rfl nofun
  | .dateTime zone => (ChType.dateTime.injEq ..).to_iff.trans map_read_zone
  | .dateTime64 precision zone =>
    (ChType.dateTime64.injEq ..).to_iff.trans ((and_iff_right rfl).trans map_read_zone)
  | .enum8 labels =>
    (ChType.enum.injEq ..).to_iff.trans ((and_iff_right rfl).trans map_read_labels)
  | .enum16 labels =>
    (ChType.enum.injEq ..).to_iff.trans ((and_iff_right rfl).trans map_read_labels)
  | .nullable inner =>
    Iff.trans ⟨ofNullable_inj, congrArg ChType.ofNullable⟩ (meaningBy_eq inner)
  | .lowCardinality inner => meaningBy_eq inner
  | .array inner => (ChType.array.injEq ..).to_iff.trans (meaningBy_eq inner)
  | .map key value => by
      refine (ChType.map.injEq ..).to_iff.trans ?_
      rw [texts, forall_mem_append]
      exact and_congr (meaningBy_eq key) (meaningBy_eq value)
  | .tuple elements => (ChType.tuple.injEq ..).to_iff.trans (meaningIn_eq elements)
  | .nested elements =>
    (ChType.array.injEq ..).to_iff.trans
      ((ChType.tuple.injEq ..).to_iff.trans (meaningIn_eq elements))
  | .simpleAggregate _ _ inner => meaningBy_eq inner

theorem meaningIn_eq {read : Str → Str} : (elements : List (Option Str × ServerType)) →
    (meaningIn read elements = meaningIn (fun text => text) elements ↔
      ∀ text ∈ textsIn elements, read text = text)
  | [] => iff_of_true rfl nofun
  | (name, ty) :: rest => by
      refine (List.cons.injEq ..).to_iff.trans ?_
      rw [textsIn, forall_mem_append, forall_mem_append, ← and_assoc]
      refine and_congr ?_ (meaningIn_eq rest)
      exact Prod.ext_iff.trans (and_congr map_read_zone (meaningBy_eq ty))

end

/-- A text without the two characters whose escapes the reader does not know. -/
def Kept (text : Str) : Prop := Char.ofNat 8 ∉ text ∧ Char.ofNat 12 ∉ text

/-- A printed type is read as the server means it exactly when its texts hold neither a
backspace nor a form feed. -/
theorem parse_prints_iff {t : ServerType} (hvalid : t.Valid) (hnesting : t.nesting ≤ maxDepth)
    (hnodes : t.nodes ≤ maxNodes) (hs : t.Prints s) :
    parse s = .ok t.meaning ↔ ∀ text ∈ t.texts, Kept text := by
  rw [parse_prints hvalid hnesting hnodes hs]
  refine Iff.trans ⟨Except.ok.inj, congrArg Except.ok⟩ ((meaningBy_eq t).trans ?_)
  exact forall₂_congr fun text _ => map_slip_eq_self

end ServerType

namespace Parser

/-! ## Whatever the text -/

/-- `Parser::ty`, its arguments read by a call. -/
def calling (call : { p : Parse ChType // Scan.Within size p }) :
    { p : Parse ChType // Scan.Within size p } :=
  ⟨ty call.1 call.2, ty_within call.2⟩

/-- The recursion of the source, so many calls deep; `below` stands for the calls that would be
deeper. -/
def tyFrom (below : { p : Parse ChType // Scan.Within size p }) :
    Nat → Nat → { p : Parse ChType // Scan.Within size p }
  | 0, _ => below
  | calls + 1, depth =>
    if maxDepth < depth then ⟨fail "a type nested beyond 64 levels", fail_within _⟩
    else calling (tyFrom below calls (depth + 1))

/-- The call that is one too deep fails at once, so whatever stands below it is never called. -/
theorem tyFrom_eq (below : { p : Parse ChType // Scan.Within size p }) (levels : Nat)
    {depth : Nat} (h : depth + levels = maxDepth + 1) :
    tyFrom below (levels + 1) depth = tyAt levels := by
  induction levels generalizing depth with
  | zero => exact if_pos (by omega)
  | succ levels ih => exact (if_neg (by omega)).trans (congrArg calling (ih (by omega)))

/-- What is left is the end of what was there. -/
def Consumes {α : Type} (p : Parse α) : Prop :=
  ∀ s a s', p s = (.ok a, s') → s'.rest <:+ s.rest

theorem tyAt_consumes (levels : Nat) : Consumes (tyAt levels).1 := by
  have hsuffix : Shorter fun s' s => s'.rest <:+ s.rest := ⟨id, fun h h' => h.trans h'⟩
  induction levels with
  | zero => exact hsuffix.answer _
  | succ levels ih => exact ty_leads hsuffix (tyAt levels).2 ih

end Parser

theorem parse_whole {text : Str} {ty : ChType} (h : parse text = .ok ty) :
    ∃ nodes, (Parser.tyAt (maxDepth + 1)).1 ⟨trim text, 0⟩ = (.ok ty, ⟨[], nodes⟩) := by
  unfold parse at h
  split at h
  next ty' p hread =>
    split at h
    next hblank =>
      cases h
      obtain ⟨rest, nodes⟩ := p
      refine ⟨nodes, ?_⟩
      have hsuffix : rest <:+ trim text := Parser.tyAt_consumes _ _ _ _ hread
      -- a trimmed text has no blank end but the empty one
      have hnil : rest = [] := by
        by_contra hne
        have hlast : (trim text).getLast? = some (rest.getLast hne) := by
          obtain ⟨u, hu⟩ := hsuffix
          rw [← hu, getLast?_append_of_ne_nil _ hne, getLast?_eq_getLast_of_ne_nil hne]
        have hvisible := getLast?_trim (s := text) _ hlast
        have hempty : trim ([] ++ rest) = trim [] := hblank
        rw [trim_append_iff.mp hempty _ (getLast_mem hne)] at hvisible
        cases hvisible
      rw [hread, hnil]
    · cases h
  next => cases h

/-- A type name is read as the server prints it exactly when its texts hold neither a backspace nor
a form feed. Whatever the text, the calls go no deeper than 65, where they fail. -/
theorem printed_type_is_read (t : ServerType) (hvalid : t.Valid) (hnesting : t.nesting ≤ maxDepth)
    (hnodes : t.nodes ≤ maxNodes) (s : Str) (hs : t.Prints s) :
    (parse s = .ok t.meaning ↔ ∀ text ∈ t.texts, ServerType.Kept text) ∧
      (∀ below, Parser.tyFrom below (maxDepth + 2) 0 = Parser.tyAt (maxDepth + 1)) ∧
      ∀ text ty, parse text = .ok ty →
        ∃ nodes, (Parser.tyAt (maxDepth + 1)).1 ⟨trim text, 0⟩ = (.ok ty, ⟨[], nodes⟩) :=
  ⟨ServerType.parse_prints_iff hvalid hnesting hnodes hs,
    fun below => Parser.tyFrom_eq below (maxDepth + 1) (Nat.zero_add _), fun _ _ => parse_whole⟩

def oneLabel (label : Str) : ServerType := .enum8 [(label, 1)]

theorem oneLabel_valid (label : Str) : (oneLabel label).Valid := by
  intro entry hmem
  rw [mem_singleton.mp hmem]
  show -2 ^ 7 ≤ (1 : Int) ∧ (1 : Int) < 2 ^ 7
  decide

/-- A label with a line break and a quote comes back. -/
theorem quoted_label_is_read :
    parse "Enum8('it\\'s\\nso' = 1)".toList = .ok (.enum 8 [("it's\nso".toList, 1)]) := by
  refine (printed_type_is_read (oneLabel "it's\nso".toList) (oneLabel_valid _) (by decide)
    (by decide) _ ?_).1.mpr ?_
  · show _ = call _ _
    decide
  · intro text hmem
    cases mem_singleton.mp hmem
    unfold ServerType.Kept
    decide

/-- A label that is a form feed comes back as a letter. -/
theorem form_feed_comes_back_as_letter :
    ¬ ∀ t : ServerType, t.Valid → t.nesting ≤ maxDepth → t.nodes ≤ maxNodes →
      ∀ s, t.Prints s → parse s = .ok t.meaning := by
  intro h
  have hread := (ServerType.parse_prints_iff (oneLabel_valid [Char.ofNat 12]) (by decide)
    (by decide) rfl).mp (h _ (oneLabel_valid _) (by decide) (by decide) _ rfl)
  exact (hread [Char.ofNat 12] (mem_singleton_self _)).2 (mem_singleton_self _)

end Oxyn.ClickHouse
