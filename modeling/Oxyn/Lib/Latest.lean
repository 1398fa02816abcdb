/-
# `Oxyn.Lib.Latest` — a copy that keeps the latest revision it was given

A copy carries a revision, and takes another only if its revision is greater.  Whatever the
order in which copies of distinct revisions come, the greatest is the one that stays.
-/
import Mathlib.Data.List.Nodup

namespace Latest

open List

variable {α : Type}

structure Copy (α : Type) where
  revision : Nat
  value : α

namespace Copy

def take (held new : Copy α) : Copy α := if held.revision < new.revision then new else held

def takeAll (held : Copy α) (copies : List (Copy α)) : Copy α := copies.foldl take held

theorem take_of_lt {held new : Copy α} (h : held.revision < new.revision) :
    held.take new = new := if_pos h

theorem le_take (held new : Copy α) :
    held.revision ≤ (held.take new).revision ∧ new.revision ≤ (held.take new).revision := by
  unfold take
  split <;> omega

theorem take_mem (held new : Copy α) : held.take new = held ∨ held.take new = new := by
  unfold take
  split
  · exact .inr rfl
  · exact .inl rfl

theorem takeAll_mem (copies : List (Copy α)) (held : Copy α) :
    held.takeAll copies ∈ held :: copies := by
  induction copies generalizing held with
  | nil => exact mem_cons_self
  | cons new copies ih =>
    rcases mem_cons.mp (ih (held.take new)) with hheld | hmem
    · rcases take_mem held new with h | h
      · exact mem_cons.mpr (.inl (hheld.trans h))
      · exact mem_cons_of_mem _ (mem_cons.mpr (.inl (hheld.trans h)))
    · exact mem_cons_of_mem _ (mem_cons_of_mem _ hmem)

/-- Nothing that came is later than what stays. -/
theorem le_takeAll (copies : List (Copy α)) (held : Copy α) :
    ∀ copy ∈ held :: copies, copy.revision ≤ (held.takeAll copies).revision := by
  induction copies generalizing held with
  | nil => simp [takeAll]
  | cons new copies ih =>
    have htake := ih (held.take new)
    have hle := htake (held.take new) mem_cons_self
    obtain ⟨hheld, hnew⟩ := le_take held new
    intro copy hmem
    rcases mem_cons.mp hmem with rfl | hmem
    · exact Nat.le_trans hheld hle
    · rcases mem_cons.mp hmem with rfl | hmem
      · exact Nat.le_trans hnew hle
      · exact htake copy (mem_cons_of_mem _ hmem)

theorem takeAll_of_greatest {held copy : Copy α} {copies : List (Copy α)}
    (hdistinct : (copies.map (·.revision)).Nodup) (hcopy : copy ∈ copies)
    (hheld : held.revision < copy.revision)
    (hgreatest : ∀ other ∈ copies, other.revision ≤ copy.revision) :
    held.takeAll copies = copy := by
  have hle := le_takeAll copies held copy (mem_cons_of_mem _ hcopy)
  rcases mem_cons.mp (takeAll_mem copies held) with heq | hmem
  · rw [heq] at hle
    omega
  · have hge := hgreatest _ hmem
    exact inj_on_of_nodup_map hdistinct hmem hcopy (by omega)

end Copy

end Latest
