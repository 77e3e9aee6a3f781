import Mathlib.Data.List.Basic
import Mathlib.Logic.Function.Basic

set_option autoImplicit false

namespace Mports.KeyedWrites

variable {ι κ ν : Type} [DecidableEq κ] (key : ι → κ) (value : ι → ν)

def write (table : κ → Option ν) (i : ι) : κ → Option ν := Function.update table (key i) (some (value i))

def writeAll (table : κ → Option ν) (items : List ι) : κ → Option ν := items.foldl (write key value) table

def IsLast (i : ι) (after : List ι) : Prop := ∀ j ∈ after, key j ≠ key i

variable {key value} {table : κ → Option ν}

theorem writeAll_append (before after : List ι) :
    writeAll key value table (before ++ after) = writeAll key value (writeAll key value table before) after :=
  List.foldl_append

theorem writeAll_other {items : List ι} {k : κ} (h : ∀ j ∈ items, key j ≠ k) :
    writeAll key value table items k = table k := by
  induction items generalizing table with
  | nil => rfl
  | cons i items ih =>
    calc writeAll key value (write key value table i) items k
      _ = write key value table i k := ih fun j hj => h j (List.mem_cons_of_mem _ hj)
      _ = table k := Function.update_of_ne (h i List.mem_cons_self).symm _ _

theorem writeAll_last {before after : List ι} {i : ι} (h : IsLast key i after) :
    writeAll key value table (before ++ i :: after) (key i) = some (value i) := by
  rw [writeAll_append]
  exact (writeAll_other h).trans (Function.update_self _ _ _)

theorem writeAll_nodup {items : List ι} (h : (items.map key).Nodup) {i : ι} (hi : i ∈ items) :
    writeAll key value table items (key i) = some (value i) := by
  obtain ⟨before, after, rfl⟩ := List.append_of_mem hi
  rw [List.map_append, List.map_cons, List.nodup_append, List.nodup_cons] at h
  refine writeAll_last fun j hj hkey => h.2.1.1 ?_
  exact List.mem_map.2 ⟨j, hj, hkey⟩

theorem exists_last (key : ι → κ) {items : List ι} {i : ι} (h : i ∈ items) :
    ∃ before j after, items = before ++ j :: after ∧ key j = key i ∧ IsLast key j after := by
  have hkeyed : ∀ k, (∃ i ∈ items, key i = k) →
      ∃ before j after, items = before ++ j :: after ∧ key j = k ∧ ∀ l ∈ after, key l ≠ k := by
    intro k hk
    clear h
    induction items with
    | nil =>
      obtain ⟨i, hi, -⟩ := hk
      cases hi
    | cons a items ih =>
      by_cases hlater : ∃ j ∈ items, key j = k
      · obtain ⟨before, j, after, rfl, hj, hlast⟩ := ih hlater
        exact ⟨a :: before, j, after, rfl, hj, hlast⟩
      · obtain ⟨i, hi, hkey⟩ := hk
        obtain rfl | hmem := List.mem_cons.1 hi
        · exact ⟨[], i, items, rfl, hkey, fun j hj heq => hlater ⟨j, hj, heq⟩⟩
        · exact absurd ⟨i, hmem, hkey⟩ hlater
  obtain ⟨before, j, after, hsplit, hj, hlast⟩ := hkeyed (key i) ⟨i, h, rfl⟩
  exact ⟨before, j, after, hsplit, hj, fun l hl => hj ▸ hlast l hl⟩

end Mports.KeyedWrites
