import Scaffold.Storage.Memory

/-! Trees in which every entry lies in a directory, and trees that hold the same nodes. -/
namespace Scaffold

namespace Location

theorem parent_concat (l : Location) (n : Path.Name) : parent (l ++ [n]) = l :=
  List.dropLast_concat

theorem lineageFrom_concat (above names : Location) (n : Path.Name) :
    lineageFrom above (names ++ [n]) = lineageFrom above names ++ [above ++ names ++ [n]] := by
  induction names generalizing above with
  | nil => simp [lineageFrom]
  | cons m names ih => simp [lineageFrom, ih]

theorem lineage_concat (l : Location) (n : Path.Name) :
    lineage (l ++ [n]) = l.lineage ++ [l ++ [n]] := by
  simpa [lineage] using lineageFrom_concat [] l n

end Location

namespace Tree

/-- Two trees with the same nodes at the same locations. -/
def Agrees {α : Type} (t u : Tree α) : Prop := ∀ l, t.find? l = u.find? l

section

variable {α : Type} {t u v : Tree α}

theorem Agrees.refl (t : Tree α) : t.Agrees t := fun _ => rfl

theorem Agrees.symm (same : t.Agrees u) : u.Agrees t := fun l => (same l).symm

theorem Agrees.trans (first : t.Agrees u) (second : u.Agrees v) : t.Agrees v :=
  fun l => (first l).trans (second l)

theorem Agrees.contains (same : t.Agrees u) (l : Location) : t.contains l = u.contains l := by
  rw [Tree.contains, Tree.contains, same l]

theorem Agrees.insert (same : t.Agrees u) (l : Location) (node : α) :
    (t.insert l node).Agrees (u.insert l node) := by
  intro k
  rw [find?_insert, find?_insert, same k]

theorem Agrees.prune (same : t.Agrees u) (l : Location) : (t.prune l).Agrees (u.prune l) := by
  intro k
  rw [find?_prune, find?_prune, same k]

theorem insert_agrees_of_find? {l : Location} {node : α} (there : t.find? l = some node)
    (other : α) : ((t.insert l other).insert l node).Agrees t := by
  intro k
  rw [find?_insert, find?_insert]
  split
  next same => rw [same, there]
  next => rfl

end

/-- The root is a directory, and every entry lies in a directory. -/
structure Closed (t : Tree Entry) : Prop where
  root_directory : t.find? [] = some .directory
  parent_directory : ∀ (l : Location) (n : Path.Name),
    t.contains (l ++ [n]) → t.find? l = some .directory

theorem Closed.agrees {t u : Tree Entry} (closed : t.Closed) (same : t.Agrees u) : u.Closed where
  root_directory := (same []).symm.trans closed.root_directory
  parent_directory l n there :=
    (same l).symm.trans (closed.parent_directory l n (by rwa [same.contains]))

theorem contains_of_find? {α : Type} {t : Tree α} {l : Location} {node : α}
    (there : t.find? l = some node) : t.contains l := by
  simp [Tree.contains, there]

section

variable {t : Tree Entry} (closed : t.Closed)

include closed

/-- What lies above an entry is a directory. -/
theorem Closed.directory_above {l : Location} (more : Location) (below : more ≠ [])
    (there : t.contains (l ++ more)) : t.find? l = some .directory := by
  induction more generalizing l with
  | nil => contradiction
  | cons n more ih =>
    apply closed.parent_directory l n
    by_cases last : more = []
    · rwa [last] at there
    · exact contains_of_find? (ih last (by rwa [List.append_assoc]))

theorem Closed.parent_of_directory {l : Location} (there : t.find? l = some .directory) :
    t.find? l.parent = some .directory := by
  rcases List.eq_nil_or_concat l with rfl | ⟨above, n, rfl⟩
  · exact closed.root_directory
  · rw [List.concat_eq_append] at there ⊢
    rw [Location.parent_concat]
    exact closed.parent_directory above n (contains_of_find? there)

/-- Below anything but a directory there is nothing. -/
theorem Closed.nothing_below {l k : Location} (plain : t.find? l ≠ some .directory)
    (within : l <+: k) (below : k ≠ l) : t.find? k = none := by
  obtain ⟨more, rfl⟩ := within
  have some_more : more ≠ [] := by rintro rfl; simp at below
  cases found : t.find? (l ++ more) with
  | none => rfl
  | some entry =>
    exact absurd (closed.directory_above more some_more (contains_of_find? found)) plain

theorem Closed.insert {above : Location} {n : Path.Name} {entry : Entry}
    (home : t.find? above = some .directory)
    (fits : entry = .directory ∨ t.find? (above ++ [n]) ≠ some .directory) :
    (t.insert (above ++ [n]) entry).Closed := by
  constructor
  · rw [find?_insert, if_neg (by simp), closed.root_directory]
  · intro l m there
    rw [Tree.contains, find?_insert] at there
    rw [find?_insert]
    split
    next same =>
      -- A child of the new entry was there before, so the entry took the place of a directory.
      rw [if_neg (by rw [same]; simp)] at there
      have was := closed.parent_directory l m there
      rw [same] at was
      rw [fits.resolve_right (by simp [was])]
    next apart =>
      split at there
      next same =>
        obtain ⟨rfl, _⟩ := List.append_inj' same rfl
        exact home
      next => exact closed.parent_directory l m there

end

end Tree

theorem Memory.WellFormed.closed {m : Memory} (valid : m.WellFormed) : m.entries.Closed where
  root_directory := valid.root_directory
  parent_directory := valid.parent_directory

end Scaffold
