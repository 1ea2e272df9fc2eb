import Scaffold.Path.Location

/-! Finite maps from locations to nodes. The order of the nodes is of no account: a tree is seen
through `find?` alone. -/
namespace Scaffold

structure Tree (α : Type) where
  nodes : List (Location × α)
deriving Repr

namespace Tree

def find? (t : Tree α) (l : Location) : Option α := t.nodes.lookup l

def contains (t : Tree α) (l : Location) : Bool := (t.find? l).isSome

def insert (t : Tree α) (l : Location) (node : α) : Tree α :=
  ⟨(l, node) :: t.nodes.filter (·.1 ≠ l)⟩

/-- Takes `l` away with everything below it. -/
def prune (t : Tree α) (l : Location) : Tree α := ⟨t.nodes.filter (!·.1.isWithin l)⟩

theorem lookup_filter (nodes : List (Location × α)) (keep : Location → Bool) (l : Location) :
    (nodes.filter (keep ·.1)).lookup l = if keep l then nodes.lookup l else none := by
  induction nodes with
  | nil => simp
  | cons entry nodes ih =>
    obtain ⟨key, node⟩ := entry
    by_cases same : l = key
    · subst same
      cases h : keep l
      · rw [List.filter_cons_of_neg (by simp [h]), ih]; simp [h]
      · rw [List.filter_cons_of_pos (by simp [h])]; simp
    · have apart : (l == key) = false := by simpa using same
      rw [List.lookup_cons, apart]
      cases h : keep key
      · rw [List.filter_cons_of_neg (by simp [h]), ih]
      · rw [List.filter_cons_of_pos (by simp [h]), List.lookup_cons, apart]; exact ih

theorem find?_insert (t : Tree α) (l k : Location) (node : α) :
    (t.insert l node).find? k = if k = l then some node else t.find? k := by
  by_cases same : k = l
  · simp [find?, insert, same]
  · have apart : (k == l) = false := by simpa using same
    have kept := lookup_filter t.nodes (fun key => decide (key ≠ l)) k
    simpa [find?, insert, List.lookup_cons, apart, same] using kept

theorem find?_prune (t : Tree α) (l k : Location) :
    (t.prune l).find? k = if k.isWithin l then none else t.find? k := by
  have kept := lookup_filter t.nodes (fun key => !key.isWithin l) k
  rw [find?, prune, kept]
  cases k.isWithin l <;> simp [find?]

end Tree

end Scaffold
