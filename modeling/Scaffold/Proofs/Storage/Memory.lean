import Scaffold.Proofs.Storage.Tree

/-! What the calls on a memory do at a location whose directory is there. -/
namespace Scaffold.Memory

/-- The memory with one more entry, or another one in its place. -/
def put (m : Memory) (l : Location) (entry : Entry) : Memory :=
  { m with entries := m.entries.insert l entry }

@[simp] theorem put_entries (m : Memory) (l : Location) (entry : Entry) :
    (m.put l entry).entries = m.entries.insert l entry := rfl

@[simp] theorem put_cwd (m : Memory) (l : Location) (entry : Entry) :
    (m.put l entry).cwd = m.cwd := rfl

theorem text_path_ne_nil (l : Location) : l.path.text ≠ [] := by simp [Location.path]

section

variable (m : Memory) (l : Location)

@[simp] theorem storage_has : Storage.has m l.path = m.entries.contains l := by
  change m.has l.path = _
  rw [has, locate_path]

variable {m l}

theorem entry_of_find? {e : Entry} (there : m.entries.find? l = some e) :
    m.entry l.path = .ok e := by
  simp only [entry, locate_path, there]

theorem storage_isDirectory {e : Entry} (there : m.entries.find? l = some e) :
    Storage.isDirectory m l.path = .ok e.isDirectory := by
  change (m.entry l.path).map Entry.isDirectory = _
  rw [entry_of_find? there]
  rfl

theorem storage_isFile {e : Entry} (there : m.entries.find? l = some e) :
    Storage.isFile m l.path = .ok e.isFile := by
  change (m.entry l.path).map Entry.isFile = _
  rw [entry_of_find? there]
  rfl

theorem storage_read {content : Bytes} (there : m.entries.find? l = some (.file content)) :
    Storage.read m l.path = .ok content := by
  change m.read l.path = _
  simp only [read, entry_of_find? there]

theorem storage_write {old : Bytes} (there : m.entries.find? l = some (.file old))
    (content : Bytes) : Storage.write m l.path content = (.ok (), m.put l (.file content)) := by
  change m.write l.path content = _
  simp only [write, locate_path, there]
  rfl

theorem storage_remove (below : l ≠ []) (there : m.entries.contains l) :
    Storage.remove m l.path = (.ok (), { m with
      entries := m.entries.prune l
      cwd := if m.cwd.isWithin l then l.parent else m.cwd }) := by
  change m.remove l.path = _
  simp only [remove, locate_path, text_path_ne_nil, below, there, if_false, Bool.not_true,
    Bool.false_eq_true]

end

theorem fillDirectories_append {t : Tree Entry} {lineage : List Location} (more : List Location)
    (there : ∀ l ∈ lineage, t.find? l = some .directory) :
    fillDirectories (lineage ++ more) t = fillDirectories more t := by
  induction lineage with
  | nil => rfl
  | cons l lineage ih =>
    obtain ⟨here, later⟩ := List.forall_mem_cons.1 there
    rw [List.cons_append, fillDirectories, here]
    exact ih later

theorem directory_of_mem_lineage {t : Tree Entry} (closed : t.Closed) {l k : Location}
    (there : t.find? l = some .directory) (member : k ∈ l.lineage) :
    t.find? k = some .directory := by
  obtain ⟨more, rfl⟩ := Location.mem_lineage.1 member
  by_cases same : more = []
  · simpa [same] using there
  · exact closed.directory_above more same (Tree.contains_of_find? there)

section

variable {m : Memory} {above : Location} {n : Path.Name}

theorem storage_makeDirectory (closed : m.entries.Closed)
    (home : m.entries.find? above = some .directory)
    (absent : m.entries.find? (above ++ [n]) = none) :
    Storage.makeDirectory m (Location.path (above ++ [n])) =
      (.ok (), m.put (above ++ [n]) .directory) := by
  change m.makeDirectory _ = _
  have free : m.entries.contains (above ++ [n]) = false := by simp [Tree.contains, absent]
  have filled := fillDirectories_append [above ++ [n]]
    fun k member => directory_of_mem_lineage closed home member
  simp only [makeDirectory, text_path_ne_nil, if_false, locate_path, makeDirectoryAt, free,
    Bool.false_eq_true, Location.lineage_concat, filled, fillDirectories, absent]
  rfl

theorem storage_makeFile (home : m.entries.find? above = some .directory)
    (absent : m.entries.find? (above ++ [n]) = none) (content : Bytes) :
    Storage.makeFile m (Location.path (above ++ [n])) content =
      (.ok (), m.put (above ++ [n]) (.file content)) := by
  change m.makeFile _ content = _
  have free : m.entries.contains (above ++ [n]) = false := by simp [Tree.contains, absent]
  simp only [makeFile, locate_path, free, Bool.false_eq_true, if_false, Location.parent_concat,
    makeParent, home]
  rfl

end

/-- A file next to a directory. -/
def shelf : Memory :=
  (empty.put [⟨['b'], by decide⟩] .directory).put [⟨['a'], by decide⟩] (.file [1])

theorem shelf_closed : shelf.entries.Closed := by
  have root : empty.entries.find? [] = some .directory := rfl
  have below : (empty.put [⟨['b'], by decide⟩] .directory).entries.Closed :=
    empty_wellFormed.closed.insert root (.inl rfl)
  have rootBelow : (empty.put [⟨['b'], by decide⟩] .directory).entries.find? [] =
      some .directory := rfl
  exact below.insert rootBelow (.inr (by decide))

end Scaffold.Memory
