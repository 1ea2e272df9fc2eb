import Scaffold.Proofs.Path.Normalization
import Scaffold.Proofs.Storage.Call
import Scaffold.Storage.Disk
import Scaffold.Storage.Memory

/-! One entry under several paths. A storage asks no more of a path than where it leads from the
current directory, and whether there is one at all. So an entry may be addressed from a directory
entered before, or with its dots resolved, and every call does the same. -/
namespace Scaffold

/-- The call made with `p` in the place of its own path. -/
def Call.at (p : Path) : Call → Call
  | .enter _ => .enter p
  | .makeDirectory _ => .makeDirectory p
  | .makeFile _ content => .makeFile p content
  | .write _ content => .write p content
  | .remove _ => .remove p
  | .has _ => .has p
  | .isDirectory _ => .isDirectory p
  | .isFile _ => .isFile p
  | .read _ => .read p

/-- What `p` is in `s`, `q` is in `t`: the place of one entry on the host, and one directory when it
can be entered. Calls with either get one answer, and leave one tree. -/
structure Storage.SameEntry {σ : Type} [Storage σ] (oneTree : σ → σ → Prop) (s : σ) (p : Path)
    (t : σ) (q : Path) : Prop where
  place : Storage.toHost s p = Storage.toHost t q
  entered : (Storage.enter s p).1 = .ok () →
    Storage.cwd (Storage.enter s p).2 = Storage.cwd (Storage.enter t q).2
  calls : ∀ call : Call, Agree oneTree ((call.at p).ask s) ((call.at q).ask t)

theorem Agree.of_attempts {σ τ : Type} {R : σ → τ → Prop} {x : Attempt σ} {y : Attempt τ}
    (agree : Agree R x y) : Agree R (Call.attempt x) (Call.attempt y) := agree.map _

namespace Memory

def OneTree (m n : Memory) : Prop := m.entries = n.entries ∧ m.root = n.root

variable (m : Memory) (cursor : Location)

theorem makeDirectoryAt_moved (l : Location) : makeDirectoryAt { m with cwd := cursor } l =
    ((m.makeDirectoryAt l).1, { (m.makeDirectoryAt l).2 with cwd := cursor }) := by
  unfold makeDirectoryAt
  split <;> rfl

theorem makeParent_moved (l : Location) : makeParent { m with cwd := cursor } l =
    ((m.makeParent l).1, { (m.makeParent l).2 with cwd := cursor }) := by
  unfold makeParent
  simp only [makeDirectoryAt_moved]
  split <;> rfl

variable {m cursor}

theorem eq_moved {p : Path} {after : Memory} (entered : m.enter p = (.ok (), after)) :
    after = { m with cwd := m.locate p } := by
  simp only [enter] at entered
  split at entered
  · cases entered
  · cases entered
  · cases entered
    rfl

variable {p q : Path} (located : cursor.resolve p = m.locate q)

include located

theorem entry_moved (tell : Entry → Bool) :
    SameAnswer ((entry { m with cwd := cursor } p).map tell) ((m.entry q).map tell) := by
  have there : locate { m with cwd := cursor } p = m.locate q := located
  simp only [entry, there]
  split <;> rfl

theorem read_moved : SameAnswer (read { m with cwd := cursor } p) (m.read q) := by
  have there : locate { m with cwd := cursor } p = m.locate q := located
  simp only [read, entry, there]
  cases m.entries.find? (m.locate q) with
  | none => rfl
  | some entry => cases entry <;> rfl

theorem enter_moved : Agree (fun s t => OneTree s t ∧
      ((enter { m with cwd := cursor } p).1 = .ok () → Storage.cwd s = Storage.cwd t))
    (enter { m with cwd := cursor } p) (m.enter q) := by
  have there : locate { m with cwd := cursor } p = m.locate q := located
  simp only [enter, there]
  split
  next => exact ⟨rfl, ⟨rfl, rfl⟩, by rintro ⟨⟩⟩
  next => exact ⟨rfl, ⟨rfl, rfl⟩, by rintro ⟨⟩⟩
  next => exact ⟨rfl, ⟨rfl, rfl⟩, fun _ => rfl⟩

theorem makeFile_moved (content : Bytes) :
    Agree OneTree (makeFile { m with cwd := cursor } p content) (m.makeFile q content) := by
  have there : locate { m with cwd := cursor } p = m.locate q := located
  simp only [makeFile, there, makeParent_moved]
  split
  next => exact ⟨rfl, rfl, rfl⟩
  next =>
    rcases made : m.makeParent (m.locate q).parent with ⟨_ | _, after⟩
    · exact ⟨rfl, rfl, rfl⟩
    · exact ⟨rfl, rfl, rfl⟩

theorem write_moved (content : Bytes) :
    Agree OneTree (write { m with cwd := cursor } p content) (m.write q content) := by
  have there : locate { m with cwd := cursor } p = m.locate q := located
  simp only [write, there]
  split <;> exact ⟨rfl, rfl, rfl⟩

variable (filled : p.text ≠ []) (otherFilled : q.text ≠ [])

include filled otherFilled

theorem makeDirectory_moved :
    Agree OneTree (makeDirectory { m with cwd := cursor } p) (m.makeDirectory q) := by
  have there : locate { m with cwd := cursor } p = m.locate q := located
  simp only [makeDirectory, if_neg filled, if_neg otherFilled, there, makeDirectoryAt_moved]
  exact ⟨rfl, rfl, rfl⟩

theorem remove_moved : Agree OneTree (remove { m with cwd := cursor } p) (m.remove q) := by
  have there : locate { m with cwd := cursor } p = m.locate q := located
  simp only [remove, if_neg filled, if_neg otherFilled, there]
  split
  next => exact ⟨rfl, rfl, rfl⟩
  next => split <;> exact ⟨rfl, rfl, rfl⟩

/-- Seen from another directory, the entry has another path. -/
theorem sameEntry : Storage.SameEntry OneTree { m with cwd := cursor } p m q where
  place := congrArg (fun l : Location => m.root.join l.relative) located
  entered := (enter_moved located).related.2
  calls call := by
    cases call with
    | enter => exact .of_attempts ⟨(enter_moved located).answer, (enter_moved located).related.1⟩
    | makeDirectory => exact .of_attempts (makeDirectory_moved located filled otherFilled)
    | makeFile _ content => exact .of_attempts (makeFile_moved located content)
    | write _ content => exact .of_attempts (write_moved located content)
    | remove => exact .of_attempts (remove_moved located filled otherFilled)
    | has =>
      have held : has { m with cwd := cursor } p = m.has q := congrArg m.entries.contains located
      exact ⟨congrArg (some ∘ Answer.truth) held, rfl, rfl⟩
    | isDirectory => exact ⟨(entry_moved located _).map _, rfl, rfl⟩
    | isFile => exact ⟨(entry_moved located _).map _, rfl, rfl⟩
    | read => exact ⟨(read_moved located).map _, rfl, rfl⟩

end Memory

namespace Disk

def OneTree (d e : Disk) : Prop := d.host = e.host ∧ d.root = e.root

variable (d : Disk) (cursor : Location)

theorem has_moved (l : Location) : has { d with cwd := cursor } l.path = d.has l.path := by
  simp only [has, toHost, locate_path]
  rfl

theorem isDirectory_moved (l : Location) :
    isDirectory { d with cwd := cursor } l.path = d.isDirectory l.path := by
  simp only [isDirectory, node, toHost, locate_path]
  rfl

theorem fillDirectories_moved (lineage : List Location) :
    fillDirectories { d with cwd := cursor } lineage =
      ((d.fillDirectories lineage).1, { (d.fillDirectories lineage).2 with cwd := cursor }) := by
  induction lineage generalizing d with
  | nil => rfl
  | cons l lineage ih =>
    rw [fillDirectories, fillDirectories, has_moved, isDirectory_moved]
    split
    next =>
      split
      next => rfl
      next => rfl
      next => exact ih d
    next =>
      have path : hostPath { d with cwd := cursor } l = d.hostPath l := rfl
      rw [path]
      cases made : d.host.createDirectory (d.hostPath l) with
      | error fault => rfl
      | ok host => exact ih { d with host := host }

theorem makeDirectoryAt_moved (l : Location) : makeDirectoryAt { d with cwd := cursor } l =
    ((d.makeDirectoryAt l).1, { (d.makeDirectoryAt l).2 with cwd := cursor }) := by
  simp only [makeDirectoryAt, has_moved, fillDirectories_moved]
  split <;> rfl

theorem makeParent_moved (l : Location) : makeParent { d with cwd := cursor } l =
    ((d.makeParent l).1, { (d.makeParent l).2 with cwd := cursor }) := by
  simp only [makeParent, has_moved, makeDirectoryAt_moved]
  split <;> rfl

theorem settle_moved (tried : Except Host.Fault Host) :
    Agree OneTree (settle { d with cwd := cursor } tried) (d.settle tried) := by
  cases tried <;> exact ⟨rfl, rfl, rfl⟩

variable {d cursor}

theorem eq_moved {p : Path} {after : Disk} (entered : d.enter p = (.ok (), after)) :
    after = { d with cwd := d.locate p } := by
  simp only [enter] at entered
  split at entered
  · cases entered
  · cases entered
  · cases entered
    rfl

variable {p q : Path} (located : cursor.resolve p = d.locate q)

include located

theorem toHost_moved : toHost { d with cwd := cursor } p = d.toHost q :=
  congrArg d.hostPath located

theorem node_moved : SameAnswer (node { d with cwd := cursor } p) (d.node q) := by
  simp only [node, toHost_moved located]
  split <;> rfl

theorem read_moved : SameAnswer (read { d with cwd := cursor } p) (d.read q) := by
  rw [read, read, isDirectory, isDirectory, toHost_moved located]
  rcases (node_moved located).cases with ⟨f, other, first, second⟩ | ⟨node, first, second⟩
  · rw [first, second]
    rfl
  · rw [first, second]
    simp only [Except.map]
    cases node.isDirectory <;> rfl

theorem enter_moved : Agree (fun s t => OneTree s t ∧
      ((enter { d with cwd := cursor } p).1 = .ok () → Storage.cwd s = Storage.cwd t))
    (enter { d with cwd := cursor } p) (d.enter q) := by
  have there : locate { d with cwd := cursor } p = d.locate q := located
  simp only [enter, there, isDirectory_moved]
  split
  next => exact ⟨rfl, ⟨rfl, rfl⟩, by rintro ⟨⟩⟩
  next => exact ⟨rfl, ⟨rfl, rfl⟩, by rintro ⟨⟩⟩
  next => exact ⟨rfl, ⟨rfl, rfl⟩, fun _ => rfl⟩

theorem makeFile_moved (content : Bytes) :
    Agree OneTree (makeFile { d with cwd := cursor } p content) (d.makeFile q content) := by
  have there : locate { d with cwd := cursor } p = d.locate q := located
  simp only [makeFile, there, has_moved, makeParent_moved]
  split
  next => exact ⟨rfl, rfl, rfl⟩
  next =>
    rcases d.makeParent (d.locate q).parent with ⟨_ | _, after⟩
    · exact ⟨rfl, rfl, rfl⟩
    · exact after.settle_moved cursor _

theorem write_moved (content : Bytes) :
    Agree OneTree (write { d with cwd := cursor } p content) (d.write q content) := by
  rw [write, write, isDirectory, isDirectory, toHost_moved located]
  rcases (node_moved located).cases with ⟨f, other, first, second⟩ | ⟨node, first, second⟩
  · rw [first, second]
    exact ⟨rfl, rfl, rfl⟩
  · rw [first, second]
    simp only [Except.map]
    cases node.isDirectory with
    | true => exact ⟨rfl, rfl, rfl⟩
    | false => exact d.settle_moved cursor _

variable (filled : p.text ≠ []) (otherFilled : q.text ≠ [])

include filled otherFilled

theorem makeDirectory_moved :
    Agree OneTree (makeDirectory { d with cwd := cursor } p) (d.makeDirectory q) := by
  have there : locate { d with cwd := cursor } p = d.locate q := located
  rw [makeDirectory, makeDirectory, if_neg filled, if_neg otherFilled, there,
    makeDirectoryAt_moved]
  generalize d.makeDirectoryAt (d.locate q) = made
  exact ⟨rfl, rfl, rfl⟩

theorem remove_moved : Agree OneTree (remove { d with cwd := cursor } p) (d.remove q) := by
  have there : locate { d with cwd := cursor } p = d.locate q := located
  have path (l : Location) : hostPath { d with cwd := cursor } l = d.hostPath l := rfl
  simp only [remove, if_neg filled, if_neg otherFilled, there, has_moved, path]
  split
  next => exact ⟨rfl, rfl, rfl⟩
  next =>
    split
    next => exact ⟨rfl, rfl, rfl⟩
    next => rcases d.host.removeAll (d.hostPath (d.locate q)) with ⟨_ | _, host⟩ <;>
        exact ⟨rfl, rfl, rfl⟩

/-- Seen from another directory, the entry has another path. -/
theorem sameEntry : Storage.SameEntry OneTree { d with cwd := cursor } p d q where
  place := toHost_moved located
  entered := by
    have entering (e : Disk) (path : Path) : Storage.enter e path = e.enter path := rfl
    simp only [entering]
    exact (enter_moved located).related.2
  calls call := by
    cases call with
    | enter => exact .of_attempts ⟨(enter_moved located).answer, (enter_moved located).related.1⟩
    | makeDirectory => exact .of_attempts (makeDirectory_moved located filled otherFilled)
    | makeFile _ content => exact .of_attempts (makeFile_moved located content)
    | write _ content => exact .of_attempts (write_moved located content)
    | remove => exact .of_attempts (remove_moved located filled otherFilled)
    | has =>
      have held : has { d with cwd := cursor } p = d.has q :=
        congrArg (fun path => (d.host.stat .entry path).isOk) (toHost_moved located)
      exact ⟨congrArg (some ∘ Answer.truth) held, rfl, rfl⟩
    | isDirectory => exact ⟨((node_moved located).map _).map _, rfl, rfl⟩
    | isFile => exact ⟨((node_moved located).map _).map _, rfl, rfl⟩
    | read => exact ⟨(read_moved located).map _, rfl, rfl⟩

end Disk

namespace Path

theorem text_join_ne_nil_right (p : Path) {q : Path} (filled : q.text ≠ []) :
    (p.join q).text ≠ [] := by
  unfold join
  split
  · exact filled
  · split <;> simp [filled]

/-- Paths may be resolved at any point: before others are joined to them, a second time, and before
a storage is given them. What is read from a directory that was entered is the same entry as before,
with the path of the directory in front. Of an absolute path the names are left that a walk goes
through which stays at the root when it goes up from there, and nothing else. -/
theorem normalize_composes (p q : Path) :
    (p.join q).normalize = (p.normalize.join q).normalize ∧
    p.normalize.normalize = p.normalize ∧
    (q.text ≠ [] →
      (∀ m after : Memory, m.enter p = (.ok (), after) →
        Storage.SameEntry Memory.OneTree after q m (p.join q)) ∧
      ∀ d after : Disk, d.enter p = (.ok (), after) →
        Storage.SameEntry Disk.OneTree after q d (p.join q)) ∧
    (∀ l : Location, (l.resolve q).path = (l.path.join q).normalize) ∧
    (p.isAbsolute →
      (∀ m : Memory, Storage.SameEntry Memory.OneTree m p.normalize m p) ∧
      (∀ d : Disk, Storage.SameEntry Disk.OneTree d p.normalize d p) ∧
      p.normalize.IsNormal ∧
      p.normalize.components = .root :: (Location.ofPath p).map .name ∧
      (∀ before after, p.components = before ++ .up :: after →
        before.foldl Location.step [] = [] →
          Location.ofPath p = after.foldl Location.step []) ∧
      (q.isAbsolute →
        (p.normalize.text = q.normalize.text ↔ Location.ofPath p = Location.ofPath q))) := by
  refine ⟨(normalize_join_normalize p q).symm, p.normalize_normalize, fun filled => ?_,
    fun l => (Location.normalize_join l q).symm, fun absolute => ?_⟩
  · have joined : (p.join q).text ≠ [] := p.text_join_ne_nil_right filled
    constructor
    · intro m after entered
      obtain rfl : after = { m with cwd := m.locate p } := Memory.eq_moved entered
      exact Memory.sameEntry (Location.resolve_join m.cwd p q).symm filled joined
    · intro d after entered
      obtain rfl : after = { d with cwd := d.locate p } := Disk.eq_moved entered
      exact Disk.sameEntry (Location.resolve_join d.cwd p q).symm filled joined
  · have home := Location.normalize_of_isAbsolute absolute
    have filled : p.text ≠ [] := by
      intro empty
      rw [isAbsolute, empty] at absolute
      cases absolute
    have normal : p.normalize.text ≠ [] := by
      rw [home]
      exact List.cons_ne_nil _ _
    have located (l : Location) : l.resolve p.normalize = l.resolve p := by
      rw [home, Location.resolve_path]
      exact Location.resolve_of_isAbsolute [] l absolute
    refine ⟨fun m => Memory.sameEntry (located m.cwd) normal filled,
      fun d => Disk.sameEntry (located d.cwd) normal filled, home ▸ Location.isNormal_path _, ?_,
      fun before after whole top => ?_, text_normalize_eq_iff absolute⟩
    · rw [home, Location.components_path]
    · rw [Location.ofPath, Location.resolve, whole, List.foldl_append, top]
      rfl

end Path

end Scaffold
