import Mathlib.Data.List.Induction
import Scaffold.Proofs.Host.Calls
import Scaffold.Proofs.Path.Prefix
import Scaffold.Proofs.Storage.Call
import Scaffold.Proofs.Storage.Memory
import Scaffold.Storage.Disk

/-! A memory and a disk that hold the same tree. The disk asks the host for every path, and on a
host that bars nothing the host shows what the memory has under the same location. -/
namespace Scaffold

/-- The entry that a node of a host is to a storage. -/
def Host.Node.asEntry : Host.Node → Option Entry
  | .directory _ => some .directory
  | .file _ content => some (.file content)
  | .link _ => none

namespace Disk

/-- What lies at `l`, seen from the root of the disk. -/
def find? (d : Disk) (l : Location) : Option Entry :=
  (d.host.nodes.find? (d.root ++ l)).bind Host.Node.asEntry

/-- The memory has the tree of the disk, and is in the same directory of it. -/
structure Shows (d : Disk) (m : Memory) : Prop where
  cwd : d.cwd = m.cwd
  entries : ∀ l, d.find? l = m.entries.find? l

theorem openAt_eq_ok {host : Host} {base : Path} {d : Disk} (opened : openAt host base = .ok d) :
    d = ⟨host, Location.ofPath base, []⟩ ∧
      ∃ found, host.stat .target (Location.ofPath base).path = .ok found := by
  unfold openAt at opened
  split at opened
  · cases opened
  · split at opened
    · cases opened
    · split at opened
      · cases opened
      · cases seen : host.stat .target (Location.ofPath base).path with
        | error fault =>
          simp only [seen] at opened
          cases opened
        | ok found =>
          simp only [seen] at opened
          split at opened
          · cases opened
          · cases opened
            exact ⟨rfl, found, rfl⟩

theorem isAbsolute_of_openAt {host : Host} {base : Path} {d : Disk}
    (opened : openAt host base = .ok d) : base.isAbsolute := by
  unfold openAt at opened
  split at opened
  · cases opened
  · split at opened
    · cases opened
    next absolute => simpa using absolute

theorem hasDirectory_of_openAt {host : Host} {base : Path} {d : Disk}
    (opened : openAt host base = .ok d) : host.hasDirectory base := by
  unfold openAt at opened
  split at opened
  · cases opened
  · split at opened
    · cases opened
    · split at opened
      · cases opened
      next there => simpa using there

/-- The host bars nothing: it has no links and takes paths of any length, and the caller has every
right from the root of the disk on. -/
structure Unhindered (d : Disk) : Prop where
  unlimited : d.host.pathLimit = none
  unlinked : ∀ entry ∈ d.host.nodes.nodes, ∀ target, entry.2 ≠ .link target
  opened : ∀ entry ∈ d.host.nodes.nodes, entry.1.isWithin d.root → entry.2.IsOpen

theorem Unhindered.unlinked_host {d : Disk} (unhindered : d.Unhindered) : d.host.Unlinked :=
  fun l target link =>
    unhindered.unlinked (l, .link target) (Tree.mem_of_find? link) target rfl

theorem hostPath_below (d : Disk) {l : Location} (below : l ≠ []) :
    d.hostPath l = Location.path (d.root ++ l) :=
  Location.join_relative d.root below

theorem components_hostPath (d : Disk) (l : Location) :
    (d.hostPath l).components = .root :: (d.root ++ l).map .name := by
  by_cases top : l = []
  · have filled : d.root.path.text ≠ [] := List.cons_ne_nil _ _
    rw [top, List.append_nil, ← Location.components_path]
    exact (Path.components_join_of_ne_nil filled (by decide)).trans (List.append_nil _)
  · rw [hostPath_below d top, Location.components_path]

theorem slashHop_hostPath (d : Disk) {l : Location} (below : l ≠ []) :
    Host.slashHop (d.hostPath l) = [] := by
  rw [hostPath_below d below]
  exact Host.slashHop_path (by simp [below])

end Disk

/-- The disk and the memory hold one tree, and the host bars no way to it. -/
structure Mirrors (m : Memory) (d : Disk) : Prop where
  shows : d.Shows m
  closed : m.entries.Closed
  unhindered : d.Unhindered
  way : d.host.Passes [] d.root
  root_short : ∀ n ∈ d.root, n.IsShort
  cwd_short : ∀ n ∈ m.cwd, n.IsShort

/-- What a memory has, and what the host has for it. -/
inductive Counterpart : Option Entry → Option Host.Node → Prop
  | nothing : Counterpart none none
  | directory {access : Host.Access} (opened : Host.Node.IsOpen (.directory access)) :
      Counterpart (some .directory) (some (.directory access))
  | file {access : Host.Access} {content : Bytes}
      (opened : Host.Node.IsOpen (.file access content)) :
      Counterpart (some (.file content)) (some (.file access content))

namespace Counterpart

variable {node? : Option Host.Node}

theorem of_nothing (same : Counterpart none node?) : node? = none := by
  cases same
  rfl

theorem of_directory (same : Counterpart (some .directory) node?) :
    ∃ access, node? = some (.directory access) ∧ Host.Node.IsOpen (.directory access) := by
  cases same with
  | directory opened => exact ⟨_, rfl, opened⟩

theorem of_file {content : Bytes} (same : Counterpart (some (.file content)) node?) :
    ∃ access, node? = some (.file access content) ∧ Host.Node.IsOpen (.file access content) := by
  cases same with
  | file opened => exact ⟨_, rfl, opened⟩

theorem isSome_iff {held? : Option Entry} (same : Counterpart held? node?) :
    node?.isSome = held?.isSome := by
  cases same <;> rfl

end Counterpart

namespace Mirrors

variable {m : Memory} {d : Disk} (mirrors : Mirrors m d)

include mirrors

theorem unlinked : d.host.Unlinked := mirrors.unhindered.unlinked_host

theorem counterpart (l : Location) :
    Counterpart (m.entries.find? l) (d.host.nodes.find? (d.root ++ l)) := by
  rw [← mirrors.shows.entries l, Disk.find?]
  cases found : d.host.nodes.find? (d.root ++ l) with
  | none => exact .nothing
  | some node =>
    have opened : node.IsOpen :=
      mirrors.unhindered.opened _ (Tree.mem_of_find? found) (by simp [Location.isWithin])
    cases node with
    | directory access => exact .directory opened
    | file access content => exact .file opened
    | link target => exact absurd found (mirrors.unlinked _ _)

theorem enterable {l : Location} (there : m.entries.find? l = some .directory) :
    d.host.Enterable (d.root ++ l) := by
  obtain ⟨access, found, opened⟩ := (there ▸ mirrors.counterpart l).of_directory
  exact ⟨access, found, opened.2.2⟩

theorem mayChange {l : Location} (there : m.entries.find? l = some .directory) :
    d.host.mayChange (d.root ++ l) := by
  obtain ⟨access, found, opened⟩ := (there ▸ mirrors.counterpart l).of_directory
  simp [Host.mayChange, found, opened.2.1, opened.2.2]

theorem passes {l : Location} (home : m.entries.find? l.parent = some .directory) :
    d.host.Passes [] (d.root ++ l) := by
  have below : d.host.Passes d.root l := by
    induction l using List.reverseRecOn with
    | nil => trivial
    | append_singleton l n ih =>
      rw [Location.parent_concat] at home
      exact Host.passes_concat.2
        ⟨ih (mirrors.closed.parent_of_directory home), mirrors.enterable home⟩
  exact Host.passes_append.2 ⟨mirrors.way, below⟩

theorem passes_of_contains {l : Location} (there : m.entries.contains l) :
    d.host.Passes [] (d.root ++ l) := by
  apply mirrors.passes
  rcases l.eq_nil_or_concat' with rfl | ⟨above, n, rfl⟩
  · exact mirrors.closed.root_directory
  · rw [Location.parent_concat]
    exact mirrors.closed.parent_directory above n there

/-! ### The paths that the host is asked for -/

theorem spells {l : Location} (short : ∀ n ∈ l, n.IsShort) :
    d.host.Spells (d.hostPath l) (d.root ++ l) := by
  have names : ∀ n ∈ d.root ++ l, n.IsShort := by
    intro n member
    rcases List.mem_append.1 member with above | below
    · exact mirrors.root_short n above
    · exact short n below
  by_cases top : l = []
  · subst top
    rw [List.append_nil] at names ⊢
    exact Host.spells_join_empty mirrors.unhindered.unlimited names
  · rw [d.hostPath_below top]
    exact Host.spells_path mirrors.unhindered.unlimited names

theorem locate (p : Path) : d.locate p = m.locate p := by
  rw [Disk.locate, Memory.locate, mirrors.shows.cwd]

theorem locate_short {p : Path} (names : p.AllNames Path.Name.IsShort) :
    ∀ n ∈ m.locate p, n.IsShort :=
  Location.forall_mem_resolve mirrors.cwd_short names

section

variable {l : Location} (short : ∀ n ∈ l, n.IsShort)

include short

theorem toOption_stat {aim : Host.Aim} (probes : aim.makesFile = false) :
    (d.host.stat aim (d.hostPath l)).toOption =
      (d.host.nodes.find? (d.root ++ l)).map (d.root ++ l, ·) := by
  apply (mirrors.spells short).toOption_stat mirrors.unlinked probes
  · intro there
    apply mirrors.passes_of_contains
    rwa [(mirrors.counterpart l).isSome_iff] at there
  · by_cases top : l = []
    · right
      intro node found
      have same := mirrors.counterpart l
      rw [top, mirrors.closed.root_directory] at same
      obtain ⟨access, there, _⟩ := same.of_directory
      rw [top, there] at found
      cases found
      rfl
    · exact .inl (d.slashHop_hostPath top)

theorem has {p : Path} (located : m.locate p = l) : d.has p = m.has p := by
  have seen : (d.host.stat .entry (d.hostPath l)).toOption = _ := mirrors.toOption_stat short rfl
  have same := (mirrors.counterpart l).isSome_iff
  rw [Disk.has, Disk.toHost, mirrors.locate, Memory.has, located, Tree.contains, ← same]
  cases looked : d.host.stat .entry (d.hostPath l) with
  | error fault =>
    rw [looked] at seen
    have absent : d.host.nodes.find? (d.root ++ l) = none := Option.map_eq_none_iff.1 seen.symm
    rw [absent]
    rfl
  | ok found =>
    rw [looked] at seen
    obtain ⟨node, there, _⟩ := Option.map_eq_some_iff.1 seen.symm
    rw [there]
    rfl

theorem has_path : d.has l.path = m.entries.contains l := by
  rw [mirrors.has short (Memory.locate_path m l), Memory.has, Memory.locate_path]

theorem node {p : Path} (located : m.locate p = l) :
    (d.node p).toOption = d.host.nodes.find? (d.root ++ l) := by
  have seen : (d.host.stat .target (d.hostPath l)).toOption = _ := mirrors.toOption_stat short rfl
  rw [Disk.node, Disk.toHost, mirrors.locate, located]
  cases looked : d.host.stat .target (d.hostPath l) with
  | error fault =>
    rw [looked] at seen
    exact (Option.map_eq_none_iff.1 seen.symm).symm
  | ok found =>
    rw [looked] at seen
    obtain ⟨node, there, rfl⟩ := Option.map_eq_some_iff.1 seen.symm
    exact there.symm

end

/-! ### Changes of the tree -/

theorem change {entries : Tree Entry} {nodes : Tree Host.Node} {cwd : Location}
    (closed : entries.Closed) (cwd_short : ∀ n ∈ cwd, n.IsShort)
    (members : ∀ entry ∈ nodes.nodes, entry ∈ d.host.nodes.nodes ∨ entry.2.IsOpen)
    (higher : ∀ l, l.length < d.root.length → nodes.find? l = d.host.nodes.find? l)
    (same : ∀ l, (nodes.find? (d.root ++ l)).bind Host.Node.asEntry = entries.find? l) :
    Mirrors { m with entries := entries, cwd := cwd }
      { d with host := { d.host with nodes := nodes }, cwd := cwd } where
  shows := ⟨rfl, same⟩
  closed := closed
  unhindered :=
    { unlimited := mirrors.unhindered.unlimited
      unlinked := by
        intro entry member target link
        rcases members entry member with old | opened
        · exact mirrors.unhindered.unlinked entry old target link
        · rw [link] at opened
          exact opened
      opened := by
        intro entry member within
        rcases members entry member with old | opened
        · exact mirrors.unhindered.opened entry old within
        · exact opened }
  way := mirrors.way.congr fun l short => higher l (by simpa using short)
  root_short := mirrors.root_short
  cwd_short := cwd_short

theorem put {l : Location} {entry : Entry} {node : Host.Node}
    (closed : (m.entries.insert l entry).Closed) (same : node.asEntry = some entry)
    (opened : node.IsOpen) :
    Mirrors (m.put l entry) { d with host := d.host.put (d.root ++ l) node } := by
  obtain ⟨host, root, cwd⟩ := d
  obtain rfl : cwd = m.cwd := mirrors.shows.cwd
  apply mirrors.change closed mirrors.cwd_short
  · intro other member
    rcases List.mem_cons.1 member with rfl | old
    · exact .inr opened
    · exact .inl (List.mem_filter.1 old).1
  · intro k short
    rw [Tree.find?_insert, if_neg]
    rintro rfl
    rw [List.length_append] at short
    omega
  · intro k
    simp only [Tree.find?_insert, List.append_right_inj]
    split
    · exact same
    · exact mirrors.shows.entries k

theorem prune {l : Location} (closed : (m.entries.prune l).Closed) {cwd : Location}
    (cwd_short : ∀ n ∈ cwd, n.IsShort) {nodes : Tree Host.Node}
    (pruned : nodes.Agrees (d.host.nodes.prune (d.root ++ l)))
    (members : ∀ entry ∈ nodes.nodes, entry ∈ d.host.nodes.nodes) :
    Mirrors { m with entries := m.entries.prune l, cwd := cwd }
      { d with host := { d.host with nodes := nodes }, cwd := cwd } := by
  apply mirrors.change closed cwd_short
  · exact fun entry member => .inl (members entry member)
  · intro k short
    rw [pruned k, Tree.find?_prune, if_neg]
    intro within
    have longer := (Location.isWithin_iff.1 within).length_le
    rw [List.length_append] at longer
    omega
  · intro k
    have within : Location.isWithin (d.root ++ k) (d.root ++ l) = k.isWithin l := by
      rw [Bool.eq_iff_iff, Location.isWithin_iff, Location.isWithin_iff,
        List.prefix_append_right_inj]
    rw [pruned (d.root ++ k), Tree.find?_prune, Tree.find?_prune, within]
    split
    · rfl
    · exact mirrors.shows.entries k

end Mirrors

end Scaffold
