import Scaffold.Proofs.Storage.Invariant
import Scaffold.Proofs.Storage.Mirror

/-! Memory and disk answer alike. Every call that goes through on one side goes through on the other
with the same result, and afterwards both sides hold one tree again. -/
namespace Scaffold

namespace Memory

/-- Makes the directories of a lineage that are missing. -/
def fill (m : Memory) (lineage : List Location) : Attempt Memory :=
  ((fillDirectories lineage m.entries).1,
    { m with entries := (fillDirectories lineage m.entries).2 })

variable {m : Memory} {l : Location} {lineage : List Location}

theorem fill_of_directory (there : m.entries.find? l = some .directory) :
    m.fill (l :: lineage) = m.fill lineage := by
  simp only [fill, fillDirectories, there]

theorem fill_of_file {content : Bytes} (there : m.entries.find? l = some (.file content)) :
    m.fill (l :: lineage) = (.error (.notDirectory l.path), m) := by
  simp only [fill, fillDirectories, there]

theorem fill_of_nothing (absent : m.entries.find? l = none) :
    m.fill (l :: lineage) = (m.put l .directory).fill lineage := by
  simp only [fill, fillDirectories, absent]
  rfl

end Memory

namespace Mirrors

variable {m : Memory} {d : Disk} (mirrors : Mirrors m d)

include mirrors

/-- What a look at the host tells about a path, beside what the memory has for it. -/
theorem sight {p : Path} (short : ∀ n ∈ m.locate p, n.IsShort) :
    (m.entries.find? (m.locate p) = none ∧ ∃ f, d.node p = .error f) ∨
      (∃ access, m.entries.find? (m.locate p) = some .directory ∧
        d.node p = .ok (.directory access)) ∨
      ∃ access content, m.entries.find? (m.locate p) = some (.file content) ∧
        d.node p = .ok (.file access content) := by
  have seen := mirrors.node short rfl
  have same := mirrors.counterpart (m.locate p)
  rw [← seen] at same
  generalize m.entries.find? (m.locate p) = held? at same ⊢
  cases looked : d.node p with
  | error f =>
    rw [looked] at same
    cases same
    exact .inl ⟨rfl, f, rfl⟩
  | ok node =>
    rw [looked] at same
    generalize answer : (Except.ok node : Except Failure Host.Node).toOption = node? at same
    cases same with
    | nothing => cases answer
    | directory opened =>
      cases answer
      exact .inr (.inl ⟨_, rfl, rfl⟩)
    | file opened =>
      cases answer
      exact .inr (.inr ⟨_, _, rfl, rfl⟩)

section

variable {p : Path} (short : ∀ n ∈ m.locate p, n.IsShort)

include short

theorem isDirectory : SameAnswer ((m.entry p).map Entry.isDirectory) (d.isDirectory p) := by
  rcases mirrors.sight short with
    ⟨found, f, looked⟩ | ⟨access, found, looked⟩ | ⟨access, content, found, looked⟩
  all_goals
    simp only [Memory.entry, found, Disk.isDirectory, looked]
    rfl

theorem isFile :
    SameAnswer ((m.entry p).map Entry.isFile) ((d.node p).map (!·.isDirectory)) := by
  rcases mirrors.sight short with
    ⟨found, f, looked⟩ | ⟨access, found, looked⟩ | ⟨access, content, found, looked⟩
  all_goals
    simp only [Memory.entry, found, looked]
    rfl

end

theorem moved {l : Location} (short : ∀ n ∈ l, n.IsShort) :
    Mirrors { m with cwd := l } { d with cwd := l } where
  shows := ⟨rfl, mirrors.shows.entries⟩
  closed := mirrors.closed
  unhindered := ⟨mirrors.unhindered.unlimited, mirrors.unhindered.unlinked,
    mirrors.unhindered.opened⟩
  way := mirrors.way
  root_short := mirrors.root_short
  cwd_short := short

theorem enter {p : Path} (short : ∀ n ∈ m.locate p, n.IsShort) :
    Agree Mirrors (m.enter p) (d.enter p) := by
  have sight := mirrors.sight (p := (m.locate p).path) (by rwa [Memory.locate_path])
  rw [Memory.locate_path] at sight
  simp only [Memory.enter, Disk.enter, mirrors.locate, Disk.isDirectory]
  rcases sight with ⟨absent, f, looked⟩ | ⟨access, there, looked⟩ | ⟨access, content, there, looked⟩
  · simp only [absent, looked]
    exact ⟨rfl, mirrors⟩
  · simp only [there, looked]
    exact ⟨rfl, mirrors.moved short⟩
  · simp only [there, looked]
    exact ⟨rfl, mirrors⟩

/-! ### Files -/

theorem ne_nil_of_file {l : Location} {content : Bytes}
    (there : m.entries.find? l = some (.file content)) : l ≠ [] := by
  rintro rfl
  rw [mirrors.closed.root_directory] at there
  cases there

section

variable {p : Path} (short : ∀ n ∈ m.locate p, n.IsShort)

include short

theorem read : SameAnswer (m.read p) (d.read p) := by
  rcases mirrors.sight short with
    ⟨found, f, looked⟩ | ⟨access, found, looked⟩ | ⟨access, content, found, looked⟩
  · simp only [Memory.read, Memory.entry, found, Disk.read, Disk.isDirectory, looked]
    rfl
  · simp only [Memory.read, Memory.entry, found, Disk.read, Disk.isDirectory, looked]
    rfl
  · obtain ⟨rights, there, opened⟩ := (found ▸ mirrors.counterpart (m.locate p)).of_file
    have text := (mirrors.spells short).readFile_eq_ok mirrors.unlinked
      (mirrors.passes_of_contains (Tree.contains_of_find? found)) there
      (d.slashHop_hostPath (mirrors.ne_nil_of_file found)) opened.1
    simp only [Memory.read, Memory.entry, found, Disk.read, Disk.isDirectory, looked,
      Except.map, Host.Node.isDirectory, Disk.toHost, mirrors.locate, text]

theorem write (new : Bytes) : Agree Mirrors (m.write p new) (d.write p new) := by
  rcases mirrors.sight short with
    ⟨found, f, looked⟩ | ⟨access, found, looked⟩ | ⟨access, content, found, looked⟩
  · simp only [Memory.write, found, Disk.write, Disk.isDirectory, looked]
    exact ⟨rfl, mirrors⟩
  · simp only [Memory.write, found, Disk.write, Disk.isDirectory, looked]
    exact ⟨rfl, mirrors⟩
  · obtain ⟨rights, there, opened⟩ := (found ▸ mirrors.counterpart (m.locate p)).of_file
    have written := (mirrors.spells short).writeFile_eq_ok mirrors.unlinked
      (mirrors.passes_of_contains (Tree.contains_of_find? found)) there
      (d.slashHop_hostPath (mirrors.ne_nil_of_file found)) opened.2 new
    simp only [Memory.write, found, Disk.write, Disk.isDirectory, looked,
      Except.map, Host.Node.isDirectory, Disk.toHost, mirrors.locate, written, Disk.settle]
    exact ⟨rfl, mirrors.put (mirrors.closed.insert_file found new) rfl opened⟩

end

/-! ### New entries -/

section

variable {above : Location} {n : Path.Name} (short : ∀ k ∈ above ++ [n], k.IsShort)
variable (home : m.entries.find? above = some .directory)
variable (absent : m.entries.find? (above ++ [n]) = none)

include short home absent

/-- A free name in a directory of the memory is free in a directory of the host. -/
theorem vacant : d.host.Spells (d.hostPath (above ++ [n])) (d.root ++ above ++ [n]) ∧
    d.host.Passes [] (d.root ++ above ++ [n]) ∧
      d.host.nodes.find? (d.root ++ above ++ [n]) = none := by
  have passes : d.host.Passes [] (d.root ++ (above ++ [n])) :=
    mirrors.passes (by rwa [Location.parent_concat])
  rw [List.append_assoc]
  exact ⟨mirrors.spells short, passes, (absent ▸ mirrors.counterpart (above ++ [n])).of_nothing⟩

theorem createDirectory :
    let host := d.host.put (d.root ++ (above ++ [n])) (.directory .newDirectory)
    d.host.createDirectory (d.hostPath (above ++ [n])) = .ok host ∧
      Mirrors (m.put (above ++ [n]) .directory) { d with host := host } := by
  obtain ⟨spells, passes, free⟩ := mirrors.vacant short home absent
  have made := spells.createDirectory_eq_ok mirrors.unlinked passes (mirrors.mayChange home) free
  rw [List.append_assoc] at made
  refine ⟨made, mirrors.put (mirrors.closed.insert home (.inl rfl)) rfl ?_⟩
  simp [Host.Node.IsOpen, Host.Access.newDirectory, Host.Access.ofMode]

theorem createFile (content : Bytes) : ∃ host,
    d.host.createFile (d.hostPath (above ++ [n])) content = .ok host ∧
      Mirrors (m.put (above ++ [n]) (.file content)) { d with host := host } := by
  obtain ⟨spells, passes, free⟩ := mirrors.vacant short home absent
  have made := spells.createFile_eq_ok mirrors.unlinked passes (mirrors.mayChange home) free
    (d.slashHop_hostPath (by simp)) content
  rw [List.append_assoc] at made
  refine ⟨_, made, mirrors.put (mirrors.closed.insert home (.inr (by simp [absent]))) rfl ?_⟩
  simp [Host.Node.IsOpen, Host.Access.newFile, Host.Access.ofMode]

end

theorem fillDirectories_cons {l : Location} (rest : List Location) (short : ∀ n ∈ l, n.IsShort)
    (home : m.entries.find? l.parent = some .directory) :
    (m.entries.find? l = none ∧
        let made := { d with host := d.host.put (d.root ++ l) (.directory .newDirectory) }
        Mirrors (m.put l .directory) made ∧
          d.fillDirectories (l :: rest) = made.fillDirectories rest) ∨
      (m.entries.find? l = some .directory ∧
        d.fillDirectories (l :: rest) = d.fillDirectories rest) ∨
      ∃ content, m.entries.find? l = some (.file content) ∧
        d.fillDirectories (l :: rest) = (.error (.notDirectory l.path), d) := by
  have sight := mirrors.sight (p := l.path) (by rwa [Memory.locate_path])
  rw [Memory.locate_path] at sight
  rw [Disk.fillDirectories, mirrors.has_path short, Disk.isDirectory]
  rcases sight with ⟨absent, _⟩ | ⟨access, found, looked⟩ | ⟨access, content, found, looked⟩
  · left
    rw [if_neg (by simp [Tree.contains, absent])]
    rcases l.eq_nil_or_concat' with rfl | ⟨above, n, rfl⟩
    · simp [mirrors.closed.root_directory] at absent
    · rw [Location.parent_concat] at home
      obtain ⟨made, mirrored⟩ := mirrors.createDirectory short home absent
      rw [made]
      exact ⟨absent, mirrored, rfl⟩
  · right; left
    rw [if_pos (Tree.contains_of_find? found), looked]
    exact ⟨found, rfl⟩
  · right; right
    rw [if_pos (Tree.contains_of_find? found), looked]
    exact ⟨content, found, rfl⟩

theorem fill_cons {l : Location} {rest : List Location} (short : ∀ n ∈ l, n.IsShort)
    (home : m.entries.find? l.parent = some .directory)
    (next : ∀ {m' : Memory} {d' : Disk}, Mirrors m' d' → m'.entries.find? l = some .directory →
      Agree Mirrors (m'.fill rest) (d'.fillDirectories rest)) :
    Agree Mirrors (m.fill (l :: rest)) (d.fillDirectories (l :: rest)) := by
  rcases mirrors.fillDirectories_cons rest short home with
    ⟨absent, mirrored, filled⟩ | ⟨found, filled⟩ | ⟨content, found, filled⟩
  · rw [Memory.fill_of_nothing absent, filled]
    exact next mirrored (by simp [Tree.find?_insert])
  · rw [Memory.fill_of_directory found, filled]
    exact next mirrors found
  · rw [Memory.fill_of_file found, filled]
    exact ⟨rfl, mirrors⟩

theorem fill_lineageFrom {above : Location} {names : List Path.Name}
    (short : ∀ n ∈ above ++ names, n.IsShort)
    (home : m.entries.find? above.parent = some .directory) :
    Agree Mirrors (m.fill (Location.lineageFrom above names))
      (d.fillDirectories (Location.lineageFrom above names)) := by
  have here : ∀ n ∈ above, n.IsShort := fun n member => short n (List.mem_append_left _ member)
  induction names generalizing above m d with
  | nil => exact mirrors.fill_cons here home fun mirrored _ => ⟨rfl, mirrored⟩
  | cons k names ih =>
    refine mirrors.fill_cons here home fun mirrored there => ?_
    have whole : above ++ k :: names = above ++ [k] ++ names := by simp
    rw [whole] at short
    apply ih mirrored short
    · rwa [Location.parent_concat]
    · exact fun n member => short n (List.mem_append_left _ member)

theorem makeDirectoryAt {l : Location} (short : ∀ n ∈ l, n.IsShort) :
    Agree Mirrors (m.makeDirectoryAt l) (d.makeDirectoryAt l) := by
  rw [Memory.makeDirectoryAt, Disk.makeDirectoryAt, mirrors.has_path short]
  split
  next => exact ⟨rfl, mirrors⟩
  next absent =>
    cases l with
    | nil => exact absurd (Tree.contains_of_find? mirrors.closed.root_directory) absent
    | cons n names =>
      -- The memory starts at its root, which is a directory; the disk starts one below.
      have filled : Agree Mirrors (m.fill (Location.lineageFrom [n] names)) _ :=
        mirrors.fill_lineageFrom short mirrors.closed.root_directory
      rw [← Memory.fill_of_directory mirrors.closed.root_directory] at filled
      exact filled

theorem makeDirectory {p : Path} (short : ∀ n ∈ m.locate p, n.IsShort) :
    Agree Mirrors (m.makeDirectory p) (d.makeDirectory p) := by
  rw [Memory.makeDirectory, Disk.makeDirectory, mirrors.locate]
  split
  · exact ⟨rfl, mirrors⟩
  · exact mirrors.makeDirectoryAt short

theorem createFile_eq_error {above : Location} {n : Path.Name}
    (short : ∀ k ∈ above ++ [n], k.IsShort) {old : Bytes}
    (barred : m.entries.find? above = some (.file old)) (content : Bytes) :
    ∃ fault, d.host.createFile (d.hostPath (above ++ [n])) content = .error fault := by
  obtain ⟨access, found, _⟩ := (barred ▸ mirrors.counterpart above).of_file
  apply (mirrors.spells short).createFile_eq_error mirrors.unlinked (d.slashHop_hostPath (by simp))
  left
  intro passes
  rw [← List.append_assoc, Host.passes_concat, List.nil_append] at passes
  obtain ⟨_, there, _⟩ := passes.2
  rw [found] at there
  cases there

theorem makeFile {p : Path} (short : ∀ n ∈ m.locate p, n.IsShort) (content : Bytes) :
    Agree Mirrors (m.makeFile p content) (d.makeFile p content) := by
  simp only [Memory.makeFile, Disk.makeFile, mirrors.locate]
  generalize m.locate p = l at short
  rw [mirrors.has_path short]
  split
  next => exact ⟨rfl, mirrors⟩
  next taken =>
    rcases l.eq_nil_or_concat' with rfl | ⟨above, n, rfl⟩
    · exact absurd (Tree.contains_of_find? mirrors.closed.root_directory) taken
    · have absent : m.entries.find? (above ++ [n]) = none := by simpa [Tree.contains] using taken
      have higher : ∀ k ∈ above, k.IsShort :=
        fun k member => short k (List.mem_append_left _ member)
      rw [Location.parent_concat, Disk.makeParent, mirrors.has_path higher]
      cases home : m.entries.find? above with
      | none =>
        have parent : m.makeParent above = m.makeDirectoryAt above := by
          simp only [Memory.makeParent, home]
        have filled : (m.makeParent above).1 = .ok () → _ := Memory.find?_makeParent_of_ok
        have kept : (m.makeParent above).2.entries.find? (above ++ [n]) = _ :=
          Memory.find?_makeParent_of_not_prefix (Location.not_concat_prefix above n)
        rw [if_neg (by simp [Tree.contains, home])]
        rcases (mirrors.makeDirectoryAt higher).cases with
          ⟨e, other, m', d', made, host, mirrored⟩ | ⟨_, m', d', made, host, mirrored⟩
        · rw [parent, made, host]
          exact ⟨rfl, mirrored⟩
        · rw [parent, made] at filled kept
          rw [parent, made, host]
          obtain ⟨after, done, last⟩ :=
            mirrored.createFile short (filled rfl) (kept.trans absent) content
          simp only [Disk.settle, done]
          exact ⟨rfl, last⟩
      | some entry =>
        rw [if_pos (Tree.contains_of_find? home)]
        cases entry with
        | directory =>
          obtain ⟨host, made, mirrored⟩ := mirrors.createFile short home absent content
          simp only [Memory.makeParent, home, Disk.settle, made]
          exact ⟨rfl, mirrored⟩
        | file old =>
          obtain ⟨fault, refused⟩ := mirrors.createFile_eq_error short home content
          simp only [Memory.makeParent, home, Disk.settle, refused]
          exact ⟨rfl, mirrors⟩

/-! ### Removal -/

theorem removeAll {above : Location} {n : Path.Name} (short : ∀ k ∈ above ++ [n], k.IsShort)
    (there : m.entries.contains (above ++ [n])) : ∃ nodes : Tree Host.Node,
      d.host.removeAll (d.hostPath (above ++ [n])) = (.ok (), { d.host with nodes := nodes }) ∧
        nodes.Agrees (d.host.nodes.prune (d.root ++ (above ++ [n]))) ∧
        ∀ entry ∈ nodes.nodes, entry ∈ d.host.nodes.nodes := by
  have spells := mirrors.spells short
  have passes := mirrors.passes_of_contains there
  have found := (mirrors.counterpart (above ++ [n])).isSome_iff.trans there
  have change := mirrors.mayChange (mirrors.closed.parent_directory above n there)
  have opened : ∀ entry ∈ d.host.nodes.nodes, entry.1.isWithin (d.root ++ (above ++ [n])) →
      entry.2.IsOpen := by
    intro entry member within
    apply mirrors.unhindered.opened entry member
    rw [Location.isWithin_iff] at within ⊢
    exact (List.prefix_append _ _).trans within
  rw [← List.append_assoc] at spells passes found opened ⊢
  exact spells.removeAll_eq_ok mirrors.unlinked passes change (d.slashHop_hostPath (by simp))
    opened found

theorem remove {p : Path} (short : ∀ n ∈ m.locate p, n.IsShort) :
    Agree Mirrors (m.remove p) (d.remove p) := by
  simp only [Memory.remove, Disk.remove, mirrors.locate, mirrors.shows.cwd]
  generalize m.locate p = l at short
  rw [mirrors.has_path short]
  split
  next => exact ⟨rfl, mirrors⟩
  next =>
    split
    next => exact ⟨rfl, mirrors⟩
    next below =>
      split
      next => exact ⟨rfl, mirrors⟩
      next there =>
        obtain ⟨above, n, rfl⟩ := l.eq_nil_or_concat'.resolve_left below
        obtain ⟨nodes, removed, pruned, members⟩ := mirrors.removeAll short (by simpa using there)
        rw [removed]
        refine ⟨rfl, mirrors.prune (mirrors.closed.prune below) ?_ pruned members⟩
        split
        · exact fun k member => short k (List.dropLast_subset _ member)
        · exact mirrors.cwd_short

/-- A call at an entry that the host can have is answered alike. -/
theorem ask (call : Call) (short : ∀ n ∈ m.locate call.path, n.IsShort) :
    Agree Mirrors (call.ask m) (call.ask d) := by
  cases call with
  | enter p => exact (mirrors.enter short).map _
  | makeDirectory p => exact (mirrors.makeDirectory short).map _
  | makeFile p content => exact (mirrors.makeFile short content).map _
  | write p content => exact (mirrors.write short content).map _
  | remove p => exact (mirrors.remove short).map _
  | has p =>
    have same := mirrors.has short rfl
    exact ⟨congrArg (fun holds => some (Answer.truth holds)) same.symm, mirrors⟩
  | isDirectory p => exact ⟨(mirrors.isDirectory short).map _, mirrors⟩
  | isFile p => exact ⟨(mirrors.isFile short).map _, mirrors⟩
  | read p => exact ⟨(mirrors.read short).map _, mirrors⟩

end Mirrors

/-- A memory and a disk that mirror each other give the same answers and go on to do so. -/
theorem Mirrors.alike : Storage.Alike Path.Name.IsShort Mirrors where
  cwd mirrors := mirrors.shows.cwd.symm
  cwd_allowed mirrors := mirrors.cwd_short
  ask mirrors call names := mirrors.ask call (mirrors.locate_short names)

namespace Disk

variable {host : Host} {base : Path} {d : Disk} {m : Memory}

theorem mirrors_of_openAt (opened : openAt host base = .ok d) (unhindered : d.Unhindered)
    (closed : m.entries.Closed) (shows : d.Shows m) : Mirrors m d := by
  obtain ⟨rfl, found, seen⟩ := openAt_eq_ok opened
  obtain ⟨way, short⟩ := Host.reached_of_stat unhindered.unlinked_host rfl seen
  refine ⟨shows, closed, unhindered, way, short, ?_⟩
  rw [← shows.cwd]
  simp

/-- A memory and a disk that start with one tree cannot be told apart. Calls go through on both or
fail on both and give the same answers, and so do scripts after them; the trees and the current
directories stay the same. -/
theorem answers_as_memory (opened : openAt host base = .ok d) (unhindered : d.Unhindered)
    (closed : m.entries.Closed) (shows : d.Shows m) {calls : List Call}
    (names : ∀ call ∈ calls, call.path.AllNames Path.Name.IsShort) :
    let onMemory := Call.askAll m calls
    let onDisk := Call.askAll d calls
    onMemory.1.map Except.toOption = onDisk.1.map Except.toOption ∧ onDisk.2.Shows onMemory.2 ∧
      ∀ (action : Action) (rollback : Bool) (anchor : Path) (script : Script),
        anchor.AllNames Path.Name.IsShort →
        (∀ argument ∈ script.arguments, argument.isText = false →
          Path.AllNames Path.Name.IsShort ⟨argument.value⟩) →
        SameAnswer (Replay.carryOut action rollback onMemory.2 anchor script).1
            (Replay.carryOut action rollback onDisk.2 anchor script).1 ∧
          (Replay.carryOut action rollback onDisk.2 anchor script).2.Shows
            (Replay.carryOut action rollback onMemory.2 anchor script).2 := by
  have mirrors := mirrors_of_openAt opened unhindered closed shows
  obtain ⟨answers, after⟩ := Mirrors.alike.askAll mirrors names
  refine ⟨answers, after.shows, fun action rollback anchor script anchorNames values => ?_⟩
  obtain ⟨report, last⟩ :=
    Replay.carryOut_alike Mirrors.alike after anchorNames values action rollback
  exact ⟨report, last.shows⟩

def shelf : Disk where
  host :=
    { nodes := ⟨[(Location.ofPath ⟨['/', 'w', '/', 'a']⟩, .file .newFile [1]),
        (Location.ofPath ⟨['/', 'w', '/', 'b']⟩, .directory .newDirectory),
        (Location.ofPath ⟨['/', 'w']⟩, .directory .newDirectory), ([], .directory .guest)]⟩
      workingDirectory := []
      pathLimit := none }
  root := Location.ofPath ⟨['/', 'w']⟩
  cwd := []

theorem shelf_unhindered : shelf.Unhindered where
  unlimited := rfl
  unlinked := by simp [shelf]
  opened := by decide

theorem shelf_shows : shelf.Shows Memory.shelf where
  cwd := rfl
  entries := by
    intro l
    have held : Memory.shelf.entries = ⟨[([⟨['a'], by decide⟩], .file [1]),
        ([⟨['b'], by decide⟩], .directory), ([], .directory)]⟩ := rfl
    have nodes : shelf.host.nodes = ⟨[
        ([⟨['w'], by decide⟩, ⟨['a'], by decide⟩], .file .newFile [1]),
        ([⟨['w'], by decide⟩, ⟨['b'], by decide⟩], .directory .newDirectory),
        ([⟨['w'], by decide⟩], .directory .newDirectory), ([], .directory .guest)]⟩ := rfl
    have root : shelf.root = [⟨['w'], by decide⟩] := rfl
    rw [find?, held, nodes, root, Tree.find?, Tree.find?]
    simp only [List.singleton_append, List.lookup_cons, List.cons_beq_cons, BEq.rfl, Bool.true_and]
    generalize (l == [⟨['a'], by decide⟩]) = isFile
    generalize (l == [⟨['b'], by decide⟩]) = isDirectory
    generalize (l == []) = isRoot
    cases isFile <;> cases isDirectory <;> cases isRoot <;> rfl

/-- Makes a file with a directory on the way, takes both away from within, and asks for what there
is and for what there cannot be. -/
def errands : List Call :=
  [.makeFile ⟨['c', '/', '.', '.', '/', 'd', '/', 'e']⟩ [2], .enter ⟨['d', '/']⟩, .remove ⟨['.']⟩,
    .read ⟨['a']⟩, .makeDirectory ⟨[]⟩]

theorem answers_as_memory_shelf :
    let onDisk := Call.askAll shelf errands
    onDisk.1.map Except.toOption = [some .done, some .done, some .done, some (.bytes [1]), none] ∧
      onDisk.2.cwd = [] ∧
        (Replay.carryOut .create true onDisk.2 ⟨['/']⟩ Replay.clashingScript).2.find?
          [⟨['a'], by decide⟩] = some (.file [1]) := by
  have opened : openAt shelf.host ⟨['/', 'w']⟩ = .ok shelf := rfl
  have names : ∀ call ∈ errands, call.path.AllNames Path.Name.IsShort := by decide
  obtain ⟨answers, after, scripts⟩ :=
    answers_as_memory opened shelf_unhindered Memory.shelf_closed shelf_shows names
  obtain ⟨-, last⟩ := scripts .create true ⟨['/']⟩ Replay.clashingScript (by decide) (by decide)
  exact ⟨answers.symm.trans rfl, after.cwd.trans rfl, (last.entries _).trans rfl⟩

end Disk

end Scaffold
