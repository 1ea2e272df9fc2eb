import Scaffold.Proofs.Storage.Call
import Scaffold.Proofs.Storage.Mirror

/-! What the calls on a disk do with its host. They look at the host and change it at the paths
that the disk has for its own, and what they change lies below the root of the disk. -/
namespace Scaffold

/-- The path goes on from the components of `base` with one or more names. -/
def Path.LiesBelow (p base : Path) : Prop :=
  ∃ names : List Path.Name, names ≠ [] ∧ p.components = base.components ++ names.map .name

namespace Host

/-- The hosts that `h` becomes when directories and files are made, files are written and entries
are removed at allowed paths. A removal that fails may have removed some of what lay below. -/
inductive Becomes (allowed : Path → Prop) (h : Host) : Host → Prop
  | same : Becomes allowed h h
  | createDirectory {now after : Host} {p : Path} (before : Becomes allowed h now)
      (fits : allowed p) (made : now.createDirectory p = .ok after) : Becomes allowed h after
  | createFile {now after : Host} {p : Path} {content : Bytes} (before : Becomes allowed h now)
      (fits : allowed p) (made : now.createFile p content = .ok after) : Becomes allowed h after
  | writeFile {now after : Host} {p : Path} {content : Bytes} (before : Becomes allowed h now)
      (fits : allowed p) (written : now.writeFile p content = .ok after) : Becomes allowed h after
  | removeAll {now : Host} {p : Path} (before : Becomes allowed h now) (fits : allowed p) :
      Becomes allowed h (now.removeAll p).2

namespace Becomes

variable {allowed : Path → Prop} {h now after : Host}

theorem trans (first : h.Becomes allowed now) (later : now.Becomes allowed after) :
    h.Becomes allowed after := by
  induction later with
  | same => exact first
  | createDirectory _ fits made ih => exact .createDirectory ih fits made
  | createFile _ fits made ih => exact .createFile ih fits made
  | writeFile _ fits written ih => exact .writeFile ih fits written
  | removeAll _ fits ih => exact .removeAll ih fits

theorem mono {wider : Path → Prop} (changed : h.Becomes allowed now)
    (implies : ∀ p, allowed p → wider p) : h.Becomes wider now := by
  induction changed with
  | same => exact .same
  | createDirectory _ fits made ih => exact .createDirectory ih (implies _ fits) made
  | createFile _ fits made ih => exact .createFile ih (implies _ fits) made
  | writeFile _ fits written ih => exact .writeFile ih (implies _ fits) written
  | removeAll _ fits ih => exact .removeAll ih (implies _ fits)

end Becomes

section

variable {h : Host} {aim : Aim} {spot : Spot}

def EndsInDirectory (h : Host) (spot : Spot) : Prop :=
  ∃ l access, spot = .node l ∧ h.nodes.find? l = some (.directory access)

/-- With a slash at the end a walk leads to directories only, whatever links it follows. -/
theorem walkWith_slash {follow : Location → List Hop → Except Fault Spot}
    (followed : ∀ l hops spot, follow l (hops ++ [.slash]) = .ok spot → h.EndsInDirectory spot)
    {l : Location} {hops : List Hop}
    (ended : h.walkWith aim follow l (hops ++ [.slash]) = .ok spot) : h.EndsInDirectory spot := by
  induction hops generalizing l with
  | nil =>
    simp only [List.nil_append, walkWith, obstacle?] at ended
    split at ended
    next => cases ended
    next passed =>
      cases ended
      split at passed
      next => cases passed
      next => cases passed
      next => cases passed
      next access there => exact ⟨l, access, rfl, there⟩
  | cons hop hops ih =>
    cases hop with
    | name n =>
      -- The slash is still ahead, so the walk ends neither at a free name nor at a link.
      rw [List.cons_append, walkWith] at ended
      split at ended
      next => cases ended
      next =>
        simp only [List.append_eq_nil_iff, List.cons_ne_nil, and_false, false_and,
          if_false] at ended
        split at ended
        next => cases ended
        next =>
          split at ended
          next => cases ended
          next =>
            split at ended
            next => cases ended
            next target there =>
              rw [← List.append_assoc] at ended
              exact followed _ _ _ ended
            next => exact ih ended
    | _ =>
      rw [List.cons_append, walkWith] at ended
      split at ended
      next => cases ended
      next => exact ih ended

theorem walk_slash (links : Nat) {l : Location} {hops : List Hop}
    (ended : h.walk aim links l (hops ++ [.slash]) = .ok spot) : h.EndsInDirectory spot := by
  induction links generalizing l hops spot with
  | zero => exact walkWith_slash (fun _ _ _ stuck => by cases stuck) ended
  | succ links ih => exact walkWith_slash (fun _ _ _ => ih) ended

variable {p : Path} (slashed : p.text.getLast? = some '/')

include slashed

theorem find_slash (found : h.find aim p = .ok spot) : h.EndsInDirectory spot := by
  obtain ⟨_, -, walked⟩ := bind_eq_ok_iff.1 found
  rw [slashHop, if_pos slashed] at walked
  exact walk_slash linkLimit walked

theorem createFile_slash (content : Bytes) (after : Host) : h.createFile p content ≠ .ok after := by
  intro made
  obtain ⟨spot, found, made⟩ := bind_eq_ok_iff.1 made
  obtain ⟨l, access, rfl, -⟩ := find_slash slashed found
  cases made

theorem writeFile_slash (content : Bytes) (after : Host) : h.writeFile p content ≠ .ok after := by
  intro written
  obtain ⟨spot, found, written⟩ := bind_eq_ok_iff.1 written
  obtain ⟨l, access, rfl, there⟩ := find_slash slashed found
  simp only [there] at written
  cases written

end

end Host

namespace Disk

/-- Computations that reach the host of a disk only at the paths which the disk has for its own.
Directories are made and entries are removed below the root only. -/
inductive Confined : {α : Type} → (Disk → α × Disk) → Prop
  | pure {α : Type} (a : α) : Confined fun d => (a, d)
  | bind {α β : Type} {first : Disk → α × Disk} {next : α → Disk → β × Disk}
      (here : Confined first) (later : ∀ a, Confined (next a)) :
      Confined fun d => next (first d).1 (first d).2
  | cwd : Confined fun d => (d.cwd, d)
  | move (l : Location) : Confined fun d => ((), { d with cwd := l })
  | stat (aim : Host.Aim) (p : Path) : Confined fun d => (d.host.stat aim (d.toHost p), d)
  | readFile (p : Path) : Confined fun d => (d.host.readFile (d.toHost p), d)
  | createDirectory {l : Location} (below : l ≠ []) :
      Confined fun d => d.settle (d.host.createDirectory (d.toHost l.path))
  | createFile (p : Path) (content : Bytes) :
      Confined fun d => d.settle (d.host.createFile (d.toHost p) content)
  | writeFile (p : Path) (content : Bytes) :
      Confined fun d => d.settle (d.host.writeFile (d.toHost p) content)
  | removeAll {l : Location} (below : l ≠ []) :
      Confined fun d => ((d.host.removeAll (d.toHost l.path)).1,
        { d with host := (d.host.removeAll (d.toHost l.path)).2 })

section

variable {α β : Type} {x : Disk → α × Disk} {d : Disk}

theorem toHost_path (d : Disk) (l : Location) : d.toHost l.path = d.hostPath l := by
  rw [toHost, locate_path]

theorem components_toHost (d : Disk) (p : Path) :
    (d.toHost p).components = d.root.path.components ++ (d.locate p).map .name := by
  rw [toHost, components_hostPath, Location.components_path, List.map_append, List.cons_append]

theorem toHost_liesBelow {p : Path} (below : d.locate p ≠ []) :
    (d.toHost p).LiesBelow d.root.path :=
  ⟨d.locate p, below, components_toHost d p⟩

theorem getLast?_toHost {p : Path} (top : d.locate p = []) :
    (d.toHost p).text.getLast? = some '/' := by
  have relative : Location.relative [] = ⟨[]⟩ := rfl
  rw [toHost, top, hostPath, relative, Path.join, if_neg (by simp [Path.isAbsolute])]
  split
  next ends =>
    rw [List.append_nil]
    exact ends.resolve_left (List.cons_ne_nil _ _)
  next => exact List.getLast?_concat

theorem settle_becomes {allowed : Path → Prop} {result : Except Host.Fault Host}
    (changed : ∀ after, result = .ok after → d.host.Becomes allowed after) :
    d.host.Becomes allowed (d.settle result).2.host := by
  cases result with
  | error fault => exact .same
  | ok after => exact changed after rfl

theorem settle_root (d : Disk) (result : Except Host.Fault Host) :
    (d.settle result).2.root = d.root := by
  cases result <;> rfl

namespace Confined

theorem root (confined : Confined x) (d : Disk) : (x d).2.root = d.root := by
  induction confined generalizing d with
  | bind _ _ first later => exact (later _ _).trans (first d)
  | createDirectory below => exact settle_root _ _
  | createFile p content => exact settle_root _ _
  | writeFile p content => exact settle_root _ _
  | _ => rfl

theorem becomes (confined : Confined x) (d : Disk) :
    d.host.Becomes (·.LiesBelow d.root.path) (x d).2.host := by
  induction confined generalizing d with
  | bind here _ first later =>
    refine (first d).trans ?_
    rw [← here.root d]
    exact later _ _
  | @createDirectory l below =>
    exact settle_becomes fun after made =>
      .createDirectory .same (toHost_liesBelow (by rwa [locate_path])) made
  | createFile p content =>
    -- The host path of the root itself ends in a slash, and no file is made there.
    refine settle_becomes fun after made => ?_
    by_cases top : d.locate p = []
    · exact absurd made (Host.createFile_slash (getLast?_toHost top) content after)
    · exact .createFile .same (toHost_liesBelow top) made
  | writeFile p content =>
    refine settle_becomes fun after written => ?_
    by_cases top : d.locate p = []
    · exact absurd written (Host.writeFile_slash (getLast?_toHost top) content after)
    · exact .writeFile .same (toHost_liesBelow top) written
  | @removeAll l below => exact .removeAll .same (toHost_liesBelow (by rwa [locate_path]))
  | _ => exact .same

theorem of_eq {y : Disk → α × Disk} (confined : Confined x) (same : ∀ d, y d = x d) :
    Confined y := by
  rwa [funext same]

theorem map (confined : Confined x) (f : α → β) : Confined fun d => (f (x d).1, (x d).2) :=
  confined.bind fun a => .pure (f a)

end Confined

/-- On the disks with a property, the computation does what a confined one does. -/
def ConfinedWhen (given : Disk → Prop) (y : Disk → β × Disk) : Prop :=
  ∃ x, Confined x ∧ ∀ d, given d → y d = x d

namespace ConfinedWhen

variable {given : Disk → Prop} {y : Disk → β × Disk}

/-- After a confined computation, what follows may depend on the answer. -/
theorem after (first : Confined x)
    (next : ∀ a, ∃ later, Confined later ∧ ∀ d, given d → (x d).1 = a → y d = later (x d).2) :
    ConfinedWhen given y := by
  choose later confined same using next
  exact ⟨_, first.bind confined, fun d holds => same _ d holds rfl⟩

theorem look {z : Disk → α} (seen : Confined fun d => (z d, d))
    (next : ∀ a, ConfinedWhen (fun d => given d ∧ z d = a) y) : ConfinedWhen given y :=
  after seen fun a =>
    have ⟨later, confined, same⟩ := next a
    ⟨later, confined, fun d holds answer => same d ⟨holds, answer⟩⟩

end ConfinedWhen

namespace Confined

theorem of_when {y : Disk → β × Disk} (always : ConfinedWhen (fun _ => True) y) : Confined y := by
  obtain ⟨x, confined, same⟩ := always
  exact confined.of_eq fun d => same d trivial

theorem andThen {x next : Disk → Attempt Disk} (first : Confined x) (later : Confined next) :
    Confined fun d => match x d with
      | (.error f, d) => (.error f, d)
      | (.ok (), d) => next d := by
  refine .of_when (.after first ?_)
  rintro (f | _)
  · refine ⟨_, .pure (.error f), fun d _ failed => ?_⟩
    generalize x d = tried at failed ⊢
    obtain ⟨answer, after⟩ := tried
    cases failed
    rfl
  · refine ⟨next, later, fun d _ went => ?_⟩
    generalize x d = tried at went ⊢
    obtain ⟨answer, after⟩ := tried
    cases went
    rfl

theorem has (p : Path) : Confined fun d => (d.has p, d) := (Confined.stat .entry p).map Except.isOk

theorem node (p : Path) : Confined fun d => (d.node p, d) := by
  refine .of_when (.look (.stat .target p) ?_)
  rintro (fault | ⟨l, node⟩)
  · refine ⟨_, .pure (.error (.missing p)), ?_⟩
    rintro d ⟨_, seen⟩
    simp [Disk.node, seen]
  · refine ⟨_, .pure (.ok node), ?_⟩
    rintro d ⟨_, seen⟩
    simp [Disk.node, seen]

theorem isDirectory (p : Path) : Confined fun d => (d.isDirectory p, d) :=
  (Confined.node p).map (Except.map Host.Node.isDirectory)

theorem read (p : Path) : Confined fun d => (d.read p, d) := by
  refine .of_when (.look (isDirectory p) ?_)
  rintro (f | _ | _)
  · refine ⟨_, .pure (.error f), ?_⟩
    rintro d ⟨_, told⟩
    simp [Disk.read, told]
  · refine .look (.readFile p) ?_
    rintro (fault | content)
    · refine ⟨_, .pure (.error (.host fault)), ?_⟩
      rintro d ⟨⟨_, told⟩, stuck⟩
      simp [Disk.read, told, stuck]
    · refine ⟨_, .pure (.ok content), ?_⟩
      rintro d ⟨⟨_, told⟩, held⟩
      simp [Disk.read, told, held]
  · refine ⟨_, .pure (.error (.isDirectory p)), ?_⟩
    rintro d ⟨_, told⟩
    simp [Disk.read, told]

theorem enter (p : Path) : Confined (·.enter p) := by
  refine .of_when (.look .cwd fun cwd => .look (isDirectory (cwd.resolve p).path) ?_)
  rintro (f | _ | _)
  · refine ⟨_, .pure (.error f), ?_⟩
    rintro d ⟨⟨_, here⟩, told⟩
    simp [Disk.enter, locate, here, told]
  · refine ⟨_, .pure (.error (.notDirectory (cwd.resolve p).path)), ?_⟩
    rintro d ⟨⟨_, here⟩, told⟩
    simp [Disk.enter, locate, here, told]
  · refine ⟨_, (Confined.move (cwd.resolve p)).map .ok, ?_⟩
    rintro d ⟨⟨_, here⟩, told⟩
    simp [Disk.enter, locate, here, told]

theorem fillDirectories {lineage : List Location} (below : ∀ l ∈ lineage, l ≠ []) :
    Confined (·.fillDirectories lineage) := by
  induction lineage with
  | nil => exact .pure _
  | cons l lineage ih =>
    obtain ⟨here, there⟩ := List.forall_mem_cons.1 below
    refine .of_when (.look (has l.path) ?_)
    rintro (_ | _)
    · refine ⟨_, (createDirectory here).andThen (ih there), ?_⟩
      rintro d ⟨_, absent⟩
      cases made : d.host.createDirectory (d.hostPath l) <;>
        simp [Disk.fillDirectories, absent, toHost_path, made, settle]
    · refine .look (isDirectory l.path) ?_
      rintro (f | _ | _)
      · refine ⟨_, .pure (.error f), ?_⟩
        rintro d ⟨⟨_, held⟩, told⟩
        simp [Disk.fillDirectories, held, told]
      · refine ⟨_, .pure (.error (.notDirectory l.path)), ?_⟩
        rintro d ⟨⟨_, held⟩, told⟩
        simp [Disk.fillDirectories, held, told]
      · refine ⟨_, ih there, ?_⟩
        rintro d ⟨⟨_, held⟩, told⟩
        simp [Disk.fillDirectories, held, told]

theorem makeDirectoryAt (l : Location) : Confined (·.makeDirectoryAt l) := by
  have below : ∀ k ∈ l.lineage.tail, k ≠ [] := by
    cases l with
    | nil => simp [Location.lineage, Location.lineageFrom]
    | cons n names =>
      intro k member top
      have starts := (Location.mem_lineageFrom.1 member).1
      simp [top] at starts
  refine .of_when (.look (has l.path) ?_)
  rintro (_ | _)
  · refine ⟨_, fillDirectories below, ?_⟩
    rintro d ⟨_, absent⟩
    simp [Disk.makeDirectoryAt, absent]
  · refine ⟨_, .pure (.error (.directoryOccupied l)), ?_⟩
    rintro d ⟨_, held⟩
    simp [Disk.makeDirectoryAt, held]

theorem makeDirectory (p : Path) : Confined (·.makeDirectory p) := by
  by_cases empty : p.text = []
  · exact (Confined.pure (.error .emptyPath)).of_eq fun d => by simp [Disk.makeDirectory, empty]
  · refine .of_when (.look .cwd fun cwd => ?_)
    refine ⟨_, makeDirectoryAt (cwd.resolve p), ?_⟩
    rintro d ⟨_, here⟩
    simp [Disk.makeDirectory, empty, locate, here]

theorem makeParent (parent : Location) : Confined (·.makeParent parent) := by
  refine .of_when (.look (has parent.path) ?_)
  rintro (_ | _)
  · refine ⟨_, makeDirectoryAt parent, ?_⟩
    rintro d ⟨_, absent⟩
    simp [Disk.makeParent, absent]
  · refine ⟨_, .pure (.ok ()), ?_⟩
    rintro d ⟨_, held⟩
    simp [Disk.makeParent, held]

theorem makeFile (p : Path) (content : Bytes) : Confined (·.makeFile p content) := by
  refine .of_when (.look .cwd fun cwd => .look (has (cwd.resolve p).path) ?_)
  rintro (_ | _)
  · refine ⟨_, (makeParent (cwd.resolve p).parent).andThen
      (createFile (cwd.resolve p).path content), ?_⟩
    rintro d ⟨⟨_, here⟩, absent⟩
    rcases made : d.makeParent (cwd.resolve p).parent with ⟨_ | _, after⟩ <;>
      simp [Disk.makeFile, locate, here, absent, made, toHost_path]
  · refine ⟨_, .pure (.error (.fileOccupied (cwd.resolve p))), ?_⟩
    rintro d ⟨⟨_, here⟩, held⟩
    simp [Disk.makeFile, locate, here, held]

theorem write (p : Path) (content : Bytes) : Confined (·.write p content) := by
  refine .of_when (.look (isDirectory p) ?_)
  rintro (f | _ | _)
  · refine ⟨_, .pure (.error f), ?_⟩
    rintro d ⟨_, told⟩
    simp [Disk.write, told]
  · refine ⟨_, writeFile p content, ?_⟩
    rintro d ⟨_, told⟩
    simp [Disk.write, told]
  · refine ⟨_, .pure (.error (.isDirectory p)), ?_⟩
    rintro d ⟨_, told⟩
    simp [Disk.write, told]

theorem remove (p : Path) : Confined (·.remove p) := by
  by_cases empty : p.text = []
  · exact (Confined.pure (.error .emptyPath)).of_eq fun d => by simp [Disk.remove, empty]
  refine .of_when (.look .cwd fun cwd => ?_)
  by_cases top : cwd.resolve p = []
  · refine ⟨_, .pure (.error .rootRemoval), ?_⟩
    rintro d ⟨_, here⟩
    simp [Disk.remove, empty, locate, here, top]
  refine .look (has (cwd.resolve p).path) ?_
  rintro (_ | _)
  · refine ⟨_, .pure (.error (.missing (cwd.resolve p).path)), ?_⟩
    rintro d ⟨⟨_, here⟩, absent⟩
    simp [Disk.remove, empty, locate, here, top, absent]
  · refine ⟨_, ((removeAll top).map (Except.mapError Failure.host)).andThen
      ((move (if cwd.isWithin (cwd.resolve p) then (cwd.resolve p).parent else cwd)).map .ok), ?_⟩
    rintro d ⟨⟨_, here⟩, held⟩
    rcases tried : d.host.removeAll (d.hostPath (cwd.resolve p)) with ⟨_ | _, after⟩ <;>
      simp [Disk.remove, empty, locate, here, top, held, tried, toHost_path, Except.mapError]

/-- Every call keeps to the disk. -/
theorem ask (call : Call) : Confined fun d => call.ask d := by
  cases call with
  | enter p => exact (enter p).map _
  | makeDirectory p => exact (makeDirectory p).map _
  | makeFile p content => exact (makeFile p content).map _
  | write p content => exact (write p content).map _
  | remove p => exact (remove p).map _
  | has p => exact (has p).map fun held => (Except.ok (Answer.truth held) : Except Failure Answer)
  | isDirectory p => exact (isDirectory p).map _
  | isFile p => exact ((node p).map (Except.map (!·.isDirectory))).map (Except.map Answer.truth)
  | read p => exact (read p).map _

end Confined

end

end Disk
end Scaffold
