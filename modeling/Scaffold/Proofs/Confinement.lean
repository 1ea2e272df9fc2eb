import Scaffold.Proofs.Extraction.Start
import Scaffold.Proofs.Replay.Alike
import Scaffold.Proofs.Storage.Footprint
import Scaffold.Proofs.Storage.Invariant
import Scaffold.Run

/-! Nothing leads out of a disk. Whatever paths its calls are given, the root stays where it is and
all that they reach on the host lies at the root or below, so a run changes nothing but what lies
below its base. -/
namespace Scaffold

theorem Location.stripPrefix?_path (l : Location) :
    l.path.stripPrefix? ⟨['/']⟩ = some l.relative := by
  have root : Path.components ⟨['/']⟩ = [.root] := by decide
  rw [Path.stripPrefix?, root, components_path, if_pos (by simp)]
  simp only [List.length_singleton, lead_path, Option.toList_some, Nat.sub_self, Path.dropCounted]
  rcases l with _ | ⟨n, names⟩
  · rfl
  · rw [body_path (List.cons_ne_nil _ _), List.map_cons,
      List.dropWhile_cons_of_neg (by simp [n.isFiller_text]), ← List.map_cons,
      Path.dropFillersRight_names]
    rfl

namespace Disk

variable {host : Host} {root : Path} {d : Disk}

/-- The root stays, and what changes lies below it. -/
theorem askAll_becomes (d : Disk) (calls : List Call) :
    (Call.askAll d calls).2.root = d.root ∧
      d.host.Becomes (·.LiesBelow d.root.path) (Call.askAll d calls).2.host := by
  induction calls generalizing d with
  | nil => exact ⟨rfl, .same⟩
  | cons call calls ih =>
    have here := Confined.ask call
    obtain ⟨still, later⟩ := ih (call.ask d).2
    rw [here.root d] at still later
    exact ⟨still, (here.becomes d).trans later⟩

/-- A script changes what lies below the root, as its calls do. -/
theorem carryOut_becomes (d : Disk) (action : Action) (rollback : Bool) (anchor : Path)
    (script : Script) :
    d.host.Becomes (·.LiesBelow d.root.path)
      (Replay.carryOut action rollback d anchor script).2.host := by
  have alike : Storage.Alike (fun _ => True) fun s t : Disk => s = t ∧
      s.root = d.root ∧ d.host.Becomes (·.LiesBelow d.root.path) s.host :=
    .of_invariant fun {s} ⟨still, changed⟩ call =>
      have here := Confined.ask call
      ⟨(here.root s).trans still, changed.trans (still ▸ here.becomes s)⟩
  have again : Agree _ (Replay.carryOut action rollback d anchor script) _ :=
    Replay.carryOut_alike alike ⟨rfl, rfl, .same⟩ (fun _ _ => trivial) (fun _ _ _ _ _ => trivial)
      action rollback
  exact again.related.2.2

end Disk

namespace Extraction

variable {slash : Slash} {base : Path} {probe : Path → Bool} {raw : Text} {found : Extraction}

theorem root_of_ofText (extracted : ofText slash base probe raw = .ok found) :
    found.anchor.root = Anchor.rootOf base (Grammar.splitDrive (Text.trim raw)).1 := by
  obtain ⟨_, -, rest⟩ := bind_eq_ok_iff.1 extracted
  obtain ⟨anchor, searched, rest⟩ := bind_eq_ok_iff.1 rest
  obtain ⟨_, -, rest⟩ := bind_eq_ok_iff.1 rest
  obtain ⟨script, -, rest⟩ := bind_eq_ok_iff.1 rest
  cases rest
  obtain ⟨_, -, searched⟩ := bind_eq_ok_iff.1 searched
  simp only at searched
  split at searched
  next => cases searched
  next =>
    split at searched
    next =>
      cases searched
      rfl
    next => cases searched

theorem root_eq_base (extracted : ofText slash base probe raw = .ok found)
    (absolute : found.anchor.root.isAbsolute) : found.anchor.root = base := by
  rw [root_of_ofText extracted] at absolute ⊢
  rcases Grammar.splitDrive_cases (Text.trim raw) with ⟨letter, rest, alpha, -, split⟩ | split
  · rw [split] at absolute
    have slash : letter = '/' := by simpa [Anchor.rootOf, Path.isAbsolute] using absolute
    rw [slash] at alpha
    cases alpha
  · rw [split]
    rfl

end Extraction

/-- A run changes the host below its base only; without a base it changes nothing. -/
theorem Host.run_becomes (h : Host) (options : Options) (raw : Text) :
    h.Becomes (fun p => ∃ base, h.basePath options.base = .ok base ∧ p.LiesBelow base.normalize)
      (h.run options raw).2 := by
  unfold Host.run
  split
  next => exact .same
  next base based =>
    split
    next => exact .same
    next found extracted =>
      split
      next => exact .same
      next disk opened =>
        have absolute := Disk.isAbsolute_of_openAt opened
        have rooted := Extraction.root_eq_base extracted absolute
        obtain ⟨rfl, -⟩ := Disk.openAt_eq_ok opened
        rw [rooted] at absolute ⊢
        have home := Location.normalize_of_isAbsolute absolute
        have changed := Disk.carryOut_becomes ⟨h, Location.ofPath base, []⟩ options.action
          options.rollback found.anchor.innerPath found.script
        rw [← home] at changed
        exact changed.mono fun p below => ⟨base, based, below⟩

namespace Disk

/-- Whatever calls are made on a disk, its root and the way to its current directory are normal,
every path is read below that root, and the calls reach the host at such paths only. What they
change, and what any run changes, lies below the root. -/
theorem confined {host : Host} {root : Path} {d : Disk} (opened : openAt host root = .ok d)
    (calls : List Call) :
    let now := (Call.askAll d calls).2
    (Storage.root now = root.normalize ∧ (Storage.root now).IsNormal ∧
      (Storage.cwd now).path.IsNormal) ∧
    (∀ p, ∃ (inner : Path) (names : List Path.Name),
      ((Storage.cwd now).path.join p).normalize.stripPrefix? ⟨['/']⟩ = some inner ∧
        Storage.toHost now p = (Storage.root now).join inner ∧
        (Storage.toHost now p).components = (Storage.root now).components ++ names.map .name) ∧
    (∀ call : Call, Confined fun d => call.ask d) ∧
    host.Becomes (·.LiesBelow root.normalize) now.host ∧
    ∀ (h : Host) (options : Options) (raw : Text),
      h.Becomes (fun p => ∃ base, h.basePath options.base = .ok base ∧ p.LiesBelow base.normalize)
        (h.run options raw).2 := by
  intro now
  have absolute := isAbsolute_of_openAt opened
  obtain ⟨rfl, -⟩ := openAt_eq_ok opened
  obtain ⟨still, changed⟩ := askAll_becomes ⟨host, Location.ofPath root, []⟩ calls
  have home : Storage.root now = root.normalize := by
    rw [Location.normalize_of_isAbsolute absolute]
    exact congrArg Location.path still
  refine ⟨⟨home, Location.isNormal_path _, Location.isNormal_path _⟩, fun p => ?_, Confined.ask, ?_,
    Host.run_becomes⟩
  · refine ⟨(now.locate p).relative, now.locate p, ?_, rfl, components_toHost now p⟩
    rw [Location.normalize_join]
    exact Location.stripPrefix?_path _
  · rw [Location.normalize_of_isAbsolute absolute]
    exact changed

/-- Goes down, takes the directory away from within, and makes a file above the root. -/
def climbingCalls : List Call :=
  [.enter ⟨['c']⟩, .remove ⟨['.']⟩, .makeFile ⟨['.', '.', '/', '.', '.', '/', 'd']⟩ [1]]

theorem confined_climbing :
    ∃ d, openAt Extraction.nestedHost ⟨['/', 'b', '/', 'c', '/', '.', '.']⟩ = .ok d ∧
      let now := (Call.askAll d climbingCalls).2
      Storage.root now = ⟨['/', 'b']⟩ ∧ (Storage.cwd now).path.IsNormal ∧
        now.host.nodes.find? (Location.ofPath ⟨['/', 'b', '/', 'd']⟩) = some (.file .newFile [1]) ∧
        Extraction.nestedHost.Becomes (·.LiesBelow ⟨['/', 'b']⟩) now.host := by
  have opened : openAt Extraction.nestedHost ⟨['/', 'b', '/', 'c', '/', '.', '.']⟩ = .ok _ := rfl
  obtain ⟨⟨root, -, cwd⟩, -, -, changed, -⟩ := confined opened climbingCalls
  exact ⟨_, opened, root, cwd, rfl, changed⟩

end Disk

end Scaffold
