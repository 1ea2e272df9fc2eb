import Scaffold.Proofs.Host.Links
import Scaffold.Proofs.Storage.Mirror

/-! Opening a disk. The given path is looked up on the host with its links followed, and the root is
what its text says once the dots in it are resolved. -/
namespace Scaffold

namespace Location

theorem getLast?_relative {l : Location} (below : l ≠ []) :
    ∃ c, l.relative.text.getLast? = some c ∧ c ≠ '/' := by
  have last := getLast?_path below
  rw [path, List.getLast?_cons] at last
  cases ends : l.relative.text.getLast? with
  | none => simp [ends] at last
  | some c => exact ⟨c, rfl, by simpa [ends] using last⟩

end Location

namespace Host

variable {h : Host} {p : Path} {k : Location} {node : Node}

theorem slashHop_join_relative (p : Path) {l : Location} (below : l ≠ []) :
    slashHop (p.join l.relative) = [] := by
  obtain ⟨c, ends, apart⟩ := Location.getLast?_relative below
  have last : (p.join l.relative).text.getLast? = some c := by
    rw [Path.join, if_neg (by simp [Location.isAbsolute_relative])]
    split <;> simp [List.getLast?_append, List.getLast?_cons, ends]
  rw [slashHop, if_neg (by simpa [last] using apart)]

theorem accept_of_sublist {q : Path} (part : q.text.Sublist p.text) (filled : q.text ≠ [])
    (accepted : h.accept p = .ok ()) : h.accept q = .ok () := by
  unfold accept at accepted ⊢
  split at accepted
  next => cases accepted
  next clean =>
    split at accepted
    next => cases accepted
    next =>
      rw [if_neg fun nul => clean (part.subset nul), if_neg filled]
      cases limited : h.pathLimit with
      | none => rfl
      | some limit =>
        have shorter := Text.byteLength_le_of_sublist part
        rw [limited] at accepted
        dsimp only at accepted ⊢
        split at accepted
        next => cases accepted
        next short => rw [if_neg (by omega)]

theorem stat_target_eq_ok_iff : h.stat .target p = .ok (k, node) ↔
    h.accept p = .ok () ∧ (∃ left, h.Reaches linkLimit (h.start p) (hops p ++ slashHop p) left k) ∧
      h.nodes.find? k = some node := by
  constructor
  · intro seen
    obtain ⟨spot, found, seen⟩ := bind_eq_ok_iff.1 seen
    obtain ⟨_, accepted, walked⟩ := bind_eq_ok_iff.1 found
    cases spot with
    | free l => cases seen
    | node l =>
      simp only at seen
      split at seen
      next there =>
        cases seen
        exact ⟨accepted, Reaches.of_walk walked, there⟩
      next => cases seen
  · rintro ⟨accepted, ⟨left, reaches⟩, there⟩
    simp only [stat, find, accepted, bind_ok, reaches.walk_target, there]

theorem hasDirectory_iff : h.hasDirectory p ↔
    ∃ l access, h.stat .target p = .ok (l, .directory access) := by
  unfold hasDirectory
  split
  next l node seen => cases node <;> simp [seen, Node.isDirectory]
  next fault seen => simp [seen]

/-- No `..` of the absolute path `p` comes behind a link that leads away. -/
def FollowsText (h : Host) (p : Path) : Prop :=
  ∀ before after, p.steps = before ++ .up :: after →
    h.LinkedBeside (before.foldl Location.step [])

/-- A walk along the steps of such a path ends where its text leads once the dots in it are
resolved. -/
theorem Reaches.normalized {hops : List Hop} {left : Nat}
    (reaches : h.Reaches linkLimit [] hops left k)
    (same : hops.filterMap Hop.component? = p.steps) (absolute : p.isAbsolute)
    (beside : h.FollowsText p) :
    ∃ spared ≥ left, h.Reaches linkLimit [] ((Location.ofPath p).map .name) spared k := by
  have home : Location.ofPath p = p.steps.foldl Location.step [] := by
    rw [Location.ofPath, Location.resolve_eq_foldl, Location.start, if_pos absolute]
  rw [home, ← same]
  exact reaches.lexical (by rwa [same])

theorem Reaches.slashed {links left : Nat} {l : Location} {hops : List Hop} {access : Access}
    (reaches : h.Reaches links l hops left k)
    (directory : h.nodes.find? k = some (.directory access)) (p : Path) :
    h.Reaches links l (hops ++ slashHop p) left k := by
  rcases slashHop_cases p with none_left | slash
  · rwa [none_left, List.append_nil]
  · rw [slash]
    exact reaches.append (.still (.inr rfl) (by simp [obstacle?, directory]) (.done left k))

theorem accept_path_ofPath (absolute : p.isAbsolute) (accepted : h.accept p = .ok ()) :
    h.accept (Location.ofPath p).path = .ok () :=
  accept_of_sublist (Location.text_path_sublist absolute) (List.cons_ne_nil _ _) accepted

/-- The directory at such a path is at the resolved path too. -/
theorem FollowsText.stat_ofPath (beside : h.FollowsText p) (absolute : p.isAbsolute)
    {access : Access} (seen : h.stat .target p = .ok (k, .directory access)) :
    h.stat .target (Location.ofPath p).path = .ok (k, .directory access) := by
  obtain ⟨accepted, ⟨left, reaches⟩, there⟩ := stat_target_eq_ok_iff.1 seen
  rw [start, if_pos absolute] at reaches
  have steps : (hops p ++ slashHop p).filterMap Hop.component? = p.steps := by
    rw [List.filterMap_append, filterMap_component?_hops, filterMap_component?_slashHop,
      List.append_nil]
  obtain ⟨spared, -, straight⟩ := reaches.normalized steps absolute beside
  refine stat_target_eq_ok_iff.2 ⟨accept_path_ofPath absolute accepted, ⟨spared, ?_⟩, there⟩
  rw [start, if_pos (Location.isAbsolute_path _), hops_path]
  exact straight.slashed there _

/-- What is found below such a path is found below the resolved path. -/
theorem FollowsText.stat_join (beside : h.FollowsText p) (absolute : p.isAbsolute) {l : Location}
    (below : l ≠ []) (seen : h.stat .target (p.join l.relative) = .ok (k, node)) :
    h.stat .target (Location.path (Location.ofPath p ++ l)) = .ok (k, node) := by
  obtain ⟨taken, ⟨left, reaches⟩, there⟩ := stat_target_eq_ok_iff.1 seen
  have joined : (p.join l.relative).isAbsolute := Path.isAbsolute_join absolute _
  have leads : Location.ofPath (p.join l.relative) = Location.ofPath p ++ l := by
    rw [Location.ofPath, Location.resolve_join, Location.resolve_relative]
    rfl
  have accepted : h.accept (Location.path (Location.ofPath p ++ l)) = .ok () :=
    leads ▸ accept_path_ofPath joined taken
  rw [start, if_pos joined, slashHop_join_relative p below, List.append_nil,
    hops_join p (by simp [Location.isAbsolute_relative]), hops_relative] at reaches
  -- the walk is cut where `p` ends, and the part behind it stays
  obtain ⟨between, m, first, second⟩ := reaches.of_append
  obtain ⟨spared, fewer, straight⟩ :=
    first.normalized (filterMap_component?_hops p) absolute beside
  obtain ⟨extra, rfl⟩ := Nat.exists_eq_add_of_le fewer
  refine stat_target_eq_ok_iff.2 ⟨accepted, ⟨left + extra, ?_⟩, there⟩
  rw [start, if_pos (Location.isAbsolute_path _), hops_path, slashHop_path (by simp [below]),
    List.append_nil, List.map_append]
  exact straight.append (second.spare extra)

end Host

namespace Disk

variable {host : Host} {p : Path} {d : Disk}

/-- A disk that was opened at `p` has the normalized path as its root. Both lead to something on
the host, and `p` to a directory. When no `..` in `p` comes behind a link that leads away, both lead
to that directory, and whatever is found below `p` is found below the root. -/
theorem openAt_root (opened : openAt host p = .ok d) :
    Storage.root d = p.normalize ∧ host.hasDirectory p ∧
      (∃ found, host.stat .target (Storage.root d) = .ok found) ∧
      (host.FollowsText p →
        host.stat .target (Storage.root d) = host.stat .target p ∧
        ∀ l : Location, l ≠ [] → ∀ found, host.stat .target (p.join l.relative) = .ok found →
          host.stat .target (d.hostPath l) = .ok found) := by
  have absolute := isAbsolute_of_openAt opened
  have directory := hasDirectory_of_openAt opened
  obtain ⟨rfl, rooted⟩ := openAt_eq_ok opened
  refine ⟨(Location.normalize_of_isAbsolute absolute).symm, directory, rooted, fun beside => ?_⟩
  constructor
  · obtain ⟨k, access, seen⟩ := Host.hasDirectory_iff.1 directory
    rw [seen]
    exact beside.stat_ofPath absolute seen
  · rintro l below ⟨k, node⟩ seen
    rw [hostPath_below _ below]
    exact beside.stat_join absolute below seen

/-- The directories `/w/a/b` and `/w/a/f`, the file `/w/f`, a link `/w/l` to `a/b` and a link `/w/m`
to `a`. -/
def linkedHost : Host where
  nodes := ⟨[
    ([], .directory .guest),
    (Location.ofPath ⟨['/', 'w']⟩, .directory .newDirectory),
    (Location.ofPath ⟨['/', 'w', '/', 'a']⟩, .directory .newDirectory),
    (Location.ofPath ⟨['/', 'w', '/', 'a', '/', 'b']⟩, .directory .newDirectory),
    (Location.ofPath ⟨['/', 'w', '/', 'a', '/', 'f']⟩, .directory .newDirectory),
    (Location.ofPath ⟨['/', 'w', '/', 'f']⟩, .file .newFile []),
    (Location.ofPath ⟨['/', 'w', '/', 'l']⟩, .link ⟨['a', '/', 'b']⟩),
    (Location.ofPath ⟨['/', 'w', '/', 'm']⟩, .link ⟨['a']⟩)]⟩
  workingDirectory := []
  pathLimit := some 4096

/-- The link `/w/m` leads to an entry beside it, so `/w/m/../a` is `/w/a`. -/
theorem openAt_root_besideLink :
    ∃ d, openAt linkedHost ⟨['/', 'w', '/', 'm', '/', '.', '.', '/', 'a']⟩ = .ok d ∧
      linkedHost.FollowsText ⟨['/', 'w', '/', 'm', '/', '.', '.', '/', 'a']⟩ ∧
      linkedHost.stat .target (Storage.root d) =
        .ok (Location.ofPath ⟨['/', 'w', '/', 'a']⟩, .directory .newDirectory) ∧
      linkedHost.stat .target (d.hostPath (Location.ofPath ⟨['/', 'b']⟩)) =
        .ok (Location.ofPath ⟨['/', 'w', '/', 'a', '/', 'b']⟩, .directory .newDirectory) := by
  have opened : openAt linkedHost ⟨['/', 'w', '/', 'm', '/', '.', '.', '/', 'a']⟩ = .ok _ := rfl
  have beside : linkedHost.FollowsText ⟨['/', 'w', '/', 'm', '/', '.', '.', '/', 'a']⟩ := by
    intro before after steps
    have only : before = [.name ⟨['w'], by decide⟩, .name ⟨['m'], by decide⟩] := by
      have whole : Path.steps ⟨['/', 'w', '/', 'm', '/', '.', '.', '/', 'a']⟩ =
          [.name ⟨['w'], by decide⟩, .name ⟨['m'], by decide⟩, .up, .name ⟨['a'], by decide⟩] := rfl
      rw [whole] at steps
      rcases before with _ | ⟨_, _ | ⟨_, _ | ⟨_, _ | ⟨_, before⟩⟩⟩⟩ <;> simp_all
    subst only
    intro k target m found there followed
    cases found
    cases followed
    rfl
  obtain ⟨-, -, -, same⟩ := openAt_root opened
  obtain ⟨root, below⟩ := same beside
  exact ⟨_, opened, beside, root.trans rfl, below _ (by decide) _ rfl⟩

/-- The link `/w/l` leads down to `/w/a/b`, so `/w/l/../f` is the directory `/w/a/f`. The disk that
is opened there has the file `/w/f` for its root. -/
theorem openAt_astray :
    ∃ d, openAt linkedHost ⟨['/', 'w', '/', 'l', '/', '.', '.', '/', 'f']⟩ = .ok d ∧
      linkedHost.stat .target ⟨['/', 'w', '/', 'l', '/', '.', '.', '/', 'f']⟩ =
        .ok (Location.ofPath ⟨['/', 'w', '/', 'a', '/', 'f']⟩, .directory .newDirectory) ∧
      linkedHost.stat .target (Storage.root d) =
        .ok (Location.ofPath ⟨['/', 'w', '/', 'f']⟩, .file .newFile []) ∧
      linkedHost.hasDirectory (Storage.root d) = false := ⟨_, rfl, rfl, rfl, rfl⟩

end Disk

end Scaffold
