import Scaffold.Proofs.Host.Walk
import Scaffold.Proofs.Storage.Tree

/-! What the calls on a host without links do at a path that spells out the names from the root
down to an entry. -/
namespace Scaffold

theorem Tree.mem_of_find? {α : Type} {t : Tree α} {l : Location} {node : α}
    (there : t.find? l = some node) : (l, node) ∈ t.nodes := by
  obtain ⟨before, after, whole, _⟩ := List.lookup_eq_some_iff.1 there
  rw [whole]
  simp

namespace Host

theorem Hop.ofPiece?_text (n : Path.Name) : ofPiece? n.text = some (.name n) := by
  simp [ofPiece?, n.proper.2.2.1, n.proper.2.2.2]

theorem hops_relative (l : Location) : hops l.relative = l.map .name := by
  by_cases top : l = []
  · subst top
    rfl
  · have named : Hop.ofPiece? ∘ Path.Name.text = some ∘ Hop.name := funext Hop.ofPiece?_text
    rw [hops, Path.pieces, Location.relative, Path.splitOn_joinPieces top, List.filterMap_map,
      named, List.filterMap_eq_map]

theorem hops_path (l : Location) : hops l.path = l.map .name := by
  have pieces : l.path.pieces = [] :: l.relative.pieces := by
    simp [Path.pieces, Location.path, List.splitOn_cons_eq_if_modifyHead]
  rw [hops, pieces, List.filterMap_cons_none (by rfl)]
  exact hops_relative l

theorem slashHop_path {l : Location} (below : l ≠ []) : slashHop l.path = [] := by
  rw [slashHop, if_neg (Location.getLast?_path below)]

theorem slashHop_cases (p : Path) : slashHop p = [] ∨ slashHop p = [.slash] := by
  unfold slashHop
  split <;> simp

theorem hops_join (p : Path) {q : Path} (relative : ¬q.isAbsolute) :
    hops (p.join q) = hops p ++ hops q := by
  rw [Path.join, if_neg relative]
  split
  next closed =>
    rcases closed with empty | slashed
    · rw [hops, Path.pieces, empty, List.nil_append, hops, Path.pieces, empty]
      rfl
    · obtain ⟨before, whole⟩ := List.getLast?_eq_some_iff.1 slashed
      have idle : [([] : Text)].filterMap Hop.ofPiece? = [] := rfl
      simp [hops, Path.pieces, whole, List.splitOn_append_cons_self, idle]
  next =>
    simp [hops, Path.pieces, List.splitOn_append_cons_self]

theorem hops_join_empty (p : Path) : hops (p.join ⟨[]⟩) = hops p :=
  (hops_join p (by simp [Path.isAbsolute])).trans (List.append_nil _)

/-- The host takes the path `p`, which names the way from the root down to `l`. -/
structure Spells (h : Host) (p : Path) (l : Location) : Prop where
  accepted : h.accept p = .ok ()
  absolute : p.isAbsolute
  hops : Host.hops p = l.map .name
  short : ∀ n ∈ l, n.IsShort

theorem accept_eq_ok {h : Host} {p : Path} (unlimited : h.pathLimit = none)
    (clean : '\x00' ∉ p.text) (filled : p.text ≠ []) : h.accept p = .ok () := by
  simp [accept, unlimited, clean, filled]

section

variable {h : Host} {l : Location} (unlimited : h.pathLimit = none) (short : ∀ n ∈ l, n.IsShort)

include short

theorem nul_notMem_text_path : '\x00' ∉ l.path.text := by
  intro nul
  rcases Location.mem_text_path.1 nul with slash | ⟨n, member, inside⟩
  · exact absurd slash (by decide)
  · exact (short n member).2 inside

include unlimited

theorem spells_path : h.Spells l.path l where
  accepted := accept_eq_ok unlimited (nul_notMem_text_path short) (List.cons_ne_nil _ _)
  absolute := Location.isAbsolute_path l
  hops := hops_path l
  short := short

theorem spells_join_empty : h.Spells (l.path.join ⟨[]⟩) l := by
  have clean := nul_notMem_text_path short
  have text : (l.path.join ⟨[]⟩).text = l.path.text ∨
      (l.path.join ⟨[]⟩).text = l.path.text ++ ['/'] := by
    rw [Path.join, if_neg (by simp [Path.isAbsolute])]
    split <;> simp
  refine ⟨accept_eq_ok unlimited ?_ ?_, ?_, (hops_join_empty _).trans (hops_path l), short⟩
  · rcases text with same | slashed
    · rwa [same]
    · simp [slashed, clean]
  · rcases text with same | slashed
    · rw [same]
      exact List.cons_ne_nil _ _
    · simp [slashed]
  · rcases text with same | slashed
    · rw [Path.isAbsolute, same]
      rfl
    · rw [Path.isAbsolute, slashed]
      rfl

end

namespace Spells

variable {h : Host} {p : Path} {l : Location} (spells : h.Spells p l)

include spells

theorem find_eq (aim : Aim) :
    h.find aim p = h.walkWith aim (h.walk aim 39) [] (l.map .name ++ slashHop p) := by
  rw [find, spells.accepted, bind_ok, start, if_pos spells.absolute, spells.hops]
  rfl

theorem findNew_eq : h.findNew p = h.walkWith .entry (h.walk .entry 39) [] (l.map .name) := by
  rw [findNew, spells.accepted, bind_ok, start, if_pos spells.absolute, spells.hops]
  rfl

variable (unlinked : h.Unlinked)

include unlinked

/-- What lies at the end of the names is found. A path with a slash at the end finds directories
only, and does not do where a file may be made. -/
theorem find_of_some {aim : Aim} {node : Node} (passes : h.Passes [] l)
    (there : h.nodes.find? l = some node)
    (plain : slashHop p = [] ∨ node.isDirectory ∧ aim.makesFile = false) :
    h.find aim p = .ok (.node l) := by
  have found : (h.nodes.find? ([] ++ l)).isSome := by simp [there]
  rw [spells.find_eq]
  rcases plain with none_left | ⟨directory, probes⟩
  · rw [none_left]
    exact walkWith_names unlinked passes found spells.short (by simp) rfl
  · refine walkWith_names unlinked passes found spells.short (by simp [probes]) ?_
    rcases slashHop_cases p with none_left | slash
    · rw [none_left]
      rfl
    · cases node with
      | directory access => simp [slash, walkWith, obstacle?, there]
      | file access content => cases directory
      | link target => cases directory

theorem find_eq_ok {aim : Aim} {spot : Spot} (plain : slashHop p = [] ∨ aim.makesFile = false)
    (found : h.find aim p = .ok spot) :
    h.Passes [] l ∧ (spot = .node l ∨ spot = .free l ∧ h.nodes.find? l = none) := by
  rw [spells.find_eq] at found
  have probes : aim.makesFile → slashHop p ≠ [.slash] := by
    rcases plain with none_left | probes
    · simp [none_left]
    · simp [probes]
  obtain ⟨passes, -, ends⟩ :=
    walkWith_names_eq_ok unlinked (slashHop_cases p) probes found
  exact ⟨passes, ends⟩

/-- A look at the host shows what lies at the end of the names. -/
theorem toOption_stat {aim : Aim} (probes : aim.makesFile = false)
    (higher : (h.nodes.find? l).isSome → h.Passes [] l)
    (plain : slashHop p = [] ∨ ∀ node, h.nodes.find? l = some node → node.isDirectory) :
    (h.stat aim p).toOption = (h.nodes.find? l).map (l, ·) := by
  cases there : h.nodes.find? l with
  | some node =>
    have found : h.find aim p = .ok (.node l) :=
      spells.find_of_some unlinked (higher (by simp [there])) there
        (plain.imp_right fun directory => ⟨directory node there, probes⟩)
    simp only [stat, found, bind_ok, there]
    rfl
  | none =>
    cases seen : h.find aim p with
    | error fault =>
      simp only [stat, seen]
      rfl
    | ok spot =>
      rcases (spells.find_eq_ok unlinked (.inr probes) seen).2 with rfl | ⟨rfl, _⟩
      · simp only [stat, seen, bind_ok, there]
        rfl
      · simp only [stat, seen, bind_ok]
        rfl

end Spells

/-- Where a search for the path of a location ends, the location can be reached. -/
theorem reached_of_find {h : Host} (unlinked : h.Unlinked) {aim : Aim} {l : Location}
    (plain : aim.makesFile = false ∨ l ≠ []) {spot : Spot} (found : h.find aim l.path = .ok spot) :
    h.Passes [] l ∧ ∀ n ∈ l, n.IsShort := by
  obtain ⟨_, accepted, walked⟩ := bind_eq_ok_iff.1 found
  have clean : '\x00' ∉ l.path.text := by
    intro nul
    simp [accept, nul] at accepted
  have fits : aim.makesFile → slashHop l.path ≠ [.slash] := by
    rcases plain with probes | below
    · simp [probes]
    · simp [slashHop_path below]
  rw [start, if_pos (Location.isAbsolute_path l), hops_path] at walked
  obtain ⟨passes, short, _⟩ :=
    walkWith_names_eq_ok unlinked (slashHop_cases l.path) fits walked
  refine ⟨passes, fun n member => ⟨short n member, fun inside => clean ?_⟩⟩
  exact Location.mem_text_path.2 (.inr ⟨n, member, inside⟩)

theorem reached_of_stat {h : Host} (unlinked : h.Unlinked) {aim : Aim}
    (probes : aim.makesFile = false) {l : Location} {found : Location × Node}
    (seen : h.stat aim l.path = .ok found) : h.Passes [] l ∧ ∀ n ∈ l, n.IsShort := by
  obtain ⟨spot, walked, _⟩ := bind_eq_ok_iff.1 seen
  exact reached_of_find unlinked (.inl probes) walked

namespace Spells

section

variable {h : Host} {p : Path} {above : Location} {n : Path.Name}
variable (spells : h.Spells p (above ++ [n])) (unlinked : h.Unlinked)
variable (passes : h.Passes [] (above ++ [n])) (change : h.mayChange above)

include spells unlinked passes

theorem find_free (absent : h.nodes.find? (above ++ [n]) = none) {aim : Aim}
    (plain : slashHop p = []) : h.find aim p = .ok (.free (above ++ [n])) := by
  rw [spells.find_eq, plain, List.append_nil]
  exact walkWith_free unlinked passes absent spells.short

include change

theorem createDirectory_eq_ok (absent : h.nodes.find? (above ++ [n]) = none) :
    h.createDirectory p = .ok (h.put (above ++ [n]) (.directory .newDirectory)) := by
  have free : h.findNew p = .ok (.free (above ++ [n])) := by
    rw [spells.findNew_eq]
    exact walkWith_free unlinked passes absent spells.short
  simp only [createDirectory, free, bind_ok, add, Location.parent_concat, change, if_true]

theorem createFile_eq_ok (absent : h.nodes.find? (above ++ [n]) = none) (plain : slashHop p = [])
    (content : Bytes) :
    h.createFile p content = .ok (h.put (above ++ [n]) (.file .newFile content)) := by
  simp only [createFile, spells.find_free unlinked passes absent plain, bind_ok, add,
    Location.parent_concat, change, if_true]

theorem unlink_eq_ok {node : Node} (there : h.nodes.find? (above ++ [n]) = some node)
    (plain : slashHop p = []) :
    h.unlink p = .ok { h with nodes := h.nodes.prune (above ++ [n]) } := by
  have found : h.find .entry p = .ok (.node (above ++ [n])) :=
    spells.find_of_some unlinked passes there (.inl plain)
  simp only [unlink, stat, found, bind_ok, there, Location.parent_concat, change, if_true]
  rfl

end

section

variable {h : Host} {p : Path} {l : Location} (spells : h.Spells p l) (unlinked : h.Unlinked)

include spells unlinked

theorem createFile_eq_error (plain : slashHop p = [])
    (barred : ¬h.Passes [] l ∨ (h.nodes.find? l).isSome) (content : Bytes) :
    ∃ fault, h.createFile p content = .error fault := by
  cases made : h.find .newFile p with
  | error fault => exact ⟨fault, by simp only [createFile, made]; rfl⟩
  | ok spot =>
    obtain ⟨passes, rfl | ⟨rfl, absent⟩⟩ := spells.find_eq_ok unlinked (.inl plain) made
    · exact ⟨.occupied, by simp only [createFile, made, bind_ok]⟩
    · simp [passes, absent] at barred

variable {access : Access} {content : Bytes} (passes : h.Passes [] l)
variable (there : h.nodes.find? l = some (.file access content)) (plain : slashHop p = [])

include passes there plain

theorem readFile_eq_ok (read : access.read) : h.readFile p = .ok content := by
  have found : h.find .target p = .ok (.node l) :=
    spells.find_of_some unlinked passes there (.inl plain)
  simp only [readFile, stat, found, bind_ok, there, read, if_true]

theorem writeFile_eq_ok (write : access.write) (new : Bytes) :
    h.writeFile p new = .ok (h.put l (.file access new)) := by
  have found : h.find .anyFile p = .ok (.node l) :=
    spells.find_of_some unlinked passes there (.inl plain)
  simp only [writeFile, found, bind_ok, there, write, if_true]

end

end Spells

def Node.IsOpen : Node → Prop
  | .directory access => access.read ∧ access.write ∧ access.enter
  | .file access _ => access.read ∧ access.write
  | .link _ => False

instance : DecidablePred Node.IsOpen
  | .directory access => inferInstanceAs (Decidable (access.read ∧ access.write ∧ access.enter))
  | .file access _ => inferInstanceAs (Decidable (access.read ∧ access.write))
  | .link _ => inferInstanceAs (Decidable False)

section

variable {h : Host} {top : Location}
variable (opened : ∀ entry ∈ h.nodes.nodes, entry.1.isWithin top → entry.2.IsOpen)

include opened

/-- Open directories keep nothing back. -/
theorem keptBelow_eq_nil : h.keptBelow top = [] := by
  simp only [keptBelow, List.map_eq_nil_iff, List.filter_eq_nil_iff, Bool.and_eq_true,
    List.any_eq_true, List.mem_filterMap]
  rintro entry _ ⟨_, keeper, ⟨⟨m, node⟩, member, kept⟩, _⟩
  cases node with
  | directory access =>
    by_cases within : m.isWithin top
    · obtain ⟨read, write, enter⟩ := opened _ member within
      simp [Access.explores, read, write, enter] at kept
    · simp [within] at kept
  | file access content => cases kept
  | link target => cases kept

theorem find?_clearBelow (k : Location) :
    (h.clearBelow top).nodes.find? k = if k.isBelow top then none else h.nodes.find? k := by
  have kept := Tree.lookup_filter h.nodes.nodes (fun k => !k.isBelow top) k
  simp only [clearBelow, keptBelow_eq_nil opened, List.any_nil, Bool.or_false]
  rw [Tree.find?, kept]
  cases k.isBelow top <;> rfl

end

section

variable {h : Host} {p : Path} {above : Location} {n : Path.Name}

theorem Spells.withNodes {l : Location} (spells : h.Spells p l) (nodes : Tree Node) :
    Spells { h with nodes := nodes } p l :=
  ⟨spells.accepted, spells.absolute, spells.hops, spells.short⟩

variable (spells : h.Spells p (above ++ [n])) (unlinked : h.Unlinked)
variable (passes : h.Passes [] (above ++ [n])) (change : h.mayChange above)
variable (plain : slashHop p = [])
variable (opened : ∀ entry ∈ h.nodes.nodes, entry.1.isWithin (above ++ [n]) → entry.2.IsOpen)

include spells unlinked passes change plain opened

theorem Spells.unlink_clearBelow {node : Node} (there : h.nodes.find? (above ++ [n]) = some node) :
    (h.clearBelow (above ++ [n])).unlink p =
      .ok { h with nodes := (h.clearBelow (above ++ [n])).nodes.prune (above ++ [n]) } := by
  have higher {k : Location} (short : k.length < (above ++ [n]).length) :
      (h.clearBelow (above ++ [n])).nodes.find? k = h.nodes.find? k := by
    rw [find?_clearBelow opened, if_neg]
    intro below
    have longer := (Location.isWithin_iff.1 (Bool.and_eq_true_iff.1 below).1).length_le
    omega
  have still : (h.clearBelow (above ++ [n])).nodes.find? (above ++ [n]) = some node := by
    rw [find?_clearBelow opened, if_neg (by simp [Location.isBelow]), there]
  have unlinkedStill : (h.clearBelow (above ++ [n])).Unlinked := by
    intro k target link
    rw [find?_clearBelow opened] at link
    split at link
    · cases link
    · exact unlinked k target link
  have passesStill : (h.clearBelow (above ++ [n])).Passes [] (above ++ [n]) :=
    passes.congr fun k short => higher (by simpa using short)
  have changeStill : (h.clearBelow (above ++ [n])).mayChange above := by
    rwa [mayChange, higher (by simp)]
  exact (spells.withNodes (h.clearBelow (above ++ [n])).nodes).unlink_eq_ok unlinkedStill
    passesStill changeStill still plain

/-- Where nothing is kept back, an entry goes with all below it, and nothing else changes. -/
theorem Spells.removeAll_eq_ok (there : (h.nodes.find? (above ++ [n])).isSome) :
    ∃ after : Tree Node, h.removeAll p = (.ok (), { h with nodes := after }) ∧
      after.Agrees (h.nodes.prune (above ++ [n])) ∧
      ∀ entry ∈ after.nodes, entry ∈ h.nodes.nodes := by
  obtain ⟨node, found⟩ := Option.isSome_iff_exists.1 there
  have seen : h.stat .entry p = .ok (above ++ [n], node) := by
    have located : h.find .entry p = .ok (.node (above ++ [n])) :=
      spells.find_of_some unlinked passes found (.inl plain)
    simp only [stat, located, bind_ok, found]
  cases node with
  | link target => exact absurd found (unlinked _ _)
  | file access content =>
    refine ⟨h.nodes.prune (above ++ [n]), ?_, .refl _, ?_⟩
    · simp only [removeAll, seen, spells.unlink_eq_ok unlinked passes change found plain]
    · exact fun entry member => (List.mem_filter.1 member).1
  | directory access =>
    have read : access.read := (opened _ (Tree.mem_of_find? found) (by simp [Location.isWithin])).1
    have gone := spells.unlink_clearBelow unlinked passes change plain opened found
    refine ⟨(h.clearBelow (above ++ [n])).nodes.prune (above ++ [n]), ?_, fun k => ?_, ?_⟩
    · simp only [removeAll, seen, read, gone, Bool.not_true, Bool.false_eq_true, if_false,
        keptBelow_eq_nil opened, ne_eq, not_true_eq_false]
    · rw [Tree.find?_prune, Tree.find?_prune, find?_clearBelow opened]
      split
      next => rfl
      next outside => rw [if_neg (by simp [Location.isBelow, outside])]
    · intro entry member
      exact (List.mem_filter.1 (List.mem_filter.1 member).1).1

end

end Host

end Scaffold
