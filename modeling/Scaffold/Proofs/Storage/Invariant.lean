import Scaffold.Proofs.Path.Normal
import Scaffold.Proofs.Replay.Alike
import Scaffold.Proofs.Replay.Rollback

/-! What holds of every memory that calls and scripts can lead to, whether they go through or not.
Each call keeps a well-formed memory well-formed, and a script is made of calls. -/
namespace Scaffold

theorem Location.not_concat_prefix (l : Location) (n : Path.Name) : ¬l ++ [n] <+: l := by
  intro part
  have shorter := part.length_le
  rw [List.length_append, List.length_singleton] at shorter
  omega

theorem Tree.Closed.prune {t : Tree Entry} (closed : t.Closed) {l : Location} (below : l ≠ []) :
    (t.prune l).Closed := by
  constructor
  · rw [find?_prune, if_neg (by simpa [Location.isWithin] using below)]
    exact closed.root_directory
  · intro k n there
    rw [Tree.contains, find?_prune] at there
    split at there
    next => cases there
    next outside =>
      rw [find?_prune, if_neg]
      · exact closed.parent_directory k n there
      · intro within
        apply outside
        rw [Location.isWithin_iff] at within ⊢
        exact within.trans (List.prefix_append _ _)

theorem Tree.Closed.insert_directory {t : Tree Entry} (closed : t.Closed) {l : Location}
    (home : t.find? l.parent = some .directory) (absent : t.find? l = none) :
    (t.insert l .directory).Closed := by
  rcases l.eq_nil_or_concat' with rfl | ⟨above, n, rfl⟩
  · simp [closed.root_directory] at absent
  · rw [Location.parent_concat] at home
    exact closed.insert home (.inl rfl)

theorem Tree.Closed.insert_file {t : Tree Entry} (closed : t.Closed) {l : Location} {old : Bytes}
    (there : t.find? l = some (.file old)) (new : Bytes) : (t.insert l (.file new)).Closed := by
  rcases l.eq_nil_or_concat' with rfl | ⟨above, n, rfl⟩
  · simp [closed.root_directory] at there
  · exact closed.insert (closed.parent_directory above n (contains_of_find? there))
      (.inr (by simp [there]))

namespace Memory

section

variable {t : Tree Entry} {lineage : List Location} {l : Location}

theorem find?_fillDirectories_of_some {entry : Entry} (there : t.find? l = some entry) :
    (fillDirectories lineage t).2.find? l = some entry := by
  induction lineage generalizing t with
  | nil => exact there
  | cons k lineage ih =>
    rw [fillDirectories]
    split
    next => exact there
    next => exact ih there
    next absent =>
      apply ih
      rw [Tree.find?_insert, if_neg (by rintro rfl; simp [absent] at there), there]

theorem find?_fillDirectories_of_notMem (outside : l ∉ lineage) :
    (fillDirectories lineage t).2.find? l = t.find? l := by
  induction lineage generalizing t with
  | nil => rfl
  | cons k lineage ih =>
    obtain ⟨here, there⟩ := not_or.1 (mt List.mem_cons.2 outside)
    rw [fillDirectories]
    split
    next => rfl
    next => exact ih there
    next => rw [ih there, Tree.find?_insert, if_neg here]

theorem find?_fillDirectories_of_ok (filled : (fillDirectories lineage t).1 = .ok ())
    (member : l ∈ lineage) : (fillDirectories lineage t).2.find? l = some .directory := by
  induction lineage generalizing t with
  | nil => cases member
  | cons k lineage ih =>
    rw [fillDirectories] at filled ⊢
    split at filled
    next => cases filled
    next there =>
      rcases List.mem_cons.1 member with rfl | later
      · exact find?_fillDirectories_of_some there
      · exact ih filled later
    next =>
      rcases List.mem_cons.1 member with rfl | later
      · exact find?_fillDirectories_of_some (by simp [Tree.find?_insert])
      · exact ih filled later

theorem fillDirectories_closed (closed : t.Closed) {above : Location}
    (home : t.find? above.parent = some .directory) (names : List Path.Name) :
    (fillDirectories (Location.lineageFrom above names) t).2.Closed := by
  induction names generalizing above t with
  | nil =>
    simp only [Location.lineageFrom, fillDirectories]
    split
    next => exact closed
    next => exact closed
    next absent => exact closed.insert_directory home absent
  | cons n names ih =>
    simp only [Location.lineageFrom, fillDirectories]
    split
    next => exact closed
    next there => exact ih closed (by rwa [Location.parent_concat])
    next absent =>
      apply ih (closed.insert_directory home absent)
      rw [Location.parent_concat, Tree.find?_insert, if_pos rfl]

end

section

variable {m : Memory} {l k : Location}

theorem find?_makeParent_of_not_prefix (outside : ¬k <+: l) :
    (m.makeParent l).2.entries.find? k = m.entries.find? k := by
  unfold makeParent
  split
  next =>
    unfold makeDirectoryAt
    split
    next => rfl
    next => exact find?_fillDirectories_of_notMem (mt Location.mem_lineage.1 outside)
  next => rfl
  next => rfl

theorem find?_makeParent_of_ok (made : (m.makeParent l).1 = .ok ()) :
    (m.makeParent l).2.entries.find? l = some .directory := by
  unfold makeParent at made ⊢
  split at made
  next =>
    unfold makeDirectoryAt at made ⊢
    split at made
    next => cases made
    next absent =>
      rw [if_neg absent]
      exact find?_fillDirectories_of_ok made (Location.mem_lineage.2 List.prefix_rfl)
  next => cases made
  next there => exact there

end

namespace WellFormed

variable {m : Memory}

theorem of_closed (closed : m.entries.Closed) (home : m.entries.find? m.cwd = some .directory)
    (absolute : m.root.isAbsolute) : m.WellFormed :=
  ⟨closed.root_directory, closed.parent_directory, home, absolute⟩

variable (valid : m.WellFormed)

include valid

theorem setRoot (root : Path) : (m.setRoot root).2.WellFormed := by
  unfold Memory.setRoot
  split
  next absolute => exact .of_closed valid.closed valid.cwd_directory absolute
  next => exact valid

theorem enter (p : Path) : (m.enter p).2.WellFormed := by
  simp only [Memory.enter]
  split
  next => exact valid
  next => exact valid
  next there => exact .of_closed valid.closed there valid.root_absolute

theorem makeDirectoryAt (l : Location) : (m.makeDirectoryAt l).2.WellFormed := by
  unfold Memory.makeDirectoryAt
  split
  next => exact valid
  next =>
    have home : m.entries.find? (Location.parent []) = some .directory := valid.root_directory
    have closed := fillDirectories_closed valid.closed home l
    exact .of_closed closed (find?_fillDirectories_of_some valid.cwd_directory) valid.root_absolute

theorem makeDirectory (p : Path) : (m.makeDirectory p).2.WellFormed := by
  unfold Memory.makeDirectory
  split
  next => exact valid
  next => exact valid.makeDirectoryAt _

theorem makeParent (l : Location) : (m.makeParent l).2.WellFormed := by
  unfold Memory.makeParent
  split
  next => exact valid.makeDirectoryAt l
  next => exact valid
  next => exact valid

/-- A file takes the place of a directory nowhere, so not that of the cursor. -/
theorem put_file {l : Location} {content : Bytes}
    (closed : (m.entries.insert l (.file content)).Closed)
    (plain : m.entries.find? l ≠ some .directory) : (m.put l (.file content)).WellFormed := by
  refine .of_closed closed ?_ valid.root_absolute
  rw [put_entries, put_cwd, Tree.find?_insert, if_neg]
  · exact valid.cwd_directory
  · intro same
    exact plain (same ▸ valid.cwd_directory)

theorem makeFile (p : Path) (content : Bytes) : (m.makeFile p content).2.WellFormed := by
  simp only [Memory.makeFile]
  generalize m.locate p = l
  split
  next => exact valid
  next absent =>
    rcases l.eq_nil_or_concat' with rfl | ⟨above, n, rfl⟩
    · exact absurd (Tree.contains_of_find? valid.root_directory) absent
    · rw [Location.parent_concat]
      have ready := valid.makeParent above
      have kept : (m.makeParent above).2.entries.find? (above ++ [n]) = _ :=
        find?_makeParent_of_not_prefix (Location.not_concat_prefix above n)
      cases made : m.makeParent above with
      | mk answer after =>
        rw [made] at ready kept
        cases answer with
        | error f => exact ready
        | ok =>
          have home : (m.makeParent above).2.entries.find? above = some .directory :=
            find?_makeParent_of_ok (by rw [made])
          rw [made] at home
          have free : after.entries.find? (above ++ [n]) = none := by
            rw [kept]
            simpa [Tree.contains] using absent
          have plain : after.entries.find? (above ++ [n]) ≠ some .directory := by simp [free]
          exact ready.put_file (ready.closed.insert home (.inr plain)) plain

theorem write (p : Path) (content : Bytes) : (m.write p content).2.WellFormed := by
  simp only [Memory.write]
  split
  next => exact valid
  next => exact valid
  next there => exact valid.put_file (valid.closed.insert_file there content) (by simp [there])

theorem remove (p : Path) : (m.remove p).2.WellFormed := by
  simp only [Memory.remove]
  generalize m.locate p = l
  split
  next => exact valid
  next =>
    split
    next => exact valid
    next below =>
      split
      next => exact valid
      next there =>
        refine .of_closed (valid.closed.prune below) ?_ valid.root_absolute
        obtain ⟨above, n, rfl⟩ := l.eq_nil_or_concat'.resolve_left below
        rw [Location.parent_concat, Tree.find?_prune]
        split
        next =>
          rw [if_neg (mt Location.isWithin_iff.1 (Location.not_concat_prefix above n))]
          exact valid.parent_directory above n (by simpa using there)
        next => exact valid.cwd_directory

/-- Whatever is asked of it, a well-formed memory stays one. -/
theorem ask (call : Call) : (call.ask m).2.WellFormed := by
  cases call with
  | enter p => exact valid.enter p
  | makeDirectory p => exact valid.makeDirectory p
  | makeFile p content => exact valid.makeFile p content
  | write p content => exact valid.write p content
  | remove p => exact valid.remove p
  | has p => exact valid
  | isDirectory p => exact valid
  | isFile p => exact valid
  | read p => exact valid

end WellFormed

end Memory

/-- What every call keeps, every script keeps: a storage is then like itself. -/
theorem Storage.Alike.of_invariant {σ : Type} [Storage σ] {valid : σ → Prop}
    (kept : ∀ {s}, valid s → ∀ call : Call, valid (call.ask s).2) :
    Storage.Alike (fun _ => True) fun s t => s = t ∧ valid s where
  cwd := by
    rintro s _ ⟨rfl, _⟩
    rfl
  cwd_allowed := by simp
  ask := by
    rintro s _ ⟨rfl, now⟩ call _
    exact ⟨rfl, rfl, kept now call⟩

namespace Memory

variable {m : Memory}

theorem WellFormed.carryOut (valid : m.WellFormed) (action : Action) (rollback : Bool)
    (anchor : Path) (script : Script) :
    (Replay.carryOut action rollback m anchor script).2.WellFormed := by
  have alike : Storage.Alike (fun _ => True) fun m n : Memory => m = n ∧ m.WellFormed :=
    .of_invariant fun valid => valid.ask
  have again : Agree _ (Replay.carryOut action rollback m anchor script) _ :=
    Replay.carryOut_alike alike ⟨rfl, valid⟩ (fun _ _ => trivial) (fun _ _ _ _ _ => trivial)
      action rollback
  exact again.related.2

/-- The memories that calls and scripts lead to from the empty one. Whether they go through does
not matter, nor what the paths and the script are. -/
inductive Reachable : Memory → Prop
  | empty : Reachable .empty
  | setRoot {m : Memory} (reached : Reachable m) (root : Path) : Reachable (m.setRoot root).2
  | ask {m : Memory} (reached : Reachable m) (call : Call) : Reachable (call.ask m).2
  | carryOut {m : Memory} (reached : Reachable m) (action : Action) (rollback : Bool)
      (anchor : Path) (script : Script) :
      Reachable (Replay.carryOut action rollback m anchor script).2

theorem Reachable.wellFormed (reached : m.Reachable) : m.WellFormed := by
  induction reached with
  | empty => exact empty_wellFormed
  | setRoot _ root ih => exact ih.setRoot root
  | ask _ call ih => exact ih.ask call
  | carryOut _ action rollback anchor script ih => exact ih.carryOut action rollback anchor script

/-- The root is a directory, keys and cursor are normal, every other key lies in a directory, the
cursor is in one, directories have no content, and the root stands for an absolute path. What a
path is looked up under is the normal form of its text, joined to the cursor. -/
theorem Reachable.invariant (reached : m.Reachable) :
    m.entries.find? [] = some .directory ∧
      (∀ l, m.entries.contains l ∨ l = m.cwd → l.path.IsNormal) ∧
      (∀ p, (m.locate p).path = (m.cwd.path.join p).normalize) ∧
      (∀ l, m.entries.contains l → l ≠ [] → m.entries.find? l.parent = some .directory) ∧
      m.entries.find? m.cwd = some .directory ∧
      (∀ l entry, m.entries.find? l = some entry → entry.isDirectory → entry.content = []) ∧
      m.root.isAbsolute := by
  have valid := reached.wellFormed
  refine ⟨valid.root_directory, fun l _ => l.isNormal_path, fun p => ?_, fun l there below => ?_,
    valid.cwd_directory, fun l entry _ directory => ?_, valid.root_absolute⟩
  · exact (Location.normalize_join m.cwd p).symm
  · obtain ⟨above, n, rfl⟩ := l.eq_nil_or_concat'.resolve_left below
    rw [Location.parent_concat]
    exact valid.parent_directory above n there
  · cases entry with
    | directory => rfl
    | file content => cases directory

/-- A file was made with its directory, and a script failed there halfway. -/
def halfway : Memory :=
  (Replay.carryOut .create false ((Call.makeFile ⟨['b', '/', '.', '/', 'a']⟩ [1]).ask empty).2
    ⟨['/', 'b', '/', '.', '.']⟩ Replay.clashingScript).2

theorem Reachable.invariant_halfway :
    halfway.entries.contains [⟨['b'], by decide⟩, ⟨['a'], by decide⟩] ∧
      halfway.entries.find? [⟨['b'], by decide⟩] = some .directory ∧
      halfway.entries.find? halfway.cwd = some .directory ∧ halfway.root.isAbsolute := by
  have reached : halfway.Reachable := .carryOut (.ask .empty _) _ _ _ _
  have there : halfway.entries.contains [⟨['b'], by decide⟩, ⟨['a'], by decide⟩] := by rfl
  obtain ⟨-, -, -, homes, cursor, -, root⟩ := Reachable.invariant reached
  exact ⟨there, homes _ there (by decide), cursor, root⟩

end Memory

end Scaffold
