import Scaffold.Proofs.Storage.Invariant

/-! What each call does to a memory, and when. A call that does not go through leaves the memory as
it was, also where directories were to be made on the way: below a file there is nothing, so the
file is met before the first of them. -/
namespace Scaffold

theorem Location.prefix_parent_iff {l k : Location} (below : l ≠ []) :
    k <+: l.parent ↔ k <+: l ∧ k ≠ l := by
  obtain ⟨above, n, rfl⟩ := l.eq_nil_or_concat'.resolve_left below
  rw [parent_concat, List.prefix_concat_iff]
  constructor
  · intro part
    refine ⟨.inr part, ?_⟩
    rintro rfl
    exact not_concat_prefix above n part
  · rintro ⟨rfl | part, apart⟩
    · exact absurd rfl apart
    · exact part

namespace Memory

/-- Neither at `l` nor above it is there a file. -/
def Clear (t : Tree Entry) (l : Location) : Prop :=
  ∀ k content, k <+: l → t.find? k ≠ some (.file content)

section

variable {t : Tree Entry}

theorem fillDirectories_of_file (closed : t.Closed) {above k : Location} {names : List Path.Name}
    {content : Bytes} (there : t.find? k = some (.file content))
    (member : k ∈ Location.lineageFrom above names) :
    ∃ f, fillDirectories (Location.lineageFrom above names) t = (.error f, t) := by
  induction names generalizing above with
  | nil =>
    obtain rfl := List.mem_singleton.1 member
    exact ⟨.notDirectory k.path, by simp only [Location.lineageFrom, fillDirectories, there]⟩
  | cons n names ih =>
    rcases List.mem_cons.1 member with rfl | later
    · exact ⟨.notDirectory k.path, by simp only [Location.lineageFrom, fillDirectories, there]⟩
    · obtain ⟨f, blocked⟩ := ih later
      -- The file lies below `above`, which is a directory for that.
      obtain ⟨more, rfl⟩ := (Location.mem_lineageFrom.1 later).1
      have directory : t.find? above = some .directory := by
        apply closed.directory_above ([n] ++ more) (by simp)
        rw [← List.append_assoc]
        exact Tree.contains_of_find? there
      exact ⟨f, by simpa only [Location.lineageFrom, fillDirectories, directory] using blocked⟩

theorem fillDirectories_ok {lineage : List Location}
    (clear : ∀ l ∈ lineage, ∀ content, t.find? l ≠ some (.file content)) :
    (fillDirectories lineage t).1 = .ok () := by
  induction lineage generalizing t with
  | nil => rfl
  | cons l lineage ih =>
    obtain ⟨here, later⟩ := List.forall_mem_cons.1 clear
    rw [fillDirectories]
    split
    next content there => exact absurd there (here content)
    next => exact ih later
    next =>
      apply ih
      intro k member content
      rw [Tree.find?_insert]
      split
      next => simp
      next => exact later k member content

/-- The directories that are missing are made, and nothing else happens. -/
theorem find?_fillDirectories {l : Location} (filled : (fillDirectories l.lineage t).1 = .ok ())
    (k : Location) : (fillDirectories l.lineage t).2.find? k =
      if k <+: l ∧ t.find? k = none then some .directory else t.find? k := by
  split
  next missing => exact find?_fillDirectories_of_ok filled (Location.mem_lineage.2 missing.1)
  next kept =>
    by_cases part : k <+: l
    · cases there : t.find? k with
      | none => exact absurd ⟨part, there⟩ kept
      | some entry => exact find?_fillDirectories_of_some there
    · exact find?_fillDirectories_of_notMem (mt Location.mem_lineage.1 part)

theorem fillDirectories_cases (closed : t.Closed) (l : Location) :
    (¬Clear t l ∧ ∃ f, fillDirectories l.lineage t = (.error f, t)) ∨
      Clear t l ∧ ∃ filled, fillDirectories l.lineage t = (.ok (), filled) ∧ ∀ k,
        filled.find? k = if k <+: l ∧ t.find? k = none then some .directory else t.find? k := by
  by_cases clear : Clear t l
  · have filled : (fillDirectories l.lineage t).1 = .ok () :=
      fillDirectories_ok fun k member content => clear k content (Location.mem_lineage.1 member)
    exact .inr ⟨clear, _, Prod.ext filled rfl, find?_fillDirectories filled⟩
  · refine .inl ⟨clear, ?_⟩
    simp only [Clear, not_forall, Decidable.not_not] at clear
    obtain ⟨k, content, part, there⟩ := clear
    exact fillDirectories_of_file closed there (Location.mem_lineage.2 part)

end

def OpenAbove (t : Tree Entry) (l : Location) : Prop :=
  ∀ k content, k <+: l → k ≠ l → t.find? k ≠ some (.file content)

def Accepts (m : Memory) : Call → Prop
  | .enter p => m.entries.find? (m.locate p) = some .directory
  | .makeDirectory p => p.text ≠ [] ∧ m.entries.find? (m.locate p) = none ∧
      OpenAbove m.entries (m.locate p)
  | .makeFile p _ => m.entries.find? (m.locate p) = none ∧ OpenAbove m.entries (m.locate p)
  | .write p _ | .read p => ∃ content, m.entries.find? (m.locate p) = some (.file content)
  | .remove p => p.text ≠ [] ∧ m.locate p ≠ [] ∧ m.entries.find? (m.locate p) ≠ none
  | .isDirectory p | .isFile p => m.entries.find? (m.locate p) ≠ none
  | .has _ => True

/-- What is held at `k` when the call has gone through. -/
def entryAfter (m : Memory) (k : Location) : Call → Option Entry
  | .makeDirectory p =>
    if k <+: m.locate p ∧ m.entries.find? k = none then some .directory else m.entries.find? k
  | .makeFile p content =>
    if k = m.locate p then some (.file content)
    else if k <+: m.locate p ∧ m.entries.find? k = none then some .directory
    else m.entries.find? k
  | .write p content => if k = m.locate p then some (.file content) else m.entries.find? k
  | .remove p => if m.locate p <+: k then none else m.entries.find? k
  | _ => m.entries.find? k

/-- Where the cursor is when the call has gone through. -/
def cwdAfter (m : Memory) : Call → Location
  | .enter p => m.locate p
  | .remove p => if m.locate p <+: m.cwd then (m.locate p).parent else m.cwd
  | _ => m.cwd

/-- The memory that a call which goes through makes of `m`. -/
structure Becomes (m : Memory) (call : Call) (after : Memory) : Prop where
  root : after.root = m.root
  cwd : after.cwd = m.cwdAfter call
  entries : ∀ k, after.entries.find? k = m.entryAfter k call

/-- The call is refused and nothing changes, or it goes through and does what it is to do. -/
def Settles {α : Type} (m : Memory) (call : Call) (tried : Except Failure α × Memory) : Prop :=
  (¬m.Accepts call ∧ ∃ f, tried = (.error f, m)) ∨
    m.Accepts call ∧ ∃ answer after, tried = (.ok answer, after) ∧ m.Becomes call after

section

variable {m : Memory}

theorem Settles.refused {α : Type} {call : Call} {f : Failure} (stops : ¬m.Accepts call) :
    m.Settles call ((.error f, m) : Except Failure α × Memory) := .inl ⟨stops, f, rfl⟩

theorem Settles.done {α : Type} {call : Call} {answer : α} {after : Memory}
    (accepted : m.Accepts call) (becomes : m.Becomes call after) :
    m.Settles call (.ok answer, after) := .inr ⟨accepted, answer, after, rfl, becomes⟩

theorem Settles.attempt {call : Call} {tried : Attempt Memory} (settles : m.Settles call tried) :
    m.Settles call (Call.attempt tried) := by
  rcases settles with ⟨stops, f, rfl⟩ | ⟨accepted, answer, after, rfl, becomes⟩
  · exact .refused stops
  · exact .done accepted becomes

theorem settles_enter (p : Path) : m.Settles (.enter p) (m.enter p) := by
  simp only [Memory.enter]
  split
  next absent => exact .refused (by simp [Accepts, absent])
  next content there => exact .refused (by simp [Accepts, there])
  next there => exact .done there ⟨rfl, rfl, fun k => rfl⟩

theorem settles_write (p : Path) (content : Bytes) :
    m.Settles (.write p content) (m.write p content) := by
  simp only [Memory.write]
  split
  next absent => exact .refused (by simp [Accepts, absent])
  next there => exact .refused (by simp [Accepts, there])
  next old there => exact .done ⟨old, there⟩ ⟨rfl, rfl, fun k => Tree.find?_insert ..⟩

theorem settles_remove (p : Path) : m.Settles (.remove p) (m.remove p) := by
  simp only [Memory.remove]
  split
  next empty => exact .refused fun accepted => accepted.1 empty
  next filled =>
    split
    next root => exact .refused fun accepted => accepted.2.1 root
    next below =>
      split
      next missing =>
        apply Settles.refused
        intro accepted
        simp [Tree.contains, accepted.2.2] at missing
      next held =>
        have there : m.entries.find? (m.locate p) ≠ none := by
          simpa [Tree.contains, Option.isSome_iff_ne_none] using held
        have accepted : m.Accepts (.remove p) := ⟨filled, below, there⟩
        apply Settles.done accepted
        constructor
        · rfl
        · simp only [cwdAfter, Location.isWithin_iff]
        · intro k
          simp only [Tree.find?_prune, entryAfter, Location.isWithin_iff]

theorem settles_entry (p : Path) (tell : Entry → Bool) :
    m.Settles (.isDirectory p) (((m.entry p).map tell).map Answer.truth, m) ∧
      m.Settles (.isFile p) (((m.entry p).map tell).map Answer.truth, m) := by
  unfold entry
  split
  next entry there =>
    have held : m.entries.find? (m.locate p) ≠ none := by simp [there]
    exact ⟨.done held ⟨rfl, rfl, fun k => rfl⟩, .done held ⟨rfl, rfl, fun k => rfl⟩⟩
  next absent => exact ⟨.refused fun held => held absent, .refused fun held => held absent⟩

theorem settles_read (p : Path) : m.Settles (.read p) ((m.read p).map Answer.bytes, m) := by
  unfold Memory.read entry
  cases there : m.entries.find? (m.locate p) with
  | none => exact .refused (by simp [Accepts, there])
  | some entry =>
    cases entry with
    | directory => exact .refused (by simp [Accepts, there])
    | file content => exact .done ⟨content, there⟩ ⟨rfl, rfl, fun k => rfl⟩

theorem openAbove_of_absent {t : Tree Entry} {l : Location} (absent : t.find? l = none) :
    Clear t l ↔ OpenAbove t l := by
  constructor
  · intro clear k content part _
    exact clear k content part
  · intro clear k content part
    by_cases same : k = l
    · simp [same, absent]
    · exact clear k content part same

theorem clear_parent_iff {t : Tree Entry} {l : Location} (below : l ≠ []) :
    Clear t l.parent ↔ OpenAbove t l := by
  simp only [Clear, OpenAbove, Location.prefix_parent_iff below, and_imp]

section

variable (valid : m.WellFormed)

include valid

theorem makeDirectoryAt_cases {l : Location} (absent : m.entries.find? l = none) :
    (¬Clear m.entries l ∧ ∃ f, m.makeDirectoryAt l = (.error f, m)) ∨
      Clear m.entries l ∧ ∃ filled, m.makeDirectoryAt l = (.ok (), { m with entries := filled }) ∧
        ∀ k, filled.find? k =
          if k <+: l ∧ m.entries.find? k = none then some .directory else m.entries.find? k := by
  have free : m.entries.contains l = false := by simp [Tree.contains, absent]
  simp only [makeDirectoryAt, free, Bool.false_eq_true, if_false]
  rcases fillDirectories_cases valid.closed l with ⟨blocked, f, stopped⟩ | ⟨clear, t, filled, found⟩
  · exact .inl ⟨blocked, f, by rw [stopped]⟩
  · exact .inr ⟨clear, t, by rw [filled], found⟩

theorem settles_makeDirectory (p : Path) :
    m.Settles (.makeDirectory p) (m.makeDirectory p) := by
  unfold Memory.makeDirectory
  split
  next empty => exact .refused fun accepted => accepted.1 empty
  next filled =>
    cases held : m.entries.find? (m.locate p) with
    | some entry =>
      rw [makeDirectoryAt, if_pos (Tree.contains_of_find? held)]
      apply Settles.refused
      intro accepted
      rw [Accepts, held] at accepted
      cases accepted.2.1
    | none =>
      have clearIff := openAbove_of_absent held
      rcases makeDirectoryAt_cases valid held with ⟨blocked, f, made⟩ | ⟨clear, t, made, found⟩
      · rw [made]
        exact .refused fun accepted => blocked (clearIff.2 accepted.2.2)
      · rw [made]
        exact .done ⟨filled, held, clearIff.1 clear⟩ ⟨rfl, rfl, found⟩

/-- The directory of an entry is made with all above it, unless a file is in the way. -/
theorem makeParent_cases (l : Location) :
    (¬Clear m.entries l ∧ ∃ f, m.makeParent l = (.error f, m)) ∨
      Clear m.entries l ∧ ∃ filled, m.makeParent l = (.ok (), { m with entries := filled }) ∧
        ∀ k, filled.find? k =
          if k <+: l ∧ m.entries.find? k = none then some .directory else m.entries.find? k := by
  unfold makeParent
  split
  next absent => exact makeDirectoryAt_cases valid absent
  next content there =>
    exact .inl ⟨fun clear => clear l content List.prefix_rfl there, _, rfl⟩
  next there =>
    have above {k : Location} (part : k <+: l) : m.entries.find? k = some .directory :=
      directory_of_mem_lineage valid.closed there (Location.mem_lineage.2 part)
    refine .inr ⟨fun k content part => by simp [above part], m.entries, rfl, fun k => ?_⟩
    rw [if_neg]
    rintro ⟨part, absent⟩
    rw [above part] at absent
    cases absent

theorem settles_makeFile (p : Path) (content : Bytes) :
    m.Settles (.makeFile p content) (m.makeFile p content) := by
  simp only [Memory.makeFile]
  split
  next held =>
    apply Settles.refused
    intro accepted
    simp [Tree.contains, accepted.1] at held
  next free =>
    have absent : m.entries.find? (m.locate p) = none := by simpa [Tree.contains] using free
    have below : m.locate p ≠ [] := by
      intro root
      rw [root, valid.root_directory] at absent
      cases absent
    have clearIff := clear_parent_iff (t := m.entries) below
    rcases makeParent_cases valid (m.locate p).parent with
      ⟨blocked, f, made⟩ | ⟨clear, t, made, found⟩
    · rw [made]
      exact .refused fun accepted => blocked (clearIff.2 accepted.2)
    · rw [made]
      refine .done ⟨absent, clearIff.1 clear⟩ ⟨rfl, rfl, fun k => ?_⟩
      simp only [Tree.find?_insert, entryAfter, found, Location.prefix_parent_iff below]
      split
      next => rfl
      next apart => simp only [ne_eq, apart, not_false_eq_true, and_true]

/-- Every call goes through exactly when it is to, and does what it is to do. -/
theorem settles_ask (call : Call) : m.Settles call (call.ask m) := by
  cases call with
  | enter p => exact (settles_enter p).attempt
  | makeDirectory p => exact (settles_makeDirectory valid p).attempt
  | makeFile p content => exact (settles_makeFile valid p content).attempt
  | write p content => exact (settles_write p content).attempt
  | remove p => exact (settles_remove p).attempt
  | has p => exact .done trivial ⟨rfl, rfl, fun k => rfl⟩
  | isDirectory p => exact (settles_entry p Entry.isDirectory).1
  | isFile p => exact (settles_entry p Entry.isFile).2
  | read p => exact settles_read p

end

/-- In a memory that calls and scripts lead to, a call reads its path from the cursor. It is refused
and nothing at all changes, or it goes through with just the effect that it is to have. -/
theorem Reachable.ask_cases (reached : m.Reachable) (call : Call) :
    (m.locate call.path).path = (m.cwd.path.join call.path).normalize ∧
      ((¬m.Accepts call ∧ ∃ f, call.ask m = (.error f, m)) ∨
        m.Accepts call ∧ ∃ answer after, call.ask m = (.ok answer, after) ∧
          m.Becomes call after) :=
  ⟨(Location.normalize_join m.cwd call.path).symm, settles_ask reached.wellFormed call⟩

/-- Nothing is made below a file. Where no file is in the way, a file is made with the directories
that it lacks. -/
theorem Reachable.ask_cases_halfway : halfway.Reachable ∧
    (∃ f, (Call.makeDirectory ⟨['b', '/', 'a', '/', 'c', '/', 'd']⟩).ask halfway =
      (.error f, halfway)) ∧
    ∃ answer after, (Call.makeFile ⟨['b', '/', '.', '.', '/', 'c', '/', 'd', '/', 'e']⟩ [2]).ask
        halfway = (.ok answer, after) ∧
      after.entries.find? [⟨['c'], by decide⟩, ⟨['d'], by decide⟩] = some .directory ∧
      after.entries.find? [⟨['c'], by decide⟩, ⟨['d'], by decide⟩, ⟨['e'], by decide⟩] =
        some (.file [2]) := by
  have reached : halfway.Reachable := .carryOut (.ask .empty _) _ _ _ _
  refine ⟨reached, ?_, ?_⟩
  · rcases (Reachable.ask_cases reached (.makeDirectory ⟨['b', '/', 'a', '/', 'c', '/', 'd']⟩)).2
      with ⟨-, refused⟩ | ⟨accepted, -⟩
    · exact refused
    · have above : [⟨['b'], by decide⟩, ⟨['a'], by decide⟩] <+:
          halfway.locate ⟨['b', '/', 'a', '/', 'c', '/', 'd']⟩ := by decide
      exact absurd rfl (accepted.2.2 _ [1] above (by decide))
  · rcases (Reachable.ask_cases reached
      (.makeFile ⟨['b', '/', '.', '.', '/', 'c', '/', 'd', '/', 'e']⟩ [2])).2
      with ⟨-, f, refused⟩ | ⟨-, answer, after, made, becomes⟩
    · have goes : ((Call.makeFile ⟨['b', '/', '.', '.', '/', 'c', '/', 'd', '/', 'e']⟩ [2]).ask
          halfway).1 = .ok .done := rfl
      rw [refused] at goes
      cases goes
    · refine ⟨answer, after, made, ?_, ?_⟩
      · rw [becomes.entries]
        rfl
      · rw [becomes.entries]
        rfl

end

end Memory

end Scaffold
