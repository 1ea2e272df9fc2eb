import Scaffold.Proofs.Replay.Create
import Scaffold.Proofs.Script.Shape

/-! The outcome of creating a script, told from the entries before it and the placements of its
steps alone: whether it goes through, the report, and the entries afterwards. -/
namespace Scaffold.Replay

open Script (nameEffect)

/-- The name meets an entry of the other kind. -/
def Clashes (t : Tree Entry) (p : Placement) : Prop :=
  (p.2 = .directory ∧ ∃ content, t.find? p.1 = some (.file content)) ∨
    (p.2 = .file ∧ t.find? p.1 = some .directory)

def outcomeOf (taken : Bool) : Step.Effect → Outcome
  | .text _ => .written
  | _ => if taken then .alreadyExists else .created

/-- What becomes of a placement that comes after the placements `before`. -/
def outcomeAfter (t : Tree Entry) (before : List Placement) (p : Placement) : Outcome :=
  outcomeOf (t.contains p.1 || before.any (·.1 = p.1)) p.2

def textAt? (l : Location) (p : Placement) : Option Text :=
  match p.2 with
  | .text content => if p.1 = l then some content else none
  | _ => none

def lastText? (placements : List Placement) (l : Location) : Option Text :=
  placements.reverse.findSome? (textAt? l)

def contentAt (t : Tree Entry) (l : Location) : Bytes := ((t.find? l).map Entry.content).getD []

def contentAfter (t : Tree Entry) (placements : List Placement) (l : Location) : Bytes :=
  ((lastText? placements l).map Text.utf8).getD (contentAt t l)

/-- The entries once the placements are carried out on `t`. -/
structure Settled (t : Tree Entry) (placements : List Placement) (u : Tree Entry) : Prop where
  untouched : ∀ l, (∀ p ∈ placements, p.1 ≠ l) → u.find? l = t.find? l
  directories : ∀ l, (l, .directory) ∈ placements → u.find? l = some .directory
  files : ∀ l, (l, .file) ∈ placements → u.find? l = some (.file (contentAfter t placements l))

theorem clashes_name_iff {t : Tree Entry} {l : Location} {isFile : Bool} :
    Clashes t (l, nameEffect isFile) ↔ ∃ entry, t.find? l = some entry ∧ entry.isFile ≠ isFile := by
  constructor
  · rintro (⟨same, content, there⟩ | ⟨same, there⟩)
    · cases isFile with
      | false => exact ⟨_, there, by simp [Entry.isFile, Entry.isDirectory]⟩
      | true => cases same
    · cases isFile with
      | false => cases same
      | true => exact ⟨_, there, by simp [Entry.isFile, Entry.isDirectory]⟩
  · rintro ⟨entry, there, kind⟩
    cases isFile with
    | false =>
      obtain ⟨content, rfl⟩ := Entry.eq_file (by simpa using kind)
      exact .inl ⟨rfl, content, there⟩
    | true =>
      obtain rfl := Entry.eq_directory (by simpa using kind)
      exact .inr ⟨rfl, there⟩

theorem Clashes.name {t : Tree Entry} {p : Placement} (clashes : Clashes t p) :
    ∃ isFile, p.2 = nameEffect isFile := by
  rcases clashes with ⟨same, _⟩ | ⟨same, _⟩
  · exact ⟨false, same⟩
  · exact ⟨true, same⟩

section

variable {rollback : Bool} {m after : Memory} {journal later : List Undo} {l k : Location}
  {effect : Step.Effect} {outcome : Outcome}

theorem Deed.untouched (deed : Deed rollback m journal l effect ⟨.ok outcome, later, after⟩)
    (apart : l ≠ k) : after.entries.find? k = m.entries.find? k := by
  cases deed with
  | created => rw [Memory.put_entries, Tree.find?_insert, if_neg (Ne.symm apart)]
  | found => rfl
  | written => rw [Memory.put_entries, Tree.find?_insert, if_neg (Ne.symm apart)]

theorem Deed.keeps (deed : Deed rollback m journal l effect ⟨.ok outcome, later, after⟩)
    {old : Entry} (there : m.entries.find? k = some old) :
    ∃ entry, after.entries.find? k = some entry ∧ entry.isFile = old.isFile := by
  by_cases same : l = k
  · subst same
    cases deed with
    | created home absent => simp [absent] at there
    | found => exact ⟨old, there, rfl⟩
    | written file =>
      rw [file] at there
      cases there
      exact ⟨_, (Tree.find?_insert ..).trans (if_pos rfl), rfl⟩
  · exact ⟨old, by rw [deed.untouched same, there], rfl⟩

theorem Deed.origin (deed : Deed rollback m journal l effect ⟨.ok outcome, later, after⟩)
    {entry : Entry} (there : after.entries.find? k = some entry) :
    (∃ old, m.entries.find? k = some old ∧ old.isFile = entry.isFile) ∨
      (k = l ∧ effect = nameEffect entry.isFile) := by
  by_cases same : l = k
  · subst same
    cases deed with
    | @created _ _ isFile =>
      have made : entry = blank isFile := by simpa [Tree.find?_insert] using there.symm
      refine .inr ⟨rfl, ?_⟩
      rw [made]
      cases isFile <;> rfl
    | found => exact .inl ⟨entry, there, rfl⟩
    | written file =>
      rw [Memory.put_entries, Tree.find?_insert, if_pos rfl] at there
      cases there
      exact .inl ⟨_, file, rfl⟩
  · exact .inl ⟨entry, by rw [← deed.untouched same, there], rfl⟩

theorem Deed.contains (deed : Deed rollback m journal l effect ⟨.ok outcome, later, after⟩)
    (k : Location) :
    after.entries.contains k = (m.entries.contains k || decide (l = k)) := by
  by_cases same : l = k
  · subst same
    have now : (after.entries.find? l).isSome := by
      cases deed with
      | created => simp [Tree.find?_insert]
      | found there => simp [there]
      | written => simp [Tree.find?_insert]
    simpa [Tree.contains] using now
  · simp [Tree.contains, deed.untouched same, same]

theorem Deed.outcome_eq (deed : Deed rollback m journal l effect ⟨.ok outcome, later, after⟩) :
    outcome = outcomeOf (m.entries.contains l) effect := by
  cases deed with
  | @created _ _ isFile _ absent =>
    cases isFile <;> simp [outcomeOf, nameEffect, Tree.contains, absent]
  | @found _ isFile _ there => cases isFile <;> simp [outcomeOf, nameEffect, Tree.contains, there]
  | written => rfl

theorem Deed.contentAt (deed : Deed rollback m journal l effect ⟨.ok outcome, later, after⟩)
    (k : Location) :
    contentAt after.entries k =
      ((textAt? k (l, effect)).map Text.utf8).getD (Replay.contentAt m.entries k) := by
  by_cases same : l = k
  · subst same
    cases deed with
    | @created _ _ isFile _ absent =>
      cases isFile <;>
        simp [Replay.contentAt, textAt?, nameEffect, Tree.find?_insert, absent, blank,
          Entry.content]
    | @found _ isFile => cases isFile <;> simp [textAt?, nameEffect]
    | written => simp [Replay.contentAt, textAt?, Tree.find?_insert, Entry.content]
  · have none_here : textAt? k (l, effect) = none := by
      cases effect <;> simp [textAt?, same]
    simp [Replay.contentAt, none_here, deed.untouched same]

end

section

variable {rollback : Bool} {m after : Memory} {journal later : List Undo}
  {placements : List Placement} {report : List (Location × Outcome)}

theorem Deeds.untouched (deeds : Deeds rollback m journal placements report after later)
    {k : Location} (apart : ∀ p ∈ placements, p.1 ≠ k) :
    after.entries.find? k = m.entries.find? k := by
  induction deeds with
  | nil => rfl
  | cons deed deeds ih =>
    obtain ⟨here, there⟩ := List.forall_mem_cons.1 apart
    rw [ih there, deed.untouched here]

theorem Deeds.keeps (deeds : Deeds rollback m journal placements report after later)
    {k : Location} {old : Entry} (there : m.entries.find? k = some old) :
    ∃ entry, after.entries.find? k = some entry ∧ entry.isFile = old.isFile := by
  induction deeds generalizing old with
  | nil => exact ⟨old, there, rfl⟩
  | cons deed deeds ih =>
    obtain ⟨between, found, same⟩ := deed.keeps there
    obtain ⟨entry, now, kind⟩ := ih found
    exact ⟨entry, now, kind.trans same⟩

/-- What a step names stands there in the end. -/
theorem Deeds.stands (deeds : Deeds rollback m journal placements report after later)
    {k : Location} (isFile : Bool) (member : (k, nameEffect isFile) ∈ placements) :
    ∃ entry, after.entries.find? k = some entry ∧ entry.isFile = isFile := by
  induction deeds with
  | nil => cases member
  | @cons m next _ _ kept _ l effect outcome _ _ deed deeds ih =>
    rcases List.mem_cons.1 member with same | there
    · obtain ⟨rfl, rfl⟩ := Prod.mk.inj same
      obtain ⟨entry, now, kind⟩ := deed.stands
      obtain ⟨last, found, stays⟩ := deeds.keeps now
      exact ⟨last, found, stays.trans kind⟩
    · exact ih there

theorem Deeds.origin (deeds : Deeds rollback m journal placements report after later)
    {k : Location} {entry : Entry} (there : after.entries.find? k = some entry) :
    (∃ old, m.entries.find? k = some old ∧ old.isFile = entry.isFile) ∨
      (k, nameEffect entry.isFile) ∈ placements := by
  induction deeds with
  | nil => exact .inl ⟨entry, there, rfl⟩
  | cons deed deeds ih =>
    rcases ih there with ⟨between, found, kind⟩ | member
    · rcases deed.origin found with ⟨old, was, same⟩ | ⟨rfl, rfl⟩
      · exact .inl ⟨old, was, same.trans kind⟩
      · exact .inr (by rw [kind]; exact List.mem_cons_self)
    · exact .inr (List.mem_cons_of_mem _ member)

/-- Steps that go through meet no entry of the other kind. -/
theorem Deeds.no_clash (deeds : Deeds rollback m journal placements report after later)
    {p : Placement} (member : p ∈ placements) : ¬Clashes m.entries p := by
  intro clashes
  obtain ⟨l, effect⟩ := p
  obtain ⟨isFile, rfl⟩ : ∃ isFile, effect = nameEffect isFile := clashes.name
  obtain ⟨old, was, kind⟩ := clashes_name_iff.1 clashes
  obtain ⟨entry, now, stays⟩ := deeds.keeps was
  obtain ⟨named, found, same⟩ := deeds.stands isFile member
  rw [now] at found
  cases found
  exact kind (stays.symm.trans same)

theorem lastText?_cons (p : Placement) (placements : List Placement) (l : Location) :
    lastText? (p :: placements) l = (lastText? placements l).or (textAt? l p) := by
  simp [lastText?, List.findSome?_append]

theorem Deeds.contentAt (deeds : Deeds rollback m journal placements report after later)
    (k : Location) : contentAt after.entries k = contentAfter m.entries placements k := by
  induction deeds with
  | nil => rfl
  | cons deed deeds ih =>
    rw [ih, contentAfter, contentAfter, lastText?_cons, deed.contentAt]
    cases lastText? _ k <;> rfl

/-- The outcomes are told by what was there, and by the placements `before` since then. -/
theorem Deeds.outcomes (deeds : Deeds rollback m journal placements report after later)
    (t : Tree Entry) (before : List Placement)
    (since : ∀ l, m.entries.contains l = (t.contains l || before.any (·.1 = l))) :
    report = placements.mapIdx fun i p =>
      (p.1, outcomeAfter t (before ++ placements.take i) p) := by
  induction deeds generalizing before with
  | nil => rfl
  | @cons m next _ _ kept _ l effect outcome rest _ deed deeds ih =>
    have step : ∀ k, next.entries.contains k =
        (t.contains k || (before ++ [(l, effect)]).any (·.1 = k)) := by
      intro k
      rw [deed.contains, since]
      simp [Bool.or_assoc]
    have here : outcome = outcomeAfter t before (l, effect) := by
      rw [deed.outcome_eq, since]
      rfl
    rw [ih _ step, List.mapIdx_cons, here]
    simp

theorem Deeds.settled (deeds : Deeds rollback m journal placements report after later) :
    Settled m.entries placements after.entries where
  untouched _ apart := deeds.untouched apart
  directories l member := by
    obtain ⟨entry, there, plain⟩ := deeds.stands false member
    rw [there, Entry.eq_directory plain]
  files l member := by
    obtain ⟨entry, there, kind⟩ := deeds.stands true member
    obtain ⟨content, rfl⟩ := Entry.eq_file kind
    rw [there, ← deeds.contentAt]
    simp [Replay.contentAt, there, Entry.content]

/-- A name that meets an entry of the other kind has met it from the start, since two placements at
one location make entries of one kind. -/
theorem Stop.clashes (stop : Stop rollback m journal placements) {namesFile : Text → Bool}
    (tells : ∀ p ∈ placements, Script.Tells namesFile p) :
    Clashes m.entries (stop.l, nameEffect stop.isFile) := by
  rw [clashes_name_iff]
  rcases stop.deeds.origin stop.there with ⟨old, was, same⟩ | member
  · exact ⟨old, was, same ▸ stop.kind⟩
  · obtain ⟨n, last, first⟩ := tells _ (stop.mem_of_before member) _ rfl
    obtain ⟨other, sameLast, second⟩ := tells _ stop.mem _ rfl
    obtain rfl : n = other := Option.some.inj (last.symm.trans sameLast)
    exact absurd (first.symm.trans second) stop.kind

end

/-- Where the names tell the kinds, all steps go through, or all before one that clashes with an
entry that was there from the start. -/
theorem create_planned (rollback : Bool) {m : Memory} {anchor : Path} {script : Script}
    {steps : List Step} (closed : m.entries.Closed)
    (entering : (Storage.enter m anchor).1 = .ok ()) (planned : script.plan = .ok steps)
    (proper : script.Proper) :
    (∃ report after journal,
      Deeds rollback (entered m anchor) [] (placementsAt m anchor steps) report after journal ∧
      create rollback m anchor script = (.ok ⟨report⟩, after)) ∨
    ∃ stop : Stop rollback (entered m anchor) [] (placementsAt m anchor steps),
      Clashes m.entries (stop.l, nameEffect stop.isFile) ∧
      create rollback m anchor script =
        (.error (.storage (some (.create stop.l)) (clashFailure stop.isFile stop.l)),
          if rollback then undo stop.memory stop.kept else stop.memory) := by
  have names : ∀ argument ∈ script.arguments, argument.IsProper := by
    intro argument member plain
    exact (proper argument member plain).1
  have kinds : ∀ argument ∈ script.arguments, argument.isText = false →
      Naming.namesFile argument.value = argument.isFile := by
    intro argument member plain
    exact (proper argument member plain).2
  rcases (create_carried rollback closed entering planned names).2 with carried | ⟨stop, ran⟩
  · exact .inl carried
  · have told : ∀ p ∈ placementsAt m anchor steps, Script.Tells Naming.namesFile p := by
      intro p member
      obtain ⟨step, inside, rfl⟩ := List.mem_map.1 member
      exact Script.plan_tells (m.locate anchor) planned names kinds step inside
    exact .inr ⟨stop, stop.clashes told, ran⟩

end Scaffold.Replay
