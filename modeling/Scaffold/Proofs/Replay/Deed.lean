import Scaffold.Proofs.Script.Trail
import Scaffold.Proofs.Storage.Memory
import Scaffold.Replay

/-! What a step does to a memory. Each name is made in a directory that is there, so no step brings
more than its own entry with it. -/
namespace Scaffold.Replay

open Script (nameEffect)

def blank (isFile : Bool) : Entry := if isFile then .file [] else .directory

/-- Why a name cannot be made where something of the other kind stands. -/
def clashFailure (isFile : Bool) (l : Location) : Failure :=
  if isFile then .directoryInTheWay l else .fileInTheWay l

/-- All that a step can come to. A clash changes nothing. -/
inductive Deed (rollback : Bool) (m : Memory) (journal : List Undo) :
    Location → Step.Effect → Performed Memory → Prop
  | created {above : Location} {n : Path.Name} {isFile : Bool}
      (home : m.entries.find? above = some .directory)
      (absent : m.entries.find? (above ++ [n]) = none) :
      Deed rollback m journal (above ++ [n]) (nameEffect isFile)
        ⟨.ok .created, .remove (above ++ [n]) :: journal, m.put (above ++ [n]) (blank isFile)⟩
  | found {l : Location} {isFile : Bool} {entry : Entry}
      (there : m.entries.find? l = some entry) (kind : entry.isFile = isFile) :
      Deed rollback m journal l (nameEffect isFile) ⟨.ok .alreadyExists, journal, m⟩
  | written {l : Location} {content : Text} {old : Bytes}
      (there : m.entries.find? l = some (.file old)) :
      Deed rollback m journal l (.text content)
        ⟨.ok .written, if rollback then .restore l old :: journal else journal,
          m.put l (.file (Text.utf8 content))⟩
  | clash {l : Location} {isFile : Bool} {entry : Entry}
      (there : m.entries.find? l = some entry) (kind : entry.isFile ≠ isFile) :
      Deed rollback m journal l (nameEffect isFile) ⟨.error (clashFailure isFile l), journal, m⟩

section

variable {m : Memory} {above l : Location} {n : Path.Name} (rollback : Bool) (journal : List Undo)

theorem perform_absent (closed : m.entries.Closed)
    (home : m.entries.find? above = some .directory)
    (absent : m.entries.find? (above ++ [n]) = none) (isFile : Bool) :
    perform rollback m journal (above ++ [n]) (nameEffect isFile) =
      ⟨.ok .created, .remove (above ++ [n]) :: journal, m.put (above ++ [n]) (blank isFile)⟩ := by
  have free : m.entries.contains (above ++ [n]) = false := by simp [Tree.contains, absent]
  cases isFile with
  | false =>
    simp only [nameEffect, Bool.false_eq_true, if_false, perform, makeDirectory,
      Memory.storage_has, free, Memory.storage_makeDirectory closed home absent]
    rfl
  | true =>
    simp only [nameEffect, if_true, perform, makeFile, Memory.storage_has, free,
      Bool.false_eq_true, if_false, Memory.storage_makeFile home absent]
    rfl

theorem perform_present {entry : Entry} (there : m.entries.find? l = some entry)
    (isFile : Bool) :
    perform rollback m journal l (nameEffect isFile) =
      ⟨if entry.isFile = isFile then .ok .alreadyExists else .error (clashFailure isFile l),
        journal, m⟩ := by
  have taken : m.entries.contains l = true := Tree.contains_of_find? there
  cases isFile with
  | false =>
    simp only [nameEffect, Bool.false_eq_true, if_false, perform, makeDirectory,
      Memory.storage_has, taken, if_true, Memory.storage_isDirectory there]
    cases entry <;> rfl
  | true =>
    simp only [nameEffect, if_true, perform, makeFile, Memory.storage_has, taken,
      Memory.storage_isFile there]
    cases entry <;> rfl

theorem perform_text {old : Bytes} (there : m.entries.find? l = some (.file old))
    (content : Text) :
    perform rollback m journal l (.text content) =
      ⟨.ok .written, if rollback then .restore l old :: journal else journal,
        m.put l (.file (Text.utf8 content))⟩ := by
  have taken : m.entries.contains l = true := Tree.contains_of_find? there
  cases rollback <;>
    simp only [perform, writeText, Memory.storage_has, taken, Bool.not_true, Bool.false_eq_true,
      if_false, keepContent, if_true, Memory.storage_read there, Except.map,
      Memory.storage_write there]

/-- A name in a directory that is there is made, found or in a clash. -/
theorem perform_name (closed : m.entries.Closed)
    (home : m.entries.find? above = some .directory) (isFile : Bool) :
    Deed rollback m journal (above ++ [n]) (nameEffect isFile)
      (perform rollback m journal (above ++ [n]) (nameEffect isFile)) := by
  cases there : m.entries.find? (above ++ [n]) with
  | none =>
    rw [perform_absent rollback journal closed home there]
    exact .created home there
  | some entry =>
    rw [perform_present rollback journal there]
    split
    next kind => exact .found there kind
    next kind => exact .clash there kind

end

section

variable {rollback : Bool} {m after : Memory} {journal later : List Undo} {l : Location}
  {effect : Step.Effect} {outcome : Outcome}

theorem Deed.directory (deed : Deed rollback m journal l effect ⟨.ok outcome, later, after⟩)
    {k : Location} (there : m.entries.find? k = some .directory) :
    after.entries.find? k = some .directory := by
  cases deed with
  | created home absent =>
    rw [Memory.put_entries, Tree.find?_insert, if_neg, there]
    rintro rfl
    simp [absent] at there
  | found => exact there
  | written file =>
    rw [Memory.put_entries, Tree.find?_insert, if_neg, there]
    rintro rfl
    simp [file] at there

theorem Deed.closed (deed : Deed rollback m journal l effect ⟨.ok outcome, later, after⟩)
    (closed : m.entries.Closed) : after.entries.Closed := by
  cases deed with
  | created home absent => exact closed.insert home (.inr (by simp [absent]))
  | found => exact closed
  | written file =>
    rcases List.eq_nil_or_concat l with rfl | ⟨above, n, rfl⟩
    · simp [closed.root_directory] at file
    · rw [List.concat_eq_append] at file ⊢
      have home := closed.parent_directory above n (Tree.contains_of_find? file)
      exact closed.insert home (.inr (by simp [file]))

@[simp] theorem Deed.cwd (deed : Deed rollback m journal l effect ⟨.ok outcome, later, after⟩) :
    after.cwd = m.cwd := by
  cases deed <;> rfl

/-- What the step names stands there afterwards. -/
theorem Deed.stands {isFile : Bool}
    (deed : Deed rollback m journal l (nameEffect isFile) ⟨.ok outcome, later, after⟩) :
    ∃ entry, after.entries.find? l = some entry ∧ entry.isFile = isFile := by
  generalize same : nameEffect isFile = named at deed
  cases deed with
  | @created above n other home absent =>
    obtain rfl := Script.nameEffect_injective same
    refine ⟨blank isFile, by simp [Tree.find?_insert], ?_⟩
    cases isFile <;> rfl
  | found there kind =>
    obtain rfl := Script.nameEffect_injective same
    exact ⟨_, there, kind⟩
  | written => exact absurd same (Script.nameEffect_ne_text isFile _)

theorem Deed.clashes {isFile : Bool} {failure : Failure}
    (deed : Deed rollback m journal l (nameEffect isFile) ⟨.error failure, later, after⟩) :
    (∃ entry, m.entries.find? l = some entry ∧ entry.isFile ≠ isFile) ∧
      failure = clashFailure isFile l ∧ later = journal ∧ after = m := by
  generalize same : nameEffect isFile = named at deed
  cases deed with
  | clash there kind =>
    obtain rfl := Script.nameEffect_injective same
    exact ⟨⟨_, there, kind⟩, rfl, rfl, rfl⟩

/-- A text takes the place of the content of a file. -/
theorem Deed.overwrites {content : Text}
    (deed : Deed rollback m journal l (.text content) ⟨.ok outcome, later, after⟩) :
    ∃ old new, m.entries.find? l = some (.file old) ∧ after.entries.find? l = some (.file new) := by
  generalize same : Step.Effect.text content = effect at deed
  cases deed with
  | created => exact absurd same.symm (Script.nameEffect_ne_text _ content)
  | found => exact absurd same.symm (Script.nameEffect_ne_text _ content)
  | @written _ _ old there =>
    exact ⟨old, _, there, (Tree.find?_insert ..).trans (if_pos rfl)⟩

end

/-- The cursor is in a directory, and what was placed last is there. -/
structure Ready (t : Tree Entry) (cursor : Location) (last : Placement) : Prop where
  closed : t.Closed
  cursor_directory : t.find? cursor = some .directory
  last_stands : ∀ isFile, last.2 = nameEffect isFile →
    ∃ entry, t.find? last.1 = some entry ∧ entry.isFile = isFile

theorem Entry.eq_directory {entry : Entry} (kind : entry.isFile = false) : entry = .directory := by
  cases entry <;> simp_all [Entry.isFile, Entry.isDirectory]

theorem Entry.eq_file {entry : Entry} (kind : entry.isFile = true) :
    ∃ content, entry = .file content := by
  cases entry <;> simp_all [Entry.isFile, Entry.isDirectory]

section

variable {t : Tree Entry} {cursor moved : Location} {last : Placement}

theorem Ready.last_directory (ready : Ready t cursor last) (kind : last.2 = .directory) :
    t.find? last.1 = some .directory := by
  obtain ⟨entry, there, plain⟩ := ready.last_stands false kind
  rw [there, Entry.eq_directory plain]

theorem Ready.last_file (ready : Ready t cursor last) (kind : last.2 = .file) :
    ∃ content, t.find? last.1 = some (.file content) := by
  obtain ⟨entry, there, isFile⟩ := ready.last_stands true kind
  obtain ⟨content, rfl⟩ := Entry.eq_file isFile
  exact ⟨content, there⟩

/-- Wherever the cursor of a trail moves, there is a directory. -/
theorem Ready.home (ready : Ready t cursor last)
    (near : moved = cursor ∨ moved = cursor.parent ∨ (last.2 = .directory ∧ moved = last.1)) :
    t.find? moved = some .directory := by
  rcases near with rfl | rfl | ⟨kind, rfl⟩
  · exact ready.cursor_directory
  · exact ready.closed.parent_of_directory ready.cursor_directory
  · exact ready.last_directory kind

end

section

variable {rollback : Bool} {m after : Memory} {journal later : List Undo} {cursor : Location}
  {last : Placement} {outcome : Outcome}

theorem Ready.after_name (ready : Ready m.entries cursor last) {moved : Location} {n : Path.Name}
    {isFile : Bool} (home : m.entries.find? moved = some .directory)
    (deed : Deed rollback m journal (moved ++ [n]) (nameEffect isFile)
      ⟨.ok outcome, later, after⟩) :
    Ready after.entries moved (moved ++ [n], nameEffect isFile) where
  closed := deed.closed ready.closed
  cursor_directory := deed.directory home
  last_stands := by
    intro other same
    rw [← Script.nameEffect_injective same]
    exact deed.stands

theorem Ready.after_text (ready : Ready m.entries cursor last) {content : Text}
    (deed : Deed rollback m journal last.1 (.text content) ⟨.ok outcome, later, after⟩) :
    Ready after.entries cursor last where
  closed := deed.closed ready.closed
  cursor_directory := deed.directory ready.cursor_directory
  last_stands := by
    intro isFile kind
    obtain ⟨entry, there, same⟩ := ready.last_stands isFile kind
    obtain ⟨old, new, was, now⟩ := deed.overwrites
    rw [was] at there
    cases there
    exact ⟨_, now, same⟩

end

end Scaffold.Replay
