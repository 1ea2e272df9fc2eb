import Scaffold.Proofs.Naming
import Scaffold.Proofs.Replay.Create

/-! Rollback. Taking back what the journal holds after a step leaves the memory as taking back the
journal before the step would have left it, so a failed run leaves the entries it found. -/
namespace Scaffold

/-- Two memories that no call can tell apart. -/
structure Memory.Agrees (m other : Memory) : Prop where
  root : m.root = other.root
  cwd : m.cwd = other.cwd
  entries : m.entries.Agrees other.entries

theorem Memory.Agrees.refl (m : Memory) : m.Agrees m := ⟨rfl, rfl, .refl _⟩

theorem Memory.Agrees.trans {m other third : Memory} (first : m.Agrees other)
    (second : other.Agrees third) : m.Agrees third where
  root := first.root.trans second.root
  cwd := first.cwd.trans second.cwd
  entries := first.entries.trans second.entries

namespace Replay

open Script (nameEffect)

section

variable {m other : Memory}

theorem remove_agrees (same : m.Agrees other) (l : Location) :
    (Storage.remove m l.path).2.Agrees (Storage.remove other l.path).2 := by
  change (m.remove l.path).2.Agrees (other.remove l.path).2
  simp only [Memory.remove, Memory.locate_path, Memory.text_path_ne_nil, if_false,
    same.entries.contains, same.cwd]
  split
  · exact same
  · split
    · exact same
    · exact ⟨same.root, rfl, same.entries.prune l⟩

theorem write_agrees (same : m.Agrees other) (l : Location) (content : Bytes) :
    (Storage.write m l.path content).2.Agrees (Storage.write other l.path content).2 := by
  change (m.write l.path content).2.Agrees (other.write l.path content).2
  simp only [Memory.write, Memory.locate_path, same.entries l]
  split
  · exact same
  · exact same
  · exact ⟨same.root, same.cwd, same.entries.insert l _⟩

theorem undoOne_agrees (same : m.Agrees other) (entry : Undo) :
    (undoOne m entry).Agrees (undoOne other entry) := by
  cases entry with
  | remove l =>
    simp only [undoOne, Memory.storage_has, same.entries.contains]
    split
    · exact remove_agrees same l
    · exact same
  | restore l content =>
    simp only [undoOne, Memory.storage_has, same.entries.contains]
    split
    · exact write_agrees same l content
    · exact same

theorem undo_agrees (same : m.Agrees other) (journal : List Undo) :
    (undo m journal).Agrees (undo other journal) := by
  induction journal generalizing m other with
  | nil => exact same
  | cons entry journal ih => exact ih (undoOne_agrees same entry)

end

section

variable {m after : Memory} {journal later : List Undo}

/-- Nothing was below a location that had no entry, and the cursor was not there either. -/
theorem undoOne_put_agrees (closed : m.entries.Closed)
    (home : m.entries.find? m.cwd = some .directory) {l : Location} (below : l ≠ [])
    (absent : m.entries.find? l = none) (entry : Entry) :
    (undoOne (m.put l entry) (.remove l)).Agrees m := by
  have there : (m.put l entry).entries.contains l := by
    simp [Tree.contains, Tree.find?_insert]
  have outside : m.cwd.isWithin l = false := by
    by_cases within : m.cwd.isWithin l
    · have gone := closed.nothing_below (by simp [absent]) (Location.isWithin_iff.1 within)
        (by rintro same; rw [same, absent] at home; cases home)
      simp [home] at gone
    · exact Bool.not_eq_true _ ▸ within
  rw [undoOne, Memory.storage_has, if_pos there, Memory.storage_remove below there]
  refine ⟨rfl, by simp [outside], fun k => ?_⟩
  simp only [Memory.put_entries, Tree.find?_prune, Tree.find?_insert]
  split
  next within =>
    by_cases same : k = l
    · rw [same, absent]
    · exact (closed.nothing_below (by simp [absent]) (Location.isWithin_iff.1 within) same).symm
  next outside =>
    rw [if_neg]
    rintro rfl
    exact outside (Location.isWithin_iff.2 List.prefix_rfl)

theorem undoOne_write_agrees {l : Location} {old : Bytes}
    (there : m.entries.find? l = some (.file old)) (content : Bytes) :
    (undoOne (m.put l (.file content)) (.restore l old)).Agrees m := by
  have now : (m.put l (.file content)).entries.find? l = some (.file content) := by
    simp [Tree.find?_insert]
  rw [undoOne, Memory.storage_has, if_pos (Tree.contains_of_find? now),
    Memory.storage_write now]
  exact ⟨rfl, rfl, Tree.insert_agrees_of_find? there _⟩

theorem undo_deed {l : Location} {effect : Step.Effect} {outcome : Outcome}
    (deed : Deed true m journal l effect ⟨.ok outcome, later, after⟩) (closed : m.entries.Closed)
    (home : m.entries.find? m.cwd = some .directory) :
    (undo after later).Agrees (undo m journal) := by
  cases deed with
  | created _ absent =>
    exact undo_agrees (undoOne_put_agrees closed home (by simp) absent _) journal
  | found => exact .refl _
  | written there => exact undo_agrees (undoOne_write_agrees there _) journal

theorem undo_deeds {placements : List Placement} {report : List (Location × Outcome)}
    (deeds : Deeds true m journal placements report after later) (closed : m.entries.Closed)
    (home : m.entries.find? m.cwd = some .directory) :
    (undo after later).Agrees (undo m journal) := by
  induction deeds with
  | nil => exact .refl _
  | cons deed deeds ih =>
    have kept := ih (deed.closed closed) (by rw [deed.cwd]; exact deed.directory home)
    exact kept.trans (undo_deed deed closed home)

end

/-- A failed run with rollback leaves every entry as it was. Where the script was refused or the
anchor could not be entered, nothing at all has changed; otherwise the cursor is in the anchor. -/
theorem create_rollback {m after : Memory} {anchor : Path} {script : Script} {e : Error}
    (closed : m.entries.Closed)
    (valid : ∀ argument ∈ script.arguments,
      argument.isText = false → Naming.validate argument.value = .ok ())
    (failed : create true m anchor script = (.error e, after)) :
    after.entries.Agrees m.entries ∧
      ((∃ refusal, script.plan = .error refusal) ∨
        (∃ failure, (Storage.enter m anchor).1 = .error failure) → after = m) ∧
      ∀ steps, script.plan = .ok steps → (Storage.enter m anchor).1 = .ok () →
        after.cwd = m.locate anchor ∧
          after.entries.find? (m.locate anchor) = some .directory := by
  have proper : ∀ argument ∈ script.arguments, argument.IsProper := by
    intro argument member plain
    apply Naming.isName_of_fault?_eq_none
    exact Naming.validate_eq_ok_iff.1 (valid argument member plain)
  rcases create_cases m anchor true script with
    ⟨refusal, refused, ran⟩ | ⟨steps, failure, planned, stuck, ran⟩ | ⟨steps, planned, entering, _⟩
  · obtain ⟨-, rfl⟩ := Prod.mk.inj (ran.symm.trans failed)
    exact ⟨.refl _, fun _ => rfl, by simp [refused]⟩
  · obtain ⟨-, rfl⟩ := Prod.mk.inj (ran.symm.trans failed)
    exact ⟨.refl _, fun _ => rfl, by simp [stuck]⟩
  · obtain ⟨home, ⟨report, reached, later, _, ran⟩ | ⟨stop, ran⟩⟩ :=
      create_carried true closed entering planned proper
    · rw [ran] at failed
      cases (Prod.mk.inj failed).1
    · rw [ran] at failed
      obtain ⟨-, rfl⟩ := Prod.mk.inj failed
      have back := undo_deeds stop.deeds closed home
      refine ⟨back.entries, by simp [planned, entering], ?_⟩
      intro _ _ _
      exact ⟨back.cwd, (back.entries _).trans home⟩

/-- Writes to the file, makes a directory and wants a file where the other directory is. -/
def clashingScript : Script :=
  ⟨[.file ['a'], .text ['t'], .directory ['c'], .file ['b']],
    [.openText, .closeText, .next, .next]⟩

theorem clashingScript_valid : ∀ argument ∈ clashingScript.arguments,
    argument.isText = false → Naming.validate argument.value = .ok () := by
  intro argument member plain
  simp only [clashingScript, List.mem_cons, List.not_mem_nil, or_false] at member
  rcases member with rfl | rfl | rfl | rfl
  · rfl
  · cases plain
  · rfl
  · rfl

theorem create_rollback_shelf :
    ∃ e after, create true Memory.shelf ⟨['/']⟩ clashingScript = (.error e, after) ∧
      after.entries.Agrees Memory.shelf.entries ∧ after.cwd = [] := by
  have failed : create true Memory.shelf ⟨['/']⟩ clashingScript =
      (.error (.storage (some (.create [⟨['b'], by decide⟩]))
        (.directoryInTheWay [⟨['b'], by decide⟩])),
        (create true Memory.shelf ⟨['/']⟩ clashingScript).2) := Prod.ext rfl rfl
  obtain ⟨back, -, entered⟩ := create_rollback Memory.shelf_closed clashingScript_valid failed
  exact ⟨_, _, failed, back, (entered _ rfl rfl).1⟩

end Replay

end Scaffold
