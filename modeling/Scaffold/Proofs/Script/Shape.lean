import Scaffold.Proofs.Naming
import Scaffold.Proofs.Script.Reading
import Scaffold.Script.Shape

/-! What a command that is read amounts to. Its script can be planned, and its names tell whether
they stand for a file. -/
namespace Scaffold

/-- Every name can be given to an entry and tells the kind of that entry. -/
def Script.Proper (script : Script) : Prop :=
  ∀ argument ∈ script.arguments, argument.isText = false →
    Path.IsName argument.value ∧ Naming.namesFile argument.value = argument.isFile

namespace Script

theorem proper_append {s t : Script} : (s ++ t).Proper ↔ s.Proper ∧ t.Proper :=
  List.forall_mem_append

theorem Continues.block {clause : Clause} {afterFile : Bool} {arguments : List Argument}
    {operations : List Operation} (fits : clause.block.isSome → afterFile)
    (continues : Continues afterFile arguments operations) :
    Continues afterFile (clause.blockScript.arguments ++ arguments)
      (clause.blockScript.operations ++ operations) := by
  unfold Clause.blockScript
  split
  next => exact continues
  next b block =>
    obtain rfl : afterFile = true := fits (by simp [block])
    exact .text continues

end Script

namespace Clause

variable {clause : Clause} {offset : Nat} {script : Script}

theorem read_proper (read : clause.read offset = .ok script) : script.Proper := by
  obtain ⟨argument, named, -, rfl⟩ := read_eq_ok_iff.1 read
  obtain ⟨plain, proper, kind⟩ := Script.readName_eq_ok named
  apply Script.proper_append.2
  constructor
  · intro other member _
    obtain rfl := List.mem_singleton.1 member
    exact ⟨proper, kind⟩
  · intro other member notText
    unfold blockScript at member
    split at member
    next => cases member
    next b _ =>
      obtain rfl := List.mem_singleton.1 member
      cases notText

end Clause

namespace Command

variable {slash : Slash} {script whole : Script} {offset : Nat}

theorem readRest_forall {P : Argument → Prop} {rest : List (Operation × Clause)}
    (here : ∀ argument ∈ script.arguments, P argument)
    (there : ∀ item ∈ rest, ∀ o next, item.2.read o = .ok next →
      ∀ argument ∈ next.arguments, P argument)
    (read : readRest slash offset script rest = .ok whole) :
    ∀ argument ∈ whole.arguments, P argument := by
  induction rest generalizing offset script whole with
  | nil => cases read; exact here
  | cons item rest ih =>
    obtain ⟨first, later⟩ := List.forall_mem_cons.1 there
    simp only [readRest] at read
    split at read
    next => contradiction
    next =>
      simp only [bind_eq_ok_iff] at read
      obtain ⟨next, nextRead, more, moreRead, same⟩ := read
      cases same
      simp only [Script.arguments_append, List.append_nil]
      exact List.forall_mem_append.2 ⟨here, ih (first _ next nextRead) later moreRead⟩

/-- The parts of a command continue each other. -/
theorem readRest_continues {clause : Clause} {argument : Argument}
    (fits : clause.block.isSome → argument.isFile) {rest : List (Operation × Clause)}
    (joints : ∀ item ∈ rest, item.1.isJoint)
    (read : readRest slash offset (⟨[argument], []⟩ ++ clause.blockScript) rest = .ok whole) :
    ∃ arguments operations, whole = ⟨argument :: arguments, operations⟩ ∧
      Script.Continues argument.isFile arguments operations := by
  induction rest generalizing offset clause argument whole with
  | nil =>
    cases read
    have alone := (Script.Continues.done argument.isFile).block fits
    rw [List.append_nil, List.append_nil] at alone
    exact ⟨_, _, rfl, alone⟩
  | cons item rest ih =>
    obtain ⟨op, after⟩ := item
    obtain ⟨joint, later⟩ := List.forall_mem_cons.1 joints
    simp only [readRest, Clause.any_isFile] at read
    split at read
    next => contradiction
    next placed =>
      simp only [bind_eq_ok_iff] at read
      obtain ⟨next, nextRead, more, moreRead, same⟩ := read
      obtain ⟨other, named, nextFits, rfl⟩ := Clause.read_eq_ok_iff.1 nextRead
      obtain ⟨arguments, operations, rfl, continues⟩ := ih nextFits later moreRead
      cases same
      have allowed : op = .next ∨ op = .leave ∨ (op = .enter ∧ argument.isFile = false) := by
        cases op <;> cases joint <;> simp_all
      have follows := Script.Continues.name allowed (Script.readName_eq_ok named).1 continues
      refine ⟨_, _, ?_, follows.block fits⟩
      change Script.mk ([argument] ++ clause.blockScript.arguments ++ [] ++ other :: arguments)
        (clause.blockScript.operations ++ [op] ++ operations) = _
      simp

theorem read_wellFormed {c : Command} (valid : c.WellFormed) (read : c.read slash = .ok whole) :
    whole.WellFormed ∧ whole.Proper := by
  simp only [Command.read, bind_eq_ok_iff] at read
  obtain ⟨first, firstRead, read⟩ := read
  have proper : whole.Proper := readRest_forall (Clause.read_proper firstRead)
    (fun _ _ _ _ nextRead => Clause.read_proper nextRead) read
  obtain ⟨argument, named, fits, rfl⟩ := Clause.read_eq_ok_iff.1 firstRead
  obtain ⟨arguments, operations, rfl, continues⟩ :=
    readRest_continues fits (fun item member => (valid.2 item member).1) read
  exact ⟨.named (Script.readName_eq_ok named).1 continues, proper⟩

end Command

/-- A script that was read can be planned, and its names are proper. -/
theorem Script.ofCommand_wellFormed {slash : Slash} {t : Text} {script : Script}
    (read : Script.ofCommand slash t = .ok script) : script.WellFormed ∧ script.Proper := by
  by_cases accepted : Grammar.isCommand slash t
  · obtain ⟨c, valid, rfl⟩ := Command.isCommand_iff.1 accepted
    rw [Script.ofCommand_text slash valid] at read
    exact Command.read_wellFormed valid read
  · rw [Script.ofCommand, if_neg accepted] at read
    cases read

end Scaffold
