import Scaffold.Proofs.Script.Faults
import Scaffold.Proofs.Script.Plans
import Scaffold.Proofs.Script.Shape
import Scaffold.Run

/-! Reading a command and planning its script ask for the same order of operations. The script that
is read without regard to where its operations stand can be planned exactly when the command is
read, so a script that was read fails at the storage or not at all. -/
namespace Scaffold

namespace Command

def clauses (c : Command) : List Clause := c.first :: c.rest.map (·.2)

/-- Every segment is the name of a directory or a file. -/
def IsNamed (c : Command) : Prop :=
  ∀ clause ∈ c.clauses, ∃ found, Naming.classify (Text.trim clause.segment) = .ok found

end Command

theorem Clause.script?_eq_some_iff {clause : Clause} {script : Script} :
    clause.script? = some script ↔
      ∃ argument, Script.readName (Text.trim clause.segment) = .ok argument ∧
        script = ⟨[argument], []⟩ ++ clause.blockScript := by
  unfold Clause.script?
  simp only [Script.readName_eq_ok_iff]
  split
  next found classified => simp [classified, eq_comm]
  next refused => simp [refused]

/-- What continues a name with its block shows that the block stands behind a file. -/
theorem Script.Continues.of_block {clause : Clause} {afterFile : Bool} {arguments : List Argument}
    {operations : List Operation}
    (continues : Continues afterFile (clause.blockScript.arguments ++ arguments)
      (clause.blockScript.operations ++ operations)) :
    (clause.block.isSome → afterFile) ∧ Continues afterFile arguments operations := by
  unfold Clause.blockScript at continues
  split at continues
  next none_there => exact ⟨by simp [none_there], continues⟩
  next b there =>
    cases continues with
    | name joint => simp at joint
    | text rest => exact ⟨fun _ => rfl, rest⟩

theorem Script.Continues.of_joint {op : Operation} {afterFile : Bool} {argument : Argument}
    {arguments : List Argument} {operations : List Operation} (joint : op.isJoint)
    (continues : Continues afterFile (argument :: arguments) (op :: operations)) :
    (op = .enter → afterFile = false) ∧ Continues argument.isFile arguments operations := by
  cases continues with
  | name allowed plain rest =>
    refine ⟨?_, rest⟩
    rintro rfl
    simpa using allowed
  | text => cases joint

/-- Scripts put together, one behind the other. -/
def Script.chain (parts : List Script) : Script := parts.foldl (· ++ ·) .empty

theorem Script.foldl_eq_append (script : Script) (parts : List Script) :
    parts.foldl (· ++ ·) script = script ++ chain parts := by
  rw [chain, ← foldl_append, append_empty]

theorem Script.chain_cons (part : Script) (parts : List Script) :
    chain (part :: parts) = part ++ chain parts := by
  rw [chain, List.foldl_cons, foldl_eq_append]
  rfl

namespace Command

variable {slash : Slash}

theorem joined?_eq_some_iff {op : Operation} {clause : Clause} {script : Script} :
    joined? (op, clause) = some script ↔
      ∃ argument, Script.readName (Text.trim clause.segment) = .ok argument ∧
        script = ⟨[], [op]⟩ ++ (⟨[argument], []⟩ ++ clause.blockScript) := by
  unfold joined?
  cases parsed : clause.script? with
  | none =>
    have refused (argument : Argument) :
        Script.readName (Text.trim clause.segment) ≠ .ok argument := by
      intro named
      have found := Clause.script?_eq_some_iff.2 ⟨argument, named, rfl⟩
      rw [parsed] at found
      cases found
    simp [refused]
  | some next =>
    obtain ⟨argument, named, rfl⟩ := Clause.script?_eq_some_iff.1 parsed
    simp [named, eq_comm]

theorem script?_eq_some_iff {c : Command} {script : Script} :
    c.script? = some script ↔
      ∃ first, c.first.script? = some first ∧ ∃ parts, c.rest.mapM joined? = some parts ∧
        first ++ Script.chain parts = script := by
  have shape : c.script? = c.first.script?.bind fun first =>
      (c.rest.mapM joined?).bind fun parts => some (parts.foldl (· ++ ·) first) := rfl
  simp only [shape, Option.bind_eq_some_iff, Script.foldl_eq_append, Option.some.injEq]

theorem IsNamed.exists_script? {c : Command} (named : c.IsNamed) :
    ∃ script, c.script? = some script := by
  have parsed (clause : Clause) (member : clause ∈ c.clauses) :
      ∃ script, clause.script? = some script := by
    obtain ⟨found, classified⟩ := named clause member
    exact ⟨_, Clause.script?_eq_some_iff.2
      ⟨_, Script.readName_eq_ok_iff.2 ⟨found, classified, rfl⟩, rfl⟩⟩
  obtain ⟨first, firstParsed⟩ := parsed c.first List.mem_cons_self
  have rest (items : List (Operation × Clause)) (within : ∀ item ∈ items, item.2 ∈ c.clauses) :
      ∃ parts, items.mapM joined? = some parts := by
    induction items with
    | nil => exact ⟨[], rfl⟩
    | cons item items ih =>
      obtain ⟨here, there⟩ := List.forall_mem_cons.1 within
      obtain ⟨parts, later⟩ := ih there
      obtain ⟨script, next⟩ := parsed item.2 here
      exact ⟨(⟨[], [item.1]⟩ ++ script) :: parts, by simp [List.mapM_cons, joined?, next, later]⟩
  obtain ⟨parts, restParsed⟩ :=
    rest c.rest fun item member => List.mem_cons_of_mem _ (List.mem_map.2 ⟨item, member, rfl⟩)
  exact ⟨_, script?_eq_some_iff.2 ⟨first, firstParsed, parts, restParsed, rfl⟩⟩

theorem readRest_of_continues {clause : Clause} {argument : Argument} {offset : Nat}
    {rest : List (Operation × Clause)} {parts : List Script}
    (joints : ∀ item ∈ rest, item.1.isJoint) (parsed : rest.mapM joined? = some parts)
    (continues : Script.Continues argument.isFile (Script.chain parts).arguments
      (Script.chain parts).operations) :
    readRest slash offset (⟨[argument], []⟩ ++ clause.blockScript) rest =
      .ok (⟨[argument], []⟩ ++ clause.blockScript ++ Script.chain parts) := by
  induction rest generalizing clause argument offset parts with
  | nil =>
    obtain rfl : [] = parts := by simpa using parsed
    rw [readRest, Script.chain, List.foldl_nil, Script.append_empty]
    rfl
  | cons item rest ih =>
    obtain ⟨op, next⟩ := item
    obtain ⟨joint, later⟩ := List.forall_mem_cons.1 joints
    obtain ⟨part, here, others, there, rfl⟩ : ∃ part, joined? (op, next) = some part ∧
        ∃ others, rest.mapM joined? = some others ∧ part :: others = parts := by
      simpa [List.mapM_cons, Option.bind_eq_some_iff] using parsed
    obtain ⟨other, named, rfl⟩ := joined?_eq_some_iff.1 here
    rw [Script.chain_cons] at continues ⊢
    obtain ⟨allowed, behind⟩ := Script.Continues.of_joint joint continues
    obtain ⟨fits, nextContinues⟩ := Script.Continues.of_block behind
    have placed : ¬(op = .enter ∧
        (⟨[argument], []⟩ ++ clause.blockScript : Script).arguments.any Argument.isFile) := by
      rintro ⟨enters, isFile⟩
      rw [Clause.any_isFile, allowed enters] at isFile
      cases isFile
    have nextRead : next.read (offset + Text.byteLength (op.lexeme slash)) = .ok _ :=
      Clause.read_eq_ok_iff.2 ⟨other, named, fits, rfl⟩
    rw [readRest, if_neg placed]
    dsimp only
    rw [nextRead, bind_ok, ih later there nextContinues, bind_ok, Script.append_assoc]
    rfl

/-- A command is read when its script has the right shape. -/
theorem read_of_wellFormed {c : Command} {script : Script} (valid : c.WellFormed)
    (parsed : c.script? = some script) (shaped : script.WellFormed) :
    c.read slash = .ok script := by
  obtain ⟨first, firstParsed, parts, restParsed, rfl⟩ := script?_eq_some_iff.1 parsed
  obtain ⟨argument, named, rfl⟩ := Clause.script?_eq_some_iff.1 firstParsed
  cases shaped with
  | named plain continues =>
    obtain ⟨fits, behind⟩ := Script.Continues.of_block continues
    have firstRead : c.first.read 1 = .ok _ := Clause.read_eq_ok_iff.2 ⟨argument, named, fits, rfl⟩
    rw [read, firstRead, bind_ok]
    exact readRest_of_continues (fun item member => (valid.2 item member).1) restParsed behind

end Command

namespace Replay

section

variable {σ : Type} [Storage σ]

theorem createSteps_error {rollback : Bool} {anchor : Location} {s : σ} {journal : List Undo}
    {steps : List Step} {e : Error}
    (failed : (createSteps rollback anchor s journal steps).1 = .error e) : e.kind = .storage := by
  induction steps generalizing s journal with
  | nil => cases failed
  | cons step steps ih =>
    simp only [createSteps] at failed
    split at failed
    next => cases failed; rfl
    next => exact ih (map_eq_error_iff.1 failed)

theorem removeSteps_error {anchor : Location} {s : σ} {steps : List Step} {e : Error}
    (failed : (removeSteps anchor s steps).1 = .error e) : e.kind = .storage := by
  induction steps generalizing s with
  | nil => cases failed
  | cons step steps ih =>
    simp only [removeSteps] at failed
    split at failed
    next => exact ih (map_eq_error_iff.1 failed)
    next =>
      split at failed
      next => cases failed; rfl
      next => exact ih (map_eq_error_iff.1 failed)

theorem atAnchor_error {s : σ} {anchor : Path} {script : Script} {steps : List Step} {e : Error}
    {goOn : List Step → σ → Except Error (List (Location × Outcome)) × σ}
    (planned : script.plan = .ok steps)
    (later : ∀ s, (goOn steps s).1 = .error e → e.kind = .storage)
    (failed : (atAnchor s anchor script goOn).1 = .error e) : e.kind = .storage := by
  simp only [atAnchor, planned] at failed
  split at failed
  next => cases failed; rfl
  next s _ => exact later s (map_eq_error_iff.1 failed)

/-- A script that has a plan can only fail at the storage. -/
theorem carryOut_error {action : Action} {rollback : Bool} {s : σ} {anchor : Path}
    {script : Script} {steps : List Step} {e : Error} (planned : script.plan = .ok steps)
    (failed : (carryOut action rollback s anchor script).1 = .error e) : e.kind = .storage := by
  cases action with
  | create =>
    rw [carryOut, create] at failed
    refine atAnchor_error planned ?_ failed
    exact fun _ stuck => createSteps_error stuck
  | delete =>
    rw [carryOut, remove] at failed
    refine atAnchor_error planned ?_ failed
    exact fun _ stuck => removeSteps_error stuck

end

end Replay

/-- The reader and the planner agree about the order of operations. Where the names of a command are
all read, the script is read exactly when it can be planned; so a script that was read has a plan,
and carrying it out fails at the storage or not at all. -/
theorem Script.ofCommand_eq_ok_iff_plan {slash : Slash} {t : Text}
    (accepted : Grammar.isCommand slash t) :
    (∃ c : Command, c.WellFormed ∧ c.text slash = t) ∧
    (∀ c : Command, c.WellFormed → c.text slash = t → c.IsNamed →
      ∃ script, c.script? = some script ∧
        (Script.ofCommand slash t = .ok script ↔ ∃ steps, script.plan = .ok steps)) ∧
    ∀ script, Script.ofCommand slash t = .ok script →
      (∃ steps, script.plan = .ok steps) ∧
      ∀ (σ : Type) [Storage σ] (action : Action) (rollback : Bool) (s : σ) (anchor : Path)
        (e : Error), (Replay.carryOut action rollback s anchor script).1 = .error e →
          e.kind = .storage := by
  obtain ⟨c, valid, same⟩ := Command.isCommand_iff.1 accepted
  refine ⟨⟨c, valid, same.symm⟩, ?_, ?_⟩
  · rintro c valid rfl named
    obtain ⟨script, parsed⟩ := named.exists_script?
    refine ⟨script, parsed, ?_⟩
    constructor
    · intro read
      exact exists_plan_iff.2 (ofCommand_wellFormed read).1
    · intro planned
      rw [ofCommand_text slash valid]
      exact Command.read_of_wellFormed valid parsed (exists_plan_iff.1 planned)
  · intro script read
    obtain ⟨steps, planned⟩ := exists_plan_iff.2 (ofCommand_wellFormed read).1
    refine ⟨⟨steps, planned⟩, ?_⟩
    intro σ _ action rollback s anchor e failed
    exact Replay.carryOut_error planned failed

def Command.besideFile : Command :=
  ⟨⟨['é', '.', 't', 'x', 't'], some ⟨['>'], ['!']⟩⟩, [(.next, ⟨['b'], none⟩)]⟩

theorem Script.ofCommand_eq_ok_iff_plan_besideFile :
    Grammar.isCommand .forward (Command.besideFile.text .forward) ∧
    ∃ script, Script.ofCommand .forward (Command.besideFile.text .forward) = .ok script ∧
      script.operations = [.openText, .closeText, .next] := by
  have accepted : Grammar.isCommand .forward (Command.besideFile.text .forward) := by decide
  have valid : Command.besideFile.WellFormed := by decide
  have named : Command.besideFile.IsNamed := by
    intro clause member
    simp only [Command.clauses, Command.besideFile, List.map_cons, List.map_nil, List.mem_cons,
      List.not_mem_nil, or_false] at member
    rcases member with rfl | rfl
    · exact ⟨.file ['é'] ['.', 't', 'x', 't'] ⟨.document, ['t', 'x', 't']⟩, rfl⟩
    · exact ⟨.directory ['b'], rfl⟩
  obtain ⟨script, parsed, agrees⟩ :=
    (Script.ofCommand_eq_ok_iff_plan accepted).2.1 Command.besideFile valid rfl named
  have made : Command.besideFile.script? = some
      ⟨[.file ['é', '.', 't', 'x', 't'], .text ['>'], .directory ['b']],
        [.openText, .closeText, .next]⟩ := by
    decide +kernel
  obtain rfl := Option.some.inj (made.symm.trans parsed)
  exact ⟨accepted, _, agrees.2 ⟨_, rfl⟩, rfl⟩

end Scaffold
