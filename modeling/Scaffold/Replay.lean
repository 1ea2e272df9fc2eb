import Scaffold.Script.Plan
import Scaffold.Storage.Basic

/-! Carrying out a script on a storage. Creating goes through the steps in order and leaves alone
what is there; removing goes through them backwards. Creating keeps a journal, and with rollback a
failure undoes what the journal holds, newest first. -/
namespace Scaffold

inductive Outcome
  | created
  | alreadyExists
  | written
  | removed
  | missing
deriving DecidableEq, Repr

/-- What became of each location, in the order of execution. -/
structure Report where
  entries : List (Location × Outcome)
deriving DecidableEq, Repr

def Report.withOutcome (r : Report) (outcome : Outcome) : List Location :=
  (r.entries.filter (·.2 = outcome)).map (·.1)

inductive Undo
  | remove (l : Location)
  | restore (l : Location) (content : Bytes)
deriving DecidableEq, Repr

namespace Replay

variable {σ : Type} [Storage σ]

/-- Takes one effect back where its location still has an entry. A failure to do so is passed
over. -/
def undoOne (s : σ) : Undo → σ
  | .remove l => if Storage.has s l.path then (Storage.remove s l.path).2 else s
  | .restore l content =>
    if Storage.has s l.path then (Storage.write s l.path content).2 else s

/-- The journal has its newest effect in front. -/
def undo (s : σ) (journal : List Undo) : σ := journal.foldl undoOne s

/-- The answer to one step, with the journal and the storage after it. -/
structure Performed (σ : Type) where
  answer : Except Failure Outcome
  journal : List Undo
  storage : σ

def makeDirectory (s : σ) (journal : List Undo) (l : Location) : Performed σ :=
  if Storage.has s l.path then
    match Storage.isDirectory s l.path with
    | .error f => ⟨.error f, journal, s⟩
    | .ok false => ⟨.error (.fileInTheWay l), journal, s⟩
    | .ok true => ⟨.ok .alreadyExists, journal, s⟩
  else match Storage.makeDirectory s l.path with
    | (.error f, s) => ⟨.error f, journal, s⟩
    | (.ok (), s) => ⟨.ok .created, .remove l :: journal, s⟩

def makeFile (s : σ) (journal : List Undo) (l : Location) : Performed σ :=
  if Storage.has s l.path then
    match Storage.isFile s l.path with
    | .error f => ⟨.error f, journal, s⟩
    | .ok false => ⟨.error (.directoryInTheWay l), journal, s⟩
    | .ok true => ⟨.ok .alreadyExists, journal, s⟩
  else match Storage.makeFile s l.path [] with
    | (.error f, s) => ⟨.error f, journal, s⟩
    | (.ok (), s) => ⟨.ok .created, .remove l :: journal, s⟩

/-- The content that a rollback would need is read before it is replaced. -/
def keepContent (rollback : Bool) (s : σ) (journal : List Undo) (l : Location) :
    Except Failure (List Undo) :=
  if rollback then (Storage.read s l.path).map fun content => .restore l content :: journal
  else .ok journal

def writeText (rollback : Bool) (s : σ) (journal : List Undo) (l : Location) (content : Bytes) :
    Performed σ :=
  if !Storage.has s l.path then ⟨.error (.missing l.path), journal, s⟩
  else match keepContent rollback s journal l with
    | .error f => ⟨.error f, journal, s⟩
    | .ok journal =>
      match Storage.write s l.path content with
      | (.error f, s) => ⟨.error f, journal, s⟩
      | (.ok (), s) => ⟨.ok .written, journal, s⟩

def perform (rollback : Bool) (s : σ) (journal : List Undo) (l : Location) :
    Step.Effect → Performed σ
  | .directory => makeDirectory s journal l
  | .file => makeFile s journal l
  | .text content => writeText rollback s journal l (Text.utf8 content)

/-- Carries out the steps as seen from `anchor` up to the first failure. -/
def createSteps (rollback : Bool) (anchor : Location) (s : σ) (journal : List Undo) :
    List Step → Except Error (List (Location × Outcome)) × σ
  | [] => (.ok [], s)
  | step :: steps =>
    let l := anchor.resolve step.path
    let done := perform rollback s journal l step.effect
    match done.answer with
    | .error f =>
      (.error (.storage (some (.create l)) f),
        if rollback then undo done.storage done.journal else done.storage)
    | .ok outcome =>
      let (rest, s) := createSteps rollback anchor done.storage done.journal steps
      (rest.map ((l, outcome) :: ·), s)

/-- Removes what the steps name, in the order given. -/
def removeSteps (anchor : Location) (s : σ) :
    List Step → Except Error (List (Location × Outcome)) × σ
  | [] => (.ok [], s)
  | step :: steps =>
    let l := anchor.resolve step.path
    if !Storage.has s l.path then
      let (rest, s) := removeSteps anchor s steps
      (rest.map ((l, .missing) :: ·), s)
    else match Storage.remove s l.path with
      | (.error f, s) => (.error (.storage (some (.remove l)) f), s)
      | (.ok (), s) =>
        let (rest, s) := removeSteps anchor s steps
        (rest.map ((l, .removed) :: ·), s)

/-- Plans the script, enters the anchor and goes on from there. -/
def atAnchor (s : σ) (anchor : Path) (script : Script)
    (goOn : List Step → σ → Except Error (List (Location × Outcome)) × σ) :
    Except Error Report × σ :=
  match script.plan with
  | .error e => (.error e, s)
  | .ok steps =>
    match Storage.enter s anchor with
    | (.error f, s) => (.error (.storage none f), s)
    | (.ok (), s) =>
      let (entries, s) := goOn steps s
      (entries.map Report.mk, s)

def create (rollback : Bool) (s : σ) (anchor : Path) (script : Script) :
    Except Error Report × σ :=
  atAnchor s anchor script fun steps s => createSteps rollback (Storage.cwd s) s [] steps

def isText (step : Step) : Bool :=
  match step.effect with
  | .text _ => true
  | _ => false

/-- A text goes with its file, so its step removes nothing. -/
def remove (s : σ) (anchor : Path) (script : Script) : Except Error Report × σ :=
  atAnchor s anchor script fun steps s =>
    removeSteps (Storage.cwd s) s (steps.reverse.filter (!isText ·))

end Replay

end Scaffold
