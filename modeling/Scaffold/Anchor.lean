import Scaffold.Error
import Scaffold.Grammar

/-! The anchor of a command: the deepest existing directory among the segments at its front. What
exists is told by a probe. -/
namespace Scaffold

/-- The command is `text` and `tail`, and `path` is the directory that `text` names below `root`. -/
structure Anchor where
  root : Path
  path : Path
  text : Text
  tail : Text
deriving DecidableEq, Repr

def checkSeparators (slash : Slash) (t : Text) : Except Error Unit :=
  match slash.findForeign? t with
  | some position => .error (.mixedSeparators slash position)
  | none => .ok ()

namespace Anchor

def innerPath (a : Anchor) : Path :=
  match a.path.stripPrefix? a.root with
  | some relative => Path.join ⟨['/']⟩ relative
  | none => ⟨['/']⟩

/-- The segments at the front end where the first operator or quote stands. -/
def front (body : Text) : Text := body.takeWhile fun c => !(c = '>' || c = ':' || c = '"')

/-- The parts of `t` before each of its `mark`s, shortest first. -/
def cutsBefore (mark : Char) : Text → List Text
  | [] => []
  | c :: t =>
    let longer := (cutsBefore mark t).map (c :: ·)
    if c = mark then [] :: longer else longer

/-- The directory that the segments of `t` name below `root`. Blanks around a segment are no part
of its name, and a segment of blanks alone names nothing. -/
def directoryOf (slash : Slash) (root : Path) (t : Text) : Path :=
  (((t.splitOn slash.separator).map Text.trim).filter (· ≠ [])).foldl (fun p s => p.join ⟨s⟩) root

/-- A drive is its own root; else the segments are read from `base`. -/
def rootOf (base : Path) (drive : Text) : Path := if drive = [] then base else ⟨drive ++ ['/']⟩

/-- Tries the cuts from the last separator of the front to the first. -/
def find (slash : Slash) (base : Path) (probe : Path → Bool) (t : Text) : Except Error Anchor := do
  checkSeparators slash t
  let (drive, body) := Grammar.splitDrive t
  let root := rootOf base drive
  let cuts := cutsBefore slash.separator (front body)
  if cuts = [] then .error (.badPath t)
  else match cuts.reverse.find? fun cut => probe (directoryOf slash root cut) with
    | some cut => .ok ⟨root, directoryOf slash root cut, drive ++ cut, body.drop cut.length⟩
    | none => .error (.noAnchor t)

theorem cutsBefore_origin {mark : Char} {t cut : Text} (member : cut ∈ cutsBefore mark t) :
    ∃ rest, t = cut ++ mark :: rest := by
  induction t generalizing cut with
  | nil => simp [cutsBefore] at member
  | cons c t ih =>
    have shift : cut ∈ (cutsBefore mark t).map (c :: ·) → ∃ rest, c :: t = cut ++ mark :: rest := by
      intro inner
      obtain ⟨short, found, rfl⟩ := List.mem_map.1 inner
      obtain ⟨rest, whole⟩ := ih found
      exact ⟨rest, by rw [whole]; rfl⟩
    simp only [cutsBefore] at member
    split at member
    next same =>
      rcases List.mem_cons.1 member with rfl | inner
      · exact ⟨t, by rw [same]; rfl⟩
      · exact shift inner
    next => exact shift member

theorem cutsBefore_complete (mark : Char) (cut rest : Text) :
    cut ∈ cutsBefore mark (cut ++ mark :: rest) := by
  induction cut with
  | nil => simp [cutsBefore]
  | cons c cut ih =>
    have inner : c :: cut ∈ (cutsBefore mark (cut ++ mark :: rest)).map (c :: ·) :=
      List.mem_map_of_mem ih
    simp only [List.cons_append, cutsBefore]
    split
    · exact List.mem_cons_of_mem _ inner
    · exact inner

end Anchor

end Scaffold
