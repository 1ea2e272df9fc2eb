import Scaffold.Host.Calls

/-! Taking entries away from a host. A directory is emptied before it goes, so a removal that fails
may have taken away some of what was below. -/
namespace Scaffold.Host

/-- The directories and files below `top` that a walk through all directories comes to see. -/
def seenBelow (h : Host) (top : Location) : List (Location × Node) :=
  let closed := h.nodes.nodes.filter fun (m, node) =>
    m.isWithin top && node.isDirectory && !node.access?.any Access.explores
  h.nodes.nodes.filter fun (k, _) =>
    k.isBelow top && !closed.any fun (m, _) => k.isBelow m

/-- Whether the directory `m` with the rights `access` keeps `k` from being taken away: no entry
leaves a directory that cannot be changed, nothing is found below one that cannot be explored, and
one that cannot be listed is not known to be empty. -/
def Access.keeps (access : Access) (m k : Location) : Bool :=
  (k.isBelow m && !access.explores) || (k ≠ [] && k.parent = m && !access.write) ||
    (k = m && !access.read)

/-- What stays when the directory `top` is emptied: what is kept by a directory from `top` on. -/
def keptBelow (h : Host) (top : Location) : List Location :=
  let keepers := h.nodes.nodes.filterMap fun (m, node) =>
    match node with
    | .directory access =>
      if m.isWithin top && !(access.explores && access.write) then some (m, access) else none
    | _ => none
  (h.nodes.nodes.filter fun (k, _) =>
    k.isBelow top && keepers.any fun (m, access) => access.keeps m k).map (·.1)

/-- Empties the directory `top` but for what is kept there and the directories above that. -/
def clearBelow (h : Host) (top : Location) : Host :=
  let kept := h.keptBelow top
  { h with nodes := ⟨h.nodes.nodes.filter fun (k, _) =>
      !k.isBelow top || kept.any fun stays => stays.isWithin k⟩ }

def unlink (h : Host) (p : Path) : Except Fault Host := do
  let (l, _) ← h.stat .entry p
  if h.mayChange l.parent then return { h with nodes := h.nodes.prune l } else .error .forbidden

/-- Takes away an entry, with all below it when it is a directory. A link goes alone. When `p` is no
longer found once its directory is empty, the way there led through the directory itself, which
then stays. -/
def removeAll (h : Host) (p : Path) : Except Fault Unit × Host :=
  match h.stat .entry p with
  | .error fault => (.error fault, h)
  | .ok (top, .directory access) =>
    if !access.read then (.error .forbidden, h)
    else
      let cleared := h.clearBelow top
      if h.keptBelow top ≠ [] then (.error .forbidden, cleared)
      else match cleared.unlink p with
        | .ok h => (.ok (), h)
        | .error .missing => (.ok (), cleared)
        | .error fault => (.error fault, cleared)
  | .ok _ =>
    match h.unlink p with
    | .ok h => (.ok (), h)
    | .error fault => (.error fault, h)

end Scaffold.Host
