import Mathlib.Data.List.TakeWhile
import Mathlib.Tactic.MkIffOfInductiveProp
import Scaffold.Proofs.Storage.Equivalence

/-! What a failed call on a disk leaves behind. A directory is made together with those above it,
from the top down, so directories remain when the host does not take a name further down. Nothing
else remains of a failed call. -/
namespace Scaffold

namespace Location

theorem lineageFrom_append (above names : Location) (n : Path.Name) (more : List Path.Name) :
    lineageFrom above (names ++ n :: more) =
      lineageFrom above names ++ lineageFrom (above ++ names ++ [n]) more := by
  induction names generalizing above with
  | nil => simp [lineageFrom]
  | cons m names ih => simp [lineageFrom, ih]

theorem mem_takeWhile_lineageFrom (fits : Location → Bool) (above names : Location)
    {k : Location} : k ∈ (lineageFrom above names).takeWhile fits ↔
      k ∈ lineageFrom above names ∧ ∀ j ∈ lineageFrom above names, j <+: k → fits j := by
  induction names generalizing above with
  | nil =>
    cases fit : fits above <;> simp_all [lineageFrom]
  | cons n names ih =>
    have below {j : Location} (member : j ∈ lineageFrom (above ++ [n]) names) :
        above ++ [n] <+: j := (mem_lineageFrom.1 member).1
    rw [lineageFrom, List.takeWhile_cons]
    split
    next fit =>
      rw [List.mem_cons, ih]
      constructor
      · rintro (rfl | ⟨later, all⟩)
        · refine ⟨List.mem_cons_self, fun j member part => ?_⟩
          rcases List.mem_cons.1 member with rfl | later
          · exact fit
          · exact absurd ((below later).trans part) (Location.not_concat_prefix k n)
        · refine ⟨List.mem_cons_of_mem _ later, fun j member part => ?_⟩
          rcases List.mem_cons.1 member with rfl | early
          · exact fit
          · exact all j early part
      · rintro ⟨member, all⟩
        refine (List.mem_cons.1 member).imp_right fun later => ⟨later, fun j early part => ?_⟩
        exact all j (List.mem_cons_of_mem _ early) part
    next unfit =>
      refine iff_of_false List.not_mem_nil ?_
      rintro ⟨member, all⟩
      apply unfit
      apply all above List.mem_cons_self
      rcases List.mem_cons.1 member with rfl | later
      · exact List.prefix_rfl
      · exact (List.prefix_append _ _).trans (below later)

/-- The names of `l` up to the first one that no host takes. -/
def shortPart (l : Location) : Location := l.takeWhile fun n => decide n.IsShort

theorem shortPart_short (l : Location) : ∀ n ∈ l.shortPart, n.IsShort := by
  intro n member
  unfold shortPart at member
  simpa using List.mem_takeWhile_imp member

theorem shortPart_eq_self {l : Location} (short : ∀ n ∈ l, n.IsShort) : l.shortPart = l :=
  List.takeWhile_eq_self_iff.2 fun n member => decide_eq_true (short n member)

theorem prefix_shortPart_iff {l k : Location} :
    k <+: l.shortPart ↔ k <+: l ∧ ∀ n ∈ k, n.IsShort := by
  constructor
  · intro part
    exact ⟨part.trans (List.takeWhile_prefix _), fun n member =>
      l.shortPart_short n (part.subset member)⟩
  · rintro ⟨⟨more, rfl⟩, short⟩
    rw [shortPart, List.takeWhile_append_of_pos fun n member => decide_eq_true (short n member)]
    exact List.prefix_append _ _

theorem exists_name_behind_shortPart {l : Location} (long : ¬∀ n ∈ l, n.IsShort) :
    ∃ n more, l = l.shortPart ++ n :: more ∧ ¬n.IsShort := by
  have whole : l.shortPart ++ l.dropWhile (fun n => decide n.IsShort) = l :=
    List.takeWhile_append_dropWhile
  cases rest : l.dropWhile (fun n => decide n.IsShort) with
  | nil =>
    rw [rest, List.append_nil] at whole
    exact absurd (whole ▸ l.shortPart_short) long
  | cons n more =>
    rw [rest] at whole
    refine ⟨n, more, whole.symm, ?_⟩
    have first := List.head?_dropWhile_not (fun n => decide n.IsShort) l
    rw [rest] at first
    simpa using first

theorem shortPart_concat {above : Location} {n : Path.Name}
    (long : ¬∀ k ∈ above ++ [n], k.IsShort) : (above ++ [n]).shortPart = above.shortPart := by
  rw [shortPart, List.takeWhile_append]
  split
  next all =>
    have higher : above.shortPart = above :=
      (List.takeWhile_prefix _).eq_of_length all
    have last : ¬n.IsShort := by
      intro last
      apply long
      intro k member
      rcases List.mem_append.1 member with inside | final
      · exact above.shortPart_short k (by rwa [higher])
      · rwa [List.mem_singleton.1 final]
    rw [List.takeWhile_cons_of_neg (by simpa using last), List.append_nil, higher]
  next => rfl

end Location

namespace Disk

/-- The disk with new directories, made one after the other. -/
def withDirectories (d : Disk) (made : List Location) : Disk :=
  { d with host := made.foldl (fun h l => h.put (d.root ++ l) (.directory .newDirectory)) d.host }

/-- Where nothing is on the way along a lineage, up to the first file. -/
def missing (d : Disk) (lineage : List Location) : List Location :=
  (lineage.takeWhile fun l => !(d.find? l).any Entry.isFile).filter fun l => d.find? l = none

/-- The directories that are missing on the way to `l`, up to the first name that no host takes. -/
def lacking (d : Disk) (l : Location) : List Location := d.missing l.shortPart.lineage

/-- The directories that a call has made when it fails. -/
def leftBehind (d : Disk) : Call → List Location
  | .makeDirectory p => if p.text = [] then [] else d.lacking (d.locate p)
  | .makeFile p _ => d.lacking (d.locate p)
  | .enter _ | .write .. | .remove _ | .has _ | .isDirectory _ | .isFile _ | .read _ => []

/-- A failed call has made the directories it leaves behind, and nothing else has changed. It leaves
none when the host takes all names on the way. -/
@[mk_iff]
structure LeavesOnly (d : Disk) (call : Call) (after : Disk) : Prop where
  state : after = d.withDirectories (d.leftBehind call)
  clean : (∀ n ∈ d.locate call.path, n.IsShort) → d.leftBehind call = []

section

variable {d : Disk} {l : Location} {lineage : List Location}

theorem find?_withDirectories (d : Disk) (made : List Location) (k : Location) :
    (d.withDirectories made).find? k = if k ∈ made then some .directory else d.find? k := by
  induction made generalizing d with
  | nil => rfl
  | cons l made ih =>
    have here : (d.withDirectories [l]).find? k = if k = l then some .directory else d.find? k := by
      simp only [find?, withDirectories, List.foldl_cons, List.foldl_nil, Host.put,
        Tree.find?_insert, List.append_right_inj]
      split <;> rfl
    refine (ih (d.withDirectories [l])).trans ?_
    rw [here]
    by_cases same : k = l <;> simp [same]

theorem missing_of_file {content : Bytes} (there : d.find? l = some (.file content)) :
    d.missing (l :: lineage) = [] := by
  simp [missing, there, Entry.isFile, Entry.isDirectory]

theorem missing_of_directory (there : d.find? l = some .directory) :
    d.missing (l :: lineage) = d.missing lineage := by
  simp [missing, there, Entry.isFile, Entry.isDirectory]

theorem missing_of_nothing (absent : d.find? l = none) :
    d.missing (l :: lineage) = l :: d.missing lineage := by
  simp [missing, absent]

theorem missing_congr {e : Disk} (same : ∀ l ∈ lineage, e.find? l = d.find? l) :
    e.missing lineage = d.missing lineage := by
  induction lineage with
  | nil => rfl
  | cons l lineage ih =>
    obtain ⟨here, later⟩ := List.forall_mem_cons.1 same
    have rest := ih later
    cases found : d.find? l with
    | none => rw [missing_of_nothing found, missing_of_nothing (here.trans found), rest]
    | some entry =>
      cases entry with
      | directory => rw [missing_of_directory found, missing_of_directory (here.trans found), rest]
      | file content => rw [missing_of_file found, missing_of_file (here.trans found)]

theorem mem_lacking_iff {k : Location} : k ∈ d.lacking l ↔
    k <+: l ∧ (∀ n ∈ k, n.IsShort) ∧ d.find? k = none ∧
      ∀ j content, j <+: k → d.find? j ≠ some (.file content) := by
  have kept (j : Location) : (!(d.find? j).any Entry.isFile) = true ↔
      ∀ content, d.find? j ≠ some (.file content) := by
    cases d.find? j with
    | none => simp
    | some entry => cases entry <;> simp [Entry.isFile, Entry.isDirectory]
  rw [lacking, missing, List.mem_filter, decide_eq_true_iff, Location.lineage,
    Location.mem_takeWhile_lineageFrom]
  simp only [kept, Location.mem_lineageFrom, List.nil_prefix, true_and, List.nil_append,
    Location.prefix_shortPart_iff]
  constructor
  · rintro ⟨⟨⟨part, short⟩, plain⟩, absent⟩
    refine ⟨part, short, absent, fun j content higher => ?_⟩
    exact plain j ⟨higher.trans part, fun n member => short n (higher.subset member)⟩ higher content
  · rintro ⟨part, short, absent, plain⟩
    exact ⟨⟨⟨part, short⟩, fun j _ higher content => plain j content higher⟩, absent⟩

/-- On the way to what is there nothing is missing. -/
theorem missing_eq_nil {m : Memory} (shows : d.Shows m) (closed : m.entries.Closed)
    {above k : Location} {names : List Path.Name} (there : d.find? k ≠ none)
    (stops : k = above ++ names ∨ ∃ content, d.find? k = some (.file content))
    (member : k ∈ Location.lineageFrom above names) :
    d.missing (Location.lineageFrom above names) = [] := by
  induction names generalizing above with
  | nil =>
    obtain rfl := List.mem_singleton.1 member
    cases found : d.find? k with
    | none => contradiction
    | some entry =>
      cases entry with
      | directory => exact missing_of_directory found
      | file content => exact missing_of_file found
  | cons n names ih =>
    rw [Location.lineageFrom] at member ⊢
    rcases List.mem_cons.1 member with rfl | later
    · obtain ⟨content, file⟩ := stops.resolve_left (by simp)
      exact missing_of_file file
    · -- what lies below `above` lies in a directory
      obtain ⟨more, whole⟩ := (Location.mem_lineageFrom.1 later).1
      have directory : d.find? above = some .directory := by
        rw [shows.entries] at there ⊢
        apply closed.directory_above ([n] ++ more) (by simp)
        rwa [← List.append_assoc, whole, Tree.contains, Option.isSome_iff_ne_none]
      rw [missing_of_directory directory]
      exact ih (by simpa using stops) later

end

/-- What making the directories of a lineage has come to: those that are missing are made, and a
file may have stopped it. -/
structure Filled (d : Disk) (lineage : List Location) (tried : Attempt Disk) : Prop where
  state : tried.2 = d.withDirectories (d.missing lineage)
  mirrored : ∃ m, Mirrors m tried.2
  answer : (tried.1 = .ok () ∧ ∀ l ∈ lineage, tried.2.find? l = some .directory) ∨
    (∃ f, tried.1 = .error f) ∧ ∃ l ∈ lineage, ∃ content, d.find? l = some (.file content)

namespace Filled

variable {d : Disk} {l : Location} {rest : List Location} {tried : Attempt Disk}

theorem stays (filled : d.Filled rest tried) (there : d.find? l = some .directory) :
    tried.2.find? l = some .directory := by
  rw [filled.state, find?_withDirectories, there, ite_self]

theorem cons_directory (there : d.find? l = some .directory) (filled : d.Filled rest tried) :
    d.Filled (l :: rest) tried where
  state := by rw [missing_of_directory there, filled.state]
  mirrored := filled.mirrored
  answer := by
    rcases filled.answer with ⟨done, all⟩ | ⟨failed, k, member, file⟩
    · exact .inl ⟨done, List.forall_mem_cons.2 ⟨filled.stays there, all⟩⟩
    · exact .inr ⟨failed, k, List.mem_cons_of_mem l member, file⟩

theorem cons_nothing (absent : d.find? l = none) (apart : l ∉ rest)
    (filled : (d.withDirectories [l]).Filled rest tried) : d.Filled (l :: rest) tried where
  state := by
    have same : ∀ k ∈ rest, (d.withDirectories [l]).find? k = d.find? k := by
      intro k member
      rw [find?_withDirectories, if_neg]
      rw [List.mem_singleton]
      rintro rfl
      exact apart member
    rw [missing_of_nothing absent, ← missing_congr same, filled.state]
    rfl
  mirrored := filled.mirrored
  answer := by
    have made : (d.withDirectories [l]).find? l = some .directory := by
      simp [find?_withDirectories]
    rcases filled.answer with ⟨done, all⟩ | ⟨failed, k, member, content, file⟩
    · exact .inl ⟨done, List.forall_mem_cons.2 ⟨filled.stays made, all⟩⟩
    · rw [find?_withDirectories] at file
      split at file
      · cases file
      · exact .inr ⟨failed, k, List.mem_cons_of_mem l member, content, file⟩

end Filled

/-- A lineage is gone through in two parts, unless the first one stops. -/
theorem fillDirectories_append (d : Disk) (lineage more : List Location) :
    d.fillDirectories (lineage ++ more) = match d.fillDirectories lineage with
      | (.error f, stopped) => (.error f, stopped)
      | (.ok (), made) => made.fillDirectories more := by
  induction lineage generalizing d with
  | nil => rfl
  | cons l lineage ih =>
    rw [List.cons_append, fillDirectories, fillDirectories]
    split
    · split
      · rfl
      · rfl
      · exact ih d
    · split
      · rfl
      · exact ih _

theorem enter_failed {d : Disk} {p : Path} {f : Failure} (failed : (d.enter p).1 = .error f) :
    (d.enter p).2 = d := by
  simp only [enter] at failed ⊢
  split
  · rfl
  · rfl
  next looked =>
    rw [looked] at failed
    cases failed

theorem write_failed {d : Disk} {p : Path} {content : Bytes} {f : Failure}
    (failed : (d.write p content).1 = .error f) : (d.write p content).2 = d := by
  rw [write] at failed ⊢
  split
  · rfl
  · rfl
  next looked =>
    simp only [looked] at failed
    cases written : d.host.writeFile (d.toHost p) content with
    | error fault => rfl
    | ok host =>
      rw [written] at failed
      cases failed

end Disk

namespace Mirrors

variable {m : Memory} {d : Disk} (mirrors : Mirrors m d)

include mirrors

/-! ### Names that no host takes -/

section

variable {l : Location} (long : ¬∀ n ∈ l, n.IsShort)

include long

theorem find_hostPath_eq_error (aim : Host.Aim) :
    ∃ fault, d.host.find aim (d.hostPath l) = .error fault := by
  have below : l ≠ [] := by
    rintro rfl
    simp at long
  cases found : d.host.find aim (d.hostPath l) with
  | error fault => exact ⟨fault, rfl⟩
  | ok spot =>
    rw [d.hostPath_below below] at found
    have short := (Host.reached_of_find mirrors.unlinked (.inr (by simp [below])) found).2
    exact absurd (fun n member => short n (List.mem_append_right _ member)) long

theorem stat_eq_error (aim : Host.Aim) :
    ∃ fault, d.host.stat aim (d.hostPath l) = .error fault := by
  obtain ⟨fault, lost⟩ := mirrors.find_hostPath_eq_error long aim
  exact ⟨fault, by simp only [Host.stat, lost]; rfl⟩

theorem has_eq_false {p : Path} (located : d.locate p = l) : d.has p = false := by
  obtain ⟨fault, lost⟩ := mirrors.stat_eq_error long .entry
  simp [Disk.has, Disk.toHost, located, lost, Except.isOk, Except.toBool]

theorem isDirectory_eq_error {p : Path} (located : d.locate p = l) :
    d.isDirectory p = .error (.missing p) := by
  obtain ⟨fault, lost⟩ := mirrors.stat_eq_error long .target
  simp only [Disk.isDirectory, Disk.node, Disk.toHost, located, lost]
  rfl

theorem createFile_refused (content : Bytes) :
    ∃ fault, d.host.createFile (d.hostPath l) content = .error fault := by
  obtain ⟨fault, lost⟩ := mirrors.find_hostPath_eq_error long .newFile
  exact ⟨fault, by simp only [Host.createFile, lost]; rfl⟩

theorem createDirectory_refused :
    ∃ fault, d.host.createDirectory (d.hostPath l) = .error fault := by
  have below : l ≠ [] := by
    rintro rfl
    simp at long
  obtain ⟨fault, lost⟩ := mirrors.find_hostPath_eq_error long .entry
  have lostNew : d.host.findNew (d.hostPath l) = .error fault := by
    rwa [Host.find, d.slashHop_hostPath below, List.append_nil] at lost
  exact ⟨fault, by simp only [Host.createDirectory, lostNew]; rfl⟩

end

theorem fillDirectories_refused {above : Location} {n : Path.Name} (long : ¬n.IsShort)
    (names : List Path.Name) :
    ∃ f, d.fillDirectories (Location.lineageFrom (above ++ [n]) names) = (.error f, d) := by
  have barred : ¬∀ k ∈ above ++ [n], k.IsShort := fun all => long (all n (by simp))
  obtain ⟨fault, refused⟩ := mirrors.createDirectory_refused barred
  have free := mirrors.has_eq_false barred (d.locate_path (above ++ [n]))
  refine ⟨.host fault, ?_⟩
  cases names <;>
    simp only [Location.lineageFrom, Disk.fillDirectories, free, Bool.false_eq_true, if_false,
      refused]

/-! ### Directories on the way -/

theorem filled_cons {l : Location} {rest : List Location} (short : ∀ n ∈ l, n.IsShort)
    (home : m.entries.find? l.parent = some .directory) (apart : l ∉ rest)
    (next : ∀ {m' : Memory} {d' : Disk}, Mirrors m' d' → m'.entries.find? l = some .directory →
      d'.Filled rest (d'.fillDirectories rest)) :
    d.Filled (l :: rest) (d.fillDirectories (l :: rest)) := by
  rcases mirrors.fillDirectories_cons rest short home with
    ⟨absent, mirrored, filled⟩ | ⟨found, filled⟩ | ⟨content, found, filled⟩
  · rw [filled]
    exact .cons_nothing ((mirrors.shows.entries l).trans absent) apart
      (next mirrored (by simp [Tree.find?_insert]))
  · rw [filled]
    exact .cons_directory ((mirrors.shows.entries l).trans found) (next mirrors found)
  · have file := (mirrors.shows.entries l).trans found
    rw [filled]
    exact ⟨by rw [Disk.missing_of_file file]; rfl, ⟨m, mirrors⟩,
      .inr ⟨⟨_, rfl⟩, l, List.mem_cons_self, content, file⟩⟩

theorem filled_lineageFrom {above : Location} {names : List Path.Name}
    (short : ∀ n ∈ above ++ names, n.IsShort)
    (home : m.entries.find? above.parent = some .directory) :
    d.Filled (Location.lineageFrom above names)
      (d.fillDirectories (Location.lineageFrom above names)) := by
  have here : ∀ n ∈ above, n.IsShort := fun n member => short n (List.mem_append_left _ member)
  induction names generalizing above m d with
  | nil =>
    refine mirrors.filled_cons here home List.not_mem_nil fun {m' d'} mirrored _ => ?_
    exact ⟨rfl, ⟨m', mirrored⟩, .inl ⟨rfl, by simp⟩⟩
  | cons k names ih =>
    have apart : above ∉ Location.lineageFrom (above ++ [k]) names := fun member =>
      Location.not_concat_prefix above k (Location.mem_lineageFrom.1 member).1
    refine mirrors.filled_cons here home apart fun mirrored there => ?_
    have whole : above ++ k :: names = above ++ [k] ++ names := by simp
    rw [whole] at short
    apply ih mirrored short
    · rwa [Location.parent_concat]
    · exact fun n member => short n (List.mem_append_left _ member)

/-- The root is a directory, so it is of no account that the disk starts one below it. -/
theorem filled_tail {l : Location} (short : ∀ n ∈ l, n.IsShort) :
    d.Filled l.lineage (d.fillDirectories l.lineage.tail) := by
  have root : d.find? [] = some .directory :=
    (mirrors.shows.entries []).trans mirrors.closed.root_directory
  cases l with
  | nil => exact .cons_directory root ⟨rfl, ⟨m, mirrors⟩, .inl ⟨rfl, by simp⟩⟩
  | cons n names =>
    have filled : d.Filled (Location.lineageFrom [n] names) _ :=
      mirrors.filled_lineageFrom short mirrors.closed.root_directory
    exact filled.cons_directory root

/-- Whether or not a directory can be made, those that are missing on the way are. Only a file or a
name that the host does not take is in the way. -/
theorem makeDirectoryAt_cases {l : Location} (free : d.has l.path = false) :
    (d.makeDirectoryAt l).2 = d.withDirectories (d.lacking l) ∧
      (∃ m', Mirrors m' (d.makeDirectoryAt l).2) ∧
      (((d.makeDirectoryAt l).1 = .ok () ∧ (∀ n ∈ l, n.IsShort) ∧
          (d.makeDirectoryAt l).2.find? l = some .directory) ∨
        (∃ f, (d.makeDirectoryAt l).1 = .error f) ∧ ((∀ n ∈ l, n.IsShort) →
          ∃ k ∈ l.lineage, ∃ content, d.find? k = some (.file content))) := by
  rw [Disk.makeDirectoryAt, if_neg (by simp [free])]
  by_cases short : ∀ n ∈ l, n.IsShort
  · rw [Disk.lacking, Location.shortPart_eq_self short]
    obtain ⟨state, mirrored, ⟨done, all⟩ | ⟨failed, file⟩⟩ := mirrors.filled_tail short
    · exact ⟨state, mirrored, .inl ⟨done, short, all l (Location.mem_lineage.2 List.prefix_rfl)⟩⟩
    · exact ⟨state, mirrored, .inr ⟨failed, fun _ => file⟩⟩
  · obtain ⟨n, more, whole, bad⟩ := Location.exists_name_behind_shortPart short
    have lineage : l.lineage.tail = l.shortPart.lineage.tail ++
        Location.lineageFrom (l.shortPart ++ [n]) more := by
      have split := Location.lineageFrom_append [] l.shortPart n more
      rw [← whole] at split
      have some_above : l.shortPart.lineage ≠ [] :=
        List.ne_nil_of_mem (Location.mem_lineage.2 List.nil_prefix)
      exact (congrArg List.tail split).trans (List.tail_append_of_ne_nil some_above)
    obtain ⟨state, ⟨m', mirrored⟩, -⟩ := mirrors.filled_tail l.shortPart_short
    rw [lineage, Disk.fillDirectories_append]
    split
    next f stopped filled =>
      rw [filled] at state mirrored
      exact ⟨state, ⟨m', mirrored⟩, .inr ⟨⟨f, rfl⟩, fun all => absurd all short⟩⟩
    next made filled =>
      rw [filled] at state mirrored
      obtain ⟨f, refused⟩ := mirrored.fillDirectories_refused bad more
      rw [refused]
      exact ⟨state, ⟨m', mirrored⟩, .inr ⟨⟨f, rfl⟩, fun all => absurd all short⟩⟩

theorem of_has {l : Location} (held : d.has l.path) :
    (∀ n ∈ l, n.IsShort) ∧ d.find? l ≠ none := by
  by_cases short : ∀ n ∈ l, n.IsShort
  · refine ⟨short, ?_⟩
    rw [mirrors.has_path short] at held
    rwa [mirrors.shows.entries, ← Option.isSome_iff_ne_none]
  · rw [mirrors.has_eq_false short (d.locate_path l)] at held
    cases held

theorem lacking_of_has {l : Location} (held : d.has l.path) : d.lacking l = [] := by
  obtain ⟨short, there⟩ := mirrors.of_has held
  rw [Disk.lacking, Location.shortPart_eq_self short]
  exact Disk.missing_eq_nil mirrors.shows mirrors.closed there (.inl rfl)
    (Location.mem_lineage.2 List.prefix_rfl)

theorem lacking_of_file {l k : Location} (short : ∀ n ∈ l, n.IsShort) {content : Bytes}
    (there : d.find? k = some (.file content)) (part : k <+: l) : d.lacking l = [] := by
  rw [Disk.lacking, Location.shortPart_eq_self short]
  exact Disk.missing_eq_nil mirrors.shows mirrors.closed (by simp [there]) (.inr ⟨content, there⟩)
    (Location.mem_lineage.2 part)

/-! ### Calls that fail -/

theorem makeDirectory_failed {p : Path} {f : Failure} (failed : (d.makeDirectory p).1 = .error f) :
    d.LeavesOnly (.makeDirectory p) (d.makeDirectory p).2 := by
  rw [Disk.makeDirectory] at failed ⊢
  rw [Disk.leavesOnly_iff, Disk.leftBehind]
  split
  next => exact ⟨rfl, fun _ => rfl⟩
  next filled =>
    rw [if_neg filled] at failed
    by_cases held : d.has (d.locate p).path
    · rw [mirrors.lacking_of_has held, Disk.makeDirectoryAt, if_pos held]
      exact ⟨rfl, fun _ => rfl⟩
    · obtain ⟨state, -, ⟨done, -⟩ | ⟨-, stops⟩⟩ :=
        mirrors.makeDirectoryAt_cases (eq_false_of_ne_true held)
      · rw [done] at failed
        cases failed
      · refine ⟨state, fun short => ?_⟩
        obtain ⟨k, member, content, file⟩ := stops short
        exact mirrors.lacking_of_file short file (Location.mem_lineage.1 member)

theorem makeFile_of_long {p : Path} (long : ¬∀ n ∈ d.locate p, n.IsShort) (content : Bytes) :
    ∃ f made, d.makeFile p content = (.error f, made) ∧
      made = d.withDirectories (d.lacking (d.locate p)) ∧ ∃ m', Mirrors m' made := by
  simp only [Disk.makeFile]
  generalize d.locate p = l at long ⊢
  rw [mirrors.has_eq_false long (d.locate_path l), if_neg (by simp)]
  have below : l ≠ [] := by
    rintro rfl
    simp at long
  obtain ⟨above, n, rfl⟩ := l.eq_nil_or_concat'.resolve_left below
  have lacking : d.lacking (above ++ [n]) = d.lacking above := by
    rw [Disk.lacking, Location.shortPart_concat long, Disk.lacking]
  rw [Location.parent_concat, lacking, Disk.makeParent]
  split
  next f stopped tried =>
    split at tried
    · cases tried
    next free =>
      obtain ⟨state, mirrored, -⟩ := mirrors.makeDirectoryAt_cases (eq_false_of_ne_true free)
      rw [tried] at state mirrored
      exact ⟨f, stopped, rfl, state, mirrored⟩
  next made tried =>
    have settled : made = d.withDirectories (d.lacking above) ∧ ∃ m', Mirrors m' made := by
      split at tried
      next held =>
        cases tried
        rw [mirrors.lacking_of_has held]
        exact ⟨rfl, m, mirrors⟩
      next free =>
        obtain ⟨state, mirrored, -⟩ := mirrors.makeDirectoryAt_cases (eq_false_of_ne_true free)
        rw [tried] at state mirrored
        exact ⟨state, mirrored⟩
    obtain ⟨state, m', mirrored⟩ := settled
    obtain ⟨fault, refused⟩ := mirrored.createFile_refused long content
    rw [refused]
    exact ⟨.host fault, made, rfl, state, m', mirrored⟩

theorem makeParent_of_short {above : Location} (short : ∀ n ∈ above, n.IsShort) :
    (∃ f k content, d.makeParent above = (.error f, d) ∧ k <+: above ∧
        d.find? k = some (.file content)) ∨
      (∃ content, d.makeParent above = (.ok (), d) ∧ d.find? above = some (.file content)) ∨
      ∃ made m', d.makeParent above = (.ok (), made) ∧ Mirrors m' made ∧
        made.find? above = some .directory ∧
        ∀ n, made.find? (above ++ [n]) = d.find? (above ++ [n]) := by
  rw [Disk.makeParent]
  split
  next held =>
    obtain ⟨-, there⟩ := mirrors.of_has held
    cases found : d.find? above with
    | none => contradiction
    | some entry =>
      cases entry with
      | directory => exact .inr (.inr ⟨d, m, rfl, mirrors, found, fun _ => rfl⟩)
      | file content => exact .inr (.inl ⟨content, rfl, rfl⟩)
  next free =>
    obtain ⟨state, ⟨m', mirrored⟩, ⟨done, -, there⟩ | ⟨⟨f, stopped⟩, stops⟩⟩ :=
      mirrors.makeDirectoryAt_cases (eq_false_of_ne_true free)
    · refine .inr (.inr ⟨(d.makeDirectoryAt above).2, m', Prod.ext done rfl, mirrored, there,
        fun n => ?_⟩)
      rw [state, Disk.find?_withDirectories, if_neg]
      exact fun member =>
        Location.not_concat_prefix above n (Disk.mem_lacking_iff.1 member).1
    · obtain ⟨k, member, content, file⟩ := stops short
      have part := Location.mem_lineage.1 member
      rw [mirrors.lacking_of_file short file part] at state
      exact .inl ⟨f, k, content, Prod.ext stopped state, part, file⟩

theorem makeFile_failed_of_short {p : Path} (short : ∀ n ∈ d.locate p, n.IsShort) {content : Bytes}
    {f : Failure} (failed : (d.makeFile p content).1 = .error f) :
    (d.makeFile p content).2 = d ∧ d.lacking (d.locate p) = [] := by
  simp only [Disk.makeFile] at failed ⊢
  generalize d.locate p = l at short failed ⊢
  by_cases held : d.has l.path
  · rw [if_pos held, mirrors.lacking_of_has held]
    exact ⟨rfl, rfl⟩
  · rw [if_neg held] at failed ⊢
    have absent : d.find? l = none := by
      rw [mirrors.has_path short] at held
      simpa [Tree.contains, ← mirrors.shows.entries] using held
    rcases l.eq_nil_or_concat' with rfl | ⟨above, n, rfl⟩
    · rw [mirrors.shows.entries, mirrors.closed.root_directory] at absent
      cases absent
    · have higher : ∀ k ∈ above, k.IsShort :=
        fun k member => short k (List.mem_append_left _ member)
      rw [Location.parent_concat] at failed ⊢
      rcases mirrors.makeParent_of_short higher with ⟨f, k, old, tried, part, file⟩ |
        ⟨old, tried, file⟩ | ⟨made, m', tried, mirrored, home, same⟩
      · rw [tried]
        exact ⟨rfl, mirrors.lacking_of_file short file (part.trans (List.prefix_append _ _))⟩
      · obtain ⟨fault, refused⟩ := mirrors.createFile_eq_error short
          ((mirrors.shows.entries above).symm.trans file) content
        refine ⟨?_, mirrors.lacking_of_file short file (List.prefix_append _ _)⟩
        simp only [tried, refused, Disk.settle]
      · have free : m'.entries.find? (above ++ [n]) = none := by
          rw [← mirrored.shows.entries, same, absent]
        obtain ⟨host, created, -⟩ := mirrored.createFile short
          ((mirrored.shows.entries above).symm.trans home) free content
        simp only [tried, created, Disk.settle] at failed
        cases failed

theorem makeFile_failed {p : Path} {content : Bytes} {f : Failure}
    (failed : (d.makeFile p content).1 = .error f) :
    d.LeavesOnly (.makeFile p content) (d.makeFile p content).2 := by
  rw [Disk.leavesOnly_iff, Disk.leftBehind]
  by_cases short : ∀ n ∈ d.locate p, n.IsShort
  · obtain ⟨state, none_left⟩ := mirrors.makeFile_failed_of_short short failed
    rw [state, none_left]
    exact ⟨rfl, fun _ => rfl⟩
  · obtain ⟨_, made, tried, state, -⟩ := mirrors.makeFile_of_long short content
    rw [tried]
    exact ⟨state, fun all => absurd all short⟩

theorem remove_failed {p : Path} {f : Failure} (failed : (d.remove p).1 = .error f) :
    (d.remove p).2 = d := by
  simp only [Disk.remove] at failed ⊢
  generalize d.locate p = l at failed ⊢
  split
  next => rfl
  next filled =>
    rw [if_neg filled] at failed
    split
    next => rfl
    next below =>
      rw [if_neg below] at failed
      split
      next => rfl
      next held =>
        rw [if_neg held] at failed
        have there : d.has l.path := by simpa using held
        obtain ⟨short, -⟩ := mirrors.of_has there
        obtain ⟨above, n, rfl⟩ := l.eq_nil_or_concat'.resolve_left below
        rw [mirrors.has_path short] at there
        obtain ⟨nodes, removed, -⟩ := mirrors.removeAll short there
        rw [removed] at failed
        cases failed

section

variable {p : Path} (long : ¬∀ n ∈ d.locate p, n.IsShort)

include long

theorem enter_of_long : (d.enter p).2 = d := by
  simp only [Disk.enter, mirrors.isDirectory_eq_error long (d.locate_path _)]

theorem write_of_long (content : Bytes) : (d.write p content).2 = d := by
  simp only [Disk.write, mirrors.isDirectory_eq_error long rfl]

theorem remove_of_long : (d.remove p).2 = d := by
  simp only [Disk.remove, mirrors.has_eq_false long (d.locate_path _)]
  split
  · rfl
  · split <;> rfl

theorem exists_makeDirectory_of_long : ∃ m', Mirrors m' (d.makeDirectory p).2 := by
  rw [Disk.makeDirectory]
  split
  · exact ⟨m, mirrors⟩
  · exact (mirrors.makeDirectoryAt_cases (mirrors.has_eq_false long (d.locate_path _))).2.1

end

theorem exists_ask_of_long {call : Call} (long : ¬∀ n ∈ d.locate call.path, n.IsShort) :
    ∃ m', Mirrors m' (call.ask d).2 := by
  have holds (tried : Attempt Disk) (asked : call.ask d = Call.attempt tried)
      (tree : ∃ m', Mirrors m' tried.2) : ∃ m', Mirrors m' (call.ask d).2 := by
    rwa [asked]
  cases call with
  | makeDirectory p => exact holds _ rfl (mirrors.exists_makeDirectory_of_long long)
  | makeFile p content =>
    obtain ⟨_, _, tried, -, tree⟩ := mirrors.makeFile_of_long (p := p) long content
    exact holds (d.makeFile p content) rfl (by rwa [tried])
  | enter p => exact holds (d.enter p) rfl ⟨m, by rwa [mirrors.enter_of_long (p := p) long]⟩
  | write p content =>
    exact holds (d.write p content) rfl ⟨m, by rwa [mirrors.write_of_long (p := p) long]⟩
  | remove p => exact holds (d.remove p) rfl ⟨m, by rwa [mirrors.remove_of_long (p := p) long]⟩
  | has p | isDirectory p | isFile p | read p => exact ⟨m, mirrors⟩

theorem exists_ask (call : Call) : ∃ m', Mirrors m' (call.ask d).2 := by
  by_cases short : ∀ n ∈ m.locate call.path, n.IsShort
  · exact ⟨_, (mirrors.ask call short).related⟩
  · rw [← mirrors.locate] at short
    exact mirrors.exists_ask_of_long short

theorem exists_askAll (calls : List Call) : ∃ m', Mirrors m' (Call.askAll d calls).2 := by
  induction calls generalizing m d with
  | nil => exact ⟨m, mirrors⟩
  | cons call calls ih =>
    obtain ⟨m', mirrored⟩ := mirrors.exists_ask call
    exact ih mirrored

theorem ask_failed {call : Call} {f : Failure} (failed : (call.ask d).1 = .error f) :
    d.LeavesOnly call (call.ask d).2 := by
  have leaves {tried : Attempt Disk} (asked : call.ask d = Call.attempt tried)
      (only : ∀ {f}, tried.1 = .error f → d.LeavesOnly call tried.2) :
      d.LeavesOnly call (call.ask d).2 := by
    rw [asked] at failed ⊢
    exact only (map_eq_error_iff.1 failed)
  cases call with
  | makeDirectory p => exact leaves rfl mirrors.makeDirectory_failed
  | makeFile p content => exact leaves rfl mirrors.makeFile_failed
  | enter p => exact leaves rfl fun refused => ⟨Disk.enter_failed refused, fun _ => rfl⟩
  | write p content => exact leaves rfl fun refused => ⟨Disk.write_failed refused, fun _ => rfl⟩
  | remove p => exact leaves rfl fun refused => ⟨mirrors.remove_failed refused, fun _ => rfl⟩
  | has p | isDirectory p | isFile p | read p => exact ⟨rfl, fun _ => rfl⟩

end Mirrors

namespace Disk

variable {host : Host} {base : Path} {d : Disk} {m : Memory}

/-- A failed call has made the missing directories on the way to a name that no host takes, unless a
file is above them, and nothing else: the cursor stays, and so does all else on the host. When the
host takes every name on the way, nothing changes at all. -/
theorem failed_leaves (opened : openAt host base = .ok d) (unhindered : d.Unhindered)
    (closed : m.entries.Closed) (shows : d.Shows m) (calls : List Call) (call : Call) :
    let now := (Call.askAll d calls).2
    ∀ f, (call.ask now).1 = .error f →
      (call.ask now).2 = now.withDirectories (now.leftBehind call) ∧
        ((∀ n ∈ now.locate call.path, n.IsShort) → (call.ask now).2 = now) := by
  intro now f failed
  have mirrors := mirrors_of_openAt opened unhindered closed shows
  obtain ⟨m', mirrored⟩ := mirrors.exists_askAll calls
  obtain ⟨state, clean⟩ := mirrored.ask_failed failed
  refine ⟨state, fun short => state.trans ?_⟩
  rw [clean short]
  rfl

/-- Goes down and makes a directory under a name that no host takes. -/
def spoiled : List Call := [.enter ⟨['b']⟩, .makeDirectory ⟨['e', '/', '\x00']⟩]

/-- A file further down than such a name. -/
def unreachableFile : Call := .makeFile ⟨['e', '/', 'f', '/', '\x00', '/', 'g']⟩ [1]

/-- The directory `e` was left behind already, so the file leaves behind `f` only. -/
theorem failed_leaves_shelf :
    let now := (Call.askAll shelf spoiled).2
    now.leftBehind unreachableFile = [Location.ofPath ⟨['b', '/', 'e', '/', 'f']⟩] ∧
      (unreachableFile.ask now).2 =
        now.withDirectories [Location.ofPath ⟨['b', '/', 'e', '/', 'f']⟩] := by
  have opened : openAt shelf.host ⟨['/', 'w']⟩ = .ok shelf := rfl
  have left : (Call.askAll shelf spoiled).2.leftBehind unreachableFile =
      [Location.ofPath ⟨['b', '/', 'e', '/', 'f']⟩] := by decide +kernel
  have stops : (unreachableFile.ask (Call.askAll shelf spoiled).2).1.toOption = none := by
    decide +kernel
  cases failed : (unreachableFile.ask (Call.askAll shelf spoiled).2).1 with
  | ok answer =>
    rw [failed] at stops
    cases stops
  | error f =>
    obtain ⟨state, -⟩ := failed_leaves opened shelf_unhindered Memory.shelf_closed shelf_shows
      spoiled unreachableFile f failed
    rw [left] at state
    exact ⟨left, state⟩

/-- The directory `c` remains, though its new entry has too long a name. -/
theorem leaves_directory_shelf :
    let tried := (Call.makeDirectory ⟨['c', '/'] ++ List.replicate 256 'x'⟩).ask shelf
    tried.1.toOption = none ∧ shelf.find? (Location.ofPath ⟨['c']⟩) = none ∧
      tried.2.find? (Location.ofPath ⟨['c']⟩) = some .directory := by
  decide +kernel

end Disk

end Scaffold
