import Mathlib.Tactic.Lemma
import ScssExtend.CommandLine

/-!
# The program in a directory

A plain name leads from a directory to what is in it, whatever stands around (`FileTree.IsPlainName`). A file that was
added is read by its path (`FileTree.read_addFile`), and beside it the tree is as before
(`FileTree.read_addFile_of_ne`). So what the program writes for a file depends on the text of that file alone
(`CommandLine.Options.run_addFile`).
-/

namespace ScssExtend

namespace FileTree

variable {text path name : String} {names : List String} {around : List FileTree}

/-- A name that leads into a directory and is not too long for it. -/
def IsPlainName (name : String) : Prop :=
  name ≠ "" ∧ name ≠ "." ∧ name ≠ ".." ∧ name.utf8ByteSize ≤ maxNameSize

/-- A path of plain names that is not too long for the system. -/
structure IsPlainPath (path : String) : Prop where
  names : ∀ name ∈ pathNames path, IsPlainName name
  size_le : path.utf8ByteSize ≤ maxPathSize

/-- Every path has a first name. -/
lemma pathNames_ne_nil (path : String) : pathNames path ≠ [] := by
  rw [pathNames, Ne, List.map_eq_nil_iff]
  cases path.toList with
  | nil => exact List.cons_ne_nil _ _
  | cons c cs =>
    rw [pathParts]
    split
    · exact List.cons_ne_nil _ _
    · split <;> exact List.cons_ne_nil _ _

/-- What a plain name means in a directory is what the directory holds by this name. -/
lemma step_eq (h : IsPlainName name) (entries : List (String × FileTree)) :
    Location.step ⟨directory entries, around⟩ name =
      match entries.lookup name with
      | none => .error .notFound
      | some t => .ok ⟨t, directory entries :: around⟩ := by
  obtain ⟨hne, hdot, hdots, hsize⟩ := h
  cases hlookup : entries.lookup name <;> simp [Location.step, hne, hdot, hdots, Nat.not_lt.2 hsize, hlookup]

/-- Behind a plain path it makes no difference which directories stand around. -/
lemma foldlM_step_congr (h : ∀ name ∈ names, IsPlainName name) (t : FileTree) (around around' : List FileTree) :
    (names.foldlM Location.step ⟨t, around⟩).map Location.here =
      (names.foldlM Location.step ⟨t, around'⟩).map Location.here := by
  induction names generalizing t around around' with
  | nil => rfl
  | cons name names ih =>
    obtain ⟨hname, hnames⟩ := List.forall_mem_cons.1 h
    rw [List.foldlM_cons, List.foldlM_cons]
    cases t with
    | file text => rfl
    | directory entries =>
      rw [step_eq hname, step_eq hname]
      cases entries.lookup name with
      | none => rfl
      | some t => exact ih hnames t _ _

/-- A plain path is followed from a directory name by name. -/
lemma find_eq (h : IsPlainPath path) (l : Location) : l.find path = (pathNames path).foldlM Location.step l := by
  obtain ⟨hnames, hsize⟩ := h
  have hempty : pathNames "" = [""] := rfl
  have hne : path ≠ "" := by
    rintro rfl
    exact (hnames "" (by simp [hempty])).1 rfl
  have hhead : (pathNames path).head? ≠ some "" :=
    fun hhead => (hnames "" (List.mem_of_head? hhead)).1 rfl
  simp [Location.find, hne, Nat.not_lt.2 hsize, hhead]

/-- Reading looks only at what a plain path leads to. -/
lemma read_eq (h : IsPlainPath path) (l : Location) : l.read path =
    (((pathNames path).foldlM Location.step l).map Location.here).bind fun
      | file text => .ok text
      | directory _ => .error .isDirectory := by
  rw [Location.read, find_eq h]
  cases (pathNames path).foldlM Location.step l with
  | error fault => rfl
  | ok found =>
    obtain ⟨here, around⟩ := found
    cases here <;> rfl

/-- The directory in which a file was added holds, by the first name of its path, what the rest of the path leads to;
by other names it holds what it held before. -/
lemma exists_addFile_cons (text name : String) (names : List String) (t : FileTree) : ∃ entries,
    t.addFile text (name :: names) = directory entries ∧
      entries.lookup name = some (addFile text names ((t.entries.lookup name).getD (directory []))) ∧
      ∀ other ≠ name, entries.lookup other = t.entries.lookup other := by
  refine ⟨_, by rw [addFile], by simp, fun other hne => ?_⟩
  have hfilter (es : List (String × FileTree)) : (es.filter (·.1 != name)).lookup other = es.lookup other := by
    induction es with
    | nil => rfl
    | cons entry es ih =>
      obtain ⟨key, inner⟩ := entry
      by_cases hkey : key = name
      · have hother : (other == key) = false := by simp [hkey, hne]
        rw [List.filter_cons_of_neg (by simp [hkey]), ih, List.lookup_cons, hother]
      · rw [List.filter_cons_of_pos (by simp [hkey]), List.lookup_cons, List.lookup_cons, ih]
  have hhead : (other == name) = false := beq_eq_false_iff_ne.2 hne
  rw [List.lookup_cons, hhead]
  exact hfilter t.entries

/-- The names of the path lead to the file that was added. -/
lemma foldlM_step_addFile (h : ∀ name ∈ names, IsPlainName name) (t : FileTree) (around : List FileTree) :
    (names.foldlM Location.step ⟨t.addFile text names, around⟩).map Location.here = .ok (file text) := by
  induction names generalizing t around with
  | nil => rfl
  | cons name names ih =>
    obtain ⟨hname, hnames⟩ := List.forall_mem_cons.1 h
    obtain ⟨entries, hadded, hlookup, -⟩ := exists_addFile_cons text name names t
    rw [hadded, List.foldlM_cons, step_eq hname, hlookup]
    exact ih hnames _ _

/-- A file that was added is read. -/
theorem read_addFile (h : IsPlainPath path) (text : String) (t : FileTree) (around : List FileTree) :
    Location.read ⟨t.addFile text (pathNames path), around⟩ path = .ok text := by
  rw [read_eq h, foldlM_step_addFile h.names]
  rfl

/-- A path that begins with another name leads where it did before. -/
theorem read_addFile_of_ne {entries : List (String × FileTree)} (h : IsPlainPath path)
    (hne : (pathNames path).head? ≠ some name) (text : String) (names : List String) (around : List FileTree) :
    Location.read ⟨(directory entries).addFile text (name :: names), around⟩ path =
      Location.read ⟨directory entries, around⟩ path := by
  rw [read_eq h, read_eq h]
  congr 1
  have hnames := h.names
  cases hpath : pathNames path with
  | nil => exact absurd hpath (pathNames_ne_nil path)
  | cons other others =>
    rw [hpath] at hne hnames
    obtain ⟨hother, hothers⟩ := List.forall_mem_cons.1 hnames
    obtain ⟨entries', hadded, -, hlookup⟩ := exists_addFile_cons text name names (directory entries)
    have hsame : entries'.lookup other = entries.lookup other := hlookup other (by simpa using hne)
    rw [hadded, List.foldlM_cons, List.foldlM_cons, step_eq hother, step_eq hother, hsame]
    cases entries.lookup other with
    | none => rfl
    | some t => exact foldlM_step_congr hothers t _ _

end FileTree

namespace CommandLine.Options

open FileTree

/-- What the program writes for a text that it was given under a name. -/
def outcome (o : Options) (name source : String) : Outcome :=
  match o.render name source with
  | .ok text => ⟨0, text, ""⟩
  | .error failure => failure.outcome

/-- In a directory to which the file was added, the program writes what it writes for the file's text. -/
theorem run_addFile {o : Options} {path : String} (ho : o.input = .file path) (h : IsPlainPath path) (source : String)
    (t : FileTree) (around : List FileTree) :
    (o.run (m := Id) (Location.read ⟨t.addFile source (pathNames path), around⟩)).run = o.outcome path source := by
  simp only [run, load, ho, read_addFile h]
  rfl

end CommandLine.Options

end ScssExtend
