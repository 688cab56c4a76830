import Projector.Proofs.LoadedDocuments

/-!
# Names that stay in their folder

A name that is not refused cannot lead out of its folder or into another one: the path name that is
read has the components of the folder and the name as one component more, or only those of the
folder when the name says nothing, and writing that path name out and reading it back changes
nothing. So all that loading sees of a disk is where the folder leads, and there only what has the
name; not even of a folder with the name it sees what is in it.
-/

namespace Projector

namespace Pathname

/-! ## Normal forms -/

/-- The pieces between separators are those that a list is split into. -/
theorem pieces_eq_splitOn (text : List Char) : pieces text = text.splitOn separator := by
  induction text with
  | nil => rfl
  | cons c rest ih =>
    rw [pieces, List.splitOn_cons_eq_if_modifyHead, ← ih]
    by_cases hseparator : c = separator
    · rw [if_pos hseparator, if_pos (by simpa using hseparator)]
    · rw [if_neg hseparator, if_neg (by simpa using hseparator)]
      cases hrest : pieces rest with
      | nil => exact absurd hrest (pieces_ne_nil rest)
      | cons first others => rfl

/-- A path name is in normal form: its root mark is none, one separator or two, and its components
mean something and have no separator in them. -/
structure Normal (path : Pathname) : Prop where
  root : path.root = "" ∨ path.root = "/" ∨ path.root = "//"
  proper : ∀ part ∈ path.parts, isProper part = true
  separator : ∀ part ∈ path.parts, separator ∉ part.toList

/-- A path name that a text writes is in normal form. -/
theorem normal_ofText (text : String) : (ofText text).Normal where
  root := by
    rw [ofText]
    unfold rootOf
    split <;> simp
  proper _ hpart := (mem_parts_ofText_iff.mp hpart).2
  separator _ hpart hmem :=
    ((exists_mem_pieces_iff text.toList).mp ⟨_, (mem_parts_ofText_iff.mp hpart).1, hmem⟩).2 rfl

/-- In front of something other than a separator a root mark is what it says. -/
theorem rootOf_append {root : String} (hroot : root = "" ∨ root = "/" ∨ root = "//") {c : Char}
    (hc : c ≠ '/') (rest : List Char) : rootOf (root.toList ++ c :: rest) = root := by
  rcases hroot with rfl | rfl | rfl <;> simp [rootOf, hc]

/-- A root mark says nothing but where the components start. -/
theorem filter_pieces_append {root : String} (hroot : root = "" ∨ root = "/" ∨ root = "//")
    (text : List Char) :
    ((pieces (root.toList ++ text)).map String.ofList).filter isProper =
      ((pieces text).map String.ofList).filter isProper := by
  rcases hroot with rfl | rfl | rfl <;> simp [pieces, separator, isProper]

/-- Components without separators are the pieces of what they make with separators between. -/
theorem pieces_intercalate {parts : List String} (hparts : parts ≠ [])
    (hseparator : ∀ part ∈ parts, separator ∉ part.toList) :
    pieces ("/".intercalate parts).toList = parts.map String.toList := by
  rw [pieces_eq_splitOn, String.toList_intercalate]
  refine List.splitOn_intercalate separator ?_ (by simpa using hparts)
  simpa using hseparator

/-- What starts with a component that means something and has no separator in it does not start with
a separator. -/
theorem exists_cons_intercalate {part : String} (hproper : isProper part = true)
    (hseparator : separator ∉ part.toList) (rest : List String) :
    ∃ c more, c ≠ '/' ∧ ("/".intercalate (part :: rest)).toList = c :: more := by
  cases hpart : part.toList with
  | nil =>
    rw [String.toList_eq_nil_iff] at hpart
    simp [isProper, hpart] at hproper
  | cons c more =>
    rw [hpart, List.mem_cons, not_or] at hseparator
    cases rest with
    | nil => exact ⟨c, more, Ne.symm hseparator.1, by simpa using hpart⟩
    | cons next others =>
      refine ⟨c, more ++ '/' :: ("/".intercalate (next :: others)).toList,
        Ne.symm hseparator.1, ?_⟩
      simp [hpart]

/-- A path name in normal form is the one that its text writes. -/
theorem Normal.ofText_text {path : Pathname} (h : path.Normal) : ofText path.text = path := by
  obtain ⟨root, parts⟩ := path
  obtain ⟨hroot, hproper, hseparator⟩ := h
  dsimp only at hroot hproper hseparator
  cases parts with
  | nil => rcases hroot with rfl | rfl | rfl <;> decide
  | cons part rest =>
    obtain ⟨c, more, hc, hbody⟩ := exists_cons_intercalate (hproper part List.mem_cons_self)
      (hseparator part List.mem_cons_self) rest
    have htext : (text ⟨root, part :: rest⟩).toList = root.toList ++ c :: more := by
      rw [text, if_neg (by simp), String.toList_append, hbody]
    rw [ofText, htext, rootOf_append hroot hc, filter_pieces_append hroot, ← hbody,
      pieces_intercalate (List.cons_ne_nil part rest) hseparator, List.map_map]
    simp only [Function.comp_def, String.ofList_toList, List.map_id',
      List.filter_eq_self.mpr hproper]

/-- A path name does not become shorter when a component is put behind it. -/
theorem utf8ByteSize_text_le (path : Pathname) {name : String} (hname : isProper name = true) :
    path.text.utf8ByteSize ≤ (text ⟨path.root, path.parts ++ [name]⟩).utf8ByteSize := by
  obtain ⟨root, parts⟩ := path
  have hlonger : text ⟨root, parts ++ [name]⟩ = root ++ "/".intercalate (parts ++ [name]) := by
    rw [text, if_neg (by simp)]
  rw [hlonger, String.utf8ByteSize_append]
  by_cases hparts : parts = []
  · subst hparts
    have hpositive : 0 < name.utf8ByteSize := by
      rw [Nat.pos_iff_ne_zero, Ne, String.utf8ByteSize_eq_zero_iff]
      rintro rfl
      simp [isProper] at hname
    rw [text]
    split
    · simp only [List.nil_append, String.intercalate_singleton]
      have hhere : here.utf8ByteSize = 1 := by decide
      omega
    · simp
  · have hparts' : parts.isEmpty = false := by simpa using hparts
    rw [text, if_neg (by simp [hparts]),
      String.intercalate_append_of_ne_nil hparts (List.cons_ne_nil name [])]
    simp only [String.utf8ByteSize_append]
    omega

end Pathname

namespace Tree

/-! ## What is seen through a name -/

/-- What is seen of something through one name: of a file all of it, and of a folder what has the
name in it, but of another folder only that it is one. -/
def glimpse (name : String) : Tree → Tree
  | .file bytes => .file bytes
  | .folder entries =>
    match entry? entries name with
    | none => .folder []
    | some (.file bytes) => .folder [(name, .file bytes)]
    | some (.folder _) => .folder [(name, .folder [])]

/-- The bytes of something that is read as a file. -/
def content : Tree → Except DiskFault (List UInt8)
  | .file bytes => .ok bytes
  | .folder _ => .error .isFolder

/-- A file is read where its path name leads. -/
theorem readFile_eq (current : Tree) (path : Pathname) :
    current.readFile path = (current.find path).bind content := by
  rw [readFile]
  cases current.find path with
  | error fault => rfl
  | ok found => cases found <;> rfl

/-- What is read at a path name is seen through any name. -/
theorem readFile_eq_glimpse (name : String) (current : Tree) (path : Pathname) :
    current.readFile path = ((current.find path).map (glimpse name)).bind content := by
  rw [readFile_eq]
  cases current.find path with
  | error fault => rfl
  | ok found =>
    cases found with
    | file bytes => rfl
    | folder entries =>
      simp only [Except.map, Except.bind, glimpse]
      split <;> rfl

/-- What is read under a name that does not lead up is read through it. -/
theorem bind_content_follow_glimpse {name : String} (hname : name ≠ Pathname.up)
    (above around : List Tree) (tree : Tree) :
    (follow above (glimpse name tree) [name]).bind content =
      (follow around tree [name]).bind content := by
  cases tree with
  | file bytes => rfl
  | folder entries =>
    rw [glimpse]
    cases hentry : entry? entries name with
    | none =>
      rw [follow_cons, follow_cons, hentry]
      simp [hname, entry?]
    | some found =>
      cases found with
      | file bytes =>
        simp only [follow_cons, hentry]
        simp [hname, entry?, follow]
      | folder others =>
        simp only [follow_cons, hentry]
        simp only [hname, entry?, List.find?_cons, decide_true, Option.map_some, if_false, follow]
        split <;> rfl

/-- What is read under a name behind a path name is read where the path name leads, through that
name. -/
theorem readFile_append (current : Tree) (path : Pathname) {name : String}
    (hproper : Pathname.isProper name = true) (hname : name ≠ Pathname.up) :
    current.readFile ⟨path.root, path.parts ++ [name]⟩ =
      if longestPath < (Pathname.mk path.root (path.parts ++ [name])).text.utf8ByteSize then
        .error .nameTooLong
      else ((current.find path).map (glimpse name)).bind fun seen =>
        (follow [] seen [name]).bind content := by
  rw [readFile_eq, find_eq, find_eq]
  have hle := path.utf8ByteSize_text_le hproper
  by_cases hlong : longestPath < (Pathname.mk path.root (path.parts ++ [name])).text.utf8ByteSize
  · rw [if_pos hlong, if_pos hlong]
    rfl
  · -- The path name of the folder is short enough as well, so the name decides.
    rw [if_neg hlong, if_neg hlong, if_neg (by omega)]
    have hstart : startOf current ⟨path.root, path.parts ++ [name]⟩ = startOf current path := rfl
    rw [hstart]
    obtain ⟨around, haround⟩ := exists_follow_append [] (startOf current path) path.parts
    rw [haround]
    cases follow [] (startOf current path) path.parts with
    | error fault => rfl
    | ok found => exact (bind_content_follow_glimpse hname [] around found).symm

end Tree

namespace Documents

open Pathname

/-! ## Loading by name -/

/-- The names that are refused are those with two dots next to each other, a separator or a
backslash in them. -/
theorem isBareName_eq_false_iff {name : String} : isBareName name = false ↔
    ['.', '.'] <:+: name.toList ∨ '/' ∈ name.toList ∨ '\\' ∈ name.toList := by
  rw [← Bool.not_eq_true, isBareName_iff, ← not_or, ← not_or, Classical.not_not, separator]

/-- A name says something unless it is empty or a single dot. -/
theorem isProper_eq_false_iff {name : String} :
    isProper name = false ↔ name = "" ∨ name = "." := by
  rw [isProper, here, Bool.and_eq_false_iff]
  simp

/-- The path name of a document in a folder is in normal form. -/
theorem normal_pathIn {name : String} (h : separator ∉ name.toList) (folder : String) :
    (pathIn folder name).Normal := by
  obtain ⟨hroot, hproper, hseparator⟩ := normal_ofText folder
  rw [pathIn_eq h]
  refine ⟨hroot, fun part hpart => ?_, fun part hpart => ?_⟩
  · rcases List.mem_append.mp hpart with hpart | hpart
    · exact hproper part hpart
    · split at hpart
      · rename_i hname
        rwa [List.mem_singleton.mp hpart]
      · cases hpart
  · rcases List.mem_append.mp hpart with hpart | hpart
    · exact hseparator part hpart
    · split at hpart
      · rwa [List.mem_singleton.mp hpart]
      · cases hpart

/-- What is read at the path name of a document is what is seen through its name where the folder
leads. -/
theorem readFile_pathIn_congr {disk other : Tree} {folder name : String}
    (hname : isBareName name = true)
    (h : (disk.find (.ofText folder)).map (Tree.glimpse name) =
      (other.find (.ofText folder)).map (Tree.glimpse name)) :
    disk.readFile (pathIn folder name) = other.readFile (pathIn folder name) := by
  obtain ⟨hdots, hseparator, -⟩ := isBareName_iff.mp hname
  rw [pathIn_eq hseparator]
  split
  · rename_i hproper
    -- A name that leads up has two dots next to each other.
    have hup : name ≠ up := by
      rintro rfl
      exact hdots (List.infix_refl _)
    rw [Tree.readFile_append _ _ hproper hup, Tree.readFile_append _ _ hproper hup, h]
  · rw [List.append_nil, Tree.readFile_eq_glimpse name, Tree.readFile_eq_glimpse name, h]

/-- Whatever the folder and the name, either the name is refused and no disk is looked at, or one
path name is read, which has the components of the folder and the name as one more, or only those of
the folder when the name is empty or a single dot, and which is the one that its own text writes. On
two disks on which the same is seen through the name where the folder leads, that gives the same. -/
theorem load_confined (folder name : String) :
    if ['.', '.'] <:+: name.toList ∨ '/' ∈ name.toList ∨ '\\' ∈ name.toList then
      ∀ disk, load disk folder name = (.error (.document .invalidName), [])
    else
      ∃ path : Pathname, path.root = (ofText folder).root ∧
        path.parts = (ofText folder).parts ++ (if name = "" ∨ name = "." then [] else [name]) ∧
        ofText path.text = path ∧
        (∀ disk, load disk folder name = (readAt disk path, [.loading name folder])) ∧
        ∀ disk other : Tree,
          (disk.find (ofText folder)).map (Tree.glimpse name) =
            (other.find (ofText folder)).map (Tree.glimpse name) →
          load disk folder name = load other folder name := by
  split
  · rename_i hrefused
    intro disk
    rw [load, if_neg (by rw [isBareName_eq_false_iff.mpr hrefused]; exact Bool.false_ne_true)]
  · rename_i haccepted
    have hbare : isBareName name = true := by
      rwa [← isBareName_eq_false_iff, Bool.not_eq_false] at haccepted
    obtain ⟨-, hseparator, -⟩ := isBareName_iff.mp hbare
    have hload : ∀ disk, load disk folder name =
        (readAt disk (pathIn folder name), [.loading name folder]) := fun disk => by
      rw [load, if_pos hbare]
    refine ⟨pathIn folder name, ?_, ?_, (normal_pathIn hseparator folder).ofText_text, hload, ?_⟩
    · rw [pathIn_eq hseparator]
    · rw [pathIn_eq hseparator]
      by_cases hproper : isProper name = true
      · rw [if_pos hproper, if_neg]
        rwa [← isProper_eq_false_iff, Bool.not_eq_false]
      · rw [if_neg hproper, if_pos]
        rwa [← isProper_eq_false_iff, ← Bool.not_eq_true]
    · intro disk other hseen
      rw [hload, hload, readAt, readAt, readFile_pathIn_congr hbare hseen]

/-- A disk with the same document in the same folder, but with other things in the folder and around
it. -/
def otherDisk : Tree :=
  .folder [("secret.json", .file [0x33]),
    ("docs", .folder [("a", .folder [("b.json", .file [0x32])]), ("b.json", .file [0x31])])]

/-- What else is on the disk makes no difference to loading the document. -/
theorem load_confined_otherDisk :
    (mixedDisk.find (ofText "docs")).map (Tree.glimpse "b.json") =
      (otherDisk.find (ofText "docs")).map (Tree.glimpse "b.json") ∧
    load mixedDisk "docs" "b.json" = load otherDisk "docs" "b.json" := by
  have hseen : (mixedDisk.find (ofText "docs")).map (Tree.glimpse "b.json") =
      (otherDisk.find (ofText "docs")).map (Tree.glimpse "b.json") := rfl
  have hall := load_confined "docs" "b.json"
  rw [if_neg (by decide)] at hall
  obtain ⟨_, _, _, _, _, hsame⟩ := hall
  exact ⟨hseen, hsame _ _ hseen⟩

end Documents

end Projector
