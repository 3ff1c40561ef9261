import GaussMatrix.Library.SortedMap
import GaussMatrix.Library.Text

/-!
# Folders of files

A directory of folders, which hold files.  Each operation on the tree either fails or changes what
it names; what the names are that the system takes is a parameter.
-/

namespace GaussMatrix.Library

namespace FileTree

/-- What stands in a folder. -/
inductive Leaf
  | file (content : List UInt8)
  | folder

/-- What stands in the directory. -/
inductive Node
  | file (content : List UInt8)
  | folder (entries : SortedMap Str Leaf)

inductive FsError
  | notFound
  | other
  deriving DecidableEq

def Leaf.content? : Leaf → Option (List UInt8)
  | .file content => some content
  | .folder => none

def Node.entries? : Node → Option (SortedMap Str Leaf)
  | .folder entries => some entries
  | .file _ => none

end FileTree

open FileTree

abbrev FileTree := SortedMap Str Node

namespace FileTree

/-- The content of a file. -/
def read (t : FileTree) (dir name : Str) : Option (List UInt8) :=
  (((t.get dir).bind Node.entries?).bind fun entries => entries.get name).bind Leaf.content?

section Operations

variable (valid : Str → Bool)

/-- Create a folder unless it is there. -/
def createDir (dir : Str) (t : FileTree) : Except FsError FileTree :=
  if valid dir then
    match t.get dir with
    | none => .ok (t.insert dir (.folder SortedMap.empty))
    | some (.folder _) => .ok t
    | some (.file _) => .error .other
  else .error .other

/-- Change the entries of a folder. -/
def inFolder (dir : Str) (change : SortedMap Str Leaf → Except FsError (SortedMap Str Leaf))
    (t : FileTree) : Except FsError FileTree :=
  match t.get dir with
  | some (.folder entries) => (change entries).map fun entries => t.insert dir (.folder entries)
  | some (.file _) => .error .other
  | none => .error .notFound

/-- Create a file, or empty the one that is there. -/
def createFile (dir name : Str) : FileTree → Except FsError FileTree :=
  inFolder dir fun entries =>
    if valid name then
      match entries.get name with
      | some .folder => .error .other
      -- what the file held is lost
      | _ => .ok (entries.insert name (.file []))
    else .error .other

def appendFile (dir name : Str) (bytes : List UInt8) : FileTree → Except FsError FileTree :=
  inFolder dir fun entries =>
    match entries.get name with
    | some (.file content) => .ok (entries.insert name (.file (content ++ bytes)))
    | some .folder => .error .other
    | none => .error .notFound

/-- Rename a file, in place of the one that has the name. -/
def rename (dir name name' : Str) : FileTree → Except FsError FileTree :=
  inFolder dir fun entries =>
    if valid name' then
      match entries.get name, entries.get name' with
      | none, _ => .error .notFound
      | some (.file _), some .folder => .error .other
      | some .folder, some (.file _) => .error .other
      | some leaf, _ => .ok ((entries.erase name).insert name' leaf)
    else .error .other

def removeFile (dir name : Str) : FileTree → Except FsError FileTree :=
  inFolder dir fun entries =>
    if valid name then
      match entries.get name with
      | some (.file _) => .ok (entries.erase name)
      | some .folder => .error .other
      | none => .error .notFound
    else .error .other

end Operations

/-! ## What an operation changes -/

/-- Every entry of the directory is a folder of files, all of whose names are in `named`. -/
def Tidy (named : Str → Prop) (t : FileTree) : Prop :=
  ∀ dir node, t.get dir = some node → ∃ entries, node = .folder entries ∧
    ∀ name leaf, entries.get name = some leaf → named name ∧ ∃ content, leaf = .file content

section Changes

variable {valid : Str → Bool} {named : Str → Prop} {t : FileTree} {dir name name' : Str}
  {entries : SortedMap Str Leaf}

theorem read_folder (h : t.get dir = some (.folder entries)) (name : Str) :
    t.read dir name = (entries.get name).bind Leaf.content? := by
  rw [read, h]
  rfl

theorem read_insert (entries : SortedMap Str Leaf) (dir' name : Str) :
    FileTree.read (t.insert dir (.folder entries)) dir' name =
      if dir' = dir then (entries.get name).bind Leaf.content? else t.read dir' name := by
  rw [read, SortedMap.get_insert]
  split
  · rfl
  · rfl

/-- In a tidy tree a name is that of a file or of nothing. -/
theorem Tidy.leaf (h : Tidy named t) (hdir : t.get dir = some (.folder entries)) (name : Str) :
    entries.get name = (t.read dir name).map Leaf.file := by
  rw [read_folder hdir]
  cases hleaf : entries.get name with
  | none => rfl
  | some leaf =>
      obtain ⟨entries', heq, hentries⟩ := h dir _ hdir
      obtain rfl := Node.folder.inj heq
      obtain ⟨-, content, rfl⟩ := hentries name leaf hleaf
      rfl

theorem Tidy.named_of_read (h : Tidy named t) (hread : t.read dir name ≠ none) : named name := by
  rw [read] at hread
  cases hdir : t.get dir with
  | none => rw [hdir] at hread; exact absurd rfl hread
  | some node =>
      obtain ⟨entries, rfl, hentries⟩ := h dir node hdir
      rw [hdir] at hread
      cases hleaf : entries.get name with
      | none =>
          have hnone : ((some (Node.folder entries)).bind Node.entries?).bind
              (fun entries => entries.get name) = none := hleaf
          rw [hnone] at hread
          exact absurd rfl hread
      | some leaf => exact (hentries name leaf hleaf).1

/-- A folder changed to files of such names leaves the tree tidy. -/
theorem Tidy.insert (h : Tidy named t) {entries : SortedMap Str Leaf}
    (hentries : ∀ name leaf, entries.get name = some leaf →
      named name ∧ ∃ content, leaf = .file content) :
    Tidy named (SortedMap.insert t dir (.folder entries)) := by
  intro dir' node hnode
  rw [SortedMap.get_insert] at hnode
  split at hnode
  · obtain rfl := Option.some.inj hnode
    exact ⟨entries, rfl, hentries⟩
  · exact h dir' node hnode

theorem Tidy.leaves (h : Tidy named t) (hdir : t.get dir = some (.folder entries)) :
    ∀ name leaf, entries.get name = some leaf → named name ∧ ∃ content, leaf = .file content := by
  obtain ⟨entries', heq, hentries⟩ := h dir _ hdir
  obtain rfl := Node.folder.inj heq
  exact hentries

end Changes

/-- A tidy tree with these contents. -/
structure Shows (named : Str → Prop) (reads : Str → Str → Option (List UInt8)) (t : FileTree) :
    Prop where
  tidy : Tidy named t
  read : ∀ dir name, t.read dir name = reads dir name

def HasFolder (dir : Str) (t : FileTree) : Prop := ∃ entries, t.get dir = some (.folder entries)

/-- The contents with one file changed. -/
def setRead (reads : Str → Str → Option (List UInt8)) (dir name : Str)
    (content : Option (List UInt8)) (dir' name' : Str) : Option (List UInt8) :=
  if dir' = dir ∧ name' = name then content else reads dir' name'

section Specs

variable {valid : Str → Bool} {named : Str → Prop} {reads : Str → Str → Option (List UInt8)}
  {t : FileTree} {dir name name' : Str} {content : List UInt8}

theorem hasFolder_of_read (h : t.read dir name = some content) : HasFolder dir t := by
  rw [FileTree.read] at h
  cases hdir : t.get dir with
  | none => rw [hdir] at h; cases h
  | some node =>
      cases node with
      | file _ => rw [hdir] at h; cases h
      | folder entries => exact ⟨entries, hdir⟩

theorem createDir_spec (h : Shows named reads t) (hvalid : valid dir = true) :
    ∃ t', createDir valid dir t = .ok t' ∧ Shows named reads t' ∧ HasFolder dir t' := by
  rw [createDir, if_pos hvalid]
  cases hdir : t.get dir with
  | none =>
      refine ⟨_, rfl, ⟨h.tidy.insert nofun, fun dir' name => ?_⟩, SortedMap.empty, ?_⟩
      · rw [read_insert, ← h.read]
        split
        · -- the new folder holds nothing, as the missing one did
          rename_i heq
          rw [heq, FileTree.read, hdir]
          rfl
        · rfl
      · exact SortedMap.get_insert_self _ _ _
  | some node =>
      obtain ⟨entries, rfl, -⟩ := h.tidy dir node hdir
      exact ⟨t, rfl, h, entries, hdir⟩

/-- The entries of a folder that holds these files. -/
def FilesOf (reads : Str → Str → Option (List UInt8)) (dir : Str) (entries : SortedMap Str Leaf) :
    Prop :=
  ∀ name, entries.get name = (reads dir name).map Leaf.file

theorem FilesOf.insert {entries : SortedMap Str Leaf} (h : FilesOf reads dir entries) (name : Str)
    (content : List UInt8) :
    FilesOf (setRead reads dir name (some content)) dir (entries.insert name (.file content)) := by
  intro name'
  rw [SortedMap.get_insert, setRead]
  by_cases hname : name' = name
  · rw [if_pos hname, if_pos ⟨rfl, hname⟩]
    rfl
  · rw [if_neg hname, if_neg fun heq => hname heq.2, h]

theorem FilesOf.erase {entries : SortedMap Str Leaf} (h : FilesOf reads dir entries) (name : Str) :
    FilesOf (setRead reads dir name none) dir (entries.erase name) := by
  intro name'
  rw [SortedMap.get_erase, setRead]
  by_cases hname : name' = name
  · rw [if_pos hname, if_pos ⟨rfl, hname⟩]
    rfl
  · rw [if_neg hname, if_neg fun heq => hname heq.2, h]

/-- A change of one folder that succeeds on the files in it. -/
theorem inFolder_spec {change : SortedMap Str Leaf → Except FsError (SortedMap Str Leaf)}
    {reads' : Str → Str → Option (List UInt8)} (h : Shows named reads t) (hfolder : HasFolder dir t)
    (hchange : ∀ entries, FilesOf reads dir entries →
      ∃ entries', change entries = .ok entries' ∧ FilesOf reads' dir entries')
    (hothers : ∀ dir' name, dir' ≠ dir → reads' dir' name = reads dir' name)
    (hnamed : ∀ name, reads' dir name ≠ none → named name) :
    ∃ t', inFolder dir change t = .ok t' ∧ Shows named reads' t' := by
  obtain ⟨entries, hdir⟩ := hfolder
  have hfiles : FilesOf reads dir entries := by
    intro name
    rw [h.tidy.leaf hdir, h.read]
  obtain ⟨entries', hok, hfiles'⟩ := hchange entries hfiles
  refine ⟨t.insert dir (.folder entries'), ?_, ?_, ?_⟩
  · rw [inFolder, hdir]
    show (change entries).map _ = _
    rw [hok]
    rfl
  · apply h.tidy.insert
    intro name leaf hleaf
    rw [hfiles', Option.map_eq_some_iff] at hleaf
    obtain ⟨content, hread, rfl⟩ := hleaf
    have hne : reads' dir name ≠ none := by rw [hread]; exact nofun
    exact ⟨hnamed name hne, content, rfl⟩
  · intro dir' name
    rw [read_insert]
    split
    · rename_i heq
      rw [hfiles', heq]
      cases reads' dir name <;> rfl
    · rename_i hne
      rw [h.read, hothers dir' name hne]

theorem setRead_of_ne {dir' : Str} (hne : dir' ≠ dir) (content : Option (List UInt8)) :
    setRead reads dir name content dir' name' = reads dir' name' :=
  if_neg fun heq => hne heq.1

theorem Shows.named_of_read (h : Shows named reads t) (hread : reads dir name ≠ none) :
    named name := by
  rw [← h.read] at hread
  exact h.tidy.named_of_read hread

theorem Shows.hasFolder (h : Shows named reads t) (hread : reads dir name = some content) :
    HasFolder dir t := by
  rw [← h.read] at hread
  exact hasFolder_of_read hread

/-- The names stay in order when a file of such a name is written. -/
theorem Shows.named_setRead (h : Shows named reads t) (hname : named name)
    (content : Option (List UInt8)) (name' : Str)
    (hread : setRead reads dir name content dir name' ≠ none) : named name' := by
  rw [setRead] at hread
  split at hread
  · rename_i heq
    rwa [heq.2]
  · exact h.named_of_read hread

theorem createFile_spec (h : Shows named reads t) (hfolder : HasFolder dir t)
    (hvalid : valid name = true) (hname : named name) :
    ∃ t', createFile valid dir name t = .ok t' ∧
      Shows named (setRead reads dir name (some [])) t' := by
  apply inFolder_spec h hfolder
  · intro entries hfiles
    refine ⟨entries.insert name (.file []), ?_, hfiles.insert name []⟩
    rw [if_pos hvalid, hfiles]
    cases reads dir name <;> rfl
  · exact fun dir' name' hne => setRead_of_ne hne _
  · exact h.named_setRead hname _

theorem appendFile_spec (h : Shows named reads t) (hread : reads dir name = some content)
    (bytes : List UInt8) :
    ∃ t', appendFile dir name bytes t = .ok t' ∧
      Shows named (setRead reads dir name (some (content ++ bytes))) t' := by
  have hne : reads dir name ≠ none := by rw [hread]; exact nofun
  apply inFolder_spec h (h.hasFolder hread)
  · intro entries hfiles
    refine ⟨entries.insert name (.file (content ++ bytes)), ?_, hfiles.insert name _⟩
    rw [hfiles, hread]
    rfl
  · exact fun dir' name' hne => setRead_of_ne hne _
  · exact h.named_setRead (h.named_of_read hne) _

theorem rename_spec (h : Shows named reads t) (hread : reads dir name = some content)
    (hvalid : valid name' = true) (hname : named name') :
    ∃ t', rename valid dir name name' t = .ok t' ∧
      Shows named (setRead (setRead reads dir name none) dir name' (some content)) t' := by
  apply inFolder_spec h (h.hasFolder hread)
  · intro entries hfiles
    refine ⟨(entries.erase name).insert name' (.file content), ?_,
      (hfiles.erase name).insert name' _⟩
    rw [if_pos hvalid, hfiles, hfiles, hread]
    cases reads dir name' <;> rfl
  · intro dir' name'' hne
    rw [setRead_of_ne hne, setRead_of_ne hne]
  · -- the new name, or one that was there
    intro name'' hne
    rw [setRead] at hne
    split at hne
    · rename_i heq
      rwa [heq.2]
    · rw [setRead] at hne
      split at hne
      · exact absurd rfl hne
      · exact h.named_of_read hne

theorem removeFile_spec (h : Shows named reads t) (hread : reads dir name = some content)
    (hvalid : valid name = true) :
    ∃ t', removeFile valid dir name t = .ok t' ∧ Shows named (setRead reads dir name none) t' := by
  have hne : reads dir name ≠ none := by rw [hread]; exact nofun
  apply inFolder_spec h (h.hasFolder hread)
  · intro entries hfiles
    refine ⟨entries.erase name, ?_, hfiles.erase name⟩
    rw [if_pos hvalid, hfiles, hread]
    rfl
  · exact fun dir' name' hne => setRead_of_ne hne _
  · exact h.named_setRead (h.named_of_read hne) _

theorem removeFile_missing (h : Shows named reads t) (hread : reads dir name = none)
    (hvalid : valid name = true) : removeFile valid dir name t = .error .notFound := by
  rw [removeFile, inFolder]
  cases hdir : t.get dir with
  | none => rfl
  | some node =>
      obtain ⟨entries, rfl, -⟩ := h.tidy dir node hdir
      have hleaf := h.tidy.leaf hdir name
      rw [h.read, hread] at hleaf
      simp only [if_pos hvalid, hleaf]
      rfl

end Specs

end FileTree

end GaussMatrix.Library
