import GaussMatrix.Library.CrashSteps
import GaussMatrix.Library.Fallible
import GaussMatrix.Library.FileTree
import GaussMatrix.Store.Backend

/-!
# The backend over files

Each family is a folder and each key a file, whose name is the key in hexadecimal.  A write goes to
a temporary file, which is renamed into place, so a crash leaves the old value or the new one;
opening the store again reads the files whose names are keys and passes over the others.
-/

namespace GaussMatrix

open Library Util FileTree

namespace FileStore

/-! ## File names -/

def hexEncode (bytes : Bytes) : Str :=
  bytes.flatMap fun b => [Nat.digitChar (b.toNat / 16), Nat.digitChar (b.toNat % 16)]

/-- The value of a hexadecimal digit. -/
def toDigit (c : Char) : Option Nat :=
  if c.isDigit then some (c.toNat - '0'.toNat)
  else if 'a' ≤ c ∧ c ≤ 'f' then some (c.toNat - 'a'.toNat + 10)
  else if 'A' ≤ c ∧ c ≤ 'F' then some (c.toNat - 'A'.toNat + 10)
  else none

/-- The bytes that pairs of digits spell. -/
def decodePairs : Str → Option Bytes
  | [] => some []
  -- In a name of an even number of bytes, a digit without its pair comes behind a character that is
  -- no digit, so the missing index is never reached.
  | [_] => none
  | hi :: lo :: rest => do
      let hi ← toDigit hi
      let lo ← toDigit lo
      let bytes ← decodePairs rest
      return UInt8.ofNat (hi * 16 + lo) :: bytes

/-- The key that a file name spells; a name of an odd number of bytes spells none. -/
def hexDecode (s : Str) : Option Str :=
  if (utf8Bytes s).length % 2 ≠ 0 then none else (decodePairs s).bind fromUtf8

/-- The name of the file that holds a key. -/
def fileName (key : Str) : Str := hexEncode (utf8Bytes key)

/-- The name under which the value of a key is written first. -/
def tempName (key : Str) : Str := '.' :: (fileName key ++ ".tmp".toList)

section Names

theorem digit_spec : ∀ n < 16, toDigit (Nat.digitChar n) = some n ∧ (Nat.digitChar n).toNat < 0x80 ∧
    Nat.digitChar n ≠ '/' ∧ Nat.digitChar n ≠ '\x00' ∧ Nat.digitChar n ≠ '.' := by
  decide

theorem hexEncode_cons (b : UInt8) (bytes : Bytes) :
    hexEncode (b :: bytes) =
      Nat.digitChar (b.toNat / 16) :: Nat.digitChar (b.toNat % 16) :: hexEncode bytes := rfl

theorem mem_hexEncode {bytes : Bytes} {c : Char} (h : c ∈ hexEncode bytes) :
    c.toNat < 0x80 ∧ c ≠ '/' ∧ c ≠ '\x00' ∧ c ≠ '.' := by
  obtain ⟨b, -, hc⟩ := List.mem_flatMap.mp h
  have hb := b.toNat_lt
  have hdigit : ∃ n < 16, c = Nat.digitChar n := by
    rcases List.mem_cons.mp hc with rfl | hc
    · exact ⟨_, by omega, rfl⟩
    · rw [List.mem_singleton] at hc
      exact ⟨_, by omega, hc⟩
  obtain ⟨n, hn, rfl⟩ := hdigit
  exact (digit_spec n hn).2

theorem length_hexEncode (bytes : Bytes) : (hexEncode bytes).length = 2 * bytes.length := by
  induction bytes with
  | nil => rfl
  | cons b bytes ih =>
      rw [hexEncode_cons, List.length_cons, List.length_cons, ih, List.length_cons]
      omega

theorem decodePairs_hexEncode (bytes : Bytes) : decodePairs (hexEncode bytes) = some bytes := by
  induction bytes with
  | nil => rfl
  | cons b bytes ih =>
      have hb := b.toNat_lt
      have hhi := (digit_spec (b.toNat / 16) (by omega)).1
      have hlo := (digit_spec (b.toNat % 16) (by omega)).1
      have hbyte : UInt8.ofNat (b.toNat / 16 * 16 + b.toNat % 16) = b := by
        rw [Nat.div_add_mod']
        exact UInt8.ofNat_toNat
      rw [hexEncode_cons, decodePairs, hhi, hlo, ih]
      show some (UInt8.ofNat (b.toNat / 16 * 16 + b.toNat % 16) :: bytes) = _
      rw [hbyte]

theorem length_utf8Bytes_ascii {s : Str} (h : ∀ c ∈ s, c.toNat < 0x80) :
    (utf8Bytes s).length = s.length := by
  induction s with
  | nil => rfl
  | cons c cs ih =>
      obtain ⟨hc, hcs⟩ := List.forall_mem_cons.mp h
      rw [utf8Bytes_cons, utf8EncodeChar_ascii hc, List.length_append, ih hcs,
        List.length_singleton, List.length_cons, Nat.add_comm]

theorem length_utf8Bytes_hexEncode (bytes : Bytes) :
    (utf8Bytes (hexEncode bytes)).length = 2 * bytes.length := by
  rw [length_utf8Bytes_ascii fun c hc => (mem_hexEncode hc).1, length_hexEncode]

theorem length_utf8Bytes_tempName (key : Str) :
    (utf8Bytes (tempName key)).length = 2 * (utf8Bytes key).length + 5 := by
  have hdot : utf8Bytes ['.'] = [0x2e] := by decide
  have htmp : (utf8Bytes ".tmp".toList).length = 4 := by decide
  have hname : tempName key = ['.'] ++ (fileName key ++ ".tmp".toList) := rfl
  rw [hname, utf8Bytes_append, utf8Bytes_append, List.length_append, List.length_append, htmp, hdot,
    fileName, length_utf8Bytes_hexEncode, List.length_singleton]
  omega

/-- The name of a file gives its key back. -/
theorem hexDecode_fileName (key : Str) : hexDecode (fileName key) = some key := by
  have heven : ¬ (utf8Bytes (fileName key)).length % 2 ≠ 0 := by
    rw [fileName, length_utf8Bytes_hexEncode]
    omega
  rw [hexDecode, if_neg heven, fileName, decodePairs_hexEncode, Option.bind_some,
    fromUtf8_utf8Bytes]

/-- A temporary file has no key. -/
theorem hexDecode_tempName (key : Str) : hexDecode (tempName key) = none := by
  have hodd : (utf8Bytes (tempName key)).length % 2 ≠ 0 := by
    rw [length_utf8Bytes_tempName]
    omega
  rw [hexDecode, if_pos hodd]

theorem fileName_inj {key key' : Str} : fileName key = fileName key' ↔ key = key' := by
  constructor
  · intro h
    have hdecode := congrArg hexDecode h
    rw [hexDecode_fileName, hexDecode_fileName] at hdecode
    exact Option.some.inj hdecode
  · rintro rfl
    rfl

theorem fileName_eq_nil_iff {key : Str} : fileName key = [] ↔ key = [] :=
  (fileName_inj : fileName key = fileName [] ↔ key = [])

theorem fileName_ne_tempName (key key' : Str) : fileName key ≠ tempName key' := by
  intro h
  have hdecode := congrArg hexDecode h
  rw [hexDecode_fileName, hexDecode_tempName] at hdecode
  cases hdecode

end Names

/-! ## Writing -/

/-- The names that the file system takes, of at most so many bytes. -/
def isName (limit : Nat) (name : Str) : Bool :=
  name ≠ [] ∧ '/' ∉ name ∧ '\x00' ∉ name ∧ name ≠ ".".toList ∧ name ≠ "..".toList ∧
    (utf8Bytes name).length ≤ limit

/-- A put, with the parts in which the system takes the value, or a delete. -/
inductive FileOp
  | put (cf key : Str) (parts : List Bytes)
  | delete (cf key : Str)

/-- What the operation writes. -/
def FileOp.write : FileOp → Write
  | .put cf key parts => .put cf key parts.flatten
  | .delete cf key => .delete cf key

section Steps

variable (limit : Nat)

/-- The value goes to the temporary file, which takes the place of the file of the key. -/
def persistPut (cf key : Str) (parts : List Bytes) : List (Action FileTree FsError) :=
  createDir (isName limit) cf :: createFile (isName limit) cf (tempName key) ::
    (parts.map (appendFile cf (tempName key)) ++
      [rename (isName limit) cf (tempName key) (fileName key)])

/-- A missing file is no error. -/
def removeIfThere (cf key : Str) (t : FileTree) : Except FsError FileTree :=
  match removeFile (isName limit) cf (fileName key) t with
  | .error .notFound => .ok t
  | result => result

def persistDelete (cf key : Str) : List (Action FileTree FsError) := [removeIfThere limit cf key]

def FileOp.steps : FileOp → List (Action FileTree FsError)
  | .put cf key parts => persistPut limit cf key parts
  | .delete cf key => persistDelete limit cf key

end Steps

/-- What the store does: its copy in memory first, then the files. -/
def FileOp.perform (limit : Nat) (op : FileOp) : Action (MemoryStore × FileTree) FsError :=
  fun s => (runSteps (op.steps limit) s.2).map fun t => (Backend.write s.1 op.write, t)

/-! ## Opening -/

/-- What stands at the root of the store. -/
inductive Root
  | absent
  | file
  | folder (t : FileTree)

/-- The order in which the system lists a directory. -/
abbrev ReadDir := (ν : Type) → SortedMap Str ν → List (Str × ν)

/-- The entry that a file of a family is loaded as. -/
def loadFile (cf : Str) (file : Str × Leaf) : Option Write :=
  match file.2 with
  | .folder => none
  -- a name that spells no key is that of a temporary file
  | .file content => (hexDecode file.1).map fun key => .put cf key content

def loadFamily (readDir : ReadDir) (family : Str × Node) : List Write :=
  match family.2 with
  | .file _ => []
  | .folder entries => (readDir Leaf entries).filterMap (loadFile family.1)

def load (readDir : ReadDir) (t : FileTree) : MemoryStore :=
  run Backend.write MemoryStore.empty ((readDir Node t).flatMap (loadFamily readDir))

/-- The store in memory, and the directory, which is created if it was not there. -/
def openStore (readDir : ReadDir) : Root → Except FsError (MemoryStore × FileTree)
  | .absent => .ok (load readDir SortedMap.empty, SortedMap.empty)
  | .file => .error .other
  | .folder t => .ok (load readDir t, t)

/-! ## What the files hold -/

/-- The contents of the store after a write. -/
def update (values : Str → Str → Option Bytes) (w : Write) (cf key : Str) : Option Bytes :=
  if cf = w.cf ∧ key = w.key then w.value else values cf key

/-- Names of files that hold a key, and of temporary ones. -/
def IsStored (name : Str) : Prop :=
  (∃ key, key ≠ [] ∧ name = fileName key) ∨ ∃ key, name = tempName key

/-- The directory holds these values; the empty key has none. -/
structure Sound (values : Str → Str → Option Bytes) (t : FileTree) : Prop where
  tidy : Tidy IsStored t
  read : ∀ cf key, key ≠ [] → t.read cf (fileName key) = values cf key
  empty : ∀ cf, values cf [] = none

/-- The names that an operation uses are those of files. -/
structure FileOp.Named (limit : Nat) (op : FileOp) : Prop where
  family : isName limit op.write.cf = true
  key_ne : op.write.key ≠ []
  temp : (utf8Bytes (tempName op.write.key)).length ≤ limit

section Sound

variable {limit : Nat} {values : Str → Str → Option Bytes} {t t' : FileTree} {cf key : Str}
  {content : Bytes}

theorem isName_fileName (hne : key ≠ []) (h : (utf8Bytes (tempName key)).length ≤ limit) :
    isName limit (fileName key) = true := by
  have hdot : '.' ∉ fileName key := fun hmem => (mem_hexEncode hmem).2.2.2 rfl
  have hlen : (utf8Bytes (fileName key)).length = 2 * (utf8Bytes key).length :=
    length_utf8Bytes_hexEncode _
  rw [length_utf8Bytes_tempName] at h
  apply decide_eq_true
  refine ⟨?_, fun hmem => (mem_hexEncode hmem).2.1 rfl, fun hmem => (mem_hexEncode hmem).2.2.1 rfl,
    ?_, ?_, by omega⟩
  · intro hnil
    rw [fileName_eq_nil_iff] at hnil
    exact hne hnil
  · exact fun heq => hdot (heq ▸ by decide)
  · exact fun heq => hdot (heq ▸ by decide)

theorem isName_tempName (h : (utf8Bytes (tempName key)).length ≤ limit) :
    isName limit (tempName key) = true := by
  have hmem : ∀ c ∈ tempName key, c ∈ ".tmp".toList ∨ c ∈ fileName key := by
    intro c hc
    rcases List.mem_cons.mp hc with rfl | hc
    · exact .inl (by decide)
    · exact (List.mem_append.mp hc).symm
  have hlong : 2 < (tempName key).length := by
    have htmp : ".tmp".toList.length = 4 := by decide
    rw [tempName, List.length_cons, List.length_append, htmp]
    omega
  apply decide_eq_true
  refine ⟨List.cons_ne_nil _ _, ?_, ?_, ?_, ?_, h⟩
  · intro hslash
    rcases hmem _ hslash with hslash | hslash
    · exact absurd hslash (by decide)
    · exact (mem_hexEncode hslash).2.1 rfl
  · intro hzero
    rcases hmem _ hzero with hzero | hzero
    · exact absurd hzero (by decide)
    · exact (mem_hexEncode hzero).2.2.1 rfl
  · intro heq
    rw [heq] at hlong
    exact absurd hlong (by decide)
  · intro heq
    rw [heq] at hlong
    exact absurd hlong (by decide)

theorem Sound.shows (h : Sound values t) : Shows IsStored t.read t := ⟨h.tidy, fun _ _ => rfl⟩

/-- What changes at a temporary name changes no value. -/
theorem Sound.temp (h : Sound values t)
    (hshows : Shows IsStored (setRead t.read cf (tempName key) (some content)) t') :
    Sound values t' := by
  refine ⟨hshows.tidy, fun cf' key' hne => ?_, h.empty⟩
  rw [hshows.read, setRead, if_neg fun heq => fileName_ne_tempName key' key heq.2]
  exact h.read cf' key' hne

theorem createDir_sound (hcf : isName limit cf = true) (h : Sound values t) :
    ∃ t', createDir (isName limit) cf t = .ok t' ∧ Sound values t' ∧ HasFolder cf t' := by
  obtain ⟨t', hok, hshows, hfolder⟩ := createDir_spec h.shows hcf
  refine ⟨t', hok, ⟨hshows.tidy, fun cf' key' hne => ?_, h.empty⟩, hfolder⟩
  rw [hshows.read]
  exact h.read cf' key' hne

theorem createFile_sound (hname : isName limit (tempName key) = true) (h : Sound values t)
    (hfolder : HasFolder cf t) :
    ∃ t', createFile (isName limit) cf (tempName key) t = .ok t' ∧ Sound values t' ∧
      t'.read cf (tempName key) = some [] := by
  obtain ⟨t', hok, hshows⟩ := createFile_spec h.shows hfolder hname (.inr ⟨key, rfl⟩)
  refine ⟨t', hok, h.temp hshows, ?_⟩
  rw [hshows.read, setRead, if_pos ⟨rfl, rfl⟩]

theorem appendFile_sound (bytes : Bytes) (h : Sound values t)
    (hread : t.read cf (tempName key) = some content) :
    ∃ t', appendFile cf (tempName key) bytes t = .ok t' ∧ Sound values t' ∧
      t'.read cf (tempName key) = some (content ++ bytes) := by
  obtain ⟨t', hok, hshows⟩ := appendFile_spec h.shows hread bytes
  refine ⟨t', hok, h.temp hshows, ?_⟩
  rw [hshows.read, setRead, if_pos ⟨rfl, rfl⟩]

/-- The renamed file is the value of its key. -/
theorem rename_sound (hkey : key ≠ []) (hname : isName limit (fileName key) = true)
    (h : Sound values t) (hread : t.read cf (tempName key) = some content) :
    ∃ t', rename (isName limit) cf (tempName key) (fileName key) t = .ok t' ∧
      Sound (update values (.put cf key content)) t' := by
  obtain ⟨t', hok, hshows⟩ := rename_spec h.shows hread hname (.inl ⟨key, hkey, rfl⟩)
  refine ⟨t', hok, hshows.tidy, fun cf' key' hne => ?_, fun cf' => ?_⟩
  · have hother : setRead t.read cf (tempName key) none cf' (fileName key') = values cf' key' := by
      rw [setRead, if_neg fun heq => fileName_ne_tempName key' key heq.2]
      exact h.read cf' key' hne
    rw [hshows.read, setRead, hother]
    simp only [fileName_inj]
    rfl
  · show (if cf' = cf ∧ [] = key then some content else values cf' []) = none
    rw [if_neg fun heq => hkey heq.2.symm, h.empty]

/-- The key of a removed file has no value, nor has that of a missing one. -/
theorem removeIfThere_sound (hkey : key ≠ []) (hname : isName limit (fileName key) = true)
    (h : Sound values t) :
    ∃ t', removeIfThere limit cf key t = .ok t' ∧ Sound (update values (.delete cf key)) t' := by
  have hempty : ∀ cf', update values (.delete cf key) cf' [] = none := by
    intro cf'
    show (if cf' = cf ∧ [] = key then none else values cf' []) = none
    rw [if_neg fun heq => hkey heq.2.symm, h.empty]
  rw [removeIfThere]
  cases hread : t.read cf (fileName key) with
  | none =>
      -- The store does not hold the key either.
      rw [removeFile_missing h.shows hread hname]
      refine ⟨t, rfl, h.tidy, fun cf' key' hne => ?_, hempty⟩
      rw [h.read cf' key' hne]
      show values cf' key' = if cf' = cf ∧ key' = key then none else values cf' key'
      split
      · rename_i heq
        rw [heq.1, heq.2, ← h.read cf key hkey, hread]
      · rfl
  | some content =>
      obtain ⟨t', hok, hshows⟩ := removeFile_spec h.shows hread hname
      rw [hok]
      refine ⟨t', rfl, hshows.tidy, fun cf' key' hne => ?_, hempty⟩
      rw [hshows.read, setRead, h.read cf' key' hne]
      simp only [fileName_inj]
      rfl

end Sound

/-! ## A crash in an operation -/

section Crash

variable {limit : Nat} {values : Str → Str → Option Bytes} {cf key : Str}

/-- The parts are appended to what the temporary file holds. -/
theorem crashSafe_appends {C : FileTree → Prop} (hC : ∀ t, Sound values t → C t)
    (parts : List Bytes) (content : Bytes) :
    CrashSafe C (fun t => Sound values t ∧ t.read cf (tempName key) = some content)
      (parts.map (appendFile cf (tempName key)))
      (fun t => Sound values t ∧ t.read cf (tempName key) = some (content ++ parts.flatten)) := by
  induction parts generalizing content with
  | nil =>
      apply CrashSafe.nil
      intro t ht
      rw [List.flatten_nil, List.append_nil]
      exact ⟨hC t ht.1, ht⟩
  | cons part parts ih =>
      have hrest := ih (content ++ part)
      rw [List.append_assoc, ← List.flatten_cons] at hrest
      apply CrashSafe.cons ?_ hrest
      intro t ht
      exact ⟨hC t ht.1, appendFile_sound part ht.1 ht.2⟩

/-- An operation writes its value; when a crash cuts it, it has written it or nothing. -/
theorem crashSafe_steps {op : FileOp} (h : op.Named limit) (values : Str → Str → Option Bytes) :
    CrashSafe (fun t => Sound values t ∨ Sound (update values op.write) t) (Sound values)
      (op.steps limit) (Sound (update values op.write)) := by
  have hfile := isName_fileName h.key_ne h.temp
  have htemp := isName_tempName h.temp
  cases op with
  | put cf key parts =>
      -- Up to the rename only the temporary file changes.
      apply CrashSafe.cons (R := fun t => Sound values t ∧ HasFolder cf t)
      · exact fun t ht => ⟨.inl ht, createDir_sound h.family ht⟩
      apply CrashSafe.cons (R := fun t => Sound values t ∧ t.read cf (tempName key) = some [])
      · exact fun t ht => ⟨.inl ht.1, createFile_sound htemp ht.1 ht.2⟩
      apply CrashSafe.append (crashSafe_appends (fun t ht => .inl ht) parts [])
      apply CrashSafe.cons (R := Sound (update values (.put cf key parts.flatten)))
      · exact fun t ht => ⟨.inl ht.1, rename_sound h.key_ne hfile ht.1 ht.2⟩
      · exact CrashSafe.nil fun t ht => ⟨.inr ht, ht⟩
  | delete cf key =>
      apply CrashSafe.cons (R := Sound (update values (.delete cf key)))
      · exact fun t ht => ⟨.inl ht, removeIfThere_sound h.key_ne hfile ht⟩
      · exact CrashSafe.nil fun t ht => ⟨.inr ht, ht⟩

end Crash

/-! ## What is loaded -/

/-- After writes that all leave this value to a key, the key has it if there was one or it had it
before. -/
theorem get_run_of_forall {ws : List Write} {s : MemoryStore} {cf key : Str} {value : Option Bytes}
    (hall : ∀ w ∈ ws, w.cf = cf → w.key = key → w.value = value)
    (hsome : (∃ w ∈ ws, w.cf = cf ∧ w.key = key) ∨ s.get cf key = value) :
    (run Backend.write s ws).get cf key = value := by
  induction ws generalizing s with
  | nil => exact hsome.resolve_left fun ⟨_, hmem, _⟩ => absurd hmem List.not_mem_nil
  | cons w ws ih =>
      obtain ⟨hw, hws⟩ := List.forall_mem_cons.mp hall
      rw [run_cons]
      apply ih hws
      rw [MemoryStore.get_write]
      by_cases hkey : cf = w.cf ∧ key = w.key
      · right
        rw [if_pos hkey]
        exact hw hkey.1.symm hkey.2.symm
      · rw [if_neg hkey]
        rcases hsome with ⟨w', hmem, hcf', hkey'⟩ | hbefore
        · left
          rcases List.mem_cons.mp hmem with rfl | hmem
          · exact absurd ⟨hcf'.symm, hkey'.symm⟩ hkey
          · exact ⟨w', hmem, hcf', hkey'⟩
        · exact .inr hbefore

section Load

variable {readDir : ReadDir} {values : Str → Str → Option Bytes} {t : FileTree}

/-- What is listed is what is there. -/
theorem mem_readDir (h : ∀ (ν : Type) (m : SortedMap Str ν), (readDir ν m).Perm m.entries)
    {ν : Type} {m : SortedMap Str ν} {e : Str × ν} : e ∈ readDir ν m ↔ m.get e.1 = some e.2 := by
  rw [(h ν m).mem_iff]
  exact SortedMap.mem_entries_iff m e.1 e.2

/-- A put is loaded for each file of a key, and nothing else. -/
theorem mem_load (h : ∀ (ν : Type) (m : SortedMap Str ν), (readDir ν m).Perm m.entries)
    (htidy : Tidy IsStored t) {w : Write} :
    w ∈ (readDir Node t).flatMap (loadFamily readDir) ↔
      ∃ cf key content, key ≠ [] ∧ t.read cf (fileName key) = some content ∧
        w = .put cf key content := by
  rw [List.mem_flatMap]
  constructor
  · rintro ⟨⟨cf, node⟩, hfamily, hw⟩
    rw [mem_readDir h] at hfamily
    obtain ⟨entries, rfl, hentries⟩ := htidy cf node hfamily
    obtain ⟨⟨name, leaf⟩, hfile, hload⟩ := List.mem_filterMap.mp hw
    rw [mem_readDir h] at hfile
    obtain ⟨hname, content, rfl⟩ := hentries name leaf hfile
    obtain ⟨key, hdecode, rfl⟩ := Option.map_eq_some_iff.mp hload
    rcases hname with ⟨key', hne, rfl⟩ | ⟨key', rfl⟩
    · rw [hexDecode_fileName] at hdecode
      obtain rfl := Option.some.inj hdecode
      refine ⟨cf, key', content, hne, ?_, rfl⟩
      rw [read_folder hfamily, hfile]
      rfl
    · rw [hexDecode_tempName] at hdecode
      cases hdecode
  · rintro ⟨cf, key, content, -, hread, rfl⟩
    obtain ⟨entries, hfamily⟩ := hasFolder_of_read hread
    refine ⟨(cf, .folder entries), (mem_readDir h).mpr hfamily, List.mem_filterMap.mpr ?_⟩
    refine ⟨(fileName key, .file content), (mem_readDir h).mpr ?_, ?_⟩
    · rw [htidy.leaf hfamily, hread]
      rfl
    · show (hexDecode (fileName key)).map _ = _
      rw [hexDecode_fileName]
      rfl

/-- The store that is opened has the values that the directory holds. -/
theorem get_load (h : ∀ (ν : Type) (m : SortedMap Str ν), (readDir ν m).Perm m.entries)
    (hsound : Sound values t) (cf key : Str) : (load readDir t).get cf key = values cf key := by
  apply get_run_of_forall
  · intro w hw hcf hkey
    obtain ⟨cf', key', content, hne, hread, rfl⟩ := (mem_load h hsound.tidy).mp hw
    obtain rfl : cf' = cf := hcf
    obtain rfl : key' = key := hkey
    rw [← hsound.read cf' key' hne, hread]
    rfl
  · cases hvalue : values cf key with
    | none => exact .inr rfl
    | some content =>
        left
        have hne : key ≠ [] := by
          rintro rfl
          rw [hsound.empty] at hvalue
          cases hvalue
        have hread := hsound.read cf key hne
        rw [hvalue] at hread
        have hload := (mem_load h hsound.tidy).mpr ⟨cf, key, content, hne, hread, rfl⟩
        exact ⟨.put cf key content, hload, rfl, rfl⟩

end Load

/-! ## Lives of a store -/

/-- A store is opened, completes operations, and crashes after some of the steps of another. -/
structure Life where
  completed : List FileOp
  interrupted : FileOp
  count : Nat

/-- The names that the operations of a life use are those of files. -/
structure Life.Named (limit : Nat) (life : Life) : Prop where
  completed : ∀ op ∈ life.completed, op.Named limit
  interrupted : life.interrupted.Named limit

/-- The directory that a life leaves behind. -/
def Life.crash (limit : Nat) (readDir : ReadDir) (life : Life) (root : Root) :
    Except FsError Root := do
  let s ← openStore readDir root
  let s ← runSteps (life.completed.map (FileOp.perform limit)) s
  let t ← runSteps ((life.interrupted.steps limit).take life.count) s.2
  return .folder t

/-- The values after operations: that of the last to a key, or the one before where none was. -/
def valuesAfter (values : Str → Str → Option Bytes) (ops : List FileOp) :
    Str → Str → Option Bytes :=
  ops.foldl (fun values op => update values op.write) values

/-- The directories that lives leave, from none at all, with what the store opened on them holds. -/
inductive Left (limit : Nat) (readDir : ReadDir) : Root → (Str → Str → Option Bytes) → Prop
  | fresh : Left limit readDir .absent fun _ _ => none
  | crash {root left : Root} {values : Str → Str → Option Bytes} {mem : MemoryStore} {t : FileTree}
      (life : Life) (before : Left limit readDir root values) (named : life.Named limit)
      (crashed : life.crash limit readDir root = .ok left)
      (opened : openStore readDir left = .ok (mem, t)) : Left limit readDir left mem.get

/-- What a crash may do to the values: the interrupted operation was done or not, the completed
ones were. -/
structure Recovered (values : Str → Str → Option Bytes) (life : Life) (mem : MemoryStore) :
    Prop where
  interrupted : let w := life.interrupted.write
    mem.get w.cf w.key = valuesAfter values life.completed w.cf w.key ∨ mem.get w.cf w.key = w.value
  others : ∀ cf key, ¬ (cf = life.interrupted.write.cf ∧ key = life.interrupted.write.key) →
    mem.get cf key = valuesAfter values life.completed cf key

section Life

variable {limit : Nat} {readDir : ReadDir} {values : Str → Str → Option Bytes} {t : FileTree}

/-- Completed operations succeed, and the directory holds what they wrote. -/
theorem runSteps_perform {ops : List FileOp} (hops : ∀ op ∈ ops, op.Named limit) (mem : MemoryStore)
    (h : Sound values t) :
    ∃ s, runSteps (ops.map (FileOp.perform limit)) (mem, t) = .ok s ∧
      Sound (valuesAfter values ops) s.2 := by
  induction ops generalizing mem t values with
  | nil => exact ⟨(mem, t), rfl, h⟩
  | cons op ops ih =>
      obtain ⟨hop, hrest⟩ := List.forall_mem_cons.mp hops
      obtain ⟨t', hok, hsound⟩ := (crashSafe_steps hop values).finish t h
      have hperform : op.perform limit (mem, t) = .ok (Backend.write mem op.write, t') := by
        rw [FileOp.perform, hok]
        rfl
      rw [List.map_cons, runSteps, hperform]
      exact ih hrest _ hsound

/-- A life on a sound directory leaves one that is sound, with or without what was interrupted. -/
theorem Life.crash_sound {life : Life} {root : Root} (hlife : life.Named limit)
    (hopen : openStore readDir root = .ok (load readDir t, t)) (h : Sound values t) :
    ∃ t', life.crash limit readDir root = .ok (.folder t') ∧
      (Sound (valuesAfter values life.completed) t' ∨
        Sound (update (valuesAfter values life.completed) life.interrupted.write) t') := by
  obtain ⟨s, hrun, hsound⟩ := runSteps_perform hlife.completed (load readDir t) h
  obtain ⟨t', hcut, hsound'⟩ :=
    (crashSafe_steps hlife.interrupted _).crash s.2 hsound life.count
  refine ⟨t', ?_, hsound'⟩
  rw [Life.crash, hopen, ok_bind, hrun, ok_bind, hcut]
  rfl

/-- The directories that lives leave can be opened, and are sound. -/
theorem Left.sound {root : Root}
    (hread : ∀ (ν : Type) (m : SortedMap Str ν), (readDir ν m).Perm m.entries)
    (h : Left limit readDir root values) :
    ∃ t, openStore readDir root = .ok (load readDir t, t) ∧ Sound values t := by
  induction h with
  | fresh =>
      refine ⟨SortedMap.empty, rfl, fun _ _ hnode => ?_, fun _ _ _ => rfl, fun _ => rfl⟩
      cases hnode
  | crash life before named crashed opened ih =>
      obtain ⟨t, hopen, hsound⟩ := ih
      obtain ⟨t', hcrash, hleft⟩ := life.crash_sound named hopen hsound
      obtain rfl := Except.ok.inj (crashed.symm.trans hcrash)
      obtain ⟨rfl, rfl⟩ := Prod.mk.inj (Except.ok.inj opened)
      refine ⟨t', rfl, ?_⟩
      have hvalues : ∀ {values'}, Sound values' t' → Sound (load readDir t').get t' := by
        intro values' hsound'
        have heq : (load readDir t').get = values' := by
          funext cf key
          exact get_load hread hsound' cf key
        rwa [heq]
      exact hleft.elim hvalues hvalues

/-- Whatever crashes were before, a store that crashed opens with what its completed operations
wrote, and what the interrupted one did or not. -/
theorem open_after_crash
    (hread : ∀ (ν : Type) (m : SortedMap Str ν), (readDir ν m).Perm m.entries) {root : Root}
    (hroot : Left limit readDir root values) {life : Life} (hlife : life.Named limit) :
    ∃ left mem t, life.crash limit readDir root = .ok left ∧
      openStore readDir left = .ok (mem, t) ∧ Recovered values life mem := by
  obtain ⟨t, hopen, hsound⟩ := hroot.sound hread
  obtain ⟨t', hcrash, hleft⟩ := life.crash_sound hlife hopen hsound
  refine ⟨.folder t', load readDir t', t', hcrash, rfl, ?_⟩
  rcases hleft with hsound' | hsound'
  · exact ⟨.inl (get_load hread hsound' _ _), fun cf key _ => get_load hread hsound' cf key⟩
  · constructor
    · right
      rw [get_load hread hsound', update, if_pos ⟨rfl, rfl⟩]
    · intro cf key hne
      rw [get_load hread hsound', update, if_neg hne]

end Life

/-- A crash while a second value of a key is written. -/
def rewrite : Life where
  completed := [.put "events".toList "é".toList [[1], [2]], .delete "events".toList "k".toList]
  interrupted := .put "events".toList "é".toList [[3], [4]]
  count := 4

theorem open_after_crash_rewrite :
    ∃ left mem t, rewrite.crash 255 (fun _ m => m.entries) .absent = .ok left ∧
      openStore (fun _ m => m.entries) left = .ok (mem, t) ∧
      Recovered (fun _ _ => none) rewrite mem := by
  have hnamed : rewrite.Named 255 := by
    constructor
    · simp only [rewrite, List.forall_mem_cons]
      exact ⟨⟨by decide, by decide, by decide⟩, ⟨by decide, by decide, by decide⟩, nofun⟩
    · exact ⟨by decide, by decide, by decide⟩
  exact open_after_crash (fun _ _ => List.Perm.refl _) Left.fresh hnamed

example : ((rewrite.crash 255 (fun _ m => m.entries) .absent).toOption.bind fun left =>
    (openStore (fun _ m => m.entries) left).toOption).map
      (fun s => (s.1.scan "events".toList, s.2.read "events".toList (tempName "é".toList))) =
    some ([("é".toList, [1, 2])], some [3, 4]) := by
  decide +kernel

end FileStore

end GaussMatrix
