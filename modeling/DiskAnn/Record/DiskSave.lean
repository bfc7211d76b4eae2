import Mathlib

/-! # Saving a record to disk

The disk-backed save context of `disk.rs`. A save creates artifacts under names of its own and then
writes the manifest to a temporary file which it renames into place; the destructor of a context that
was not committed removes the artifacts by their recorded names, and the temporary file. Every call
may fail at the operating system (`fault`), and the value that is saved may give up at any time. The
destructor's removals succeed. The contents of the manifest are given, as the bytes that the
serializer wrote before it ended or failed.
-/

namespace DiskAnn.Record

open List

/-! ## Files -/

/-- The files and directories there are, by their paths. -/
@[ext]
structure FileSystem where
  file : String → Option (List UInt8)
  isDir : String → Bool
  file_of_isDir : ∀ path, isDir path = true → file path = none

namespace FileSystem

variable (fs : FileSystem)

def pathExists (path : String) : Bool := (fs.file path).isSome || fs.isDir path

/-- The file at the path, if any, replaced by `content`; directories stay. -/
def put (path : String) (content : Option (List UInt8)) : FileSystem where
  file other := if other = path ∧ fs.isDir path = false then content else fs.file other
  isDir := fs.isDir
  file_of_isDir other dir := by
    split_ifs with same
    · rw [same.1, same.2] at dir
      cases dir
    · exact fs.file_of_isDir other dir

/-- `remove_file` -/
def remove (path : String) : FileSystem := fs.put path none

variable {fs}

theorem put_file_of_ne {path other : String} (content : Option (List UInt8)) (ne : other ≠ path) :
    (fs.put path content).file other = fs.file other := if_neg fun same => ne same.1

theorem put_file_self {path : String} (content : Option (List UInt8))
    (free : fs.isDir path = false) : (fs.put path content).file path = content :=
  if_pos ⟨rfl, free⟩

theorem remove_file (path : String) : (fs.remove path).file path = none := by
  cases dir : fs.isDir path with
  | true => exact (fs.remove path).file_of_isDir path dir
  | false => exact put_file_self none dir

theorem remove_eq_self_iff {path : String} : fs.remove path = fs ↔ fs.file path = none := by
  constructor
  · intro same
    rw [← same]
    exact remove_file path
  · intro absent
    ext other : 2
    · by_cases here : other = path
      · rw [here, remove_file, absent]
      · exact put_file_of_ne none here
    · rfl

theorem pathExists_eq_false_iff {path : String} :
    fs.pathExists path = false ↔ fs.file path = none ∧ fs.isDir path = false := by
  simp [pathExists]

end FileSystem

inductive IoError where
  | alreadyExists
  | other
  deriving DecidableEq, Repr

/-- What stands behind the last separator of a path. -/
def lastSegment (path : String) : String := String.ofList (path.toList.rtakeWhile (· ≠ '/'))

/-- A path that ends in a separator, a dot or two dots can only stand for a directory. -/
def namesFile (path : String) : Bool := lastSegment path ∉ ["", ".", ".."]

variable (fs : FileSystem)

/-- `File::create_new` -/
def createNew (path : String) (fault : Bool) : Except IoError FileSystem :=
  if fs.pathExists path then .error .alreadyExists
  else if fault || !namesFile path then .error .other
  else .ok (fs.put path (some []))

/-- `fs::rename` of a file -/
def rename (source target : String) (fault : Bool) : Except IoError FileSystem :=
  if fault || fs.isDir target || (fs.file source).isNone then .error .other
  else .ok ((fs.remove source).put target (fs.file source))

/-! ## Paths -/

inductive Component where
  | rootDir
  | curDir
  | parentDir
  | normal (name : String)
  deriving DecidableEq, Repr

/-- What the part of a path at an index stands for: separators in a row count once, and a dot counts at
the front only. -/
def component (path : String) (part : List Char) (index : ℕ) : Option Component :=
  if part = [] then (if index = 0 ∧ path ≠ "" then some .rootDir else none)
  else if part = ['.'] then (if index = 0 then some .curDir else none)
  else if part = ['.', '.'] then some .parentDir
  else some (.normal (String.ofList part))

/-- `Path::components` -/
def components (path : String) : List Component :=
  (path.toList.splitOn '/').zipIdx.filterMap fun entry => component path entry.1 entry.2

def isSimple (key : String) : Bool :=
  match components key with
  | [.normal _] => true
  | _ => false

/-- `Path::join` of a relative path -/
def join (dir name : String) : String :=
  if dir = "" ∨ dir.toList.getLast? = some '/' then dir ++ name else dir ++ "/" ++ name

/-! ## The context -/

inductive SaveError where
  | notADirectory (dir : String)
  | collision (name : String)
  | fileExists (path : String)
  | createFailed (path : String)
  | flushFailed
  | neverFinished (name : String)
  | tempExists (path : String)
  | createTempFailed (path : String)
  | serializeFailed
  | renameFailed (temp metadata : String)
  | givenUp
  deriving DecidableEq, Repr

/-- `files` has the artifacts registered so far, with whether their writer has finished. -/
structure DiskSaveContext where
  dir : String
  metadata : String
  files : List (String × Bool)
  committed : Bool
  deriving DecidableEq, Repr

namespace DiskSaveContext

def new (fs : FileSystem) (dir metadata : String) : Except SaveError DiskSaveContext :=
  if fs.isDir dir then .ok ⟨dir, metadata, [], false⟩ else .error (.notADirectory dir)

variable (ctx : DiskSaveContext) (fs : FileSystem)

def tempMetadata : String := ctx.metadata ++ ".temp"

def names : List String := ctx.files.map Prod.fst

/-- `{:03}` -/
def pad3 (n : ℕ) : String :=
  String.ofList (replicate (3 - (n.repr).length) '0') ++ n.repr

/-- The name of the next artifact. -/
def nextName (key : Option String) : String :=
  match key.filter isSimple with
  | some key => pad3 ctx.files.length ++ "-" ++ key
  | none => pad3 ctx.files.length

/-- `files.insert(name, finished)` -/
def register (name : String) (finished : Bool) : DiskSaveContext :=
  { ctx with
    files := if name ∈ ctx.names then
        ctx.files.map fun entry => if entry.1 = name then (name, finished) else entry
      else ctx.files ++ [(name, finished)] }

/-- `write`: the name of the artifact it hands out a writer for. -/
def write (key : Option String) (fault : Bool) :
    Except SaveError String × DiskSaveContext × FileSystem :=
  let name := ctx.nextName key
  if name ∈ ctx.names then (.error (.collision name), ctx, fs)
  else
    let full := join ctx.dir name
    if fs.pathExists full then (.error (.fileExists full), ctx, fs)
    else
      match createNew fs full fault with
      | .error _ => (.error (.createFailed full), ctx, fs)
      | .ok fs => (.ok name, ctx.register name false, fs)

/-- The destructor. -/
def drop : FileSystem :=
  if ctx.committed then fs
  else (ctx.names.foldl (fun fs name => fs.remove (join ctx.dir name)) fs).remove ctx.tempMetadata

/-- How the serializer ends, and what it has written by then. -/
inductive Serialized where
  | done (bytes : List UInt8)
  | failed (bytes : List UInt8)
  deriving DecidableEq, Repr

def Serialized.bytes : Serialized → List UInt8
  | .done bytes | .failed bytes => bytes

/-- The body of `finish`. -/
def commit (createFault : Bool) (manifest : Serialized) (renameFault : Bool) :
    Except SaveError Unit × DiskSaveContext × FileSystem :=
  match ctx.files.find? fun entry => !entry.2 with
  | some (name, _) => (.error (.neverFinished name), ctx, fs)
  | none =>
      match createNew fs ctx.tempMetadata createFault with
      | .error .alreadyExists => (.error (.tempExists ctx.tempMetadata), ctx, fs)
      | .error .other => (.error (.createTempFailed ctx.tempMetadata), ctx, fs)
      | .ok fs =>
          let fs := fs.put ctx.tempMetadata (some manifest.bytes)
          match manifest with
          | .failed _ => (.error .serializeFailed, ctx, fs)
          | .done _ =>
              match rename fs ctx.tempMetadata ctx.metadata renameFault with
              | .error _ => (.error (.renameFailed ctx.tempMetadata ctx.metadata), ctx, fs)
              | .ok fs => (.ok (), { ctx with committed := true }, fs)

/-- `finish`, which drops the context it is given. -/
def finish (createFault : Bool) (manifest : Serialized) (renameFault : Bool) :
    Except SaveError Unit × FileSystem :=
  let (result, ctx, fs) := ctx.commit fs createFault manifest renameFault
  (result, ctx.drop fs)

end DiskSaveContext

/-! ## A save -/

/-- What a value does while it is saved. A writer is known by the name of its artifact. -/
inductive Call where
  | write (key : Option String) (fault : Bool)
  /-- The file of the artifact gets this content, by writes that may have failed. -/
  | put (name : String) (content : List UInt8)
  | finishWriter (name : String) (fault : Bool)
  deriving DecidableEq, Repr

def Call.apply (state : DiskSaveContext × FileSystem) : Call → DiskSaveContext × FileSystem
  | .write key fault => (state.1.write state.2 key fault).2
  | .put name content =>
      if (name, false) ∈ state.1.files then
        (state.1, state.2.put (join state.1.dir name) (some content))
      else state
  | .finishWriter name fault =>
      if (name, false) ∈ state.1.files ∧ fault = false then (state.1.register name true, state.2)
      else state

/-- How a save ends: the value gives up, or the context is finished. -/
inductive Ending where
  | giveUp
  | finish (createFault : Bool) (manifest : DiskSaveContext.Serialized) (renameFault : Bool)
  deriving DecidableEq, Repr

/-- `save_to_disk` for a value that makes these calls, whatever they answer. -/
def saveToDisk (dir metadata : String) (calls : List Call) (ending : Ending) :
    Except SaveError Unit × FileSystem :=
  match DiskSaveContext.new fs dir metadata with
  | .error error => (.error error, fs)
  | .ok ctx =>
      let (ctx, fs) := calls.foldl Call.apply (ctx, fs)
      match ending with
      | .giveUp => (.error .givenUp, ctx.drop fs)
      | .finish createFault manifest renameFault => ctx.finish fs createFault manifest renameFault

open DiskSaveContext

/-- A call leaves the paths of the context alone. -/
theorem Call.apply_paths (state : DiskSaveContext × FileSystem) (call : Call) :
    (call.apply state).1.dir = state.1.dir ∧ (call.apply state).1.metadata = state.1.metadata := by
  cases call with
  | write key fault =>
    simp only [Call.apply, DiskSaveContext.write]
    split_ifs
    · exact ⟨rfl, rfl⟩
    · exact ⟨rfl, rfl⟩
    · cases createNew state.2 (join state.1.dir (state.1.nextName key)) fault <;> exact ⟨rfl, rfl⟩
  | put name content =>
    simp only [Call.apply]
    split_ifs <;> exact ⟨rfl, rfl⟩
  | finishWriter name fault =>
    simp only [Call.apply]
    split_ifs <;> exact ⟨rfl, rfl⟩

theorem Call.foldl_paths (state : DiskSaveContext × FileSystem) (calls : List Call) :
    (calls.foldl Call.apply state).1.dir = state.1.dir ∧
      (calls.foldl Call.apply state).1.metadata = state.1.metadata := by
  induction calls generalizing state with
  | nil => exact ⟨rfl, rfl⟩
  | cons call calls ih =>
    obtain ⟨dir, metadata⟩ := ih (call.apply state)
    obtain ⟨dir', metadata'⟩ := call.apply_paths state
    exact ⟨dir.trans dir', metadata.trans metadata'⟩

/-! ## Ownership -/

/-- What a save has done to the files `fs₀` it has met: it has added the artifacts registered in its
context, where there was nothing, and nothing else. -/
structure Owned (fs₀ : FileSystem) (ctx : DiskSaveContext) (fs : FileSystem) : Prop where
  uncommitted : ctx.committed = false
  dirs : fs.isDir = fs₀.isDir
  fresh : ∀ name ∈ ctx.names, fs₀.pathExists (join ctx.dir name) = false
  there : ∀ name ∈ ctx.names, (fs.file (join ctx.dir name)).isSome = true
  others : ∀ path, (∀ name ∈ ctx.names, join ctx.dir name ≠ path) → fs.file path = fs₀.file path

namespace Owned

variable {fs₀ fs : FileSystem} {ctx : DiskSaveContext}

theorem names_register_of_mem {name : String} (known : name ∈ ctx.names) (finished : Bool) :
    (ctx.register name finished).names = ctx.names := by
  unfold register names at *
  rw [if_pos known, map_map]
  refine map_congr_left fun entry _ => ?_
  by_cases here : entry.1 = name
  · simp [here]
  · simp [here]

theorem names_register_of_notMem {name : String} (new : name ∉ ctx.names) (finished : Bool) :
    (ctx.register name finished).names = ctx.names ++ [name] := by
  unfold register names at *
  rw [if_neg new, map_append]
  rfl

theorem createNew_ok {path : String} {fault : Bool} {fs' : FileSystem}
    (created : createNew fs path fault = .ok fs') :
    fs.pathExists path = false ∧ namesFile path = true ∧ fs' = fs.put path (some []) := by
  unfold createNew at created
  split_ifs at created with occupied refused
  have named : namesFile path = true := by
    rw [Bool.or_eq_true, not_or, Bool.not_eq_true'] at refused
    exact Bool.not_eq_false _ ▸ refused.2
  exact ⟨Bool.not_eq_true _ ▸ occupied, named, (Except.ok.inj created).symm⟩

variable (owned : Owned fs₀ ctx fs)
include owned

open FileSystem

/-- A new artifact is created where there was nothing. -/
theorem register {name : String} (new : name ∉ ctx.names)
    (free : fs.pathExists (join ctx.dir name) = false) :
    Owned fs₀ (ctx.register name false) (fs.put (join ctx.dir name) (some [])) := by
  obtain ⟨absent, noDir⟩ := pathExists_eq_false_iff.mp free
  have foreign : ∀ other ∈ ctx.names, join ctx.dir other ≠ join ctx.dir name := by
    intro other known same
    have there := owned.there other known
    rw [same, absent] at there
    cases there
  have names := names_register_of_notMem new false
  refine ⟨owned.uncommitted, owned.dirs, ?_, ?_, ?_⟩
  · rw [names, forall_mem_append, forall_mem_singleton]
    refine ⟨owned.fresh, pathExists_eq_false_iff.mpr ⟨?_, ?_⟩⟩
    · exact (owned.others _ foreign).symm.trans absent
    · exact owned.dirs ▸ noDir
  · rw [names, forall_mem_append, forall_mem_singleton]
    refine ⟨fun other known => ?_, ?_⟩
    · exact (congrArg Option.isSome (put_file_of_ne _ (foreign other known))).trans
        (owned.there other known)
    · exact congrArg Option.isSome (put_file_self _ noDir)
  · rw [names]
    intro path outside
    rw [forall_mem_append, forall_mem_singleton] at outside
    exact (put_file_of_ne _ (outside.2.symm)).trans (owned.others path outside.1)

theorem call (call : Call) :
    Owned fs₀ (call.apply (ctx, fs)).1 (call.apply (ctx, fs)).2 := by
  cases call with
  | write key fault =>
    simp only [Call.apply, write]
    split_ifs with known occupied
    · exact owned
    · exact owned
    · cases created : createNew fs (join ctx.dir (ctx.nextName key)) fault with
      | error _ => exact owned
      | ok fs' =>
        obtain ⟨free, -, rfl⟩ := createNew_ok created
        exact owned.register known free
  | put name content =>
    simp only [Call.apply]
    split_ifs with registered
    · have known : name ∈ ctx.names := mem_map_of_mem registered
      have noDir : fs.isDir (join ctx.dir name) = false := by
        rw [owned.dirs]
        exact (pathExists_eq_false_iff.mp (owned.fresh name known)).2
      refine ⟨owned.uncommitted, owned.dirs, owned.fresh, fun other mem => ?_,
        fun path outside => ?_⟩
      · by_cases here : join ctx.dir other = join ctx.dir name
        · exact here ▸ congrArg Option.isSome (put_file_self _ noDir)
        · exact (congrArg Option.isSome (put_file_of_ne _ here)).trans
            (owned.there other mem)
      · exact (put_file_of_ne _ (outside name known).symm).trans (owned.others path outside)
    · exact owned
  | finishWriter name fault =>
    simp only [Call.apply]
    split_ifs with registered
    · have known : name ∈ ctx.names := mem_map_of_mem registered.1
      have names := names_register_of_mem known true
      exact ⟨owned.uncommitted, owned.dirs, names ▸ owned.fresh, names ▸ owned.there,
        names ▸ owned.others⟩
    · exact owned

/-- The destructor takes everything back, and the temporary file with it. -/
theorem drop {fs' : FileSystem} (dirs : fs'.isDir = fs.isDir)
    (same : ∀ path, path ≠ ctx.tempMetadata → fs'.file path = fs.file path) :
    ctx.drop fs' = fs₀.remove ctx.tempMetadata := by
  have removed : ∀ (names : List String) (fs : FileSystem),
      (names.foldl (fun fs name => fs.remove (join ctx.dir name)) fs).isDir = fs.isDir ∧
      (∀ path, fs.file path = none ∨ (∃ name ∈ names, join ctx.dir name = path) →
        (names.foldl (fun fs name => fs.remove (join ctx.dir name)) fs).file path = none) ∧
      ∀ path, (∀ name ∈ names, join ctx.dir name ≠ path) →
        (names.foldl (fun fs name => fs.remove (join ctx.dir name)) fs).file path = fs.file path := by
    intro names
    induction names with
    | nil => exact fun fs => ⟨rfl, fun path gone => gone.elim id (by simp), fun _ _ => rfl⟩
    | cons name names ih =>
      intro fs
      obtain ⟨dirs, gone, kept⟩ := ih (fs.remove (join ctx.dir name))
      refine ⟨dirs, fun path absent => gone path ?_, fun path outside => ?_⟩
      · by_cases here : path = join ctx.dir name
        · exact .inl (here ▸ remove_file _)
        · refine absent.imp (fun absent => (put_file_of_ne none here).trans absent) ?_
          rintro ⟨other, mem, rfl⟩
          rcases mem_cons.mp mem with rfl | mem
          · exact absurd rfl here
          · exact ⟨other, mem, rfl⟩
      · rw [forall_mem_cons] at outside
        exact (kept path outside.2).trans (put_file_of_ne none (Ne.symm outside.1))
  obtain ⟨dirs', gone, kept⟩ := removed ctx.names fs'
  unfold DiskSaveContext.drop
  rw [if_neg (by simp [owned.uncommitted])]
  ext path : 2
  · by_cases temp : path = ctx.tempMetadata
    · rw [temp, remove_file, remove_file]
    · refine (put_file_of_ne none temp).trans
        (Eq.trans ?_ (put_file_of_ne none temp).symm)
      by_cases mine : ∃ name ∈ ctx.names, join ctx.dir name = path
      · rw [gone path (.inr mine)]
        obtain ⟨name, known, rfl⟩ := mine
        exact (pathExists_eq_false_iff.mp (owned.fresh name known)).1.symm
      · push Not at mine
        rw [kept path mine, same path temp, owned.others path mine]
  · exact congrFun (dirs'.trans (dirs.trans owned.dirs)) path

omit owned in
/-- Until the manifest is in its place, only the temporary file has changed. -/
theorem commit_of_failed {createFault renameFault : Bool}
    {manifest : Serialized} {error : SaveError}
    (failed : (ctx.commit fs createFault manifest renameFault).1 = .error error) :
    (ctx.commit fs createFault manifest renameFault).2.1 = ctx ∧
      (ctx.commit fs createFault manifest renameFault).2.2.isDir = fs.isDir ∧
      ∀ path, path ≠ ctx.tempMetadata →
        (ctx.commit fs createFault manifest renameFault).2.2.file path = fs.file path := by
  unfold commit at failed ⊢
  cases pending : ctx.files.find? fun entry => !entry.2 with
  | some entry => exact ⟨rfl, rfl, fun _ _ => rfl⟩
  | none =>
    rw [pending] at failed
    cases created : createNew fs ctx.tempMetadata createFault with
    | error error =>
      cases error <;> exact ⟨rfl, rfl, fun _ _ => rfl⟩
    | ok fs' =>
      obtain ⟨-, -, rfl⟩ := createNew_ok created
      have written : ∀ path, path ≠ ctx.tempMetadata →
          ((fs.put ctx.tempMetadata (some [])).put ctx.tempMetadata (some manifest.bytes)).file path =
            fs.file path := fun path other =>
        (put_file_of_ne _ other).trans (put_file_of_ne _ other)
      rw [created] at failed
      cases manifest with
      | failed bytes => exact ⟨rfl, rfl, written⟩
      | done bytes =>
        simp only at failed ⊢
        cases renamed : rename ((fs.put ctx.tempMetadata (some [])).put ctx.tempMetadata
          (some (Serialized.done bytes).bytes)) ctx.tempMetadata ctx.metadata
          renameFault with
        | error error => exact ⟨rfl, rfl, written⟩
        | ok fs' =>
          rw [renamed] at failed
          cases failed

theorem calls (calls : List Call) :
    Owned fs₀ (calls.foldl Call.apply (ctx, fs)).1 (calls.foldl Call.apply (ctx, fs)).2 := by
  induction calls generalizing ctx fs with
  | nil => exact owned
  | cons call calls ih => exact ih (owned.call call)

omit owned

theorem begun (fs : FileSystem) (dir metadata : String) : Owned fs ⟨dir, metadata, [], false⟩ fs :=
  ⟨rfl, rfl, forall_mem_nil _, forall_mem_nil _, fun _ _ => rfl⟩

end Owned

/-- A save that fails has removed the temporary file, whoever created it, and changed nothing else. -/
theorem saveToDisk_of_failed {fs : FileSystem} {dir metadata : String} (there : fs.isDir dir = true)
    {calls : List Call} {ending : Ending} {error : SaveError}
    (failed : (saveToDisk fs dir metadata calls ending).1 = .error error) :
    (saveToDisk fs dir metadata calls ending).2 = fs.remove (metadata ++ ".temp") := by
  have owned := (Owned.begun fs dir metadata).calls calls
  have temp : (calls.foldl Call.apply (⟨dir, metadata, [], false⟩, fs)).1.tempMetadata =
      metadata ++ ".temp" := congrArg (· ++ ".temp") (Call.foldl_paths _ calls).2
  unfold saveToDisk new at failed ⊢
  rw [if_pos there] at failed ⊢
  rw [← temp]
  cases ending with
  | giveUp => exact owned.drop rfl fun _ _ => rfl
  | finish createFault manifest renameFault =>
    obtain ⟨same, dirs, others⟩ := Owned.commit_of_failed failed
    refine Eq.trans ?_ (owned.drop dirs others)
    exact congrArg (fun ctx => DiskSaveContext.drop ctx _) same

/-- A failed save leaves all files as they were just in case there was no temporary file. -/
theorem failed_save_restores_iff {fs : FileSystem} {dir metadata : String}
    (there : fs.isDir dir = true) {calls : List Call} {ending : Ending} {error : SaveError}
    (failed : (saveToDisk fs dir metadata calls ending).1 = .error error) :
    (saveToDisk fs dir metadata calls ending).2 = fs ↔ fs.file (metadata ++ ".temp") = none := by
  rw [saveToDisk_of_failed there failed]
  exact FileSystem.remove_eq_self_iff

/-- A directory with a manifest, and at most a temporary file besides. -/
def withManifest (temp : Option (List UInt8)) : FileSystem where
  file path :=
    if path = "d/m" then some [1] else if path = "d/m.temp" then temp else none
  isDir path := path == "d"
  file_of_isDir path dir := by
    obtain rfl : path = "d" := by simpa using dir
    rfl

/-- An artifact is created and finished, and the rename fails. -/
theorem failed_save_restores_rename :
    (saveToDisk (withManifest none) "d" "d/m" [.write none false, .put "000" [7],
        .finishWriter "000" false] (.finish false (.done [2]) true)).1 =
          .error (.renameFailed "d/m.temp" "d/m") ∧
      (saveToDisk (withManifest none) "d" "d/m" [.write none false, .put "000" [7],
        .finishWriter "000" false] (.finish false (.done [2]) true)).2 = withManifest none := by
  have failed : (saveToDisk (withManifest none) "d" "d/m" [.write none false, .put "000" [7],
      .finishWriter "000" false] (.finish false (.done [2]) true)).1 =
        .error (.renameFailed "d/m.temp" "d/m") := by decide
  exact ⟨failed, (failed_save_restores_iff rfl failed).mpr rfl⟩

/-- Another save is in progress: this one finds its temporary file and removes it. -/
theorem failed_save_removes_temp :
    (saveToDisk (withManifest (some [3])) "d" "d/m" [] (.finish false (.done [2]) false)).1 =
        .error (.tempExists "d/m.temp") ∧
      (withManifest (some [3])).file "d/m.temp" = some [3] ∧
      (saveToDisk (withManifest (some [3])) "d" "d/m" [] (.finish false (.done [2]) false)).2.file
        "d/m.temp" = none := by
  refine ⟨?_, ?_, ?_⟩ <;> decide

end DiskAnn.Record
