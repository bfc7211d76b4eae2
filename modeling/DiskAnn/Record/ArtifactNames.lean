import DiskAnn.Record.DiskSave

/-! # The names of artifacts

A save context names an artifact by the number of artifacts before it, and appends the hint it is given
if that is a path of one component. Whatever the hints, the names are distinct and none has a separator:
a hint such as `a/` is one component, but there is no file of that name to create. So an artifact is
always a new file of the directory, and a load finds it under its name.
-/

namespace DiskAnn.Record

open List DiskSaveContext FileSystem

variable {path : String} {ctx : DiskSaveContext} {fs : FileSystem}

/-! ## Loading -/

inductive LoadError where
  | escapes (key : String)
  | notRegistered (key : String)
  | openFailed (path : String)
  deriving DecidableEq, Repr

/-- `files` has the names that the manifest lists. -/
structure DiskLoadContext where
  dir : String
  files : List String
  deriving DecidableEq, Repr

/-- `read`: the contents of an artifact. Paths are equal if their components are. -/
def DiskLoadContext.read (ctx : DiskLoadContext) (fs : FileSystem) (key : String) :
    Except LoadError (List UInt8) :=
  if !isSimple key then .error (.escapes key)
  else if !ctx.files.any fun file => components file = components key then .error (.notRegistered key)
  else
    match fs.file (join ctx.dir key) with
    | none => .error (.openFailed (join ctx.dir key))
    | some content => .ok content

/-! ## Components -/

/-- A name of one component: no separator, and not a name for a directory. -/
structure Plain (name : String) : Prop where
  slash : '/' ∉ name.toList
  named : name ∉ ["", ".", ".."]

theorem Plain.components {name : String} (plain : Plain name) : components name = [.normal name] := by
  have named := plain.named
  simp only [mem_cons, not_mem_nil, or_false, not_or] at named
  have empty : name.toList ≠ [] := fun same => named.1 (String.toList_injective same)
  have dot : name.toList ≠ ['.'] := fun same => named.2.1 (String.toList_injective same)
  have dots : name.toList ≠ ['.', '.'] := fun same => named.2.2 (String.toList_injective same)
  rw [Record.components, splitOn_eq_singleton plain.slash]
  simp [component, empty, dot, dots]

theorem Plain.isSimple {name : String} (plain : Plain name) : isSimple name = true := by
  rw [Record.isSimple, plain.components]

theorem lastSegment_append {front back : String} {before after : List Char}
    (split : back.toList = before ++ '/' :: after) (last : '/' ∉ after) :
    lastSegment (front ++ back) = String.ofList after := by
  have all : ∀ c ∈ after.reverse, decide (c ≠ '/') = true := fun c mem =>
    decide_eq_true fun same => last (same ▸ mem_reverse.mp mem)
  rw [lastSegment, String.toList_append, split, List.rtakeWhile]
  simp only [reverse_append, reverse_cons, append_assoc]
  rw [takeWhile_append_of_pos all]
  simp

theorem join_eq (dir : String) : ∃ front, ∀ name, join dir name = front ++ name := by
  by_cases closed : dir = "" ∨ dir.toList.getLast? = some '/'
  · exact ⟨dir, fun name => if_pos closed⟩
  · exact ⟨dir ++ "/", fun name => if_neg closed⟩

theorem component_front (nonempty : path ≠ "") (part : List Char) :
    ∃ component', component path part 0 = some component' := by
  unfold component
  split_ifs <;> simp_all

theorem component_back (path : String) {part : List Char} (index : ℕ)
    (named : String.ofList part ∉ ["", ".", ".."]) : ∃ component', component path part index = some component' := by
  have empty : part ≠ [] := by
    rintro rfl
    exact named (by decide)
  have dot : part ≠ ['.'] := by
    rintro rfl
    exact named (by decide)
  rw [component, if_neg empty, if_neg dot]
  split_ifs
  · exact ⟨_, rfl⟩
  · exact ⟨_, rfl⟩

theorem length_components_of_isSimple {key : String} (simple : isSimple key = true) :
    (components key).length = 1 := by
  unfold isSimple at simple
  split at simple
  · rename_i one
    rw [one]
    rfl
  · cases simple

/-- A hint of one component that has a separator ends like a directory. -/
theorem namesFile_of_slash {front key : String} (simple : isSimple key = true) (slash : '/' ∈ key.toList) :
    namesFile (front ++ key) = false := by
  obtain ⟨after, before, reversed, last⟩ := eq_append_cons_of_mem (mem_reverse.mpr slash)
  have split : key.toList = before.reverse ++ '/' :: after.reverse := by
    rw [← reverse_reverse key.toList, reversed]
    simp
  have last : '/' ∉ after.reverse := fun mem => last (mem_reverse.mp mem)
  have nonempty : key ≠ "" := by
    rintro rfl
    cases slash
  rw [namesFile, lastSegment_append split last, decide_eq_false_iff_not]
  by_contra named
  -- the first part is a component, and the last one would be another
  obtain ⟨first, parts, whole⟩ := exists_cons_of_ne_nil (splitOn_ne_nil '/' before.reverse)
  obtain ⟨front, atFront⟩ := component_front nonempty first
  obtain ⟨back, atBack⟩ := component_back key (parts.length + 1) named
  have two : components key = front :: (parts.zipIdx 1).filterMap
      (fun entry => component key entry.1 entry.2) ++ [back] := by
    rw [components, split, splitOn_append_cons_self, whole, splitOn_eq_singleton last,
      zipIdx_append]
    simp [atFront, atBack]
  have one := length_components_of_isSimple simple
  rw [two, length_append, length_cons, length_singleton] at one
  omega

/-! ## Names -/

/-- The number that a name starts with. -/
def serial (name : String) : ℕ := Nat.ofDigitChars 10 (name.toList.takeWhile Char.isDigit) 0

namespace DiskSaveContext

theorem toList_pad3 (n : ℕ) : (pad3 n).toList =
    replicate (3 - (n.repr).length) '0' ++ Nat.toDigits 10 n := by
  rw [pad3, String.toList_append, String.toList_ofList, Nat.repr_eq_ofList_toDigits, String.toList_ofList]

theorem isDigit_of_mem_pad3 {n : ℕ} {c : Char} (mem : c ∈ (pad3 n).toList) : c.isDigit = true := by
  rw [toList_pad3, mem_append] at mem
  obtain zero | digit := mem
  · rw [eq_of_mem_replicate zero]
    rfl
  · exact Nat.isDigit_of_mem_toDigits (by decide) (by decide) digit

theorem ofDigitChars_pad3 (n : ℕ) : Nat.ofDigitChars 10 (pad3 n).toList 0 = n := by
  rw [toList_pad3, Nat.ofDigitChars_append]
  simp

variable {ctx : DiskSaveContext} {fs : FileSystem}

/-- A name is the number of artifacts, and a hint behind it. -/
theorem nextName_cases (ctx : DiskSaveContext) (key : Option String) :
    ctx.nextName key = pad3 ctx.files.length ∨
      ∃ hint, isSimple hint = true ∧ ctx.nextName key = pad3 ctx.files.length ++ "-" ++ hint := by
  unfold nextName
  cases kept : key.filter isSimple with
  | none => exact .inl rfl
  | some hint => exact .inr ⟨hint, (Option.filter_eq_some_iff.mp kept).2, rfl⟩

theorem serial_nextName (ctx : DiskSaveContext) (key : Option String) :
    serial (ctx.nextName key) = ctx.files.length := by
  have digits := ofDigitChars_pad3 ctx.files.length
  obtain same | ⟨hint, -, same⟩ := ctx.nextName_cases key
  · rw [serial, same, takeWhile_eq_self_iff.mpr fun c => isDigit_of_mem_pad3, digits]
  · rw [serial, same, String.toList_append, String.toList_append, append_assoc,
      takeWhile_append_of_pos fun c => isDigit_of_mem_pad3]
    simpa using digits

/-- A name under which a file can be created has no separator. -/
theorem plain_nextName {key : Option String} {dir : String}
    (named : namesFile (join dir (ctx.nextName key)) = true) : Plain (ctx.nextName key) := by
  have digit (c : Char) (mem : c ∈ (pad3 ctx.files.length).toList) : c ≠ '/' ∧ c ≠ '.' := by
    have := isDigit_of_mem_pad3 mem
    constructor <;> rintro rfl <;> cases this
  obtain ⟨first, rest, starts⟩ : ∃ first rest, (pad3 ctx.files.length).toList = first :: rest := by
    refine exists_cons_of_ne_nil ?_
    rw [toList_pad3]
    exact append_ne_nil_of_right_ne_nil _ (Nat.toDigits_ne_nil)
  have front := digit first (starts ▸ mem_cons_self)
  have slash : '/' ∉ (ctx.nextName key).toList := by
    obtain same | ⟨hint, simple, same⟩ := ctx.nextName_cases key
    · rw [same]
      exact fun mem => (digit _ mem).1 rfl
    · have inside : '/' ∉ hint.toList := fun mem => by
        obtain ⟨before, joined⟩ := join_eq dir
        rw [same, joined, ← String.append_assoc, namesFile_of_slash simple mem] at named
        cases named
      rw [same, String.toList_append, String.toList_append, mem_append, mem_append]
      rintro ((padding | dash) | mem)
      · exact (digit _ padding).1 rfl
      · revert dash
        decide
      · exact inside mem
  refine ⟨slash, fun special => ?_⟩
  obtain ⟨later, whole⟩ : ∃ later, (ctx.nextName key).toList = first :: later := by
    obtain same | ⟨hint, -, same⟩ := ctx.nextName_cases key
    · exact ⟨rest, same ▸ starts⟩
    · exact ⟨rest ++ "-".toList ++ hint.toList, by
        rw [same, String.toList_append, String.toList_append, starts]
        rfl⟩
  simp only [mem_cons, not_mem_nil, or_false] at special
  obtain same | same | same := special
  · rw [same] at whole
    cases whole
  · rw [same] at whole
    exact front.2 (cons.inj whole).1.symm
  · rw [same] at whole
    exact front.2 (cons.inj whole).1.symm

end DiskSaveContext

/-- The artifacts are numbered in turn, under names of one component. -/
structure Numbered (ctx : DiskSaveContext) : Prop where
  serials : ctx.names.map serial = range ctx.names.length
  plain : ∀ name ∈ ctx.names, Plain name

theorem Numbered.call (numbered : Numbered ctx) (call : Call) :
    Numbered (call.apply (ctx, fs)).1 := by
  cases call with
  | write key fault =>
    simp only [Call.apply, write]
    split_ifs with known occupied
    · exact numbered
    · exact numbered
    · cases created : createNew fs (join ctx.dir (ctx.nextName key)) fault with
      | error _ => exact numbered
      | ok fs' =>
        obtain ⟨-, named, -⟩ := Owned.createNew_ok created
        have names := Owned.names_register_of_notMem known false
        constructor
        · rw [names, map_append, numbered.serials, map_singleton, ctx.serial_nextName,
            length_append, length_singleton, range_succ, DiskSaveContext.names, length_map]
        · rw [names, forall_mem_append, forall_mem_singleton]
          exact ⟨numbered.plain, plain_nextName named⟩
  | put name content =>
    simp only [Call.apply]
    split_ifs <;> exact numbered
  | finishWriter name fault =>
    simp only [Call.apply]
    split_ifs with registered
    · have known : name ∈ ctx.names := mem_map_of_mem (f := Prod.fst) registered.1
      have names := Owned.names_register_of_mem known true
      exact ⟨names ▸ numbered.serials, names ▸ numbered.plain⟩
    · exact numbered

theorem Numbered.calls (numbered : Numbered ctx) (calls : List Call) :
    Numbered (calls.foldl Call.apply (ctx, fs)).1 := by
  induction calls generalizing ctx fs with
  | nil => exact numbered
  | cons call calls ih => exact ih (numbered.call call)

theorem Numbered.nodup (numbered : Numbered ctx) : ctx.names.Nodup := by
  have distinct : (ctx.names.map serial).Nodup := by
    rw [numbered.serials]
    exact nodup_range
  exact distinct.of_map

/-- A new artifact is put where nothing was. -/
theorem write_keeps (ctx : DiskSaveContext) (fs : FileSystem) (key : Option String) (fault : Bool)
    (occupied : fs.pathExists path = true) :
    (ctx.write fs key fault).2.2.file path = fs.file path := by
  unfold write
  dsimp only
  split_ifs with known taken
  · rfl
  · rfl
  · cases created : createNew fs (join ctx.dir (ctx.nextName key)) fault with
    | error _ => rfl
    | ok fs' =>
      obtain ⟨free, -, rfl⟩ := Owned.createNew_ok created
      refine put_file_of_ne _ fun here => ?_
      rw [here, free] at occupied
      cases occupied

/-- A save that is committed has created its temporary file and renamed it. -/
theorem commit_ok {createFault renameFault : Bool} {manifest : Serialized}
    (done : (ctx.commit fs createFault manifest renameFault).1 = .ok ()) :
    fs.pathExists ctx.tempMetadata = false ∧ fs.isDir ctx.metadata = false ∧ ∃ fs' : FileSystem,
      ctx.commit fs createFault manifest renameFault = (.ok (), { ctx with committed := true },
        (fs'.remove ctx.tempMetadata).put ctx.metadata (fs'.file ctx.tempMetadata)) ∧
      (fs'.file ctx.tempMetadata).isSome = true ∧ fs'.isDir = fs.isDir ∧
      ∀ path, path ≠ ctx.tempMetadata → fs'.file path = fs.file path := by
  unfold commit at done ⊢
  cases pending : ctx.files.find? fun entry => !entry.2 with
  | some entry =>
    rw [pending] at done
    cases done
  | none =>
    rw [pending] at done
    cases created : createNew fs ctx.tempMetadata createFault with
    | error error =>
      rw [created] at done
      cases error <;> cases done
    | ok fs' =>
      obtain ⟨free, -, rfl⟩ := Owned.createNew_ok created
      rw [created] at done
      cases manifest with
      | failed bytes => cases done
      | done bytes =>
        dsimp only at done ⊢
        generalize written : (fs.put ctx.tempMetadata (some [])).put ctx.tempMetadata
          (some (Serialized.done bytes).bytes) = fs' at done
        cases renamed : rename fs' ctx.tempMetadata ctx.metadata renameFault with
        | error error =>
          rw [renamed] at done
          cases done
        | ok after =>
          unfold rename at renamed
          split_ifs at renamed with refused
          simp only [Bool.or_eq_true, not_or, Bool.not_eq_true, Option.isNone_eq_false_iff] at refused
          have dirs : fs'.isDir = fs.isDir := written ▸ rfl
          refine ⟨free, dirs ▸ refused.1.2, fs', ?_, refused.2, dirs, fun path away => ?_⟩
          · rw [← Except.ok.inj renamed]
          · rw [← written, put_file_of_ne _ away, put_file_of_ne _ away]

theorem finish_ok {fs' : FileSystem} {createFault renameFault : Bool}
    {manifest : Serialized}
    (finished : ctx.finish fs createFault manifest renameFault = (.ok (), fs'))
    {content : List UInt8} (there : fs.file path = some content) :
    ∃ content', fs'.file path = some content' ∧ (path ≠ ctx.metadata → content' = content) := by
  have done : (ctx.commit fs createFault manifest renameFault).1 = .ok () := congrArg Prod.fst finished
  obtain ⟨free, target, fs₁, committed, manifest, dirs, others⟩ := commit_ok done
  have away : path ≠ ctx.tempMetadata := by
    rintro rfl
    rw [(pathExists_eq_false_iff.mp free).1] at there
    cases there
  have after : fs' = (fs₁.remove ctx.tempMetadata).put ctx.metadata (fs₁.file ctx.tempMetadata) := by
    rw [finish, committed] at finished
    exact (congrArg Prod.snd finished).symm
  rw [after]
  by_cases same : path = ctx.metadata
  · obtain ⟨bytes, written⟩ := Option.isSome_iff_exists.mp manifest
    refine ⟨bytes, ?_, fun other => absurd same other⟩
    rw [same, put_file_self, written]
    exact (congrFun dirs ctx.metadata).trans target
  · refine ⟨content, ?_, fun _ => rfl⟩
    rw [put_file_of_ne _ same, remove, put_file_of_ne _ away, others path away,
      there]

/-- Hints that repeat a name, end in a separator and leave the directory. -/
def hints : List Call :=
  [.write (some "a") false, .write (some "b/") false, .write (some "../x") false,
    .write (some "000-a") false, .finishWriter "000-a" false, .finishWriter "001" false,
    .finishWriter "002-000-a" false]

end DiskAnn.Record
