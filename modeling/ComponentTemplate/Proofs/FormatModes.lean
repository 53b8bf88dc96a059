import Mathlib
import ComponentTemplate.CommandLine.Run

/-!
# The modes of the command that formats

The command formats the templates that its paths reach, each by a task of its own, and the tasks
take their steps in any order. What they leave in the files and how the command exits is said here
file by file: a file that cannot be formatted neither changes nor keeps others from being formatted.
Of the surroundings only what their operations are known to do is used, not how paths lead to files.
-/

namespace ComponentTemplate

open List

/-! ## Surroundings that hold files -/

/-- **A tree of files**, which are told apart by whatever they are: the file that a path leads to,
if it is that of one, and the paths that a walk from a path comes to. -/
structure FileTree (File : Type) where
  fileAt? : String → Option File
  walk : String → List String

namespace FileTree

variable {File : Type} (tree : FileTree File)

/-- The paths that a path stands for: itself if it is that of a file, or else all that a walk from
it comes to. -/
def pathsFrom (path : String) : List String :=
  if (tree.fileAt? path).isSome then [path] else tree.walk path

/-- **The files that paths reach as templates**, each as often as it is reached. -/
def reached (paths : List String) : List File :=
  ((paths.flatMap tree.pathsFrom).filter isTemplate).filterMap tree.fileAt?

/-- The paths of the templates among those that a path stands for. -/
def templatesFrom (path : String) : List String :=
  (tree.pathsFrom path).filter fun found => (tree.fileAt? found).isSome && isTemplate found

theorem map_fileAt?_templatesFrom (paths : List String) :
    (paths.flatMap tree.templatesFrom).map tree.fileAt? = (tree.reached paths).map some := by
  have hfound (found : List String) :
      (found.filter fun path => (tree.fileAt? path).isSome && isTemplate path).map tree.fileAt? =
        ((found.filter isTemplate).filterMap tree.fileAt?).map some := by
    induction found with
    | nil => rfl
    | cons path found ih =>
      cases hfile : tree.fileAt? path <;> cases htemplate : isTemplate path <;>
        simp [hfile, htemplate, ih]
  rw [reached, ← hfound, filter_flatMap]
  rfl

end FileTree

/-- The text that reading gives for the bytes of a file. -/
def textOf (bytes : ByteArray) : Except AccessFailure String :=
  match String.fromUTF8? bytes with
  | some text => .ok text
  | none => .error .notText

theorem textOf_toUTF8 (text : String) : textOf text.toUTF8 = .ok text := by
  have hvalid : String.fromUTF8? text.toUTF8 = some text := dif_pos text.isValidUTF8
  rw [textOf, hvalid]

/-- **Tasks are carried out step by step**, in any order: at each step one of them takes its next
step while the others wait, until all are done. -/
inductive Interleaves {σ : Type} (access : FileAccess (StateM σ)) :
    List (String × Task) → σ → List (Except FileFailure Formatted) → σ → Prop
  | done {tasks results} (hdone : tasks.map Prod.snd = results.map .done) (state : σ) :
      Interleaves access tasks state results state
  | step {front back path task next state between results after}
      (hstep : (task.step access path).run state = (next, between))
      (hrest : Interleaves access (front ++ (path, next) :: back) between results after) :
      Interleaves access (front ++ (path, task) :: back) state results after

/-- **A file system holds the files of a tree**: its answers about paths are those of the tree
whatever the files hold, a path that is that of a file reads and replaces the bytes of this file,
and tasks are carried out step by step. -/
structure FileSystem.Holds {File : Type} [DecidableEq File]
    (system : FileSystem (StateM (File → ByteArray))) (tree : FileTree File) : Prop where
  isFile (path : String) : system.isFile path = pure (tree.fileAt? path).isSome
  walk (path : String) : system.walk path = pure (tree.walk path)
  read {path : String} {file : File} (hfile : tree.fileAt? path = some file)
    (contents : File → ByteArray) :
    (system.read path).run contents = (textOf (contents file), contents)
  write {path : String} {file : File} (hfile : tree.fileAt? path = some file) (content : String)
    (contents : File → ByteArray) : (system.write path content).run contents =
      (.ok (), Function.update contents file content.toUTF8)
  carryOut (tasks : List (String × Task)) (contents : File → ByteArray) :
    Interleaves system.toFileAccess tasks contents ((system.carryOut tasks).run contents).1
      ((system.carryOut tasks).run contents).2

/-! ## One task -/

/-- **What a task does on its own**: its result, and the bytes that it leaves in its file. -/
def Task.alone : Task → ByteArray → Except FileFailure Formatted × ByteArray
  | .read next, bytes => (next (textOf bytes)).alone bytes
  | .write content next, _ => (next (.ok ())).alone content.toUTF8
  | .done result, bytes => (result, bytes)

/-- **What a file that is written back holds afterwards**: its formatted text, or what it held if it
cannot be formatted. -/
def FormatOptions.leaves (options : FormatOptions) (content : String) : String :=
  (formatSource options content).toOption.getD content

/-- Whether the command fails because of a text: it cannot be formatted or, if files are only
compared, it is not its own formatted text. -/
def FormatOptions.failsOn (options : FormatOptions) (mode : Mode) (content : String) : Bool :=
  match formatSource options content with
  | .error _ => true
  | .ok output => mode = .check && output ≠ content

/-- **What formatting one file does**, if it is the only task. -/
theorem Task.alone_format (options : FormatOptions) (mode : Mode) (text : String) :
    (Task.format options mode).alone text.toUTF8 = (options.formatted (.ok text),
      (if mode = .write then options.leaves text else text).toUTF8) := by
  rw [Task.format, alone, textOf_toUTF8, FormatOptions.leaves]
  cases hformat : formatSource options text with
  | error diagnostic =>
    simp [FormatOptions.formatted, hformat, Except.mapError, bind, Except.bind, alone,
      Except.toOption]
  | ok output =>
    have hformatted : options.formatted (.ok text) = .ok ⟨text, output⟩ := by
      simp [FormatOptions.formatted, hformat, Except.mapError, bind, Except.bind, pure, Except.pure]
    rw [hformatted]
    by_cases hmode : mode = .write <;> by_cases hsame : output = text <;>
      simp [hmode, hsame, Formatted.isChanged, alone, Except.toOption]

theorem FileOutcome.fails_formatted (options : FormatOptions) (mode : Mode) (path text : String) :
    FileOutcome.fails mode ⟨path, options.formatted (.ok text)⟩ = options.failsOn mode text := by
  rw [fails, FormatOptions.failsOn]
  cases hformat : formatSource options text with
  | error diagnostic => simp [FormatOptions.formatted, hformat, Except.mapError, bind, Except.bind]
  | ok output =>
    simp [FormatOptions.formatted, hformat, Except.mapError, bind, Except.bind, pure, Except.pure,
      Formatted.isChanged]

section Texts

variable {File : Type} {options : FormatOptions} {mode : Mode} {text : File → String}
  {files : List File}

theorem any_failsOn_iff : (files.any fun file => options.failsOn mode (text file)) = true ↔
    (∃ file ∈ files, ∃ diagnostic, formatSource options (text file) = .error diagnostic) ∨
      mode = .check ∧ ∃ file ∈ files, ∃ output,
        formatSource options (text file) = .ok output ∧ output ≠ text file := by
  have hfile (content : String) : options.failsOn mode content = true ↔
      (∃ diagnostic, formatSource options content = .error diagnostic) ∨
        mode = .check ∧ ∃ output, formatSource options content = .ok output ∧ output ≠ content := by
    rw [FormatOptions.failsOn]
    cases formatSource options content <;> simp
  simp only [any_eq_true, hfile, and_or_left, exists_or]
  refine or_congr_right ⟨?_, ?_⟩
  · rintro ⟨file, hmem, hmode, houtput⟩
    exact ⟨hmode, file, hmem, houtput⟩
  · rintro ⟨hmode, file, hmem, houtput⟩
    exact ⟨file, hmem, hmode, houtput⟩

/-- Comparing finds no fault with texts if and only if writing fails on none and keeps all. -/
theorem not_any_failsOn_check_iff :
    (files.any fun file => options.failsOn .check (text file)) = false ↔
      (files.any fun file => options.failsOn .write (text file)) = false ∧
        ∀ file ∈ files, options.leaves (text file) = text file := by
  have hfile (content : String) : options.failsOn .check content = false ↔
      options.failsOn .write content = false ∧ options.leaves content = content := by
    rw [FormatOptions.failsOn, FormatOptions.failsOn, FormatOptions.leaves]
    cases formatSource options content <;> simp [Except.toOption]
  rw [any_eq_false, any_eq_false]
  simp [hfile, ← forall_and]

end Texts

section Tasks

variable {File : Type} [DecidableEq File] {system : FileSystem (StateM (File → ByteArray))}
  {tree : FileTree File} {contents after : File → ByteArray} {tasks : List (String × Task)}
  {results : List (Except FileFailure Formatted)}

/-- **A step of a task** leads to what the task does on its own, and keeps all other files. -/
theorem FileSystem.Holds.step (h : system.Holds tree) {path : String} {task next : Task}
    {file : File} (hfile : tree.fileAt? path = some file)
    (hstep : (task.step system.toFileAccess path).run contents = (next, after)) :
    next.alone (after file) = task.alone (contents file) ∧
      ∀ other, other ≠ file → after other = contents other := by
  cases task with
  | read following =>
    rw [Task.step, StateT.run_map, h.read hfile] at hstep
    cases hstep
    exact ⟨rfl, fun _ _ => rfl⟩
  | write content following =>
    rw [Task.step, StateT.run_map, h.write hfile] at hstep
    cases hstep
    refine ⟨?_, fun other hother => Function.update_of_ne hother ..⟩
    dsimp only
    rw [Function.update_self, Task.alone]
  | done result =>
    cases hstep
    exact ⟨rfl, fun _ _ => rfl⟩

/-- The bytes of the file that a path leads to. -/
def FileTree.bytesAt (tree : FileTree File) (contents : File → ByteArray) (path : String) :
    ByteArray :=
  ((tree.fileAt? path).map contents).getD default

/-- **Tasks on different files do what each of them does on its own**, whatever the order of their
steps: so are their results and the bytes that they leave, and no other file changes. -/
theorem Interleaves.spec (hrun : Interleaves system.toFileAccess tasks contents results after)
    (h : system.Holds tree) (hfiles : ∀ path ∈ tasks.map Prod.fst, (tree.fileAt? path).isSome)
    (honce : ((tasks.map Prod.fst).map tree.fileAt?).Nodup) :
    (results = tasks.map fun task => (task.2.alone (tree.bytesAt contents task.1)).1) ∧
      (∀ task ∈ tasks, ∀ file, tree.fileAt? task.1 = some file →
        after file = (task.2.alone (contents file)).2) ∧
      ∀ file, some file ∉ (tasks.map Prod.fst).map tree.fileAt? → after file = contents file := by
  induction hrun with
  | @done tasks results hdone contents =>
    have halone : ∀ task ∈ tasks, ∀ bytes, task.2 = .done (task.2.alone bytes).1 ∧
        (task.2.alone bytes).2 = bytes := by
      intro task htask bytes
      obtain ⟨result, -, hresult⟩ := mem_map.mp (hdone ▸ mem_map_of_mem (f := Prod.snd) htask)
      rw [← hresult]
      exact ⟨rfl, rfl⟩
    refine ⟨?_, fun task htask file _ => (halone task htask _).2.symm, fun _ _ => rfl⟩
    have hinjective : Function.Injective Task.done := fun _ _ => Task.done.inj
    refine hinjective.list_map (hdone.symm.trans ?_)
    rw [map_map]
    exact map_congr_left fun task htask => (halone task htask _).1
  | @step front back path task next contents between results after hstep hrest ih =>
    obtain ⟨file, hfile⟩ := Option.isSome_iff_exists.mp (hfiles path (by simp))
    obtain ⟨hnext, hkeeps⟩ := h.step hfile hstep
    obtain ⟨hresults, hafter, hrest⟩ := ih (by simpa using hfiles) (by simpa using honce)
    -- the files of the other tasks are not touched by the step
    have hothers : ∀ other, other ∈ front ∨ other ∈ back → ∀ file', tree.fileAt? other.1 =
        some file' → between file' = contents file' := by
      intro other hother file' hfile'
      refine hkeeps file' ?_
      rintro rfl
      rw [map_append, map_cons, map_append, map_cons, nodup_middle, nodup_cons, ← map_append,
        ← map_append, hfile, ← hfile'] at honce
      exact honce.1 (mem_map_of_mem (mem_map_of_mem (mem_append.mpr hother)))
    refine ⟨?_, fun other hother file' hfile' => ?_, fun other hother => ?_⟩
    · have hbytes : ∀ other, other ∈ front ∨ other ∈ back →
          tree.bytesAt between other.1 = tree.bytesAt contents other.1 := by
        intro other hother
        rw [FileTree.bytesAt, FileTree.bytesAt]
        cases hfile' : tree.fileAt? other.1 with
        | none => rfl
        | some file' => simp [hothers other hother file' hfile']
      have hmiddle : next.alone (tree.bytesAt between path) =
          task.alone (tree.bytesAt contents path) := by
        simpa [FileTree.bytesAt, hfile] using hnext
      rw [hresults, map_append, map_append, map_cons, map_cons, hmiddle]
      congr 1
      · exact map_congr_left fun other hother => by rw [hbytes other (.inl hother)]
      · exact congrArg _ (map_congr_left fun other hother => by rw [hbytes other (.inr hother)])
    · rcases mem_append.mp hother with hfront | hback
      · rw [hafter other (by simp [hfront]) file' hfile', hothers other (.inl hfront) file' hfile']
      · rcases mem_cons.mp hback with rfl | hback
        · cases hfile.symm.trans hfile'
          rw [hafter (path, next) (by simp) file hfile, hnext]
        · rw [hafter other (by simp [hback]) file' hfile', hothers other (.inr hback) file' hfile']
    · rw [hrest other (by simpa using hother), hkeeps]
      rintro rfl
      exact hother (by simp [hfile])

end Tasks

/-! ## Tasks one after another -/

section InOrder

variable {σ : Type} {access : FileAccess (StateM σ)}

/-- A task that is carried out to its end takes its steps one after another. -/
theorem Interleaves.of_perform {front back : List (String × Task)} {path : String} {task : Task}
    {state after : σ} {results : List (Except FileFailure Formatted)}
    (h : Interleaves access
      (front ++ (path, .done ((task.perform access path).run state).1) :: back)
      ((task.perform access path).run state).2 results after) :
    Interleaves access (front ++ (path, task) :: back) state results after := by
  induction task generalizing state with
  | done result => exact h
  | read next ih | write content next ih => exact .step rfl (ih _ h)

/-- **To carry out tasks one after another** is one of the orders. -/
theorem interleaves_inOrder (tasks : List (String × Task)) (state : σ) :
    Interleaves access tasks state ((access.inOrder tasks).run state).1
      ((access.inOrder tasks).run state).2 := by
  -- the tasks at the front are done already
  have hafter (front : List (String × Task)) (results : List (Except FileFailure Formatted))
      (hfront : front.map Prod.snd = results.map .done) :
      Interleaves access (front ++ tasks) state (results ++ ((access.inOrder tasks).run state).1)
        ((access.inOrder tasks).run state).2 := by
    induction tasks generalizing front results state with
    | nil =>
      have hnone : (access.inOrder []).run state = ([], state) := rfl
      exact .done (by simpa [hnone] using hfront) state
    | cons task tasks ih =>
      have hmore : (access.inOrder (task :: tasks)).run state =
          (((task.2.perform access task.1).run state).1 ::
            ((access.inOrder tasks).run ((task.2.perform access task.1).run state).2).1,
          ((access.inOrder tasks).run ((task.2.perform access task.1).run state).2).2) := by
        rw [FileAccess.inOrder, mapM_cons]
        rfl
      rw [hmore]
      refine .of_perform ?_
      have hrest := ih ((task.2.perform access task.1).run state).2
        (front ++ [(task.1, .done ((task.2.perform access task.1).run state).1)])
        (results ++ [((task.2.perform access task.1).run state).1]) (by simp [hfront])
      rwa [append_assoc, append_assoc] at hrest
  exact hafter [] [] rfl

end InOrder

section Tree

variable {File : Type} [DecidableEq File] (tree : FileTree File)

/-- Reading and writing the files of a tree. -/
def FileTree.access : FileAccess (StateM (File → ByteArray)) where
  read path := do
    let contents ← get
    return (tree.fileAt? path).elim (.error .missing) fun file => textOf (contents file)
  write path content := do
    match tree.fileAt? path with
    | some file =>
      modify (Function.update · file content.toUTF8)
      return .ok ()
    | none => return .error .missing

/-- A tree as a file system, in which tasks are carried out one after another. -/
def FileTree.system : FileSystem (StateM (File → ByteArray)) where
  toFileAccess := tree.access
  isFile path := return (tree.fileAt? path).isSome
  walk path := return tree.walk path
  carryOut := tree.access.inOrder

theorem FileTree.holds_system : tree.system.Holds tree where
  isFile _ := rfl
  walk _ := rfl
  read hfile contents := by
    simp only [system, access, hfile]
    rfl
  write hfile content contents := by
    simp only [system, access, hfile]
    rfl
  carryOut := interleaves_inOrder

end Tree

/-! ## The command -/

theorem FileSystem.format_of_conflict {σ : Type} (system : FileSystem (StateM σ))
    {arguments : FormatArguments} (hmode : arguments.mode? = none) (before : σ) :
    (system.format arguments).run before = (.conflict, before) := by
  rw [FileSystem.format, hmode]
  rfl

theorem filterM_pure {m : Type → Type} [Monad m] [LawfulMonad m] {α : Type} (p : α → Bool)
    (xs : List α) :
    xs.filterM (fun x => (pure (p x) : m Bool)) = pure (xs.filter p) := by
  have hfrom (seen : List α) : xs.filterAuxM (fun x => (pure (p x) : m Bool)) seen =
      pure ((xs.filter p).reverse ++ seen) := by
    induction xs generalizing seen with
    | nil => simp [filterAuxM]
    | cons x xs ih =>
      rw [filterAuxM, pure_bind, ih]
      cases hx : p x <;> simp [hx]
  simp [filterM, hfrom]

section Command

variable {File : Type} [DecidableEq File] {system : FileSystem (StateM (File → ByteArray))}
  {tree : FileTree File} {arguments : FormatArguments} {mode : Mode} {before : File → ByteArray}
  {text : File → String}

theorem FileSystem.Holds.collect (h : system.Holds tree) (path : String) :
    system.collect path = pure (tree.templatesFrom path) := by
  rw [FileSystem.collect, h.isFile, pure_bind, FileTree.templatesFrom, FileTree.pathsFrom]
  cases hfile : (tree.fileAt? path).isSome with
  | true =>
    simp only [if_true]
    refine congrArg pure (filter_congr fun found hfound => ?_)
    rw [mem_singleton.mp hfound, hfile, Bool.true_and]
  | false =>
    simp only [h.isFile, h.walk, pure_bind, filterM_pure]
    simp

/-- **What the command does in one of its modes**, if no file is reached twice: it fails because of
a text that one of the files held at the start, and leaves every file with what it would be left
with alone. -/
theorem FileSystem.Holds.format (h : system.Holds tree) (hmode : arguments.mode? = some mode)
    (honce : (tree.reached arguments.targets).Nodup)
    (htext : ∀ file ∈ tree.reached arguments.targets, before file = (text file).toUTF8) :
    ((system.format arguments).run before).1.exitStatus =
        (if (tree.reached arguments.targets).any
          fun file => arguments.options.failsOn mode (text file) then 1 else 0) ∧
      ∀ file, ((system.format arguments).run before).2 file =
        if mode = .write ∧ file ∈ tree.reached arguments.targets then
          (arguments.options.leaves (text file)).toUTF8
        else before file := by
  have hmap := tree.map_fileAt?_templatesFrom arguments.targets
  have hcollect : arguments.targets.mapM system.collect =
      pure (arguments.targets.map tree.templatesFrom) := by
    rw [funext h.collect, mapM_pure]
  have hformat : system.format arguments = (fun results => Report.ofOutcomes mode
      (zipWith FileOutcome.mk (arguments.targets.flatMap tree.templatesFrom) results)) <$>
        system.carryOut ((arguments.targets.flatMap tree.templatesFrom).map fun path =>
          (path, .format arguments.options mode)) := by
    rw [FileSystem.format, hmode]
    dsimp only
    rw [hcollect, pure_bind, bind_pure_comp, flatMap_def]
  rw [hformat, StateT.run_map]
  generalize arguments.targets.flatMap tree.templatesFrom = paths at hmap
  generalize tree.reached arguments.targets = files at hmap honce htext
  have hfile : ∀ path ∈ paths, ∃ file ∈ files, tree.fileAt? path = some file := by
    intro path hpath
    obtain ⟨file, hmem, heq⟩ := mem_map.mp (hmap ▸ mem_map_of_mem hpath)
    exact ⟨file, hmem, heq.symm⟩
  have hfirst : (paths.map fun path => (path, Task.format arguments.options mode)).map Prod.fst =
      paths := by simp [Function.comp_def]
  obtain ⟨hresults, hafter, hothers⟩ := (h.carryOut (paths.map fun path =>
    (path, .format arguments.options mode)) before).spec h
      (fun path hpath => by
        obtain ⟨file, -, heq⟩ := hfile path (hfirst ▸ hpath)
        simp [heq])
      (by rw [hfirst, hmap]; exact honce.map (Option.some_injective _))
  rw [hfirst, hmap] at hothers
  constructor
  · have hfails : ∀ path ∈ paths, FileOutcome.fails mode ⟨path,
        ((Task.format arguments.options mode).alone (tree.bytesAt before path)).1⟩ =
          (tree.fileAt? path).any fun file => arguments.options.failsOn mode (text file) := by
      intro path hpath
      obtain ⟨file, hmem, heq⟩ := hfile path hpath
      rw [FileTree.bytesAt, heq, Option.map_some, Option.getD_some, htext file hmem,
        Task.alone_format, FileOutcome.fails_formatted, Option.any_some]
    have hany : ((paths.map tree.fileAt?).any
        (·.any fun file => arguments.options.failsOn mode (text file))) =
          files.any fun file => arguments.options.failsOn mode (text file) := by
      rw [hmap, any_map]
      rfl
    refine congrArg (fun fails : Bool => if fails then 1 else 0) (Eq.trans ?_ hany)
    rw [hresults, map_map, zipWith_map_right, zipWith_self, any_map, any_map, Bool.eq_iff_iff,
      any_eq_true, any_eq_true]
    exact exists_congr fun path => and_congr_right fun hpath =>
      iff_of_eq (congrArg (· = true) (hfails path hpath))
  · intro file
    split
    · rename_i hwrites
      obtain ⟨path, hpath, heq⟩ := mem_map.mp (hmap ▸ mem_map_of_mem hwrites.2)
      refine (hafter _ (mem_map_of_mem hpath) file heq).trans ?_
      rw [htext file hwrites.2, Task.alone_format, if_pos hwrites.1]
    · rename_i hkeeps
      by_cases hmem : file ∈ files
      · obtain ⟨path, hpath, heq⟩ := mem_map.mp (hmap ▸ mem_map_of_mem hmem)
        refine (hafter _ (mem_map_of_mem hpath) file heq).trans ?_
        rw [htext file hmem, Task.alone_format, if_neg fun hmode => hkeeps ⟨hmode, hmem⟩]
      · exact hothers file fun hsome => hmem (by simpa using hsome)

/-- **The modes of the command that formats.** Let no file be reached twice, and let every file that
is reached hold a text. If files are written back, every template that is reached is left with its
formatted text if it has one, and everything else stays as it is; otherwise nothing changes. The
command fails exactly if it is asked both to write and to compare, or a template that is reached
cannot be formatted, or it only compares and one of them is not its own formatted text. So comparing
succeeds exactly if writing would succeed and change nothing. -/
theorem FileSystem.format_modes (hsystem : system.Holds tree)
    (honce : (tree.reached arguments.targets).Nodup)
    (htext : ∀ file ∈ tree.reached arguments.targets, before file = (text file).toUTF8) :
    (∀ file, ((system.format arguments).run before).2 file =
        if arguments.write = true ∧ arguments.check = false ∧
            file ∈ tree.reached arguments.targets then
          (arguments.options.leaves (text file)).toUTF8
        else before file) ∧
      (((system.format arguments).run before).1.exitStatus = 1 ↔
        arguments.write = true ∧ arguments.check = true ∨
        (∃ file ∈ tree.reached arguments.targets, ∃ diagnostic,
          formatSource arguments.options (text file) = .error diagnostic) ∨
        arguments.check = true ∧ ∃ file ∈ tree.reached arguments.targets, ∃ output,
          formatSource arguments.options (text file) = .ok output ∧ output ≠ text file) ∧
      (((system.format arguments).run before).1.exitStatus = 0 ∨
        ((system.format arguments).run before).1.exitStatus = 1) ∧
      (arguments.write = false → arguments.check = true →
        (((system.format arguments).run before).1.exitStatus = 0 ↔
          ((system.format { arguments with write := true, check := false }).run
            before).1.exitStatus = 0 ∧
          ((system.format { arguments with write := true, check := false }).run before).2 =
            before)) := by
  have hspec {mode : Mode} := @Holds.format _ _ _ _ arguments mode before text hsystem
  refine ⟨fun file => ?contents, ?status, ?range, fun hwrite hcheck => ?comparing⟩
  case contents =>
    cases hwrite : arguments.write <;> cases hcheck : arguments.check
    case true.true =>
      rw [system.format_of_conflict (by rw [FormatArguments.mode?, hwrite, hcheck])]
      simp
    all_goals
      rw [(hspec (by rw [FormatArguments.mode?, hwrite, hcheck]) honce htext).2]
      simp
  case status =>
    have hone {fails : Bool} : (if fails then 1 else 0) = 1 ↔ fails = true := by
      cases fails <;> decide
    cases hwrite : arguments.write <;> cases hcheck : arguments.check
    case true.true =>
      rw [system.format_of_conflict (by rw [FormatArguments.mode?, hwrite, hcheck])]
      simp [Report.conflict]
    all_goals
      rw [(hspec (by rw [FormatArguments.mode?, hwrite, hcheck]) honce htext).1, hone,
        any_failsOn_iff]
      simp
  case range =>
    cases hmode : arguments.mode? with
    | none =>
      rw [system.format_of_conflict hmode]
      exact .inr rfl
    | some mode =>
      rw [(hspec hmode honce htext).1]
      split
      · exact .inr rfl
      · exact .inl rfl
  case comparing =>
    have hzero {fails : Bool} : (if fails then 1 else 0) = 0 ↔ fails = false := by
      cases fails <;> decide
    obtain ⟨hstatus, hafter⟩ := @Holds.format _ _ _ _
      { arguments with write := true, check := false } _ before text hsystem rfl honce htext
    rw [hstatus, hzero, (hspec (by rw [FormatArguments.mode?, hwrite, hcheck]) honce htext).1,
      hzero, funext_iff]
    simp only [hafter, true_and]
    refine not_any_failsOn_check_iff.trans (and_congr_right fun _ => forall_congr' fun file => ?_)
    split
    · rename_i hfile
      rw [htext file hfile, String.toUTF8, String.toUTF8, String.toByteArray_inj]
      exact forall_prop_of_true hfile
    · rename_i hfile
      exact iff_of_true (fun hmem => absurd hmem hfile) rfl

end Command

/-- A template to format and a directory, both outside of the working directory: in the directory
are a template that cannot be formatted and a file that is no template. -/
theorem FileSystem.format_modes_mixed :
    let tree : FileTree Nat := ⟨fun path =>
        [("../a.zvelte", 0), ("/d/b.twig", 1), ("/d/c.txt", 2)].lookup path,
      fun path => if path = "/d" then ["/d", "/d/b.twig", "/d/c.txt"] else []⟩
    let text (file : Nat) : String := if file = 1 then "\x7b\x7b" else "<br>"
    let done := (tree.system.format { paths := ["../a.zvelte", "/d"], write := true }).run
      fun file => (text file).toUTF8
    done.2 0 = "<br />\n".toUTF8 ∧ done.2 1 = "\x7b\x7b".toUTF8 ∧ done.2 2 = "<br>".toUTF8 ∧
      done.1.exitStatus = 1 := by
  intro tree text done
  have hreached : tree.reached ["../a.zvelte", "/d"] = [0, 1] := by decide +kernel
  have hbad : (formatSource {} (text 1)).toOption = none := by decide +kernel
  obtain ⟨hafter, hstatus, -⟩ := @FileSystem.format_modes _ _ _ _
    { paths := ["../a.zvelte", "/d"], write := true } (fun file => (text file).toUTF8) text
    tree.holds_system (hreached ▸ by decide) fun _ _ => rfl
  rw [show FormatArguments.targets _ = ["../a.zvelte", "/d"] from rfl, hreached] at hafter hstatus
  refine ⟨(hafter 0).trans ?_, (hafter 1).trans ?_, (hafter 2).trans rfl,
    hstatus.mpr (.inr (.inl ⟨1, by simp, ?_⟩))⟩
  · exact congrArg String.toUTF8 (by decide +kernel)
  · exact congrArg String.toUTF8 (by decide +kernel)
  · cases hformat : formatSource {} (text 1) with
    | error diagnostic => exact ⟨diagnostic, hformat⟩
    | ok output =>
      rw [hformat] at hbad
      cases hbad

end ComponentTemplate
