import OnePass.CommandLine.Session
import OnePass.Proofs.File.Place

namespace OnePass.CommandLine.Session

variable {s s' s'' : Session} {o : Settings} {path c : Text} {r : FileReport}

theorem readSource_eq_ok_iff (hcwd : Path.Clean s.cwd) :
    s.readSource path = .ok c ↔
      s.tree.passable [] (s.fullPath path) ∧ s.tree.node? (s.fullPath path) = some (.file c) :=
  FileTree.read_text (Path.absolute_clean hcwd)

/-- The report on a source, before anything is saved. -/
def verdict (s : Session) (o : Settings) (path source : Text) : FileReport :=
  let c := compile { trace := o.trace } source
  { path, outcome := c.outcome, assembly := c.assembly
    failure := c.error.map fun e => Diagnostic.report path source e (s.colors o) }

/-- The report on a file as it is now, before anything is saved. -/
def finding (s : Session) (o : Settings) (path : Text) : FileReport :=
  match s.readSource path with
  | .error f => { path, outcome := .fatal, failure := some f.message }
  | .ok source => s.verdict o path source

/-- Whether a report is of code that goes to a file. -/
def saves (o : Settings) (r : FileReport) : Bool := r.failure.isNone && !o.stdout

/-- Saves what is to be saved. -/
def conclude (s : Session) (o : Settings) (r : FileReport) : FileReport × Session :=
  if saves o r then s.save o r else (r, s)

/-- Compiling a file is finding out about it and then saving what is to be saved. -/
theorem compileFile_eq (s : Session) (o : Settings) (path : Text) :
    (s.compileFile o true path).1 = (s.conclude o (s.finding o path)).1 ∧
      (s.compileFile o true path).2.2 = (s.conclude o (s.finding o path)).2 := by
  cases hread : s.readSource path with
  | error f => simp [compileFile, finding, hread, conclude, saves]
  | ok source =>
    cases herror : (compile { trace := o.trace } source).error with
    | some e => simp [compileFile, finding, hread, conclude, saves, verdict, herror]
    | none =>
      by_cases hstdout : o.stdout <;>
        simp [compileFile, finding, hread, conclude, saves, verdict, herror, hstdout]

@[simp]
theorem finding_path : (s.finding o path).path = path := by
  rw [finding]
  split <;> rfl

@[simp]
theorem finding_written : (s.finding o path).written = none := by
  rw [finding]
  split <;> rfl

/-- A later session of the same work. -/
structure Grown (s s' : Session) : Prop where
  cwd_eq : s'.cwd = s.cwd
  env_eq : s'.env = s.env
  tty_eq : s'.tty = s.tty
  tree : FileTree.Grows s.tree s'.tree

theorem Grown.refl (s : Session) : Grown s s := ⟨rfl, rfl, rfl, .refl _⟩

theorem Grown.fullPath (h : Grown s s') : s'.fullPath path = s.fullPath path := by
  rw [Session.fullPath, h.cwd_eq, Session.fullPath]

theorem Grown.verdict (h : Grown s s') : s'.verdict o path c = s.verdict o path c := by
  simp only [Session.verdict, colors, h.tty_eq, h.env_eq]

/-- What a later session finds depends on the content of the input alone. -/
theorem Grown.finding (h : Grown s s') (hcwd : Path.Clean s.cwd) {source : Text}
    (hread : s.readSource path = .ok source) :
    ∃ c, s'.tree.node? (s.fullPath path) = some (.file c) ∧ s'.finding o path = s.verdict o path c := by
  obtain ⟨hpass, hnode⟩ := (readSource_eq_ok_iff hcwd).1 hread
  have hsome := h.tree.isSome (s.fullPath path) (by simp [hnode])
  have hdir : s'.tree.isDir (s.fullPath path) = false := by
    rw [h.tree.isDir_eq, FileTree.isDir, hnode]
    rfl
  obtain ⟨c, hc⟩ : ∃ c, s'.tree.node? (s.fullPath path) = some (.file c) := by
    cases hn : s'.tree.node? (s.fullPath path) with
    | none => simp [hn] at hsome
    | some n =>
      cases n with
      | dir => simp [FileTree.isDir, hn] at hdir
      | file c => exact ⟨c, rfl⟩
  have hread' : s'.readSource path = .ok c := by
    rw [readSource_eq_ok_iff (h.cwd_eq ▸ hcwd), h.fullPath, h.tree.passable]
    exact ⟨hpass, hc⟩
  exact ⟨c, hc, by rw [Session.finding, hread', ← h.verdict]⟩

/-- A path can be worked on: its file can be read and its output written. -/
structure Ready (s : Session) (o : Settings) (path : Text) : Prop where
  readable : ∃ source, s.readSource path = .ok source
  writable : (s.writeOutput (outputPath o path) []).1 = .ok ()

theorem assemblyExtension_ordinary (stem : Text) (hstem : .char '/' ∉ stem ++ Path.assemblyExtension) :
    Path.Ordinary (stem ++ Path.assemblyExtension) := by
  have hlength : (stem ++ Path.assemblyExtension).length = stem.length + 5 := by
    rw [List.length_append]
    rfl
  have hdots : Path.here.length = 1 ∧ Path.up.length = 2 := ⟨rfl, rfl⟩
  refine ⟨fun h => ?_, fun h => ?_, fun h => ?_, hstem⟩ <;>
    · rw [h] at hlength
      simp_all

theorem makeDirs_of_writable {text : Text} (h : (s.writeOutput text c).1 = .ok ()) :
    ∃ tree dest, s.tree.makeDirs [] (s.fullPath text).parent = .ok tree ∧ tree.target s.cwd text = .ok dest := by
  rw [writeOutput] at h
  split at h
  · cases h
  · rename_i tree hdirs
    rw [FileTree.write] at h
    cases htarget : tree.target s.cwd text with
    | error e => simp [htarget] at h
    | ok dest => exact ⟨tree, dest, hdirs, htarget⟩

/-- A last name that stands for a directory would make the input a file on the way to its output. -/
theorem ordinary_last {init : List Text} {last : Text} {tree : FileTree} (hcwd : Path.Clean s.cwd)
    (hread : s.readSource path = .ok c) (hparts : Path.parts path = init ++ [last])
    (hdirs : s.tree.makeDirs [] (Path.follow (FileTree.start s.cwd path) init) = .ok tree) :
    Path.Ordinary last := by
  obtain ⟨-, hfile⟩ := (readSource_eq_ok_iff hcwd).1 hread
  have hnotdir : ¬s.tree.isDir (s.fullPath path) := by simp [FileTree.isDir, hfile]
  have hslash : .char '/' ∉ last := Text.not_mem_of_mem_splitAt (t := path) (by
    rw [← Path.parts, hparts]
    simp)
  have hdots : ¬(last.isEmpty ∨ last = Path.here ∨ last = Path.up) := by
    intro hdots
    have hway : s.fullPath path <+: Path.follow (FileTree.start s.cwd path) init := by
      have hplace : s.fullPath path = Path.follow (FileTree.start s.cwd path) (init ++ [last]) := by
        rw [← hparts]
        rfl
      rw [hplace, Path.follow_append]
      exact Path.follow_dots hdots
    exact FileTree.not_file_of_makeDirs hdirs hway (FileTree.ne_nil_of_not_isDir hnotdir) hfile
  simp only [not_or] at hdots
  exact ⟨by simpa using hdots.1, hdots.2.1, hdots.2.2, hslash⟩

/-- The output of a path that can be worked on lies beside its input. -/
theorem Ready.output (h : s.Ready o path) (hcwd : Path.Clean s.cwd) (hout : o.out = []) :
    ∃ init name, Path.parts (outputPath o path) = init ++ [name] ∧ Path.Ordinary name ∧
      s.fullPath (outputPath o path) = Path.follow (FileTree.start s.cwd (outputPath o path)) init ++ [name] ∧
      s.tree.passable [] (s.fullPath (outputPath o path)) := by
  obtain ⟨source, hread⟩ := h.readable
  obtain ⟨hpass, -⟩ := (readSource_eq_ok_iff hcwd).1 hread
  obtain ⟨init, last, stem, hin, hparts, habs⟩ :=
    Path.parts_withExtension path (by decide : .char '/' ∉ Path.assemblyExtension)
  have houtput : outputPath o path = Path.withExtension path Path.assemblyExtension := by
    simp [outputPath, hout]
  rw [← houtput] at hparts habs
  have hstart : FileTree.start s.cwd (outputPath o path) = FileTree.start s.cwd path := by
    rw [FileTree.start, habs, FileTree.start]
  have hname : Path.Ordinary (stem ++ Path.assemblyExtension) :=
    assemblyExtension_ordinary stem (Text.not_mem_of_mem_splitAt (t := outputPath o path) (by
      rw [← Path.parts, hparts]
      simp))
  have hinput : s.fullPath path = Path.follow (Path.follow (FileTree.start s.cwd path) init) [last] := by
    rw [← Path.follow_append, ← hin]
    rfl
  have hplace : s.fullPath (outputPath o path) =
      Path.follow (FileTree.start s.cwd path) init ++ [stem ++ Path.assemblyExtension] := by
    rw [← hname.follow, ← hstart, ← Path.follow_append, ← hparts]
    rfl
  obtain ⟨tree, dest, hdirs, -⟩ := makeDirs_of_writable h.writable
  rw [hplace, Path.parent, List.dropLast_concat] at hdirs
  have hlast := ordinary_last hcwd hread hin hdirs
  refine ⟨init, _, hparts, hname, by rw [hstart, hplace], ?_⟩
  rw [hplace, FileTree.passable_concat]
  rw [hinput, hlast.follow, FileTree.passable_concat] at hpass
  exact hpass

/-- In every later session the code of a path that can be worked on goes to one place, which is no directory. -/
theorem Ready.writeOutput (h : s.Ready o path) (hcwd : Path.Clean s.cwd) (hout : o.out = []) :
    ¬s.tree.isDir (s.fullPath (outputPath o path)) ∧
      ∀ s', Grown s s' → ∀ c, s'.writeOutput (outputPath o path) c =
        (.ok (), { s' with tree := s'.tree.insert (s.fullPath (outputPath o path)) (.file c) }) := by
  obtain ⟨init, name, hparts, hname, hplace, hpass⟩ := h.output hcwd hout
  have hdirs : ∀ s', Grown s s' →
      s'.tree.makeDirs [] (s'.fullPath (outputPath o path)).parent = .ok s'.tree := by
    intro s' hs'
    rw [hs'.fullPath, hplace, Path.parent, List.dropLast_concat]
    rw [hplace] at hpass
    exact FileTree.makeDirs_of_passable (hs'.tree.passable ▸ hpass)
  obtain ⟨tree, dest, hmade, htarget⟩ := makeDirs_of_writable h.writable
  rw [hdirs s (.refl s)] at hmade
  cases hmade
  obtain ⟨dir, hwalk, hdir, hfree, rfl⟩ := (FileTree.target_eq_ok_iff hparts hname).1 htarget
  have hat : dir ++ [name] = s.fullPath (outputPath o path) := by
    rw [hplace, FileTree.follow_of_walk hwalk]
  rw [hat] at hfree
  refine ⟨hfree, fun s' hs' c => ?_⟩
  have htarget' : s'.tree.target s'.cwd (outputPath o path) = .ok (s.fullPath (outputPath o path)) := by
    rw [FileTree.target_eq_ok_iff hparts hname, hs'.cwd_eq, ← hat]
    exact ⟨dir, hs'.tree.walk hwalk, by rw [hs'.tree.isDir_eq]; exact hdir,
      by rw [hs'.tree.isDir_eq, hat]; exact hfree, rfl⟩
  simp only [Session.writeOutput, hdirs s' hs', FileTree.write, htarget']

/-- The session after the code of a path was saved. -/
def saved (s s' : Session) (o : Settings) (path code : Text) : Session :=
  { s' with tree := s'.tree.insert (s.fullPath (outputPath o path)) (.file code) }

theorem Ready.save (h : s.Ready o path) (hcwd : Path.Clean s.cwd) (hout : o.out = [])
    (hs' : Grown s s') (hr : r.path = path) :
    s'.save o r = ({ r with written := some (outputPath o path) }, saved s s' o path r.assembly) := by
  simp only [Session.save, hr, (h.writeOutput hcwd hout).2 s' hs', saved]

theorem Ready.grown (h : s.Ready o path) (hcwd : Path.Clean s.cwd) (hout : o.out = [])
    (hs' : Grown s s') : Grown s (saved s s' o path c) := by
  have hfree : ¬s'.tree.isDir (s.fullPath (outputPath o path)) := by
    rw [hs'.tree.isDir_eq]
    exact (h.writeOutput hcwd hout).1
  exact ⟨hs'.cwd_eq, hs'.env_eq, hs'.tty_eq, hs'.tree.trans (FileTree.grows_insert hfree)⟩

/-- Saving the code of a path changes the content at its output place. -/
theorem Ready.node?_saved (h : s.Ready o path) (hcwd : Path.Clean s.cwd) (hout : o.out = [])
    {place : Path} :
    (saved s s' o path c).tree.node? place =
      if place = s.fullPath (outputPath o path) then some (.file c) else s'.tree.node? place :=
  FileTree.node?_insert (FileTree.ne_nil_of_not_isDir (h.writeOutput hcwd hout).1)

end OnePass.CommandLine.Session
