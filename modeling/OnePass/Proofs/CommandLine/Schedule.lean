import OnePass.Proofs.CommandLine.Board

namespace OnePass.CommandLine

open Session Board

section Schedules

variable {s : Session} {o : Settings} {limit : Int} {paths before rest : List Text} {b : Board} {p q : Text}

/-- The board after a job has run alone. -/
def Board.run (b : Board) (o : Settings) (p : Text) : Board :=
  { b.move p (.done (b.session.compileFile o true p).1) with session := (b.session.compileFile o true p).2.2 }

@[simp]
theorem run_session : (b.run o p).session = (b.session.compileFile o true p).2.2 := rfl

@[simp]
theorem run_stage :
    (b.run o p).stage q = if q = p then .done (b.session.compileFile o true p).1 else b.stage q :=
  Function.update_apply ..

theorem reaches_run (hp : b.stage p = .started) : Reaches o limit paths b (b.run o p) := by
  obtain ⟨hreport, hsession⟩ := compileFile_eq b.session o p
  have hread : Step o limit paths b (b.move p (.found o (b.session.finding o p))) := .read hp
  rw [Stage.found] at hread
  rw [Board.run, hreport, hsession, conclude]
  by_cases hsaves : saves o (b.session.finding o p)
  · rw [if_pos hsaves] at hread ⊢
    have hwrite : Step o limit paths (b.move p (.saving (b.session.finding o p)))
        ((b.move p (.saving (b.session.finding o p))).write o p (b.session.finding o p)) :=
      .write (by rw [move_stage, if_pos rfl])
    simp only [Board.write, Board.move, Function.update_idem] at hwrite
    exact .head hread (.single hwrite)
  · rw [if_neg hsaves] at hread ⊢
    exact .single hread

/-- A job that has started can come to its end. -/
theorem reaches_done (o : Settings) (limit : Int) (paths : List Text) (hp : b.stage p ≠ .waiting) :
    ∃ b', Reaches o limit paths b b' ∧ (∃ r, b'.stage p = .done r) ∧ ∀ q ≠ p, b'.stage q = b.stage q := by
  cases hstage : b.stage p with
  | waiting => exact absurd hstage hp
  | started => exact ⟨b.run o p, reaches_run hstage, by simp, fun q hq => by simp [hq]⟩
  | saving r => exact ⟨b.write o p r, .single (.write hstage), by simp, fun q hq => by simp [hq]⟩
  | done r => exact ⟨b, .refl, ⟨r, hstage⟩, fun _ _ => rfl⟩

theorem reaches_finished (hrest : ∀ p ∈ rest, b.stage p ≠ .waiting) :
    ∃ b', Reaches o limit paths b b' ∧ b'.Finished rest ∧ ∀ q ∉ rest, b'.stage q = b.stage q := by
  induction rest generalizing b with
  | nil => exact ⟨b, .refl, fun _ hp => (by cases hp), fun _ _ => rfl⟩
  | cons p rest ih =>
    obtain ⟨b₁, hreach₁, ⟨r, hr⟩, hframe₁⟩ := reaches_done o limit paths (hrest p List.mem_cons_self)
    have hrest₁ : ∀ q ∈ rest, b₁.stage q ≠ .waiting := by
      intro q hq
      by_cases hqp : q = p
      · simp [hqp, hr]
      · rw [hframe₁ q hqp]
        exact hrest q (List.mem_cons_of_mem _ hq)
    obtain ⟨b₂, hreach₂, hfinished, hframe₂⟩ := ih hrest₁
    refine ⟨b₂, hreach₁.trans hreach₂, fun q hq => ?_, fun q hq => ?_⟩
    · by_cases hmem : q ∈ rest
      · exact hfinished q hmem
      · rw [hframe₂ q hmem, (List.mem_cons.1 hq).resolve_right hmem]
        exact ⟨r, hr⟩
    · simp only [List.mem_cons, not_or] at hq
      rw [hframe₂ q hq.2, hframe₁ q hq.1]

/-- A list of jobs in front grows by one that has moved. -/
theorem forall_stage_concat {P : Stage → Prop} {b' : Board} {stage : Stage}
    (hmove : ∀ q, b'.stage q = if q = p then stage else b.stage q) (hbefore : ∀ q ∈ before, P (b.stage q))
    (hstage : P stage) : ∀ q ∈ before ++ [p], P (b'.stage q) := by
  intro q hq
  rw [hmove q]
  split
  · exact hstage
  · rename_i hqp
    exact hbefore q (by simpa [hqp] using hq)

theorem waiting_of_move {b' : Board} {stage : Stage} (hmove : ∀ q, b'.stage q = if q = p then stage else b.stage q)
    (hp : p ∉ rest) (hrest : ∀ q ∈ p :: rest, b.stage q = .waiting) : ∀ q ∈ rest, b'.stage q = .waiting := by
  intro q hq
  have hqp : q ≠ p := fun heq => hp (heq ▸ hq)
  rw [hmove q, if_neg hqp]
  exact hrest q (List.mem_cons_of_mem _ hq)

/-- Without a limit all jobs can start before the first of them reads. -/
theorem reaches_started (hpaths : paths = before ++ rest) (hnodup : rest.Nodup)
    (hbefore : ∀ p ∈ before, b.stage p ≠ .waiting) (hrest : ∀ p ∈ rest, b.stage p = .waiting) :
    ∃ b', Reaches o 0 paths b b' ∧ b'.session = b.session ∧ (∀ p ∈ rest, b'.stage p = .started) ∧
      ∀ q ∉ rest, b'.stage q = b.stage q := by
  induction rest generalizing b before with
  | nil => exact ⟨b, .refl, rfl, fun _ hp => (by cases hp), fun _ _ => rfl⟩
  | cons p rest ih =>
    obtain ⟨hp, hnodup⟩ := List.nodup_cons.1 hnodup
    have hstart : Step o 0 paths b (b.move p .started) :=
      .start before rest hpaths hbefore (hrest p List.mem_cons_self) (.inl (Int.le_refl 0))
    have hmove : ∀ q, (b.move p .started).stage q = if q = p then .started else b.stage q := fun _ => move_stage
    have hbefore' := forall_stage_concat (P := fun stage => stage ≠ .waiting) hmove hbefore (by simp)
    obtain ⟨b', hreach, hsession, hstarted, hframe⟩ :=
      ih (by simp [hpaths]) hnodup hbefore' (waiting_of_move hmove hp hrest)
    refine ⟨b', .head hstart hreach, hsession, fun q hq => ?_, fun q hq => ?_⟩
    · rcases List.mem_cons.1 hq with rfl | hq
      · simpa using hframe q hp
      · exact hstarted q hq
    · simp only [List.mem_cons, not_or] at hq
      simpa [hq.1] using hframe q hq.2

theorem load_eq_zero (hpaths : paths = before ++ rest) (hbefore : ∀ p ∈ before, ∃ r, b.stage p = .done r)
    (hrest : ∀ p ∈ rest, b.stage p = .waiting) : b.load paths = 0 := by
  rw [Board.load, List.countP_eq_zero]
  intro q hq
  rw [hpaths] at hq
  rcases List.mem_append.1 hq with hq | hq
  · obtain ⟨r, hr⟩ := hbefore q hq
    simp [hr, Stage.running]
  · simp [hrest q hq, Stage.running]

/-- Compiling files one after the other is a schedule under every limit. -/
theorem reaches_compileFiles (hpaths : paths = before ++ rest) (hnodup : rest.Nodup)
    (hbefore : ∀ p ∈ before, ∃ r, b.stage p = .done r) (hrest : ∀ p ∈ rest, b.stage p = .waiting) :
    ∃ b', Reaches o limit paths b b' ∧ b'.session = (compileFiles o true b.session rest).2.2 ∧
      rest.map b'.stage = (compileFiles o true b.session rest).1.map .done ∧
      ∀ q ∉ rest, b'.stage q = b.stage q := by
  induction rest generalizing b before with
  | nil => exact ⟨b, .refl, rfl, rfl, fun _ _ => rfl⟩
  | cons p rest ih =>
    obtain ⟨hp, hnodup⟩ := List.nodup_cons.1 hnodup
    have hload := load_eq_zero hpaths hbefore hrest
    have hstart : Step o limit paths b (b.move p .started) := by
      refine .start before rest hpaths (fun q hq => ?_) (hrest p List.mem_cons_self) (by omega)
      obtain ⟨r, hr⟩ := hbefore q hq
      simp [hr]
    have hrun : Reaches o limit paths (b.move p .started) ((b.move p .started).run o p) :=
      reaches_run (by simp)
    have hmove : ∀ q, ((b.move p .started).run o p).stage q =
        if q = p then .done (b.session.compileFile o true p).1 else b.stage q := by
      intro q
      by_cases hqp : q = p <;> simp [hqp]
    have hbefore' := forall_stage_concat (P := fun stage => ∃ r, stage = .done r) hmove hbefore (by simp)
    obtain ⟨b', hreach, hsession, hreports, hframe⟩ :=
      ih (by simp [hpaths]) hnodup hbefore' (waiting_of_move hmove hp hrest)
    refine ⟨b', .head hstart (hrun.trans hreach), hsession, ?_, fun q hq => ?_⟩
    · have hdone : b'.stage p = .done (b.session.compileFile o true p).1 := by
        simpa using hframe p hp
      rw [List.map_cons, hdone, hreports]
      rfl
    · simp only [List.mem_cons, not_or] at hq
      rw [hframe q hq.2, hmove q, if_neg hq.1]

theorem Faithful.done (hfaithful : Faithful s o paths b) (hfinished : b.Finished paths) (hp : p ∈ paths) :
    b.stage p = .done (s.compileFile o true p).1 := by
  have hreport : ∀ q ∈ paths, b.stage q = .done ((b.stage q).report?.getD (s.finding o q)) := by
    intro q hq
    obtain ⟨r, hr⟩ := hfinished q hq
    simp [hr, Stage.report?]
  have hmap := (reports_eq_map hreport).symm.trans hfaithful.reports_eq
  rw [hreport p hp, List.map_inj_left.1 hmap p hp]

/-- A file that another one feeds can be read too late. -/
theorem exists_unfaithful_of_feeds (h : Batch s o paths) (hp : p ∈ paths) (hq : q ∈ paths) (hne : p ≠ q)
    (hfeeds : Feeds s o p q) :
    ∃ b, Reaches o 0 paths (.initial s) b ∧ b.Finished paths ∧ ¬Faithful s o paths b := by
  obtain ⟨hcompiles, hplace, hverdict⟩ := hfeeds
  obtain ⟨b₁, hreach₁, hsession₁, hstarted, -⟩ :=
    reaches_started (o := o) (b := .initial s) (List.nil_append paths).symm h.nodup (by simp) (fun _ _ => rfl)
  -- with all jobs started, the first one runs to its end
  have hreach₂ : Reaches o 0 paths b₁ (b₁.run o p) := reaches_run (hstarted p hp)
  -- then the other one reads
  have hfound : (b₁.run o p).session.finding o q = s.verdict o q (s.finding o p).assembly := by
    have hsession₂ : (b₁.run o p).session = saved s s o p (s.finding o p).assembly := by
      rw [run_session, hsession₁]
      exact h.compileFile_session hp hcompiles
    rw [hsession₂, h.finding_saved (.refl s) hp hq, if_pos hplace]
  have hstep₃ : Step o 0 paths (b₁.run o p)
      ((b₁.run o p).move q (.found o (s.verdict o q (s.finding o p).assembly))) := by
    rw [← hfound]
    exact .read (by simp [Ne.symm hne, hstarted q hq])
  have hreach₃ := (hreach₁.trans hreach₂).tail hstep₃
  have hstage : ∀ x ∈ paths,
      ((b₁.run o p).move q (.found o (s.verdict o q (s.finding o p).assembly))).stage x ≠ .waiting := by
    intro x hx
    rw [move_stage, run_stage, Stage.found]
    split_ifs <;> simp [hstarted x hx]
  -- what it has found stays in its report, whatever else happens
  obtain ⟨b₄, hreach₄, hfinished, -⟩ := reaches_finished hstage
  refine ⟨b₄, hreach₃.trans hreach₄, hfinished, fun hfaithful => hverdict ?_⟩
  have hfinding := (Sane.initial.reaches h hreach₃).finding?_reaches h hreach₄ (p := q)
    (by rw [move_stage, if_pos rfl]; exact Stage.finding?_found rfl)
  rw [hfaithful.done hfinished hq, h.finding?_compileFile hq] at hfinding
  exact (Option.some.inj hfinding).symm

/-- Two files with different code for one place cannot both have left it there. -/
theorem not_faithful_of_clashes (h : Batch s o paths) (hp : p ∈ paths) (hq : q ∈ paths)
    (hclashes : Clashes s o p q) (hb : Sane s paths b) : ¬Faithful s o paths b := by
  obtain ⟨hpfailure, hqfailure, hplace, hcode⟩ := hclashes
  intro hfaithful
  have hholds : ∀ x ∈ paths, (s.finding o x).failure = none →
      b.session.readSource (outputPath o x) = .ok (s.finding o x).assembly := by
    intro x hx hnone
    have hfile := h.compileFile_report hx
    rw [if_pos hnone] at hfile
    have hmem : (s.compileFile o true x).1 ∈ b.reports paths := by
      rw [hfaithful.reports_eq]
      exact List.mem_map_of_mem hx
    rw [hfile] at hmem
    exact hfaithful.written _ hmem _ rfl
  have hpread := hholds p hp hpfailure
  have hqread := hholds q hq hqfailure
  rw [readSource, hb.grown.fullPath] at hpread hqread
  rw [hplace, hqread] at hpread
  exact hcode (Except.ok.inj hpread).symm

theorem exists_schedule (h : Batch s o paths) (limit : Int) :
    ∃ b, Reaches o limit paths (.initial s) b ∧ b.Finished paths ∧
      b.reports paths = (compileFiles o true s paths).1 ∧ b.session = (compileFiles o true s paths).2.2 := by
  obtain ⟨b, hreach, hsession, hstages, -⟩ :=
    reaches_compileFiles (o := o) (b := .initial s) (List.nil_append paths).symm h.nodup (by simp) (fun _ _ => rfl)
  refine ⟨b, hreach, fun p hp => ?_, ?_, hsession⟩
  · have hmem : b.stage p ∈ paths.map b.stage := List.mem_map_of_mem hp
    rw [hstages] at hmem
    obtain ⟨r, -, hr⟩ := List.mem_map.1 hmem
    exact ⟨r, hr.symm⟩
  · have hreports : b.reports paths = (paths.map b.stage).filterMap Stage.report? := by
      rw [List.filterMap_map]
      rfl
    rw [hreports, hstages, List.filterMap_map]
    exact List.filterMap_some

/-- Every schedule of a batch, under every limit, is faithful exactly if no file of the batch disturbs another. The
files compiled in order are one of these schedules. -/
theorem schedules_faithful_iff (h : Batch s o paths) :
    (∀ limit, ∃ b, Reaches o limit paths (.initial s) b ∧ b.Finished paths ∧
      b.reports paths = (compileFiles o true s paths).1 ∧ b.session = (compileFiles o true s paths).2.2) ∧
    ((∀ limit b, Reaches o limit paths (.initial s) b → b.Finished paths → Faithful s o paths b) ↔
      ∀ p ∈ paths, ∀ q ∈ paths, p ≠ q → ¬Feeds s o p q ∧ ¬Clashes s o p q) := by
  refine ⟨exists_schedule h, fun hall p hp q hq hne => ⟨fun hfeeds => ?_, fun hclashes => ?_⟩,
    fun hapart limit b hreach hfinished => ?_⟩
  · obtain ⟨b, hreach, hfinished, hnot⟩ := exists_unfaithful_of_feeds h hp hq hne hfeeds
    exact hnot (hall 0 b hreach hfinished)
  · obtain ⟨b, hreach, hfinished, -⟩ := exists_schedule h 0
    exact not_faithful_of_clashes h hp hq hclashes (Sane.initial.reaches h hreach) (hall 0 b hreach hfinished)
  · have hkept : Kept s o paths (.initial s) := fun _ _ => rfl
    exact (hkept.reaches .initial h hapart hreach).faithful (Sane.initial.reaches h hreach) h hfinished

end Schedules

/-- A session in a folder with the given files. -/
def folder (files : List (Text × Text)) : Session where
  cwd := (["w"] : List Text)
  tree := ⟨((["w"] : List Text), .dir) :: files.map fun f => ((["w", f.1] : List Text), .file f.2)⟩

theorem folder_cwd (files : List (Text × Text)) : Path.Clean (folder files).cwd := by
  intro n hn
  rw [List.mem_singleton.1 hn]
  exact ⟨by decide, by decide, by decide, by decide⟩

/-- A folder with a program and a file that is none. -/
def sharedFolder : Session := folder [("a.tpl", "program p; begin ; end;"), ("b.tpl", "oops")]

/-- Two names of the program and the other file. -/
def sharedPaths : List Text := ["a.tpl", "./a.tpl", "b.tpl"]

theorem batch_sharedFolder : Batch sharedFolder {} sharedPaths where
  cwd_clean := folder_cwd _
  out := rfl
  stdout := rfl
  nodup := by decide
  ready := by
    intro p hp
    simp only [sharedPaths, List.mem_cons, List.not_mem_nil, or_false] at hp
    rcases hp with rfl | rfl | rfl <;> exact ⟨⟨_, rfl⟩, rfl⟩

theorem schedules_faithful_iff_sharedFolder :
    Batch sharedFolder {} sharedPaths ∧
      ∀ limit b, Reaches {} limit sharedPaths (.initial sharedFolder) b → b.Finished sharedPaths →
        Faithful sharedFolder {} sharedPaths b := by
  have hinputs : ∀ p ∈ sharedPaths, ∀ q ∈ sharedPaths,
      sharedFolder.fullPath (outputPath {} p) ≠ sharedFolder.fullPath q := by
    decide +kernel
  have hcodes : ∀ p ∈ sharedPaths, ∀ q ∈ sharedPaths,
      sharedFolder.fullPath (outputPath {} p) = sharedFolder.fullPath (outputPath {} q) →
        (sharedFolder.finding {} p).assembly = (sharedFolder.finding {} q).assembly := by
    decide +kernel
  refine ⟨batch_sharedFolder, (schedules_faithful_iff batch_sharedFolder).2.2 fun p hp q hq _ => ⟨?_, ?_⟩⟩
  · exact fun hfeeds => hinputs p hp q hq hfeeds.2.1
  · exact fun hclashes => hclashes.2.2.2 (hcodes p hp q hq hclashes.2.2.1)

/-- A folder where the output of the program is the other file. -/
def crossedFolder : Session := folder [("a.tpl", "program p; begin ; end;"), ("a.tral", "oops")]

theorem batch_crossedFolder : Batch crossedFolder {} ["a.tpl", "a.tral"] where
  cwd_clean := folder_cwd _
  out := rfl
  stdout := rfl
  nodup := by decide
  ready := by
    intro p hp
    simp only [List.mem_cons, List.not_mem_nil, or_false] at hp
    rcases hp with rfl | rfl <;> exact ⟨⟨_, rfl⟩, rfl⟩

/-- Even with one job at a time the second file is read after it was written over. -/
theorem crossedFolder_unfaithful :
    Batch crossedFolder {} ["a.tpl", "a.tral"] ∧
      ∃ b, Reaches {} 1 ["a.tpl", "a.tral"] (.initial crossedFolder) b ∧ b.Finished ["a.tpl", "a.tral"] ∧
        ¬Faithful crossedFolder {} ["a.tpl", "a.tral"] b := by
  obtain ⟨b, hreach, hfinished, hreports, -⟩ := exists_schedule batch_crossedFolder 1
  refine ⟨batch_crossedFolder, b, hreach, hfinished, fun hfaithful => ?_⟩
  have houtcomes := congrArg (List.map FileReport.outcome) (hreports.symm.trans hfaithful.reports_eq)
  exact absurd houtcomes (by decide +kernel)

end OnePass.CommandLine
