import Mathlib.Data.List.Nodup
import Mathlib.Logic.Function.Basic
import Mathlib.Logic.Relation
import OnePass.Proofs.CommandLine.Session

/-!
Files compiled at the same time. Each file is a job that reads its input and then writes its output; jobs start in
order while a slot is free, and from then on their reads and writes interleave freely. Two invariants of every way
through a batch: the session only grows, and, if no file disturbs another, each job is where it would be alone.
-/

namespace OnePass.CommandLine

open Session Relation

/-- How far the job of one file has come. -/
inductive Stage where
  | waiting
  | started
  /-- The file compiled, and its code is still to be written. -/
  | saving (r : FileReport)
  | done (r : FileReport)

namespace Stage

/-- A job holds its slot from its start to its end. -/
def running : Stage → Bool
  | started | saving _ => true
  | waiting | done _ => false

def report? : Stage → Option FileReport
  | done r => some r
  | _ => none

/-- What the job found when it read its file. -/
def finding? : Stage → Option FileReport
  | saving r => some r
  | done r => some { r with written := none }
  | _ => none

/-- The stage of a job that has read its file. -/
def found (o : Settings) (r : FileReport) : Stage := if saves o r then saving r else done r

end Stage

/-- Jobs on one file tree. -/
structure Board where
  session : Session
  stage : Text → Stage

namespace Board

def initial (s : Session) : Board := ⟨s, fun _ => .waiting⟩

def move (b : Board) (path : Text) (stage : Stage) : Board :=
  { b with stage := Function.update b.stage path stage }

/-- How many jobs are in flight. -/
def load (b : Board) (paths : List Text) : Nat := paths.countP fun p => (b.stage p).running

def Finished (b : Board) (paths : List Text) : Prop := ∀ p ∈ paths, ∃ r, b.stage p = .done r

/-- The reports of the jobs that are done, in the order of their paths. -/
def reports (b : Board) (paths : List Text) : List FileReport :=
  paths.filterMap fun p => (b.stage p).report?

/-- The board after a job has written its code. -/
def write (b : Board) (o : Settings) (path : Text) (r : FileReport) : Board :=
  { b.move path (.done (b.session.save o r).1) with session := (b.session.save o r).2 }

/-- One step of one job; a limit that is not positive stands for none. -/
inductive Step (o : Settings) (limit : Int) (paths : List Text) : Board → Board → Prop where
  | start {b : Board} {path : Text} (before after : List Text) (hpaths : paths = before ++ path :: after)
    (hbefore : ∀ p ∈ before, b.stage p ≠ .waiting) (hpath : b.stage path = .waiting)
    (hslot : limit ≤ 0 ∨ b.load paths < limit) : Step o limit paths b (b.move path .started)
  | read {b : Board} {path : Text} (hpath : b.stage path = .started) :
    Step o limit paths b (b.move path (.found o (b.session.finding o path)))
  | write {b : Board} {path : Text} {r : FileReport} (hpath : b.stage path = .saving r) :
    Step o limit paths b (b.write o path r)

abbrev Reaches (o : Settings) (limit : Int) (paths : List Text) : Board → Board → Prop :=
  ReflTransGen (Step o limit paths)

variable {s : Session} {o : Settings} {limit : Int} {paths : List Text} {b b' : Board}
  {path p q : Text} {r : FileReport} {stage : Stage}

@[simp]
theorem move_session : (b.move path stage).session = b.session := rfl

@[simp]
theorem move_stage : (b.move path stage).stage p = if p = path then stage else b.stage p :=
  Function.update_apply ..

@[simp]
theorem write_session : (b.write o path r).session = (b.session.save o r).2 := rfl

@[simp]
theorem write_stage :
    (b.write o path r).stage p = if p = path then .done (b.session.save o r).1 else b.stage p :=
  Function.update_apply ..

end Board

open Board

/-- Distinct paths that can all be worked on, with their outputs beside them. -/
structure Batch (s : Session) (o : Settings) (paths : List Text) : Prop where
  cwd_clean : Path.Clean s.cwd
  out : o.out = []
  stdout : o.stdout = false
  nodup : paths.Nodup
  ready : ∀ p ∈ paths, s.Ready o p

/-- A board on which every file was compiled as it was in the beginning, and every output that is reported holds
the code reported with it. -/
structure Faithful (s : Session) (o : Settings) (paths : List Text) (b : Board) : Prop where
  reports_eq : b.reports paths = paths.map fun p => (s.compileFile o true p).1
  written : ∀ r ∈ b.reports paths, ∀ dest, r.written = some dest → b.session.readSource dest = .ok r.assembly

/-- The output of one file is the input of another that would be reported on differently with it. -/
def Feeds (s : Session) (o : Settings) (p q : Text) : Prop :=
  (s.finding o p).failure = none ∧ s.fullPath (outputPath o p) = s.fullPath q ∧
    s.verdict o q (s.finding o p).assembly ≠ s.finding o q

/-- Two files have different code for one output. -/
def Clashes (s : Session) (o : Settings) (p q : Text) : Prop :=
  (s.finding o p).failure = none ∧ (s.finding o q).failure = none ∧
    s.fullPath (outputPath o p) = s.fullPath (outputPath o q) ∧
    (s.finding o p).assembly ≠ (s.finding o q).assembly

section Invariants

variable {s : Session} {o : Settings} {limit : Int} {paths : List Text} {b b' : Board}
  {path p q : Text} {r : FileReport}

theorem Batch.save (h : Batch s o paths) (hp : p ∈ paths) :
    s.save o (s.finding o p) = ({ s.finding o p with written := some (outputPath o p) },
      saved s s o p (s.finding o p).assembly) :=
  (h.ready p hp).save h.cwd_clean h.out (.refl s) finding_path

theorem Batch.compileFile_report (h : Batch s o paths) (hp : p ∈ paths) :
    (s.compileFile o true p).1 =
      if (s.finding o p).failure = none then { s.finding o p with written := some (outputPath o p) }
      else s.finding o p := by
  rw [(compileFile_eq s o p).1, conclude, saves, h.stdout]
  by_cases hnone : (s.finding o p).failure = none <;> simp [hnone, h.save hp]

theorem Batch.compileFile_session (h : Batch s o paths) (hp : p ∈ paths)
    (hnone : (s.finding o p).failure = none) :
    (s.compileFile o true p).2.2 = saved s s o p (s.finding o p).assembly := by
  rw [(compileFile_eq s o p).2, conclude, saves, h.stdout]
  simp [hnone, h.save hp]

theorem Stage.finding?_done (hr : r.written = none) : (done r).finding? = some r := by
  cases r
  simp_all [finding?]

theorem Stage.finding?_found (hr : r.written = none) : (found o r).finding? = some r := by
  rw [found]
  split
  · rfl
  · exact finding?_done hr

theorem Batch.finding?_compileFile (h : Batch s o paths) (hp : p ∈ paths) :
    (Stage.done (s.compileFile o true p).1).finding? = some (s.finding o p) := by
  rw [h.compileFile_report hp]
  split
  · exact Stage.finding?_done finding_written
  · exact Stage.finding?_done finding_written

/-- Only the given paths have jobs, and a job that is to write has its own report. -/
def Stage.Owned (paths : List Text) (p : Text) : Stage → Prop
  | waiting => True
  | started | done _ => p ∈ paths
  | saving r => p ∈ paths ∧ r.path = p ∧ r.written = none

/-- What holds on the way of every batch. -/
structure Sane (s : Session) (paths : List Text) (b : Board) : Prop where
  grown : Grown s b.session
  owned : ∀ p, (b.stage p).Owned paths p

theorem Sane.initial : Sane s paths (.initial s) := ⟨.refl s, fun _ => trivial⟩

theorem Sane.mem (hb : Sane s paths b) (hp : b.stage p ≠ .waiting) : p ∈ paths := by
  have howned := hb.owned p
  cases hstage : b.stage p with
  | waiting => exact absurd hstage hp
  | started | done r => rwa [hstage] at howned
  | saving r =>
    rw [hstage] at howned
    exact howned.1

theorem Sane.saving (hb : Sane s paths b) (hp : b.stage p = .saving r) :
    p ∈ paths ∧ r.path = p ∧ r.written = none := by
  have howned := hb.owned p
  rwa [hp] at howned

theorem Sane.save (hb : Sane s paths b) (h : Batch s o paths) (hp : b.stage p = .saving r) :
    b.session.save o r =
      ({ r with written := some (outputPath o p) }, saved s b.session o p r.assembly) := by
  obtain ⟨hmem, hpath, -⟩ := hb.saving hp
  exact (h.ready p hmem).save h.cwd_clean h.out hb.grown hpath

theorem Sane.owned_move {stage : Stage} (hb : Sane s paths b) (hstage : stage.Owned paths path) (p : Text) :
    ((b.move path stage).stage p).Owned paths p := by
  by_cases hpp : p = path
  · subst hpp
    rwa [move_stage, if_pos rfl]
  · rw [move_stage, if_neg hpp]
    exact hb.owned p

theorem Sane.step (hb : Sane s paths b) (h : Batch s o paths) (hstep : Step o limit paths b b') :
    Sane s paths b' := by
  cases hstep with
  | start before after hpaths hbefore hpath hslot =>
    exact ⟨hb.grown, hb.owned_move (by simp [Stage.Owned, hpaths])⟩
  | @read path hpath =>
    have hmem : path ∈ paths := hb.mem (by simp [hpath])
    refine ⟨hb.grown, hb.owned_move ?_⟩
    rw [Stage.found]
    split <;> simp [Stage.Owned, hmem]
  | @write path r hpath =>
    obtain ⟨hmem, -, -⟩ := hb.saving hpath
    refine ⟨?_, hb.owned_move hmem⟩
    rw [write_session, hb.save h hpath]
    exact (h.ready path hmem).grown h.cwd_clean h.out hb.grown

theorem Sane.reaches (hb : Sane s paths b) (h : Batch s o paths) (hreach : Reaches o limit paths b b') :
    Sane s paths b' := by
  induction hreach with
  | refl => exact hb
  | tail _ hstep ih => exact ih.step h hstep

theorem finding?_move {stage : Stage} (hpath : (b.stage path).finding? = none)
    (hp : (b.stage p).finding? = some r) : ((b.move path stage).stage p).finding? = some r := by
  have hpp : p ≠ path := by
    intro heq
    rw [heq, hpath] at hp
    cases hp
  rwa [move_stage, if_neg hpp]

/-- What a job has found does not change any more. -/
theorem Sane.finding? (hb : Sane s paths b) (h : Batch s o paths) (hstep : Step o limit paths b b')
    (hp : (b.stage p).finding? = some r) : (b'.stage p).finding? = some r := by
  cases hstep with
  | start before after hpaths hbefore hpath hslot => exact finding?_move (by rw [hpath]; rfl) hp
  | read hpath => exact finding?_move (by rw [hpath]; rfl) hp
  | @write path r' hpath =>
    by_cases hpp : p = path
    · subst hpp
      obtain ⟨-, -, hwritten⟩ := hb.saving hpath
      rw [write_stage, if_pos rfl, hb.save h hpath]
      rw [hpath] at hp
      exact (Stage.finding?_done hwritten).trans hp
    · rwa [write_stage, if_neg hpp]

theorem Sane.finding?_reaches (hb : Sane s paths b) (h : Batch s o paths)
    (hreach : Reaches o limit paths b b') (hp : (b.stage p).finding? = some r) :
    (b'.stage p).finding? = some r := by
  induction hreach with
  | refl => exact hp
  | tail hreach hstep ih => exact (hb.reaches h hreach).finding? h hstep ih

/-- A job as it would be without the others: before it has read its file, it would find what it would have found in
the beginning; code that it has written is still there. -/
def Stage.Kept (s : Session) (o : Settings) (now : Session) (p : Text) : Stage → Prop
  | waiting | started => now.finding o p = s.finding o p
  | saving r => r = s.finding o p ∧ r.failure = none
  | done r => r = (s.compileFile o true p).1 ∧ ((s.finding o p).failure = none →
      now.tree.node? (s.fullPath (outputPath o p)) = some (.file (s.finding o p).assembly))

def Kept (s : Session) (o : Settings) (paths : List Text) (b : Board) : Prop :=
  ∀ p ∈ paths, (b.stage p).Kept s o b.session p

/-- No file of a list disturbs another. -/
def Apart (s : Session) (o : Settings) (paths : List Text) : Prop :=
  ∀ p ∈ paths, ∀ q ∈ paths, p ≠ q → ¬Feeds s o p q ∧ ¬Clashes s o p q

/-- Once code was written over an input, that code is what the job finds. -/
theorem Batch.finding_saved (h : Batch s o paths) {now : Session} (hnow : Grown s now) (hpmem : p ∈ paths)
    (hqmem : q ∈ paths) {code : Text} :
    (saved s now o p code).finding o q =
      if s.fullPath (outputPath o p) = s.fullPath q then s.verdict o q code else now.finding o q := by
  have hready := h.ready p hpmem
  obtain ⟨source, hread⟩ := (h.ready q hqmem).readable
  obtain ⟨c, hc, hfind⟩ := hnow.finding h.cwd_clean hread (o := o)
  obtain ⟨c', hc', hfind'⟩ := (hready.grown h.cwd_clean h.out hnow).finding h.cwd_clean hread (o := o)
  rw [hready.node?_saved h.cwd_clean h.out, hc] at hc'
  by_cases hplace : s.fullPath (outputPath o p) = s.fullPath q
  · rw [if_pos hplace.symm] at hc'
    cases hc'
    rw [if_pos hplace, hfind']
  · rw [if_neg (Ne.symm hplace)] at hc'
    cases hc'
    rw [if_neg hplace, hfind', hfind]

/-- Code that is no other job's input and that no other code is to replace leaves other jobs as they are. -/
theorem Stage.Kept.saved {now : Session} {stage : Stage} (hq : stage.Kept s o now q) (h : Batch s o paths)
    (hnow : Grown s now) (hpmem : p ∈ paths) (hqmem : q ∈ paths) (hcompiles : (s.finding o p).failure = none)
    (hfeeds : ¬Feeds s o p q) (hclashes : ¬Clashes s o p q) :
    stage.Kept s o (saved s now o p (s.finding o p).assembly) q := by
  have hpending : now.finding o q = s.finding o q →
      (Session.saved s now o p (s.finding o p).assembly).finding o q = s.finding o q := by
    intro hkept
    rw [h.finding_saved hnow hpmem hqmem]
    split
    · rename_i hplace
      by_contra hne
      exact hfeeds ⟨hcompiles, hplace, hne⟩
    · exact hkept
  cases stage with
  | waiting | started => exact hpending hq
  | saving r => exact hq
  | done r =>
    refine ⟨hq.1, fun hnone => ?_⟩
    rw [(h.ready p hpmem).node?_saved h.cwd_clean h.out]
    split
    · rename_i hplace
      by_contra hne
      exact hclashes ⟨hcompiles, hnone, hplace.symm, fun heq => hne (by rw [heq])⟩
    · exact hq.2 hnone

/-- A job that has found what it would have found in the beginning. -/
theorem Batch.kept_found (h : Batch s o paths) (hp : p ∈ paths) {now : Session} :
    (Stage.found o (s.finding o p)).Kept s o now p := by
  have hfile := h.compileFile_report hp
  rw [Stage.found, saves, h.stdout]
  by_cases hnone : (s.finding o p).failure = none
  · rw [if_pos (by simp [hnone])]
    exact ⟨rfl, hnone⟩
  · rw [if_neg (by simp [hnone])]
    rw [if_neg hnone] at hfile
    exact ⟨hfile.symm, fun h => absurd h hnone⟩

/-- A job that has written that. -/
theorem Batch.kept_saved (h : Batch s o paths) (hp : p ∈ paths) (hnone : (s.finding o p).failure = none)
    {now : Session} :
    (Stage.done { s.finding o p with written := some (outputPath o p) }).Kept s o
      (saved s now o p (s.finding o p).assembly) p := by
  have hfile := h.compileFile_report hp
  rw [if_pos hnone] at hfile
  refine ⟨hfile.symm, fun _ => ?_⟩
  rw [(h.ready p hp).node?_saved h.cwd_clean h.out, if_pos rfl]

theorem Kept.move {stage : Stage} (hk : Kept s o paths b) (hstage : stage.Kept s o b.session path) :
    Kept s o paths (b.move path stage) := by
  intro p hp
  by_cases hpp : p = path
  · subst hpp
    rwa [move_stage, if_pos rfl]
  · rw [move_stage, if_neg hpp]
    exact hk p hp

theorem Kept.step (hk : Kept s o paths b) (hb : Sane s paths b) (h : Batch s o paths)
    (hapart : Apart s o paths) (hstep : Step o limit paths b b') : Kept s o paths b' := by
  cases hstep with
  | @start path before after hpaths hbefore hpath hslot =>
    have hkept := hk path (by simp [hpaths])
    rw [hpath] at hkept
    exact hk.move hkept
  | @read path hpath =>
    have hmem : path ∈ paths := hb.mem (by simp [hpath])
    have hkept := hk path hmem
    rw [hpath] at hkept
    refine hk.move ?_
    rw [show b.session.finding o path = s.finding o path from hkept]
    exact h.kept_found hmem
  | @write path r hpath =>
    obtain ⟨hmem, -, -⟩ := hb.saving hpath
    obtain ⟨rfl, hcompiles⟩ : r = s.finding o path ∧ r.failure = none := by
      have hkept := hk path hmem
      rwa [hpath] at hkept
    intro p hp
    rw [write_session, write_stage, hb.save h hpath]
    by_cases hpp : p = path
    · subst hpp
      rw [if_pos rfl]
      exact h.kept_saved hp hcompiles
    · obtain ⟨hfeeds, hclashes⟩ := hapart path hmem p hp (Ne.symm hpp)
      rw [if_neg hpp]
      exact (hk p hp).saved h hb.grown hmem hp hcompiles hfeeds hclashes

theorem Kept.reaches (hk : Kept s o paths b) (hb : Sane s paths b) (h : Batch s o paths)
    (hapart : Apart s o paths) (hreach : Reaches o limit paths b b') : Kept s o paths b' := by
  induction hreach with
  | refl => exact hk
  | tail hreach hstep ih => exact ih.step (hb.reaches h hreach) h hapart hstep

theorem reports_eq_map {f : Text → FileReport} (hdone : ∀ p ∈ paths, b.stage p = .done (f p)) :
    b.reports paths = paths.map f := by
  rw [reports, ← List.filterMap_eq_map]
  apply List.filterMap_congr
  intro p hp
  rw [hdone p hp]
  rfl

theorem Kept.faithful (hk : Kept s o paths b) (hb : Sane s paths b) (h : Batch s o paths)
    (hfinished : b.Finished paths) : Faithful s o paths b := by
  have hdone : ∀ p ∈ paths, b.stage p = .done (s.compileFile o true p).1 := by
    intro p hp
    obtain ⟨r, hr⟩ := hfinished p hp
    have hkept := hk p hp
    rw [hr] at hkept ⊢
    rw [hkept.1]
  refine ⟨reports_eq_map hdone, ?_⟩
  rw [reports_eq_map hdone]
  intro r hr dest hdest
  obtain ⟨p, hp, rfl⟩ := List.mem_map.1 hr
  rw [h.compileFile_report hp] at hdest ⊢
  split at hdest
  · rename_i hnone
    have hkept := hk p hp
    rw [hdone p hp] at hkept
    obtain ⟨init, name, -, -, -, hpass⟩ := (h.ready p hp).output h.cwd_clean h.out
    cases hdest
    rw [if_pos hnone, readSource_eq_ok_iff (hb.grown.cwd_eq ▸ h.cwd_clean), hb.grown.fullPath,
      hb.grown.tree.passable]
    exact ⟨hpass, hkept.2 hnone⟩
  · simp at hdest

end Invariants

end OnePass.CommandLine
