import MarkerCopy.Proofs.Calls
import MarkerCopy.Proofs.Delivery
import MarkerCopy.Proofs.Resolving

/-! Plans outlive whatever is done after them. An action can only make a file system grow, so a
plan that was once made for a request is the plan for that request ever after. -/

namespace MarkerCopy

open FileSystem

variable {fs gs : FileSystem} {cwd : WorkingDirectory} {request : Request} {plan : Plan}

namespace FileSystem

theorem plan_mono (h : request.plan (fs.canonical cwd request.infile) = .ok plan)
    (hg : fs.Grows gs) : request.plan (gs.canonical cwd request.infile) = .ok plan := by
  obtain ⟨name, hp⟩ := planned_of_plan h
  rw [canonical_mono hp.resolved hg, ← hp.resolved]
  exact h

theorem grows_carryOut (hc : fs.isDirectory cwd.above) (plan : Plan) :
    fs.Grows (((disk cwd).carryOut plan).run fs).2 := by
  rcases hr : ((disk cwd).carryOut plan).run fs with ⟨failure | report, after⟩
  · exact (adds_of_carryOut_error hc hr).grows
  · obtain ⟨d⟩ := delivery_of_carryOut hc hr
    exact d.grows

theorem grows_execute (hc : fs.isDirectory cwd.above) (dryRun : Bool) (plan : Plan) :
    fs.Grows (((disk cwd).execute dryRun plan).run fs).2 := by
  cases dryRun with
  | true =>
    rw [run_execute_dry]
    exact .refl fs
  | false =>
    rw [run_execute]
    exact grows_carryOut hc plan

theorem grows_run (hc : fs.isDirectory cwd.above) (request : Request) :
    fs.Grows (((disk cwd).run request).run fs).2 := by
  cases hp : request.plan (fs.canonical cwd request.infile) with
  | error failure =>
    rw [run_request_of_error hp]
    exact .refl fs
  | ok plan =>
    rw [run_request_of_ok hp]
    exact grows_execute hc request.dryRun plan

end FileSystem

/-- What a program can be asked to do. -/
inductive Action where
  | call (call : Call)
  | execute (dryRun : Bool) (plan : Plan)

namespace Action

def after (action : Action) (cwd : WorkingDirectory) (fs : FileSystem) : FileSystem :=
  match action with
  | call made => made.after cwd fs
  | execute dryRun plan => (((disk cwd).execute dryRun plan).run fs).2

theorem grows_after (action : Action) (hc : fs.isDirectory cwd.above) :
    fs.Grows (action.after cwd fs) := by
  cases action with
  | call made =>
    dsimp only [after]
    rw [Call.after_eq]
    cases made.request? with
    | none => exact .refl fs
    | some request => exact grows_run hc request
  | execute dryRun plan => exact grows_execute hc dryRun plan

end Action

/-- One action, whichever process does it and wherever that process is. -/
def ActionStep (fs gs : FileSystem) : Prop :=
  ∃ cwd action, fs.isDirectory (WorkingDirectory.above cwd) ∧ gs = Action.after action cwd fs

abbrev ActionReachable := Relation.ReflTransGen ActionStep

theorem ActionStep.grows (h : ActionStep fs gs) : fs.Grows gs := by
  obtain ⟨cwd, action, hc, rfl⟩ := h
  exact action.grows_after hc

theorem ActionReachable.grows (h : ActionReachable fs gs) : fs.Grows gs := by
  induction h with
  | refl => exact .refl fs
  | tail _ hs ih => exact ih.trans hs.grows

/-- However many actions follow, a request that was planned has the same plan, and carrying out the
old plan does what a new run of the request does. -/
theorem plan_after_actions (h : ActionReachable fs gs)
    (hp : (((disk cwd).plan request).run fs).1 = .ok plan) :
    ((disk cwd).plan request).run gs = (.ok plan, gs) ∧
      ((disk cwd).execute request.dryRun plan).run gs = ((disk cwd).run request).run gs := by
  have hplan := plan_mono hp h.grows
  refine ⟨?_, (run_request_of_ok hplan).symm⟩
  rw [run_plan, hplan]

def plannedFiles : FileSystem :=
  ofEntries [("/src/pkg/f", .file ⟨#[1, 2, 3]⟩ ⟨0o600⟩)]

def plannedRequest : Request :=
  { infile := .ofString "/src/pkg/../pkg/f", outdir := "/out", marker := .source, dryRun := false }

def plannedPlan : Plan where
  source := .ofString "/src/pkg/../pkg/f"
  canonicalSource := .ofString "/src/pkg/f"
  marker := .source
  relativeDir := "pkg"
  relativeFile := "pkg/f"
  destinationDir := .ofString "/out/pkg"
  destinationFile := .ofString "/out/pkg/f"

/-- A copy of the file onto itself, which empties it. -/
def emptyingAction : Action :=
  .call (.run { plannedRequest with outdir := "/src" })

/-- A copy of a directory, which fails after the destination directory was made. -/
def failingAction : Action :=
  .execute false { plannedPlan with source := .ofString "/src/pkg" }

theorem plan_after_emptying :
    let home : WorkingDirectory := .ofLocation []
    let after := failingAction.after home (emptyingAction.after home plannedFiles)
    ((disk home).plan plannedRequest).run after = (.ok plannedPlan, after) ∧
      ((disk home).execute false plannedPlan).run after =
        ((disk home).run plannedRequest).run after := by
  have hfirst : ActionStep plannedFiles (emptyingAction.after (.ofLocation []) plannedFiles) :=
    ⟨.ofLocation [], emptyingAction, isDirectory_root _, rfl⟩
  have hsecond : ActionStep (emptyingAction.after (.ofLocation []) plannedFiles)
      (failingAction.after (.ofLocation []) (emptyingAction.after (.ofLocation []) plannedFiles)) :=
    ⟨.ofLocation [], failingAction, isDirectory_root _, rfl⟩
  have hplan : (((disk (.ofLocation [])).plan plannedRequest).run plannedFiles).1 =
      .ok plannedPlan := by decide +kernel
  exact plan_after_actions (.tail (.single hfirst) hsecond) hplan

end MarkerCopy
