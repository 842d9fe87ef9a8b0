import MarkerCopy.Copy
import MarkerCopy.Proofs.Writing
import Mathlib.Control.Monad.Basic

/-! What the parts of a copy do to a file system, one case for each way in which they can end. -/

namespace MarkerCopy.FileSystem

variable {fs gs : FileSystem} {cwd : WorkingDirectory} {p : Path}

theorem run_bind {α β : Type} (x : StateM FileSystem α) (f : α → StateM FileSystem β)
    (fs : FileSystem) : (x >>= f).run fs = (f (x.run fs).1).run (x.run fs).2 := rfl

theorem run_makeDirectory (fs : FileSystem) (cwd : WorkingDirectory) (p : Path) :
    ((disk cwd).makeDirectory p).run fs = fs.makeDirectory cwd p := rfl

/-- The last try to make a directory, which fails only if none is there afterwards. -/
def ensureDirectory (fs : FileSystem) (cwd : WorkingDirectory) (p : Path) :
    Except Cause Unit × FileSystem :=
  match fs.makeDirectory cwd p with
  | (.ok (), gs) => (.ok (), gs)
  | (.error cause, gs) => (if gs.kind? cwd p = some .directory then .ok () else .error cause, gs)

theorem ensureDirectory_of_error {cause : Cause} (hm : fs.makeDirectory cwd p = (.error cause, fs))
    (hk : fs.kind? cwd p ≠ some .directory) : fs.ensureDirectory cwd p = (.error cause, fs) := by
  simp only [ensureDirectory, hm, if_neg hk]

theorem after_ensureDirectory (fs : FileSystem) (cwd : WorkingDirectory) (p : Path) :
    (fs.ensureDirectory cwd p).2 = (fs.makeDirectory cwd p).2 := by
  unfold ensureDirectory
  rcases fs.makeDirectory cwd p with ⟨cause | ⟨⟨⟩⟩, gs⟩ <;> rfl

theorem kind?_of_ensureDirectory (h : fs.ensureDirectory cwd p = (.ok (), gs)) :
    gs.kind? cwd p = some .directory := by
  rcases makeDirectory_cases fs cwd p with ⟨hs, dir, name, hm, hmade⟩ | ⟨cause, hm⟩
  · simp only [ensureDirectory, hm] at h
    cases h
    exact hmade.kind?
  · by_cases hk : fs.kind? cwd p = some .directory
    · simp only [ensureDirectory, hm, if_pos hk] at h
      cases h
      exact hk
    · rw [ensureDirectory_of_error hm hk] at h
      cases h

section

variable {above : Unit → StateM FileSystem (Except Cause Unit)}

theorem makeBelow_of_isEmpty (hp : p.isEmpty) :
    ((disk cwd).makeBelow above p).run fs = (.ok (), fs) := by
  unfold Disk.makeBelow
  rw [if_pos hp]
  rfl

theorem makeBelow_eq_ensureDirectory (hp : ¬ p.isEmpty)
    (hm : (fs.makeDirectory cwd p).1 ≠ .error (.system .noEntry)) :
    ((disk cwd).makeBelow above p).run fs = fs.ensureDirectory cwd p := by
  unfold Disk.makeBelow ensureDirectory
  rw [if_neg hp, run_bind, run_makeDirectory]
  rcases hr : fs.makeDirectory cwd p with ⟨cause | ⟨⟨⟩⟩, gs⟩
  · rw [hr] at hm
    dsimp only
    split
    · next heq => cases heq
    · next heq => exact absurd heq hm
    · next heq =>
      cases heq
      rfl
  · rfl

theorem makeBelow_of_noEntry (hp : ¬ p.isEmpty)
    (hm : fs.makeDirectory cwd p = (.error (.system .noEntry), fs)) :
    ((disk cwd).makeBelow above p).run fs =
      match (above ()).run fs with
      | (.error cause, gs) => (.error cause, gs)
      | (.ok (), gs) => gs.ensureDirectory cwd p := by
  unfold Disk.makeBelow ensureDirectory
  rw [if_neg hp, run_bind, run_makeDirectory, hm]
  refine (run_bind (above ()) _ fs).trans ?_
  rcases (above ()).run fs with ⟨cause | ⟨⟨⟩⟩, gs⟩
  · rfl
  · dsimp only
    rw [run_bind, run_makeDirectory]
    rcases gs.makeDirectory cwd p with ⟨cause | ⟨⟨⟩⟩, hs⟩ <;> rfl

theorem makeBelow_cases (hp : ¬ p.isEmpty) (fs : FileSystem) :
    ((disk cwd).makeBelow above p).run fs = fs.ensureDirectory cwd p ∨
    (∃ cause gs, (above ()).run fs = (.error cause, gs) ∧
      ((disk cwd).makeBelow above p).run fs = (.error cause, gs)) ∨
    ∃ gs, (above ()).run fs = (.ok (), gs) ∧
      ((disk cwd).makeBelow above p).run fs = gs.ensureDirectory cwd p := by
  by_cases hm : (fs.makeDirectory cwd p).1 = .error (.system .noEntry)
  · rcases makeDirectory_cases fs cwd p with ⟨gs, dir, name, hd, -⟩ | ⟨cause, hd⟩
    · rw [hd] at hm
      cases hm
    · rw [hd] at hm
      cases hm
      have hr : ((disk cwd).makeBelow above p).run fs = _ := makeBelow_of_noEntry hp hd
      rcases ha : (above ()).run fs with ⟨cause | ⟨⟨⟩⟩, gs⟩
      · exact .inr (.inl ⟨cause, gs, rfl, by rw [hr, ha]⟩)
      · exact .inr (.inr ⟨gs, rfl, by rw [hr, ha]⟩)
  · exact .inl (makeBelow_eq_ensureDirectory hp hm)

theorem makeBelow_induction {motive : FileSystem → Prop}
    (habove : ∀ fs, motive fs → motive ((above ()).run fs).2)
    (hmade : ∀ fs gs dir name, Made fs gs cwd p dir name → motive fs → motive gs)
    (fs : FileSystem) (h : motive fs) :
    motive (((disk cwd).makeBelow above p).run fs).2 := by
  have hensure : ∀ gs, motive gs → motive (gs.ensureDirectory cwd p).2 := by
    intro gs hg
    rw [after_ensureDirectory]
    rcases makeDirectory_cases gs cwd p with ⟨hs, dir, name, hm, hnew⟩ | ⟨cause, hm⟩
    · rw [hm]
      exact hmade gs hs dir name hnew hg
    · rw [hm]
      exact hg
  by_cases hp : p.isEmpty
  · rw [makeBelow_of_isEmpty hp]
    exact h
  · have hstart := habove fs h
    rcases makeBelow_cases hp fs with hr | ⟨cause, gs, ha, hr⟩ | ⟨gs, ha, hr⟩
    · rw [hr]
      exact hensure fs h
    · rw [ha] at hstart
      rw [hr]
      exact hstart
    · rw [ha] at hstart
      rw [hr]
      exact hensure gs hstart

theorem kind?_of_makeBelow (hp : ¬ p.isEmpty)
    (h : ((disk cwd).makeBelow above p).run fs = (.ok (), gs)) :
    gs.kind? cwd p = some .directory := by
  rcases makeBelow_cases hp fs with hr | ⟨cause, hs, -, hr⟩ | ⟨hs, -, hr⟩
  · exact kind?_of_ensureDirectory (hr.symm.trans h)
  · rw [hr] at h
    cases h
  · exact kind?_of_ensureDirectory (hr.symm.trans h)

end

theorem makeFirst_induction {motive : FileSystem → Prop} {ps : List Path}
    (hmade : ∀ q ∈ ps, ∀ fs gs dir name, Made fs gs cwd q dir name → motive fs → motive gs)
    (fs : FileSystem) (h : motive fs) :
    motive (((disk cwd).makeFirst ps).run fs).2 := by
  induction ps generalizing fs with
  | nil => exact h
  | cons p ps ih =>
    have habove : ∀ gs, motive gs → motive (((disk cwd).makeFirst ps).run gs).2 :=
      ih fun q hq => hmade q (List.mem_cons_of_mem p hq)
    unfold Disk.makeFirst
    exact makeBelow_induction habove (hmade p List.mem_cons_self) fs h

/-- What every new directory keeps is kept by all that are made for a path, even if the last of
them cannot be made. -/
theorem makeDirectories_induction {motive : FileSystem → Prop}
    (hmade : ∀ q ∈ p :: p.ancestors, ∀ fs gs dir name, Made fs gs cwd q dir name →
      motive fs → motive gs)
    (fs : FileSystem) (h : motive fs) :
    motive (((disk cwd).makeDirectories p).run fs).2 := by
  have habove : ∀ gs, motive gs → motive (((disk cwd).makeFirst p.ancestors).run gs).2 :=
    makeFirst_induction fun q hq => hmade q (List.mem_cons_of_mem p hq)
  exact makeBelow_induction habove (hmade p List.mem_cons_self) fs h

theorem makeDirectories_adds (cwd : WorkingDirectory) (p : Path) (fs : FileSystem) :
    fs.AddsDirectories (((disk cwd).makeDirectories p).run fs).2 := by
  refine makeDirectories_induction ?_ fs (.refl fs)
  intro q _ gs hs dir name hmade hg
  exact hg.trans hmade.adds

theorem kind?_of_makeDirectories (hp : ¬ p.isEmpty)
    (h : ((disk cwd).makeDirectories p).run fs = (.ok (), gs)) :
    gs.kind? cwd p = some .directory :=
  kind?_of_makeBelow hp h

theorem run_bind_of_ok {α β : Type} {x : ExceptT Failure (StateM FileSystem) α} {a : α}
    (h : x.run fs = (.ok a, gs)) (f : α → ExceptT Failure (StateM FileSystem) β) :
    (x >>= f).run fs = (f a).run gs := by
  have hb : (x >>= f).run fs = ExceptT.bindCont f (x.run fs).1 (x.run fs).2 := rfl
  rw [hb, h]
  rfl

theorem run_bind_of_error {α β : Type} {x : ExceptT Failure (StateM FileSystem) α}
    {failure : Failure} (h : x.run fs = (.error failure, gs))
    (f : α → ExceptT Failure (StateM FileSystem) β) :
    (x >>= f).run fs = (.error failure, gs) := by
  have hb : (x >>= f).run fs = ExceptT.bindCont f (x.run fs).1 (x.run fs).2 := rfl
  rw [hb, h]
  rfl

theorem run_kind? (cwd : WorkingDirectory) (p : Path) (fs : FileSystem) :
    (liftM ((disk cwd).kind? p) : ExceptT Failure (StateM FileSystem) (Option Kind)).run fs =
      (.ok (fs.kind? cwd p), fs) := rfl

theorem run_attempt {α : Type} {action : StateM FileSystem (Except Cause α)}
    {result : Except Cause α} (h : action.run fs = (result, gs)) (operation : FileOperation)
    (p : Path) :
    (Disk.attempt operation p action).run fs =
      (result.mapError (Failure.file operation p), gs) := by
  have ha : (Disk.attempt operation p action).run fs =
      ((action.run fs).1.mapError (Failure.file operation p), (action.run fs).2) := rfl
  rw [ha, h]

theorem run_checkDestination (cwd : WorkingDirectory) (dir : Path) (fs : FileSystem) :
    ((disk cwd).checkDestination dir).run fs =
      (if fs.kind? cwd dir = some .file then .error (.destinationIsFile dir) else .ok (), fs) := by
  refine (run_bind_of_ok (run_kind? cwd dir fs) _).trans ?_
  split <;> rfl

/-- The destination directory of a copy is there, or was just made. -/
inductive Prepared (cwd : WorkingDirectory) (dir : Path) (fs : FileSystem) :
    (created : Bool) → (mid : FileSystem) → Prop
  | there {kind : Kind} : fs.kind? cwd dir = some kind → kind ≠ .file →
      Prepared cwd dir fs false fs
  | made {mid : FileSystem} : fs.kind? cwd dir = none →
      ((disk cwd).makeDirectories dir).run fs = (.ok (), mid) → Prepared cwd dir fs true mid

theorem Prepared.unique {dir : Path} {created created' : Bool} {mid mid' : FileSystem}
    (h : Prepared cwd dir fs created mid) (h' : Prepared cwd dir fs created' mid') :
    created = created' ∧ mid = mid' := by
  rcases h with ⟨hk, -⟩ | ⟨hk, hd⟩ <;> rcases h' with ⟨hk', -⟩ | ⟨hk', hd'⟩
  · exact ⟨rfl, rfl⟩
  · cases hk.symm.trans hk'
  · cases hk.symm.trans hk'
  · cases hd.symm.trans hd'
    exact ⟨rfl, rfl⟩

/-- The ways in which carrying out a plan can end. -/
inductive CarriedOut (cwd : WorkingDirectory) (plan : Plan) (fs : FileSystem) :
    Except Failure Report × FileSystem → Prop
  | refused : fs.kind? cwd plan.destinationDir = some .file →
      CarriedOut cwd plan fs (.error (.destinationIsFile plan.destinationDir), fs)
  | unprepared {cause : Cause} {mid : FileSystem} :
      fs.kind? cwd plan.destinationDir = none →
      ((disk cwd).makeDirectories plan.destinationDir).run fs = (.error cause, mid) →
      CarriedOut cwd plan fs (.error (.file .createDirectory plan.destinationDir cause), mid)
  | uncopied {created : Bool} {cause : Cause} {mid after : FileSystem} :
      Prepared cwd plan.destinationDir fs created mid →
      mid.copyFile cwd plan.source plan.destinationFile = (.error cause, after) →
      CarriedOut cwd plan fs (.error (.file .copy plan.destinationFile cause), after)
  | copied {created : Bool} {bytes : Nat} {mid after : FileSystem} :
      Prepared cwd plan.destinationDir fs created mid →
      mid.copyFile cwd plan.source plan.destinationFile = (.ok bytes, after) →
      CarriedOut cwd plan fs (.ok ⟨plan, created, bytes⟩, after)

theorem carriedOut_of_prepared {plan : Plan} {created : Bool} {mid : FileSystem}
    (h : Prepared cwd plan.destinationDir fs created mid) :
    CarriedOut cwd plan fs ((do
      let bytes ← Disk.attempt .copy plan.destinationFile
        ((disk cwd).copyFile plan.source plan.destinationFile)
      return { plan, createdDir := created, bytesCopied := bytes } :
        ExceptT Failure (StateM FileSystem) Report).run mid) := by
  have hrun : ((disk cwd).copyFile plan.source plan.destinationFile).run mid =
      mid.copyFile cwd plan.source plan.destinationFile := rfl
  rcases hm : mid.copyFile cwd plan.source plan.destinationFile with ⟨cause | bytes, after⟩
  · rw [run_bind_of_error (run_attempt (hrun.trans hm) .copy plan.destinationFile)]
    exact .uncopied h hm
  · rw [run_bind_of_ok (run_attempt (hrun.trans hm) .copy plan.destinationFile)]
    exact .copied h hm

theorem carryOut_cases (cwd : WorkingDirectory) (plan : Plan) (fs : FileSystem) :
    CarriedOut cwd plan fs (((disk cwd).carryOut plan).run fs) := by
  have hcheck := run_checkDestination cwd plan.destinationDir fs
  unfold Disk.carryOut
  cases hk : fs.kind? cwd plan.destinationDir with
  | none =>
    rw [hk, if_neg (by simp)] at hcheck
    rw [run_bind_of_ok hcheck, run_bind_of_ok (run_kind? cwd plan.destinationDir fs), hk]
    rcases hd : ((disk cwd).makeDirectories plan.destinationDir).run fs with ⟨cause | ⟨⟨⟩⟩, mid⟩
    · simp only [Option.isNone_none, if_true]
      rw [run_bind_of_error (run_attempt hd .createDirectory plan.destinationDir)]
      exact .unprepared hk hd
    · simp only [Option.isNone_none, if_true]
      rw [run_bind_of_ok (run_attempt hd .createDirectory plan.destinationDir)]
      exact carriedOut_of_prepared (.made hk hd)
  | some kind =>
    by_cases hf : kind = .file
    · subst hf
      rw [hk, if_pos rfl] at hcheck
      rw [run_bind_of_error hcheck]
      exact .refused hk
    · rw [hk, if_neg (by simpa using hf)] at hcheck
      rw [run_bind_of_ok hcheck, run_bind_of_ok (run_kind? cwd plan.destinationDir fs), hk]
      exact carriedOut_of_prepared (.there hk hf)

theorem run_carryOut_of_file {plan : Plan}
    (hk : fs.kind? cwd plan.destinationDir = some .file) :
    ((disk cwd).carryOut plan).run fs = (.error (.destinationIsFile plan.destinationDir), fs) := by
  have hcases := carryOut_cases cwd plan fs
  generalize ((disk cwd).carryOut plan).run fs = result at hcases ⊢
  have hnot : ∀ created mid, ¬ Prepared cwd plan.destinationDir fs created mid := by
    rintro _ _ (⟨hk', hne⟩ | ⟨hk', -⟩)
    · exact hne (Option.some.inj (hk'.symm.trans hk))
    · cases hk'.symm.trans hk
  cases hcases with
  | refused _ => rfl
  | unprepared hk' _ => cases hk'.symm.trans hk
  | uncopied hp _ => exact absurd hp (hnot _ _)
  | copied hp _ => exact absurd hp (hnot _ _)

theorem run_carryOut_of_error {plan : Plan} {cause : Cause}
    (hk : fs.kind? cwd plan.destinationDir = none)
    (hd : ((disk cwd).makeDirectories plan.destinationDir).run fs = (.error cause, gs)) :
    ((disk cwd).carryOut plan).run fs =
      (.error (.file .createDirectory plan.destinationDir cause), gs) := by
  have hcases := carryOut_cases cwd plan fs
  generalize ((disk cwd).carryOut plan).run fs = result at hcases ⊢
  -- there is one way left, as directories are always made with the same result
  have hnot : ∀ created mid, ¬ Prepared cwd plan.destinationDir fs created mid := by
    rintro _ _ (⟨hk', -⟩ | ⟨-, hd'⟩)
    · cases hk'.symm.trans hk
    · cases hd'.symm.trans hd
  cases hcases with
  | refused hk' => cases hk'.symm.trans hk
  | unprepared _ hd' =>
    cases hd'.symm.trans hd
    rfl
  | uncopied hp _ => exact absurd hp (hnot _ _)
  | copied hp _ => exact absurd hp (hnot _ _)

theorem run_carryOut_of_prepared {plan : Plan} {created : Bool} {mid : FileSystem} {bytes : Nat}
    (h : Prepared cwd plan.destinationDir fs created mid)
    (hcopy : mid.copyFile cwd plan.source plan.destinationFile = (.ok bytes, gs)) :
    ((disk cwd).carryOut plan).run fs = (.ok ⟨plan, created, bytes⟩, gs) := by
  have hcases := carryOut_cases cwd plan fs
  generalize ((disk cwd).carryOut plan).run fs = result at hcases ⊢
  cases hcases with
  | refused hk =>
    rcases h with ⟨hk', hne⟩ | ⟨hk', -⟩
    · exact absurd (Option.some.inj (hk'.symm.trans hk)) hne
    · cases hk'.symm.trans hk
  | unprepared hk hd =>
    rcases h with ⟨hk', -⟩ | ⟨-, hd'⟩
    · cases hk'.symm.trans hk
    · cases hd'.symm.trans hd
  | uncopied hp hm =>
    obtain ⟨-, rfl⟩ := h.unique hp
    cases hcopy.symm.trans hm
  | copied hp hm =>
    obtain ⟨rfl, rfl⟩ := h.unique hp
    cases hcopy.symm.trans hm
    rfl

theorem run_carryOut_of_directory {plan : Plan} {bytes : Nat}
    (hk : fs.kind? cwd plan.destinationDir = some .directory)
    (hcopy : fs.copyFile cwd plan.source plan.destinationFile = (.ok bytes, gs)) :
    ((disk cwd).carryOut plan).run fs = (.ok ⟨plan, false, bytes⟩, gs) :=
  run_carryOut_of_prepared (.there hk (by decide)) hcopy

theorem run_plan (cwd : WorkingDirectory) (request : Request) (fs : FileSystem) :
    ((disk cwd).plan request).run fs = (request.plan (fs.canonical cwd request.infile), fs) := rfl

theorem run_request_of_error {request : Request} {failure : Failure}
    (h : request.plan (fs.canonical cwd request.infile) = .error failure) :
    ((disk cwd).run request).run fs = (.error failure, fs) :=
  run_bind_of_error ((run_plan cwd request fs).trans (by rw [h])) _

theorem run_request_of_ok {request : Request} {plan : Plan}
    (h : request.plan (fs.canonical cwd request.infile) = .ok plan) :
    ((disk cwd).run request).run fs = ((disk cwd).execute request.dryRun plan).run fs :=
  run_bind_of_ok ((run_plan cwd request fs).trans (by rw [h])) _

theorem run_execute_dry (cwd : WorkingDirectory) (plan : Plan) (fs : FileSystem) :
    ((disk cwd).execute true plan).run fs =
      (if fs.kind? cwd plan.destinationDir = some .file then
        .error (.destinationIsFile plan.destinationDir) else .ok (.planned plan), fs) := by
  have hc := run_checkDestination cwd plan.destinationDir fs
  unfold Disk.execute
  by_cases hk : fs.kind? cwd plan.destinationDir = some .file
  · rw [if_pos hk] at hc ⊢
    exact run_bind_of_error hc _
  · rw [if_neg hk] at hc ⊢
    exact run_bind_of_ok hc _

theorem run_execute (cwd : WorkingDirectory) (plan : Plan) (fs : FileSystem) :
    ((disk cwd).execute false plan).run fs =
      ((((disk cwd).carryOut plan).run fs).1.map Outcome.copied,
        (((disk cwd).carryOut plan).run fs).2) := by
  unfold Disk.execute
  rcases hr : ((disk cwd).carryOut plan).run fs with ⟨failure | report, after⟩
  · exact run_bind_of_error hr _
  · exact run_bind_of_ok hr _

theorem outcome_of_execute {dryRun : Bool} {plan : Plan} {outcome : Outcome}
    (h : (((disk cwd).execute dryRun plan).run fs).1 = .ok outcome) :
    dryRun = true ∧ outcome = .planned plan ∨
    dryRun = false ∧ ∃ report, outcome = .copied report ∧
      (((disk cwd).carryOut plan).run fs).1 = .ok report := by
  cases dryRun with
  | true =>
    rw [run_execute_dry] at h
    split at h
    · cases h
    · exact .inl ⟨rfl, (Except.ok.inj h).symm⟩
  | false =>
    rw [run_execute] at h
    cases hr : (((disk cwd).carryOut plan).run fs).1 with
    | error failure =>
      rw [hr] at h
      cases h
    | ok report =>
      rw [hr] at h
      exact .inr ⟨rfl, report, (Except.ok.inj h).symm, rfl⟩

theorem run_eq_copied_iff {request : Request} {report : Report} :
    ((disk cwd).run request).run fs = (.ok (.copied report), gs) ↔
      request.dryRun = false ∧ ∃ plan, request.plan (fs.canonical cwd request.infile) = .ok plan ∧
        ((disk cwd).carryOut plan).run fs = (.ok report, gs) := by
  constructor
  · intro h
    cases hp : request.plan (fs.canonical cwd request.infile) with
    | error failure =>
      rw [run_request_of_error hp] at h
      cases h
    | ok plan =>
      rw [run_request_of_ok hp] at h
      rcases outcome_of_execute (congrArg Prod.fst h) with ⟨-, hplanned⟩ | ⟨hdry, _, hcopied, hr⟩
      · cases hplanned
      · cases hcopied
        rw [hdry, run_execute] at h
        have hafter := congrArg Prod.snd h
        exact ⟨hdry, plan, rfl, Prod.ext hr hafter⟩
  · intro h
    obtain ⟨hdry, plan, hp, hr⟩ := h
    rw [run_request_of_ok hp, hdry, run_execute, hr]
    rfl

/-- A file system with some entries and the directories above them, each under its absolute path. -/
def ofEntries (entries : List (String × Entry)) : FileSystem :=
  entries.foldl (fun fs (text, entry) =>
    let p := Path.ofString text
    let above := (((disk (.ofLocation [])).makeFirst p.ancestors).run fs).2
    (above.make (.ofLocation []) p entry).2) .empty

end MarkerCopy.FileSystem
