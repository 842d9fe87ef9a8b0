import MarkerCopy.Proofs.Ancestors
import MarkerCopy.Proofs.Delivery

/-! What a plan can change. Directories are added on the way to the destination directory and one
file is written. A plan that fails writes no file. -/

namespace MarkerCopy.FileSystem

variable {fs gs mid after : FileSystem} {cwd : WorkingDirectory} {p : Path}

/-- `gs` is `fs` with new directories, each of which is on the way along a path. -/
def AddsDirectoriesAlong (cwd : WorkingDirectory) (p : Path) (fs gs : FileSystem) : Prop :=
  ∀ loc, gs.get? loc = fs.get? loc ∨
    fs.get? loc = none ∧ gs.get? loc = some (.directory .forDirectory) ∧
      ∃ q ∈ p :: p.ancestors, gs.locate cwd .find q = .ok (.occupied loc)

theorem AddsDirectoriesAlong.refl (fs : FileSystem) : fs.AddsDirectoriesAlong cwd p fs :=
  fun _ => .inl rfl

theorem AddsDirectoriesAlong.make {q : Path} {dir : Location} {name : Name}
    (h : AddsDirectoriesAlong cwd p fs gs) (hq : q ∈ p :: p.ancestors)
    (hmade : Made gs mid cwd q dir name) : AddsDirectoriesAlong cwd p fs mid := by
  intro loc
  by_cases he : name :: dir = loc
  · subst he
    have hfree : fs.get? (name :: dir) = none := by
      rcases h (name :: dir) with hsame | ⟨hn, -⟩
      · exact hsame.symm.trans hmade.free
      · exact hn
    exact .inr ⟨hfree, hmade.made, q, hq, hmade.locate⟩
  · rw [hmade.others loc he]
    rcases h loc with hsame | ⟨hn, hd, q', hq', hl⟩
    · exact .inl hsame
    · exact .inr ⟨hn, hd, q', hq', locate_find_mono hl hmade.adds.grows⟩

theorem makeDirectories_addsAlong (cwd : WorkingDirectory) (p : Path) (fs : FileSystem) :
    AddsDirectoriesAlong cwd p fs (((disk cwd).makeDirectories p).run fs).2 := by
  refine makeDirectories_induction ?_ fs (.refl fs)
  intro q hq gs hs dir name hmade hg
  exact hg.make hq hmade

theorem Prepared.addsAlong {created : Bool} (h : Prepared cwd p fs created mid) :
    AddsDirectoriesAlong cwd p fs mid := by
  rcases h.eq with rfl | ⟨-, rfl⟩
  · exact .refl mid
  · exact makeDirectories_addsAlong cwd p fs

theorem AddsDirectoriesAlong.adds (h : fs.AddsDirectoriesAlong cwd p gs) :
    fs.AddsDirectories gs := by
  intro loc
  rcases h loc with hsame | ⟨hn, hd, -⟩
  · exact .inl hsame
  · exact .inr ⟨hn, hd⟩

theorem AddsDirectoriesAlong.of_new {loc : Location} {entry : Entry}
    (h : fs.AddsDirectoriesAlong cwd p gs) (hn : fs.get? loc = none)
    (hg : gs.get? loc = some entry) :
    entry = .directory .forDirectory ∧ ∃ q ∈ p :: p.ancestors, q.bytes <+: p.bytes ∧
      gs.locate cwd .find q = .ok (.occupied loc) := by
  rcases h loc with hsame | ⟨-, hd, q, hq, hl⟩
  · rw [hg, hn] at hsame
    cases hsame
  · have hentry : entry = .directory .forDirectory := Option.some.inj (hg.symm.trans hd)
    have hprefix : q.bytes <+: p.bytes := by
      rcases List.mem_cons.mp hq with rfl | hq
      · exact List.prefix_rfl
      · exact Path.prefix_of_mem_ancestors hq
    exact ⟨hentry, q, hq, hprefix, hl⟩

/-- However a plan ends, directories come first, and after them only the destination file may be
written. -/
theorem carryOut_stages {plan : Plan} {result : Except Failure Report}
    (hc : fs.isDirectory cwd.above)
    (hr : ((disk cwd).carryOut plan).run fs = (result, after)) :
    ∃ mid, fs.AddsDirectoriesAlong cwd plan.destinationDir mid ∧ mid.Grows after ∧
      (∀ loc, after.get? loc ≠ mid.get? loc → after.isFile loc ∧
        after.locate cwd .find plan.destinationFile = .ok (.occupied loc)) ∧
      ∀ failure, result = .error failure → after = mid := by
  cases result with
  | error failure =>
    have halong : fs.AddsDirectoriesAlong cwd plan.destinationDir after := by
      rcases carryOut_eq_error hc hr with rfl | ⟨-, rfl⟩
      · exact .refl after
      · exact makeDirectories_addsAlong cwd plan.destinationDir fs
    exact ⟨after, halong, .refl after, fun _ hne => absurd rfl hne, fun _ _ => rfl⟩
  | ok report =>
    obtain ⟨d⟩ := delivery_of_carryOut hc hr
    refine ⟨d.mid, d.prepared.addsAlong, d.grows_after, ?_, fun _ he => by cases he⟩
    intro loc hne
    by_cases he : d.target = loc
    · subst he
      exact ⟨d.isFile_target, d.locate_target⟩
    · exact absurd (d.copy.others loc he) hne

/-- Carrying out a plan takes nothing away. It adds directories on the way to the destination
directory and writes the destination file, or fails without writing any file. -/
theorem carryOut_frame {plan : Plan} {result : Except Failure Report}
    (hc : fs.isDirectory cwd.above)
    (hr : ((disk cwd).carryOut plan).run fs = (result, after)) :
    fs.Grows after ∧
    (∀ loc entry, fs.get? loc = none → after.get? loc = some entry → ¬ entry.isFile →
      entry = .directory .forDirectory ∧
        ∃ q ∈ plan.destinationDir :: plan.destinationDir.ancestors,
          q.bytes <+: plan.destinationDir.bytes ∧
            after.locate cwd .find q = .ok (.occupied loc)) ∧
    (∀ loc, after.isFile loc → after.get? loc ≠ fs.get? loc →
      after.locate cwd .find plan.destinationFile = .ok (.occupied loc)) ∧
    ∀ failure, result = .error failure →
      (∀ loc, after.isFile loc → after.get? loc = fs.get? loc) ∧
        ∀ place, fs.locate cwd .find plan.destinationDir = .ok place → after = fs := by
  obtain ⟨mid, halong, hgrows, hwritten, herror⟩ := carryOut_stages hc hr
  have hold : ∀ loc, mid.isFile loc → mid.get? loc = fs.get? loc := by
    intro loc hf
    obtain ⟨content, permissions, hg⟩ := isFile_iff.mp hf
    exact hg.trans (halong.adds.get?_file hg).symm
  refine ⟨halong.adds.grows.trans hgrows, ?_, ?_, ?_⟩
  · intro loc entry hn hg hf
    -- what came after the directories can only be a file
    have hsame : after.get? loc = mid.get? loc := by
      by_contra hne
      obtain ⟨content, permissions, hfile⟩ := isFile_iff.mp (hwritten loc hne).1
      obtain rfl := Option.some.inj (hg.symm.trans hfile)
      exact hf rfl
    obtain ⟨hentry, q, hq, hprefix, hl⟩ := halong.of_new hn (hsame.symm.trans hg)
    exact ⟨hentry, q, hq, hprefix, locate_find_mono hl hgrows⟩
  · intro loc hf hne
    by_cases hsame : after.get? loc = mid.get? loc
    · have hmid : mid.isFile loc := by simpa only [isFile, hsame] using hf
      exact absurd (hsame.trans (hold loc hmid)) hne
    · exact (hwritten loc hsame).2
  · intro failure hfail
    obtain rfl := herror failure hfail
    refine ⟨hold, ?_⟩
    intro place hl
    rw [hfail] at hr
    rcases carryOut_eq_error hc hr with he | ⟨hn, -⟩
    · exact he
    · rcases kind?_cases fs plan.destinationDir hc with ⟨-, hk | hk⟩ | ⟨hno, -⟩
      · simp [hk] at hn
      · simp [hk] at hn
      · exact absurd hl (hno place)

def aliasedFiles : FileSystem :=
  ofEntries [
    ("/src/pkg/f", .file ⟨#[1, 2, 3]⟩ .forFile),
    ("/out/f", .file ⟨#[9]⟩ .forFile),
    ("/alias", .link (.ofString "out"))]

def directoryPlan : Plan where
  source := .ofString "/src/pkg"
  canonicalSource := .ofString "/src/pkg"
  marker := .source
  relativeDir := "new/deep"
  relativeFile := "new/deep/pkg"
  destinationDir := .ofString "/alias/../new/deep"
  destinationFile := .ofString "/alias/../new/deep/pkg"

def aliasedAfter : FileSystem :=
  (((disk (.ofLocation [])).carryOut directoryPlan).run aliasedFiles).2

theorem carryOut_frame_of_directory :
    ((disk (.ofLocation [])).carryOut directoryPlan).run aliasedFiles =
      (.error (.file .copy directoryPlan.destinationFile .notRegularFile), aliasedAfter) ∧
    (∃ q ∈ directoryPlan.destinationDir :: directoryPlan.destinationDir.ancestors,
      q.bytes <+: directoryPlan.destinationDir.bytes ∧
        aliasedAfter.locate (.ofLocation []) .find q =
          .ok (.occupied [⟨[0x6E, 0x65, 0x77], by decide⟩])) ∧
    ∀ loc, aliasedAfter.isFile loc → aliasedAfter.get? loc = aliasedFiles.get? loc := by
  have hr : ((disk (.ofLocation [])).carryOut directoryPlan).run aliasedFiles =
      (.error (.file .copy directoryPlan.destinationFile .notRegularFile), aliasedAfter) :=
    Prod.ext (by decide +kernel) rfl
  obtain ⟨-, hnew, -, herror⟩ := carryOut_frame (isDirectory_root _) hr
  have hmade := hnew [⟨[0x6E, 0x65, 0x77], by decide⟩] (.directory .forDirectory)
    (by decide +kernel) (by decide +kernel) (by decide)
  exact ⟨hr, hmade.2, (herror _ rfl).1⟩

end MarkerCopy.FileSystem
