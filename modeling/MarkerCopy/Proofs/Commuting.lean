import MarkerCopy.Proofs.Ancestors
import MarkerCopy.Proofs.Stability

/-! Two copies in either order. Whatever the first order adds, the second one has to add as well,
because a path that was made in one of them leads on in the other. -/

namespace MarkerCopy

open FileSystem

namespace FileSystem

variable {fs gs hs mid after : FileSystem} {cwd : WorkingDirectory} {p : Path}

/-- `gs` is `fs` with new files and directories, the directories being as copies make them. -/
structure Within (fs gs : FileSystem) : Prop where
  grows : fs.Grows gs
  added : ∀ loc entry, fs.get? loc = none → gs.get? loc = some entry →
    entry.isFile ∨ entry = .directory .forDirectory

theorem Within.trans (h : fs.Within gs) (h' : gs.Within hs) : fs.Within hs := by
  refine ⟨h.grows.trans h'.grows, ?_⟩
  intro loc new hn hg
  cases hm : gs.get? loc with
  | none => exact h'.added loc new hm hg
  | some entry =>
    obtain ⟨new', hn', hnew⟩ := h'.grows loc entry hm
    obtain rfl : new = new' := Option.some.inj (hg.symm.trans hn')
    rcases hnew with rfl | ⟨-, hf⟩
    · exact h.added loc new hn hm
    · exact .inl hf

theorem AddsDirectories.within (h : fs.AddsDirectories gs) : fs.Within gs := by
  refine ⟨h.grows, ?_⟩
  intro loc entry hn hg
  rcases h loc with hsame | ⟨-, hd⟩
  · rw [hg, hn] at hsame
    cases hsame
  · exact .inr (Option.some.inj (hg.symm.trans hd))

/-- An entry that is new in a smaller file system as well is of no harm if the larger one has it. -/
theorem Within.of_entry {loc : Location} {entry new : Entry} (h : fs.Within hs)
    (hg : gs.get? loc = some entry) (hothers : ∀ other, loc ≠ other → gs.get? other = fs.get? other)
    (hn : hs.get? loc = some new) (hnew : new = entry ∨ entry.isFile ∧ new.isFile) :
    gs.Within hs := by
  constructor
  · intro other old ho
    by_cases he : loc = other
    · subst he
      obtain rfl : entry = old := Option.some.inj (hg.symm.trans ho)
      exact ⟨new, hn, hnew⟩
    · exact h.grows other old ((hothers other he).symm.trans ho)
  · intro other added ho
    by_cases he : loc = other
    · subst he
      rw [hg] at ho
      cases ho
    · exact h.added other added ((hothers other he).symm.trans ho)

/-- A name that is new is no link, so a walk goes on from the entry that has it. -/
theorem Within.reaches_enter {n : Nat} {dir : Location} {name : Name} {rest : List Step} {v : Walk}
    (h : fs.Within gs) (hn : fs.get? (name :: dir) = none)
    (hr : Reaches gs ⟨n, dir, .name name :: rest⟩ v) (hv : v.rest = []) :
    Reaches gs ⟨n, name :: dir, rest⟩ v := by
  rcases Relation.ReflTransGen.cases_head hr with rfl | ⟨x, hs, hx⟩
  · cases hv
  · cases hs with
    | idle hs _ => cases hs
    | enter _ _ _ => exact hx
    | link _ hl =>
      rcases h.added _ _ hn hl with hf | hd
      · cases hf
      · cases hd

/-- A directory that was made for a path is in every larger file system in which the path leads to
a directory. -/
theorem Made.within {dir : Location} {name : Name} (hmade : Made fs mid cwd p dir name)
    (h : fs.Within gs) (hp : ∀ w, p.walk? cwd = some w →
      ∃ n loc, Reaches gs w ⟨n, loc, []⟩ ∧ gs.isDirectory loc) : mid.Within gs := by
  obtain ⟨w, n, rest, hw, hr, -⟩ := hmade.reached
  obtain ⟨m, loc, hend, hdir⟩ := hp w hw
  have hname : Reaches gs ⟨n, dir, .name name :: rest⟩ ⟨m, loc, []⟩ :=
    hend.to_end (hr.mono h.grows) rfl
  have hrest := h.reaches_enter hmade.free hname rfl
  have hd : gs.isDirectory (name :: dir) := by
    -- the path ends with the new name, or goes on through it
    by_cases hne : rest = []
    · have hsame := hrest.eq_of_rest_eq_nil hne
      obtain rfl : name :: dir = loc := congrArg Walk.loc hsame
      exact hdir
    · exact hrest.isDirectory_of_rest_ne_nil rfl hne
  obtain ⟨permissions, hg⟩ := isDirectory_iff.mp hd
  have hmade' : Entry.directory permissions = .directory .forDirectory :=
    (h.added _ _ hmade.free hg).resolve_left (by simp [Entry.isFile])
  exact h.of_entry hmade.made hmade.others hg (.inl hmade')

theorem Prepared.within {created : Bool} (hprep : Prepared cwd p fs created mid)
    (h : fs.Within gs) (hc : fs.isDirectory cwd.above)
    (hp : gs.kind? cwd p = some .directory) : mid.Within gs := by
  rcases hprep.eq with rfl | ⟨hn, rfl⟩
  · exact h
  · rcases kind?_directory_cases hp with ⟨loc, hl, hd⟩ | hall
    · refine makeDirectories_induction (motive := fun mid => mid.Within gs) ?_ fs h
      intro q hq hs ks dir name hmade hwithin
      refine hmade.within hwithin ?_
      intro w hw
      rcases List.mem_cons.mp hq with rfl | hq
      · obtain ⟨v, n, hv, hr⟩ := locate_find_eq_occupied_iff.mp hl
        obtain rfl : v = w := Option.some.inj (hv.symm.trans hw)
        exact ⟨n, loc, hr, hd⟩
      · exact reaches_of_mem_ancestors (h.grows.isDirectory hc) hl hq hw
    · simp [hall fs] at hn

namespace Delivery

variable {plan : Plan} {report : Report} (d : Delivery cwd plan fs after report)

include d

theorem within : fs.Within after := by
  refine d.prepared.adds.within.trans ⟨d.grows_after, ?_⟩
  intro loc entry hn hg
  by_cases he : d.target = loc
  · subst he
    obtain rfl := Option.some.inj (hg.symm.trans d.copy.written)
    exact .inl rfl
  · rw [d.copy.others loc he, hn] at hg
    cases hg

/-- A copy leads into every larger file system in which both its destinations are in place. -/
theorem within_of_within {loc : Location} (h : fs.Within gs)
    (hdir : gs.kind? cwd plan.destinationDir = some .directory)
    (hl : gs.locate cwd .find plan.destinationFile = .ok (.occupied loc))
    (hf : gs.isFile loc) : after.Within gs := by
  have hmid := d.prepared.within h d.home hdir
  -- the way that the copy went is the way that leads to the file in `gs`
  have htarget : d.target = loc := by
    obtain ⟨v, m, hv, hend⟩ := locate_find_eq_occupied_iff.mp hl
    obtain ⟨w, n, hw, ⟨hr, -⟩ | ⟨name, dir, ht, hr, -, hn⟩⟩ :=
      reaches_of_writable d.writable_target
    · obtain rfl : v = w := Option.some.inj (hv.symm.trans hw)
      exact congrArg Walk.loc ((hend.to_end (hr.mono hmid.grows) rfl).eq_of_rest_eq_nil rfl)
    · obtain rfl : v = w := Option.some.inj (hv.symm.trans hw)
      rw [ht] at hn ⊢
      have hname := hend.to_end (hr.mono hmid.grows) rfl
      exact congrArg Walk.loc ((hmid.reaches_enter hn hname rfl).eq_of_rest_eq_nil rfl)
  obtain ⟨content, permissions, hg⟩ := isFile_iff.mp hf
  exact hmid.of_entry d.copy.written d.copy.others (htarget ▸ hg) (.inr ⟨rfl, rfl⟩)

theorem get?_of_ne_target {loc : Location} {entry : Entry} (hg : fs.get? loc = some entry)
    (hne : d.target ≠ loc) : after.get? loc = some entry :=
  (d.copy.others loc hne).trans (d.prepared.adds.get?_eq hg)

theorem file_of_ne_target {loc : Location} {content : ByteArray} {permissions : Permissions}
    (hg : after.get? loc = some (.file content permissions)) (hne : d.target ≠ loc) :
    fs.get? loc = some (.file content permissions) :=
  d.prepared.adds.get?_file ((d.copy.others loc hne).symm.trans hg)

end Delivery

/-- Two plans that were carried out in both orders, from the same file system. -/
structure BothOrders (cwd : WorkingDirectory) (a b : Plan) (fs after₁ after₂ : FileSystem) where
  mid₁ : FileSystem
  mid₂ : FileSystem
  reportA₁ : Report
  reportB₁ : Report
  reportB₂ : Report
  reportA₂ : Report
  a₁ : Delivery cwd a fs mid₁ reportA₁
  b₁ : Delivery cwd b mid₁ after₁ reportB₁
  b₂ : Delivery cwd b fs mid₂ reportB₂
  a₂ : Delivery cwd a mid₂ after₂ reportA₂
  dirA : ¬ a.destinationDir.isEmpty
  dirB : ¬ b.destinationDir.isEmpty

namespace BothOrders

variable {a b : Plan} {after₁ after₂ : FileSystem}

def swap (o : BothOrders cwd a b fs after₁ after₂) : BothOrders cwd b a fs after₂ after₁ :=
  ⟨o.mid₂, o.mid₁, o.reportB₂, o.reportA₂, o.reportA₁, o.reportB₁, o.b₂, o.a₂, o.a₁, o.b₁,
    o.dirB, o.dirA⟩

variable (o : BothOrders cwd a b fs after₁ after₂)

include o

theorem within : after₁.Within after₂ := by
  have hstart : fs.Within after₂ := o.b₂.within.trans o.a₂.within
  have hfirst : o.mid₁.Within after₂ := by
    have hdir : after₂.kind? cwd a.destinationDir = some .directory :=
      kind?_directory_mono (o.a₂.prepared.kind? o.a₂.home o.dirA) o.a₂.grows_after
    exact o.a₁.within_of_within hstart hdir o.a₂.locate_target o.a₂.isFile_target
  have hdir : after₂.kind? cwd b.destinationDir = some .directory :=
    kind?_directory_mono (o.b₂.prepared.kind? o.b₂.home o.dirB)
      (o.b₂.grows_after.trans o.a₂.grows)
  exact o.b₁.within_of_within hfirst hdir (locate_find_mono o.b₂.locate_target o.a₂.grows)
    (o.a₂.grows.isFile o.b₂.isFile_target)

theorem targetA_eq : o.a₁.target = o.a₂.target := by
  have hgrows := o.b₁.grows.trans o.within.grows
  simpa using (locate_find_mono o.a₁.locate_target hgrows).symm.trans o.a₂.locate_target

theorem sourceA_eq : o.a₁.source = o.a₂.source := by
  have hgrows := o.b₁.grows.trans o.within.grows
  simpa using (locate_find_mono o.a₁.locate_source hgrows).symm.trans o.a₂.locate_source

theorem targetB_eq : o.b₁.target = o.b₂.target :=
  o.swap.targetA_eq.symm

theorem sourceB_eq : o.b₁.source = o.b₂.source :=
  o.swap.sourceA_eq.symm

omit o in
/-- The two copies are of different files to different files, and neither is a copy of the other. -/
structure Independent (o : BothOrders cwd a b fs after₁ after₂) : Prop where
  targets : o.a₁.target ≠ o.b₁.target
  sourceA : o.b₁.target ≠ o.a₁.source
  sourceB : o.a₁.target ≠ o.b₁.source

omit o in
theorem Independent.swap {o : BothOrders cwd a b fs after₁ after₂} (h : o.Independent) :
    o.swap.Independent where
  targets := o.targetA_eq ▸ o.targetB_eq ▸ h.targets.symm
  sourceA := o.targetA_eq ▸ o.sourceB_eq ▸ h.sourceB
  sourceB := o.targetB_eq ▸ o.sourceA_eq ▸ h.sourceA

theorem copied_eq (h : o.Independent) :
    o.a₁.copied = o.a₂.copied ∧ o.a₁.permissions = o.a₂.permissions := by
  -- the other copy, which came first, left the source alone
  have hread : o.mid₂.get? o.a₁.source = some (.file o.a₁.content o.a₁.permissions) :=
    o.b₂.get?_of_ne_target o.a₁.get?_source (o.targetB_eq ▸ h.sourceA)
  rw [o.sourceA_eq, o.a₂.get?_source] at hread
  obtain ⟨hcontent, hpermissions⟩ := Entry.file.inj (Option.some.inj hread)
  refine ⟨?_, hpermissions.symm⟩
  rw [o.a₁.copy.copied_eq, o.a₂.copy.copied_eq, o.sourceA_eq, o.targetA_eq, hcontent]

theorem report_eq (h : o.Independent) :
    o.reportA₁.plan = o.reportA₂.plan ∧ o.reportA₁.bytesCopied = o.reportA₂.bytesCopied := by
  constructor
  · exact o.a₁.plan_eq.trans o.a₂.plan_eq.symm
  · rw [o.a₁.bytesCopied_eq, o.a₂.bytesCopied_eq, (o.copied_eq h).1]

theorem get?_targetA (h : o.Independent) : after₁.get? o.a₁.target = after₂.get? o.a₁.target := by
  have hfirst := o.b₁.get?_of_ne_target o.a₁.copy.written h.targets.symm
  have hsecond := o.a₂.copy.written
  rw [hfirst, o.targetA_eq, hsecond, (o.copied_eq h).1, (o.copied_eq h).2]

theorem get?_of_get? {loc : Location} {entry : Entry} (h : o.Independent)
    (hg : after₁.get? loc = some entry) : after₂.get? loc = some entry := by
  by_cases ha : o.a₁.target = loc
  · subst ha
    exact (o.get?_targetA h).symm.trans hg
  · by_cases hb : o.b₁.target = loc
    · subst hb
      have htarget := o.swap.get?_targetA h.swap
      have hsame : after₂.get? o.b₁.target = after₁.get? o.b₁.target := by
        rw [o.targetB_eq]
        exact htarget
      exact hsame.trans hg
    · by_cases hf : after₁.isFile loc
      · -- a file that neither copy wrote is an old one
        obtain ⟨content, permissions, hfile⟩ := isFile_iff.mp hf
        obtain rfl := Option.some.inj (hg.symm.trans hfile)
        have hold := o.a₁.file_of_ne_target (o.b₁.file_of_ne_target hg hb) ha
        have hmid := o.b₂.get?_of_ne_target hold (o.targetB_eq ▸ hb)
        exact o.a₂.get?_of_ne_target hmid (o.targetA_eq ▸ ha)
      · have hno : ¬ entry.isFile := by simpa [isFile, hg] using hf
        exact o.within.grows.get?_of_not_isFile hg hno

theorem after_eq (h : o.Independent) : after₁ = after₂ := by
  apply FileSystem.ext
  intro loc
  apply Option.ext
  intro entry
  exact ⟨o.get?_of_get? h, o.swap.get?_of_get? h.swap⟩

end BothOrders

end FileSystem

theorem Report.eq_of_plan_eq {r r' : Report} (hp : r.plan = r'.plan)
    (hb : r.bytesCopied = r'.bytesCopied) : r' = { r with createdDir := r'.createdDir } := by
  cases r
  cases r'
  simp_all

/-- Two copies to different files, neither of which is what the other one copies, can be made in
either order. Only which of them made a directory may differ. -/
theorem run_comm {fs mid₁ mid₂ after₁ after₂ : FileSystem} {cwd : WorkingDirectory}
    {a b : Request} {reportA₁ reportB₁ reportB₂ reportA₂ : Report} (hc : fs.isDirectory cwd.above)
    (ha₁ : ((disk cwd).run a).run fs = (.ok (.copied reportA₁), mid₁))
    (hb₁ : ((disk cwd).run b).run mid₁ = (.ok (.copied reportB₁), after₁))
    (hb₂ : ((disk cwd).run b).run fs = (.ok (.copied reportB₂), mid₂))
    (ha₂ : ((disk cwd).run a).run mid₂ = (.ok (.copied reportA₂), after₂))
    (htargets : after₁.locate cwd .find reportA₁.plan.destinationFile ≠
      after₁.locate cwd .find reportB₁.plan.destinationFile)
    (hsourceA : after₁.locate cwd .find reportB₁.plan.destinationFile ≠
      after₁.locate cwd .find a.infile)
    (hsourceB : after₁.locate cwd .find reportA₁.plan.destinationFile ≠
      after₁.locate cwd .find b.infile) :
    after₁ = after₂ ∧
      reportA₂ = { reportA₁ with createdDir := reportA₂.createdDir } ∧
      reportB₂ = { reportB₁ with createdDir := reportB₂.createdDir } := by
  obtain ⟨planA, hplanA, ⟨dA₁⟩⟩ := delivery_of_run hc ha₁
  obtain ⟨planB, hplanB, ⟨dB₂⟩⟩ := delivery_of_run hc hb₂
  obtain ⟨planB', hplanB', ⟨dB₁⟩⟩ := delivery_of_run (dA₁.grows.isDirectory hc) hb₁
  obtain ⟨planA', hplanA', ⟨dA₂⟩⟩ := delivery_of_run (dB₂.grows.isDirectory hc) ha₂
  -- a copy that comes first leaves the plan of the other one as it was
  obtain rfl : planA = planA' := by simpa [plan_mono hplanA dB₂.grows] using hplanA'
  obtain rfl : planB = planB' := by simpa [plan_mono hplanB dA₁.grows] using hplanB'
  obtain ⟨nameA, hA⟩ := planned_of_plan hplanA
  obtain ⟨nameB, hB⟩ := planned_of_plan hplanB
  let o : BothOrders cwd planA planB fs after₁ after₂ :=
    ⟨mid₁, mid₂, reportA₁, reportB₁, reportB₂, reportA₂, dA₁, dB₁, dB₂, dA₂,
      hA.not_isEmpty_destinationDir, hB.not_isEmpty_destinationDir⟩
  have htargetA := locate_find_mono dA₁.locate_target dB₁.grows
  have hinfileA := locate_find_mono dA₁.locate_source dB₁.grows
  have htargetB := dB₁.locate_target
  have hinfileB := dB₁.locate_source
  rw [hA.source] at hinfileA
  rw [hB.source] at hinfileB
  rw [dA₁.plan_eq, dB₁.plan_eq, htargetA, htargetB] at htargets
  rw [dB₁.plan_eq, htargetB, hinfileA] at hsourceA
  rw [dA₁.plan_eq, htargetA, hinfileB] at hsourceB
  have hindependent : o.Independent := by
    constructor
    · exact fun he => htargets (by rw [he])
    · exact fun he => hsourceA (by rw [he])
    · exact fun he => hsourceB (by rw [he])
  obtain ⟨hplan₁, hbytes₁⟩ := o.report_eq hindependent
  obtain ⟨hplan₂, hbytes₂⟩ := o.swap.report_eq hindependent.swap
  refine ⟨o.after_eq hindependent, ?_, ?_⟩
  · exact Report.eq_of_plan_eq hplan₁ hbytes₁
  · exact Report.eq_of_plan_eq hplan₂.symm hbytes₂.symm

def twoFiles : FileSystem :=
  ofEntries [
    ("/src/pkg/f", .file ⟨#[1, 2, 3]⟩ ⟨0o640⟩),
    ("/src/pkg/g", .file ⟨#[4]⟩ .forFile)]

def oneRequest (name : String) : Request :=
  { infile := .ofString ("/src/pkg/" ++ name), outdir := "/out", marker := .source,
    dryRun := false }

def onePlan (name : String) : Plan where
  source := .ofString ("/src/pkg/" ++ name)
  canonicalSource := .ofString ("/src/pkg/" ++ name)
  marker := .source
  relativeDir := "pkg"
  relativeFile := "pkg/" ++ name
  destinationDir := .ofString "/out/pkg"
  destinationFile := .ofString ("/out/pkg/" ++ name)

def afterOne (name : String) : FileSystem :=
  (((disk (.ofLocation [])).run (oneRequest name)).run twoFiles).2

def afterBoth (first second : String) : FileSystem :=
  (((disk (.ofLocation [])).run (oneRequest second)).run (afterOne first)).2

theorem run_comm_twoFiles :
    ((disk (.ofLocation [])).run (oneRequest "f")).run twoFiles =
      (.ok (.copied ⟨onePlan "f", true, 3⟩), afterOne "f") ∧
    ((disk (.ofLocation [])).run (oneRequest "f")).run (afterOne "g") =
      (.ok (.copied ⟨onePlan "f", false, 3⟩), afterBoth "g" "f") ∧
    afterBoth "f" "g" = afterBoth "g" "f" := by
  have hf₁ : ((disk (.ofLocation [])).run (oneRequest "f")).run twoFiles =
      (.ok (.copied ⟨onePlan "f", true, 3⟩), afterOne "f") :=
    Prod.ext (by decide +kernel) rfl
  have hg₁ : ((disk (.ofLocation [])).run (oneRequest "g")).run (afterOne "f") =
      (.ok (.copied ⟨onePlan "g", false, 1⟩), afterBoth "f" "g") :=
    Prod.ext (by decide +kernel) rfl
  have hg₂ : ((disk (.ofLocation [])).run (oneRequest "g")).run twoFiles =
      (.ok (.copied ⟨onePlan "g", true, 1⟩), afterOne "g") :=
    Prod.ext (by decide +kernel) rfl
  have hf₂ : ((disk (.ofLocation [])).run (oneRequest "f")).run (afterOne "g") =
      (.ok (.copied ⟨onePlan "f", false, 3⟩), afterBoth "g" "f") :=
    Prod.ext (by decide +kernel) rfl
  exact ⟨hf₁, hf₂, (run_comm (isDirectory_root _) hf₁ hg₁ hg₂ hf₂ (by decide +kernel)
    (by decide +kernel) (by decide +kernel)).1⟩

end MarkerCopy
