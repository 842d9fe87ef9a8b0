import MarkerCopy.Proofs.Ancestors
import MarkerCopy.Proofs.Cutting
import MarkerCopy.Proofs.Execution
import MarkerCopy.Report

/-! Which paths are text, and which plans can therefore be written as JSON. A slash is a character
of its own in UTF-8, so the names in a path that is text are text. -/

namespace MarkerCopy

namespace Utf8

theorem high_of_mem_encodeChar {c : Char} {b : UInt8} (hc : 128 ≤ c.val.toNat)
    (h : b ∈ String.utf8EncodeChar c) : 128 ≤ b.toNat := by
  rw [String.utf8EncodeChar] at h
  generalize c.val.toNat = n at hc h
  rw [if_neg (by omega)] at h
  -- the character has two, three or four bytes
  split at h
  · simp only [List.mem_cons, List.not_mem_nil, or_false] at h
    rcases h with rfl | rfl <;> simp <;> omega
  · split at h
    · simp only [List.mem_cons, List.not_mem_nil, or_false] at h
      rcases h with rfl | rfl | rfl <;> simp <;> omega
    · simp only [List.mem_cons, List.not_mem_nil, or_false] at h
      rcases h with rfl | rfl | rfl | rfl <;> simp <;> omega

theorem slash_not_mem_encodeChar {c : Char} (h : c ≠ '/') :
    Path.slash ∉ String.utf8EncodeChar c := by
  intro hm
  by_cases hc : c.val.toNat < 128
  · rw [encodeChar_one hc, List.mem_singleton] at hm
    have hn := (UInt8.toNat_inj.mpr hm).symm
    rw [UInt8.toNat_ofNat_of_lt' (show c.val.toNat < 256 by omega)] at hn
    exact h (Char.ext (UInt32.toNat_inj.mp hn))
  · have hhigh := high_of_mem_encodeChar (Nat.le_of_not_lt hc) hm
    exact absurd hhigh (by decide)

theorem eq_encode_of_low {text : List Char} {start rest : List UInt8} {b : UInt8}
    (hb : b.toNat < 128) (h : encode text = start ++ b :: rest) :
    ∃ first second, text = first ++ second ∧ start = encode first ∧ b :: rest = encode second := by
  induction text generalizing start with
  | nil => simp [encode_nil] at h
  | cons c text ih =>
    cases start with
    | nil => exact ⟨[], c :: text, rfl, rfl, h.symm⟩
    | cons a start =>
      rw [encode_cons] at h
      rcases List.append_eq_append_iff.mp h with ⟨more, hstart, htext⟩ | ⟨more, hc, hrest⟩
      · obtain ⟨first, second, rfl, rfl, hsecond⟩ := ih htext
        exact ⟨c :: first, second, rfl, hstart, hsecond⟩
      · cases more with
        | nil => exact ⟨[c], text, rfl, by simpa [encode] using hc.symm, hrest⟩
        | cons b' more =>
          -- a byte that comes after others in a character is high
          obtain rfl : b = b' := (List.cons.inj hrest).1
          have hmem : b ∈ String.utf8EncodeChar c := by simp [hc]
          by_cases hlow : c.val.toNat < 128
          · rw [encodeChar_one hlow] at hc
            simp at hc
          · have hhigh := high_of_mem_encodeChar (Nat.le_of_not_lt hlow) hmem
            omega

end Utf8

theorem pieces_append_of_not_mem {α : Type} [DecidableEq α] {sep : α} {xs : List α}
    (h : sep ∉ xs) (ys : List α) :
    pieces sep (xs ++ ys) = (pieces sep ys).modifyHead (xs ++ ·) := by
  induction xs with
  | nil => cases hp : pieces sep ys <;> simp [hp]
  | cons x xs ih =>
    obtain ⟨hx, hxs⟩ := List.ne_and_not_mem_of_not_mem_cons h
    rw [List.cons_append, pieces, if_neg hx.symm, ih hxs]
    cases hp : pieces sep ys with
    | nil => exact absurd hp (pieces_ne_nil sep ys)
    | cons p ps => rfl

/-- The segments of a text are the same whether it is cut before or after it is encoded. -/
theorem pieces_encode (text : List Char) :
    pieces Path.slash (Utf8.encode text) = (pieces '/' text).map Utf8.encode := by
  induction text with
  | nil => rfl
  | cons c text ih =>
    by_cases h : c = '/'
    · have hslash : Utf8.encode (c :: text) = Path.slash :: Utf8.encode text := by
        subst h
        rfl
      rw [hslash]
      simp [pieces, h, ih, Utf8.encode_nil]
    · rw [Utf8.encode_cons, pieces_append_of_not_mem (Utf8.slash_not_mem_encodeChar h), ih]
      cases hp : pieces '/' text with
      | nil => exact absurd hp (pieces_ne_nil '/' text)
      | cons p ps => simp [pieces, h, hp, Utf8.encode_cons]

namespace Path

/-- Whether the bytes of a path are UTF-8. -/
def IsText (p : Path) : Prop :=
  ∃ text, p = .ofString text

theorem isText_iff {p : Path} : p.IsText ↔ p.text?.isSome := by
  simp only [IsText, Option.isSome_iff_exists, text?_eq_some_iff]

instance (p : Path) : Decidable p.IsText :=
  decidable_of_iff _ isText_iff.symm

theorem isText_encode (text : List Char) : IsText ⟨Utf8.encode text⟩ :=
  ⟨String.ofList text, (ofString_ofList text).symm⟩

theorem isText_iff_exists_encode {p : Path} : p.IsText ↔ ∃ text, p.bytes = Utf8.encode text := by
  constructor
  · rintro ⟨text, rfl⟩
    exact ⟨text.toList, rfl⟩
  · rintro ⟨text, h⟩
    obtain ⟨bytes⟩ := p
    obtain rfl : bytes = Utf8.encode text := h
    exact isText_encode text

/-- Bytes after a text are UTF-8 by themselves or not at all. -/
theorem isText_append_iff {first : List Char} {rest : List UInt8} :
    IsText ⟨Utf8.encode first ++ rest⟩ ↔ IsText ⟨rest⟩ := by
  constructor
  · intro h
    obtain ⟨text, htext⟩ := isText_iff_exists_encode.mp h
    obtain ⟨second, -, hsecond⟩ := Utf8.eq_append_of_encode htext.symm
    exact isText_iff_exists_encode.mpr ⟨second, hsecond⟩
  · intro h
    obtain ⟨second, hsecond⟩ := isText_iff_exists_encode.mp h
    obtain rfl : rest = Utf8.encode second := hsecond
    rw [← Utf8.encode_append]
    exact isText_encode (first ++ second)

/-- Below a directory that is text, the name decides. -/
theorem isText_join_iff {dir name : Path} (hd : dir.IsText) :
    (dir.join name).IsText ↔ name.IsText := by
  obtain ⟨d, hd⟩ := isText_iff_exists_encode.mp hd
  have hslash : Utf8.encode (d ++ ['/']) = dir.bytes ++ [slash] := by
    rw [Utf8.encode_append, hd]
    rfl
  unfold join
  split
  · exact Iff.rfl
  · split
    · rw [hd]
      exact isText_append_iff
    · rw [List.append_cons, ← hslash]
      exact isText_append_iff

theorem isText_of_mem_body {p : Path} {segment : List UInt8} (hp : p.IsText)
    (h : segment ∈ p.body) : IsText ⟨segment⟩ := by
  obtain ⟨text, ht⟩ := isText_iff_exists_encode.mp hp
  obtain ⟨rest, hr⟩ := p.lead_prefix
  have hlead : ∃ first, p.lead = Utf8.encode first := by
    rcases p.lead_cases with hl | hl | hl
    · exact ⟨[], hl⟩
    · exact ⟨['/'], hl⟩
    · exact ⟨['.'], hl⟩
  obtain ⟨first, hfirst⟩ := hlead
  rw [ht, hfirst] at hr
  obtain ⟨second, -, hsecond⟩ := Utf8.eq_append_of_encode hr.symm
  have hbody : p.body = (pieces '/' second).map Utf8.encode := by
    rw [body, ht, ← hr, hfirst, List.drop_left, hsecond, pieces_encode]
  rw [hbody] at h
  obtain ⟨piece, -, rfl⟩ := List.mem_map.mp h
  exact isText_encode piece

theorem isText_of_fileName? {p name : Path} (hp : p.IsText) (h : p.fileName? = some name) :
    name.IsText :=
  isText_of_mem_body hp (mem_body_of_fileName? h)

end Path

namespace Location

variable {name : Name} {dir : Location}

theorem path_isText_iff {loc : Location} :
    loc.path.IsText ↔ ∃ text, loc.text = Utf8.encode text := by
  by_cases h : loc = []
  · subst h
    exact iff_of_true (Path.isText_encode ['/']) ⟨[], rfl⟩
  · rw [path, if_neg h]
    exact Path.isText_iff_exists_encode

theorem path_cons_eq_ofString {above text : List Char} (hd : dir.text = Utf8.encode above)
    (hn : name.bytes = Utf8.encode text) : path (name :: dir) = .ofString (String.ofList (above ++ '/' :: text)) := by
  have hslash : Utf8.encode ('/' :: text) = Path.slash :: Utf8.encode text := rfl
  rw [Path.ofString_ofList, Utf8.encode_append, hslash, ← hd, ← hn]
  rfl

/-- The bytes around a slash are UTF-8 if and only if all of them are. -/
theorem isText_path_cons_iff :
    (path (name :: dir)).IsText ↔ dir.path.IsText ∧ Path.IsText ⟨name.bytes⟩ := by
  constructor
  · intro h
    obtain ⟨text, htext⟩ := path_isText_iff.mp h
    obtain ⟨first, second, -, hdir, hsecond⟩ :=
      Utf8.eq_encode_of_low (by decide) (show Utf8.encode text = dir.text ++ _ from htext.symm)
    obtain ⟨last, -, hlast⟩ := Utf8.eq_append_of_encode
      (show Utf8.encode second = Utf8.encode ['/'] ++ name.bytes from hsecond.symm)
    exact ⟨path_isText_iff.mpr ⟨first, hdir⟩, Path.isText_iff_exists_encode.mpr ⟨last, hlast⟩⟩
  · rintro ⟨hd, hn⟩
    obtain ⟨above, habove⟩ := path_isText_iff.mp hd
    obtain ⟨text, htext⟩ := Path.isText_iff_exists_encode.mp hn
    exact ⟨_, path_cons_eq_ofString habove htext⟩

end Location

/-- Whether all paths of a plan are text. -/
def Plan.IsText (plan : Plan) : Prop :=
  plan.source.IsText ∧ plan.canonicalSource.IsText ∧ plan.destinationDir.IsText ∧
    plan.destinationFile.IsText

theorem Plan.json?_isSome_iff {plan : Plan} : plan.json?.isSome ↔ plan.IsText := by
  simp only [IsText, Path.isText_iff, json?, fields?, Path.json?]
  cases plan.source.text? <;> cases plan.canonicalSource.text? <;>
    cases plan.destinationDir.text? <;> cases plan.destinationFile.text? <;> simp

theorem Plan.json?_eq_none_iff {plan : Plan} : plan.json? = none ↔ ¬ plan.IsText := by
  rw [← json?_isSome_iff, Option.not_isSome_iff_eq_none]

theorem Report.json?_isSome_iff {report : Report} : report.json?.isSome ↔ report.plan.IsText := by
  rw [← Plan.json?_isSome_iff]
  unfold json? fields? Plan.json?
  cases report.plan.fields? <;> simp

theorem Report.json?_eq_none_iff {report : Report} :
    report.json? = none ↔ ¬ report.plan.IsText := by
  rw [← json?_isSome_iff, Option.not_isSome_iff_eq_none]

theorem isText_outputPath (outdir relativeDir : String) :
    (outputPath outdir relativeDir).IsText := by
  unfold outputPath
  split <;> exact ⟨_, rfl⟩

namespace Planned

variable {request : Request} {resolved : Except Cause Path} {plan : Plan} {name : Path}

theorem isText_canonicalSource (h : Planned request resolved plan name) :
    plan.canonicalSource.IsText := by
  obtain ⟨before, found, hp, -⟩ := Marker.relative_eq_ok_iff.mp h.relativeFile
  exact ⟨_, hp⟩

theorem isText_destinationDir (h : Planned request resolved plan name) :
    plan.destinationDir.IsText := by
  rw [h.destinationDir]
  exact isText_outputPath request.outdir plan.relativeDir

theorem isText_destinationFile_iff (h : Planned request resolved plan name) :
    plan.destinationFile.IsText ↔ name.IsText := by
  rw [h.destinationFile]
  exact Path.isText_join_iff h.isText_destinationDir

/-- What a request names must be text if its plan is to be text. All else in the plan is. -/
theorem isText_iff (h : Planned request resolved plan name) :
    plan.IsText ↔ request.infile.IsText := by
  constructor
  · rintro ⟨hs, -⟩
    rwa [h.source] at hs
  · intro hi
    have hname : name.IsText := Path.isText_of_fileName? hi h.fileName
    exact ⟨by rwa [h.source], h.isText_canonicalSource, h.isText_destinationDir,
      h.isText_destinationFile_iff.mpr hname⟩

end Planned

def Outcome.plan : Outcome → Plan
  | planned plan => plan
  | copied report => report.plan

theorem Outcome.json?_eq_none_iff {outcome : Outcome} :
    outcome.json? = none ↔ ¬ outcome.plan.IsText := by
  cases outcome with
  | planned _ => exact Plan.json?_eq_none_iff
  | copied _ => exact Report.json?_eq_none_iff

namespace FileSystem

variable {fs : FileSystem} {cwd : WorkingDirectory} {request : Request} {outcome : Outcome}

theorem plan_of_carryOut {plan : Plan} {report : Report}
    (h : (((disk cwd).carryOut plan).run fs).1 = .ok report) : report.plan = plan := by
  have hcases := carryOut_cases cwd plan fs
  generalize ((disk cwd).carryOut plan).run fs = result at hcases h
  cases hcases with
  | refused _ => cases h
  | unprepared _ _ => cases h
  | uncopied _ _ => cases h
  | copied _ _ =>
    cases h
    rfl

theorem plan_of_execute {dryRun : Bool} {plan : Plan}
    (h : (((disk cwd).execute dryRun plan).run fs).1 = .ok outcome) : outcome.plan = plan := by
  rcases outcome_of_execute h with ⟨-, rfl⟩ | ⟨-, report, rfl, hr⟩
  · rfl
  · exact plan_of_carryOut hr

theorem planned_of_run (h : (((disk cwd).run request).run fs).1 = .ok outcome) :
    ∃ name, Planned request (fs.canonical cwd request.infile) outcome.plan name := by
  cases hp : request.plan (fs.canonical cwd request.infile) with
  | error failure =>
    rw [run_request_of_error hp] at h
    cases h
  | ok plan =>
    rw [run_request_of_ok hp] at h
    rw [plan_of_execute h]
    exact planned_of_plan hp

theorem json?_of_run (h : (((disk cwd).run request).run fs).1 = .ok outcome) :
    outcome.json? = none ↔ ¬ request.infile.IsText := by
  obtain ⟨name, hplanned⟩ := planned_of_run h
  rw [Outcome.json?_eq_none_iff, hplanned.isText_iff]

end FileSystem

end MarkerCopy
