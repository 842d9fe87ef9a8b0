import MarkerCopy.Proofs.Encoding
import MarkerCopy.Proofs.JsonReading

/-! What the JSON of plans and reports says. All their fields can be read in it, so what is printed
tells which plan or report it was printed for. -/

namespace MarkerCopy

open Json

theorem Path.json?_eq_some_iff {p : Path} {value : Value} :
    p.json? = some value ↔ ∃ text, p = .ofString text ∧ value = .string text := by
  rw [json?, Option.map_eq_some_iff]
  simp only [text?_eq_some_iff, @eq_comm _ (Value.string _) value]

theorem Plan.fields?_eq_some_iff {plan : Plan} {fields : Fields} :
    plan.fields? = some fields ↔ ∃ source canonical dir file : String,
      plan.source = .ofString source ∧ plan.canonicalSource = .ofString canonical ∧
      plan.destinationDir = .ofString dir ∧ plan.destinationFile = .ofString file ∧
      fields = [
        ("source", .string source),
        ("canonical_source", .string canonical),
        ("mode", .string plan.marker.name),
        ("relative_dir", .string plan.relativeDir),
        ("relative_file", .string plan.relativeFile),
        ("destination_dir", .string dir),
        ("destination_file", .string file)] := by
  unfold fields?
  simp only [Option.bind_eq_bind, Option.bind_eq_some_iff, Path.json?_eq_some_iff]
  constructor
  · rintro ⟨_, ⟨source, hs, rfl⟩, _, ⟨canonical, hc, rfl⟩, _, ⟨dir, hd, rfl⟩, _, ⟨file, hf, rfl⟩, he⟩
    exact ⟨source, canonical, dir, file, hs, hc, hd, hf, (Option.some.inj he).symm⟩
  · rintro ⟨source, canonical, dir, file, hs, hc, hd, hf, rfl⟩
    exact ⟨_, ⟨source, hs, rfl⟩, _, ⟨canonical, hc, rfl⟩, _, ⟨dir, hd, rfl⟩, _, ⟨file, hf, rfl⟩, rfl⟩

theorem Report.fields?_eq_some_iff {report : Report} {fields : Fields} :
    report.fields? = some fields ↔ ∃ planned, report.plan.fields? = some planned ∧
      fields = planned ++
        [("created_dir", .bool report.createdDir), ("bytes_copied", .number report.bytesCopied)] := by
  unfold fields?
  simp only [Option.bind_eq_bind, Option.bind_eq_some_iff, Option.pure_def, Option.some.injEq,
    @eq_comm _ _ fields]

theorem Marker.name_injective : Function.Injective Marker.name := by
  intro marker marker' h
  cases marker <;> cases marker' <;> revert h <;> decide

theorem Plan.eq_of_fields? {plan plan' : Plan} {fields : Fields} (h : plan.fields? = some fields)
    (h' : plan'.fields? = some fields) : plan = plan' := by
  obtain ⟨source, canonical, dir, file, hs, hc, hd, hf, rfl⟩ := fields?_eq_some_iff.mp h
  obtain ⟨source', canonical', dir', file', hs', hc', hd', hf', he⟩ := fields?_eq_some_iff.mp h'
  simp only [List.cons.injEq, Prod.mk.injEq, Value.string.injEq, true_and, and_true] at he
  obtain ⟨rfl, rfl, hmarker, hrelativeDir, hrelativeFile, rfl, rfl⟩ := he
  rw [Plan.mk.injEq]
  exact ⟨hs.trans hs'.symm, hc.trans hc'.symm, Marker.name_injective hmarker, hrelativeDir,
    hrelativeFile, hd.trans hd'.symm, hf.trans hf'.symm⟩

theorem Report.eq_of_fields? {report report' : Report} {fields : Fields}
    (h : report.fields? = some fields) (h' : report'.fields? = some fields) :
    report = report' := by
  obtain ⟨planned, hp, rfl⟩ := fields?_eq_some_iff.mp h
  obtain ⟨planned', hp', he⟩ := fields?_eq_some_iff.mp h'
  obtain ⟨rfl, hmore⟩ := List.append_inj' he rfl
  simp only [List.cons.injEq, Prod.mk.injEq, Value.bool.injEq, Value.number.injEq, true_and,
    and_true] at hmore
  rw [Report.mk.injEq]
  exact ⟨Plan.eq_of_fields? hp hp', hmore⟩

theorem Plan.length_fields? {plan : Plan} {fields : Fields} (h : plan.fields? = some fields) :
    fields.length = 7 := by
  obtain ⟨_, _, _, _, -, -, -, -, rfl⟩ := fields?_eq_some_iff.mp h
  rfl

theorem Report.length_fields? {report : Report} {fields : Fields}
    (h : report.fields? = some fields) : fields.length = 9 := by
  obtain ⟨planned, hp, rfl⟩ := fields?_eq_some_iff.mp h
  rw [List.length_append, Plan.length_fields? hp]
  rfl

namespace Outcome

def fields? : Outcome → Option Fields
  | planned plan => plan.fields?
  | copied report => report.fields?

theorem json?_eq (outcome : Outcome) : outcome.json? = outcome.fields?.map renderObject := by
  cases outcome <;> rfl

theorem eq_of_fields? {outcome outcome' : Outcome} {fields : Fields}
    (h : outcome.fields? = some fields) (h' : outcome'.fields? = some fields) :
    outcome = outcome' := by
  cases outcome with
  | planned plan =>
    cases outcome' with
    | planned plan' => rw [Plan.eq_of_fields? h h']
    | copied report' => cases (Plan.length_fields? h).symm.trans (Report.length_fields? h')
  | copied report =>
    cases outcome' with
    | planned plan' => cases (Plan.length_fields? h').symm.trans (Report.length_fields? h)
    | copied report' => rw [Report.eq_of_fields? h h']

/-- A text is printed for one outcome at most. -/
theorem eq_of_json? {outcome outcome' : Outcome} {text : String}
    (h : outcome.json? = some text) (h' : outcome'.json? = some text) : outcome = outcome' := by
  rw [json?_eq, Option.map_eq_some_iff] at h h'
  obtain ⟨fields, hfields, rfl⟩ := h
  obtain ⟨fields', hfields', he⟩ := h'
  obtain rfl := renderObject_injective he
  exact eq_of_fields? hfields hfields'

end Outcome

theorem renderFields_done (createdDir : Bool) (bytesCopied : Nat) :
    ",\n" ++ String.ofList (renderFields
      [("created_dir", .bool createdDir), ("bytes_copied", .number bytesCopied)]) =
      ",\n  \"created_dir\": " ++ (if createdDir then "true" else "false") ++
        ",\n  \"bytes_copied\": " ++ bytesCopied.repr := by
  have hcreated : renderString "created_dir" = "\"created_dir\"".toList := by decide
  have hbytes : renderString "bytes_copied" = "\"bytes_copied\"".toList := by decide
  refine String.toList_inj.mp ?_
  simp only [renderFields, renderField, hcreated, hbytes, Value.render,
    Nat.repr_eq_ofList_toDigits]
  cases createdDir <;> simp

/-- The JSON of a plan and of a report says what their fields are and nothing else, and is printed
for no other plan or report. That of the report goes on from that of its plan. -/
theorem json_loses_nothing {report : Report} {source canonical dir file : String}
    (hs : report.plan.source = .ofString source)
    (hc : report.plan.canonicalSource = .ofString canonical)
    (hd : report.plan.destinationDir = .ofString dir)
    (hf : report.plan.destinationFile = .ofString file) :
    ∃ planText reportText, report.plan.json? = some planText ∧ report.json? = some reportText ∧
      (let members := [
        ("source", Datum.string source),
        ("canonical_source", .string canonical),
        ("mode", .string report.plan.marker.name),
        ("relative_dir", .string report.plan.relativeDir),
        ("relative_file", .string report.plan.relativeFile),
        ("destination_dir", .string dir),
        ("destination_file", .string file)]
      (∀ datum, Denotes planText datum ↔ datum = .object members) ∧
      ∀ datum, Denotes reportText datum ↔ datum = .object (members ++ [
        ("created_dir", .bool report.createdDir),
        ("bytes_copied", .number report.bytesCopied)])) ∧
      (∀ outcome : Outcome, outcome.json? = some planText → outcome = .planned report.plan) ∧
      (∀ outcome : Outcome, outcome.json? = some reportText → outcome = .copied report) ∧
      ∃ start, planText = start ++ "\n\x7d" ∧
        reportText = start ++
          ",\n  \"created_dir\": " ++ (if report.createdDir then "true" else "false") ++
          ",\n  \"bytes_copied\": " ++ report.bytesCopied.repr ++ "\n\x7d" := by
  have hplan : report.plan.fields? = some _ :=
    Plan.fields?_eq_some_iff.mpr ⟨source, canonical, dir, file, hs, hc, hd, hf, rfl⟩
  have hreport : report.fields? = some _ := Report.fields?_eq_some_iff.mpr ⟨_, hplan, rfl⟩
  have hplanText : (Outcome.planned report.plan).json? = some (renderObject _) :=
    (Outcome.json?_eq _).trans (congrArg (Option.map renderObject) hplan)
  have hreportText : (Outcome.copied report).json? = some (renderObject _) :=
    (Outcome.json?_eq _).trans (congrArg (Option.map renderObject) hreport)
  refine ⟨_, _, hplanText, hreportText, ⟨?_, ?_⟩, ?_, ?_, ?_⟩
  · exact fun datum => denotes_renderObject_iff
  · exact fun datum => denotes_renderObject_iff
  · exact fun outcome h => Outcome.eq_of_json? h hplanText
  · exact fun outcome h => Outcome.eq_of_json? h hreportText
  · obtain ⟨start, hstart, hmore⟩ :=
      exists_renderObject_append (List.cons_ne_nil _ _) (List.cons_ne_nil _ _)
    rw [renderFields_done] at hmore
    exact ⟨start, hstart, hmore.trans (by simp only [String.append_assoc])⟩

def escapedReport : Report where
  plan := {
    source := .ofString "src/\"a\\b\".c"
    canonicalSource := .ofString "/p/src/é\x01\t/\x7f.c"
    marker := .source
    relativeDir := "é\x01\t"
    relativeFile := "é\x01\t/\x7f.c"
    destinationDir := .ofString "out/é\x01\t"
    destinationFile := .ofString "out/é\x01\t/\"a\\b\".c" }
  createdDir := true
  bytesCopied := 18446744073709551615

theorem json_loses_nothing_escaped :
    ∃ text, escapedReport.json? = some text ∧ Denotes text (.object [
      ("source", .string "src/\"a\\b\".c"),
      ("canonical_source", .string "/p/src/é\x01\t/\x7f.c"),
      ("mode", .string "source"),
      ("relative_dir", .string "é\x01\t"),
      ("relative_file", .string "é\x01\t/\x7f.c"),
      ("destination_dir", .string "out/é\x01\t"),
      ("destination_file", .string "out/é\x01\t/\"a\\b\".c"),
      ("created_dir", .bool true),
      ("bytes_copied", .number 18446744073709551615)]) := by
  have hs : escapedReport.plan.source = .ofString "src/\"a\\b\".c" := rfl
  obtain ⟨-, text, -, htext, ⟨-, hdenotes⟩, -⟩ := json_loses_nothing hs rfl rfl rfl
  exact ⟨text, htext, (hdenotes _).mpr rfl⟩

end MarkerCopy
