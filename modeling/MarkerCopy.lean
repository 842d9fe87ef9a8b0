import MarkerCopy.Main
import MarkerCopy.Proofs.Agreement
import MarkerCopy.Proofs.Collision
import MarkerCopy.Proofs.Commuting
import MarkerCopy.Proofs.Containment
import MarkerCopy.Proofs.DryRun
import MarkerCopy.Proofs.Footprint
import MarkerCopy.Proofs.Grammar
import MarkerCopy.Proofs.InputSafety
import MarkerCopy.Proofs.OutputFlags
import MarkerCopy.Proofs.Rerunning
import MarkerCopy.Proofs.Staging
import MarkerCopy.Proofs.Streams
import MarkerCopy.Proofs.Occurring
import MarkerCopy.Proofs.Comparing
import MarkerCopy.Proofs.PlanResults
import MarkerCopy.Proofs.RelativePaths
import MarkerCopy.Proofs.Distinctness
import MarkerCopy.Proofs.Replanning
import MarkerCopy.Proofs.KeptText
import MarkerCopy.Proofs.Layout
import MarkerCopy.Proofs.JsonGrammar
import MarkerCopy.Proofs.JsonReading
import MarkerCopy.Proofs.ReportText
import MarkerCopy.Proofs.JsonRefusal
