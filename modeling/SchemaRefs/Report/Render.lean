import SchemaRefs.Json.Printer
import SchemaRefs.Report.Basic

/-!
# The text of a report
-/

namespace SchemaRefs.Report

open CommandLine

/-! ## JSON -/

/-- An optional property, left out when absent. -/
def propJson {α : Type} (key : String) (encode : α → Json) : Option α → List (String × Json)
  | none => []
  | some value => [(key, encode value)]

variable (doc : Document)

def referenceJson (entry : ReferenceEntry) : Json :=
  .object (("path", .string entry.path) ::
    propJson "resolution" (Resolution.toJson doc) entry.resolution ++
    propJson "error" Json.string entry.error ++
    propJson "location" Location.toJson entry.location ++
    propJson "semanticLocation" Json.string entry.semantic)

def memberJson (entry : MemberEntry) : Json :=
  .object (("path", .string entry.path) ::
    propJson "origin" Json.string entry.origin ++
    propJson "effectiveType" Json.string entry.effectiveType ++
    propJson "error" Json.string entry.error)

def snapshotJson : SnapshotEntry → Json
  | .taken snapshot => snapshot.toJson
  | .failed definition message =>
    .object [("definition", .string definition), ("error", .string message)]

/-- A list property, left out when empty. -/
def listJson {α : Type} (key : String) (encode : α → Json) (values : List α) :
    List (String × Json) :=
  if values.isEmpty then [] else [(key, .array (values.map encode))]

/-- A report as an object. -/
def toJson (report : Report) : Json :=
  .object (("references", .array (report.references.map (referenceJson doc))) ::
    listJson "members" memberJson report.members ++
    listJson "snapshots" snapshotJson report.snapshots ++
    [("errors", .nat report.errors)])

/-! ## Lines -/

/-- The lines for a reference. -/
def referenceLines (entry : ReferenceEntry) : List String :=
  let first := match entry.error, entry.resolution with
    | some error, _ => entry.path ++ ": error: " ++ error
    | none, some resolution =>
      entry.path ++ ": [" ++ resolution.context.tag ++ "] " ++ resolution.scope.tag ++ " -> " ++
        (resolution.art.map doc.pathText).getD "-"
    | none, none => entry.path
  let second := match entry.semantic, entry.location with
    | some semantic, some location => ["  at " ++ location.text ++ " (" ++ semantic ++ ")"]
    | some semantic, none => ["  at " ++ semantic]
    | none, _ => []
  first :: second

/-- The lines for a member. -/
def memberLines (entry : MemberEntry) : List String :=
  match entry.error with
  | some error => [entry.path ++ ": error: " ++ error]
  | none =>
    (entry.path ++ ":") ::
      (entry.origin.map fun origin => "  origin: " ++ origin).toList ++
      (entry.effectiveType.map fun type => "  effective type: " ++ type).toList

/-- The lines of a report. -/
def lines (report : Report) : List String :=
  report.references.flatMap (referenceLines doc) ++ report.members.flatMap memberLines ++
    report.snapshots.map (fun entry => (snapshotJson entry).pretty) ++
    if report.hasErrors then [toString report.errors ++ " error(s)"] else []

/-- The text of a report in a format. Every line ends with a line feed. -/
def render (report : Report) : Format → String
  | .json => (report.toJson doc).pretty ++ "\n"
  | .text => String.join ((report.lines doc).map (· ++ "\n"))

end SchemaRefs.Report
