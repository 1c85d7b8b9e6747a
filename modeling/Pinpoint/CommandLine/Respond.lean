import Pinpoint.CommandLine.Arguments
import Pinpoint.CommandLine.FileTree
import Pinpoint.Json.Reader
import Pinpoint.Json.Writer
import Pinpoint.Sites
import Pinpoint.Offsets

namespace Pinpoint

namespace FileContents

/-- The text of the file at `path`. -/
def text (path : String) : FileContents → Except Failure String
  | .missing => .error (.missingFile path)
  | .fault reason => .error (.ofFileFault reason)
  | .bytes contents =>
    match String.fromUTF8? contents with
    | some text => .ok text
    | none => .error (.ofFileFault "stream did not contain valid UTF-8")

/-- The document of the file at `path`, named `document` in messages. -/
def document {α : Type} (path document : String) (decode : Json → Option α) (contents : FileContents) :
    Except Failure α :=
  match contents.text path with
  | .error failure => .error failure
  | .ok text =>
    match (Json.read? text).bind decode with
    | some value => .ok value
    | none => .error (.malformed document none)

end FileContents

/-- The response to a command about a file. -/
def Job.respond (path : String) (contents : FileContents) : Job → Except Stop Json
  | .locate =>
    match contents.document path "request" SiteRequest.ofJson? with
    | .error failure => .error (.failure failure)
    | .ok request => request.answer.map (·.toJson)
  | .offsets =>
    match contents.document path "event stream" Event.listOfJson? with
    | .error failure => .error (.failure failure)
    | .ok events =>
      match OffsetsReport.ofEvents events with
      | .error failure => .error (.failure failure)
      | .ok report => .ok report.toJson

/-- How the program ends: its exit code and what it has printed. -/
structure Outcome where
  exit : Nat
  output : String
deriving DecidableEq

namespace Outcome

/-- The end of a command: failures are printed as responses, too. -/
def ofResponse : Except Stop Json → Outcome
  | .ok response => ⟨0, response.pretty⟩
  | .error (.failure failure) => ⟨failure.code, failure.toJson.pretty⟩
  | .error (.overflow _) => ⟨101, ""⟩

/-- The end of an invocation, with the contents of the file it asks for. -/
def ofInvocation (contents : String → FileContents) : Invocation → Outcome
  | .run command file => ofResponse (command.respond file (contents file))
  | .version => ⟨0, "annofind 0.1.0\n"⟩
  | .help => ⟨0, ""⟩
  | .rejected => ⟨2, ""⟩

end Outcome

end Pinpoint
