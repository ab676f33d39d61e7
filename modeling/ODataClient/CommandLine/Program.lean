import ODataClient.CommandLine.Report

/-! The program `odq`, which compiles commands and detects protocol versions without a
service at hand. -/

namespace ODataClient

inductive Outcome
  | printed (text : String)
  | failed (e : Error)
  | misused

def versionText : String := "odq 0.4.0\n"

def usageText : String :=
  "Usage: odq [OPTIONS] compile [OPTIONS] COMMAND\n" ++
  "       odq [OPTIONS] detect [OPTIONS]\n"

def helpText : String :=
  "Compile OData queries offline\n\n" ++ usageText ++
  "\nCompile the command that the JSON text in the file COMMAND describes:\n" ++
  "      --model FILE             JSON entity model\n" ++
  "      --config FILE            TOML settings file, or else the one that ODQ_CONFIG names\n" ++
  "      --protocol VERSION       Protocol version, such as 3.0 or 4.0\n" ++
  "      --strict                 Reject filters targeting several entities\n" ++
  "      --enum-prefix-free       Render enum literals without the type prefix\n" ++
  "      --no-escape              Do not percent-escape literals\n" ++
  "      --update-method METHOD   Method for updates that keep their key: patch or put\n" ++
  "\nDetect the protocol version from headers and a metadata document:\n" ++
  "      --header NAME:VALUE      Response header, repeatable\n" ++
  "      --metadata FILE          Metadata document\n" ++
  "\nOptions:\n" ++
  "      --format FORMAT          Output format: text or json\n" ++
  "  -v, --verbose                Log more\n" ++
  "  -h, --help                   Print help\n" ++
  "  -V, --version                Print version\n"

variable {m : Type → Type} [Monad m]

def Arguments.run (read : FileReader m) (a : Arguments) : m Outcome := do
  match ← (a.task.output read a.format).run with
  | .ok text => return .printed text
  | .error e => return .failed e

def runProgram (read : FileReader m) (config : Option String) (arguments : List String) :
    m Outcome := do
  match Arguments.read config arguments with
  | .ok a => a.run read
  | .error .help => return .printed helpText
  | .error .version => return .printed versionText
  | .error .misuse => return .misused

def Error.line (e : Error) : String := "error: [" ++ e.code ++ "] " ++ e.message ++ "\n"

def Outcome.exitCode : Outcome → UInt32
  | printed _ => 0
  | failed _ => 1
  | misused => 2

def Outcome.standardOutput : Outcome → String
  | printed text => text
  | _ => ""

def Outcome.standardError : Outcome → String
  | printed _ => ""
  | failed e => e.line
  | misused => usageText

end ODataClient
