import ClassWeave.CommandLine.Options

/-!
# Pages

What the program prints when it is asked how it is used.
-/

namespace ClassWeave.CommandLine

/-- Lines of text, each ended. -/
def lines (ls : List String) : String := String.join (ls.map (· ++ "\n"))

def Page.text : Page → String
  | version => "classpatch 0.1.0\n"
  | usage none => lines
    ["Inspect, verify and patch JVM class files",
      "",
      "Usage: classpatch <COMMAND>",
      "",
      "Commands:",
      "  inspect    Print the members and decoded code of a class",
      "  verify     Rewrite a class and report what the verifier finds",
      "  transform  Run a class through the load-time pipeline",
      "  help       Print this message or the help of the given subcommand(s)",
      "",
      "Options:",
      "  -h, --help     Print help",
      "  -V, --version  Print version"]
  | usage (some .inspect) => lines
    ["Print the members and decoded code of a class",
      "",
      "Usage: classpatch inspect <CLASS>",
      "",
      "Arguments:",
      "  <CLASS>  Class file to read",
      "",
      "Options:",
      "  -h, --help  Print help"]
  | usage (some .verify) => lines
    ["Rewrite a class and report what the verifier finds",
      "",
      "Usage: classpatch verify <CLASS>",
      "",
      "Arguments:",
      "  <CLASS>  Class file to read",
      "",
      "Options:",
      "  -h, --help  Print help"]
  | usage (some .transform) => lines
    ["Run a class through the load-time pipeline",
      "",
      "Usage: classpatch transform [OPTIONS] <CLASS>",
      "",
      "Arguments:",
      "  <CLASS>  Class file to read",
      "",
      "Options:",
      "      --name <CLASS_NAME>          Name to load the class as (defaults to the name in the file)",
      "      --replace <CLASS_NAME=PATH>  Replace a class with a resource",
      "      --resources <DIR>            Directory replacement resources are relative to [default: .]",
      "      --export [<DIR>]             Also export rewritten classes under this directory",
      "      --verify                     Log verifier findings for rewritten classes",
      "  -o, --output <FILE>              Where to write the result (defaults to `<CLASS_NAME>.class`)",
      "  -h, --help                       Print help"]
  | usage (some .help) => lines
    ["Print this message or the help of the given subcommand(s)",
      "",
      "Usage: classpatch help [COMMAND]...",
      "",
      "Arguments:",
      "  [COMMAND]...  Print help for the subcommand(s)"]

end ClassWeave.CommandLine
