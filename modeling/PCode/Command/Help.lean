import PCode.Command.Arguments

namespace PCode.Command

def version : String := "0.3.0"

abbrev Item := String × String

/-- A help page. -/
structure Page where
  about : String
  usage : String
  parts : List (String × List Item)

namespace Page

def renderItem (width : Nat) (item : Item) : String :=
  "    " ++ String.ofList (item.1.toList.rightpad width ' ') ++ "    " ++ item.2

/-- A titled list of items, their meanings in one column. -/
def renderPart (part : String × List Item) : String :=
  let width := (part.2.map fun item => item.1.length).foldl max 0
  part.1 ++ ":\n" ++ "\n".intercalate (part.2.map (renderItem width))

def render (title : String) (page : Page) : String :=
  title ++ "\n" ++ page.about ++ "\n\nUSAGE:\n    " ++ page.usage ++ "\n\n" ++
    "\n\n".intercalate (page.parts.map renderPart) ++ "\n"

end Page

def commonFlags : List Item :=
  [("-h, --help", "Prints help information"), ("-V, --version", "Prints version information")]

namespace Name

def about : Name → String
  | .run => "Compiles and runs a program, printing the final stack"
  | .check => "Parses and type-checks a program"
  | .dump => "Prints the bytecode of a program"
  | .parse => "Prints the parsed program"

def page (name : Name) : Page :=
  match name with
  | .run =>
    { about := name.about
      usage := "xi run [OPTIONS] <path> [args]..."
      parts := [
        ("FLAGS", commonFlags),
        ("OPTIONS", [("    --call <call>", "Runs a single function instead of `main`")]),
        ("ARGS", [("<path>", ""),
          ("<args>...", "Integer arguments passed to the `--call`ed function")])] }
  | name =>
    { about := name.about
      usage := "xi " ++ name.text ++ " <path>"
      parts := [("FLAGS", commonFlags), ("ARGS", [("<path>", "Path to a Xi source file")])] }

end Name

def helpAbout : String := "Prints this message or the help of the given subcommand(s)"

namespace Topic

def title : Topic → String
  | .program => "Xi " ++ version
  | .command name => "xi-" ++ name.text ++ " " ++ version
  | .help => "xi-help "

def page : Topic → Page
  | .program =>
    { about := "A small statically typed language compiled to a P-code style stack machine."
      usage := "xi [FLAGS] <SUBCOMMAND>"
      parts := [
        ("FLAGS", commonFlags ++
          [("-v, --verbose", "Log compiler passes (-v) and interpreter steps (-vv)")]),
        ("SUBCOMMANDS", [("check", Name.check.about), ("dump", Name.dump.about),
          ("help", helpAbout), ("parse", Name.parse.about), ("run", Name.run.about)])] }
  | .command name => name.page
  | .help =>
    { about := helpAbout
      usage := "xi help [subcommand]..."
      parts := [("ARGS", [("<subcommand>...", "The subcommand whose help message to display")])] }

end Topic

end PCode.Command
