import FlatScope.CommandLine.Folder
import FlatScope.CommandLine.Request
import FlatScope.Compile

/-!
# The command line program

`answer` does what the arguments ask for and says what is written and with which code the program
ends. Files are read through a function given to it, so that it runs on any kind of folder.
-/

namespace FlatScope.CommandLine

/-- What a run leaves: its exit code, its output, the report for the reader and the final error. -/
structure Outcome where
  exit : UInt8 := 0
  output : String := ""
  report : Option Report := none
  error : Option String := none

/-- The program that is compiled if no file is given. -/
def exampleSource : String :=
  String.intercalate "\n" [
    "",
    "class Counter \x7b",
    "    int total;",
    "",
    "    int add(int step, int times) \x7b",
    "        int i;",
    "        i = 0;",
    "        while (i < times) \x7b",
    "            int next;",
    "            next = total + step;",
    "            total = next;",
    "            i = i + 1;",
    "        \x7d",
    "        return total;",
    "    \x7d",
    "",
    "    void report(string label) \x7b",
    "        if (total > 10) \x7b",
    "            string msg;",
    "            msg = label;",
    "            print(msg);",
    "        \x7d else \x7b",
    "            print(\"small\");",
    "        \x7d",
    "    \x7d",
    "\x7d",
    ""]

def versionText : String := "stackc 0.1.0\n"

def helpText : String :=
  String.intercalate "\n" [
    "Resolves the local scope pools of a program and prints the annotated tree",
    "",
    "Usage: stackc [OPTIONS] [FILE]",
    "",
    "Arguments:",
    "  [FILE]  Source file to compile. A built-in example is used when omitted",
    "",
    "Options:",
    "      --no-color  Disable coloured output",
    "      --slots     Also assign local variable slots and print them",
    "  -h, --help      Print help",
    "  -V, --version   Print version",
    ""]

def failed (error : String) (report : Option Report) : Outcome :=
  { exit := 1, report, error := some ("Error: " ++ error) }

/-- The dump of the tree and, with slots, an empty line and a line for every function. -/
def listing (c : Compiled) (colour slots : Bool) : String :=
  c.dump colour ++ if slots then "\n" ++ String.join (c.signatures.map (·.line)) else ""

/-- Compiles the text of a file and writes what was found out about it. -/
def compileText (options : Options) (colour : Bool) (name text : String) : Outcome :=
  match compile 0 text options.slots with
  | .error (.notInLanguage e) => failed (name ++ ": 1 syntax error(s)") (some (e.report ⟨0, text⟩))
  | .error (.defective d) => failed (name ++ ": " ++ d.message) (some (d.report ⟨0, text⟩))
  | .ok c => { output := listing c (colour && !options.noColour) options.slots }

def unreadable (name : String) (failure : ReadFailure) : Outcome :=
  failed ("failed to read " ++ name ++ "\n\nCaused by:\n    " ++ failure.message) none

/-- `colour` says whether the output may be coloured if the options do not forbid it. -/
def answer {m : Type → Type} [Monad m] (read : String → m (Except ReadFailure String))
    (colour : Bool) (args : List String) : m Outcome := do
  match Request.ofArgs args with
  | .help => return { output := helpText }
  | .version => return { output := versionText }
  | .misuse => return { exit := 2 }
  | .run options =>
    match options.file with
    | none => return compileText options colour "example" exampleSource
    | some name =>
      match ← read name with
      | .error failure => return unreadable name failure
      | .ok text => return compileText options colour name text

end FlatScope.CommandLine
