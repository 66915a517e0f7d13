/-!
# Command line arguments

`Request.ofArgs` reads the arguments in order and stops at the first that settles the matter: a wish
for the help text or the version, or a mistake.
-/

namespace FlatScope.CommandLine

structure Options where
  /-- the source file; without one a built-in example is compiled -/
  file : Option String := none
  noColour : Bool := false
  slots : Bool := false
deriving DecidableEq, Repr

inductive Request where
  | run (options : Options)
  | help
  | version
  /-- an unknown option, an option or the file given twice, or an empty file name -/
  | misuse
deriving DecidableEq, Repr

namespace Request

/-- Adds the file; the arguments behind it are read by `next`. -/
def withFile (options : Options) (name : String) (next : Options → Request) : Request :=
  if name.isEmpty || options.file.isSome then .misuse else next { options with file := some name }

/-- Behind `--` every argument is a file. -/
def filesOnly (options : Options) : List String → Request
  | [] => .run options
  | name :: rest => withFile options name fun options => filesOnly options rest

/-- Of options with one dash only the first letter counts, as both end the reading. -/
def ofShort : List Char → Request
  | 'h' :: _ => .help
  | 'V' :: _ => .version
  | _ => .misuse

def read (options : Options) : List String → Request
  | [] => .run options
  | arg :: rest =>
    match arg, arg.toList with
    | "--", _ => filesOnly options rest
    | "--help", _ => .help
    | "--version", _ => .version
    | "--no-color", _ =>
      if options.noColour then .misuse else read { options with noColour := true } rest
    | "--slots", _ =>
      if options.slots then .misuse else read { options with slots := true } rest
    | _, '-' :: '-' :: _ => .misuse
    | _, '-' :: c :: cs => ofShort (c :: cs)
    | _, _ => withFile options arg fun options => read options rest

def ofArgs (args : List String) : Request := read {} args

end Request

end FlatScope.CommandLine
