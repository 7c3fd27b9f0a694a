import SwitchSynth.Files

/-!
# Packaging

How the package of the compiler is built: a generator of parsers turns the grammar of the ALU language into
source files, and then the package is built or installed. The description of the package lists the
packages that are found in the working directory.
-/

namespace SwitchSynth.Packaging

def packageName : String := "chipc"

def grammarFile : String := packageName ++ "/alu.g4"

def generatorCommand : String :=
  "java -jar " ++ packageName ++ "/lib/antlr-4.7.2-complete.jar " ++ grammarFile ++
    " -Dlanguage=Python3 -visitor -package " ++ packageName

/-- What the generator of parsers does: its exit code and the files it writes. -/
structure Generation where
  code : Int := 0
  files : List (String × String) := []

/-- What is done, step by step, until an error. -/
abbrev Build := ExceptT Error (StateM (List String))

def note (step : String) : Build Unit :=
  modify (· ++ [step])

def require (holds : Bool) (c : Check) : Build Unit :=
  if holds then pure () else throw (.check c)

def isGenerated (name : String) : Bool :=
  let cs := name.toList
  "alu".toList.isPrefixOf cs && ".py".toList.isSuffixOf (cs.drop 3)

def generatedFiles (files : Files) : List String :=
  let names := files.keys.filterMap fun path =>
    match pathParts path with
    | package :: name :: _ => if package = packageName && isGenerated name then some name else none
    | _ => none
  (names.eraseDups.map fun name => packageName ++ "/" ++ name).mergeSort

def generateParser (files : Files) (generation : Generation) : Build Unit := do
  let present := files.contains grammarFile || files.hasDirectory (pathParts grammarFile)
  require present (.noGrammar grammarFile)
  note generatorCommand
  if generation.code ≠ 0 then throw .commandFailed
  let files := generation.files.foldl (fun files f => files.insert (pathName f.1) f.2) files
  let generated := generatedFiles files
  require (!generated.isEmpty) .nothingGenerated
  note ("Antlr generated Python files: " ++ String.intercalate ", " generated)

/-- What can be asked for. -/
inductive Command where
  | generate
  | develop
  | build
  | describe
  deriving DecidableEq, Repr

def Command.ofName? : String → Option Command
  | "generate" => some .generate
  | "develop" => some .develop
  | "build_py" => some .build
  | "metadata" => some .describe
  | _ => none

def run (files : Files) (generation : Generation) : Command → Build Unit
  | .generate => generateParser files generation
  | .develop => do
    generateParser files generation
    note "develop.run"
  | .build => do
    generateParser files generation
    note "build_py.run"
  | .describe => pure ()

/-- Whether a package is left out, by its dotted name. -/
def isExcluded (package : String) : Bool :=
  let cs := package.toList
  "tests".toList.isPrefixOf cs || ".interp".toList.isSuffixOf cs || ".tokens".toList.isSuffixOf cs

/-- Whether a directory and all directories above it are packages. -/
def isPackage (files : Files) (parts : List String) : Bool :=
  (List.range parts.length).all fun n =>
    let own := parts.take (n + 1)
    !((own.getLastD "").contains '.') && files.contains ("/".intercalate (own ++ ["__init__.py"]))

/-- The packages of the working directory, in alphabetical order. -/
def packages (files : Files) : List String :=
  let directories := (files.keys.map fun path => (pathParts path).dropLast).eraseDups
  let found := directories.filter fun parts => !parts.isEmpty && isPackage files parts
  ((found.map ".".intercalate).filter (!isExcluded ·)).mergeSort

structure Description where
  name : String := packageName
  version : String := "0.1"
  summary : String := "A switch code generator based on end-to-end program synthesis."
  url : String := "https://github.com/anirudhSK/chipmunk"
  author : String := "Chipmunk Contributors"
  packages : List String
  includesData : Bool := true
  requirements : List String :=
    ["antlr4-python3-runtime>=4.7.2,<4.8", "Jinja2>=2.10", "ordered_set>=3.1.1", "overrides>=1.9",
     "psutil>=5.6.1", "z3-solver>=4.8.0.0"]
  commands : List String := ["build_py", "develop"]
  scripts : List String := ["iterative_solver=" ++ packageName ++ ".iterative_solver:run_main"]

def describe (files : Files) : Description where
  packages := packages files

end SwitchSynth.Packaging
