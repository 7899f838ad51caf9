import Abcout.Assembly

/-!
# Abcout.CommandLine — the commands `assemble` and `disassemble`

A command reads files of a tree, and ends with an exit code, what it prints, and the tree that it leaves.
-/

namespace Abcout.CommandLine

/-- How a command ends. -/
structure Ending where
  code : Nat
  output : String := ""
  /-- What is printed to the error stream, one line end behind each text. -/
  errors : List String := []
  warnings : List Warning := []
  files : FileTree

/-- How the program is to be used. -/
def usage : List String :=
  ["Usage: abco [-v] <command> [args]",
    "",
    "Commands:",
    "  assemble <input.abcout> [-o rom.bin]   Assemble source to a 32 KiB ROM image",
    "  disassemble <rom.bin>                  List a ROM image as source text",
    "",
    "Options:",
    "  -v, --verbose                          Log each assembler pass"]

/-- Where the image goes when nothing else is said. -/
def defaultOutput : String := "rom.bin"

/-- The output path that arguments behind the input ask for. -/
def outputPath : List String → String
  | "-o" :: path :: _ => path
  | _ => defaultOutput

/-- Assembles a file and writes its image. -/
def assembleFile (files : FileTree) (input output : String) : Ending :=
  let run := Assembly.runFile files input
  match run.outcome with
  | .error failure =>
    { code := 1, errors := ["error: " ++ failure.message], warnings := run.warnings, files }
  | .ok product =>
    match files.write output product.image with
    | .error e =>
      { code := 1, errors := ["error: cannot write '" ++ output ++ "': " ++ e.message]
        warnings := run.warnings, files }
    | .ok written =>
      { code := 0
        errors := ["assembled " ++ product.program.length.repr ++ " instructions -> " ++ output]
        warnings := run.warnings
        files := written }

/-- The command that assembles a source file. -/
def assemble (files : FileTree) : List String → Ending
  | [] =>
    { code := 1
      errors := ["error: assemble requires an input file", "Usage: abco assemble <input.abcout> [-o rom.bin]"]
      files }
  | input :: rest =>
    if Path.extension? input == some sourceExtension then assembleFile files input (outputPath rest)
    else { code := 1, errors := ["error: improper file format"], files }

/-- The command that lists an image. -/
def disassemble (files : FileTree) : List String → Ending
  | [] =>
    { code := 1
      errors := ["error: disassemble requires an input file", "Usage: abco disassemble <rom.bin>"]
      files }
  | input :: _ =>
    match files.read input with
    | .error e => { code := 1, errors := ["error: cannot read '" ++ input ++ "': " ++ e.message], files }
    | .ok bytes =>
      match Program.disassemble bytes with
      | .error e => { code := 1, errors := ["error: invalid image: " ++ e.message], files }
      | .ok listing => { code := 0, output := listing, files }

/-- Whether an argument only asks for more logging. -/
def isVerbosity (arg : String) : Bool := arg == "-v" || arg == "--verbose"

/-- Runs the command that arguments ask for. -/
def run (files : FileTree) (args : List String) : Ending :=
  match args.filter (!isVerbosity ·) with
  | [] => { code := 1, errors := usage, files }
  | "assemble" :: rest => assemble files rest
  | "disassemble" :: rest => disassemble files rest
  | command :: _ =>
    if command == "help" || command == "--help" || command == "-h" then { code := 0, errors := usage, files }
    else { code := 1, errors := ["error: unknown command '" ++ command ++ "'", ""] ++ usage, files }

end Abcout.CommandLine
