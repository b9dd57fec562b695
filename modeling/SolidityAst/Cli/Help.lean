import SolidityAst.Console.Palette
import SolidityAst.Text.Fields

/-!
The usage and help texts of the commands.
-/
namespace SolidityAst.Cli

open Console Text

def usage : String :=
  line "Usage: solast [OPTIONS] <filePath> <inputDir> <outputFolder>"
    ++ line "Run 'solast -h' for more information."

def optionLine (option meaning : String) : String := line ("  " ++ padRight 25 option ++ " " ++ meaning)

def generalHelp (p : Palette) : String :=
  line (p.cyan ++ "USAGE:" ++ p.reset)
    ++ line "  solast [OPTIONS] <filePath> <inputDir> <outputFolder>"
    ++ line "  solast batch -input <dir> -output <dir> [OPTIONS]"
    ++ line "  solast init [-force]"
    ++ line ""
    ++ line (p.cyan ++ "OPTIONS:" ++ p.reset)
    ++ optionLine "-config <file>" "settings.yaml to load"
    ++ optionLine "-solc <path>" "Use this solc binary"
    ++ optionLine "-solc-version <x.y.z>" "Use this solc version (solc-select / solcx installs)"
    ++ optionLine "-v" "Verbose output"
    ++ optionLine "-log" "Write a log file under logs/"
    ++ line ""
    ++ line (p.cyan ++ "EXAMPLES:" ++ p.reset)
    ++ line (p.gray ++ "  # Export one file, mirroring contracts/ under ast/" ++ p.reset)
    ++ line "  solast contracts/tokens/ERC20.sol contracts ast"
    ++ line "  # -> ast/tokens/ERC20_ast.json"
    ++ line ""
    ++ line (p.gray ++ "  # Export a whole tree with 8 workers" ++ p.reset)
    ++ line "  solast batch -input contracts -output ast -concurrency 8"

def batchHelp (p : Palette) : String :=
  line (p.cyan ++ "📦 BATCH MODE" ++ p.reset)
    ++ line (p.gray ++ "Export every .sol file under -input into a mirrored tree under -output."
      ++ p.reset)
    ++ line ""
    ++ line (p.cyan ++ "USAGE:" ++ p.reset)
    ++ line ("  solast batch -input <dir> -output <dir> [-concurrency n] [-config file] "
      ++ "[-solc path] [-v] [-log]")
    ++ line ""
    ++ line "Files that fail to parse are listed at the end; the exit status is 1 if any failed."

def initHelp : String :=
  line "Usage of solast init:"
    ++ line "  -dir string"
    ++ line "    \tDirectory to write settings.yaml into (default \"config\")"
    ++ line "  -force"
    ++ line "    \tOverwrite an existing config/settings.yaml"

end SolidityAst.Cli
