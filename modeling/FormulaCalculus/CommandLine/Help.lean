/-!
# Help

What the program tells about its options.
-/

namespace FormulaCalculus.CommandLine

def programName : String :=
  "symbolic_calculus"

def usage : String :=
  "usage: symbolic_calculus [-h] [-i INPUT] [--var VAR] [--full]\n"
    ++ "                         [--eval [NAME=VALUE ...]] [--taylor N]\n"
    ++ "                         [--point POINT] [--latex] [--dot FILE] [-v]\n"
    ++ "                         [formula]\n"

def help : String :=
  usage ++ "\n"
    ++ "Differentiate and simplify formulas\n"
    ++ "\n"
    ++ "positional arguments:\n"
    ++ "  formula               Formula text, e.g. 'x^3 + sin(x)'\n"
    ++ "\n"
    ++ "options:\n"
    ++ "  -h, --help            show this help message and exit\n"
    ++ "  -i INPUT, --input INPUT\n"
    ++ "                        Read the formula from a file\n"
    ++ "  --var VAR             Variable to differentiate by (default: first)\n"
    ++ "  --full                Simplify to a fixed point\n"
    ++ "  --eval [NAME=VALUE ...]\n"
    ++ "                        Evaluate the formula and its derivative\n"
    ++ "  --taylor N            Print the Taylor polynomial of order N\n"
    ++ "  --point POINT         Taylor expansion point\n"
    ++ "  --latex               Print LaTeX as well\n"
    ++ "  --dot FILE            Write the tree as Graphviz DOT\n"
    ++ "  -v, --verbose         More logging (repeat for tree dumps)\n"

end FormulaCalculus.CommandLine
