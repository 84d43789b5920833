/-! The texts in which the command line explains itself. -/

namespace Lineage.Command

/-- How the command is called. -/
def usageText : String :=
  "\n".intercalate [
    "usage: inheritzoom [-h] [-o OUTPUT] [--export EXPORT]",
    "                   [--merge-policy \x7bfirst,last,error\x7d] [--keep-dangling]",
    "                   [--doc-scope \x7bdeclaration,file\x7d] [--focus FOCUS]",
    "                   [--depth DEPTH] [--open] [-v]",
    "                   project_dir",
    ""]

/-- What the arguments mean. -/
def explanationText : String :=
  "\n".intercalate [
    "",
    "Java class/interface inheritance explorer — interactive HTML graph.",
    "",
    "positional arguments:",
    "  project_dir           Path to the Java project to visualize",
    "",
    "options:",
    "  -h, --help            show this help message and exit",
    "  -o OUTPUT, --output OUTPUT",
    "                        Output HTML file path (default: inheritzoom.html in",
    "                        the project)",
    "  --export EXPORT       Also write the graph data to this .json or .yaml file",
    "  --merge-policy \x7bfirst,last,error\x7d",
    "                        How to treat types declared in more than one file",
    "                        (default: first)",
    "  --keep-dangling       Keep edges to types that are not declared in the",
    "                        project",
    "  --doc-scope \x7bdeclaration,file\x7d",
    "                        Where to look up method doc comments (default:",
    "                        declaration)",
    "  --focus FOCUS         Print the types around this one, breadth-first",
    "  --depth DEPTH         Maximum distance for --focus (default: 2)",
    "  --open                Open the generated HTML in a browser",
    "  -v, --verbose         Enable verbose (debug) output",
    ""]

/-- How the command is called and what its arguments mean. -/
def helpText : String :=
  usageText ++ explanationText

end Lineage.Command
