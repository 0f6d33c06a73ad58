/-!
What is known about this release, for logs.
-/

namespace YulTaint.Release

def version : String := "0.1.0"

def parts : List String :=
  ["analyzer", "builtins", "checker", "collector", "errors", "flow_graph", "inliner", "ir",
    "ir_reader", "memory_model", "reporter", "taint_analysis"]

end YulTaint.Release
