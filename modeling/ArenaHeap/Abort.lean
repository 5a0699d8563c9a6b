import ArenaHeap.HeapError

namespace ArenaHeap

/-!
# Ending the process

An error that the embedding process cannot survive ends it: the error's text goes to standard
error, on a line of its own, and the process reports failure.
-/

namespace Abort

/-- What is written to standard error. -/
def text (e : HeapError) : String := "\n" ++ e.message ++ "\n"

/-- The exit code of a process that ends so. -/
def exitCode : Nat := 1

end Abort

end ArenaHeap
