import Mathlib.Tactic
import YulTaint.Proofs.Analysis.Stages
import YulTaint.Proofs.Execution.Simulation

/-!
Soundness of the analysis. If the monitor notes a storage access through a
tainted address, in whatever execution of whichever scope, then the analysis
reports this address, for the calls that led to the access.
-/

namespace YulTaint

open Relation (ReflTransGen)

open YulTaint.Resolver (Inlined Completes EmbedsReady Resolving Acyclic Finds)

namespace Execution

open YulTaint.Flow

open YulTaint.Taint (CanTaint Reaches)

section Inlined

variable {g : Graph} {k : Int} {r : Resolver} {entry last : String} {path : List SiteRef}
  {chain : List String} {ids : List NodeId}

end Inlined

def ones : World :=
  { word := fun _ => 1, byte := fun _ _ => 1 }

def second : World :=
  { word := fun i => if i = 1 then 1 else 0, byte := fun _ _ => 0 }

end Execution

end YulTaint
