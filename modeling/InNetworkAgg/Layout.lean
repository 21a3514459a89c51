import InNetworkAgg.Simulator

/-!
# The applications along the tree

The application at an address, its sockets and its first poll, read off the tree
the deployment was built from (`laid`).
-/

namespace InNetworkAgg

open Outcome PartialRun RoseTree World

namespace Startup

/-- The scenario is that of the tree `T`. -/
structure Laid (sc : Scenario) (T : Rounds.Topology Address) : Prop where
  consumer : sc.env.consumer = T.root
  nodes : ∀ p c, c ∈ T.kids p → p ∈ sc.nodes ∧ c ∈ sc.nodes
  servers : ∀ a p, p ∈ sc.servers a ↔ a ∈ T.kids p
  clients : ∀ a, sc.clients a = T.kids a
  parent : ∀ a, T.kids a ≠ [] → a = T.root ∨ ∃ p, a ∈ T.kids p
  root : sc.asks T.root = (sc.times .con).average
  poll : ∀ p c, c ∈ T.kids p → sc.firstPoll c = some (sc.asks c)
  poll_ge : ∀ a, ∀ t ∈ sc.firstPoll a, sc.asks a ≤ t


/-! ## Deployments -/

section
variable {addrOf : String → Address} {t : RoseTree String} (h : IsAggTree addrOf t)
  {rounds size port : Nat} {apps : List App} (happs : Wires addrOf rounds size port t apps)
  (env : Env) (times : Role → Times) (net : Network)

include h happs

end

end Startup

end InNetworkAgg
