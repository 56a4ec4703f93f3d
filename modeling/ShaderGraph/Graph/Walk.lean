import ShaderGraph.Graph.Basic
import ShaderGraph.Search
/-!
Walks against the direction of the links, from blocks to the blocks that feed them.

A block may be reached through several links and through a teleport; it is visited once.

* `Graph.reaches` tells whether one block is fed by another, directly or through others.
* `Graph.gather` lists blocks before the blocks that feed them, `Graph.gatherFeedersFirst` after.
-/

namespace ShaderGraph.Graph

/-- Whether `goal` is among the blocks to visit or feeds one of them, through any number of links.
Blocks that were seen are not visited again. -/
def reachesFrom (g : Graph) (goal : BlockId) (seen : List BlockId) : List BlockId → Bool
  | [] => false
  | n :: rest =>
    if n = goal then true
    else if here : n ∈ g.ids ∧ n ∉ seen then
      have := Search.unseen_cons_lt here.1 here.2
      reachesFrom g goal (n :: seen) (g.feeders n ++ rest)
    else reachesFrom g goal seen rest
termination_by todo => (Search.unseen g.ids seen, todo.length)

/-- Whether `goal` is `start` or feeds it, directly or through other blocks. -/
def reaches (g : Graph) (start goal : BlockId) : Bool := g.reachesFrom goal [] [start]

/-- The blocks that the roots reach, each before the blocks that feed it, depth first. -/
def gather (g : Graph) (roots : List BlockId) : List BlockId :=
  Search.preorder g.ids g.feeders [] roots

/-- The blocks that the roots reach, each after the blocks that feed it. -/
def gatherFeedersFirst (g : Graph) (roots : List BlockId) : List BlockId :=
  Search.postorder g.ids g.feeders [] [] (roots.map .enter)

end ShaderGraph.Graph
