import Mathlib.Data.String.Basic
import Xidata.Library.OrderedTable
import Xidata.Library.Rollback
import Xidata.Launcher.ProducerNames

/-!
The network that the launcher sets up: the nodes with their producers, and the peers that each
of them connects to.  One of the nodes is called `bios`; it starts the chain, holds the producer
`eosio`, and takes no part in the shapes of the network.
-/

namespace Xidata.Launcher

structure Node where
  producers : List String
  peers : List String := []
  deriving DecidableEq

abbrev Network := OrderedTable String Node

/-! ### The names of the nodes -/

/-- How many nodes there are with producers, and how many in all, `bios` among them. -/
def nodeCounts (nodes pnodes producers : ℕ) : ℕ × ℕ :=
  let prodNodes := pnodes + 1
  let totalNodes := nodes + 1
  let prodNodes := if prodNodes > producers + 1 then producers else prodNodes
  (prodNodes, if prodNodes > totalNodes then prodNodes else totalNodes)

def nodeName (name : String) (nextNode : ℕ) : String :=
  name ++ ((if nextNode < 10 then "0" else "") ++ toString nextNode)

def assignName (name : String) (nextNode : ℕ) (isBios : Bool) : String × ℕ :=
  if isBios then ("bios", nextNode) else (nodeName name nextNode, nextNode + 1)

/-- The aliases when all nodes are on one host. -/
def defineNetwork (name : String) (totalNodes : ℕ) : List String :=
  ((List.range totalNodes).foldl (fun (s : List String × ℕ) i =>
    let (alias_, nextNode) := assignName name s.2 (i = 0)
    (s.1 ++ [alias_], nextNode)) ([], 0)).1

/-! ### The producers of the nodes -/

/-- What the loops of `bind_nodes` keep. -/
structure Binding where
  nodes : Network := .empty
  schedule : List String := []
  extra : ℕ
  i : ℕ := 0
  producerNumber : UInt32 := 0

/-- `count` more producers. -/
def nextProducers (producerNumber : UInt32) : ℕ → Except String (List String × UInt32)
  | 0 => pure ([], producerNumber)
  | count + 1 => do
    let prodname ← producerName producerNumber
    let (producers, producerNumber) ← nextProducers (producerNumber + 1) count
    pure (prodname :: producers, producerNumber)

/-- How many producers the next node gets, and how many of the extra ones are left then. -/
def Binding.count (nonBios perNode : ℕ) (b : Binding) : ℕ × ℕ :=
  if b.i < nonBios then if b.extra ≠ 0 then (perNode + 1, b.extra - 1) else (perNode, b.extra)
  else (0, b.extra)

def bindNode (nonBios perNode : ℕ) (b : Binding) (name : String) : Except String Binding :=
  if name = "bios" then
    pure { b with
      nodes := b.nodes.set name { producers := ["eosio"] }
      schedule := b.schedule ++ ["eosio"] }
  else do
    let (count, extra) := b.count nonBios perNode
    let (producers, producerNumber) ← nextProducers b.producerNumber count
    pure
      { nodes := b.nodes.set name { producers }
        schedule := b.schedule ++ producers
        extra, producerNumber
        i := b.i + 1 }

def bindNodes (prodNodes producers : ℕ) (aliases : List String) : Except String Binding :=
  if prodNodes < 2 then .error "Unable to allocate producers due to insufficient prod_nodes"
  else
    let nonBios := prodNodes - 1
    aliases.foldlM (bindNode nonBios (producers / nonBios)) { extra := producers % nonBios }

/-! ### Going round the nodes -/

def isBiosNdx (aliases : List String) (ndx : ℕ) : Bool := aliases[ndx]? = some "bios"

def startNdx (aliases : List String) : ℕ := if isBiosNdx aliases 0 then 1 else 0

/-- The next index that is not that of `bios`, of which `left` are to come, and whether it is
the first one again. -/
def nextNdxOf (aliases : List String) : ℕ → ℕ → ℕ × Bool
  | 0, _ => (startNdx aliases, true)
  | left + 1, ndx =>
    if isBiosNdx aliases (ndx + 1) then nextNdxOf aliases left (ndx + 1) else (ndx + 1, false)

def nextNdx (aliases : List String) (ndx : ℕ) : ℕ × Bool :=
  nextNdxOf aliases (aliases.length - 1 - ndx) ndx

/-- The loop of `skip_ndx`, with the attempts before they are counted down. -/
def skipNdxLoop (aliases : List String) (from_ : ℕ) : ℕ → ℕ → ℕ
  | 0, ndx => ndx
  | attempts + 1, ndx =>
    if attempts ≠ 0 ∧ (isBiosNdx aliases ndx ∨ ndx = from_) then
      skipNdxLoop aliases from_ attempts (nextNdx aliases ndx).1
    else ndx

def skipNdx (aliases : List String) (from_ offset : ℕ) : ℕ :=
  let ndx := (from_ + offset) % aliases.length
  if 2 < aliases.length then skipNdxLoop aliases from_ (aliases.length - 1) ndx else ndx

/-- The values of `i` in `for (i = start_ndx(); !loop; loop = next_ndx(i))`. -/
def visit (aliases : List String) : ℕ → ℕ → List ℕ
  | 0, _ => []
  | fuel + 1, i =>
    match nextNdx aliases i with
    | (_, true) => [i]
    | (next, false) => i :: visit aliases fuel next

def visited (aliases : List String) : List ℕ := visit aliases aliases.length (startNdx aliases)

/-! ### The shapes -/

def aliasAt (aliases : List String) (ndx : ℕ) : String := aliases.getD ndx ""

def pushPeer (nodes : Network) (edge : String × String) : Network :=
  nodes.modify edge.1 fun node => { node with peers := node.peers ++ [edge.2] }

/-- The peers that `make_ring` adds, in the order in which it does. -/
def ringPeers (aliases : List String) : List (String × String) :=
  let nonBios := aliases.length - 1
  if 2 < nonBios then
    (visited aliases).map fun i => (aliasAt aliases i, aliasAt aliases (nextNdx aliases i).1)
  else if nonBios = 2 then
    let n0 := startNdx aliases
    let n1 := (nextNdx aliases n0).1
    [(aliasAt aliases n0, aliasAt aliases n1), (aliasAt aliases n1, aliasAt aliases n0)]
  else []

def makeRing (prodNodes producers : ℕ) (aliases : List String) : Except String Network := do
  let b ← bindNodes prodNodes producers aliases
  pure ((ringPeers aliases).foldl pushPeer b.nodes)

/-- A connection of `make_mesh`, unless it is established: `peersToFrom` has the nodes that a
node connects to, each of them once. -/
def meshPeer (current peer : String) (s : (String → List String) × List (String × String)) :
    (String → List String) × List (String × String) :=
  if (if current ∈ s.1 peer then 1 else 0) < 2 then
    (Function.update s.1 current (insert peer (s.1 current)), s.2 ++ [(current, peer)])
  else s

def meshPeers (aliases : List String) : List (String × String) :=
  let nonBios := aliases.length - 1
  ((visited aliases).foldl (fun s i =>
    (List.range' 1 (nonBios - 1)).foldl (fun s j =>
      meshPeer (aliasAt aliases i) (aliasAt aliases (skipNdx aliases i j)) s) s)
    (fun _ => [], [])).2

def makeMesh (prodNodes producers : ℕ) (aliases : List String) : Except String Network := do
  let b ← bindNodes prodNodes producers aliases
  pure ((meshPeers aliases).foldl pushPeer b.nodes)

inductive Shape
  | ring
  | mesh
  deriving DecidableEq

/-- `initialize` and `generate`, with all nodes on one host. -/
def generate (shape : Shape) (name : String) (nodes pnodes producers : ℕ) :
    Except String Network :=
  let (prodNodes, totalNodes) := nodeCounts nodes pnodes producers
  let aliases := defineNetwork name totalNodes
  match shape with
  | .ring => makeRing prodNodes producers aliases
  | .mesh => makeMesh prodNodes producers aliases

end Xidata.Launcher
