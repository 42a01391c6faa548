/-
The shortest-path search (`benchmark/bfs/spf_sequential.cc`).

An access to a vertex that does not exist is a failure.  The loops take fuel, of which
`none` says that there was not enough.
-/
import Scal.Graph
import Scal.SingleList

namespace Bfs

def Graph.set (g : Graph) (i : ℕ) (v : Vertex) : Graph :=
  { g with vertices := g.vertices.set i v }

/-- The loop over the neighbors of `cur`; it is left as soon as `endIndex` is discovered.
`withParent` says whether the parents are stored. -/
def visit (withParent : Bool) (endIndex cur : ℕ) :
    List ℕ → Graph → SingleList ℕ → Except Failure (Graph × SingleList ℕ × Bool)
  | [], g, q => .ok (g, q, false)
  | i :: neighbors, g, q =>
    match g.vertices[i]?, g.vertices[cur]? with
    | some neighbor, some curVertex =>
      if neighbor.distance = Vertex.noDistance then
        let g := g.set i { neighbor with
          distance := (curVertex.distance + 1) % wordSize
          parent := if withParent then cur else neighbor.parent }
        if i = endIndex then .ok (g, q, true)
        else visit withParent endIndex cur neighbors g (q.enqueue i)
      else visit withParent endIndex cur neighbors g q
    | _, _ => .error .outOfBounds

/-- The loop of `analyze` and `performance`. -/
def search (withParent : Bool) (endIndex : ℕ) :
    ℕ → Graph → SingleList ℕ → Option (Except Failure Graph)
  | 0, _, _ => none
  | fuel + 1, g, q =>
    match q.dequeue with
    | (none, _) => some (.ok g)
    | (some vertexIndex, q) =>
      match g.vertices[vertexIndex]? with
      | none => some (.error .outOfBounds)
      | some curVertex =>
        match visit withParent endIndex vertexIndex curVertex.neighbors g q with
        | .error e => some (.error e)
        | .ok (g, _, true) => some (.ok g)
        | .ok (g, q, false) => search withParent endIndex fuel g q

def analyze (endIndex : ℕ) : ℕ → Graph → SingleList ℕ → Option (Except Failure Graph) :=
  search true endIndex

def performance (endIndex : ℕ) : ℕ → Graph → SingleList ℕ → Option (Except Failure Graph) :=
  search false endIndex

/-- `main` before the search: the root's vertex is set up. -/
def Graph.setRoot (g : Graph) (rootIndex : ℕ) : Except Failure Graph :=
  match g.vertices[rootIndex]? with
  | none => .error .outOfBounds
  | some curVertex =>
    .ok (g.set rootIndex { curVertex with distance := 0, parent := Vertex.noParent })

/-- `main` up to the end of the search, which is `analyze` if the backtrace is wanted; `q` is
the list just constructed. -/
def shortestPath (backtrace : Bool) (rootIndex endIndex fuel : ℕ) (g : Graph)
    (q : SingleList ℕ) : Option (Except Failure Graph) :=
  match g.setRoot rootIndex with
  | .error e => some (.error e)
  | .ok g =>
    if backtrace then analyze endIndex fuel g (q.enqueue rootIndex)
    else performance endIndex fuel g (q.enqueue rootIndex)

/-- The loop that prints the parents.  `cur_vertex` is a reference to the end vertex, so each
assignment to it overwrites that vertex. -/
def printParents (rootIndex endIndex : ℕ) : ℕ → Graph → Option (Except Failure (List ℕ))
  | 0, _ => none
  | fuel + 1, g =>
    match g.vertices[endIndex]? with
    | none => some (.error .outOfBounds)
    | some curVertex =>
      if curVertex.parent = rootIndex then some (.ok [curVertex.parent])
      else
        match g.vertices[curVertex.parent]? with
        | none => some (.error .outOfBounds)
        | some parent =>
          (printParents rootIndex endIndex fuel (g.set endIndex parent)).map
            (Except.map (curVertex.parent :: ·))

/-- The indices that are printed with `-backtrace`. -/
def printBacktrace (rootIndex endIndex fuel : ℕ) (g : Graph) :
    Option (Except Failure (List ℕ)) :=
  (printParents rootIndex endIndex fuel g).map (Except.map (endIndex :: ·))

end Bfs
