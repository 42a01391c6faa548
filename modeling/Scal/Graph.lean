/-
Reading a graph from a file (`benchmark/bfs/graph.cc`).

The file is the list of its characters; `fgets`, the constructor of `std::string` from
a buffer, and `atol` are those of the C and C++ libraries.  `pieces` are what the calls
of `fgets` in the loop of `from_graph_file` store into `line_buffer`, and `BUFSIZ` is
the argument `bufsiz`.
-/
import Scal.AtomicValue
import Mathlib.Data.List.Basic
import Mathlib.Data.Int.Notation

namespace Bfs

/-! ### The C library -/

/-- The characters up to the first newline, and at most `n` of them, and the rest. -/
def readLine : ℕ → List Char → List Char × List Char
  | 0, input => ([], input)
  | _ + 1, [] => ([], [])
  | n + 1, c :: input =>
    if c = '\n' then ([c], input)
    else ((c :: (readLine n input).1), (readLine n input).2)

/-- `fgets(buffer, size, file)`: what it stores, and the rest of the file. -/
def fgets (size : ℕ) : List Char → Option (List Char × List Char)
  | [] => none
  | c :: input => some (readLine (size - 1) (c :: input))

/-- What successive calls of `fgets` store. -/
def fgetsAll (size : ℕ) : ℕ → List Char → List (List Char)
  | 0, _ => []
  | fuel + 1, input =>
    match fgets size input with
    | none => []
    | some (buffer, rest) => buffer :: fgetsAll size fuel rest

/-- Each call reads a character at least. -/
def pieces (size : ℕ) (input : List Char) : List (List Char) := fgetsAll size input.length input

def isSpace (c : Char) : Bool :=
  c = ' ' || c = '\t' || c = '\n' || c = '\x0b' || c = '\x0c' || c = '\r'

def longMax : ℕ := 0x7fffffffffffffff

/-- The value of the digits at the front. -/
def digits (value : ℕ) : List Char → ℕ
  | [] => value
  | c :: s => if c.isDigit then digits (10 * value + (c.toNat - '0'.toNat)) s else value

/-- `atol`, as a `uint64_t`. -/
def atol (s : List Char) : ℕ :=
  match s.dropWhile isSpace with
  | '-' :: s => (wordSize - min (digits 0 s) (longMax + 1)) % wordSize
  | '+' :: s => min (digits 0 s) longMax
  | s => min (digits 0 s) longMax

/-! ### The program -/

inductive Failure where
  /-- `fn`: invalid graph file. -/
  | invalidGraphFile (fn : String)
  /-- An array access that is out of bounds. -/
  | outOfBounds
  deriving DecidableEq

structure Vertex where
  neighbors : List ℕ
  distance : ℕ
  parent : ℕ
  deriving DecidableEq

def Vertex.noDistance : ℕ := wordSize - 1

def Vertex.noParent : ℕ := wordSize - 1

/-- A vertex that was just allocated. -/
def Vertex.new : Vertex := ⟨[], noDistance, noParent⟩

structure Graph where
  numVertices : ℕ
  vertices : List Vertex
  deriving DecidableEq

def isComment (source : List Char) : Bool := source.head? = some '%'

/-- The substrings between delimiters, where `current` is the one that is being read. -/
def substrings (delimiter : List Char) (keepEmpty : Bool) : List Char → List Char → List (List Char)
  | current, [] => if current = [] then [] else [current]
  | current, c :: source =>
    if c ∈ delimiter then
      if keepEmpty || current ≠ [] then current :: substrings delimiter keepEmpty [] source
      else substrings delimiter keepEmpty [] source
    else substrings delimiter keepEmpty (current ++ [c]) source

/-- The number in a substring, zero based. -/
def toIndex (s : List Char) : Except Failure ℕ :=
  if atol s = 0 then .error (.invalidGraphFile "tokenize") else .ok (atol s - 1)

def tokenize (source delimiter : List Char) (keepEmpty : Bool) : Except Failure (List ℕ) :=
  (substrings delimiter keepEmpty [] source).mapM toIndex

/-- The local variables of `from_graph_file`; there is a graph once `firstline` is false. -/
structure Reader where
  graph : Option Graph
  id : ℕ

/-- `std::string line(line_buffer)`, with the newlines erased. -/
def lineOf (buffer : List Char) : List Char :=
  (buffer.takeWhile fun c => c ≠ '\x00').filter fun c => c ≠ '\n'

/-- The body of the loop, once the line is known. -/
def Reader.read (r : Reader) (line : List Char) : Except Failure Reader :=
  if isComment line then .ok r
  else
    match r.graph with
    | none =>
      match tokenize line [' '] false with
      | .error e => .error e
      | .ok [] => .error (.invalidGraphFile "from_graph_file")
      | .ok (t :: _) =>
        .ok ⟨some ⟨(t + 1) % wordSize, List.replicate ((t + 1) % wordSize) .new⟩, r.id⟩
    | some g =>
      match g.vertices[r.id]? with
      | none => .error .outOfBounds
      | some v =>
        match tokenize line [' '] false with
        | .error e => .error e
        | .ok ns =>
          .ok ⟨some { g with vertices := g.vertices.set r.id { v with neighbors := ns } }, r.id + 1⟩

def Reader.step (r : Reader) (buffer : List Char) : Except Failure Reader := r.read (lineOf buffer)

/-- The graph, if there was a first line. -/
def fromGraphFile (bufsiz : ℕ) (file : List Char) : Except Failure (Option Graph) :=
  ((pieces bufsiz file).foldlM Reader.step ⟨none, 0⟩).map Reader.graph

def Graph.size (g : Graph) : ℕ := g.numVertices

end Bfs
