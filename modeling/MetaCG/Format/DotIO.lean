import Mathlib.Data.List.Dedup
import MetaCG.Manager.ActiveGraph

/-! Reading and writing DOT files (`DotIO.h`, `DotIO.cpp`).

A line is a list of characters. `Tokenizer::splitToTokenStrings` reads its variable `ls` before it is
written when a line starts with a character that is neither blank, digit nor letter nor a delimiter;
the value found there is an argument. The walks over hash sets take their order from a `HashOrder`. -/
namespace MetaCG.Dot
open Foundations
set_option autoImplicit false
set_option maxHeartbeats 250000
set_option maxRecDepth 120000

/-! ## Tokens -/

inductive TokenType where
  | IGNORE
  | ENTITY
  | CONNECTOR
deriving DecidableEq, Repr

structure ParsedToken where
  type : TokenType
  spelling : String
deriving DecidableEq, Repr

/-- `std::isspace` of the C locale. -/
def isspace (c : Char) : Bool := c = ' ' || (9 ≤ c.toNat && c.toNat ≤ 13)

inductive LastSeen where
  | DIGIT
  | CHAR
  | CNTRL
deriving DecidableEq, Repr

/-- `line.substr(startPos, curPos - startPos)` -/
def substr (line : List Char) (startPos count : ℕ) : List Char := (line.drop startPos).take count

def stripWhitespaceAndInsert (line : List Char) (curPos startPos : ℕ) (tokenStrs : List String) : List String :=
  let strippedStr := (substr line startPos (curPos - startPos)).filter fun c => !isspace c
  if strippedStr.isEmpty then tokenStrs else tokenStrs ++ [String.ofList strippedStr]

structure SplitState where
  startPos : ℕ
  curPos : ℕ
  ls : LastSeen
  tokenStrs : List String

def isDelimiter (c : Char) : Bool := isspace c || c = '=' || c = '\x7b' || c = '\x7d' || c = '[' || c = ']' || c = '\"'

def splitStep (line : List Char) (st : SplitState) (c : Char) : SplitState :=
  if isDelimiter c then
    { startPos := st.curPos
      curPos := st.curPos + 1
      ls := .CNTRL
      tokenStrs := stripWhitespaceAndInsert line st.curPos st.startPos st.tokenStrs }
  else if c.isDigit then { st with curPos := st.curPos + 1, ls := .DIGIT }
  else if c.isAlpha then
    if st.ls = .DIGIT ∨ st.ls = .CNTRL then
      { startPos := st.curPos
        curPos := st.curPos + 1
        ls := .CHAR
        tokenStrs := stripWhitespaceAndInsert line st.curPos st.startPos st.tokenStrs }
    else { st with curPos := st.curPos + 1, ls := .CHAR }
  else { st with curPos := st.curPos + 1 }

-- What follows the last delimiter of the line is not inserted.
def splitToTokenStrings (ls : LastSeen) (line : List Char) : List String :=
  (line.foldl (splitStep line) ⟨0, 0, ls, []⟩).tokenStrs

/-- The token of a string; `--` gives none. -/
def tokenOf (str : String) : Option ParsedToken :=
  if str.toList.head?.any Char.isAlphanum then some ⟨.ENTITY, str⟩
  else if str = "->" then some ⟨.CONNECTOR, str⟩
  else if str = "--" then none
  else some ⟨.IGNORE, str⟩

def tokenize (ls : LastSeen) (line : List Char) : List ParsedToken := (splitToTokenStrings ls line).filterMap tokenOf

/-! ## The parser -/

inductive ParseState where
  | INIT
  | NAME
  | GRAPH
deriving DecidableEq, Repr

/-- `seenTokens` has the top of the stack in front. -/
structure DotParser where
  state : ParseState
  callgraph : Callgraph
  seenTokens : List ParsedToken

/-- `callgraph->addEdge(getOrInsertNode(src), getOrInsertNode(target))`, the source inserted first. -/
def connect (callgraph : Callgraph) (src target : String) : Except Exn Callgraph := do
  let (callgraph, srcId) ← callgraph.getOrInsertNode src none false false
  let (callgraph, targetId) ← callgraph.getOrInsertNode target none false false
  return (Callgraph.addEdgeRef 0 callgraph ⟨0, srcId⟩ ⟨0, targetId⟩).2

/-- The loop of `reduceStack`, which ends with an empty stack. -/
def reduceLoop (callgraph : Callgraph) : List ParsedToken → Except Exn Callgraph
  | [] => .ok callgraph
  | [target] | [target, _] =>
    if target.type ≠ .ENTITY then .error (.assertion "targetElement.type == dot::ParsedToken::TokenType::ENTITY")
    else .error (.assertion "seenTokens.size() > 1")
  | target :: connector :: src :: rest =>
    if target.type ≠ .ENTITY then .error (.assertion "targetElement.type == dot::ParsedToken::TokenType::ENTITY")
    else if connector.type ≠ .CONNECTOR then
      .error (.assertion "seenTokens.top().type == dot::ParsedToken::TokenType::CONNECTOR")
    else if src.type ≠ .ENTITY then .error (.assertion "srcElement.type == dot::ParsedToken::TokenType::ENTITY")
    else do
      let callgraph ← connect callgraph src.spelling target.spelling
      reduceLoop callgraph rest

def reduceStack (p : DotParser) : Except Exn DotParser :=
  if p.seenTokens.length < 3 then .ok p
  else do
    let callgraph ← reduceLoop p.callgraph p.seenTokens
    return { p with callgraph := callgraph, seenTokens := [] }

def handleEntity (p : DotParser) (token : ParsedToken) : Except Exn DotParser :=
  match p.state with
  | .INIT => .ok (if token.spelling = "digraph" then { p with state := .NAME } else p)
  | .NAME => .ok (if token.spelling ≠ "" then { p with state := .GRAPH } else p)
  | .GRAPH =>
    let seenTokens := if p.seenTokens.isEmpty then [token] else p.seenTokens
    match seenTokens with
    | [] => .ok p
    | top :: rest =>
      if top.type = .CONNECTOR then do
        let p ← reduceStack { p with seenTokens := token :: top :: rest }
        return { p with seenTokens := token :: p.seenTokens }
      else do
        let (callgraph, _) ← p.callgraph.getOrInsertNode token.spelling none false false
        return { p with callgraph := callgraph, seenTokens := token :: rest }

def handleConnector (p : DotParser) (token : ParsedToken) : DotParser := { p with seenTokens := token :: p.seenTokens }

def handleToken (p : DotParser) (token : ParsedToken) : Except Exn DotParser :=
  match token.type with
  | .IGNORE => reduceStack p
  | .ENTITY => handleEntity p token
  | .CONNECTOR => .ok (handleConnector p token)

def parse (ls : LastSeen) (p : DotParser) (line : List Char) : Except Exn DotParser :=
  (tokenize ls line).foldlM handleToken p

/-! ## The reader -/

/-- The lines that `std::getline` delivers; `line` holds the characters since the last newline. -/
def getlines (line : List Char) : List Char → List (List Char)
  | [] => if line.isEmpty then [] else [line]
  | c :: rest => if c = '\n' then line :: getlines [] rest else getlines (line ++ [c]) rest

/-- The graph that the loop of `readAndManage` builds; `ls` gives the value that each line finds. -/
def readGraph (ls : List Char → LastSeen) (dotString : String) : Except Exn Callgraph := do
  let p ← (getlines [] dotString.toList).foldlM (fun p line => parse (ls line) p line) ⟨.INIT, Callgraph.empty, []⟩
  return p.callgraph

/-- `graph` is the address of the new graph. -/
def readAndManage (manager : MCGManager) (ls : List Char → LastSeen) (dotString cgName : String) (graph : ℕ)
    (setActive : Bool) : Except (Exn × MCGManager) MCGManager :=
  Outcome.guard manager (readGraph ls dotString) fun callgraph =>
    manager.addToManagedGraphs cgName (some (graph, callgraph)) setActive

/-! ## The generator -/

/-- The order in which the walks over hash sets visit the elements that were inserted. -/
structure HashOrder where
  neighbours : List ℕ → List ℕ
  names : List String → List String
  edges : List (ℕ × ℕ) → List (ℕ × ℕ)
  neighbours_perm : ∀ l, (neighbours l).Perm l.dedup
  names_perm : ∀ l, (names l).Perm l.dedup
  edges_perm : ∀ l, (edges l).Perm l.dedup

/-- `std::set::insert` with the keys as they compare; an element with an equivalent key stays. -/
def setInsert {α : Type} (key : α → String) (x : α) : List α → List α
  | [] => [x]
  | y :: t => if key x < key y then x :: y :: t else if key y < key x then y :: setInsert key x t else y :: t

def getFunctionName (cg : Callgraph) (id : ℕ) : Except Exn String := do
  match ← cg.getNode id with
  | some node => return node.functionName
  | none => throw .nullDereference

/-- The nodes of `getCallees` or `getCallers`, where `ids` are the entries of the list of a node. -/
def getNeighbours (cg : Callgraph) (ids : List ℕ) : Except Exn (List (Option CgNode)) :=
  ids.mapM fun elem => match cg.nodes[elem]? with
    | some ptr => .ok ptr
    | none => .error .outOfRange

def getId (ptr : Option CgNode) : Except Exn ℕ :=
  match ptr with
  | some node => .ok node.id
  | none => .error .nullDereference

/-- The insertions of one node: its name, the edges to its callees and those from its callers. -/
def fillNode (cg : Callgraph) (order : HashOrder) (st : List String × List (ℕ × ℕ)) (ptr : Option CgNode) :
    Except Exn (List String × List (ℕ × ℕ)) :=
  match ptr with
  | none => .error .nullDereference
  | some node => do
    let childNodes ← getNeighbours cg (order.neighbours (cg.callees node.id))
    let parentNodes ← getNeighbours cg (order.neighbours (cg.callers node.id))
    let children ← childNodes.mapM getId
    let parents ← parentNodes.mapM getId
    return (st.1 ++ [node.functionName],
      st.2 ++ children.map (fun c => (node.id, c)) ++ parents.map (fun p => (p, node.id)))

def fillNodesAndEdges (cg : Callgraph) (order : HashOrder) : Except Exn (List String × List (ℕ × ℕ)) :=
  cg.nodes.foldlM (fillNode cg order) ([], [])

/-- What `CGDotEdgeComparator` compares. -/
def edgeKey (cg : Callgraph) (edge : ℕ × ℕ) : String :=
  ((cg.slot edge.1).map CgNode.functionName).getD "" ++ ((cg.slot edge.2).map CgNode.functionName).getD ""

/-- The node names and the edges in the order in which they are written. -/
def dotContents (cg : Callgraph) (outputSorted : Bool) (order : HashOrder) :
    Except Exn (List String × List (ℕ × ℕ)) := do
  let (names, edges) ← fillNodesAndEdges cg order
  if outputSorted then
    return (names.foldl (fun s n => setInsert id n s) [], edges.foldl (fun s e => setInsert (edgeKey cg) e s) [])
  else return (order.names names, order.edges edges)

def nodeLine (name : String) : String := "  \"" ++ name ++ "\""

def edgeLine (cg : Callgraph) (edge : ℕ × ℕ) : Except Exn String := do
  let source ← getFunctionName cg edge.1
  let target ← getFunctionName cg edge.2
  return "  " ++ (source ++ " -> " ++ target)

def generate (cg : Callgraph) (outputSorted : Bool) (order : HashOrder) : Except Exn String := do
  let (nodes, edges) ← dotContents cg outputSorted order
  let edgeLines ← edges.mapM (edgeLine cg)
  return "digraph callgraph \x7b\n" ++ String.join (nodes.map fun n => nodeLine n ++ "\n") ++
    (if edges.isEmpty then "" else "\n") ++ String.join (edgeLines.map fun l => l ++ "\n") ++ "\x7d\n"

end MetaCG.Dot
