import SourceBlocks.Tree.Node

/-! # Tree patterns

A pattern asks for a named node of some kind with children that match in order, gaps allowed, and may
capture the nodes it meets. A query is a list of patterns. Patterns are also written as text, the
form under which queries are cached. -/

namespace SourceBlocks

/-- A test on a named node. -/
inductive KindTest where
  | anyNode
  | oneOf (kinds : List String)
  deriving DecidableEq, Repr

/-- A node passes when it is named and of an admitted kind; error nodes pass no open test. -/
def KindTest.admits (t : KindTest) (n : Node) : Bool :=
  n.named && match t with
    | anyNode => n.kind != "ERROR"
    | oneOf kinds => kinds.contains n.kind

/-- A pattern for one node. The field restricts where the node hangs in its parent. -/
inductive Pattern where
  | mk (field : Option String) (test : KindTest) (children : List Pattern) (capture : Option String)
  deriving Repr

/-- The nodes that one match captured, by capture name, outer ones first. -/
abbrev Record := List (String × Node)

/-- Each member of a list with the members after it. -/
def splits {α : Type} : List α → List (α × List α)
  | [] => []
  | a :: as => (a, as) :: splits as

namespace Pattern

def field : Pattern → Option String
  | mk f _ _ _ => f

def capture : Pattern → Option String
  | mk _ _ _ c => c

def hangs (p : Pattern) (n : Node) : Bool :=
  match p.field with
  | none => true
  | some f => n.info.field == some f

mutual

/-- All matches of a pattern at a node: one for each way to place the children. -/
def matchesAt : Pattern → Node → List Record
  | mk _ test children capture, n =>
    if test.admits n then
      let own : Record := capture.toList.map (·, n)
      (matchesAmong children n.children).map (own ++ ·)
    else []

/-- All ways to match patterns with members of a list in increasing order. -/
def matchesAmong : List Pattern → List Node → List Record
  | [], _ => [[]]
  | p :: ps, ns => (splits ns).flatMap fun (n, rest) =>
      if p.hangs n then
        (matchesAt p n).flatMap fun r => (matchesAmong ps rest).map (r ++ ·)
      else []

end

mutual

/-- Capture names in the order in which the text mentions them. -/
def captures : Pattern → List String
  | mk _ _ children capture => capturesAll children ++ capture.toList

def capturesAll : List Pattern → List String
  | [] => []
  | p :: ps => captures p ++ capturesAll ps

end

def testText : KindTest → String
  | .anyNode => "(_)"
  | .oneOf [k] => "(" ++ k ++ ")"
  | .oneOf kinds => "[" ++ " ".intercalate (kinds.map fun k => "(" ++ k ++ ")") ++ "]"

def headText : KindTest → String
  | .anyNode => "_"
  | .oneOf kinds => " ".intercalate kinds

def fieldText : Option String → String
  | none => ""
  | some f => f ++ ": "

def captureText : Option String → String
  | none => ""
  | some c => " @" ++ c

mutual

def inlineText : Pattern → String
  | mk field test children capture =>
    let body := match children with
      | [] => testText test
      | _ => "(" ++ headText test ++ inlineTexts children ++ ")"
    fieldText field ++ body ++ captureText capture

def inlineTexts : List Pattern → String
  | [] => ""
  | p :: ps => " " ++ inlineText p ++ inlineTexts ps

end

/-- The widest line on which a pattern is kept whole. -/
def lineWidth : Nat := 100

def spaces (n : Nat) : String := String.ofList (List.replicate n ' ')

mutual

/-- The lines of a pattern followed by `tail`; one that does not fit the width has its children on
lines of their own, two columns further in. -/
def spreadText (indent : Nat) (tail : String) : Pattern → List String
  | mk field test children capture =>
    let whole := inlineText (mk field test children capture) ++ tail
    if indent + whole.length ≤ lineWidth then [spaces indent ++ whole]
    else
      (spaces indent ++ fieldText field ++ "(" ++ headText test) ::
        spreadTexts (indent + 2) (")" ++ captureText capture ++ tail) children

def spreadTexts (indent : Nat) (tail : String) : List Pattern → List String
  | [] => []
  | [p] => spreadText indent tail p
  | p :: q :: ps => spreadText indent "" p ++ spreadTexts indent tail (q :: ps)

end

end Pattern

/-- How a query is laid out as text. -/
inductive QueryLayout where
  /-- All patterns on one line. -/
  | line
  /-- Each pattern on a line of its own, indented by twelve columns. -/
  | block
  deriving DecidableEq, Repr

structure Query where
  layout : QueryLayout
  patterns : List Pattern
  deriving Repr

namespace Query

def text (q : Query) : String :=
  match q.layout with
  | .line => " ".intercalate (q.patterns.map Pattern.inlineText)
  | .block =>
    let indent := 12
    "\n" ++ "\n".intercalate (q.patterns.flatMap (Pattern.spreadText indent "")) ++ "\n" ++
      Pattern.spaces indent

/-- The distinct capture names, in order of mention. -/
def captures (q : Query) : List String :=
  (Pattern.capturesAll q.patterns).eraseDups

end Query

/-- All matches of patterns in a subtree: by node in preorder, then by pattern. -/
def matchesIn (patterns : List Pattern) (root : Node) : List Record :=
  root.preorder.flatMap fun n => patterns.flatMap fun p => p.matchesAt n

end SourceBlocks
