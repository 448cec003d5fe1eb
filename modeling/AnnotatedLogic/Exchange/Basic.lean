import AnnotatedLogic.Document.Reading
import AnnotatedLogic.Interval
import AnnotatedLogic.Pairing
import AnnotatedLogic.Trace
/-!
# Names, components and intervals in documents

A name is a string, an edge an array of its two ends, and a component an object that says which of
the two it is: `{"node": …}` or `{"edge": …}`. An interval is an array of its bounds, which are
tested when they are read; what else an interval carries is not written.
-/

namespace AnnotatedLogic

/-- An array of values written one by one. -/
def Document.list {α : Type} (write : α → Document) (xs : List α) : Document :=
  .array (xs.map write)

/-- A count. -/
def Document.natural (n : Nat) : Document := .integer n

/-- A value or nothing. -/
def Document.optional {α : Type} (write : α → Document) : Option α → Document
  | some a => write a
  | none => .null

namespace Label

def toDocument (l : Label) : Document := .text l.name

def reader : Reader Label := fun d => Label.mk <$> Reader.text d

end Label

namespace Node

def toDocument (n : Node) : Document := .text n.name

def reader : Reader Node := fun d => Node.mk <$> Reader.text d

end Node

namespace Edge

def toDocument (e : Edge) : Document := .array [e.source.toDocument, e.target.toDocument]

def reader : Reader Edge := fun d =>
  (fun p => Edge.mk p.1 p.2) <$> Reader.pair Node.reader Node.reader d

end Edge

namespace Component

def toDocument : Component → Document
  | node n => .object [("node", n.toDocument)]
  | edge e => .object [("edge", e.toDocument)]

def reader : Reader Component :=
  Reader.variant .text
    [("node", fun d => node <$> Node.reader d), ("edge", fun d => edge <$> Edge.reader d)]

end Component

namespace ComponentKind

def toDocument (k : ComponentKind) : Document := .text k.word

def reader : Reader ComponentKind :=
  Reader.choice Document.isNull [("node", node), ("edge", edge)]

end ComponentKind

namespace Interval

def toDocument (i : Interval) : Document := .array [.real i.lower, .real i.upper]

/-- The interval with two bounds, or the defect that they are none of a truth value. -/
def ofBounds (bounds : Degree × Degree) : Except Defect Interval :=
  match closed? bounds.1 bounds.2 with
  | some i => .ok i
  | none => .error (.interval bounds.1 bounds.2)

def reader : Reader Interval := fun d =>
  (Reader.pair Reader.number Reader.number d).check ofBounds

end Interval

namespace Labelling

/-- A label with the components that it is given to. -/
def entryToDocument {α : Type} (write : α → Document) (entry : Label × List α) : Document :=
  .array [entry.1.toDocument, .list write entry.2]

def toDocument (l : Labelling) : Document :=
  .object
    [("node", .list Label.toDocument l.node),
     ("edge", .list Label.toDocument l.edge),
     ("specific_node", .list (entryToDocument Node.toDocument) l.specificNode),
     ("specific_edge", .list (entryToDocument Edge.toDocument) l.specificEdge)]

def reader : Reader Labelling :=
  Reader.record 4 fun r =>
    Labelling.mk
      <$> r.defaulting 0 "node" [] (Reader.list Label.reader)
      <*> r.defaulting 1 "edge" [] (Reader.list Label.reader)
      <*> r.defaulting 2 "specific_node" []
        (Reader.list (Reader.pair Label.reader (Reader.list Node.reader)))
      <*> r.defaulting 3 "specific_edge" []
        (Reader.list (Reader.pair Label.reader (Reader.list Edge.reader)))

end Labelling

namespace Pairing

def toDocument (p : Pairing) : Document :=
  .list (fun pair => .array [pair.1.toDocument, pair.2.toDocument]) p.pairs

/-- The pairs as they are listed, also repeated ones and labels paired with themselves. -/
def reader : Reader Pairing := fun d =>
  Pairing.mk <$> Reader.list (Reader.pair Label.reader Label.reader) d

end Pairing

namespace Support

def toDocument : Support → Document
  | nodes members => .object [("nodes", .list Node.toDocument members)]
  | edges members => .object [("edges", .list Edge.toDocument members)]

def reader : Reader Support :=
  Reader.variant .text
    [("nodes", fun d => nodes <$> Reader.list Node.reader d),
     ("edges", fun d => edges <$> Reader.list Edge.reader d)]

end Support

end AnnotatedLogic
