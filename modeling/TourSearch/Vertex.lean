import TourSearch.Sets.SortedSet
import TourSearch.Text.Order
import TourSearch.Text.Quoted

/-!
Labels of vertices and edges. A label is a whole number or a text; a parallel edge may also carry
no label at all, which is the blank. Numbers come before texts, numbers by size and texts by their
characters. An edge is written as a list of labels, its two ends first; the undirected edge is the
set of these two.
-/

namespace TourSearch

open Precedence

/-- A label of a vertex, or of one of several parallel edges. -/
inductive Vertex where
  | int (n : Int)
  | text (s : String)
  | blank
  deriving DecidableEq, Repr

namespace Vertex

/-- A label as it is shown inside a list: texts stand in quotes. -/
def shown : Vertex → String
  | .int n => toString n
  | .text s => Text.quoted s
  | .blank => "None"

def bare : Vertex → String
  | .text s => s
  | v => v.shown

def beforeTest : Vertex → Vertex → Bool
  | .int m, .int n => decide (m < n)
  | .int _, _ => true
  | .text _, .int _ => false
  | .text s, .text t => before s t
  | .text _, .blank => true
  | .blank, _ => false

instance : Precedence Vertex where
  before := beforeTest
  irrefl a := by cases a <;> simp [beforeTest, Precedence.irrefl]
  trans := by
    intro a b c h₁ h₂
    cases a <;> cases b <;> cases c <;> simp_all [beforeTest]
    · omega
    · exact Precedence.trans h₁ h₂
  connected := by
    intro a b h₁ h₂
    cases a <;> cases b <;> simp_all [beforeTest]
    · omega
    · exact Precedence.connected h₁ h₂

end Vertex

abbrev VertexSet := SortedSet Vertex

/-- An edge as it is written: its ends, and possibly a label for the edge itself. Lists of other
lengths are no edges of a graph, but they can be asked about. -/
abbrev Edge := List Vertex

namespace Edge

/-- Labels between brackets; a single one is followed by a comma. -/
def tuple : List Vertex → String
  | [] => "()"
  | [v] => "(" ++ v.shown ++ ",)"
  | vs => "(" ++ ", ".intercalate (vs.map Vertex.shown) ++ ")"

def shown (e : Edge) : String := tuple (e.take 2)

def key (e : Edge) : VertexSet := SortedSet.ofList (e.take 2)

end Edge

end TourSearch
