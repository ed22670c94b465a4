import LiveDoc.Text.Span

/-!
# Document trees

A document is read into a `Tree`. Only three kinds of nodes matter to templates: the root, fenced
code blocks and literal text. Everything else keeps its name and its place.

* A `Fence` remembers the info text and the body it was read with, so that it can be told whether
  it `isModified`.
* `preorder` lists the nodes of a tree by recursion. `nodes` and `paths` walk the tree with a
  stack of nodes still to be visited, and `get?` looks a path up.
-/

namespace LiveDoc

open Text (Span)

/-- A fenced code block. Its body is the text below it in the tree. -/
structure Fence where
  /-- The first word of the info text. -/
  language : Option String
  /-- What stands behind the opening marker when the fence is written. -/
  info : String
  /-- The info text as it was read. -/
  parsedInfo : String
  /-- The body as it was read. -/
  parsedBody : String
  deriving DecidableEq, Repr

/-- A fence as it is read. -/
def Fence.ofParsed (language : Option String) (info body : String) : Fence :=
  ⟨language, info, info, body⟩

/-- Whether a fence with the given body differs from the one that was read. -/
def Fence.isModified (fence : Fence) (body : String) : Bool :=
  fence.info ≠ fence.parsedInfo || body ≠ fence.parsedBody

/-- What a node of the tree is. -/
inductive Tree.Kind where
  /-- The root. -/
  | document
  /-- A fenced code block. -/
  | fence (fence : Fence)
  /-- Literal text: plain text, inline code, and the bodies of code blocks. -/
  | text (content : String)
  /-- Any other node, by name. -/
  | other (name : String)
  deriving DecidableEq, Repr

/-- A document tree. The span is the node's place in the source it was read from. -/
inductive Tree where
  | mk (kind : Tree.Kind) (span : Option Span) (children : List Tree)
  deriving Repr

namespace Tree

/-- What a node is. -/
def kind : Tree → Kind
  | mk k _ _ => k

/-- The place of a node in the source. -/
def span : Tree → Option Span
  | mk _ s _ => s

/-- The nodes right below a node. -/
def children : Tree → List Tree
  | mk _ _ cs => cs

/-- A text without anything below it. -/
def leaf (content : String) (span : Option Span) : Tree := mk (.text content) span []

/-! ## Equality of trees is decidable -/

mutual

/-- Decides equality of trees. -/
def decEq : (s t : Tree) → Decidable (s = t)
  | mk k a cs, mk k' a' cs' =>
    if h : k = k' ∧ a = a' then
      match decEqList cs cs' with
      | isTrue hc => isTrue (by rw [h.1, h.2, hc])
      | isFalse hc => isFalse (by intro e; injection e; contradiction)
    else isFalse (by intro e; injection e with h₁ h₂; exact h ⟨h₁, h₂⟩)

/-- Decides equality of lists of trees. -/
def decEqList : (ss ts : List Tree) → Decidable (ss = ts)
  | [], [] => isTrue rfl
  | [], _ :: _ => isFalse (by simp)
  | _ :: _, [] => isFalse (by simp)
  | s :: ss, t :: ts =>
    match decEq s t with
    | isFalse h => isFalse (by intro e; injection e; contradiction)
    | isTrue h =>
      match decEqList ss ts with
      | isTrue hs => isTrue (by rw [h, hs])
      | isFalse hs => isFalse (by intro e; injection e; contradiction)

end

instance : DecidableEq Tree := decEq

/-! ## Fences and texts -/

/-- The fence of a node that is one. -/
def fence? (t : Tree) : Option Fence :=
  match t.kind with
  | .fence f => some f
  | _ => none

/-- The content of a node that is a text. -/
def text? (t : Tree) : Option String :=
  match t.kind with
  | .text s => some s
  | _ => none

/-- Whether a node is another one of the given name. -/
def isNamed (t : Tree) (name : String) : Bool :=
  match t.kind with
  | .other n => n = name
  | _ => false

/-- The body of a fence: its first text, or nothing. -/
def body? (t : Tree) : Option String :=
  t.fence?.map fun _ => (t.children.findSome? text?).getD ""

/-! ## Traversal -/

mutual

/-- The number of nodes. -/
def size : Tree → Nat
  | mk _ _ cs => 1 + sizeList cs

/-- The number of nodes of several trees. -/
def sizeList : List Tree → Nat
  | [] => 0
  | t :: ts => t.size + sizeList ts

end

mutual

/-- All nodes in document order: a node, then what is below it, from left to right. -/
def preorder : Tree → List Tree
  | mk k s cs => mk k s cs :: preorderList cs

/-- The nodes of several trees in document order. -/
def preorderList : List Tree → List Tree
  | [] => []
  | t :: ts => t.preorder ++ preorderList ts

end

/-- Visits up to `fuel` nodes; the stack holds the trees still to be visited. -/
def walk : (fuel : Nat) → (stack : List Tree) → List Tree
  | 0, _ => []
  | _ + 1, [] => []
  | fuel + 1, t :: stack => t :: walk fuel (t.children ++ stack)

/-- All nodes in document order, found with a stack. -/
def nodes (t : Tree) : List Tree := walk t.size [t]

/-- The children of a node at `path`, with their own paths. -/
def pathedFrom (path : List Nat) : (index : Nat) → List Tree → List (List Nat × Tree)
  | _, [] => []
  | index, t :: ts => (path ++ [index], t) :: pathedFrom path (index + 1) ts

/-- The paths of up to `fuel` nodes; the stack holds the trees still to be visited. -/
def walkPaths : (fuel : Nat) → (stack : List (List Nat × Tree)) → List (List Nat)
  | 0, _ => []
  | _ + 1, [] => []
  | fuel + 1, (path, t) :: stack => path :: walkPaths fuel (pathedFrom path 0 t.children ++ stack)

/-- The paths of all nodes in document order. A path lists the indices of children from the root
down. -/
def paths (t : Tree) : List (List Nat) := walkPaths t.size [([], t)]

/-- The node at a path. -/
def get? : List Nat → Tree → Option Tree
  | [], t => some t
  | i :: path, t => t.children[i]?.bind (get? path)

/-- Changes the node at a path, if there is one. -/
def update (f : Tree → Tree) : List Nat → Tree → Tree
  | [], t => f t
  | i :: path, mk k s cs => mk k s (cs.modify i (update f path))

/-- The tree with another kind at its root. -/
def withKind (k : Kind) : Tree → Tree
  | mk _ s cs => mk k s cs

/-- All fences in document order. -/
def fences (t : Tree) : List Tree := t.nodes.filter fun n => n.fence?.isSome

/-- The contents of all texts in document order. -/
def texts (t : Tree) : List String := t.nodes.filterMap text?

end Tree

/-- A document: its source and the tree read from it. -/
structure Document where
  source : String
  root : Tree
  deriving DecidableEq, Repr

end LiveDoc
