/-!
# Colors: the identity of a tree

A tree's color lists the tokens that were appended to it, one each time some node of the
tree became a new root.  A node attaches only beneath a node of its own color or of one
that its own can join, so the order on colors is what keeps two trees from attaching
beneath each other.

* `Color.canJoin` — the order: the colorless color joins every other, a shorter color
  joins a longer one, and of two colors of one length the greater joins the smaller;
* `Color.extend` — the color of a new root;
* `Color.label` — the color as the event lines show it.
-/

namespace BrokerForest

/-- A color, as its tokens in the order in which they were appended. -/
structure Color where
  tokens : List String
deriving DecidableEq, Inhabited

namespace Color

/-- The color of a node that has not been part of any tree. -/
def colorless : Color := ⟨[]⟩

/-- Whether a color has no token. -/
def isColorless (c : Color) : Bool := c.tokens.isEmpty

/-- The number of tokens. -/
def length (c : Color) : Nat := c.tokens.length

/-- The color after one more token. -/
def extend (c : Color) (token : String) : Color := ⟨c.tokens ++ [token]⟩

/-- Whether a tree of color `a` may attach beneath a tree of color `b`.  Tokens compare
by code points, which is how their UTF-8 bytes compare. -/
def canJoin (a b : Color) : Bool :=
  if a.isColorless && !b.isColorless then true
  else if a.length = b.length then decide (b.tokens < a.tokens)
  else decide (a.length < b.length)

/-- The tokens with strokes between them. -/
def label (c : Color) : String :=
  if c.isColorless then "<colorless>" else "/".intercalate c.tokens

end Color

end BrokerForest
