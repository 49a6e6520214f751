import BrokerForest.Network.Mesh
import BrokerForest.Network.Rehearsal
/-!
# Lives: one node and all that happens to it

A life is what a single node goes through from its start on.  It acts one piece at a time
and in any order, messages of any content arrive, and the world outside answers each act as
it likes.

* `Episode` — one piece of a life: what the node did or experienced, and what came of it;
* `Life` — the lives of a node whose episodes all meet a condition;
* `Life.split` — a life up to one of its episodes is a life;
* `Node.story`, `Life.story` — lives that can be computed.
-/

namespace BrokerForest

/-- One piece of a node's life. -/
structure Episode where
  /-- What the node did or experienced. -/
  act : Act
  /-- The node before. -/
  before : Node
  /-- The node after. -/
  after : Node
  /-- What was seen of the node, in order. -/
  seen : List Effect

/-- The episode in which a session acts. -/
def Session.episode {σ : Type} [Transport σ] (s : Session σ) (a : Act) : Episode :=
  ⟨a, s.node, (a.run s).node, (a.run s).trace⟩

/-- What a node goes through from its start on, if every episode meets a condition, and
what it has become.  The world outside and the words to come are new in each episode. -/
inductive Life (cond : Episode → Prop) : List Episode → Node → Prop where
  | birth (settings : Settings) (self : Peer) (ws : Words) :
      Life cond [] (Node.start settings self ws).1
  | act {past : List Episode} {n : Node} {a : Act} {σ : Type} [Transport σ]
      (life : Life cond past n) (outside : σ) (ws : Words) (possible : a.Possible n)
      (meets : cond (Session.episode ⟨n, outside, ws, []⟩ a)) :
      Life cond (past ++ [Session.episode ⟨n, outside, ws, []⟩ a])
        (a.run ⟨n, outside, ws, []⟩).node

/-- When an episode follows, one that was there is this one, or was there before. -/
theorem Episode.snoc_split {history past later : List Episode} {last e : Episode}
    (h : history ++ [last] = past ++ e :: later) :
    (past = history ∧ e = last ∧ later = []) ∨
      ∃ later', later = later' ++ [last] ∧ history = past ++ e :: later' := by
  rcases List.eq_nil_or_concat later with rfl | ⟨later, last', rfl⟩
  · obtain ⟨rfl, hlast⟩ := List.append_inj' h rfl
    exact Or.inl ⟨rfl, (List.singleton_inj.1 hlast).symm, rfl⟩
  · rw [List.concat_eq_append, ← List.cons_append, ← List.append_assoc] at h
    obtain ⟨rfl, hlast⟩ := List.append_inj' h rfl
    exact Or.inr ⟨later, by rw [List.concat_eq_append, List.singleton_inj.1 hlast], rfl⟩

namespace Life

variable {cond : Episode → Prop} {past later : List Episode} {e : Episode} {n : Node}

/-- Every episode of a life is an act of the node that the life before it has led to. -/
theorem split {history : List Episode} (life : Life cond history n)
    (h : history = past ++ e :: later) :
    Life cond past e.before ∧ cond e ∧
      ∃ (σ : Type) (_ : Transport σ) (outside : σ) (ws : Words), e.act.Possible e.before ∧
        e = Session.episode ⟨e.before, outside, ws, []⟩ e.act := by
  induction life generalizing later with
  | birth => simp at h
  | @act history n a σ _ life outside ws possible meets ih =>
      rcases Episode.snoc_split h with ⟨rfl, rfl, -⟩ | ⟨later, rfl, hpast⟩
      · exact ⟨life, meets, σ, _, outside, ws, possible, rfl⟩
      · exact ih hpast

end Life

/-! ## Lives that can be computed -/

/-- What comes of an act in the world of a directory. -/
def Node.live (directory : Directory) (ws : Words) (n : Node) (a : Act) : Episode :=
  Session.episode ⟨n, directory, ws, []⟩ a

/-- What a node goes through that acts in the world of a directory. -/
def Node.story (directory : Directory) (ws : Words) (n : Node) : List Act → List Episode
  | [] => []
  | a :: acts => n.live directory ws a :: (n.live directory ws a).after.story directory ws acts

/-- What a node has become after it has acted in the world of a directory. -/
def Node.grown (directory : Directory) (ws : Words) (n : Node) : List Act → Node
  | [] => n
  | a :: acts => (n.live directory ws a).after.grown directory ws acts

/-- A life goes on with what a node does in the world of a directory, if it can do so and
every episode meets the condition. -/
theorem Life.story {cond : Episode → Prop} {past : List Episode} {n : Node}
    (life : Life cond past n) (directory : Directory) (ws : Words) {acts : List Act}
    (h : ∀ e ∈ n.story directory ws acts, e.act.Possible e.before ∧ cond e) :
    Life cond (past ++ n.story directory ws acts) (n.grown directory ws acts) := by
  induction acts generalizing past n with
  | nil => simpa [Node.story, Node.grown] using life
  | cons a acts ih =>
      have hfirst := h (n.live directory ws a) (by simp [Node.story])
      have hrest := ih (.act life directory ws hfirst.1 hfirst.2) fun e he =>
        h e (by simp [Node.story, Node.live, Session.episode] at he ⊢; exact Or.inr he)
      simpa [Node.story, Node.grown, Node.live, Session.episode] using hrest

/-- What a node goes through in all of its acts is what it goes through in the first of them,
and then in the others. -/
theorem Node.story_append (directory : Directory) (ws : Words) (n : Node) (first rest : List Act) :
    n.story directory ws (first ++ rest) = n.story directory ws first ++
        (n.grown directory ws first).story directory ws rest ∧
      n.grown directory ws (first ++ rest) =
        (n.grown directory ws first).grown directory ws rest := by
  induction first generalizing n with
  | nil => exact ⟨rfl, rfl⟩
  | cons a first ih =>
      obtain ⟨hstory, hgrown⟩ := ih (n.live directory ws a).after
      exact ⟨congrArg (n.live directory ws a :: ·) hstory, hgrown⟩

/-- The story of a life, told up to one of the acts, of this act, and after it. -/
theorem Life.story_of_append {cond : Episode → Prop} {past : List Episode} {n : Node}
    (life : Life cond past n) (directory : Directory) (ws : Words) {first rest : List Act} {a : Act}
    (h : ∀ e ∈ n.story directory ws (first ++ a :: rest), e.act.Possible e.before ∧ cond e) :
    Life cond
      (past ++ n.story directory ws first ++ (n.grown directory ws first).live directory ws a ::
        ((n.grown directory ws first).live directory ws a).after.story directory ws rest)
      (((n.grown directory ws first).live directory ws a).after.grown directory ws rest) := by
  have hlife := life.story directory ws h
  rw [(n.story_append directory ws first _).1, (n.story_append directory ws first _).2,
    ← List.append_assoc] at hlife
  exact hlife

/-- A broker hears of a second and asks it, and is answered that it is accepted. -/
def Rehearsal.courtship : List Act :=
  [.event (.message (broker 3 "z") (.candidates [broker 2 "y"])), .start, .requestJoin "y",
    .begin (.join "y"), .advance, .advance,
    .event (.message (broker 2 "y")
      (.response ⟨⟨.colorless, ⟨1.0⟩⟩, .accepted ⟨[broker 3 "z"], []⟩⟩))]

/-- The start of a broker's life. -/
def Rehearsal.newborn : Node := (Node.start .standard (broker 1 "x") still).1

end BrokerForest
