import BrokerForest.Network.Rehearsal
import BrokerForest.Proofs.OperationSpecs
import BrokerForest.Proofs.RankOrder
/-!
# Every accepted edge is ordered

Whoever is accepted as a child is accepted by a node that stands above it, by color or by
depth, and still beneath its own father; and whoever attaches beneath such a node ends
beneath it.  Three ways of admitting a requester lead to this: a colorless root takes the
requester's color, a node of the requester's color moves between its father and the
requester, and a node whose color the requester's can join stays where it is.

Main statements:

* `Conduct.acceptsAt` — the rule that an acceptance goes out only with a given rank;
* `Session.examine_accepts` — a request is accepted, if at all, with the rank that an
  admission left the node with;
* `Position.Bears` — the order that the edge to a requester is to have;
* `Position.bears_admission` — every admission gives it;
* `Position.attach_ordered` — the other side of the edge;
* **`Session.edge_ordered_of_accepted`** — both sides together, for every request.
-/

namespace BrokerForest

/-- The rule that an acceptance goes out only with a rank of some sort. -/
def Conduct.acceptsAt (p : Rank → Prop) : Conduct where
  opens _ := True
  sends _ message delivered :=
    ∀ rank acceptance, message = .response ⟨rank, .accepted acceptance⟩ → delivered = true → p rank

/-- Whether a node of rank `after`, which was of rank `before` and remembers the depth
`floor` of its father, may bear the edge to a requester. -/
def Rank.Bears (after before : Rank) (floor : Option Depth) (requester : Rank) : Prop :=
  (after.color = requester.color ∧ after.depth < requester.depth ∧
      ∀ f, floor = some f → f < after.depth) ∨
    (after.color ≠ requester.color ∧ requester.color.canJoin after.color = true ∧
      after = before)

namespace Position

/-- Every admission leaves a node that may bear the edge. -/
theorem bears_admission {p : Position} {requester : Rank} {ws ws' : Words} {a : Admission}
    (hfather : p.fatherDepth.isSome = p.father.isSome) (room : requester.depth.Roomy ws)
    (h : p.admission requester ws = (some a, ws')) :
    (a.rank p.rank).Bears p.rank p.fatherDepth requester := by
  rcases admission_cases h with ⟨hroot, _, rfl⟩ | ⟨hcolor, hkin⟩ | ⟨hjoin, rfl⟩
  · have hnone : p.fatherDepth = none := by
      rw [isRoot, Option.isNone_iff_eq_none] at hroot
      simpa [hroot] using hfather
    exact Or.inl ⟨rfl, Depth.rise_lt room, by simp [hnone]⟩
  · obtain ⟨hsame, hdepth, hfloor⟩ := admissionOfKin_between room hkin
    exact Or.inl ⟨hsame.trans hcolor, hdepth, hfloor⟩
  · refine Or.inr ⟨fun hsame => ?_, hjoin, rfl⟩
    have hsame : p.rank.color = requester.color := hsame
    rw [hsame] at hjoin
    simp at hjoin

/-- A requester that attaches beneath a rank that bears it takes its color, and ends deeper;
it stays where it is if the color is its own. -/
theorem attach_ordered {p : Position} {rank before : Rank} {floor : Option Depth}
    {ws : Words} (self father : Peer) (acceptance : Acceptance)
    (room : rank.depth.Roomy ws) (h : rank.Bears before floor p.rank) :
    (p.attach self father rank acceptance ws).1.rank.color = rank.color ∧
      rank.depth < (p.attach self father rank acceptance ws).1.rank.depth ∧
      (rank.color = p.rank.color →
        (p.attach self father rank acceptance ws).1.rank.depth = p.rank.depth) := by
  have hrank : (p.attach self father rank acceptance ws).1.rank =
      ({ p with
        father := some father
        neighbors := p.neighbors.add father
        global := p.global.remove father }.settle rank ws).2.1.rank := rfl
  rw [hrank]
  refine ⟨color_settle _ _ _, depth_settle _ room, fun hcolor => ?_⟩
  rcases h with ⟨_, hdepth, _⟩ | ⟨hne, _⟩
  · exact congrArg Rank.depth (rank_settle_of_depth_lt (p := { p with
      father := some father
      neighbors := p.neighbors.add father
      global := p.global.remove father }) hcolor.symm hdepth)
  · exact absurd hcolor hne

end Position

namespace Session

variable {σ : Type} [Transport σ]

/-- A request is accepted with no other rank than an admission leaves the node with. -/
theorem examine_accepts (s : Session σ) (requester : Peer) (request : Request) :
    s.Keeps
      (.acceptsAt fun rank => (s.examine requester request).node.position.rank = rank ∧
        ∃ a ws', s.node.position.admission request.rank s.words = (some a, ws') ∧
          a.rank s.node.position.rank = rank)
      (s.examine requester request) := by
  have hrefuse : ∀ (p : Rank → Prop) (t : Session σ) refusal,
      t.Keeps (.acceptsAt p) (t.refuse requester refusal) := by
    intro p t refusal
    refine keeps_refuse t fun _ rank acceptance hm => ?_
    simp at hm
  rw [examine_eq]
  generalize hjudge : s.node.judge requester request s.words = judged
  obtain ⟨verdict, ws⟩ := judged
  rcases verdict with _ | ⟨refusal, _ | _ | root⟩ | a
  · exact keeps_withWords s ws
  · exact (keeps_withWords s ws).trans (hrefuse _ _ refusal)
  · exact ((keeps_withWords s ws).trans (keeps_withPosition _ _)).trans (hrefuse _ _ refusal)
  · refine ((keeps_withWords s ws).trans (hrefuse _ _ refusal)).trans
      (keeps_sendTransient _ (fun _ _ => trivial) fun _ _ rank acceptance hm => ?_)
    cases hm
  · obtain ⟨_, hadmission, _⟩ := Node.admission_of_judge hjudge
    refine (keeps_withWords s ws).trans ?_
    change Keeps _ (s.withWords ws) ((s.withWords ws).accept requester a)
    simp only [pronounce]
    cases hsent : ((s.withWords ws).send requester ((s.withWords ws).node.offer a) .control).1 with
    | false =>
        rw [accept_of_not_sent hsent]
        refine keeps_send _ fun _ _ _ hdelivered => ?_
        rw [hsent] at hdelivered
        cases hdelivered
    | true =>
        rw [accept_of_sent hsent, node_welcome]
        refine (keeps_send _ ?_).trans (keeps_welcome _ (fun _ _ => trivial) ?_ ?_)
        · intro rank acceptance hm _
          cases hm
          exact ⟨rfl, a, ws, hadmission, rfl⟩
        · intro _ _ _ rank acceptance hm
          cases hm
        · intro _ _ _ _ rank acceptance hm
          cases hm

/-- **Every accepted edge is ordered.**  Whatever the node's state, the request and the
words, an acceptance tells the rank that the node has from then on, which is above the
requester's and still beneath the node's own father; and a requester that attaches on it
with the rank of its request ends beneath that rank. -/
theorem edge_ordered_of_accepted {τ : Type} [Transport τ] {s : Session σ} {t : Session τ}
    {requester : Peer} {request : Request} {rank : Rank} {acceptance : Acceptance}
    {traffic : TrafficClass} (father : Peer)
    (hfather : s.node.position.fatherDepth.isSome = s.node.position.father.isSome)
    (hroom : request.rank.depth.Roomy s.words)
    (haccepted : .sent requester (.response ⟨rank, .accepted acceptance⟩) traffic true ∈
      s.since (s.examine requester request))
    (hrequester : t.node.position.rank = request.rank) (hroom' : rank.depth.Roomy t.words) :
    rank = (s.examine requester request).node.position.rank ∧
      ((rank.color = request.rank.color ∧ rank.depth < request.rank.depth ∧
          ∀ floor, s.node.position.fatherDepth = some floor → floor < rank.depth) ∨
        (rank.color ≠ request.rank.color ∧
          request.rank.color.canJoin rank.color = true ∧
          (s.examine requester request).node.position.rank = s.node.position.rank)) ∧
      (t.attach father rank acceptance).node.position.rank.color = rank.color ∧
      rank.depth < (t.attach father rank acceptance).node.position.rank.depth ∧
      (rank.color = request.rank.color →
        (t.attach father rank acceptance).node.position.rank.depth = request.rank.depth) := by
  obtain ⟨hafter, a, ws', hadmission, hrank⟩ :=
    (examine_accepts s requester request).allows haccepted rank acceptance rfl rfl
  have hbears := Position.bears_admission hfather hroom hadmission
  rw [hrank] at hbears
  have hattach := Position.attach_ordered t.node.self father acceptance hroom'
    (hrequester.symm ▸ hbears)
  rw [hrequester] at hattach
  refine ⟨hafter.symm, ?_, ?_⟩
  · rw [hafter]
    exact hbears
  · rw [node_attach]
    exact hattach

end Session

deriving instance DecidableEq for Outcome

deriving instance DecidableEq for Effect

namespace Rehearsal

/-- A colorless broker at work at some depth, with a father or without. -/
def colorlessAt (self : Peer) (depth : Float) (father : Option Peer) (floor : Option Depth) :
    Session Directory where
  node := { (Node.start .standard self still).1 with
    position := { (Node.start .standard self still).1.position with
      rank := ⟨.colorless, ⟨depth⟩⟩
      father := father
      fatherDepth := floor } }
  outside := trio
  words := still
  trace := []

/-- A broker at depth 5 beneath a father at depth 1 moves to depth 2.5 for a requester at
depth 3, which stays where it is. -/
theorem edge_ordered_of_move :
    let s := colorlessAt (broker 1 "x") 5.0 (some (broker 3 "z")) (some ⟨1.0⟩)
    let t := colorlessAt (broker 2 "y") 3.0 none none
    let rank : Rank := ⟨.colorless, ⟨2.5⟩⟩
    rank = (s.examine (broker 2 "y") ⟨⟨.colorless, ⟨3.0⟩⟩, .none⟩).node.position.rank ∧
      (t.attach (broker 1 "x") rank ⟨[broker 3 "z"], []⟩).node.position.rank.depth = ⟨3.0⟩ := by
  intro s t rank
  have haccepted : .sent (broker 2 "y")
      (.response ⟨rank, .accepted ⟨[broker 3 "z"], []⟩⟩) .control true ∈
        s.since (s.examine (broker 2 "y") ⟨⟨.colorless, ⟨3.0⟩⟩, .none⟩) := by
    decide +kernel
  have hedge := Session.edge_ordered_of_accepted (t := t) (broker 1 "x")
    (by decide) (by decide +kernel) haccepted rfl (by decide +kernel)
  exact ⟨hedge.1, hedge.2.2.2.2 rfl⟩

end Rehearsal

end BrokerForest
