import BrokerForest.Network.Mesh
/-!
# Rehearsals: runs of a mesh that can be computed

A rehearsal is a mesh written down as two lists, over a transport that leads every URL to
the peer that has it and loses nothing.  Its moves can be computed, and every move that
meets a condition is a step of the mesh under that condition, so that what a rehearsal
comes to is reachable.

* `Directory` — the transport of a rehearsal;
* `Rehearsal.play` — moves one after another, as long as they are possible;
* `Rehearsal.reachable_play` — what they come to is reachable;
* `Rehearsal.trio`, `Rehearsal.still` — three brokers, and words without any jitter.
-/

namespace BrokerForest

/-- A transport that leads every URL to the peer that has it, and delivers everything. -/
structure Directory where
  peers : List Peer

instance : Transport Directory where
  openLink url directory :=
    match directory.peers.find? fun p => p.urls.contains url with
    | some peer => (.ok peer, directory)
    | none => (.error (.refused url), directory)
  closeLink _ directory := directory
  send _ _ _ directory := (true, directory)

/-- A message on its way. -/
structure Letter where
  sender : NodeId
  receiver : NodeId
  message : Message
deriving DecidableEq

namespace Letter

/-- Whether a letter is on its way from one node to another. -/
def goes (l : Letter) (v u : NodeId) : Bool := l.sender = v && l.receiver = u

end Letter

/-- A mesh written down: nodes, the latest state of each first, and all that is on its way,
the oldest first. -/
structure Rehearsal where
  nodes : List (NodeId × Node)
  letters : List Letter

/-- One move of a rehearsal. -/
inductive Move where
  /-- A node acts. -/
  | act (u : NodeId) (a : Act)
  /-- The second node gets the oldest message from the first. -/
  | deliver (v u : NodeId)

namespace Rehearsal

/-- The mesh that is written down. -/
def mesh (r : Rehearsal) : Mesh where
  node? u := r.nodes.lookup u
  transit v u := (r.letters.filter fun l => l.goes v u).map Letter.message

/-- The rehearsal after a node has acted. -/
def after {σ : Type} (r : Rehearsal) (u : NodeId) (s : Session σ) : Rehearsal where
  nodes := (u, s.node) :: r.nodes
  letters := r.letters ++
    (s.trace.filterMap Effect.mail?).map fun mail => ⟨u, mail.1.id, mail.2⟩

/-- The rehearsal without the oldest message from one node to another. -/
def dropOldest (r : Rehearsal) (v u : NodeId) : Rehearsal :=
  { r with letters := r.letters.eraseP fun l => l.goes v u }

/-- A rehearsal after an act writes down the mesh after it. -/
theorem mesh_after {σ : Type} (r : Rehearsal) (u : NodeId) (s : Session σ) :
    (r.after u s).mesh = r.mesh.after u s := by
  unfold mesh after Mesh.after
  congr 1
  · funext v
    by_cases hv : v = u
    · simp [hv]
    · have hv' : (v == u) = false := by simpa using hv
      simp [List.lookup_cons, hv', Function.update_of_ne hv]
  · funext v w
    rw [List.filter_append, List.map_append, List.filter_map, List.map_map]
    by_cases hv : v = u
    · subst hv
      simp only [if_true, List.append_cancel_left_eq]
      congr 1
      exact List.filter_congr fun mail _ => by simp [Letter.goes]
    · have hnone : ((s.trace.filterMap Effect.mail?).filter
          ((fun l : Letter => l.goes v w) ∘ fun mail => ⟨u, mail.1.id, mail.2⟩)) = [] := by
        refine List.filter_eq_nil_iff.2 fun mail _ => ?_
        simp [Letter.goes, Ne.symm hv]
      simp [hv, hnone]

/-- What is left of the letters between two nodes without the oldest. -/
theorem filter_eraseP_self (letters : List Letter) (v u : NodeId) :
    (letters.eraseP fun l => l.goes v u).filter (fun l => l.goes v u) =
      (letters.filter fun l => l.goes v u).tail := by
  induction letters with
  | nil => rfl
  | cons l rest ih =>
      cases hl : l.goes v u with
      | false => simp [hl, ih]
      | true => simp [hl]

/-- The letters between two nodes are not touched when one between two others is gone. -/
theorem filter_eraseP_of_ne (letters : List Letter) {v u x y : NodeId}
    (h : ¬ (x = v ∧ y = u)) :
    (letters.eraseP fun l => l.goes v u).filter (fun l => l.goes x y) =
      letters.filter fun l => l.goes x y := by
  induction letters with
  | nil => rfl
  | cons l rest ih =>
      cases hl : l.goes v u with
      | false => simp [hl, List.filter_cons, ih]
      | true =>
          have hxy : l.goes x y = false := by
            simp only [Letter.goes, Bool.and_eq_true, decide_eq_true_eq] at hl
            rw [Bool.eq_false_iff, ne_eq, Letter.goes, Bool.and_eq_true, decide_eq_true_eq,
              decide_eq_true_eq]
            rintro ⟨rfl, rfl⟩
            exact h ⟨hl.1, hl.2⟩
          simp [hl, hxy]

/-- A rehearsal without a message writes down the mesh without it. -/
theorem mesh_dropOldest (r : Rehearsal) (v u : NodeId) :
    (r.dropOldest v u).mesh = r.mesh.dropOldest v u := by
  unfold mesh dropOldest Mesh.dropOldest
  congr 1
  funext x y
  by_cases h : x = v ∧ y = u
  · obtain ⟨rfl, rfl⟩ := h
    simp [filter_eraseP_self, List.map_tail]
  · simp [h, filter_eraseP_of_ne _ h]

section

variable (cond : ActCondition) [∀ n ws a, Decidable (cond n ws a)]

/-- The rehearsal after a move, if the move is possible and meets a condition. -/
def move? (directory : Directory) (ws : Words) (r : Rehearsal) : Move → Option Rehearsal
  | .act u a =>
    match r.nodes.lookup u with
    | some n =>
      if a.Possible n ∧ cond n ws a ∧ a.isMessage = false then
        some (r.after u (a.run ⟨n, directory, ws, []⟩))
      else none
    | none => none
  | .deliver v u =>
    match r.nodes.lookup u, r.nodes.lookup v, r.mesh.transit v u with
    | some n, some sender, message :: _ =>
      if sender.self.id = v ∧ cond n ws (.event (.message sender.self message)) then
        some ((r.dropOldest v u).after u
          (Act.run ⟨n, directory, ws, []⟩ (.event (.message sender.self message))))
      else none
    | _, _, _ => none

/-- The rehearsal after some moves, if all are possible and meet a condition. -/
def play (directory : Directory) (ws : Words) : List Move → Rehearsal → Option Rehearsal
  | [], r => some r
  | move :: moves, r =>
    match r.move? cond directory ws move with
    | some r' => play directory ws moves r'
    | none => none

end

variable {cond : ActCondition} [∀ n ws a, Decidable (cond n ws a)] {directory : Directory}
  {ws : Words} {r r' : Rehearsal}

/-- A move that meets a condition is a step of the mesh under it. -/
theorem step_move {move : Move} (h : r.move? cond directory ws move = some r') :
    Mesh.Step cond r.mesh r'.mesh := by
  cases move with
  | act u a =>
      simp only [move?] at h
      split at h
      · rename_i n hn
        split at h
        · rename_i hmeets
          cases h
          rw [mesh_after]
          exact .act directory ws hn hmeets.1 hmeets.2.1 hmeets.2.2
        · cases h
      · cases h
  | deliver v u =>
      simp only [move?] at h
      split at h
      · rename_i n sender message rest hn _ holdest
        split at h
        · rename_i hmeets
          cases h
          rw [mesh_after, mesh_dropOldest]
          exact .deliver directory ws hn holdest hmeets.1 hmeets.2
        · cases h
      · cases h

/-- What moves come to is reachable. -/
theorem reachable_play {moves : List Move} (hfresh : r.mesh.Reachable cond)
    (h : r.play cond directory ws moves = some r') :
    r'.mesh.Reachable cond := by
  induction moves generalizing r with
  | nil =>
      cases h
      exact hfresh
  | cons move moves ih =>
      simp only [play] at h
      split at h
      · rename_i t ht
        obtain ⟨start, hstart, hrun⟩ := hfresh
        exact ih ⟨start, hstart, hrun.tail (step_move ht)⟩ h
      · cases h

/-- A broker with a small identity at a URL. -/
def broker (octet : UInt8) (url : String) : Peer where
  id := ⟨List.replicate 32 octet, List.length_replicate⟩
  urls := [url]
  broker := true

/-- Three brokers that reach one another. -/
def trio : Directory := ⟨[broker 1 "x", broker 2 "y", broker 3 "z"]⟩

/-- Words with which no random choice has any jitter. -/
def still : Words := ⟨[0, 0, 0], 0⟩

end Rehearsal

end BrokerForest
