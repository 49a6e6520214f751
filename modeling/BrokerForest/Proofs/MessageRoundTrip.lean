import BrokerForest.Network.Mesh
import BrokerForest.Proofs.ExactCodec
import BrokerForest.Wire.Format
/-!
# The round trip of messages over their octets

A message can be written if its texts and lists can be counted in 32 bits and its depth is a
number.  What is written is read back as it was, with every URL and every bit of a depth;
what can be read at all, also of octets that no broker wrote, has these octets and no
others; and no message's octets are the beginning of another's.

Main statements:

* `Message.Short`, `Message.Writable` — the messages of which everything can be counted, and
  those that can be written;
* `Wire.exact_peer`, `Wire.exact_rank`, `Wire.exact_response` — the parts of messages;
* `Wire.exact_message` — messages;
* **`Wire.message_bijective`** — the format is a bijection between the messages that can be
  written and the octets that can be read.
-/

namespace BrokerForest

/-- A text whose octets can be counted in 32 bits. -/
def Text.Short (s : String) : Prop := (Text.Utf8.encode s).length < 2 ^ 32

instance (s : String) : Decidable (Text.Short s) := inferInstanceAs (Decidable (_ < _))

/-- A list of such items that can be counted in 32 bits. -/
def Wire.Short {α : Type} (proper : α → Prop) (xs : List α) : Prop :=
  xs.length < 2 ^ 32 ∧ ∀ x ∈ xs, proper x

instance {α : Type} (proper : α → Prop) [DecidablePred proper] (xs : List α) :
    Decidable (Wire.Short proper xs) :=
  inferInstanceAs (Decidable (_ ∧ _))

/-- A color of which everything can be counted. -/
def Color.Short (c : Color) : Prop := Wire.Short Text.Short c.tokens

instance (c : Color) : Decidable c.Short := inferInstanceAs (Decidable (Wire.Short _ _))

/-- A peer of which everything can be counted. -/
def Peer.Short (p : Peer) : Prop := Wire.Short Text.Short p.urls

instance (p : Peer) : Decidable p.Short := inferInstanceAs (Decidable (Wire.Short _ _))

/-- An answer of which everything can be counted. -/
def Answer.Short : Answer → Prop
  | .accepted a => Wire.Short Peer.Short a.upstream ∧ Wire.Short Peer.Short a.siblings
  | .refused (.depthOrColor hint) => ∀ p, hint = some p → p.Short
  | .refused (.maxDegree siblings) => Wire.Short Peer.Short siblings
  | .refused (.minDegree upstream) => Wire.Short Peer.Short upstream
  | .refused .busy => True

/-- A message of which everything can be counted. -/
def Message.Short : Message → Prop
  | .request m => m.rank.color.Short
  | .response m => m.rank.color.Short ∧ m.answer.Short
  | .siblingDead m => m.rank.color.Short ∧ Wire.Short Peer.Short m.candidates ∧ m.dead.Short
  | .update m => m.rank.color.Short ∧ Wire.Short Peer.Short m.upstream
  | .newSibling m =>
    m.rank.color.Short ∧ Wire.Short Peer.Short m.upstream ∧ Wire.Short Peer.Short m.siblings ∧
      Wire.Short Peer.Short m.candidates ∧ m.sibling.Short
  | .candidates peers => Wire.Short Peer.Short peers
  | .goodCandidate p => p.Short
  | .noLongerChild => True

/-- A rank that can be written: everything of it can be counted, and its depth is a number. -/
def Rank.Writable (r : Rank) : Prop := r.color.Short ∧ r.depth.isNaN = false

/-- A message that can be written: everything of it can be counted, and its depth, if it has
one, is a number. -/
def Message.Writable (m : Message) : Prop :=
  m.Short ∧ ∀ rank, m.rank? = some rank → rank.depth.isNaN = false

namespace Wire

open Codec

/-- Colors are written exactly. -/
theorem exact_color : color.Exact Color.Short :=
  exact_text.list.via (fun _ => rfl) fun _ _ => rfl

/-- Depths are written exactly. -/
theorem exact_depth : depth.Exact fun d => d.isNaN = false :=
  exact_double.via (fun _ => rfl) fun _ _ => rfl

/-- Identities are written exactly. -/
theorem exact_nodeId : nodeId.Exact fun _ => True where
  writes n := ⟨fun _ => trivial, fun _ => ⟨_, rfl⟩⟩
  reads := by
    rintro ⟨octets, hlength⟩ _ ⟨⟩ rest
    simp only [nodeId, List.take_left' hlength, List.drop_left' hlength, NodeId.ofOctets?, hlength]
    rfl
  rewrites := by
    intro input n rest hn
    simp only [nodeId, NodeId.ofOctets?] at hn
    split at hn
    · rename_i hsome
      cases hn
      split at hsome
      · cases hsome
        exact ⟨_, rfl, (List.take_append_drop 32 input).symm⟩
      · cases hsome
    · cases hn

/-- Descriptions of peers are written exactly. -/
theorem exact_peer : peer.Exact Peer.Short :=
  ((Exact.pair exact_nodeId (exact_text.list.pair exact_bool)).via
    (fun _ => rfl) fun _ _ => rfl).congr
    fun _ => ⟨fun h => h.2.1, fun h => ⟨trivial, h, trivial⟩⟩

/-- Lists of them are written exactly. -/
theorem exact_peers : peers.Exact (Wire.Short Peer.Short) := Exact.list exact_peer

/-- Ranks are written exactly. -/
theorem exact_rank : rank.Exact Rank.Writable :=
  (Exact.pair exact_color exact_depth).via (fun _ => rfl) fun _ _ => rfl

/-- The bounds to overlook are written exactly. -/
theorem exact_force : force.Exact fun _ => True :=
  ((exact_bool.pair exact_bool).via (fun _ => rfl) fun _ _ => rfl).congr
    fun _ => ⟨fun _ => trivial, fun _ => ⟨trivial, trivial⟩⟩

/-- Requests are written exactly. -/
theorem exact_request : request.Exact fun m => m.rank.Writable :=
  ((Exact.pair exact_rank exact_force).via (fun _ => rfl) fun _ _ => rfl).congr
    fun _ => ⟨fun h => h.1, fun h => ⟨h, trivial⟩⟩

/-- News of children that are gone is written exactly. -/
theorem exact_siblingDead : siblingDead.Exact fun m =>
    m.rank.Writable ∧ Wire.Short Peer.Short m.candidates ∧ m.dead.Short :=
  (Exact.pair exact_rank (.pair exact_peers exact_peer)).via (fun _ => rfl) fun _ _ => rfl

/-- News of ranks and chains is written exactly. -/
theorem exact_update : update.Exact fun m =>
    m.rank.Writable ∧ Wire.Short Peer.Short m.upstream :=
  ((Exact.pair exact_rank (.pair exact_peers exact_word32)).via (fun _ => rfl) fun _ _ => rfl).congr
    fun _ => ⟨fun h => ⟨h.1, h.2.1⟩, fun h => ⟨h.1, h.2, trivial⟩⟩

/-- News of new children is written exactly. -/
theorem exact_newSibling : newSibling.Exact fun m =>
    m.rank.Writable ∧ Wire.Short Peer.Short m.upstream ∧ Wire.Short Peer.Short m.siblings ∧
      Wire.Short Peer.Short m.candidates ∧ m.sibling.Short :=
  (Exact.pair exact_rank (.pair exact_peers (.pair exact_peers (.pair exact_peers exact_peer)))).via
    (fun _ => rfl) fun _ _ => rfl

/-- Responses are written exactly. -/
theorem exact_response : response.Exact fun m => m.rank.Writable ∧ m.answer.Short where
  writes := by
    rintro ⟨r, a | (hint | siblings | upstream | _)⟩
    · exact (Exact.pair exact_rank (.pair exact_peers exact_peers)).writes_variant 0 (r, _, _)
    · exact (Exact.pair exact_rank (.optional exact_peer)).writes_variant 1 (r, hint)
    · exact (Exact.pair exact_rank exact_peers).writes_variant 2 (r, siblings)
    · exact (Exact.pair exact_rank exact_peers).writes_variant 3 (r, upstream)
    · exact (Exact.writes_variant exact_rank 4 r).trans (and_iff_left trivial).symm
  reads := by
    rintro ⟨r, ⟨upstream, siblings⟩ | (hint | siblings | upstream | _)⟩ _ h rest
    · exact (Exact.pair exact_rank (.pair exact_peers exact_peers)).reads_variant response
        (fun (r, upstream, siblings) => Response.mk r (.accepted ⟨upstream, siblings⟩))
        (fun _ => rfl) h rest
    · exact (Exact.pair exact_rank (.optional exact_peer)).reads_variant response
        (fun (r, hint) => Response.mk r (.refused (.depthOrColor hint))) (fun _ => rfl) h rest
    · exact (Exact.pair exact_rank exact_peers).reads_variant response
        (fun (r, siblings) => Response.mk r (.refused (.maxDegree siblings))) (fun _ => rfl) h rest
    · exact (Exact.pair exact_rank exact_peers).reads_variant response
        (fun (r, upstream) => Response.mk r (.refused (.minDegree upstream))) (fun _ => rfl) h rest
    · exact Exact.reads_variant exact_rank response (fun r => Response.mk r (.refused .busy))
        (fun _ => rfl) h rest
  rewrites := by
    intro input m rest h
    unfold response at h
    dsimp only at h
    split at h
    · exact (Exact.pair exact_rank (.pair exact_peers exact_peers)).rewrites_variant h fun _ => rfl
    · exact (Exact.pair exact_rank (.optional exact_peer)).rewrites_variant h fun _ => rfl
    · exact (Exact.pair exact_rank exact_peers).rewrites_variant h fun _ => rfl
    · exact (Exact.pair exact_rank exact_peers).rewrites_variant h fun _ => rfl
    · exact Exact.rewrites_variant exact_rank h fun _ => rfl
    · cases h
    · cases h

/-- A message can be written if the rank that it tells of can, and all else of it can be
counted. -/
theorem writable_iff {m : Message} {rank : Rank} {rest : Prop} (hrank : m.rank? = some rank)
    (hshort : m.Short ↔ rank.color.Short ∧ rest) : m.Writable ↔ rank.Writable ∧ rest := by
  rw [Message.Writable, hshort, hrank, Rank.Writable]
  constructor
  · rintro ⟨⟨hcolor, hrest⟩, hdepth⟩
    exact ⟨⟨hcolor, hdepth rank rfl⟩, hrest⟩
  · rintro ⟨⟨hcolor, hdepth⟩, hrest⟩
    refine ⟨⟨hcolor, hrest⟩, ?_⟩
    rintro _ ⟨⟩
    exact hdepth

/-- A message without a rank can be written if everything of it can be counted. -/
theorem writable_iff_short {m : Message} (hrank : m.rank? = none) : m.Writable ↔ m.Short := by
  simp [Message.Writable, hrank]

/-- Messages are written exactly. -/
theorem exact_message : message.Exact Message.Writable where
  writes
    | .request m => (Exact.writes_variant exact_request 0 m).trans
        ((and_iff_left trivial).symm.trans (writable_iff rfl (and_iff_left trivial).symm).symm)
    | .response m => (Exact.writes_variant exact_response 1 m).trans (writable_iff rfl .rfl).symm
    | .siblingDead m =>
      (Exact.writes_variant exact_siblingDead 2 m).trans (writable_iff rfl .rfl).symm
    | .update m => (Exact.writes_variant exact_update 3 m).trans (writable_iff rfl .rfl).symm
    | .newSibling m =>
      (Exact.writes_variant exact_newSibling 4 m).trans (writable_iff rfl .rfl).symm
    | .candidates m =>
      (Exact.writes_variant exact_peers 5 m).trans
        (writable_iff_short (m := .candidates m) rfl).symm
    | .goodCandidate m =>
      (Exact.writes_variant exact_peer 6 m).trans
        (writable_iff_short (m := .goodCandidate m) rfl).symm
    | .noLongerChild => ⟨fun _ => (writable_iff_short rfl).2 trivial, fun _ => ⟨_, rfl⟩⟩
  reads := by
    rintro (m | m | m | m | m | m | m | _) _ h rest
    · exact Exact.reads_variant exact_request message Message.request (fun _ => rfl) h rest
    · exact Exact.reads_variant exact_response message Message.response (fun _ => rfl) h rest
    · exact Exact.reads_variant exact_siblingDead message Message.siblingDead (fun _ => rfl) h rest
    · exact Exact.reads_variant exact_update message Message.update (fun _ => rfl) h rest
    · exact Exact.reads_variant exact_newSibling message Message.newSibling (fun _ => rfl) h rest
    · exact Exact.reads_variant exact_peers message Message.candidates (fun _ => rfl) h rest
    · exact Exact.reads_variant exact_peer message Message.goodCandidate (fun _ => rfl) h rest
    · cases h
      rfl
  rewrites := by
    intro input m rest h
    unfold message at h
    dsimp only at h
    split at h
    · exact Exact.rewrites_variant exact_request h fun _ => rfl
    · exact Exact.rewrites_variant exact_response h fun _ => rfl
    · exact Exact.rewrites_variant exact_siblingDead h fun _ => rfl
    · exact Exact.rewrites_variant exact_update h fun _ => rfl
    · exact Exact.rewrites_variant exact_newSibling h fun _ => rfl
    · exact Exact.rewrites_variant exact_peers h fun _ => rfl
    · exact Exact.rewrites_variant exact_peer h fun _ => rfl
    · cases h
      exact ⟨[7], rfl, rfl⟩
    · cases h
    · cases h

/-- **The format is a bijection on its image.**  Exactly the messages that can be written
are read back from their octets, all of them; octets that are read are those of what they
are read as; and no message's octets are a proper beginning of another's. -/
theorem message_bijective :
    (∀ m : Message, m.Writable ↔
      ∃ bytes, message.write m = some bytes ∧ message.decode bytes = .ok m) ∧
    (∀ (bytes : List UInt8) (m : Message),
      message.decode bytes = .ok m → message.write m = some bytes) ∧
    ∀ (m m' : Message) (bytes rest : List UInt8),
      message.write m = some bytes → message.write m' = some (bytes ++ rest) → rest = [] := by
  refine ⟨fun m => ?_, fun bytes m h => exact_message.write_of_decode h,
    fun m m' bytes rest h h' => exact_message.prefix_free h h'⟩
  rw [← exact_message.writes m]
  constructor
  · rintro ⟨bytes, hwrite⟩
    exact ⟨bytes, hwrite, exact_message.decode_of_write hwrite⟩
  · rintro ⟨bytes, hwrite, -⟩
    exact ⟨bytes, hwrite⟩

end Wire

namespace Rehearsal

open Wire

/-- News of a chain of one, from a root without a color. -/
def tiding : Message :=
  .update ⟨⟨⟨["a"]⟩, ⟨0.5⟩⟩, [⟨default, ["mock://x", ""], true⟩], 2⟩

/-- It can be written and is read back, and what is read from one octet has that octet. -/
theorem tiding_bijective :
    (tiding.Writable ∧
      ∃ bytes, message.write tiding = some bytes ∧ message.decode bytes = .ok tiding) ∧
    message.decode [7] = .ok .noLongerChild ∧ message.write .noLongerChild = some [7] := by
  have hwritable : tiding.Writable := by
    refine (writable_iff rfl .rfl).2 ⟨⟨?_, ?_⟩, ?_⟩ <;> decide +kernel
  exact ⟨⟨hwritable, (message_bijective.1 tiding).1 hwritable⟩,
    rfl, message_bijective.2.1 [7] .noLongerChild rfl⟩

end Rehearsal

end BrokerForest
