import BrokerForest.Network.Fabric
import BrokerForest.Network.Script
import BrokerForest.Proofs.AcceptancePayload
import BrokerForest.Proofs.Admission
import BrokerForest.Proofs.BusyAdmission
import BrokerForest.Proofs.Capacity
import BrokerForest.Proofs.ChildrenNews
import BrokerForest.Proofs.Connector
import BrokerForest.Proofs.Consent
import BrokerForest.Proofs.Degree
import BrokerForest.Proofs.DepthUndercut
import BrokerForest.Proofs.EdgeAgreement
import BrokerForest.Proofs.Fatherhood
import BrokerForest.Proofs.ForcedRequests
import BrokerForest.Proofs.Forest
import BrokerForest.Proofs.Gossip
import BrokerForest.Proofs.LinkBalance
import BrokerForest.Proofs.Mailbox
import BrokerForest.Proofs.MessageRoundTrip
import BrokerForest.Proofs.Negotiation
import BrokerForest.Proofs.Numeric
import BrokerForest.Proofs.OrderText
import BrokerForest.Proofs.Precedence
import BrokerForest.Proofs.Reply
import BrokerForest.Proofs.Rounding
import BrokerForest.Proofs.SearchCourse
import BrokerForest.Proofs.SearchExhaustion
import BrokerForest.Proofs.SearchOutcome
import BrokerForest.Proofs.SelfCandidate
import BrokerForest.Proofs.Siblings
import BrokerForest.Proofs.Wave
import BrokerForest.Text.Hex
import BrokerForest.Wire.Format
