import ReliableDatagram.Host.Service
import ReliableDatagram.Simulation
import ReliableDatagram.Proofs.Stamp
import ReliableDatagram.Proofs.Wire.RoundTrip
import ReliableDatagram.Proofs.Wire.Leading
import ReliableDatagram.Proofs.Wire.Layout
import ReliableDatagram.Proofs.Channel.Buffer
import ReliableDatagram.Proofs.Channel.Retention
import ReliableDatagram.Proofs.Peer.Composition
import ReliableDatagram.Proofs.Peer.Reception
import ReliableDatagram.Proofs.Connection.Basic
import ReliableDatagram.Proofs.Connection.Traffic
import ReliableDatagram.Proofs.Connection.Ordering
import ReliableDatagram.Proofs.Connection.Opening
import ReliableDatagram.Proofs.Connection.Retention
import ReliableDatagram.Proofs.Connection.Replay
import ReliableDatagram.Proofs.Peer.Continuation
import ReliableDatagram.Proofs.Peer.Persistence
import ReliableDatagram.Proofs.Negotiation
import ReliableDatagram.Proofs.Peer.Terms
import ReliableDatagram.Proofs.Peer.Budget
import ReliableDatagram.Proofs.Peer.Bounds
import ReliableDatagram.Proofs.Peer.Flow
import ReliableDatagram.Proofs.Peer.Throttle
import ReliableDatagram.Proofs.Peer.Opening
import ReliableDatagram.Proofs.Peer.Attempt
import ReliableDatagram.Proofs.Channel.Wrapping
import ReliableDatagram.Proofs.Peer.Wrapping
import ReliableDatagram.Proofs.Peer.Operations
import ReliableDatagram.Proofs.Peer.Lifecycle
import ReliableDatagram.Proofs.Peer.Local
import ReliableDatagram.Proofs.Peer.Naming
import ReliableDatagram.Proofs.Peer.Custody
import ReliableDatagram.Proofs.Peer.Transit
import ReliableDatagram.Proofs.Peer.Accounting
import ReliableDatagram.Proofs.Peer.Fitting
import ReliableDatagram.Proofs.Peer.Quiescence
import ReliableDatagram.Proofs.Peer.Contents
import ReliableDatagram.Proofs.Peer.Emission
import ReliableDatagram.Proofs.Peer.Forfeits
import ReliableDatagram.Proofs.Peer.Enrolment
import ReliableDatagram.Proofs.Peer.Deadlines
import ReliableDatagram.Proofs.Peer.Repetitions
import ReliableDatagram.Proofs.Peer.Retransmission
import ReliableDatagram.Proofs.Peer.Gathering
import ReliableDatagram.Proofs.Peer.Splitting
import ReliableDatagram.Proofs.Connection.Conversation
import ReliableDatagram.Proofs.Connection.Completion
import ReliableDatagram.Proofs.Connection.Control
import ReliableDatagram.Proofs.Connection.Handshake
import ReliableDatagram.Proofs.Connection.Settlement
import ReliableDatagram.Proofs.Connection.Agreement
import ReliableDatagram.Proofs.Connection.Sizes
import ReliableDatagram.Proofs.Host.Slots
import ReliableDatagram.Proofs.Host.Exactness
import ReliableDatagram.Proofs.Host.Sending
import ReliableDatagram.Proofs.Host.Receiving
import ReliableDatagram.Proofs.Host.Serving
import ReliableDatagram.Proofs.Host.Requests
import ReliableDatagram.Proofs.Host.Runs
import ReliableDatagram.Proofs.Host.Local
import ReliableDatagram.Proofs.Host.Vacancy
import ReliableDatagram.Proofs.Host.Departures
import ReliableDatagram.Proofs.Host.Isolation
import ReliableDatagram.Proofs.Host.Trails
import ReliableDatagram.Proofs.Host.Receipts
import ReliableDatagram.Proofs.Host.Sharing
import ReliableDatagram.Proofs.Host.Order
import ReliableDatagram.Proofs.Host.Introductions
import ReliableDatagram.Proofs.Host.Draining
import ReliableDatagram.Proofs.Host.Parsing
import ReliableDatagram.Proofs.Host.Redistribution
import ReliableDatagram.Proofs.Host.Searches
import ReliableDatagram.Proofs.Host.Fairness
import ReliableDatagram.Proofs.Host.Timings
import ReliableDatagram.Proofs.Host.Deadline
import ReliableDatagram.Proofs.Allocation.Throttles
import ReliableDatagram.Proofs.Allocation.Fairness
import ReliableDatagram.Proofs.GroupWindow
import ReliableDatagram.Proofs.Channel.Stalling
import ReliableDatagram.Proofs.Channel.Numbering
import ReliableDatagram.Proofs.Peer.Fragments
import ReliableDatagram.Proofs.Smoothing
import ReliableDatagram.Proofs.Pacing.Estimate
import ReliableDatagram.Proofs.Pacing.Admission
import ReliableDatagram.Proofs.Loss
import ReliableDatagram.Proofs.Peer.Overdue
import ReliableDatagram.Proofs.Peer.Gauges
