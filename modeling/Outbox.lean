import Outbox.Amount
import Outbox.Fee.Market
import Outbox.Main
import Outbox.Metrics
import Outbox.Nonce.Book
import Outbox.Rehearsal.World
import Outbox.Rpc.Node
import Outbox.Settings.Load
import Outbox.Signer.Key
import Outbox.Proofs.Nonce.History
import Outbox.Proofs.Send.Acceptance
import Outbox.Proofs.Send.Chronicle
import Outbox.Proofs.Send.Waiting
import Outbox.Proofs.Nonce.FreeSet
import Outbox.Proofs.Send.Vigil
import Outbox.Proofs.Crew.Life
import Outbox.Proofs.Send.Looks
import Outbox.Proofs.Fee.Fresh
import Outbox.Proofs.Fee.Flight
import Outbox.Proofs.Nonce.Resync
import Outbox.Proofs.Send.Fees
import Outbox.Proofs.Send.Refusal
import Outbox.Proofs.Nonce.Dealings
import Outbox.Proofs.Nonce.Generations
import Outbox.Proofs.Nonce.Floor
import Outbox.Proofs.Nonce.Race
import Outbox.Proofs.Send.Build
import Outbox.Proofs.Nonce.Residency
import Outbox.Proofs.Send.Released
import Outbox.Proofs.Send.Pass
import Outbox.Proofs.Send.Secondary
import Outbox.Proofs.Send.Settled
import Outbox.Proofs.Envelope
import Outbox.Proofs.Amount
import Outbox.Proofs.References
import Outbox.Proofs.Nonce.Tenures
import Outbox.Proofs.Send.Course
import Outbox.Proofs.Send.Wrap
