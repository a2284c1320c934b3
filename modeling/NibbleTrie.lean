import NibbleTrie.Trie.Lemmas
import NibbleTrie.Workload
import NibbleTrie.Session.Run
import NibbleTrie.Session.Parallel
import NibbleTrie.Proofs.Digits
import NibbleTrie.Proofs.Linked
import NibbleTrie.Proofs.Layout
import NibbleTrie.Proofs.Relink
import NibbleTrie.Proofs.Exchange
import NibbleTrie.Proofs.Split
import NibbleTrie.Proofs.Drop
import NibbleTrie.Proofs.Growth
import NibbleTrie.Proofs.Listing
import NibbleTrie.Proofs.Write
import NibbleTrie.Proofs.Keyed
import NibbleTrie.Proofs.Step
import NibbleTrie.Proofs.Update
import NibbleTrie.Proofs.Content
import NibbleTrie.Proofs.Represent
import NibbleTrie.Proofs.Act
import NibbleTrie.Proofs.Probing
import NibbleTrie.Proofs.Refinement
import NibbleTrie.Proofs.Evolution
import NibbleTrie.Proofs.Moment
import NibbleTrie.Proofs.WellFormed
import NibbleTrie.Proofs.Linearization
import NibbleTrie.Proofs.Trail
import NibbleTrie.Proofs.Walk
import NibbleTrie.Proofs.Tour
import NibbleTrie.Proofs.Rank
import NibbleTrie.Proofs.Order
import NibbleTrie.Proofs.Change
import NibbleTrie.Proofs.Grip
import NibbleTrie.Proofs.Plan
import NibbleTrie.Proofs.Finish
import NibbleTrie.Proofs.Outcome
import NibbleTrie.Proofs.Instant
import NibbleTrie.Proofs.InstantSound
import NibbleTrie.Proofs.Running
import NibbleTrie.Proofs.Exact
import NibbleTrie.Proofs.Account
import NibbleTrie.Proofs.Jam
import NibbleTrie.Proofs.Retired
import NibbleTrie.Proofs.Idle
import NibbleTrie.Proofs.Vouched
import NibbleTrie.Proofs.Locality
import NibbleTrie.Proofs.Deed
import NibbleTrie.Proofs.Schedule
import NibbleTrie.Proofs.Isolation
import NibbleTrie.Proofs.Alone
import NibbleTrie.Proofs.Planting
import NibbleTrie.Proofs.Cutback
import NibbleTrie.Proofs.Report
import NibbleTrie.Proofs.Shape
import NibbleTrie.Proofs.AtRest
import NibbleTrie.Proofs.Retries
import NibbleTrie.Proofs.Builder
import NibbleTrie.Proofs.Balance
import NibbleTrie.Proofs.Surgery
import NibbleTrie.Proofs.InstantSound
