import ChainHead.Main
import ChainHead.Proofs.Service.Delivery
import ChainHead.Proofs.Stream.Reading
import ChainHead.Proofs.Stream.Blocks
import ChainHead.Proofs.Stream.Chunks
import ChainHead.Proofs.Json.Reads
import ChainHead.Proofs.Json.Text
import ChainHead.Proofs.Service.Moves
import ChainHead.Proofs.Service.Reception
import ChainHead.Proofs.Stream.Skipping
import ChainHead.Proofs.Client.Publication
import ChainHead.Proofs.Follower.Epochs
import ChainHead.Proofs.Service.Course
import ChainHead.Proofs.Service.Ending
import ChainHead.Proofs.Service.Asking
import ChainHead.Proofs.Service.Attempts
import ChainHead.Proofs.Text.Hex
import ChainHead.Proofs.Wire.Faithful
import ChainHead.Proofs.Client.Requests
import ChainHead.Proofs.Client.Failures
import ChainHead.Proofs.Wire.Answers
import ChainHead.Proofs.Service.Erasure
import ChainHead.Proofs.Beacon.Snapshots
import ChainHead.Proofs.Service.Pressure
import ChainHead.Proofs.Wire.Layouts
import ChainHead.Proofs.Wire.Places
import ChainHead.Proofs.Stream.Damage
import ChainHead.Proofs.Beacon.BlockNames
import ChainHead.Proofs.Beacon.PublicKeys
import ChainHead.Proofs.Client.Passage
import ChainHead.Proofs.Consumer.Turns
import ChainHead.Proofs.Client.Timeouts
import ChainHead.Proofs.Settings.Room
import ChainHead.Proofs.Settings.Spellings
import ChainHead.Proofs.Client.Ways
