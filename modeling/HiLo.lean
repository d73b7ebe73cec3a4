import HiLo.Config.Reader
import HiLo.Config.Written
import HiLo.Proofs.Uniqueness
import HiLo.Proofs.Numbering
import HiLo.Proofs.RealTime
import HiLo.Proofs.Exhaustion
import HiLo.Proofs.Poisoning
import HiLo.Proofs.Steps
import HiLo.Session
import HiLo.Proofs.Custody
import HiLo.Proofs.Queue
import HiLo.Proofs.Series
import HiLo.Proofs.Turns
import HiLo.Proofs.Overlap
import HiLo.Proofs.Sharing
import HiLo.Proofs.Sequence
import HiLo.Proofs.Rollover
import HiLo.Proofs.FirstBlock
import HiLo.Proofs.RoundTrip
import HiLo.Proofs.Singles
import HiLo.Proofs.Overtaken
import HiLo.Proofs.Period
import HiLo.Proofs.Offences
import HiLo.Proofs.Arrays
import HiLo.Proofs.Integers
import HiLo.Proofs.Decoding
import HiLo.Proofs.Building
import HiLo.Proofs.Obtaining
import HiLo.Proofs.Atomicity
import HiLo.Proofs.Stamps
