import StackProfile.Descriptor.Cursor
import StackProfile.Descriptor.Spelling
import StackProfile.Profile.Edit
import StackProfile.Proofs.Addresses
import StackProfile.Proofs.AppendOnly
import StackProfile.Proofs.ColumnRatios
import StackProfile.Proofs.ConsumedText
import StackProfile.Proofs.DisabledRates
import StackProfile.Proofs.DottedReading
import StackProfile.Proofs.EqualCounters
import StackProfile.Proofs.ExactRange
import StackProfile.Proofs.Grammar
import StackProfile.Proofs.Interning
import StackProfile.Proofs.JoinedArguments
import StackProfile.Proofs.MapLines
import StackProfile.Proofs.Merging
import StackProfile.Proofs.NativeRuns
import StackProfile.Proofs.Noninterference
import StackProfile.Proofs.NormalForms
import StackProfile.Proofs.OpenNestings
import StackProfile.Proofs.PartialUnsampling
import StackProfile.Proofs.PlainScan
import StackProfile.Proofs.ProfileTables
import StackProfile.Proofs.Ranges
import StackProfile.Proofs.Reordering
import StackProfile.Proofs.ShownNames
import StackProfile.Proofs.SourceLines
import StackProfile.Proofs.SplitBatches
import StackProfile.Proofs.StableNames
import StackProfile.Proofs.Stacks
import StackProfile.Proofs.TagChains
import StackProfile.Proofs.UsableRatios
import StackProfile.Proofs.WrittenMaps
import StackProfile.Session
