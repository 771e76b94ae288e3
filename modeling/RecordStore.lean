import RecordStore.Files.Tree
import RecordStore.Main
import RecordStore.Proofs.Collisions
import RecordStore.Proofs.EmptyDelimiters
import RecordStore.Proofs.EntryOrders
import RecordStore.Proofs.EntryTexts
import RecordStore.Proofs.LegibleBuilds
import RecordStore.Proofs.Lookups
import RecordStore.Proofs.PlainBuilds
import RecordStore.Proofs.PortionedRecords
import RecordStore.Proofs.SelfDelimiting
import RecordStore.Proofs.SkippedParts
import RecordStore.Proofs.SoundArchives
import RecordStore.Proofs.StagingBackings
import RecordStore.Proofs.TwinBuilds
import RecordStore.Proofs.WellFormedTrees
import RecordStore.Decimal.Places
import RecordStore.Proofs.GeneralForms
import RecordStore.Proofs.EscapedSeparators
import RecordStore.Proofs.RealRoundTrips
import RecordStore.Proofs.SeparatorRuns
import RecordStore.Proofs.CodeUnits
import RecordStore.Proofs.KeyForms
import RecordStore.Proofs.SectionHeaders
import RecordStore.Proofs.PrintedSeparators
import RecordStore.Proofs.PaddedNumbers
import RecordStore.Proofs.ChosenInstances
import RecordStore.Proofs.FittingValues
