import ShortNames.ImportListing
import ShortNames.ImportTable.Load
import ShortNames.Layout.Setting
import ShortNames.Shortening
import ShortNames.Proofs.MeaningKept
import ShortNames.Proofs.ListingReload
import ShortNames.Proofs.DistinctSpellings
import ShortNames.Proofs.Nesting
import ShortNames.Proofs.NormalForm
import ShortNames.Proofs.OrderIndependence
import ShortNames.Proofs.FailedOperations
import ShortNames.Proofs.EventLog
import ShortNames.Proofs.NameReadings
import ShortNames.Proofs.ChainComposition
import ShortNames.Proofs.DeclarationReading
import ShortNames.Proofs.NameDecomposition
import ShortNames.Proofs.FaultPlaces
import ShortNames.Proofs.TokenPartition
import ShortNames.Proofs.LocalEffect
import ShortNames.Proofs.BodyCalls
import ShortNames.Proofs.GroupKeys
