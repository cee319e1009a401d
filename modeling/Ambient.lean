import Ambient.Main
import Ambient.Proofs.InclusionChains
import Ambient.Proofs.BlockEntries
import Ambient.Proofs.ByteOrder
import Ambient.Proofs.Framing
import Ambient.Proofs.Suppression
import Ambient.Proofs.NearestFirst
import Ambient.Proofs.MaximalRuns
import Ambient.Proofs.Expansion
import Ambient.Proofs.Offerings
import Ambient.Proofs.BoundedSinks
import Ambient.Proofs.BuiltinWords
import Ambient.Proofs.Rewriting
import Ambient.Proofs.Retranslation
import Ambient.Proofs.LegacyWords
import Ambient.Proofs.SinglePass
import Ambient.Proofs.ClassNames
import Ambient.Proofs.Brackets
import Ambient.Proofs.Nesting
import Ambient.Proofs.Agreement
import Ambient.Proofs.InsertionOrder
import Ambient.Proofs.Neighbourhood
import Ambient.Proofs.IgnoredMembers
import Ambient.Proofs.PathSteps
import Ambient.Proofs.Resolution
import Ambient.Proofs.Loading
import Ambient.Proofs.RecordPaths
import Ambient.Proofs.FileTrees
import Ambient.Proofs.ListedLoading
import Ambient.Proofs.Writing
import Ambient.Proofs.SourceLinks
import Ambient.Proofs.FirstOccurrences
import Ambient.Proofs.Spellings
import Ambient.Proofs.RecordSpellings
import Ambient.Proofs.Precedence
import Ambient.Proofs.Reopening
import Ambient.Proofs.RunEffects
import Ambient.Proofs.Nullability
import Ambient.Proofs.RelativeWays
import Ambient.Proofs.TypePositions
import Ambient.Proofs.PrivateEntries
import Ambient.Proofs.RecordNames
import Ambient.Proofs.ReadingFiles
import Ambient.Proofs.Listings
import Ambient.Proofs.WalkOrder
import Ambient.Proofs.ParameterLists
import Ambient.Proofs.NestedViews
import Ambient.Proofs.InliningStack
import Ambient.Proofs.LeftmostMatches
import Ambient.Proofs.DescriptionSteps
import Ambient.Proofs.Accessors
import Ambient.Proofs.Scanning
import Ambient.Proofs.Consumption
import Ambient.Proofs.TokenPlaces
import Ambient.Proofs.LastWrites
