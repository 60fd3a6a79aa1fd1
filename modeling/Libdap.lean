import Libdap.Guarantees.DAP4LengthPrefix
import Libdap.Guarantees.DAP4ChecksumMode
import Libdap.Guarantees.DAP4Get
import Libdap.Guarantees.DAP4RoundTrip
import Libdap.Guarantees.ArrayConstraint
import Libdap.Source.Sequence
import Libdap.Guarantees.SequenceRead
import Libdap.Guarantees.SequenceWalk
import Libdap.Guarantees.SequenceSerialize
import Libdap.Guarantees.SequenceRoundTrip
import Libdap.Library.Heap
import Libdap.Source.SequenceIntern
import Libdap.Guarantees.SequenceIntern
import Libdap.Guarantees.SequenceRowNumbers
import Libdap.Guarantees.SequenceGrows
import Libdap.Guarantees.SequenceRowConstraint
import Libdap.Library.Ownership
import Libdap.Source.Variables
import Libdap.Guarantees.PtrDuplicate
import Libdap.Guarantees.DuplicateFrame
import Libdap.Guarantees.Assignment
import Libdap.Guarantees.DatasetCopy
import Libdap.Source.Grid
import Libdap.Guarantees.GridParts
import Libdap.Guarantees.AttributeNames
import Libdap.Source.Escaping
import Libdap.Source.Lookup
import Libdap.Guarantees.Marking
import Libdap.Guarantees.VariableNames
import Libdap.Guarantees.Selection
import Libdap.Guarantees.GridHyperslab
import Libdap.Source.Constraint
import Libdap.Guarantees.ConstraintClauses
import Libdap.Guarantees.LongNames
import Libdap.Guarantees.ClauseOrder
import Libdap.Library.Regions
import Libdap.Source.AttributeCopies
import Libdap.Guarantees.AttributeCopies
import Libdap.Source.ErrorText
import Libdap.Guarantees.ErrorRoundTrip
import Libdap.Source.Vectors
import Libdap.Guarantees.VectorBuffer
import Libdap.Guarantees.AttributeTransfer
import Libdap.Source.DASParser
import Libdap.Guarantees.DASParser
import Libdap.Guarantees.DASText
import Libdap.Guarantees.PrintDas
import Libdap.Guarantees.SequenceTags
import Libdap.Guarantees.DASStability
import Libdap.Guarantees.ResponseCache
import Libdap.Source.DAPCache3
import Libdap.Guarantees.DAPCache3
import Libdap.Guarantees.SequenceRows
import Libdap.Source.HTTPCache
import Libdap.Guarantees.HTTPCacheTable
import Libdap.Guarantees.HTTPCacheLocks
import Libdap.Guarantees.HTTPCacheSize
import Libdap.Source.HTTPCacheClients
import Libdap.Guarantees.HTTPCacheClients
import Libdap.Library.Buckets
import Libdap.Source.HTTPCacheIndex
import Libdap.Guarantees.HTTPCacheIndex
import Libdap.Source.Groups
import Libdap.Guarantees.GroupCopy
import Libdap.Source.DMR
import Libdap.Source.D4ParserSax2
import Libdap.Guarantees.DMRTables
import Libdap.Guarantees.DMRRoundTrip
import Libdap.Library.ExternalData
import Libdap.Source.XDRUtils
import Libdap.Source.XDRStreamMarshaller
import Libdap.Source.XDRStreamUnMarshaller
import Libdap.Guarantees.XDROpaque
import Libdap.Guarantees.XDRVectors
import Libdap.Source.ElementCount
import Libdap.Guarantees.ElementCount
import Libdap.Guarantees.ContainerPaths
import Libdap.Guarantees.ConstraintNumbers
import Libdap.Library.LineInput
import Libdap.Source.MimeUtil
import Libdap.Guarantees.MultipartFraming
import Libdap.Source.DDXStream
import Libdap.Guarantees.DDXStream
import Libdap.Guarantees.DDXErrors
import Libdap.Guarantees.OtherXml
import Libdap.Library.Rewriting
import Libdap.Source.Escapes
import Libdap.Guarantees.IdentifierEscapes
import Libdap.Guarantees.XmlEntities
import Libdap.Guarantees.AttributeEscapes
import Libdap.Source.VectorElements
import Libdap.Guarantees.SubsetReads
import Libdap.Guarantees.SliceAggregation
import Libdap.Guarantees.VectorStores
import Libdap.Library.KeyedSet
import Libdap.Source.HTTPCacheHeaders
import Libdap.Guarantees.HTTPCacheHeaders
import Libdap.Guarantees.GarbageCollection
import Libdap.Library.Calendar
import Libdap.Source.UtilMit
import Libdap.Guarantees.DateBounds
import Libdap.Guarantees.DateRoundTrip
import Libdap.Source.HTTPCacheValidity
import Libdap.Guarantees.Freshness
import Libdap.Source.FdStream
import Libdap.Guarantees.FdStream
import Libdap.Source.StringUtil
import Libdap.Guarantees.Numerals
import Libdap.Guarantees.LeadingSpaces
import Libdap.Guarantees.QuotedMessages
import Libdap.Guarantees.SequenceIndices
import Libdap.Source.Keywords
import Libdap.Guarantees.Keywords
import Libdap.Guarantees.QuotedXml
import Libdap.Source.SequencePrint
import Libdap.Guarantees.SequencePrint
import Libdap.Source.SplitCe
import Libdap.Guarantees.SplitCe
import Libdap.Source.Glob
import Libdap.Guarantees.CharacterClasses
import Libdap.Guarantees.PatternParts
import Libdap.Guarantees.Patterns
import Libdap.Source.ArrayPrint
import Libdap.Guarantees.ArrayPrint
import Libdap.Source.D4ParserStream
import Libdap.Guarantees.D4ParserStream
import Libdap.Library.Slices
import Libdap.Source.FdInput
import Libdap.Guarantees.FdInput
import Libdap.Guarantees.LeadingNumbers
import Libdap.Guarantees.EnumConstants
import Libdap.Source.D4ParserNamespaces
import Libdap.Guarantees.DMRErrors
import Libdap.Source.RcFile
import Libdap.Guarantees.ProxySettings
import Libdap.Guarantees.RcFileRoundTrip
import Libdap.Source.Declarations
import Libdap.Source.DDSText
import Libdap.Source.DDSParser
import Libdap.Guarantees.SizeWords
import Libdap.Guarantees.DDSText
import Libdap.Guarantees.DDSRoundTrip
import Libdap.Guarantees.DDSProjection
import Libdap.Library.Wire
import Libdap.Source.XDRScalars
import Libdap.Source.XDRFileUnMarshaller
import Libdap.Source.DataResponse
import Libdap.Guarantees.XDRFile
import Libdap.Guarantees.DataResponse
import Libdap.Library.Gathering
import Libdap.Source.AISResources
import Libdap.Source.AISDatabaseParser
import Libdap.Guarantees.AISAdditions
import Libdap.Guarantees.AISDatabase
import Libdap.Guarantees.AISReading
import Libdap.Guarantees.DDSAcceptance
import Libdap.Source.SequenceStream
import Libdap.Guarantees.SequenceStream
import Libdap.Guarantees.SequenceResponse
import Libdap.Library.Delimiting
import Libdap.Guarantees.TruncatedResponse
import Libdap.Source.XDRFileMarshaller
import Libdap.Guarantees.XDRMarshallers
import Libdap.Library.Yields
import Libdap.Guarantees.ResponseShape
import Libdap.Source.DapVersion
import Libdap.Source.DDXParserSAX2
import Libdap.Source.DASText
import Libdap.Guarantees.DMRNames
import Libdap.Source.SequenceRows
import Libdap.Source.SequenceTags
import Libdap.Source.Dataset
import Libdap.Guarantees.TableCopies
import Libdap.Source.Array
import Libdap.Source.AttributeTransfer
