import Libacorn.Support.Scan
import Libacorn.Support.Watch
import Libacorn.Support.Search
import Libacorn.Support.OrderedMap
import Libacorn.Support.Codec
import Libacorn.Support.Footprint
import Libacorn.Support.BlockStream
import Libacorn.Support.CutBehind
import Libacorn.Support.BothEnds
import Libacorn.Support.Ownership
import Libacorn.Support.ParentForest
import Libacorn.Support.Lockstep
import Libacorn.Val
import Libacorn.ValHeap
import Libacorn.ValOwnership
import Libacorn.ValPlaces
import Libacorn.ValOperations
import Libacorn.ValViews
import Libacorn.ValRelease
import Libacorn.ValSentinels
import Libacorn.ValAssignment
import Libacorn.ValIndependence
import Libacorn.ValAliasing
import Libacorn.Parse
import Libacorn.ParseSim
import Libacorn.Text
import Libacorn.Glyph
import Libacorn.Unicode
import Libacorn.Chars
import Libacorn.CharParse
import Libacorn.Termination
import Libacorn.ContentOnly
import Libacorn.Literal
import Libacorn.Decimal
import Libacorn.Document
import Libacorn.Json
import Libacorn.JsonStrings
import Libacorn.JsonComments
import Libacorn.Bytestream
import Libacorn.StreamRoundtrip
import Libacorn.StreamLeaves
import Libacorn.StreamInterleaving
import Libacorn.TruncationDetected
import Libacorn.StreamDestination
import Libacorn.StreamSafety
import Libacorn.StringCStr
import Libacorn.StringChars
import Libacorn.JsString
import Libacorn.JsArray
import Libacorn.HeadersCopy
import Libacorn.StringResets
import Libacorn.StringEdits
import Libacorn.Layout
import Libacorn.Views
import Libacorn.UnionVal
import Libacorn.UnionDiscipline
import Libacorn.UnionParse
import Libacorn.UnionReach
import Libacorn.StringSubstr
import Libacorn.StringSharing
import Libacorn.FindStr
import Libacorn.StringFind
import Libacorn.StringFindLast
import Libacorn.StringJoin
import Libacorn.StringSplit
import Libacorn.StringReplace
import Libacorn.ResolvePath
import Libacorn.CharNavigation
import Libacorn.StringSlice
import Libacorn.BareWords
import Libacorn.Items
import Libacorn.ImplicitArray
import Libacorn.StreamChunks
import Libacorn.Bytearray
import Libacorn.UrlCoding
import Libacorn.ValOrder
import Libacorn.Lengths
import Libacorn.Flex
import Libacorn.CharLoops
import Libacorn.Lowercase
import Libacorn.CharRanges
import Libacorn.Scanners
import Libacorn.ReadPast
import Libacorn.StringTrim
import Libacorn.HexCoding
import Libacorn.StringOrder
import Libacorn.Sha1
import Libacorn.Sha1Stream
import Libacorn.ViewTree
import Libacorn.ViewPrograms
import Libacorn.ViewOrder
import Libacorn.StreamMaps
import Libacorn.CityHash
import Libacorn.BytearrayHeap
import Libacorn.BytearrayPrograms
import Libacorn.Http
import Libacorn.HttpRequests
import Libacorn.Color
