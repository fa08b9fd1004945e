import Idb.Attributes
import Idb.Subkeys
import Idb.KeyPlaces
import Idb.KeyMap
import Idb.KeyDelete
import Idb.PageLimit
import Idb.Placement
import Idb.PathKeys
import Idb.Dots
import Idb.Containment
import Idb.Paging
import Idb.Duplicates
import Idb.PutReads
import Idb.Policies
import Idb.Patterns
import Idb.WorkingDir
import Idb.PutPlaces
import Idb.DirListing
import Idb.UrlCodec
import Idb.PathBetween
import Idb.Sessions
import Idb.DbPages
import Idb.Counters
import Idb.IntAttrs
import Idb.SubkeyCounts
import Idb.Aliases
import Idb.SplitOperations
import Idb.AttrNames
import Idb.Power
import Idb.StrToInt64
import Idb.CaseFolding
import Idb.LastPathName
import Idb.BsdList
import Idb.CharWalk
import Idb.UrlDecoding
import Idb.UrlEncoding
import Idb.XattrStore
import Idb.ConcurrentPuts
import Idb.SplitArgs
import Idb.SdsBuffer
import Idb.Darray
import Idb.ConcurrentPages
