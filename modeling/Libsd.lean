import Libsd.CanonicalInPlace
import Libsd.Conditions
import Libsd.Renamed
import Libsd.Sound
import Libsd.Flattened
import Libsd.Mdl
import Libsd.WrittenFiles
import Libsd.EquationText
import Libsd.ParserMemory
import Libsd.LoadedModels
import Libsd.Unread
import Libsd.Decimation
import Libsd.CompleteRow
import Libsd.ConnectedInputs
import Libsd.ConsistentRows
import Libsd.ConstantRows
import Libsd.SlabBounds
import Libsd.Slices
import Libsd.StockUpdate
import Libsd.Strrepl
import Libsd.HashTable
import Libsd.HashTableCallbacks
import Libsd.HashTableIter
import Libsd.HashTableLoad
import Libsd.HashTableMap
import Libsd.LexerTiles
import Libsd.LoadedTrees
import Libsd.LexerTokens
import Libsd.LowerTokens
import Libsd.NumberTokens
import Libsd.QualNames
import Libsd.Lib.DepthFirst
import Libsd.Lib.LinearProbe
import Libsd.Lib.Precedence
import Libsd.BuilderStack
import Libsd.Operators
import Libsd.ParsePrecedence
import Libsd.PrintParse
import Libsd.QuotedNames
import Libsd.RunListsOrder
import Libsd.Schedule
import Libsd.Series
import Libsd.Sessions
import Libsd.SimSpecs
import Libsd.TablePoints
import Libsd.Termination
import Libsd.TokenMemory
import Libsd.UnarySigns
import Libsd.UnresolvedNames
import Libsd.VarNames
