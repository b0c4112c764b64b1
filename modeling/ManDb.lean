import ManDb.Lib.Separated
import ManDb.Text
import ManDb.Mandata
import ManDb.Keys
import ManDb.DbDelete
import ManDb.DbLookup
import ManDb.DbStore
import ManDb.Index.Group
import ManDb.Index.WellFormed
import ManDb.Index.StoreSituations
import ManDb.Index.StoreRefines
import ManDb.Precedence
import ManDb.Index.StoreMap
import ManDb.Index.Delete
import ManDb.Index.Lookup
import ManDb.Index.Reachable
import ManDb.Lib.Contest
import ManDb.Winner
import ManDb.Index.Layout
import ManDb.Index.Leftover
import ManDb.Index.Reproducible
import ManDb.Index.Namespaces
import ManDb.Decompress
import ManDb.Include
import ManDb.BackEnds
import ManDb.Lib.Decoding
import ManDb.Manconv.Manconv
import ManDb.Manconv.Lossless
import ManDb.Manconv.Buffers
import ManDb.Manconv.Charsets
import ManDb.Manconv.OneEncoding
import ManDb.Manconv.Utf8
import ManDb.Manconv.Client
import ManDb.Manconv.Space
import ManDb.Manconv.Retag
import ManDb.Manconv.Agreement
import ManDb.Xdbm
import ManDb.Iteration
import ManDb.Index.Homes
import ManDb.Index.Pointers
import ManDb.Index.Missing
import ManDb.Apropos
import ManDb.Index.Search
import ManDb.Filenames
import ManDb.DescriptionsStore
import ManDb.References
import ManDb.Candidates
import ManDb.CandidateOrder
import ManDb.CandidateList
import ManDb.Lib.Lexer
import ManDb.Zsoelim.Zsoelim
import ManDb.Zsoelim.Tokens
import ManDb.Zsoelim.Runs
import ManDb.Zsoelim.Depth
import ManDb.Zsoelim.LineNumbers
import ManDb.Zsoelim.Expand
import ManDb.Zsoelim.Copying
import ManDb.Cleanup
import ManDb.Security
import ManDb.Contents
import ManDb.Descriptions
import ManDb.Lib.Words
import ManDb.WordMatch
import ManDb.DisplayLine
import ManDb.Index.Resolve
import ManDb.Globbing
import ManDb.Lib.Encoding
import ManDb.Manconv.Chunks
import ManDb.Manconv.Targets
import ManDb.Manconv.SecondStage
import ManDb.Manconv.TagRewriting
import ManDb.Manpath
import ManDb.SystemManpath
import ManDb.Splice
import ManDb.LocalMan
import ManDb.PageKind
import ManDb.MultiKey
import ManDb.CatPages
import ManDb.Hierarchies
import ManDb.OrderFiles
import ManDb.Xcopy
import ManDb.ShellWord
import ManDb.Browser
import ManDb.BlankLines
import ManDb.Manconv.Validation
import ManDb.Preprocessors
import ManDb.LessPrompt
import ManDb.ScanTraces
import ManDb.Fsstnd
import ManDb.SectionRead
import ManDb.Lexgrog.CutOff
import ManDb.Lexgrog.Epilogue
import ManDb.Lexgrog.Returns
import ManDb.Lexgrog.Described
import ManDb.Publication.Runs
import ManDb.CatCache.Runs
import ManDb.Incremental.Runs
import ManDb.PageToWhatis
import ManDb.Catman
