import PathSet.Library.LinkedTree
import PathSet.Library.PrefixCount
import PathSet.Library.Fallible
import PathSet.Library.FirstSeen
import PathSet.Library.Numbered
import PathSet.Library.TreeWalk
import PathSet.Library.WordMix
import PathSet.Library.ProbeTable
import PathSet.Library.Buckets
import PathSet.Library.CString
import PathSet.Trie
import PathSet.TrieRepresents
import PathSet.TriePrint
import PathSet.TrieDictionary
import PathSet.LHash
import PathSet.LHashHolds
import PathSet.LHashGrowth
import PathSet.LHashDictionary
import PathSet.GHash
import PathSet.GHashHolds
import PathSet.GHashDictionary
import PathSet.ElemSet
import PathSet.PathElements
import PathSet.PathTrie
import PathSet.PathTrieRepresents
import PathSet.PathTrieDictionary
import PathSet.ElemSets
import PathSet.PathTrieHistory
import PathSet.SetLoad
import PathSet.Sets
import PathSet.SetValues
import PathSet.PathTrieCounts
import PathSet.SetPrint
import PathSet.PathTriePrint
import PathSet.HashRoom
import PathSet.Tables
import PathSet.PathSetCounters
import PathSet.PathTrieLookup
import PathSet.ObjAlloc
import PathSet.PathTrie32
import PathSet.PathTrie32Refines
import PathSet.PathTrie32Insert
import PathSet.PathTrie32Runs
import PathSet.Answers
import PathSet.PathSplit
import PathSet.TrieRuns
import PathSet.GHashTable
import PathSet.GHashSlots
import PathSet.GHashRuns
import PathSet.GHashRefines
import PathSet.LHashRuns
import PathSet.Reinsert
import PathSet.PrintElems
import PathSet.Library.Regions
import PathSet.Align
import PathSet.PoolAlloc
import PathSet.PoolAllocRuns
import PathSet.ObjAllocRuns
import PathSet.ByteAlloc
import PathSet.ByteAllocRuns
import PathSet.Library.Recycled
import PathSet.PtrOrder
import PathSet.Primes
import PathSet.LHashMemory
import PathSet.LHashBytes
import PathSet.GHashEntries
import PathSet.GHashEntriesHolds
import PathSet.GHashEntriesMoves
import PathSet.GHashEntriesInsert
import PathSet.GHashDelete
import PathSet.GHashEntriesRefines
import PathSet.GHashAlloc
import PathSet.Clocks
import PathSet.Library.Decimal
import PathSet.OptArg
import PathSet.Library.SortedBy
import PathSet.SepOptArg
import PathSet.SizeFrac
import PathSet.PathTriePrinter
import PathSet.GHashSession
import PathSet.Program
import PathSet.GHashSizes
import PathSet.StackPrinters
import PathSet.PooledElems
import PathSet.Library.Rows
import PathSet.SetStats
import PathSet.SetTallies
import PathSet.SetStatsRuns
